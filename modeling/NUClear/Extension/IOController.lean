import Mathlib.Algebra.Order.Ring.Int
import Mathlib.Data.List.Basic
import Mathlib.Data.List.Perm.Basic
import NUClear.Foundation.BinarySearch
import NUClear.Foundation.Reachability

/-!
# The IO controller (`IOController_Posix.ipp`)

The controller polls a list of watches, each with a file descriptor and a mask of events, and keeps
a list of tasks that is sorted by the file descriptors.  The events that are reported go into
`waiting_events`; `fire_event` makes a reaction task for them, moves them to `processing_events` and
takes them out of the mask.  When the reaction task has run, `IOFinished` puts them back.

Everything but `poll` itself is done under `tasks_mutex`.  The loop over the watches after `poll` is
modelled one task at a time; until its end, no other operation gets the mutex.  What the model
leaves to the environment is what `poll` and `ioctl` report, and whether `get_task` makes a task of
an enabled reaction.  The hand-over of the poll thread (`notifier.mutex`) does not change any of the
data here; it is the subject of `IOWakeup`.

* `IOTask`, `Watch`, `IOController`: the data.  `IOJob` is a reaction task that is queued or
  running, with the task that it was made for.
* `rebuildList`, `fireEvent`, `finished`, `unbind`, `processWatch`, `collect`: the code.  A watch is
  searched for by `std::lower_bound` where the code does so, whether the list is sorted or not
  (`findWatch`).
* `Action`, `step`: what may happen next, in any order that the mutex allows.
* `step_configure` and so on: what a step does, with what its guard has tested, so that `step` is
  not unfolded after them.

A list that `std::sort` has sorted is given by the environment, as any list with the same tasks in
order: the code does not rely on the order of equal tasks.
-/

namespace NUClear
namespace Extension

open Foundation

/-- `event_t`, a `short`: one bit for each event, as `poll` uses them. -/
abbrev Events := BitVec 16

/-! `IO::EventType`. -/

namespace EventType

def READ : Events := 0x001
def WRITE : Events := 0x004
def CLOSE : Events := 0x010
def ERROR : Events := 0x028

end EventType

/-- `IOController::Task`: a reaction with the events that it listens for, those that wait to be
handed to it, and those that it is processing. -/
structure IOTask where
  fd : ℤ
  listening : Events
  waiting : Events
  processing : Events
  /-- The id of the reaction. -/
  reaction : ℕ
  /-- Which configuration made it; for the statements only. -/
  entry : ℕ
  deriving DecidableEq, Repr

/-- `operator<`: by the descriptor, and for one descriptor by the events that are listened for, as
signed numbers. -/
def IOTask.lt (lhs rhs : IOTask) : Bool :=
  if lhs.fd = rhs.fd then lhs.listening.slt rhs.listening else lhs.fd < rhs.fd

/-- `pollfd`: a descriptor, the mask of the events to poll for, and the events that `poll` has
reported. -/
structure Watch where
  fd : ℤ
  events : Events
  revents : Events
  deriving DecidableEq, Repr

/-- A reaction task that is queued or running. -/
structure IOJob where
  reaction : ℕ
  /-- The task in the list that it was made for. -/
  entry : ℕ
  deriving DecidableEq, Repr

/-- Where the loop of the controller is.  Between two of its steps handlers may run as far as
`tasks_mutex` lets them. -/
inductive Phase where
  | idle
  /-- `poll` has returned. -/
  | polled
  /-- At the head of the loop over the watches, with `tasks_mutex`. -/
  | atWatch (k : ℕ)
  /-- `process_event`: in the loop over the tasks of the watch `k`, with those that are left. -/
  | atTasks (k : ℕ) (maybeEof : Bool) (left : List ℕ)
  deriving DecidableEq, Repr

structure IOController where
  /-- `notifier.recv`. -/
  recv : ℤ
  dirty : Bool
  watches : List Watch
  tasks : List IOTask
  phase : Phase
  /-- `Reaction::enabled`. -/
  enabled : ℕ → Bool
  /-- The reaction tasks that are queued or running. -/
  jobs : List IOJob
  /-- Counts the configurations. -/
  entries : ℕ

namespace IOController

variable (s s' : IOController)

/-- One round of the loop of `rebuild_list`: the task belongs to the last watch, or a new watch is
made for its descriptor. -/
def rebuildStep (watches : List Watch) (r : IOTask) : List Watch :=
  match watches.getLast? with
  | none => watches
  | some w =>
      if r.fd = w.fd then
        watches.dropLast ++
          [{ w with events := (w.events ||| r.listening) &&& ~~~(r.processing ||| r.waiting) }]
      else watches ++ [⟨r.fd, r.listening &&& ~~~(r.processing ||| r.waiting), 0⟩]

/-- The watches that `rebuild_list` makes: that of the notifier first, whatever its descriptor is,
and then those of the sorted tasks. -/
def rebuiltWatches : List Watch :=
  s.tasks.foldl rebuildStep [⟨s.recv, EventType.READ ||| EventType.ERROR, 0⟩]

/-- `rebuild_list`: all watches are made anew from the tasks, with no event reported. -/
def rebuildList : IOController := { s with watches := s.rebuiltWatches, dirty := false }

/-- `std::lower_bound(watches.begin(), watches.end(), fd)`, which supposes that the watches are
sorted; that of the notifier need not be in its place. -/
def findWatch (fd : ℤ) : ℕ := lowerBound (fun w : Watch => w.fd < fd) s.watches

/-- The watch that the search finds has this descriptor. -/
def Finds (fd : ℤ) : Prop := ∃ w ∈ s.watches[s.findWatch fd]?, w.fd = fd

instance (fd : ℤ) : Decidable (s.Finds fd) :=
  inferInstanceAs (Decidable (∃ w ∈ s.watches[s.findWatch fd]?, w.fd = fd))

/-- The mask of the watch that is found is changed, if it is one of this descriptor; otherwise
nothing is. -/
def updateMask (fd : ℤ) (f : Events → Events) : List Watch :=
  match s.watches[s.findWatch fd]? with
  | none => s.watches
  | some w =>
      if w.fd = fd then s.watches.set (s.findWatch fd) { w with events := f w.events }
      else s.watches

/-- `fire_event`: when the task processes nothing and something waits, a reaction task is made for
what waits.  `made` tells whether the generator makes one, if the reaction is enabled. -/
def fireEvent (made : Bool) (i : ℕ) : IOController :=
  match s.tasks[i]? with
  | none => s
  | some task =>
      if task.processing = 0 ∧ task.waiting ≠ 0 then
        if s.enabled task.reaction && made then
          { s with
            tasks := s.tasks.set i { task with processing := task.waiting, waiting := 0 }
            watches := s.updateMask task.fd fun events => events &&& ~~~task.waiting
            jobs := s.jobs ++ [⟨task.reaction, task.entry⟩] }
        else
          { s with
            tasks := s.tasks.set i
              { task with waiting := task.waiting ||| task.processing, processing := 0 } }
      else s

/-- The events that `process_event` adds to those that wait: the reported ones that the task listens
for, and a CLOSE when there was nothing to read and the task is not reading. -/
def collected (task : IOTask) (revents : Events) (maybeEof : Bool) : IOTask :=
  let waiting := task.waiting ||| (task.listening &&& revents)
  { task with
    waiting := if maybeEof ∧ task.processing &&& EventType.READ = 0 then waiting ||| EventType.CLOSE
      else waiting }

def collect (revents : Events) (maybeEof : Bool) (i : ℕ) : IOController :=
  match s.tasks[i]? with
  | none => s
  | some task => { s with tasks := s.tasks.set i (collected task revents maybeEof) }

/-- `event.revents = 0`: the reports of this watch are done with, and the loop goes on to the next.
-/
def nextWatch (k : ℕ) : IOController :=
  { s with
    watches := s.watches.modify k fun w => { w with revents := 0 }
    phase := .atWatch (k + 1) }

/-- `process_event` up to the loop over the tasks of the watch.  `eof` tells whether a readable
descriptor has nothing to read. -/
def processWatch (eof : Bool) (k : ℕ) : IOController :=
  match s.watches[k]? with
  | none => { s with phase := .idle }
  | some w =>
      if w.revents = 0 then { s with phase := .atWatch (k + 1) }
      else if w.fd = s.recv then s.nextWatch k
      else
        -- `std::equal_range`
        let first := lowerBound (fun t : IOTask => t.fd < w.fd) s.tasks
        let last := lowerBound (fun t : IOTask => !(w.fd < t.fd)) s.tasks
        if first = s.tasks.length then { s with dirty := true }.nextWatch k
        else
          { s with
            phase := .atTasks k (w.revents &&& EventType.READ ≠ 0 && eof)
              (List.range' first (last - first)) }

/-- The handler of `IOFinished`.  It looks for the first task of the reaction; this is erased when
it has processed a CLOSE, and otherwise its events are polled for again and what waits is fired. -/
def finished (made : Bool) (id : ℕ) : IOController :=
  match s.tasks.findIdx? fun t => t.reaction == id with
  | none => s
  | some i =>
      match s.tasks[i]? with
      | none => s
      | some task =>
          if task.processing &&& EventType.CLOSE ≠ 0 then
            { s with dirty := true, tasks := s.tasks.eraseIdx i }
          else
            { s with
              watches := s.updateMask task.fd fun events => events ||| task.processing
              tasks := s.tasks.set i { task with processing := 0 } }.fireEvent made i

/-- The handler of `Unbind<IO>`: the first task of the reaction is erased, and the list is rebuilt
in any case. -/
def unbind (id : ℕ) : IOController :=
  match s.tasks.findIdx? fun t => t.reaction == id with
  | none => { s with dirty := true }
  | some i => { s with dirty := true, tasks := s.tasks.eraseIdx i }

/-- The loop of the controller does not hold `tasks_mutex`: it is outside of the processing of
events. -/
def mutexFree : Bool :=
  match s.phase with
  | .idle => true
  | .polled => true
  | _ => false

inductive Action where
  /-- `Configure IO Reaction`; `std::sort` leaves the tasks in this order. -/
  | configure (fd : ℤ) (events : Events) (reaction : ℕ) (sorted : List IOTask)
  | unbind (id : ℕ)
  | rebuild
  /-- `poll` reports these events. -/
  | poll (revents : List Events)
  /-- The loop over the watches goes on. -/
  | advance (eof made : Bool)
  /-- A reaction task has run; it emits `IOFinished` unless its callback throws. -/
  | finish (k : ℕ) (returned made : Bool)
  /-- `IOFinished` from a reaction task that was not made by `fire_event`. -/
  | finished (id : ℕ) (made : Bool)
  | setEnabled (reaction : ℕ) (enabled : Bool)

/-- The task that a configuration makes, with the number of the configuration. -/
def configured (fd : ℤ) (events : Events) (reaction : ℕ) : IOTask :=
  ⟨fd, events, 0, 0, reaction, s.entries⟩

def step : Action → Option IOController
  | .configure fd events reaction sorted =>
      -- the descriptor of the notifier is the controller's own
      if s.mutexFree ∧ fd ≠ s.recv ∧ sorted.Perm (s.tasks ++ [s.configured fd events reaction]) ∧
          sorted.Pairwise fun t u => ¬ u.lt t then
        some { s with tasks := sorted, dirty := true, entries := s.entries + 1 }
      else none
  | .unbind id => if s.mutexFree then some (s.unbind id) else none
  | .rebuild => if s.phase = .idle ∧ s.dirty then some s.rebuildList else none
  | .poll revents =>
      if s.phase = .idle ∧ revents.length = s.watches.length then
        some { s with
          watches := s.watches.zipWith (fun w e => { w with revents := e }) revents
          phase := .polled }
      else none
  | .advance eof made =>
      match s.phase with
      | .idle => none
      | .polled => some { s with phase := .atWatch 0 }
      | .atWatch k => some (s.processWatch eof k)
      | .atTasks k _ [] => some (s.nextWatch k)
      | .atTasks k maybeEof (i :: left) =>
          match s.watches[k]? with
          | none => none
          | some w =>
              some { (s.collect w.revents maybeEof i).fireEvent made i with
                phase := .atTasks k maybeEof left }
  | .finish k returned made =>
      match s.jobs[k]? with
      | none => none
      | some job =>
          if returned then
            if s.mutexFree then
              some ({ s with jobs := s.jobs.eraseIdx k }.finished made job.reaction)
            else none
          else some { s with jobs := s.jobs.eraseIdx k }
  | .finished id made => if s.mutexFree then some (s.finished made id) else none
  | .setEnabled reaction enabled =>
      some { s with enabled := Function.update s.enabled reaction enabled }

/-! ### What a step does -/

section

variable {s s' : IOController}

theorem step_configure {fd : ℤ} {events : Events} {reaction : ℕ} {sorted : List IOTask}
    (h : s.step (.configure fd events reaction sorted) = some s') :
    (s.mutexFree ∧ fd ≠ s.recv ∧ sorted.Perm (s.tasks ++ [s.configured fd events reaction]) ∧
      sorted.Pairwise fun t u => ¬ u.lt t) ∧
    s' = { s with tasks := sorted, dirty := true, entries := s.entries + 1 } := by
  simp only [step] at h
  split_ifs at h with hg
  exact ⟨hg, (Option.some.inj h).symm⟩

theorem step_unbind {id : ℕ} (h : s.step (.unbind id) = some s') :
    s.mutexFree ∧ s' = s.unbind id := by
  simp only [step] at h
  split_ifs at h with hfree
  exact ⟨hfree, (Option.some.inj h).symm⟩

theorem step_rebuild (h : s.step .rebuild = some s') :
    (s.phase = .idle ∧ s.dirty) ∧ s' = s.rebuildList := by
  simp only [step] at h
  split_ifs at h with hg
  exact ⟨hg, (Option.some.inj h).symm⟩

theorem step_poll {revents : List Events} (h : s.step (.poll revents) = some s') :
    (s.phase = .idle ∧ revents.length = s.watches.length) ∧
    s' = { s with
      watches := s.watches.zipWith (fun w e => { w with revents := e }) revents
      phase := .polled } := by
  simp only [step] at h
  split_ifs at h with hg
  exact ⟨hg, (Option.some.inj h).symm⟩

/-- The poll thread is before the first watch, at a watch, behind the tasks of one, or at a task. -/
theorem step_advance {eof made : Bool} (h : s.step (.advance eof made) = some s') :
    (s.phase = .polled ∧ s' = { s with phase := .atWatch 0 }) ∨
    (∃ k, s.phase = .atWatch k ∧ s' = s.processWatch eof k) ∨
    (∃ k b, s.phase = .atTasks k b [] ∧ s' = s.nextWatch k) ∨
    ∃ k b i left w, s.phase = .atTasks k b (i :: left) ∧ s.watches[k]? = some w ∧
      s' = { (s.collect w.revents b i).fireEvent made i with phase := .atTasks k b left } := by
  simp only [step] at h
  split at h
  · exact absurd h nofun
  · exact .inl ⟨‹_›, (Option.some.inj h).symm⟩
  · exact .inr (.inl ⟨_, ‹_›, (Option.some.inj h).symm⟩)
  · exact .inr (.inr (.inl ⟨_, _, ‹_›, (Option.some.inj h).symm⟩))
  · split at h
    · exact absurd h nofun
    · exact .inr (.inr (.inr ⟨_, _, _, _, _, ‹_›, ‹_›, (Option.some.inj h).symm⟩))

theorem step_finish {k : ℕ} {returned made : Bool}
    (h : s.step (.finish k returned made) = some s') :
    ∃ job, s.jobs[k]? = some job ∧
      ((returned = true ∧ s.mutexFree ∧
          s' = ({ s with jobs := s.jobs.eraseIdx k } : IOController).finished made job.reaction) ∨
        (returned ≠ true ∧ s' = { s with jobs := s.jobs.eraseIdx k })) := by
  simp only [step] at h
  split at h
  · exact absurd h nofun
  · refine ⟨_, ‹_›, ?_⟩
    split_ifs at h with hret hfree
    · exact .inl ⟨hret, hfree, (Option.some.inj h).symm⟩
    · exact .inr ⟨hret, (Option.some.inj h).symm⟩

theorem step_finished {id : ℕ} {made : Bool} (h : s.step (.finished id made) = some s') :
    s.mutexFree ∧ s' = s.finished made id := by
  simp only [step] at h
  split_ifs at h with hfree
  exact ⟨hfree, (Option.some.inj h).symm⟩

end

/-- After the construction, whose last act is the first `rebuild_list`: only the notifier is
watched. -/
def start (recv : ℤ) : IOController :=
  ⟨recv, false, [⟨recv, EventType.READ ||| EventType.ERROR, 0⟩], [], .idle, fun _ => true, [], 0⟩

end IOController

end Extension
end NUClear
