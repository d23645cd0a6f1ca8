import NUClear.Foundation.Reachability
import Mathlib.Data.Nat.Basic
import Mathlib.Tactic.Common

/-!
# The IO controller on Windows (`IOController_Windows.ipp`)

Each task has an event of its own.  The loop of the controller waits for one of these events, or for
that of the notifier, with `notifier.mutex` held.

## The events of a task

`WSAEnumNetworkEvents` forgets what it returns, so what it has reported is collected in
`waiting_events`, and when no reaction task is processing events, all that waits goes to a new one
(`fire_event`).  When a task is removed, what waits in it is lost: `IOFinished` removes it when
`CLOSE` was being processed, also if more was reported meanwhile, and `Unbind` removes it at once.

## The wait

The handlers hold `tasks_mutex` while they wake the loop up (`bump`): they set the event of the
notifier and then take `notifier.mutex`.  The loop resets that event with `tasks_mutex` held.  The
handler for shutdown does not hold `tasks_mutex`, but after it there is no further wait.

* `Controller`, `step`: the controller, the reaction tasks and the handlers.
* `Orderly`: each firing hands out what was reported since the one before, when nothing is in
  flight, and what is lost is what waits when the task is removed.
* `Recorded`: the tasks and the reaction tasks agree with the histories of their reactions.
* `events_exact_of_reaches`: the histories of all reactions are orderly, and what was reported was
  handed out, waits in the task or was lost with it.
* `attentive_of_reaches`: while the loop waits, it can wake up, or it watches every task and nobody
  waits for it.
-/

namespace NUClear
namespace Extension
namespace IOWindows

open Foundation

/-! ## The controller -/

/-- `event_t`, which is a `long`: one bit for each network event of the socket. -/
abbrev Events := BitVec 32

/-- `IO::CLOSE`, which is `FD_CLOSE`. -/
def CLOSE : Events := 0x20

structure Task where
  fd : ℕ
  listening : Events
  waiting : Events
  processing : Events
  /-- The id of the reaction. -/
  reaction : ℕ
  deriving DecidableEq, Repr

/-- A reaction task that is queued or running, with the descriptor and the events of its
`IO::Event`. -/
structure IOJob where
  reaction : ℕ
  fd : ℕ
  events : Events
  deriving DecidableEq, Repr

/-- What happens to the events of a reaction.  The history of these is what the statements about the
events speak of. -/
inductive Happening where
  /-- `WSAEnumNetworkEvents` returns them. -/
  | reported (events : Events)
  /-- A reaction task is submitted with them. -/
  | fired (events : Events)
  /-- `get_task` makes no reaction task. -/
  | refused
  /-- `IOFinished` arrives. -/
  | finished
  /-- The task is removed, and what waits is lost with it. -/
  | removed (waiting : Events)
  deriving DecidableEq, Repr

/-- Where the loop of the controller is, in the order of its accesses to what others change. -/
inductive LoopPoint where
  | loadRunning
  | loadDirty
  /-- `rebuild_list` waits for `tasks_mutex`. -/
  | rebuild
  /-- It waits for `notifier.mutex`. -/
  | lockNotifier
  /-- In `WSAWaitForMultipleEvents`, with the mutex held. -/
  | waiting
  /-- `process_event` waits for `tasks_mutex`. -/
  | process (event : ℕ)
  deriving DecidableEq, Repr

/-- Where `bump` is: it signals the notifier, and then waits until the loop has left its wait. -/
inductive BumpPoint where
  | signal
  /-- It waits for `notifier.mutex`. -/
  | lock
  deriving DecidableEq, Repr

structure Controller where
  /-- The event of the notifier. -/
  notifier : ℕ
  /-- It is set. -/
  signalled : Bool
  running : Bool
  dirty : Bool
  watches : List ℕ
  tasks : Std.TreeMap ℕ Task
  loop : LoopPoint
  /-- A handler holds `tasks_mutex` and is in `bump`. -/
  bump : Option BumpPoint
  /-- The handlers for shutdown that are about to signal. -/
  shutdownSignals : ℕ
  /-- And those that wait for `notifier.mutex`. -/
  shutdownLocks : ℕ
  /-- The reaction tasks that are queued or running. -/
  jobs : List IOJob
  /-- The reactions that have been configured. -/
  configured : List ℕ
  /-- What has happened, with the reaction, the last first. -/
  log : List (ℕ × Happening)

namespace Controller

variable (s : Controller)

/-- The constructor has rebuilt the list: it has the event of the notifier only. -/
def start (notifier : ℕ) : Controller where
  notifier := notifier
  signalled := false
  running := true
  dirty := false
  watches := [notifier]
  tasks := ∅
  loop := .loadRunning
  bump := none
  shutdownSignals := 0
  shutdownLocks := 0
  jobs := []
  configured := []
  log := []

/-- `rebuild_list`: the event of the notifier first, and those of all tasks. -/
def rebuildList : Controller := { s with watches := s.notifier :: s.tasks.keys, dirty := false }

/-- `fire_event`, for the task of this event: when nothing is processed and something waits, a
reaction task is made for what waits.  `made` tells whether `get_task` makes one; if not, what waits
goes on waiting. -/
def fireEvent (made : Bool) (event : ℕ) (task : Task) : Controller :=
  if task.processing = 0 ∧ task.waiting ≠ 0 then
    if made then
      { s with
        tasks := s.tasks.insert event { task with processing := task.waiting, waiting := 0 }
        jobs := s.jobs ++ [⟨task.reaction, task.fd, task.waiting⟩]
        log := (task.reaction, .fired task.waiting) :: s.log }
    else
      { s with
        tasks := s.tasks.insert event { task with waiting := 0 ||| task.waiting, processing := 0 }
        log := (task.reaction, .refused) :: s.log }
  else { s with tasks := s.tasks.insert event task }

/-- `process_event`.  `events` is what `WSAEnumNetworkEvents` returns; all of it waits then,
whatever the task listens for.  For an event without a task the list is rebuilt. -/
def processEvent (events : Events) (made : Bool) (event : ℕ) : Controller :=
  if event = s.notifier then { s with signalled := false }
  else
    match s.tasks[event]? with
    | some task =>
        ({ s with log := (task.reaction, .reported events) :: s.log } : Controller).fireEvent made
          event
          { task with waiting := task.waiting ||| events }
    | none => { s with dirty := true }

/-- The task of a reaction, by `std::find_if`: the first one in the order of the events. -/
def find (id : ℕ) : Option (ℕ × Task) := s.tasks.toList.find? fun x => x.2.reaction == id

/-- The handler of `IOFinished`: a task that has processed a CLOSE is removed with what waits in it,
and another one is fired again. -/
def finished (made : Bool) (id : ℕ) : Controller :=
  match s.find id with
  | some (event, task) =>
      if task.processing &&& CLOSE ≠ 0 then
        { s with
          dirty := true
          tasks := s.tasks.erase event
          log := (id, .finished) :: (task.reaction, .removed task.waiting) :: s.log }
      else
        ({ s with log := (id, .finished) :: s.log } : Controller).fireEvent made event
          { task with processing := 0 }
  | none => { s with log := (id, .finished) :: s.log }

/-- The handler of `Unbind<IO>`, up to `bump`: the task of the reaction is removed with what waits
in it. -/
def unbind (id : ℕ) : Controller :=
  match s.find id with
  | some (event, task) =>
      { s with
        dirty := true
        tasks := s.tasks.erase event
        bump := some .signal
        log := (task.reaction, .removed task.waiting) :: s.log }
  | none => { s with dirty := true, bump := some .signal }

/-- The loop goes on, up to the wait.  It takes `tasks_mutex` for `rebuild_list`, which a handler
has until its `bump` is over. -/
def advance : Option Controller :=
  match s.loop with
  | .loadRunning => some { s with loop := if s.running then .loadDirty else .loadRunning }
  | .loadDirty => some { s with loop := if s.dirty then .rebuild else .lockNotifier }
  | .rebuild => if s.bump = none then some { s.rebuildList with loop := .lockNotifier } else none
  | .lockNotifier => some { s with loop := .waiting }
  | .waiting => none
  | .process _ => none

end Controller

inductive Action where
  | loop
  /-- `WSAWaitForMultipleEvents` returns the index of this event. -/
  | wake (event : ℕ)
  /-- It returns no index. -/
  | waitFails
  | process (events : Events) (made : Bool)
  /-- `Configure IO Reaction`, with the event that is made for it. -/
  | configure (event fd : ℕ) (listening : Events) (reaction : ℕ)
  | unbind (id : ℕ)
  /-- A reaction task has run; it emits `IOFinished` unless its callback throws. -/
  | finish (k : ℕ) (returned made : Bool)
  /-- `IOFinished` from a reaction task that was not made by `fire_event`. -/
  | finished (id : ℕ) (made : Bool)
  /-- The handler that is in `bump` goes on. -/
  | bump
  | shutdown
  | shutdownSignal
  | shutdownLock

def step (s : Controller) : Action → Option Controller
  | .loop => s.advance
  | .wake event =>
      if s.loop = .waiting ∧ event ∈ s.watches ∧ (event = s.notifier → s.signalled = true) then
        some { s with loop := .process event }
      else none
  | .waitFails => if s.loop = .waiting then some { s with loop := .loadRunning } else none
  | .process events made =>
      match s.loop with
      | .process event =>
          if s.bump = none then some { s.processEvent events made event with loop := .loadRunning }
          else none
      | _ => none
  | .configure event fd listening reaction =>
      -- `WSACreateEvent` returns an event that is not in use
      if s.bump = none ∧ event ≠ s.notifier ∧ event ∉ s.tasks then
        some { s with
          tasks := s.tasks.insertIfNew event ⟨fd, listening, 0, 0, reaction⟩
          dirty := true
          bump := some .signal
          configured := reaction :: s.configured }
      else none
  | .unbind id => if s.bump = none then some (s.unbind id) else none
  | .finish k returned made =>
      match s.jobs[k]? with
      | some job =>
          if returned then
            if s.bump = none then
              some (({ s with jobs := s.jobs.eraseIdx k } : Controller).finished made job.reaction)
            else none
          else some { s with jobs := s.jobs.eraseIdx k }
      | none => none
  | .finished id made => if s.bump = none then some (s.finished made id) else none
  | .bump =>
      match s.bump with
      | some .signal => some { s with signalled := true, bump := some .lock }
      | some .lock => if s.loop = .waiting then none else some { s with bump := none }
      | none => none
  | .shutdown => some { s with running := false, shutdownSignals := s.shutdownSignals + 1 }
  | .shutdownSignal =>
      if 0 < s.shutdownSignals then
        some { s with
          signalled := true
          shutdownSignals := s.shutdownSignals - 1
          shutdownLocks := s.shutdownLocks + 1 }
      else none
  | .shutdownLock =>
      if 0 < s.shutdownLocks ∧ s.loop ≠ .waiting then
        some { s with shutdownLocks := s.shutdownLocks - 1 }
      else none

/-- What the steps do, one constructor for each, with what they must find.  The invariants of the
events and of the wait are shown over these. -/
inductive Moves (s : Controller) : Action → Controller → Prop
  | begin (hloop : s.loop = .loadRunning) (hrunning : s.running = true) :
      Moves s .loop { s with loop := .loadDirty }
  | stopped (hloop : s.loop = .loadRunning) : Moves s .loop { s with loop := .loadRunning }
  | stale (hloop : s.loop = .loadDirty) : Moves s .loop { s with loop := .rebuild }
  | clean (hloop : s.loop = .loadDirty) (hdirty : s.dirty = false) :
      Moves s .loop { s with loop := .lockNotifier }
  | rebuild (hloop : s.loop = .rebuild) : Moves s .loop { s.rebuildList with loop := .lockNotifier }
  | wait (hloop : s.loop = .lockNotifier) : Moves s .loop { s with loop := .waiting }
  | wake (event : ℕ) : Moves s (.wake event) { s with loop := .process event }
  | waitFails : Moves s .waitFails { s with loop := .loadRunning }
  | process (events : Events) (made : Bool) (event : ℕ) (hbump : s.bump = none) :
      Moves s (.process events made) { s.processEvent events made event with loop := .loadRunning }
  | configure (event fd : ℕ) (listening : Events) (reaction : ℕ) :
      Moves s (.configure event fd listening reaction) { s with
        tasks := s.tasks.insertIfNew event ⟨fd, listening, 0, 0, reaction⟩
        dirty := true
        bump := some .signal
        configured := reaction :: s.configured }
  | unbind (id : ℕ) : Moves s (.unbind id) (s.unbind id)
  | finish {k : ℕ} {job : IOJob} (returned made : Bool) (hk : s.jobs[k]? = some job) :
      Moves s (.finish k returned made)
        (({ s with jobs := s.jobs.eraseIdx k } : Controller).finished made job.reaction)
  | throw (k : ℕ) (returned made : Bool) :
      Moves s (.finish k returned made) { s with jobs := s.jobs.eraseIdx k }
  | finished (id : ℕ) (made : Bool) : Moves s (.finished id made) (s.finished made id)
  | signal : Moves s .bump { s with signalled := true, bump := some .lock }
  | lock (hbump : s.bump = some .lock) : Moves s .bump { s with bump := none }
  | shutdown : Moves s .shutdown { s with
    running := false, shutdownSignals := s.shutdownSignals + 1 }
  | shutdownSignal (hpos : 0 < s.shutdownSignals) : Moves s .shutdownSignal { s with
      signalled := true
      shutdownSignals := s.shutdownSignals - 1
      shutdownLocks := s.shutdownLocks + 1 }
  | shutdownLock (hpos : 0 < s.shutdownLocks) :
      Moves s .shutdownLock { s with shutdownLocks := s.shutdownLocks - 1 }

section

variable {s s' : Controller} {a : Action}

theorem moves_of_advance (h : s.advance = some s') : Moves s .loop s' := by
  rw [Controller.advance] at h
  split at h
  · obtain rfl := Option.some.inj h
    split_ifs with hrunning
    · exact .begin ‹_› hrunning
    · exact .stopped ‹_›
  · obtain rfl := Option.some.inj h
    split_ifs with hdirty
    · exact .stale ‹_›
    · exact .clean ‹_› (Bool.eq_false_iff.mpr hdirty)
  · split_ifs at h
    obtain rfl := Option.some.inj h
    exact .rebuild ‹_›
  · obtain rfl := Option.some.inj h
    exact .wait ‹_›
  · exact absurd h nofun
  · exact absurd h nofun

/-- **What a step does**: every step of the controller is one of these. -/
theorem moves_of_step (h : step s a = some s') : Moves s a s' := by
  cases a with
  | loop => exact moves_of_advance h
  | wake event =>
    simp only [step] at h
    split_ifs at h
    obtain rfl := Option.some.inj h
    exact .wake event
  | waitFails =>
    simp only [step] at h
    split_ifs at h
    obtain rfl := Option.some.inj h
    exact .waitFails
  | process events made =>
    simp only [step] at h
    split at h
    · split_ifs at h with hbump
      obtain rfl := Option.some.inj h
      exact .process events made _ hbump
    · exact absurd h nofun
  | configure event fd listening reaction =>
    simp only [step] at h
    split_ifs at h
    obtain rfl := Option.some.inj h
    exact .configure event fd listening reaction
  | unbind id =>
    simp only [step] at h
    split_ifs at h
    obtain rfl := Option.some.inj h
    exact .unbind id
  | finish k returned made =>
    simp only [step] at h
    split at h
    · split_ifs at h <;> obtain rfl := Option.some.inj h
      · exact .finish returned made ‹_›
      · exact .throw k returned made
    · exact absurd h nofun
  | finished id made =>
    simp only [step] at h
    split_ifs at h
    obtain rfl := Option.some.inj h
    exact .finished id made
  | bump =>
    simp only [step] at h
    split at h
    · obtain rfl := Option.some.inj h
      exact .signal
    · split_ifs at h
      obtain rfl := Option.some.inj h
      exact .lock ‹_›
    · exact absurd h nofun
  | shutdown =>
    obtain rfl := Option.some.inj h
    exact .shutdown
  | shutdownSignal =>
    simp only [step] at h
    split_ifs at h with hpos
    obtain rfl := Option.some.inj h
    exact .shutdownSignal hpos
  | shutdownLock =>
    simp only [step] at h
    split_ifs at h with hpos
    obtain rfl := Option.some.inj h
    exact .shutdownLock hpos.1

end

/-! ## Histories -/

/-- What has happened to the events of a reaction, the last first. -/
def history (log : List (ℕ × Happening)) (r : ℕ) : List Happening :=
  (log.filter fun x => x.1 == r).map Prod.snd

/-- What has been reported since the last firing, and not been lost with the task: what should be
waiting. -/
def unfired : List Happening → Events
  | [] => 0
  | .reported events :: l => unfired l ||| events
  | .fired _ :: _ => 0
  | .refused :: l => unfired l
  | .finished :: l => unfired l
  | .removed _ :: _ => 0

/-- What the last firing handed out, if its reaction task has not finished: what should be being
processed. -/
def inFlight : List Happening → Events
  | [] => 0
  | .reported _ :: l => inFlight l
  | .fired events :: _ => events
  | .refused :: l => inFlight l
  | .finished :: _ => 0
  | .removed _ :: l => inFlight l

/-- All that has been reported for a reaction, in its whole history. -/
def allReported : List Happening → Events
  | [] => 0
  | .reported events :: l => allReported l ||| events
  | _ :: l => allReported l

/-- All that has been handed out to reaction tasks, in the whole history of a reaction. -/
def allFired : List Happening → Events
  | [] => 0
  | .fired events :: l => allFired l ||| events
  | _ :: l => allFired l

/-- All that was lost with a task of the reaction that was removed. -/
def allLost : List Happening → Events
  | [] => 0
  | .removed waiting :: l => allLost l ||| waiting
  | _ :: l => allLost l

/-- **An orderly history.**  It fires when nothing is in flight and something waits, and then all
that waits; and what waits when the task is removed is lost. -/
inductive Orderly : List Happening → Prop
  | nil : Orderly []
  | reported {l : List Happening} (h : Orderly l) (events : Events) : Orderly
    (.reported events :: l)
  | fired {l : List Happening} (h : Orderly l) (hidle : inFlight l = 0) (hne : unfired l ≠ 0) :
      Orderly (.fired (unfired l) :: l)
  | refused {l : List Happening} (h : Orderly l) (hidle : inFlight l = 0) (hne : unfired l ≠ 0) :
      Orderly (.refused :: l)
  | finished {l : List Happening} (h : Orderly l) : Orderly (.finished :: l)
  | removed {l : List Happening} (h : Orderly l) : Orderly (.removed (unfired l) :: l)

theorem or_none (events : Events) : events ||| 0 = events := BitVec.or_zero

/-- **Every event is accounted for.**  What has been reported has been handed out, or was lost with
the task, or it waits. -/
theorem Orderly.allReported_eq {l : List Happening} (h : Orderly l) :
    allReported l = allFired l ||| allLost l ||| unfired l := by
  induction h with
  | nil => rfl
  | @reported l _ events ih =>
    show allReported l ||| events = allFired l ||| allLost l ||| (unfired l ||| events)
    rw [ih, BitVec.or_assoc]
  | @fired l _ _ _ ih =>
    show allReported l = allFired l ||| unfired l ||| allLost l ||| 0
    rw [ih, or_none, BitVec.or_assoc, BitVec.or_assoc, BitVec.or_comm (allLost l)]
  | refused _ _ _ ih => exact ih
  | finished _ ih => exact ih
  | @removed l _ ih =>
    show allReported l = allFired l ||| (allLost l ||| unfired l) ||| 0
    rw [ih, or_none, BitVec.or_assoc]

section

variable {log : List (ℕ × Happening)} {r r' : ℕ} {x : Happening}

theorem history_cons_self : history ((r, x) :: log) r = x :: history log r := by
  rw [history, List.filter_cons_of_pos (by exact beq_self_eq_true r)]
  rfl

theorem history_cons_of_ne (h : r ≠ r') : history ((r, x) :: log) r' = history log r' := by
  rw [history, List.filter_cons_of_neg (by simpa using h), history]

end

/-! ## The tasks -/

section

variable {tasks : Std.TreeMap ℕ Task} {event event' : ℕ} {task task' : Task}

theorem getElem?_insert (h : (tasks.insert event task)[event']? = some task') :
    (event' = event ∧ task' = task) ∨ (event' ≠ event ∧ tasks[event']? = some task') := by
  rw [Std.TreeMap.getElem?_insert] at h
  split_ifs at h with heq
  · exact .inl ⟨(compare_eq_iff_eq.mp heq).symm, (Option.some.inj h).symm⟩
  · exact .inr ⟨fun he => heq (compare_eq_iff_eq.mpr he.symm), h⟩

theorem getElem?_insertIfNew (h : (tasks.insertIfNew event task)[event']? = some task') :
    (event' = event ∧ task' = task) ∨ tasks[event']? = some task' := by
  rw [Std.TreeMap.getElem?_insertIfNew] at h
  split_ifs at h with heq
  · exact .inl ⟨(compare_eq_iff_eq.mp heq.1).symm, (Option.some.inj h).symm⟩
  · exact .inr h

theorem getElem?_erase (h : (tasks.erase event)[event']? = some task') :
    event' ≠ event ∧ tasks[event']? = some task' := by
  rw [Std.TreeMap.getElem?_erase] at h
  split_ifs at h with heq
  exact ⟨fun he => heq (compare_eq_iff_eq.mpr he.symm), h⟩

end

section

variable {s s' : Controller} {event id : ℕ} {task : Task} {made : Bool}

theorem find_some (h : s.find id = some (event, task)) :
    s.tasks[event]? = some task ∧ task.reaction = id :=
  ⟨Std.TreeMap.mem_toList_iff_getElem?_eq_some.mp (List.mem_of_find?_eq_some h),
    eq_of_beq (List.find?_some h :)⟩

theorem find_none (h : s.find id = none) (ht : s.tasks[event]? = some task) : task.reaction ≠ id :=
  fun he => List.find?_eq_none.mp h _ (Std.TreeMap.mem_toList_iff_getElem?_eq_some.mpr ht)
    (beq_iff_eq.mpr he)

end

/-! ## The invariant of the tasks -/

/-- A task agrees with the history of its reaction: what waits in it and what it processes are what
the history says, and it is fired as soon as it can be. -/
structure Kept (l : List Happening) (task : Task) : Prop where
  waiting : task.waiting = unfired l
  processing : task.processing = inFlight l
  prompt : task.processing = 0 → task.waiting ≠ 0 → l.head? = some .refused

/-- A job agrees with the history of its reaction: it carries what is in flight. -/
structure Carried (l : List Happening) (job : IOJob) : Prop where
  events : inFlight l = job.events
  ne_zero : job.events ≠ 0

/-- **The invariant**: every history is orderly, and the tasks and the jobs agree with the histories
of their reactions. -/
structure Recorded (tasks : Std.TreeMap ℕ Task) (log : List (ℕ × Happening)) (jobs : List IOJob)
    (configured : List ℕ) : Prop where
  orderly : ∀ r, Orderly (history log r)
  kept : ∀ (event : ℕ) (task : Task), tasks[event]? = some task →
    Kept (history log task.reaction) task
  unique : ∀ (event : ℕ) (task : Task) (event' : ℕ) (task' : Task), tasks[event]? = some task →
    tasks[event']? = some task' → task.reaction = task'.reaction → event = event'
  registered : ∀ (event : ℕ) (task : Task), tasks[event]? = some task → task.reaction ∈ configured
  fresh : ∀ r, r ∉ configured → unfired (history log r) = 0 ∧ inFlight (history log r) = 0
  single : jobs.Pairwise fun job job' => job.reaction ≠ job'.reaction
  carried : ∀ job ∈ jobs, Carried (history log job.reaction) job
  jobRegistered : ∀ job ∈ jobs, job.reaction ∈ configured
  gone : ∀ r, (∀ (event : ℕ) (task : Task), tasks[event]? = some task → task.reaction ≠ r) →
    unfired (history log r) = 0
  fd : ∀ job ∈ jobs, ∀ (event : ℕ) (task : Task), tasks[event]? = some task →
    task.reaction = job.reaction →
    job.fd = task.fd

section

variable {tasks : Std.TreeMap ℕ Task} {log log' : List (ℕ × Happening)} {jobs jobs' : List IOJob}
  {configured : List ℕ} {event event' : ℕ} {task task' : Task} {r id : ℕ}

theorem Recorded.start : Recorded ∅ [] [] [] where
  orderly _ := .nil
  kept event task ht := by rw [Std.TreeMap.getElem?_emptyc] at ht; exact absurd ht nofun
  unique event task _ _ ht := by rw [Std.TreeMap.getElem?_emptyc] at ht; exact absurd ht nofun
  registered event task ht := by rw [Std.TreeMap.getElem?_emptyc] at ht; exact absurd ht nofun
  fresh _ _ := ⟨rfl, rfl⟩
  single := .nil
  carried _ hjob := absurd hjob List.not_mem_nil
  jobRegistered _ hjob := absurd hjob List.not_mem_nil
  gone _ _ := rfl
  fd _ hjob := absurd hjob List.not_mem_nil

/-- Something happens to one task, its reaction and its job; the others agree with their histories
as before. -/
theorem Recorded.update (h : Recorded tasks log jobs configured) (ht : tasks[event]? = some task)
    (hreaction : task'.reaction = task.reaction) (hfd : task'.fd = task.fd)
    (hother : ∀ r, r ≠ task.reaction → history log' r = history log r)
    (horderly : Orderly (history log' task.reaction))
    (hkept : Kept (history log' task.reaction) task')
    (hsingle : jobs'.Pairwise fun job job' => job.reaction ≠ job'.reaction)
    (hjobs : ∀ job ∈ jobs', job.reaction ≠ task.reaction → job ∈ jobs)
    (hjob : ∀ job ∈ jobs', job.reaction = task.reaction →
      Carried (history log' task.reaction) job ∧ job.fd = task.fd) :
    Recorded (tasks.insert event task') log' jobs' configured where
  orderly r := by
    by_cases hr : r = task.reaction
    · rw [hr]
      exact horderly
    · rw [hother r hr]
      exact h.orderly r
  kept e t he := by
    rcases getElem?_insert he with ⟨rfl, rfl⟩ | ⟨hne, he⟩
    · rw [hreaction]
      exact hkept
    · rw [hother _ fun hr => hne (h.unique _ _ _ _ he ht hr)]
      exact h.kept e t he
  unique e t e' t' he he' hr := by
    rcases getElem?_insert he with ⟨rfl, rfl⟩ | ⟨-, hold⟩ <;>
      rcases getElem?_insert he' with ⟨rfl, rfl⟩ | ⟨-, hold'⟩
    · rfl
    · exact h.unique _ _ _ _ ht hold' (hreaction.symm.trans hr)
    · exact h.unique _ _ _ _ hold ht (hr.trans hreaction)
    · exact h.unique _ _ _ _ hold hold' hr
  registered e t he := by
    rcases getElem?_insert he with ⟨rfl, rfl⟩ | ⟨-, he⟩
    · rw [hreaction]
      exact h.registered _ _ ht
    · exact h.registered e t he
  fresh r hr := by
    rw [hother r fun hr' => hr (hr' ▸ h.registered _ _ ht)]
    exact h.fresh r hr
  single := hsingle
  carried job hj := by
    by_cases hr : job.reaction = task.reaction
    · rw [hr]
      exact (hjob job hj hr).1
    · rw [hother _ hr]
      exact h.carried job (hjobs job hj hr)
  jobRegistered job hj := by
    by_cases hr : job.reaction = task.reaction
    · rw [hr]
      exact h.registered _ _ ht
    · exact h.jobRegistered job (hjobs job hj hr)
  gone r hr := by
    have hne : task.reaction ≠ r := hreaction ▸ hr event task' (by
      rw [Std.TreeMap.getElem?_insert_self])
    rw [hother r hne.symm]
    refine h.gone r fun e t he => ?_
    by_cases heq : e = event
    · subst heq
      rwa [Option.some.inj (he.symm.trans ht)]
    · refine hr e t ?_
      rw [Std.TreeMap.getElem?_insert, if_neg fun hc => heq (compare_eq_iff_eq.mp hc).symm]
      exact he
  fd job hj e t he hr := by
    rcases getElem?_insert he with ⟨rfl, rfl⟩ | ⟨hne, he⟩
    · rw [hfd]
      exact (hjob job hj (hr.symm.trans hreaction)).2
    · have hr' : job.reaction ≠ task.reaction :=
        fun hr' => hne (h.unique _ _ _ _ he ht (hr.trans hr'))
      exact h.fd job (hjobs job hj hr') e t he hr

/-- A task is removed, and what waits is lost; a job of it stays, and finishes alone. -/
theorem Recorded.erase (h : Recorded tasks log jobs configured) (ht : tasks[event]? = some task) :
    Recorded (tasks.erase event) ((task.reaction, .removed task.waiting) :: log) jobs
      configured where
  orderly r := by
    by_cases hr : task.reaction = r
    · subst hr
      rw [history_cons_self, (h.kept event task ht).waiting]
      exact (h.orderly _).removed
    · rw [history_cons_of_ne hr]
      exact h.orderly r
  kept e t he := by
    obtain ⟨hne, he⟩ := getElem?_erase he
    rw [history_cons_of_ne fun hr => hne (h.unique _ _ _ _ he ht hr.symm)]
    exact h.kept e t he
  unique e t e' t' he he' := h.unique e t e' t' (getElem?_erase he).2 (getElem?_erase he').2
  registered e t he := h.registered e t (getElem?_erase he).2
  fresh r hr := by
    have hne : task.reaction ≠ r := fun heq => hr (heq ▸ h.registered event task ht)
    rw [history_cons_of_ne hne]
    exact h.fresh r hr
  single := h.single
  carried job hj := by
    by_cases hr : task.reaction = job.reaction
    · rw [hr, history_cons_self]
      exact ⟨(h.carried job hj).events, (h.carried job hj).ne_zero⟩
    · rw [history_cons_of_ne hr]
      exact h.carried job hj
  jobRegistered := h.jobRegistered
  gone r hr := by
    by_cases heq : task.reaction = r
    · subst heq
      rw [history_cons_self]
      rfl
    · rw [history_cons_of_ne heq]
      refine h.gone r fun e t he hr' => ?_
      have hne : e ≠ event := fun hee =>
        heq (by rw [Option.some.inj (ht.symm.trans (hee ▸ he)), hr'])
      exact hr e t (by rwa [Std.TreeMap.getElem?_erase,
        if_neg fun hc => hne (compare_eq_iff_eq.mp hc).symm]) hr'
  fd job hj e t he := h.fd job hj e t (getElem?_erase he).2

/-- A job is taken away, since its reaction task has ended. -/
theorem Recorded.eraseJob (h : Recorded tasks log jobs configured) (k : ℕ) :
    Recorded tasks log (jobs.eraseIdx k) configured where
  orderly := h.orderly
  kept := h.kept
  unique := h.unique
  registered := h.registered
  fresh := h.fresh
  single := h.single.sublist (List.eraseIdx_sublist ..)
  carried job hj := h.carried job (List.mem_of_mem_eraseIdx hj)
  jobRegistered job hj := h.jobRegistered job (List.mem_of_mem_eraseIdx hj)
  gone := h.gone
  fd job hj := h.fd job (List.mem_of_mem_eraseIdx hj)

/-- A reaction without a task finishes: nothing is in flight then. -/
theorem Recorded.finishedAlone (h : Recorded tasks log jobs configured)
    (htasks : ∀ (event : ℕ) (task : Task), tasks[event]? = some task → task.reaction ≠ id)
    (hjobs : ∀ job ∈ jobs, job.reaction ≠ id) :
    Recorded tasks ((id, .finished) :: log) jobs configured where
  orderly r := by
    by_cases hr : id = r
    · subst hr
      rw [history_cons_self]
      exact (h.orderly id).finished
    · rw [history_cons_of_ne hr]
      exact h.orderly r
  kept e t he := by
    rw [history_cons_of_ne (htasks e t he).symm]
    exact h.kept e t he
  unique := h.unique
  registered := h.registered
  fresh r hr := by
    by_cases hid : id = r
    · subst hid
      rw [history_cons_self]
      exact ⟨(h.fresh id hr).1, rfl⟩
    · rw [history_cons_of_ne hid]
      exact h.fresh r hr
  single := h.single
  carried job hj := by
    rw [history_cons_of_ne (hjobs job hj).symm]
    exact h.carried job hj
  jobRegistered := h.jobRegistered
  gone r hr := by
    by_cases hid : id = r
    · subst hid
      rw [history_cons_self]
      exact h.gone id hr
    · rw [history_cons_of_ne hid]
      exact h.gone r hr
  fd := h.fd

/-- A new reaction is configured: nothing has happened to it yet. -/
theorem Recorded.configure (h : Recorded tasks log jobs configured)
    (hr : task.reaction ∉ configured) (hw : task.waiting = 0) (hp : task.processing = 0) :
    Recorded (tasks.insertIfNew event task) log jobs (task.reaction :: configured) where
  orderly := h.orderly
  kept e t he := by
    rcases getElem?_insertIfNew he with ⟨rfl, rfl⟩ | he
    · obtain ⟨hunfired, hflight⟩ := h.fresh _ hr
      exact ⟨hw.trans hunfired.symm, hp.trans hflight.symm, fun _ hne => absurd hw hne⟩
    · exact h.kept e t he
  unique e t e' t' he he' heq := by
    rcases getElem?_insertIfNew he with ⟨rfl, rfl⟩ | hold <;>
      rcases getElem?_insertIfNew he' with ⟨rfl, rfl⟩ | hold'
    · rfl
    · exact absurd (heq ▸ h.registered _ _ hold') hr
    · exact absurd (heq ▸ h.registered _ _ hold) hr
    · exact h.unique _ _ _ _ hold hold' heq
  registered e t he := by
    rcases getElem?_insertIfNew he with ⟨rfl, rfl⟩ | he
    · exact List.mem_cons_self ..
    · exact List.mem_cons_of_mem _ (h.registered e t he)
  fresh r hr' := h.fresh r fun hmem => hr' (List.mem_cons_of_mem _ hmem)
  single := h.single
  carried := h.carried
  jobRegistered job hj := List.mem_cons_of_mem _ (h.jobRegistered job hj)
  gone r hr' := by
    by_cases heq : task.reaction = r
    · exact (h.fresh r (heq ▸ hr)).1
    · refine h.gone r fun e t he => ?_
      by_cases hee : e = event
      · subst hee
        exact hr' e t (by
          rw [Std.TreeMap.getElem?_insertIfNew,
            if_neg fun hc => hc.2 (Std.TreeMap.mem_iff_isSome_getElem?.mpr (he ▸ rfl))]
          exact he)
      · exact hr' e t (by
          rw [Std.TreeMap.getElem?_insertIfNew,
            if_neg fun hc => hee (compare_eq_iff_eq.mp hc.1).symm]
          exact he)
  fd job hj e t he heq := by
    rcases getElem?_insertIfNew he with ⟨rfl, rfl⟩ | he
    · exact absurd (heq ▸ h.jobRegistered job hj) hr
    · exact h.fd job hj e t he heq

end

namespace Controller

variable {s s' : Controller} {event id : ℕ} {task task' : Task} {made : Bool}

/-- The parts of the state that the invariant is about. -/
def Recorded (s : Controller) : Prop := IOWindows.Recorded s.tasks s.log s.jobs s.configured

/-- **`fire_event`**, of a task that has just been changed: it agrees with its history but for the
firing that may be due, and does so with it. -/
theorem recorded_fireEvent {log : List (ℕ × Happening)}
    (h : IOWindows.Recorded s.tasks log s.jobs s.configured) (ht : s.tasks[event]? = some task)
    (hreaction : task'.reaction = task.reaction) (hfd : task'.fd = task.fd)
    (hother : ∀ r, r ≠ task.reaction → history s.log r = history log r)
    (horderly : Orderly (history s.log task.reaction))
    (hwaiting : task'.waiting = unfired (history s.log task.reaction))
    (hprocessing : task'.processing = inFlight (history s.log task.reaction))
    (hjob : ∀ job ∈ s.jobs, job.reaction = task.reaction →
    Carried (history s.log task.reaction) job) :
    (s.fireEvent made event task').Recorded := by
  have hjob' : ∀ job ∈ s.jobs, job.reaction = task.reaction →
      Carried (history s.log task.reaction) job ∧ job.fd = task.fd := fun job hj hr =>
    ⟨hjob job hj hr, h.fd job hj event task ht hr.symm⟩
  have hcons : ∀ x r, r ≠ task.reaction → history ((task.reaction, x) :: s.log) r = history log r :=
    fun x r hr => (history_cons_of_ne hr.symm).trans (hother r hr)
  rw [fireEvent]
  split_ifs with hfire hmade
  · -- all that waits is handed out, and nothing is in flight of this reaction
    obtain ⟨hidle, hne⟩ := hfire
    have hnone : ∀ job ∈ s.jobs, job.reaction ≠ task.reaction := fun job hj hr =>
      (hjob job hj hr).ne_zero ((hjob job hj hr).events.symm.trans (hprocessing.symm.trans hidle))
    have hcarried : Carried (history ((task'.reaction, .fired task'.waiting) ::
      s.log) task.reaction)
        ⟨task'.reaction, task'.fd, task'.waiting⟩ := by
      rw [hreaction, history_cons_self]
      exact ⟨rfl, hne⟩
    refine h.update ht hreaction hfd ?_ ?_ ?_ ?_ ?_ ?_
    · rw [hreaction]
      exact hcons _
    · rw [hreaction, history_cons_self, hwaiting]
      exact horderly.fired (hprocessing.symm.trans hidle) (hwaiting ▸ hne)
    · rw [hreaction, history_cons_self]
      exact ⟨rfl, rfl, fun hzero => absurd hzero hne⟩
    · refine List.pairwise_append.mpr ⟨h.single, List.pairwise_singleton ..,
        fun job hj job' hj' => ?_⟩
      rw [List.mem_singleton.mp hj']
      exact fun hr => hnone job hj (hr.trans hreaction)
    · intro job hj hr
      rcases List.mem_append.mp hj with hj | hj
      · exact hj
      · rw [List.mem_singleton.mp hj] at hr
        exact absurd hreaction hr
    · intro job hj hr
      rcases List.mem_append.mp hj with hj | hj
      · exact absurd hr (hnone job hj)
      · rw [List.mem_singleton.mp hj]
        exact ⟨hcarried, hfd⟩
  · obtain ⟨hidle, hne⟩ := hfire
    refine h.update ht hreaction hfd ?_ ?_ ?_ h.single (fun _ hj _ => hj) ?_
    · rw [hreaction]
      exact hcons _
    · rw [hreaction, history_cons_self]
      exact horderly.refused (hprocessing.symm.trans hidle) (hwaiting ▸ hne)
    · rw [hreaction, history_cons_self]
      exact ⟨BitVec.zero_or.trans hwaiting, hidle.symm.trans hprocessing, fun _ _ => rfl⟩
    · intro job hj hr
      rw [hreaction, history_cons_self]
      exact ⟨⟨(hjob job hj hr).events, (hjob job hj hr).ne_zero⟩, (hjob' job hj hr).2⟩
  · exact h.update ht hreaction hfd hother horderly
      ⟨hwaiting, hprocessing, fun hidle hne => absurd ⟨hidle, hne⟩ hfire⟩ h.single
        (fun _ hj _ => hj) hjob'

theorem recorded_processEvent {events : Events} (h : s.Recorded) :
    (s.processEvent events made event).Recorded := by
  rw [processEvent]
  split_ifs with hnotifier
  · exact h
  · split
    · rename_i task ht
      have hkept := h.kept event task ht
      refine recorded_fireEvent h ht rfl rfl (fun r hr => history_cons_of_ne hr.symm) ?_ ?_ ?_ ?_
      · rw [history_cons_self]
        exact (h.orderly _).reported events
      · rw [history_cons_self]
        exact congrArg (fun w => w ||| events) hkept.waiting
      · rw [history_cons_self]
        exact hkept.processing
      · intro job hj hr
        rw [history_cons_self, ← hr]
        exact ⟨(h.carried job hj).events, (h.carried job hj).ne_zero⟩
    · exact h

theorem recorded_finished (h : s.Recorded) (hjobs : ∀ job ∈ s.jobs, job.reaction ≠ id) :
    (s.finished made id).Recorded := by
  rw [finished]
  split
  · rename_i event task hfind
    obtain ⟨ht, hid⟩ := find_some hfind
    have hkept := h.kept event task ht
    split_ifs with hclose
    · refine (IOWindows.Recorded.erase h ht).finishedAlone (fun e t he hr => ?_) hjobs
      obtain ⟨hne, he⟩ := getElem?_erase he
      exact hne (h.unique _ _ _ _ he ht (hr.trans hid.symm))
    · subst hid
      refine recorded_fireEvent h ht rfl rfl (fun r hr => history_cons_of_ne hr.symm) ?_ ?_ ?_ ?_
      · rw [history_cons_self]
        exact (h.orderly _).finished
      · rw [history_cons_self]
        exact hkept.waiting
      · rw [history_cons_self]
        rfl
      · exact fun job hj hr => absurd hr (hjobs job hj)
  · rename_i hfind
    exact IOWindows.Recorded.finishedAlone h (fun e t he => find_none hfind he) hjobs

end Controller

/-- A reaction is configured once, and nothing else finishes it while it processes events. -/
def Wired (s : Controller) : Action → Prop
  | .configure _ _ _ reaction => reaction ∉ s.configured
  | .finished id _ => ∀ job ∈ s.jobs, job.reaction ≠ id
  | _ => True

instance (s : Controller) : ∀ a, Decidable (Wired s a)
  | .configure _ _ _ reaction => inferInstanceAs (Decidable (reaction ∉ s.configured))
  | .finished id _ => inferInstanceAs (Decidable (∀ job ∈ s.jobs, job.reaction ≠ id))
  | .loop | .wake _ | .waitFails | .process .. | .unbind _ | .finish .. | .bump => .isTrue trivial
  | .shutdown | .shutdownSignal | .shutdownLock => .isTrue trivial

section

variable {s s' : Controller} {a : Action}

theorem recorded_unbind {id : ℕ} (h : s.Recorded) : (s.unbind id).Recorded := by
  rw [Controller.unbind]
  split
  · rename_i event task hfind
    exact IOWindows.Recorded.erase h (find_some hfind).1
  · exact h

/-- A job is the only one of its reaction, so the others are of other reactions. -/
theorem ne_of_mem_eraseIdx {jobs : List IOJob}
    (h : jobs.Pairwise fun job job' => job.reaction ≠ job'.reaction) {k : ℕ} {job : IOJob}
    (hk : jobs[k]? = some job) : ∀ job' ∈ jobs.eraseIdx k, job'.reaction ≠ job.reaction := by
  induction jobs generalizing k with
  | nil => exact absurd hk nofun
  | cons first jobs ih =>
    obtain ⟨hfirst, hrest⟩ := List.pairwise_cons.mp h
    cases k with
    | zero =>
      obtain rfl := Option.some.inj hk
      exact fun job' hj => (hfirst job' hj).symm
    | succ k =>
      intro job' hj
      rcases List.mem_cons.mp hj with rfl | hj
      · exact hfirst job (List.mem_of_getElem? hk)
      · exact ih hrest hk job' hj

/-- **Every step keeps the invariant**, when a reaction is configured once and only its reaction
task finishes it. -/
theorem recorded_step (h : s.Recorded) (hw : Wired s a) (hst : step s a = some s') :
    s'.Recorded := by
  cases moves_of_step hst with
  | begin | stopped | stale | clean | rebuild | wait | wake | waitFails => exact h
  | process => exact Controller.recorded_processEvent h
  | configure => exact IOWindows.Recorded.configure h hw rfl rfl
  | unbind => exact recorded_unbind h
  | finish _ _ hk =>
    exact Controller.recorded_finished (h.eraseJob _) (ne_of_mem_eraseIdx h.single hk)
  | throw k => exact h.eraseJob k
  | finished => exact Controller.recorded_finished h hw
  | signal | lock | shutdown | shutdownSignal | shutdownLock => exact h

theorem recorded_of_reaches {notifier : ℕ} (h : Reaches step Wired (.start notifier) s) :
    s.Recorded :=
  h.invariant (P := Controller.Recorded) Recorded.start fun _ _ _ hs hw hst =>
    recorded_step hs hw hst

end

/-- The reaction has no task (any more): it was not configured, or its task was removed. -/
def Controller.Gone (s : Controller) (r : ℕ) : Prop :=
  ∀ (event : ℕ) (task : Task), s.tasks[event]? = some task → task.reaction ≠ r

/-- What holds of the events at every moment. -/
structure Exact (s : Controller) : Prop where
  /-- Each firing hands out what was reported since the one before it, when nothing was in flight,
  and what is lost is what waits when the task is removed. -/
  orderly : ∀ r, Orderly (history s.log r)
  /-- What was reported for a task was handed out, or waits in it, or was lost with an earlier
  one. -/
  complete : ∀ (event : ℕ) (task : Task), s.tasks[event]? = some task →
    allReported (history s.log task.reaction) =
      allFired (history s.log task.reaction) ||| allLost
        (history s.log task.reaction) ||| task.waiting
  /-- What was reported for a task that was removed was handed out, or lost with it. -/
  removed : ∀ r, s.Gone r →
    allReported (history s.log r) = allFired (history s.log r) ||| allLost (history s.log r)
  /-- The tasks agree with the histories; what waits while nothing is in flight has just been
  refused. -/
  kept : ∀ (event : ℕ) (task : Task), s.tasks[event]? = some task →
    Kept (history s.log task.reaction) task
  /-- A reaction has one reaction task at most. -/
  single : s.jobs.Pairwise fun job job' => job.reaction ≠ job'.reaction
  /-- It carries what is in flight, -/
  carried : ∀ job ∈ s.jobs, Carried (history s.log job.reaction) job
  /-- And the descriptor of its task. -/
  fd : ∀ job ∈ s.jobs, ∀ (event : ℕ) (task : Task), s.tasks[event]? = some task →
    task.reaction = job.reaction → job.fd = task.fd

/-- **Every event is handed out exactly once**, or lost with its task, in every run. -/
theorem events_exact_of_reaches {notifier : ℕ} {s : Controller}
    (h : Reaches step Wired (.start notifier) s) :
    Exact s := by
  have hs := recorded_of_reaches h
  refine ⟨hs.orderly, fun event task ht => ?_, fun r hr => ?_, hs.kept, hs.single,
    hs.carried, hs.fd⟩
  · rw [(hs.orderly _).allReported_eq, (hs.kept event task ht).waiting]
  · rw [(hs.orderly r).allReported_eq, hs.gone r hr, or_none]

/-- While a reaction reads, its socket becomes writable; the reaction is told when it has
finished. -/
def twoReports : List Action :=
  [.configure 4 9 0x23 7, .loop, .loop, .bump, .bump, .loop, .loop, .wake 4, .process 1 true,
    .loop, .loop, .loop,
    .wake 4, .process 2 true, .finish 0 true true]

theorem events_exact_of_reaches_twoReports : ∃ s, exec step (.start 0) twoReports = some s ∧
    (s.jobs = [⟨7, 9, 2⟩] ∧ history s.log 7 =
    [.fired 2, .finished, .reported 2, .fired 1, .reported 1]) ∧
    Exact s := by
  have hrun : (exec step (.start 0) twoReports).any (fun s => decide (s.jobs = [⟨7, 9, 2⟩] ∧
      history s.log 7 = [.fired 2, .finished, .reported 2, .fired 1, .reported 1])) =
        true := by decide +kernel
  obtain ⟨s, hs, hstate⟩ := (Option.any_eq_true _ _).mp hrun
  exact ⟨s, hs, of_decide_eq_true hstate,
    events_exact_of_reaches (reaches_of_exec hs (by decide +kernel))⟩

/-! ## The wait -/

/-- The loop has found `running` set, and has not waited since. -/
def LoopPoint.InRound : LoopPoint → Prop
  | .loadRunning => False
  | .process _ => False
  | _ => True

theorem LoopPoint.inRound_of_eq {l l' : LoopPoint} (h : l = l') (hl : l'.InRound) : l.InRound :=
  h ▸ hl

/-- Every task is watched: its event is among those that the loop waits for. -/
def Covered (tasks : Std.TreeMap ℕ Task) (watches : List ℕ) : Prop :=
  ∀ event ∈ tasks, event ∈ watches

/-- **The invariant of the wait**: whatever the loop has not seen yet, the notifier is signalled for
it, or a handler is about to signal it. -/
structure Awake (s : Controller) : Prop where
  notifier : s.notifier ∈ s.watches
  locked : s.bump = some .lock → s.signalled = true
  clean : s.dirty = false → Covered s.tasks s.watches
  covered : s.loop = .lockNotifier ∨ s.loop = .waiting →
    Covered s.tasks s.watches ∨ s.bump = some .signal ∨ s.signalled = true
  running : s.loop.InRound → s.running = false → 0 < s.shutdownSignals ∨ s.signalled = true
  locks : s.loop.InRound → 0 < s.shutdownLocks → s.signalled = true
  stopped : 0 < s.shutdownSignals ∨ 0 < s.shutdownLocks → s.running = false

section

variable {s s' : Controller} {a : Action}

theorem Covered.mono {tasks tasks' : Std.TreeMap ℕ Task} {watches : List ℕ}
    (h : Covered tasks watches) (hsub : ∀ event ∈ tasks', event ∈ tasks) : Covered tasks' watches :=
  fun event he => h event (hsub event he)

theorem not_beforeWait {l : LoopPoint} (hlock : l ≠ .lockNotifier) (hwait : l ≠ .waiting) :
    ¬ (l = .lockNotifier ∨ l = .waiting) := fun h => h.elim hlock hwait

theorem Awake.start (notifier : ℕ) : Awake (.start notifier) where
  notifier := List.mem_singleton_self _
  locked h := absurd h nofun
  clean _ _ he := absurd he Std.TreeMap.not_mem_emptyc
  covered h := absurd h (not_beforeWait nofun nofun)
  running h := h.elim
  locks h := h.elim
  stopped h := by rcases h with h | h <;> exact absurd h (Nat.lt_irrefl 0)

/-- No handler is in `bump`, and no task is added: the wait needs nothing that it had not before. -/
theorem Awake.change (h : Awake s) {tasks : Std.TreeMap ℕ Task} {jobs : List IOJob}
    {log : List (ℕ × Happening)} {dirty : Bool} (hsub : ∀ event ∈ tasks, event ∈ s.tasks)
    (hdirty : dirty = false → s.dirty = false) :
    Awake { s with tasks := tasks, jobs := jobs, log := log, dirty := dirty } where
  notifier := h.notifier
  locked := h.locked
  clean hd := (h.clean (hdirty hd)).mono hsub
  covered hl := (h.covered hl).imp_left fun hc => hc.mono hsub
  running := h.running
  locks := h.locks
  stopped := h.stopped

/-- The round ends, and the event of the notifier may be reset, since the loop looks at all flags
again before it waits. -/
theorem Awake.leave (h : Awake s) {signalled : Bool}
    (hbump : s.bump = some .lock → signalled = true) :
    Awake { s with signalled := signalled, loop := .loadRunning } where
  notifier := h.notifier
  locked := hbump
  clean := h.clean
  covered hl := absurd hl (not_beforeWait nofun nofun)
  running hl := hl.elim
  locks hl := hl.elim
  stopped := h.stopped

/-- A handler has changed the tasks, has set `dirty`, and is about to wake the loop up. -/
theorem Awake.handler (h : Awake s) {tasks : Std.TreeMap ℕ Task} {configured : List ℕ}
    {log : List (ℕ × Happening)} :
    Awake { s with
      tasks := tasks, dirty := true, bump := some .signal, configured := configured, log :=
  log } where
  notifier := h.notifier
  locked hb := absurd hb nofun
  clean hd := absurd hd nofun
  covered _ := .inr (.inl rfl)
  running := h.running
  locks := h.locks
  stopped := h.stopped

/-- It changes this task, the jobs and the history only; the wait depends on none of them. -/
theorem fireEvent_eq (s : Controller) (made : Bool) (event : ℕ) (task : Task) : ∃ task' jobs log,
    s.fireEvent made event task =
      { s with tasks := s.tasks.insert event task', jobs := jobs, log := log } := by
  rw [Controller.fireEvent]
  split_ifs
  · exact ⟨_, _, _, rfl⟩
  · exact ⟨_, _, _, rfl⟩
  · exact ⟨_, _, _, rfl⟩

/-- A task that is there may be written: the events of the tasks stay the same. -/
theorem mem_of_mem_insert {tasks : Std.TreeMap ℕ Task} {event event' : ℕ} {task task' : Task}
    (ht : tasks[event]? = some task) (h : event' ∈ tasks.insert event task') : event' ∈ tasks := by
  rcases Std.TreeMap.mem_insert.mp h with heq | h
  · rw [← compare_eq_iff_eq.mp heq]
    exact Std.TreeMap.mem_iff_isSome_getElem?.mpr (by rw [ht]; rfl)
  · exact h

theorem Awake.processEvent (h : Awake s) {events : Events} {made : Bool} {event : ℕ}
    (hbump : s.bump = none) :
    Awake { s.processEvent events made event with loop := .loadRunning } := by
  have hlock : s.bump = some .lock → s.signalled = true := h.locked
  rw [Controller.processEvent]
  split_ifs
  · exact h.leave fun hb => absurd (hbump.symm.trans hb) nofun
  · split
    · rename_i task ht
      obtain ⟨task', jobs, log, heq⟩ := fireEvent_eq
        { s with log := (task.reaction, .reported events) :: s.log } made event
        { task with waiting := task.waiting ||| events }
      rw [heq]
      exact (h.change (fun _ => mem_of_mem_insert ht) id).leave hlock
    · have hdirty : Awake { s with dirty := true } :=
        h.change (fun _ he => he) fun hd => absurd hd nofun
      exact hdirty.leave hlock

theorem Awake.finished (h : Awake s) {made : Bool} {id : ℕ} : Awake (s.finished made id) := by
  rw [Controller.finished]
  split
  · rename_i event task hfind
    split_ifs
    · exact h.change (fun _ he => (Std.TreeMap.mem_erase.mp he).2) fun hd => absurd hd nofun
    · obtain ⟨task', jobs, log, heq⟩ := fireEvent_eq { s with
        log := (id, .finished) :: s.log } made event
        { task with processing := 0 }
      rw [heq]
      exact h.change (fun _ => mem_of_mem_insert (find_some hfind).1) fun hd => hd
  · exact h.change (fun _ he => he) fun hd => hd

theorem Awake.unbind (h : Awake s) {id : ℕ} : Awake (s.unbind id) := by
  rw [Controller.unbind]
  split
  · exact h.handler
  · exact h.handler

/-- **Every step keeps the invariant of the wait.** -/
theorem Awake.step (h : Awake s) (hst : step s a = some s') : Awake s' := by
  cases moves_of_step hst with
  | begin _ hrunning =>
    -- there has been no handler for shutdown yet
    have hnone : ¬ (0 < s.shutdownSignals ∨ 0 < s.shutdownLocks) := fun hpos =>
      absurd (hrunning.symm.trans (h.stopped hpos)) nofun
    exact ⟨h.notifier, h.locked, h.clean, fun hl => absurd hl (not_beforeWait nofun nofun),
      fun _ hr => absurd (hrunning.symm.trans hr) nofun,
        fun _ hpos => absurd (.inr hpos) hnone, h.stopped⟩
  | stopped => exact h.leave h.locked
  | stale hloop =>
    have hround := LoopPoint.inRound_of_eq hloop trivial
    exact ⟨h.notifier, h.locked, h.clean, fun hl => absurd hl (not_beforeWait nofun nofun),
      fun _ => h.running hround, fun _ => h.locks hround, h.stopped⟩
  | clean hloop hdirty =>
    have hround := LoopPoint.inRound_of_eq hloop trivial
    exact ⟨h.notifier, h.locked, h.clean, fun _ => .inl (h.clean hdirty), fun _ => h.running hround,
      fun _ => h.locks hround, h.stopped⟩
  | rebuild hloop =>
    have hround := LoopPoint.inRound_of_eq hloop trivial
    have hcovered : Covered s.tasks (s.notifier :: s.tasks.keys) := fun _ he =>
      List.mem_cons_of_mem _ (Std.TreeMap.mem_keys.mpr he)
    exact ⟨List.mem_cons_self .., h.locked, fun _ => hcovered, fun _ => .inl hcovered,
      fun _ => h.running hround, fun _ => h.locks hround, h.stopped⟩
  | wait hloop =>
    have hround := LoopPoint.inRound_of_eq hloop trivial
    exact ⟨h.notifier, h.locked, h.clean, fun _ => h.covered (.inl hloop),
      fun _ => h.running hround,
      fun _ => h.locks hround, h.stopped⟩
  | wake event =>
    exact ⟨h.notifier, h.locked, h.clean, fun hl => absurd hl (not_beforeWait nofun nofun),
      fun hl => hl.elim, fun hl => hl.elim, h.stopped⟩
  | waitFails => exact h.leave h.locked
  | process _ _ _ hbump => exact h.processEvent hbump
  | configure => exact h.handler
  | unbind => exact h.unbind
  | finish _ _ _ => exact (h.change (fun _ he => he) id).finished
  | throw => exact h.change (fun _ he => he) id
  | finished => exact h.finished
  | signal =>
    exact ⟨h.notifier, fun _ => rfl, h.clean, fun _ => .inr (.inr rfl), fun _ _ => .inr rfl,
      fun _ _ => rfl,
      h.stopped⟩
  | lock hbump =>
    exact ⟨h.notifier, fun hb => absurd hb nofun, h.clean,
      fun _ => .inr (.inr (h.locked hbump)), h.running,
      h.locks, h.stopped⟩
  | shutdown =>
    exact ⟨h.notifier, h.locked, h.clean, h.covered, fun _ _ => .inl (Nat.succ_pos _),
      h.locks, fun _ => rfl⟩
  | shutdownSignal hpos =>
    exact ⟨h.notifier, fun _ => rfl, h.clean, fun _ => .inr (.inr rfl), fun _ _ => .inr rfl,
      fun _ _ => rfl,
      fun _ => h.stopped (.inl hpos)⟩
  | shutdownLock hpos =>
    exact ⟨h.notifier, h.locked, h.clean, h.covered, h.running, fun hl _ => h.locks hl hpos,
      fun _ => h.stopped (.inr hpos)⟩

theorem awake_of_reaches {notifier : ℕ} (h : Reaches IOWindows.step Always (.start notifier) s) :
    Awake s :=
  h.invariant (Awake.start notifier) fun _ _ _ hs _ hst => hs.step hst

end

/-- The loop may wait: nobody waits for it, and it will learn of what happens. -/
structure Attentive (s : Controller) : Prop where
  /-- No handler for tasks waits for `notifier.mutex`, -/
  bump : s.bump ≠ some .lock
  /-- And no handler for shutdown. -/
  locks : s.shutdownLocks = 0
  /-- No shutdown is missed. -/
  running : s.shutdownSignals = 0 → s.running = true
  /-- When no handler is about to wake the loop up, every task is watched. -/
  covered : s.bump = none → Covered s.tasks s.watches

/-- **The wait.**  While the loop waits, either the notifier lets it go on, or it may wait. -/
theorem attentive_of_reaches {notifier : ℕ} {s : Controller}
    (h : Reaches step Always (.start notifier) s) (hloop : s.loop = .waiting) :
    (s.signalled = true → (step s (.wake s.notifier)).isSome = true) ∧
      (s.signalled = false → Attentive s) := by
  have hs := awake_of_reaches h
  have hround := LoopPoint.inRound_of_eq hloop trivial
  constructor
  · intro hsignalled
    simp only [step]
    rw [if_pos ⟨hloop, hs.notifier, fun _ => hsignalled⟩]
    rfl
  · intro hclear
    have hunset : s.signalled ≠ true := Bool.eq_false_iff.mp hclear
    refine ⟨fun hb => hunset (hs.locked hb), ?_, fun hzero => ?_, fun hnone => ?_⟩
    · exact Nat.eq_zero_of_not_pos fun hpos => hunset (hs.locks hround hpos)
    · by_contra hrunning
      rcases hs.running hround (Bool.eq_false_iff.mpr hrunning) with hpos | hset
      · exact Nat.ne_of_gt hpos hzero
      · exact hunset hset
    · rcases hs.covered (.inr hloop) with hc | hb | hset
      · exact hc
      · exact absurd (hnone.symm.trans hb) nofun
      · exact absurd hset hunset

/-- The loop waits before the handler for a new task has woken it up, and again when it watches the
task. -/
def twoWaits : List Action :=
  [.loop, .loop, .loop, .configure 4 9 0x21 7, .bump, .wake 0, .bump, .process 0 true, .loop,
    .loop, .loop, .loop]

theorem attentive_of_reaches_twoWaits : ∃ s, exec step (.start 0) twoWaits = some s ∧
    (s.watches = [0, 4] ∧ s.bump = none) ∧ Attentive s := by
  have hrun : (exec step (.start 0) twoWaits).any (fun s =>
      decide (s.loop = .waiting ∧ s.signalled = false ∧ s.watches = [0, 4] ∧ s.bump = none)) =
        true := by
    decide +kernel
  obtain ⟨s, hs, hstate⟩ := (Option.any_eq_true _ _).mp hrun
  obtain ⟨hloop, hclear, hwatches, hbump⟩ := of_decide_eq_true hstate
  exact ⟨s, hs, ⟨hwatches, hbump⟩, (attentive_of_reaches (reaches_always_of_exec hs) hloop).2
    hclear⟩

end IOWindows
end Extension
end NUClear
