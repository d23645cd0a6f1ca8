import NUClear.Foundation.BucketQueue
import NUClear.Foundation.Reachability
import NUClear.Scheduler.Priority
import Mathlib.Data.Set.Defs

/-!
# `Always`

A reaction with `Always` has a pool of one thread.  `bind` submits a task of the reaction and an
idle task, whose priority is one less.  A task of the reaction submits its successor in `post_run`,
unless its callback throws or `get_task` gives no task; the idle task submits a task of the reaction
and its own successor.  The pool takes the tasks from five buckets, so the idle task waits for the
other one only if it is in a later bucket.

* `step`: the thread, `bind`, and a stop of the pool.  The priority word gives any priority each
  time it is asked.
* `Steady`: when the thread is about to dequeue, there is one idle task, and at most one task of the
  reaction.
* `steady_iff`: it holds in all runs if and only if every priority that the word gives is in an
  earlier bucket than one less than every priority that it gives; for a constant priority, if this
  is one of the named ones but `IDLE` (`separates_singleton`).

## The proof

* `Held`: the tasks in the buckets are in those of the priorities that the word gives.  So when the
  priorities are separated the idle task is dequeued only after the tasks of the reaction
  (`count_main_of_dequeueFirst`).
* `Phase`: what is queued, by where the thread is: it looks for a task, or runs a task of the
  reaction, or the idle task.  `InPhase.step` goes through the steps, and `HasIdle` says that the
  idle task puts back what it took.
* `exists_not_steady`, `separates_of_run`: the other direction.  When the idle task can be dequeued
  before a task of the reaction, there is a run with two of these.
-/

namespace NUClear
namespace Dsl
namespace Always

open Foundation Scheduler

/-- A task in the pool: one of the reaction, or the idle task that is to run when there is none. -/
inductive Task where
  /-- A task of the reaction. -/
  | main
  | idle
  deriving DecidableEq, Repr

/-- What `bind` has submitted; the thread of the pool may begin in between. -/
inductive Bind where
  | nothing
  | main
  | both
  deriving DecidableEq, Repr

/-- Where the thread of the pool is; it is started with the pool, and the pool has no other. -/
inductive Worker where
  | unstarted
  /-- About to dequeue, or to leave. -/
  | looking
  /-- It has found nothing. -/
  | waiting
  | running (t : Task)
  | exited
  deriving DecidableEq, Repr

/-- The pool.  It is not persistent, so that it accepts tasks as long as it is running. -/
structure Pool where
  buckets : Buckets priorityBuckets Task
  running : Bool
  bind : Bind
  worker : Worker

/-- What happens next.  A task of the reaction comes with its priority, or there is none: a
precondition rejects it, data is missing, or the reaction is disabled.  An idle task comes with the
priority that it is one less than. -/
inductive Action where
  /-- The first submission of `bind`. -/
  | bindMain (priority : Option ℤ)
  /-- The second one. -/
  | bindIdle (priority : ℤ)
  /-- The thread comes to the loop of `get_task`. -/
  | enter
  | dequeue
  /-- The loop is left. -/
  | leave
  /-- The callback returns, and `post_run` submits. -/
  | mainReturns (priority : Option ℤ)
  | mainThrows
  /-- The callback of the idle task.  The pool may be stopped between its two submissions, also by
  force. -/
  | idleReturns (main : Option ℤ) (idle : ℤ) (stopped : Option Bool)
  /-- `Pool::stop`.  By force it discards what is queued. -/
  | stop (force : Bool)
  deriving DecidableEq, Repr

namespace Pool

def start : Pool := ⟨Buckets.empty, true, .nothing, .unstarted⟩

/-- The thread is notified, if it waits for something to do. -/
def notify (s : Pool) : Pool := { s with
    worker := if s.worker = .waiting then .looking else s.worker }

/-- `Pool::submit`: the task goes into the bucket of its priority, and a stopped pool drops it. -/
def submit (s : Pool) (t : Task) (priority : ℤ) : Pool :=
  if s.running then { s with buckets := s.buckets.enqueue (priorityIndex priority) t }.notify else s

/-- `submit(reaction->get_task())`, which may make no task; then nothing is submitted. -/
def submitMain (s : Pool) (priority : Option ℤ) : Pool :=
  match priority with
  | some p => s.submit .main p
  | none => s

/-- `submit(make_idle_task(reaction))`: its priority is one less than that of the reaction, as the
word gives it at this moment. -/
def submitIdle (s : Pool) (priority : ℤ) : Pool := s.submit .idle (priority - 1)

def stop (s : Pool) (force : Bool) : Pool :=
  { s with running := false, buckets := if force then Buckets.empty else s.buckets }.notify

end Pool

open Pool

def step (s : Pool) : Action → Option Pool
  | .bindMain priority =>
    if s.bind = .nothing then some { s.submitMain priority with bind := .main } else none
  | .bindIdle priority =>
    if s.bind = .main then some { s.submitIdle priority with bind := .both } else none
  | .enter => if s.worker = .unstarted then some { s with worker := .looking } else none
  | .dequeue =>
      if s.worker = .looking then
        match s.buckets.dequeueFirst with
        | some (_, t, buckets) => some { s with buckets := buckets, worker := .running t }
        | none => if s.running then some { s with worker := .waiting } else none
      else none
  | .leave =>
      if s.worker = .looking ∧ s.running = false ∧ s.buckets.contents = [] then
        some { s with worker := .exited }
      else none
  | .mainReturns priority =>
      if s.worker = .running .main then some { s.submitMain priority with worker := .looking }
        else none
  | .mainThrows => if s.worker = .running .main then some { s with worker := .looking } else none
  | .idleReturns main idle stopped =>
      if s.worker = .running .idle then
        let s := s.submitMain main
        let s := match stopped with
          | some force => s.stop force
          | none => s
        some { s.submitIdle idle with worker := .looking }
      else none
  | .stop force => some (s.stop force)

/-! ## The property and its conditions -/

/-- The thread dequeues next: the loop of `get_task` goes on, since the pool is running or something
is queued. -/
def AboutToDequeue (s : Pool) : Prop := s.worker = .looking ∧
    (s.running = true ∨ s.buckets.contents ≠ [])

/-- **What `Always` is for**: whenever the thread looks for a task, the idle task is there once, and
at most one task of the reaction. -/
def Steady (s : Pool) : Prop :=
  AboutToDequeue s → s.buckets.contents.count .idle = 1 ∧ s.buckets.contents.count .main ≤ 1

/-- **The condition** on a step: `bind` is through when the thread begins to look, and no stop comes
between the two submissions of `bind`, or of the idle task, after the first of them has gone in. -/
def Orderly (s : Pool) : Action → Prop
  | .enter => s.bind = .both
  | .bindIdle _ => s.running = true ∨ s.buckets.contents = []
  | .idleReturns main _ stopped => stopped = some false → main = none ∨ s.running = false
  | _ => True

/-- The priorities that are asked for are in the set. -/
def Action.Uses (W : Set ℤ) : Action → Prop
  | .bindMain priority | .mainReturns priority => ∀ p ∈ priority, p ∈ W
  | .bindIdle priority => priority ∈ W
  | .idleReturns main idle _ => (∀ p ∈ main, p ∈ W) ∧ idle ∈ W
  | _ => True

/-- **The condition** on the priority word: the task of the reaction is in an earlier bucket than
the idle task, for any two priorities that it gives. -/
def Separates (W : Set ℤ) : Prop := ∀ p ∈ W, ∀ p' ∈ W, priorityIndex p < priorityIndex (p' - 1)

/-! ## The queues -/

namespace Pool

variable {W : Set ℤ} {s s' : Pool} {t u : Task} {p : ℤ} {priority : Option ℤ} {force : Bool}

/-- The number of tasks of a kind in the queues. -/
def count (s : Pool) (t : Task) : ℕ := s.buckets.contents.count t

theorem count_enqueue (q : Buckets priorityBuckets Task) (b : Fin priorityBuckets) (t u : Task) :
    (q.enqueue b t).contents.count u = q.contents.count u + if t = u then 1 else 0 := by
  rw [(Buckets.contents_enqueue_perm q b t).count_eq, List.count_cons]
  simp only [beq_iff_eq]

theorem contents_eq_nil (h : ∀ t, s.count t = 0) : s.buckets.contents = [] := by
  rw [List.eq_nil_iff_forall_not_mem]
  exact fun t => List.count_eq_zero.mp (h t)

theorem contents_eq_nil_iff : s.buckets.contents = [] ↔ s.count .main = 0 ∧ s.count .idle = 0 := by
  refine ⟨fun h => ?_, fun h => contents_eq_nil fun t => ?_⟩
  · rw [count, count, h]
    exact ⟨rfl, rfl⟩
  · cases t with
    | main => exact h.1
    | idle => exact h.2

theorem submit_of_stopped (h : s.running = false) : s.submit t p = s := by
  rw [submit, h]
  rfl

theorem count_submit (h : s.running = true) : (s.submit t p).count u = s.count u + if t = u then 1
    else 0 := by
  rw [submit, if_pos h]
  exact count_enqueue ..

/-- What a submission leaves as it is, unless the thread waits. -/
structure Same (s s' : Pool) : Prop where
  running : s'.running = s.running
  bind : s'.bind = s.bind
  worker : s.worker ≠ .waiting → s'.worker = s.worker

theorem same_submit : Same s (s.submit t p) := by
  rw [submit]
  split_ifs
  · exact ⟨rfl, rfl, fun h => if_neg h⟩
  · exact ⟨rfl, rfl, fun _ => rfl⟩

theorem same_submitMain : Same s (s.submitMain priority) := by
  cases priority with
  | none => exact ⟨rfl, rfl, fun _ => rfl⟩
  | some p => exact same_submit

theorem submitMain_of_stopped (h : s.running = false) : s.submitMain priority = s := by
  cases priority with
  | none => rfl
  | some p => exact submit_of_stopped h

theorem count_submitMain_idle : (s.submitMain priority).count .idle = s.count .idle := by
  cases priority with
  | none => rfl
  | some p =>
    cases hrunning : s.running with
    | true => exact count_submit hrunning
    | false => rw [submitMain_of_stopped hrunning]

theorem count_submitMain_main : (s.submitMain priority).count .main ≤ s.count .main + 1 := by
  cases priority with
  | none => exact Nat.le_succ _
  | some p =>
    cases hrunning : s.running with
    | true => exact (count_submit hrunning).le
    | false => exact (submitMain_of_stopped hrunning).symm ▸ Nat.le_succ _

theorem count_submitIdle (h : s.running = true) :
    (s.submitIdle p).count .main = s.count .main ∧ (s.submitIdle p).count .idle =
      s.count .idle + 1 :=
  ⟨count_submit h, count_submit h⟩

/-! ### The buckets of the tasks -/

/-- The tasks are in the buckets of the priorities in the set, each kind in those of its own. -/
structure Held (W : Set ℤ) (s : Pool) : Prop where
  main : ∀ j, .main ∈ s.buckets j → ∃ p ∈ W, j = priorityIndex p
  idle : ∀ j, .idle ∈ s.buckets j → ∃ p ∈ W, j = priorityIndex (p - 1)

theorem Held.of_subset (h : Held W s) (hsub : ∀ j, s'.buckets j ⊆ s.buckets j) : Held W s' :=
  ⟨fun j hj => h.main j (hsub j hj), fun j hj => h.idle j (hsub j hj)⟩

theorem Held.of_buckets (h : Held W s) (hsame : s'.buckets = s.buckets) : Held W s' :=
  h.of_subset fun _ => hsame ▸ List.Subset.refl _

theorem mem_submit {j : Fin priorityBuckets} (h : t ∈ (s.submit u p).buckets j) :
    t ∈ s.buckets j ∨ t = u ∧ j = priorityIndex p := by
  rw [submit] at h
  split_ifs at h
  · have hmem : t ∈ s.buckets.enqueue (priorityIndex p) u j := h
    obtain rfl | hne := eq_or_ne j (priorityIndex p)
    · rw [Buckets.enqueue_self, List.mem_append, List.mem_singleton] at hmem
      exact hmem.imp_right fun heq => ⟨heq, rfl⟩
    · rw [Buckets.enqueue_of_ne _ _ hne] at hmem
      exact .inl hmem
  · exact .inl h

theorem Held.submitMain (h : Held W s) (hp : ∀ p ∈ priority, p ∈ W) :
    Held W (s.submitMain priority) := by
  cases priority with
  | none => exact h
  | some p =>
    refine ⟨fun j hj => ?_, fun j hj => ?_⟩
    · obtain hold | ⟨-, rfl⟩ := mem_submit hj
      · exact h.main j hold
      · exact ⟨p, hp p rfl, rfl⟩
    · obtain hold | ⟨heq, -⟩ := mem_submit hj
      · exact h.idle j hold
      · exact Task.noConfusion heq

theorem Held.submitIdle (h : Held W s) (hp : p ∈ W) : Held W (s.submitIdle p) := by
  refine ⟨fun j hj => ?_, fun j hj => ?_⟩
  · obtain hold | ⟨heq, -⟩ := mem_submit hj
    · exact h.main j hold
    · exact Task.noConfusion heq
  · obtain hold | ⟨-, rfl⟩ := mem_submit hj
    · exact h.idle j hold
    · exact ⟨p, hp, rfl⟩

theorem Held.stop (h : Held W s) : Held W (s.stop force) := by
  refine h.of_subset fun j t ht => ?_
  cases force with
  | false => exact ht
  | true => exact absurd ht List.not_mem_nil

/-- The idle task is dequeued only after the tasks of the reaction, when the buckets are separate.
-/
theorem count_main_of_dequeueFirst {b : Fin priorityBuckets} {q : Buckets priorityBuckets Task}
    (hW : Separates W) (h : Held W s) (hq : s.buckets.dequeueFirst = some (b, .idle, q)) :
    s.count .main = 0 := by
  obtain ⟨l, hb, -, hbefore⟩ := Buckets.dequeueFirst_spec hq
  obtain ⟨p', hp', rfl⟩ := h.idle b (hb ▸ List.mem_cons_self ..)
  rw [count, List.count_eq_zero, Buckets.mem_contents]
  rintro ⟨j, hj⟩
  obtain ⟨p, hp, rfl⟩ := h.main j hj
  rw [hbefore _ (hW p hp p' hp')] at hj
  exact absurd hj List.not_mem_nil

end Pool

/-! ## One step -/

namespace Pool

variable {W : Set ℤ} {s s' : Pool} {a : Action} {priority : Option ℤ} {force : Bool}

/-- There is one idle task, or the pool is stopped and nothing is queued, so that the thread will
leave. -/
def HasIdle (s : Pool) : Prop := s.count .idle = 1 ∨ s.running = false ∧ s.buckets.contents = []

/-- What is queued, by where the thread is: a task that it runs is not in the buckets, and puts its
successor there. -/
def Phase (s : Pool) : Prop :=
  match s.worker with
  | .unstarted =>
      match s.bind with
      | .nothing => s.buckets.contents = []
      | .main => s.count .idle = 0 ∧ s.count .main ≤ 1
      | .both => s.HasIdle ∧ s.count .main ≤ 1
  | .looking => s.bind = .both ∧ s.HasIdle ∧ s.count .main ≤ 1
  | .waiting => False
  | .running .main => s.bind = .both ∧ s.HasIdle ∧ s.count .main = 0
  | .running .idle => s.bind = .both ∧ s.buckets.contents = []
  | .exited => s.bind = .both

/-- The invariant of the runs in which the conditions are met. -/
structure InPhase (W : Set ℤ) (s : Pool) : Prop where
  held : Held W s
  phase : s.Phase

theorem inPhase_start : InPhase W start where
  held := ⟨fun _ h => absurd h List.not_mem_nil, fun _ h => absurd h List.not_mem_nil⟩
  phase := Buckets.contents_empty

theorem count_of_nil {t : Task} (h : s.buckets.contents = []) : s.count t = 0 := by
  rw [count, h]
  rfl

/-- The idle task puts back what it took, unless the pool was stopped meanwhile. -/
theorem hasIdle_submitIdle {p : ℤ} (h : s.buckets.contents = [] ∨ s.running = true ∧
    s.count .idle = 0) :
    (s.submitIdle p).HasIdle := by
  cases hrunning : s.running with
  | true =>
    have hnone : s.count .idle = 0 := h.elim count_of_nil And.right
    exact .inl (by rw [(count_submitIdle hrunning).2, hnone])
  | false =>
    obtain hnil | ⟨hrun, -⟩ := h
    · rw [submitIdle, submit_of_stopped hrunning]
      exact .inr ⟨hrunning, hnil⟩
    · exact absurd (hrunning.symm.trans hrun) Bool.false_ne_true

theorem count_submitIdle_main {p : ℤ} : (s.submitIdle p).count .main = s.count .main := by
  cases hrunning : s.running with
  | true => exact (count_submitIdle hrunning).1
  | false => rw [submitIdle, submit_of_stopped hrunning]

theorem HasIdle.submitMain (h : s.HasIdle) : (s.submitMain priority).HasIdle := by
  obtain hone | ⟨hstopped, hnil⟩ := h
  · exact .inl (count_submitMain_idle.trans hone)
  · exact .inr (by rw [submitMain_of_stopped hstopped]; exact ⟨hstopped, hnil⟩)

theorem HasIdle.stop (h : s.HasIdle) : (s.stop force).HasIdle := by
  cases force with
  | true => exact .inr ⟨rfl, Buckets.contents_empty⟩
  | false => exact h.imp id fun hstopped => ⟨rfl, hstopped.2⟩

theorem count_stop {t : Task} : (s.stop force).count t ≤ s.count t := by
  cases force with
  | true =>
    show List.count t (Buckets.contents Buckets.empty) ≤ _
    rw [Buckets.contents_empty]
    exact Nat.zero_le _
  | false => exact le_rfl

theorem contents_stop (h : s.buckets.contents = []) : (s.stop force).buckets.contents = [] :=
  contents_eq_nil fun _ => Nat.le_zero.mp (count_stop.trans (count_of_nil h).le)

theorem Phase.stop (h : s.Phase) : (s.stop force).Phase := by
  have hworker : s.worker ≠ .waiting := by
    intro hw
    rw [Phase, hw] at h
    exact h
  have hsame : (s.stop force).worker = s.worker := if_neg hworker
  unfold Phase at h ⊢
  rw [hsame, show (s.stop force).bind = s.bind from rfl]
  cases hw : s.worker with
  | unstarted =>
    rw [hw] at h
    cases hb : s.bind with
    | nothing =>
      rw [hb] at h
      exact contents_stop h
    | main =>
      rw [hb] at h
      exact ⟨Nat.le_zero.mp (count_stop.trans h.1.le), count_stop.trans h.2⟩
    | both =>
      rw [hb] at h
      exact ⟨h.1.stop, count_stop.trans h.2⟩
  | looking =>
    rw [hw] at h
    exact ⟨h.1, h.2.1.stop, count_stop.trans h.2.2⟩
  | waiting => exact hworker hw
  | running t =>
    rw [hw] at h
    cases t with
    | main => exact ⟨h.1, h.2.1.stop, Nat.le_zero.mp (count_stop.trans h.2.2.le)⟩
    | idle => exact ⟨h.1, contents_stop h.2⟩
  | exited =>
    rw [hw] at h
    exact h

end Pool

namespace Pool

variable {W : Set ℤ} {s s' : Pool} {a : Action} {priority : Option ℤ}

/-- The thread begins to look after `bind`. -/
theorem Phase.unstarted (h : s.Phase) (hb : s.bind ≠ .both) : s.worker = .unstarted := by
  unfold Phase at h
  cases hw : s.worker with
  | unstarted => rfl
  | looking | exited =>
    rw [hw] at h
    first | exact absurd h.1 hb | exact absurd h hb
  | waiting =>
    rw [hw] at h
    exact absurd h id
  | running t =>
    rw [hw] at h
    cases t <;> exact absurd h.1 hb

theorem Phase.of_unstarted (hw : s.worker = .unstarted) (hb : s.bind = .both) (hidle : s.HasIdle)
    (hmain : s.count .main ≤ 1) : s.Phase := by
  rw [Phase, hw, hb]
  exact ⟨hidle, hmain⟩

theorem Phase.of_looking (hw : s.worker = .looking) (hb : s.bind = .both) (hidle : s.HasIdle)
    (hmain : s.count .main ≤ 1) : s.Phase := by
  rw [Phase, hw]
  exact ⟨hb, hidle, hmain⟩

theorem Phase.looking (h : s.Phase) (hw : s.worker = .looking) :
    s.bind = .both ∧ s.HasIdle ∧ s.count .main ≤ 1 := by
  rwa [Phase, hw] at h

theorem Phase.runningMain (h : s.Phase) (hw : s.worker = .running .main) :
    s.bind = .both ∧ s.HasIdle ∧ s.count .main = 0 := by
  rwa [Phase, hw] at h

theorem Phase.runningIdle (h : s.Phase) (hw : s.worker = .running .idle) :
    s.bind = .both ∧ s.buckets.contents = [] := by
  rwa [Phase, hw] at h

theorem InPhase.dequeue (hW : Separates W) (h : InPhase W s) (hst : step s .dequeue = some s') :
    InPhase W s' := by
  rw [Always.step, Option.ite_none_right_eq_some] at hst
  obtain ⟨hw, hst⟩ := hst
  obtain ⟨hb, hidle, hmain⟩ := h.phase.looking hw
  split at hst
  · next b t q hq =>
    obtain rfl := Option.some.inj hst
    have hcontents : s.buckets.contents = t :: q.contents := Buckets.contents_of_dequeueFirst hq
    have hone : s.count .idle = 1 :=
      hidle.resolve_right fun hstopped => List.cons_ne_nil _ _ (hcontents.symm.trans hstopped.2)
    refine ⟨h.held.of_subset fun j u hu => ?_, ?_⟩
    · obtain ⟨l, hl, rfl, -⟩ := Buckets.dequeueFirst_spec hq
      have hmem : u ∈ s.buckets.setBucket b l j := hu
      obtain rfl | hne := eq_or_ne j b
      · rw [Buckets.setBucket_self] at hmem
        exact hl ▸ List.mem_cons_of_mem _ hmem
      · rwa [Buckets.setBucket_of_ne _ _ hne] at hmem
    · cases t with
      | main =>
        rw [count, hcontents, List.count_cons_self] at hmain
        rw [count, hcontents, List.count_cons_of_ne (by decide)] at hone
        exact ⟨hb, .inl hone, Nat.le_zero.mp (Nat.le_of_succ_le_succ hmain)⟩
      | idle =>
        have hnone : s.count .main = 0 := count_main_of_dequeueFirst hW h.held hq
        rw [count, hcontents, List.count_cons_self] at hone
        rw [count, hcontents, List.count_cons_of_ne (by decide)] at hnone
        exact ⟨hb, contents_eq_nil_iff.mpr ⟨hnone, Nat.succ.inj hone⟩⟩
  · next hq =>
    rw [Option.ite_none_right_eq_some] at hst
    have hnil : s.buckets.contents = [] := Buckets.dequeueFirst_eq_none_iff.mp hq
    obtain hone | ⟨hstopped, -⟩ := hidle
    · rw [count_of_nil hnil] at hone
      exact absurd hone (by decide)
    · exact absurd (hstopped.symm.trans hst.1) Bool.false_ne_true

theorem InPhase.idleReturns {main : Option ℤ} {idle : ℤ} {stopped : Option Bool} (h : InPhase W s)
    (ha : (Action.idleReturns main idle stopped).Uses W)
    (hok : Orderly s (.idleReturns main idle stopped))
    (hst : step s (.idleReturns main idle stopped) = some s') : InPhase W s' := by
  rw [Always.step, Option.ite_none_right_eq_some] at hst
  obtain ⟨hw, hst⟩ := hst
  obtain ⟨hb, hnil⟩ := h.phase.runningIdle hw
  obtain rfl := Option.some.inj hst
  have hidle : (s.submitMain main).count .idle = 0 :=
    count_submitMain_idle.trans (count_of_nil hnil)
  have hmain : (s.submitMain main).count .main ≤ 1 :=
    count_submitMain_main.trans (by rw [count_of_nil hnil])
  have hheld : Held W (s.submitMain main) := h.held.submitMain ha.1
  cases stopped with
  | some force =>
    have hgone : ((s.submitMain main).stop force).buckets.contents = [] := by
      cases force with
      | true => exact Buckets.contents_empty
      | false =>
        obtain rfl | hstopped := hok rfl
        · exact hnil
        · rw [submitMain_of_stopped hstopped]
          exact hnil
    have hcount : (((s.submitMain main).stop force).submitIdle idle).count .main = 0 :=
      count_submitIdle_main.trans (count_of_nil hgone)
    refine ⟨(hheld.stop.submitIdle ha.2).of_buckets rfl,
      .of_looking rfl ?_ (hasIdle_submitIdle (.inl hgone)) ?_⟩
    · exact same_submit.bind.trans (same_submitMain.bind.trans hb)
    · exact hcount.le.trans (Nat.zero_le _)
  | none =>
    refine ⟨(hheld.submitIdle ha.2).of_buckets rfl, .of_looking rfl ?_ (hasIdle_submitIdle ?_) ?_⟩
    · exact same_submit.bind.trans (same_submitMain.bind.trans hb)
    · cases hrunning : s.running with
      | true => exact .inr ⟨same_submitMain.running.trans hrunning, hidle⟩
      | false =>
        rw [submitMain_of_stopped hrunning]
        exact .inl hnil
    · exact count_submitIdle_main.le.trans hmain

theorem InPhase.step (hW : Separates W) (h : InPhase W s) (ha : a.Uses W) (hok : Orderly s a)
    (hst : step s a = some s') : InPhase W s' := by
  cases a with
  | bindMain priority =>
    rw [Always.step, Option.ite_none_right_eq_some] at hst
    obtain ⟨hb, hst⟩ := hst
    have hw : s.worker = .unstarted := h.phase.unstarted (by rw [hb]; decide)
    have hnil : s.buckets.contents = [] := by
      have hphase := h.phase
      rwa [Phase, hw, hb] at hphase
    obtain rfl := Option.some.inj hst
    refine ⟨(h.held.submitMain ha).of_buckets rfl, ?_⟩
    rw [Phase, show Pool.worker { s.submitMain priority with bind := .main } = .unstarted from
      (same_submitMain.worker (by rw [hw]; decide)).trans hw]
    exact ⟨count_submitMain_idle.trans (count_of_nil hnil),
      count_submitMain_main.trans (by rw [count_of_nil hnil])⟩
  | bindIdle p =>
    rw [Always.step, Option.ite_none_right_eq_some] at hst
    obtain ⟨hb, hst⟩ := hst
    have hw : s.worker = .unstarted := h.phase.unstarted (by rw [hb]; decide)
    obtain ⟨hidle, hmain⟩ : s.count .idle = 0 ∧ s.count .main ≤ 1 := by
      have hphase := h.phase
      rwa [Phase, hw, hb] at hphase
    obtain rfl := Option.some.inj hst
    refine ⟨(h.held.submitIdle ha).of_buckets rfl, .of_unstarted ?_ rfl (hasIdle_submitIdle ?_) ?_⟩
    · exact (same_submit.worker (by rw [hw]; decide)).trans hw
    · exact hok.symm.imp id fun hrunning => ⟨hrunning, hidle⟩
    · exact count_submitIdle_main.le.trans hmain
  | enter =>
    rw [Always.step, Option.ite_none_right_eq_some] at hst
    obtain ⟨hw, hst⟩ := hst
    obtain ⟨hidle, hmain⟩ : s.HasIdle ∧ s.count .main ≤ 1 := by
      have hphase := h.phase
      rwa [Phase, hw, show s.bind = .both from hok] at hphase
    obtain rfl := Option.some.inj hst
    exact ⟨h.held.of_buckets rfl, .of_looking rfl hok hidle hmain⟩
  | dequeue => exact h.dequeue hW hst
  | leave =>
    rw [Always.step, Option.ite_none_right_eq_some] at hst
    obtain ⟨⟨hw, -⟩, hst⟩ := hst
    obtain rfl := Option.some.inj hst
    exact ⟨h.held.of_buckets rfl, (h.phase.looking hw).1⟩
  | mainReturns priority =>
    rw [Always.step, Option.ite_none_right_eq_some] at hst
    obtain ⟨hw, hst⟩ := hst
    obtain ⟨hb, hidle, hmain⟩ := h.phase.runningMain hw
    obtain rfl := Option.some.inj hst
    refine ⟨(h.held.submitMain ha).of_buckets rfl, .of_looking rfl ?_ hidle.submitMain ?_⟩
    · exact same_submitMain.bind.trans hb
    · exact count_submitMain_main.trans (by rw [hmain])
  | mainThrows =>
    rw [Always.step, Option.ite_none_right_eq_some] at hst
    obtain ⟨hw, hst⟩ := hst
    obtain ⟨hb, hidle, hmain⟩ := h.phase.runningMain hw
    obtain rfl := Option.some.inj hst
    exact ⟨h.held.of_buckets rfl, .of_looking rfl hb hidle (hmain.le.trans (Nat.zero_le _))⟩
  | idleReturns main idle stopped => exact h.idleReturns ha hok hst
  | stop force =>
    obtain rfl := Option.some.inj hst
    exact ⟨h.held.stop, h.phase.stop⟩

theorem InPhase.steady (h : InPhase W s) : Steady s := by
  rintro ⟨hw, hgoes⟩
  obtain ⟨-, hidle, hmain⟩ := h.phase.looking hw
  refine ⟨hidle.resolve_right fun ⟨hstopped, hnil⟩ => ?_, hmain⟩
  obtain hrunning | hsome := hgoes
  · exact Bool.false_ne_true (hstopped.symm.trans hrunning)
  · exact hsome hnil

end Pool

/-! ## Every run -/

namespace Pool

variable {W : Set ℤ} {s : Pool} {p p' : ℤ}

/-- The runs in which the conditions are met, with priorities from the set. -/
def Run (W : Set ℤ) (s : Pool) : Prop := Reaches step (fun s a => Orderly s a ∧ a.Uses W) start s

theorem Run.steady (hW : Separates W) (h : Run W s) : Steady s :=
  (h.invariant (P := InPhase W) inPhase_start fun _ _ _ hx hok hst =>
    hx.step hW hok.2 hok.1 hst).steady

/-- When the idle task is dequeued before a task of the reaction, there will be two of these: that
one, and the one it submits. -/
theorem exists_not_steady (hp : p ∈ W) (hp' : p' ∈ W) (h : Run W s) (hw : s.worker = .looking)
    (hrunning : s.running = true) (hmain : s.count .main = 1) {b : Fin priorityBuckets}
    {q : Buckets priorityBuckets Task} (hq : s.buckets.dequeueFirst = some (b, .idle, q)) :
    ∃ s', Run W s' ∧ ¬ Steady s' := by
  have hdequeue : step s .dequeue = some { s with buckets := q, worker := .running .idle } := by
    rw [step, if_pos hw, hq]
  have hfirst : Run W { s with buckets := q, worker := .running .idle } :=
    .step (a := .dequeue) h ⟨trivial, trivial⟩ hdequeue
  have hone : Pool.count { s with buckets := q, worker := .running .idle } .main = 1 := by
    rw [count, Buckets.contents_of_dequeueFirst hq, List.count_cons_of_ne (by decide)] at hmain
    exact hmain
  obtain ⟨x, hx⟩ : ∃ x, x = { s with buckets := q, worker := .running .idle } := ⟨_, rfl⟩
  rw [← hx] at hfirst hone
  have hxrunning : x.running = true := hx ▸ hrunning
  have hxworker : x.worker = .running .idle := hx ▸ rfl
  have htwo : ((x.submitMain (some p)).submitIdle p').count .main = 2 :=
    count_submitIdle_main.trans ((count_submit hxrunning).trans (by rw [hone]; rfl))
  refine ⟨{ (x.submitMain (some p)).submitIdle p' with worker := .looking }, ?_, fun hsteady => ?_⟩
  · refine .step (a := .idleReturns (some p) p' none) hfirst ⟨fun hstopped => ?_, ?_, hp'⟩
      (if_pos hxworker)
    · exact absurd hstopped (by simp)
    · exact fun _ hr => Option.mem_some.mp hr ▸ hp
  · have hrunning' : ((x.submitMain (some p)).submitIdle p').running = true :=
      same_submit.running.trans (same_submitMain.running.trans hxrunning)
    have hle : ((x.submitMain (some p)).submitIdle p').count .main ≤ 1 :=
      (hsteady ⟨rfl, .inl hrunning'⟩).2
    rw [htwo] at hle
    exact absurd hle (by decide)

theorem count_main_bind (j k : Fin priorityBuckets) :
    ((Buckets.empty.enqueue j .main).enqueue k .idle).contents.count Task.main = 1 := by
  rw [count_enqueue, count_enqueue, Buckets.contents_empty]
  rfl

theorem exists_dequeueFirst_earlier {j k : Fin priorityBuckets} (h : k < j) :
    ∃ q, ((Buckets.empty.enqueue j Task.main).enqueue k .idle).dequeueFirst =
      some (k, .idle, q) := by
  have hall : ∀ j k : Fin priorityBuckets, k < j →
      ((Buckets.empty.enqueue j Task.main).enqueue k .idle).dequeueFirst.map
      (fun r => (r.1, r.2.1)) =
        some (k, .idle) := by decide
  obtain ⟨⟨b, t, q⟩, hq, heq⟩ := Option.map_eq_some_iff.mp (hall j k h)
  obtain ⟨rfl, rfl⟩ := Prod.mk.inj heq
  exact ⟨q, hq⟩

theorem exists_dequeueFirst_same (j : Fin priorityBuckets) :
    ∃ q, ((Buckets.empty.enqueue j Task.main).enqueue j .idle).dequeueFirst = some (j, .main, q) ∧
      (q.enqueue j .main).contents.count Task.main = 1 ∧
      ∃ b q', (q.enqueue j .main).dequeueFirst = some (b, Task.idle, q') := by
  have hall : ∀ j : Fin priorityBuckets,
      ((Buckets.empty.enqueue j Task.main).enqueue j .idle).dequeueFirst.any (fun r =>
        decide (r.1 = j ∧ r.2.1 = .main ∧ (r.2.2.enqueue j .main).contents.count Task.main = 1 ∧
          (r.2.2.enqueue j .main).dequeueFirst.map (fun r => r.2.1) = some .idle)) =
            true := by decide
  obtain ⟨⟨b, t, q⟩, hq, hrun⟩ := (Option.any_eq_true _ _).mp (hall j)
  obtain ⟨hb, ht, hcount, hnext⟩ := of_decide_eq_true hrun
  dsimp only at hb ht hcount hnext
  obtain rfl := hb
  obtain rfl := ht
  obtain ⟨⟨b', t', q'⟩, hq', ht'⟩ := Option.map_eq_some_iff.mp hnext
  obtain rfl : t' = .idle := ht'
  exact ⟨q, hq, hcount, b', q', hq'⟩

/-- The two tasks of `bind`, and the thread looks. -/
theorem run_bind (hp : p ∈ W) (hp' : p' ∈ W) :
    Run W ⟨(Buckets.empty.enqueue (priorityIndex p) .main).enqueue (priorityIndex (p' - 1)) .idle,
      true, .both,
      .looking⟩ := by
  have hmain : Run W ⟨Buckets.empty.enqueue (priorityIndex p) .main, true, .main, .unstarted⟩ :=
    Reaches.single (a := .bindMain (some p)) ⟨trivial, fun _ h => Option.mem_some.mp h ▸ hp⟩ rfl
  have hidle : Run W ⟨(Buckets.empty.enqueue (priorityIndex p) .main).enqueue
    (priorityIndex (p' - 1)) .idle, true,
      .both, .unstarted⟩ :=
    .step (a := .bindIdle p') hmain ⟨.inl rfl, hp'⟩ rfl
  exact .step (a := .enter) hidle ⟨rfl, trivial⟩ rfl

theorem separates_of_run (h : ∀ s, Run W s → Steady s) : Separates W := by
  intro p hp p' hp'
  by_contra hle
  rw [not_lt] at hle
  have hrun := run_bind hp hp'
  obtain ⟨s', hs', hnot⟩ : ∃ s', Run W s' ∧ ¬ Steady s' := by
    obtain hlt | heq := lt_or_eq_of_le hle
    · -- the idle task is in the earlier bucket
      obtain ⟨q, hq⟩ := exists_dequeueFirst_earlier hlt
      exact exists_not_steady hp hp' hrun rfl rfl (count_main_bind ..) hq
    · -- in the same bucket it is behind the first task of the reaction, and before the second one
      rw [heq] at hrun
      obtain ⟨q, hq, hcount, b, q', hq'⟩ := exists_dequeueFirst_same (priorityIndex p)
      have hmain : Run W ⟨q, true, .both, .running .main⟩ :=
        .step (a := .dequeue) hrun ⟨trivial, trivial⟩ (by rw [step, if_pos rfl]; simp only [hq])
      have hnext : Run W ⟨q.enqueue (priorityIndex p) .main, true, .both, .looking⟩ :=
        .step (a := .mainReturns (some p)) hmain
          ⟨trivial, fun _ hr => Option.mem_some.mp hr ▸ hp⟩ rfl
      exact exists_not_steady hp hp' hnext rfl rfl hcount hq'
  exact hnot (h s' hs')

/-- **`Always`.**  It keeps one idle task and at most one task of the reaction in the pool, in every
run in which the conditions are met, if and only if the priority word separates the two. -/
theorem steady_iff : (∀ s, Run W s → Steady s) ↔ Separates W :=
  ⟨separates_of_run, fun hW _ h => h.steady hW⟩

end Pool

/-- A constant priority separates them if and only if it begins a bucket, which the named priorities
but `IDLE` do. -/
theorem separates_singleton {p : ℤ} : Separates {p} ↔ p = 1000 ∨ p = 750 ∨ p = 500 ∨ p = 250 := by
  have hall : Separates {p} ↔ priorityIndex p < priorityIndex (p - 1) :=
    ⟨fun h => h p rfl p rfl, fun h q hq q' hq' => by
      rw [Set.mem_singleton_iff.mp hq, Set.mem_singleton_iff.mp hq']
      exact h⟩
  rw [hall, priorityIndex, priorityIndex, priorityLevel, priorityLevel]
  split_ifs <;> first
    | (refine iff_of_true (by decide) ?_; omega)
    | (refine iff_of_false (by decide) ?_; omega)

/-- With the priority `IDLE` the tasks pile up, since the idle task shares the last bucket with
them. -/
theorem not_steady_idle : ¬ ∀ (W : Set ℤ) (s : Pool), Pool.Run W s → Steady s := by
  intro hall
  have hseparates : Separates {0} := Pool.separates_of_run (hall {0})
  exact absurd (separates_singleton.mp hseparates) (by decide)

end Always
end Dsl
end NUClear
