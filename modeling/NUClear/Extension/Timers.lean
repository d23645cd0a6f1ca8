import Mathlib.Algebra.Order.BigOperators.Group.List
import Mathlib.Algebra.Order.Ring.Int
import Mathlib.Tactic.Ring
import NUClear.Extension.ChronoController

/-!
# `Every` and `Delay` on the chrono controller

The function of an `Every` submits its reaction, moves the time of its task on by the period, and
asks to be renewed.  The function of a `Delay` emits its datum and is done.  A task is added with
the time that the clock showed before, plus the period or the delay; here that time is arbitrary.

Both functions can throw, where the task of the reaction is made or the datum is emitted; the time
of the task has not been moved then.  The task stays at the front of the heap and is run again for
the same time.

Each task has a serial number, for the statements only.  What has happened to it is read off the
history: how often its function was run and returned (`fired`), and by how much `TimeTravel` has
moved it since it was added (`moves`).

* `firings_exact`: the runs of an `Every` are for its times, in order, and each run that returns is
  the only one for its time that does; a `Delay` returns at most once.
* `catchUp_exec`: with the clock still, and where no function throws, the loop runs all the times
  that have passed, in as many rounds as there are times; then every timer has been run as often as
  its times have passed.

## The proof

* `Change`: what a step does to the tasks and to the history, read off the chrono controller once.
  The invariants look at nothing else.
* `Exact`: the invariant.  A task has the time of its next run (`nominal`: its first time, a period
  for each run that returned, and what `TimeTravel` has moved it by), it stays until it is unbound
  or has finished, and every run in the history was for the next time then, and not early
  (`Timely`).
* `Past`: what was run has passed; with `Exact` it follows that a timer was run as often as its
  times have passed (`fired_eq_passed`).
* `backlog`: how many times are to be run, over all tasks.  A round lowers it by one
  (`exists_round`), so `catchUp` ends with none.
-/

namespace NUClear
namespace Extension

open Foundation

/-- The functions of `Every`, with its period, and of `Delay`. -/
inductive TimerKind where
  | every (jump : ℤ)
  | delay
  deriving DecidableEq, Repr

/-- A function, and which call has made it; the serial number tells tasks apart that are alike. -/
structure TimerTask where
  serial : ℕ
  kind : TimerKind
  deriving DecidableEq, Repr

/-- What is added to the time at each run: the period of an `Every`, and nothing for a `Delay`. -/
def TimerKind.jump : TimerKind → ℤ
  | .every jump => jump
  | .delay => 0

/-- What the function returns: whether its task is to be run again. -/
def TimerKind.renew : TimerKind → Bool
  | .every _ => true
  | .delay => false

/-- How the function of a task for `time` ends; when it throws, it has not moved its task. -/
def TimerKind.outcome (kind : TimerKind) (time : ℤ) (throws : Bool) : TaskOutcome :=
  if throws then .threw time
  else if kind.renew then .renewed (time + kind.jump)
  else .finished time

structure Timers where
  controller : ChronoController TimerTask
  /-- The next serial number. -/
  next : ℕ

namespace Timers

open ChronoController (Heap)

variable (H : Heap TimerTask) (s s' : Timers)

def start (now : ℤ) : Timers := ⟨.start now, 0⟩

inductive Action where
  /-- `Every::bind`, of a reaction with this id. -/
  | every (id : UInt64) (first jump : ℤ)
  /-- `emit::Delay`. -/
  | delay (time : ℤ)
  | unbind (id : UInt64)
  | timeTravel (target : ℤ) (type : TimeTravel)
  | shutdown
  | check
  /-- A round, in which the function of the front throws or not. -/
  | round (throws : Bool)
  | clock (now : ℤ)
  deriving DecidableEq, Repr

/-- A task with a new serial number is emitted, and goes to the handler of the controller. -/
def add (kind : TimerKind) (time : ℤ) (id : UInt64) : Timers where
  controller := s.controller.add H ⟨⟨s.next, kind⟩, time, id⟩
  next := s.next + 1

/-- A round, in which the front does what its function does. -/
def round (throws : Bool) : ChronoController TimerTask :=
  match s.controller.tasks with
  | [] => s.controller
  | t :: _ => s.controller.round H (t.task.kind.outcome t.time throws)

def step : Action → Option Timers
  | .every id first jump => some (s.add H (.every jump) first id)
  -- the id of a delay is -1: it removes itself
  | .delay time => some (s.add H .delay time (-1))
  | .unbind id => some { s with controller := s.controller.unbind H id }
  | .timeTravel target type => some { s with controller := s.controller.timeTravel target type }
  | .shutdown => some { s with controller := { s.controller with running := false } }
  | .check =>
      if s.controller.running && !s.controller.inRound then
        some { s with controller := { s.controller with inRound := true } }
      else none
  | .round throws =>
      if s.controller.inRound then
        some { s with controller := { s.round H throws with inRound := false } }
      else none
  | .clock now => some { s with controller := { s.controller with now := now } }

/-! ## What has happened to a task -/

/-- The event is a run of the task with this serial number, and its function has returned. -/
def isRun (k : ℕ) : ChronoEvent TimerTask → Bool
  | .ran _ t outcome => outcome.returned && t.task.serial = k
  | _ => false

/-- How often the function of the task has returned in this history. -/
def fired (k : ℕ) (h : List (ChronoEvent TimerTask)) : ℕ := h.countP (isRun k)

/-- By how much its time was moved by `TimeTravel` since it was added. -/
def moves (k : ℕ) : List (ChronoEvent TimerTask) → ℤ
  | [] => 0
  | .added t :: h => if t.task.serial = k then 0 else moves k h
  | .moved d :: h => moves k h + d
  | .unbound _ :: h => moves k h
  | .ran .. :: h => moves k h

/-- The time at which a task is to be run next: its first time, a period for each run that has
returned, and the moves. -/
def nominal (t : ChronoTask TimerTask) (h : List (ChronoEvent TimerTask)) : ℤ :=
  t.time + fired t.task.serial h * t.task.kind.jump + moves t.task.serial h

/-- How many of the times from `time` on have passed when the clock shows `now`; a `Delay` has one
time only. -/
def passed (kind : TimerKind) (time now : ℤ) : ℕ :=
  if now < time then 0
  else match kind with
    | .every jump => ((now - time) / jump).toNat + 1
    | .delay => 1

variable {H s s'} {t t' u : ChronoTask TimerTask} {h : List (ChronoEvent TimerTask)} {k : ℕ}
  {e : ChronoEvent TimerTask}
  {a : Action}

/-- What a step does to the tasks and to the history, one constructor for each way.  The invariants
are shown over these, whatever the heap looks like. -/
inductive Change (s : Timers) (s' : Timers) : Prop
  | same (htasks : s'.controller.tasks = s.controller.tasks)
    (hhistory : s'.controller.history = s.controller.history)
      (hnext : s.next ≤ s'.next)
  | added (t : ChronoTask TimerTask) (hserial : t.task.serial = s.next)
      (htasks : s'.controller.tasks.Perm (t :: s.controller.tasks))
      (hhistory : s'.controller.history = .added t :: s.controller.history)
      (hnext : s'.next = s.next + 1)
  | unbound (id : UInt64) (hsub : s'.controller.tasks ⊆ s.controller.tasks)
      (hkept : ∀ t ∈ s.controller.tasks, t.id ≠ id → t ∈ s'.controller.tasks)
      (hnodup : (s.controller.tasks.map fun t => t.task.serial).Nodup →
        (s'.controller.tasks.map fun t => t.task.serial).Nodup)
      (hhistory : s'.controller.history = .unbound id :: s.controller.history)
      (hnext : s'.next = s.next)
  | moved (d : ℤ) (htasks : s'.controller.tasks = s.controller.tasks.map fun t =>
    { t with time := t.time + d })
      (hhistory : s'.controller.history = .moved d :: s.controller.history)
      (hnext : s'.next = s.next)
      (hnow : s'.controller.now = s.controller.now + d)
  | ran (t : ChronoTask TimerTask) (ts : List (ChronoTask TimerTask)) (outcome : TaskOutcome)
      (hreturned : outcome.returned = true)
      (hfront : s.controller.tasks = t :: ts) (hdue : t.time ≤ s.controller.now)
      (htasks : s'.controller.tasks.Perm
        (if t.task.kind.renew then { t with time := t.time + t.task.kind.jump } :: ts else ts))
      (hhistory : s'.controller.history = .ran s.controller.now t outcome :: s.controller.history)
      (hnext : s'.next = s.next) (hnow : s'.controller.now = s.controller.now)
  | threw (t : ChronoTask TimerTask) (hmem : t ∈ s.controller.tasks)
    (hdue : t.time ≤ s.controller.now)
      (htasks : s'.controller.tasks = s.controller.tasks)
      (hhistory : s'.controller.history =
        .ran s.controller.now t (.threw t.time) :: s.controller.history)
      (hnext : s'.next = s.next) (hnow : s'.controller.now = s.controller.now)

theorem change_add (kind : TimerKind) (time : ℤ) (id : UInt64) :
    Change s (s.add H kind time id) := by
  by_cases hr : s.controller.running = true
  · refine .added ⟨⟨s.next, kind⟩, time, id⟩ rfl ?_ ?_ rfl
    · simp only [add, ChronoController.add, if_pos hr]
      exact (H.pushHeap_perm _).trans (List.perm_append_singleton _ _)
    · simp only [add, ChronoController.add, if_pos hr]
  · refine .same ?_ ?_ (Nat.le_succ _) <;> simp only [add, ChronoController.add, if_neg hr]

theorem change_unbind (id : UInt64) : Change s { s with
    controller := s.controller.unbind H id } := by
  simp only [ChronoController.unbind]
  cases hfind : s.controller.tasks.findIdx? fun t => t.id == id with
  | none => exact .unbound id (List.Subset.refl _) (fun t ht _ => ht) (fun hn => hn) rfl rfl
  | some i =>
    obtain ⟨hi, hid, -⟩ := List.findIdx?_eq_some_iff_getElem.mp hfind
    have hid : s.controller.tasks[i].id = id := by simpa using hid
    have hsub := List.eraseIdx_sublist s.controller.tasks i
    have hperm : s.controller.tasks.Perm (s.controller.tasks[i] :: s.controller.tasks.eraseIdx i) :=
      (List.getElem_cons_eraseIdx_perm hi).symm
    refine .unbound id (fun t ht => hsub.subset ((H.makeHeap_perm _).mem_iff.mp ht))
      (fun t ht hne => ?_)
      (fun hn => ?_) rfl rfl
    · refine (H.makeHeap_perm _).mem_iff.mpr
        ((List.mem_cons.mp (hperm.mem_iff.mp ht)).resolve_left ?_)
      rintro rfl
      exact hne hid
    · exact (((H.makeHeap_perm _).map _).nodup_iff).mpr (hn.sublist (hsub.map _))

theorem change_timeTravel (target : ℤ) (type : TimeTravel) :
    Change s { s with controller := s.controller.timeTravel target type } := by
  cases type with
  | relative =>
    exact .moved (target - s.controller.now) rfl rfl rfl (by simp [ChronoController.timeTravel])
  | absolute => exact .same rfl rfl le_rfl
  | nearest => exact .same rfl rfl le_rfl

/-- A round that runs the front and returns: the task has moved on by its period, or is gone. -/
theorem round_due {ts : List (ChronoTask TimerTask)} (hs : s.controller.Ordered)
    (htasks : s.controller.tasks = t :: ts) (hdue : t.time ≤ s.controller.now) :
    (s.round H false).tasks.Perm
        (if t.task.kind.renew then { t with time := t.time + t.task.kind.jump } :: ts else ts) ∧
      (∃ outcome : TaskOutcome, outcome.returned = true ∧
        (s.round H false).history = .ran s.controller.now t outcome :: s.controller.history) ∧
      (s.round H false).running = s.controller.running ∧
      (s.round H false).now = s.controller.now := by
  have hheap : IsHeap ChronoTask.time (t :: ts) := htasks ▸ hs
  have hround : s.round H false = s.controller.round H (t.task.kind.outcome t.time false) := by
    rw [round, htasks]
  obtain ⟨hlive, hhistory, hnow, hrunning⟩ :=
    ChronoController.round_tasks (H := H) hheap htasks hdue (t.task.kind.outcome t.time false)
  rw [hround]
  by_cases hrenew : t.task.kind.renew = true
  · have houtcome : t.task.kind.outcome t.time false = .renewed (t.time + t.task.kind.jump) := by
      rw [TimerKind.outcome, if_neg Bool.false_ne_true, if_pos hrenew]
    rw [houtcome] at hlive hhistory hnow hrunning ⊢
    rw [if_pos hrenew]
    exact ⟨Multiset.coe_eq_coe.mp hlive, ⟨_, rfl, hhistory⟩, hrunning, hnow⟩
  · have houtcome : t.task.kind.outcome t.time false = .finished t.time := by
      rw [TimerKind.outcome, if_neg Bool.false_ne_true, if_neg hrenew]
    rw [houtcome] at hlive hhistory hnow hrunning ⊢
    rw [if_neg hrenew]
    exact ⟨Multiset.coe_eq_coe.mp hlive, ⟨_, rfl, hhistory⟩, hrunning, hnow⟩

/-- A round that runs the front and throws: the task is where it was, to be run again. -/
theorem round_threw {ts : List (ChronoTask TimerTask)} (htasks : s.controller.tasks = t :: ts)
    (hdue : t.time ≤ s.controller.now) :
    s.round H true = { s.controller with
      history := .ran s.controller.now t (.threw t.time) :: s.controller.history } := by
  have houtcome : t.task.kind.outcome t.time true = .threw t.time := if_pos rfl
  simp only [round, htasks, houtcome, ChronoController.round, if_pos hdue]

/-- A round that runs nothing, since the front is not due. -/
theorem round_idle (hidle : ∀ t ∈ s.controller.tasks.head?, s.controller.now < t.time)
    (throws : Bool) :
    s.round H throws = s.controller := by
  rw [round]
  cases htasks : s.controller.tasks with
  | nil => rfl
  | cons t ts =>
    have hearly : ¬ t.time ≤ s.controller.now :=
      not_le.mpr (hidle t (by rw [htasks, List.head?_cons]; rfl))
    simp only [ChronoController.round, htasks, if_neg hearly]

theorem change_round (hs : s.controller.Ordered) (throws : Bool) :
    Change s { s with controller := { s.round H throws with inRound := false } } := by
  by_cases hidle : ∀ t ∈ s.controller.tasks.head?, s.controller.now < t.time
  · rw [round_idle hidle]
    exact .same rfl rfl le_rfl
  · push Not at hidle
    obtain ⟨t, ht, hdue⟩ := hidle
    obtain ⟨ts, htasks⟩ := List.head?_eq_some_iff.mp ht
    cases throws with
    | false =>
      obtain ⟨hperm, ⟨outcome, hreturned, hhistory⟩, -, hnow⟩ := round_due (H := H) hs htasks hdue
      exact .ran t ts outcome hreturned htasks hdue hperm hhistory rfl hnow
    | true =>
      rw [round_threw htasks hdue]
      exact .threw t (htasks ▸ List.mem_cons_self ..) hdue rfl rfl rfl rfl

theorem change_step (hs : s.controller.Ordered) (hstep : step H s a = some s') : Change s s' := by
  cases a with
  | every id first jump => exact Option.some.inj hstep ▸ change_add ..
  | delay time => exact Option.some.inj hstep ▸ change_add ..
  | unbind id => exact Option.some.inj hstep ▸ change_unbind id
  | timeTravel target type => exact Option.some.inj hstep ▸ change_timeTravel target type
  | shutdown => exact Option.some.inj hstep ▸ .same rfl rfl le_rfl
  | check =>
    rw [step, Option.ite_none_right_eq_some] at hstep
    exact Option.some.inj hstep.2 ▸ .same rfl rfl le_rfl
  | round throws =>
    rw [step, Option.ite_none_right_eq_some] at hstep
    exact Option.some.inj hstep.2 ▸ change_round hs throws
  | clock now => exact Option.some.inj hstep ▸ .same rfl rfl le_rfl

/-- The step of the timers is one of the controller, and keeps the heap: a function that throws has
not moved its task. -/
theorem ordered_step (hs : s.controller.Ordered) (hstep : step H s a = some s') :
    s'.controller.Ordered := by
  cases a with
  | every id first jump => exact Option.some.inj hstep ▸ (ChronoController.add_spec hs _).1
  | delay time => exact Option.some.inj hstep ▸ (ChronoController.add_spec hs _).1
  | unbind id => exact Option.some.inj hstep ▸ (ChronoController.unbind_spec hs id).1
  | timeTravel target type =>
    exact Option.some.inj hstep ▸ (ChronoController.timeTravel_spec hs target type).1
  | shutdown => exact Option.some.inj hstep ▸ hs
  | check =>
    rw [step, Option.ite_none_right_eq_some] at hstep
    exact Option.some.inj hstep.2 ▸ hs
  | round throws =>
    rw [step, Option.ite_none_right_eq_some] at hstep
    obtain rfl := Option.some.inj hstep.2
    show (s.round H throws).Ordered
    rw [round]
    split
    · exact hs
    · next t ts htasks =>
      refine (ChronoController.ordered_round_iff hs _).mpr ?_
      have hheap : IsHeap ChronoTask.time (t :: ts) := htasks ▸ hs
      cases throws with
      | false =>
        rw [TimerKind.outcome, if_neg Bool.false_ne_true]
        split <;> trivial
      | true =>
        intro u _ _ v hv
        rw [htasks] at hv
        exact hheap.front_le (List.mem_cons_of_mem _ hv)
  | clock now => exact Option.some.inj hstep ▸ hs

/-! ## One event more -/

theorem fired_cons (e : ChronoEvent TimerTask) :
    fired k (e :: h) = fired k h + (isRun k e).toNat := by
  rw [fired, List.countP_cons]
  cases isRun k e <;> rfl

theorem fired_cons_of_not_run (he : isRun k e = false) : fired k (e :: h) = fired k h := by
  rw [fired_cons, he]
  rfl

/-- A task is not run before it is added, and no task with this serial number was. -/
structure Fresh (k : ℕ) (h : List (ChronoEvent TimerTask)) : Prop where
  added : ∀ t, .added t ∈ h → t.task.serial < k
  ran : ∀ now t outcome, .ran now t outcome ∈ h → t.task.serial < k

theorem Fresh.fired_eq_zero (hf : Fresh k h) : fired k h = 0 := by
  refine List.countP_eq_zero.mpr fun e he hrun => ?_
  cases e with
  | ran now t outcome =>
    exact absurd (of_decide_eq_true (Bool.and_eq_true_iff.mp hrun).2) (hf.ran now t outcome he).ne
  | added t => exact Bool.noConfusion hrun
  | unbound id => exact Bool.noConfusion hrun
  | moved d => exact Bool.noConfusion hrun

/-- What is known of a task that was added: when its runs were, and for a `Delay` that it returned
once at most. -/
structure Timely (t : ChronoTask TimerTask) (h : List (ChronoEvent TimerTask)) : Prop where
  /-- Each run, also one that has thrown, was for the next time, and not early. -/
  runs : ∀ pre now u outcome h', h = pre ++ .ran now u outcome :: h' →
    u.task.serial = t.task.serial → u.time = nominal t h' ∧ u.time ≤ now
  once : t.task.kind = .delay → fired t.task.serial h ≤ 1

/-- What holds of every state: each task that is there has the time of its next run, and each run
there was had the time that was next then. -/
structure Exact (s : Timers) : Prop where
  ordered : s.controller.Ordered
  fresh : Fresh s.next s.controller.history
  unique : ∀ t t', .added t ∈ s.controller.history → .added t' ∈ s.controller.history →
    t.task.serial = t'.task.serial → t = t'
  nodup : (s.controller.tasks.map fun t => t.task.serial).Nodup
  /-- A task that is there was added, and it has the time of its next run. -/
  origin : ∀ u ∈ s.controller.tasks, ∃ t, .added t ∈ s.controller.history ∧
    u.task = t.task ∧ u.id = t.id ∧
    u.time = nominal t s.controller.history ∧
      (t.task.kind = .delay → fired t.task.serial s.controller.history = 0)
  /-- It stays until it is unbound, or has finished. -/
  present : ∀ t, .added t ∈ s.controller.history → .unbound t.id ∉ s.controller.history →
    (t.task.kind = .delay → fired t.task.serial s.controller.history = 0) →
    ∃ u ∈ s.controller.tasks, u.task = t.task ∧ u.id = t.id
  timely : ∀ t, .added t ∈ s.controller.history → Timely t s.controller.history

theorem exact_start (now : ℤ) : Exact (start now) where
  ordered := ChronoController.ordered_start now
  fresh := ⟨fun _ ht => absurd ht List.not_mem_nil, fun _ _ _ ht => absurd ht List.not_mem_nil⟩
  unique _ _ ht := absurd ht List.not_mem_nil
  nodup := List.nodup_nil
  origin _ hu := absurd hu List.not_mem_nil
  present _ ht := absurd ht List.not_mem_nil
  timely _ ht := absurd ht List.not_mem_nil

/-- The event is not that the task was run, so it leaves the number of its runs. -/
def NotRan (k : ℕ) (e : ChronoEvent TimerTask) : Prop :=
  ∀ now u outcome, .ran now u outcome = e → u.task.serial ≠ k

theorem NotRan.isRun_eq_false (he : NotRan k e) : isRun k e = false := by
  cases e with
  | ran now u outcome => rw [isRun, decide_eq_false (he now u outcome rfl), Bool.and_false]
  | added t => rfl
  | unbound id => rfl
  | moved d => rfl

/-- An event that is no run leaves what is known of a task, if it is not the first of its serial
number. -/
theorem Timely.cons (ht : Timely t h) (he : NotRan t.task.serial e) : Timely t (e :: h) where
  runs pre now u outcome h' heq hserial := by
    cases pre with
    | nil =>
      obtain ⟨rfl, rfl⟩ := List.cons.inj heq
      exact absurd hserial (he now u outcome rfl)
    | cons e' pre => exact ht.runs pre now u outcome h' (List.cons.inj heq).2 hserial
  once hk := by
    rw [fired_cons, he.isRun_eq_false]
    exact ht.once hk

/-- A run of a task that has the time of its next run, and is due. -/
theorem Timely.ran {now : ℤ} {outcome : TaskOutcome} (ht : Timely t h)
    (htime : u.time = nominal t h) (hdue : u.time ≤ now)
    (hzero : t.task.kind = .delay → fired t.task.serial h = 0) :
    Timely t (.ran now u outcome :: h) where
  runs pre now' u' outcome' h' heq hserial := by
    cases pre with
    | nil =>
      obtain ⟨heq, rfl⟩ := List.cons.inj heq
      cases heq
      exact ⟨htime, hdue⟩
    | cons e' pre => exact ht.runs pre now' u' outcome' h' (List.cons.inj heq).2 hserial
  once hk := by
    rw [fired_cons, hzero hk, Nat.zero_add]
    exact Bool.toNat_le _

/-- The time of the next run, when the event is neither a run of the task nor a move. -/
theorem nominal_cons (hrun : isRun t.task.serial e = false)
    (hmoves : moves t.task.serial (e :: h) = moves t.task.serial h) :
    nominal t (e :: h) = nominal t h := by
  rw [nominal, nominal, fired_cons, hrun, hmoves]
  rfl

theorem nominal_moved (d : ℤ) : nominal t (.moved d :: h) = nominal t h + d := by
  have hf : fired t.task.serial (.moved d :: h) = fired t.task.serial h := fired_cons _
  rw [nominal, nominal, hf, moves, ← add_assoc]

theorem nominal_ran {now : ℤ} {outcome : TaskOutcome} (hreturned : outcome.returned = true)
    (hu : u.task.serial = t.task.serial) :
    nominal t (.ran now u outcome :: h) = nominal t h + t.task.kind.jump := by
  have hf : fired t.task.serial (.ran now u outcome :: h) = fired t.task.serial h + 1 := by
    rw [fired_cons, isRun, decide_eq_true hu, hreturned]
    rfl
  rw [nominal, nominal, hf, moves, Nat.cast_succ]
  ring

/-- A task of another serial number than that of the event. -/
theorem notRan_of_ne {now : ℤ} {outcome : TaskOutcome} (hne : u.task.serial ≠ k) :
    NotRan k (.ran now u outcome) := by
  rintro _ _ _ ⟨⟩
  exact hne

theorem isRun_ran_of_ne {now : ℤ} {outcome : TaskOutcome} (hne : u.task.serial ≠ k) :
    isRun k (.ran now u outcome) = false :=
  (notRan_of_ne hne).isRun_eq_false

theorem Exact.same (hx : Exact s) (htasks : s'.controller.tasks = s.controller.tasks)
    (hhistory : s'.controller.history = s.controller.history) (hnext : s.next ≤ s'.next)
    (hs' : s'.controller.Ordered) : Exact s' where
  ordered := hs'
  fresh := by
    rw [hhistory]
    exact ⟨fun t ht => (hx.fresh.added t ht).trans_le hnext,
      fun now t outcome ht => (hx.fresh.ran now t outcome ht).trans_le hnext⟩
  unique := hhistory ▸ hx.unique
  nodup := htasks ▸ hx.nodup
  origin := by
    rw [htasks, hhistory]
    exact hx.origin
  present := by
    rw [htasks, hhistory]
    exact hx.present
  timely := hhistory ▸ hx.timely

/-- A task that is added has not been run, so nothing has to be said of its runs. -/
theorem Fresh.timely (hf : Fresh t.task.serial h) : Timely t (.added t :: h) where
  runs pre now u outcome h' heq hserial := by
    have hmem : .ran now u outcome ∈ .added t :: h :=
      heq ▸ List.mem_append_right _ (List.mem_cons_self ..)
    have hran : .ran now u outcome ∈ h := (List.mem_cons.mp hmem).resolve_left nofun
    exact absurd hserial (hf.ran now u outcome hran).ne
  once _ := by
    rw [fired_cons, hf.fired_eq_zero]
    exact Nat.zero_le _

theorem Exact.added (hx : Exact s) (hserial : t.task.serial = s.next)
    (htasks : s'.controller.tasks.Perm (t :: s.controller.tasks))
    (hhistory : s'.controller.history = .added t :: s.controller.history)
    (hnext : s'.next = s.next + 1) (hs' : s'.controller.Ordered) : Exact s' := by
  have hzero : fired t.task.serial s.controller.history = 0 := hserial ▸ hx.fresh.fired_eq_zero
  have hold {t' : ChronoTask TimerTask} (ht' : .added t' ∈ s.controller.history) : t.task.serial ≠
    t'.task.serial :=
    hserial ▸ (hx.fresh.added t' ht').ne'
  have hnominal {t' : ChronoTask TimerTask} (ht' : .added t' ∈ s.controller.history) :
      nominal t' (.added t :: s.controller.history) = nominal t' s.controller.history :=
    nominal_cons rfl (if_neg (hold ht'))
  constructor
  case ordered => exact hs'
  case fresh =>
    rw [hhistory, hnext]
    refine ⟨fun t' ht' => ?_, fun now t' outcome ht' => ?_⟩
    · rcases List.mem_cons.mp ht' with heq | ht'
      · cases heq
        exact hserial ▸ Nat.lt_succ_self _
      · exact (hx.fresh.added t' ht').trans (Nat.lt_succ_self _)
    · have hold := (List.mem_cons.mp ht').resolve_left nofun
      exact (hx.fresh.ran now t' outcome hold).trans (Nat.lt_succ_self _)
  case unique =>
    rw [hhistory]
    intro t₁ t₂ h₁ h₂ heq
    rcases List.mem_cons.mp h₁ with h₁ | h₁ <;> rcases List.mem_cons.mp h₂ with h₂ | h₂
    · cases h₁
      cases h₂
      rfl
    · cases h₁
      exact absurd heq (hold h₂)
    · cases h₂
      exact absurd heq.symm (hold h₁)
    · exact hx.unique t₁ t₂ h₁ h₂ heq
  case nodup =>
    rw [(htasks.map _).nodup_iff, List.map_cons, List.nodup_cons]
    refine ⟨fun hmem => ?_, hx.nodup⟩
    obtain ⟨u, hu, heq⟩ := List.mem_map.mp hmem
    obtain ⟨t', ht', htask, -⟩ := hx.origin u hu
    exact hold ht' (heq.symm.trans (congrArg TimerTask.serial htask))
  case origin =>
    rw [hhistory]
    intro u hu
    rcases List.mem_cons.mp (htasks.mem_iff.mp hu) with rfl | hu
    · refine ⟨u, List.mem_cons_self .., rfl, rfl, ?_, fun _ => ?_⟩
      · rw [nominal, fired_cons, hzero, moves, if_pos rfl]
        simp [isRun]
      · rw [fired_cons, hzero]
        rfl
    · obtain ⟨t', ht', htask, hid, htime, hk⟩ := hx.origin u hu
      exact ⟨t', List.mem_cons_of_mem _ ht', htask, hid, htime.trans (hnominal ht').symm,
        fun hd => (fired_cons _).trans (hk hd)⟩
  case present =>
    rw [hhistory]
    intro t' ht' hun hk
    rcases List.mem_cons.mp ht' with heq | ht'
    · cases heq
      exact ⟨t, htasks.mem_iff.mpr (List.mem_cons_self ..), rfl, rfl⟩
    · obtain ⟨u, hu, htask⟩ := hx.present t' ht' (fun h => hun (List.mem_cons_of_mem _ h))
        fun hd => (fired_cons _).symm.trans (hk hd)
      exact ⟨u, htasks.mem_iff.mpr (List.mem_cons_of_mem _ hu), htask⟩
  case timely =>
    rw [hhistory]
    intro t' ht'
    rcases List.mem_cons.mp ht' with heq | ht'
    · cases heq
      exact (hserial ▸ hx.fresh : Fresh t.task.serial _).timely
    · exact (hx.timely t' ht').cons nofun

/-! ### Events that neither add nor run a task -/

theorem Fresh.cons (hf : Fresh k h) (hadd : ∀ t, .added t ≠ e)
    (hran : ∀ now t outcome, .ran now t outcome = e → t.task.serial < k) : Fresh k (e :: h) where
  added t ht := hf.added t ((List.mem_cons.mp ht).resolve_left (hadd t))
  ran now t outcome ht := by
    obtain heq | ht := List.mem_cons.mp ht
    · exact hran now t outcome heq
    · exact hf.ran now t outcome ht

theorem Exact.unique_cons (hx : Exact s) (hadd : ∀ t, .added t ≠ e) (t t' : ChronoTask TimerTask)
    (ht : .added t ∈ e :: s.controller.history) (ht' : .added t' ∈ e :: s.controller.history)
    (heq : t.task.serial = t'.task.serial) : t = t' :=
  hx.unique t t' ((List.mem_cons.mp ht).resolve_left (hadd t))
    ((List.mem_cons.mp ht').resolve_left (hadd t')) heq

theorem Exact.timely_cons (hx : Exact s) (hadd : ∀ t, .added t ≠ e) (hrun : ∀ k, NotRan k e)
    (t : ChronoTask TimerTask) (ht : .added t ∈ e :: s.controller.history) :
    Timely t (e :: s.controller.history) :=
  (hx.timely t ((List.mem_cons.mp ht).resolve_left (hadd t))).cons (hrun _)

theorem Exact.unbound {id : UInt64} (hx : Exact s) (hsub : s'.controller.tasks ⊆ s.controller.tasks)
    (hkept : ∀ t ∈ s.controller.tasks, t.id ≠ id → t ∈ s'.controller.tasks)
    (hnodup : (s'.controller.tasks.map fun t => t.task.serial).Nodup)
    (hhistory : s'.controller.history = .unbound id :: s.controller.history)
    (hnext : s'.next = s.next) (hs' : s'.controller.Ordered) : Exact s' := by
  have hmem {t' : ChronoTask TimerTask} (ht' : .added t' ∈ .unbound id :: s.controller.history) :
      .added t' ∈ s.controller.history := (List.mem_cons.mp ht').resolve_left nofun
  constructor
  case ordered => exact hs'
  case fresh =>
    rw [hhistory, hnext]
    exact hx.fresh.cons nofun nofun
  case unique =>
    rw [hhistory]
    exact hx.unique_cons nofun
  case nodup => exact hnodup
  case origin =>
    rw [hhistory]
    intro u hu
    obtain ⟨t', ht', htask, hid, htime, hk⟩ := hx.origin u (hsub hu)
    exact ⟨t', List.mem_cons_of_mem _ ht', htask, hid, htime.trans (nominal_cons rfl rfl).symm,
      fun hd => (fired_cons _).trans (hk hd)⟩
  case present =>
    rw [hhistory]
    intro t' ht' hun hk
    obtain ⟨u, hu, htask, hid⟩ := hx.present t' (hmem ht') (fun h => hun (List.mem_cons_of_mem _ h))
      fun hd => (fired_cons _).symm.trans (hk hd)
    refine ⟨u, hkept u hu ?_, htask, hid⟩
    rintro rfl
    exact hun (hid ▸ List.mem_cons_self ..)
  case timely =>
    rw [hhistory]
    exact hx.timely_cons nofun fun _ => nofun

theorem Exact.moved {d : ℤ} (hx : Exact s)
    (htasks : s'.controller.tasks = s.controller.tasks.map fun t => { t with time := t.time + d })
    (hhistory : s'.controller.history = .moved d :: s.controller.history) (hnext : s'.next = s.next)
    (hs' : s'.controller.Ordered) : Exact s' := by
  have hmem {t' : ChronoTask TimerTask} (ht' : .added t' ∈ .moved d :: s.controller.history) :
      .added t' ∈ s.controller.history := (List.mem_cons.mp ht').resolve_left nofun
  constructor
  case ordered => exact hs'
  case fresh =>
    rw [hhistory, hnext]
    exact hx.fresh.cons nofun nofun
  case unique =>
    rw [hhistory]
    exact hx.unique_cons nofun
  case nodup =>
    rw [htasks, List.map_map]
    exact hx.nodup
  case origin =>
    rw [hhistory, htasks]
    intro u hu
    obtain ⟨v, hv, rfl⟩ := List.mem_map.mp hu
    obtain ⟨t', ht', htask, hid, htime, hk⟩ := hx.origin v hv
    exact ⟨t', List.mem_cons_of_mem _ ht', htask, hid, by rw [nominal_moved, htime],
      fun hd => (fired_cons _).trans (hk hd)⟩
  case present =>
    rw [hhistory, htasks]
    intro t' ht' hun hk
    obtain ⟨u, hu, htask, hid⟩ := hx.present t' (hmem ht') (fun h => hun (List.mem_cons_of_mem _ h))
      fun hd => (fired_cons _).symm.trans (hk hd)
    exact ⟨_, List.mem_map_of_mem hu, htask, hid⟩
  case timely =>
    rw [hhistory]
    exact hx.timely_cons nofun fun _ => nofun

/-- **The front is run**, and its function returns: it is the next run of its task. -/
theorem Exact.ran {ts : List (ChronoTask TimerTask)} {outcome : TaskOutcome} (hx : Exact s)
    (hreturned : outcome.returned = true) (hfront : s.controller.tasks = u :: ts)
    (hdue : u.time ≤ s.controller.now) (htasks : s'.controller.tasks.Perm
      (if u.task.kind.renew then { u with time := u.time + u.task.kind.jump } :: ts else ts))
    (hhistory : s'.controller.history = .ran s.controller.now u outcome :: s.controller.history)
    (hnext : s'.next = s.next) (hs' : s'.controller.Ordered) : Exact s' := by
  have hmem {t' : ChronoTask TimerTask} (ht' : .added t' ∈ .ran s.controller.now u outcome ::
    s.controller.history) :
      .added t' ∈ s.controller.history := (List.mem_cons.mp ht').resolve_left nofun
  have hu : u ∈ s.controller.tasks := hfront ▸ List.mem_cons_self ..
  obtain ⟨t, ht, htask, hid, htime, hk⟩ := hx.origin u hu
  have hserial : u.task.serial = t.task.serial := congrArg TimerTask.serial htask
  have hother {v : ChronoTask TimerTask} (hv : v ∈ ts) : u.task.serial ≠ v.task.serial := by
    have hnodup := hx.nodup
    rw [hfront, List.map_cons, List.nodup_cons] at hnodup
    exact fun heq => hnodup.1 (heq ▸ List.mem_map_of_mem hv)
  constructor
  case ordered => exact hs'
  case fresh =>
    rw [hhistory, hnext]
    refine hx.fresh.cons nofun ?_
    rintro _ _ _ ⟨⟩
    exact hserial ▸ hx.fresh.added t ht
  case unique =>
    rw [hhistory]
    exact fun t₁ t₂ h₁ h₂ => hx.unique t₁ t₂ (hmem h₁) (hmem h₂)
  case nodup =>
    rw [(htasks.map _).nodup_iff]
    have hnodup := hx.nodup
    rw [hfront] at hnodup
    split_ifs
    · exact hnodup
    · exact (List.nodup_cons.mp hnodup).2
  case origin =>
    rw [hhistory]
    intro v hv
    have hv := htasks.mem_iff.mp hv
    have hold : v ∈ ts → ∃ t', .added t' ∈ .ran s.controller.now u outcome :: s.controller.history ∧
        v.task = t'.task ∧ v.id = t'.id ∧
          v.time = nominal t' (.ran s.controller.now u outcome :: s.controller.history) ∧
        (t'.task.kind = .delay → fired t'.task.serial
          (.ran s.controller.now u outcome :: s.controller.history) = 0) := by
      intro hv
      obtain ⟨t', ht', htask', hid', htime', hk'⟩ :=
        hx.origin v (hfront ▸ List.mem_cons_of_mem _ hv)
      have hne : u.task.serial ≠ t'.task.serial := htask' ▸ hother hv
      exact ⟨t', List.mem_cons_of_mem _ ht', htask', hid',
        htime'.trans (nominal_cons (isRun_ran_of_ne hne) rfl).symm, fun hd => by
          rw [fired_cons, isRun_ran_of_ne hne]
          exact hk' hd⟩
    split_ifs at hv with hrenew
    · rcases List.mem_cons.mp hv with rfl | hv
      · refine ⟨t, List.mem_cons_of_mem _ ht, htask, hid, ?_, fun hd => ?_⟩
        · rw [nominal_ran hreturned hserial, ← htime, ← htask]
        · rw [htask, hd] at hrenew
          exact Bool.noConfusion hrenew
      · exact hold hv
    · exact hold hv
  case present =>
    rw [hhistory]
    intro t' ht' hun hk'
    have ht' := hmem ht'
    have hfired : t'.task.kind = .delay → fired t'.task.serial s.controller.history = 0 :=
      fun hd => by
      have := hk' hd
      rw [fired_cons] at this
      exact (Nat.add_eq_zero_iff.mp this).1
    obtain ⟨v, hv, htask', hid'⟩ := hx.present t' ht'
      (fun h => hun (List.mem_cons_of_mem _ h)) hfired
    rw [hfront] at hv
    rcases List.mem_cons.mp hv with rfl | hv
    · have hrenew : v.task.kind.renew = true := by
        cases hkind : v.task.kind with
        | every jump => rfl
        | delay =>
          have := hk' (htask' ▸ hkind)
          rw [fired_cons, isRun, decide_eq_true (congrArg TimerTask.serial htask'),
            hreturned] at this
          exact absurd this (Nat.succ_ne_zero _)
      rw [if_pos hrenew] at htasks
      exact ⟨_, htasks.mem_iff.mpr (List.mem_cons_self ..), htask', hid'⟩
    · refine ⟨v, htasks.mem_iff.mpr ?_, htask', hid'⟩
      split_ifs
      · exact List.mem_cons_of_mem _ hv
      · exact hv
  case timely =>
    rw [hhistory]
    intro t' ht'
    have ht' := hmem ht'
    by_cases heq : u.task.serial = t'.task.serial
    · obtain rfl : t = t' := hx.unique t t' ht ht' (hserial.symm.trans heq)
      exact (hx.timely t ht).ran htime hdue hk
    · exact (hx.timely t' ht').cons (notRan_of_ne heq)

/-- **The front is run, and its function throws**: the run was for the next time of its task, and
this is its next time still. -/
theorem Exact.threw (hx : Exact s) (hu : u ∈ s.controller.tasks) (hdue : u.time ≤ s.controller.now)
    (htasks : s'.controller.tasks = s.controller.tasks)
    (hhistory : s'.controller.history =
      .ran s.controller.now u (.threw u.time) :: s.controller.history)
    (hnext : s'.next = s.next) (hs' : s'.controller.Ordered) : Exact s' := by
  have hmem {t' : ChronoTask TimerTask}
      (ht' : .added t' ∈ .ran s.controller.now u (.threw u.time) :: s.controller.history) :
      .added t' ∈ s.controller.history := (List.mem_cons.mp ht').resolve_left nofun
  have hfired (k : ℕ) :
      fired k (.ran s.controller.now u (.threw u.time) :: s.controller.history) =
        fired k s.controller.history := fired_cons_of_not_run rfl
  obtain ⟨t, ht, htask, hid, htime, hk⟩ := hx.origin u hu
  have hserial : u.task.serial = t.task.serial := congrArg TimerTask.serial htask
  constructor
  case ordered => exact hs'
  case fresh =>
    rw [hhistory, hnext]
    refine hx.fresh.cons nofun ?_
    rintro _ _ _ ⟨⟩
    exact hserial ▸ hx.fresh.added t ht
  case unique =>
    rw [hhistory]
    exact hx.unique_cons nofun
  case nodup => exact htasks ▸ hx.nodup
  case origin =>
    rw [hhistory, htasks]
    intro v hv
    obtain ⟨t', ht', htask', hid', htime', hk'⟩ := hx.origin v hv
    exact ⟨t', List.mem_cons_of_mem _ ht', htask', hid', htime'.trans (nominal_cons rfl rfl).symm,
      fun hd => (hfired _).trans (hk' hd)⟩
  case present =>
    rw [hhistory, htasks]
    intro t' ht' hun hk'
    exact hx.present t' (hmem ht') (fun h => hun (List.mem_cons_of_mem _ h))
      fun hd => (hfired _).symm.trans (hk' hd)
  case timely =>
    rw [hhistory]
    intro t' ht'
    have ht' := hmem ht'
    by_cases heq : u.task.serial = t'.task.serial
    · obtain rfl : t = t' := hx.unique t t' ht ht' (hserial.symm.trans heq)
      exact (hx.timely t ht).ran htime hdue hk
    · exact (hx.timely t' ht').cons (notRan_of_ne heq)

theorem Exact.step (hx : Exact s) (hstep : step H s a = some s') : Exact s' := by
  have hs' : s'.controller.Ordered := ordered_step hx.ordered hstep
  cases change_step hx.ordered hstep with
  | same htasks hhistory hnext => exact hx.same htasks hhistory hnext hs'
  | added t hserial htasks hhistory hnext => exact hx.added hserial htasks hhistory hnext hs'
  | unbound id hsub hkept hnodup hhistory hnext =>
    exact hx.unbound hsub hkept (hnodup hx.nodup) hhistory hnext hs'
  | moved d htasks hhistory hnext => exact hx.moved htasks hhistory hnext hs'
  | ran t ts outcome hreturned hfront hdue htasks hhistory hnext =>
    exact hx.ran hreturned hfront hdue htasks hhistory hnext hs'
  | threw t hmem hdue htasks hhistory hnext => exact hx.threw hmem hdue htasks hhistory hnext hs'

theorem exact_of_run {now : ℤ} {ok : Timers → Action → Prop}
    (hr : Reaches (step H) ok (start now) s) :
    Exact s :=
  hr.invariant (exact_start now) fun _ _ _ hx _ hst => hx.step hst

/-- **A timer is run for each of its times.**  In every run the runs of an `Every` are for its first
time and for each period after it, in order and not early, with all moves of `TimeTravel`: the time
of a run is the first for which the function has not returned yet, so one that throws is repeated,
and no other is.  The function of a `Delay` returns at most once.  What has not been unbound waits
for its next time. -/
theorem firings_exact {now : ℤ} (hr : Reaches (step H) Always (start now) s)
    (ht : .added t ∈ s.controller.history) :
    (∀ pre now u outcome h', s.controller.history = pre ++ .ran now u outcome :: h' →
      u.task.serial = t.task.serial →
      u.time = t.time + fired t.task.serial h' * t.task.kind.jump + moves t.task.serial h' ∧
        u.time ≤ now) ∧
    (t.task.kind = .delay → fired t.task.serial s.controller.history ≤ 1) ∧
    (.unbound t.id ∉ s.controller.history →
      (t.task.kind = .delay → fired t.task.serial s.controller.history = 0) →
      ∃ u ∈ s.controller.tasks, u.task = t.task ∧ u.time = nominal t s.controller.history) := by
  have hx := exact_of_run hr
  refine ⟨(hx.timely t ht).runs, (hx.timely t ht).once, fun hun hk => ?_⟩
  obtain ⟨u, hu, htask, -⟩ := hx.present t ht hun hk
  obtain ⟨t', ht', htask', -, htime, -⟩ := hx.origin u hu
  obtain rfl : t = t' := hx.unique t t' ht ht' (congrArg TimerTask.serial (htask.symm.trans htask'))
  exact ⟨u, hu, htask, htime⟩

/-- An `Every` of 10 and a `Delay` of 25, and a clock that is late. -/
def everyAndDelay : List Action := [.every 3 10 10, .delay 25, .clock 34]

/-- The loop, where the function of the `Every` throws at its second time. -/
def loopWithThrow : List Action :=
  [.check, .round false, .check, .round true, .check, .round false, .check, .round false, .check,
    .round false]

/-- The `Every` has returned three times, and the `Delay` once. -/
theorem firings_exact_everyAndDelay :
    ∃ s, Reaches (step (sortingHeap ChronoTask.time)) Always (start 0) s ∧
      (ChronoEvent.added ⟨⟨0, .every 10⟩, 10, 3⟩ ∈ s.controller.history ∧
        fired 0 s.controller.history = 3 ∧
        fired 1 s.controller.history = 1) ∧
      (∀ pre now u outcome h', s.controller.history = pre ++ .ran now u outcome :: h' →
        u.task.serial = 0 → u.time = 10 + fired 0 h' * 10 + moves 0 h' ∧ u.time ≤ now) ∧
      (TimerKind.every 10 = .delay → fired 0 s.controller.history ≤ 1) ∧
      (ChronoEvent.unbound 3 ∉ s.controller.history →
        (TimerKind.every 10 = .delay → fired 0 s.controller.history = 0) →
        ∃ u ∈ s.controller.tasks, u.task = ⟨0, .every 10⟩ ∧
          u.time = nominal ⟨⟨0, .every 10⟩, 10, 3⟩ s.controller.history) := by
  have hrun : (exec (step (sortingHeap ChronoTask.time)) (start 0)
      (everyAndDelay ++ loopWithThrow)).any (fun s =>
        decide (ChronoEvent.added ⟨⟨0, .every 10⟩, 10, 3⟩ ∈ s.controller.history ∧
          fired 0 s.controller.history = 3 ∧ fired 1 s.controller.history = 1)) = true := by
    decide +kernel
  obtain ⟨s, hs, hstate⟩ := (Option.any_eq_true _ _).mp hrun
  have hstate := of_decide_eq_true hstate
  have hreach := reaches_always_of_exec hs
  exact ⟨s, hreach, hstate, firings_exact hreach hstate.1⟩

/-! ## A clock that goes forward -/

/-- Only `TimeTravel` by a relative time may set the clock back, since it moves the tasks along. -/
def Forward (s : Timers) : Action → Prop
  | .clock now => s.controller.now ≤ now
  | .timeTravel target .absolute => s.controller.now ≤ target
  | .timeTravel target .nearest =>
    s.controller.now ≤ ChronoController.nearest target s.controller.tasks
  | _ => True

instance (s : Timers) : ∀ a, Decidable (Forward s a)
  | .clock now => inferInstanceAs (Decidable (s.controller.now ≤ now))
  | .timeTravel target .absolute => inferInstanceAs (Decidable (s.controller.now ≤ target))
  | .timeTravel target .nearest =>
      inferInstanceAs (Decidable (s.controller.now ≤
        ChronoController.nearest target s.controller.tasks))
  | .timeTravel _ .relative => .isTrue trivial
  | .every .. => .isTrue trivial
  | .delay _ => .isTrue trivial
  | .unbind _ => .isTrue trivial
  | .shutdown => .isTrue trivial
  | .check => .isTrue trivial
  | .round _ => .isTrue trivial

/-- What was run has passed: the last run of a timer was for a time that the clock had reached. -/
def Past (s : Timers) : Prop :=
  ∀ t, .added t ∈ s.controller.history → fired t.task.serial s.controller.history ≠ 0 →
    nominal t s.controller.history ≤ s.controller.now + t.task.kind.jump

theorem round_now (hs : s.controller.Ordered) (throws : Bool) :
    (s.round H throws).now = s.controller.now := by
  by_cases hidle : ∀ t ∈ s.controller.tasks.head?, s.controller.now < t.time
  · rw [round_idle hidle]
  · push Not at hidle
    obtain ⟨t, ht, hdue⟩ := hidle
    obtain ⟨ts, htasks⟩ := List.head?_eq_some_iff.mp ht
    cases throws with
    | false => exact (round_due hs htasks hdue).2.2.2
    | true => rw [round_threw htasks hdue]

theorem now_le_of_step (hs : s.controller.Ordered) (hok : Forward s a)
    (hstep : step H s a = some s') :
    s.controller.now ≤ s'.controller.now ∨
      ∃ d, s'.controller.history = .moved d :: s.controller.history := by
  have hadd (kind : TimerKind) (time : ℤ) (id : UInt64) :
      (s.add H kind time id).controller.now = s.controller.now := by
    simp only [add, ChronoController.add]
    split_ifs <;> rfl
  cases a with
  | every id first jump => exact Or.inl (Option.some.inj hstep ▸ (hadd ..).ge)
  | delay time => exact Or.inl (Option.some.inj hstep ▸ (hadd ..).ge)
  | unbind id =>
    refine Or.inl (Option.some.inj hstep ▸ ?_)
    simp only [ChronoController.unbind]
    split <;> exact le_rfl
  | timeTravel target type =>
    cases type with
    | relative => exact Or.inr (Option.some.inj hstep ▸ ⟨_, rfl⟩)
    | absolute => exact Or.inl (Option.some.inj hstep ▸ hok)
    | nearest => exact Or.inl (Option.some.inj hstep ▸ hok)
  | shutdown => exact Or.inl (Option.some.inj hstep ▸ le_rfl)
  | check =>
    rw [step, Option.ite_none_right_eq_some] at hstep
    exact Or.inl (Option.some.inj hstep.2 ▸ le_rfl)
  | round throws =>
    rw [step, Option.ite_none_right_eq_some] at hstep
    exact Or.inl (Option.some.inj hstep.2 ▸ (round_now hs throws).ge)
  | clock now => exact Or.inl (Option.some.inj hstep ▸ hok)

theorem Past.step (hp : Past s) (hx : Exact s) (hok : Forward s a) (hstep : step H s a = some s') :
    Past s' := by
  have hle := now_le_of_step hx.ordered hok hstep
  cases change_step hx.ordered hstep with
  | same htasks hhistory hnext =>
    rcases hle with hle | ⟨d, hd⟩
    · intro t ht hne
      rw [hhistory] at ht hne ⊢
      exact (hp t ht hne).trans (by omega)
    · exact absurd (hd.symm.trans hhistory) (List.cons_ne_self _ _)
  | added u hserial htasks hhistory hnext =>
    replace hle := hle.resolve_right fun ⟨d, hd⟩ =>
      nomatch (List.cons.inj (hd.symm.trans hhistory)).1
    intro t ht hne
    rw [hhistory] at ht hne ⊢
    rw [fired_cons_of_not_run rfl] at hne
    rcases List.mem_cons.mp ht with heq | ht
    · cases heq
      exact absurd (hserial ▸ hx.fresh.fired_eq_zero) hne
    · have hnew : u.task.serial ≠ t.task.serial := hserial ▸ (hx.fresh.added t ht).ne'
      have hsame : nominal t (.added u :: s.controller.history) = nominal t s.controller.history :=
        nominal_cons rfl (if_neg hnew)
      rw [hsame]
      exact (hp t ht hne).trans (by omega)
  | unbound id hsub hkept hnodup hhistory hnext =>
    replace hle := hle.resolve_right fun ⟨d, hd⟩ =>
      nomatch (List.cons.inj (hd.symm.trans hhistory)).1
    intro t ht hne
    rw [hhistory] at ht hne ⊢
    rw [fired_cons_of_not_run rfl] at hne
    have hsame : nominal t (.unbound id :: s.controller.history) = nominal t s.controller.history :=
      nominal_cons rfl rfl
    rw [hsame]
    exact (hp t ((List.mem_cons.mp ht).resolve_left nofun) hne).trans (by omega)
  | moved d htasks hhistory hnext hnow =>
    intro t ht hne
    rw [hhistory] at ht hne ⊢
    rw [fired_cons_of_not_run rfl] at hne
    rw [nominal_moved, hnow]
    have := hp t ((List.mem_cons.mp ht).resolve_left nofun) hne
    omega
  | ran u ts outcome hreturned hfront hdue htasks hhistory hnext hnow =>
    intro t ht hne
    rw [hhistory] at ht hne ⊢
    rw [hnow]
    have ht := (List.mem_cons.mp ht).resolve_left nofun
    by_cases heq : u.task.serial = t.task.serial
    · obtain ⟨t', ht', htask', -, htime, -⟩ := hx.origin u (hfront ▸ List.mem_cons_self ..)
      obtain rfl : t = t' := hx.unique t t' ht ht'
        (heq.symm.trans (congrArg TimerTask.serial htask'))
      rw [nominal_ran hreturned heq]
      omega
    · rw [fired_cons_of_not_run (isRun_ran_of_ne heq)] at hne
      rw [nominal_cons (isRun_ran_of_ne heq) rfl]
      exact hp t ht hne
  | threw u hmem hdue htasks hhistory hnext hnow =>
    intro t ht hne
    rw [hhistory] at ht hne ⊢
    rw [fired_cons_of_not_run rfl] at hne
    rw [nominal_cons rfl rfl, hnow]
    exact hp t ((List.mem_cons.mp ht).resolve_left nofun) hne

/-! ## The times that have passed -/

/-- The number of times that have passed, by the last one that has and the first one that has
not. -/
theorem passed_every_eq {jump time now : ℤ} {n : ℕ} (hj : 0 < jump)
    (hle : n ≠ 0 → time + n * jump ≤ now + jump) (hlt : now < time + n * jump) :
    passed (.every jump) time now = n := by
  rw [passed]
  cases n with
  | zero =>
    have hbefore : now < time := by simpa using hlt
    rw [if_pos hbefore]
  | succ n =>
    have hle := hle (Nat.succ_ne_zero n)
    rw [Nat.cast_succ, add_mul, one_mul] at hle hlt
    have hn : 0 ≤ (n : ℤ) * jump := mul_nonneg (Int.natCast_nonneg n) hj.le
    have hdiv : (now - time) / jump = n := by
      refine le_antisymm (Int.lt_add_one_iff.mp (Int.ediv_lt_of_lt_mul hj ?_))
        ((Int.le_ediv_iff_mul_le hj).mpr ?_)
      · rw [add_mul, one_mul]
        omega
      · omega
    rw [if_neg (by omega), hdiv, Int.toNat_natCast]

/-- One time more has passed from one period earlier. -/
theorem passed_every_add {jump time now : ℤ} (hj : 0 < jump) (hle : time ≤ now) :
    passed (.every jump) time now = passed (.every jump) (time + jump) now + 1 := by
  rw [passed, passed, if_neg (not_lt.mpr hle)]
  have hsub : (now - time) / jump = (now - (time + jump)) / jump + 1 := by
    rw [← Int.add_mul_ediv_right _ 1 hj.ne']
    congr 1
    omega
  split_ifs with hlt
  · have hzero : (now - time) / jump = 0 := Int.ediv_eq_zero_of_lt (by omega) (by omega)
    rw [hzero]
    rfl
  · have hnonneg : 0 ≤ (now - (time + jump)) / jump := Int.ediv_nonneg (by omega) hj.le
    omega

/-- An `Every` has a positive period, as its template parameter should; with a period of zero the
loop would run it for ever. -/
def Positive (s : Timers) : Prop :=
  ∀ t, .added t ∈ s.controller.history → ∀ jump, t.task.kind = .every jump → 0 < jump

/-- How often a timer is run when nothing is due: as often as its times have passed. -/
theorem fired_eq_passed (hx : Exact s) (hp : Past s) (hpos : Positive s)
    (hidle : ∀ u ∈ s.controller.tasks, s.controller.now < u.time)
    (ht : .added t ∈ s.controller.history) (hun : .unbound t.id ∉ s.controller.history) :
    fired t.task.serial s.controller.history =
      passed t.task.kind (t.time + moves t.task.serial s.controller.history) s.controller.now := by
  have hpast := hp t ht
  rw [nominal] at hpast
  have hnext : (t.task.kind = .delay → fired t.task.serial s.controller.history = 0) →
      s.controller.now < nominal t s.controller.history := fun hk => by
    obtain ⟨u, hu, htask, -⟩ := hx.present t ht hun hk
    obtain ⟨t', ht', htask', -, htime, -⟩ := hx.origin u hu
    obtain rfl : t = t' := hx.unique t t' ht ht'
      (congrArg TimerTask.serial (htask.symm.trans htask'))
    exact htime ▸ hidle u hu
  rw [nominal] at hnext
  have honce := (hx.timely t ht).once
  generalize fired t.task.serial s.controller.history = n at hpast hnext honce ⊢
  generalize moves t.task.serial s.controller.history = m at hpast hnext ⊢
  cases hk : t.task.kind with
  | delay =>
    rw [hk, TimerKind.jump, mul_zero, add_zero] at hpast hnext
    have honce := honce hk
    rw [passed]
    split_ifs with hlt
    · by_contra hne
      have := hpast hne
      omega
    · by_contra hne
      have := hnext fun _ => by omega
      omega
  | every jump =>
    rw [hk, TimerKind.jump] at hpast hnext
    refine (passed_every_eq (hpos t ht jump hk) (fun hne => ?_) ?_).symm
    · have := hpast hne
      omega
    · have := hnext fun hd => TimerKind.noConfusion hd
      omega

/-! ## The loop catches up -/

/-- How many times are to be run, over all tasks, as long as the clock stands still. -/
def backlog (s : Timers) : ℕ :=
  (s.controller.tasks.map fun t => passed t.task.kind t.time s.controller.now).sum

/-- The loop, for so many rounds in which no function throws. -/
def catchUp : ℕ → List Action
  | 0 => []
  | n + 1 => .check :: .round false :: catchUp n

theorem passed_eq_zero {kind : TimerKind} {time now : ℤ} :
    passed kind time now = 0 ↔ now < time := by
  unfold passed
  split_ifs with hlt
  · exact iff_of_true rfl hlt
  · cases kind <;> exact iff_of_false (Nat.succ_ne_zero _) hlt

/-- One run takes one of the times, since the task moves on by its period. -/
theorem passed_jump {kind : TimerKind} {time now : ℤ} (hpos : ∀ jump, kind = .every jump → 0 < jump)
    (hle : time ≤ now) :
    passed kind time now = (if kind.renew then passed kind (time + kind.jump) now else 0) + 1 := by
  cases kind with
  | every jump => exact passed_every_add (hpos jump rfl) hle
  | delay => simp [passed, not_lt.mpr hle, TimerKind.renew]

theorem backlog_eq_zero : backlog s = 0 ↔ ∀ u ∈ s.controller.tasks, s.controller.now < u.time := by
  rw [backlog, List.sum_eq_zero_iff]
  exact List.forall_mem_map.trans (forall₂_congr fun u _ => passed_eq_zero)

/-- **A round runs one of the times that have passed**, so there is one less to be run, and the
controller goes on. -/
theorem exists_round (hx : Exact s) (hpos : Positive s) (hrunning : s.controller.running = true)
    (hround : s.controller.inRound = false) {n : ℕ} (hn : backlog s = n + 1) :
    ∃ s₁ s', step H s .check = some s₁ ∧ step H s₁ (.round false) = some s' ∧ backlog s' = n ∧
      s'.controller.running = true ∧ s'.controller.inRound = false ∧ s'.controller.now =
        s.controller.now ∧
      ∃ now u outcome, s'.controller.history = .ran now u outcome :: s.controller.history := by
  cases htasks : s.controller.tasks with
  | nil => simp [backlog, htasks] at hn
  | cons t ts =>
    have hheap : IsHeap ChronoTask.time (t :: ts) := htasks ▸ hx.ordered
    have hdue : t.time ≤ s.controller.now := by
      by_contra hlt
      have hidle : ∀ u ∈ s.controller.tasks, s.controller.now < u.time := fun u hu =>
        (not_le.mp hlt).trans_le (hheap.front_le (htasks ▸ hu))
      exact Nat.succ_ne_zero n (hn.symm.trans (backlog_eq_zero.mpr hidle))
    let s₁ : Timers := { s with controller := { s.controller with inRound := true } }
    have hordered : s₁.controller.Ordered := hx.ordered
    obtain ⟨hperm, ⟨outcome, -, hhistory⟩, hrun, hnow⟩ := round_due (H := H) hordered htasks hdue
    let s₂ : Timers := { s₁ with controller := { s₁.round H false with inRound := false } }
    have hcheck : step H s .check = some s₁ := if_pos (by rw [hrunning, hround]; rfl)
    have hin : s₁.controller.inRound = true := rfl
    have hstep : step H s₁ (.round false) = some s₂ := by rw [step, if_pos hin]
    refine ⟨s₁, s₂, hcheck, hstep, ?_, hrun.trans hrunning, rfl, hnow, _, t, outcome, hhistory⟩
    have hnew : backlog s₂ = ((if t.task.kind.renew then
      { t with time := t.time + t.task.kind.jump } :: ts else ts).map
        fun u => passed u.task.kind u.time s.controller.now).sum := by
      rw [backlog, hnow]
      exact (hperm.map _).sum_eq
    obtain ⟨t₀, ht₀, htask, -⟩ := hx.origin t (htasks ▸ List.mem_cons_self ..)
    have hpassed := passed_jump (fun jump hk => hpos t₀ ht₀ jump (htask ▸ hk)) hdue
    rw [backlog, htasks, List.map_cons, List.sum_cons, hpassed] at hn
    rw [hnew]
    by_cases hrenew : t.task.kind.renew = true
    · rw [if_pos hrenew] at hn ⊢
      rw [List.map_cons, List.sum_cons]
      dsimp only
      omega
    · rw [if_neg hrenew] at hn ⊢
      omega

theorem execOk_catchUp (n : ℕ) : execOk (step H) Forward s (catchUp n) := by
  induction n generalizing s with
  | zero => trivial
  | succ n ih => exact ⟨trivial, fun _ _ => ⟨trivial, fun _ _ => ih⟩⟩

theorem exec_catchUp (hx : Exact s) (hpos : Positive s) (hrunning : s.controller.running = true)
    (hround : s.controller.inRound = false) {n : ℕ} (hn : backlog s = n) :
    ∃ s', exec (step H) s (catchUp n) = some s' ∧ backlog s' = 0 ∧ s'.controller.now =
      s.controller.now ∧
      Positive s' ∧ s'.controller.history.length = s.controller.history.length + n := by
  induction n generalizing s with
  | zero => exact ⟨s, rfl, hn, rfl, hpos, rfl⟩
  | succ n ih =>
    obtain ⟨s₁, s₂, hcheck, hstep, hn₂, hrun₂, hround₂, hnow₂, now, u, outcome, hhistory⟩ :=
      exists_round (H := H) hx hpos hrunning hround hn
    have hx₂ : Exact s₂ := (hx.step hcheck).step hstep
    have hpos₂ : Positive s₂ := fun t ht => by
      rw [hhistory] at ht
      exact hpos t ((List.mem_cons.mp ht).resolve_left nofun)
    obtain ⟨s', hexec, hzero, hnow, hpos', hlen⟩ := ih hx₂ hpos₂ hrun₂ hround₂ hn₂
    refine ⟨s', ?_, hzero, hnow.trans hnow₂, hpos', ?_⟩
    · rw [catchUp, exec_cons, hcheck, Option.bind_some, exec_cons, hstep, Option.bind_some, hexec]
    · rw [hlen, hhistory, List.length_cons]
      omega

/-- **The loop catches up, and then every timer has been run as often as its times have passed.**
The clock stands still meanwhile, and no function throws; before, functions may have thrown, and the
clock went forward but for relative moves. -/
theorem catchUp_exec {now : ℤ} (hr : Reaches (step H) Forward (start now) s) (hpos : Positive s)
    (hrunning : s.controller.running = true) (hround : s.controller.inRound = false) :
    ∃ s', exec (step H) s (catchUp (backlog s)) = some s' ∧ s'.controller.now = s.controller.now ∧
      s'.controller.history.length = s.controller.history.length + backlog s ∧
      ∀ t, .added t ∈ s'.controller.history → .unbound t.id ∉ s'.controller.history →
        fired t.task.serial s'.controller.history =
          passed t.task.kind (t.time + moves t.task.serial s'.controller.history)
            s'.controller.now := by
  obtain ⟨s', hexec, hzero, hnow, hpos', hlen⟩ :=
    exec_catchUp (H := H) (exact_of_run hr) hpos hrunning hround rfl
  have hr' := hr.trans (reaches_of_exec hexec (execOk_catchUp _))
  have hxp : Exact s' ∧ Past s' :=
    hr'.invariant (P := fun s => Exact s ∧ Past s)
      ⟨exact_start now, fun _ ht => absurd ht List.not_mem_nil⟩
      fun _ _ _ hx hok hst => ⟨hx.1.step hst, hx.2.step hx.1 hok hst⟩
  exact ⟨s', hexec, hnow, hlen, fun t ht hun =>
    fired_eq_passed hxp.1 hxp.2 hpos' (backlog_eq_zero.mp hzero) ht hun⟩

theorem catchUp_exec_everyAndDelay :
    ∃ s, exec (step (sortingHeap ChronoTask.time)) (start 0) everyAndDelay = some s ∧
      backlog s = 4 ∧
    ∃ s', exec (step (sortingHeap ChronoTask.time)) s (catchUp (backlog s)) = some s' ∧
      s'.controller.now = s.controller.now ∧
      s'.controller.history.length = s.controller.history.length + backlog s ∧
      ∀ t, .added t ∈ s'.controller.history → .unbound t.id ∉ s'.controller.history →
        fired t.task.serial s'.controller.history =
          passed t.task.kind (t.time + moves t.task.serial s'.controller.history)
            s'.controller.now := by
  have hrun : (exec (step (sortingHeap ChronoTask.time)) (start 0) everyAndDelay).any (fun s =>
      decide (s.controller.history = [.added ⟨⟨1, .delay⟩, 25, -1⟩,
        .added ⟨⟨0, .every 10⟩, 10, 3⟩] ∧
        s.controller.running = true ∧ s.controller.inRound = false ∧ backlog s = 4)) = true := by
    decide +kernel
  obtain ⟨s, hs, hstate⟩ := (Option.any_eq_true _ _).mp hrun
  obtain ⟨hhistory, hrunning, hround, hbacklog⟩ := of_decide_eq_true hstate
  have hreach : Reaches (step (sortingHeap ChronoTask.time)) Forward (start 0) s :=
    reaches_of_exec hs (by decide +kernel)
  have hpos : Positive s := by
    intro t ht jump hk
    rw [hhistory] at ht
    simp only [List.mem_cons, ChronoEvent.added.injEq, List.not_mem_nil, or_false] at ht
    rcases ht with rfl | rfl
    · exact TimerKind.noConfusion hk
    · cases hk
      decide
  exact ⟨s, hs, hbacklog, catchUp_exec hreach hpos hrunning hround⟩

end Timers

end Extension
end NUClear
