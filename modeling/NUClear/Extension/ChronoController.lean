import Mathlib.Data.List.Induction
import Mathlib.Data.Multiset.MapFold
import NUClear.Foundation.Heap
import NUClear.Foundation.Reachability

/-!
# The chrono controller (`ChronoController.cpp`)

The tasks are a heap by their times.  Every reaction of the controller is one section of its mutex,
and so is every round of its loop; the rounds also look at `running`, without the mutex.  A round
runs the front of the heap when its time has come.  The function that is run holds a reference to
the time of its task, and may move it while the task is still at the front.

The function may also throw.  The exception leaves the loop, and with it the mutex, and ends the
task of the `Always` reaction, which is then made again; so it is as if the loop had gone on.  What
does not happen is that the task is taken from the front: it stays there, with whatever time its
function has given it, and is run again when this has come.

* `ChronoController.step`: the sections, on the vector and with the algorithms of the standard
  library, which are a parameter (`HeapAlgorithms`).
* `LiveTasks.Step`: what the sections are for.  The tasks are in no order here; what a section does
  depends on the tasks that were added, and were not unbound and have not finished since.
* `follows_of_step`: on a heap, each section does what it is for.
* `ordered_iff_of_exec`: the tasks are a heap of exactly the live tasks at each moment of a run if
  and only if no function throws after it has moved its task behind another one.

How long the controller waits in a round that runs nothing does not matter for the tasks, so the
waiting modes are left out.  The clock is what `NUClear::clock::now` returns; between two sections
it may be anywhere, since a user may set it.
-/

namespace NUClear
namespace Extension

open Foundation

universe u

variable {τ : Type u}

/-- `dsl::operation::ChronoTask`: a function, the time at which it is to be run, and the id by which
it is taken away.  The function is of an arbitrary type. -/
structure ChronoTask (τ : Type u) where
  task : τ
  time : ℤ
  id : UInt64
  deriving DecidableEq, Repr

/-- `message::TimeTravel::Action`: whether the tasks travel with the clock, stay at their times, or
stop it. -/
inductive TimeTravel where
  | relative
  | absolute
  | nearest
  deriving DecidableEq, Repr

/-- How the function of a task ends, and the time at which it leaves its task; the function has the
time by reference, and may set any. -/
inductive TaskOutcome where
  /-- It returns `true`. -/
  | renewed (time : ℤ)
  /-- It returns `false`. -/
  | finished (time : ℤ)
  | threw (time : ℤ)
  deriving DecidableEq, Repr

/-- The function has returned, whether it is to be run again or not. -/
def TaskOutcome.returned : TaskOutcome → Bool
  | .renewed _ | .finished _ => true
  | .threw _ => false

/-- What has been done to the tasks, one event for each section that does something. -/
inductive ChronoEvent (τ : Type u) where
  /-- A task was added. -/
  | added (t : ChronoTask τ)
  /-- An `Unbind` for this id was handled. -/
  | unbound (id : UInt64)
  /-- A task was run when the clock showed `now`. -/
  | ran (now : ℤ) (t : ChronoTask τ) (outcome : TaskOutcome)
  /-- All times were moved. -/
  | moved (d : ℤ)
  deriving DecidableEq, Repr

structure ChronoController (τ : Type u) where
  tasks : List (ChronoTask τ)
  running : Bool
  /-- The loop has found `running` set, and goes for the mutex. -/
  inRound : Bool
  /-- `NUClear::clock::now()`. -/
  now : ℤ
  /-- What has been done, latest first. -/
  history : List (ChronoEvent τ)

namespace ChronoController

/-- The algorithms on the heap of tasks, as the standard library specifies them: `operator>`
compares the times, so the first task is the next one. -/
abbrev Heap (τ : Type u) := HeapAlgorithms (ChronoTask.time (τ := τ))

variable (H : Heap τ) (s s' : ChronoController τ)

/-- Nothing is live, and the controller runs, outside of a round. -/
def start (now : ℤ) : ChronoController τ := ⟨[], true, false, now, []⟩

/-- `Add Chrono task`: the task is pushed onto the heap, unless the controller has been shut down.
-/
def add (t : ChronoTask τ) : ChronoController τ :=
  if s.running then
    { s with tasks := H.pushHeap (s.tasks ++ [t]), history := .added t :: s.history }
  else s

/-- `Unbind Chrono Task`: the first task of the id is erased, and what is left is made a heap again.
-/
def unbind (id : UInt64) : ChronoController τ :=
  let s := { s with history := .unbound id :: s.history }
  match s.tasks.findIdx? fun t => t.id == id with
  | some i => { s with tasks := H.makeHeap (s.tasks.eraseIdx i) }
  | none => s

/-- `std::min(target, std::min_element(tasks.begin(), tasks.end())->time)`: the earliest of all
times, or the target if that is earlier. -/
def nearest (target : ℤ) : List (ChronoTask τ) → ℤ
  | [] => target
  | t :: ts => min target (ts.foldl (fun m u => min m u.time) t.time)

/-- `Time Travel`: the clock is set to the target or to the time of the nearest task, or the times
of all tasks are moved with it. -/
def timeTravel (target : ℤ) : TimeTravel → ChronoController τ
  | .absolute => { s with now := target }
  | .relative =>
      let adjustment := target - s.now
      { s with
        now := target
        tasks := s.tasks.map fun t => { t with time := t.time + adjustment }
        history := .moved adjustment :: s.history }
  | .nearest => { s with now := nearest target s.tasks }

/-- A round of the loop with the mutex: the front is run if its time has come.  If it is, this is
how the function ends. -/
def round (outcome : TaskOutcome) : ChronoController τ :=
  match s.tasks with
  | [] => s
  | t :: ts =>
      if t.time ≤ s.now then
        let s := { s with history := .ran s.now t outcome :: s.history }
        match outcome with
        | .renewed time =>
            { s with tasks := H.pushHeap (H.popHeap ({ t with time := time } :: ts)) }
        | .finished time =>
            { s with tasks := (H.popHeap ({ t with time := time } :: ts)).dropLast }
        -- the loop is left before the heap is looked at again
        | .threw time => { s with tasks := { t with time := time } :: ts }
      else s

inductive Action (τ : Type u) where
  | add (t : ChronoTask τ)
  | unbind (id : UInt64)
  | timeTravel (target : ℤ) (type : TimeTravel)
  | shutdown
  /-- The loop looks at `running`. -/
  | check
  /-- A round of the loop with the mutex. -/
  | round (outcome : TaskOutcome)
  /-- The clock goes on, or is set. -/
  | clock (now : ℤ)

def step : Action τ → Option (ChronoController τ)
  | .add t => some (s.add H t)
  | .unbind id => some (s.unbind H id)
  | .timeTravel target type => some (s.timeTravel target type)
  | .shutdown => some { s with running := false }
  | .check => if s.running && !s.inRound then some { s with inRound := true } else none
  | .round outcome =>
      if s.inRound then some { s.round H outcome with inRound := false } else none
  | .clock now => some { s with now := now }

end ChronoController

/-! ## What the controller is for -/

open ChronoController (Action Heap)

/-- What the controller is for: the tasks that are live, in no order, and what the sections look at
besides. -/
structure LiveTasks (τ : Type u) where
  live : Multiset (ChronoTask τ)
  running : Bool
  inRound : Bool
  now : ℤ
  history : List (ChronoEvent τ)

/-- The live tasks after a run of `t`, where `m` are the others: a task that has thrown is live, as
one that is renewed. -/
def TaskOutcome.after (t : ChronoTask τ) (m : Multiset (ChronoTask τ)) :
    TaskOutcome → Multiset (ChronoTask τ)
  | .renewed time | .threw time => { t with time := time } ::ₘ m
  | .finished _ => m

namespace LiveTasks

/-- Nothing is live, and the controller runs. -/
def start (now : ℤ) : LiveTasks τ := ⟨0, true, false, now, []⟩

/-- What each section has to do, in terms of the live tasks alone. -/
inductive Step (a : LiveTasks τ) : Action τ → LiveTasks τ → Prop
  | add (t : ChronoTask τ) (h : a.running = true) :
      Step a (.add t) { a with live := t ::ₘ a.live, history := .added t :: a.history }
  | addStopped (t : ChronoTask τ) (h : a.running = false) : Step a (.add t) a
  /-- An `Unbind` takes one task of its id away. -/
  | unbind (t : ChronoTask τ) (m : Multiset (ChronoTask τ)) (h : a.live = t ::ₘ m) :
      Step a (.unbind t.id) { a with live := m, history := .unbound t.id :: a.history }
  /-- An `Unbind` for an id that no live task has. -/
  | unbindAbsent (id : UInt64) (h : ∀ t ∈ a.live, t.id ≠ id) :
      Step a (.unbind id) { a with history := .unbound id :: a.history }
  | absolute (target : ℤ) : Step a (.timeTravel target .absolute) { a with now := target }
  | relative (target : ℤ) :
      Step a (.timeTravel target .relative) { a with
        now := target
        live := a.live.map fun t => { t with time := t.time + (target - a.now) }
        history := .moved (target - a.now) :: a.history }
  /-- The clock goes to the target, but not past the time of a live task. -/
  | nearest (target now : ℤ) (htarget : now ≤ target) (hlive : ∀ t ∈ a.live, now ≤ t.time)
      (hreached : now = target ∨ ∃ t ∈ a.live, now = t.time) :
      Step a (.timeTravel target .nearest) { a with now := now }
  | shutdown : Step a .shutdown { a with running := false }
  | check (hrunning : a.running = true) (hround : a.inRound = false) :
      Step a .check { a with inRound := true }
  /-- A live task is run whose time has come and is before those of all others. -/
  | run (t : ChronoTask τ) (m : Multiset (ChronoTask τ)) (outcome : TaskOutcome)
      (hround : a.inRound = true) (h : a.live = t ::ₘ m) (hdue : t.time ≤ a.now)
      (hfirst : ∀ u ∈ m, t.time ≤ u.time) :
      Step a (.round outcome) { a with
        live := outcome.after t m
        inRound := false
        history := .ran a.now t outcome :: a.history }
  /-- No task is run when the time of none has come. -/
  | idle (outcome : TaskOutcome) (hround : a.inRound = true) (h : ∀ t ∈ a.live, a.now < t.time) :
      Step a (.round outcome) { a with inRound := false }
  | clock (now : ℤ) : Step a (.clock now) { a with now := now }

/-- What a run has to lead to: each of its sections does what it has to, one after the other. -/
inductive Follows (now : ℤ) : List (Action τ) → LiveTasks τ → Prop
  | start : Follows now [] (start now)
  | step {l : List (Action τ)} {a a' : LiveTasks τ} {b : Action τ} :
      Follows now l a → Step a b a' → Follows now (l ++ [b]) a'

end LiveTasks

/-! ## The controller does what it is for -/

namespace ChronoController

variable {H : Heap τ} {s s' : ChronoController τ} {t : ChronoTask τ} {ts : List (ChronoTask τ)}

/-- The controller without the order of its tasks: the live tasks are those of the heap. -/
def liveTasks (s : ChronoController τ) : LiveTasks τ :=
  ⟨s.tasks, s.running, s.inRound, s.now, s.history⟩

/-- The tasks are a heap by their times, so that the first one is due no later than any other. -/
def Ordered (s : ChronoController τ) : Prop := IsHeap ChronoTask.time s.tasks

/-- **The condition** on a round: a function that throws leaves its task with a time that is not
after that of another one. -/
def KeepsFront (s : ChronoController τ) : Action τ → Prop
  | .round (.threw time) =>
      ∀ t ∈ s.tasks.head?, t.time ≤ s.now → ∀ u ∈ s.tasks.tail, time ≤ u.time
  | _ => True

instance (s : ChronoController τ) : (a : Action τ) → Decidable (KeepsFront s a)
  | .round (.threw time) =>
      inferInstanceAs (Decidable (∀ t ∈ s.tasks.head?, t.time ≤ s.now → ∀ u ∈ s.tasks.tail,
        time ≤ u.time))
  | .round (.renewed _) | .round (.finished _) | .add _ | .unbind _ | .timeTravel .. | .shutdown
  | .check | .clock _ => .isTrue trivial

theorem ordered_start (now : ℤ) : Ordered (start now : ChronoController τ) := .nil

theorem add_eq (hrunning : s.running = true) :
    s.add H t = { s with tasks := H.pushHeap (s.tasks ++ [t]), history := .added t :: s.history } :=
  if_pos hrunning

theorem add_of_not_running (hrunning : s.running = false) : s.add H t = s := by
  rw [add, hrunning, if_neg Bool.false_ne_true]

theorem coe_pushHeap : (H.pushHeap (ts ++ [t]) : Multiset (ChronoTask τ)) = t ::ₘ ↑ts := by
  rw [Multiset.cons_coe, Multiset.coe_eq_coe]
  exact (H.pushHeap_perm _).trans (List.perm_append_singleton t ts)

/-- `Add Chrono task` keeps the heap and adds the task to the live ones. -/
theorem add_spec (h : Ordered s) (t : ChronoTask τ) :
    Ordered (s.add H t) ∧ s.liveTasks.Step (.add t) (s.add H t).liveTasks := by
  cases hrunning : s.running with
  | true =>
    rw [add_eq hrunning]
    refine ⟨H.pushHeap_isHeap _ t h, ?_⟩
    show s.liveTasks.Step _
      ⟨H.pushHeap (s.tasks ++ [t]), s.running, s.inRound, s.now, .added t :: s.history⟩
    rw [coe_pushHeap]
    exact .add t hrunning
  | false =>
    rw [add_of_not_running hrunning]
    exact ⟨h, .addStopped t hrunning⟩

/-- `Unbind Chrono Task` takes one task of the id away, and makes the heap anew. -/
theorem unbind_spec (h : Ordered s) (id : UInt64) :
    Ordered (s.unbind H id) ∧ s.liveTasks.Step (.unbind id) (s.unbind H id).liveTasks := by
  simp only [unbind]
  cases hfind : s.tasks.findIdx? fun t => t.id == id with
  | none =>
    refine ⟨h, .unbindAbsent id fun t ht => ?_⟩
    have hne := List.findIdx?_eq_none_iff.mp hfind t ht
    simpa using hne
  | some i =>
    obtain ⟨hi, hid, -⟩ := List.findIdx?_eq_some_iff_getElem.mp hfind
    have hid : s.tasks[i].id = id := by simpa using hid
    refine ⟨H.makeHeap_isHeap _, ?_⟩
    have hperm : s.tasks.Perm (s.tasks[i] :: s.tasks.eraseIdx i) :=
      (List.getElem_cons_eraseIdx_perm hi).symm
    have hlive : s.liveTasks.live = s.tasks[i] ::ₘ ↑(s.tasks.eraseIdx i) := by
      rw [Multiset.cons_coe]
      exact Multiset.coe_eq_coe.mpr hperm
    have hstep := LiveTasks.Step.unbind _ _ hlive
    rw [hid, ← Multiset.coe_eq_coe.mpr (H.makeHeap_perm _)] at hstep
    exact hstep

/-! ### Time travel -/

theorem foldl_min_le (ts : List (ChronoTask τ)) (m : ℤ) :
    ts.foldl (fun m u => min m u.time) m ≤ m ∧
      ∀ u ∈ ts, ts.foldl (fun m u => min m u.time) m ≤ u.time := by
  induction ts generalizing m with
  | nil => exact ⟨le_rfl, fun u hu => absurd hu List.not_mem_nil⟩
  | cons t ts ih =>
    obtain ⟨hle, hall⟩ := ih (min m t.time)
    refine ⟨hle.trans (min_le_left _ _), fun u hu => ?_⟩
    obtain rfl | hu := List.mem_cons.mp hu
    · exact hle.trans (min_le_right _ _)
    · exact hall u hu

theorem foldl_min_eq (ts : List (ChronoTask τ)) (m : ℤ) :
    ts.foldl (fun m u => min m u.time) m = m ∨
      ∃ u ∈ ts, ts.foldl (fun m u => min m u.time) m = u.time := by
  induction ts generalizing m with
  | nil => exact .inl rfl
  | cons t ts ih =>
    obtain heq | ⟨u, hu, heq⟩ := ih (min m t.time)
    · rw [List.foldl_cons, heq]
      obtain hle | hle := le_total m t.time
      · exact .inl (min_eq_left hle)
      · exact .inr ⟨t, List.mem_cons_self .., min_eq_right hle⟩
    · exact .inr ⟨u, List.mem_cons_of_mem _ hu, heq⟩

/-- The clock does not pass the time of a task, and stops at one or at the target. -/
theorem nearest_spec (target : ℤ) (ts : List (ChronoTask τ)) :
    nearest target ts ≤ target ∧ (∀ t ∈ ts, nearest target ts ≤ t.time) ∧
      (nearest target ts = target ∨ ∃ t ∈ ts, nearest target ts = t.time) := by
  cases ts with
  | nil => exact ⟨le_rfl, fun t ht => absurd ht List.not_mem_nil, .inl rfl⟩
  | cons t ts =>
    obtain ⟨hle, hall⟩ := foldl_min_le _ t.time
    refine ⟨min_le_left _ _, fun u hu => (min_le_right _ _).trans ?_, ?_⟩
    · obtain rfl | hu := List.mem_cons.mp hu
      · exact hle
      · exact hall u hu
    · rw [nearest]
      obtain hmin | hmin := le_total target (ts.foldl (fun m u => min m u.time) t.time)
      · exact .inl (min_eq_left hmin)
      · rw [min_eq_right hmin]
        obtain heq | ⟨u, hu, heq⟩ := foldl_min_eq _ t.time
        · exact .inr ⟨t, List.mem_cons_self .., heq⟩
        · exact .inr ⟨u, List.mem_cons_of_mem _ hu, heq⟩

/-- `Time Travel` keeps the heap: it moves all tasks by the same time, or none. -/
theorem timeTravel_spec (h : Ordered s) (target : ℤ) (type : TimeTravel) :
    Ordered (s.timeTravel target type) ∧
      s.liveTasks.Step (.timeTravel target type) (s.timeTravel target type).liveTasks := by
  cases type with
  | absolute => exact ⟨h, .absolute target⟩
  | relative =>
    refine ⟨h.map fun t u htu => ?_, .relative target⟩
    show t.time + _ ≤ u.time + _
    omega
  | nearest =>
    obtain ⟨htarget, hlive, hreached⟩ := nearest_spec target s.tasks
    exact ⟨h, .nearest target _ htarget hlive hreached⟩

/-! ### A round -/

/-- A front with another time leaves a heap if and only if this is not after the times of the
others. -/
theorem isHeap_cons_iff (h : IsHeap ChronoTask.time (t :: ts)) (time : ℤ) :
    IsHeap ChronoTask.time ({ t with time := time } :: ts) ↔ ∀ u ∈ ts, time ≤ u.time := by
  constructor
  · exact fun hnew u hu => hnew.front_le (List.mem_cons_of_mem _ hu)
  · intro hall i x y hi hx hy
    obtain ⟨j, rfl⟩ := Nat.exists_eq_succ_of_ne_zero hi.ne'
    rw [List.getElem?_cons_succ] at hx
    cases hj : (j.succ - 1) / 2 with
    | zero =>
      rw [hj, List.getElem?_cons_zero, Option.some.injEq] at hy
      subst hy
      exact hall x (List.mem_of_getElem? hx)
    | succ n =>
      rw [hj, List.getElem?_cons_succ] at hy
      exact h j.succ x y hi (by rw [List.getElem?_cons_succ, hx])
        (by rw [hj, List.getElem?_cons_succ, hy])

/-- What a round leaves of a heap whose front is due: the tasks that are live then. -/
theorem round_tasks (h : IsHeap ChronoTask.time (t :: ts)) (htasks : s.tasks = t :: ts)
    (hdue : t.time ≤ s.now) (outcome : TaskOutcome) :
    ((s.round H outcome).tasks : Multiset (ChronoTask τ)) = outcome.after t ts ∧
      (s.round H outcome).history = .ran s.now t outcome :: s.history ∧
      (s.round H outcome).now = s.now ∧ (s.round H outcome).running = s.running := by
  simp only [round, htasks, if_pos hdue]
  cases outcome with
  | renewed time =>
    obtain ⟨rest, hpop, hperm, -⟩ := H.popHeap_spec { t with time := time } t ts h
    refine ⟨?_, rfl, rfl, rfl⟩
    show (H.pushHeap (H.popHeap ({ t with time := time } :: ts)) : Multiset (ChronoTask τ)) = _
    rw [hpop, coe_pushHeap, Multiset.coe_eq_coe.mpr hperm]
    rfl
  | finished time =>
    obtain ⟨rest, hpop, hperm, -⟩ := H.popHeap_spec { t with time := time } t ts h
    refine ⟨?_, rfl, rfl, rfl⟩
    show ((H.popHeap ({ t with time := time } :: ts)).dropLast : Multiset (ChronoTask τ)) = _
    rw [hpop, List.dropLast_concat, Multiset.coe_eq_coe.mpr hperm]
    rfl
  | threw time => exact ⟨rfl, rfl, rfl, rfl⟩

/-- A round whose function returns restores the heap; one whose function throws leaves it as the
function has. -/
theorem ordered_round_iff (h : Ordered s) (outcome : TaskOutcome) :
    Ordered (s.round H outcome) ↔ KeepsFront s (.round outcome) := by
  rw [Ordered, round]
  cases htasks : s.tasks with
  | nil =>
    refine iff_of_true h ?_
    cases outcome with
    | renewed time | finished time => trivial
    | threw time => exact fun t ht => absurd ht (by simp [htasks])
  | cons t ts =>
    have hheap : IsHeap ChronoTask.time (t :: ts) := htasks ▸ h
    dsimp only
    split
    · next hdue =>
      cases outcome with
      | renewed time =>
        obtain ⟨rest, hpop, -, hrest⟩ := H.popHeap_spec { t with time := time } t ts hheap
        refine iff_of_true ?_ trivial
        show IsHeap ChronoTask.time (H.pushHeap (H.popHeap ({ t with time := time } :: ts)))
        exact hpop ▸ H.pushHeap_isHeap _ _ hrest
      | finished time =>
        obtain ⟨rest, hpop, -, hrest⟩ := H.popHeap_spec { t with time := time } t ts hheap
        refine iff_of_true ?_ trivial
        show IsHeap ChronoTask.time (H.popHeap ({ t with time := time } :: ts)).dropLast
        rwa [hpop, List.dropLast_concat]
      | threw time =>
        refine (isHeap_cons_iff hheap time).trans ?_
        rw [KeepsFront, htasks]
        exact ⟨fun hall _ _ _ => hall, fun hall => hall t rfl hdue⟩
    · next hearly =>
      refine iff_of_true h ?_
      cases outcome with
      | renewed time | finished time => trivial
      | threw time =>
        rw [KeepsFront, htasks]
        exact fun u hu hdue => absurd (Option.some.inj hu ▸ hdue) hearly

/-- **A round runs the task that is first among the live ones**, when its time has come, and
otherwise none; what is live then depends on how its function ends. -/
theorem round_spec (h : Ordered s) (hround : s.inRound = true) (outcome : TaskOutcome) :
    s.liveTasks.Step (.round outcome) { s.round H outcome with inRound := false }.liveTasks := by
  cases htasks : s.tasks with
  | nil =>
    have hsame : s.round H outcome = s := by rw [round, htasks]
    rw [hsame]
    refine .idle outcome hround fun t ht => ?_
    rw [liveTasks, htasks] at ht
    exact absurd ht (Multiset.notMem_zero t)
  | cons t ts =>
    have hheap : IsHeap ChronoTask.time (t :: ts) := htasks ▸ h
    obtain hdue | hearly := le_or_gt t.time s.now
    · obtain ⟨hlive, hhistory, hnow, hrunning⟩ := round_tasks (H := H) hheap htasks hdue outcome
      have hfront : s.liveTasks.live = t ::ₘ ↑ts := by
        rw [liveTasks, htasks]
        rfl
      show s.liveTasks.Step _ ⟨(s.round H outcome).tasks, (s.round H outcome).running, false,
        (s.round H outcome).now, (s.round H outcome).history⟩
      rw [hlive, hhistory, hnow, hrunning]
      exact .run t ts outcome hround hfront hdue fun u hu =>
        hheap.front_le (List.mem_cons_of_mem _ (Multiset.mem_coe.mp hu))
    · have hsame : s.round H outcome = s := by
        simp only [round, htasks, if_neg (not_le.mpr hearly)]
      rw [hsame]
      refine .idle outcome hround fun u hu => ?_
      exact hearly.trans_le (hheap.front_le (htasks ▸ Multiset.mem_coe.mp hu))

/-! ### Runs -/

/-- A step keeps the heap if and only if it is allowed: only a function that throws can spoil it. -/
theorem ordered_step_iff {a : Action τ} (h : Ordered s) (hs : step H s a = some s') :
    Ordered s' ↔ KeepsFront s a := by
  cases a with
  | add t => exact iff_of_true (Option.some.inj hs ▸ (add_spec h t).1) trivial
  | unbind id => exact iff_of_true (Option.some.inj hs ▸ (unbind_spec h id).1) trivial
  | timeTravel target type =>
    exact iff_of_true (Option.some.inj hs ▸ (timeTravel_spec h target type).1) trivial
  | shutdown => exact iff_of_true (Option.some.inj hs ▸ h) trivial
  | check =>
    rw [step, Option.ite_none_right_eq_some] at hs
    exact iff_of_true (Option.some.inj hs.2 ▸ h) trivial
  | round outcome =>
    rw [step, Option.ite_none_right_eq_some] at hs
    obtain rfl := Option.some.inj hs.2
    exact ordered_round_iff h outcome
  | clock now => exact iff_of_true (Option.some.inj hs ▸ h) trivial

/-- **On a heap each section does what it is for**, also a round whose function throws. -/
theorem follows_of_step {a : Action τ} (h : Ordered s) (hs : step H s a = some s') :
    s.liveTasks.Step a s'.liveTasks := by
  cases a with
  | add t => exact Option.some.inj hs ▸ (add_spec h t).2
  | unbind id => exact Option.some.inj hs ▸ (unbind_spec h id).2
  | timeTravel target type => exact Option.some.inj hs ▸ (timeTravel_spec h target type).2
  | shutdown => exact Option.some.inj hs ▸ .shutdown
  | check =>
    rw [step, Option.ite_none_right_eq_some, Bool.and_eq_true, Bool.not_eq_true'] at hs
    exact Option.some.inj hs.2 ▸ .check hs.1.1 hs.1.2
  | round outcome =>
    rw [step, Option.ite_none_right_eq_some] at hs
    exact Option.some.inj hs.2 ▸ round_spec h hs.1 outcome
  | clock now => exact Option.some.inj hs ▸ .clock now

/-- As long as the tasks are a heap, a run leads to what it has to, by induction on its sections. -/
theorem follows_of_exec {now : ℤ} {l : List (Action τ)} (h : exec (step H) (start now) l = some s)
    (hall : ∀ bs u, bs <+: l → exec (step H) (start now) bs = some u → Ordered u) :
    s.liveTasks.Follows now l := by
  induction l using List.reverseRecOn generalizing s with
  | nil =>
    obtain rfl := Option.some.inj h
    exact .start
  | append_singleton l a ih =>
    obtain ⟨t, ht, hst⟩ := exec_concat_eq_some h
    have hprefix : l <+: l ++ [a] := List.prefix_append l [a]
    refine .step (ih ht fun bs u hbs => hall bs u (hbs.trans hprefix)) ?_
    exact follows_of_step (hall l t hprefix ht) hst

/-- **At each moment of a run the tasks are a heap of exactly the live tasks, and each task was run
in its turn, if and only if no function throws after it has moved its task behind another one.** -/
theorem ordered_iff_of_exec {now : ℤ} {l : List (Action τ)}
    (h : exec (step H) (start now) l = some s) :
    (∀ bs u, bs <+: l → exec (step H) (start now) bs = some u →
      Ordered u ∧ u.liveTasks.Follows now bs) ↔ execOk (step H) KeepsFront (start now) l := by
  rw [← execOk_iff_prefixes (I := fun _ => True) (fun _ _ _ _ _ => trivial)
    (fun _ _ _ hst _ hs => ordered_step_iff hs hst) trivial (ordered_start now) h]
  constructor
  · exact fun hall bs u hbs hu => (hall bs u hbs hu).1
  · exact fun hall bs u hbs hu => ⟨hall bs u hbs hu,
      follows_of_exec hu fun cs v hcs => hall cs v (hcs.trans hbs)⟩

/-- Two timers: the one that is due throws, is run again, and goes behind the other one. -/
def twoTimers : List (Action Unit) :=
  [.add ⟨(), 30, 1⟩, .add ⟨(), 20, 2⟩, .clock 25, .check, .round (.threw 22), .check,
    .round (.renewed 45)]

theorem ordered_iff_of_exec_twoTimers :
    ∃ s, exec (step (sortingHeap ChronoTask.time)) (start 0) twoTimers = some s ∧
      s.tasks = [⟨(), 30, 1⟩, ⟨(), 45, 2⟩] ∧
      s.history = [.ran 25 ⟨(), 22, 2⟩ (.renewed 45), .ran 25 ⟨(), 20, 2⟩ (.threw 22),
        .added ⟨(), 20, 2⟩, .added ⟨(), 30, 1⟩] ∧
      Ordered s ∧ s.liveTasks.Follows 0 twoTimers := by
  have hrun : (exec (step (sortingHeap ChronoTask.time)) (start 0) twoTimers).any (fun s =>
      decide (s.tasks = [⟨(), 30, 1⟩, ⟨(), 45, 2⟩] ∧
        s.history = [.ran 25 ⟨(), 22, 2⟩ (.renewed 45), .ran 25 ⟨(), 20, 2⟩ (.threw 22),
          .added ⟨(), 20, 2⟩, .added ⟨(), 30, 1⟩])) = true := by decide +kernel
  obtain ⟨s, hs, hstate⟩ := (Option.any_eq_true _ _).mp hrun
  obtain ⟨htasks, hhistory⟩ := of_decide_eq_true hstate
  have hok : execOk (step (sortingHeap ChronoTask.time)) KeepsFront (start 0) twoTimers := by
    decide +kernel
  exact ⟨s, hs, htasks, hhistory,
    (ordered_iff_of_exec hs).mpr hok twoTimers s List.prefix_rfl hs⟩

/-- A task that is due first moves itself to 10 and throws; the one for 5 is behind it then, and has
to wait for it. -/
theorem not_ordered_throwing :
    ¬ ∀ (l : List (Action Unit)) (s : ChronoController Unit),
      exec (step (sortingHeap ChronoTask.time)) (start 0) l = some s → Ordered s := by
  intro h
  have hrun : (exec (step (sortingHeap ChronoTask.time)) (start 0)
      [.add ⟨(), 0, 1⟩, .add ⟨(), 5, 2⟩, .check, .round (.threw 10)]).any (fun s =>
        decide (s.tasks = [⟨(), 10, 1⟩, ⟨(), 5, 2⟩])) = true := by decide +kernel
  obtain ⟨s, hs, hstate⟩ := (Option.any_eq_true _ _).mp hrun
  have hordered := h _ s hs
  rw [Ordered, of_decide_eq_true hstate] at hordered
  exact absurd (hordered 1 ⟨(), 5, 2⟩ ⟨(), 10, 1⟩ (by decide) rfl rfl) (by decide)

end ChronoController

end Extension
end NUClear
