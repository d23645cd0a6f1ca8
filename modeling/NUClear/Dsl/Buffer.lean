import NUClear.Foundation.Reachability
import Mathlib.Data.Int.Order.Basic
import Mathlib.Data.List.Count

/-!
# `Buffer` and `Single`

`Buffer<n>` drops a trigger of a reaction when `n` tasks of it exist.  The task of the trigger is
made first: its constructor counts it in `active_tasks`, the precondition looks at the counter, and
when it says no the task is destroyed, which uncounts it.  So a trigger that is still to be checked,
or that is already rejected, counts like an admitted task, and triggers that are checked at the same
time can all be rejected.

* `step`: a trigger is made, checked, its task is finished and destroyed, in any order for any
  number of them.
* `Admission`: what `Buffer<n>` is for.  The number of admitted tasks at each rejection is kept as a
  history, since it is the moment of the check that counts.
* `Uncontended`: the condition on a check, in the numbers of the tasks before it.
* `admission_iff_of_exec`: a trigger was rejected wrongly exactly when some check was contended.

## The proof

* `step_cases`: what a step does, with the numbers of tasks before and after it.
* `step_counted`: the counter is that of the tasks, and at most `n` are admitted.  These hold in
  every run, contended or not.
* `step_admission_iff`: a check rejects wrongly exactly when it is contended, and what was rejected
  wrongly stays so (`admission_of_step`); the rule for runs in both directions gives the result.
* `not_admission_atOnce`: two triggers of a `Single` reaction at the same time are both rejected.
-/

namespace NUClear
namespace Dsl
namespace Buffer

open Foundation

variable {n : ℕ}

/-- Where a `ReactionTask` of the reaction is between its construction and its destruction. -/
inductive Phase where
  /-- It is counted, and its precondition is not checked. -/
  | candidate
  | rejected
  | admitted
  /-- It has run, or has no data. -/
  | finished
  deriving DecidableEq, Repr

/-- The counter and the tasks that exist.  `rejections` is a history: for each trigger that was
rejected, the number of tasks that were admitted at that moment. -/
structure Reaction where
  activeTasks : ℤ
  tasks : List Phase
  rejections : List ℕ
  deriving DecidableEq, Repr

inductive Action where
  /-- `ReactionTask::ReactionTask`. -/
  | construct
  /-- `Buffer<n>::precondition`. -/
  | check (i : ℕ)
  | finish (i : ℕ)
  /-- `ReactionTask::~ReactionTask`. -/
  | destroy (i : ℕ)
  deriving DecidableEq, Repr

namespace Reaction

def bound : Reaction := ⟨0, [], []⟩

/-- The number of tasks that are admitted, and not finished: what `Buffer<n>` bounds. -/
def admitted (s : Reaction) : ℕ := s.tasks.count .admitted

def step (n : ℕ) (s : Reaction) : Action → Option Reaction
  | .construct => some { s with activeTasks := s.activeTasks + 1, tasks := .candidate :: s.tasks }
  | .check i =>
      match s.tasks[i]? with
      | some .candidate =>
          if s.activeTasks < n + 1 then some { s with tasks := s.tasks.set i .admitted }
          else some { s with
            tasks := s.tasks.set i .rejected, rejections := s.admitted :: s.rejections }
      | _ => none
  | .finish i =>
      match s.tasks[i]? with
      | some .admitted => some { s with tasks := s.tasks.set i .finished }
      | _ => none
  | .destroy i =>
      match s.tasks[i]? with
      | some .rejected | some .finished =>
          some { s with activeTasks := s.activeTasks - 1, tasks := s.tasks.eraseIdx i }
      | _ => none

/-- What `Buffer<n>` is for: the counter is that of the tasks, at most `n` are admitted, and a
trigger was rejected only when `n` were. -/
structure Admission (n : ℕ) (s : Reaction) : Prop where
  counted : s.activeTasks = s.tasks.length
  admitted_le : s.admitted ≤ n
  rejections : ∀ k ∈ s.rejections, k = n

/-- **The condition** on a check: when fewer than `n` tasks are admitted, then with the trigger
itself, those that are still to be checked and those that are to be destroyed no more than `n`
exist. -/
def Uncontended (n : ℕ) (s : Reaction) : Action → Prop
  | .check _ => s.admitted < n → s.tasks.length ≤ n
  | _ => True

instance (n : ℕ) (s : Reaction) : (a : Action) → Decidable (Uncontended n s a)
  | .check _ => inferInstanceAs (Decidable (s.admitted < n → s.tasks.length ≤ n))
  | .construct | .finish _ | .destroy _ => .isTrue trivial

/-! ## One step -/

section

variable {s s' : Reaction} {a : Action} {i : ℕ} {p q : Phase}

theorem count_eraseIdx (h : s.tasks[i]? = some p) (hp : p ≠ .admitted) :
    (s.tasks.eraseIdx i).count .admitted = s.admitted ∧
      (s.tasks.eraseIdx i).length + 1 = s.tasks.length := by
  obtain ⟨hi, hget⟩ := List.getElem?_eq_some_iff.mp h
  have hsplit : s.tasks = s.tasks.take i ++ p :: s.tasks.drop (i + 1) := by
    rw [← hget, List.getElem_cons_drop, List.take_append_drop]
  constructor
  · rw [admitted, List.eraseIdx_eq_take_drop_succ, List.count_append]
    conv_rhs => rw [hsplit, List.count_append, List.count_cons_of_ne hp]
  · rw [List.length_eraseIdx_of_lt hi]
    omega

theorem count_set (h : s.tasks[i]? = some p) (q : Phase) :
    (s.tasks.set i q).count .admitted + (if p = .admitted then 1 else 0) =
      s.admitted + if q = .admitted then 1 else 0 := by
  obtain ⟨hi, hget⟩ := List.getElem?_eq_some_iff.mp h
  have hpos : p = .admitted → 0 < s.admitted := by
    rintro rfl
    exact List.count_pos_iff.mpr (hget ▸ List.getElem_mem hi)
  rw [List.count_set hi, hget, ← admitted]
  cases p <;> cases q <;> simp at hpos ⊢
  all_goals omega

/-- What a step does: a trigger comes, it is admitted or rejected, and a task is finished or
destroyed. -/
theorem step_cases (h : step n s a = some s') :
    (a = .construct ∧ s'.activeTasks = s.activeTasks + 1 ∧ s'.tasks.length = s.tasks.length + 1 ∧
      s'.admitted = s.admitted ∧ s'.rejections = s.rejections) ∨
    (∃ i, a = .check i ∧ s.activeTasks < n + 1 ∧ s'.activeTasks = s.activeTasks ∧
      s'.tasks.length = s.tasks.length ∧ s'.admitted = s.admitted + 1 ∧
        s.admitted + 1 ≤ s.tasks.length ∧
      s'.rejections = s.rejections) ∨
    (∃ i, a = .check i ∧ n + 1 ≤ s.activeTasks ∧ s'.activeTasks = s.activeTasks ∧
      s'.tasks.length = s.tasks.length ∧ s'.admitted = s.admitted ∧
      s'.rejections = s.admitted :: s.rejections) ∨
    (∃ i, a = .finish i ∧ s'.activeTasks = s.activeTasks ∧ s'.tasks.length = s.tasks.length ∧
      s'.admitted + 1 = s.admitted ∧ s'.rejections = s.rejections) ∨
    ∃ i, a = .destroy i ∧ s'.activeTasks = s.activeTasks - 1 ∧ s'.tasks.length + 1 =
      s.tasks.length ∧
      s'.admitted = s.admitted ∧ s'.rejections = s.rejections := by
  cases a with
  | construct =>
    obtain rfl := Option.some.inj h
    exact .inl ⟨rfl, rfl, rfl, List.count_cons_of_ne (by decide), rfl⟩
  | check i =>
    rw [step] at h
    split at h
    · next hget =>
      have hset := count_set hget
      have hlen (q : Phase) : (s.tasks.set i q).length = s.tasks.length := List.length_set
      split_ifs at h with hlt
      · obtain rfl := Option.some.inj h
        have hadmitted : (s.tasks.set i .admitted).count .admitted = s.admitted + 1 := by
          simpa using hset .admitted
        have hle : (s.tasks.set i .admitted).count .admitted ≤ (s.tasks.set i .admitted).length :=
          List.count_le_length
        rw [hlen, hadmitted] at hle
        exact .inr (.inl ⟨i, rfl, hlt, rfl, hlen _, hadmitted, hle, rfl⟩)
      · obtain rfl := Option.some.inj h
        have hadmitted : (s.tasks.set i .rejected).count .admitted = s.admitted := by
          simpa using hset .rejected
        exact .inr (.inr (.inl ⟨i, rfl, by omega, rfl, hlen _, hadmitted, rfl⟩))
    · exact absurd h nofun
  | finish i =>
    rw [step] at h
    split at h
    · next hget =>
      obtain rfl := Option.some.inj h
      have hadmitted : (s.tasks.set i .finished).count .admitted + 1 = s.admitted := by
        simpa using count_set hget .finished
      exact .inr (.inr (.inr (.inl ⟨i, rfl, rfl, List.length_set, hadmitted, rfl⟩)))
    · exact absurd h nofun
  | destroy i =>
    rw [step] at h
    split at h
    · next hget =>
      obtain rfl := Option.some.inj h
      obtain ⟨hcount, hlen⟩ := count_eraseIdx hget (by decide)
      exact .inr (.inr (.inr (.inr ⟨i, rfl, rfl, hlen, hcount, rfl⟩)))
    · next hget =>
      obtain rfl := Option.some.inj h
      obtain ⟨hcount, hlen⟩ := count_eraseIdx hget (by decide)
      exact .inr (.inr (.inr (.inr ⟨i, rfl, rfl, hlen, hcount, rfl⟩)))
    · exact absurd h nofun

/-! ## Every run -/

/-- **In every run** the counter is that of the tasks, and at most `n` of them are admitted; for
this the checks need not be uncontended. -/
theorem step_counted (h : step n s a = some s')
    (hs : s.activeTasks = s.tasks.length ∧ s.admitted ≤ n) :
    s'.activeTasks = s'.tasks.length ∧ s'.admitted ≤ n := by
  obtain ⟨hcount, hle⟩ := hs
  obtain ⟨-, h₁, h₂, h₃, -⟩ | ⟨i, -, hlt, h₁, h₂, h₃, hcand, -⟩ | ⟨i, -, -, h₁, h₂, h₃, -⟩ |
    ⟨i, -, h₁, h₂, h₃, -⟩ | ⟨i, -, h₁, h₂, h₃, -⟩ := step_cases h
  all_goals constructor <;> omega

/-- A check rejects wrongly exactly when it is contended: fewer than `n` are admitted, but with the
others more than `n` exist. -/
theorem step_admission_iff (h : step n s a = some s') (hs : Admission n s) :
    Admission n s' ↔ Uncontended n s a := by
  obtain ⟨hcount', hle'⟩ := step_counted h ⟨hs.counted, hs.admitted_le⟩
  have hcount := hs.counted
  have hle := hs.admitted_le
  obtain ⟨rfl, -, -, -, hr⟩ | ⟨i, rfl, hlt, -, -, -, -, hr⟩ | ⟨i, rfl, hge, -, -, -, hr⟩ |
    ⟨i, rfl, -, -, -, hr⟩ | ⟨i, rfl, -, -, -, hr⟩ := step_cases h
  · exact iff_of_true ⟨hcount', hle', hr ▸ hs.rejections⟩ trivial
  · refine iff_of_true ⟨hcount', hle', hr ▸ hs.rejections⟩ fun _ => ?_
    omega
  · constructor
    · intro hs' hfew
      have := hs'.rejections s.admitted (by rw [hr]; exact List.mem_cons_self ..)
      omega
    · intro hok
      refine ⟨hcount', hle', ?_⟩
      rw [hr, List.forall_mem_cons]
      refine ⟨?_, hs.rejections⟩
      by_contra hne
      have : s.tasks.length ≤ n := hok (by omega)
      omega
  · exact iff_of_true ⟨hcount', hle', hr ▸ hs.rejections⟩ trivial
  · exact iff_of_true ⟨hcount', hle', hr ▸ hs.rejections⟩ trivial

/-- What was rejected wrongly stays so, since the rejections are kept as a history. -/
theorem admission_of_step (h : step n s a = some s')
    (hs : s.activeTasks = s.tasks.length ∧ s.admitted ≤ n) (hs' : Admission n s') :
    Admission n s := by
  refine ⟨hs.1, hs.2, fun k hk => hs'.rejections k ?_⟩
  obtain ⟨-, -, -, -, hr⟩ | ⟨i, -, -, -, -, -, -, hr⟩ | ⟨i, -, -, -, -, -, hr⟩ |
    ⟨i, -, -, -, -, hr⟩ | ⟨i, -, -, -, -, hr⟩ := step_cases h
  all_goals rw [hr]
  case inr.inr.inl => exact List.mem_cons_of_mem _ hk
  all_goals exact hk

end

/-- **Admission.**  The counter is that of the tasks and at most `n` are admitted in every run;
every rejected trigger met `n` admitted tasks if and only if no check of the run was contended. -/
theorem admission_iff_of_exec {s : Reaction} {l : List Action}
    (h : exec (step n) bound l = some s) :
    (s.activeTasks = s.tasks.length ∧ s.admitted ≤ n) ∧
      (Admission n s ↔ execOk (step n) (Uncontended n) bound l) := by
  have hbound : bound.activeTasks = bound.tasks.length ∧ bound.admitted ≤ n := ⟨rfl, Nat.zero_le n⟩
  have hinv : s.activeTasks = s.tasks.length ∧ s.admitted ≤ n :=
    (reaches_always_of_exec h).invariant hbound fun _ _ _ hx _ hst => step_counted hst hx
  exact ⟨hinv, execOk_iff (fun _ _ _ hst hx => step_counted hst hx)
    (fun _ _ _ hst _ hx => step_admission_iff hst hx)
    (fun _ _ _ hst hx hy => admission_of_step hst hx hy)
    hbound ⟨hbound.1, hbound.2, fun _ hk => absurd hk List.not_mem_nil⟩ h⟩

/-- One trigger after the other: the second meets the task of the first, and is rejected rightly. -/
theorem admission_iff_of_exec_oneByOne :
    ∃ s, exec (step 1) bound [.construct, .check 0, .construct, .check 0, .destroy 0] = some s ∧
      Admission 1 s ∧ s.rejections = [1] := by
  have hrun : (exec (step 1) bound [.construct, .check 0, .construct, .check 0, .destroy 0]).any
    (fun s =>
      decide (s.rejections = [1])) = true := by decide +kernel
  obtain ⟨s, hs, hr⟩ := (Option.any_eq_true _ _).mp hrun
  exact ⟨s, hs, (admission_iff_of_exec hs).2.mpr (by decide +kernel), of_decide_eq_true hr⟩

/-- Two triggers of a `Single` reaction at the same time: both are rejected. -/
theorem not_admission_atOnce :
    ¬ ∀ (n : ℕ) (l : List Action) (s : Reaction), 1 ≤ n → exec (step n) bound l = some s →
      Admission n s := by
  intro h
  have hrun : (exec (step 1) bound [.construct, .construct, .check 0, .check 1]).any (fun s =>
      decide (0 ∈ s.rejections)) = true := by decide +kernel
  obtain ⟨s, hs, hr⟩ := (Option.any_eq_true _ _).mp hrun
  exact absurd ((h 1 _ s (Nat.le_refl 1) hs).rejections 0 (of_decide_eq_true hr)) (by decide)

end Reaction

end Buffer
end Dsl
end NUClear
