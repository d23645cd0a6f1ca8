import NUClear.Foundation.Reachability
import Mathlib.Algebra.Order.Ring.Nat
import Mathlib.Data.List.Count

/-!
# `Once`

`Once` is `Single`, whose precondition rejects a task while another one of the reaction exists, and
unbinds the reaction in `post_run`, behind the callback.  The unbinder of a trigger takes the
reaction out of the store where emits find it; the one of `Always` disables the reaction.  An
exception of the callback skips `post_run`, and a trigger that has found the reaction earlier makes
its task when it comes to it.

* `step`: any number of triggers, each finds the reaction, asks whether it is enabled, makes its
  task and checks it; an admitted task enters the callback, which returns or throws, or it is
  discarded, and it is destroyed.
* `entered_le_one_iff_of_exec`: in a run the callback was entered at most once if and only if no
  task entered it that had been admitted after an entry.
* `entered_le_one_of_unbinds`: so it is when no exception leaves the reaction bound, and no trigger
  that comes to its check when the reaction is unbound and has run is let pass.

## The proof

* `PassesOnce`: the invariant of every run.  At most one task is past the precondition and not
  destroyed (`tasks_of_check`): that is what `Single` gives.
* `Does`, `does_of_step`: what a step does, one constructor for each; `PassesOnce.step` and
  `Closed.step` go through them.
* `Closed`: once the callback has been entered the reaction is unbound, or the callback runs, and no
  task is admitted after that.  This is where the condition on exceptions is used.
* `not_entered_le_one`: a callback that throws is run again by the next trigger.
-/

namespace NUClear
namespace Dsl
namespace Once

open Foundation

/-- What the unbinder of the reaction does, by the word that has bound it. -/
inductive Unbinder where
  /-- It takes the reaction out of a store, or out of a list. -/
  | erases
  /-- The one of `Always`. -/
  | disables
  deriving DecidableEq, Repr

/-- Where a `ReactionTask` of the reaction is. -/
inductive Phase where
  /-- It is counted, and its precondition is not checked. -/
  | candidate
  | rejected
  /-- `late` is a history: the callback had been entered before. -/
  | admitted (late : Bool)
  | running
  /-- It has run, or it was discarded. -/
  | finished
  deriving DecidableEq, Repr

/-- The precondition has let the task pass; such a task may run, or has run. -/
def Phase.passed : Phase → Bool
  | candidate | rejected => false
  | admitted _ | running | finished => true

/-- The reaction, its tasks and the triggers that have found it.  `entered` counts the entries of
the callback. -/
structure Reaction where
  bound : Bool
  enabled : Bool
  activeTasks : ℤ
  tasks : List Phase
  /-- The triggers that hold the reaction. -/
  found : ℕ
  /-- Those that are past the test of `enabled`. -/
  asked : ℕ
  entered : ℕ
  deriving DecidableEq, Repr

inductive Action where
  /-- A trigger finds the reaction. -/
  | find
  /-- `Reaction::get_task`, up to the generator. -/
  | getTask
  /-- `ReactionTask::ReactionTask`. -/
  | construct
  /-- `Single::precondition`. -/
  | check (i : ℕ)
  /-- An admitted task has no data, or is dropped by its pool, or its scope or a `pre_run`
  throws. -/
  | discard (i : ℕ)
  | enter (i : ℕ)
  /-- The callback returns, and `post_run` unbinds the reaction. -/
  | returns (i : ℕ)
  /-- The callback throws, or a `post_run` in front of that of `Once`. -/
  | throws (i : ℕ)
  /-- `ReactionTask::~ReactionTask`. -/
  | destroy (i : ℕ)
  /-- `ReactionHandle::unbind`. -/
  | unbind
  /-- `ReactionHandle::enable` and `disable`. -/
  | enable (enabled : Bool)
  deriving DecidableEq, Repr

namespace Reaction

def start : Reaction := ⟨true, true, 0, [], 0, 0, 0⟩

/-- `Reaction::unbind`: emits do not find the reaction any more, or it is disabled, or both. -/
def unbind (u : Unbinder) (s : Reaction) : Reaction :=
  { s with bound := false, enabled := s.enabled && u != .disables }

def step (u : Unbinder) (s : Reaction) : Action → Option Reaction
  | .find => if s.bound = true ∨ u = .disables then some { s with found := s.found + 1 } else none
  | .getTask =>
      if 0 < s.found then
        some { s with found := s.found - 1, asked := if s.enabled then s.asked + 1 else s.asked }
      else none
  | .construct =>
      if 0 < s.asked then
        some { s with
          asked := s.asked - 1
          activeTasks := s.activeTasks + 1
          tasks := .candidate :: s.tasks }
      else none
  | .check i =>
      match s.tasks[i]? with
      | some .candidate =>
          if s.activeTasks < 1 + 1 then some { s with
            tasks := s.tasks.set i (.admitted (0 < s.entered)) }
          else some { s with tasks := s.tasks.set i .rejected }
      | _ => none
  | .discard i =>
      match s.tasks[i]? with
      | some (.admitted _) => some { s with tasks := s.tasks.set i .finished }
      | _ => none
  | .enter i =>
      match s.tasks[i]? with
      | some (.admitted _) =>
        some { s with tasks := s.tasks.set i .running, entered := s.entered + 1 }
      | _ => none
  | .returns i =>
      match s.tasks[i]? with
      | some .running => some ({ s with tasks := s.tasks.set i .finished }.unbind u)
      | _ => none
  | .throws i =>
      match s.tasks[i]? with
      | some .running => some { s with tasks := s.tasks.set i .finished }
      | _ => none
  | .destroy i =>
      match s.tasks[i]? with
      | some .rejected | some .finished =>
          some { s with activeTasks := s.activeTasks - 1, tasks := s.tasks.eraseIdx i }
      | _ => none
  | .unbind => some (s.unbind u)
  | .enable enabled => some { s with enabled := enabled }

/-- **The condition** on a step: the task that enters the callback was admitted before any entry. -/
def Timely (s : Reaction) : Action → Prop
  | .enter i => s.tasks[i]? ≠ some (.admitted true)
  | _ => True

instance (s : Reaction) : (a : Action) → Decidable (Timely s a)
  | .enter i => inferInstanceAs (Decidable (s.tasks[i]? ≠ some (.admitted true)))
  | .find | .getTask | .construct | .check _ | .discard _ | .returns _ | .throws _
    | .destroy _ | .unbind |
      .enable _ => .isTrue trivial

/-- What makes for it: the callback throws only if somebody else has unbound the reaction, and the
task of a trigger that comes to its check when the reaction is unbound and has run is rejected. -/
def Unbinds (s : Reaction) : Action → Prop
  | .throws _ => s.bound = false
  | .check _ => s.bound = false → s.entered = 0 ∨ 2 ≤ s.activeTasks
  | _ => True

instance (s : Reaction) : (a : Action) → Decidable (Unbinds s a)
  | .throws _ => inferInstanceAs (Decidable (s.bound = false))
  | .check _ => inferInstanceAs (Decidable (s.bound = false → s.entered = 0 ∨ 2 ≤ s.activeTasks))
  | .find | .getTask | .construct | .enter _ | .discard _ | .returns _ | .destroy _
    | .unbind | .enable _ =>
    .isTrue trivial

/-! ## One step -/

/-- The invariant of every run: the counter is that of the tasks, and `Single` lets one of them pass
at most. -/
structure PassesOnce (s : Reaction) : Prop where
  counted : s.activeTasks = s.tasks.length
  passed_le : s.tasks.countP Phase.passed ≤ 1
  early : .admitted false ∈ s.tasks → s.entered = 0
  late : .admitted true ∈ s.tasks → 0 < s.entered

theorem passesOnce_start : PassesOnce start where
  counted := rfl
  passed_le := Nat.zero_le _
  early h := absurd h List.not_mem_nil
  late h := absurd h List.not_mem_nil

variable {u : Unbinder} {s s' : Reaction} {a : Action} {i : ℕ} {p q : Phase}

/-- Two entries of a list that satisfy what at most one does are the same. -/
theorem eq_of_countP_le_one {α : Type} {l : List α} {f : α → Bool} {x y : α}
    (h : l.countP f ≤ 1) (hx : x ∈ l) (hy : y ∈ l) (hfx : f x = true) (hfy : f y = true) :
    x = y := by
  have hmemx : x ∈ l.filter f := List.mem_filter.mpr ⟨hx, hfx⟩
  have hmemy : y ∈ l.filter f := List.mem_filter.mpr ⟨hy, hfy⟩
  rw [List.countP_eq_length_filter] at h
  obtain ⟨z, hfilter⟩ := List.length_eq_one_iff.mp
    (Nat.le_antisymm h (List.length_pos_of_mem hmemx))
  rw [hfilter, List.mem_singleton] at hmemx hmemy
  exact hmemx.trans hmemy.symm

theorem countP_set_le (h : s.tasks[i]? = some p) (hpq : q.passed = true → p.passed = true) :
    (s.tasks.set i q).countP Phase.passed ≤ s.tasks.countP Phase.passed := by
  obtain ⟨hi, hget⟩ := List.getElem?_eq_some_iff.mp h
  have hpos : p.passed = true → 0 < s.tasks.countP Phase.passed := fun hp =>
    List.countP_pos_iff.mpr ⟨p, hget ▸ List.getElem_mem hi, hp⟩
  rw [List.countP_set hi, hget]
  cases hq : q.passed with
  | false => exact Nat.sub_le ..
  | true =>
    rw [if_pos (hpq hq), if_pos rfl]
    exact (Nat.sub_add_cancel (hpos (hpq hq))).le

/-- A task moves on, and is not admitted by that; so no more tasks have passed than before. -/
theorem PassesOnce.set (h : PassesOnce s) (hp : s.tasks[i]? = some p)
    (hpq : q.passed = true → p.passed = true) (hq : ∀ late, q ≠ .admitted late)
    (htasks : s'.tasks = s.tasks.set i q) (hactive : s'.activeTasks = s.activeTasks)
    (hentered : s'.entered = s.entered) : PassesOnce s' where
  counted := by rw [hactive, htasks, List.length_set, h.counted]
  passed_le := by
    rw [htasks]
    exact (countP_set_le hp hpq).trans h.passed_le
  early hmem := by
    rw [htasks] at hmem
    rw [hentered]
    exact h.early ((List.mem_or_eq_of_mem_set hmem).resolve_right fun heq => hq _ heq.symm)
  late hmem := by
    rw [htasks] at hmem
    rw [hentered]
    exact h.late ((List.mem_or_eq_of_mem_set hmem).resolve_right fun heq => hq _ heq.symm)

/-- A task that is admitted is the only one: the counter says that no other exists. -/
theorem tasks_of_check (h : PassesOnce s) (hp : s.tasks[i]? = some p)
    (hfew : s.activeTasks < 1 + 1) :
    s.tasks.set i q = [q] := by
  rw [h.counted] at hfew
  obtain ⟨hi, -⟩ := List.getElem?_eq_some_iff.mp hp
  have hone : s.tasks.length = 1 := by omega
  obtain ⟨x, hx⟩ := List.length_eq_one_iff.mp hone
  obtain rfl : i = 0 := by omega
  rw [hx]
  rfl

theorem PassesOnce.letPass (h : PassesOnce s) (hp : s.tasks[i]? = some p)
    (hfew : s.activeTasks < 1 + 1) :
    PassesOnce { s with tasks := s.tasks.set i (.admitted (0 < s.entered)) } := by
  have htasks := tasks_of_check (q := .admitted (0 < s.entered)) h hp hfew
  refine ⟨by rw [List.length_set, h.counted], ?_, fun hmem => ?_, fun hmem => ?_⟩
  · show List.countP _ (s.tasks.set i _) ≤ 1
    rw [htasks]
    exact Nat.le_refl 1
  · rw [htasks, List.mem_singleton, Phase.admitted.injEq] at hmem
    exact Nat.eq_zero_of_not_pos (of_decide_eq_false hmem.symm)
  · rw [htasks, List.mem_singleton, Phase.admitted.injEq] at hmem
    exact of_decide_eq_true hmem.symm

/-- With the one that runs no other task is admitted. -/
theorem PassesOnce.enter {late : Bool} (h : PassesOnce s)
    (hp : s.tasks[i]? = some (.admitted late)) :
    PassesOnce { s with tasks := s.tasks.set i .running, entered := s.entered + 1 } := by
  obtain ⟨hi, -⟩ := List.getElem?_eq_some_iff.mp hp
  have hle : (s.tasks.set i .running).countP Phase.passed ≤ 1 :=
    (countP_set_le hp fun _ => rfl).trans h.passed_le
  have hrunning : Phase.running ∈ s.tasks.set i .running := List.mem_set hi _
  refine ⟨by rw [List.length_set, h.counted], hle, fun hmem => ?_, fun _ => Nat.succ_pos _⟩
  exact Phase.noConfusion (eq_of_countP_le_one hle hmem hrunning rfl rfl)

theorem PassesOnce.erase (h : PassesOnce s) (hp : s.tasks[i]? = some p) :
    PassesOnce { s with activeTasks := s.activeTasks - 1, tasks := s.tasks.eraseIdx i } := by
  obtain ⟨hi, -⟩ := List.getElem?_eq_some_iff.mp hp
  have hsub : (s.tasks.eraseIdx i).Sublist s.tasks := List.eraseIdx_sublist ..
  refine ⟨?_, hsub.countP_le.trans h.passed_le, fun hmem => h.early (hsub.subset hmem),
    fun hmem => h.late (hsub.subset hmem)⟩
  have hcounted := h.counted
  show s.activeTasks - 1 = ((s.tasks.eraseIdx i).length : ℤ)
  rw [List.length_eraseIdx_of_lt hi]
  omega

/-- Tasks and entries stay, whatever else changes. -/
theorem PassesOnce.of_tasks (h : PassesOnce s) (htasks : s'.tasks = s.tasks)
    (hactive : s'.activeTasks = s.activeTasks) (hentered : s'.entered = s.entered) :
    PassesOnce s' where
  counted := by rw [hactive, htasks, h.counted]
  passed_le := htasks ▸ h.passed_le
  early := by rw [htasks, hentered]; exact h.early
  late := by rw [htasks, hentered]; exact h.late

/-- What a step does, one constructor for each.  The invariants are shown over these, and do not
unfold `step`. -/
inductive Does (u : Unbinder) (s : Reaction) : Action → Reaction → Prop
  | find : Does u s .find { s with found := s.found + 1 }
  | getTask : Does u s .getTask
      { s with found := s.found - 1, asked := if s.enabled then s.asked + 1 else s.asked }
  | construct : Does u s .construct { s with
      asked := s.asked - 1
      activeTasks := s.activeTasks + 1
      tasks := .candidate :: s.tasks }
  | admits {i : ℕ} (hi : s.tasks[i]? = some .candidate) (hfew : s.activeTasks < 1 + 1) :
      Does u s (.check i) { s with tasks := s.tasks.set i (.admitted (0 < s.entered)) }
  | rejects {i : ℕ} (hi : s.tasks[i]? = some .candidate) :
      Does u s (.check i) { s with tasks := s.tasks.set i .rejected }
  | discard {i : ℕ} {late : Bool} (hi : s.tasks[i]? = some (.admitted late)) :
      Does u s (.discard i) { s with tasks := s.tasks.set i .finished }
  | enter {i : ℕ} {late : Bool} (hi : s.tasks[i]? = some (.admitted late)) :
      Does u s (.enter i) { s with tasks := s.tasks.set i .running, entered := s.entered + 1 }
  | returns {i : ℕ} (hi : s.tasks[i]? = some .running) :
      Does u s (.returns i) ({ s with tasks := s.tasks.set i .finished }.unbind u)
  | throws {i : ℕ} (hi : s.tasks[i]? = some .running) :
      Does u s (.throws i) { s with tasks := s.tasks.set i .finished }
  | destroy {i : ℕ} {p : Phase} (hi : s.tasks[i]? = some p)
    (hdone : p = .rejected ∨ p = .finished) :
      Does u s (.destroy i) { s with activeTasks := s.activeTasks - 1, tasks := s.tasks.eraseIdx i }
  | unbind : Does u s .unbind (s.unbind u)
  | enable (enabled : Bool) : Does u s (.enable enabled) { s with enabled := enabled }

theorem does_of_step (h : step u s a = some s') : Does u s a s' := by
  cases a with
  | find =>
    rw [step, Option.ite_none_right_eq_some] at h
    exact Option.some.inj h.2 ▸ .find
  | getTask =>
    rw [step, Option.ite_none_right_eq_some] at h
    exact Option.some.inj h.2 ▸ .getTask
  | construct =>
    rw [step, Option.ite_none_right_eq_some] at h
    exact Option.some.inj h.2 ▸ .construct
  | check i =>
    rw [step] at h
    split at h
    · next hi =>
      split_ifs at h with hfew
      · exact Option.some.inj h ▸ .admits hi hfew
      · exact Option.some.inj h ▸ .rejects hi
    · exact absurd h (by simp)
  | discard i =>
    rw [step] at h
    split at h
    · next late hi => exact Option.some.inj h ▸ .discard hi
    · exact absurd h (by simp)
  | enter i =>
    rw [step] at h
    split at h
    · next late hi => exact Option.some.inj h ▸ .enter hi
    · exact absurd h (by simp)
  | returns i =>
    rw [step] at h
    split at h
    · next hi => exact Option.some.inj h ▸ .returns hi
    · exact absurd h (by simp)
  | throws i =>
    rw [step] at h
    split at h
    · next hi => exact Option.some.inj h ▸ .throws hi
    · exact absurd h (by simp)
  | destroy i =>
    rw [step] at h
    split at h
    · next hi => exact Option.some.inj h ▸ .destroy hi (.inl rfl)
    · next hi => exact Option.some.inj h ▸ .destroy hi (.inr rfl)
    · exact absurd h (by simp)
  | unbind => exact Option.some.inj h ▸ .unbind
  | enable enabled => exact Option.some.inj h ▸ .enable enabled

theorem PassesOnce.construct (h : PassesOnce s) (htasks : s'.tasks = .candidate :: s.tasks)
    (hactive : s'.activeTasks = s.activeTasks + 1) (hentered : s'.entered = s.entered) :
    PassesOnce s' := by
  refine ⟨?_, ?_, fun hmem => ?_, fun hmem => ?_⟩
  · have hcounted := h.counted
    rw [htasks, hactive, List.length_cons]
    omega
  · rw [htasks, List.countP_cons_of_neg (by simp [Phase.passed])]
    exact h.passed_le
  · rw [htasks, List.mem_cons] at hmem
    exact hentered.trans (h.early (hmem.resolve_left Phase.noConfusion))
  · rw [htasks, List.mem_cons] at hmem
    exact hentered ▸ h.late (hmem.resolve_left Phase.noConfusion)

theorem PassesOnce.step (h : PassesOnce s) (hst : step u s a = some s') : PassesOnce s' := by
  cases does_of_step hst with
  | construct => exact h.construct rfl rfl rfl
  | admits hi hfew => exact h.letPass hi hfew
  | enter hi => exact h.enter hi
  | rejects hi =>
    exact h.set (q := .rejected) hi (fun hq => hq) (fun _ => Phase.noConfusion) rfl rfl rfl
  | discard hi | returns hi | throws hi =>
    exact h.set (q := .finished) hi (fun hq => hq) (fun _ => Phase.noConfusion) rfl rfl rfl
  | destroy hi _ => exact h.erase hi
  | find | getTask | unbind | enable _ => exact h.of_tasks rfl rfl rfl

/-- **A step keeps the callback from a second entry if and only if it is timely**, in a state where
it was entered at most once. -/
theorem entered_step_iff (h : PassesOnce s) (hle : s.entered ≤ 1) (hst : step u s a = some s') :
    s'.entered ≤ 1 ↔ Timely s a := by
  cases does_of_step hst with
  | @enter i late hi =>
    have hmem : Phase.admitted late ∈ s.tasks := List.mem_of_getElem? hi
    show s.entered + 1 ≤ 1 ↔ s.tasks[i]? ≠ some (.admitted true)
    rw [hi]
    cases late with
    | false => exact iff_of_true (h.early hmem ▸ le_rfl) (by simp)
    | true =>
      have hpos := h.late hmem
      exact iff_of_false (by omega) fun hne => hne rfl
  | _ => exact iff_of_true hle trivial

theorem le_entered (hst : step u s a = some s') : s.entered ≤ s'.entered := by
  cases does_of_step hst with
  | enter _ => exact Nat.le_succ _
  | _ => exact le_rfl

/-! ## What unbinds it -/

/-- Once the callback has been entered the reaction is unbound, or the callback runs; and no task is
admitted after that. -/
structure Closed (s : Reaction) : Prop where
  passesOnce : PassesOnce s
  unbound : 0 < s.entered → s.bound = false ∨ .running ∈ s.tasks
  not_late : .admitted true ∉ s.tasks

theorem closed_start : Closed start where
  passesOnce := passesOnce_start
  unbound h := absurd h (Nat.lt_irrefl 0)
  not_late := List.not_mem_nil

/-- A task that is checked next to the one that runs is rejected, since the counter counts both. -/
theorem PassesOnce.two_le (h : PassesOnce s) (hp : s.tasks[i]? = some .candidate)
    (hrunning : .running ∈ s.tasks) :
    2 ≤ s.activeTasks := by
  by_contra hfew
  have hone := tasks_of_check (q := Phase.candidate) h hp (by omega)
  obtain ⟨hi, hget⟩ := List.getElem?_eq_some_iff.mp hp
  rw [← hget, List.set_getElem_self] at hone
  rw [hone, List.mem_singleton, hget] at hrunning
  exact Phase.noConfusion hrunning

theorem mem_set_of_mem {x : Phase} (hp : s.tasks[i]? = some p) (hmem : x ∈ s.tasks) (hne : x ≠ p) :
    x ∈ s.tasks.set i q := by
  obtain ⟨j, hj⟩ := List.mem_iff_getElem?.mp hmem
  refine List.mem_iff_getElem?.mpr ⟨j, ?_⟩
  rw [List.getElem?_set_ne]
  · exact hj
  · rintro rfl
    exact hne (Option.some.inj (hj.symm.trans hp))

theorem mem_eraseIdx_of_mem {x : Phase} (hp : s.tasks[i]? = some p) (hmem : x ∈ s.tasks)
    (hne : x ≠ p) :
    x ∈ s.tasks.eraseIdx i := by
  obtain ⟨j, hj⟩ := List.mem_iff_getElem?.mp hmem
  refine List.mem_eraseIdx_iff_getElem?.mpr ⟨j, ?_, hj⟩
  rintro rfl
  exact hne (Option.some.inj (hj.symm.trans hp))

/-- A step that enters nothing and admits nothing. -/
theorem Closed.of_tasks (h : Closed s) (hpassesOnce : PassesOnce s')
    (hentered : s'.entered = s.entered) (hbound : s.bound = false → s'.bound = false)
    (hrunning : .running ∈ s.tasks → s'.bound = false ∨ .running ∈ s'.tasks)
    (hlate : .admitted true ∈ s'.tasks → .admitted true ∈ s.tasks) : Closed s' where
  passesOnce := hpassesOnce
  unbound hpos := (h.unbound (hentered ▸ hpos)).elim (fun hfalse => .inl (hbound hfalse)) hrunning
  not_late hmem := h.not_late (hlate hmem)

theorem Closed.set (h : Closed s) (hp : s.tasks[i]? = some p)
    (hrunning : p = .running → s'.bound = false) (hq : ∀ late, q ≠ .admitted late)
    (hpassesOnce : PassesOnce s') (htasks : s'.tasks = s.tasks.set i q)
    (hentered : s'.entered = s.entered) (hbound : s.bound = false → s'.bound = false) :
    Closed s' := by
  refine h.of_tasks hpassesOnce hentered hbound (fun hmem => ?_) fun hmem => ?_
  · by_cases hrun : p = .running
    · exact .inl (hrunning hrun)
    · exact .inr (htasks ▸ mem_set_of_mem hp hmem (Ne.symm hrun))
  · rw [htasks] at hmem
    exact (List.mem_or_eq_of_mem_set hmem).resolve_right fun heq => hq _ heq.symm

/-- A task that is let pass comes before any entry, by the condition. -/
theorem Closed.letPass (h : Closed s) (hp : s.tasks[i]? = some .candidate)
    (hfew : s.activeTasks < 1 + 1) (hok : Unbinds s (.check i)) :
    Closed { s with tasks := s.tasks.set i (.admitted (0 < s.entered)) } := by
  have hzero : s.entered = 0 := by
    by_contra hpos
    rcases h.unbound (Nat.pos_of_ne_zero hpos) with hfalse | hrunning
    · have htwo := (hok hfalse).resolve_left hpos
      omega
    · have htwo := h.passesOnce.two_le hp hrunning
      omega
  refine ⟨h.passesOnce.letPass hp hfew, fun hpos => absurd hzero (Nat.pos_iff_ne_zero.mp hpos),
    fun hmem => ?_⟩
  rw [tasks_of_check h.passesOnce hp hfew, List.mem_singleton, hzero] at hmem
  exact absurd hmem (by decide)

theorem Closed.enter {late : Bool} (h : Closed s) (hp : s.tasks[i]? = some (.admitted late)) :
    Closed { s with tasks := s.tasks.set i .running, entered := s.entered + 1 } where
  passesOnce := h.passesOnce.enter hp
  unbound _ := .inr (List.mem_set (List.getElem?_eq_some_iff.mp hp).1 _)
  not_late hmem := h.not_late ((List.mem_or_eq_of_mem_set hmem).resolve_right Phase.noConfusion)

theorem Closed.erase (h : Closed s) (hp : s.tasks[i]? = some p) (hrunning : p ≠ .running) :
    Closed { s with activeTasks := s.activeTasks - 1, tasks := s.tasks.eraseIdx i } :=
  h.of_tasks (h.passesOnce.erase hp) rfl id
    (fun hmem => .inr (mem_eraseIdx_of_mem hp hmem hrunning.symm))
    fun hmem => (List.eraseIdx_sublist ..).subset hmem

theorem Closed.step (h : Closed s) (hok : Unbinds s a) (hst : step u s a = some s') :
    Closed s' := by
  have hpassesOnce := h.passesOnce.step hst
  cases does_of_step hst with
  | construct =>
    exact h.of_tasks hpassesOnce rfl id (fun hmem => .inr (List.mem_cons_of_mem _ hmem))
      fun hmem => (List.mem_cons.mp hmem).resolve_left Phase.noConfusion
  | admits hi hfew => exact h.letPass hi hfew hok
  | enter hi => exact h.enter hi
  | rejects hi | discard hi =>
    exact h.set hi Phase.noConfusion (fun _ => Phase.noConfusion) hpassesOnce rfl rfl id
  | returns hi =>
    exact h.set hi (fun _ => rfl) (fun _ => Phase.noConfusion) hpassesOnce rfl rfl fun _ => rfl
  | throws hi => exact h.set hi (fun _ => hok) (fun _ => Phase.noConfusion) hpassesOnce rfl rfl id
  | destroy hi hdone =>
    refine h.erase hi ?_
    obtain rfl | rfl := hdone <;> exact Phase.noConfusion
  | find | getTask | enable _ => exact h.of_tasks hpassesOnce rfl id .inr id
  | unbind => exact h.of_tasks hpassesOnce rfl (fun _ => rfl) .inr id

/-- No task is late where the reaction is closed. -/
theorem Closed.timely (h : Closed s) (a : Action) : Timely s a := by
  cases a with
  | enter i => exact fun hi => h.not_late (List.mem_of_getElem? hi)
  | _ => trivial

/-! ## Every run -/

/-- **`Once`.**  In a run the callback was entered at most once if and only if every task that
entered it had been admitted before any entry. -/
theorem entered_le_one_iff_of_exec {l : List Action} (h : exec (step u) start l = some s) :
    s.entered ≤ 1 ↔ execOk (step u) Timely start l :=
  execOk_iff (I := PassesOnce) (P := fun s => s.entered ≤ 1) (fun _ _ _ hst hx => hx.step hst)
    (fun _ _ _ hst hx hle => entered_step_iff hx hle hst)
    (fun _ _ _ hst _ hle => (le_entered hst).trans hle)
    passesOnce_start (Nat.zero_le _) h

/-- **`Once`, by what unbinds it.**  In every run in which no exception leaves the reaction bound,
and no task is let pass that comes to its check after the reaction was unbound and has run, the
callback was entered at most once. -/
theorem entered_le_one_of_unbinds (h : Reaches (step u) Unbinds start s) : s.entered ≤ 1 := by
  have hclosed : Closed s ∧ s.entered ≤ 1 :=
    h.invariant (P := fun s => Closed s ∧ s.entered ≤ 1) ⟨closed_start, Nat.zero_le _⟩
      fun _ a _ hs hok hst =>
      ⟨hs.1.step hok hst, (entered_step_iff hs.1.passesOnce hs.2 hst).mpr (hs.1.timely a)⟩
  exact hclosed.2

/-- Two triggers find the reaction, and the second comes to its check while the task of the first
runs. -/
theorem entered_le_one_of_rejected :
    ∃ s, Reaches (step .erases) Unbinds start s ∧ (s.entered = 1 ∧ s.bound = false) ∧
      s.entered ≤ 1 := by
  have hrun : (exec (step .erases) start
      [.find, .getTask, .construct, .check 0, .find, .enter 0, .getTask, .construct,
        .check 0, .returns 1,
        .destroy 0, .destroy 0]).any (fun s => decide (s.entered = 1 ∧ s.bound = false)) =
          true := by decide +kernel
  obtain ⟨s, hs, hstate⟩ := (Option.any_eq_true _ _).mp hrun
  have hreach : Reaches (step .erases) Unbinds start s := reaches_of_exec hs (by decide +kernel)
  exact ⟨s, hreach, of_decide_eq_true hstate, entered_le_one_of_unbinds hreach⟩

/-- **The callback throws, and the next trigger runs it again.**  The exception skips `post_run`, so
the reaction is still bound when the task that has thrown is destroyed. -/
theorem not_entered_le_one : ¬ ∀ u s, Reaches (step u) Always start s → s.entered ≤ 1 := by
  intro hall
  have hrun : (exec (step .erases) start
      [.find, .getTask, .construct, .check 0, .enter 0, .throws 0, .destroy 0, .find, .getTask,
        .construct, .check 0,
        .enter 0]).any (fun s => decide (s.entered = 2)) = true := by decide +kernel
  obtain ⟨s, hs, htwo⟩ := (Option.any_eq_true _ _).mp hrun
  have hle := hall .erases s (reaches_always_of_exec hs)
  rw [of_decide_eq_true htwo] at hle
  exact absurd hle (by decide)

/-- No callback throws, but the second trigger has found the reaction before the first task unbinds
it. -/
example : (exec (step .erases) start
    [.find, .find, .getTask, .construct, .check 0, .enter 0, .returns 0, .destroy 0, .getTask,
      .construct, .check 0,
      .enter 0]).map entered = some 2 := by
  decide +kernel

end Reaction

end Once
end Dsl
end NUClear
