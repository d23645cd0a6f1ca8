import NUClear.Foundation.Reachability
import Mathlib.Data.Option.Basic
import Mathlib.Logic.Function.Basic

/-!
# The stores that an emit writes to

`emit::Local` and `emit::Inline` point `ThreadStore<shared_ptr<T>>` to their data before each
`get_task`, and when all tasks are made they clear the pointer and put the data into `DataStore<T>`.
The packet callback of `NetworkController` does the same with the payload and the source of a
packet, without a `DataStore`.  A task that runs inline may emit again, and so may `get_task` (its
statistics); that is another loop inside the one that is going on.  When `get_task` throws, the loop
is left without clearing its pointers.

* `step`: the loops of one thread, one inside another.
* `Restored`: the data that `get_task` saw, and what the pointers refer to.  `restored_iff_of_exec`:
  it holds in every state of a run if and only if no `get_task` throws.
* `dataStore_eq_begun_iff_of_exec`: the `DataStore` holds the value of the outermost emit, which
  began last only if no emit of the type was nested in it.

## The proof

* `Scoped`: the invariant of every run.  A pointer refers to the data of a loop that is going on, or
  to nothing, or to a loop that an exception has left; each `get_task` that was called by a loop has
  seen the data of that loop.
* `Scoped.visit`, `Scoped.drop`: a loop sets its pointers before each `get_task`, so it does not
  matter what the loops inside it have left there; and a loop that is left takes its data with it.
* `exists_dangling_visit`: a `get_task` that throws leaves a pointer behind.
* `Outermost`: the value of the `DataStore` is that of the outermost emit of the type that began
  last, or this emit is going on.  An inner loop writes first and an outer one last, whatever began
  later.
-/

namespace NUClear
namespace Dsl
namespace Stores

open Foundation

universe u v

/-- A `ThreadStore`: a pointer of the thread by which the words find the data of an emit. -/
inductive Store (τ : Type u) where
  /-- `ThreadStore<std::shared_ptr<T>>`. -/
  | data (t : τ)
  /-- `ThreadStore<const std::vector<uint8_t>>`. -/
  | payload
  /-- `ThreadStore<const NetworkSource>`. -/
  | source
  deriving DecidableEq, Repr

/-- What runs `get_task` for the reactions that are bound, with the pointers set to its data. -/
inductive Dispatch (τ : Type u) (ν : Type v) where
  /-- `emit::Local`, with the type and the value. -/
  | localEmit (t : τ) (value : ν)
  /-- `emit::Inline`. -/
  | inlineEmit (t : τ) (value : ν)
  /-- The packet callback of `NetworkController`. -/
  | network
  deriving DecidableEq, Repr

/-- Where a loop is.  While `get_task` or `submit` runs, another loop may run inside of it. -/
inductive Phase where
  | idle
  /-- `get_task` has read the stores, and has not returned. -/
  | creating
  /-- `powerplant.submit` has not returned. -/
  | submitting
  deriving DecidableEq, Repr

/-- A loop.  `id` stands for the address of its data. -/
structure Frame (τ : Type u) (ν : Type v) where
  id : ℕ
  dispatch : Dispatch τ ν
  phase : Phase
  deriving DecidableEq, Repr

/-- One thread.  `seen`, `begun` and `outermost` are histories: for each `get_task` the loop that
called it and what its pointers referred to; for each type the value of the emit that began last,
and of the one that began last while no other emit of the type was going on. -/
structure State (τ : Type u) (ν : Type v) where
  /-- The loops, the innermost first. -/
  frames : List (Frame τ ν)
  threadStore : Store τ → Option ℕ
  dataStore : τ → Option ν
  /-- The number of loops that have begun. -/
  next : ℕ
  /-- An exception has left a loop, and is not caught. -/
  unwinding : Bool
  seen : List (ℕ × List (Option ℕ))
  begun : τ → Option ν
  outermost : τ → Option ν

/-- What happens next. -/
inductive Action (τ : Type u) (ν : Type v) where
  | begin (d : Dispatch τ ν)
  /-- The pointers are set, and `get_task` reads them. -/
  | getTask
  /-- The same, and `get_task` throws. -/
  | getTaskThrows
  /-- `get_task` returns. -/
  | created
  /-- `submit` returns. -/
  | submitted
  /-- The loop ends. -/
  | finish
  /-- An exception leaves the `get_task` of the loop, and the loop. -/
  | unwind
  /-- The callback of an inline task catches it, or the code outside of all loops. -/
  | catches
  deriving DecidableEq, Repr

section

variable {τ : Type u} {ν : Type v}

namespace Dispatch

/-- The stores that are set and cleared by a loop, by what it dispatches. -/
def stores : Dispatch τ ν → List (Store τ)
  | localEmit t _ | inlineEmit t _ => [.data t]
  | network => [.payload, .source]

/-- The type of the data, and its value, if it goes into a `DataStore`; that of the network does
not. -/
def emitted : Dispatch τ ν → Option (τ × ν)
  | localEmit t value | inlineEmit t value => some (t, value)
  | network => none

def isNetwork : Dispatch τ ν → Bool
  | network => true
  | _ => false

theorem exists_mem_stores (d : Dispatch τ ν) : ∃ k, k ∈ d.stores := by
  cases d with
  | localEmit t _ | inlineEmit t _ | network => exact ⟨_, List.mem_cons_self ..⟩

end Dispatch

/-- The value that a loop emits, if it is of the type. -/
def Frame.value? [DecidableEq τ] (t : τ) (f : Frame τ ν) : Option ν :=
  f.dispatch.emitted.bind fun e => if e.1 = t then some e.2 else none

namespace State

def start : State τ ν := ⟨[], fun _ => none, fun _ => none, 0, false, [],
    fun _ => none, fun _ => none⟩

/-- User code or `get_task` runs, so another loop may begin. -/
def inCode (s : State τ ν) : Bool :=
  match s.frames with
  | [] => true
  | f :: _ => f.phase != .idle

variable [DecidableEq τ]

/-- Set some pointers, and leave the others as they are. -/
def point (s : State τ ν) (stores : List (Store τ)) (p : Option ℕ) : Store τ → Option ℕ :=
  fun k => if k ∈ stores then p else s.threadStore k

/-- The values of the type that are being emitted, the innermost first. -/
def emitting (s : State τ ν) (t : τ) : List ν := s.frames.filterMap (Frame.value? t)

/-- A loop begins, inside the one that is going on; the histories are told. -/
def enter (s : State τ ν) (d : Dispatch τ ν) : State τ ν :=
  { s with
    frames := ⟨s.next, d, .idle⟩ :: s.frames
    next := s.next + 1
    begun := fun t => (Frame.value? t ⟨s.next, d, .idle⟩).or (s.begun t)
    outermost := fun t =>
      if s.emitting t = [] then (Frame.value? t ⟨s.next, d, .idle⟩).or (s.outermost t)
        else s.outermost t }

/-- The pointers are set, and `get_task` reads them; what it reads is kept in the history. -/
def visit (s : State τ ν) (f : Frame τ ν) : State τ ν :=
  { s with
    threadStore := s.point f.dispatch.stores (some f.id)
    seen := (f.id, f.dispatch.stores.map (s.point f.dispatch.stores (some f.id))) :: s.seen }

/-- The pointers are cleared, and the data goes into the `DataStore`; both only now, when all tasks
were made. -/
def leave (s : State τ ν) (f : Frame τ ν) : State τ ν :=
  { s with
    threadStore := s.point f.dispatch.stores none
    dataStore := fun t => (f.value? t).or (s.dataStore t) }

/-- The mutex of the packet callback, which is not recursive, is free. -/
def mayBegin (s : State τ ν) (d : Dispatch τ ν) : Prop :=
  d.isNetwork = true → ∀ f ∈ s.frames, f.dispatch.isNetwork = false

instance (s : State τ ν) (d : Dispatch τ ν) : Decidable (s.mayBegin d) :=
  inferInstanceAs (Decidable (_ → _))

end State

variable [DecidableEq τ]

def step (s : State τ ν) : Action τ ν → Option (State τ ν)
  | .begin d =>
    if s.inCode = true ∧ s.unwinding = false ∧ s.mayBegin d then some (s.enter d) else none
  | .getTask =>
      match s.frames with
      | [] => none
      | f :: rest =>
        if f.phase = .idle ∧ s.unwinding = false then
          some { s.visit f with frames := { f with phase := .creating } :: rest }
        else none
  | .getTaskThrows =>
      match s.frames with
      | [] => none
      | f :: rest =>
        if f.phase = .idle ∧ s.unwinding = false then
          some { s.visit f with frames := rest, unwinding := true }
        else none
  | .created =>
      match s.frames with
      | [] => none
      | f :: rest =>
        if f.phase = .creating ∧ s.unwinding = false then
          some { s with frames := { f with phase := .submitting } :: rest }
        else none
  | .submitted =>
      match s.frames with
      | [] => none
      | f :: rest =>
        if f.phase = .submitting ∧ s.unwinding = false then
          some { s with frames := { f with phase := .idle } :: rest }
        else none
  | .finish =>
      match s.frames with
      | [] => none
      | f :: rest =>
        if f.phase = .idle ∧ s.unwinding = false then some { s.leave f with frames := rest }
          else none
  | .unwind =>
      match s.frames with
      | [] => none
      | f :: rest =>
        if f.phase = .creating ∧ s.unwinding = true then some { s with frames := rest } else none
  | .catches =>
      if s.unwinding = true ∧ ∀ f ∈ s.frames.head?, f.phase = .submitting then
        some { s with unwinding := false }
      else none

/-! ## The property and its condition -/

omit [DecidableEq τ] in
/-- **What the pointers are for**: each `get_task` saw the data of its own loop, and no pointer
refers to the data of a loop that was left. -/
structure Restored (s : State τ ν) : Prop where
  own : ∀ o ∈ s.seen, ∀ p ∈ o.2, p = some o.1
  going : ∀ k id, s.threadStore k = some id → ∃ f ∈ s.frames, f.id = id

omit [DecidableEq τ] in
/-- **The condition** on a step: no `get_task` throws. -/
def Creates (_ : State τ ν) : Action τ ν → Prop
  | .getTaskThrows => False
  | _ => True

instance (s : State τ ν) : (a : Action τ ν) → Decidable (Creates s a)
  | .getTaskThrows => .isFalse id
  | .begin _ | .getTask | .created | .submitted | .finish | .unwind | .catches => .isTrue trivial

/-- The step does not make an exception leave an emit of the type, which would not put its value
into the `DataStore`. -/
def Completes (t : τ) (s : State τ ν) : Action τ ν → Prop
  | .getTaskThrows | .unwind =>
    ∀ f ∈ s.frames.head?, f.dispatch.emitted.all (fun e => e.1 != t) = true
  | _ => True

instance (t : τ) (s : State τ ν) : (a : Action τ ν) → Decidable (Completes t s a)
  | .getTaskThrows | .unwind => inferInstanceAs (Decidable (∀ f ∈ s.frames.head?, _))
  | .begin _ | .getTask | .created | .submitted | .finish | .catches => .isTrue trivial

/-! ## One step -/

variable {s s' : State τ ν} {a : Action τ ν} {f : Frame τ ν} {rest : List (Frame τ ν)} {t : τ}

/-- What a step does: a loop begins, or the innermost one moves on or is left, or an exception is
caught. -/
theorem step_cases (h : step s a = some s') :
    (∃ d, a = .begin d ∧ s.unwinding = false ∧ s' = s.enter d) ∨
    (∃ f rest, s.frames = f :: rest ∧
      ((a = .getTask ∧ s.unwinding = false ∧
        s' = { s.visit f with frames := { f with phase := .creating } :: rest }) ∨
        (a = .getTaskThrows ∧ s.unwinding = false ∧
          s' = { s.visit f with frames := rest, unwinding := true }) ∨
        (∃ p, (a = .created ∨ a = .submitted) ∧
          s' = { s with frames := { f with phase := p } :: rest }) ∨
        (a = .finish ∧ s.unwinding = false ∧ s' = { s.leave f with frames := rest }) ∨
        (a = .unwind ∧ s.unwinding = true ∧ s' = { s with frames := rest }))) ∨
    a = .catches ∧ s.unwinding = true ∧ s' = { s with unwinding := false } := by
  cases a with
  | begin d =>
    rw [step, Option.ite_none_right_eq_some] at h
    exact .inl ⟨d, rfl, h.1.2.1, (Option.some.inj h.2).symm⟩
  | catches =>
    rw [step, Option.ite_none_right_eq_some] at h
    exact .inr (.inr ⟨rfl, h.1.1, (Option.some.inj h.2).symm⟩)
  | getTask =>
    rw [step] at h
    split at h
    · exact absurd h (by simp)
    · next f rest hframes =>
      rw [Option.ite_none_right_eq_some] at h
      exact .inr (.inl ⟨f, rest, hframes, .inl ⟨rfl, h.1.2, (Option.some.inj h.2).symm⟩⟩)
  | getTaskThrows =>
    rw [step] at h
    split at h
    · exact absurd h (by simp)
    · next f rest hframes =>
      rw [Option.ite_none_right_eq_some] at h
      exact .inr (.inl ⟨f, rest, hframes, .inr (.inl ⟨rfl, h.1.2, (Option.some.inj h.2).symm⟩)⟩)
  | created =>
    rw [step] at h
    split at h
    · exact absurd h (by simp)
    · next f rest hframes =>
      rw [Option.ite_none_right_eq_some] at h
      exact .inr (.inl ⟨f, rest, hframes,
        .inr (.inr (.inl ⟨_, .inl rfl, (Option.some.inj h.2).symm⟩))⟩)
  | submitted =>
    rw [step] at h
    split at h
    · exact absurd h (by simp)
    · next f rest hframes =>
      rw [Option.ite_none_right_eq_some] at h
      exact .inr (.inl ⟨f, rest, hframes,
        .inr (.inr (.inl ⟨_, .inr rfl, (Option.some.inj h.2).symm⟩))⟩)
  | finish =>
    rw [step] at h
    split at h
    · exact absurd h (by simp)
    · next f rest hframes =>
      rw [Option.ite_none_right_eq_some] at h
      exact .inr (.inl ⟨f, rest, hframes,
        .inr (.inr (.inr (.inl ⟨rfl, h.1.2, (Option.some.inj h.2).symm⟩)))⟩)
  | unwind =>
    rw [step] at h
    split at h
    · exact absurd h (by simp)
    · next f rest hframes =>
      rw [Option.ite_none_right_eq_some] at h
      exact .inr (.inl ⟨f, rest, hframes,
        .inr (.inr (.inr (.inr ⟨rfl, h.1.2, (Option.some.inj h.2).symm⟩)))⟩)

/-! ## What the pointers refer to -/

/-- The invariant of every run, also of those in which a `get_task` has thrown. -/
structure Scoped (s : State τ ν) : Prop where
  nodup : (s.frames.map Frame.id).Nodup
  lt_next : ∀ f ∈ s.frames, f.id < s.next
  /-- A pointer refers to a loop of its kind, if that is going on. -/
  kind : ∀ k id, s.threadStore k = some id → id < s.next ∧ ∀ f ∈ s.frames,
    f.id = id → k ∈ f.dispatch.stores
  own : ∀ o ∈ s.seen, ∀ p ∈ o.2, p = some o.1
  /-- An exception that is not caught has left a pointer behind. -/
  dangling : s.unwinding = true → ∃ k id, s.threadStore k = some id ∧ ∀ f ∈ s.frames, f.id ≠ id

omit [DecidableEq τ] in
theorem scoped_start : Scoped (State.start : State τ ν) where
  nodup := List.nodup_nil
  lt_next _ hf := absurd hf List.not_mem_nil
  kind _ _ h := absurd h (by simp [State.start])
  own _ ho := absurd ho List.not_mem_nil
  dangling h := absurd h Bool.false_ne_true

theorem point_eq_some {stores : List (Store τ)} {p : Option ℕ} {k : Store τ} {id : ℕ}
    (h : s.point stores p k = some id) :
    k ∈ stores ∧ p = some id ∨ k ∉ stores ∧ s.threadStore k = some id := by
  rw [State.point] at h
  split_ifs at h with hk
  · exact .inl ⟨hk, h⟩
  · exact .inr ⟨hk, h⟩

/-- After its pointers are set, a `get_task` sees the data of its loop. -/
theorem own_visit (h : Scoped s) (f : Frame τ ν) :
    ∀ o ∈ (s.visit f).seen, ∀ p ∈ o.2, p = some o.1 := by
  rw [State.visit, List.forall_mem_cons]
  refine ⟨fun p hp => ?_, h.own⟩
  obtain ⟨k, hk, rfl⟩ := List.mem_map.mp hp
  exact if_pos hk

theorem Scoped.enter (h : Scoped s) (hunwinding : s.unwinding = false) (d : Dispatch τ ν) :
    Scoped (s.enter d) where
  nodup := by
    refine List.nodup_cons.mpr ⟨fun hmem => ?_, h.nodup⟩
    obtain ⟨f, hf, hid⟩ := List.mem_map.mp hmem
    exact absurd (h.lt_next f hf) (hid ▸ Nat.lt_irrefl _)
  lt_next := by
    rw [State.enter, List.forall_mem_cons]
    exact ⟨Nat.lt_succ_self _, fun f hf => Nat.lt_succ_of_lt (h.lt_next f hf)⟩
  kind k id hk := by
    obtain ⟨hlt, hkind⟩ := h.kind k id hk
    refine ⟨Nat.lt_succ_of_lt hlt, ?_⟩
    rw [State.enter, List.forall_mem_cons]
    exact ⟨fun hid => absurd hlt (hid ▸ Nat.lt_irrefl _), hkind⟩
  own := h.own
  dangling hu := absurd (hunwinding.symm.trans hu) Bool.false_ne_true

section

variable (h : Scoped s) (hframes : s.frames = f :: rest)
include h hframes

omit [DecidableEq τ] in
theorem Scoped.notMem_rest : ∀ g ∈ rest, g.id ≠ f.id := by
  have hnodup := h.nodup
  rw [hframes, List.map_cons, List.nodup_cons] at hnodup
  exact fun g hg hid => hnodup.1 (List.mem_map.mpr ⟨g, hg, hid⟩)

omit [DecidableEq τ] in
/-- The innermost loop moves on, without touching its pointers. -/
theorem Scoped.move (p : Phase) : Scoped { s with frames := { f with phase := p } :: rest } where
  nodup := by
    have hnodup := h.nodup
    rwa [hframes] at hnodup
  lt_next := by
    have hlt := h.lt_next
    rw [hframes, List.forall_mem_cons] at hlt
    exact List.forall_mem_cons.mpr hlt
  kind k id hk := by
    obtain ⟨hlt, hkind⟩ := h.kind k id hk
    rw [hframes, List.forall_mem_cons] at hkind
    exact ⟨hlt, List.forall_mem_cons.mpr hkind⟩
  own := h.own
  dangling hu := by
    obtain ⟨k, id, hk, hleft⟩ := h.dangling hu
    rw [hframes, List.forall_mem_cons] at hleft
    exact ⟨k, id, hk, List.forall_mem_cons.mpr hleft⟩

/-- It sets its pointers, and only a `get_task` of its own reads them now. -/
theorem Scoped.visit (hunwinding : s.unwinding = false) : Scoped (s.visit f) where
  nodup := h.nodup
  lt_next := h.lt_next
  kind k id hk := by
    obtain ⟨hstore, heq⟩ | ⟨-, hk⟩ := point_eq_some hk
    · obtain rfl := Option.some.inj heq
      refine ⟨h.lt_next f (hframes ▸ List.mem_cons_self ..), ?_⟩
      show ∀ g ∈ s.frames, _
      rw [hframes, List.forall_mem_cons]
      exact ⟨fun _ => hstore, fun g hg hid => absurd hid (h.notMem_rest hframes g hg)⟩
    · exact h.kind k id hk
  own := own_visit h f
  dangling hu := absurd (hunwinding.symm.trans hu) Bool.false_ne_true

omit [DecidableEq τ] in
/-- A loop is left, and what is left behind of it is a pointer that refers to nothing. -/
theorem Scoped.drop (hdangling : s.unwinding = true → ∃ k id, s.threadStore k = some id ∧
    ∀ g ∈ rest, g.id ≠ id) :
    Scoped { s with frames := rest } where
  nodup := by
    have hnodup := h.nodup
    rw [hframes, List.map_cons, List.nodup_cons] at hnodup
    exact hnodup.2
  lt_next g hg := h.lt_next g (hframes ▸ List.mem_cons_of_mem f hg)
  kind k id hk := by
    obtain ⟨hlt, hkind⟩ := h.kind k id hk
    exact ⟨hlt, fun g hg => hkind g (hframes ▸ List.mem_cons_of_mem f hg)⟩
  own := h.own
  dangling := hdangling

/-- The pointer of a `get_task` that throws refers to the data of a loop that is left. -/
theorem exists_dangling_visit :
    ∃ k id, (s.visit f).threadStore k = some id ∧ ∀ g ∈ rest, g.id ≠ id := by
  obtain ⟨k, hk⟩ := f.dispatch.exists_mem_stores
  exact ⟨k, f.id, if_pos hk, h.notMem_rest hframes⟩

theorem Scoped.throws (hunwinding : s.unwinding = false) :
    Scoped { s.visit f with frames := rest, unwinding := true } := by
  have hdrop : Scoped { s.visit f with frames := rest } :=
    (h.visit hframes hunwinding).drop hframes fun _ => exists_dangling_visit h hframes
  exact ⟨hdrop.nodup, hdrop.lt_next, hdrop.kind, hdrop.own,
    fun _ => exists_dangling_visit h hframes⟩

theorem Scoped.finish (hunwinding : s.unwinding = false) :
    Scoped { s.leave f with frames := rest } := by
  have hdrop : Scoped { s with frames := rest } :=
    h.drop hframes fun hu => absurd (hunwinding.symm.trans hu) Bool.false_ne_true
  refine ⟨hdrop.nodup, hdrop.lt_next, fun k id hk => ?_, hdrop.own,
    fun hu => absurd (hunwinding.symm.trans hu) Bool.false_ne_true⟩
  obtain ⟨-, heq⟩ | ⟨-, hk⟩ := point_eq_some hk
  · exact absurd heq (by simp)
  · exact hdrop.kind k id hk

omit [DecidableEq τ] in
theorem Scoped.unwind (hunwinding : s.unwinding = true) : Scoped { s with frames := rest } := by
  refine h.drop hframes fun _ => ?_
  obtain ⟨k, id, hk, hleft⟩ := h.dangling hunwinding
  exact ⟨k, id, hk, fun g hg => hleft g (hframes ▸ List.mem_cons_of_mem f hg)⟩

end

theorem Scoped.step (h : Scoped s) (hst : step s a = some s') : Scoped s' := by
  obtain ⟨d, -, hu, rfl⟩ | ⟨f, rest, hframes, hcase⟩ | ⟨-, -, rfl⟩ := step_cases hst
  · exact h.enter hu d
  · obtain ⟨-, hu, rfl⟩ | ⟨-, hu, rfl⟩ | ⟨p, -, rfl⟩ | ⟨-, hu, rfl⟩ | ⟨-, hu, rfl⟩ := hcase
    · exact (h.visit hframes hu).move hframes .creating
    · exact h.throws hframes hu
    · exact h.move hframes p
    · exact h.finish hframes hu
    · exact h.unwind hframes hu
  · exact ⟨h.nodup, h.lt_next, h.kind, h.own, fun hu => absurd hu Bool.false_ne_true⟩

/-- **A step leaves the pointers as they should be if and only if no `get_task` throws.** -/
theorem restored_step_iff (h : Scoped s) (hs : Restored s) (hst : step s a = some s') :
    Restored s' ↔ Creates s a := by
  have hown := (h.step hst).own
  obtain ⟨d, rfl, hu, rfl⟩ | ⟨f, rest, hframes, hcase⟩ | ⟨rfl, -, rfl⟩ := step_cases hst
  · refine iff_of_true ⟨hown, fun k id hk => ?_⟩ trivial
    obtain ⟨f, hf, hid⟩ := hs.going k id hk
    exact ⟨f, List.mem_cons_of_mem _ hf, hid⟩
  · have hgoing : ∀ k id, s.threadStore k = some id → f.id = id ∨ ∃ g ∈ rest, g.id = id := by
      intro k id hk
      obtain ⟨g, hg, hid⟩ := hs.going k id hk
      rw [hframes, List.mem_cons] at hg
      obtain rfl | hg := hg
      exacts [.inl hid, .inr ⟨g, hg, hid⟩]
    have hmoved : ∀ p k id, s.threadStore k = some id → ∃ g ∈ { f with phase := p } :: rest,
      g.id = id := by
      intro p k id hk
      obtain hid | ⟨g, hg, hid⟩ := hgoing k id hk
      exacts [⟨_, List.mem_cons_self .., hid⟩, ⟨g, List.mem_cons_of_mem _ hg, hid⟩]
    obtain ⟨rfl, hu, rfl⟩ | ⟨rfl, hu, rfl⟩ | ⟨p, ha, rfl⟩ | ⟨rfl, hu, rfl⟩ | ⟨rfl, hu, rfl⟩ := hcase
    · refine iff_of_true ⟨hown, fun k id hk => ?_⟩ trivial
      obtain ⟨-, heq⟩ | ⟨-, hk⟩ := point_eq_some hk
      · exact ⟨_, List.mem_cons_self .., Option.some.inj heq⟩
      · exact hmoved _ k id hk
    · refine iff_of_false (fun hs' => ?_) id
      obtain ⟨k, id, hk, hleft⟩ := exists_dangling_visit h hframes
      obtain ⟨g, hg, hid⟩ := hs'.going k id hk
      exact hleft g hg hid
    · exact iff_of_true ⟨hown, hmoved p⟩ (by rcases ha with rfl | rfl <;> trivial)
    · refine iff_of_true ⟨hown, fun k id hk => ?_⟩ trivial
      obtain ⟨-, heq⟩ | ⟨hout, hk⟩ := point_eq_some hk
      · exact absurd heq (by simp)
      · obtain hid | hrest := hgoing k id hk
        · exact absurd ((h.kind k id hk).2 f (hframes ▸ List.mem_cons_self ..) hid) hout
        · exact hrest
    · obtain ⟨k, id, hk, hleft⟩ := h.dangling hu
      obtain ⟨g, hg, hid⟩ := hs.going k id hk
      exact absurd hid (hleft g hg)
  · exact iff_of_true ⟨hown, hs.going⟩ trivial

/-- **The thread-local stores.**  In every state of a run each `get_task` has seen the data of its
own loop, and no pointer refers to the data of a loop that was left, if and only if no `get_task` of
the run throws. -/
theorem restored_iff_of_exec {l : List (Action τ ν)} (h : exec step .start l = some s) :
    (∀ l' s', l' <+: l → exec step .start l' = some s' → Restored s') ↔
      execOk step Creates .start l :=
  execOk_iff_prefixes (I := Scoped) (P := Restored) (fun _ _ _ hst hx => hx.step hst)
    (fun _ _ _ hst hx hr => restored_step_iff hx hr hst)
    scoped_start ⟨fun _ ho => absurd ho List.not_mem_nil,
      fun _ _ hk => absurd hk (by simp [State.start])⟩ h

/-- An emit whose reaction runs inline and emits the type again. -/
def nested : List (Action Unit ℕ) :=
  [.begin (.localEmit () 1), .getTask, .created, .begin (.inlineEmit () 2), .getTask, .created,
    .submitted, .finish,
    .submitted, .getTask, .created, .submitted, .finish]

/-- A `get_task` that throws. -/
def throwing : List (Action Unit ℕ) := [.begin (.localEmit () 1), .getTask, .created, .submitted,
    .getTaskThrows]

theorem exists_exec_nested : ∃ s, exec step .start nested = some s ∧ s.emitting () = [] ∧
    s.dataStore () = some 1 ∧
    s.begun () = some 2 ∧ s.outermost () = some 1 := by
  have h : (exec step .start nested).any
    (fun s => decide (s.emitting () = [] ∧ s.dataStore () = some 1 ∧
      s.begun () = some 2 ∧ s.outermost () = some 1)) = true := by decide +kernel
  obtain ⟨s, hs, hrun⟩ := (Option.any_eq_true _ _).mp h
  exact ⟨s, hs, of_decide_eq_true hrun⟩

theorem restored_iff_of_exec_nested : ∃ s, exec step .start nested = some s ∧
    ∀ l' s', l' <+: nested → exec step .start l' = some s' → Restored s' := by
  obtain ⟨s, hs, -⟩ := exists_exec_nested
  exact ⟨s, hs, (restored_iff_of_exec hs).mpr (by decide +kernel)⟩

/-- The pointer of an emit whose second `get_task` throws is left behind: it refers to data that has
gone. -/
theorem not_restored_throwing : ¬ ∀ (l : List (Action Unit ℕ)) (s : State Unit ℕ),
    exec step .start l = some s → Restored s := by
  intro hall
  have h : (exec step .start throwing).any
    (fun s => decide (s.frames = [] ∧ s.threadStore (.data ()) = some 0)) =
      true := by decide +kernel
  obtain ⟨s, hs, hrun⟩ := (Option.any_eq_true _ _).mp h
  obtain ⟨hframes, hpointer⟩ := of_decide_eq_true hrun
  obtain ⟨f, hf, -⟩ := (hall throwing s hs).going (.data ()) 0 hpointer
  rw [hframes] at hf
  exact absurd hf List.not_mem_nil

/-! ## What the `DataStore` holds -/

theorem emitting_cons (hframes : s.frames = f :: rest) :
    s.emitting t = (f.value? t).toList ++ rest.filterMap (Frame.value? t) := by
  rw [State.emitting, hframes, List.filterMap_cons]
  cases f.value? t <;> rfl

theorem value?_eq_none (h : f.dispatch.emitted.all (fun e => e.1 != t) = true) :
    f.value? t = none := by
  rw [Frame.value?]
  cases hemitted : f.dispatch.emitted with
  | none => rfl
  | some e =>
    rw [hemitted, Option.all_some, bne_iff_ne] at h
    rw [Option.bind_some, if_neg h]

/-- The `DataStore` holds the value of the outermost emit that began last, or that emit is still
going on. -/
def Outermost (t : τ) (s : State τ ν) : Prop :=
  ((s.emitting t).getLast?).or (s.dataStore t) = s.outermost t

theorem Outermost.enter (h : Outermost t s) (d : Dispatch τ ν) : Outermost t (s.enter d) := by
  have hemitting : (s.enter d).emitting t = (Frame.value? t ⟨s.next, d, .idle⟩).toList ++
    s.emitting t :=
    emitting_cons rfl
  rw [Outermost] at h ⊢
  rw [hemitting, List.getLast?_append, State.enter]
  dsimp only
  split_ifs with hnone
  · rw [hnone] at h ⊢
    rw [List.getLast?_nil, Option.none_or] at h ⊢
    rw [← h]
    cases Frame.value? t ⟨s.next, d, .idle⟩ <;> rfl
  · obtain ⟨v, hv⟩ := Option.isSome_iff_exists.mp (List.getLast?_isSome.mpr hnone)
    rw [hv] at h ⊢
    rwa [Option.some_or]

theorem Outermost.finish (h : Outermost t s) (hframes : s.frames = f :: rest) :
    Outermost t { s.leave f with frames := rest } := by
  rw [Outermost, emitting_cons hframes, List.getLast?_append] at h
  show (List.getLast? (rest.filterMap (Frame.value? t))).or
    ((f.value? t).or (s.dataStore t)) = s.outermost t
  rw [← h, ← Option.or_assoc]
  cases f.value? t <;> rfl

theorem Outermost.step (h : Outermost t s) (hok : Completes t s a) (hst : step s a = some s') :
    Outermost t s' := by
  obtain ⟨d, -, -, rfl⟩ | ⟨f, rest, hframes, hcase⟩ | ⟨-, -, rfl⟩ := step_cases hst
  · exact h.enter d
  · have hmove : ∀ p, State.emitting { s with frames := { f with phase := p } :: rest } t =
      s.emitting t := by
      intro p
      rw [emitting_cons hframes]
      exact emitting_cons (f := { f with phase := p }) rfl
    have hdrop : f.dispatch.emitted.all (fun e => e.1 != t) = true →
        rest.filterMap (Frame.value? t) = s.emitting t := by
      intro hother
      rw [emitting_cons hframes, value?_eq_none hother, Option.toList_none, List.nil_append]
    have hhead : f ∈ s.frames.head? := hframes ▸ rfl
    rw [Outermost] at h
    obtain ⟨rfl, -, rfl⟩ | ⟨rfl, -, rfl⟩ | ⟨p, -, rfl⟩ | ⟨rfl, -, rfl⟩ | ⟨rfl, -, rfl⟩ := hcase
    · rw [← hmove .creating] at h
      exact h
    · rw [← hdrop (hok f hhead)] at h
      exact h
    · rw [← hmove p] at h
      exact h
    · exact Outermost.finish h hframes
    · rw [← hdrop (hok f hhead)] at h
      exact h
  · exact h

/-- When no emit of the type is going on, the `DataStore` holds the value of the outermost emit that
began last. -/
theorem dataStore_eq_outermost_of_exec {l : List (Action τ ν)} (h : exec step .start l = some s)
    (hok : execOk step (Completes t) .start l) (hdone : s.emitting t = []) :
    s.dataStore t = s.outermost t := by
  have hrun : Outermost t s :=
    (reaches_of_exec h hok).invariant (P := Outermost t) rfl fun _ _ _ hx hok hst => hx.step hok hst
  rwa [Outermost, hdone, List.getLast?_nil, Option.none_or] at hrun

/-- **The `DataStore`.**  After a run whose emits of the type have all completed, it holds the value
of the emit that began last if and only if this is the value of the one that began last outside of
all others of the type. -/
theorem dataStore_eq_begun_iff_of_exec {l : List (Action τ ν)} (h : exec step .start l = some s)
    (hok : execOk step (Completes t) .start l) (hdone : s.emitting t = []) :
    s.dataStore t = s.begun t ↔ s.outermost t = s.begun t := by
  rw [dataStore_eq_outermost_of_exec h hok hdone]

theorem dataStore_eq_begun_iff_of_exec_nested : ∃ s, exec step .start nested = some s ∧
    (s.dataStore () = s.begun () ↔ s.outermost () = s.begun ()) := by
  obtain ⟨s, hs, hdone, -⟩ := exists_exec_nested
  exact ⟨s, hs, dataStore_eq_begun_iff_of_exec hs (by decide +kernel) hdone⟩

/-- The emit of 2 began last, and the `DataStore` holds 1, which the outer emit has put there at its
end. -/
theorem dataStore_ne_begun_nested : ¬ ∀ (l : List (Action Unit ℕ)) (s : State Unit ℕ),
    exec step .start l = some s → execOk step (Completes ()) .start l → s.emitting () = [] →
      s.dataStore () = s.begun () := by
  intro hall
  obtain ⟨s, hs, hdone, hdata, hbegun, -⟩ := exists_exec_nested
  have heq : s.dataStore () = s.begun () := hall nested s hs (by decide +kernel) hdone
  rw [hdata, hbegun] at heq
  exact absurd heq (by decide)

end

end Stores
end Dsl
end NUClear
