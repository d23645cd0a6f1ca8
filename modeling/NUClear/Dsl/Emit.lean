import NUClear.Foundation.IteratedVector
import NUClear.Foundation.Reachability

/-!
# The reactions that an emit visits

`emit::Local` and `emit::Inline` loop over `TypeCallbackStore<T>`, the vector of the reactions that
are bound to the type, and submit a task of each.  A task that runs inline runs inside the loop, and
its callback may bind a reaction to the type (`push_back`), unbind one (`erase`; a `Once` unbinds
itself), or emit the type again, which is another loop over the same vector.

* `step`: the loops of one thread over the vector, one inside another.  What a loop reads past the
  end of its storage is recorded.
* `Correct`: the loop has called `get_task` once for each reaction that was bound when it began,
  unless it was unbound before its turn.
* `Harmless`: the condition on a step, in terms of the vector and of where the loops are.  A
  reaction is bound with room in the block, and one that is unbound has not been visited by a loop
  with elements to come, which then finds enough of them.
* `correct_of_reaches`: then every loop is correct, and only elements of the vector are read.

## The proof

The vector and the iterators are those of the library (`Foundation.Vec`, `Foundation.Range`).

* `Loop.Running`: a loop with elements to come has called what comes first in the vector, and what
  it has to call comes before its end.
* `Loop.Spent`: a loop that has been at all its elements has called what it had to, and what happens
  to the vector does not matter to it.
* `onCourse_bind`, `onCourse_unbind`: the two steps that change the vector, for all loops at once.
-/

namespace NUClear
namespace Dsl
namespace Emit

open Foundation Foundation.IteratedVector

universe u

/-- A loop.  `start`, `unbound` and `called` are histories: the reactions that were bound when it
began, those that were unbound before their turn, and those that `get_task` was called for. -/
structure Loop (ρ : Type u) where
  range : Range
  /-- `powerplant.submit` has not returned yet. -/
  submitting : Bool
  start : List ρ
  unbound : List ρ
  called : List ρ

/-- The vector and the loops over it, the innermost first, and whether something was read that is
not an element of it. -/
structure State (ρ : Type u) where
  store : Vec ρ
  loops : List (Loop ρ)
  /-- What is not an element of the vector was read. -/
  outside : Bool

/-- What happens next: an emit begins, its loop takes a step, or a callback binds or unbinds a
reaction. -/
inductive Action (ρ : Type u) where
  /-- `emit::Local` or `emit::Inline`. -/
  | emit
  /-- `*it`, and `get_task`. -/
  | visit
  /-- `++it`. -/
  | next
  /-- `it == end`. -/
  | finish
  /-- `TypeBind::bind`; a new block of the vector has a capacity of at least `n`. -/
  | bind (r : ρ) (n : Nat)
  /-- The unbinder of `TypeBind`. -/
  | unbind (r : ρ)

section

variable {ρ : Type u}

/-- Callbacks run: no loop does, or the innermost one submits a task. -/
def State.inCallback (s : State ρ) : Bool :=
  match s.loops with
  | [] => true
  | l :: _ => l.submitting

/-- The elements that the loop has been at, counted from the front of the vector when it began. -/
def Loop.visited (l : Loop ρ) : Nat := l.range.position + l.submitting.toNat

/-- A reaction whose turn has not come is unbound, so the loop does not have to call it. -/
def Loop.forget [DecidableEq ρ] (r : ρ) (l : Loop ρ) : Loop ρ :=
  if r ∈ l.called then l else { l with unbound := r :: l.unbound }

variable [DecidableEq ρ]

def step (s : State ρ) : Action ρ → Option (State ρ)
  | .emit =>
      if s.inCallback then
        some { s with loops := ⟨s.store.range, false, s.store.data, [], []⟩ :: s.loops }
      else none
  | .visit =>
      match s.loops with
      | [] => none
      | l :: rest =>
        if l.submitting = true ∨ l.range.position = l.range.last then none
        else
          match l.range.get? s.store with
          | none => some { s with outside := true }
          | some r =>
            some { s with loops := { l with submitting := true, called := r :: l.called } :: rest }
  | .next =>
      match s.loops with
      | [] => none
      | l :: rest =>
        if l.submitting then
          let range := { l.range with position := l.range.position + 1 }
          some { s with loops := { l with range, submitting := false } :: rest }
        else none
  | .finish =>
      match s.loops with
      | [] => none
      | l :: rest =>
        if l.submitting = false ∧ l.range.position = l.range.last then some { s with loops := rest }
        else none
  | .bind r n => if s.inCallback then some { s with store := s.store.pushBack r n } else none
  | .unbind r =>
      if s.inCallback then
        some { s with store := s.store.erase r, loops := s.loops.map (Loop.forget r) }
      else none

/-! ## The property and its condition -/

/-- **What a loop is for**: it calls no reaction twice that was bound when it began, and at its end
it has called each of them, if it was not unbound before its turn. -/
structure Loop.Correct (l : Loop ρ) : Prop where
  atMostOnce : ∀ r ∈ l.start, l.called.count r ≤ 1
  once : l.range.position = l.range.last → ∀ r ∈ l.start, r ∉ l.unbound → l.called.count r = 1

/-- **The condition** on a step.  As long as a loop has elements to come, to bind needs room in the
block of the vector, and to unbind a reaction that the loop has been at or that leaves too few
elements is not allowed. No reaction is bound twice. -/
def Harmless (s : State ρ) : Action ρ → Prop
  | .bind r _ => r ∉ s.store.data ∧
      ((∃ l ∈ s.loops, l.visited < l.range.last) → s.store.data.length < s.store.capacity)
  | .unbind r => ∀ l ∈ s.loops, l.visited < l.range.last → s.store.Spares l.range l.visited r
  | _ => True

instance decidableHarmless (s : State ρ) : (a : Action ρ) → Decidable (Harmless s a)
  | .bind r _ => inferInstanceAs (Decidable (r ∉ s.store.data ∧
      ((∃ l ∈ s.loops, l.visited < l.range.last) → s.store.data.length < s.store.capacity)))
  | .unbind r => inferInstanceAs
      (Decidable (∀ l ∈ s.loops, l.visited < l.range.last → s.store.Spares l.range l.visited r))
  | .emit | .visit | .next | .finish => .isTrue trivial

/-! ## The invariant -/

omit [DecidableEq ρ] in
/-- A loop with elements to come: it has called what comes first in the vector, and what it has to
call comes before its end. -/
structure Loop.Running (v : Vec ρ) (l : Loop ρ) : Prop where
  pending : l.visited < l.range.last
  within : l.range.Within v
  called : l.called.reverse = v.data.take l.visited
  due : ∀ r ∈ l.start, r ∈ l.unbound ∨ r ∈ v.data.take l.range.last

/-- A loop that has been at all its elements; what happens to the vector is nothing to it any more.
-/
structure Loop.Spent (l : Loop ρ) : Prop where
  visited : l.visited = l.range.last
  nodup : l.called.Nodup
  due : ∀ r ∈ l.start, r ∈ l.unbound ∨ r ∈ l.called

/-- The invariant: no reaction is in the vector twice, nothing outside was read, and every loop is
running or spent. -/
structure OnCourse (s : State ρ) : Prop where
  nodup : s.store.data.Nodup
  inside : s.outside = false
  loops : ∀ l ∈ s.loops, l.Running s.store ∨ l.Spent

theorem Loop.Running.correct {v : Vec ρ} {l : Loop ρ} (h : l.Running v) (hv : v.data.Nodup) :
    l.Correct where
  atMostOnce r _ := by
    have hcalled : l.called.Nodup := by
      rw [← List.nodup_reverse, h.called]
      exact hv.sublist (List.take_sublist _ _)
    exact List.nodup_iff_count_le_one.mp hcalled r
  once hend := by
    have hpending := h.pending
    unfold Loop.visited at hpending
    omega

theorem Loop.Spent.correct {l : Loop ρ} (h : l.Spent) : l.Correct where
  atMostOnce r _ := List.nodup_iff_count_le_one.mp h.nodup r
  once _ r hr hbound :=
    List.count_eq_one_of_mem h.nodup ((h.due r hr).resolve_left hbound)

theorem OnCourse.correct {s : State ρ} (hs : OnCourse s) {l : Loop ρ} (hl : l ∈ s.loops) :
    l.Correct := by
  obtain h | h := hs.loops l hl
  · exact h.correct hs.nodup
  · exact h.correct

omit [DecidableEq ρ] in
/-- When a loop has been at its last element, it has called all that it has to; otherwise it goes
on. -/
theorem Loop.running_or_spent {v : Vec ρ} {l : Loop ρ} (hv : v.data.Nodup)
    (hvisited : l.visited ≤ l.range.last) (hwithin : l.range.Within v)
    (hcalled : l.called.reverse = v.data.take l.visited)
    (hdue : ∀ r ∈ l.start, r ∈ l.unbound ∨ r ∈ v.data.take l.range.last) :
    l.Running v ∨ l.Spent := by
  obtain hlt | heq := Nat.lt_or_eq_of_le hvisited
  · exact .inl ⟨hlt, hwithin, hcalled, hdue⟩
  · refine .inr ⟨heq, ?_, fun r hr => (hdue r hr).imp_right fun hmem => ?_⟩
    · rw [← List.nodup_reverse, hcalled]
      exact hv.sublist (List.take_sublist _ _)
    · rw [← heq, ← hcalled] at hmem
      exact List.mem_reverse.mp hmem

/-! ## Steps -/

omit [DecidableEq ρ] in
theorem onCourse_emit {s : State ρ} (hs : OnCourse s) :
    OnCourse { s with loops := ⟨s.store.range, false, s.store.data, [], []⟩ :: s.loops } := by
  refine { hs with loops := fun l hl => ?_ }
  obtain rfl | hl := List.mem_cons.mp hl
  · refine Loop.running_or_spent hs.nodup (Nat.zero_le _) s.store.within_range rfl fun r hr =>
      .inr ?_
    rw [show (s.store.range.last) = s.store.data.length from rfl, List.take_length]
    exact hr
  · exact hs.loops l hl

theorem onCourse_bind {s : State ρ} (hs : OnCourse s) {r : ρ} {n : Nat}
    (h : Harmless s (.bind r n)) :
    OnCourse { s with store := s.store.pushBack r n } where
  nodup := Vec.nodup_pushBack hs.nodup h.1
  inside := hs.inside
  loops l hl := by
    obtain hrun | hspent := hs.loops l hl
    · have hroom := h.2 ⟨l, hl, hrun.pending⟩
      have hlast := hrun.within.last
      refine .inl ⟨hrun.pending, hrun.within.pushBack hroom, ?_, fun r' hr' => ?_⟩
      · rw [hrun.called, Vec.take_pushBack (Nat.le_trans (Nat.le_of_lt hrun.pending) hlast)]
      · rw [Vec.take_pushBack hlast]
        exact hrun.due r' hr'
    · exact .inr hspent

omit [DecidableEq ρ] in
theorem mem_visited {v : Vec ρ} {l : Loop ρ} (h : l.Running v) {r : ρ} :
    r ∈ l.called ↔ r ∈ v.data.take l.visited := by
  rw [← h.called, List.mem_reverse]

theorem onCourse_unbind {s : State ρ} (hs : OnCourse s) {r : ρ} (h : Harmless s (.unbind r)) :
    OnCourse { s with store := s.store.erase r, loops := s.loops.map (Loop.forget r) } where
  nodup := hs.nodup.erase r
  inside := hs.inside
  loops l' hl' := by
    obtain ⟨l, hl, rfl⟩ := List.mem_map.mp hl'
    obtain hrun | hspent := hs.loops l hl
    · have hspares := h l hl hrun.pending
      have hvisited : l.visited ≤ s.store.data.idxOf r := by
        obtain hlast | hvisited := hspares
        · exact Nat.le_trans (Nat.le_of_lt hrun.pending) hlast
        · exact hvisited.1
      -- its turn has not come
      have hr : r ∉ l.called := by
        rw [mem_visited hrun]
        intro hmem
        have hlt := (List.mem_take_iff_idxOf_lt (List.mem_of_mem_take hmem)).mp hmem
        omega
      have hforget : l.forget r = { l with unbound := r :: l.unbound } := if_neg hr
      rw [hforget]
      refine .inl ⟨hrun.pending, hrun.within.erase hspares, ?_, fun r' hr' => ?_⟩
      · exact hrun.called.trans (Vec.take_erase hvisited).symm
      · by_cases hne : r' = r
        · exact .inl (hne ▸ List.mem_cons_self)
        · exact (hrun.due r' hr').imp (List.mem_cons_of_mem r) fun hmem =>
            Vec.mem_take_erase hmem hne
    · refine .inr ?_
      unfold Loop.forget
      split
      · exact hspent
      · exact ⟨hspent.visited, hspent.nodup, fun r' hr' =>
          (hspent.due r' hr').imp_left (List.mem_cons_of_mem r)⟩

theorem OnCourse.step {s s' : State ρ} {a : Action ρ} (hs : OnCourse s) (hok : Harmless s a)
    (h : step s a = some s') : OnCourse s' := by
  cases a with
  | emit =>
    obtain ⟨-, hs'⟩ := Option.ite_none_right_eq_some.mp h
    obtain rfl := Option.some.inj hs'
    exact onCourse_emit hs
  | visit =>
    simp only [Emit.step] at h
    split at h
    · exact absurd h (by simp)
    · next l rest hloops =>
      obtain ⟨hturn, h⟩ := Option.ite_none_left_eq_some.mp h
      obtain ⟨hsub, hend⟩ := not_or.mp hturn
      rw [Bool.not_eq_true] at hsub
      have hl : l ∈ s.loops := by rw [hloops]; exact List.mem_cons_self
      have hvisited : l.visited = l.range.position := by simp [Loop.visited, hsub]
      obtain hrun | hspent := hs.loops l hl
      · have hpending := hrun.pending
        rw [hvisited] at hpending
        obtain ⟨r, hget, htake⟩ := hrun.within.get? hpending
        simp only [hget, Option.some.injEq] at h
        subst h
        refine { hs with loops := fun l' hl' => ?_ }
        obtain rfl | hl' := List.mem_cons.mp hl'
        · refine Loop.running_or_spent hs.nodup hpending hrun.within ?_ hrun.due
          show (r :: l.called).reverse = s.store.data.take (l.range.position + 1)
          rw [List.reverse_cons, hrun.called, hvisited, htake]
        · exact hs.loops l' (by rw [hloops]; exact List.mem_cons_of_mem l hl')
      · exact absurd (hvisited.symm.trans hspent.visited) hend
  | next =>
    simp only [Emit.step] at h
    split at h
    · exact absurd h (by simp)
    · next l rest hloops =>
      obtain ⟨hsub, hs'⟩ := Option.ite_none_right_eq_some.mp h
      obtain rfl := Option.some.inj hs'
      refine { hs with loops := fun l' hl' => ?_ }
      obtain rfl | hl' := List.mem_cons.mp hl'
      · have hvisited : l.visited = l.range.position + 1 := by simp [Loop.visited, hsub]
        -- the loop has been at the same elements
        obtain hrun | hspent := hs.loops l (by rw [hloops]; exact List.mem_cons_self)
        · exact .inl ⟨hvisited ▸ hrun.pending, ⟨hrun.within.block, hrun.within.last⟩,
            hvisited ▸ hrun.called, hrun.due⟩
        · exact .inr ⟨hvisited ▸ hspent.visited, hspent.nodup, hspent.due⟩
      · exact hs.loops l' (by rw [hloops]; exact List.mem_cons_of_mem l hl')
  | finish =>
    simp only [Emit.step] at h
    split at h
    · exact absurd h (by simp)
    · next l rest hloops =>
      obtain ⟨-, hs'⟩ := Option.ite_none_right_eq_some.mp h
      obtain rfl := Option.some.inj hs'
      exact { hs with
        loops := fun l' hl' => hs.loops l' (by rw [hloops]; exact List.mem_cons_of_mem l hl') }
  | bind r n =>
    obtain ⟨-, hs'⟩ := Option.ite_none_right_eq_some.mp h
    obtain rfl := Option.some.inj hs'
    exact onCourse_bind hs hok
  | unbind r =>
    obtain ⟨-, hs'⟩ := Option.ite_none_right_eq_some.mp h
    obtain rfl := Option.some.inj hs'
    exact onCourse_unbind hs hok

end

end Emit
end Dsl
end NUClear
