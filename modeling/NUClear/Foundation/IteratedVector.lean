import Mathlib.Data.List.Basic
import Mathlib.Data.List.Nodup
import Mathlib.Data.List.TakeDrop

/-!
# A vector that is changed while it is iterated

A `std::vector` keeps its elements in a block of storage.  A range-based `for` takes the iterators
to the first element and past the last one when it begins, and compares them with each other only;
what is done to the vector inside the loop does not move them.  After a `push_back` that moves the
elements to another block the iterators are into storage that is gone, and after an `erase` the last
of them may be past the last element.

* `Vec`: the elements, the capacity, and the block that they are in.
* `Range`: the iterators of a loop.  `get? v` is the element that the loop is at, and `none` when
  there is no element of the vector.
* `Within v`: the iterators are into the storage of the vector, and what they span is there.
* `Range.Within.pushBack`: a `push_back` keeps this when there is room.
* `Range.Within.erase`: an `erase` keeps it when enough elements remain, and `Vec.take_erase`,
  `Vec.mem_take_erase` say which elements the loop has been at then: those before the erased one
  stay, those after it move forward.
-/

namespace NUClear
namespace Foundation
namespace IteratedVector

universe u

/-- A vector.  Each block that it allocates is another one. -/
structure Vec (α : Type u) where
  data : List α
  capacity : Nat
  block : Nat

/-- `push_back`.  Without room the elements are moved to a block with a capacity of at least `n`. -/
def Vec.pushBack {α : Type u} (v : Vec α) (a : α) (n : Nat) : Vec α :=
  if v.data.length < v.capacity then { v with data := v.data ++ [a] }
  else ⟨v.data ++ [a], max n (v.data.length + 1), v.block + 1⟩

/-- `erase` of the first element that is `a`, if there is one. -/
def Vec.erase {α : Type u} [DecidableEq α] (v : Vec α) (a : α) : Vec α :=
  { v with data := v.data.erase a }

/-- The iterators of a loop: the one that moves, and the one past the last element. -/
structure Range where
  block : Nat
  position : Nat
  last : Nat
  deriving DecidableEq, Repr

/-- `begin` and `end`. -/
def Vec.range {α : Type u} (v : Vec α) : Range := ⟨v.block, 0, v.data.length⟩

/-- The element that the loop is at. -/
def Range.get? {α : Type u} (x : Range) (v : Vec α) : Option α :=
  if x.block = v.block then v.data[x.position]? else none

/-- All the elements that the loop has to come to are in the storage of the vector: it is in the
same block, and no shorter than the loop takes it to be. -/
structure Range.Within {α : Type u} (x : Range) (v : Vec α) : Prop where
  block : x.block = v.block
  last : x.last ≤ v.data.length

section

variable {α : Type u} {v : Vec α} {x : Range}

theorem Vec.within_range (v : Vec α) : v.range.Within v := ⟨rfl, Nat.le_refl _⟩

theorem Range.Within.get? (h : x.Within v) (hx : x.position < x.last) :
    ∃ a, x.get? v = some a ∧ v.data.take (x.position + 1) = v.data.take x.position ++ [a] := by
  have hlen : x.position < v.data.length := Nat.lt_of_lt_of_le hx h.last
  refine ⟨v.data[x.position], ?_, List.take_concat_get' v.data x.position hlen |>.symm⟩
  rw [Range.get?, if_pos h.block, List.getElem?_eq_getElem hlen]

/-! ## `push_back` -/

theorem Vec.nodup_pushBack {a : α} {n : Nat} (h : v.data.Nodup) (ha : a ∉ v.data) :
    (v.pushBack a n).data.Nodup := by
  have hdata : (v.pushBack a n).data = v.data ++ [a] := by
    unfold Vec.pushBack
    split <;> rfl
  rw [hdata]
  exact List.nodup_append.mpr ⟨h, List.nodup_singleton a, fun b hb c hc => by
    rintro rfl
    exact ha (List.mem_singleton.mp hc ▸ hb)⟩

/-- With room, the iterators stay, and what they are at. -/
theorem Range.Within.pushBack (h : x.Within v) {a : α} {n : Nat}
    (hroom : v.data.length < v.capacity) :
    x.Within (v.pushBack a n) := by
  rw [Vec.pushBack, if_pos hroom]
  exact ⟨h.block, Nat.le_trans h.last (by simp)⟩

theorem Vec.take_pushBack {a : α} {n k : Nat} (hk : k ≤ v.data.length) :
    (v.pushBack a n).data.take k = v.data.take k := by
  unfold Vec.pushBack
  split <;> exact List.take_append_of_le_length hk

/-! ## `erase` -/

variable [DecidableEq α]

/-- Of the first `k` elements that a loop has been at none is `a`, and there remain enough
elements. -/
def Vec.Spares (v : Vec α) (x : Range) (k : Nat) (a : α) : Prop :=
  x.last ≤ v.data.idxOf a ∨ k ≤ v.data.idxOf a ∧ x.last < v.data.length

instance decidableSpares (v : Vec α) (x : Range) (k : Nat) (a : α) : Decidable (v.Spares x k a) :=
  inferInstanceAs (Decidable (_ ∨ _))

theorem Vec.length_erase (v : Vec α) (a : α) :
    (v.erase a).data.length + 1 = v.data.length ∨
      (v.erase a).data.length = v.data.length ∧ v.data.idxOf a = v.data.length := by
  unfold Vec.erase
  by_cases ha : a ∈ v.data
  · have hpos := List.length_pos_of_mem ha
    rw [List.length_erase_of_mem ha]
    omega
  · rw [List.erase_of_not_mem ha]
    exact .inr ⟨rfl, List.idxOf_eq_length ha⟩

theorem Range.Within.erase (h : x.Within v) {k : Nat} {a : α} (hspares : v.Spares x k a) :
    x.Within (v.erase a) := by
  refine ⟨h.block, ?_⟩
  have hidx : v.data.idxOf a ≤ v.data.length := List.idxOf_le_length
  have hlast := h.last
  obtain hlen | ⟨hlen, -⟩ := v.length_erase a
  · by_cases ha : a ∈ v.data
    · have := List.idxOf_lt_length_iff.mpr ha
      obtain hspares | ⟨-, hspares⟩ := hspares <;> omega
    · rw [Vec.erase, List.erase_of_not_mem ha]
      exact h.last
  · omega

/-- What comes before the erased element stays. -/
theorem Vec.take_erase {a : α} {k : Nat} (h : k ≤ v.data.idxOf a) :
    (v.erase a).data.take k = v.data.take k := by
  obtain ⟨data, capacity, block⟩ := v
  show (data.erase a).take k = data.take k
  induction data generalizing k with
  | nil => rfl
  | cons b l ih =>
    by_cases hb : b = a
    · obtain rfl : k = 0 := by simpa [List.idxOf_cons, hb] using h
      rfl
    · rw [List.erase_cons_tail (by simpa using hb)]
      cases k with
      | zero => rfl
      | succ k =>
        have hk : k ≤ l.idxOf a := by simpa [List.idxOf_cons, hb] using h
        rw [List.take_succ_cons, List.take_succ_cons, ih hk]

/-- What comes after it moves forward. -/
theorem Vec.mem_take_erase {a b : α} {k : Nat} (hb : b ∈ v.data.take k) (hne : b ≠ a) :
    b ∈ (v.erase a).data.take k := by
  obtain ⟨data, capacity, block⟩ := v
  show b ∈ (data.erase a).take k
  replace hb : b ∈ data.take k := hb
  induction data generalizing k with
  | nil => simp at hb
  | cons c l ih =>
    cases k with
    | zero => simp at hb
    | succ k =>
      rw [List.take_succ_cons, List.mem_cons] at hb
      by_cases hc : c = a
      · subst hc
        rw [List.erase_cons_head]
        obtain rfl | hb := hb
        · exact absurd rfl hne
        · exact (List.take_sublist_take_left (Nat.le_succ k)).subset hb
      · rw [List.erase_cons_tail (by simpa using hc), List.take_succ_cons, List.mem_cons]
        exact hb.imp_right ih

end

end IteratedVector
end Foundation
end NUClear
