import Mathlib.Data.List.Basic
import Mathlib.Algebra.Order.Ring.Nat
import Mathlib.Tactic.Common

/-!
# Pieces of a list

`pieces w l` is a list read as an array of blocks of `w` elements; what is left over at its end is
not read.  It is what code computes that walks over a buffer in strides of a record's size.

* `pieces_append`: the first block is the first `w` elements.
* `pieces_flatMap`: the blocks of a list that is written block by block.
* `flatten_pieces`: when nothing is left over, the blocks are the list.
-/

namespace NUClear
namespace Foundation

universe u v

variable {α : Type u} {β : Type v} {w : ℕ} {a l : List α}

/-- The blocks of `w` elements. -/
def pieces (w : ℕ) (l : List α) : List (List α) :=
  (List.range (l.length / w)).map fun i => (l.drop (i * w)).take w

theorem pieces_of_length_lt (h : l.length < w) : pieces w l = [] := by
  rw [pieces, Nat.div_eq_of_lt h]
  rfl

theorem pieces_append (hw : 0 < w) (ha : a.length = w) : pieces w (a ++ l) = a :: pieces w l := by
  have hcount : (a ++ l).length / w = l.length / w + 1 := by
    rw [List.length_append, ha, Nat.add_div_left _ hw]
  have hfirst : (a ++ l).take w = a := by
    rw [← ha, List.take_left]
  have hnext (i : ℕ) : (a ++ l).drop ((i + 1) * w) = l.drop (i * w) := by
    rw [Nat.succ_mul, Nat.add_comm, ← List.drop_drop, ← ha, List.drop_left]
  rw [pieces, hcount, List.range_succ_eq_map, List.map_cons, List.map_map, Nat.zero_mul,
    List.drop_zero, hfirst]
  refine congrArg _ (List.map_congr_left fun i _ => ?_)
  rw [Function.comp_apply, Nat.succ_eq_add_one, hnext]

theorem length_of_mem_pieces (h : a ∈ pieces w l) : a.length = w := by
  obtain ⟨i, hi, rfl⟩ := List.mem_map.mp h
  have hle : (i + 1) * w ≤ l.length / w * w := Nat.mul_le_mul_right w (List.mem_range.mp hi)
  have hdiv := Nat.div_mul_le_self l.length w
  rw [Nat.succ_mul] at hle
  rw [List.length_take, List.length_drop]
  omega

/-- **What is written block by block** is read back. -/
theorem pieces_flatMap (hw : 0 < w) {f : β → List α} (hf : ∀ b, (f b).length = w) (l : List β) :
    pieces w (l.flatMap f) = l.map f := by
  induction l with
  | nil => exact pieces_of_length_lt hw
  | cons b l ih => rw [List.flatMap_cons, pieces_append hw (hf b), ih, List.map_cons]

/-- **The blocks are the list**, when its length is a multiple of theirs. -/
theorem flatten_pieces (hw : 0 < w) (h : w ∣ l.length) : (pieces w l).flatten = l := by
  obtain ⟨k, hk⟩ := h
  induction k generalizing l with
  | zero =>
    obtain rfl : l = [] := List.length_eq_zero_iff.mp hk
    rw [pieces_of_length_lt hw]
    rfl
  | succ k ih =>
    rw [Nat.mul_succ] at hk
    have hfirst : (l.take w).length = w := by
      rw [List.length_take]
      omega
    have hrest : (l.drop w).length = w * k := by
      rw [List.length_drop]
      omega
    conv_lhs => rw [← List.take_append_drop w l]
    rw [pieces_append hw hfirst, List.flatten_cons, ih hrest, List.take_append_drop]

end Foundation
end NUClear
