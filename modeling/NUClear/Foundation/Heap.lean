import Mathlib.Data.List.Sort
import Mathlib.Data.Multiset.Basic

/-!
# Heaps in a list

A list is a heap when no entry is before its parent, the parent of the entry `i` being the entry `(i
- 1) / 2`.  So the first entry is before all others (`IsHeap.front_le`): the induction is on the
index, from an entry to its parent.

The algorithms of the standard library are specified by what they establish, and not by where they
put the other entries; `HeapAlgorithms` is that specification.  What is proved for all of its
instances holds for every implementation.  `popHeap` is specified for a heap whose front has a key
of its own: it moves the front to the back, whatever its key is by then.

* `IsHeap.map`: moving all keys in a monotone way keeps a heap.
* `IsHeap.of_sorted`, `sortingHeap`: a sorted list is a heap, so sorting is one way to meet the
  specification.
-/

namespace NUClear
namespace Foundation

universe u v

variable {α : Type u} {κ : Type v} [LinearOrder κ] {key : α → κ} {x y : α} {l l' : List α}

/-- No entry is before its parent. -/
def IsHeap (key : α → κ) (l : List α) : Prop :=
  ∀ (i : ℕ) (x y : α), 0 < i → l[i]? = some x → l[(i - 1) / 2]? = some y → key y ≤ key x

namespace IsHeap

theorem nil : IsHeap key ([] : List α) := by
  intro i x y _ hx
  exact absurd hx (by simp)

/-- **The front of a heap is before all other entries.** -/
theorem front_le (h : IsHeap key (x :: l)) (hy : y ∈ x :: l) : key x ≤ key y := by
  obtain ⟨i, hi⟩ := List.mem_iff_getElem?.mp hy
  induction i using Nat.strong_induction_on generalizing y with
  | _ i ih =>
    rcases Nat.eq_zero_or_pos i with rfl | hpos
    · rw [List.getElem?_cons_zero, Option.some.injEq] at hi
      rw [hi]
    · -- the parent is nearer to the front
      have hlt : (i - 1) / 2 < (x :: l).length := by
        have := (List.getElem?_eq_some_iff.mp hi).1
        omega
      obtain ⟨z, hz⟩ : ∃ z, (x :: l)[(i - 1) / 2]? = some z :=
        ⟨_, List.getElem?_eq_getElem hlt⟩
      have hle := ih ((i - 1) / 2) (by omega) (List.mem_of_getElem? hz) hz
      exact hle.trans (h i y z hpos hi hz)

/-- A heap stays one when the keys are moved in a monotone way. -/
theorem map (h : IsHeap key l) {f : α → α} (hf : ∀ x y, key x ≤ key y → key (f x) ≤ key (f y)) :
    IsHeap key (l.map f) := by
  intro i x y hi hx hy
  rw [List.getElem?_map, Option.map_eq_some_iff] at hx hy
  obtain ⟨x, hx, rfl⟩ := hx
  obtain ⟨y, hy, rfl⟩ := hy
  exact hf y x (h i x y hi hx hy)

/-- A sorted list is a heap. -/
theorem of_sorted (h : l.Pairwise fun x y => key x ≤ key y) : IsHeap key l := by
  intro i x y hi hx hy
  obtain ⟨hlt, rfl⟩ := List.getElem?_eq_some_iff.mp hx
  obtain ⟨hlt', rfl⟩ := List.getElem?_eq_some_iff.mp hy
  exact List.pairwise_iff_getElem.mp h _ _ hlt' hlt (by omega)

end IsHeap

/-- What the standard library promises of `make_heap`, `push_heap` and `pop_heap`: the entries are
the same ones, and they are a heap, with the front moved to the back by the last of the three. -/
structure HeapAlgorithms (key : α → κ) where
  makeHeap : List α → List α
  pushHeap : List α → List α
  popHeap : List α → List α
  makeHeap_perm : ∀ l, (makeHeap l).Perm l
  makeHeap_isHeap : ∀ l, IsHeap key (makeHeap l)
  pushHeap_perm : ∀ l, (pushHeap l).Perm l
  /-- The last entry joins the heap before it. -/
  pushHeap_isHeap : ∀ l x, IsHeap key l → IsHeap key (pushHeap (l ++ [x]))
  /-- The front goes to the back, and the others are a heap again. -/
  popHeap_spec : ∀ x y l, IsHeap key (y :: l) →
    ∃ l', popHeap (x :: l) = l' ++ [x] ∧ l'.Perm l ∧ IsHeap key l'

/-- Sort all that has to be a heap. -/
def sortingHeap (key : α → κ) : HeapAlgorithms key where
  makeHeap l := l.insertionSort fun x y => key x ≤ key y
  pushHeap l := l.insertionSort fun x y => key x ≤ key y
  popHeap
    | [] => []
    | x :: l => (l.insertionSort fun x y => key x ≤ key y) ++ [x]
  makeHeap_perm l := List.perm_insertionSort _ l
  makeHeap_isHeap l := .of_sorted (pairwise_insertionSort l)
  pushHeap_perm l := List.perm_insertionSort _ l
  pushHeap_isHeap l x _ := .of_sorted (pairwise_insertionSort _)
  popHeap_spec x _ l _ :=
    ⟨_, rfl, List.perm_insertionSort _ l, .of_sorted (pairwise_insertionSort l)⟩
where
  pairwise_insertionSort (l : List α) :
      (l.insertionSort fun x y => key x ≤ key y).Pairwise fun x y => key x ≤ key y := by
    have : Std.Total fun x y : α => key x ≤ key y := ⟨fun x y => le_total (key x) (key y)⟩
    have : IsTrans α fun x y => key x ≤ key y := ⟨fun _ _ _ => le_trans⟩
    exact List.pairwise_insertionSort _ l

end Foundation
end NUClear
