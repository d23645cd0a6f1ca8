import Mathlib.Data.List.TakeWhile
import Mathlib.Order.Lattice
import Mathlib.Tactic.Common

/-!
# Multimaps

`std::multimap` keeps its entries in the order of their keys, and inserts an entry behind those with
the same key.  The order is a field of `Multimap`, so every map that can be written down is sorted,
and the operations carry the proof along.

So the entries of a key are in the order in which they were inserted (`equalRange_insert_self`), and
the entries of the other keys are not touched (`equalRange_insert_of_ne`).  `eraseFirst` is the
erasure of what `std::find_if` finds; when at most one entry is of the kind it is a filter
(`equalRange_eraseFirst`).

* `equalRange`: what lies between the lower and the upper bound of a key, as the library finds it.
* `equalRange_eq`: these are the entries of the key, in their order.  All other results are read off
  this one.
-/

namespace NUClear
namespace Foundation

universe u v

/-- A list that has at most one entry of a kind loses it with the first one. -/
theorem eraseP_eq_filter {α : Type u} {p : α → Bool} {l : List α}
    (h : l.Pairwise fun x y => p x = true → p y = false) : l.eraseP p = l.filter fun x => !p x := by
  induction l with
  | nil => rfl
  | cons x l ih =>
    obtain ⟨hx, hl⟩ := List.pairwise_cons.mp h
    by_cases hpx : p x = true
    · rw [List.eraseP_cons_of_pos hpx, List.filter_cons_of_neg (by rw [hpx]; decide)]
      refine (List.filter_eq_self.mpr fun y hy => ?_).symm
      rw [hx y hy hpx]
      rfl
    · rw [Bool.not_eq_true] at hpx
      rw [List.eraseP_cons_of_neg (by rw [hpx]; decide),
        List.filter_cons_of_pos (by rw [hpx]; rfl), ih hl]

/-- A `std::multimap`: its entries, with the proof that they are in the order of their keys. -/
structure Multimap (κ : Type u) (α : Type v) [LinearOrder κ] where
  entries : List (κ × α)
  sorted : entries.Pairwise fun x y => x.1 ≤ y.1

namespace Multimap

variable {κ : Type u} {α : Type v} [LinearOrder κ]

def empty : Multimap κ α := ⟨[], .nil⟩

def below (k : κ) (x : κ × α) : Bool := decide (x.1 < k)

def atMost (k : κ) (x : κ × α) : Bool := decide (x.1 ≤ k)

def hasKey (k : κ) (x : κ × α) : Bool := decide (x.1 = k)

section

variable {k : κ} {x : κ × α}

@[simp] theorem below_iff : below k x = true ↔ x.1 < k := decide_eq_true_iff

@[simp] theorem atMost_iff : atMost k x = true ↔ x.1 ≤ k := decide_eq_true_iff

@[simp] theorem hasKey_iff : hasKey k x = true ↔ x.1 = k := decide_eq_true_iff

end

/-- Behind the upper bound of a key are greater ones. -/
theorem lt_of_mem_dropWhile {l : List (κ × α)} (h : l.Pairwise fun x y => x.1 ≤ y.1) (k : κ) :
    ∀ x ∈ l.dropWhile (atMost k), k < x.1 := by
  induction l with
  | nil => exact fun _ hx => absurd hx List.not_mem_nil
  | cons y l ih =>
    obtain ⟨hy, hl⟩ := List.pairwise_cons.mp h
    by_cases hk : y.1 ≤ k
    · rw [List.dropWhile_cons_of_pos (atMost_iff.mpr hk)]
      exact ih hl
    · rw [List.dropWhile_cons_of_neg (mt atMost_iff.mp hk)]
      intro x hx
      rcases List.mem_cons.mp hx with rfl | hx
      · exact not_le.mp hk
      · exact (not_le.mp hk).trans_le (hy x hx)

/-- `insert`: at the upper bound of the key. -/
@[simps] def insert (m : Multimap κ α) (k : κ) (a : α) : Multimap κ α where
  entries := m.entries.takeWhile (atMost k) ++
    (k, a) :: m.entries.dropWhile (atMost k)
  sorted := by
    have hlow : ∀ x ∈ m.entries.takeWhile (atMost k), x.1 ≤ k := fun x hx =>
      atMost_iff.mp (List.mem_takeWhile_imp hx)
    have hhigh := lt_of_mem_dropWhile m.sorted k
    refine List.pairwise_append.mpr ⟨m.sorted.sublist (List.takeWhile_sublist _), ?_,
      fun x hx y hy => ?_⟩
    · exact List.pairwise_cons.mpr
        ⟨fun y hy => (hhigh y hy).le, m.sorted.sublist (List.dropWhile_sublist _)⟩
    · rcases List.mem_cons.mp hy with rfl | hy
      · exact hlow x hx
      · exact (hlow x hx).trans (hhigh y hy).le

/-- `equal_range`: from the lower bound of the key to the upper one. -/
def equalRange (m : Multimap κ α) (k : κ) : List α :=
  ((m.entries.dropWhile (below k)).takeWhile (atMost k)).map Prod.snd

/-- `erase`, of the first entry of a kind. -/
@[simps] def eraseFirst (m : Multimap κ α) (p : α → Bool) : Multimap κ α where
  entries := m.entries.eraseP fun x => p x.2
  sorted := m.sorted.sublist List.eraseP_sublist

variable {m : Multimap κ α} {k k' : κ} {a : α} {p : α → Bool}

/-- The entries of a key. -/
theorem range_eq_filter {l : List (κ × α)} (h : l.Pairwise fun x y => x.1 ≤ y.1) :
    (l.dropWhile (below k)).takeWhile (atMost k) = l.filter (hasKey k) := by
  induction l with
  | nil => rfl
  | cons y l ih =>
    obtain ⟨hy, hl⟩ := List.pairwise_cons.mp h
    rcases lt_trichotomy y.1 k with hlt | heq | hgt
    · rw [List.dropWhile_cons_of_pos (below_iff.mpr hlt),
        List.filter_cons_of_neg (mt hasKey_iff.mp hlt.ne), ih hl]
    · -- from here on no key is less, so nothing is dropped
      have hdrop : l.dropWhile (below k) = l := by
        cases l with
        | nil => rfl
        | cons z l =>
          exact List.dropWhile_cons_of_neg
            (mt below_iff.mp (heq.symm.le.trans (hy z (List.mem_cons_self ..))).not_gt)
      rw [List.dropWhile_cons_of_neg (mt below_iff.mp heq.not_lt),
        List.takeWhile_cons_of_pos (atMost_iff.mpr heq.le),
        List.filter_cons_of_pos (hasKey_iff.mpr heq), ← ih hl, hdrop]
    · rw [List.dropWhile_cons_of_neg (mt below_iff.mp hgt.not_gt),
        List.takeWhile_cons_of_neg (mt atMost_iff.mp hgt.not_ge),
        List.filter_cons_of_neg (mt hasKey_iff.mp hgt.ne')]
      exact (List.filter_eq_nil_iff.mpr fun x hx =>
        mt hasKey_iff.mp (hgt.trans_le (hy x hx)).ne').symm

theorem equalRange_eq : m.equalRange k = (m.entries.filter (hasKey k)).map Prod.snd := by
  rw [equalRange, range_eq_filter m.sorted]

theorem mem_equalRange : a ∈ m.equalRange k ↔ (k, a) ∈ m.entries := by
  rw [equalRange_eq, List.mem_map]
  constructor
  · rintro ⟨⟨k', a'⟩, hx, rfl⟩
    obtain ⟨hmem, hk⟩ := List.mem_filter.mp hx
    rwa [← hasKey_iff.mp hk]
  · intro h
    exact ⟨(k, a), List.mem_filter.mpr ⟨h, hasKey_iff.mpr rfl⟩, rfl⟩

theorem entries_insert_perm : (m.insert k a).entries.Perm ((k, a) :: m.entries) := by
  rw [insert_entries]
  exact List.perm_middle.trans (by rw [List.takeWhile_append_dropWhile])

/-- **A new entry is behind those of its key.** -/
theorem equalRange_insert_self : (m.insert k a).equalRange k = m.equalRange k ++ [a] := by
  have hhigh : (m.entries.dropWhile (atMost k)).filter (hasKey k) = [] :=
    List.filter_eq_nil_iff.mpr fun x hx =>
      mt hasKey_iff.mp (lt_of_mem_dropWhile m.sorted k x hx).ne'
  have hsplit : m.entries.filter (hasKey k) = (m.entries.takeWhile (atMost k)).filter
    (hasKey k) := by
    conv_lhs => rw [← List.takeWhile_append_dropWhile (p := atMost k) (l := m.entries)]
    rw [List.filter_append, hhigh, List.append_nil]
  rw [equalRange_eq, equalRange_eq, hsplit, insert_entries, List.filter_append,
    List.filter_cons_of_pos (hasKey_iff.mpr (show (k, a).1 = k from rfl)), hhigh, List.map_append]
  rfl

theorem equalRange_insert_of_ne (h : k ≠ k') : (m.insert k a).equalRange k' = m.equalRange k' := by
  rw [equalRange_eq, equalRange_eq, insert_entries, List.filter_append,
    List.filter_cons_of_neg (mt hasKey_iff.mp h), ← List.filter_append,
      List.takeWhile_append_dropWhile]

/-- **Erasure**, when at most one entry is of the kind. -/
theorem equalRange_eraseFirst (h : m.entries.Pairwise fun x y => p x.2 = true → p y.2 = false) :
    (m.eraseFirst p).equalRange k = (m.equalRange k).filter fun a => !p a := by
  rw [equalRange_eq, equalRange_eq, eraseFirst_entries, eraseP_eq_filter h, List.filter_filter,
    List.filter_map,
    List.filter_filter]
  exact congrArg _ (List.filter_congr fun x _ => Bool.and_comm ..)

end Multimap

end Foundation
end NUClear
