import Mathlib.Order.Basic
import Mathlib.Tactic.Common

/-!
# Binary search

`lowerBound p l` is the search of `std::lower_bound`: it halves a range until it is empty, and goes
on with the right half when the entry in the middle has `p`.  When the entries with `p` come before
those without (`Partitioned`), the result is the number of the former (`lowerBound_spec`).

The search is defined for every list, also when they do not: then it still looks at the middles of
the same halves, and what it finds depends on these entries only.  Code that searches a list which
is no longer sorted can therefore be followed step by step.

* `lowerBoundFrom_spec`: the search keeps the entries with `p` before its range and the others
  behind it; the induction is on the rounds.
* `lowerBound_map`: the search looks at the entries through `p` only.
-/

namespace NUClear
namespace Foundation

universe u

variable {α : Type u} (p : α → Bool) (l : List α)

/-- The search in the `len` entries from `first` on, in `fuel` rounds at most.  As many rounds as
entries are always enough. -/
def lowerBoundFrom : (fuel first len : ℕ) → ℕ
  | 0, first, _ => first
  | fuel + 1, first, len =>
      if len = 0 then first
      else
        let half := len / 2
        if l[first + half]?.any p then lowerBoundFrom fuel (first + half + 1) (len - half - 1)
        else lowerBoundFrom fuel first half

/-- `std::lower_bound`. -/
def lowerBound : ℕ := lowerBoundFrom p l l.length 0 l.length

variable {p l} {i j fuel first len : ℕ}

/-- The search looks at the entries through `p` only. -/
theorem lowerBound_map {β : Type u} (f : β → α) (l : List β) :
    lowerBound p (l.map f) = lowerBound (fun x => p (f x)) l := by
  have hfrom : ∀ fuel first len, lowerBoundFrom p (l.map f) fuel first len =
      lowerBoundFrom (fun x => p (f x)) l fuel first len := by
    intro fuel
    induction fuel with
    | zero => exact fun _ _ => rfl
    | succ fuel ih =>
      intro first len
      rw [lowerBoundFrom, lowerBoundFrom]
      dsimp only
      rw [List.getElem?_map, Option.any_map, ih, ih]
  rw [lowerBound, lowerBound, List.length_map, hfrom]

/-- The entries with `p` come first: no entry with `p` is behind one without. -/
def Partitioned (p : α → Bool) (l : List α) : Prop :=
  l.Pairwise fun x y => p y = true → p x = true

theorem Partitioned.of_le (h : Partitioned p l) {x y : α} (hi : l[i]? = some x)
    (hj : l[j]? = some y) (hij : i ≤ j) (hp : p y = true) : p x = true := by
  rcases Nat.lt_or_eq_of_le hij with hlt | rfl
  · obtain ⟨hi', rfl⟩ := List.getElem?_eq_some_iff.mp hi
    obtain ⟨hj', rfl⟩ := List.getElem?_eq_some_iff.mp hj
    exact List.pairwise_iff_getElem.mp h i j hi' hj' hlt hp
  · rw [hi, Option.some.injEq] at hj
    rwa [hj]

/-- The search keeps the entries with `p` before the range, and the others behind it. -/
theorem lowerBoundFrom_spec (h : Partitioned p l) (hlen : first + len ≤ l.length)
    (hfuel : len ≤ fuel) (hbefore : ∀ i x, i < first → l[i]? = some x → p x = true)
    (hbehind : ∀ i x, first + len ≤ i → l[i]? = some x → p x = false) :
    ∀ i x, l[i]? = some x → (p x = true ↔ i < lowerBoundFrom p l fuel first len) := by
  induction fuel generalizing first len with
  | zero =>
    intro i x hi
    obtain rfl : len = 0 := Nat.le_zero.mp hfuel
    rw [lowerBoundFrom]
    refine ⟨fun hp => ?_, fun hlt => hbefore i x hlt hi⟩
    by_contra hge
    exact absurd ((hbehind i x (by omega) hi).symm.trans hp) (by simp)
  | succ fuel ih =>
    rw [lowerBoundFrom]
    split_ifs with hzero
    · intro i x hi
      refine ⟨fun hp => ?_, fun hlt => hbefore i x hlt hi⟩
      by_contra hge
      exact absurd ((hbehind i x (by omega) hi).symm.trans hp) (by simp)
    · obtain ⟨y, hy⟩ : ∃ y, l[first + len / 2]? = some y :=
        ⟨_, List.getElem?_eq_getElem (by omega)⟩
      dsimp only
      rw [hy, Option.any_some]
      cases hmid : p y with
      | true =>
        -- the middle has `p`, and so have all before it
        rw [if_pos rfl]
        refine ih (by omega) (by omega) (fun i x hlt hi => ?_) fun i x hle hi => ?_
        · exact h.of_le hi hy (by omega) hmid
        · exact hbehind i x (by omega) hi
      | false =>
        -- the middle has not, and so has none behind it
        rw [if_neg (by simp)]
        refine ih (by omega) (by omega) hbefore fun i x hle hi => ?_
        refine Bool.eq_false_iff.mpr fun hp => ?_
        exact absurd (hmid.symm.trans (h.of_le hy hi hle hp)) (by simp)

/-- **The search finds where the entries with `p` end.** -/
theorem lowerBound_spec (h : Partitioned p l) {x : α} (hi : l[i]? = some x) :
    p x = true ↔ i < lowerBound p l := by
  refine lowerBoundFrom_spec h (by omega) (Nat.le_refl _) (fun i x hlt => ?_)
    (fun i x hle hi => ?_) i x hi
  · exact absurd hlt (Nat.not_lt_zero i)
  · have := (List.getElem?_eq_some_iff.mp hi).1
    omega

end Foundation
end NUClear
