import Mathlib.Data.List.Forall2
import Mathlib.Order.Basic
import Mathlib.Data.List.Lex

/-!
# Relevant arguments

A callback may take fewer arguments than the words of its `on` statement provide.
`RelevantArguments` walks over the types that are available, from left to right, and gives each one
that can be converted to the required type it waits for to that type.

This scan looks back at nothing, and still finds an increasing choice of available types if there is
any (`relevantArguments_least`).  Where another choice takes a later type first, the scan is ahead
of it from there on, whatever can be converted to what: nothing is asked of the relation.

* `OrderedInjection`: the indices give each required type, in order, an available one that can be
  converted to it.
* `relevantArguments_take`, `relevantArguments_skip`: one step of the scan, with the indices of the
  rest moved on by one.
* `OrderedInjection.tail`, `OrderedInjection.exists_skip`: what is left of a choice behind the first
  available type, taken or not.
* `relevantArguments_le`: the scan is ahead of every choice.  The induction is on the available
  types, and the required ones and the choice change with it.
* `relevantArguments_least`: the scan succeeds exactly when there is a choice, and its choice is the
  least one in the lexicographic order.
-/

namespace NUClear
namespace Util

variable {ρ α : Type} {convertible : α → ρ → Bool} {required : List ρ} {available : List α}
  {r : ρ} {a : α}
  {indices other : List ℕ} {i : ℕ}

/-- `RelevantArguments<Required, Available, Used, Index>::type`, and nothing when its assertion
fails that there are enough arguments. -/
def relevantArguments (convertible : α → ρ → Bool) : List ρ → List α → List ℕ → ℕ → Option (List ℕ)
  | [], _, used, _ => some used
  | _ :: _, [], _, _ => none
  | r :: required, a :: available, used, index =>
      if convertible a r then
        relevantArguments convertible required available (used ++ [index]) (index + 1)
      else relevantArguments convertible (r :: required) available used (index + 1)

/-- The indices give each required type, in order, an available one that can be converted to it. -/
structure OrderedInjection (convertible : α → ρ → Bool) (required : List ρ) (available : List α)
    (indices : List ℕ) : Prop where
  increasing : indices.Pairwise (· < ·)
  matched : List.Forall₂ (fun i r => ∃ a, available[i]? = some a ∧ convertible a r = true)
    indices required

/-! ## One step of the scan -/

/-- The scan of the rest, from its first index on: the indices are those of a scan from zero, moved.
-/
theorem relevantArguments_eq_map (convertible : α → ρ → Bool) (required : List ρ)
    (available : List α) (used : List ℕ) (index : ℕ) :
    relevantArguments convertible required available used index =
      (relevantArguments convertible required available [] 0).map fun s =>
        used ++ s.map (· + index) := by
  induction available generalizing required used index with
  | nil =>
    cases required with
    | nil => simp [relevantArguments]
    | cons r required => rfl
  | cons a available ih =>
    cases required with
    | nil => simp [relevantArguments]
    | cons r required =>
      rw [relevantArguments, relevantArguments]
      have hshift (s : List ℕ) : (s.map (· + (0 + 1))).map (· + index) =
        s.map (· + (index + 1)) := by
        rw [List.map_map]
        refine List.map_congr_left fun i _ => ?_
        show i + (0 + 1) + index = i + (index + 1)
        omega
      split
      · rw [ih required (used ++ [index]) (index + 1), ih required ([] ++ [0]) (0 + 1),
          Option.map_map]
        congr 1
        funext s
        simp [← hshift]
      · rw [ih (r :: required) used (index + 1), ih (r :: required) [] (0 + 1), Option.map_map]
        congr 1
        funext s
        simp [← hshift]

/-- An available type that fits is taken for the required type that is next. -/
theorem relevantArguments_take (h : convertible a r = true) :
    relevantArguments convertible (r :: required) (a :: available) [] 0 =
      (relevantArguments convertible required available [] 0).map fun s => 0 :: s.map (· + 1) := by
  rw [relevantArguments, if_pos h, relevantArguments_eq_map]
  rfl

/-- One that does not is passed over, and the same required type is next. -/
theorem relevantArguments_skip (h : convertible a r = false) :
    relevantArguments convertible (r :: required) (a :: available) [] 0 =
      (relevantArguments convertible (r :: required) available [] 0).map fun s =>
        s.map (· + 1) := by
  rw [relevantArguments, if_neg (by rw [h]; exact Bool.false_ne_true), relevantArguments_eq_map]
  rfl

/-! ## One step of a choice -/

namespace OrderedInjection

theorem nil (convertible : α → ρ → Bool) (available : List α) :
    OrderedInjection convertible [] available [] :=
  ⟨List.Pairwise.nil, List.Forall₂.nil⟩

theorem skip (h : OrderedInjection convertible required available indices) (a : α) :
    OrderedInjection convertible required (a :: available) (indices.map (· + 1)) where
  increasing := List.pairwise_map.mpr (h.increasing.imp Nat.succ_lt_succ)
  matched := List.forall₂_map_left_iff.mpr (h.matched.imp fun _ _ hi => hi)

theorem take (h : OrderedInjection convertible required available indices)
    (ha : convertible a r = true) :
    OrderedInjection convertible (r :: required) (a :: available) (0 :: indices.map (· + 1)) where
  increasing := List.pairwise_cons.mpr ⟨by simp, (h.skip a).increasing⟩
  matched := List.Forall₂.cons ⟨a, rfl, ha⟩ (h.skip a).matched

/-- A choice without the first available type is a choice from the others, moved by one. -/
theorem exists_skip (h : OrderedInjection convertible required (a :: available) indices)
    (hpos : ∀ i ∈ indices, 0 < i) :
    ∃ s, indices = s.map (· + 1) ∧ OrderedInjection convertible required available s := by
  have hs : indices = (indices.map (· - 1)).map (· + 1) := by
    rw [List.map_map]
    refine (List.map_id indices).symm.trans (List.map_congr_left fun i hi => ?_)
    have := hpos i hi
    show i = i - 1 + 1
    omega
  generalize indices.map (· - 1) = s at hs
  subst hs
  exact ⟨s, rfl, List.pairwise_map.mp h.increasing |>.imp Nat.lt_of_succ_lt_succ,
    (List.forall₂_map_left_iff.mp h.matched).imp fun _ _ hi => hi⟩

/-- What follows an index is a choice without the first available type. -/
theorem tail (h : OrderedInjection convertible (r :: required) (a :: available) (i :: indices)) :
    ∃ s, indices = s.map (· + 1) ∧ OrderedInjection convertible required available s := by
  have htail : OrderedInjection convertible required (a :: available) indices :=
    ⟨(List.pairwise_cons.mp h.increasing).2, (List.forall₂_cons.mp h.matched).2⟩
  exact htail.exists_skip fun j hj =>
    Nat.zero_lt_of_lt ((List.pairwise_cons.mp h.increasing).1 j hj)

/-- A first type that does not fit is not chosen. -/
theorem of_not_convertible
    (h : OrderedInjection convertible (r :: required) (a :: available) indices)
    (ha : convertible a r = false) :
    ∃ s, indices = s.map (· + 1) ∧ OrderedInjection convertible (r :: required) available s := by
  refine h.exists_skip ?_
  obtain ⟨increasing, matched⟩ := h
  cases matched with
  | @cons i _ s _ hi _ =>
    have hpos : 0 < i := by
      rcases Nat.eq_zero_or_pos i with rfl | hpos
      · obtain ⟨b, hb, hconv⟩ := hi
        obtain rfl : a = b := Option.some.inj hb
        exact absurd (ha.symm.trans hconv) Bool.false_ne_true
      · exact hpos
    intro j hj
    rcases List.mem_cons.mp hj with rfl | hj
    · exact hpos
    · exact hpos.trans ((List.pairwise_cons.mp increasing).1 j hj)

end OrderedInjection

/-! ## The scan -/

/-- What the scan gives is a choice: the indices increase, and each type can be converted. -/
theorem orderedInjection_of_relevantArguments
    (h : relevantArguments convertible required available [] 0 = some indices) :
    OrderedInjection convertible required available indices := by
  induction available generalizing required indices with
  | nil =>
    cases required with
    | nil =>
      obtain rfl : [] = indices := Option.some.inj h
      exact .nil convertible []
    | cons r required => exact absurd h (by simp [relevantArguments])
  | cons a available ih =>
    cases required with
    | nil =>
      obtain rfl : [] = indices := Option.some.inj h
      exact .nil convertible _
    | cons r required =>
      cases ha : convertible a r with
      | true =>
        rw [relevantArguments_take ha] at h
        obtain ⟨s, hs, rfl⟩ := Option.map_eq_some_iff.mp h
        exact (ih hs).take ha
      | false =>
        rw [relevantArguments_skip ha] at h
        obtain ⟨s, hs, rfl⟩ := Option.map_eq_some_iff.mp h
        exact (ih hs).skip a

/-- **The scan is ahead of every choice.**  When there is one, the scan gives one, and each of its
indices is at most that of the other. -/
theorem relevantArguments_le (h : OrderedInjection convertible required available other) :
    ∃ indices, relevantArguments convertible required available [] 0 = some indices ∧
      List.Forall₂ (· ≤ ·) indices other := by
  induction available generalizing required other with
  | nil =>
    obtain ⟨-, matched⟩ := h
    cases matched with
    | nil => exact ⟨[], rfl, .nil⟩
    | cons hi _ =>
      obtain ⟨a, ha, -⟩ := hi
      exact absurd ha (by simp)
  | cons a available ih =>
    cases required with
    | nil =>
      obtain ⟨-, matched⟩ := h
      cases matched
      exact ⟨[], rfl, .nil⟩
    | cons r required =>
      cases ha : convertible a r with
      | true =>
        -- the other choice may take this type too, or leave it out and take a later one
        rw [relevantArguments_take ha]
        cases other with
        | nil => exact absurd h.matched (by simp)
        | cons i other =>
          obtain ⟨s, rfl, hs⟩ := h.tail
          obtain ⟨t, ht, hle⟩ := ih hs
          rw [ht]
          refine ⟨_, rfl, .cons (Nat.zero_le i) ?_⟩
          exact List.forall₂_map_left_iff.mpr (List.forall₂_map_right_iff.mpr
            (hle.imp fun _ _ hij => Nat.succ_le_succ hij))
      | false =>
        rw [relevantArguments_skip ha]
        obtain ⟨s, rfl, hs⟩ := h.of_not_convertible ha
        obtain ⟨t, ht, hle⟩ := ih hs
        rw [ht]
        exact ⟨_, rfl, List.forall₂_map_left_iff.mpr (List.forall₂_map_right_iff.mpr
          (hle.imp fun _ _ hij => Nat.succ_le_succ hij))⟩

/-- What is at most another, index by index, is not after it in the lexicographic order. -/
theorem le_of_forall₂_le {s t : List ℕ} (h : List.Forall₂ (· ≤ ·) s t) : s ≤ t := by
  induction h with
  | nil => exact le_rfl
  | @cons i j s t hij _ ih =>
    rcases hij.lt_or_eq with hlt | rfl
    · exact le_of_lt (List.Lex.rel hlt)
    · rcases ih.lt_or_eq with hlt | rfl
      · exact le_of_lt (List.Lex.cons hlt)
      · exact le_rfl

/-- **Relevant argument matching.**  The indices cover all required arguments exactly when there is
an ordered injection, and then they are the least one. -/
theorem relevantArguments_least (convertible : α → ρ → Bool) (required : List ρ)
    (available : List α) :
    ((relevantArguments convertible required available [] 0).isSome ↔
      ∃ indices, OrderedInjection convertible required available indices) ∧
    ∀ indices ∈ relevantArguments convertible required available [] 0,
      OrderedInjection convertible required available indices ∧
        ∀ other, OrderedInjection convertible required available other → indices ≤ other := by
  refine ⟨⟨fun h => ?_, ?_⟩, fun indices h => ⟨orderedInjection_of_relevantArguments h, ?_⟩⟩
  · obtain ⟨indices, hindices⟩ := Option.isSome_iff_exists.mp h
    exact ⟨indices, orderedInjection_of_relevantArguments hindices⟩
  · rintro ⟨other, hother⟩
    obtain ⟨indices, hindices, -⟩ := relevantArguments_le hother
    exact Option.isSome_of_mem hindices
  · intro other hother
    obtain ⟨indices', hindices', hle⟩ := relevantArguments_le hother
    obtain rfl : indices = indices' := Option.some.inj (h.symm.trans hindices')
    exact le_of_forall₂_le hle

example : relevantArguments (fun a r : ℕ => a % r == 0) [2, 3] [5, 9, 4, 6, 3] [] 0 =
    some [2, 3] := by decide

end Util
end NUClear
