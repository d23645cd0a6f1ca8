import Mathlib.Data.List.Basic
import Mathlib.Order.MinMax

/-!
# One deadline for many

A component keeps the earliest time at which it wants to be woken, and asks for a wake-up only when
a new deadline is earlier.  The wake-ups that it has asked for stay until they come.

Nothing moves the deadline that is kept when its wake-up comes.  So it may be behind all the
wake-ups that are pending, and then a later deadline is not asked for although nothing is pending
for it.  Whether a deadline is covered is therefore not a question about the deadline that is kept,
but about the wake-ups that are pending.

* `request`, `postpone`: a deadline that is asked for if it is earlier, or later, than the one that
  is kept.
* `Covers d`: a wake-up no later than `d` is pending.
* `Sole w d`: the wake-up `w` is the only one that is no later than `d`.  When it comes, `d` is no
  longer covered (`Covers.consume`).
* `covers_requestAll_iff`: what is covered after a list of requests.
* `mem_pending_requestAll`, `count_pending_requestAll`: requests leave the wake-ups that are
  pending, and ask for nothing that is not earlier than the deadline kept.
-/

namespace NUClear
namespace Foundation

universe u

/-- The deadline that is kept, and the wake-ups that were asked for and have not come. -/
structure Timer (τ : Type u) where
  next : τ
  pending : List τ
  deriving DecidableEq, Repr

namespace Timer

variable {τ : Type u} [LinearOrder τ]

/-- A wake-up is asked for if it is earlier. -/
def request (m : Timer τ) (d : τ) : Timer τ := if d < m.next then ⟨d, d :: m.pending⟩ else m

/-- A wake-up is asked for if it is later. -/
def postpone (m : Timer τ) (d : τ) : Timer τ := if m.next < d then ⟨d, d :: m.pending⟩ else m

def requestAll (m : Timer τ) (l : List τ) : Timer τ := l.foldl request m

/-- A wake-up comes. -/
def consume (m : Timer τ) (d : τ) : Timer τ := { m with pending := m.pending.erase d }

/-- A wake-up no later than `d` is pending. -/
def Covers (m : Timer τ) (d : τ) : Prop := ∃ w ∈ m.pending, w ≤ d

/-- The wake-up `w` is the only pending one that is no later than `d`. -/
def Sole (m : Timer τ) (w d : τ) : Prop := w ≤ d ∧ ∀ v ∈ m.pending.erase w, d < v

instance (m : Timer τ) (d : τ) : Decidable (m.Covers d) :=
  inferInstanceAs (Decidable (∃ w ∈ m.pending, w ≤ d))

instance (m : Timer τ) (w d : τ) : Decidable (m.Sole w d) :=
  inferInstanceAs (Decidable (_ ∧ ∀ v ∈ m.pending.erase w, d < v))

variable {m : Timer τ} {d e w : τ}

/-- A wake-up that is early enough for one deadline is so for a later one. -/
theorem Covers.mono (h : m.Covers d) (hle : d ≤ e) : m.Covers e :=
  h.imp fun _ hw => ⟨hw.1, hw.2.trans hle⟩

/-- What does not count on `w` alone is still covered when `w` has come. -/
theorem Covers.consume (h : m.Covers d) (hsole : ¬ m.Sole w d) : (m.consume w).Covers d := by
  obtain ⟨v, hv, hle⟩ := h
  by_cases heq : v = w
  · subst heq
    by_contra hnot
    exact hsole ⟨hle, fun u hu => lt_of_not_ge fun hud => hnot ⟨u, hu, hud⟩⟩
  · exact ⟨v, (List.mem_erase_of_ne heq).mpr hv, hle⟩

theorem Covers.postpone (h : m.Covers d) : (m.postpone e).Covers d := by
  rw [Timer.postpone]
  split_ifs
  · exact h.imp fun _ hw => ⟨List.mem_cons_of_mem _ hw.1, hw.2⟩
  · exact h

theorem pending_postpone (h : m.next < d) : (m.postpone d).pending = d :: m.pending := by
  rw [Timer.postpone, if_pos h]

theorem next_postpone (h : m.next < d) : (m.postpone d).next = d := by
  rw [Timer.postpone, if_pos h]

theorem covers_request_iff : (m.request e).Covers d ↔ m.Covers d ∨ e < m.next ∧ e ≤ d := by
  rw [request]
  split_ifs with h
  · constructor
    · rintro ⟨w, hw, hle⟩
      rcases List.mem_cons.mp hw with rfl | hw
      · exact .inr ⟨h, hle⟩
      · exact .inl ⟨w, hw, hle⟩
    · rintro (⟨w, hw, hle⟩ | ⟨-, hle⟩)
      · exact ⟨w, List.mem_cons_of_mem _ hw, hle⟩
      · exact ⟨e, List.mem_cons_self, hle⟩
  · exact ⟨.inl, fun hor => hor.resolve_right fun hlt => h hlt.1⟩

theorem next_request : (m.request e).next = min e m.next := by
  rw [request]
  split_ifs with h
  · exact (min_eq_left h.le).symm
  · exact (min_eq_right (not_lt.mp h)).symm

/-- **What is covered after a list of requests**: what was, and what one of them is early enough
for. -/
theorem covers_requestAll_iff {l : List τ} :
    (m.requestAll l).Covers d ↔ m.Covers d ∨ ∃ e ∈ l, e < m.next ∧ e ≤ d := by
  induction l generalizing m with
  | nil => exact ⟨.inl, fun hor => hor.resolve_right fun ⟨_, he, _⟩ => List.not_mem_nil he⟩
  | cons a l ih =>
    rw [requestAll, List.foldl_cons, ← requestAll, ih, covers_request_iff, next_request]
    constructor
    · rintro ((hcovers | ha) | ⟨e, he, hlt, hle⟩)
      · exact .inl hcovers
      · exact .inr ⟨a, List.mem_cons_self, ha⟩
      · exact .inr ⟨e, List.mem_cons_of_mem _ he, (lt_min_iff.mp hlt).2, hle⟩
    · rintro (hcovers | ⟨e, he, hlt, hle⟩)
      · exact .inl (.inl hcovers)
      · rcases List.mem_cons.mp he with rfl | he
        · exact .inl (.inr ⟨hlt, hle⟩)
        · -- one that is not asked for any more comes after `a`, which was
          rcases lt_or_ge e a with hea | hae
          · exact .inr ⟨e, he, lt_min hea hlt, hle⟩
          · exact .inl (.inr ⟨hae.trans_lt hlt, hae.trans hle⟩)

theorem Covers.requestAll (h : m.Covers d) (l : List τ) : (m.requestAll l).Covers d :=
  covers_requestAll_iff.mpr (.inl h)

theorem next_requestAll_le (m : Timer τ) (l : List τ) : (m.requestAll l).next ≤ m.next := by
  induction l generalizing m with
  | nil => exact le_rfl
  | cons a l ih =>
    rw [Timer.requestAll, List.foldl_cons, ← Timer.requestAll]
    exact (ih (m.request a)).trans (next_request.trans_le (min_le_right a m.next))

/-- Requests leave the wake-ups that are pending. -/
theorem mem_pending_requestAll_of_mem {l : List τ} (h : d ∈ m.pending) :
    d ∈ (m.requestAll l).pending := by
  induction l generalizing m with
  | nil => exact h
  | cons a l ih =>
    rw [Timer.requestAll, List.foldl_cons, ← Timer.requestAll]
    refine ih ?_
    rw [request]
    split_ifs
    · exact List.mem_cons_of_mem _ h
    · exact h

/-- What is pending after a list of requests was pending, or is earlier than the deadline kept. -/
theorem mem_pending_requestAll {l : List τ} (h : d ∈ (m.requestAll l).pending) :
    d ∈ m.pending ∨ d < m.next := by
  induction l generalizing m with
  | nil => exact .inl h
  | cons a l ih =>
    rw [Timer.requestAll, List.foldl_cons, ← Timer.requestAll] at h
    rcases ih h with hmem | hlt
    · rw [request] at hmem
      split_ifs at hmem with ha
      · rcases List.mem_cons.mp hmem with rfl | hmem
        · exact .inr ha
        · exact .inl hmem
      · exact .inl hmem
    · exact .inr (hlt.trans_le (next_request.trans_le (min_le_right a m.next)))

/-- A deadline that is not earlier than the one kept is as often pending after requests as
before. -/
theorem count_pending_requestAll {l : List τ} (h : m.next ≤ d) :
    (m.requestAll l).pending.count d = m.pending.count d := by
  induction l generalizing m with
  | nil => rfl
  | cons a l ih =>
    rw [Timer.requestAll, List.foldl_cons, ← Timer.requestAll,
      ih (next_request.trans_le ((min_le_right a m.next).trans h)), request]
    split_ifs with ha
    · exact List.count_cons_of_ne (ha.trans_le h).ne
    · rfl

end Timer

end Foundation
end NUClear
