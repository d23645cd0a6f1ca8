import Mathlib.Data.List.Basic

/-!
# Sequences that define what they refer to

A record may define names and refer to names.  A sequence of records is closed when every record
refers only to names that an earlier record, or the record itself, defines.  A reader that goes
through such a sequence once, and keeps what it has seen defined, never meets a name that it does
not know.

* `Closed defines refers known l`: `l` is closed when the names in `known` are defined already.
* `closed_append`: a closed sequence is continued by what is closed after it.  A writer that appends
  one record after the other keeps its output closed when each record that it appends is.
* `Closed.of_append`: what comes before a record of a closed sequence is closed, too, so a sequence
  that is not closed stays so.
-/

namespace NUClear
namespace Foundation

universe u v

section

variable {α : Type u} {ν : Type v} (defines refers : α → List ν)

/-- Every name that is referred to is in `known`, or defined by then: by an earlier record, or by
the record that refers to it. -/
def Closed : List ν → List α → Prop
  | _, [] => True
  | known, a :: l => refers a ⊆ known ++ defines a ∧ Closed (known ++ defines a) l

instance decidableClosed [DecidableEq ν] : ∀ known l, Decidable (Closed defines refers known l)
  | _, [] => .isTrue trivial
  | known, a :: l =>
      have := decidableClosed (known ++ defines a) l
      inferInstanceAs (Decidable (refers a ⊆ known ++ defines a ∧ Closed defines refers _ l))

variable {defines refers} {known known' : List ν} {a : α} {l l' : List α}

theorem closed_append : Closed defines refers known (l ++ l') ↔
    Closed defines refers known l ∧ Closed defines refers (known ++ l.flatMap defines) l' := by
  induction l generalizing known with
  | nil => simp [Closed]
  | cons a l ih =>
    rw [List.cons_append, Closed, Closed, ih, and_assoc, List.flatMap_cons, List.append_assoc]

theorem closed_singleton : Closed defines refers known [a] ↔ refers a ⊆ known ++ defines a :=
  and_iff_left trivial

theorem Closed.mono (h : Closed defines refers known l) (hknown : known ⊆ known') :
    Closed defines refers known' l := by
  induction l generalizing known known' with
  | nil => trivial
  | cons a l ih =>
    have hmore : known ++ defines a ⊆ known' ++ defines a := fun r hr =>
      List.mem_append.mpr ((List.mem_append.mp hr).imp_left fun h => hknown h)
    exact ⟨fun r hr => hmore (h.1 hr), ih h.2 hmore⟩

/-- What comes before it is closed too. -/
theorem Closed.of_append (h : Closed defines refers known (l ++ l')) :
    Closed defines refers known l :=
  (closed_append.mp h).1

end

end Foundation
end NUClear
