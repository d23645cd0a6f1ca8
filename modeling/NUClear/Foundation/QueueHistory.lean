import Mathlib.Data.List.Nodup

/-!
# Histories of a queue with numbered places

A queue hands out places in order: an enqueue is given the next place, puts its item there and
returns; a dequeue claims the first place that is not claimed, and takes the item when it is there.
A history is the list of what happened, latest first.  `Lawful` says when every event was allowed by
those before it, and the results are about lawful histories only:

* `Lawful.dequeues_nodup`: no item is dequeued twice.
* `Lawful.isClaimed_of_calledBefore`: the items of one producer are claimed in the order of its
  calls.

Producers call one enqueue after the other; `producer` says whose an item is.

## Counting

A history has so many places and so many claims (`places`, `claims`), and in a lawful one the places
are those below the first number and the claimed ones those below the second (`placed_lt`,
`claimed_iff`).  A place has one item and an item one place (`item_unique`, `place_unique`).  So an
implementation need only show that each of its steps emits events that are allowed; what a queue is
for follows from the counts.

`pending` is the queue as a list, the items whose places are not claimed; `pending_placed` and
`pending_claimed` say what an enqueue and a claim do to it.
-/

namespace NUClear
namespace Foundation

universe u v

/-- What happens at a queue: what producers do with an item, and what consumers find. -/
inductive QueueEvent (ι : Type u) where
  /-- An enqueue of `x` is called, by the producer of `x`. -/
  | called (x : ι)
  /-- It is given place `n`, where no other item will be. -/
  | placed (x : ι) (n : ℕ)
  /-- It returns. -/
  | enqueued (x : ι)
  /-- A dequeue claims place `n`, whose item may not be there yet. -/
  | claimed (n : ℕ)
  /-- A dequeue takes `x`. -/
  | dequeued (x : ι)
  /-- A dequeue finds nothing. -/
  | empty
  deriving DecidableEq, Repr

namespace QueueHistory

variable {ι : Type u} {π : Type v} {producer : ι → π} {h : List (QueueEvent ι)}
  {e : QueueEvent ι} {x y : ι}
  {n m : ℕ}

open QueueEvent

/-- The number of places that were given, which is the next place. -/
def places : List (QueueEvent ι) → ℕ
  | [] => 0
  | .placed _ _ :: h => places h + 1
  | _ :: h => places h

/-- The number of places that were claimed, which is the next place to claim. -/
def claims : List (QueueEvent ι) → ℕ
  | [] => 0
  | .claimed _ :: h => claims h + 1
  | _ :: h => claims h

theorem claims_le_append (es h : List (QueueEvent ι)) : claims h ≤ claims (es ++ h) := by
  induction es with
  | nil => exact Nat.le_refl _
  | cons e es ih =>
    cases e with
    | claimed n => exact Nat.le_trans ih (Nat.le_succ _)
    | _ => exact ih

theorem claims_append_of_not_mem {es : List (QueueEvent ι)} (hes : ∀ n, .claimed n ∉ es) :
    claims (es ++ h) = claims h := by
  induction es with
  | nil => rfl
  | cons e es ih =>
    have hrest := ih fun n hn => hes n (List.mem_cons_of_mem _ hn)
    cases e with
    | claimed n => exact absurd (List.mem_cons_self ..) (hes n)
    | _ => exact hrest

/-- The items that were dequeued, latest first as in the history. -/
def dequeues : List (QueueEvent ι) → List ι
  | [] => []
  | .dequeued x :: h => x :: dequeues h
  | _ :: h => dequeues h

/-- The items in the order of their places: the queue as a list, nothing taken. -/
def order : List (QueueEvent ι) → List ι
  | [] => []
  | .placed x _ :: h => order h ++ [x]
  | _ :: h => order h

/-- The items whose places are not claimed, the first one first. -/
def pending (h : List (QueueEvent ι)) : List ι := (order h).drop (claims h)

/-- What the dequeues returned, latest first: an item, or that there is none. -/
def results : List (QueueEvent ι) → List (Option ι)
  | [] => []
  | .dequeued x :: h => some x :: results h
  | .empty :: h => none :: results h
  | _ :: h => results h

/-- The call of `x` was before that of `y`, so that `x` is in the older part of the history. -/
def CalledBefore (x y : ι) : List (QueueEvent ι) → Prop
  | [] => False
  | e :: h => (e = .called y ∧ .called x ∈ h) ∨ CalledBefore x y h

/-- The place of `x` was claimed; the item may not have been taken from it yet. -/
def IsClaimed (x : ι) (h : List (QueueEvent ι)) : Prop := ∃ n, .placed x n ∈ h ∧ .claimed n ∈ h

/-- What may happen next, given what has happened: this is the specification that an implementation
has to meet, event by event. -/
inductive Allowed (producer : ι → π) (h : List (QueueEvent ι)) : QueueEvent ι → Prop
  | called {x : ι} (hnew : .called x ∉ h)
      (hprevious : ∀ y, .called y ∈ h → producer y = producer x → ∃ n, .placed y n ∈ h) :
      Allowed producer h (.called x)
  | placed {x : ι} (hcalled : .called x ∈ h) (hnew : ∀ n, .placed x n ∉ h) :
      Allowed producer h (.placed x (places h))
  | enqueued {x : ι} {n : ℕ} (hplaced : .placed x n ∈ h) : Allowed producer h (.enqueued x)
  | claimed (hlt : claims h < places h) : Allowed producer h (.claimed (claims h))
  | dequeued {x : ι} {n : ℕ} (hplaced : .placed x n ∈ h) (hclaimed : n < claims h)
      (henqueued : .enqueued x ∈ h) (hnew : .dequeued x ∉ h) : Allowed producer h (.dequeued x)
  | empty : Allowed producer h .empty

/-- Every event was allowed by those before it, from the empty history on. -/
inductive Lawful (producer : ι → π) : List (QueueEvent ι) → Prop
  | nil : Lawful producer []
  | cons {h : List (QueueEvent ι)} {e : QueueEvent ι} (hh : Lawful producer h)
      (he : Allowed producer h e) : Lawful producer (e :: h)

theorem mem_dequeues : x ∈ dequeues h ↔ .dequeued x ∈ h := by
  induction h with
  | nil => exact iff_of_false List.not_mem_nil List.not_mem_nil
  | cons e h ih => cases e <;> simp [dequeues, ih]

theorem length_order (h : List (QueueEvent ι)) : (order h).length = places h := by
  induction h with
  | nil => rfl
  | cons e h ih =>
    cases e with
    | placed x n => rw [order, List.length_append, ih, places, List.length_singleton]
    | _ => exact ih

namespace Lawful

theorem claims_le (hh : Lawful producer h) : claims h ≤ places h := by
  induction hh with
  | nil => exact Nat.le_refl 0
  | cons hh he ih =>
    cases he with
    | placed hcalled hnew => exact Nat.le_trans ih (Nat.le_succ _)
    | claimed hlt => exact hlt
    | _ => exact ih

/-- The places that were given are those below their number. -/
theorem placed_lt (hh : Lawful producer h) (hx : .placed x n ∈ h) : n < places h := by
  induction hh with
  | nil => exact absurd hx List.not_mem_nil
  | cons hh he ih =>
    cases he with
    | placed hcalled hnew =>
      obtain heq | hx := List.mem_cons.mp hx
      · cases heq
        exact Nat.lt_succ_self _
      · exact Nat.lt_succ_of_lt (ih hx)
    | _ => exact ih ((List.mem_cons.mp hx).resolve_left nofun)

theorem exists_placed (hh : Lawful producer h) (hn : n < places h) : ∃ x, .placed x n ∈ h := by
  induction hh with
  | nil => exact absurd hn (Nat.not_lt_zero n)
  | cons hh he ih =>
    cases he with
    | @placed x hcalled hnew =>
      obtain hlt | rfl := Nat.lt_succ_iff_lt_or_eq.mp hn
      · exact (ih hlt).imp fun x hx => List.mem_cons_of_mem _ hx
      · exact ⟨x, List.mem_cons_self ..⟩
    | _ => exact (ih hn).imp fun x hx => List.mem_cons_of_mem _ hx

/-- An item has one place, since only an item without a place is given one. -/
theorem place_unique (hh : Lawful producer h) (hn : .placed x n ∈ h) (hm : .placed x m ∈ h) :
    n = m := by
  induction hh with
  | nil => exact absurd hn List.not_mem_nil
  | cons hh he ih =>
    cases he with
    | placed hcalled hnew =>
      obtain heq | hn' := List.mem_cons.mp hn <;> obtain heq' | hm' := List.mem_cons.mp hm
      · cases heq
        cases heq'
        rfl
      · cases heq
        exact absurd hm' (hnew m)
      · cases heq'
        exact absurd hn' (hnew n)
      · exact ih hn' hm'
    | _ =>
      exact ih ((List.mem_cons.mp hn).resolve_left nofun) ((List.mem_cons.mp hm).resolve_left nofun)

/-- A place has one item, since the next place is a new one. -/
theorem item_unique (hh : Lawful producer h) (hx : .placed x n ∈ h) (hy : .placed y n ∈ h) :
    x = y := by
  induction hh with
  | nil => exact absurd hx List.not_mem_nil
  | cons hh he ih =>
    cases he with
    | placed hcalled hnew =>
      obtain heq | hx' := List.mem_cons.mp hx <;> obtain heq' | hy' := List.mem_cons.mp hy
      · cases heq
        cases heq'
        rfl
      · cases heq
        exact absurd (hh.placed_lt hy') (Nat.lt_irrefl _)
      · cases heq'
        exact absurd (hh.placed_lt hx') (Nat.lt_irrefl _)
      · exact ih hx' hy'
    | _ =>
      exact ih ((List.mem_cons.mp hx).resolve_left nofun) ((List.mem_cons.mp hy).resolve_left nofun)

theorem called_of_placed (hh : Lawful producer h) (hx : .placed x n ∈ h) : .called x ∈ h := by
  induction hh with
  | nil => exact absurd hx List.not_mem_nil
  | cons hh he ih =>
    cases he with
    | placed hcalled hnew =>
      obtain heq | hx := List.mem_cons.mp hx
      · cases heq
        exact List.mem_cons_of_mem _ hcalled
      · exact List.mem_cons_of_mem _ (ih hx)
    | _ => exact List.mem_cons_of_mem _ (ih ((List.mem_cons.mp hx).resolve_left nofun))

/-- What was enqueued has a place: an enqueue returns only after it was given one. -/
theorem placed_of_enqueued (hh : Lawful producer h) (hx : .enqueued x ∈ h) :
    ∃ n, .placed x n ∈ h := by
  induction hh with
  | nil => exact absurd hx List.not_mem_nil
  | cons hh he ih =>
    cases he with
    | enqueued hplaced =>
      obtain heq | hx := List.mem_cons.mp hx
      · cases heq
        exact ⟨_, List.mem_cons_of_mem _ hplaced⟩
      · exact (ih hx).imp fun n hn => List.mem_cons_of_mem _ hn
    | _ => exact (ih ((List.mem_cons.mp hx).resolve_left nofun)).imp fun n hn =>
      List.mem_cons_of_mem _ hn

theorem enqueued_of_dequeued (hh : Lawful producer h) (hx : .dequeued x ∈ h) : .enqueued x ∈ h := by
  induction hh with
  | nil => exact absurd hx List.not_mem_nil
  | cons hh he ih =>
    cases he with
    | dequeued hplaced hclaimed henqueued hnew =>
      obtain heq | hx := List.mem_cons.mp hx
      · cases heq
        exact List.mem_cons_of_mem _ henqueued
      · exact List.mem_cons_of_mem _ (ih hx)
    | _ => exact List.mem_cons_of_mem _ (ih ((List.mem_cons.mp hx).resolve_left nofun))

/-- The claimed places are the first, since places are claimed in order. -/
theorem claimed_iff (hh : Lawful producer h) : .claimed n ∈ h ↔ n < claims h := by
  induction hh with
  | nil => exact iff_of_false List.not_mem_nil (Nat.not_lt_zero n)
  | cons hh he ih =>
    cases he with
    | claimed hlt =>
      rw [List.mem_cons, ih, claims, Nat.lt_succ_iff_lt_or_eq, QueueEvent.claimed.injEq]
      exact or_comm
    | _ =>
      rw [List.mem_cons, ih]
      exact or_iff_right nofun

/-- A dequeued item has a place, which was claimed. -/
theorem claimed_of_dequeued (hh : Lawful producer h) (hx : .dequeued x ∈ h) :
    ∃ n, .placed x n ∈ h ∧ n < claims h := by
  induction hh with
  | nil => exact absurd hx List.not_mem_nil
  | cons hh he ih =>
    cases he with
    | dequeued hplaced hclaimed henqueued hnew =>
      obtain heq | hx := List.mem_cons.mp hx
      · cases heq
        exact ⟨_, List.mem_cons_of_mem _ hplaced, hclaimed⟩
      · exact (ih hx).imp fun n hn => ⟨List.mem_cons_of_mem _ hn.1, hn.2⟩
    | claimed hlt =>
      obtain ⟨n, hn, hlt⟩ := ih ((List.mem_cons.mp hx).resolve_left nofun)
      exact ⟨n, List.mem_cons_of_mem _ hn, Nat.lt_succ_of_lt hlt⟩
    | _ =>
      obtain ⟨n, hn, hlt⟩ := ih ((List.mem_cons.mp hx).resolve_left nofun)
      exact ⟨n, List.mem_cons_of_mem _ hn, hlt⟩

/-- **No item is dequeued twice**: by the law an item is taken only if it was not taken before. -/
theorem dequeues_nodup (hh : Lawful producer h) : (dequeues h).Nodup := by
  induction hh with
  | nil => exact List.nodup_nil
  | cons hh he ih =>
    cases he with
    | dequeued hplaced hclaimed henqueued hnew =>
      exact List.nodup_cons.mpr ⟨fun hx => hnew (mem_dequeues.mp hx), ih⟩
    | _ => exact ih

/-- A producer calls when the items that it enqueued before are placed. -/
theorem placed_of_calledBefore (hh : Lawful producer h) (hxy : CalledBefore x y h)
    (hp : producer x = producer y) : ∃ n, .placed x n ∈ h := by
  induction hh with
  | nil => exact hxy.elim
  | cons hh he ih =>
    obtain ⟨rfl, hx⟩ | hxy := hxy
    · cases he with
      | called hnew hprevious => exact (hprevious x hx hp).imp fun n hn => List.mem_cons_of_mem _ hn
    · exact (ih hxy).imp fun n hn => List.mem_cons_of_mem _ hn

/-- The items of one producer are placed in the order of its calls. -/
theorem place_lt_of_calledBefore (hh : Lawful producer h) (hxy : CalledBefore x y h)
    (hp : producer x = producer y) (hx : .placed x n ∈ h) (hy : .placed y m ∈ h) : n < m := by
  induction hh with
  | nil => exact hxy.elim
  | cons hh he ih =>
    cases he with
    | placed hcalled hnew =>
      replace hxy := hxy.resolve_left nofun
      obtain ⟨k, hk⟩ := hh.placed_of_calledBefore hxy hp
      obtain heq | hx' := List.mem_cons.mp hx
      · cases heq
        exact absurd hk (hnew k)
      · obtain heq | hy' := List.mem_cons.mp hy
        · cases heq
          exact hh.placed_lt hx'
        · exact ih hxy hx' hy'
    | called hnew hprevious =>
      replace hy := (List.mem_cons.mp hy).resolve_left nofun
      obtain ⟨heq, -⟩ | hxy := hxy
      · -- the item that is called has no place yet
        cases heq
        exact absurd (hh.called_of_placed hy) hnew
      · exact ih hxy ((List.mem_cons.mp hx).resolve_left nofun) hy
    | _ =>
      exact ih (hxy.resolve_left nofun) ((List.mem_cons.mp hx).resolve_left nofun)
        ((List.mem_cons.mp hy).resolve_left nofun)

/-- **The items of one producer are claimed in the order of its calls**: whenever one is claimed, so
are those before it. -/
theorem isClaimed_of_calledBefore (hh : Lawful producer h) (hxy : CalledBefore x y h)
    (hp : producer x = producer y) (hy : IsClaimed y h) : IsClaimed x h := by
  obtain ⟨m, hm, hclaimed⟩ := hy
  obtain ⟨n, hn⟩ := hh.placed_of_calledBefore hxy hp
  have hlt : n < m := hh.place_lt_of_calledBefore hxy hp hn hm
  exact ⟨n, hn, hh.claimed_iff.mpr (Nat.lt_trans hlt (hh.claimed_iff.mp hclaimed))⟩

theorem isClaimed_iff (hh : Lawful producer h) (hx : .placed x n ∈ h) :
    IsClaimed x h ↔ n < claims h := by
  constructor
  · rintro ⟨m, hm, hclaimed⟩
    rw [hh.place_unique hx hm]
    exact hh.claimed_iff.mp hclaimed
  · exact fun hlt => ⟨n, hx, hh.claimed_iff.mpr hlt⟩

theorem order_getElem? (hh : Lawful producer h) (hx : .placed x n ∈ h) :
    (order h)[n]? = some x := by
  induction hh with
  | nil => exact absurd hx List.not_mem_nil
  | cons hh he ih =>
    cases he with
    | placed hcalled hnew =>
      obtain heq | hx := List.mem_cons.mp hx
      · obtain ⟨rfl, rfl⟩ := QueueEvent.placed.inj heq
        rw [order, ← length_order, List.getElem?_concat_length]
      · have hlt := hh.placed_lt hx
        rw [← length_order] at hlt
        rw [order, List.getElem?_append_left hlt]
        exact ih hx
    | _ => exact ih ((List.mem_cons.mp hx).resolve_left nofun)

theorem pending_eq_nil_iff (hh : Lawful producer h) : pending h = [] ↔ claims h = places h := by
  rw [pending, List.drop_eq_nil_iff, length_order]
  exact ⟨fun hle => Nat.le_antisymm hh.claims_le hle, Nat.le_of_eq ∘ Eq.symm⟩

/-- An item that gets its place is the last that is pending. -/
theorem pending_placed (hh : Lawful producer h) (x : ι) (n : ℕ) :
    pending (.placed x n :: h) = pending h ++ [x] := by
  show (order h ++ [x]).drop (claims h) = _
  rw [List.drop_append_of_le_length (length_order h ▸ hh.claims_le)]
  rfl

/-- A claimed place is that of the first item that is pending. -/
theorem pending_claimed (hh : Lawful producer h) (hx : .placed x (claims h) ∈ h) :
    pending h = x :: pending (.claimed (claims h) :: h) := by
  obtain ⟨hlt, hget⟩ := List.getElem?_eq_some_iff.mp (hh.order_getElem? hx)
  show (order h).drop (claims h) = x :: (order h).drop (claims h + 1)
  rw [← hget, List.drop_eq_getElem_cons]

end Lawful

end QueueHistory

end Foundation
end NUClear
