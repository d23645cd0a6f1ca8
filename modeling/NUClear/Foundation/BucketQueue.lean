import Mathlib.Data.List.FinRange
import Mathlib.Data.List.Perm.Basic
import Mathlib.Logic.Function.Basic
import Mathlib.Tactic.Common

/-!
# An array of first-in first-out queues

`n` queues, scanned from index `0` upward: an item is put at the end of the queue of its bucket, and
the first item of the first queue that is not empty is taken out.

* `Buckets.contents`: all items, in the order in which scanning takes them out.
* `Buckets.dequeueFirst_spec`, `Buckets.contents_of_dequeueFirst`: scanning takes the head of
  `contents`, which is the head of the first queue that is not empty, and leaves the others in their
  order.
* `Buckets.contents_enqueue_perm`, `Buckets.contents_dequeue_perm`: what one queue operation does to
  the items as a whole, up to their order.  Counts over all items are kept with these.
* `Buckets.InOrder`: every queue is in the order of the stamps of its items; scanning takes out an
  item that is ahead of all others (`Buckets.InOrder.dequeueFirst`).

An item is stamped when it is enqueued, with a number that grows; what goes back into a queue is
stamped anew.  So the order is that of the last time at which each item was enqueued, and nothing is
said about items of different queues but that the earlier queue is scanned first.
-/

namespace NUClear
namespace Foundation

universe u

variable {α : Type u} {n : ℕ}

/-- `n` queues, the first item of each at the head of its list. -/
abbrev Buckets (n : ℕ) (α : Type u) := Fin n → List α

namespace Buckets

/-- No item in any queue. -/
def empty : Buckets n α := fun _ => []

/-- Put an item at the end of queue `b`. -/
def enqueue (q : Buckets n α) (b : Fin n) (x : α) : Buckets n α :=
  Function.update q b (q b ++ [x])

/-- Replace queue `b`, after its first item has been taken out. -/
def setBucket (q : Buckets n α) (b : Fin n) (l : List α) : Buckets n α := Function.update q b l

/-- Scan the queues `bs` in order and take the first item of the first one that is not empty. -/
def scan (q : Buckets n α) : List (Fin n) → Option (Fin n × α × Buckets n α)
  | [] => none
  | b :: bs =>
      match q b with
      | [] => scan q bs
      | x :: l => some (b, x, q.setBucket b l)

/-- Take the first item of the first queue that is not empty. -/
def dequeueFirst (q : Buckets n α) : Option (Fin n × α × Buckets n α) := scan q (List.finRange n)

/-- All items, in the order in which scanning takes them out. -/
def contents (q : Buckets n α) : List α := (List.finRange n).flatMap q

@[simp] theorem contents_empty : (empty : Buckets n α).contents = [] := by
  rw [contents, List.flatMap_eq_nil_iff]
  exact fun _ _ => rfl

@[simp] theorem enqueue_self (q : Buckets n α) (b : Fin n) (x : α) :
    q.enqueue b x b = q b ++ [x] := by
  rw [enqueue, Function.update_self]

theorem enqueue_of_ne (q : Buckets n α) {b b' : Fin n} (x : α) (h : b' ≠ b) :
    q.enqueue b x b' = q b' := by
  rw [enqueue, Function.update_of_ne h]

@[simp] theorem setBucket_self (q : Buckets n α) (b : Fin n) (l : List α) :
    q.setBucket b l b = l := by
  rw [setBucket, Function.update_self]

theorem setBucket_of_ne (q : Buckets n α) {b b' : Fin n} (l : List α) (h : b' ≠ b) :
    q.setBucket b l b' = q b' := by
  rw [setBucket, Function.update_of_ne h]

theorem mem_contents {q : Buckets n α} {x : α} : x ∈ q.contents ↔ ∃ b, x ∈ q b := by
  simp only [contents, List.mem_flatMap, List.mem_finRange, true_and]

theorem contents_eq_nil_iff {q : Buckets n α} : q.contents = [] ↔ ∀ b, q b = [] := by
  simp only [contents, List.flatMap_eq_nil_iff, List.mem_finRange, true_implies]

/-! ## One queue operation and the items as a whole -/

/-- The queues before and after `b`, in scanning order. -/
theorem exists_finRange_split (b : Fin n) :
    ∃ l₁ l₂, List.finRange n = l₁ ++ b :: l₂ ∧ b ∉ l₁ ∧ b ∉ l₂ := by
  obtain ⟨l₁, l₂, h⟩ := List.append_of_mem (List.mem_finRange b)
  have hnd : (l₁ ++ b :: l₂).Nodup := h ▸ List.nodup_finRange n
  rw [List.nodup_append] at hnd
  refine ⟨l₁, l₂, h, fun hb => ?_, (List.nodup_cons.mp hnd.2.1).1⟩
  exact hnd.2.2 b hb b (List.mem_cons_self ..) rfl

/-- A queue that is not scanned does not show. -/
theorem flatMap_update_of_notMem (q : Buckets n α) {b : Fin n} {bs : List (Fin n)} (h : b ∉ bs)
    (l : List α) : bs.flatMap (Function.update q b l) = bs.flatMap q := by
  induction bs with
  | nil => rfl
  | cons c bs ih =>
    rw [List.mem_cons, not_or] at h
    rw [List.flatMap_cons, List.flatMap_cons, Function.update_of_ne (Ne.symm h.1), ih h.2]

/-- Replacing one queue replaces one stretch of the items. -/
theorem contents_update (q : Buckets n α) (b : Fin n) :
    ∃ before after, q.contents = before ++ q b ++ after ∧
      ∀ l, contents (Function.update q b l) = before ++ l ++ after := by
  obtain ⟨l₁, l₂, h, h₁, h₂⟩ := exists_finRange_split b
  refine ⟨l₁.flatMap q, l₂.flatMap q, ?_, fun l => ?_⟩
  · rw [contents, h, List.flatMap_append, List.flatMap_cons, List.append_assoc]
  · rw [contents, h, List.flatMap_append, List.flatMap_cons, flatMap_update_of_notMem q h₁,
      flatMap_update_of_notMem q h₂, Function.update_self, List.append_assoc]

/-- An enqueued item joins the items. -/
theorem contents_enqueue_perm (q : Buckets n α) (b : Fin n) (x : α) :
    (q.enqueue b x).contents.Perm (x :: q.contents) := by
  obtain ⟨before, after, h, hu⟩ := contents_update q b
  rw [enqueue, hu, h, ← List.append_assoc, List.append_assoc (before ++ q b)]
  exact @List.perm_middle _ x (before ++ q b) after

/-- A dequeued item leaves the items. -/
theorem contents_dequeue_perm {q : Buckets n α} {b : Fin n} {x : α} {l : List α}
    (h : q b = x :: l) : q.contents.Perm (x :: (q.setBucket b l).contents) := by
  obtain ⟨before, after, hq, hu⟩ := contents_update q b
  rw [setBucket, hu, hq, h, List.append_assoc, List.append_assoc, List.cons_append]
  exact List.perm_middle

/-! ## Scanning -/

theorem scan_eq_none_iff {q : Buckets n α} {bs : List (Fin n)} :
    scan q bs = none ↔ ∀ b ∈ bs, q b = [] := by
  induction bs with
  | nil => simp [scan]
  | cons c bs ih =>
    rw [scan, List.forall_mem_cons]
    cases hc : q c with
    | nil => simp only [ih, true_and]
    | cons x l => simp

/-- What scanning takes out: the first item of the first queue that is not empty. -/
theorem scan_eq_some {q q' : Buckets n α} {bs : List (Fin n)} {b : Fin n} {x : α}
    (h : scan q bs = some (b, x, q')) :
    ∃ l bs₁ bs₂, bs = bs₁ ++ b :: bs₂ ∧ (∀ c ∈ bs₁, q c = []) ∧ q b = x :: l ∧
      q' = q.setBucket b l := by
  induction bs with
  | nil => exact absurd h (by simp [scan])
  | cons c bs ih =>
    rw [scan] at h
    cases hc : q c with
    | nil =>
      rw [hc] at h
      obtain ⟨l, bs₁, bs₂, rfl, he, hb, hq⟩ := ih h
      refine ⟨l, c :: bs₁, bs₂, rfl, ?_, hb, hq⟩
      exact List.forall_mem_cons.mpr ⟨hc, he⟩
    | cons y l =>
      rw [hc] at h
      obtain ⟨rfl, rfl, rfl⟩ : c = b ∧ y = x ∧ q.setBucket c l = q' := by simpa using h
      exact ⟨l, [], bs, rfl, by simp, hc, rfl⟩

theorem dequeueFirst_eq_none_iff {q : Buckets n α} : q.dequeueFirst = none ↔ q.contents = [] := by
  rw [dequeueFirst, scan_eq_none_iff, contents_eq_nil_iff]
  simp only [List.mem_finRange, true_implies]

/-- **Scanning takes the head of the items**, and leaves the others in order. -/
theorem contents_of_dequeueFirst {q q' : Buckets n α} {b : Fin n} {x : α}
    (h : q.dequeueFirst = some (b, x, q')) : q.contents = x :: q'.contents := by
  obtain ⟨l, bs₁, bs₂, hbs, he, hb, rfl⟩ := scan_eq_some h
  have hnd : (bs₁ ++ b :: bs₂).Nodup := hbs ▸ List.nodup_finRange n
  have hb₁ : b ∉ bs₁ := fun hm =>
    (List.nodup_append.mp hnd).2.2 b hm b (List.mem_cons_self ..) rfl
  have hb₂ : b ∉ bs₂ := (List.nodup_cons.mp (List.nodup_append.mp hnd).2.1).1
  have hnil : bs₁.flatMap q = [] := List.flatMap_eq_nil_iff.mpr he
  rw [contents, contents, hbs, List.flatMap_append, List.flatMap_append, List.flatMap_cons,
    List.flatMap_cons, setBucket, flatMap_update_of_notMem q hb₁, flatMap_update_of_notMem q hb₂,
    Function.update_self, hnil, hb]
  rfl

/-- The bucket scanning takes from, and the buckets it passes. -/
theorem dequeueFirst_spec {q q' : Buckets n α} {b : Fin n} {x : α}
    (h : q.dequeueFirst = some (b, x, q')) :
    ∃ l, q b = x :: l ∧ q' = q.setBucket b l ∧ ∀ c < b, q c = [] := by
  obtain ⟨l, bs₁, bs₂, hbs, he, hb, hq⟩ := scan_eq_some h
  refine ⟨l, hb, hq, fun c hc => he c ?_⟩
  have hsorted : (bs₁ ++ b :: bs₂).Pairwise (· < ·) := hbs ▸ List.pairwise_lt_finRange n
  have hmem : c ∈ bs₁ ++ b :: bs₂ := hbs ▸ List.mem_finRange c
  rcases List.mem_append.mp hmem with hc₁ | hc₂
  · exact hc₁
  · rcases List.mem_cons.mp hc₂ with rfl | hc₂
    · exact absurd hc (lt_irrefl _)
    · have := (List.pairwise_cons.mp (List.pairwise_append.mp hsorted).2.1).1 c hc₂
      exact absurd hc (not_lt_of_gt this)

/-! ## Queues in order -/

section InOrder

variable {bucket : α → Fin n} {stamp : α → ℕ} {next : ℕ} {q q' : Buckets n α} {x : α} {b : Fin n}

/-- The first item goes before the second one: its bucket is scanned first, or it is in the same
bucket and was stamped earlier. -/
def Ahead (bucket : α → Fin n) (stamp : α → ℕ) (x y : α) : Prop :=
  bucket x < bucket y ∨ bucket x = bucket y ∧ stamp x < stamp y

/-- Every queue holds items of its bucket, in the order of their stamps, which are all below
`next`. -/
structure InOrder (bucket : α → Fin n) (stamp : α → ℕ) (next : ℕ) (q : Buckets n α) : Prop where
  sorted : ∀ b, (q b).Pairwise fun x y => stamp x < stamp y
  bucket : ∀ b, ∀ x ∈ q b, bucket x = b
  fresh : ∀ b, ∀ x ∈ q b, stamp x < next

theorem InOrder.empty : InOrder bucket stamp next empty :=
  ⟨fun _ => List.Pairwise.nil, fun _ _ hx => absurd hx (List.not_mem_nil),
    fun _ _ hx => absurd hx (List.not_mem_nil)⟩

/-- An item that is enqueued with the next stamp goes behind all others of its bucket. -/
theorem InOrder.enqueue (h : InOrder bucket stamp next q) (hx : stamp x = next) :
    InOrder bucket stamp (next + 1) (q.enqueue (bucket x) x) := by
  obtain ⟨h₁, h₂, h₃⟩ := h
  constructor <;> intro b <;> by_cases hb : b = bucket x
  · subst hb
    rw [enqueue_self, List.pairwise_append]
    refine ⟨h₁ _, List.pairwise_singleton _ _, fun y hy z hz => ?_⟩
    rw [List.mem_singleton.mp hz, hx]
    exact h₃ _ y hy
  · rw [enqueue_of_ne _ _ hb]
    exact h₁ b
  · subst hb
    intro y hy
    rw [enqueue_self] at hy
    rcases List.mem_append.mp hy with hy | hy
    · exact h₂ _ y hy
    · rw [List.mem_singleton.mp hy]
  · rw [enqueue_of_ne _ _ hb]
    exact h₂ b
  · subst hb
    intro y hy
    rw [enqueue_self] at hy
    rcases List.mem_append.mp hy with hy | hy
    · exact Nat.lt_succ_of_lt (h₃ _ y hy)
    · rw [List.mem_singleton.mp hy, hx]
      exact Nat.lt_succ_self _
  · intro y hy
    rw [enqueue_of_ne _ _ hb] at hy
    exact Nat.lt_succ_of_lt (h₃ b y hy)

/-- Scanning keeps the order, and **the item that it takes out is ahead of all that remain**. -/
theorem InOrder.dequeueFirst (h : InOrder bucket stamp next q)
    (hd : q.dequeueFirst = some (b, x, q')) :
    InOrder bucket stamp next q' ∧ ∀ y ∈ q'.contents, Ahead bucket stamp x y := by
  obtain ⟨h₁, h₂, h₃⟩ := h
  obtain ⟨l, hb, rfl, hnil⟩ := dequeueFirst_spec hd
  have hsub : ∀ b', ∀ y ∈ q.setBucket b l b', y ∈ q b' := by
    intro b' y hy
    by_cases hbb : b' = b
    · subst hbb
      rw [setBucket_self] at hy
      exact hb ▸ List.mem_cons_of_mem _ hy
    · rwa [setBucket_of_ne _ _ hbb] at hy
  have hsorted := h₁ b
  rw [hb, List.pairwise_cons] at hsorted
  refine ⟨⟨fun b' => ?_, fun b' y hy => h₂ b' y (hsub b' y hy),
    fun b' y hy => h₃ b' y (hsub b' y hy)⟩, fun y hy => ?_⟩
  · by_cases hbb : b' = b
    · subst hbb
      rw [setBucket_self]
      exact hsorted.2
    · rw [setBucket_of_ne _ _ hbb]
      exact h₁ b'
  · have hbucket : bucket x = b := h₂ b x (hb ▸ List.mem_cons_self ..)
    obtain ⟨b', hy⟩ := mem_contents.mp hy
    have hbucket' : bucket y = b' := h₂ b' y (hsub b' y hy)
    rw [Ahead, hbucket, hbucket']
    rcases lt_trichotomy b' b with hlt | rfl | hgt
    · -- the buckets before are empty
      have := hsub b' y hy
      rw [hnil b' hlt] at this
      exact absurd this (List.not_mem_nil)
    · rw [setBucket_self] at hy
      exact Or.inr ⟨rfl, hsorted.1 y hy⟩
    · exact Or.inl hgt

end InOrder

end Buckets

end Foundation
end NUClear
