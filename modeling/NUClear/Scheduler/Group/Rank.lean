import Mathlib.Data.List.Sort
import Mathlib.Data.Prod.Lex
import NUClear.Scheduler.Group.Handles

/-!
# The order of the slow-path queue

`operator<` on lock handles is the order of their ranks: a higher priority first, then a lower task
id.  Every call keeps the queue sorted by rank (`Ranked.perform`), and in a sorted queue a handle is
counted for by no more than the later ones are (`demand_le_of_rank_lt`).  So what would lock in its
place would lock before it (`wouldLock_of_rank_lt`).

A new handle is inserted by `std::lower_bound`, which in a sorted queue is Mathlib's `orderedInsert`
(`insertHandle_eq_orderedInsert`): it comes before the handles of the same rank or behind it.  It is
therefore no matter to the handles in front of it (`demand_lock_of_rank_lt`), and counts once for
the others (`demand_lock_le`).

`demand_of_first` is what the absence of deadlocks rests on: the first unlocked handle of a sorted
queue is counted alone, so one free token lets it lock.
-/

namespace NUClear
namespace Scheduler

open Foundation

/-- Where a handle stands in the order: a higher priority is first, and among equals the earlier
task. -/
def LockHandle.rank (h : LockHandle) : ℤ ×ₗ ℕ := toLex (-h.priority, h.taskId)

theorem LockHandle.before_iff {lhs rhs : LockHandle} :
    lhs.before rhs = true ↔ lhs.rank < rhs.rank := by
  rw [before, rank, rank, Prod.Lex.toLex_lt_toLex]
  split_ifs with h
  · simp [h]
  · simp only [decide_eq_true_eq]
    omega

namespace Group

variable {c : ℕ} {g g' : Group} {ev : List Event} {h : ℕ → LockHandle} {n r s : ℕ} {q : List ℕ}

/-! ## Sorted queues -/

/-- Two handles in the order of their ranks. -/
def RankLe (h : ℕ → LockHandle) (x y : ℕ) : Prop := (h x).rank ≤ (h y).rank

instance (h : ℕ → LockHandle) : IsTrans ℕ (RankLe h) := ⟨fun _ _ _ => le_trans⟩

instance (h : ℕ → LockHandle) : Std.Total (RankLe h) := ⟨fun _ _ => le_total _ _⟩

instance (h : ℕ → LockHandle) : DecidableRel (RankLe h) := fun x y =>
  inferInstanceAs (Decidable ((h x).rank ≤ (h y).rank))

/-- The queue is sorted: no handle stands in front of one of a higher rank. -/
def Ranked (g : Group) : Prop := g.queue.Pairwise (RankLe g.handles)

/-- `std::lower_bound` finds the place of the handle, the one at which an ordered insertion puts it.
-/
theorem insertHandle_eq_orderedInsert (r : ℕ) (q : List ℕ) :
    insertHandle h r q = q.orderedInsert (RankLe h) r := by
  have hp : (fun x => (h x).before (h r)) = fun x => decide (¬ RankLe h r x) := by
    ext x
    rw [Bool.eq_iff_iff, LockHandle.before_iff, decide_eq_true_eq, RankLe, not_le]
  rw [List.orderedInsert_eq_take_drop, insertHandle, hp]

theorem pairwise_insertHandle (hq : q.Pairwise (RankLe h)) :
    (insertHandle h r q).Pairwise (RankLe h) := by
  rw [insertHandle_eq_orderedInsert]
  exact hq.orderedInsert r q

theorem pairwise_rankLe_congr {h' : ℕ → LockHandle} (hr : ∀ x ∈ q, (h' x).rank = (h x).rank)
    (hq : q.Pairwise (RankLe h)) : q.Pairwise (RankLe h') := by
  refine hq.imp_of_mem fun {x y} hx hy hle => ?_
  rwa [RankLe, hr x hx, hr y hy]

theorem Kept.rank (hk : Kept g g' ev r) : (g'.handles r).rank = (g.handles r).rank := by
  rw [LockHandle.rank, LockHandle.rank, hk.priority, hk.taskId]

theorem lock_rank (a : LockArgs) (r : ℕ) :
    ((g.lock a).handles r).rank = (g.lockHandles a r).rank := by
  rw [lock_handles_eq, LockHandle.rank, LockHandle.rank]

theorem lockHandles_sorted {a : LockArgs} (hc : Quiet c g) (hr : Ranked g) :
    g.queue.Pairwise (RankLe (g.lockHandles a)) :=
  pairwise_rankLe_congr (fun x hx => by
    rw [lockHandles_of_ne]
    rintro rfl
    exact hc.notMem_nextHandle hx) hr

/-- The rank of a handle is for ever. -/
theorem handleLock_rank (hr : r ∈ g.queue) (s : ℕ) (hc : Quiet c g) (hs : s ∈ g.queue) :
    ((g.handleLock r).1.handles s).rank = (g.handles s).rank := by
  by_cases hne : s = r
  · subst hne
    obtain ⟨-, -, -, hid, hprio, -⟩ := handleLock_self hr
    rw [LockHandle.rank, LockHandle.rank, hid, hprio]
  · exact (kept_of_handleLock [] hc hs hr hne).rank

/-- **Every call keeps the queue sorted.**  Only `Group::lock` inserts, at the place that
`std::lower_bound` finds; the rank of a handle never changes. -/
theorem Ranked.perform {call : Call} (hc : Quiet c g) (hg : Ranked g)
    (hp : g.perform call = some (g', ev)) : Ranked g' := by
  rw [Ranked]
  by_cases hfast : call.isFast = true
  · rw [queue_of_fast hc hfast hp]
    exact pairwise_rankLe_congr (fun x hx => (kept_of_fast call hc hfast hp hx).rank) hg
  · cases call with
    | tryAcquireRunningLock | trySubmit w | runningDestroy => exact absurd rfl hfast
    | lock a =>
      obtain ⟨rfl, rfl⟩ := perform_lock hp
      rw [lock_queue]
      exact pairwise_rankLe_congr (fun x _ => lock_rank a x)
        (pairwise_insertHandle (lockHandles_sorted hc hg))
    | handleLock r =>
      obtain ⟨hr, rfl, rfl⟩ := perform_handleLock hp
      rw [handleLock_queue]
      exact pairwise_rankLe_congr (fun x hx => handleLock_rank hr x hc hx) hg
    | handleDestroy r =>
      obtain ⟨hr, hp⟩ := perform_handleDestroy hp
      have hq := handleDestroy_queue g r
      have hk := fun s hs hne => kept_of_handleDestroy (s := s) hc hs hr hne
      rw [hp] at hq hk
      rw [show g'.queue = _ from hq]
      refine pairwise_rankLe_congr (fun x hx => ?_) (hg.sublist List.erase_sublist)
      obtain ⟨hne, hx⟩ := hc.nodup.mem_erase_iff.mp hx
      exact (hk x hx hne).rank

theorem ranked_make (c : ℕ) : Ranked (make c) := List.Pairwise.nil

/-! ## What is counted in a sorted queue -/

/-- In a sorted queue the later handle is counted for by at least as much. -/
theorem demand_le_of_rank_lt (hq : q.Pairwise (RankLe h)) (hr : r ∈ q) (hs : s ∈ q)
    (hlt : (h r).rank < (h s).rank) : demand h r q ≤ demand h s q := by
  induction q with
  | nil => exact absurd hr (List.not_mem_nil)
  | cons x q ih =>
    obtain ⟨hx, hq⟩ := List.pairwise_cons.mp hq
    rw [demand, demand]
    by_cases hxr : x = r
    · have := @demand_nonneg h s q
      rw [if_pos hxr]
      split_ifs <;> omega
    · have hr' : r ∈ q := (List.mem_cons.mp hr).resolve_left (Ne.symm hxr)
      have hxs : x ≠ s := by
        rintro rfl
        exact absurd (hx r hr') (not_le.mpr hlt)
      have hs' : s ∈ q := (List.mem_cons.mp hs).resolve_left (Ne.symm hxs)
      have := ih hq hr' hs'
      rw [if_neg hxr, if_neg hxs]
      omega

/-- So what would lock in its place would lock before it. -/
theorem wouldLock_of_rank_lt (hg : Ranked g) (hr : r ∈ g.queue) (hs : s ∈ g.queue)
    (hsl : (g.handles s).locked = false) (hlt : (g.handles r).rank < (g.handles s).rank)
    (hw : wouldLock g s = true) : wouldLock g r = true := by
  cases hrl : (g.handles r).locked with
  | true => exact wouldLock_of_locked hrl
  | false =>
    rw [wouldLock_iff hs hsl] at hw
    rw [wouldLock_iff hr hrl]
    exact (demand_le_of_rank_lt hg hr hs hlt).trans hw

theorem demand_insert_of_mem {p : List ℕ} (hr : r ∈ p) :
    demand h r (p ++ n :: q) = demand h r (p ++ q) := by
  induction p with
  | nil => exact absurd hr (List.not_mem_nil)
  | cons x p ih =>
    rw [List.cons_append, List.cons_append, demand, demand]
    by_cases hx : x = r
    · rw [if_pos hx, if_pos hx]
    · rw [if_neg hx, if_neg hx, ih ((List.mem_cons.mp hr).resolve_left (Ne.symm hx))]

theorem demand_insert_le (p : List ℕ) : demand h r (p ++ n :: q) ≤ demand h r (p ++ q) + 1 := by
  induction p with
  | nil =>
    have := @weight_le_one h n
    have := @demand_nonneg h r q
    rw [List.nil_append, List.nil_append, demand]
    split_ifs <;> omega
  | cons x p ih =>
    rw [List.cons_append, List.cons_append, demand, demand]
    split_ifs <;> omega

/-- The handles of lower rank than the new one are in front of it. -/
theorem mem_takeWhile_of_rank_lt (hq : q.Pairwise (RankLe h)) (hr : r ∈ q)
    (hlt : (h r).rank < (h n).rank) : r ∈ q.takeWhile fun x => (h x).before (h n) := by
  induction q with
  | nil => exact absurd hr (List.not_mem_nil)
  | cons x q ih =>
    obtain ⟨hx, hq⟩ := List.pairwise_cons.mp hq
    have hxn : (h x).before (h n) = true := by
      rw [LockHandle.before_iff]
      rcases List.mem_cons.mp hr with rfl | hr
      · exact hlt
      · exact lt_of_le_of_lt (hx r hr) hlt
    rw [List.takeWhile_cons, if_pos hxn]
    rcases List.mem_cons.mp hr with rfl | hr
    · exact List.mem_cons_self ..
    · exact List.mem_cons_of_mem _ (ih hq hr)

section Lock

variable {a : LockArgs} (hc : Quiet c g)
include hc

/-- A new handle is counted once at most. -/
theorem demand_lock_le (r : ℕ) :
    demand (g.lock a).handles r (g.lock a).queue ≤ demand g.handles r g.queue + 1 := by
  rw [demand_lock_handles, ← demand_lockHandles hc (a := a), lock_queue, insertHandle]
  refine (demand_insert_le _).trans ?_
  rw [List.takeWhile_append_dropWhile]

/-- A new handle is not counted by those in front of it. -/
theorem demand_lock_of_rank_lt (hg : Ranked g) (hr : r ∈ g.queue)
    (hlt : (g.handles r).rank < (g.lockHandles a g.nextHandle).rank) :
    demand (g.lock a).handles r (g.lock a).queue = demand g.handles r g.queue := by
  have hne : r ≠ g.nextHandle := by
    rintro rfl
    exact hc.notMem_nextHandle hr
  rw [demand_lock_handles, ← demand_lockHandles hc (a := a), lock_queue, insertHandle,
    demand_insert_of_mem, List.takeWhile_append_dropWhile]
  refine mem_takeWhile_of_rank_lt (lockHandles_sorted hc hg) hr ?_
  rwa [lockHandles_of_ne g a hne]

end Lock

/-- The first of a sorted queue is counted alone. -/
theorem demand_of_first (hq : q.Pairwise (RankLe h)) (hr : r ∈ q) (hl : (h r).locked = false)
    (hfirst : ∀ x ∈ q, x ≠ r → (h r).rank < (h x).rank) : demand h r q = 1 := by
  cases q with
  | nil => exact absurd hr (List.not_mem_nil)
  | cons x q =>
    have hxr : x = r := by
      by_contra hne
      have hrq : r ∈ q := (List.mem_cons.mp hr).resolve_left (Ne.symm hne)
      have hlt := hfirst x (List.mem_cons_self ..) hne
      exact absurd ((List.pairwise_cons.mp hq).1 r hrq) (not_le.mpr hlt)
    rw [demand, if_pos hxr, hxr, weight_of_not_locked hl, add_zero]

end Group

end Scheduler
end NUClear
