import NUClear.Foundation.BucketQueue
import NUClear.Scheduler.Priority
import Mathlib.Algebra.Order.Ring.Int
import Mathlib.Data.List.Nodup

/-!
# The state of a group (`Group.hpp`)

A group admits at most `concurrency` of its tasks at a time.  It has two sides.

* The **fast path** is lock-free: an integer `tokens`, which goes negative when parked tasks have
  reserved a token, and one FIFO queue of parked tasks for each priority bucket.  A task that runs
  holds a `RunningLock`; the model counts these objects.  Each parked task has an arbiter `slot`, an
  atomic flag shared with whoever drains it.
* The **slow path** is a vector of lock handles sorted by priority, under a mutex, with
  `slowPending` counting the handles.

The handles are heap objects that the vector and the `GroupLock`s point to, so the model keeps them
in a store indexed by their identity; the arbiter flags likewise.  An identity is never used twice.

## The loops

The second half of the file is about the three loops over the vector (`~GroupLock`,
`GroupLock::lock`, `Group::lock`).  They all count down `tokens` by the unlocked handles, and
`demand` is what they have counted when they reach a handle.  Each loop is one comparison of the
tokens with the demand of a handle:

* `lockWalk_eq_true_iff`: `GroupLock::lock` succeeds when the tokens cover the demand of its handle.
* `mem_toNotify_iff`: the notification loop picks the handles for which that is so and that have not
  been told.
* `mem_toReset_iff`: the reset loop picks those for which it is not.

So the proofs about handles speak of `demand` and of `wouldLock`, never of a loop.
-/

namespace NUClear
namespace Scheduler

open Foundation

/-- The identity of a pool (a `Pool*`), which a group only hands on. -/
abbrev PoolId := ℕ

/-- What a group reads of a reaction task: its id, which orders tasks of one priority, and its
priority. -/
structure ReactionTask where
  id : ℕ
  priority : ℤ
  deriving DecidableEq, Repr

/-- A task handed to `try_submit`, with the other two arguments of the call: its pool, and whether
this is to count as active. -/
structure Waiter where
  task : ReactionTask
  pool : PoolId
  clearIdle : Bool
  deriving DecidableEq, Repr

/-- A parked task, with the flag that decides who of the drain and of the parking thread accounts
for it. -/
structure WaitEntry extends Waiter where
  /-- The identity of the single-use arbiter flag. -/
  slot : ℕ
  deriving DecidableEq, Repr

/-- The bucket a task is parked in. -/
def Waiter.bucket (w : Waiter) : Fin priorityBuckets := priorityIndex w.task.priority

/-- The state shared between the group and one `GroupLock`; the queue of the group refers to it by
its identity. -/
structure LockHandle where
  taskId : ℕ
  priority : ℤ
  /-- If this lock has been successfully locked. -/
  locked : Bool
  /-- If this lock has been notified that it can lock. -/
  notified : Bool
  /-- The pool that the callback wakes. -/
  notify : PoolId
  deriving DecidableEq, Repr, Inhabited

/-- `operator<`: a higher priority is first, then a lower task id. -/
def LockHandle.before (lhs rhs : LockHandle) : Bool :=
  if lhs.priority = rhs.priority then lhs.taskId < rhs.taskId else lhs.priority > rhs.priority

/-- The shared state of a group, and what the model counts of it: the `RunningLock`s, and the
identities that have been given out. -/
structure Group where
  /-- `descriptor->concurrency`. -/
  concurrency : ℕ
  tokens : ℤ
  slowPending : ℤ
  waitBuckets : Buckets priorityBuckets WaitEntry
  /-- The arbiter flags, by identity. -/
  slots : ℕ → Bool
  /-- The identity of the next arbiter flag to be allocated. -/
  nextSlot : ℕ
  /-- The mutex is held. -/
  mutex : Bool
  /-- The slow-path queue: the identities of its handles. -/
  queue : List ℕ
  /-- The lock handles, by identity. -/
  handles : ℕ → LockHandle
  /-- The identity of the next handle to be allocated. -/
  nextHandle : ℕ
  /-- The number of `RunningLock` objects in existence. -/
  running : ℕ

/-- What the rest of the system sees of a group's operations: the tasks that they start, the
registrations with pools, and the callbacks that they invoke. -/
inductive Event where
  /-- `pool->submit({task, RunningLock}, clear_idle)`: a newcomer starts. -/
  | submit (w : Waiter)
  /-- `pool->submit({task, RunningLock}, clear_idle, true)`: a parked task starts, by force. -/
  | submitForced (e : WaitEntry)
  /-- `pool->register_external_waiter()`. -/
  | register (pool : PoolId)
  /-- The registration of a drained task is destroyed. -/
  | unregister (pool : PoolId)
  /-- `GroupLock::lock()` of a handle returned. -/
  | lockReturned (handle : ℕ) (result : Bool)
  /-- The callback of a handle was invoked. -/
  | notify (handle : ℕ) (pool : PoolId)
  deriving DecidableEq, Repr

namespace Group

/-- `Group::Group`: all tokens are there, and nobody waits. -/
def make (concurrency : ℕ) : Group where
  concurrency := concurrency
  tokens := concurrency
  slowPending := 0
  waitBuckets := Buckets.empty
  slots := fun _ => false
  nextSlot := 0
  mutex := false
  queue := []
  handles := fun _ => default
  nextHandle := 0
  running := 0

/-- The parked tasks, in the order in which a drain takes them: bucket by bucket, and in a bucket as
they came. -/
def parked (g : Group) : List WaitEntry := g.waitBuckets.contents

/-- The handles with `locked == true`, each of which has taken a token. -/
def lockedHandles (g : Group) : List ℕ := g.queue.filter fun r => (g.handles r).locked

/-- Write one field of one handle; the others are as they were. -/
@[simps concurrency tokens slowPending waitBuckets slots nextSlot mutex queue nextHandle running]
def setHandle (g : Group) (r : ℕ) (f : LockHandle → LockHandle) : Group :=
  { g with handles := Function.update g.handles r (f (g.handles r)) }

/-- Set the `notified` flag of some handles. -/
@[simps concurrency tokens slowPending waitBuckets slots nextSlot mutex queue nextHandle running]
def setNotified (g : Group) (rs : List ℕ) (b : Bool) : Group :=
  { g with handles := fun r =>
      if r ∈ rs then { g.handles r with notified := b } else g.handles r }

/-! ## The loops over the slow-path queue -/

/-- What the loops subtract for a handle: `h->locked ? 0 : 1`.  One that is locked has its token
already. -/
def weight (handles : ℕ → LockHandle) (r : ℕ) : ℤ := if (handles r).locked then 0 else 1

/-- The loop of `~GroupLock` and `notify_slow_path` over the queue: the handles that can lock now
and have not been told. -/
def toNotify (handles : ℕ → LockHandle) : ℤ → List ℕ → List ℕ
  | _, [] => []
  | free, r :: q =>
      let freeTokens := free - weight handles r
      if freeTokens ≥ 0 ∧ ¬ (handles r).locked ∧ ¬ (handles r).notified then
        r :: toNotify handles freeTokens q
      else
        toNotify handles freeTokens q

/-- The loop of `GroupLock::lock` for the handle `self`: whether the tokens last until it is
reached. -/
def lockWalk (handles : ℕ → LockHandle) (self : ℕ) : ℤ → List ℕ → Bool
  | _, [] => false
  | free, r :: q =>
      let free := free - weight handles r
      if free < 0 then false
      else if r = self then true
      else lockWalk handles self free q

/-- The loop of `Group::lock` over the queue: the handles that cannot lock any more, since the new
one takes their room. -/
def toReset (handles : ℕ → LockHandle) : ℤ → List ℕ → List ℕ
  | _, [] => []
  | free, r :: q =>
      let free := free - weight handles r
      if free < 0 then r :: toReset handles free q else toReset handles free q

/-- `queue.insert(std::lower_bound(...), handle)`: before the first handle that is not before it. -/
def insertHandle (handles : ℕ → LockHandle) (r : ℕ) (q : List ℕ) : List ℕ :=
  q.takeWhile (fun x => (handles x).before (handles r)) ++
    r :: q.dropWhile (fun x => (handles x).before (handles r))

/-! ## What the loops have counted -/

/-- The unlocked handles of `q` up to and including `self`: what each loop has counted when it
reaches this handle. -/
def demand (handles : ℕ → LockHandle) (self : ℕ) : List ℕ → ℤ
  | [] => 0
  | r :: q => weight handles r + if r = self then 0 else demand handles self q

variable {handles : ℕ → LockHandle}

theorem weight_nonneg (r : ℕ) : 0 ≤ weight handles r := by
  unfold weight
  split_ifs <;> omega

theorem weight_le_one (r : ℕ) : weight handles r ≤ 1 := by
  unfold weight
  split_ifs <;> omega

theorem weight_of_not_locked {r : ℕ} (h : (handles r).locked = false) : weight handles r = 1 := by
  simp [weight, h]

theorem weight_of_locked {r : ℕ} (h : (handles r).locked = true) : weight handles r = 0 := by
  simp [weight, h]

theorem demand_nonneg (self : ℕ) (q : List ℕ) : 0 ≤ demand handles self q := by
  induction q with
  | nil => exact le_refl 0
  | cons r q ih =>
    rw [demand]
    have := @weight_nonneg handles r
    split_ifs <;> omega

/-- A handle of the queue is counted for itself, so the demand at it is no less than its weight. -/
theorem weight_le_demand {self : ℕ} {q : List ℕ} (h : self ∈ q) :
    weight handles self ≤ demand handles self q := by
  induction q with
  | nil => exact absurd h (List.not_mem_nil)
  | cons r q ih =>
    rw [demand]
    split_ifs with hr
    · rw [hr, add_zero]
    · have hmem : self ∈ q := (List.mem_cons.mp h).resolve_left (Ne.symm hr)
      have := ih hmem
      have := @weight_nonneg handles r
      omega

/-- `GroupLock::lock` succeeds exactly when the tokens cover the unlocked handles up to the
handle. -/
theorem lockWalk_eq_true_iff {self : ℕ} {free : ℤ} {q : List ℕ} :
    lockWalk handles self free q = true ↔ self ∈ q ∧ demand handles self q ≤ free := by
  induction q generalizing free with
  | nil => simp [lockWalk]
  | cons r q ih =>
    rw [lockWalk, demand, List.mem_cons]
    have hd := @demand_nonneg handles self q
    by_cases hneg : free - weight handles r < 0
    · simp only [hneg, if_true]
      constructor
      · intro h
        exact absurd h (by simp)
      · rintro ⟨-, h⟩
        split_ifs at h <;> omega
    · by_cases hr : r = self
      · subst hr
        simp only [hneg, if_false, if_true, true_or, true_and, true_iff]
        omega
      · simp only [hneg, hr, if_false, ih, Ne.symm hr, false_or]
        constructor <;> rintro ⟨h₁, h₂⟩ <;> exact ⟨h₁, by omega⟩

/-- What the loops count depends on `locked` only, not on the flags or the callbacks. -/
theorem demand_congr {h h' : ℕ → LockHandle} {self : ℕ} {q : List ℕ}
    (hl : ∀ r ∈ q, (h' r).locked = (h r).locked) : demand h' self q = demand h self q := by
  induction q with
  | nil => rfl
  | cons r q ih =>
    have hr : weight h' r = weight h r := by rw [weight, weight, hl r (List.mem_cons_self ..)]
    rw [demand, demand, hr, ih fun x hx => hl x (List.mem_cons_of_mem _ hx)]

/-- A new handle adds to what is counted before another one, or leaves it as it is. -/
theorem demand_le_insert {h : ℕ → LockHandle} {self n : ℕ} (hn : n ≠ self) (p q : List ℕ) :
    demand h self (p ++ q) ≤ demand h self (p ++ n :: q) := by
  induction p with
  | nil =>
    have := @weight_nonneg h n
    rw [List.nil_append, List.nil_append, demand.eq_2, if_neg hn]
    omega
  | cons r p ih =>
    simp only [List.cons_append, demand]
    split_ifs <;> omega

/-- Locking one handle takes at most one off what is counted before another one. -/
theorem demand_le_lock {h : ℕ → LockHandle} {s r : ℕ} {l : LockHandle} {q : List ℕ}
    (hq : q.Nodup) : demand h s q ≤ demand (Function.update h r l) s q + 1 := by
  induction q with
  | nil => simp [demand]
  | cons x q ih =>
    obtain ⟨hx, hq⟩ := List.nodup_cons.mp hq
    rw [demand, demand]
    by_cases hxr : x = r
    · subst hxr
      have hsame : demand (Function.update h x l) s q = demand h s q :=
        demand_congr fun y hy => by
          rw [Function.update_of_ne]
          rintro rfl
          exact hx hy
      have h₁ := @weight_le_one h x
      have h₂ := @weight_nonneg (Function.update h x l) x
      rw [hsame]
      split_ifs <;> omega
    · have hw : weight (Function.update h r l) x = weight h x := by
        rw [weight, weight, Function.update_of_ne hxr]
      have := ih hq
      rw [hw]
      split_ifs <;> omega

theorem one_le_demand {h : ℕ → LockHandle} {r : ℕ} {q : List ℕ} (hr : r ∈ q)
    (hl : (h r).locked = false) : 1 ≤ demand h r q := by
  have := @weight_le_demand h _ _ hr
  rw [weight_of_not_locked hl] at this
  exact this

/-- `GroupLock::lock()` would return `true`: the handle is locked already, or the tokens last until
it is reached. -/
def wouldLock (g : Group) (r : ℕ) : Bool :=
  (g.handles r).locked || lockWalk g.handles r g.tokens g.queue

theorem wouldLock_of_locked {g : Group} {r : ℕ} (hl : (g.handles r).locked = true) :
    wouldLock g r = true := by
  rw [wouldLock, hl, Bool.true_or]

/-- A handle that is not locked would lock exactly when the tokens cover what is counted up to
it. -/
theorem wouldLock_iff {g : Group} {r : ℕ} (hr : r ∈ g.queue) (hl : (g.handles r).locked = false) :
    wouldLock g r = true ↔ demand g.handles r g.queue ≤ g.tokens := by
  rw [wouldLock, hl, Bool.false_or, lockWalk_eq_true_iff]
  exact and_iff_right hr

theorem mem_of_mem_toNotify {x : ℕ} {free : ℤ} {q : List ℕ} (h : x ∈ toNotify handles free q) :
    x ∈ q := by
  induction q generalizing free with
  | nil => exact absurd h (by simp [toNotify])
  | cons r q ih =>
    rw [toNotify] at h
    split_ifs at h with hc
    · rcases List.mem_cons.mp h with rfl | h
      · exact List.mem_cons_self ..
      · exact List.mem_cons_of_mem _ (ih h)
    · exact List.mem_cons_of_mem _ (ih h)

/-- The notification loop picks exactly the handles that `lock()` would lock and that have not been
told. -/
theorem mem_toNotify_iff {x : ℕ} {free : ℤ} {q : List ℕ} (hq : q.Nodup) :
    x ∈ toNotify handles free q ↔ x ∈ q ∧ demand handles x q ≤ free ∧
      (handles x).locked = false ∧ (handles x).notified = false := by
  induction q generalizing free with
  | nil => simp [toNotify]
  | cons r q ih =>
    obtain ⟨hr, hq⟩ := List.nodup_cons.mp hq
    have key : x ∈ toNotify handles (free - weight handles r) q ↔ _ := ih hq
    rw [toNotify, demand]
    by_cases hx : x = r
    · subst hx
      have hnot : x ∉ toNotify handles (free - weight handles x) q :=
        fun h => hr (mem_of_mem_toNotify h)
      simp only [if_true, add_zero, List.mem_cons, true_or, true_and]
      split_ifs with hc
      · simp only [List.mem_cons, true_or, true_iff]
        exact ⟨by omega, by simpa using hc.2.1, by simpa using hc.2.2⟩
      · simp only [hnot, false_iff]
        rintro ⟨h₁, h₂, h₃⟩
        exact hc ⟨by omega, by simp [h₂], by simp [h₃]⟩
    · have hne : ¬ r = x := fun h => hx h.symm
      have hle : weight handles r + demand handles x q ≤ free ↔
          demand handles x q ≤ free - weight handles r := by omega
      rw [if_neg hne, List.mem_cons, or_iff_right hx, hle, ← key]
      split_ifs
      · rw [List.mem_cons, or_iff_right hx]
      · exact Iff.rfl

theorem mem_of_mem_toReset {x : ℕ} {free : ℤ} {q : List ℕ} (h : x ∈ toReset handles free q) :
    x ∈ q := by
  induction q generalizing free with
  | nil => exact absurd h (by simp [toReset])
  | cons r q ih =>
    rw [toReset] at h
    split_ifs at h with hc
    · rcases List.mem_cons.mp h with rfl | h
      · exact List.mem_cons_self ..
      · exact List.mem_cons_of_mem _ (ih h)
    · exact List.mem_cons_of_mem _ (ih h)

/-- The reset loop picks exactly the handles whose unlocked predecessors use up the tokens. -/
theorem mem_toReset_iff {x : ℕ} {free : ℤ} {q : List ℕ} (hq : q.Nodup) :
    x ∈ toReset handles free q ↔ x ∈ q ∧ free < demand handles x q := by
  induction q generalizing free with
  | nil => simp [toReset]
  | cons r q ih =>
    obtain ⟨hr, hq⟩ := List.nodup_cons.mp hq
    have key : x ∈ toReset handles (free - weight handles r) q ↔ _ := ih hq
    rw [toReset, demand]
    by_cases hx : x = r
    · subst hx
      have hnot : x ∉ toReset handles (free - weight handles x) q :=
        fun h => hr (mem_of_mem_toReset h)
      by_cases hneg : free - weight handles x < 0
      · simp only [hneg, if_true, List.mem_cons, true_or, true_and, true_iff]
        omega
      · simp only [hneg, if_false, hnot, if_true, List.mem_cons, true_or, true_and, false_iff]
        omega
    · have hne : ¬ r = x := fun h => hx h.symm
      by_cases hneg : free - weight handles r < 0
      · simp only [hneg, hne, if_true, if_false, List.mem_cons, hx, false_or, key]
        constructor <;> rintro ⟨h₁, h₂⟩ <;> exact ⟨h₁, by omega⟩
      · simp only [hneg, hne, if_false, List.mem_cons, hx, false_or, key]
        constructor <;> rintro ⟨h₁, h₂⟩ <;> exact ⟨h₁, by omega⟩

theorem insertHandle_perm (r : ℕ) (q : List ℕ) : (insertHandle handles r q).Perm (r :: q) := by
  have h : q.takeWhile (fun x => (handles x).before (handles r)) ++
      q.dropWhile (fun x => (handles x).before (handles r)) = q := List.takeWhile_append_dropWhile
  rw [insertHandle]
  refine List.perm_middle.trans ?_
  rw [h]

theorem mem_insertHandle {r x : ℕ} {q : List ℕ} :
    x ∈ insertHandle handles r q ↔ x = r ∨ x ∈ q := by
  rw [(insertHandle_perm r q).mem_iff, List.mem_cons]

theorem nodup_insertHandle {r : ℕ} {q : List ℕ} (hr : r ∉ q) (hq : q.Nodup) :
    (insertHandle handles r q).Nodup :=
  (insertHandle_perm r q).nodup_iff.mpr (List.nodup_cons.mpr ⟨hr, hq⟩)

end Group

end Scheduler
end NUClear
