import Mathlib.Algebra.Order.BigOperators.Group.Finset
import NUClear.Scheduler.Group.Admission
import NUClear.Scheduler.Sleep

/-!
# No more tasks of a group run than the group admits

`Group.Within` limits the `RunningLock`s and the locked handles of one group.  Here these are
counted by their owners, the tasks: every `RunningLock` belongs to one task, which was started by
the group, and every locked handle belongs to one `CombinedLock` (`Granted`).  A worker has a task
out of the buckets only after all its handles are locked, and so has a thread that runs a task
inline.

So at most `concurrency` tasks of a group run at a time, over all pools and however they got there
(`started_le_concurrency`).  The operations are indivisible here, each with its callbacks.

* `locked_lockAll`, `locked_of_lockAll`: `CombinedLock::lock` unlocks no handle, and has locked all
  of its own when it returns `true`.
* `Pool.started`, `Pool.locks`: the tasks of a pool that run, and the locks of all of its tasks.
* `Granted`: the invariant.  Every `RunningLock` and every handle has one owner, and the tasks that
  run have all their handles locked.
* `Granted.starts`: a call on a group.  It has made one `RunningLock` for each task that it starts,
  and these locks are in the hands of the operation until the callbacks have handed them over.
* `GrantedMidway`: the invariant of an operation in progress.  The tasks that are still to be handed
  over, the task that has been submitted and the lock that has been made for it are all of the
  groups that the id of the task stands for.
* `Granted.countP_handles_le`: the handles that the running tasks have of a group are among the
  locked ones of the group.
* `started_le_concurrency`: the limit, in every run.
-/

namespace NUClear
namespace Scheduler

open Foundation

variable {c : GroupId → ℕ} {g : GroupId} {l l' : GroupLock}

/-! ## Locks and their handles -/

section handlesOf

/-- A lock over the group has a `RunningLock` or a handle of it. -/
theorem countP_groups_le (m : Multiset TaskLock) (g : GroupId) :
    m.countP (fun lock => g ∈ lock.groups) ≤
      m.count (.running g) + (handlesOf m).countP (fun l => l.group = g) := by
  induction m using Multiset.induction with
  | empty => exact Nat.zero_le _
  | cons lock m ih =>
    rw [Multiset.countP_cons, Multiset.count_cons, handlesOf_cons, Multiset.countP_add]
    have hone : (if g ∈ lock.groups then 1 else 0) ≤ (if TaskLock.running g = lock then 1 else 0) +
        Multiset.countP (fun l => l.group = g) (lock.handles : Multiset GroupLock) := by
      split_ifs with hg <;> try omega
      cases lock with
      | none => exact absurd hg (List.not_mem_nil)
      | running g' =>
        rename_i hne
        exact absurd (congrArg TaskLock.running (List.mem_singleton.mp hg)) hne
      | combined lock =>
        obtain ⟨l, hl, rfl⟩ := List.mem_map.mp hg
        rw [Nat.zero_add]
        exact Multiset.countP_pos.mpr ⟨l, hl, rfl⟩
    omega

end handlesOf

/-! ## `CombinedLock::lock` -/

section lockAll

variable {groups : Groups} {locks : List GroupLock}

/-- No handle is unlocked by a `GroupLock::lock`, whether it locks its own or not. -/
theorem locked_handleLock (hl' : (handleAt groups l').locked = true) : (handleAt
    (Function.update groups l.group ((groups l.group).handleLock l.handle).1) l').locked =
      true := by
  rw [handleAt]
  by_cases hg : l'.group = l.group
  · rw [hg, Function.update_self, Group.handleLock]
    rw [handleAt, hg] at hl'
    split_ifs
    · exact hl'
    · simp only [Group.setHandle]
      by_cases hr : l'.handle = l.handle
      · rw [hr, Function.update_self]
      · rw [Function.update_of_ne hr]
        exact hl'
    · exact hl'
  · rw [Function.update_of_ne hg]
    exact hl'

theorem locked_lockAll (hl' : (handleAt groups l').locked = true) :
    (handleAt (lockAll groups locks).1 l').locked = true :=
  lockAll_preserves locks (P := fun gs => (handleAt gs l').locked = true) hl'
    fun _ h _ _ => locked_handleLock h

/-- When `CombinedLock::lock` returns `true`, all its handles are locked. -/
theorem locked_of_lockAll (hq : ∀ l ∈ locks, Queued groups l) (h : (lockAll groups locks).2 = true)
    (hl : l ∈ locks) : (handleAt (lockAll groups locks).1 l).locked = true := by
  induction locks generalizing groups with
  | nil => exact absurd hl (List.not_mem_nil)
  | cons l₀ locks ih =>
    have hself := (Group.handleLock_self (hq l₀ (List.mem_cons_self ..))).2.1
    rw [lockAll_cons] at h ⊢
    split_ifs at h ⊢ with hlock
    rcases List.mem_cons.mp hl with rfl | hl
    · refine locked_lockAll ?_
      rw [handleAt, Function.update_self, hself]
      exact hlock
    · exact ih (fun l hl => queued_handleLock (hq l (List.mem_cons_of_mem _ hl))) h hl

/-- `CombinedLock::lock` starts and parks no task, so what the groups have of these is the same. -/
theorem lockAll_fast (g : GroupId) : ((lockAll groups locks).1 g).running = (groups g).running ∧
    ((lockAll groups locks).1 g).parked = (groups g).parked := by
  refine lockAll_preserves locks
    (P := fun gs => (gs g).running = (groups g).running ∧ (gs g).parked = (groups g).parked)
    ⟨rfl, rfl⟩ fun gs hgs l _ => ?_
  by_cases hg : g = l.group
  · subst hg
    rw [Function.update_self, Group.handleLock]
    split_ifs <;> exact hgs
  · rw [Function.update_of_ne hg]
    exact hgs

/-- `CombinedLock::lock` keeps the groups within their limits: a handle is locked only when there is
room. -/
theorem within_lockAll (hc : GroupsCalm c groups) (hw : ∀ g, (groups g).Within (c g))
    (hq : ∀ l ∈ locks, Queued groups l) : GroupsCalm c (lockAll groups locks).1 ∧
      ∀ g, ((lockAll groups locks).1 g).Within (c g) := by
  have hall := lockAll_preserves locks (P := fun gs => GroupsCalm c gs ∧
    (∀ g, (gs g).Within (c g)) ∧ ∀ l ∈ locks, Queued gs l) ⟨hc, hw, hq⟩ fun gs hgs l hl => ?_
  · exact ⟨hall.1, hall.2.1⟩
  · obtain ⟨hc, hw, hq⟩ := hgs
    obtain ⟨ev, hp⟩ := perform_handleLock (hq l hl)
    refine ⟨hc.update hp, fun g => ?_, fun l' hl' => queued_handleLock (hq l' hl')⟩
    by_cases hg : g = l.group
    · subst hg
      rw [Function.update_self]
      exact (hw _).perform (hc.calm _) hp
    · rw [Function.update_of_ne hg]
      exact hw g

end lockAll

/-! ## The tasks that run -/

/-- The task that a worker runs; one that it is putting back does not run. -/
def Worker.started : Worker → List PoolTask
  | .running t => [t]
  | _ => []

theorem Worker.mem_tasks_of_started {w : Worker} {t : PoolTask} (h : t ∈ w.started) :
    t ∈ w.tasks := by
  cases w with
  | running t => exact h
  | _ => exact absurd h (List.not_mem_nil)

namespace Pool

variable {P P' : Pool} {t : PoolTask}

/-- The tasks for this pool that run, in its workers or inline. -/
def started (P : Pool) : List PoolTask := P.workers.flatMap Worker.started ++ P.inlined

/-- The locks of all tasks of the pool, whether they run or wait. -/
def locks (P : Pool) : Multiset TaskLock := (P.tasks.map PoolTask.lock : List TaskLock)

theorem mem_tasks_of_started (h : t ∈ P.started) : t ∈ P.tasks := by
  rcases List.mem_append.mp h with h | h
  · obtain ⟨w, hw, ht⟩ := List.mem_flatMap.mp h
    exact List.mem_append_right _ (List.mem_append_left _
      (List.mem_flatMap.mpr ⟨w, hw, Worker.mem_tasks_of_started ht⟩))
  · exact List.mem_append_right _ (List.mem_append_right _ h)

theorem mem_locks (h : t ∈ P.tasks) : t.lock ∈ P.locks := List.mem_map_of_mem h

/-- One task more. -/
theorem locks_of_perm (h : P'.tasks.Perm (t :: P.tasks)) : P'.locks = t.lock ::ₘ P.locks :=
  Multiset.coe_eq_coe.mpr (h.map PoolTask.lock)

/-- A worker has been given something else to do. -/
theorem locks_setWorker {i : ℕ} {w : Worker} (w' : Worker) (hw : P.workers[i]? = some w) :
    (P.setWorker i w').locks + (w.tasks.map PoolTask.lock : List TaskLock) =
      P.locks + (w'.tasks.map PoolTask.lock : List TaskLock) := by
  have hperm := (tasks_setWorker w' hw).map PoolTask.lock
  rw [List.map_append, List.map_append, ← Multiset.coe_eq_coe, ← Multiset.coe_add,
    ← Multiset.coe_add] at hperm
  exact hperm

theorem mem_started_setWorker {i : ℕ} {w' : Worker} (h : t ∈ (P.setWorker i w').started) :
    t ∈ P.started ∨ t ∈ w'.started := by
  rw [started, List.mem_append, setWorker, List.mem_flatMap] at h
  rw [started, List.mem_append, List.mem_flatMap]
  rcases h with ⟨w, hw, ht⟩ | h
  · rcases List.mem_or_eq_of_mem_set hw with hw | rfl
    · exact Or.inl (Or.inl ⟨w, hw, ht⟩)
    · exact Or.inr ht
  · exact Or.inl (Or.inr h)

end Pool

/-! ## The state as a whole -/

namespace SchedulerState

variable {G : ℕ → GroupSet} {n : ℕ} {s s' : SchedulerState n} {p q : Fin n} {P : Pool}
  {hand hand' : Multiset TaskLock} {current : Option (Fin n)} {t : PoolTask} {ev : List Event}
  {e : Event} {i : ℕ} {w w' : Worker} {task : ReactionTask} {lock : TaskLock}

/-- The locks of all tasks of all pools. -/
def locks (s : SchedulerState n) : Multiset TaskLock := ∑ p, (s.pools p).locks

theorem locks_setPool (s : SchedulerState n) (p : Fin n) (P : Pool) :
    (s.setPool p P).locks + (s.pools p).locks = s.locks + P.locks := by
  have hrest : ∑ q ∈ Finset.univ.erase p, ((s.setPool p P).pools q).locks =
      ∑ q ∈ Finset.univ.erase p, (s.pools q).locks :=
    Finset.sum_congr rfl fun q hq => by rw [setPool_of_ne s P (Finset.ne_of_mem_erase hq)]
  rw [locks, locks, ← Finset.add_sum_erase _ _ (Finset.mem_univ p),
    ← Finset.add_sum_erase _ (fun q => (s.pools q).locks) (Finset.mem_univ p), hrest, setPool_self]
  abel

theorem mem_locks (h : t ∈ (s.pools p).tasks) : t.lock ∈ s.locks :=
  Multiset.mem_sum.mpr ⟨p, Finset.mem_univ p, Pool.mem_locks h⟩

/-- What holds while an operation has the locks `hand` in its hands.  The groups of a task are given
by its id. -/
structure Granted (G : ℕ → GroupSet) (c : GroupId → ℕ) (s : SchedulerState n)
    (hand : Multiset TaskLock) : Prop where
  calm : GroupsCalm c s.groups
  within : ∀ g, (s.groups g).Within (c g)
  /-- No handle has two owners. -/
  nodup : (handlesOf (s.locks + hand)).Nodup
  queued : ∀ l ∈ handlesOf (s.locks + hand), Queued s.groups l
  /-- Every `RunningLock` of a task is one of its group's. -/
  running : ∀ g, (s.locks + hand).count (.running g) ≤ (s.groups g).running
  tagged : ∀ p, ∀ t ∈ (s.pools p).tasks, t.lock.groups = (G t.task.id).descs
  parked : ∀ g, ∀ e ∈ (s.groups g).parked, (G e.task.id).descs = [g]
  started : ∀ p, ∀ t ∈ (s.pools p).started, ∀ l ∈ t.lock.handles,
    (handleAt s.groups l).locked = true

theorem Granted.queued_of_task (h : Granted G c s hand) (ht : t ∈ (s.pools p).tasks)
    (hl : l ∈ t.lock.handles) : Queued s.groups l :=
  h.queued l (mem_handlesOf (Multiset.mem_add.mpr (Or.inl (mem_locks ht))) hl)

theorem Granted.queued_of_hand (h : Granted G c s (lock ::ₘ hand)) (hl : l ∈ lock.handles) :
    Queued s.groups l :=
  h.queued l (mem_handlesOf (Multiset.mem_add.mpr (Or.inr (Multiset.mem_cons_self ..))) hl)

theorem granted_start (G : ℕ → GroupSet) (c : GroupId → ℕ) (descriptors : Fin n → PoolDescriptor)
    (mainThread : Fin n) (k : ℕ) : Granted G c (start c descriptors mainThread k) 0 := by
  have htasks : ∀ p, ((start c descriptors mainThread k).pools p).tasks = [] := fun p =>
    congrArg (· ++ _) Buckets.contents_empty
  have hlocks : (start c descriptors mainThread k).locks = 0 :=
    Finset.sum_eq_zero fun p _ => by
      rw [Pool.locks, htasks]
      rfl
  refine ⟨groupsCalm_make c, fun g => Group.within_make _, ?_, fun l hl => ?_, fun g => ?_,
    fun p t ht => ?_, fun g e he => ?_, fun p t ht => ?_⟩
  · rw [hlocks]
    exact Multiset.nodup_zero
  · rw [hlocks] at hl
    exact absurd hl (Multiset.notMem_zero l)
  · rw [hlocks]
    exact Nat.zero_le _
  · rw [htasks] at ht
    exact absurd ht (List.not_mem_nil)
  · have hnil : ((start c descriptors mainThread k).groups g).parked = [] := Buckets.contents_empty
    rw [hnil] at he
    exact absurd he (List.not_mem_nil)
  · exact absurd ht (List.not_mem_nil)

/-- The operation may drop locks that it has in its hands, and holds less then. -/
theorem Granted.mono (h : Granted G c s hand) (hle : hand' ≤ hand) : Granted G c s hand' := by
  have hall : s.locks + hand' ≤ s.locks + hand := add_le_add_right hle _
  exact { h with
    nodup := Multiset.nodup_of_le (handlesOf_mono hall) h.nodup
    queued := fun l hl => h.queued l (Multiset.mem_of_le (handlesOf_mono hall) hl)
    running := fun g => (Multiset.count_le_of_le _ hall).trans (h.running g) }

/-- One pool is changed: it may take locks from the operation, or give it some. -/
theorem Granted.setPool (h : Granted G c s hand) (hP : P.locks + hand' ≤ (s.pools p).locks + hand)
    (htag : ∀ t ∈ P.tasks, t ∈ (s.pools p).tasks ∨ t.lock.groups = (G t.task.id).descs)
    (hst : ∀ t ∈ P.started, t ∈ (s.pools p).started ∨
      ∀ l ∈ t.lock.handles, (handleAt s.groups l).locked = true) :
    Granted G c (s.setPool p P) hand' := by
  have hle : (s.setPool p P).locks + hand' ≤ s.locks + hand := by
    have hsum := locks_setPool s p P
    refine le_of_add_le_add_left (a := (s.pools p).locks) ?_
    calc (s.pools p).locks + ((s.setPool p P).locks + hand')
        = s.locks + (P.locks + hand') := by
          rw [← add_assoc, add_comm (s.pools p).locks, hsum, add_assoc]
      _ ≤ s.locks + ((s.pools p).locks + hand) := by gcongr
      _ = (s.pools p).locks + (s.locks + hand) := by abel
  refine ⟨h.calm, h.within, Multiset.nodup_of_le (handlesOf_mono hle) h.nodup,
    fun l hl => h.queued l (Multiset.mem_of_le (handlesOf_mono hle) hl),
    fun g => (Multiset.count_le_of_le _ hle).trans (h.running g), fun q t ht => ?_, h.parked,
    fun q t ht => ?_⟩ <;> by_cases hqp : q = p
  · subst hqp
    rw [setPool_self] at ht
    exact (htag t ht).elim (h.tagged q t) id
  · rw [setPool_of_ne s P hqp] at ht
    exact h.tagged q t ht
  · subst hqp
    rw [setPool_self] at ht
    exact (hst t ht).elim (h.started q t) id
  · rw [setPool_of_ne s P hqp] at ht
    exact h.started q t ht

theorem Granted.unmoved (h : Granted G c s hand) (hu : Unmoved s s') : Granted G c s' hand := by
  have htasks : ∀ p, (s'.pools p).tasks = (s.pools p).tasks := fun p => by
    rw [Pool.tasks, Pool.tasks, hu.buckets, hu.workers, hu.inlined]
  have hstarted : ∀ p, (s'.pools p).started = (s.pools p).started := fun p => by
    rw [Pool.started, Pool.started, hu.workers, hu.inlined]
  have hlocks : s'.locks = s.locks := Finset.sum_congr rfl fun p _ => by
    rw [Pool.locks, Pool.locks, htasks]
  obtain ⟨h₁, h₂, h₃, h₄, h₅, h₆, h₇, h₈⟩ := h
  constructor
  · rwa [hu.groups]
  · rwa [hu.groups]
  · rwa [hlocks]
  · rwa [hlocks, hu.groups]
  · rwa [hlocks, hu.groups]
  · intro p
    rw [htasks]
    exact h₆ p
  · rwa [hu.groups]
  · intro p
    rw [hstarted, hu.groups]
    exact h₈ p

/-! ## Pools and workers -/

/-- A task is submitted with a lock from the hands of the operation. -/
theorem Granted.submit (h : Granted G c s (lock ::ₘ hand))
    (htag : lock.groups = (G task.id).descs) :
    Granted G c (s.setPool p ((s.pools p).submit task lock)) hand := by
  have hperm := Pool.tasks_submit (s.pools p) task lock
  refine h.setPool ?_ (fun t ht => ?_) fun t ht => Or.inl ht
  · rw [Pool.locks_of_perm hperm, Multiset.cons_add, Multiset.add_cons]
  · rcases List.mem_cons.mp (hperm.mem_iff.mp ht) with rfl | ht
    · exact Or.inr htag
    · exact Or.inl ht

/-- A task that runs inline, with its lock. -/
theorem Granted.runInline {x : Submission n} (h : Granted G c s (lock ::ₘ hand))
    (htag : lock.groups = (G x.task.id).descs)
    (hlocked : ∀ l ∈ lock.handles, (handleAt s.groups l).locked = true) :
    Granted G c (s.runInline x lock) hand := by
  have hperm := Pool.tasks_append_inlined (s.pools x.pool)
    ⟨x.task, lock, (s.pools x.pool).clock, (s.pools x.pool).clock⟩
  refine h.setPool ?_ (fun t ht => ?_) fun t ht => ?_
  · rw [Pool.locks_of_perm hperm, Multiset.cons_add, Multiset.add_cons]
  · rcases List.mem_cons.mp (hperm.mem_iff.mp ht) with rfl | ht
    · exact Or.inr htag
    · exact Or.inl ht
  · rw [Pool.started, ← List.append_assoc] at ht
    rcases List.mem_append.mp ht with ht | ht
    · exact Or.inl ht
    · obtain rfl := List.mem_singleton.mp ht
      exact Or.inr hlocked

/-- A worker takes a task from the hands of the operation, or gives it back. -/
theorem Granted.setWorker (h : Granted G c s hand) (hw : (s.pools p).workers[i]? = some w)
    (hh : ((w'.tasks.map PoolTask.lock : List TaskLock) : Multiset TaskLock) + hand' ≤
      (w.tasks.map PoolTask.lock : List TaskLock) + hand)
    (htag : ∀ t ∈ w'.tasks, t.lock.groups = (G t.task.id).descs)
    (hst : ∀ t ∈ w'.started, ∀ l ∈ t.lock.handles, (handleAt s.groups l).locked = true) :
    Granted G c (s.setWorker p i w') hand' := by
  refine h.setPool ?_ (fun t ht => (Pool.mem_tasks_setWorker ht).imp id (htag t))
    fun t ht => (Pool.mem_started_setWorker ht).imp id (hst t)
  have hsum := Pool.locks_setWorker w' hw
  refine le_of_add_le_add_right (a := ((w.tasks.map PoolTask.lock : List TaskLock) :
    Multiset TaskLock)) ?_
  calc ((s.pools p).setWorker i w').locks + hand' + (w.tasks.map PoolTask.lock : List TaskLock)
      = (s.pools p).locks + ((w'.tasks.map PoolTask.lock : List TaskLock) + hand') := by
        rw [add_right_comm, hsum, add_assoc]
    _ ≤ (s.pools p).locks + ((w.tasks.map PoolTask.lock : List TaskLock) + hand) := by gcongr
    _ = (s.pools p).locks + hand + (w.tasks.map PoolTask.lock : List TaskLock) := by abel

/-- A worker goes from one place to another without a task, which is nothing to the locks. -/
theorem Granted.moveWorker (h : Granted G c s hand) (hw : (s.pools p).workers[i]? = some w)
    (ht : w.tasks = []) (ht' : w'.tasks = []) : Granted G c (s.setWorker p i w') hand := by
  refine h.setWorker hw ?_ (fun t hm => ?_) fun t hm => ?_
  · rw [ht, ht']
  · rw [ht'] at hm
    exact absurd hm (List.not_mem_nil)
  · have := Worker.mem_tasks_of_started hm
    rw [ht'] at this
    exact absurd this (List.not_mem_nil)

/-- A task is taken out of the buckets, into the hands of the operation. -/
theorem Granted.dequeue (h : Granted G c s 0) (hd : (s.pools p).tryDequeueTask = some (t, P)) :
    Granted G c (s.setPool p P) (t.lock ::ₘ 0) := by
  have htasks := Pool.tasks_tryDequeueTask hd
  refine h.setPool ?_ (fun u hu => Or.inl ?_) fun u hu => Or.inl ?_
  · rw [Pool.locks_of_perm (List.Perm.of_eq htasks), Multiset.add_cons, Multiset.cons_add]
  · rw [htasks]
    exact List.mem_cons_of_mem _ hu
  · obtain ⟨b, buckets, -, rfl⟩ := Pool.tryDequeueTask_cases hd
    exact hu

/-- The tasks in the buckets are taken into the hands of the operation. -/
theorem Granted.drainQueues (h : Granted G c s 0) :
    Granted G c (s.setPool p (s.pools p).drainQueues.2)
      ((s.pools p).buckets.contents.map PoolTask.lock : List TaskLock) := by
  have htasks := Pool.tasks_drainQueues (s.pools p)
  refine h.setPool ?_ (fun t ht => Or.inl ?_) fun t ht => Or.inl ht
  · rw [Pool.locks, Pool.locks, htasks, List.map_append, ← Multiset.coe_add, add_zero, add_comm]
  · rw [htasks]
    exact List.mem_append_right _ ht

/-- A task whose lock has failed is put back, with its lock. -/
theorem Granted.putBack (h : Granted G c s 0)
    (hw : (s.pools p).workers[i]? = some (.puttingBack t)) :
    Granted G c (s.putBack p i t) 0 := by
  have hmem : t ∈ (s.pools p).tasks := List.mem_append_right _ (List.mem_append_left _
    (List.mem_flatMap.mpr ⟨_, List.mem_of_getElem? hw, List.mem_singleton_self _⟩))
  have hperm := Pool.tasks_enqueue (s.pools p) t
  refine h.setPool ?_ (fun u hu => ?_) fun u hu => ?_
  · have hback := (Pool.tasks_putBack hw).map PoolTask.lock
    exact le_of_eq (congrArg (· + 0) (Multiset.coe_eq_coe.mpr hback.cons_inv))
  · rcases Pool.mem_tasks_setWorker hu with hu | hu
    · rcases List.mem_cons.mp (hperm.mem_iff.mp hu) with rfl | hu
      · exact Or.inr (h.tagged p t hmem)
      · exact Or.inl hu
    · exact absurd hu (List.not_mem_nil)
  · exact (Pool.mem_started_setWorker hu).imp id fun hu => absurd hu (List.not_mem_nil)

/-- `Pool::start`. -/
theorem Granted.start {k : ℕ} (h : Granted G c s 0) (hw : (s.pools p).workers = []) :
    Granted G c (s.setPool p ((s.pools p).start k)) 0 := by
  have htasks := Pool.tasks_start k hw
  have hlook : ∀ v ∈ ((s.pools p).start k).workers, v = .looking := fun v hv =>
    List.eq_of_mem_replicate hv
  have hstarted : ((s.pools p).start k).started = (s.pools p).started := by
    rw [Pool.started, Pool.started, hw,
      show ((s.pools p).start k).workers.flatMap Worker.started = [] from
        List.flatMap_eq_nil_iff.mpr fun v hv => by
          rw [hlook v hv]
          rfl]
    rfl
  refine h.setPool ?_ (fun t ht => Or.inl (htasks ▸ ht)) fun t ht => Or.inl (hstarted ▸ ht)
  rw [Pool.locks, Pool.locks, htasks]

/-! ## Operations of the groups -/

/-- **One call on one group**, before its callbacks are made. -/
theorem Granted.call {call : Group.Call} {x : Group} (h : Granted G c s hand')
    (hp : (s.groups g).perform call = some (x, ev)) (hle : handlesOf hand ≤ handlesOf hand')
    (hk : ∀ l ∈ handlesOf (s.locks + hand), KeptAt s.groups (Function.update s.groups g x) ev l)
    (hrun : (s.locks + hand).count (.running g) ≤ x.running)
    (hother : ∀ k ≠ g, hand.count (.running k) ≤ hand'.count (.running k))
    (hparked : ∀ e ∈ x.parked, (G e.task.id).descs = [g]) : Granted G c (s.setGroup g x) hand := by
  have hall : handlesOf (s.locks + hand) ≤ handlesOf (s.locks + hand') := by
    rw [handlesOf_add, handlesOf_add]
    exact add_le_add_right hle _
  have hgroup : (s.setGroup g x).groups g = x := Function.update_self ..
  have hgroup' : ∀ k, k ≠ g → (s.setGroup g x).groups k = s.groups k := fun k hkg =>
    Function.update_of_ne hkg ..
  refine ⟨h.calm.update hp, fun k => ?_, Multiset.nodup_of_le hall h.nodup,
    fun l hl => (hk l hl).queued, fun k => ?_, h.tagged, fun k e he => ?_, fun p t ht l hl => ?_⟩
  · by_cases hkg : k = g
    · subst hkg
      rw [hgroup]
      exact (h.within k).perform (h.calm.calm k) hp
    · rw [hgroup' k hkg]
      exact h.within k
  · by_cases hkg : k = g
    · subst hkg
      rw [hgroup]
      exact hrun
    · rw [hgroup' k hkg]
      refine le_trans ?_ (h.running k)
      rw [Multiset.count_add, Multiset.count_add]
      exact Nat.add_le_add_left (hother k hkg) _
  · by_cases hkg : k = g
    · subst hkg
      rw [hgroup] at he
      exact hparked e he
    · rw [hgroup' k hkg] at he
      exact h.parked k e he
  · have hmem : l ∈ handlesOf (s.locks + hand) :=
      mem_handlesOf (Multiset.mem_add.mpr (Or.inl (mem_locks (Pool.mem_tasks_of_started ht)))) hl
    exact (hk l hmem).locked.trans (h.started p t ht l hl)

/-- **One call on one group.**  It has made a `RunningLock` for each task that it starts. -/
theorem Granted.starts {call : Group.Call} {x : Group} (h : Granted G c s hand')
    (hp : (s.groups g).perform call = some (x, ev)) (hle : handlesOf hand ≤ handlesOf hand')
    (hk : ∀ l ∈ handlesOf (s.locks + hand), KeptAt s.groups (Function.update s.groups g x) ev l)
    (hrun : (s.locks + hand).count (.running g) + (startedBy ev).length ≤ x.running)
    (hother : ∀ k ≠ g, hand.count (.running k) ≤ hand'.count (.running k))
    (hparked : ∀ e ∈ x.parked, (G e.task.id).descs = [g]) :
    Granted G c (s.setGroup g x)
      (Multiset.replicate (startedBy ev).length (.running g) + hand) := by
  have hhandles : handlesOf (Multiset.replicate (startedBy ev).length (.running g) + hand) =
      handlesOf hand := by
    rw [handlesOf_add, handlesOf_replicate, zero_add]
  refine h.call hp (hhandles.trans_le hle) (fun l hl => hk l ?_) ?_ (fun k hkg => ?_) hparked
  · rwa [handlesOf_add, hhandles, ← handlesOf_add] at hl
  · rw [add_left_comm, Multiset.count_add, Multiset.count_replicate_self, add_comm]
    exact hrun
  · rw [Multiset.count_add, Multiset.count_replicate, if_neg (fun heq => hkg
      (TaskLock.running.inj heq).symm), zero_add]
    exact hother k hkg

/-- The handles of a lock are kept by a call that is not about them. -/
theorem Granted.kept_of_fast {call : Group.Call} {r : Group × List Event} (h : Granted G c s hand)
    (hf : call.isFast = true) (hp : (s.groups g).perform call = some r) :
    ∀ l ∈ handlesOf (s.locks + hand), KeptAt s.groups (Function.update s.groups g r.1) r.2 l := by
  intro l hl
  refine keptAt_update (h.queued l hl) fun hg => ?_
  rw [← hg] at hp
  exact Group.kept_of_fast _ (h.calm.quiet _) hf hp (h.queued l hl)

/-- A `RunningLock` is destroyed: its group may start parked tasks, each with a `RunningLock` of its
own. -/
theorem Granted.runningDestroy (h : Granted G c s (.running g ::ₘ hand))
    (hrun : (s.groups g).running ≠ 0) :
    Granted G c (s.setGroup g (s.groups g).runningDestroy.1)
      (Multiset.replicate (startedBy (s.groups g).runningDestroy.2).length (.running g) +
        hand) := by
  have hp : (s.groups g).perform .runningDestroy = some (s.groups g).runningDestroy := by
    simp only [Group.perform]
    rw [if_neg hrun]
  obtain ⟨hr, hpk, -⟩ := Group.starts_runningDestroy (s.groups g)
  have hcount := h.running g
  rw [Multiset.add_cons, Multiset.count_cons_self] at hcount
  have h' := h.mono (Multiset.le_cons_self hand (.running g))
  refine h'.starts hp le_rfl (h'.kept_of_fast rfl hp) ?_ (fun _ _ => le_rfl)
    fun e he => h.parked g e (hpk e he)
  rw [hr]
  dsimp only
  omega

/-- The first handle of a `CombinedLock` is destroyed, and its group may start parked tasks. -/
theorem Granted.handleDestroy {ls : List GroupLock}
    (h : Granted G c s (.combined ⟨l :: ls⟩ ::ₘ hand)) :
    Granted G c (s.setGroup l.group ((s.groups l.group).handleDestroy l.handle).1)
      (Multiset.replicate (startedBy ((s.groups l.group).handleDestroy l.handle).2).length
        (.running l.group) + .combined ⟨ls⟩ ::ₘ hand) := by
  have hq : Queued s.groups l := h.queued_of_hand (List.mem_cons_self ..)
  obtain ⟨hr, hpk, -⟩ := Group.starts_handleDestroy (s.groups l.group) l.handle
  have hsplit : handlesOf (s.locks + .combined ⟨l :: ls⟩ ::ₘ hand) =
      l ::ₘ handlesOf (s.locks + .combined ⟨ls⟩ ::ₘ hand) := by
    rw [Multiset.add_cons, Multiset.add_cons, handlesOf_combined_cons]
  have hrunning : ∀ k (ls : List GroupLock), (s.locks + .combined ⟨ls⟩ ::ₘ hand).count
      (.running k) = (s.locks + hand).count (.running k) := fun k ls => by
    rw [Multiset.add_cons, Multiset.count_cons_of_ne (by simp)]
  refine h.starts (perform_handleDestroy hq) ?_ (fun l' hl' => ?_) ?_ (fun k _ => ?_)
    fun e he => h.parked _ e (hpk e he)
  · rw [handlesOf_combined_cons]
    exact Multiset.le_cons_self _ l
  · have hne : l' ≠ l := by
      rintro rfl
      have hnd := h.nodup
      rw [hsplit] at hnd
      exact (Multiset.nodup_cons.mp hnd).1 hl'
    refine keptAt_handleDestroy h.calm hq (h.queued l' ?_) hne
    rw [hsplit]
    exact Multiset.mem_cons_of_mem hl'
  · have := h.running l.group
    rw [hrunning] at this ⊢
    rw [hr]
    exact Nat.add_le_add_right this _
  · rw [Multiset.count_cons_of_ne (by simp), Multiset.count_cons_of_ne (by simp)]

/-- A lock is tried: when it returns `true`, all its handles are locked. -/
theorem Granted.tryLock (h : Granted G c s (lock ::ₘ hand)) :
    Granted G c { s with groups := (lock.lock s.groups).1 } (lock ::ₘ hand) ∧
      ((lock.lock s.groups).2 = true →
        ∀ l ∈ lock.handles, (handleAt (lock.lock s.groups).1 l).locked = true) := by
  cases lock with
  | none => exact ⟨h, fun _ l hl => absurd hl (List.not_mem_nil)⟩
  | running g => exact ⟨h, fun _ l hl => absurd hl (List.not_mem_nil)⟩
  | combined lock =>
    have hown : ∀ l ∈ lock.locks, Queued s.groups l := fun l hl => h.queued_of_hand hl
    obtain ⟨hcalm, hwithin⟩ := within_lockAll h.calm h.within hown
    have hqueued : ∀ l, Queued s.groups l → Queued (lockAll s.groups lock.locks).1 l := fun l hl =>
      lockAll_preserves lock.locks (P := fun gs => Queued gs l) hl fun _ hq _ _ =>
        queued_handleLock hq
    refine ⟨⟨hcalm, hwithin, h.nodup, fun l hl => hqueued l (h.queued l hl), fun g => ?_, h.tagged,
      fun g e he => h.parked g e ?_, fun p t ht l hl => locked_lockAll (h.started p t ht l hl)⟩,
      fun hl l hmem => locked_of_lockAll hown hl hmem⟩
    · exact (h.running g).trans (lockAll_fast g).1.ge
    · rw [← (@lockAll_fast s.groups lock.locks g).2]
      exact he

/-- `Group::try_submit` of a task of this group: it is parked, or starts with a `RunningLock`. -/
theorem Granted.trySubmit {x : Waiter} (h : Granted G c s hand)
    (htag : (G x.task.id).descs = [g]) :
    Granted G c (s.setGroup g ((s.groups g).trySubmit x).1)
      (Multiset.replicate (startedBy ((s.groups g).trySubmit x).2).length (.running g) + hand) := by
  have hp : (s.groups g).perform (.trySubmit x) = some ((s.groups g).trySubmit x) := rfl
  refine h.starts hp le_rfl (h.kept_of_fast rfl hp) ?_ (fun _ _ => le_rfl) fun e he => ?_
  · rcases (h.calm.quiet g).starts_trySubmit x with ⟨hev, hr, -⟩ | ⟨hev, hr, -⟩ <;> rw [hev, hr]
    · exact Nat.succ_le_succ (h.running g)
    · exact h.running g
  · rcases (h.calm.quiet g).starts_trySubmit x with ⟨-, -, hpk⟩ | ⟨-, -, hpk⟩
    · rw [hpk] at he
      exact h.parked g e he
    · rcases hpk e he with heq | he
      · rw [show e.task = x.task by rw [heq]]
        exact htag
      · exact h.parked g e he

/-- A worker takes a task, and all handles of the task are locked, so it may run. -/
theorem Granted.take (h : Granted G c s 0) (hw : (s.pools p).workers[i]? = some .looking)
    (hd : (s.pools p).tryDequeueTask = some (t, P)) (hl : (t.lock.lock s.groups).2 = true) :
    Granted G c (SchedulerState.setWorker
      { s.setPool p P with groups := (t.lock.lock s.groups).1 } p i (.running t)) 0 := by
  obtain ⟨hlock, hall⟩ := (h.dequeue hd).tryLock
  refine hlock.setWorker (w := .looking) ?_ (le_of_eq rfl) (fun u hu => ?_) fun u hu => ?_
  · rw [workers_dequeued hd]
    exact hw
  · obtain rfl := List.mem_singleton.mp hu
    exact h.tagged p u (Pool.mem_tasks_of_dequeued hd)
  · obtain rfl := List.mem_singleton.mp hu
    exact hall hl

/-- A worker takes a task whose lock fails, and does not run it. -/
theorem Granted.fail (h : Granted G c s 0) (hw : (s.pools p).workers[i]? = some .looking)
    (hd : (s.pools p).tryDequeueTask = some (t, P)) :
    Granted G c (SchedulerState.setWorker
      { s.setPool p P with groups := (t.lock.lock s.groups).1 } p i (.puttingBack t)) 0 := by
  refine (h.dequeue hd).tryLock.1.setWorker (w := .looking) ?_ (le_of_eq rfl) (fun u hu => ?_)
    fun u hu => absurd hu (List.not_mem_nil)
  · rw [workers_dequeued hd]
    exact hw
  · obtain rfl := List.mem_singleton.mp hu
    exact h.tagged p u (Pool.mem_tasks_of_dequeued hd)

/-- `try_acquire_running_lock` succeeds: the operation has a `RunningLock` in its hands. -/
theorem Granted.acquire {group : Group} {ev : List Event} (h : Granted G c s hand)
    (hr : (s.groups g).tryAcquireRunningLock = (group, true, ev)) :
    Granted G c (s.setGroup g group) (.running g ::ₘ hand) := by
  rcases (h.calm.quiet g).tryAcquire_cases with ⟨-, -, heq⟩ | heq <;> rw [hr] at heq <;>
    obtain ⟨hgroup, hrest⟩ := Prod.mk.inj heq
  · have hp : (s.groups g).perform .tryAcquireRunningLock = some (group, ev) := by
      simp only [Group.perform, hr]
    have hhandles : handlesOf (.running g ::ₘ hand) = handlesOf hand := by
      rw [handlesOf_cons]
      exact zero_add _
    refine h.call hp hhandles.le (fun l hl => h.kept_of_fast rfl hp l ?_) ?_ (fun k hkg => ?_)
      fun e he => h.parked g e ?_
    · rwa [handlesOf_add, hhandles, ← handlesOf_add] at hl
    · rw [hgroup, Multiset.add_cons, Multiset.count_cons_self, Group.makeRunningLock_running]
      exact Nat.succ_le_succ (h.running g)
    · rw [Multiset.count_cons_of_ne (fun heq => hkg (TaskLock.running.inj heq))]
    · rw [hgroup] at he
      exact he
  · exact absurd (Prod.mk.inj hrest).1 (by simp)

/-- The lock that `get_groups_lock` has made is in the hands of the operation. -/
theorem Granted.makeLocks {a : Group.LockArgs} {descs : GroupSet} (h : Granted G c s 0) :
    Granted G c { s with groups := lockGroups s.groups a descs.descs }
      (.combined ⟨newLocks s.groups descs.descs⟩ ::ₘ 0) := by
  have hhandles : handlesOf (locks { s with groups := lockGroups s.groups a descs.descs } +
      .combined ⟨newLocks s.groups descs.descs⟩ ::ₘ 0) =
      handlesOf s.locks + (newLocks s.groups descs.descs : List GroupLock) := by
    rw [Multiset.add_cons, add_zero, handlesOf_cons, add_comm]
    rfl
  have hold : ∀ l ∈ handlesOf s.locks, Queued s.groups l := fun l hl =>
    h.queued l (by rwa [add_zero])
  have hfast : ∀ g, (lockGroups s.groups a descs.descs g).running = (s.groups g).running ∧
      (lockGroups s.groups a descs.descs g).parked = (s.groups g).parked := by
    intro g
    rw [lockGroups]
    split_ifs <;> exact ⟨rfl, rfl⟩
  refine ⟨h.calm.lockGroups a descs.descs, fun g => ?_, ?_, fun l hl => ?_, fun g => ?_, h.tagged,
    fun g e he => h.parked g e ?_, fun p t ht l hl => ?_⟩
  · have hp : (s.groups g).perform (.lock a) = some ((s.groups g).lock a, []) := rfl
    change Group.Within (c g) (lockGroups s.groups a descs.descs g)
    rw [lockGroups]
    split_ifs
    · exact (h.within g).perform (h.calm.calm g) hp
    · exact h.within g
  · have hnd := h.nodup
    rw [add_zero] at hnd
    rw [hhandles]
    exact nodup_add_newLocks h.calm hnd hold descs
  · rw [hhandles] at hl
    exact queued_add_newLocks hold hl
  · change _ ≤ (lockGroups s.groups a descs.descs g).running
    rw [(hfast g).1, Multiset.add_cons, Multiset.count_cons_of_ne (by simp)]
    exact h.running g
  · rw [← (hfast g).2]
    exact he
  · have hq := h.queued_of_task (Pool.mem_tasks_of_started ht) hl
    exact (lockGroups_handle h.calm hq).2.1.trans (h.started p t ht l hl)

/-- `get_groups_lock`: the new lock is over the groups of the task. -/
theorem Granted.getGroupsLock {x : Submission n} {groups : Groups} {groupLock : Option CombinedLock}
    (h : Granted G c s 0)
    (hs : getGroupsLock s.groups ⟨x.task.id, x.task.priority, x.pool⟩ x.groups =
      (groups, groupLock)) : Granted G c { s with groups := groups }
        (TaskLock.ofOption groupLock ::ₘ 0) ∧
      (TaskLock.ofOption groupLock).groups = x.groups.descs := by
  rw [Scheduler.getGroupsLock] at hs
  split_ifs at hs with hempty
  · obtain ⟨rfl, rfl⟩ := Prod.mk.inj hs
    have hcount : ∀ g, (s.locks + TaskLock.none ::ₘ 0).count (.running g) =
        (s.locks + 0).count (.running g) := fun g => by
      rw [Multiset.add_cons, Multiset.count_cons_of_ne (by simp)]
    have hhandles : handlesOf (s.locks + TaskLock.none ::ₘ 0) = handlesOf (s.locks + 0) := by
      rw [Multiset.add_cons, handlesOf_cons]
      exact zero_add _
    refine ⟨⟨h.calm, h.within, ?_, ?_, fun g => ?_, h.tagged, h.parked, h.started⟩, hempty.symm⟩
    · exact hhandles ▸ h.nodup
    · exact hhandles ▸ h.queued
    · exact (hcount g).trans_le (h.running g)
  · rw [addLocks_eq x.groups.nodup] at hs
    obtain ⟨rfl, rfl⟩ := Prod.mk.inj hs
    refine ⟨h.makeLocks, ?_⟩
    rw [TaskLock.ofOption, TaskLock.groups, groups_newLocks]

/-! ## The steps -/

/-- A task is submitted with the groups that its id stands for. -/
def GroupsGiven (G : ℕ → GroupSet) (_ : SchedulerState n) : Action n → Prop
  | .submit _ x => x.groups.descs = (G x.task.id).descs
  | _ => True

instance (G : ℕ → GroupSet) (s : SchedulerState n) : ∀ a : Action n, Decidable (GroupsGiven G s a)
  | .submit _ x => inferInstanceAs (Decidable (x.groups.descs = (G x.task.id).descs))
  | .start _ => .isTrue trivial
  | .getTask _ _ => .isTrue trivial
  | .putBack _ _ => .isTrue trivial
  | .wake _ _ => .isTrue trivial
  | .finish _ _ => .isTrue trivial
  | .finishInline _ _ _ => .isTrue trivial
  | .notify _ _ => .isTrue trivial
  | .stop _ _ _ => .isTrue trivial
  | .stopReturn _ => .isTrue trivial
  | .addIdleTask _ _ => .isTrue trivial
  | .removeIdleTask _ _ => .isTrue trivial

/-- The task that an operation has in its hands comes with its groups, and the lock that has been
made for it is over these. -/
def Hand.Tagged (G : ℕ → GroupSet) : Hand n → Prop
  | .task x => x.groups.descs = (G x.task.id).descs
  | .locked x lock => lock.groups = (G x.task.id).descs
  | .dropped _ => True

/-- What holds in the middle of an operation: the tasks that have still to be handed over have their
`RunningLock`s. -/
structure GrantedMidway (G : ℕ → GroupSet) (c : GroupId → ℕ) (m : Midway n) : Prop where
  granted : Granted G c m.state
    (Multiset.replicate (startedBy m.events).length (.running m.group) + m.hand.locks)
  tagged : m.hand.Tagged G
  started : ∀ t ∈ startedBy m.events, (G t.id).descs = [m.group]

/-- When no callbacks are to be made, the operation has only the locks in its hands. -/
theorem GrantedMidway.of_nil {h : Hand n} {gone : Multiset ReactionTask}
    (hg : Granted G c s h.locks) (htag : h.Tagged G) : GrantedMidway G c ⟨s, h, g, [], gone⟩ := by
  refine ⟨?_, htag, fun t ht => absurd ht (List.not_mem_nil)⟩
  show Granted G c s (0 + h.locks)
  rwa [zero_add]

/-- **Whatever an operation does, it keeps the grants in order**; one case for each thing that it
can do. -/
theorem GrantedMidway.does {skips : Prop} {m m' : Midway n} (h : GrantedMidway G c m)
    (hd : Does skips m m') : GrantedMidway G c m' := by
  obtain ⟨hg, htag, hst⟩ := h
  have hnil {s : SchedulerState n} {g : GroupId} {hand : Multiset TaskLock}
      (hg : Granted G c s (Multiset.replicate (startedBy []).length (.running g) + hand)) :
      Granted G c s hand := by
    rwa [show Multiset.replicate (startedBy []).length (TaskLock.running g) = 0 from rfl,
      zero_add] at hg
  cases hd with
  | unmoved hu => exact ⟨hg.unmoved hu, htag, hst⟩
  | turn => exact .of_nil (hnil hg) htag
  | @tryAcquire s x g group ev m hx hr =>
    rcases (hg.calm.quiet g).tryAcquire_cases with ⟨-, -, heq⟩ | heq <;> rw [hr] at heq <;>
      obtain ⟨hgroup, hrest⟩ := Prod.mk.inj heq
    · exact absurd (Prod.mk.inj hrest).1 (by simp)
    · have hev : ev = [] := (Prod.mk.inj hrest).2
      have hsame : s.setGroup g group = s := by
        rw [hgroup, SchedulerState.setGroup, Function.update_eq_self]
      subst hev
      exact hsame.symm ▸ ⟨hg, htag, hst⟩
  | @acquire s x g group ev m hx hr =>
    exact .of_nil ((hnil hg).acquire hr) (hx.symm.trans htag)
  | @trySubmit s x g b m hx =>
    have hgroup : (G x.task.id).descs = [g] := htag.symm.trans hx
    refine ⟨(hnil hg).trySubmit hgroup, trivial, fun t ht => ?_⟩
    rcases (hg.calm.quiet g).starts_trySubmit ⟨x.task, x.pool, b⟩ with ⟨hev, -, -⟩ | ⟨hev, -, -⟩
    · have ht : t ∈ startedBy ((s.groups g).trySubmit ⟨x.task, x.pool, b⟩).2 := ht
      rw [hev] at ht
      obtain rfl := List.mem_singleton.mp ht
      exact hgroup
    · have ht : t ∈ startedBy ((s.groups g).trySubmit ⟨x.task, x.pool, b⟩).2 := ht
      rw [hev] at ht
      exact absurd ht (List.not_mem_nil)
  | @admitted s x g b m hx =>
    exact .of_nil hg (hst x.task (List.mem_singleton_self _)).symm
  | getGroupsLock hr =>
    obtain ⟨hnew, hgroups⟩ := (hnil hg).getGroupsLock hr
    exact .of_nil hnew (hgroups.trans htag)
  | @tryLock s x lock g m hl =>
    have hg : Granted G c s (lock ::ₘ 0) := hnil hg
    exact .of_nil hg.tryLock.1 htag
  | @runInline s x lock g m hl =>
    have hg : Granted G c s (lock ::ₘ 0) := hnil hg
    exact .of_nil (hg.tryLock.1.runInline htag (hg.tryLock.2 hl)) trivial
  | submitTo hfree => exact .of_nil ((hnil hg).submit htag) trivial
  | refuse => exact ⟨hg, trivial, hst⟩
  | @runningDestroy s locks g m hrun =>
    refine ⟨(hnil hg).runningDestroy hrun, trivial, fun t ht => ?_⟩
    obtain ⟨e, he, rfl⟩ := (Group.starts_runningDestroy (s.groups g)).origin t ht
    exact hg.parked g e he
  | @handleDestroy s l ls locks m =>
    refine ⟨(hnil hg).handleDestroy, trivial, fun t ht => ?_⟩
    obtain ⟨e, he, rfl⟩ := (Group.starts_handleDestroy (s.groups l.group) l.handle).origin t ht
    exact hg.parked l.group e he
  | destroyed hl => exact .of_nil ((hnil hg).mono (Multiset.le_cons_self _ _)) trivial
  | @submitted s h g e ev w p m he hp hfree =>
    have hcons := startedBy_cons_of_some ev he
    rw [hcons] at hg hst
    refine ⟨Granted.submit ?_ (hst w.task (List.mem_cons_self ..)).symm, htag,
      fun t ht => hst t (List.mem_cons_of_mem _ ht)⟩
    rw [← Multiset.cons_add]
    exact hg
  | @astray s h g e ev w m he hp =>
    have hcons := startedBy_cons_of_some ev he
    rw [hcons] at hg hst
    refine ⟨hg.mono (add_le_add_left ?_ _), htag, fun t ht => hst t (List.mem_cons_of_mem _ ht)⟩
    exact Multiset.le_cons_self _ _
  | @called s s' h g e ev m he hu hn =>
    have hcons := startedBy_cons_of_none ev he
    rw [hcons] at hg hst
    exact ⟨hg.unmoved hu, htag, hst⟩
  | moveWorker hw ht ht' => exact .of_nil ((hnil hg).moveWorker hw ht ht') trivial
  | finish hw =>
    refine .of_nil ((hnil hg).setWorker hw ?_ (fun u hu => absurd hu (List.not_mem_nil))
      fun u hu => absurd hu (List.not_mem_nil)) trivial
    exact le_of_eq (add_comm _ _)
  | finishInline ht =>
    have hperm := Pool.tasks_erase_inlined ht
    refine .of_nil ((hnil hg).setPool ?_ (fun u hu => Or.inl ?_) fun u hu => Or.inl ?_) trivial
    · rw [Pool.locks_of_perm hperm, Multiset.cons_add, ← Multiset.add_cons]
      exact le_rfl
    · exact hperm.mem_iff.mpr (List.mem_cons_of_mem _ hu)
    · rcases List.mem_append.mp hu with hu | hu
      · exact List.mem_append_left _ hu
      · exact List.mem_append_right _ (List.mem_of_mem_erase hu)
  | sleep hs =>
    exact .of_nil ((hnil hg).setPool le_rfl (fun t ht => Or.inl ht) fun t ht => Or.inl ht) trivial
  | take hw hfree hlive hd hl => exact .of_nil ((hnil hg).take hw hd hl) trivial
  | fail hw hfree hlive hd hl hskip => exact .of_nil ((hnil hg).fail hw hd) trivial
  | putBack hw => exact .of_nil ((hnil hg).putBack hw) trivial
  | drain => exact .of_nil (hnil hg).drainQueues trivial
  | start hw => exact .of_nil ((hnil hg).start hw) trivial

/-- **Every step keeps the grants in order**, as a walk does. -/
theorem Granted.step {a : Action n} (h : Granted G c s 0) (hok : GroupsGiven G s a)
    (hs : step s a = some s') : Granted G c s' 0 := by
  obtain ⟨refused, -, hwalk⟩ := walk_step True (Or.inl trivial) hs
  have hstart : GrantedMidway G c ⟨s, arrives a, 0, [], 0⟩ := by
    cases a with
    | submit current x => exact ⟨h, hok, fun t ht => absurd ht (List.not_mem_nil)⟩
    | _ => exact ⟨h, trivial, fun t ht => absurd ht (List.not_mem_nil)⟩
  exact (hwalk.invariant hstart fun _ _ => GrantedMidway.does).granted

theorem granted_of_reaches {descriptors : Fin n → PoolDescriptor} {mainThread : Fin n} {k : ℕ}
    (h : Reaches SchedulerState.step (GroupsGiven G) (start c descriptors mainThread k) s) :
    Granted G c s 0 :=
  h.invariant (P := fun s => Granted G c s 0) (granted_start G c descriptors mainThread k)
    fun _ _ _ hx hok hs => Granted.step hx hok hs

/-! ## The limit -/

/-- All tasks that run, in all pools. -/
def startedTasks (s : SchedulerState n) : Multiset PoolTask :=
  ∑ p, ((s.pools p).started : Multiset PoolTask)

theorem mem_startedTasks : t ∈ s.startedTasks ↔ ∃ p, t ∈ (s.pools p).started := by
  rw [startedTasks, Multiset.mem_sum]
  exact ⟨fun ⟨p, _, h⟩ => ⟨p, h⟩, fun ⟨p, h⟩ => ⟨p, Finset.mem_univ p, h⟩⟩

theorem locks_startedTasks_le (s : SchedulerState n) :
    s.startedTasks.map PoolTask.lock ≤ s.locks := by
  rw [startedTasks, locks, ← Multiset.mapAddMonoidHom_apply, map_sum]
  refine Finset.sum_le_sum fun p _ => Multiset.coe_le.mpr ?_
  refine (List.Sublist.map PoolTask.lock ?_).subperm
  refine .trans ?_ (List.sublist_append_right _ _)
  refine List.Sublist.append ?_ (.refl _)
  induction (s.pools p).workers with
  | nil => exact .refl _
  | cons w ws ih =>
    rw [List.flatMap_cons, List.flatMap_cons]
    refine List.Sublist.append ?_ ih
    cases w <;> first | exact .refl _ | exact List.nil_sublist _

/-- The handles that the running tasks have of a group are locked, and no two of them are the
same. -/
theorem Granted.countP_handles_le (h : Granted G c s 0) (g : GroupId) :
    ((handlesOf (s.startedTasks.map PoolTask.lock)).countP (fun l => l.group = g) : ℤ) ≤
      (s.groups g).lockedCount := by
  have hle : handlesOf (s.startedTasks.map PoolTask.lock) ≤ handlesOf (s.locks + 0) := by
    rw [add_zero]
    exact handlesOf_mono (locks_startedTasks_le s)
  have hnd := Multiset.nodup_of_le hle h.nodup
  rw [Multiset.countP_eq_card_filter, Group.lockedCount_eq_length, Nat.cast_le]
  set m := (handlesOf (s.startedTasks.map PoolTask.lock)).filter fun l => l.group = g with hm
  have hgroup : ∀ l ∈ m, l.group = g := by
    intro l hl
    rw [hm, Multiset.mem_filter] at hl
    exact hl.2
  have hmap : (m.map GroupLock.handle).Nodup := by
    refine Multiset.Nodup.map_on (fun l hl l' hl' heq => ?_) (hnd.filter _)
    have hg := (hgroup l hl).trans (hgroup l' hl').symm
    cases l
    cases l'
    exact congrArg₂ GroupLock.mk hg heq
  have hsub : m.map GroupLock.handle ⊆ ((s.groups g).lockedHandles : Multiset ℕ) := by
    intro r hr
    obtain ⟨l, hl, rfl⟩ := Multiset.mem_map.mp hr
    obtain ⟨lock, hlock, hmem⟩ := Multiset.mem_bind.mp (Multiset.mem_of_mem_filter hl)
    obtain ⟨t, ht, rfl⟩ := Multiset.mem_map.mp hlock
    obtain ⟨p, ht⟩ := mem_startedTasks.mp ht
    have hq := h.queued_of_task (Pool.mem_tasks_of_started ht) hmem
    have hlocked := h.started p t ht l hmem
    rw [← hgroup l hl]
    exact Multiset.mem_coe.mpr (List.mem_filter.mpr ⟨hq, hlocked⟩)
  have hcard := Multiset.card_le_card (Multiset.le_iff_subset hmap |>.mpr hsub)
  rwa [Multiset.card_map, Multiset.coe_card] at hcard

/-- **A group's limit holds over the whole scheduler.**  In every run, at every moment, no more
tasks of a group run than its concurrency, whatever pools they run on and whether they run inline or
not. -/
theorem started_le_concurrency {descriptors : Fin n → PoolDescriptor} {mainThread : Fin n} {k : ℕ}
    (h : Reaches SchedulerState.step (GroupsGiven G) (start c descriptors mainThread k) s)
    (g : GroupId) : s.startedTasks.countP (fun t => g ∈ (G t.task.id).descs) ≤ c g := by
  have hg := granted_of_reaches h
  have htag : s.startedTasks.countP (fun t => g ∈ (G t.task.id).descs) =
      (s.startedTasks.map PoolTask.lock).countP fun lock => g ∈ lock.groups := by
    rw [Multiset.countP_map, Multiset.countP_eq_card_filter]
    refine congrArg Multiset.card (Multiset.filter_congr fun t ht => ?_)
    obtain ⟨p, ht⟩ := mem_startedTasks.mp ht
    rw [hg.tagged p t (Pool.mem_tasks_of_started ht)]
  have hrun : (s.startedTasks.map PoolTask.lock).count (.running g) ≤ (s.groups g).running := by
    refine (Multiset.count_le_of_le _ (locks_startedTasks_le s)).trans ?_
    have := hg.running g
    rwa [add_zero] at this
  have hlocked := hg.countP_handles_le g
  have hsplit := countP_groups_le (s.startedTasks.map PoolTask.lock) g
  have hwithin := hg.within g
  rw [Group.Within] at hwithin
  rw [htag]
  omega

/-- Three tasks of group 0: the first one runs in the second pool, the second one is parked, and the
third one, which is over group 1 as well, has to wait in the first pool. -/
def sharedGroup : List (Action 2) :=
  [.start firstPool, .start secondPool,
    .submit none ⟨⟨1, 500⟩, secondPool, .single 0, false⟩, .getTask secondPool 0,
    .submit none ⟨⟨2, 500⟩, firstPool, .single 0, true⟩,
    .submit none ⟨⟨3, 500⟩, firstPool, .pair Nat.zero_lt_one, true⟩, .getTask firstPool 0]

def sharedGroups (id : ℕ) : GroupSet := if id = 3 then .pair Nat.zero_lt_one else .single 0

theorem started_le_concurrency_sharedGroup :
    ∃ s, exec step (start (fun _ => 1) twoPools 0 1) sharedGroup = some s ∧
      (s.pools 0).tasks.length = 1 ∧ ((s.groups 0).parked).length = 1 ∧
      s.startedTasks.countP (fun t => 0 ∈ (sharedGroups t.task.id).descs) ≤ 1 := by
  obtain ⟨s, hs⟩ := Option.isSome_iff_exists.mp
    (by decide : (exec step (start (fun _ => 1) twoPools 0 1) sharedGroup).isSome = true)
  have hend : (exec step (start (fun _ => 1) twoPools 0 1) sharedGroup).map
      (fun s => ((s.pools 0).tasks.length, (s.groups 0).parked.length)) = some (1, 1) := by decide
  have hok : execOk step (GroupsGiven sharedGroups)
    (start (fun _ => 1) twoPools 0 1) sharedGroup := by
    decide
  rw [hs] at hend
  simp only [Option.map_some, Option.some.injEq, Prod.mk.injEq] at hend
  exact ⟨s, hs, hend.1, hend.2, started_le_concurrency (reaches_of_exec hs hok) 0⟩

end SchedulerState

end Scheduler
end NUClear
