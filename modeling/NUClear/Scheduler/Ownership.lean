import Mathlib.Algebra.BigOperators.Group.Finset.Basic
import Mathlib.Algebra.Order.Group.Multiset
import Mathlib.Data.Fintype.Basic
import Mathlib.Data.Multiset.Bind
import Mathlib.Tactic.Abel
import NUClear.Scheduler.Pool

/-!
# Who owns the handles, and who is told

Every handle in the queue of a group belongs to one `CombinedLock`, and a lock belongs to one task:
one in a bucket, one that a worker has, one that runs inline, or one that is in the hands of the
operation in progress.  So what is done to the lock of one task is never done to the handle of
another one (`SleepsSafely.nodup`).

The groups tell a handle when it can lock (`Kept.tells`), and a handle tells the pool of its task
(`SleepsSafely.target`).  This is how a pool gets to know that one of its tasks can run: when the
pool is asleep, none of its tasks can, or a callback is on its way (`SleepsSafely.asleep`).

* `TaskLock.handles`, `handlesOf`: the handles of one lock and of several ones.
* `lockAll_frame`: `CombinedLock::lock` keeps the groups calm and the flags exact, and all handles
  stay in their queues.  `ready_of_failed`: a lock that has failed fails again.
* `exists_notify_of_ready`: when a lock that could not be taken can be taken after a call, the call
  has told one of its handles.  `ready_of_lockGroups`: new handles make no lock ready.
* `nodup_add_newLocks`: the handles that `get_groups_lock` makes are new.
* `Pool.tasks`: all tasks of a pool, with one lemma for each thing that is done to them
  (`tasks_submit`, `tasks_setWorker`, `tasks_putBack`, `tasks_drainQueues`, ..).  Whatever is
  counted of the tasks later on, their handles, their locks or the tasks as such, is counted
  through these.
* `SleepsSafely`: the invariant, while an operation has handles in its hands and callbacks to make.
  `SleepsSafely.setPool` says what a pool may be changed to.
* `Unmoved`: two states that differ only in idle state, counters and flags, and so are the same to
  every invariant about tasks.
-/

namespace NUClear
namespace Scheduler

open Foundation

/-! ## The handles of a lock -/

/-- The handles of a lock, one for each of its groups; a `RunningLock` has none. -/
def TaskLock.handles : TaskLock → List GroupLock
  | .combined lock => lock.locks
  | _ => []

/-- The groups that a lock is over, whichever kind of lock it is. -/
def TaskLock.groups : TaskLock → List GroupId
  | .none => []
  | .running g => [g]
  | .combined lock => lock.locks.map GroupLock.group

/-- The handles of some locks; a handle has one owner when it is among them once. -/
def handlesOf (m : Multiset TaskLock) : Multiset GroupLock :=
  m.bind fun lock => (lock.handles : Multiset GroupLock)

section handlesOf

variable {m m' : Multiset TaskLock} {lock : TaskLock} {l : GroupLock}

theorem handlesOf_add (m m' : Multiset TaskLock) :
    handlesOf (m + m') = handlesOf m + handlesOf m' := Multiset.add_bind ..

@[simp] theorem handlesOf_zero : handlesOf 0 = 0 := rfl

@[simp] theorem handlesOf_cons (lock : TaskLock) (m : Multiset TaskLock) :
    handlesOf (lock ::ₘ m) = (lock.handles : Multiset GroupLock) + handlesOf m :=
  Multiset.cons_bind ..

theorem handlesOf_mono (h : m ≤ m') : handlesOf m ≤ handlesOf m' := by
  obtain ⟨k, rfl⟩ := Multiset.le_iff_exists_add.mp h
  rw [handlesOf_add]
  exact Multiset.le_add_right _ _

theorem mem_handlesOf (h : lock ∈ m) (hl : l ∈ lock.handles) : l ∈ handlesOf m :=
  Multiset.mem_bind.mpr ⟨lock, h, hl⟩

@[simp] theorem handlesOf_singleton (lock : TaskLock) :
    handlesOf {lock} = (lock.handles : Multiset GroupLock) := Multiset.singleton_bind ..

/-- A `CombinedLock` has lost its first handle, and the others are left. -/
theorem handlesOf_combined_cons (l : GroupLock) (ls : List GroupLock) (m : Multiset TaskLock) :
    handlesOf (.combined ⟨l :: ls⟩ ::ₘ m) = l ::ₘ handlesOf (.combined ⟨ls⟩ ::ₘ m) := by
  rw [handlesOf_cons, handlesOf_cons]
  exact Multiset.cons_add l (ls : Multiset GroupLock) _

@[simp] theorem handlesOf_replicate (k : ℕ) (g : GroupId) :
    handlesOf (Multiset.replicate k (.running g)) = 0 := by
  induction k with
  | zero => rfl
  | succ k ih =>
    rw [Multiset.replicate_succ, handlesOf_cons, ih]
    rfl

end handlesOf

variable {c : GroupId → ℕ} {groups groups' : Groups} {l l' : GroupLock} {locks : List GroupLock}
  {ev : List Event} {g : GroupId} {x : Group} {call : Group.Call}

/-! ## Locks and the groups -/

/-- The flags of every group are exact: a handle that was notified and has not locked would lock. -/
def FlagsExact (groups : Groups) : Prop := ∀ g, (groups g).FlagsExact

theorem FlagsExact.update (hf : FlagsExact groups) (hc : GroupsCalm c groups)
    (hp : (groups g).perform call = some (x, ev)) : FlagsExact (Function.update groups g x) := by
  intro g'
  by_cases hg : g' = g
  · subst hg
    rw [Function.update_self]
    exact (hf g').perform (hc.quiet g') hp
  · rw [Function.update_of_ne hg]
    exact hf g'

theorem FlagsExact.lockGroups (hf : FlagsExact groups) (hc : GroupsCalm c groups)
    (a : Group.LockArgs) (descs : List GroupId) : FlagsExact (lockGroups groups a descs) := by
  intro g
  rw [Scheduler.lockGroups]
  split_ifs
  · have hp : (groups g).perform (.lock a) = some ((groups g).lock a, []) := rfl
    exact (hf g).perform (hc.quiet g) hp
  · exact hf g

/-- One `GroupLock::lock` leaves the callbacks as they are, so a handle tells the pool that it told
before. -/
theorem notify_handleLock (hc : GroupsCalm c groups) (hl : Queued groups l)
    (hl' : Queued groups l') :
    (handleAt (Function.update groups l.group ((groups l.group).handleLock l.handle).1) l').notify =
      (handleAt groups l').notify := by
  by_cases hne : l' = l
  · subst hne
    rw [handleAt, Function.update_self]
    exact (Group.handleLock_self hl).2.2.2.2.2.1
  · exact (keptAt_handleLock [] hc hl hl' hne).notify

/-- What `CombinedLock::lock` leaves as it is. -/
theorem lockAll_frame (hc : GroupsCalm c groups) (hf : FlagsExact groups)
    (hl : ∀ l ∈ locks, Queued groups l) :
    GroupsCalm c (lockAll groups locks).1 ∧ FlagsExact (lockAll groups locks).1 ∧
      ∀ l, Queued groups l → Queued (lockAll groups locks).1 l ∧
        (handleAt (lockAll groups locks).1 l).notify = (handleAt groups l).notify := by
  refine lockAll_preserves _ (P := fun gs => GroupsCalm c gs ∧ FlagsExact gs ∧
    ∀ l, Queued groups l → Queued gs l ∧ (handleAt gs l).notify = (handleAt groups l).notify)
    ⟨hc, hf, fun l hl => ⟨hl, rfl⟩⟩ fun gs hgs l hmem => ?_
  obtain ⟨hc, hf, hq⟩ := hgs
  have hqueued := (hq l (hl l hmem)).1
  obtain ⟨ev, hp⟩ := perform_handleLock hqueued
  refine ⟨hc.update hp, hf.update hc hp, fun l' hl' => ?_⟩
  obtain ⟨hq', hn'⟩ := hq l' hl'
  exact ⟨queued_handleLock hq', (notify_handleLock hc hqueued hq').trans hn'⟩

/-- A `CombinedLock` that has failed fails again, as long as nothing else has happened. -/
theorem lockAll_again (hn : (locks.map GroupLock.group).Nodup) (hl : ∀ l ∈ locks, Queued groups l)
    (hfail : (lockAll groups locks).2 = false) :
    (lockAll (lockAll groups locks).1 locks).2 = false := by
  induction locks generalizing groups with
  | nil => exact absurd hfail (by simp [lockAll])
  | cons l locks ih =>
    obtain ⟨hnot, hn⟩ := List.nodup_cons.mp (List.map_cons ▸ hn)
    obtain ⟨-, hlocked, hwould, -, -, -, -, hsame⟩ :=
      Group.handleLock_self (hl l (List.mem_cons_self ..))
    have hstep := @lockAll_cons groups l locks
    set groups₁ := Function.update groups l.group ((groups l.group).handleLock l.handle).1
      with hgroups₁
    by_cases hlock : ((groups l.group).handleLock l.handle).2 = true
    · -- it keeps the handle that it has
      rw [if_pos hlock] at hstep
      rw [hstep] at hfail ⊢
      have hgroup : (lockAll groups₁ locks).1 l.group = groups₁ l.group :=
        lockAll_of_notMem fun l' hl' heq => hnot (List.mem_map.mpr ⟨l', hl', heq⟩)
      have hhas : ((groups₁ l.group).handles l.handle).locked = true := by
        rw [hgroups₁, Function.update_self, hlocked, hlock]
      have hkeep : ((lockAll groups₁ locks).1 l.group).handleLock l.handle =
          ((lockAll groups₁ locks).1 l.group, true) := by
        rw [hgroup, Group.handleLock, if_pos hhas]
      rw [lockAll_cons, hkeep, if_pos rfl, Function.update_eq_self]
      exact ih hn (fun l' hl' => queued_handleLock (hl l' (List.mem_cons_of_mem _ hl'))) hfail
    · -- it has failed at this handle
      have hno : Group.wouldLock (groups l.group) l.handle = false := by
        rw [← hwould]
        simpa using hlock
      have hgroups : groups₁ = groups := by
        rw [hgroups₁, hsame hno, Function.update_eq_self]
      rw [if_neg hlock, hgroups] at hstep
      rw [hstep]
      exact (congrArg Prod.snd hstep)

/-- A lock that has failed is not ready: the group that stopped it still does. -/
theorem ready_of_failed {lock : TaskLock} (hn : (lock.handles.map GroupLock.group).Nodup)
    (hq : ∀ l ∈ lock.handles, Queued groups l) (hfail : (lock.lock groups).2 = false) :
    lock.ready (lock.lock groups).1 = false := by
  cases lock with
  | none | running g => exact absurd hfail (by simp [TaskLock.lock])
  | combined lock => exact lockAll_again hn hq hfail

/-- When a lock becomes ready, one of its handles is told, since each handle that may lock now and
could not before is. -/
theorem exists_notify_of_ready {lock : TaskLock} (hf : FlagsExact groups)
    (hn : (lock.handles.map GroupLock.group).Nodup)
    (hk : ∀ l ∈ lock.handles, KeptAt groups groups' ev l) (hq : ∀ l ∈ lock.handles, Queued groups l)
    (hno : lock.ready groups = false) (hyes : lock.ready groups' = true) :
    ∃ l ∈ lock.handles, .notify l.handle (handleAt groups l).notify ∈ ev := by
  cases lock with
  | none | running g => exact absurd hno (by simp [TaskLock.ready, TaskLock.lock])
  | combined lock =>
    simp only [TaskLock.handles] at hn hk hq ⊢
    rw [TaskLock.ready, TaskLock.lock, CombinedLock.lock_snd hn hq] at hno
    rw [TaskLock.ready, TaskLock.lock, CombinedLock.lock_snd hn fun l hl => (hk l hl).queued,
      CombinedLock.wouldLock_iff] at hyes
    obtain ⟨l, hl, hw⟩ := CombinedLock.exists_not_wouldLock hno
    refine ⟨l, hl, (hk l hl).tells hw (hyes l hl) ?_⟩
    by_contra hset
    have := hf l.group l.handle (hq l hl) (by simpa using hset)
    exact absurd (hw.symm.trans this) (by simp)

/-- New handles make no lock ready, since they take room and give none. -/
theorem ready_of_lockGroups {lock : TaskLock} {a : Group.LockArgs} {descs : List GroupId}
    (hc : GroupsCalm c groups) (hn : (lock.handles.map GroupLock.group).Nodup)
    (hq : ∀ l ∈ lock.handles, Queued groups l) (hno : lock.ready groups = false) :
    lock.ready (lockGroups groups a descs) = false := by
  cases lock with
  | none | running g => exact absurd hno (by simp [TaskLock.ready, TaskLock.lock])
  | combined lock =>
    simp only [TaskLock.handles] at hn hq
    rw [TaskLock.ready, TaskLock.lock, CombinedLock.lock_snd hn hq] at hno
    rw [TaskLock.ready, TaskLock.lock,
      CombinedLock.lock_snd hn fun l hl => queued_lockGroups (Or.inl (hq l hl))]
    obtain ⟨l, hl, hw⟩ := CombinedLock.exists_not_wouldLock hno
    refine Bool.eq_false_iff.mpr fun hall => ?_
    have := wouldLock_of_lockGroups hc (hq l hl) (CombinedLock.wouldLock_iff.mp hall l hl)
    exact absurd (hw.symm.trans this) (by simp)

/-! ## New handles -/

theorem groups_newLocks (groups : Groups) (descs : List GroupId) :
    (newLocks groups descs).map GroupLock.group = descs := by
  rw [newLocks, List.map_map]
  exact List.map_id descs

theorem mem_newLocks {descs : List GroupId} (hl : l ∈ newLocks groups descs) :
    l.group ∈ descs ∧ l = ⟨l.group, (groups l.group).nextHandle⟩ := by
  obtain ⟨d, hd, rfl⟩ := List.mem_map.mp hl
  exact ⟨hd, rfl⟩

/-- The handles of a new lock are none of those that are in the queues: their numbers are new. -/
theorem nodup_add_newLocks {m : Multiset GroupLock} (hc : GroupsCalm c groups) (hm : m.Nodup)
    (hq : ∀ l ∈ m, Queued groups l) (descs : GroupSet) :
    (m + (newLocks groups descs.descs : List GroupLock)).Nodup := by
  refine Multiset.nodup_add.mpr ⟨hm, ?_, Multiset.disjoint_left.mpr fun {l} hl hmem => ?_⟩
  · refine Multiset.coe_nodup.mpr (List.Nodup.of_map GroupLock.group ?_)
    rw [groups_newLocks]
    exact descs.nodup
  · have hqueue : l.handle ∈ (groups l.group).queue := hq l hl
    rw [(mem_newLocks hmem).2] at hqueue
    exact (hc.quiet l.group).notMem_nextHandle hqueue

theorem queued_add_newLocks {m : Multiset GroupLock} {a : Group.LockArgs} {descs : List GroupId}
    (hq : ∀ l ∈ m, Queued groups l) (hl : l ∈ m + (newLocks groups descs : List GroupLock)) :
    Queued (lockGroups groups a descs) l :=
  queued_lockGroups ((Multiset.mem_add.mp hl).imp (hq l) mem_newLocks)

/-! ## The tasks of a pool -/

namespace Pool

variable {P P' : Pool} {t : PoolTask}

/-- All tasks of the pool: in the buckets, with its workers, and running inline. -/
def tasks (P : Pool) : List PoolTask :=
  P.buckets.contents ++ (P.workers.flatMap Worker.tasks ++ P.inlined)

/-- The tasks that have still to be run: in the buckets, and on their way back there. -/
def queued (P : Pool) : List PoolTask := P.buckets.contents ++ P.workers.filterMap Worker.putting

/-- The handles of all tasks of the pool, with the locks of the tasks. -/
def handles (P : Pool) : Multiset GroupLock :=
  (P.tasks.flatMap fun t => t.lock.handles : List GroupLock)

theorem handlesOf_map_lock (ts : List PoolTask) :
    handlesOf (ts.map PoolTask.lock : List TaskLock) =
      (ts.flatMap fun t => t.lock.handles : List GroupLock) := by
  rw [handlesOf, Multiset.coe_bind, List.flatMap_map]

theorem mem_tasks_of_putting {ws : List Worker} (h : t ∈ ws.filterMap Worker.putting) :
    t ∈ ws.flatMap Worker.tasks := by
  obtain ⟨w, hw, ht⟩ := List.mem_filterMap.mp h
  refine List.mem_flatMap.mpr ⟨w, hw, ?_⟩
  cases w <;> simp_all [Worker.putting, Worker.tasks]

theorem mem_tasks_of_queued (h : t ∈ P.queued) : t ∈ P.tasks := by
  rcases List.mem_append.mp h with h | h
  · exact List.mem_append_left _ h
  · exact List.mem_append_right _ (List.mem_append_left _ (mem_tasks_of_putting h))

theorem mem_handles (ht : t ∈ P.tasks) (hl : l ∈ t.lock.handles) : l ∈ P.handles :=
  Multiset.mem_coe.mpr (List.mem_flatMap.mpr ⟨t, ht, hl⟩)

theorem handles_congr (hb : P'.buckets = P.buckets) (hw : P'.workers = P.workers)
    (hi : P'.inlined = P.inlined) : P'.handles = P.handles := by
  rw [handles, handles, tasks, tasks, hb, hw, hi]

/-- One task more. -/
theorem handles_of_perm (h : P'.tasks.Perm (t :: P.tasks)) :
    P'.handles = t.lock.handles + P.handles := by
  rw [handles, handles, Multiset.coe_add, Multiset.coe_eq_coe]
  exact h.flatMap_right _

/-- A worker has been given something else to do, and the others go on. -/
theorem workers_set {i : ℕ} {w : Worker} (w' : Worker) {ws : List Worker} (h : ws[i]? = some w) :
    ∃ before after, ws = before ++ w :: after ∧ ws.set i w' = before ++ w' :: after := by
  obtain ⟨hi, rfl⟩ := List.getElem?_eq_some_iff.mp h
  refine ⟨ws.take i, ws.drop (i + 1), ?_, ?_⟩
  · rw [← List.drop_eq_getElem_cons hi, List.take_append_drop]
  · rw [List.set_eq_take_append_cons_drop, if_pos hi]

/-! ### What is done to the tasks -/

/-- A worker has other tasks than before. -/
theorem tasks_setWorker {i : ℕ} {w : Worker} (w' : Worker) (h : P.workers[i]? = some w) :
    ((P.setWorker i w').tasks ++ w.tasks).Perm (P.tasks ++ w'.tasks) := by
  obtain ⟨before, after, hb, ha⟩ := workers_set w' h
  have hset : (P.setWorker i w').workers = before ++ w' :: after := ha
  rw [tasks, tasks, hset, hb, show (P.setWorker i w').buckets = P.buckets from rfl,
    show (P.setWorker i w').inlined = P.inlined from rfl, ← Multiset.coe_eq_coe]
  simp only [List.flatMap_append, List.flatMap_cons, ← Multiset.coe_add]
  abel

theorem mem_tasks_setWorker {i : ℕ} {w' : Worker} (h : t ∈ (P.setWorker i w').tasks) :
    t ∈ P.tasks ∨ t ∈ w'.tasks := by
  rw [tasks, List.mem_append, List.mem_append, setWorker, List.mem_flatMap] at h
  rw [tasks, List.mem_append, List.mem_append, List.mem_flatMap]
  rcases h with h | ⟨w, hw, ht⟩ | h
  · exact Or.inl (Or.inl h)
  · rcases List.mem_or_eq_of_mem_set hw with hw | rfl
    · exact Or.inl (Or.inr (Or.inl ⟨w, hw, ht⟩))
    · exact Or.inr ht
  · exact Or.inl (Or.inr (Or.inr h))

/-- A task has been enqueued, and is one more in the buckets. -/
theorem tasks_enqueue (P : Pool) (t : PoolTask) :
    (P.enqueue t).tasks.Perm ({ t with enqueued := P.clock } :: P.tasks) :=
  (Buckets.contents_enqueue_perm P.buckets _ _).append_right _

/-- A task has been submitted, and is one more in the buckets. -/
theorem tasks_submit (P : Pool) (task : ReactionTask) (lock : TaskLock) :
    (P.submit task lock).tasks.Perm (⟨task, lock, P.clock, P.clock⟩ :: P.tasks) :=
  tasks_enqueue P ⟨task, lock, P.clock, P.clock⟩

/-- A task runs inline, and is one more of the pool. -/
theorem tasks_append_inlined (P : Pool) (t : PoolTask) :
    ({ P with inlined := P.inlined ++ [t] } : Pool).tasks.Perm (t :: P.tasks) := by
  rw [tasks, tasks, ← List.append_assoc, ← List.append_assoc, ← List.append_assoc]
  exact List.perm_append_singleton _ _

/-- A task that ran inline is done. -/
theorem tasks_erase_inlined (ht : t ∈ P.inlined) :
    P.tasks.Perm (t :: ({ P with inlined := P.inlined.erase t } : Pool).tasks) := by
  rw [tasks, tasks, ← List.append_assoc, ← List.append_assoc]
  exact ((List.perm_cons_erase ht).append_left _).trans List.perm_middle

theorem tryDequeueTask_cases (h : P.tryDequeueTask = some (t, P')) :
    ∃ b buckets, P.buckets.dequeueFirst = some (b, t, buckets) ∧
      P' = { P with buckets := buckets, pendingTasks := P.pendingTasks - 1 } := by
  rw [tryDequeueTask] at h
  split at h
  · exact absurd h (by simp)
  · rename_i b t' buckets hfirst
    obtain ⟨rfl, rfl⟩ := Prod.mk.inj (Option.some.inj h)
    exact ⟨b, buckets, hfirst, rfl⟩

theorem workers_tryDequeueTask (h : P.tryDequeueTask = some (t, P')) : P'.workers = P.workers := by
  obtain ⟨b, buckets, -, rfl⟩ := tryDequeueTask_cases h
  rfl

/-- A task has been taken out of the buckets, and the others are left there. -/
theorem contents_tryDequeueTask (h : P.tryDequeueTask = some (t, P')) :
    P.buckets.contents = t :: P'.buckets.contents := by
  obtain ⟨b, buckets, hfirst, rfl⟩ := tryDequeueTask_cases h
  exact Buckets.contents_of_dequeueFirst hfirst

theorem tasks_tryDequeueTask (h : P.tryDequeueTask = some (t, P')) :
    P.tasks = t :: P'.tasks := by
  rw [tasks, contents_tryDequeueTask h]
  obtain ⟨b, buckets, -, rfl⟩ := tryDequeueTask_cases h
  rfl

theorem mem_tasks_of_dequeued (h : P.tryDequeueTask = some (t, P')) : t ∈ P.tasks := by
  rw [tasks_tryDequeueTask h]
  exact List.mem_cons_self ..

/-- All tasks have been taken out of the buckets. -/
theorem tasks_drainQueues (P : Pool) : P.tasks = P.buckets.contents ++ P.drainQueues.2.tasks := by
  have hempty : P.drainQueues.2.buckets.contents = [] := Buckets.contents_empty
  rw [tasks, tasks, hempty]
  rfl

/-- A worker has put its task back: it is the same but for the time. -/
theorem tasks_putBack {i : ℕ} (hw : P.workers[i]? = some (.puttingBack t)) :
    (t :: ({ P.enqueue t with live := false }.setWorker i .waiting).tasks).Perm
      ({ t with enqueued := P.clock } :: P.tasks) := by
  have hwP : ({ P.enqueue t with live := false } : Pool).workers[i]? = some (.puttingBack t) := hw
  have hset := tasks_setWorker .waiting hwP
  rw [show Worker.waiting.tasks = [] from rfl, List.append_nil] at hset
  exact (List.perm_append_singleton t _).symm.trans (hset.trans (tasks_enqueue P t))

/-- The workers of a new pool have no tasks. -/
theorem tasks_start (k : ℕ) (hw : P.workers = []) : (P.start k).tasks = P.tasks := by
  have hnone : (P.start k).workers.flatMap Worker.tasks = [] :=
    List.flatMap_eq_nil_iff.mpr fun v hv => by
      rw [List.eq_of_mem_replicate hv]
      rfl
  rw [tasks, tasks, hnone, hw]
  rfl

end Pool

/-! ## The state as a whole -/

namespace SchedulerState

variable {n : ℕ} {s s' : SchedulerState n} {p q : Fin n} {P : Pool}
  {hand hand' : Multiset GroupLock}
  {current : Option (Fin n)} {t : PoolTask}

@[simp] theorem setPool_self (s : SchedulerState n) (p : Fin n) (P : Pool) :
    (s.setPool p P).pools p = P := Function.update_self ..

theorem setPool_of_ne (s : SchedulerState n) (P : Pool) (h : q ≠ p) :
    (s.setPool p P).pools q = s.pools q := Function.update_of_ne h ..

@[simp] theorem setPool_groups (s : SchedulerState n) (p : Fin n) (P : Pool) :
    (s.setPool p P).groups = s.groups := rfl

@[simp] theorem setGroup_pools (s : SchedulerState n) (g : GroupId) (x : Group) :
    (s.setGroup g x).pools = s.pools := rfl

/-- The handles of all tasks of all pools. -/
def handles (s : SchedulerState n) : Multiset GroupLock := ∑ p, (s.pools p).handles

theorem handles_setPool (s : SchedulerState n) (p : Fin n) (P : Pool) :
    (s.setPool p P).handles + (s.pools p).handles = s.handles + P.handles := by
  have hrest : ∑ q ∈ Finset.univ.erase p, ((s.setPool p P).pools q).handles =
      ∑ q ∈ Finset.univ.erase p, (s.pools q).handles :=
    Finset.sum_congr rfl fun q hq => by rw [setPool_of_ne s P (Finset.ne_of_mem_erase hq)]
  rw [handles, handles, ← Finset.add_sum_erase _ _ (Finset.mem_univ p),
    ← Finset.add_sum_erase _ (fun q => (s.pools q).handles) (Finset.mem_univ p),
      hrest, setPool_self]
  abel

/-- A pool that is asleep: no worker will look for a task before it is told, or before the mutex is
free. -/
def Asleep (P : Pool) : Prop := P.live = false ∨ P.mutexFree = false

/-- What holds while an operation has the handles `hand` in its hands and the callbacks `ev` still
to make. -/
structure SleepsSafely (c : GroupId → ℕ) (s : SchedulerState n) (hand : Multiset GroupLock)
    (ev : List Event) : Prop where
  calm : GroupsCalm c s.groups
  flags : FlagsExact s.groups
  /-- No handle has two owners. -/
  nodup : (s.handles + hand).Nodup
  queued : ∀ l ∈ s.handles + hand, Queued s.groups l
  groups : ∀ p, ∀ t ∈ (s.pools p).queued, (t.lock.handles.map GroupLock.group).Nodup
  target : ∀ p, ∀ t ∈ (s.pools p).queued, ∀ l ∈ t.lock.handles,
    (handleAt s.groups l).notify = (p : ℕ)
  asleep : ∀ p, Asleep (s.pools p) → ∀ t ∈ (s.pools p).queued,
    t.lock.ready s.groups = false ∨ ∃ r, Event.notify r (p : ℕ) ∈ ev

theorem mem_handles {l : GroupLock} (ht : t ∈ (s.pools p).tasks) (hl : l ∈ t.lock.handles) :
    l ∈ s.handles :=
  Multiset.mem_sum.mpr ⟨p, Finset.mem_univ p, Pool.mem_handles ht hl⟩

/-- The handles of a task that has still to be run are in their queues. -/
theorem SleepsSafely.queued_of_task (h : SleepsSafely c s hand ev) (ht : t ∈ (s.pools p).queued) :
    ∀ l ∈ t.lock.handles, Queued s.groups l := fun _ hl =>
  h.queued _ (Multiset.mem_add.mpr (Or.inl (mem_handles (Pool.mem_tasks_of_queued ht) hl)))

/-- One pool is changed: it may take handles from the operation, or give it some; the other pools
are as before. -/
theorem SleepsSafely.setPool (h : SleepsSafely c s hand ev)
    (hP : P.handles + hand' ≤ (s.pools p).handles + hand)
    (hq : ∀ t ∈ P.queued, t ∈ (s.pools p).queued ∨ (t.lock.handles.map GroupLock.group).Nodup ∧
      ∀ l ∈ t.lock.handles, (handleAt s.groups l).notify = (p : ℕ))
    (ha : Asleep P → ∀ t ∈ P.queued, t.lock.ready s.groups = false ∨
      ∃ r, Event.notify r (p : ℕ) ∈ ev) : SleepsSafely c (s.setPool p P) hand' ev := by
  have hle : (s.setPool p P).handles + hand' ≤ s.handles + hand := by
    have hsum := handles_setPool s p P
    refine le_of_add_le_add_left (a := (s.pools p).handles) ?_
    calc (s.pools p).handles + ((s.setPool p P).handles + hand')
        = s.handles + (P.handles + hand') := by
          rw [← add_assoc, add_comm (s.pools p).handles, hsum, add_assoc]
      _ ≤ s.handles + ((s.pools p).handles + hand) := by gcongr
      _ = (s.pools p).handles + (s.handles + hand) := by abel
  refine ⟨h.calm, h.flags, Multiset.nodup_of_le hle h.nodup,
    fun l hl => h.queued l (Multiset.mem_of_le hle hl), fun q t ht => ?_, fun q t ht => ?_,
    fun q hs t ht => ?_⟩ <;> by_cases hqp : q = p
  · subst hqp
    rw [setPool_self] at ht
    exact (hq t ht).elim (h.groups q t) And.left
  · rw [setPool_of_ne s P hqp] at ht
    exact h.groups q t ht
  · subst hqp
    rw [setPool_self] at ht
    exact (hq t ht).elim (h.target q t) And.right
  · rw [setPool_of_ne s P hqp] at ht
    exact h.target q t ht
  · subst hqp
    rw [setPool_self] at ht hs
    exact ha hs t ht
  · rw [setPool_of_ne s P hqp] at ht hs
    exact h.asleep q hs t ht

/-- No task is moved, and no pool is put to sleep.  The idle state, the counters and the other flags
of the pools do not matter. -/
structure Unmoved (s s' : SchedulerState n) : Prop where
  groups : s'.groups = s.groups
  buckets : ∀ p, (s'.pools p).buckets = (s.pools p).buckets
  workers : ∀ p, (s'.pools p).workers = (s.pools p).workers
  inlined : ∀ p, (s'.pools p).inlined = (s.pools p).inlined
  clock : ∀ p, (s'.pools p).clock = (s.pools p).clock
  live : ∀ p, (s.pools p).live = true → (s'.pools p).live = true

theorem Unmoved.refl (s : SchedulerState n) : Unmoved s s :=
  ⟨rfl, fun _ => rfl, fun _ => rfl, fun _ => rfl, fun _ => rfl, fun _ => id⟩

theorem Unmoved.trans {s'' : SchedulerState n} (h : Unmoved s s') (h' : Unmoved s' s'') :
    Unmoved s s'' :=
  ⟨h'.groups.trans h.groups, fun p => (h'.buckets p).trans (h.buckets p),
    fun p => (h'.workers p).trans (h.workers p), fun p => (h'.inlined p).trans (h.inlined p),
    fun p => (h'.clock p).trans (h.clock p), fun p hl => h'.live p (h.live p hl)⟩

/-- One pool is changed in other respects: its counters, its flags or its idle state. -/
theorem Unmoved.setPool (hb : P.buckets = (s.pools p).buckets)
    (hw : P.workers = (s.pools p).workers) (hi : P.inlined = (s.pools p).inlined)
    (hc : P.clock = (s.pools p).clock) (hl : (s.pools p).live = true → P.live = true) :
    Unmoved s (s.setPool p P) := by
  constructor
  · rfl
  all_goals
    intro q
    by_cases hq : q = p
    · subst hq
      rw [setPool_self]
      assumption
    · rw [setPool_of_ne s P hq]
      try exact id

theorem Unmoved.queued (h : Unmoved s s') (p : Fin n) :
    (s'.pools p).queued = (s.pools p).queued := by
  rw [Pool.queued, Pool.queued, h.buckets, h.workers]

theorem Unmoved.handles (h : Unmoved s s') : s'.handles = s.handles :=
  Finset.sum_congr rfl fun p _ => Pool.handles_congr (h.buckets p) (h.workers p) (h.inlined p)

theorem Unmoved.mutexFree (h : Unmoved s s') (p : Fin n) :
    (s'.pools p).mutexFree = (s.pools p).mutexFree := by
  rw [Pool.mutexFree, Pool.mutexFree, h.workers]

theorem SleepsSafely.unmoved (h : SleepsSafely c s hand ev) (hu : Unmoved s s') :
    SleepsSafely c s' hand ev := by
  obtain ⟨h₁, h₂, h₃, h₄, h₅, h₆, h₇⟩ := h
  constructor
  · rwa [hu.groups]
  · rwa [hu.groups]
  · rwa [hu.handles]
  · rwa [hu.handles, hu.groups]
  · intro p
    rw [hu.queued]
    exact h₅ p
  · intro p
    rw [hu.queued, hu.groups]
    exact h₆ p
  · intro p hs
    rw [hu.queued, hu.groups]
    refine h₇ p ?_
    rcases hs with hs | hs
    · refine Or.inl (Bool.eq_false_iff.mpr fun hl => ?_)
      exact absurd ((hu.live p hl).symm.trans hs) (by simp)
    · exact Or.inr ((hu.mutexFree p).symm.trans hs)

theorem unmoved_clearPoolIdle (s : SchedulerState n) (p : Fin n) :
    Unmoved s (s.clearPoolIdle p) := by
  rw [clearPoolIdle]
  split_ifs
  · have h := Unmoved.setPool (s := s) (p := p)
      (P := { s.pools p with idle := { (s.pools p).idle with poolIdle := none } }) rfl rfl rfl rfl
      id
    exact ⟨rfl, h.buckets, h.workers, h.inlined, h.clock, h.live⟩
  · exact .refl s

end SchedulerState

end Scheduler
end NUClear
