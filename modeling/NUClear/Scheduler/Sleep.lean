import NUClear.Scheduler.Walk

/-!
# A pool does not sleep on runnable work

A pool is asleep when its flag `live` is cleared, or while a worker holds its mutex to put a task
back.  Then none of its tasks that have still to be run could be run now: this is `SleepsSafely`,
without handles in hand and without callbacks to make, and every step keeps it but one.

The exception is a worker whose task does not get its lock.  It puts the task back and clears
`live`, without a look at the tasks behind it.  `SkipsNobody` is the condition that none of them
could be run.

The proof has one lemma for each thing that an operation can do.  The hard ones are about the
groups.  A call on a group may make the lock of a task ready that no pool will look at, and then one
of the callbacks of the call is for the pool of this task; until the callback is made, it is what
the pool may sleep on.

* `SleepsSafely.of_cons`: a callback has been made.
* `SleepsSafely.call`: a call on a group, before its callbacks are made.  `SleepsSafely.fastCall`
  and `SleepsSafely.handleDestroy` are its two uses.
* `SleepsSafely.tryLock`: `CombinedLock::lock` makes nobody else's lock ready.
* `SleepsSafely.makeLocks`, `SleepsSafely.getGroupsLock`: new handles make no lock ready, and they
  tell the pool of the new task.
* `SleepsSafely.setWorker`, `SleepsSafely.dequeue`, `SleepsSafely.take`, `SleepsSafely.fail`,
  `SleepsSafely.putBack`: what a worker does.  Only `fail` needs the condition.
* `SleepsMidway`: the invariant of an operation in progress, with what holds of the lock that it has
  made for a task.  `SleepsMidway.does` has one case for each thing that an operation can do.
* `waitPredicate_of_ready`: in a run that skips nobody, a pool with a task in its buckets that could
  be run has a true wait predicate.
* `asleep_of_failsWithAnother`: in a run that skips a task, it can be false.
-/

namespace NUClear
namespace Scheduler

open Foundation

namespace SchedulerState

variable {c : GroupId → ℕ} {n : ℕ} {s s' : SchedulerState n} {p q : Fin n} {P : Pool}
  {hand hand' : Multiset GroupLock} {current : Option (Fin n)} {t : PoolTask} {g : GroupId}
  {ev : List Event} {e : Event} {i : ℕ} {w w' : Worker} {task : ReactionTask} {lock : TaskLock}

/-- When no callback is on its way, a pool that is asleep has nothing that could be run. -/
theorem SleepsSafely.not_ready (h : SleepsSafely c s hand []) (hs : Asleep (s.pools p))
    (ht : t ∈ (s.pools p).queued) : t.lock.ready s.groups = false := by
  rcases h.asleep p hs t ht with hno | ⟨r, hr⟩
  · exact hno
  · exact absurd hr (List.not_mem_nil)

/-! ## Pools -/

/-- A callback that has been made, and needs not be expected any more. -/
theorem SleepsSafely.of_cons (h : SleepsSafely c s hand (e :: ev))
    (he : ∀ r (q : Fin n), e = .notify r (q : ℕ) → ¬ Asleep (s.pools q)) :
    SleepsSafely c s hand ev := by
  refine { h with asleep := fun q hs t ht => ?_ }
  rcases h.asleep q hs t ht with hno | ⟨r, hr⟩
  · exact Or.inl hno
  · rcases List.mem_cons.mp hr with heq | hr
    · exact absurd hs (he r q heq.symm)
    · exact Or.inr ⟨r, hr⟩

theorem mem_queued_submit {P : Pool} (ht : t ∈ (P.submit task lock).queued) :
    t ∈ P.queued ∨ t.lock = lock := by
  rcases List.mem_append.mp ht with ht | ht
  · rcases List.mem_cons.mp ((Buckets.contents_enqueue_perm P.buckets _ _).mem_iff.mp ht) with rfl |
      ht
    · exact Or.inr rfl
    · exact Or.inl (List.mem_append_left _ ht)
  · exact Or.inl (List.mem_append_right _ ht)

/-- A task is submitted with a lock from the hands of the operation, and wakes its pool up. -/
theorem SleepsSafely.submit (h : SleepsSafely c s (lock.handles + hand) ev)
    (hfree : (s.pools p).mutexFree = true) (hn : (lock.handles.map GroupLock.group).Nodup)
    (ht : ∀ l ∈ lock.handles, (handleAt s.groups l).notify = (p : ℕ)) :
    SleepsSafely c (s.setPool p ((s.pools p).submit task lock)) hand ev := by
  refine h.setPool ?_ (fun t hm => ?_) fun hs => ?_
  · rw [Pool.handles_of_perm (Pool.tasks_submit _ task lock)]
    exact le_of_eq (by abel)
  · rcases mem_queued_submit hm with hm | hl
    · exact Or.inl hm
    · exact Or.inr (hl ▸ ⟨hn, ht⟩)
  · rcases hs with hs | hs
    · exact absurd hs (by simp [Pool.submit])
    · exact absurd (hfree.symm.trans hs) (by simp)

/-- A task that runs inline, and has not to be run by a worker. -/
theorem SleepsSafely.runInline {x : Submission n} (h : SleepsSafely c s (lock.handles + hand) []) :
    SleepsSafely c (s.runInline x lock) hand [] := by
  refine h.setPool ?_ (fun t ht => Or.inl ht) fun hs => h.asleep _ hs
  rw [Pool.handles_of_perm (Pool.tasks_append_inlined _ _)]
  exact le_of_eq (by abel)

/-! ## Operations of the groups -/

/-- **One call on one group**, before its callbacks are made. -/
theorem SleepsSafely.call (call : Group.Call) {x : Group} (h : SleepsSafely c s hand' [])
    (hle : hand ≤ hand') (hp : (s.groups g).perform call = some (x, ev))
    (hk : ∀ l ∈ s.handles + hand, KeptAt s.groups (Function.update s.groups g x) ev l) :
    SleepsSafely c (s.setGroup g x) hand ev := by
  have hpool : ∀ p, ∀ t ∈ (s.pools p).queued, ∀ l ∈ t.lock.handles, l ∈ s.handles + hand :=
    fun p t ht l hl => Multiset.mem_add.mpr (Or.inl (mem_handles (Pool.mem_tasks_of_queued ht) hl))
  refine ⟨h.calm.update hp, h.flags.update h.calm hp,
    Multiset.nodup_of_le (add_le_add_right hle _) h.nodup, fun l hl => (hk l hl).queued,
    h.groups, fun p t ht l hl => ?_, fun p hs t ht => ?_⟩
  · exact (hk l (hpool p t ht l hl)).notify.trans (h.target p t ht l hl)
  · have hno := h.not_ready hs ht
    cases hyes : t.lock.ready (s.setGroup g x).groups with
    | false => exact Or.inl rfl
    | true =>
      obtain ⟨l, hl, hev⟩ := exists_notify_of_ready h.flags (h.groups p t ht)
        (fun l hl => hk l (hpool p t ht l hl)) (h.queued_of_task ht) hno hyes
      rw [h.target p t ht l hl] at hev
      exact Or.inr ⟨l.handle, hev⟩

/-- A call on the fast path, which is about no handle. -/
theorem SleepsSafely.fastCall (call : Group.Call) {x : Group} (h : SleepsSafely c s hand [])
    (hf : call.isFast = true) (hp : (s.groups g).perform call = some (x, ev)) :
    SleepsSafely c (s.setGroup g x) hand ev := by
  refine h.call _ le_rfl hp fun l hl => ?_
  refine keptAt_update (h.queued l hl) fun hg => ?_
  rw [← hg] at hp
  exact Group.kept_of_fast _ (h.calm.quiet _) hf hp (h.queued l hl)

/-- A handle is destroyed; the pools of those that may lock now are told. -/
theorem SleepsSafely.handleDestroy {l : GroupLock} (h : SleepsSafely c s (l ::ₘ hand) []) :
    SleepsSafely c (s.setGroup l.group ((s.groups l.group).handleDestroy l.handle).1) hand
      ((s.groups l.group).handleDestroy l.handle).2 := by
  have hq : Queued s.groups l :=
    h.queued l (Multiset.mem_add.mpr (Or.inr (Multiset.mem_cons_self ..)))
  refine h.call _ (Multiset.le_cons_self _ _) (perform_handleDestroy hq) fun l' hl' => ?_
  have hne : l' ≠ l := by
    rintro rfl
    have hnd := h.nodup
    rw [Multiset.add_cons] at hnd
    exact (Multiset.nodup_cons.mp hnd).1 hl'
  refine keptAt_handleDestroy h.calm hq (h.queued l' ?_) hne
  rw [Multiset.add_cons]
  exact Multiset.mem_cons_of_mem hl'

/-- The lock of a submission: the handles of the operation are locked, which makes no other lock
ready. -/
theorem SleepsSafely.tryLock (h : SleepsSafely c s (lock.handles + hand) []) :
    SleepsSafely c { s with groups := (lock.lock s.groups).1 } (lock.handles + hand) [] ∧
      ∀ l, Queued s.groups l →
        (handleAt (lock.lock s.groups).1 l).notify = (handleAt s.groups l).notify := by
  cases lock with
  | none | running g => exact ⟨h, fun _ _ => rfl⟩
  | combined lock =>
    have hown : ∀ l ∈ lock.locks, Queued s.groups l := fun l hl =>
      h.queued l (Multiset.mem_add.mpr (Or.inr (Multiset.mem_add.mpr (Or.inl hl))))
    obtain ⟨hcalm, hflags, hframe⟩ := lockAll_frame h.calm h.flags hown
    refine ⟨⟨hcalm, hflags, h.nodup, fun l hl => (hframe l (h.queued l hl)).1, h.groups,
      fun p t ht l hl => ?_, fun p hs t ht => Or.inl ?_⟩, fun l hl => (hframe l hl).2⟩
    · exact (hframe l (h.queued_of_task ht l hl)).2.trans (h.target p t ht l hl)
    · -- nobody else's lock becomes ready
      have hno := h.not_ready hs ht
      refine Bool.eq_false_iff.mpr fun hyes => ?_
      have hk : ∀ l ∈ t.lock.handles, KeptAt s.groups (lockAll s.groups lock.locks).1 [] l := by
        intro l hl
        refine (kept_lockAll h.calm hown (h.queued_of_task ht l hl) fun hmem => ?_).2
        exact Multiset.disjoint_left.mp (Multiset.nodup_add.mp h.nodup).2.2
          (mem_handles (Pool.mem_tasks_of_queued ht) hl) (Multiset.mem_add.mpr (Or.inl hmem))
      obtain ⟨l, -, hev⟩ := exists_notify_of_ready h.flags (h.groups p t ht) hk
        (h.queued_of_task ht) hno hyes
      exact absurd hev (List.not_mem_nil)

/-- The handles that `get_groups_lock` has made are in the hands of the operation. -/
theorem SleepsSafely.makeLocks {a : Group.LockArgs} {descs : GroupSet} (h : SleepsSafely c s 0 []) :
    SleepsSafely c { s with groups := lockGroups s.groups a descs.descs }
      (newLocks s.groups descs.descs : List GroupLock) [] := by
  have hold : ∀ l ∈ s.handles, Queued s.groups l := fun l hl =>
    h.queued l (Multiset.mem_add.mpr (Or.inl hl))
  refine ⟨h.calm.lockGroups a descs.descs, h.flags.lockGroups h.calm a descs.descs,
    nodup_add_newLocks h.calm (Multiset.nodup_add.mp h.nodup).1 hold descs,
    fun l hl => queued_add_newLocks hold hl, h.groups, fun p t ht l hl => ?_,
    fun p hs t ht => Or.inl ?_⟩
  · have hq := h.queued_of_task ht l hl
    exact (lockGroups_handle h.calm hq).2.2.trans (h.target p t ht l hl)
  · have hno := h.not_ready hs ht
    exact ready_of_lockGroups h.calm (h.groups p t ht) (h.queued_of_task ht) hno

/-- `get_groups_lock`: the handles of the new lock tell the pool of the task. -/
theorem SleepsSafely.getGroupsLock {x : Submission n} {groups : Groups}
    {groupLock : Option CombinedLock} (h : SleepsSafely c s 0 [])
    (hs : getGroupsLock s.groups ⟨x.task.id, x.task.priority, x.pool⟩ x.groups =
      (groups, groupLock)) : SleepsSafely c { s with groups := groups }
        ((TaskLock.ofOption groupLock).handles + 0) [] ∧
      ((TaskLock.ofOption groupLock).handles.map GroupLock.group).Nodup ∧
      ∀ l ∈ (TaskLock.ofOption groupLock).handles, (handleAt groups l).notify = (x.pool : ℕ) := by
  rw [Scheduler.getGroupsLock] at hs
  split_ifs at hs with hempty
  · obtain ⟨rfl, rfl⟩ := Prod.mk.inj hs
    exact ⟨h, List.nodup_nil, fun l hl => absurd hl (List.not_mem_nil)⟩
  · rw [addLocks_eq x.groups.nodup] at hs
    obtain ⟨rfl, rfl⟩ := Prod.mk.inj hs
    refine ⟨?_, ?_, fun l hl => ?_⟩
    · rw [add_zero]
      exact h.makeLocks
    · rw [TaskLock.ofOption, TaskLock.handles, groups_newLocks]
      exact x.groups.nodup
    · obtain ⟨hd, heq⟩ := mem_newLocks hl
      rw [heq, lockGroups_new hd]

/-! ## Workers -/

/-- The handles of the task that a worker has, if it has one. -/
def workerHandles (w : Worker) : List GroupLock := w.tasks.flatMap fun t => t.lock.handles

/-- A worker has been given something else to do. -/
theorem handles_setWorker (w' : Worker) {P : Pool} (hw : P.workers[i]? = some w) :
    (P.setWorker i w').handles + (workerHandles w : Multiset GroupLock) =
      P.handles + workerHandles w' := by
  have hperm := (Pool.tasks_setWorker w' hw).flatMap_right fun t => t.lock.handles
  rw [List.flatMap_append, List.flatMap_append, ← Multiset.coe_eq_coe, ← Multiset.coe_add,
    ← Multiset.coe_add] at hperm
  exact hperm

theorem mem_queued_setWorker {P : Pool} (hw : P.workers[i]? = some w)
    (ht : t ∈ (P.setWorker i w').queued) : t ∈ P.queued ∨ w'.putting = some t := by
  obtain ⟨before, after, hb, ha⟩ := Pool.workers_set w' hw
  rw [Pool.queued, Pool.setWorker, List.mem_append, List.mem_filterMap] at ht
  rw [Pool.queued, List.mem_append, List.mem_filterMap, hb]
  rcases ht with ht | ⟨v, hv, ht⟩
  · exact Or.inl (Or.inl ht)
  · rw [ha, List.mem_append, List.mem_cons] at hv
    rcases hv with hv | rfl | hv
    · exact Or.inl (Or.inr ⟨v, List.mem_append_left _ hv, ht⟩)
    · exact Or.inr ht
    · exact Or.inl (Or.inr ⟨v, List.mem_append_right _ (List.mem_cons_of_mem _ hv), ht⟩)

theorem mutexFree_of_setWorker {P : Pool} (hw : P.workers[i]? = some w) (hput : w'.putting = none)
    (hfree : (P.setWorker i w').mutexFree = false) : P.mutexFree = false := by
  obtain ⟨before, after, hb, ha⟩ := Pool.workers_set w' hw
  rw [Pool.mutexFree, Pool.setWorker, ha] at hfree
  rw [Pool.mutexFree, hb]
  simp only [List.all_append, List.all_cons, hput, Option.isNone_none, Bool.true_and] at hfree
  rw [List.all_append, List.all_cons, Bool.and_left_comm, hfree, Bool.and_false]

/-- A worker takes a task from the hands of the operation, or gives it back. -/
theorem SleepsSafely.setWorker (h : SleepsSafely c s hand ev)
    (hw : (s.pools p).workers[i]? = some w)
    (hh : (workerHandles w' : Multiset GroupLock) + hand' ≤ workerHandles w + hand)
    (hput : w'.putting = none) : SleepsSafely c (s.setWorker p i w') hand' ev := by
  have hmem : ∀ t ∈ ((s.pools p).setWorker i w').queued, t ∈ (s.pools p).queued := by
    intro t ht
    refine (mem_queued_setWorker hw ht).resolve_right fun heq => ?_
    exact absurd (hput.symm.trans heq) (by simp)
  refine h.setPool ?_ (fun t ht => Or.inl (hmem t ht)) fun hs t ht => ?_
  · have hsum := handles_setWorker w' hw
    refine le_of_add_le_add_right (a := (workerHandles w : Multiset GroupLock)) ?_
    calc ((s.pools p).setWorker i w').handles + hand' + workerHandles w
        = (s.pools p).handles + (workerHandles w' + hand') := by
          rw [add_right_comm, hsum, add_assoc]
      _ ≤ (s.pools p).handles + (workerHandles w + hand) := by gcongr
      _ = (s.pools p).handles + hand + workerHandles w := by abel
  · exact h.asleep p (hs.imp id fun hf => mutexFree_of_setWorker hw hput hf) t (hmem t ht)

/-- A worker goes from one place to another without a task. -/
theorem SleepsSafely.moveWorker (h : SleepsSafely c s hand ev)
    (hw : (s.pools p).workers[i]? = some w) (ht : w.tasks = []) (ht' : w'.tasks = []) :
    SleepsSafely c (s.setWorker p i w') hand ev := by
  refine h.setWorker hw ?_ ?_
  · rw [workerHandles, workerHandles, ht, ht']
  · cases w' <;> simp_all [Worker.putting, Worker.tasks]

/-- A task is taken out of the buckets, into the hands of the operation. -/
theorem SleepsSafely.dequeue (h : SleepsSafely c s 0 []) (hfree : (s.pools p).mutexFree = true)
    (hlive : (s.pools p).live = true) (hd : (s.pools p).tryDequeueTask = some (t, P)) :
    SleepsSafely c (s.setPool p P) ((t.lock.handles : Multiset GroupLock) + 0) [] := by
  have hperm := List.Perm.of_eq (Pool.tasks_tryDequeueTask hd)
  have hcontents := Pool.contents_tryDequeueTask hd
  obtain ⟨b, buckets, -, rfl⟩ := Pool.tryDequeueTask_cases hd
  refine h.setPool ?_ (fun u hu => Or.inl ?_) fun hs => ?_
  · rw [Pool.handles_of_perm hperm]
    exact le_of_eq (by abel)
  · rw [Pool.queued, hcontents, List.cons_append]
    exact List.mem_cons_of_mem _ hu
  · rcases hs with hs | hs
    · exact absurd (hlive.symm.trans hs) (by simp)
    · exact absurd (hfree.symm.trans hs) (by simp)

/-- The pool falls asleep, with empty buckets or as it was; so nothing is left that it could run. -/
theorem SleepsSafely.sleep (h : SleepsSafely c s hand [])
    (hs : Asleep (s.pools p) ∨ (s.pools p).queued = []) :
    SleepsSafely c (s.setPool p { s.pools p with live := false }) hand [] := by
  refine h.setPool le_rfl (fun t ht => Or.inl ht) fun _ t ht => ?_
  rcases hs with hs | hnil
  · exact h.asleep p hs t ht
  · exact absurd (hnil ▸ (show t ∈ (s.pools p).queued from ht)) (List.not_mem_nil)

/-- A worker takes a task, and the task gets its lock. -/
theorem SleepsSafely.take (h : SleepsSafely c s 0 []) (hw : (s.pools p).workers[i]? = some .looking)
    (hfree : (s.pools p).mutexFree = true) (hlive : (s.pools p).live = true)
    (hd : (s.pools p).tryDequeueTask = some (t, P)) :
    SleepsSafely c (SchedulerState.setWorker
      { s.setPool p P with groups := (t.lock.lock s.groups).1 } p i (.running t)) 0 [] := by
  have hlock := (h.dequeue hfree hlive hd).tryLock.1
  refine hlock.setWorker (w := .looking) ?_ ?_ rfl
  · rw [workers_dequeued hd]
    exact hw
  · simp [workerHandles, Worker.tasks]

/-- A worker takes a task, and the task does not get its lock: the mutex is held from now on, so no
task that is left may be one that could be run. -/
theorem SleepsSafely.fail (h : SleepsSafely c s 0 []) (hw : (s.pools p).workers[i]? = some .looking)
    (hfree : (s.pools p).mutexFree = true) (hlive : (s.pools p).live = true)
    (hd : (s.pools p).tryDequeueTask = some (t, P)) (hl : (t.lock.lock s.groups).2 = false)
    (hskip : ∀ u ∈ P.buckets.contents, u.lock.ready (t.lock.lock s.groups).1 = false) :
    SleepsSafely c (SchedulerState.setWorker
      { s.setPool p P with groups := (t.lock.lock s.groups).1 } p i (.puttingBack t)) 0 [] := by
  obtain ⟨hlock, hnotify⟩ := (h.dequeue hfree hlive hd).tryLock
  set s₁ : SchedulerState n := { s.setPool p P with groups := (t.lock.lock s.groups).1 } with hs₁
  have hp : s₁.pools p = P := setPool_self s p P
  have hw₁ : (s₁.pools p).workers[i]? = some .looking := by
    rw [hs₁, workers_dequeued hd]
    exact hw
  have ht : t ∈ (s.pools p).queued := by
    rw [Pool.queued, Pool.contents_tryDequeueTask hd]
    exact List.mem_cons_self ..
  have hputting : (s.pools p).workers.filterMap Worker.putting = [] := by
    rw [List.filterMap_eq_nil_iff]
    intro v hv
    simpa using List.all_eq_true.mp hfree v hv
  refine hlock.setPool ?_ (fun u hu => ?_) fun _ u hu => Or.inl ?_
  · have hsum := handles_setWorker (.puttingBack t) hw₁
    simp only [workerHandles, Worker.tasks, List.flatMap_nil, List.flatMap_cons,
      List.append_nil, Multiset.coe_nil, add_zero] at hsum
    rw [hsum, add_zero, add_zero]
  · refine (mem_queued_setWorker hw₁ hu).imp id fun heq => ?_
    obtain rfl : t = u := Option.some.inj heq
    refine ⟨h.groups p t ht, fun l hl => ?_⟩
    exact (hnotify l (h.queued_of_task ht l hl)).trans (h.target p t ht l hl)
  · rcases mem_queued_setWorker hw₁ hu with hu | heq
    · rw [hp, Pool.queued, Pool.workers_tryDequeueTask hd, hputting, List.append_nil] at hu
      exact hskip u hu
    · obtain rfl : t = u := Option.some.inj heq
      exact ready_of_failed (h.groups p t ht) (h.queued_of_task ht) hl

/-- The tasks in the buckets are taken into the hands of the operation. -/
theorem SleepsSafely.drainQueues (h : SleepsSafely c s 0 []) :
    SleepsSafely c (s.setPool p (s.pools p).drainQueues.2)
      ((s.pools p).buckets.contents.flatMap fun t => t.lock.handles : List GroupLock) [] := by
  have hmem : ∀ t ∈ (s.pools p).drainQueues.2.queued, t ∈ (s.pools p).queued := by
    intro t ht
    have ht : t ∈ Buckets.empty.contents ++ (s.pools p).workers.filterMap Worker.putting := ht
    rw [Buckets.contents_empty, List.nil_append] at ht
    exact List.mem_append_right _ ht
  refine h.setPool ?_ (fun t ht => Or.inl (hmem t ht)) fun hs t ht => h.asleep p hs t (hmem t ht)
  rw [Pool.handles, Pool.handles, Pool.tasks_drainQueues (s.pools p), List.flatMap_append,
    ← Multiset.coe_add, add_zero, add_comm]

/-- A task whose lock has failed is put back, and the pool is asleep as it was with the mutex held.
-/
theorem SleepsSafely.putBack (h : SleepsSafely c s 0 [])
    (hw : (s.pools p).workers[i]? = some (.puttingBack t)) :
    SleepsSafely c (s.putBack p i t) 0 [] := by
  have hasleep : Asleep (s.pools p) := by
    refine Or.inr (Bool.eq_false_iff.mpr fun hfree => ?_)
    have := List.all_eq_true.mp hfree _ (List.mem_of_getElem? hw)
    exact absurd this (by simp [Worker.putting])
  have hmem : t ∈ (s.pools p).queued :=
    List.mem_append_right _ (List.mem_filterMap.mpr ⟨_, List.mem_of_getElem? hw, rfl⟩)
  set P : Pool := { (s.pools p).enqueue t with live := false } with hP
  have hwP : P.workers[i]? = some (.puttingBack t) := hw
  have hback : ∀ u ∈ (P.setWorker i .waiting).queued, ∃ v ∈ (s.pools p).queued,
    u.lock = v.lock := by
    intro u hu
    rcases mem_queued_setWorker hwP hu with hu | heq
    · rcases List.mem_append.mp hu with hu | hu
      · rcases List.mem_cons.mp ((Buckets.contents_enqueue_perm _ _ _).mem_iff.mp hu) with rfl | hu
        · exact ⟨t, hmem, rfl⟩
        · exact ⟨u, List.mem_append_left _ hu, rfl⟩
      · exact ⟨u, List.mem_append_right _ hu, rfl⟩
    · exact absurd heq (by simp [Worker.putting])
  refine h.setPool ?_ (fun u hu => Or.inr ?_) fun _ u hu => Or.inl ?_
  · have hperm := (Pool.tasks_putBack hw).flatMap_right fun t => t.lock.handles
    exact le_of_eq (congrArg (· + 0)
      (Multiset.coe_eq_coe.mpr ((List.perm_append_left_iff _).mp hperm)))
  · obtain ⟨v, hv, hlock⟩ := hback u hu
    rw [hlock]
    exact ⟨h.groups p v hv, h.target p v hv⟩
  · obtain ⟨v, hv, hlock⟩ := hback u hu
    rw [hlock]
    exact h.not_ready hasleep hv

theorem sleepsSafely_start (c : GroupId → ℕ) (descriptors : Fin n → PoolDescriptor)
    (mainThread : Fin n) (k : ℕ) : SleepsSafely c (start c descriptors mainThread k) 0 [] := by
  have hempty : ∀ p, ((start c descriptors mainThread k).pools p).buckets.contents = [] :=
    fun _ => Buckets.contents_empty
  have hnil : (start c descriptors mainThread k).handles = 0 :=
    Finset.sum_eq_zero fun p _ => by
      rw [Pool.handles, Pool.tasks, hempty]
      rfl
  have hqueued : ∀ p, ((start c descriptors mainThread k).pools p).queued = [] := by
    intro p
    rw [Pool.queued, hempty]
    rfl
  refine ⟨groupsCalm_make c, fun g r hr => absurd hr (List.not_mem_nil), ?_, fun l hl => ?_,
    fun p t ht => ?_, fun p t ht => ?_, fun p _ t ht => ?_⟩
  · rw [hnil, add_zero]
    exact Multiset.nodup_zero
  · rw [hnil, add_zero] at hl
    exact absurd hl (Multiset.notMem_zero l)
  all_goals
    rw [hqueued] at ht
    exact absurd ht (List.not_mem_nil)

/-- `Pool::start`: the new workers look for tasks. -/
theorem SleepsSafely.start {k : ℕ} (h : SleepsSafely c s 0 []) (hw : (s.pools p).workers = []) :
    SleepsSafely c (s.setPool p ((s.pools p).start k)) 0 [] := by
  have hlook : ∀ v ∈ ((s.pools p).start k).workers, v = .looking := fun v hv =>
    List.eq_of_mem_replicate hv
  have hputting : ((s.pools p).start k).workers.filterMap Worker.putting = [] := by
    rw [List.filterMap_eq_nil_iff]
    intro v hv
    rw [hlook v hv]
    rfl
  have hmem : ∀ t ∈ ((s.pools p).start k).queued, t ∈ (s.pools p).queued := by
    intro t ht
    rw [Pool.queued, hputting, List.append_nil] at ht
    exact List.mem_append_left _ ht
  refine h.setPool ?_ (fun t ht => Or.inl (hmem t ht)) fun hs t ht => h.asleep p ?_ t (hmem t ht)
  · rw [Pool.handles, Pool.handles, Pool.tasks_start k hw]
  · refine hs.imp id fun hf => ?_
    have hfree : ((s.pools p).start k).mutexFree = true := by
      rw [Pool.mutexFree, List.all_eq_true]
      intro v hv
      rw [hlook v hv]
      rfl
    exact absurd (hfree.symm.trans hf) (by simp)

/-! ## The steps -/

/-- The lock that has been made for a task is over different groups, and its handles tell the pool
of the task. -/
def Hand.Aimed (groups : Groups) : Hand n → Prop
  | .locked x lock => (lock.handles.map GroupLock.group).Nodup ∧
      ∀ l ∈ lock.handles, (handleAt groups l).notify = (x.pool : ℕ)
  | _ => True

/-- What holds in the middle of an operation, with the locks that it has in its hands and the
callbacks to come. -/
structure SleepsMidway (c : GroupId → ℕ) (m : Midway n) : Prop where
  safely : SleepsSafely c m.state (handlesOf m.hand.locks) m.events
  aimed : m.hand.Aimed m.state.groups

/-- **Whatever an operation does, it lets the pools sleep safely**, if it skips nobody; one case for
each thing that it can do. -/
theorem SleepsMidway.does {m m' : Midway n} (h : SleepsMidway c m) (hd : Does False m m') :
    SleepsMidway c m' := by
  obtain ⟨hsafe, haimed⟩ := h
  cases hd with
  | unmoved hu => exact ⟨hsafe.unmoved hu, hu.groups.symm ▸ haimed⟩
  | turn => exact ⟨hsafe, haimed⟩
  | tryAcquire hx hr =>
    exact ⟨hsafe.fastCall .tryAcquireRunningLock rfl (by simp only [Group.perform, hr]), trivial⟩
  | @acquire s x g group ev m hx hr =>
    have hnil : ev = [] := by
      rcases (hsafe.calm.quiet g).tryAcquire_cases with ⟨-, -, hcase⟩ | hcase <;>
        rw [hr] at hcase
      · exact (Prod.mk.inj (Prod.mk.inj hcase).2).2
      · exact absurd (Prod.mk.inj (Prod.mk.inj hcase).2).1 (by simp)
    subst hnil
    have hcall : SleepsSafely c (s.setGroup g group) 0 [] :=
      hsafe.fastCall .tryAcquireRunningLock rfl (by simp only [Group.perform, hr])
    refine ⟨?_, List.nodup_nil, fun l hl => absurd hl (List.not_mem_nil)⟩
    rw [Hand.locks, handlesOf_singleton]
    exact hcall
  | @trySubmit s x g b m hx =>
    exact ⟨hsafe.fastCall (.trySubmit ⟨x.task, x.pool, b⟩) rfl rfl, trivial⟩
  | admitted hx =>
    refine ⟨?_, List.nodup_nil, fun l hl => absurd hl (List.not_mem_nil)⟩
    rw [Hand.locks, handlesOf_singleton]
    exact hsafe.of_cons fun r q heq => absurd heq (by simp)
  | getGroupsLock hr =>
    obtain ⟨hnew, hn, ht⟩ := hsafe.getGroupsLock hr
    rw [add_zero] at hnew
    refine ⟨?_, hn, ht⟩
    rw [Hand.locks, handlesOf_singleton]
    exact hnew
  | @tryLock s x lock g m hl =>
    have hsafe : SleepsSafely c s (lock.handles + 0) [] := by simpa [Hand.locks] using hsafe
    obtain ⟨hlock, hnotify⟩ := hsafe.tryLock
    refine ⟨by simpa [Hand.locks] using hlock, haimed.1, fun l hl => ?_⟩
    refine (hnotify l (hsafe.queued l ?_)).trans (haimed.2 l hl)
    exact Multiset.mem_add.mpr (Or.inr (Multiset.mem_add.mpr (Or.inl hl)))
  | @runInline s x lock g m hl =>
    have hsafe : SleepsSafely c s (lock.handles + 0) [] := by simpa [Hand.locks] using hsafe
    exact ⟨hsafe.tryLock.1.runInline, trivial⟩
  | @submitTo s x lock g m hfree =>
    have hsafe : SleepsSafely c s (lock.handles + 0) [] := by simpa [Hand.locks] using hsafe
    exact ⟨hsafe.submit hfree haimed.1 haimed.2, trivial⟩
  | refuse => exact ⟨hsafe, trivial⟩
  | @runningDestroy s locks g m hrun =>
    have hsafe : SleepsSafely c s (handlesOf locks) [] := by
      simpa [Hand.locks, TaskLock.handles] using hsafe
    refine ⟨hsafe.fastCall .runningDestroy rfl ?_, trivial⟩
    simp only [Group.perform]
    rw [if_neg hrun]
  | @handleDestroy s l ls locks m =>
    have hsafe : SleepsSafely c s (l ::ₘ handlesOf (.combined ⟨ls⟩ ::ₘ locks)) [] :=
      handlesOf_combined_cons l ls locks ▸ hsafe
    exact ⟨hsafe.handleDestroy, trivial⟩
  | @destroyed s lock locks g m hl =>
    have hnil : lock.handles = [] := by
      cases lock with
      | none | running g => rfl
      | combined lock => exact List.map_eq_nil_iff.mp hl
    refine ⟨?_, trivial⟩
    simpa [Hand.locks, hnil] using hsafe
  | @submitted s h g e ev w p m he hp hfree =>
    have hrest := hsafe.of_cons fun r q heq => absurd he (by rw [heq]; simp [Event.waiter])
    have hlock : SleepsSafely c s ((TaskLock.running g).handles + handlesOf h.locks) ev := by
      simpa [TaskLock.handles] using hrest
    exact ⟨hlock.submit hfree List.nodup_nil fun l hl => absurd hl (List.not_mem_nil), haimed⟩
  | astray he hp =>
    refine ⟨hsafe.of_cons fun r q heq => ?_, haimed⟩
    exact absurd he (by rw [heq]; simp [Event.waiter])
  | called he hu hn => exact ⟨(hsafe.unmoved hu).of_cons hn, hu.groups.symm ▸ haimed⟩
  | moveWorker hw ht ht' => exact ⟨hsafe.moveWorker hw ht ht', trivial⟩
  | @finish s p i t g m hw =>
    refine ⟨hsafe.setWorker hw ?_ rfl, trivial⟩
    simp [Hand.locks, workerHandles, Worker.tasks]
  | @finishInline s p t g m ht =>
    refine ⟨hsafe.setPool ?_ (fun u hu => Or.inl hu) fun hs => hsafe.asleep p hs, trivial⟩
    rw [Pool.handles_of_perm (Pool.tasks_erase_inlined ht), Hand.locks, handlesOf_singleton]
    exact le_of_eq (by rw [Hand.locks, handlesOf_zero]; abel)
  | sleep hs => exact ⟨hsafe.sleep hs, trivial⟩
  | take hw hfree hlive hd hl => exact ⟨hsafe.take hw hfree hlive hd, trivial⟩
  | fail hw hfree hlive hd hl hskip =>
    exact ⟨hsafe.fail hw hfree hlive hd hl (hskip.resolve_left id), trivial⟩
  | putBack hw => exact ⟨hsafe.putBack hw, trivial⟩
  | @drain s p g m =>
    have hsafe : SleepsSafely c s 0 [] := hsafe
    refine ⟨?_, trivial⟩
    rw [Hand.locks, Pool.handlesOf_map_lock]
    exact hsafe.drainQueues
  | start hw => exact ⟨hsafe.start hw, trivial⟩

/-- **Every step lets a pool sleep safely, if it skips nobody**, as a walk does. -/
theorem SleepsSafely.step {a : Action n} (h : SleepsSafely c s 0 []) (hok : SkipsNobody s a)
    (hs : step s a = some s') : SleepsSafely c s' 0 [] := by
  obtain ⟨refused, -, hwalk⟩ := walk_step False (Or.inr hok) hs
  have hstart : SleepsMidway c ⟨s, arrives a, 0, [], 0⟩ := by
    cases a <;> exact ⟨h, trivial⟩
  exact (hwalk.invariant hstart fun _ _ => SleepsMidway.does).safely

theorem sleepsSafely_of_reaches {descriptors : Fin n → PoolDescriptor} {mainThread : Fin n} {k : ℕ}
    (h : Reaches SchedulerState.step SkipsNobody (start c descriptors mainThread k) s) :
    SleepsSafely c s 0 [] :=
  h.invariant (P := fun s => SleepsSafely c s 0 []) (sleepsSafely_start c descriptors mainThread k)
    fun _ _ _ hx hok hs => SleepsSafely.step hx hok hs

/-- **A pool does not sleep on runnable work.**  When a task in the buckets of a pool could be run,
the predicate that its workers wait for is true, also when all of them wait. -/
theorem waitPredicate_of_ready {descriptors : Fin n → PoolDescriptor} {mainThread : Fin n} {k : ℕ}
    (h : Reaches SchedulerState.step SkipsNobody (start c descriptors mainThread k) s)
    (ht : t ∈ (s.pools p).buckets.contents) (hready : t.lock.ready s.groups = true) :
    (s.pools p).waitPredicate = true := by
  by_contra hno
  have hlive : (s.pools p).live = false := by
    rw [Pool.waitPredicate, Bool.or_eq_true, Bool.or_eq_true, Bool.or_eq_true, not_or, not_or,
      not_or] at hno
    simpa using hno.1.1.1
  have := (sleepsSafely_of_reaches h).not_ready (Or.inl hlive) (List.mem_append_left _ ht)
  exact absurd (hready.symm.trans this) (by simp)

/-! ## Two runs -/

/-- Two pools of one thread each, which count for idle reactions and are not persistent. -/
def twoPools : Fin 2 → PoolDescriptor := fun _ => ⟨1, true, false, false⟩

def firstPool : Fin 2 := 0

def secondPool : Fin 2 := 1

/-- A task of group 0 runs in the second pool, and a task over the groups 0 and 1 fails in
the first one. -/
def failsAlone : List (Action 2) :=
  [.start firstPool, .start secondPool,
    .submit none ⟨⟨1, 500⟩, secondPool, .single 0, false⟩, .getTask secondPool 0,
    .submit none ⟨⟨2, 500⟩, firstPool, .pair Nat.zero_lt_one, false⟩,
    .getTask firstPool 0, .putBack firstPool 0]

/-- The first task ends, and the pool of the other one is told. -/
theorem waitPredicate_of_ready_failsAlone :
    ∃ s, exec step (start (fun _ => 1) twoPools 0 1) (failsAlone ++ [.finish 1 0]) = some s ∧
      (s.pools 0).workers = [.waiting] ∧ (s.pools 0).waitPredicate = true := by
  obtain ⟨s, hs⟩ := Option.isSome_iff_exists.mp
    (by decide : (exec step (start (fun _ => 1) twoPools 0 1)
      (failsAlone ++ [.finish 1 0])).isSome = true)
  have hend : (exec step (start (fun _ => 1) twoPools 0 1) (failsAlone ++ [.finish 1 0])).map
      (fun s => ((s.pools 0).buckets.contents.any fun t => t.lock.ready s.groups,
        (s.pools 0).workers)) = some (true, [.waiting]) := by decide
  have hok : execOk step SkipsNobody (start (fun _ => 1) twoPools 0 1)
      (failsAlone ++ [.finish 1 0]) := by decide
  rw [hs] at hend
  simp only [Option.map_some, Option.some.injEq, Prod.mk.injEq] at hend
  obtain ⟨hready, hwait⟩ := hend
  obtain ⟨t, ht, hr⟩ := List.any_eq_true.mp hready
  exact ⟨s, hs, hwait, waitPredicate_of_ready (reaches_of_exec hs hok) ht hr⟩

/-- The same, with a task of no group behind the one that fails. -/
def failsWithAnother : List (Action 2) :=
  [.start firstPool, .start secondPool,
    .submit none ⟨⟨1, 500⟩, secondPool, .single 0, false⟩, .getTask secondPool 0,
    .submit none ⟨⟨2, 500⟩, firstPool, .pair Nat.zero_lt_one, false⟩,
    .submit none ⟨⟨3, 500⟩, firstPool, .empty, false⟩,
    .getTask firstPool 0, .putBack firstPool 0]

/-- The only worker waits, and the task that it could run stays in the bucket. -/
theorem asleep_of_failsWithAnother :
    ¬ ∀ (c : GroupId → ℕ) (n : ℕ) (descriptors : Fin n → PoolDescriptor) (mainThread : Fin n)
      (k : ℕ) (s : SchedulerState n) (p : Fin n) (t : PoolTask), (∀ g, 1 ≤ c g) →
      Reaches step Always (start c descriptors mainThread k) s →
      t ∈ (s.pools p).buckets.contents → t.lock.ready s.groups = true →
      (∀ w ∈ (s.pools p).workers, w = .waiting) → (s.pools p).waitPredicate = true := by
  intro h
  obtain ⟨s, hs⟩ := Option.isSome_iff_exists.mp
    (by decide : (exec step (start (fun _ => 1) twoPools 0 1) failsWithAnother).isSome = true)
  have hend : (exec step (start (fun _ => 1) twoPools 0 1) failsWithAnother).map
      (fun s => ((s.pools 0).buckets.contents.any fun t => t.lock.ready s.groups,
        (s.pools 0).workers, (s.pools 0).waitPredicate)) = some (true, [.waiting], false) := by
    decide
  rw [hs] at hend
  simp only [Option.map_some, Option.some.injEq, Prod.mk.injEq] at hend
  obtain ⟨hready, hwait, hpred⟩ := hend
  obtain ⟨t, ht, hr⟩ := List.any_eq_true.mp hready
  have := h (fun _ => 1) 2 twoPools 0 1 s 0 t (fun _ => le_rfl) (reaches_always_of_exec hs) ht hr
    fun w hw => by
      rw [hwait] at hw
      exact List.mem_singleton.mp hw
  exact absurd (this.symm.trans hpred) (by simp)

end SchedulerState

end Scheduler
end NUClear
