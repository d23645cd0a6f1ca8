import Mathlib.Algebra.BigOperators.Finprod
import NUClear.Scheduler.Exclusion

/-!
# No task is lost, and none is run twice

A task that has been submitted is in one of the pools, or it is parked in a group, until it has been
run or a forced stop has discarded it.  `work` is the multiset of the tasks that are somewhere; what
the operations of a group take out of it they have handed over to a pool by the time they return.

A ledger that is kept beside the run says which tasks were submitted, and which of them to a pool
that accepted tasks then, which were run to their end and which were discarded.  The books balance
(`Balanced`): no task was lost that a pool had accepted, and none is there twice or came from
nowhere.

* `Group.flow`: what a call leaves in a group and what it hands over to the pools.  The calls that
  are given no task leave it as it was (`flow_releaseToken`, `flow_handleDestroy`), and `try_submit`
  adds its task (`flow_trySubmit`).
* `Moves`: from one state to another, these tasks have come and those have gone.
* `Midway.total`: the tasks that are somewhere in the middle of an operation.  `Midway.Settled.does`
  says that none of the things that an operation does changes it.
* `Settled.step`: what a step does to the tasks.
* `Ledger`, `stepRecorded`: the books, and a step with its entry.
* `work_conserved`: in every run, the tasks that were accepted are among those that are somewhere,
  finished or discarded, and these are among the submitted ones.
-/

namespace NUClear
namespace Scheduler

open Foundation

/-- A sum over all indexes, when one summand is changed. -/
theorem finsum_update {ι M : Type*} [DecidableEq ι] [AddCommMonoid M] {f : ι → M}
    (hf : f.HasFiniteSupport) (i : ι) (m : M) :
    ∑ᶠ j, Function.update f i m j + f i = ∑ᶠ j, f j + m := by
  have hf' : (Function.update f i m).HasFiniteSupport := by
    refine (hf.union (Set.finite_singleton i)).subset fun j hj => ?_
    by_cases hji : j = i
    · exact .inr hji
    · rw [Function.mem_support, Function.update_of_ne hji] at hj
      exact .inl hj
  have hrest : ∑ᶠ (j) (_ : j ≠ i), Function.update f i m j = ∑ᶠ (j) (_ : j ≠ i), f j :=
    finsum_congr fun j => finsum_congr fun hj => Function.update_of_ne hj ..
  rw [← add_finsum_cond_ne i hf', ← add_finsum_cond_ne i hf, hrest, Function.update_self]
  abel

/-! ## What a group has and hands over -/

/-- The tasks that some events hand over to pools, with the pools that they are for. -/
def handedOver (ev : List Event) : Multiset Waiter := (ev.filterMap Event.waiter : List Waiter)

@[simp] theorem handedOver_nil : handedOver [] = 0 := rfl

theorem handedOver_append (ev ev' : List Event) :
    handedOver (ev ++ ev') = handedOver ev + handedOver ev' := by
  rw [handedOver, List.filterMap_append, ← Multiset.coe_add]
  rfl

theorem handedOver_cons (e : Event) (ev : List Event) :
    handedOver (e :: ev) = handedOver [e] + handedOver ev :=
  handedOver_append [e] ev

namespace Group

variable {g : Group}

/-- The parked tasks of the group, as they were submitted to it. -/
def waiters (g : Group) : Multiset Waiter := (g.parked.map WaitEntry.toWaiter : List Waiter)

theorem waiters_congr {g' : Group} (h : g'.waitBuckets = g.waitBuckets) :
    g'.waiters = g.waiters := by
  rw [waiters, waiters, parked, parked, h]

@[simp] theorem handedOver_notifyAll (rs : List ℕ) : handedOver (g.notifyAll rs) = 0 := by
  have hnil : (g.notifyAll rs).filterMap Event.waiter = [] := by
    rw [List.filterMap_eq_nil_iff]
    intro e he
    obtain ⟨r, -, rfl⟩ := mem_notifyAll he
    rfl
  rw [handedOver, hnil, Multiset.coe_nil]

/-- What is left of the parked tasks after a call, and what the call has handed over. -/
def flow (r : Group × List Event) : Multiset Waiter := r.1.waiters + handedOver r.2

theorem flow_drain (g : Group) : flow g.drain = g.waiters := by
  by_cases h : g.parked = []
  · rw [drain_of_parked_nil h]
    exact add_zero _
  · obtain ⟨b, e, q, hd, heq⟩ := drain_of_parked_ne_nil h
    have hcontents : g.parked = e :: q.contents := Buckets.contents_of_dequeueFirst hd
    have hwaiters : g.waiters = e.toWaiter ::ₘ
      (q.contents.map WaitEntry.toWaiter : List Waiter) := by
      rw [waiters, hcontents]
      rfl
    rw [heq, hwaiters, ← Multiset.singleton_add]
    exact add_comm _ _

theorem flow_releaseToken (g : Group) : flow g.releaseToken = g.waiters := by
  rcases releaseToken_cases g with ⟨-, -, heq⟩ | ⟨-, -, heq⟩ | ⟨-, -, heq⟩ <;> rw [heq]
  · exact flow_drain _
  · exact add_zero _
  · have hnone : handedOver ({ g with tokens := g.tokens + 1 }.notifySlowPath).2 = 0 :=
      handedOver_notifyAll _
    rw [flow, hnone, add_zero]
    rfl

theorem flow_runningDestroy (g : Group) : flow g.runningDestroy = g.waiters := flow_releaseToken _

theorem flow_handleDestroy (g : Group) (r : ℕ) : flow (g.handleDestroy r) = g.waiters := by
  have hleave : (g.leaveQueue r).2.waiters = g.waiters := waiters_congr (leaveQueue_waitBuckets r)
  rcases handleDestroy_cases (g := g) r with ⟨-, -, heq⟩ | ⟨-, heq⟩ <;> rw [heq]
  · have hdrain := flow_drain (g.leaveQueue r).2
    rw [flow] at hdrain ⊢
    rw [handedOver_append, handedOver_notifyAll, zero_add, hdrain, hleave]
  · rw [flow, handedOver_notifyAll, hleave, add_zero]

theorem waiters_publish (w : Waiter) : (g.publish w).waiters = g.waiters + {w} := by
  have hperm := Buckets.contents_enqueue_perm g.waitBuckets w.bucket (⟨w, g.nextSlot⟩ : WaitEntry)
  calc (g.publish w).waiters = w ::ₘ g.waiters :=
    Multiset.coe_eq_coe.mpr (hperm.map WaitEntry.toWaiter)
    _ = g.waiters + {w} := by rw [← Multiset.singleton_add, add_comm]

theorem flow_parkReconcile (g : Group) (slot : ℕ) : flow (g.parkReconcile slot) = g.waiters := by
  simp only [parkReconcile]
  split_ifs
  · exact flow_releaseToken _
  · exact flow_releaseToken _
  · exact flow_drain _
  · exact add_zero _

theorem flow_park (g : Group) (w : Waiter) : flow (g.park w) = g.waiters + {w} := by
  have hpark : flow (g.park w) = flow ((g.publish w).parkReconcile g.nextSlot) := by
    rw [flow, flow, park]
    dsimp only
    rw [handedOver_cons]
    exact congrArg _ (zero_add _)
  rw [hpark, flow_parkReconcile, waiters_publish]

/-- **`try_submit`**: the task is handed over, or parked; in the latter case another one may be
handed over. -/
theorem flow_trySubmit (g : Group) (w : Waiter) : flow (g.trySubmit w) = g.waiters + {w} := by
  simp only [trySubmit]
  split_ifs
  · -- the token is given back, and the task parked
    have hrelease := flow_releaseToken { g with tokens := g.tokens - 1 }
    have hpark := flow_park ({ g with tokens := g.tokens - 1 }.releaseToken).1 w
    rw [flow] at hrelease hpark ⊢
    rw [handedOver_append, add_left_comm, hpark, add_left_comm, ← add_assoc, hrelease]
    rfl
  · rfl
  · exact flow_park g w

/-- `try_acquire_running_lock` parks no task, and hands none over when it succeeds. -/
theorem flow_tryAcquireRunningLock (g : Group) :
    flow (g.tryAcquireRunningLock.1, g.tryAcquireRunningLock.2.2) = g.waiters ∧
      (g.tryAcquireRunningLock.2.1 = true → g.tryAcquireRunningLock.2.2 = []) := by
  simp only [tryAcquireRunningLock]
  split_ifs
  · exact ⟨add_zero _, fun _ => rfl⟩
  · exact ⟨add_zero _, fun _ => rfl⟩
  · exact ⟨add_zero _, fun _ => rfl⟩

end Group

/-! ## The tasks of a pool -/

namespace Pool

variable {P P' : Pool} {t : PoolTask} {i : ℕ} {w w' : Worker}

/-- The reaction tasks of the pool, in its buckets, with its workers and inline. -/
def work (P : Pool) : Multiset ReactionTask := (P.tasks.map PoolTask.task : List ReactionTask)

theorem work_congr (hb : P'.buckets = P.buckets) (hw : P'.workers = P.workers)
    (hi : P'.inlined = P.inlined) :
    P'.work = P.work := by
  rw [work, work, tasks, tasks, hb, hw, hi]

/-- One task more. -/
theorem work_of_perm (h : P'.tasks.Perm (t :: P.tasks)) : P'.work = P.work + {t.task} := by
  rw [work, Multiset.coe_eq_coe.mpr (h.map PoolTask.task), List.map_cons, ← Multiset.cons_coe,
    ← Multiset.singleton_add, add_comm]
  rfl

/-- A worker has been given something else to do. -/
theorem work_setWorker (w' : Worker) (hw : P.workers[i]? = some w) :
    (P.setWorker i w').work + workOf w = P.work + workOf w' := by
  have hperm := (tasks_setWorker w' hw).map PoolTask.task
  rw [List.map_append, List.map_append, ← Multiset.coe_eq_coe, ← Multiset.coe_add,
    ← Multiset.coe_add] at hperm
  exact hperm

end Pool

/-! ## The tasks that are somewhere -/

namespace SchedulerState

variable {c : GroupId → ℕ} {n : ℕ} {s s' s'' : SchedulerState n} {p q : Fin n} {P : Pool}
  {current : Option (Fin n)} {t : PoolTask} {g : GroupId} {ev : List Event} {e : Event} {i : ℕ}
    {w w' : Worker}
  {task : ReactionTask} {lock : TaskLock} {given taken given' taken' : Multiset ReactionTask}

theorem setGroup_self (s : SchedulerState n) (g : GroupId) (x : Group) :
    (s.setGroup g x).groups g = x :=
  Function.update_self ..

theorem setGroup_of_ne (s : SchedulerState n) {g k : GroupId} (x : Group) (h : k ≠ g) :
    (s.setGroup g x).groups k = s.groups k :=
  Function.update_of_ne h ..

/-- The tasks that are parked in some group; all but finitely many groups have none. -/
noncomputable def parkedTasks (s : SchedulerState n) : Multiset ReactionTask :=
  ∑ᶠ g, (s.groups g).waiters.map Waiter.task

/-- The tasks that have been submitted and are neither finished nor discarded. -/
noncomputable def work (s : SchedulerState n) : Multiset ReactionTask :=
  ∑ p, (s.pools p).work + s.parkedTasks

/-- Few groups have parked tasks, and these are for pools that exist, so they can be handed over. -/
structure Settled (s : SchedulerState n) : Prop where
  finite : (fun g => (s.groups g).waiters.map Waiter.task).HasFiniteSupport
  known : ∀ g, ∀ w ∈ (s.groups g).waiters, w.pool < n

/-- From the one state to the other, these tasks have come and those have gone. -/
structure Moves (s s' : SchedulerState n) (given taken : Multiset ReactionTask) : Prop where
  settled : s'.Settled
  work : s'.work + taken = s.work + given

theorem Moves.trans (h : Moves s s' given taken) (h' : Moves s' s'' given' taken') :
    Moves s s'' (given + given') (taken + taken') := by
  refine ⟨h'.settled, ?_⟩
  calc s''.work + (taken + taken')
      = s''.work + taken' + taken := by abel
    _ = s'.work + taken + given' := by rw [h'.work, add_right_comm]
    _ = s.work + (given + given') := by rw [h.work, add_assoc]

/-- What comes and goes at the same time does not count. -/
theorem Moves.cancel {m : Multiset ReactionTask} (h : Moves s s' (given + m) (taken + m)) :
    Moves s s' given taken := by
  refine ⟨h.settled, add_right_cancel (b := m) ?_⟩
  rw [add_assoc, add_assoc, h.work]

/-- Nothing has come or gone, and the same tasks are parked. -/
theorem Moves.congr (h : s.Settled) (hg : ∀ g, (s'.groups g).waiters = (s.groups g).waiters)
    (hp : ∀ p, (s'.pools p).work = (s.pools p).work) : Moves s s' 0 0 := by
  have hgroups : (fun g => (s'.groups g).waiters.map Waiter.task) = fun g =>
    (s.groups g).waiters.map Waiter.task :=
    funext fun g => by rw [hg]
  refine ⟨⟨hgroups ▸ h.finite, fun g w hw => h.known g w (hg g ▸ hw)⟩, ?_⟩
  rw [SchedulerState.work, SchedulerState.work, parkedTasks, parkedTasks, hgroups,
    Finset.sum_congr rfl fun p _ => hp p]

theorem Moves.unmoved (h : s.Settled) (hu : Unmoved s s') : Moves s s' 0 0 :=
  .congr h (fun g => by rw [hu.groups])
    fun p => Pool.work_congr (hu.buckets p) (hu.workers p) (hu.inlined p)

/-- One pool is changed, by the tasks that it is given or gives away. -/
theorem Moves.setPool (h : s.Settled) (hP : P.work + taken = (s.pools p).work + given) :
    Moves s (s.setPool p P) given taken := by
  have hrest : ∑ q ∈ Finset.univ.erase p, ((s.setPool p P).pools q).work =
      ∑ q ∈ Finset.univ.erase p, (s.pools q).work :=
    Finset.sum_congr rfl fun q hq => by rw [setPool_of_ne s P (Finset.ne_of_mem_erase hq)]
  refine ⟨⟨h.finite, h.known⟩, ?_⟩
  rw [SchedulerState.work, SchedulerState.work, ← Finset.add_sum_erase _ _ (Finset.mem_univ p),
    ← Finset.add_sum_erase _ (fun q => (s.pools q).work) (Finset.mem_univ p), hrest, setPool_self]
  calc P.work + ∑ q ∈ Finset.univ.erase p, (s.pools q).work + parkedTasks (s.setPool p P) + taken
      = P.work + taken + (∑ q ∈ Finset.univ.erase p, (s.pools q).work + parkedTasks s) := by
        rw [show parkedTasks (s.setPool p P) = parkedTasks s from rfl]
        abel
    _ = (s.pools p).work + ∑ q ∈ Finset.univ.erase p, (s.pools q).work + parkedTasks s + given := by
        rw [hP]
        abel

/-- **One call on one group**: what it was given is parked now, or it has been handed over. -/
theorem Moves.setGroup (h : s.Settled) {r : Group × List Event} {new : Multiset Waiter}
    (hr : Group.flow r = (s.groups g).waiters + new) (hnew : ∀ w ∈ new, w.pool < n) :
    Moves s (s.setGroup g r.1) (new.map Waiter.task) ((handedOver r.2).map Waiter.task) ∧
      ∀ w ∈ handedOver r.2, w.pool < n := by
  obtain ⟨x, ev⟩ := r
  have hgroups : (fun k => ((s.setGroup g x).groups k).waiters.map Waiter.task) =
      Function.update (fun k => (s.groups k).waiters.map Waiter.task) g
        (x.waiters.map Waiter.task) := by
    funext k
    by_cases hk : k = g
    · subst hk
      rw [Function.update_self, setGroup_self]
    · rw [Function.update_of_ne hk, setGroup_of_ne s x hk]
  have hall : ∀ w, w ∈ x.waiters ∨ w ∈ handedOver ev → w.pool < n := by
    intro w hw
    have hw : w ∈ Group.flow (x, ev) := Multiset.mem_add.mpr hw
    rw [hr] at hw
    rcases Multiset.mem_add.mp hw with hw | hw
    · exact h.known g w hw
    · exact hnew w hw
  have hsum := finsum_update h.finite g (x.waiters.map Waiter.task)
  refine ⟨⟨⟨?_, fun k w hw => ?_⟩, ?_⟩, fun w hw => hall w (.inr hw)⟩
  · rw [hgroups]
    refine (h.finite.union (Set.finite_singleton g)).subset fun k hk => ?_
    by_cases hkg : k = g
    · exact .inr hkg
    · rw [Function.mem_support, Function.update_of_ne hkg] at hk
      exact .inl hk
  · by_cases hk : k = g
    · subst hk
      rw [setGroup_self] at hw
      exact hall w (.inl hw)
    · rw [setGroup_of_ne s x hk] at hw
      exact h.known k w hw
  · have htasks := congrArg (Multiset.map Waiter.task) hr
    rw [Group.flow, Multiset.map_add, Multiset.map_add] at htasks
    rw [SchedulerState.work, SchedulerState.work, parkedTasks, parkedTasks, hgroups, setGroup_pools]
    refine add_right_cancel (b := (s.groups g).waiters.map Waiter.task) ?_
    calc _ = ∑ p, (s.pools p).work + (∑ᶠ k,
      Function.update (fun k => (s.groups k).waiters.map Waiter.task) g
            (x.waiters.map Waiter.task) k + (s.groups g).waiters.map Waiter.task) +
            (handedOver ev).map Waiter.task := by abel
      _ = ∑ p, (s.pools p).work + ∑ᶠ k, (s.groups k).waiters.map Waiter.task +
            (x.waiters.map Waiter.task + (handedOver ev).map Waiter.task) := by
          rw [hsum]
          abel
      _ = _ := by
          rw [htasks]
          abel

/-! ## An operation in progress -/

theorem waiters_lock (groups : Groups) (lock : TaskLock) (g : GroupId) :
    ((lock.lock groups).1 g).waiters = (groups g).waiters := by
  cases lock with
  | none | running g => rfl
  | combined lock =>
    rw [Group.waiters, Group.waiters]
    exact congrArg _ (congrArg _ (@lockAll_fast groups lock.locks g).2)

theorem waiters_getGroupsLock {groups groups' : Groups} {groupLock : Option CombinedLock}
    {a : Group.LockArgs} {descs : GroupSet}
    (h : getGroupsLock groups a descs = (groups', groupLock)) (g : GroupId) :
    (groups' g).waiters = (groups g).waiters := by
  rw [getGroupsLock] at h
  split_ifs at h
  · obtain ⟨rfl, -⟩ := Prod.mk.inj h
    rfl
  · rw [addLocks_eq descs.nodup] at h
    obtain ⟨rfl, -⟩ := Prod.mk.inj h
    rw [lockGroups]
    split_ifs
    · rfl
    · rfl

/-- All tasks that are somewhere in the middle of an operation: in the system, in the hands of the
operation, on their way from a group to a pool, or gone. -/
noncomputable def Midway.total (m : Midway n) : Multiset ReactionTask :=
  m.state.work + m.hand.tasks + (handedOver m.events).map Waiter.task + m.gone

/-- Also the tasks that are on their way are for pools that exist. -/
structure Midway.Settled (m : Midway n) : Prop where
  settled : m.state.Settled
  known : ∀ w ∈ handedOver m.events, w.pool < n

theorem handedOver_cons_of_some {w : Waiter} (ev : List Event) (h : e.waiter = some w) :
    handedOver (e :: ev) = w ::ₘ handedOver ev := by
  rw [handedOver, List.filterMap_cons_some h]
  rfl

theorem handedOver_cons_of_none (ev : List Event) (h : e.waiter = none) :
    handedOver (e :: ev) = handedOver ev := by
  rw [handedOver, List.filterMap_cons_none h]
  rfl

/-- What has come is in the hands of the operation before, and what has gone is there after. -/
theorem Moves.total {h h' : Hand n} {g' : GroupId} {ev' : List Event}
    {gone gone' : Multiset ReactionTask} (hm : Moves s s' given taken)
    (hrest : h'.tasks + (handedOver ev').map Waiter.task + gone' + given =
      h.tasks + (handedOver ev).map Waiter.task + gone + taken) :
    Midway.total ⟨s', h', g', ev', gone'⟩ = Midway.total ⟨s, h, g, ev, gone⟩ := by
  refine add_right_cancel (b := taken) ?_
  calc Midway.total ⟨s', h', g', ev', gone'⟩ + taken
      = s'.work + taken + (h'.tasks + (handedOver ev').map Waiter.task + gone') := by
        rw [Midway.total]
        abel
    _ = s.work + (h'.tasks + (handedOver ev').map Waiter.task + gone' + given) := by
        rw [hm.work]
        abel
    _ = Midway.total ⟨s, h, g, ev, gone⟩ + taken := by
        rw [hrest, Midway.total]
        abel

/-- A call on a group that is given no task. -/
theorem Moves.release (h : s.Settled) {r : Group × List Event}
    (hr : Group.flow r = (s.groups g).waiters) :
    Moves s (s.setGroup g r.1) 0 ((handedOver r.2).map Waiter.task) ∧
      ∀ w ∈ handedOver r.2, w.pool < n := by
  have hr : Group.flow r = (s.groups g).waiters + 0 := by rw [hr, add_zero]
  exact Moves.setGroup h hr fun w hw => absurd hw (Multiset.notMem_zero w)

theorem Moves.setWorker (h : s.Settled) (w' : Worker) (hw : (s.pools p).workers[i]? = some w) :
    Moves s (s.setWorker p i w') (Pool.workOf w') (Pool.workOf w) :=
  .setPool h (Pool.work_setWorker w' hw)

theorem Moves.tryLock (h : s.Settled) (lock : TaskLock) :
    Moves s { s with groups := (lock.lock s.groups).1 } 0 0 :=
  .congr h (waiters_lock s.groups lock) fun _ => rfl

theorem Moves.submit (h : s.Settled) :
    Moves s (s.setPool p ((s.pools p).submit task lock)) {task} 0 := by
  refine .setPool h ?_
  rw [Pool.work_of_perm (Pool.tasks_submit _ _ _), add_zero]

theorem Moves.runInline {x : Submission n} (h : s.Settled) :
    Moves s (s.runInline x lock) {x.task} 0 := by
  refine .setPool h ?_
  rw [Pool.work_of_perm (Pool.tasks_append_inlined _ _), add_zero]

theorem Moves.finishInline (h : s.Settled) (ht : t ∈ (s.pools p).inlined) :
    Moves s (s.setPool p { s.pools p with inlined := (s.pools p).inlined.erase t }) 0 {t.task} := by
  refine .setPool h ?_
  rw [Pool.work_of_perm (Pool.tasks_erase_inlined ht), add_zero]

theorem Moves.putBack (h : s.Settled) (hw : (s.pools p).workers[i]? = some (.puttingBack t)) :
    Moves s (s.putBack p i t) 0 0 := by
  refine .setPool h (congrArg (· + 0) ?_)
  exact Multiset.coe_eq_coe.mpr ((Pool.tasks_putBack hw).map PoolTask.task).cons_inv

theorem Moves.drain (h : s.Settled) :
    Moves s (s.setPool p (s.pools p).drainQueues.2) 0 (queuedWork (s.pools p)) := by
  refine .setPool h ?_
  rw [Pool.work, Pool.work, Pool.tasks_drainQueues (s.pools p), List.map_append,
    ← Multiset.coe_add, add_zero, add_comm]
  rfl

theorem Moves.start {k : ℕ} (h : s.Settled) (hw : (s.pools p).workers = []) :
    Moves s (s.setPool p ((s.pools p).start k)) 0 0 := by
  refine .setPool h ?_
  rw [Pool.work, Pool.work, Pool.tasks_start k hw]

/-- A worker has taken a task out of the buckets, whether its lock has failed or not. -/
theorem Moves.take (h : s.Settled) (w' : Worker) (hw : (s.pools p).workers[i]? = some .looking)
    (hd : (s.pools p).tryDequeueTask = some (t, P)) (hw' : Pool.workOf w' = {t.task}) :
    Moves s (SchedulerState.setWorker
      { s.setPool p P with groups := (t.lock.lock s.groups).1 } p i w') 0 0 := by
  have hpool : Moves s (s.setPool p P) 0 {t.task} := by
    refine .setPool h ?_
    rw [Pool.work_of_perm (.of_eq (Pool.tasks_tryDequeueTask hd)), add_zero]
  have hlock : Moves (s.setPool p P)
      { s.setPool p P with groups := (t.lock.lock s.groups).1 } 0 0 :=
    .tryLock hpool.settled t.lock
  have hset := Moves.setWorker (w := .looking) hlock.settled w' (p := p) (i := i)
    (by rw [workers_dequeued hd]; exact hw)
  have hall := (hpool.trans hlock).trans hset
  rw [hw', show Pool.workOf .looking = 0 from rfl] at hall
  exact .cancel (m := {t.task}) (by simpa only [zero_add, add_zero] using hall)

/-- **Whatever an operation does, no task is lost and none is made**: the total of the tasks in the
middle of it stays the same. -/
theorem Midway.Settled.does {skips : Prop} {m m' : Midway n} (h : m.Settled)
    (hd : Does skips m m') : m'.Settled ∧ m'.total = m.total := by
  obtain ⟨hs, hknown⟩ := h
  cases hd with
  | unmoved hu =>
    have hm := Moves.unmoved hs hu
    exact ⟨⟨hm.settled, hknown⟩, hm.total rfl⟩
  | turn => exact ⟨⟨hs, hknown⟩, rfl⟩
  | @tryAcquire s x g group ev m hx hr =>
    have hflow := (Group.flow_tryAcquireRunningLock (s.groups g)).1
    rw [hr] at hflow
    obtain ⟨hm, hknown⟩ := Moves.release hs hflow
    refine ⟨⟨hm.settled, hknown⟩, hm.total ?_⟩
    simp only [handedOver_nil, Multiset.map_zero]
    abel
  | @acquire s x g group ev m hx hr =>
    obtain ⟨hflow, hnone⟩ := Group.flow_tryAcquireRunningLock (s.groups g)
    rw [hr] at hflow hnone
    have hflow : Group.flow (group, []) = (s.groups g).waiters := by rw [← hnone rfl, hflow]
    obtain ⟨hm, hknown⟩ := Moves.release hs hflow
    exact ⟨⟨hm.settled, hknown⟩, hm.total rfl⟩
  | @trySubmit s x g b m hx =>
    have hnew : ∀ w ∈ ({⟨x.task, x.pool, b⟩} : Multiset Waiter), w.pool < n := by
      intro w hw
      obtain rfl := Multiset.mem_singleton.mp hw
      exact x.pool.isLt
    obtain ⟨hm, hknown⟩ := Moves.setGroup hs (Group.flow_trySubmit (s.groups g) _) hnew
    refine ⟨⟨hm.settled, hknown⟩, hm.total ?_⟩
    simp only [Hand.tasks, handedOver_nil, Multiset.map_zero, Multiset.map_singleton]
    abel
  | @admitted s x g b m hx =>
    refine ⟨⟨hs, fun w hw => absurd hw (Multiset.notMem_zero w)⟩, ?_⟩
    have hevent : (handedOver [.submit ⟨x.task, x.pool, b⟩]).map Waiter.task = {x.task} := rfl
    rw [Midway.total, Midway.total, hevent]
    simp only [Hand.tasks, handedOver_nil, Multiset.map_zero]
    abel
  | @getGroupsLock s x g groups groupLock m hr =>
    have hm : Moves s { s with groups := groups } 0 0 :=
      .congr hs (waiters_getGroupsLock hr) fun _ => rfl
    exact ⟨⟨hm.settled, hknown⟩, hm.total rfl⟩
  | @tryLock s x lock g m hl =>
    have hm := Moves.tryLock hs lock
    exact ⟨⟨hm.settled, hknown⟩, hm.total rfl⟩
  | @runInline s x lock g m hl =>
    have hlock := Moves.tryLock hs lock
    have hrun : Moves { s with groups := (lock.lock s.groups).1 }
        ({ s with groups := (lock.lock s.groups).1 }.runInline x lock) {x.task} 0 :=
      .runInline hlock.settled
    have hm := hlock.trans hrun
    refine ⟨⟨hm.settled, hknown⟩, hm.total ?_⟩
    simp only [Hand.tasks]
    abel
  | @submitTo s x lock g m hfree =>
    have hm : Moves s (s.setPool x.pool ((s.pools x.pool).submit x.task lock)) {x.task} 0 :=
      .submit hs
    refine ⟨⟨hm.settled, hknown⟩, hm.total ?_⟩
    simp only [Hand.tasks]
    abel
  | refuse =>
    refine ⟨⟨hs, hknown⟩, ?_⟩
    simp only [Midway.total, Hand.tasks]
    abel
  | @runningDestroy s locks g m hrun =>
    obtain ⟨hm, hknown⟩ := Moves.release hs (Group.flow_runningDestroy (s.groups g))
    refine ⟨⟨hm.settled, hknown⟩, hm.total ?_⟩
    simp only [Hand.tasks, handedOver_nil, Multiset.map_zero]
    abel
  | @handleDestroy s l ls locks m =>
    obtain ⟨hm, hknown⟩ := Moves.release hs (Group.flow_handleDestroy (s.groups l.group) l.handle)
    refine ⟨⟨hm.settled, hknown⟩, hm.total ?_⟩
    simp only [Hand.tasks, handedOver_nil, Multiset.map_zero]
    abel
  | destroyed hl => exact ⟨⟨hs, hknown⟩, rfl⟩
  | @submitted s h g e ev w p m he hp hfree =>
    rw [handedOver_cons_of_some ev he] at hknown
    have hm : Moves s (s.setPool p ((s.pools p).submit w.task (.running g))) {w.task} 0 :=
      .submit hs
    refine ⟨⟨hm.settled, fun w hw => hknown w (Multiset.mem_cons_of_mem hw)⟩, hm.total ?_⟩
    rw [handedOver_cons_of_some ev he, Multiset.map_cons, ← Multiset.singleton_add]
    abel
  | @astray s h g e ev w m he hp =>
    -- there is no such callback
    rw [handedOver_cons_of_some ev he] at hknown
    exact absurd (hknown w (Multiset.mem_cons_self ..)) hp
  | @called s s' h g e ev m he hu hn =>
    have hm := Moves.unmoved hs hu
    rw [handedOver_cons_of_none ev he] at hknown
    refine ⟨⟨hm.settled, hknown⟩, hm.total ?_⟩
    rw [handedOver_cons_of_none ev he]
  | @moveWorker s p i w w' g m hw ht ht' =>
    have hm := Moves.setWorker hs w' hw
    rw [Pool.workOf, Pool.workOf, ht, ht'] at hm
    exact ⟨⟨hm.settled, hknown⟩, hm.total rfl⟩
  | @finish s p i t g m hw =>
    have hm := Moves.setWorker hs .looking hw
    refine ⟨⟨hm.settled, hknown⟩, hm.total ?_⟩
    rw [show Pool.workOf .looking = 0 from rfl, show Pool.workOf (.running t) = {t.task} from rfl]
    simp only [Hand.tasks]
    abel
  | @finishInline s p t g m ht =>
    have hm := Moves.finishInline hs ht
    refine ⟨⟨hm.settled, hknown⟩, hm.total ?_⟩
    simp only [Hand.tasks]
    abel
  | @sleep s p g m hsleep =>
    have hm : Moves s (s.setPool p { s.pools p with live := false }) 0 0 := .setPool hs rfl
    exact ⟨⟨hm.settled, hknown⟩, hm.total rfl⟩
  | take hw hfree hlive hd hl =>
    have hm := Moves.take hs (.running _) hw hd rfl
    exact ⟨⟨hm.settled, hknown⟩, hm.total rfl⟩
  | fail hw hfree hlive hd hl hskip =>
    have hm := Moves.take hs (.puttingBack _) hw hd rfl
    exact ⟨⟨hm.settled, hknown⟩, hm.total rfl⟩
  | putBack hw =>
    have hm := Moves.putBack hs hw
    exact ⟨⟨hm.settled, hknown⟩, hm.total rfl⟩
  | @drain s p g m =>
    have hm : Moves s (s.setPool p (s.pools p).drainQueues.2) 0 _ := .drain hs
    refine ⟨⟨hm.settled, hknown⟩, hm.total ?_⟩
    simp only [Hand.tasks]
    abel
  | @start s p k g m hw =>
    have hm : Moves s (s.setPool p ((s.pools p).start k)) 0 0 := .start hs hw
    exact ⟨⟨hm.settled, hknown⟩, hm.total rfl⟩

/-- **What a step does to the tasks.**  What has come in, or was there, has left the system or is
there. -/
theorem Settled.step {a : Action n} (h : s.Settled) (hs : s.step a = some s') :
    s'.Settled ∧ ∃ refused, s.accepts a + refused ≤ submits a ∧
      s'.work + (s.finishes a + s.discards a + refused) = s.work + submits a := by
  obtain ⟨refused, hle, hwalk⟩ := walk_step True (Or.inl trivial) hs
  have hnone : ∀ w ∈ handedOver [], w.pool < n := fun w hw => absurd hw (Multiset.notMem_zero w)
  obtain ⟨hsettled, htotal⟩ := hwalk.invariant
    (P := fun m => m.Settled ∧ m.total = Midway.total ⟨s, arrives a, 0, [], 0⟩)
    ⟨⟨h, hnone⟩, rfl⟩ fun m m' hm hd => (hm.1.does hd).imp id fun heq => heq.trans hm.2
  refine ⟨hsettled.settled, refused, hle, ?_⟩
  rw [Midway.total, Midway.total, show (arrives a).tasks = submits a by cases a <;> rfl] at htotal
  simpa only [Hand.tasks, handedOver_nil, Multiset.map_zero, add_zero] using htotal

/-! ## The ledger -/

/-- What has become of the tasks so far, as a history beside the scheduler. -/
structure Ledger where
  submitted : Multiset ReactionTask
  /-- Submitted while the pool accepted tasks. -/
  accepted : Multiset ReactionTask
  finished : Multiset ReactionTask
  /-- Destroyed by a forced stop before they were run. -/
  discarded : Multiset ReactionTask

def Ledger.record (l : Ledger) (s : SchedulerState n) (a : Action n) : Ledger where
  submitted := l.submitted + submits a
  accepted := l.accepted + s.accepts a
  finished := l.finished + s.finishes a
  discarded := l.discarded + s.discards a

/-- A step, and its entry in the ledger; the ledger decides nothing. -/
def stepRecorded (x : SchedulerState n × Ledger) (a : Action n) :
    Option (SchedulerState n × Ledger) :=
  (x.1.step a).map fun s => (s, x.2.record x.1 a)

/-- The books balance: what was accepted is somewhere, and nothing is that was not submitted. -/
structure Balanced (x : SchedulerState n × Ledger) : Prop where
  settled : x.1.Settled
  kept : x.2.accepted ≤ x.1.work + x.2.finished + x.2.discarded
  known : x.1.work + x.2.finished + x.2.discarded ≤ x.2.submitted

theorem balanced_start (c : GroupId → ℕ) (descriptors : Fin n → PoolDescriptor)
    (mainThread : Fin n) (k : ℕ) :
    Balanced (start c descriptors mainThread k, ⟨0, 0, 0, 0⟩) := by
  have hgroup : ∀ g, ((start c descriptors mainThread k).groups g).waiters = 0 := fun g => by
    rw [Group.waiters, show ((start c descriptors mainThread k).groups g).parked =
      [] from Buckets.contents_empty]
    rfl
  have hpool : ∀ p, ((start c descriptors mainThread k).pools p).work = 0 := fun p => by
    rw [Pool.work, show ((start c descriptors mainThread k).pools p).tasks = [] from
      congrArg (· ++ _) Buckets.contents_empty]
    rfl
  have hwork : (start c descriptors mainThread k).work = 0 := by
    rw [work, parkedTasks, Finset.sum_eq_zero fun p _ => hpool p, zero_add]
    exact finsum_eq_zero_of_forall_eq_zero fun g => by rw [hgroup, Multiset.map_zero]
  refine ⟨⟨?_, fun g w hw => ?_⟩, ?_, ?_⟩
  · refine Set.Finite.subset Set.finite_empty fun g hg => ?_
    rw [Function.mem_support, hgroup, Multiset.map_zero] at hg
    exact hg rfl
  · rw [hgroup] at hw
    exact absurd hw (Multiset.notMem_zero w)
  · exact Multiset.zero_le _
  · rw [hwork]
    exact le_rfl

theorem Balanced.step {x y : SchedulerState n × Ledger} {a : Action n} (h : Balanced x)
    (hs : stepRecorded x a = some y) : Balanced y := by
  obtain ⟨s', hstep, rfl⟩ := Option.map_eq_some_iff.mp hs
  obtain ⟨hsettled, refused, hle, hwork⟩ := h.settled.step hstep
  have hbooks : s'.work + (x.2.finished + x.1.finishes a) + (x.2.discarded + x.1.discards a) +
      refused = x.1.work + x.2.finished + x.2.discarded + submits a :=
    calc s'.work + (x.2.finished + x.1.finishes a) + (x.2.discarded + x.1.discards a) + refused
        = s'.work + (x.1.finishes a + x.1.discards a + refused) +
            (x.2.finished + x.2.discarded) := by abel
      _ = x.1.work + x.2.finished + x.2.discarded + submits a := by
          rw [hwork]
          abel
  refine ⟨hsettled, le_of_add_le_add_right (a := refused) ?_, ?_⟩
  · calc x.2.accepted + x.1.accepts a + refused
        = x.2.accepted + (x.1.accepts a + refused) := add_assoc ..
      _ ≤ x.1.work + x.2.finished + x.2.discarded + submits a := add_le_add h.kept hle
      _ = _ := hbooks.symm
  · calc s'.work + (x.2.finished + x.1.finishes a) + (x.2.discarded + x.1.discards a)
        ≤ s'.work + (x.2.finished + x.1.finishes a) + (x.2.discarded + x.1.discards a) + refused :=
          Multiset.le_add_right ..
      _ = x.1.work + x.2.finished + x.2.discarded + submits a := hbooks
      _ ≤ x.2.submitted + submits a := add_le_add_left h.known _

/-- **No task is lost, and none is duplicated.**  In every run of the scheduler, what has been
submitted to a pool that accepted it is in a pool or a group, finished, or discarded by a forced
stop; and there are no more tasks there than were submitted. -/
theorem work_conserved {descriptors : Fin n → PoolDescriptor} {mainThread : Fin n}
    {k : ℕ} {l : Ledger} (h : Reaches stepRecorded Always
    (start c descriptors mainThread k, ⟨0, 0, 0, 0⟩) (s, l)) :
    l.accepted ≤ s.work + l.finished + l.discarded ∧ s.work + l.finished + l.discarded ≤
      l.submitted := by
  have hb := h.invariant (balanced_start c descriptors mainThread k) fun _ _ _ hx _ hs =>
    Balanced.step hx hs
  exact ⟨hb.kept, hb.known⟩

/-- The first task has been run, the second one is parked and then handed over, and the third one
waits. -/
def sharedGroupFinish : List (Action 2) :=
  sharedGroup ++ [.putBack firstPool 0, .finish secondPool 0]

theorem work_conserved_sharedGroup :
    ∃ s l, exec stepRecorded (start (fun _ => 1) twoPools 0 1, ⟨0, 0, 0, 0⟩) sharedGroupFinish =
      some (s, l) ∧
      l.accepted.card = 3 ∧ l.finished.card = 1 ∧ l.discarded = 0 ∧
      l.accepted ≤ s.work + l.finished + l.discarded ∧ s.work + l.finished + l.discarded ≤
        l.submitted := by
  have hrun : (exec stepRecorded (start (fun _ => 1) twoPools 0 1, ⟨0, 0, 0, 0⟩)
    sharedGroupFinish).any (fun x =>
      decide (x.2.accepted.card = 3 ∧ x.2.finished.card = 1 ∧ x.2.discarded = 0)) = true := by
    decide
  obtain ⟨⟨s, l⟩, hs, hend⟩ := (Option.any_eq_true _ _).mp hrun
  obtain ⟨haccepted, hfinished, hdiscarded⟩ := of_decide_eq_true hend
  exact ⟨s, l, hs, haccepted, hfinished, hdiscarded,
    work_conserved (reaches_of_exec hs (execOk_always _ _ _))⟩

end SchedulerState

end Scheduler
end NUClear
