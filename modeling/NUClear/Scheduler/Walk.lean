import Mathlib.Logic.Relation
import NUClear.Scheduler.Group.Admission
import NUClear.Scheduler.Ownership

/-!
# What the operations of the scheduler do, one thing after the other

`Scheduler::submit` calls a group, or makes a lock over several groups and tries it, and puts the
task into a pool, or it destroys the lock of a task that the pool does not accept.  `get_task` takes
a task out of the buckets, or discards all of them; whoever has run a task destroys its lock.  A
group that is called calls the pools back.  So there is a small number of things that these
operations do (`Does`), and each operation does some of them, one after the other (`Walk`).

Between two of them an operation has something in its hands: a task without a lock or with one, or
locks that it is about to destroy.  Some callbacks may still have to be made.  `Midway` is the state
of the scheduler together with these, and with the tasks that have left the system.

An invariant of the scheduler is then proved for `Does`, one case for each thing that can be done,
and holds for all operations by `Walk.invariant`.  When an operation of the source changes, its walk
changes, and the invariants only if it does something that no operation did before.

* `walk_applyEvents`, `walk_afterCall`: the callbacks of a call on a group, in their order.  Each of
  them could take the mutex that it needs before the first one was made, and so it can when its
  turn comes (`canApply_applyEvent`).
* `walk_release`, `walk_releaseAll`: the destruction of the lock of a task, handle by handle, and of
  the locks of several tasks.
* `walk_submit`: the fast path over one group and the slow path over none or several.  The task ends
  in a pool or in a group, or it has left the system because its pool does not accept it
  (`Refused`).
* `walk_lookForTask`, `walk_getTask`: one round of a worker.  A worker whose task does not get its
  lock may skip tasks that could be run; `SkipsNobody` says that it does not, and `Does` has a
  parameter for whether this is allowed.
* `walk_stop`: only a forced stop discards tasks.
* `walk_step`: what an action does.  A task that comes in is in the hands of the operation at its
  start, and nothing is in its hands at its end.
* `Undisturbed`: callbacks and destructors leave the workers where they were.
-/

namespace NUClear
namespace Scheduler

open Foundation

/-- The task that the event hands over to a pool, as it was given to `try_submit`. -/
def Event.waiter : Event → Option Waiter
  | .submit w => some w
  | .submitForced e => some e.toWaiter
  | _ => none

theorem Event.started_eq (e : Event) : e.started = e.waiter.map Waiter.task := by
  cases e <;> rfl

theorem startedBy_cons_of_some {e : Event} {w : Waiter} (ev : List Event) (h : e.waiter = some w) :
    startedBy (e :: ev) = w.task :: startedBy ev := by
  rw [startedBy, List.filterMap_cons_some (by rw [Event.started_eq, h]; rfl)]
  rfl

theorem startedBy_cons_of_none {e : Event} (ev : List Event) (h : e.waiter = none) :
    startedBy (e :: ev) = startedBy ev := by
  rw [startedBy, List.filterMap_cons_none (by rw [Event.started_eq, h]; rfl)]
  rfl

/-- The reaction tasks that a worker has: the one it runs, or the one it is putting back. -/
def Pool.workOf (w : Worker) : Multiset ReactionTask :=
  (w.tasks.map PoolTask.task : List ReactionTask)

namespace SchedulerState

variable {n : ℕ}

/-! ## An operation in progress -/

/-- What an operation has in its hands: a task on its way, or locks to be destroyed. -/
inductive Hand (n : ℕ) where
  /-- A task that has been submitted, and has no lock yet. -/
  | task (x : Submission n)
  /-- A task with its lock, on the way to its pool. -/
  | locked (x : Submission n) (lock : TaskLock)
  /-- Locks that are still to be destroyed. -/
  | dropped (locks : Multiset TaskLock)

/-- The locks among it, of which each accounts for handles or tokens of its groups. -/
def Hand.locks : Hand n → Multiset TaskLock
  | .task _ => 0
  | .locked _ lock => {lock}
  | .dropped locks => locks

/-- The tasks among it, which are in no bucket and in no group meanwhile. -/
def Hand.tasks : Hand n → Multiset ReactionTask
  | .task x => {x.task}
  | .locked x _ => {x.task}
  | .dropped _ => 0

/-- An operation in progress: the state of the scheduler, and what the operation still has to do. -/
structure Midway (n : ℕ) where
  state : SchedulerState n
  hand : Hand n
  /-- The group that was called last. -/
  group : GroupId
  /-- The callbacks of this group that have still to be made. -/
  events : List Event
  /-- The tasks that have left the system: run to their end, discarded or refused. -/
  gone : Multiset ReactionTask

/-- The tasks in the buckets of the pool. -/
def queuedWork (P : Pool) : Multiset ReactionTask :=
  (P.buckets.contents.map PoolTask.task : List ReactionTask)

/-- **What an operation can do next.**  With `skips`, a worker whose task does not get its lock may
leave tasks in the buckets that could be run. -/
inductive Does (skips : Prop) : Midway n → Midway n → Prop
  /-- No task is moved, and no group is called. -/
  | unmoved {s s' : SchedulerState n} {h : Hand n} {g : GroupId} {ev : List Event}
      {m : Multiset ReactionTask} (hu : Unmoved s s') :
      Does skips ⟨s, h, g, ev, m⟩ ⟨s', h, g, ev, m⟩
  /-- All callbacks have been made, and another group comes next. -/
  | turn {s : SchedulerState n} {h : Hand n} {g g' : GroupId} {m : Multiset ReactionTask} :
      Does skips ⟨s, h, g, [], m⟩ ⟨s, h, g', [], m⟩
  /-- `try_acquire_running_lock` fails. -/
  | tryAcquire {s : SchedulerState n} {x : Submission n} {g : GroupId} {group : Group}
      {ev : List Event} {m : Multiset ReactionTask} (hx : x.groups.descs = [g])
      (hr : (s.groups g).tryAcquireRunningLock = (group, false, ev)) :
      Does skips ⟨s, .task x, g, [], m⟩ ⟨s.setGroup g group, .task x, g, ev, m⟩
  /-- `try_acquire_running_lock` succeeds. -/
  | acquire {s : SchedulerState n} {x : Submission n} {g : GroupId} {group : Group}
      {ev : List Event} {m : Multiset ReactionTask} (hx : x.groups.descs = [g])
      (hr : (s.groups g).tryAcquireRunningLock = (group, true, ev)) :
      Does skips ⟨s, .task x, g, [], m⟩ ⟨s.setGroup g group, .locked x (.running g), g, [], m⟩
  /-- `try_submit`: the task is parked, or it is among the callbacks. -/
  | trySubmit {s : SchedulerState n} {x : Submission n} {g : GroupId} {b : Bool}
      {m : Multiset ReactionTask} (hx : x.groups.descs = [g]) :
      Does skips ⟨s, .task x, g, [], m⟩
        ⟨s.setGroup g ((s.groups g).trySubmit ⟨x.task, x.pool, b⟩).1, .dropped 0, g,
          ((s.groups g).trySubmit ⟨x.task, x.pool, b⟩).2, m⟩
  /-- The one callback is that a newcomer starts. -/
  | admitted {s : SchedulerState n} {x : Submission n} {g : GroupId} {b : Bool}
      {m : Multiset ReactionTask} (hx : x.groups.descs = [g]) :
      Does skips ⟨s, .dropped 0, g, [.submit ⟨x.task, x.pool, b⟩], m⟩
        ⟨s, .locked x (.running g), g, [], m⟩
  /-- `get_groups_lock`. -/
  | getGroupsLock {s : SchedulerState n} {x : Submission n} {g : GroupId} {groups : Groups}
      {groupLock : Option CombinedLock} {m : Multiset ReactionTask}
      (hr : getGroupsLock s.groups ⟨x.task.id, x.task.priority, x.pool⟩ x.groups =
        (groups, groupLock)) :
      Does skips ⟨s, .task x, g, [], m⟩
        ⟨{ s with groups := groups }, .locked x (.ofOption groupLock), g, [], m⟩
  /-- A task that is to run inline does not get its lock. -/
  | tryLock {s : SchedulerState n} {x : Submission n} {lock : TaskLock} {g : GroupId}
      {m : Multiset ReactionTask} (hl : (lock.lock s.groups).2 = false) :
      Does skips ⟨s, .locked x lock, g, [], m⟩
        ⟨{ s with groups := (lock.lock s.groups).1 }, .locked x lock, g, [], m⟩
  /-- A task gets its lock and runs inline. -/
  | runInline {s : SchedulerState n} {x : Submission n} {lock : TaskLock} {g : GroupId}
      {m : Multiset ReactionTask} (hl : (lock.lock s.groups).2 = true) :
      Does skips ⟨s, .locked x lock, g, [], m⟩
        ⟨{ s with groups := (lock.lock s.groups).1 }.runInline x lock, .dropped 0, g, [], m⟩
  /-- `Pool::submit` of a task that the pool accepts. -/
  | submitTo {s : SchedulerState n} {x : Submission n} {lock : TaskLock} {g : GroupId}
      {m : Multiset ReactionTask} (hfree : (s.pools x.pool).mutexFree = true) :
      Does skips ⟨s, .locked x lock, g, [], m⟩
        ⟨s.setPool x.pool ((s.pools x.pool).submit x.task lock), .dropped 0, g, [], m⟩
  /-- The pool does not accept the task. -/
  | refuse {s : SchedulerState n} {x : Submission n} {lock : TaskLock} {g : GroupId}
      {m : Multiset ReactionTask} :
      Does skips ⟨s, .locked x lock, g, [], m⟩ ⟨s, .dropped {lock}, g, [], m + {x.task}⟩
  /-- `~RunningLock`. -/
  | runningDestroy {s : SchedulerState n} {locks : Multiset TaskLock} {g : GroupId}
      {m : Multiset ReactionTask} (hrun : (s.groups g).running ≠ 0) :
      Does skips ⟨s, .dropped (.running g ::ₘ locks), g, [], m⟩
        ⟨s.setGroup g (s.groups g).runningDestroy.1, .dropped locks, g,
          (s.groups g).runningDestroy.2, m⟩
  /-- `~GroupLock` of the first handle of a `CombinedLock`. -/
  | handleDestroy {s : SchedulerState n} {l : GroupLock} {ls : List GroupLock}
      {locks : Multiset TaskLock} {m : Multiset ReactionTask} :
      Does skips ⟨s, .dropped (.combined ⟨l :: ls⟩ ::ₘ locks), l.group, [], m⟩
        ⟨s.setGroup l.group ((s.groups l.group).handleDestroy l.handle).1,
          .dropped (.combined ⟨ls⟩ ::ₘ locks), l.group,
          ((s.groups l.group).handleDestroy l.handle).2, m⟩
  /-- Nothing is left of a lock. -/
  | destroyed {s : SchedulerState n} {lock : TaskLock} {locks : Multiset TaskLock} {g : GroupId}
      {m : Multiset ReactionTask} (hl : lock.groups = []) :
      Does skips ⟨s, .dropped (lock ::ₘ locks), g, [], m⟩ ⟨s, .dropped locks, g, [], m⟩
  /-- The callback `pool->submit`. -/
  | submitted {s : SchedulerState n} {h : Hand n} {g : GroupId} {e : Event} {ev : List Event}
      {w : Waiter} {p : Fin n} {m : Multiset ReactionTask} (he : e.waiter = some w)
      (hp : w.pool = p) (hfree : (s.pools p).mutexFree = true) :
      Does skips ⟨s, h, g, e :: ev, m⟩
        ⟨s.setPool p ((s.pools p).submit w.task (.running g)), h, g, ev, m⟩
  /-- A callback to a pool that does not exist. -/
  | astray {s : SchedulerState n} {h : Hand n} {g : GroupId} {e : Event} {ev : List Event}
      {w : Waiter} {m : Multiset ReactionTask} (he : e.waiter = some w) (hp : ¬ w.pool < n) :
      Does skips ⟨s, h, g, e :: ev, m⟩ ⟨s, h, g, ev, m⟩
  /-- Any other callback.  A pool that is notified wakes up. -/
  | called {s s' : SchedulerState n} {h : Hand n} {g : GroupId} {e : Event} {ev : List Event}
      {m : Multiset ReactionTask} (he : e.waiter = none) (hu : Unmoved s s')
      (hn : ∀ r (q : Fin n), e = .notify r (q : ℕ) → ¬ Asleep (s'.pools q)) :
      Does skips ⟨s, h, g, e :: ev, m⟩ ⟨s', h, g, ev, m⟩
  /-- A worker goes from one place to another without a task. -/
  | moveWorker {s : SchedulerState n} {p : Fin n} {i : ℕ} {w w' : Worker} {g : GroupId}
      {m : Multiset ReactionTask} (hw : (s.pools p).workers[i]? = some w) (ht : w.tasks = [])
      (ht' : w'.tasks = []) :
      Does skips ⟨s, .dropped 0, g, [], m⟩ ⟨s.setWorker p i w', .dropped 0, g, [], m⟩
  /-- A worker has run its task. -/
  | finish {s : SchedulerState n} {p : Fin n} {i : ℕ} {t : PoolTask} {g : GroupId}
      {m : Multiset ReactionTask} (hw : (s.pools p).workers[i]? = some (.running t)) :
      Does skips ⟨s, .dropped 0, g, [], m⟩
        ⟨s.setWorker p i .looking, .dropped {t.lock}, g, [], m + {t.task}⟩
  /-- A task that ran inline has ended. -/
  | finishInline {s : SchedulerState n} {p : Fin n} {t : PoolTask} {g : GroupId}
      {m : Multiset ReactionTask} (ht : t ∈ (s.pools p).inlined) :
      Does skips ⟨s, .dropped 0, g, [], m⟩
        ⟨s.setPool p { s.pools p with inlined := (s.pools p).inlined.erase t },
          .dropped {t.lock}, g, [], m + {t.task}⟩
  /-- The pool falls asleep: it has no task left that is not run, or it was asleep before. -/
  | sleep {s : SchedulerState n} {p : Fin n} {g : GroupId} {m : Multiset ReactionTask}
      (hs : Asleep (s.pools p) ∨ (s.pools p).queued = []) :
      Does skips ⟨s, .dropped 0, g, [], m⟩
        ⟨s.setPool p { s.pools p with live := false }, .dropped 0, g, [], m⟩
  /-- A worker takes a task out of the buckets, and the task gets its lock. -/
  | take {s : SchedulerState n} {p : Fin n} {i : ℕ} {t : PoolTask} {P : Pool} {g : GroupId}
      {m : Multiset ReactionTask} (hw : (s.pools p).workers[i]? = some .looking)
      (hfree : (s.pools p).mutexFree = true) (hlive : (s.pools p).live = true)
      (hd : (s.pools p).tryDequeueTask = some (t, P)) (hl : (t.lock.lock s.groups).2 = true) :
      Does skips ⟨s, .dropped 0, g, [], m⟩
        ⟨setWorker { s.setPool p P with groups := (t.lock.lock s.groups).1 } p i (.running t),
          .dropped 0, g, [], m⟩
  /-- A worker takes a task out of the buckets, and the task does not get its lock. -/
  | fail {s : SchedulerState n} {p : Fin n} {i : ℕ} {t : PoolTask} {P : Pool} {g : GroupId}
      {m : Multiset ReactionTask} (hw : (s.pools p).workers[i]? = some .looking)
      (hfree : (s.pools p).mutexFree = true) (hlive : (s.pools p).live = true)
      (hd : (s.pools p).tryDequeueTask = some (t, P)) (hl : (t.lock.lock s.groups).2 = false)
      (hskip : skips ∨ ∀ u ∈ P.buckets.contents, u.lock.ready (t.lock.lock s.groups).1 = false) :
      Does skips ⟨s, .dropped 0, g, [], m⟩
        ⟨setWorker { s.setPool p P with groups := (t.lock.lock s.groups).1 } p i (.puttingBack t),
          .dropped 0, g, [], m⟩
  /-- A worker puts its task back. -/
  | putBack {s : SchedulerState n} {p : Fin n} {i : ℕ} {t : PoolTask} {g : GroupId}
      {m : Multiset ReactionTask} (hw : (s.pools p).workers[i]? = some (.puttingBack t)) :
      Does skips ⟨s, .dropped 0, g, [], m⟩ ⟨s.putBack p i t, .dropped 0, g, [], m⟩
  /-- `drain_queues`: all tasks in the buckets are discarded. -/
  | drain {s : SchedulerState n} {p : Fin n} {g : GroupId} {m : Multiset ReactionTask} :
      Does skips ⟨s, .dropped 0, g, [], m⟩
        ⟨s.setPool p (s.pools p).drainQueues.2,
          .dropped ((s.pools p).buckets.contents.map PoolTask.lock : List TaskLock), g, [],
          m + queuedWork (s.pools p)⟩
  /-- `Pool::start`. -/
  | start {s : SchedulerState n} {p : Fin n} {k : ℕ} {g : GroupId} {m : Multiset ReactionTask}
      (hw : (s.pools p).workers = []) :
      Does skips ⟨s, .dropped 0, g, [], m⟩
        ⟨s.setPool p ((s.pools p).start k), .dropped 0, g, [], m⟩

/-- An operation does some of these things, one after the other; this is what all operations are
shown to be. -/
abbrev Walk (skips : Prop) : Midway n → Midway n → Prop := Relation.ReflTransGen (Does skips)

variable {skips : Prop} {m m' : Midway n} {s s' : SchedulerState n} {p q : Fin n} {P : Pool}
  {current : Option (Fin n)} {t : PoolTask} {g g' : GroupId} {ev : List Event} {e : Event} {i : ℕ}
  {w w' : Worker} {task : ReactionTask} {lock : TaskLock} {locks : Multiset TaskLock} {h : Hand n}
  {gone : Multiset ReactionTask}

/-- **What each thing that is done keeps, the whole operation keeps.**  So an invariant of the
scheduler has one case for each constructor of `Does`, whatever the operations are. -/
theorem Walk.invariant {P : Midway n → Prop} (h : Walk skips m m') (hm : P m)
    (hdoes : ∀ m m', P m → Does skips m m' → P m') : P m' := by
  induction h with
  | refl => exact hm
  | tail _ hlast ih => exact hdoes _ _ ih hlast

/-! ## Callbacks -/

/-- What `Pool::submit` does to the idle state moves no task, and calls no group. -/
theorem unmoved_submitTo (s : SchedulerState n) (p : Fin n) (task : ReactionTask) (lock : TaskLock)
    (clearIdle : Bool) :
    Unmoved (s.setPool p ((s.pools p).submit task lock)) (s.submitTo p task lock clearIdle) := by
  rw [submitTo]
  split_ifs
  · exact unmoved_clearPoolIdle _ p
  · exact .refl _

/-- A pool is notified. -/
theorem unmoved_notify (s : SchedulerState n) (p : Fin n) (clearIdle : Bool) :
    Unmoved s (s.notify p clearIdle) ∧ ((s.notify p clearIdle).pools p).live = true := by
  have hs : Unmoved s (s.setPool p { s.pools p with live := true }) :=
    .setPool rfl rfl rfl rfl fun _ => rfl
  have hl : ((s.setPool p { s.pools p with live := true }).pools p).live = true := by
    rw [setPool_self]
  rw [notify]
  split_ifs
  · have hu := unmoved_clearPoolIdle (s.setPool p { s.pools p with live := true }) p
    exact ⟨hs.trans hu, hu.live p hl⟩
  · exact ⟨hs, hl⟩

theorem mutexFreeAt_eq (s : SchedulerState n) (p : Fin n) :
    s.mutexFreeAt p = (s.pools p).mutexFree := by
  rw [mutexFreeAt, dif_pos p.isLt]

theorem walk_onPool_submitTo {x : Waiter} {b : Bool} (he : e.waiter = some x)
    (hc : s.mutexFreeAt x.pool = true) : Walk skips ⟨s, h, g, e :: ev, gone⟩
      ⟨s.onPool x.pool fun p => s.submitTo p x.task (.running g) b, h, g, ev, gone⟩ := by
  rw [onPool]
  split_ifs with hp
  · refine .tail (.single (.submitted (p := ⟨x.pool, hp⟩) he rfl ?_))
      (.unmoved (unmoved_submitTo ..))
    rw [← mutexFreeAt_eq]
    exact hc
  · exact .single (.astray he hp)

/-- **One callback** of a group: a task goes to its pool, or a pool is registered, unregistered or
notified. -/
theorem walk_applyEvent (hc : s.canApply e = true) : Walk skips ⟨s, h, g, e :: ev, gone⟩
    ⟨s.applyEvent current g e, h, g, ev, gone⟩ := by
  cases e with
  | submit w => exact walk_onPool_submitTo (x := w) rfl hc
  | submitForced e => exact walk_onPool_submitTo (x := e.toWaiter) rfl hc
  | register pool | unregister pool =>
    simp only [applyEvent, onPool]
    refine .single (.called rfl ?_ fun r q heq => absurd heq (by simp))
    split_ifs
    · exact .setPool rfl rfl rfl rfl id
    · exact .refl s
  | notify r pool =>
    simp only [applyEvent, onPool]
    split_ifs with hp
    · obtain ⟨hu, hl⟩ := unmoved_notify s ⟨pool, hp⟩ (!s.currentPoolIdle current)
      refine .single (.called rfl hu fun r' q heq => ?_)
      have hq : q = ⟨pool, hp⟩ := Fin.ext (by simpa using (Event.notify.inj heq).2.symm)
      have hfree : (s.pools ⟨pool, hp⟩).mutexFree = true := by
        rw [← mutexFreeAt_eq]
        exact hc
      rw [hq, Asleep, hl, hu.mutexFree, hfree]
      simp
    · refine .single (.called rfl (.refl s) fun r' q heq => absurd q.isLt ?_)
      rw [← (Event.notify.inj heq).2]
      exact hp
  | lockReturned r b => exact .single (.called rfl (.refl s) fun r' q heq => absurd heq (by simp))

/-- The workers are where they were, and the pools accept tasks as before; that is so during the
callbacks of a group. -/
structure Undisturbed (s s' : SchedulerState n) : Prop where
  workers : ∀ p, (s'.pools p).workers = (s.pools p).workers
  accept : ∀ p, (s'.pools p).accept = (s.pools p).accept

theorem Undisturbed.refl (s : SchedulerState n) : Undisturbed s s := ⟨fun _ => rfl, fun _ => rfl⟩

theorem Undisturbed.trans {s'' : SchedulerState n} (h : Undisturbed s s')
    (h' : Undisturbed s' s'') : Undisturbed s s'' :=
  ⟨fun p => (h'.workers p).trans (h.workers p), fun p => (h'.accept p).trans (h.accept p)⟩

theorem Undisturbed.setPool (hw : P.workers = (s.pools p).workers)
    (ha : P.accept = (s.pools p).accept) : Undisturbed s (s.setPool p P) := by
  constructor <;> intro q <;> by_cases hq : q = p
  · rw [hq, setPool_self, hw]
  · rw [setPool_of_ne s P hq]
  · rw [hq, setPool_self, ha]
  · rw [setPool_of_ne s P hq]

theorem undisturbed_clearPoolIdle (s : SchedulerState n) (p : Fin n) :
    Undisturbed s (s.clearPoolIdle p) := by
  rw [clearPoolIdle]
  split_ifs
  · have h : Undisturbed s (s.setPool p { s.pools p with
        idle := { (s.pools p).idle with poolIdle := none } }) := .setPool rfl rfl
    exact ⟨h.workers, h.accept⟩
  · exact .refl s

theorem undisturbed_submitTo {b : Bool} : Undisturbed s (s.submitTo p task lock b) := by
  have hset : Undisturbed s (s.setPool p ((s.pools p).submit task lock)) := .setPool rfl rfl
  rw [submitTo]
  split_ifs
  · exact hset.trans (undisturbed_clearPoolIdle _ p)
  · exact hset

theorem undisturbed_notify {b : Bool} : Undisturbed s (s.notify p b) := by
  have hset : Undisturbed s (s.setPool p { s.pools p with live := true }) := .setPool rfl rfl
  rw [notify]
  split_ifs
  · exact hset.trans (undisturbed_clearPoolIdle _ p)
  · exact hset

/-- A callback leaves the workers as they are. -/
theorem undisturbed_applyEvent : Undisturbed s (s.applyEvent current g e) := by
  cases e with
  | submit w | submitForced e =>
    simp only [applyEvent, onPool]
    split_ifs
    · exact undisturbed_submitTo
    · exact .refl s
  | register pool | unregister pool =>
    simp only [applyEvent, onPool]
    split_ifs
    · exact .setPool rfl rfl
    · exact .refl s
  | notify r pool =>
    simp only [applyEvent, onPool]
    split_ifs
    · exact undisturbed_notify
    · exact .refl s
  | lockReturned r b => exact .refl s

theorem canApply_applyEvent {e' : Event} :
    (s.applyEvent current g e).canApply e' = s.canApply e' := by
  have hfree : ∀ p, (s.applyEvent current g e).mutexFreeAt p = s.mutexFreeAt p := by
    intro p
    rw [mutexFreeAt, mutexFreeAt]
    split_ifs
    · rw [Pool.mutexFree, Pool.mutexFree, undisturbed_applyEvent.workers]
    · rfl
  cases e' <;> simp only [canApply, hfree]

/-- All callbacks of a call, one after the other, in their order. -/
theorem walk_applyEvents (hc : ev.all s.canApply = true) : Walk skips ⟨s, h, g, ev, gone⟩
    ⟨s.applyEvents current g ev, h, g, [], gone⟩ := by
  induction ev generalizing s with
  | nil => exact .refl
  | cons e ev ih =>
    rw [List.all_cons, Bool.and_eq_true] at hc
    refine .trans (walk_applyEvent hc.1) (ih ?_)
    rw [List.all_eq_true] at hc ⊢
    exact fun e' he' => canApply_applyEvent.trans (hc.2 e' he')

theorem walk_afterCall {r : Group × List Event} (hs : s.afterCall current g r = some s') :
    Walk skips ⟨s.setGroup g r.1, h, g, r.2, gone⟩ ⟨s', h, g, [], gone⟩ := by
  rw [afterCall] at hs
  split_ifs at hs with hc
  rw [← Option.some.inj hs]
  exact walk_applyEvents hc

theorem undisturbed_afterCall {r : Group × List Event} (hs : s.afterCall current g r = some s') :
    Undisturbed s s' := by
  rw [afterCall] at hs
  split_ifs at hs
  rw [← Option.some.inj hs]
  have hall : ∀ (ev : List Event) (s : SchedulerState n),
      Undisturbed s (s.applyEvents current g ev) := by
    intro ev
    induction ev with
    | nil => exact .refl
    | cons e ev ih => exact fun s => undisturbed_applyEvent.trans (ih _)
  have h := hall r.2 (s.setGroup g r.1)
  exact ⟨h.workers, h.accept⟩

/-! ## Destructors -/

/-- The handles of a `CombinedLock` are destroyed, each with its callbacks. -/
theorem walk_releaseLocks {ls : List GroupLock} (hs : s.releaseLocks current ls = some s') :
    Walk skips ⟨s, .dropped (.combined ⟨ls⟩ ::ₘ locks), g, [], gone⟩
      ⟨s', .dropped locks, g', [], gone⟩ := by
  induction ls generalizing s g with
  | nil =>
    rw [releaseLocks, Option.some.injEq] at hs
    rw [← hs]
    exact .tail (.single (.destroyed rfl)) .turn
  | cons l ls ih =>
    obtain ⟨s₁, hs₁, hrest⟩ := Option.bind_eq_some_iff.mp hs
    exact .head .turn (.head .handleDestroy (.trans (walk_afterCall hs₁) (ih hrest)))

/-- **The lock of a task is destroyed**, and what it leads to in its groups is done. -/
theorem walk_release (hs : s.release current lock = some s') :
    Walk skips ⟨s, .dropped (lock ::ₘ locks), g, [], gone⟩
      ⟨s', .dropped locks, g', [], gone⟩ := by
  cases lock with
  | none =>
    rw [release, Option.some.injEq] at hs
    rw [← hs]
    exact .tail (.single (.destroyed rfl)) .turn
  | running k =>
    rw [release] at hs
    split_ifs at hs with hrun
    exact .head .turn (.head (.runningDestroy hrun) (.tail (walk_afterCall hs) .turn))
  | combined lock => exact walk_releaseLocks hs

theorem walk_releaseAll {ts : List PoolTask} (hs : s.releaseAll current ts = some s') :
    Walk skips ⟨s, .dropped (ts.map PoolTask.lock : List TaskLock), g, [], gone⟩
      ⟨s', .dropped 0, g', [], gone⟩ := by
  induction ts generalizing s g with
  | nil =>
    rw [releaseAll, Option.some.injEq] at hs
    rw [← hs]
    exact .single .turn
  | cons t ts ih =>
    obtain ⟨s₁, hs₁, hrest⟩ := Option.bind_eq_some_iff.mp hs
    have hfirst : Walk skips
        ⟨s, .dropped (t.lock ::ₘ (ts.map PoolTask.lock : List TaskLock)), g, [], gone⟩
        ⟨s₁, .dropped (ts.map PoolTask.lock : List TaskLock), g, [], gone⟩ := walk_release hs₁
    rw [List.map_cons, ← Multiset.cons_coe]
    exact hfirst.trans (ih hrest)

theorem undisturbed_releaseLocks {ls : List GroupLock}
    (hs : s.releaseLocks current ls = some s') : Undisturbed s s' := by
  induction ls generalizing s with
  | nil =>
    rw [releaseLocks, Option.some.injEq] at hs
    exact hs ▸ .refl s
  | cons l ls ih =>
    obtain ⟨s₁, hs₁, hrest⟩ := Option.bind_eq_some_iff.mp hs
    exact (undisturbed_afterCall hs₁).trans (ih hrest)

theorem undisturbed_release (hs : s.release current lock = some s') : Undisturbed s s' := by
  cases lock with
  | none =>
    rw [release, Option.some.injEq] at hs
    exact hs ▸ .refl s
  | running g =>
    rw [release] at hs
    split_ifs at hs
    exact undisturbed_afterCall hs
  | combined lock => exact undisturbed_releaseLocks hs

theorem undisturbed_releaseAll {ts : List PoolTask} (hs : s.releaseAll current ts = some s') :
    Undisturbed s s' := by
  induction ts generalizing s with
  | nil =>
    rw [releaseAll, Option.some.injEq] at hs
    exact hs ▸ .refl s
  | cons t ts ih =>
    obtain ⟨s₁, hs₁, hrest⟩ := Option.bind_eq_some_iff.mp hs
    exact (undisturbed_release hs₁).trans (ih hrest)

/-! ## Submissions -/

section Submissions

variable (skips) (g g') (gone) {x : Submission n} {b : Bool}

/-- What becomes of a task that is submitted to a pool: the pool accepts it, or the task has left
the system at once. -/
def Refused (accept : Bool) (task : ReactionTask) (gone : Multiset ReactionTask) : Prop :=
  gone ≤ {task} ∧ (accept = true → gone = 0)

theorem refused_nothing (accept : Bool) (task : ReactionTask) : Refused accept task 0 :=
  ⟨Multiset.zero_le _, fun _ => rfl⟩

/-- `Pool::submit`: the task is queued with its lock, or refused, and its lock destroyed. -/
theorem walk_submitOrDrop (hs : s.submitOrDrop current x lock b = some s') :
    ∃ gone', Refused (s.pools x.pool).accept x.task gone' ∧
      Walk skips ⟨s, .locked x lock, g, [], gone⟩ ⟨s', .dropped 0, g', [], gone + gone'⟩ := by
  rw [submitOrDrop] at hs
  split_ifs at hs with ha hfree
  · refine ⟨{x.task}, ⟨le_rfl, fun hyes => ?_⟩, .head .refuse (walk_release hs)⟩
    rw [hyes] at ha
    exact absurd ha (by simp)
  · rw [← Option.some.inj hs]
    refine ⟨0, refused_nothing .., ?_⟩
    rw [add_zero]
    exact .head (.submitTo hfree) (.head (.unmoved (unmoved_submitTo ..)) (.single .turn))

/-- `Group::try_submit`: the task is parked, or admitted and queued with a `RunningLock`. -/
theorem walk_trySubmit (hx : x.groups.descs = [g])
    (hs : s.trySubmit current g x b = some s') :
    ∃ gone', Refused (s.pools x.pool).accept x.task gone' ∧
      Walk skips ⟨s, .task x, g, [], gone⟩ ⟨s', .dropped 0, g', [], gone + gone'⟩ := by
  have hcall : Does skips ⟨s, .task x, g, [], gone⟩ _ := .trySubmit (b := b) hx
  simp only [trySubmit] at hs
  split_ifs at hs with hev
  · obtain ⟨gone', hrefused, hwalk⟩ := walk_submitOrDrop skips g g' gone hs
    rw [hev] at hcall
    exact ⟨gone', hrefused, .head hcall (.head (.admitted hx) hwalk)⟩
  · refine ⟨0, refused_nothing .., ?_⟩
    rw [add_zero]
    exact .head hcall (.tail (walk_afterCall hs) .turn)

/-- The slow path of `Scheduler::submit`: the task gets its lock, and runs inline or is queued. -/
theorem walk_submitSlow (hs : s.submitSlow current x b = some s') :
    ∃ gone', Refused (s.pools x.pool).accept x.task gone' ∧
      Walk skips ⟨s, .task x, g, [], gone⟩ ⟨s', .dropped 0, g', [], gone + gone'⟩ := by
  cases hg : Scheduler.getGroupsLock s.groups ⟨x.task.id, x.task.priority, x.pool⟩ x.groups with
  | mk groups groupLock =>
    simp only [submitSlow, hg] at hs
    split_ifs at hs with hin hlocked
    · rw [← Option.some.inj hs]
      refine ⟨0, refused_nothing .., ?_⟩
      rw [add_zero]
      exact .head (.getGroupsLock hg) (.head (.runInline hlocked) (.single .turn))
    · obtain ⟨gone', hrefused, hwalk⟩ := walk_submitOrDrop skips g g' gone hs
      refine ⟨gone', hrefused, .head (.getGroupsLock hg) (.head (.tryLock ?_) hwalk)⟩
      simpa using hlocked
    · obtain ⟨gone', hrefused, hwalk⟩ := walk_submitOrDrop skips g g' gone hs
      exact ⟨gone', hrefused, .head (.getGroupsLock hg) hwalk⟩

/-- **`Scheduler::submit`**, on all its paths: the task is somewhere at the end, or was refused by
its pool. -/
theorem walk_submit (hs : s.submit current x = some s') :
    ∃ gone', Refused (s.pools x.pool).accept x.task gone' ∧
      Walk skips ⟨s, .task x, g, [], gone⟩ ⟨s', .dropped 0, g', [], gone + gone'⟩ := by
  simp only [submit] at hs
  split at hs
  · rename_i k hx
    split_ifs at hs
    · split at hs
      · -- it runs inline, with a `RunningLock`
        rename_i group ev heq
        rw [← Option.some.inj hs]
        refine ⟨0, refused_nothing .., ?_⟩
        rw [add_zero]
        exact .head .turn (.head (.acquire hx heq) (.head (.runInline rfl) (.single .turn)))
      · rename_i group ev heq
        obtain ⟨s₁, hs₁, hrest⟩ := Option.bind_eq_some_iff.mp hs
        obtain ⟨gone', hrefused, hwalk⟩ := walk_trySubmit skips k g' gone hx hrest
        rw [(undisturbed_afterCall hs₁).accept] at hrefused
        exact ⟨gone', hrefused,
          .head .turn (.head (.tryAcquire hx heq) (.trans (walk_afterCall hs₁) hwalk))⟩
    · obtain ⟨gone', hrefused, hwalk⟩ := walk_trySubmit skips k g' gone hx hs
      exact ⟨gone', hrefused, .head .turn hwalk⟩
  · exact walk_submitSlow skips g g' gone hs

end Submissions

/-! ## Workers -/

/-- One pool is changed in other respects after it has been changed. -/
theorem Unmoved.setPool_setPool {P' : Pool} (hb : P'.buckets = P.buckets)
    (hw : P'.workers = P.workers) (hi : P'.inlined = P.inlined) (hc : P'.clock = P.clock)
    (hl : P.live = true → P'.live = true) : Unmoved (s.setPool p P) (s.setPool p P') := by
  have hset : s.setPool p P' = (s.setPool p P).setPool p P' := by
    rw [SchedulerState.setPool, SchedulerState.setPool, SchedulerState.setPool,
      Function.update_idem]
  rw [hset]
  refine .setPool ?_ ?_ ?_ ?_ ?_ <;> rw [setPool_self] <;> assumption

theorem collectLocalIdleReactions_frame (P : Pool) (i : ℕ) :
    (P.collectLocalIdleReactions i).1.buckets = P.buckets ∧
      (P.collectLocalIdleReactions i).1.workers = P.workers ∧
      (P.collectLocalIdleReactions i).1.inlined = P.inlined ∧
      (P.collectLocalIdleReactions i).1.clock = P.clock ∧
      (P.collectLocalIdleReactions i).1.live = P.live := by
  rw [Pool.collectLocalIdleReactions]
  split <;> exact ⟨rfl, rfl, rfl, rfl, rfl⟩

theorem consumePendingIdle_frame (P : Pool) (i : ℕ) :
    (P.consumePendingIdle i).1.buckets = P.buckets ∧
      (P.consumePendingIdle i).1.workers = P.workers ∧
      (P.consumePendingIdle i).1.inlined = P.inlined ∧
      (P.consumePendingIdle i).1.clock = P.clock ∧
      (P.consumePendingIdle i).1.live = P.live := by
  rw [Pool.consumePendingIdle]
  split_ifs
  · rw [Pool.getLocalIdleTask]
    split_ifs
    · exact ⟨rfl, rfl, rfl, rfl, rfl⟩
    · exact collectLocalIdleReactions_frame _ i
  · exact ⟨rfl, rfl, rfl, rfl, rfl⟩

theorem unmoved_getIdleTask (s : SchedulerState n) (p : Fin n) (i : ℕ) :
    Unmoved s (s.getIdleTask p i).1 := by
  obtain ⟨hb, hw, hi, hc, hl⟩ := collectLocalIdleReactions_frame (s.pools p) i
  cases hcol : (s.pools p).collectLocalIdleReactions i with
  | mk P tasks =>
    rw [hcol] at hb hw hi hc hl
    have h := Unmoved.setPool (s := s) (p := p) (P := { P with
      idle := { P.idle with poolIdle := some (s.activePools - 1 == 0) } }) hb hw hi hc
      fun h => hl.trans h
    simp only [getIdleTask, hcol]
    split_ifs
    · exact .refl s
    · exact ⟨rfl, h.buckets, h.workers, h.inlined, h.clock, h.live⟩
    · exact ⟨rfl, h.buckets, h.workers, h.inlined, h.clock, h.live⟩
    · exact Unmoved.setPool hb hw hi hc fun h => hl.trans h

theorem unmoved_clearThreadIdle (hp : s.pools p = P) (i : ℕ) :
    Unmoved s (s.setPool p (P.clearThreadIdle i)) := by
  rw [Pool.clearThreadIdle]
  split_ifs <;> refine .setPool ?_ ?_ ?_ ?_ ?_ <;> rw [hp] <;> exact id

/-- A worker is given something else to do, in a state where no other task has been moved. -/
theorem Unmoved.setWorker (hu : Unmoved s s') (w : Worker) :
    Unmoved (s.setWorker p i w) (s'.setWorker p i w) := by
  have hset : ∀ q, ((s.setWorker p i w).pools q) =
      if q = p then (s.pools q).setWorker i w else s.pools q := by
    intro q
    split_ifs with hq
    · rw [SchedulerState.setWorker, hq, setPool_self]
    · rw [SchedulerState.setWorker, setPool_of_ne s _ hq]
  have hset' : ∀ q, ((s'.setWorker p i w).pools q) =
      if q = p then (s'.pools q).setWorker i w else s'.pools q := by
    intro q
    split_ifs with hq
    · rw [SchedulerState.setWorker, hq, setPool_self]
    · rw [SchedulerState.setWorker, setPool_of_ne s' _ hq]
  refine ⟨hu.groups, fun q => ?_, fun q => ?_, fun q => ?_, fun q => ?_, fun q => ?_⟩ <;>
    rw [hset, hset'] <;> split_ifs
  · exact hu.buckets q
  · exact hu.buckets q
  · exact congrArg (List.set · i w) (hu.workers q)
  · exact hu.workers q
  · exact hu.inlined q
  · exact hu.inlined q
  · exact hu.clock q
  · exact hu.clock q
  · exact hu.live q
  · exact hu.live q

/-- The worker will take a task out of the buckets in this round, and not leave, discard or
dispatch. -/
def Dequeues (P : Pool) (i : ℕ) : Bool :=
  P.keepsLooking && !P.discardQueuesRequested && (P.consumePendingIdle i).2.isEmpty && P.live

/-- The first task of the buckets gets its lock, or no task behind it could be run. -/
def FailsAlone (groups : Groups) :
    Option (Fin priorityBuckets × PoolTask × Buckets priorityBuckets PoolTask) → Prop
  | none => True
  | some (_, t, buckets) => (t.lock.lock groups).2 = false →
      ∀ u ∈ buckets.contents, u.lock.ready (t.lock.lock groups).1 = false

/-- A worker that dequeues a task whose lock fails leaves no task behind that could be run. -/
def SkipsNobody (s : SchedulerState n) : Action n → Prop
  | .getTask p i => Dequeues (s.pools p) i = true →
      FailsAlone s.groups (s.pools p).buckets.dequeueFirst
  | _ => True

instance (groups : Groups) : ∀ r, Decidable (FailsAlone groups r)
  | none => .isTrue trivial
  | some (_, t, buckets) => inferInstanceAs (Decidable ((t.lock.lock groups).2 = false →
      ∀ u ∈ buckets.contents, u.lock.ready (t.lock.lock groups).1 = false))

instance (s : SchedulerState n) : ∀ a : Action n, Decidable (SkipsNobody s a)
  | .getTask p i => inferInstanceAs (Decidable (Dequeues (s.pools p) i = true →
      FailsAlone s.groups (s.pools p).buckets.dequeueFirst))
  | .start _ => .isTrue trivial
  | .submit _ _ => .isTrue trivial
  | .putBack _ _ => .isTrue trivial
  | .wake _ _ => .isTrue trivial
  | .finish _ _ => .isTrue trivial
  | .finishInline _ _ _ => .isTrue trivial
  | .notify _ _ => .isTrue trivial
  | .stop _ _ _ => .isTrue trivial
  | .stopReturn _ => .isTrue trivial
  | .addIdleTask _ _ => .isTrue trivial
  | .removeIdleTask _ _ => .isTrue trivial

theorem workers_dequeued (hd : (s.pools p).tryDequeueTask = some (t, P)) (groups : Groups) :
    (pools { s.setPool p P with groups := groups } p).workers = (s.pools p).workers :=
  (congrArg Pool.workers (setPool_self s p P)).trans (Pool.workers_tryDequeueTask hd)

/-- **A worker looks for a task**, and takes it with its lock, or puts it back, or becomes idle. -/
theorem walk_lookForTask (hw : (s.pools p).workers[i]? = some .looking)
    (hfree : (s.pools p).mutexFree = true)
    (hok : skips ∨ ((s.pools p).live = true →
      FailsAlone s.groups (s.pools p).buckets.dequeueFirst)) :
    Walk skips ⟨s, .dropped 0, g, [], gone⟩ ⟨s.lookForTask p i, .dropped 0, g, [], gone⟩ := by
  cases hd : (if (s.pools p).live then (s.pools p).tryDequeueTask else none) with
  | none =>
    simp only [lookForTask, hd]
    have hu := unmoved_getIdleTask (s.setPool p { s.pools p with live := false }) p i
    refine .head (.sleep (p := p) ?_) (.head (.unmoved hu)
      (.single (.moveWorker (w := .looking) ?_ rfl ?_)))
    · split_ifs at hd with hl
      · -- nothing is in the buckets, and no worker has a task to put back
        refine Or.inr ?_
        have hempty : (s.pools p).buckets.contents = [] := by
          rw [Pool.tryDequeueTask] at hd
          split at hd
          · rename_i hnone
            exact Buckets.dequeueFirst_eq_none_iff.mp hnone
          · exact absurd hd (by simp)
        rw [Pool.queued, hempty, List.nil_append, List.filterMap_eq_nil_iff]
        intro v hv
        simpa using List.all_eq_true.mp hfree v hv
      · exact Or.inl (Or.inl (by simpa using hl))
    · rw [hu.workers, setPool_self]
      exact hw
    · split_ifs <;> rfl
  | some r =>
    obtain ⟨t, P⟩ := r
    simp only [lookForTask, hd]
    split_ifs at hd with hlive
    split_ifs with hl
    · set s₁ : SchedulerState n := { s.setPool p P with groups := (t.lock.lock s.groups).1 }
        with hs₁
      have hp : s₁.pools p = P := setPool_self s p P
      exact .head (.take hw hfree hlive hd hl) (.single (.unmoved
        (((unmoved_clearThreadIdle hp i).trans (unmoved_clearPoolIdle _ p)).setWorker _)))
    · have hl : (t.lock.lock s.groups).2 = false := by simpa using hl
      refine .single (.fail hw hfree hlive hd hl (hok.imp id fun hok => ?_))
      obtain ⟨b, buckets, hfirst, rfl⟩ := Pool.tryDequeueTask_cases hd
      have hok := hok hlive
      rw [hfirst] at hok
      exact hok hl

/-- The tasks in the buckets are taken out and destroyed, with their locks. -/
theorem walk_discard (hb : P.buckets = Buckets.empty) (hw : P.workers = (s.pools p).workers)
    (hi : P.inlined = (s.pools p).inlined) (hc : P.clock = (s.pools p).clock)
    (hl : (s.pools p).live = true → P.live = true)
    (hs : (s.setPool p P).releaseAll current (s.pools p).buckets.contents = some s') :
    Walk skips ⟨s, .dropped 0, g, [], gone⟩
      ⟨s', .dropped 0, g', [], gone + queuedWork (s.pools p)⟩ :=
  .head .drain (.head (.unmoved (.setPool_setPool hb hw hi hc hl)) (walk_releaseAll hs))

/-- **One round of `get_task`**, on all its branches; what is discarded in it has left the system.
-/
theorem walk_getTask (hw : (s.pools p).workers[i]? = some .looking)
    (hfree : (s.pools p).mutexFree = true) (hok : skips ∨ SkipsNobody s (.getTask p i))
    (hs : s.getTask p i = some s') : Walk skips ⟨s, .dropped 0, g, [], gone⟩
      ⟨s', .dropped 0, g, [], gone +
        if (s.pools p).keepsLooking && (s.pools p).discardQueuesRequested then
          queuedWork (s.pools p) else 0⟩ := by
  obtain ⟨hb, hwk, hin, hcl, hlv⟩ := consumePendingIdle_frame (s.pools p) i
  cases hcon : (s.pools p).consumePendingIdle i with
  | mk P tasks =>
    rw [hcon] at hb hwk hin hcl hlv
    simp only at hb hwk hin hcl hlv
    simp only [getTask, hcon] at hs
    have hp : (s.setPool p P).pools p = P := setPool_self s p P
    have hw₁ : ((s.setPool p P).pools p).workers[i]? = some .looking := by
      rw [hp, hwk]
      exact hw
    have hu : Unmoved s (s.setPool p P) := .setPool hb hwk hin hcl hlv.trans
    cases hkeep : (s.pools p).keepsLooking with
    | false =>
      rw [hkeep, Bool.not_false, if_pos rfl] at hs
      rw [← Option.some.inj hs, Bool.false_and, if_neg Bool.false_ne_true, add_zero]
      exact .single (.moveWorker hw rfl rfl)
    | true =>
      rw [hkeep, Bool.not_true, if_neg Bool.false_ne_true] at hs
      cases hdiscard : (s.pools p).discardQueuesRequested with
      | true =>
        rw [hdiscard, if_pos rfl] at hs
        rw [Bool.and_self, if_pos rfl]
        refine walk_discard ?_ ?_ ?_ ?_ ?_ hs
        all_goals first | rfl | exact id
      | false =>
        rw [hdiscard, if_neg Bool.false_ne_true] at hs
        rw [Bool.and_false, if_neg Bool.false_ne_true, add_zero]
        split_ifs at hs with htasks
        · rw [← Option.some.inj hs]
          refine .head (.unmoved hu) (walk_lookForTask hw₁ ?_ (hok.imp id fun hok hl => ?_))
          · rw [hu.mutexFree]
            exact hfree
          · rw [hp, hb]
            rw [hp, hlv] at hl
            refine hok ?_
            simp only [Dequeues, hcon, htasks, hl, hkeep, hdiscard, List.isEmpty_nil,
              Bool.and_true, Bool.not_false]
        · rw [← Option.some.inj hs]
          exact .head (.unmoved hu) (.single (.moveWorker hw₁ rfl rfl))

/-- `Pool::stop`: only a forced one discards tasks. -/
theorem walk_stop {type : Pool.StopType} (hs : s.stop current p type = some s') :
    Walk skips ⟨s, .dropped 0, g, [], gone⟩ ⟨s', .dropped 0, g, [], gone +
      if type = .force ∧ ¬ (consumerAlive (s.pools p) && current != some p) = true then
        queuedWork (s.pools p) else 0⟩ := by
  cases type with
  | normal | final =>
    simp only [stop, Option.some.injEq] at hs
    rw [← hs, if_neg (by simp), add_zero]
    exact .single (.unmoved (.setPool rfl rfl rfl rfl fun _ => rfl))
  | force =>
    simp only [stop] at hs
    split_ifs at hs with halive
    · rw [if_neg fun hboth => hboth.2 halive, add_zero, ← Option.some.inj hs]
      exact .single (.unmoved (.setPool rfl rfl rfl rfl fun _ => rfl))
    · rw [if_pos ⟨rfl, halive⟩]
      refine walk_discard ?_ ?_ ?_ ?_ ?_ hs
      all_goals first | rfl | exact fun _ => rfl

/-! ## The steps -/

theorem unmoved_of_notify {b : Bool} (hs : s.step (.notify p b) = some s') : Unmoved s s' := by
  simp only [SchedulerState.step] at hs
  split_ifs at hs
  rw [← Option.some.inj hs]
  exact (unmoved_notify s p b).1

theorem unmoved_of_stopReturn (hs : s.step (.stopReturn p) = some s') : Unmoved s s' := by
  simp only [SchedulerState.step] at hs
  split_ifs at hs
  rw [← Option.some.inj hs]
  exact .setPool rfl rfl rfl rfl id

theorem unmoved_of_addIdleTask {p : Option (Fin n)} {r : ℕ}
    (hs : s.step (.addIdleTask p r) = some s') :
    Unmoved s s' := by
  cases p with
  | none =>
    simp only [SchedulerState.step] at hs
    split_ifs at hs
    rw [← Option.some.inj hs]
    have hidle : Unmoved s { s with
        idleTasks := s.idleTasks ++ [r], globalIdleCount := s.globalIdleCount + 1 } :=
      ⟨rfl, fun _ => rfl, fun _ => rfl, fun _ => rfl, fun _ => rfl, fun _ => id⟩
    exact hidle.trans (unmoved_notify _ s.mainThread true).1
  | some p =>
    simp only [SchedulerState.step] at hs
    split_ifs at hs
    rw [← Option.some.inj hs]
    exact .setPool rfl rfl rfl rfl id

theorem unmoved_of_removeIdleTask {p : Option (Fin n)} {r : ℕ}
    (hs : s.step (.removeIdleTask p r) = some s') : Unmoved s s' := by
  cases p with
  | none =>
    simp only [SchedulerState.step] at hs
    rw [← Option.some.inj hs]
    exact ⟨rfl, fun _ => rfl, fun _ => rfl, fun _ => rfl, fun _ => rfl, fun _ => id⟩
  | some p =>
    simp only [SchedulerState.step] at hs
    split_ifs at hs
    rw [← Option.some.inj hs]
    exact .setPool rfl rfl rfl rfl id

/-! ### The tasks that come and go -/

/-- What an action has in its hands at its start: the task that is submitted, or nothing. -/
def arrives : Action n → Hand n
  | .submit _ x => .task x
  | _ => .dropped 0

def submits : Action n → Multiset ReactionTask
  | .submit _ x => {x.task}
  | _ => 0

def accepts (s : SchedulerState n) : Action n → Multiset ReactionTask
  | .submit _ x => if (s.pools x.pool).accept then {x.task} else 0
  | _ => 0

def finishes (s : SchedulerState n) : Action n → Multiset ReactionTask
  | .finish p i => ((s.pools p).workers[i]?.map Pool.workOf).getD 0
  | .finishInline _ _ t => {t.task}
  | _ => 0

/-- The consumer discards the queues on behalf of a caller of `stop(FORCE)`, or the caller does
it. -/
def discards (s : SchedulerState n) : Action n → Multiset ReactionTask
  | .getTask p _ =>
      if (s.pools p).keepsLooking && (s.pools p).discardQueuesRequested then queuedWork (s.pools p)
        else 0
  | .stop current p type =>
      if type = .force ∧ ¬ (consumerAlive (s.pools p) && current != some p) = true then
        queuedWork (s.pools p) else 0
  | _ => 0

/-- **What an action does.**  A task that is submitted has left the system at once only if its pool
does not accept it. -/
theorem walk_step (skips : Prop) {a : Action n} (hok : skips ∨ SkipsNobody s a)
    (hs : step s a = some s') :
    ∃ refused, s.accepts a + refused ≤ submits a ∧ Walk skips ⟨s, arrives a, 0, [], 0⟩
      ⟨s', .dropped 0, 0, [], s.finishes a + s.discards a + refused⟩ := by
  have hunmoved {s' : SchedulerState n} (hu : Unmoved s s') :
      ∃ refused : Multiset ReactionTask, 0 + refused ≤ 0 ∧ Walk skips ⟨s, .dropped 0, 0, [], 0⟩
        ⟨s', .dropped 0, 0, [], 0 + 0 + refused⟩ := ⟨0, le_rfl, .single (.unmoved hu)⟩
  cases a with
  | start p =>
    simp only [step] at hs
    split_ifs at hs with hw
    rw [← Option.some.inj hs]
    exact ⟨0, le_rfl, .single (.start hw)⟩
  | submit current x =>
    obtain ⟨refused, ⟨hle, haccept⟩, hwalk⟩ := walk_submit skips 0 0 0 hs
    refine ⟨refused, ?_, hwalk⟩
    simp only [accepts]
    split_ifs with hyes
    · rw [haccept hyes, add_zero]
      exact le_rfl
    · rwa [zero_add]
  | getTask p i =>
    simp only [step] at hs
    split_ifs at hs with hg
    refine ⟨0, le_rfl, ?_⟩
    rw [add_zero]
    exact walk_getTask hg.1 hg.2 hok hs
  | putBack p i =>
    simp only [step] at hs
    split at hs
    · rename_i t hw
      rw [← Option.some.inj hs]
      exact ⟨0, le_rfl, .single (.putBack hw)⟩
    · exact absurd hs (by simp)
  | wake p i =>
    simp only [step] at hs
    split_ifs at hs with hg
    rw [← Option.some.inj hs]
    exact ⟨0, le_rfl, .single (.moveWorker hg.1 rfl rfl)⟩
  | finish p i =>
    simp only [step] at hs
    refine ⟨0, le_rfl, ?_⟩
    rw [finishes]
    split at hs
    · rename_i t hw
      rw [hw]
      exact .head (.finish hw) (walk_release hs)
    · rename_i hw
      rw [hw, ← Option.some.inj hs]
      exact .single (.moveWorker hw rfl rfl)
    · exact absurd hs (by simp)
  | finishInline current p t =>
    simp only [step] at hs
    split_ifs at hs with ht
    exact ⟨0, le_rfl, .head (.finishInline ht) (walk_release hs)⟩
  | notify p b => exact hunmoved (unmoved_of_notify hs)
  | stop current p type =>
    simp only [step] at hs
    split_ifs at hs
    refine ⟨0, le_rfl, ?_⟩
    rw [add_zero]
    exact walk_stop hs
  | stopReturn p => exact hunmoved (unmoved_of_stopReturn hs)
  | addIdleTask p r => exact hunmoved (unmoved_of_addIdleTask hs)
  | removeIdleTask p r => exact hunmoved (unmoved_of_removeIdleTask hs)

end SchedulerState

end Scheduler
end NUClear
