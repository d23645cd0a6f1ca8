import NUClear.Scheduler.CombinedLock

/-!
# Pools and the scheduler (`Pool.cpp`, `Scheduler.cpp`)

A pool has five buckets of tasks, a number of workers, and a flag `live` that is cleared when a
worker has found nothing to run.  A worker takes the first task of the first bucket that is not
empty.  If the task's lock fails, it puts the task back, at the end of its bucket, clears `live` and
waits.  From the failed lock to the wait it holds the mutex of the pool, and so does whoever submits
to the pool or notifies it.

## What a step is

The operations on the groups, on the buckets and on the locks are indivisible here, each with the
callbacks that it makes; what the workers and the other threads do one after the other is
interleaved.  (`NUClear.Scheduler.Pool.Interleaved` and `NUClear.Scheduler.Group.Interleaved` have
the accesses inside these operations.)  The mutex of a pool is held between two steps only by a
worker that is about to put a task back; a step that needs the mutex is not possible then.

Two fields of a task are there for the statements only: the times at which it was submitted and last
enqueued.

## The layers

* `Pool`: one pool, with what `Pool.cpp` does to it alone.
* `SchedulerState`: the groups and the pools together.  A call on a group makes callbacks
  (`applyEvent`): a task is submitted to its pool, or a handle is told that it may lock, which
  notifies its pool.
* `submit`, `getTask`, `stop`: the operations, each made of calls on groups and pools.
* `Action`, `step`: what the threads may do, in any order.
-/

namespace NUClear
namespace Scheduler

open Foundation

/-! ## Tasks and their locks -/

/-- The lock of a task in a pool: what it needs from its groups before it may run. -/
inductive TaskLock where
  /-- A null pointer. -/
  | none
  /-- `RunningLock`. -/
  | running (group : GroupId)
  | combined (lock : CombinedLock)
  deriving DecidableEq, Repr

/-- `task.lock == nullptr || task.lock->lock()`.  A `RunningLock` has its token already, so only a
`CombinedLock` may fail. -/
def TaskLock.lock (groups : Groups) : TaskLock → Groups × Bool
  | .none => (groups, true)
  | .running _ => (groups, true)
  | .combined lock => lock.lock groups

/-- A `std::unique_ptr<Lock>` that holds a `CombinedLock` or nothing. -/
def TaskLock.ofOption : Option CombinedLock → TaskLock
  | .none => .none
  | .some lock => .combined lock

/-- The task could run now: its lock would lock, in the groups as they are. -/
def TaskLock.ready (groups : Groups) (lock : TaskLock) : Bool := (lock.lock groups).2

/-- `Pool::Task`: a task with its lock.  The two times are histories, for the statements about the
order of tasks. -/
structure PoolTask where
  task : ReactionTask
  lock : TaskLock
  /-- When the task was submitted to the pool. -/
  submitted : ℕ
  /-- When the task was last enqueued: submitted, or put back after its lock failed. -/
  enqueued : ℕ
  deriving DecidableEq, Repr

/-- The bucket of a task, by its priority; within a bucket the tasks are taken in the order in which
they were put. -/
def PoolTask.bucket (t : PoolTask) : Fin priorityBuckets := priorityIndex t.task.priority

/-- Where a worker is between its operations; what it does with the mutex held is one of these. -/
inductive Worker where
  /-- At the head of the loop of `get_task`, without the mutex. -/
  | looking
  /-- It has dequeued a task whose lock failed, and holds the mutex. -/
  | puttingBack (t : PoolTask)
  /-- Blocked in `condition.wait`. -/
  | waiting
  /-- `get_task` has returned a task from the buckets. -/
  | running (t : PoolTask)
  /-- `get_task` has returned a task that dispatches idle reactions. -/
  | dispatchingIdle (reactions : List ℕ)
  /-- It has left with the shutdown exception. -/
  | exited
  deriving DecidableEq, Repr

/-- The task that a worker has out of the buckets and not returned. -/
def Worker.putting : Worker → Option PoolTask
  | .puttingBack t => some t
  | _ => none

/-- The task that a worker has, which is then in no bucket. -/
def Worker.tasks : Worker → List PoolTask
  | .puttingBack t => [t]
  | .running t => [t]
  | _ => []

/-! ## Pools -/

/-- `util::ThreadPoolDescriptor`: the number of threads, whether the pool counts for idle reactions,
and whether a normal stop leaves it running. -/
structure PoolDescriptor where
  concurrency : ℕ
  countsForIdle : Bool
  persistent : Bool
  /-- It is `dsl::word::Pool<>::descriptor()`. -/
  isDefault : Bool

/-- The idle state of a pool: which of its threads are idle, whether the pool is counted as idle
itself, and the reactions to dispatch then.  A `CountingLock` is the value that its `lock()`
returns. -/
structure PoolIdle where
  poolIdle : Option Bool
  active : ℤ
  threadIdle : ℕ → Option Bool
  idleTasks : List ℕ

structure Pool where
  descriptor : PoolDescriptor
  running : Bool
  accept : Bool
  buckets : Buckets priorityBuckets PoolTask
  pendingTasks : UInt64
  externalWaiters : UInt64
  pendingIdle : Bool
  live : Bool
  discardQueuesRequested : Bool
  /-- The callers of `stop(FORCE)` that wait for the consumer. -/
  stoppers : ℕ
  workers : List Worker
  /-- Tasks for this pool that run inline, on the threads that submitted them. -/
  inlined : List PoolTask
  idle : PoolIdle
  /-- Counts what is enqueued. -/
  clock : ℕ

namespace Pool

/-- `Pool::Pool`: nothing is queued, and no thread runs yet. -/
def make (descriptor : PoolDescriptor) : Pool where
  descriptor := descriptor
  running := true
  accept := true
  buckets := Buckets.empty
  pendingTasks := 0
  externalWaiters := 0
  pendingIdle := false
  live := true
  discardQueuesRequested := false
  stoppers := 0
  workers := []
  inlined := []
  idle := ⟨if descriptor.countsForIdle then some true else none, 0, fun _ => none, []⟩
  clock := 0

/-- `start`, of a pool that has not been started: every thread goes to the loop of `get_task`. -/
def start (P : Pool) (threads : ℕ) : Pool :=
  { P with
    workers := List.replicate threads .looking
    idle := { P.idle with active := if P.descriptor.countsForIdle then threads else 0 } }

/-- `single_consumer`: the queues are those for one thread, since only one will ever dequeue. -/
def singleConsumer (P : Pool) : Bool := P.descriptor.concurrency == 1 && !P.descriptor.isDefault

/-- No worker holds the mutex, which it does from a failed lock until it waits. -/
def mutexFree (P : Pool) : Bool := P.workers.all fun w => w.putting.isNone

/-- The condition of the loop of `get_task`: there is something to do, or somebody may come back
with something. -/
def keepsLooking (P : Pool) : Bool :=
  P.running || P.pendingTasks != 0 || P.externalWaiters != 0 || P.discardQueuesRequested

/-- The predicate of `condition.wait`: a worker that waits goes on when it holds. -/
def waitPredicate (P : Pool) : Bool :=
  P.live || P.pendingIdle || P.discardQueuesRequested ||
    (!P.running && P.pendingTasks == 0 && P.externalWaiters == 0)

def setWorker (P : Pool) (i : ℕ) (w : Worker) : Pool := { P with workers := P.workers.set i w }

/-- `pending_tasks.fetch_add` and `enqueue`, in the bucket of the task, behind the others. -/
def enqueue (P : Pool) (t : PoolTask) : Pool :=
  { P with
    pendingTasks := P.pendingTasks + 1
    buckets := P.buckets.enqueue t.bucket { t with enqueued := P.clock }
    clock := P.clock + 1 }

/-- `Scheduler::submit`, with the pool of the task found: inline if that is asked for and the groups
allow it, otherwise by way of the group or of the pool. -/
def submit (P : Pool) (task : ReactionTask) (lock : TaskLock) : Pool :=
  { P.enqueue ⟨task, lock, P.clock, P.clock⟩ with live := true }

/-- `try_dequeue_task`: the first task of the first bucket that is not empty. -/
def tryDequeueTask (P : Pool) : Option (PoolTask × Pool) :=
  match P.buckets.dequeueFirst with
  | none => none
  | some (_, t, buckets) =>
      some (t, { P with buckets := buckets, pendingTasks := P.pendingTasks - 1 })

/-- `drain_queues`, with `pending_tasks.store(0)`: all that is queued is taken out, to be destroyed.
-/
def drainQueues (P : Pool) : List PoolTask × Pool :=
  (P.buckets.contents, { P with buckets := Buckets.empty, pendingTasks := 0 })

/-- `thread_idle[id] = nullptr`: the thread counts as active again, if it was idle. -/
def clearThreadIdle (P : Pool) (i : ℕ) : Pool :=
  if (P.idle.threadIdle i).isSome then
    { P with idle := { P.idle with
      active := P.idle.active + 1, threadIdle := Function.update P.idle.threadIdle i none } }
  else P

/-- `collect_local_idle_reactions`: a thread that becomes idle counts down, and the last one of its
pool gets the reactions of the pool. -/
def collectLocalIdleReactions (P : Pool) (i : ℕ) : Pool × List ℕ :=
  match P.idle.threadIdle i with
  | some _ => (P, [])
  | none =>
      let active := P.idle.active - 1
      let locked := active == 0
      ({ P with idle := { P.idle with
          active := active
          threadIdle := Function.update P.idle.threadIdle i (some locked) } },
        if locked then P.idle.idleTasks else [])

/-- `get_local_idle_task`, which is for a running pool that counts for idle reactions. -/
def getLocalIdleTask (P : Pool) (i : ℕ) : Pool × List ℕ :=
  if !P.running || !P.descriptor.countsForIdle then (P, []) else P.collectLocalIdleReactions i

/-- The consumption of the latch `pending_idle`: an external waiter has asked for a look at the idle
state. -/
def consumePendingIdle (P : Pool) (i : ℕ) : Pool × List ℕ :=
  if P.pendingIdle then { P with pendingIdle := false }.getLocalIdleTask i else (P, [])

/-- `StopType`: a normal stop lets a persistent pool run on, the final one does not, and a forced
one discards what is queued. -/
inductive StopType where
  | normal
  | final
  | force
  deriving DecidableEq, Repr

end Pool

/-! ## The scheduler -/

/-- The groups and the pools, with the number of active pools and the reactions that wait for all
pools to be idle. -/
structure SchedulerState (n : ℕ) where
  groups : Groups
  pools : Fin n → Pool
  mainThread : Fin n
  activePools : ℤ
  idleTasks : List ℕ
  globalIdleCount : ℕ
  defaultPoolConcurrency : ℕ

/-- What `Scheduler::submit` reads of a task: its pool, its groups, and whether it is to be run
inline. -/
structure Submission (n : ℕ) where
  task : ReactionTask
  pool : Fin n
  groups : GroupSet
  runInline : Bool

variable {n : ℕ}

namespace SchedulerState

/-- Pools that have not been started, and groups that have not been used. -/
def start (c : GroupId → ℕ) (descriptors : Fin n → PoolDescriptor) (mainThread : Fin n)
    (defaultPoolConcurrency : ℕ) : SchedulerState n where
  groups := fun g => Group.make (c g)
  pools := fun p => Pool.make (descriptors p)
  mainThread := mainThread
  activePools := 0
  idleTasks := []
  globalIdleCount := 0
  defaultPoolConcurrency := defaultPoolConcurrency

def setPool (s : SchedulerState n) (p : Fin n) (P : Pool) : SchedulerState n :=
  { s with pools := Function.update s.pools p P }

def setGroup (s : SchedulerState n) (g : GroupId) (x : Group) : SchedulerState n :=
  { s with groups := Function.update s.groups g x }

def setWorker (s : SchedulerState n) (p : Fin n) (i : ℕ) (w : Worker) : SchedulerState n :=
  s.setPool p ((s.pools p).setWorker i w)

/-- Something is done to the pool that a pointer points to; the pools of the scheduler have the
numbers below `n`. -/
def onPool (s : SchedulerState n) (p : PoolId) (f : Fin n → SchedulerState n) : SchedulerState n :=
  if h : p < n then f ⟨p, h⟩ else s

/-- `pool_idle = nullptr`: the destroyed `CountingLock` counts its pool as active again. -/
def clearPoolIdle (s : SchedulerState n) (p : Fin n) : SchedulerState n :=
  let P := s.pools p
  if P.idle.poolIdle.isSome then
    { s.setPool p { P with idle := { P.idle with poolIdle := none } } with
      activePools := s.activePools + 1 }
  else s

/-- `Pool::current() != nullptr && Pool::current()->is_idle()`: the task comes from an idle
reaction, so it wakes nobody from being idle. -/
def currentPoolIdle (s : SchedulerState n) : Option (Fin n) → Bool
  | none => false
  | some p => (s.pools p).idle.poolIdle.isSome

/-- `idle_relevant`: there are reactions that wait for the pool, or for all pools, to be idle. -/
def idleRelevant (s : SchedulerState n) (p : Fin n) : Bool :=
  (s.pools p).idle.idleTasks.length > 0 || s.globalIdleCount > 0

/-- `Pool::submit` of an accepted task: it is queued, and its pool is not idle any more unless the
submitter is. -/
def submitTo (s : SchedulerState n) (p : Fin n) (task : ReactionTask) (lock : TaskLock)
    (clearIdle : Bool) : SchedulerState n :=
  let s := s.setPool p ((s.pools p).submit task lock)
  if clearIdle then s.clearPoolIdle p else s

/-- `Pool::notify`: the workers look again, and the pool is not idle any more unless the notifier
is. -/
def notify (s : SchedulerState n) (p : Fin n) (clearIdle : Bool) : SchedulerState n :=
  let s := s.setPool p { s.pools p with live := true }
  if clearIdle then s.clearPoolIdle p else s

/-- `n_threads`: the default pool takes the number of the configuration, every other one its own. -/
def threads (s : SchedulerState n) (p : Fin n) : ℕ :=
  if (s.pools p).descriptor.isDefault then s.defaultPoolConcurrency
  else (s.pools p).descriptor.concurrency

/-! ### What the groups' operations do to the pools -/

/-- One callback of an operation of the group `g` by a thread of the pool `current`: tasks go to
their pools, waiters are registered, unregistered and notified. -/
def applyEvent (s : SchedulerState n) (current : Option (Fin n)) (g : GroupId) :
    Event → SchedulerState n
  | .submit w => s.onPool w.pool fun p => s.submitTo p w.task (.running g) w.clearIdle
  | .submitForced e => s.onPool e.pool fun p => s.submitTo p e.task (.running g) e.clearIdle
  | .register pool => s.onPool pool fun p =>
      let P := s.pools p
      s.setPool p { P with
        externalWaiters := P.externalWaiters + 1
        pendingIdle := P.pendingIdle || s.idleRelevant p }
  | .unregister pool => s.onPool pool fun p =>
      let P := s.pools p
      s.setPool p { P with externalWaiters := P.externalWaiters - 1 }
  | .notify _ pool => s.onPool pool fun p => s.notify p (!s.currentPoolIdle current)
  | .lockReturned _ _ => s

def applyEvents (s : SchedulerState n) (current : Option (Fin n)) (g : GroupId)
    (events : List Event) : SchedulerState n :=
  events.foldl (fun s e => s.applyEvent current g e) s

/-- The mutex of the pool that a pointer points to can be taken. -/
def mutexFreeAt (s : SchedulerState n) (p : PoolId) : Bool :=
  if h : p < n then (s.pools ⟨p, h⟩).mutexFree else true

/-- The callback can take the mutex that it needs; otherwise the operation has to wait. -/
def canApply (s : SchedulerState n) : Event → Bool
  | .submit w => s.mutexFreeAt w.pool
  | .submitForced e => s.mutexFreeAt e.pool
  | .notify _ pool => s.mutexFreeAt pool
  | _ => true

/-- A group's operation has led to the group `x` with these callbacks, which are invoked if they can
be. -/
def afterCall (s : SchedulerState n) (current : Option (Fin n)) (g : GroupId)
    (r : Group × List Event) : Option (SchedulerState n) :=
  if r.2.all s.canApply then some ((s.setGroup g r.1).applyEvents current g r.2) else none

/-- The destruction of the `GroupLock`s of a `CombinedLock`, one after the other, each with its
callbacks. -/
def releaseLocks (s : SchedulerState n) (current : Option (Fin n)) :
    List GroupLock → Option (SchedulerState n)
  | [] => some s
  | l :: locks =>
      (s.afterCall current l.group ((s.groups l.group).handleDestroy l.handle)).bind fun s =>
        s.releaseLocks current locks

/-- The destruction of the lock of a task, which may start parked tasks or notify others. -/
def release (s : SchedulerState n) (current : Option (Fin n)) :
    TaskLock → Option (SchedulerState n)
  | .none => some s
  | .running g =>
      if (s.groups g).running = 0 then none
      else s.afterCall current g (s.groups g).runningDestroy
  | .combined lock => s.releaseLocks current lock.locks

/-- The destruction of some tasks, as of those that a pool discards. -/
def releaseAll (s : SchedulerState n) (current : Option (Fin n)) :
    List PoolTask → Option (SchedulerState n)
  | [] => some s
  | t :: ts => (s.release current t.lock).bind fun s => s.releaseAll current ts

/-! ### `Scheduler::submit` -/

/-- `Pool::submit`, which drops the task if the pool does not accept it. -/
def submitOrDrop (s : SchedulerState n) (current : Option (Fin n)) (x : Submission n)
    (lock : TaskLock) (clearIdle : Bool) : Option (SchedulerState n) :=
  if !(s.pools x.pool).accept then s.release current lock
  else if (s.pools x.pool).mutexFree then some (s.submitTo x.pool x.task lock clearIdle)
  else none

/-- The task runs inline, in the thread that submits it, with its lock. -/
def runInline (s : SchedulerState n) (x : Submission n) (lock : TaskLock) : SchedulerState n :=
  let P := s.pools x.pool
  s.setPool x.pool { P with inlined := P.inlined ++ [⟨x.task, lock, P.clock, P.clock⟩] }

/-- `group->try_submit`: a newcomer that starts goes through `Pool::submit`, and another one is
parked in the group. -/
def trySubmit (s : SchedulerState n) (current : Option (Fin n)) (g : GroupId) (x : Submission n)
    (clearIdle : Bool) : Option (SchedulerState n) :=
  let r := (s.groups g).trySubmit ⟨x.task, x.pool, clearIdle⟩
  if r.2 = [.submit ⟨x.task, x.pool, clearIdle⟩] then
    (s.setGroup g r.1).submitOrDrop current x (.running g) clearIdle
  else s.afterCall current g r

/-- The slow path of `Scheduler::submit`, for tasks over no group or over several ones: they are
given a lock, and queued with it. -/
def submitSlow (s : SchedulerState n) (current : Option (Fin n)) (x : Submission n)
    (clearIdle : Bool) : Option (SchedulerState n) :=
  let (groups, groupLock) := getGroupsLock s.groups ⟨x.task.id, x.task.priority, x.pool⟩ x.groups
  let lock := TaskLock.ofOption groupLock
  if x.runInline then
    let (groups, locked) := lock.lock groups
    if locked then some ({ s with groups := groups }.runInline x lock)
    else { s with groups := groups }.submitOrDrop current x lock clearIdle
  else { s with groups := groups }.submitOrDrop current x lock clearIdle

/-- `Scheduler::submit`. -/
def submit (s : SchedulerState n) (current : Option (Fin n)) (x : Submission n) :
    Option (SchedulerState n) :=
  let clearIdle := !s.currentPoolIdle current
  match x.groups.descs with
  | [g] =>
      if x.runInline then
        match (s.groups g).tryAcquireRunningLock with
        | (group, true, _) => some ((s.setGroup g group).runInline x (.running g))
        | (group, false, events) =>
            (s.afterCall current g (group, events)).bind fun s =>
              s.trySubmit current g x clearIdle
      else s.trySubmit current g x clearIdle
  | _ => s.submitSlow current x clearIdle

/-! ### `Pool::get_task` -/

/-- `get_idle_task`: the reactions to dispatch when the thread, its pool and all pools have become
idle. -/
def getIdleTask (s : SchedulerState n) (p : Fin n) (i : ℕ) : SchedulerState n × List ℕ :=
  if !(s.pools p).running || !(s.pools p).descriptor.countsForIdle then (s, [])
  else
    let (P, tasks) := (s.pools p).collectLocalIdleReactions i
    if P.idle.poolIdle.isNone && P.idle.active == 0 then
      let activePools := s.activePools - 1
      let locked := activePools == 0
      ({ s.setPool p { P with idle := { P.idle with poolIdle := some locked } } with
          activePools := activePools },
        tasks ++ if locked then s.idleTasks else [])
    else (s.setPool p P, tasks)

/-- The dequeue of `get_task`, up to the lock of the task. -/
def lookForTask (s : SchedulerState n) (p : Fin n) (i : ℕ) : SchedulerState n :=
  match if (s.pools p).live then (s.pools p).tryDequeueTask else none with
  | some (t, P) =>
      let (groups, locked) := t.lock.lock s.groups
      let s := { s.setPool p P with groups := groups }
      if locked then
        ((s.setPool p (P.clearThreadIdle i)).clearPoolIdle p).setWorker p i (.running t)
      else s.setWorker p i (.puttingBack t)
  | none =>
      let (s, tasks) := (s.setPool p { s.pools p with live := false }).getIdleTask p i
      s.setWorker p i (if tasks = [] then .waiting else .dispatchingIdle tasks)

/-- One round of the loop of `get_task`: the worker leaves, discards what is queued, dispatches idle
reactions, or looks for a task. -/
def getTask (s : SchedulerState n) (p : Fin n) (i : ℕ) : Option (SchedulerState n) :=
  if !(s.pools p).keepsLooking then some (s.setWorker p i .exited)
  else if (s.pools p).discardQueuesRequested then
    let (discarded, P) := (s.pools p).drainQueues
    (s.setPool p { P with discardQueuesRequested := false }).releaseAll (some p) discarded
  else
    let (P, tasks) := (s.pools p).consumePendingIdle i
    let s := s.setPool p P
    if tasks = [] then some (s.lookForTask p i)
    else some (s.setWorker p i (.dispatchingIdle tasks))

/-- After a failed lock: the task is put back behind those of its bucket, the pool is not live, and
the worker waits. -/
def putBack (s : SchedulerState n) (p : Fin n) (i : ℕ) (t : PoolTask) : SchedulerState n :=
  s.setPool p ({ (s.pools p).enqueue t with live := false }.setWorker i .waiting)

/-! ### `Pool::stop` -/

/-- A worker of the pool owns its queues, so nobody else may dequeue from them. -/
def consumerAlive (P : Pool) : Bool :=
  P.singleConsumer && P.workers.any fun w => w != .exited

def stop (s : SchedulerState n) (current : Option (Fin n)) (p : Fin n) (type : Pool.StopType) :
    Option (SchedulerState n) :=
  let P := { s.pools p with live := true, accept := (s.pools p).descriptor.persistent }
  match type with
  | .normal => some (s.setPool p { P with running := P.descriptor.persistent })
  | .final => some (s.setPool p { P with running := false })
  | .force =>
      let P := { P with accept := false, running := false }
      if consumerAlive P && current != some p then
        some (s.setPool p { P with
          discardQueuesRequested := true, stoppers := P.stoppers + 1 })
      else
        let (drained, P) := P.drainQueues
        (s.setPool p P).releaseAll current drained

/-! ### The steps -/

inductive Action (n : ℕ) where
  /-- `Pool::start`. -/
  | start (p : Fin n)
  /-- `Scheduler::submit` on a thread of the pool `current`, or on another thread. -/
  | submit (current : Option (Fin n)) (x : Submission n)
  /-- A worker takes the mutex and looks for a task. -/
  | getTask (p : Fin n) (i : ℕ)
  /-- A worker puts back the task whose lock failed, and waits. -/
  | putBack (p : Fin n) (i : ℕ)
  /-- A waiting worker finds that the predicate is true. -/
  | wake (p : Fin n) (i : ℕ)
  /-- A worker has run its task and destroys it. -/
  | finish (p : Fin n) (i : ℕ)
  /-- A task that ran inline is destroyed. -/
  | finishInline (current : Option (Fin n)) (p : Fin n) (t : PoolTask)
  /-- `Pool::notify`. -/
  | notify (p : Fin n) (clearIdle : Bool)
  /-- `Pool::stop`. -/
  | stop (current : Option (Fin n)) (p : Fin n) (type : Pool.StopType)
  /-- A caller of `stop(FORCE)` finds that the consumer has discarded the tasks. -/
  | stopReturn (p : Fin n)
  /-- `Pool::add_idle_task`, or `Scheduler::add_idle_task` without a pool. -/
  | addIdleTask (p : Option (Fin n)) (reaction : ℕ)
  /-- `Pool::remove_idle_task`, or `Scheduler::remove_idle_task` without a pool. -/
  | removeIdleTask (p : Option (Fin n)) (reaction : ℕ)

def step (s : SchedulerState n) : Action n → Option (SchedulerState n)
  | .start p =>
      if (s.pools p).workers = [] then some (s.setPool p ((s.pools p).start (s.threads p)))
        else none
  | .submit current x => s.submit current x
  | .getTask p i =>
      if (s.pools p).workers[i]? = some .looking ∧ (s.pools p).mutexFree then s.getTask p i
      else none
  | .putBack p i =>
      match (s.pools p).workers[i]? with
      | some (.puttingBack t) => some (s.putBack p i t)
      | _ => none
  | .wake p i =>
      if (s.pools p).workers[i]? = some .waiting ∧ (s.pools p).waitPredicate ∧
          (s.pools p).mutexFree then
        some (s.setWorker p i .looking)
      else none
  | .finish p i =>
      match (s.pools p).workers[i]? with
      | some (.running t) => (s.setWorker p i .looking).release (some p) t.lock
      | some (.dispatchingIdle _) => some (s.setWorker p i .looking)
      | _ => none
  | .finishInline current p t =>
      let P := s.pools p
      if t ∈ P.inlined then
        (s.setPool p { P with inlined := P.inlined.erase t }).release current t.lock
      else none
  | .notify p clearIdle =>
      if (s.pools p).mutexFree then some (s.notify p clearIdle) else none
  | .stop current p type =>
      if (s.pools p).mutexFree then s.stop current p type else none
  | .stopReturn p =>
      let P := s.pools p
      if P.stoppers > 0 ∧ !P.discardQueuesRequested ∧ P.mutexFree then
        some (s.setPool p { P with stoppers := P.stoppers - 1, pendingTasks := 0 })
      else none
  | .addIdleTask none reaction =>
      let s := { s with
        idleTasks := s.idleTasks ++ [reaction], globalIdleCount := s.globalIdleCount + 1 }
      if (s.pools s.mainThread).mutexFree then some (s.notify s.mainThread true) else none
  | .addIdleTask (some p) reaction =>
      let P := s.pools p
      if P.mutexFree then
        some (s.setPool p { P with
          idle := { P.idle with idleTasks := P.idle.idleTasks ++ [reaction] } })
      else none
  | .removeIdleTask none reaction =>
      let idleTasks := s.idleTasks.filter (· ≠ reaction)
      some { s with
        idleTasks := idleTasks
        globalIdleCount := s.globalIdleCount - (s.idleTasks.length - idleTasks.length) }
  | .removeIdleTask (some p) reaction =>
      let P := s.pools p
      if P.mutexFree then
        some (s.setPool p { P with
          idle := { P.idle with idleTasks := P.idle.idleTasks.filter (· ≠ reaction) } })
      else none

end SchedulerState

end Scheduler
end NUClear
