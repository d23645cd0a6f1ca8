import NUClear.Foundation.BucketQueue
import NUClear.Foundation.Interleaving
import NUClear.Scheduler.Pool

/-!
# The pool's operations, one atomic access at a time (`Pool.cpp`)

`NUClear.Scheduler.Pool` lets a worker look for a task in one step.  Here every constructor of `Op`
is a point of the code just before an access to an atomic, a queue operation, or the taking of the
mutex, and `advance` does that access and the local code after it.  The model is sequentially
consistent.

What the mutex protects (`running`, `live`, `thread_idle`, `pool_idle`, `idle_tasks`, and `active`,
which is only touched under it) is read and written with the access before it.  A thread in
`condition.wait` may take the mutex whenever it is free: it is told, or it wakes for no reason.

Of a group there is only what it does to the pool: a task is parked (`Group::park_publish`), and one
parked task or another is handed to the pool (`Group::drain_one_to_pool`).  When that happens, and
whether a `CombinedLock` locks, is up to the environment.  So what is proved here holds whatever the
groups do.

There are `n` pools.  They share the number of active pools and the reactions that wait for all of
them to be idle.

* `PoolMemory`, `Shared`: what is read and written.
* `StopPoint`, `WorkerPoint`, `Op`: the points of `stop`, of `run` with `get_task`, and of the other
  calls.
* `PoolMemory.advance`, `PoolMemory.startCall`: the next access of an operation, and the start of a
  call.
* `PoolSystem.program`: the pools together, as a program of threads (`Program`).  `Machine` is its
  state: the memory, the operations in progress, and what was observed.
-/

namespace NUClear
namespace Scheduler

open Foundation

/-! ## The memory -/

/-- The lock of a task in a pool: a null pointer, a `RunningLock`, or a `CombinedLock`. -/
inductive LockKind where
  | none
  | running
  | combined
  deriving DecidableEq, Repr

/-- `Pool::Task`: a reaction task, with the lock that has to be taken before it may run. -/
structure Task extends ReactionTask where
  lock : LockKind
  deriving DecidableEq, Repr

/-- The bucket of a task, which its priority decides. -/
def Task.bucket (t : Task) : Fin priorityBuckets := priorityIndex t.priority

/-- A pool, with the tasks that are parked in groups and point at it.  The counters are integers, so
that a counter that wraps below zero is a negative one.  A `CountingLock` that is held is `true`. -/
structure PoolMemory where
  descriptor : PoolDescriptor
  /-- The number of threads that `start` makes, each of which enters `run` once. -/
  threads : ℕ
  started : Bool
  /-- The number of threads that have entered `run`. -/
  launched : ℕ
  /-- The mutex is held, by one of the operations in progress. -/
  mutex : Bool
  running : Bool
  accept : Bool
  live : Bool
  pendingTasks : ℤ
  externalWaiters : ℤ
  pendingIdle : Bool
  discardQueuesRequested : Bool
  /-- `consumer_thread_id`; the threads of the pool are numbered. -/
  consumer : Option ℕ
  buckets : Buckets priorityBuckets Task
  active : ℤ
  threadIdle : ℕ → Bool
  poolIdle : Bool
  /-- `idle_tasks.size()`, and so `idle_task_count`. -/
  idleTasks : ℕ
  /-- The parked tasks, each with its `clear_idle`. -/
  parked : List (Task × Bool)
  /-- The identity of the next task, so that no two tasks are the same. -/
  nextTask : ℕ

/-- What the pools share: the counters of the scheduler that all of them read and change. -/
structure Shared where
  activePools : ℤ
  /-- `scheduler.idle_tasks.size()`, and so `global_idle_count`. -/
  idleTasks : ℕ

namespace PoolMemory

/-- `Pool::Pool`: nothing is queued, and no thread runs yet.  The default pool has as many threads
as the scheduler is configured for, any other as many as its descriptor says. -/
def make (descriptor : PoolDescriptor) (defaultPoolConcurrency : ℕ) : PoolMemory where
  descriptor := descriptor
  threads := if descriptor.isDefault then defaultPoolConcurrency else descriptor.concurrency
  started := false
  launched := 0
  mutex := false
  running := true
  accept := true
  live := true
  pendingTasks := 0
  externalWaiters := 0
  pendingIdle := false
  discardQueuesRequested := false
  consumer := none
  buckets := Buckets.empty
  active := 0
  threadIdle := fun _ => false
  poolIdle := descriptor.countsForIdle
  idleTasks := 0
  parked := []
  nextTask := 0

/-- `single_consumer`: the buckets are queues of the kind that only one thread may take from. -/
def singleConsumer (m : PoolMemory) : Bool :=
  m.descriptor.concurrency == 1 && !m.descriptor.isDefault

/-! ## The points of the operations -/

/-- The points of `stop` before an atomic access, or before its mutex is taken. -/
inductive StopPoint where
  /-- The mutex is taken. -/
  | enter (type : Pool.StopType)
  /-- `accept.store(descriptor->persistent)`. -/
  | storeAccept (type : Pool.StopType)
  /-- FORCE: `accept.store(false)`. -/
  | storeRefuse
  /-- FORCE: `consumer_thread_id` is read. -/
  | decide
  /-- FORCE, for the consumer to do: `discard_queues_requested.store(true)`. -/
  | requestDiscard
  /-- The predicate of `condition.wait`: `discard_queues_requested.load`. -/
  | checkDiscard
  /-- Blocked in `condition.wait`. -/
  | blocked
  /-- FORCE: `drain_queues`, at one bucket, with what has been drained. -/
  | drain (bucket : ℕ) (drained : List Task)
  /-- FORCE: `pending_tasks.store(0)`. -/
  | storeZero (drained : List Task)
  deriving DecidableEq, Repr

/-- The points of a worker, from `run` over the loop of `get_task` to the task that it runs. -/
inductive WorkerPoint where
  /-- `run`: `consumer_thread_id` is set. -/
  | starting
  /-- `get_task`: the mutex is taken. -/
  | locking
  /-- The loop's condition, when not `running`: `pending_tasks.load`. -/
  | testPending
  /-- The loop's condition: `external_waiters.load`. -/
  | testExternal
  /-- The loop's condition: `discard_queues_requested.load`. -/
  | testDiscard
  /-- `run`, after the shutdown exception: `consumer_thread_id` is reset. -/
  | leaving
  /-- `discard_queues_requested.load`. -/
  | checkDiscard
  /-- `drain_queues`, at one bucket, with what has been drained. -/
  | discarding (bucket : ℕ) (discarded : List Task)
  /-- `pending_tasks.store(0)`. -/
  | discardZero (discarded : List Task)
  /-- `discard_queues_requested.store(false)`; then the mutex is released, `discarded` is
  cleared. -/
  | discardClear
  /-- `pending_idle.load`. -/
  | checkPendingIdle
  /-- `pending_idle.store(false)`, and `get_local_idle_task`. -/
  | clearPendingIdle
  /-- `try_dequeue_task`, at one bucket. -/
  | scan (bucket : ℕ)
  /-- `try_dequeue_task`: `pending_tasks.fetch_sub(1)`. -/
  | dequeued (t : Task)
  /-- `task.lock == nullptr || task.lock->lock()`. -/
  | tryLock (t : Task)
  /-- The lock failed: `pending_tasks.fetch_add(1)`. -/
  | readd (t : Task)
  /-- The lock failed: the task is enqueued. -/
  | reenqueue (t : Task)
  /-- `get_idle_task`. -/
  | account
  /-- The predicate of `condition.wait`, when not `live`: `pending_idle.load`. -/
  | waitPendingIdle
  /-- The predicate: `discard_queues_requested.load`. -/
  | waitDiscard
  /-- The predicate, when not `running`: `pending_tasks.load`. -/
  | waitPending
  /-- The predicate: `external_waiters.load`. -/
  | waitExternal
  /-- Blocked in `condition.wait`. -/
  | waiting
  /-- `get_task` has returned: a task of the buckets, or a task that dispatches idle reactions. -/
  | running (t : Option Task)
  /-- The task has called `stop` of its own pool. -/
  | stopping (t : Option Task) (s : StopPoint)
  deriving DecidableEq, Repr

/-- The points of the operations: those of a worker, of `stop`, of `submit`, and of the calls by
which a group registers and withdraws a parked task. -/
inductive Op where
  | worker (i : ℕ) (w : WorkerPoint)
  /-- `stop`, called by another thread. -/
  | stop (s : StopPoint)
  /-- `submit`: `pending_tasks.fetch_add(1)`; `force` says that a group drains the task. -/
  | add (t : Task) (clearIdle force : Bool)
  /-- `submit`: the task is enqueued. -/
  | enqueue (t : Task) (clearIdle force : Bool)
  /-- `submit`: the mutex section. -/
  | submitSection (t : Task) (clearIdle force : Bool)
  /-- `register_external_waiter`: `external_waiters.fetch_add(1)`. -/
  | register (t : Task) (clearIdle : Bool)
  /-- `idle_relevant`: `idle_task_count.load`. -/
  | localRelevant (t : Task) (clearIdle : Bool)
  /-- `idle_relevant`: `global_idle_count.load`. -/
  | globalRelevant (t : Task) (clearIdle : Bool)
  /-- `register_external_waiter`: `pending_idle.exchange(true)`. -/
  | latch (t : Task) (clearIdle : Bool)
  /-- `register_external_waiter`: the mutex section. -/
  | latchSection (t : Task) (clearIdle : Bool)
  /-- `park_publish`: the entry is enqueued in the group. -/
  | publish (t : Task) (clearIdle : Bool)
  /-- `unregister_external_waiter`: `external_waiters.fetch_sub(1)`. -/
  | unregister
  /-- `unregister_external_waiter`: the mutex section. -/
  | unregisterSection
  deriving DecidableEq, Repr

/-- What the environment decides about an access: to go on, that the task's lock fails, or that the
task calls `stop`. -/
inductive Choice where
  | proceed
  | fail
  | stop (type : Pool.StopType)
  deriving DecidableEq, Repr

/-- The calls of other threads, and of tasks that submit or park a task. -/
inductive Call where
  | start
  /-- A thread that `start` has made enters `run`. -/
  | run
  | stop (type : Pool.StopType)
  | submit (priority : ℤ) (lock : LockKind) (clearIdle : Bool)
  /-- A group parks a task for the pool. -/
  | park (priority : ℤ) (clearIdle : Bool)
  /-- A group drains the parked task at this place. -/
  | drain (k : ℕ)
  | notify (clearIdle : Bool)
  | addIdleTask
  | removeIdleTask
  deriving DecidableEq, Repr

/-- What is observed: what has become of a task that was submitted, and who has been handed the idle
reactions. -/
inductive Event where
  /-- `submit` has returned without the task, as `accept` was false. -/
  | refused (id : ℕ)
  /-- `submit` of the task has returned. -/
  | returned (id : ℕ)
  /-- `get_task` returns the task. -/
  | handed (id : ℕ)
  /-- `get_idle_task` hands out the reactions of the scheduler. -/
  | globalIdle
  /-- A worker leaves `get_task` with the shutdown exception. -/
  | left (i : ℕ)
  deriving DecidableEq, Repr

/-! ## The idle state -/

/-- `thread_idle[id] = nullptr`: a thread that counted as idle is active again. -/
@[simps discardQueuesRequested] def clearThreadIdle (m : PoolMemory) (i : ℕ) : PoolMemory :=
  { m with
    active := if m.threadIdle i then m.active + 1 else m.active
    threadIdle := Function.update m.threadIdle i false }

/-- `pool_idle = nullptr`, as far as the pool is concerned; for the scheduler see `activated`. -/
@[simps descriptor discardQueuesRequested poolIdle] def clearPoolIdle (m : PoolMemory) :
    PoolMemory := { m with poolIdle := false }

/-- `pool_idle = nullptr`, the number of active pools: a pool that was idle is active again. -/
def activated (m : PoolMemory) (sh : Shared) : Shared :=
  { sh with activePools := if m.poolIdle then sh.activePools + 1 else sh.activePools }

/-- `if (clear_idle) { pool_idle = nullptr; } live = true`, the pool. -/
@[simps descriptor discardQueuesRequested poolIdle] def wake (m : PoolMemory) (clearIdle : Bool) :
    PoolMemory :=
  { m with live := true, poolIdle := m.poolIdle && !clearIdle }

/-- `if (clear_idle) { pool_idle = nullptr; }`, the number of active pools. -/
def woken (m : PoolMemory) (sh : Shared) (clearIdle : Bool) : Shared :=
  if clearIdle then m.activated sh else sh

/-- The test at the head of `get_local_idle_task` and `get_idle_task`. -/
def idles (m : PoolMemory) : Bool := m.running && m.descriptor.countsForIdle

/-- `collect_local_idle_reactions`, after the test: thread `i` counts as idle if it did not yet. -/
def getsIdle (m : PoolMemory) (i : ℕ) : Bool := m.idles && !m.threadIdle i

/-- `get_local_idle_task`, as far as the pool is concerned: the thread counts as idle from now on.
-/
@[simps discardQueuesRequested mutex] def getLocalIdleTask (m : PoolMemory) (i : ℕ) : PoolMemory :=
  { m with
    active := if m.getsIdle i then m.active - 1 else m.active
    threadIdle := if m.getsIdle i then Function.update m.threadIdle i true else m.threadIdle }

/-- `get_local_idle_task`, the number of reactions: the last thread to go idle is handed those of
the pool. -/
def localReactions (m : PoolMemory) (i : ℕ) : ℕ :=
  if m.getsIdle i && m.active - 1 == 0 then m.idleTasks else 0

/-- All threads are idle and the pool is not: `get_idle_task` makes `pool_idle`. -/
def goesIdle (m : PoolMemory) (i : ℕ) : Bool :=
  m.idles && !m.poolIdle && (m.getLocalIdleTask i).active == 0

/-- `pool_idle->lock()`: the last active pool goes idle, so that the scheduler is idle. -/
def lastActive (m : PoolMemory) (sh : Shared) (i : ℕ) : Bool :=
  m.goesIdle i && sh.activePools - 1 == 0

/-- `get_idle_task`, as far as the pool is concerned: the thread goes idle, and with the last one
the pool. -/
@[simps! descriptor discardQueuesRequested mutex poolIdle] def getIdleTask (m : PoolMemory)
    (i : ℕ) : PoolMemory :=
  { m.getLocalIdleTask i with poolIdle := m.poolIdle || m.goesIdle i }

/-- `get_idle_task`, the number of active pools: there is one less when the pool goes idle. -/
def deactivated (m : PoolMemory) (sh : Shared) (i : ℕ) : Shared :=
  { sh with activePools := if m.goesIdle i then sh.activePools - 1 else sh.activePools }

/-- `get_idle_task`, the number of reactions: those of the pool, and those of the scheduler when
this was the last active pool. -/
def idleReactions (m : PoolMemory) (sh : Shared) (i : ℕ) : ℕ :=
  m.localReactions i + if m.lastActive sh i then sh.idleTasks else 0

/-! ## The accesses -/

/-- With the mutex held, the condition of the loop of `get_task` is evaluated; a running pool does
not read the counters. -/
def loopTop (m : PoolMemory) : WorkerPoint := if m.running then .checkDiscard else .testPending

/-- `if (live)`: the buckets are searched, or the worker goes on to account for idle. -/
def lookForTask (m : PoolMemory) : WorkerPoint := if m.live then .scan 0 else .account

/-- The mutex is released, and any thread that waits for it may go on. -/
@[simps discardQueuesRequested mutex poolIdle] def unlock (m : PoolMemory) : PoolMemory :=
  { m with mutex := false }

/-- The mutex is taken by a thread that has found it free. -/
@[simps discardQueuesRequested mutex] def lock (m : PoolMemory) : PoolMemory :=
  { m with mutex := true }

/-- The first task of a bucket is taken: what is left of the bucket is `l`. -/
@[simps discardQueuesRequested mutex pendingTasks] def dequeue (m : PoolMemory)
    (b : Fin priorityBuckets) (l : List Task) : PoolMemory :=
  { m with buckets := m.buckets.setBucket b l }

/-- A task is put at the end of the bucket of its priority. -/
@[simps discardQueuesRequested mutex pendingTasks] def put (m : PoolMemory) (t : Task) :
    PoolMemory :=
  { m with buckets := m.buckets.enqueue t.bucket t }

/-- `pending_tasks` is changed; it is not tied to the buckets, which are changed by accesses of
their own. -/
@[simps discardQueuesRequested mutex pendingTasks] def setPending (m : PoolMemory) (k : ℤ) :
    PoolMemory := { m with pendingTasks := k }

/-- The next access of `stop`, which worker `caller` of the pool or another thread has called.  Only
FORCE goes beyond `accept`. -/
def stopAdvance (m : PoolMemory) (caller : Option ℕ) : StopPoint →
    Option (PoolMemory × Option StopPoint)
  | .enter type =>
      if m.mutex then none else some ({ m.lock with live := true }, some (.storeAccept type))
  | .storeAccept .normal =>
      some ({ m.unlock with
        accept := m.descriptor.persistent, running := m.descriptor.persistent }, none)
  | .storeAccept .final =>
      some ({ m.unlock with accept := m.descriptor.persistent, running := false }, none)
  | .storeAccept .force =>
      some ({ m with accept := m.descriptor.persistent }, some .storeRefuse)
  | .storeRefuse => some ({ m with accept := false, running := false }, some .decide)
  | .decide =>
      some (m, some (if m.singleConsumer && m.consumer.isSome && m.consumer != caller
        then .requestDiscard else .drain 0 []))
  | .requestDiscard => some ({ m with discardQueuesRequested := true }, some .checkDiscard)
  | .checkDiscard =>
      if m.discardQueuesRequested then some (m.unlock, some .blocked)
      else some (m, some (.storeZero []))
  | .blocked => if m.mutex then none else some (m.lock, some .checkDiscard)
  | .drain b drained =>
      if hb : b < priorityBuckets then
        match m.buckets ⟨b, hb⟩ with
        | [] => some (m, some (.drain (b + 1) drained))
        | t :: l => some (m.dequeue ⟨b, hb⟩ l, some (.drain b (t :: drained)))
      else some (m, some (.storeZero drained))
  | .storeZero _ => some (m.unlock.setPending 0, none)

/-- After the `stop` that a task has called the task goes on; until then its worker is inside
`stop`. -/
def afterStop (t : Option Task) : Option StopPoint → WorkerPoint
  | none => .running t
  | some s => .stopping t s

/-- The next access of worker `i`.  The choice is read only where a lock is tried or a task runs. -/
def workerAdvance (m : PoolMemory) (sh : Shared) (i : ℕ) :
    WorkerPoint → Choice → Option (Outcome (PoolMemory × Shared) WorkerPoint Event)
  | .starting, .proceed => some ⟨({ m with consumer := some i }, sh), some .locking, []⟩
  | .locking, .proceed =>
      if m.mutex then none else some ⟨(m.lock, sh), some m.loopTop, []⟩
  | .testPending, .proceed =>
      some ⟨(m, sh), some (if m.pendingTasks = 0 then .testExternal else .checkDiscard), []⟩
  | .testExternal, .proceed =>
      some ⟨(m, sh), some (if m.externalWaiters = 0 then .testDiscard else .checkDiscard), []⟩
  | .testDiscard, .proceed =>
      if m.discardQueuesRequested then some ⟨(m, sh), some .checkDiscard, []⟩
      else some ⟨(m.unlock, sh), some .leaving, [.left i]⟩
  | .leaving, .proceed => some ⟨({ m with consumer := none }, sh), none, []⟩
  | .checkDiscard, .proceed =>
      some ⟨(m, sh), some (if m.discardQueuesRequested then .discarding 0 []
        else .checkPendingIdle), []⟩
  | .discarding b discarded, .proceed =>
      if hb : b < priorityBuckets then
        match m.buckets ⟨b, hb⟩ with
        | [] => some ⟨(m, sh), some (.discarding (b + 1) discarded), []⟩
        | t :: l => some ⟨(m.dequeue ⟨b, hb⟩ l, sh), some (.discarding b (t :: discarded)), []⟩
      else some ⟨(m, sh), some (.discardZero discarded), []⟩
  | .discardZero _, .proceed => some ⟨(m.setPending 0, sh), some .discardClear, []⟩
  | .discardClear, .proceed =>
      some ⟨({ m.unlock with discardQueuesRequested := false }, sh), some .locking, []⟩
  | .checkPendingIdle, .proceed =>
      if m.pendingIdle then some ⟨(m, sh), some .clearPendingIdle, []⟩
      else some ⟨(m, sh), some m.lookForTask, []⟩
  | .clearPendingIdle, .proceed =>
      let m' := { m.getLocalIdleTask i with pendingIdle := false }
      if m.localReactions i = 0 then some ⟨(m', sh), some m.lookForTask, []⟩
      else some ⟨(m'.unlock, sh), some (.running none), []⟩
  | .scan b, .proceed =>
      if hb : b < priorityBuckets then
        match m.buckets ⟨b, hb⟩ with
        | [] => some ⟨(m, sh), some (.scan (b + 1)), []⟩
        | t :: l => some ⟨(m.dequeue ⟨b, hb⟩ l, sh), some (.dequeued t), []⟩
      else some ⟨({ m with live := false }, sh), some .account, []⟩
  | .dequeued t, .proceed => some ⟨(m.setPending (m.pendingTasks - 1), sh), some (.tryLock t), []⟩
  | .tryLock t, .proceed =>
      some ⟨((m.clearThreadIdle i).clearPoolIdle.unlock, m.activated sh), some (.running (some t)),
        [.handed t.id]⟩
  | .tryLock t, .fail =>
      if t.lock = .combined then some ⟨(m, sh), some (.readd t), []⟩ else none
  | .readd t, .proceed => some ⟨(m.setPending (m.pendingTasks + 1), sh), some (.reenqueue t), []⟩
  | .reenqueue t, .proceed =>
      some ⟨({ m.put t with live := false }, sh), some .waitPendingIdle, []⟩
  | .account, .proceed =>
      let events := if m.lastActive sh i then [.globalIdle] else []
      if m.idleReactions sh i = 0 then
        some ⟨(m.getIdleTask i, m.deactivated sh i), some .waitPendingIdle, events⟩
      else some ⟨((m.getIdleTask i).unlock, m.deactivated sh i), some (.running none), events⟩
  | .waitPendingIdle, .proceed =>
      some ⟨(m, sh), some (if m.pendingIdle then m.loopTop else .waitDiscard), []⟩
  | .waitDiscard, .proceed =>
      if m.discardQueuesRequested then some ⟨(m, sh), some m.loopTop, []⟩
      else if m.running then some ⟨(m.unlock, sh), some .waiting, []⟩
      else some ⟨(m, sh), some .waitPending, []⟩
  | .waitPending, .proceed =>
      if m.pendingTasks = 0 then some ⟨(m, sh), some .waitExternal, []⟩
      else some ⟨(m.unlock, sh), some .waiting, []⟩
  | .waitExternal, .proceed =>
      if m.externalWaiters = 0 then some ⟨(m, sh), some m.loopTop, []⟩
      else some ⟨(m.unlock, sh), some .waiting, []⟩
  | .waiting, .proceed =>
      if m.mutex then none
      else some ⟨(m.lock, sh), some (if m.live then m.loopTop else .waitPendingIdle), []⟩
  | .running _, .proceed => some ⟨(m, sh), some .locking, []⟩
  | .running t, .stop type => some ⟨(m, sh), some (.stopping t (.enter type)), []⟩
  | .stopping t s, .proceed =>
      (m.stopAdvance (some i) s).map fun r => ⟨(r.1, sh), some (afterStop t r.2), []⟩
  | _, _ => none

/-- The next access of an operation in progress.  An access that needs the mutex has to wait while
another operation holds it. -/
def advance (m : PoolMemory) (sh : Shared) :
    Op → Choice → Option (Outcome (PoolMemory × Shared) Op Event)
  | .worker i w, z =>
      (m.workerAdvance sh i w z).map fun r => ⟨r.mem, r.next.map (.worker i), r.emitted⟩
  | .stop s, .proceed => (m.stopAdvance none s).map fun r => ⟨(r.1, sh), r.2.map .stop, []⟩
  | .add t clearIdle force, .proceed =>
      some ⟨(m.setPending (m.pendingTasks + 1), sh), some (.enqueue t clearIdle force), []⟩
  | .enqueue t clearIdle force, .proceed =>
      some ⟨(m.put t, sh), some (.submitSection t clearIdle force), []⟩
  | .submitSection t clearIdle force, .proceed =>
      if m.mutex then none
      else some ⟨(m.wake clearIdle, m.woken sh clearIdle), if force then some .unregister else none,
        [.returned t.id]⟩
  | .register t clearIdle, .proceed =>
      some ⟨({ m with externalWaiters := m.externalWaiters + 1 }, sh),
        some (.localRelevant t clearIdle), []⟩
  | .localRelevant t clearIdle, .proceed =>
      some ⟨(m, sh), some (if 0 < m.idleTasks then .latch t clearIdle
        else .globalRelevant t clearIdle), []⟩
  | .globalRelevant t clearIdle, .proceed =>
      some ⟨(m, sh), some (if 0 < sh.idleTasks then .latch t clearIdle
        else .publish t clearIdle), []⟩
  | .latch t clearIdle, .proceed =>
      some ⟨({ m with pendingIdle := true }, sh), some (if m.pendingIdle then .publish t clearIdle
        else .latchSection t clearIdle), []⟩
  | .latchSection t clearIdle, .proceed =>
      if m.mutex then none else some ⟨(m, sh), some (.publish t clearIdle), []⟩
  | .publish t clearIdle, .proceed =>
      some ⟨({ m with parked := m.parked ++ [(t, clearIdle)] }, sh), none, []⟩
  | .unregister, .proceed =>
      some ⟨({ m with externalWaiters := m.externalWaiters - 1 }, sh),
        if m.externalWaiters = 1 then some .unregisterSection else none, []⟩
  | .unregisterSection, .proceed => if m.mutex then none else some ⟨(m, sh), none, []⟩
  | _, _ => none

/-- The start of a call.  The threads of a pool enter `run` once each, and `submit` reads `accept`
first. -/
def startCall (m : PoolMemory) (sh : Shared) :
    Call → Option (Outcome (PoolMemory × Shared) Op Event)
  | .start =>
      if m.started then none
      else some ⟨({ m with
        started := true
        active := if m.descriptor.countsForIdle then m.threads else 0 }, sh), none, []⟩
  | .run =>
      if m.started ∧ m.launched < m.threads then
        some ⟨({ m with launched := m.launched + 1 }, sh), some (.worker m.launched .starting), []⟩
      else none
  | .stop type => some ⟨(m, sh), some (.stop (.enter type)), []⟩
  | .submit priority lock clearIdle =>
      if m.accept then
        some ⟨({ m with nextTask := m.nextTask + 1 }, sh),
          some (.add ⟨⟨m.nextTask, priority⟩, lock⟩ clearIdle false), []⟩
      else some ⟨({ m with nextTask := m.nextTask + 1 }, sh), none, [.refused m.nextTask]⟩
  | .park priority clearIdle =>
      some ⟨({ m with nextTask := m.nextTask + 1 }, sh),
        some (.register ⟨⟨m.nextTask, priority⟩, .running⟩ clearIdle), []⟩
  | .drain k =>
      (m.parked[k]?).map fun e =>
        ⟨({ m with parked := m.parked.eraseIdx k }, sh), some (.add e.1 e.2 true), []⟩
  | .notify clearIdle =>
      if m.mutex then none else some ⟨(m.wake clearIdle, m.woken sh clearIdle), none, []⟩
  | .addIdleTask =>
      if m.mutex then none else some ⟨({ m with idleTasks := m.idleTasks + 1 }, sh), none, []⟩
  | .removeIdleTask =>
      if m.mutex then none else some ⟨({ m with idleTasks := m.idleTasks - 1 }, sh), none, []⟩

end PoolMemory

/-! ## The pools together -/

/-- The pools and what they share.  A call or an operation is that of one of the pools. -/
structure PoolSystem (n : ℕ) where
  pools : Fin n → PoolMemory
  shared : Shared

namespace PoolSystem

variable {n : ℕ}

/-- A call to a pool, or of `Scheduler::add_idle_task` and `remove_idle_task` for all pools. -/
inductive Call (n : ℕ) where
  | pool (p : Fin n) (c : PoolMemory.Call)
  | addIdleTask
  | removeIdleTask
  deriving DecidableEq, Repr

/-- What an access to pool `p` leads to, in the system: the memory of that pool and the shared
counters change. -/
def lift (S : PoolSystem n) (p : Fin n)
    (r : Outcome (PoolMemory × Shared) PoolMemory.Op PoolMemory.Event) :
    Outcome (PoolSystem n) (Fin n × PoolMemory.Op) (Fin n × PoolMemory.Event) :=
  ⟨⟨Function.update S.pools p r.mem.1, r.mem.2⟩, r.next.map fun o => (p, o),
    r.emitted.map fun e => (p, e)⟩

/-- The start of a call, to a pool or to the scheduler.  The latter takes one access of the number
of idle tasks. -/
def startCall (S : PoolSystem n) (_ : List (Fin n × PoolMemory.Op)) :
    Call n → Option (Outcome (PoolSystem n) (Fin n × PoolMemory.Op) (Fin n × PoolMemory.Event))
  | .pool p c => ((S.pools p).startCall S.shared c).map (S.lift p)
  | .addIdleTask =>
      some ⟨{ S with shared := { S.shared with idleTasks := S.shared.idleTasks + 1 } }, none, []⟩
  | .removeIdleTask =>
      some ⟨{ S with shared := { S.shared with idleTasks := S.shared.idleTasks - 1 } }, none, []⟩

/-- The next access of an operation in progress, which is that of the pool that it belongs to. -/
def advance (S : PoolSystem n) (o : Fin n × PoolMemory.Op) (z : PoolMemory.Choice) :
    Option (Outcome (PoolSystem n) (Fin n × PoolMemory.Op) (Fin n × PoolMemory.Event)) :=
  ((S.pools o.1).advance S.shared o.2 z).map (S.lift o.1)

/-- The operations of the pools on their memory, as a program whose threads are interleaved freely.
-/
def program (n : ℕ) : Program (PoolSystem n) (Call n) (Fin n × PoolMemory.Op) PoolMemory.Choice
    (Fin n × PoolMemory.Event) where
  call := startCall
  advance := advance

/-- The pools with operations in progress, and the events so far. -/
abbrev Machine (n : ℕ) :=
  Foundation.Machine (PoolSystem n) (Fin n × PoolMemory.Op) (Fin n × PoolMemory.Event)

/-- New pools: each is idle if it counts for idle, and none of them is active. -/
def start (descriptors : Fin n → PoolDescriptor) (defaultPoolConcurrency : ℕ) : Machine n :=
  ⟨⟨fun p => .make (descriptors p) defaultPoolConcurrency, ⟨0, 0⟩⟩, [], []⟩

/-- One step of one thread: a call begins, or an operation makes its next access. -/
abbrev step : Machine n → Action (Call n) PoolMemory.Choice → Option (Machine n) := (program n).step

/-- Operation `i` makes `k` accesses in a row, for the runs of the examples. -/
def accesses (i k : ℕ) : List (Action (Call n) PoolMemory.Choice) :=
  List.replicate k (.advance i .proceed)

/-- The pool of a system that has one. -/
def onlyPool : Fin 1 := ⟨0, Nat.zero_lt_one⟩

/-- A pool of one thread, which counts for idle and is not persistent. -/
def oneThread : Fin 1 → PoolDescriptor := fun _ => ⟨1, true, false, false⟩

end PoolSystem

end Scheduler
end NUClear
