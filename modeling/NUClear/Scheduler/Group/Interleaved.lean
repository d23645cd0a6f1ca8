import NUClear.Foundation.Interleaving
import NUClear.Scheduler.Group.Basic

/-!
# The group's operations, one atomic access at a time (`Group.cpp`)

Every constructor of `Op` is a point of the code just before an atomic access or a queue operation,
with the local variables that are still needed; `advance` does that access and the local code after
it, up to the next access.  The model is sequentially consistent.

## Mutex sections

A section with a single atomic access is one step, possible while the mutex is free.
`GroupLock::lock` and `~GroupLock` touch `tokens` twice in their sections, so there the mutex stays
held between two steps, while the lock-free steps of other threads go on.

## Shared parts

The three calls of the fast path share their first part (check `slow_pending`, take a token by
compare-exchange, check again), so `takeCheck w`, ... serve both `try_acquire_running_lock` (`w =
none`) and `try_submit` (`w = some _`).  `release_token` is called at the end of an operation and in
the middle of `try_submit`; `Cont` says where it returns to.

## The rules

* `Access`, `access_of_advance`: the branches of the code, one constructor each, with what the
  branch has tested.
* `Start`, `start_of_startCall`: the starts of the calls.
* `invariant_of_access`: an invariant of a group is shown for one start of a call and for one access
  of one operation, among whatever others are in progress.
* `Settled`: what is counted over the operations in progress does not see an operation that is about
  to park its task, so a continuation counts nothing.
-/

namespace NUClear
namespace Scheduler

open Foundation

namespace Group

/-- Where `release_token` and `drain_one_to_pool` return to: they are called from several places. -/
inductive Cont where
  | done
  /-- `try_submit` goes on to park the task. -/
  | park (w : Waiter)
  deriving DecidableEq, Repr

/-- The arguments of `Group::lock`: the task by its id and priority, and the pool that its callback
wakes. -/
structure LockArgs where
  taskId : ℕ
  priority : ℤ
  notify : PoolId
  deriving DecidableEq, Repr

/-- The points of the operations before an atomic access, or before a section under the mutex.
Between two of them any other operation may take a step. -/
inductive Op where
  /-- `slow_pending.load`, first. -/
  | takeCheck (w : Option Waiter)
  /-- `tokens.load` into `expected`. -/
  | takeLoad (w : Option Waiter)
  /-- `tokens.compare_exchange_weak(expected, expected - 1)`. -/
  | takeCas (w : Option Waiter) (expected : ℤ)
  /-- `slow_pending.load`, with the token taken. -/
  | takeRecheck (w : Option Waiter)
  /-- `release_token`: `tokens.fetch_add(1)`. -/
  | releaseAdd (k : Cont)
  /-- `release_token`: `slow_pending.load`. -/
  | releaseCheck (k : Cont)
  /-- `notify_slow_path`: the mutex section. -/
  | notifySection (k : Cont)
  /-- `notify_slow_path`: the callbacks that are left. -/
  | notifyCalls (toNotify : List ℕ) (k : Cont)
  /-- `drain_one_to_pool`: `wait_buckets[bucket].try_dequeue(entry)`. -/
  | drainScan (bucket : ℕ) (k : Cont)
  /-- `drain_one_to_pool`: `entry.slot->exchange(true)`. -/
  | drainClaim (entry : WaitEntry) (k : Cont)
  /-- The caller of `drain_one_to_pool`: `tokens.fetch_sub(1)` for an uncounted waiter. -/
  | drainSub (k : Cont)
  /-- `park_publish`. -/
  | parkPublish (w : Waiter)
  /-- `park_reconcile`: `tokens.fetch_sub(1)`. -/
  | reconcileSub (slot : ℕ)
  /-- `park_reconcile`, `prev > 0`: `slow_pending.load`. -/
  | reconcileCheck (slot : ℕ)
  /-- `park_reconcile`: `slot->exchange(true)`; `free` is `prev > 0`. -/
  | reconcileClaim (slot : ℕ) (free : Bool)
  /-- `Group::lock`: `slow_pending.fetch_add(1)`. -/
  | lockAdd (args : LockArgs)
  /-- `Group::lock`: the mutex section. -/
  | lockInsert (args : LockArgs)
  /-- `GroupLock::lock`: up to the load and the loop. -/
  | handleLock (handle : ℕ)
  /-- `GroupLock::lock`: `tokens.fetch_sub(1)`, still under the mutex. -/
  | handleTake (handle : ℕ)
  /-- `~GroupLock`: up to `queue.erase`. -/
  | handleUnlock (handle : ℕ)
  /-- `~GroupLock`: the loop, still under the mutex; `was` is `prev_tokens` if `was_locked`. -/
  | handleWalk (was : Option ℤ)
  /-- `~GroupLock`: `slow_pending.fetch_sub(1)`. -/
  | handlePending (was : Option ℤ) (toNotify : List ℕ)
  /-- `~GroupLock`: the callbacks that are left. -/
  | handleCalls (was : Option ℤ) (toNotify : List ℕ)
  /-- `~GroupLock`, `was_locked`: `slow_pending.load() == 0`. -/
  | handleCheck
  deriving DecidableEq, Repr

/-- The calls that a thread can make, on the group or on an object that it has got from it. -/
inductive Call where
  | tryAcquireRunningLock
  | trySubmit (w : Waiter)
  /-- `~RunningLock`. -/
  | runningDestroy
  /-- `Group::lock`. -/
  | lock (args : LockArgs)
  /-- `GroupLock::lock`. -/
  | handleLock (handle : ℕ)
  /-- `~GroupLock`. -/
  | handleDestroy (handle : ℕ)
  deriving DecidableEq, Repr

/-- The next access after the return of `release_token` or a drain. -/
def Cont.resume : Cont → Option Op
  | .done => none
  | .park w => some (.parkPublish w)

/-- The next access after the token loop gave up: `try_submit` parks its task,
`try_acquire_running_lock` returns. -/
def giveUp : Option Waiter → Option Op
  | none => none
  | some w => some (.parkPublish w)

/-- Where `release_token` returns to when a token that was taken is restored. -/
def backOff : Option Waiter → Cont
  | none => .done
  | some w => .park w

/-- What starting a task hands to the pool: nothing for `try_acquire_running_lock`. -/
def startEvents : Option Waiter → List Event
  | none => []
  | some w => [.submit w]

/-- `while (expected > 0)` of the token loop: another try, or it gives up. -/
def casLoop (w : Option Waiter) (expected : ℤ) : Option Op :=
  if expected > 0 then some (.takeCas w expected) else giveUp w

/-- `release_token` after `fetch_add`, with the previous count. -/
def afterRelease (prev : ℤ) (k : Cont) : Op :=
  if prev < 0 then .drainScan 0 k else .releaseCheck k

/-- `~GroupLock` after its callbacks. -/
def afterCalls : Option ℤ → Option Op
  | none => none
  | some prev => if prev < 0 then some (.drainScan 0 .done) else some .handleCheck

/-- The handle an operation in progress works on: a lock object is used by one thread at a time. -/
def Op.handle? : Op → Option ℕ
  | .handleLock r => some r
  | .handleTake r => some r
  | .handleUnlock r => some r
  | _ => none

/-- `make_running_lock`, for a token that has been taken; the object is only counted here. -/
@[simps mutex running slowPending tokens] def makeRunningLock (g : Group) : Group :=
  { g with running := g.running + 1 }

/-- `slot->exchange(true)`, the store; who finds `false` has come first. -/
@[simps mutex running slowPending] def exchangeSlot (g : Group) (s : ℕ) : Group :=
  { g with slots := Function.update g.slots s true }

/-- `park_publish`: a fresh arbiter flag, and the task at the end of its bucket. -/
@[simps mutex slots slowPending waitBuckets] def publish (g : Group) (w : Waiter) : Group :=
  { g with
    slots := Function.update g.slots g.nextSlot false
    nextSlot := g.nextSlot + 1
    waitBuckets := g.waitBuckets.enqueue w.bucket ⟨w, g.nextSlot⟩ }

/-- The mutex section of `Group::lock`: the new handle goes to its place, and the flags of those are
reset that cannot lock any more. -/
def insertSection (g : Group) (a : LockArgs) : Group :=
  let handles := Function.update g.handles g.nextHandle
    ⟨a.taskId, a.priority, false, false, a.notify⟩
  let queue := insertHandle handles g.nextHandle g.queue
  { g with handles := handles, queue := queue, nextHandle := g.nextHandle + 1 }.setNotified
    (toReset handles g.tokens queue) false

/-- The notification loop under the mutex: the handles to notify, and the group with their flags
set. -/
def notifyLoop (g : Group) : List ℕ × Group :=
  let rs := toNotify g.handles g.tokens g.queue
  (rs, g.setNotified rs true)

@[simp] theorem notifyLoop_fst (g : Group) :
    g.notifyLoop.1 = toNotify g.handles g.tokens g.queue := rfl

@[simp] theorem notifyLoop_snd (g : Group) :
    g.notifyLoop.2 = g.setNotified (toNotify g.handles g.tokens g.queue) true := rfl

/-- The first part of `~GroupLock`'s section, up to `queue.erase`; the mutex stays held. -/
def unlockSection (g : Group) (r : ℕ) : Group :=
  let g := if (g.handles r).locked then
      { g.setHandle r (fun h => { h with locked := false }) with tokens := g.tokens + 1 }
    else g
  { g with queue := g.queue.erase r, mutex := true }

/-- The next access of an operation in progress.  The Boolean is the environment's choice that a
weak compare-exchange fails although the values agree. -/
def advance (g : Group) : Op → Bool → Option (Outcome Group Op Event)
  | .takeCheck none, _ =>
      some ⟨g, if g.slowPending > 0 then none else some (.takeLoad none), []⟩
  | .takeCheck (some w), _ =>
      some ⟨g, if g.slowPending = 0 then some (.takeLoad (some w)) else some (.parkPublish w), []⟩
  | .takeLoad w, _ => some ⟨g, casLoop w g.tokens, []⟩
  | .takeCas w expected, spurious =>
      if g.tokens = expected ∧ spurious = false then
        some ⟨{ g with tokens := expected - 1 }, some (.takeRecheck w), []⟩
      else
        some ⟨g, casLoop w g.tokens, []⟩
  | .takeRecheck w, _ =>
      if g.slowPending > 0 then some ⟨g, some (.releaseAdd (backOff w)), []⟩
      else some ⟨g.makeRunningLock, none, startEvents w⟩
  | .releaseAdd k, _ =>
      some ⟨{ g with tokens := g.tokens + 1 }, some (afterRelease g.tokens k), []⟩
  | .releaseCheck k, _ =>
      some ⟨g, if g.slowPending > 0 then some (.notifySection k) else some (.drainScan 0 k), []⟩
  | .notifySection k, _ =>
      if g.mutex then none
      else some ⟨g.notifyLoop.2, some (.notifyCalls g.notifyLoop.1 k), []⟩
  | .notifyCalls [] k, _ => some ⟨g, k.resume, []⟩
  | .notifyCalls (r :: rs) k, _ =>
      some ⟨g, some (.notifyCalls rs k), [.notify r (g.handles r).notify]⟩
  | .drainScan b k, _ =>
      if hb : b < priorityBuckets then
        match g.waitBuckets ⟨b, hb⟩ with
        | [] => some ⟨g, some (.drainScan (b + 1) k), []⟩
        | e :: l =>
            some ⟨{ g with waitBuckets := g.waitBuckets.setBucket ⟨b, hb⟩ l },
              some (.drainClaim e k), []⟩
      else some ⟨g, k.resume, []⟩
  | .drainClaim e k, _ =>
      some ⟨(g.exchangeSlot e.slot).makeRunningLock,
        if g.slots e.slot then k.resume else some (.drainSub k),
        [.submitForced e, .unregister e.pool]⟩
  | .drainSub k, _ => some ⟨{ g with tokens := g.tokens - 1 }, k.resume, []⟩
  | .parkPublish w, _ =>
      some ⟨g.publish w, some (.reconcileSub g.nextSlot), [.register w.pool]⟩
  | .reconcileSub s, _ =>
      some ⟨{ g with tokens := g.tokens - 1 },
        if g.tokens > 0 then some (.reconcileCheck s) else some (.reconcileClaim s false), []⟩
  | .reconcileCheck s, _ =>
      some ⟨g, if g.slowPending > 0 then some (.releaseAdd .done)
        else some (.reconcileClaim s true), []⟩
  | .reconcileClaim s free, _ =>
      some ⟨g.exchangeSlot s,
        if g.slots s then some (.releaseAdd .done)
        else if free then some (.drainScan 0 .done) else none, []⟩
  | .lockAdd a, _ =>
      some ⟨{ g with slowPending := g.slowPending + 1 }, some (.lockInsert a), []⟩
  | .lockInsert a, _ => if g.mutex then none else some ⟨g.insertSection a, none, []⟩
  | .handleLock r, _ =>
      if (g.handles r).locked then some ⟨g, none, [.lockReturned r true]⟩
      else if g.mutex then none
      else if lockWalk g.handles r g.tokens g.queue then
        some ⟨{ g.setHandle r (fun h => { h with locked := true }) with mutex := true },
          some (.handleTake r), []⟩
      else some ⟨g, none, [.lockReturned r false]⟩
  | .handleTake r, _ =>
      some ⟨{ g with tokens := g.tokens - 1, mutex := false }, none, [.lockReturned r true]⟩
  | .handleUnlock r, _ =>
      if g.mutex then none
      else some ⟨g.unlockSection r,
        some (.handleWalk (if (g.handles r).locked then some g.tokens else none)), []⟩
  | .handleWalk was, _ =>
      some ⟨{ g.notifyLoop.2 with mutex := false }, some (.handlePending was g.notifyLoop.1), []⟩
  | .handlePending was rs, _ =>
      some ⟨{ g with slowPending := g.slowPending - 1 }, some (.handleCalls was rs), []⟩
  | .handleCalls was [], _ => some ⟨g, afterCalls was, []⟩
  | .handleCalls was (r :: rs), _ =>
      some ⟨g, some (.handleCalls was rs), [.notify r (g.handles r).notify]⟩
  | .handleCheck, _ =>
      some ⟨g, if g.slowPending = 0 then some (.drainScan 0 .done) else none, []⟩

/-- The start of a call.  A `GroupLock` exists as long as its handle is in the queue, and the calls
on it come from the thread that owns it, one after the other.  `~RunningLock` needs a `RunningLock`;
the object is gone when its `fetch_add` is done. -/
def startCall (g : Group) (ops : List Op) : Call → Option (Outcome Group Op Event)
  | .tryAcquireRunningLock => some ⟨g, some (.takeCheck none), []⟩
  | .trySubmit w => some ⟨g, some (.takeCheck (some w)), []⟩
  | .runningDestroy =>
      if g.running = 0 then none
      else some ⟨{ g with running := g.running - 1, tokens := g.tokens + 1 },
        some (afterRelease g.tokens .done), []⟩
  | .lock a => some ⟨g, some (.lockAdd a), []⟩
  | .handleLock r =>
      if r ∈ g.queue ∧ r ∉ ops.filterMap Op.handle? then some ⟨g, some (.handleLock r), []⟩
      else none
  | .handleDestroy r =>
      if r ∈ g.queue ∧ r ∉ ops.filterMap Op.handle? then some ⟨g, some (.handleUnlock r), []⟩
      else none

/-- The operations of a group on its shared memory, as a program whose threads are interleaved
freely. -/
def program : Program Group Call Op Bool Event where
  call := startCall
  advance := advance

/-- A group with operations in progress, and the events so far. -/
abbrev Machine := Foundation.Machine Group Op Event

/-- A new group, with no operation in progress. -/
def start (concurrency : ℕ) : Machine := ⟨make concurrency, [], []⟩

/-- One step of one thread: a call begins, or an operation makes its next access. -/
abbrev step : Machine → Action Call Bool → Option Machine := program.step

/-- The newest operation makes `n` accesses, for the runs of the examples. -/
def accesses (n : ℕ) : List (Action Call Bool) := List.replicate n (.advance 0 false)

/-! ## The accesses, one branch at a time -/

/-- The accesses of the operations, one constructor for each branch of the code, with what the
branch has tested: the group before, the operation, the group after, the next access, the events.
No proof about the accesses unfolds `advance`. -/
inductive Access (g : Group) : Op → Group → Option Op → List Event → Prop
  | takeCheckStop (h : g.slowPending > 0) : Access g (.takeCheck none) g none []
  | takeCheckPark (w : Waiter) (h : g.slowPending ≠ 0) :
      Access g (.takeCheck (some w)) g (some (.parkPublish w)) []
  | takeCheckGo (w : Option Waiter) (h : g.slowPending ≤ 0) :
      Access g (.takeCheck w) g (some (.takeLoad w)) []
  | takeLoadStop (w : Option Waiter) (h : g.tokens ≤ 0) : Access g (.takeLoad w) g (giveUp w) []
  | takeLoadGo (w : Option Waiter) (h : 0 < g.tokens) :
      Access g (.takeLoad w) g (some (.takeCas w g.tokens)) []
  | takeCasTake (w : Option Waiter) (expected : ℤ) (h : g.tokens = expected) :
      Access g (.takeCas w expected) { g with tokens := expected - 1 } (some (.takeRecheck w)) []
  | takeCasStop (w : Option Waiter) (expected : ℤ) (h : g.tokens ≤ 0) :
      Access g (.takeCas w expected) g (giveUp w) []
  | takeCasAgain (w : Option Waiter) (expected : ℤ) (h : 0 < g.tokens) :
      Access g (.takeCas w expected) g (some (.takeCas w g.tokens)) []
  | takeRecheckBack (w : Option Waiter) (h : g.slowPending > 0) :
      Access g (.takeRecheck w) g (some (.releaseAdd (backOff w))) []
  | takeRecheckStart (w : Option Waiter) (h : g.slowPending ≤ 0) :
      Access g (.takeRecheck w) g.makeRunningLock none (startEvents w)
  | releaseAddOwed (k : Cont) (h : g.tokens < 0) :
      Access g (.releaseAdd k) { g with tokens := g.tokens + 1 } (some (.drainScan 0 k)) []
  | releaseAddFree (k : Cont) (h : 0 ≤ g.tokens) :
      Access g (.releaseAdd k) { g with tokens := g.tokens + 1 } (some (.releaseCheck k)) []
  | releaseCheckSlow (k : Cont) (h : g.slowPending > 0) :
      Access g (.releaseCheck k) g (some (.notifySection k)) []
  | releaseCheckDrain (k : Cont) (h : g.slowPending ≤ 0) :
      Access g (.releaseCheck k) g (some (.drainScan 0 k)) []
  | notifySection (k : Cont) (h : g.mutex = false) :
      Access g (.notifySection k) g.notifyLoop.2 (some (.notifyCalls g.notifyLoop.1 k)) []
  | notifyCallsDone (k : Cont) : Access g (.notifyCalls [] k) g k.resume []
  | notifyCallsNext (r : ℕ) (rs : List ℕ) (k : Cont) :
      Access g (.notifyCalls (r :: rs) k) g (some (.notifyCalls rs k))
        [.notify r (g.handles r).notify]
  | drainScanEmpty (b : ℕ) (k : Cont) (hb : b < priorityBuckets)
      (h : g.waitBuckets ⟨b, hb⟩ = []) :
      Access g (.drainScan b k) g (some (.drainScan (b + 1) k)) []
  | drainScanTake (b : ℕ) (k : Cont) (hb : b < priorityBuckets) (e : WaitEntry)
      (l : List WaitEntry) (h : g.waitBuckets ⟨b, hb⟩ = e :: l) :
      Access g (.drainScan b k) { g with waitBuckets := g.waitBuckets.setBucket ⟨b, hb⟩ l }
        (some (.drainClaim e k)) []
  | drainScanEnd (b : ℕ) (k : Cont) (hb : priorityBuckets ≤ b) :
      Access g (.drainScan b k) g k.resume []
  | drainClaimCounted (e : WaitEntry) (k : Cont) (h : g.slots e.slot = true) :
      Access g (.drainClaim e k) (g.exchangeSlot e.slot).makeRunningLock k.resume
        [.submitForced e, .unregister e.pool]
  | drainClaimUncounted (e : WaitEntry) (k : Cont) (h : g.slots e.slot = false) :
      Access g (.drainClaim e k) (g.exchangeSlot e.slot).makeRunningLock (some (.drainSub k))
        [.submitForced e, .unregister e.pool]
  | drainSub (k : Cont) :
      Access g (.drainSub k) { g with tokens := g.tokens - 1 } k.resume []
  | parkPublish (w : Waiter) :
      Access g (.parkPublish w) (g.publish w) (some (.reconcileSub g.nextSlot))
        [.register w.pool]
  | reconcileSubFree (s : ℕ) (h : g.tokens > 0) :
      Access g (.reconcileSub s) { g with tokens := g.tokens - 1 } (some (.reconcileCheck s)) []
  | reconcileSubFull (s : ℕ) (h : g.tokens ≤ 0) :
      Access g (.reconcileSub s) { g with tokens := g.tokens - 1 }
        (some (.reconcileClaim s false)) []
  | reconcileCheckSlow (s : ℕ) (h : g.slowPending > 0) :
      Access g (.reconcileCheck s) g (some (.releaseAdd .done)) []
  | reconcileCheckClaim (s : ℕ) (h : g.slowPending ≤ 0) :
      Access g (.reconcileCheck s) g (some (.reconcileClaim s true)) []
  | reconcileClaimLost (s : ℕ) (free : Bool) (h : g.slots s = true) :
      Access g (.reconcileClaim s free) (g.exchangeSlot s) (some (.releaseAdd .done)) []
  | reconcileClaimDrain (s : ℕ) (h : g.slots s = false) :
      Access g (.reconcileClaim s true) (g.exchangeSlot s) (some (.drainScan 0 .done)) []
  | reconcileClaimWait (s : ℕ) (h : g.slots s = false) :
      Access g (.reconcileClaim s false) (g.exchangeSlot s) none []
  | lockAdd (a : LockArgs) :
      Access g (.lockAdd a) { g with slowPending := g.slowPending + 1 } (some (.lockInsert a)) []
  | lockInsert (a : LockArgs) (h : g.mutex = false) :
      Access g (.lockInsert a) (g.insertSection a) none []
  | handleLockHeld (r : ℕ) (h : (g.handles r).locked = true) :
      Access g (.handleLock r) g none [.lockReturned r true]
  | handleLockTake (r : ℕ) (h : (g.handles r).locked = false) (hm : g.mutex = false)
      (hw : lockWalk g.handles r g.tokens g.queue = true) :
      Access g (.handleLock r)
        { g.setHandle r (fun h => { h with locked := true }) with mutex := true }
        (some (.handleTake r)) []
  | handleLockFail (r : ℕ) (h : (g.handles r).locked = false) (hm : g.mutex = false)
      (hw : lockWalk g.handles r g.tokens g.queue = false) :
      Access g (.handleLock r) g none [.lockReturned r false]
  | handleTake (r : ℕ) :
      Access g (.handleTake r) { g with tokens := g.tokens - 1, mutex := false } none
        [.lockReturned r true]
  | handleUnlockHeld (r : ℕ) (hm : g.mutex = false) (h : (g.handles r).locked = true) :
      Access g (.handleUnlock r) (g.unlockSection r) (some (.handleWalk (some g.tokens))) []
  | handleUnlockIdle (r : ℕ) (hm : g.mutex = false) (h : (g.handles r).locked = false) :
      Access g (.handleUnlock r) (g.unlockSection r) (some (.handleWalk none)) []
  | handleWalk (was : Option ℤ) :
      Access g (.handleWalk was) { g.notifyLoop.2 with mutex := false }
        (some (.handlePending was g.notifyLoop.1)) []
  | handlePending (was : Option ℤ) (rs : List ℕ) :
      Access g (.handlePending was rs) { g with slowPending := g.slowPending - 1 }
        (some (.handleCalls was rs)) []
  | handleCallsIdle : Access g (.handleCalls none []) g none []
  | handleCallsOwed (prev : ℤ) (h : prev < 0) :
      Access g (.handleCalls (some prev) []) g (some (.drainScan 0 .done)) []
  | handleCallsFree (prev : ℤ) (h : 0 ≤ prev) :
      Access g (.handleCalls (some prev) []) g (some .handleCheck) []
  | handleCallsNext (was : Option ℤ) (r : ℕ) (rs : List ℕ) :
      Access g (.handleCalls was (r :: rs)) g (some (.handleCalls was rs))
        [.notify r (g.handles r).notify]
  | handleCheckDrain (h : g.slowPending = 0) :
      Access g .handleCheck g (some (.drainScan 0 .done)) []
  | handleCheckDone (h : g.slowPending ≠ 0) : Access g .handleCheck g none []

/-- Every access is one of the branches. -/
theorem access_of_advance {g : Group} {o : Op} {z : Bool} {r : Outcome Group Op Event}
    (h : advance g o z = some r) : Access g o r.mem r.next r.emitted := by
  cases o
  case takeCheck w =>
    cases w <;> simp only [advance, Option.some.injEq] at h <;> subst h <;> simp only
    · split_ifs with hp
      · exact .takeCheckStop hp
      · exact .takeCheckGo none (by omega)
    · split_ifs with hp
      · exact .takeCheckGo _ (by omega)
      · exact .takeCheckPark _ hp
  case takeLoad w =>
    simp only [advance, Option.some.injEq] at h
    subst h
    simp only [casLoop]
    split_ifs with ht
    · exact .takeLoadGo w ht
    · exact .takeLoadStop w (by omega)
  case takeCas w expected =>
    simp only [advance] at h
    split_ifs at h with hc <;> simp only [Option.some.injEq] at h <;> subst h
    · exact .takeCasTake w expected hc.1
    · simp only [casLoop]
      split_ifs with ht
      · exact .takeCasAgain w expected ht
      · exact .takeCasStop w expected (by omega)
  case takeRecheck w =>
    simp only [advance] at h
    split_ifs at h with hp <;> simp only [Option.some.injEq] at h <;> subst h
    · exact .takeRecheckBack w hp
    · exact .takeRecheckStart w (by omega)
  case releaseAdd k =>
    simp only [advance, Option.some.injEq] at h
    subst h
    simp only [afterRelease]
    split_ifs with ht
    · exact .releaseAddOwed k ht
    · exact .releaseAddFree k (by omega)
  case releaseCheck k =>
    simp only [advance, Option.some.injEq] at h
    subst h
    simp only
    split_ifs with hp
    · exact .releaseCheckSlow k hp
    · exact .releaseCheckDrain k (by omega)
  case notifySection k =>
    simp only [advance] at h
    split_ifs at h with hm
    simp only [Option.some.injEq] at h
    subst h
    exact .notifySection k (by simpa using hm)
  case notifyCalls rs k =>
    cases rs <;> simp only [advance, Option.some.injEq] at h <;> subst h
    · exact .notifyCallsDone k
    · exact .notifyCallsNext _ _ k
  case drainScan b k =>
    simp only [advance] at h
    split at h
    · next hb =>
      split at h <;> next he => simp only [Option.some.injEq] at h; subst h; first
        | exact .drainScanEmpty b k hb he
        | exact .drainScanTake b k hb _ _ he
    · next hb =>
      simp only [Option.some.injEq] at h
      subst h
      exact .drainScanEnd b k (by omega)
  case drainClaim e k =>
    simp only [advance, Option.some.injEq] at h
    subst h
    simp only
    split_ifs with hs
    · exact .drainClaimCounted e k hs
    · exact .drainClaimUncounted e k (by simpa using hs)
  case drainSub k =>
    simp only [advance, Option.some.injEq] at h
    subst h
    exact .drainSub k
  case parkPublish w =>
    simp only [advance, Option.some.injEq] at h
    subst h
    exact .parkPublish w
  case reconcileSub s =>
    simp only [advance, Option.some.injEq] at h
    subst h
    simp only
    split_ifs with ht
    · exact .reconcileSubFree s ht
    · exact .reconcileSubFull s (by omega)
  case reconcileCheck s =>
    simp only [advance, Option.some.injEq] at h
    subst h
    simp only
    split_ifs with hp
    · exact .reconcileCheckSlow s hp
    · exact .reconcileCheckClaim s (by omega)
  case reconcileClaim s free =>
    simp only [advance, Option.some.injEq] at h
    subst h
    cases hs : g.slots s <;> cases free <;> simp only [if_true, if_false, Bool.false_eq_true]
    · exact .reconcileClaimWait s hs
    · exact .reconcileClaimDrain s hs
    · exact .reconcileClaimLost s _ hs
    · exact .reconcileClaimLost s _ hs
  case lockAdd a =>
    simp only [advance, Option.some.injEq] at h
    subst h
    exact .lockAdd a
  case lockInsert a =>
    simp only [advance] at h
    split_ifs at h with hm
    simp only [Option.some.injEq] at h
    subst h
    exact .lockInsert a (by simpa using hm)
  case handleLock r =>
    simp only [advance] at h
    split_ifs at h with hl hm hw <;> simp only [Option.some.injEq] at h <;> subst h
    · exact .handleLockHeld r hl
    · exact .handleLockTake r (by simpa using hl) (by simpa using hm) hw
    · exact .handleLockFail r (by simpa using hl) (by simpa using hm) (by simpa using hw)
  case handleTake r =>
    simp only [advance, Option.some.injEq] at h
    subst h
    exact .handleTake r
  case handleUnlock r =>
    simp only [advance] at h
    split_ifs at h with hm hl <;> simp only [Option.some.injEq] at h <;> subst h
    · exact .handleUnlockHeld r (by simpa using hm) hl
    · exact .handleUnlockIdle r (by simpa using hm) (by simpa using hl)
  case handleWalk was =>
    simp only [advance, Option.some.injEq] at h
    subst h
    exact .handleWalk was
  case handlePending was rs =>
    simp only [advance, Option.some.injEq] at h
    subst h
    exact .handlePending was rs
  case handleCalls was rs =>
    cases rs
    · simp only [advance, Option.some.injEq] at h
      subst h
      cases was with
      | none => exact .handleCallsIdle
      | some prev =>
        simp only [afterCalls]
        split_ifs with hp
        · exact .handleCallsOwed prev hp
        · exact .handleCallsFree prev (by omega)
    · simp only [advance, Option.some.injEq] at h
      subst h
      exact .handleCallsNext was _ _
  case handleCheck =>
    simp only [advance, Option.some.injEq] at h
    subst h
    simp only
    split_ifs with hp
    · exact .handleCheckDrain hp
    · exact .handleCheckDone hp

/-- The starts of the calls, one constructor for each branch. -/
inductive Start (g : Group) (ops : List Op) : Call → Group → Op → Prop
  | tryAcquireRunningLock : Start g ops .tryAcquireRunningLock g (.takeCheck none)
  | trySubmit (w : Waiter) : Start g ops (.trySubmit w) g (.takeCheck (some w))
  | runningDestroyOwed (hr : 0 < g.running) (h : g.tokens < 0) :
      Start g ops .runningDestroy { g with running := g.running - 1, tokens := g.tokens + 1 }
        (.drainScan 0 .done)
  | runningDestroyFree (hr : 0 < g.running) (h : 0 ≤ g.tokens) :
      Start g ops .runningDestroy { g with running := g.running - 1, tokens := g.tokens + 1 }
        (.releaseCheck .done)
  | lock (a : LockArgs) : Start g ops (.lock a) g (.lockAdd a)
  | handleLock (r : ℕ) (hr : r ∈ g.queue) (hf : r ∉ ops.filterMap Op.handle?) :
      Start g ops (.handleLock r) g (.handleLock r)
  | handleDestroy (r : ℕ) (hr : r ∈ g.queue) (hf : r ∉ ops.filterMap Op.handle?) :
      Start g ops (.handleDestroy r) g (.handleUnlock r)

theorem start_of_startCall {g : Group} {ops : List Op} {c : Call} {r : Outcome Group Op Event}
    (h : startCall g ops c = some r) :
    ∃ o, r.next = some o ∧ r.emitted = [] ∧ Start g ops c r.mem o := by
  cases c
  case tryAcquireRunningLock =>
    simp only [startCall, Option.some.injEq] at h
    subst h
    exact ⟨_, rfl, rfl, .tryAcquireRunningLock⟩
  case trySubmit w =>
    simp only [startCall, Option.some.injEq] at h
    subst h
    exact ⟨_, rfl, rfl, .trySubmit w⟩
  case runningDestroy =>
    simp only [startCall] at h
    split_ifs at h with hr
    simp only [Option.some.injEq] at h
    subst h
    refine ⟨_, rfl, rfl, ?_⟩
    simp only [afterRelease]
    split_ifs with ht
    · exact .runningDestroyOwed (by omega) ht
    · exact .runningDestroyFree (by omega) (by omega)
  case lock a =>
    simp only [startCall, Option.some.injEq] at h
    subst h
    exact ⟨_, rfl, rfl, .lock a⟩
  case handleLock r =>
    simp only [startCall] at h
    split_ifs at h with hr
    simp only [Option.some.injEq] at h
    subst h
    exact ⟨_, rfl, rfl, .handleLock r hr.1 hr.2⟩
  case handleDestroy r =>
    simp only [startCall] at h
    split_ifs at h with hr
    simp only [Option.some.injEq] at h
    subst h
    exact ⟨_, rfl, rfl, .handleDestroy r hr.1 hr.2⟩

/-- **The invariant rule for a group**: one start of a call, and one access of one operation among
the others that are in progress, both of which meet the condition. -/
theorem invariant_of_access {I : Machine → Prop} {ok : Machine → Action Call Bool → Prop}
    {m m' : Machine} (h : Reaches step ok m m') (hm : I m)
    (hcall : ∀ g ops tr c g' o, I ⟨g, ops, tr⟩ → ok ⟨g, ops, tr⟩ (.call c) →
      Start g ops c g' o → I ⟨g', o :: ops, tr⟩)
    (hadv : ∀ g pre o post tr z g' next ev, I ⟨g, pre ++ o :: post, tr⟩ →
      ok ⟨g, pre ++ o :: post, tr⟩ (.advance pre.length z) →
      advance g o z = some ⟨g', next, ev⟩ → Access g o g' next ev →
      I ⟨g', pre ++ (next.toList ++ post), ev.reverse ++ tr⟩) :
    I m' := by
  refine Program.invariant h hm ?_ ?_
  · intro g ops tr c r hI hok hr
    obtain ⟨o, hn, he, hs⟩ := start_of_startCall hr
    rw [hn, he]
    exact hcall g ops tr c r.mem o hI hok hs
  · intro g pre o post tr z r hI hok hr
    exact hadv g pre o post tr z r.mem r.next r.emitted hI hok hr (access_of_advance hr)

/-- A compare-exchange that took the token did not fail. -/
theorem takeCas_of_advance {g g' : Group} {w : Option Waiter} {expected : ℤ} {z : Bool}
    {ev : List Event}
    (h : advance g (.takeCas w expected) z = some ⟨g', some (.takeRecheck w), ev⟩) :
    g.tokens = expected ∧ z = false := by
  simp only [advance] at h
  split_ifs at h with hc
  · exact hc
  · simp only [Option.some.injEq, Outcome.mk.injEq, casLoop] at h
    obtain ⟨-, hn, -⟩ := h
    split_ifs at hn
    · exact absurd hn (by simp)
    · cases w <;> exact absurd hn (by simp [giveUp])

/-! ## Counting operations that return -/

/-- A count that does not see an operation that is about to park its task: such an operation has
settled everything it did before. -/
class Settled (f : Op → ℤ) : Prop where
  parkPublish : ∀ w, f (.parkPublish w) = 0

@[simp] theorem total_resume (f : Op → ℤ) [Settled f] (k : Cont) :
    total f k.resume.toList = 0 := by
  cases k <;> simp [Cont.resume, Settled.parkPublish]

@[simp] theorem total_giveUp (f : Op → ℤ) [Settled f] (w : Option Waiter) :
    total f (giveUp w).toList = 0 := by
  cases w <;> simp [giveUp, Settled.parkPublish]

end Group

end Scheduler
end NUClear
