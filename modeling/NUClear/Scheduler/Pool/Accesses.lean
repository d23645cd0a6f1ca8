import NUClear.Scheduler.Pool.Interleaved

/-!
# The accesses of a pool's operations, one branch at a time

`StopAccess`, `WorkerAccess` and `Access` list the branches of the code, so that an invariant is
proved by going through them.  A constructor names what the branch has tested, and the pool, the
shared counters, the next point and the events that it leads to; the theorems
`stopAccess_of_advance`, `workerAccess_of_advance` and `access_of_advance` say that these are all.
Nothing after them unfolds `advance`.

An invariant of each pool (its memory, the operations in progress on it and its events) need only be
shown for the calls and the accesses of one pool (`PoolSystem.invariant`): what happens to the
others leaves all of this as it is.  The counters that the pools share may be anything there.

* `ofPool`: the part of a list that concerns one pool.
* `Condition`: a condition on a run, asked of each call and each access in the pool that it is made
  in.  It reads the memory of that pool, the operations in progress on it and the access itself, and
  nothing that the access computes.
* `PoolSystem.invariant`: the rule, used for mutual exclusion, for `pending_tasks`, for the
  hand-shake with the consumer, for what a pool runs before its workers leave, and for its threads.
-/

namespace NUClear
namespace Scheduler

open Foundation

namespace PoolMemory

/-- The accesses of `stop`, one constructor for each branch of the code, with what the branch has
tested: the pool before, the point, the pool after, the next point. -/
inductive StopAccess (m : PoolMemory) (caller : Option ℕ) :
    StopPoint → PoolMemory → Option StopPoint → Prop
  | enter (type : Pool.StopType) (h : m.mutex = false) :
      StopAccess m caller (.enter type) { m.lock with live := true } (some (.storeAccept type))
  | normal : StopAccess m caller (.storeAccept .normal) { m.unlock with
      accept := m.descriptor.persistent, running := m.descriptor.persistent } none
  | final : StopAccess m caller (.storeAccept .final) { m.unlock with
      accept := m.descriptor.persistent, running := false } none
  | force : StopAccess m caller (.storeAccept .force)
      { m with accept := m.descriptor.persistent } (some .storeRefuse)
  | refuse : StopAccess m caller .storeRefuse { m with accept := false, running := false }
      (some .decide)
  | delegate (i : ℕ) (hs : m.singleConsumer = true) (hc : m.consumer = some i)
      (hne : some i ≠ caller) : StopAccess m caller .decide m (some .requestDiscard)
  | drainHere : StopAccess m caller .decide m (some (.drain 0 []))
  | request : StopAccess m caller .requestDiscard { m with discardQueuesRequested := true }
      (some .checkDiscard)
  | block (h : m.discardQueuesRequested = true) :
      StopAccess m caller .checkDiscard m.unlock (some .blocked)
  | discarded (h : m.discardQueuesRequested = false) :
      StopAccess m caller .checkDiscard m (some (.storeZero []))
  | unblock (h : m.mutex = false) : StopAccess m caller .blocked m.lock (some .checkDiscard)
  | drainNext (b : ℕ) (drained : List Task) :
      StopAccess m caller (.drain b drained) m (some (.drain (b + 1) drained))
  | drainTake (b : ℕ) (drained : List Task) (hb : b < priorityBuckets) (t : Task) (l : List Task)
      (h : m.buckets ⟨b, hb⟩ = t :: l) : StopAccess m caller (.drain b drained)
        (m.dequeue ⟨b, hb⟩ l) (some (.drain b (t :: drained)))
  | drainEnd (b : ℕ) (drained : List Task) :
      StopAccess m caller (.drain b drained) m (some (.storeZero drained))
  | zero (drained : List Task) :
      StopAccess m caller (.storeZero drained) (m.unlock.setPending 0) none

theorem stopAccess_of_advance {m m' : PoolMemory} {caller : Option ℕ} {s : StopPoint}
    {next : Option StopPoint} (h : m.stopAdvance caller s = some (m', next)) :
    StopAccess m caller s m' next := by
  cases s with
  | enter type =>
    simp only [stopAdvance] at h
    split_ifs at h with hm
    cases h
    exact .enter type (by simpa using hm)
  | storeAccept type =>
    cases type with
    | normal =>
      cases h
      exact .normal
    | final =>
      cases h
      exact .final
    | force =>
      cases h
      exact .force
  | storeRefuse =>
    cases h
    exact .refuse
  | decide =>
    cases h
    split_ifs with hd
    · rw [Bool.and_eq_true, Bool.and_eq_true, Option.isSome_iff_exists, bne_iff_ne] at hd
      obtain ⟨⟨hs, i, hi⟩, hne⟩ := hd
      exact .delegate i hs hi (hi ▸ hne)
    · exact .drainHere
  | requestDiscard =>
    cases h
    exact .request
  | checkDiscard =>
    simp only [stopAdvance] at h
    split_ifs at h with hd <;> cases h
    · exact .block hd
    · exact .discarded (by simpa using hd)
  | blocked =>
    simp only [stopAdvance] at h
    split_ifs at h with hm
    cases h
    exact .unblock (by simpa using hm)
  | drain b drained =>
    simp only [stopAdvance] at h
    split at h
    · next hb =>
      split at h <;> cases h
      · exact .drainNext b drained
      · next t l ht => exact .drainTake b drained hb t l ht
    · cases h
      exact .drainEnd b drained
  | storeZero drained =>
    cases h
    exact .zero drained

/-- The accesses of worker `i`, one constructor for each branch of `run` and `get_task`: the pool
and what is shared before, the point, both after, the next point, the events. -/
inductive WorkerAccess (m : PoolMemory) (sh : Shared) (i : ℕ) :
    WorkerPoint → PoolMemory → Shared → Option WorkerPoint → List Event → Prop
  | starting : WorkerAccess m sh i .starting { m with consumer := some i } sh (some .locking) []
  | locking (h : m.mutex = false) : WorkerAccess m sh i .locking m.lock sh (some m.loopTop) []
  | testPendingNone (h : m.pendingTasks = 0) :
      WorkerAccess m sh i .testPending m sh (some .testExternal) []
  | testPendingSome (h : m.pendingTasks ≠ 0) :
      WorkerAccess m sh i .testPending m sh (some .checkDiscard) []
  | testExternalNone (h : m.externalWaiters = 0) :
      WorkerAccess m sh i .testExternal m sh (some .testDiscard) []
  | testExternalSome (h : m.externalWaiters ≠ 0) :
      WorkerAccess m sh i .testExternal m sh (some .checkDiscard) []
  | testDiscardSome (h : m.discardQueuesRequested = true) :
      WorkerAccess m sh i .testDiscard m sh (some .checkDiscard) []
  | testDiscardNone (h : m.discardQueuesRequested = false) :
      WorkerAccess m sh i .testDiscard m.unlock sh (some .leaving) [.left i]
  | leaving : WorkerAccess m sh i .leaving { m with consumer := none } sh none []
  | checkDiscardSome (h : m.discardQueuesRequested = true) :
      WorkerAccess m sh i .checkDiscard m sh (some (.discarding 0 [])) []
  | checkDiscardNone (h : m.discardQueuesRequested = false) :
      WorkerAccess m sh i .checkDiscard m sh (some .checkPendingIdle) []
  | discardingNext (b : ℕ) (discarded : List Task) :
      WorkerAccess m sh i (.discarding b discarded) m sh (some (.discarding (b + 1) discarded)) []
  | discardingTake (b : ℕ) (discarded : List Task) (hb : b < priorityBuckets) (t : Task)
      (l : List Task) (h : m.buckets ⟨b, hb⟩ = t :: l) :
      WorkerAccess m sh i (.discarding b discarded) (m.dequeue ⟨b, hb⟩ l) sh
        (some (.discarding b (t :: discarded))) []
  | discardingEnd (b : ℕ) (discarded : List Task) :
      WorkerAccess m sh i (.discarding b discarded) m sh (some (.discardZero discarded)) []
  | discardZero (discarded : List Task) :
      WorkerAccess m sh i (.discardZero discarded) (m.setPending 0) sh (some .discardClear) []
  | discardClear : WorkerAccess m sh i .discardClear
      { m.unlock with discardQueuesRequested := false } sh (some .locking) []
  | checkPendingIdleSome (h : m.pendingIdle = true) :
      WorkerAccess m sh i .checkPendingIdle m sh (some .clearPendingIdle) []
  | checkPendingIdleNone (h : m.pendingIdle = false) :
      WorkerAccess m sh i .checkPendingIdle m sh (some m.lookForTask) []
  | clearPendingIdleNone : WorkerAccess m sh i .clearPendingIdle
      { m.getLocalIdleTask i with pendingIdle := false } sh (some m.lookForTask) []
  | clearPendingIdleSome : WorkerAccess m sh i .clearPendingIdle
      { m.getLocalIdleTask i with pendingIdle := false, mutex := false } sh
      (some (.running none)) []
  | scanNext (b : ℕ) (hb : b < priorityBuckets) (h : m.buckets ⟨b, hb⟩ = []) :
      WorkerAccess m sh i (.scan b) m sh (some (.scan (b + 1))) []
  | scanTake (b : ℕ) (hb : b < priorityBuckets) (t : Task) (l : List Task)
      (h : m.buckets ⟨b, hb⟩ = t :: l) :
      WorkerAccess m sh i (.scan b) (m.dequeue ⟨b, hb⟩ l) sh (some (.dequeued t)) []
  | scanEnd (b : ℕ) (hb : priorityBuckets ≤ b) :
      WorkerAccess m sh i (.scan b) { m with live := false } sh (some .account) []
  | dequeued (t : Task) : WorkerAccess m sh i (.dequeued t) (m.setPending (m.pendingTasks - 1)) sh
      (some (.tryLock t)) []
  | tryLock (t : Task) : WorkerAccess m sh i (.tryLock t)
      (m.clearThreadIdle i).clearPoolIdle.unlock (m.activated sh) (some (.running (some t)))
      [.handed t.id]
  | tryLockFail (t : Task) (h : t.lock = .combined) :
      WorkerAccess m sh i (.tryLock t) m sh (some (.readd t)) []
  | readd (t : Task) : WorkerAccess m sh i (.readd t) (m.setPending (m.pendingTasks + 1)) sh
      (some (.reenqueue t)) []
  | reenqueue (t : Task) : WorkerAccess m sh i (.reenqueue t) { m.put t with live := false } sh
      (some .waitPendingIdle) []
  | accountNone : WorkerAccess m sh i .account (m.getIdleTask i) (m.deactivated sh i)
      (some .waitPendingIdle) (if m.lastActive sh i then [.globalIdle] else [])
  | accountSome : WorkerAccess m sh i .account (m.getIdleTask i).unlock (m.deactivated sh i)
      (some (.running none)) (if m.lastActive sh i then [.globalIdle] else [])
  | waitPendingIdleSome (h : m.pendingIdle = true) :
      WorkerAccess m sh i .waitPendingIdle m sh (some m.loopTop) []
  | waitPendingIdleNone (h : m.pendingIdle = false) :
      WorkerAccess m sh i .waitPendingIdle m sh (some .waitDiscard) []
  | waitDiscardSome (h : m.discardQueuesRequested = true) :
      WorkerAccess m sh i .waitDiscard m sh (some m.loopTop) []
  | waitDiscardBlock (h : m.running = true) :
      WorkerAccess m sh i .waitDiscard m.unlock sh (some .waiting) []
  | waitDiscardNone (h : m.running = false) :
      WorkerAccess m sh i .waitDiscard m sh (some .waitPending) []
  | waitPendingNone (h : m.pendingTasks = 0) :
      WorkerAccess m sh i .waitPending m sh (some .waitExternal) []
  | waitPendingBlock (h : m.pendingTasks ≠ 0) :
      WorkerAccess m sh i .waitPending m.unlock sh (some .waiting) []
  | waitExternalNone (h : m.externalWaiters = 0) :
      WorkerAccess m sh i .waitExternal m sh (some m.loopTop) []
  | waitExternalBlock (h : m.externalWaiters ≠ 0) :
      WorkerAccess m sh i .waitExternal m.unlock sh (some .waiting) []
  | waitingLoop (h : m.mutex = false) (hl : m.live = true) :
      WorkerAccess m sh i .waiting m.lock sh (some m.loopTop) []
  | waitingPredicate (h : m.mutex = false) (hl : m.live = false) :
      WorkerAccess m sh i .waiting m.lock sh (some .waitPendingIdle) []
  | finish (t : Option Task) : WorkerAccess m sh i (.running t) m sh (some .locking) []
  | callStop (t : Option Task) (type : Pool.StopType) :
      WorkerAccess m sh i (.running t) m sh (some (.stopping t (.enter type))) []
  | stopping (t : Option Task) (s : StopPoint) (m' : PoolMemory) (next : Option StopPoint)
      (h : StopAccess m (some i) s m' next) :
      WorkerAccess m sh i (.stopping t s) m' sh (some (afterStop t next)) []

theorem workerAccess_of_advance {m : PoolMemory} {sh : Shared} {i : ℕ}
    {w : WorkerPoint} {z : Choice} {r : Outcome (PoolMemory × Shared) WorkerPoint Event}
    (h : m.workerAdvance sh i w z = some r) :
    WorkerAccess m sh i w r.mem.1 r.mem.2 r.next r.emitted := by
  cases w <;> cases z <;> simp only [workerAdvance, reduceCtorEq, Option.some.injEq] at h
  case starting => subst h; exact .starting
  case locking =>
    split_ifs at h with hm
    cases h
    exact .locking (by simpa using hm)
  case testPending =>
    subst h
    dsimp only
    split_ifs with hp
    · exact .testPendingNone hp
    · exact .testPendingSome hp
  case testExternal =>
    subst h
    dsimp only
    split_ifs with hp
    · exact .testExternalNone hp
    · exact .testExternalSome hp
  case testDiscard =>
    split_ifs at h with hd <;> cases h
    · exact .testDiscardSome hd
    · exact .testDiscardNone (by simpa using hd)
  case leaving => subst h; exact .leaving
  case checkDiscard =>
    subst h
    dsimp only
    split_ifs with hd
    · exact .checkDiscardSome hd
    · exact .checkDiscardNone (by simpa using hd)
  case discarding b discarded =>
    split at h
    · next hb =>
      split at h <;> cases h
      · exact .discardingNext b discarded
      · next t l ht => exact .discardingTake b discarded hb t l ht
    · cases h
      exact .discardingEnd b discarded
  case discardZero discarded => subst h; exact .discardZero discarded
  case discardClear => subst h; exact .discardClear
  case checkPendingIdle =>
    split_ifs at h with hp <;> cases h
    · exact .checkPendingIdleSome hp
    · exact .checkPendingIdleNone (by simpa using hp)
  case clearPendingIdle =>
    split_ifs at h <;> cases h
    · exact .clearPendingIdleNone
    · exact .clearPendingIdleSome
  case scan b =>
    split at h
    · next hb =>
      split at h <;> cases h
      · next ht => exact .scanNext b hb ht
      · next t l ht => exact .scanTake b hb t l ht
    · next hb =>
      cases h
      exact .scanEnd b (by omega)
  case dequeued t => subst h; exact .dequeued t
  case tryLock.proceed t => subst h; exact .tryLock t
  case tryLock.fail t =>
    split_ifs at h with hl
    cases h
    exact .tryLockFail t hl
  case readd t => subst h; exact .readd t
  case reenqueue t => subst h; exact .reenqueue t
  case account =>
    by_cases hz : m.idleReactions sh i = 0
    · rw [if_pos hz] at h
      cases h
      exact .accountNone
    · rw [if_neg hz] at h
      cases h
      exact .accountSome
  case waitPendingIdle =>
    subst h
    dsimp only
    split_ifs with hp
    · exact .waitPendingIdleSome hp
    · exact .waitPendingIdleNone (by simpa using hp)
  case waitDiscard =>
    split_ifs at h with hd hr <;> cases h
    · exact .waitDiscardSome hd
    · exact .waitDiscardBlock hr
    · exact .waitDiscardNone (by simpa using hr)
  case waitPending =>
    split_ifs at h with hp <;> cases h
    · exact .waitPendingNone hp
    · exact .waitPendingBlock hp
  case waitExternal =>
    split_ifs at h with hp <;> cases h
    · exact .waitExternalNone hp
    · exact .waitExternalBlock hp
  case waiting =>
    split_ifs at h with hm hl <;> cases h
    · exact .waitingLoop (by simpa using hm) hl
    · exact .waitingPredicate (by simpa using hm) (by simpa using hl)
  case running.proceed t => subst h; exact .finish t
  case running.stop t type => subst h; exact .callStop t type
  case stopping t s =>
    obtain ⟨x, hx, rfl⟩ := Option.map_eq_some_iff.mp h
    exact .stopping t s _ _ (stopAccess_of_advance hx)

/-- The accesses of the operations: those of a worker, of a `stop`, of a `submit`, and of the
registration of a task with its group. -/
inductive Access (m : PoolMemory) (sh : Shared) :
    Op → PoolMemory → Shared → Option Op → List Event → Prop
  | worker (i : ℕ) (w : WorkerPoint) (m' : PoolMemory) (sh' : Shared) (next : Option WorkerPoint)
      (ev : List Event) (h : WorkerAccess m sh i w m' sh' next ev) :
      Access m sh (.worker i w) m' sh' (next.map (.worker i)) ev
  | stop (s : StopPoint) (m' : PoolMemory) (next : Option StopPoint)
      (h : StopAccess m none s m' next) : Access m sh (.stop s) m' sh (next.map .stop) []
  | add (t : Task) (clearIdle force : Bool) : Access m sh (.add t clearIdle force)
      (m.setPending (m.pendingTasks + 1)) sh (some (.enqueue t clearIdle force)) []
  | enqueue (t : Task) (clearIdle force : Bool) : Access m sh (.enqueue t clearIdle force)
      (m.put t) sh (some (.submitSection t clearIdle force)) []
  | submitSection (t : Task) (clearIdle force : Bool) (h : m.mutex = false) :
      Access m sh (.submitSection t clearIdle force) (m.wake clearIdle) (m.woken sh clearIdle)
        (if force then some .unregister else none) [.returned t.id]
  | register (t : Task) (clearIdle : Bool) : Access m sh (.register t clearIdle)
      { m with externalWaiters := m.externalWaiters + 1 } sh (some (.localRelevant t clearIdle)) []
  | localRelevantYes (t : Task) (clearIdle : Bool) :
      Access m sh (.localRelevant t clearIdle) m sh (some (.latch t clearIdle)) []
  | localRelevantNo (t : Task) (clearIdle : Bool) :
      Access m sh (.localRelevant t clearIdle) m sh (some (.globalRelevant t clearIdle)) []
  | globalRelevantYes (t : Task) (clearIdle : Bool) :
      Access m sh (.globalRelevant t clearIdle) m sh (some (.latch t clearIdle)) []
  | globalRelevantNo (t : Task) (clearIdle : Bool) :
      Access m sh (.globalRelevant t clearIdle) m sh (some (.publish t clearIdle)) []
  | latchAgain (t : Task) (clearIdle : Bool) : Access m sh (.latch t clearIdle)
      { m with pendingIdle := true } sh (some (.publish t clearIdle)) []
  | latchFirst (t : Task) (clearIdle : Bool) : Access m sh (.latch t clearIdle)
      { m with pendingIdle := true } sh (some (.latchSection t clearIdle)) []
  | latchSection (t : Task) (clearIdle : Bool) (h : m.mutex = false) :
      Access m sh (.latchSection t clearIdle) m sh (some (.publish t clearIdle)) []
  | publish (t : Task) (clearIdle : Bool) : Access m sh (.publish t clearIdle)
      { m with parked := m.parked ++ [(t, clearIdle)] } sh none []
  | unregisterLast (h : m.externalWaiters = 1) : Access m sh .unregister
      { m with externalWaiters := m.externalWaiters - 1 } sh (some .unregisterSection) []
  | unregister (h : m.externalWaiters ≠ 1) : Access m sh .unregister
      { m with externalWaiters := m.externalWaiters - 1 } sh none []
  | unregisterSection (h : m.mutex = false) : Access m sh .unregisterSection m sh none []

/-- Every access is one of the branches.  The invariants below are proved by cases on the branch. -/
theorem access_of_advance {m : PoolMemory} {sh : Shared} {o : Op} {z : Choice}
    {r : Outcome (PoolMemory × Shared) Op Event} (h : m.advance sh o z = some r) :
    Access m sh o r.mem.1 r.mem.2 r.next r.emitted := by
  cases o
  case worker i w =>
    obtain ⟨x, hx, rfl⟩ := Option.map_eq_some_iff.mp h
    exact .worker i w _ _ _ _ (workerAccess_of_advance hx)
  case stop s =>
    cases z <;> simp only [advance, reduceCtorEq] at h
    obtain ⟨x, hx, rfl⟩ := Option.map_eq_some_iff.mp h
    exact .stop s _ _ (stopAccess_of_advance hx)
  all_goals cases z <;> simp only [advance, reduceCtorEq, Option.some.injEq] at h
  case add t clearIdle force => subst h; exact .add t clearIdle force
  case enqueue t clearIdle force => subst h; exact .enqueue t clearIdle force
  case submitSection t clearIdle force =>
    by_cases hm : m.mutex = true
    · rw [if_pos hm] at h
      exact absurd h (by simp)
    · rw [if_neg hm] at h
      cases h
      exact .submitSection t clearIdle force (by simpa using hm)
  case register t clearIdle => subst h; exact .register t clearIdle
  case localRelevant t clearIdle =>
    subst h
    dsimp only
    split_ifs
    · exact .localRelevantYes t clearIdle
    · exact .localRelevantNo t clearIdle
  case globalRelevant t clearIdle =>
    subst h
    dsimp only
    split_ifs
    · exact .globalRelevantYes t clearIdle
    · exact .globalRelevantNo t clearIdle
  case latch t clearIdle =>
    subst h
    dsimp only
    split_ifs
    · exact .latchAgain t clearIdle
    · exact .latchFirst t clearIdle
  case latchSection t clearIdle =>
    split_ifs at h with hm
    cases h
    exact .latchSection t clearIdle (by simpa using hm)
  case publish t clearIdle => subst h; exact .publish t clearIdle
  case unregister =>
    subst h
    dsimp only
    split_ifs with hp
    · exact .unregisterLast hp
    · exact .unregister hp
  case unregisterSection =>
    split_ifs at h with hm
    cases h
    exact .unregisterSection (by simpa using hm)

/-- The next point of a worker comes from an access of that worker. -/
theorem Access.of_worker {m m' : PoolMemory} {sh sh' : Shared} {o : Op} {next : Option Op}
    {ev : List Event} {i : ℕ} {v : WorkerPoint} (h : Access m sh o m' sh' next ev)
    (hn : next = some (.worker i v)) :
    ∃ w, o = .worker i w ∧ WorkerAccess m sh i w m' sh' (some v) ev := by
  cases h with
  | worker j w m' sh' w' ev h =>
    obtain ⟨u, rfl, hu⟩ := Option.map_eq_some_iff.mp hn
    obtain ⟨rfl, rfl⟩ := Op.worker.inj hu
    exact ⟨w, rfl, h⟩
  | stop s m' s' h => cases s' <;> exact absurd hn (by simp)
  | submitSection t clearIdle force h => cases force <;> exact absurd hn (by simp)
  | _ => exact absurd hn (by simp)

end PoolMemory

namespace PoolSystem

open PoolMemory

variable {n : ℕ}

/-! ## One pool among others -/

/-- What concerns pool `p`. -/
def ofPool {α : Type} (p : Fin n) (l : List (Fin n × α)) : List α :=
  l.filterMap fun x => if x.1 = p then some x.2 else none

section

variable {α : Type} (p q : Fin n) (l l' : List (Fin n × α)) (x : α)

@[simp] theorem ofPool_nil : ofPool p ([] : List (Fin n × α)) = [] := rfl

@[simp] theorem ofPool_append : ofPool p (l ++ l') = ofPool p l ++ ofPool p l' :=
  List.filterMap_append ..

@[simp] theorem ofPool_self : ofPool p ((p, x) :: l) = x :: ofPool p l := by
  simp [ofPool]

theorem ofPool_of_ne (h : q ≠ p) : ofPool p ((q, x) :: l) = ofPool p l := by
  simp [ofPool, h]

theorem ofPool_map_self (k : List α) : ofPool p (k.map fun x => (p, x)) = k := by
  induction k with
  | nil => rfl
  | cons x k ih => rw [List.map_cons, ofPool_self, ih]

theorem ofPool_map_of_ne (h : q ≠ p) (k : List α) : ofPool p (k.map fun x => (q, x)) = [] := by
  induction k with
  | nil => rfl
  | cons x k ih => rw [List.map_cons, ofPool_of_ne p q _ x h, ih]

theorem mem_ofPool : x ∈ ofPool p l ↔ (p, x) ∈ l := by
  simp only [ofPool, List.mem_filterMap, Option.ite_none_right_eq_some, Option.some.injEq]
  constructor
  · rintro ⟨⟨q, y⟩, hy, hq, hx⟩
    obtain rfl : q = p := hq
    obtain rfl : y = x := hx
    exact hy
  · exact fun h => ⟨(p, x), h, rfl, rfl⟩

end

/-- A condition on the calls and on the accesses of single pools, in terms of the state before them.
-/
structure Condition where
  call : PoolMemory → List Op → PoolMemory.Call → Prop
  access : PoolMemory → List Op → Op → Choice → Prop

/-- The condition that a step satisfies, in the pool that it is made in. -/
def Condition.ok (C : Condition) (m : Machine n) : Action (Call n) Choice → Prop
  | .call (.pool p c) => C.call (m.mem.pools p) (ofPool p m.ops) c
  | .call .addIdleTask => True
  | .call .removeIdleTask => True
  | .advance i z => ∀ x ∈ m.ops[i]?, C.access (m.mem.pools x.1) (ofPool x.1 m.ops) x.2 z

instance (C : Condition) [∀ m ops c, Decidable (C.call m ops c)]
    [∀ m ops o z, Decidable (C.access m ops o z)] (m : Machine n) : ∀ a, Decidable (C.ok m a)
  | .call (.pool p c) => inferInstanceAs (Decidable (C.call (m.mem.pools p) (ofPool p m.ops) c))
  | .call .addIdleTask => .isTrue trivial
  | .call .removeIdleTask => .isTrue trivial
  | .advance i z => inferInstanceAs (Decidable (∀ x ∈ m.ops[i]?,
      C.access (m.mem.pools x.1) (ofPool x.1 m.ops) x.2 z))

/-- **The invariant rule for each pool.**  What happens in the other pools does not matter: a call
or an access of theirs leaves the memory, the operations and the events of this one as they are. -/
theorem invariant {C : Condition} {I : PoolMemory → List Op → List PoolMemory.Event → Prop}
    {m m' : Machine n} (h : Reaches step C.ok m m') (p : Fin n)
    (hm : I (m.mem.pools p) (ofPool p m.ops) (ofPool p m.trace))
    (hcall : ∀ mem sh ops tr c r, I mem ops tr → C.call mem ops c →
      mem.startCall sh c = some r → I r.mem.1 (r.next.toList ++ ops) (r.emitted.reverse ++ tr))
    (hadv : ∀ mem sh pre o post tr z mem' sh' next ev, I mem (pre ++ o :: post) tr →
      C.access mem (pre ++ o :: post) o z → Access mem sh o mem' sh' next ev →
      I mem' (pre ++ (next.toList ++ post)) (ev.reverse ++ tr)) :
    I (m'.mem.pools p) (ofPool p m'.ops) (ofPool p m'.trace) := by
  refine Program.invariant (I := fun m => I (m.mem.pools p) (ofPool p m.ops) (ofPool p m.trace))
    h hm (fun S ops tr c r hI hok hr => ?_) fun S pre o post tr z r hI hok hr => ?_
  · cases c with
    | addIdleTask =>
      cases hr
      simpa using hI
    | removeIdleTask =>
      cases hr
      simpa using hI
    | pool q c =>
      obtain ⟨r, hr', rfl⟩ := Option.map_eq_some_iff.mp hr
      simp only [lift, ← List.map_reverse, ofPool_append, Option.toList_map]
      by_cases hq : q = p
      · subst hq
        rw [Function.update_self, ofPool_map_self, ofPool_map_self]
        exact hcall _ _ _ _ c r hI hok hr'
      · rw [Function.update_of_ne (Ne.symm hq), ofPool_map_of_ne p q hq, ofPool_map_of_ne p q hq]
        exact hI
  · obtain ⟨q, o⟩ := o
    obtain ⟨r, hr', rfl⟩ := Option.map_eq_some_iff.mp hr
    have hok' := hok (q, o) (by simp)
    simp only [lift, ← List.map_reverse, ofPool_append, Option.toList_map] at hI hok' ⊢
    by_cases hq : q = p
    · subst hq
      rw [ofPool_self] at hI hok'
      rw [Function.update_self, ofPool_map_self, ofPool_map_self]
      exact hadv _ _ _ o _ _ z _ _ _ _ hI hok' (access_of_advance hr')
    · rw [ofPool_of_ne p q _ o hq] at hI
      rw [Function.update_of_ne (Ne.symm hq), ofPool_map_of_ne p q hq, ofPool_map_of_ne p q hq]
      exact hI

end PoolSystem

end Scheduler
end NUClear
