import NUClear.Scheduler.Group.Accounting

/-!
# The group's operations as functions (`Group.cpp`)

Here every member function of `Group`, `GroupLock` and `RunningLock` is one function on the state of
the group, with the events it causes: what the code computes when no other thread gets in between.
They are written from the source as the interleaved operations are, so the two descriptions can be
compared with the code and with each other.

`reaches_perform` connects them: a call that is not interrupted does exactly what its function says.
So every state that calls of these functions lead to is a reachable state of the interleaved
machine, between two operations, and what is known of those states holds of it (`quiet_perform`).

The proof goes up from the accesses.

* `reaches_access`: one access of the newest operation is one step.
* `reaches_drainScan`, `reaches_notifyCalls`, `reaches_handleCalls`: the loops, by induction on the
  buckets or the handles that are left.
* `reaches_drain`, `reaches_releaseToken`, `reaches_park`, `reaches_leaveQueue`: the parts of the
  operations, each with the point at which it continues.
* `reaches_trySubmit`, `reaches_lock`, `reaches_handleDestroy` and the others: the operations.

All but those of the fast path need the mutex to be free at the start; at the end it is free again.
-/

namespace NUClear
namespace Scheduler

open Foundation

namespace Group

/-! ## The functions -/

/-- `DrainResult`: whether a parked task was taken, and whether its parking thread had not accounted
for it. -/
structure DrainResult where
  drained : Bool
  uncounted : Bool
  deriving DecidableEq, Repr

/-- `drain_one_to_pool`: the first parked task is taken, its flag is set, and its pool gets it with
a `RunningLock`. -/
def drainOneToPool (g : Group) : Group × DrainResult × List Event :=
  match g.waitBuckets.dequeueFirst with
  | none => (g, ⟨false, false⟩, [])
  | some (_, entry, waitBuckets) =>
      let uncounted := !g.slots entry.slot
      let g := ({ g with waitBuckets := waitBuckets }.exchangeSlot entry.slot).makeRunningLock
      (g, ⟨true, uncounted⟩, [.submitForced entry, .unregister entry.pool])

/-- `drain_one_to_pool`, and the subtraction that its callers make for an uncounted waiter.  The
pool of the drained task gets it, or nothing is parked. -/
def drain (g : Group) : Group × List Event :=
  let (g, drained, events) := g.drainOneToPool
  if drained.drained && drained.uncounted then ({ g with tokens := g.tokens - 1 }, events)
  else (g, events)

/-- The invocation of the callbacks of some handles, in the order of the queue. -/
def notifyAll (g : Group) (toNotify : List ℕ) : List Event :=
  toNotify.map fun r => .notify r (g.handles r).notify

/-- `notify_slow_path`: the handles that can lock now are flagged, and their callbacks invoked. -/
def notifySlowPath (g : Group) : Group × List Event :=
  let (toNotify, g) := g.notifyLoop
  (g, g.notifyAll toNotify)

/-- `release_token`: the token is added, and if tokens are owed or no handle is pending a parked
task gets it; otherwise the handles are notified. -/
def releaseToken (g : Group) : Group × List Event :=
  let prev := g.tokens
  let g := { g with tokens := g.tokens + 1 }
  if prev < 0 then g.drain
  else if g.slowPending > 0 then g.notifySlowPath
  else g.drain

/-- `try_acquire_running_lock`: a token is taken when there is one and no handle is pending, also
after it was taken; otherwise it is given back. -/
def tryAcquireRunningLock (g : Group) : Group × Bool × List Event :=
  if g.slowPending > 0 then (g, false, [])
  else if g.tokens > 0 then
    let g := { g with tokens := g.tokens - 1 }
    if g.slowPending > 0 then
      let (g, events) := g.releaseToken
      (g, false, events)
    else (g.makeRunningLock, true, [])
  else (g, false, [])

/-- `park_reconcile`: the parked task is counted against the tokens.  When a drain has taken it
meanwhile the count is taken back, and when a token was free the task that is first is drained. -/
def parkReconcile (g : Group) (slot : ℕ) : Group × List Event :=
  let prev := g.tokens
  let g := { g with tokens := g.tokens - 1 }
  if prev > 0 ∧ g.slowPending > 0 then g.releaseToken
  else if g.slots slot then (g.exchangeSlot slot).releaseToken
  else
    let g := g.exchangeSlot slot
    if prev > 0 then g.drain else (g, [])

/-- `park_publish` and `park_reconcile`: the task is put into its bucket, and then accounted for. -/
def park (g : Group) (w : Waiter) : Group × List Event :=
  let slot := g.nextSlot
  let (g, events) := (g.publish w).parkReconcile slot
  (g, .register w.pool :: events)

/-- `try_submit`: the task starts with a token when there is one and no handle is pending, and
otherwise it is parked. -/
def trySubmit (g : Group) (w : Waiter) : Group × List Event :=
  if g.slowPending = 0 ∧ g.tokens > 0 then
    let g := { g with tokens := g.tokens - 1 }
    if g.slowPending > 0 then
      let (g, events) := g.releaseToken
      let (g, events') := g.park w
      (g, events ++ events')
    else (g.makeRunningLock, [.submit w])
  else g.park w

/-- `~RunningLock`: its token is released, which may start a parked task or notify handles. -/
def runningDestroy (g : Group) : Group × List Event :=
  { g with running := g.running - 1 }.releaseToken

/-- `Group::lock`: a handle is made, and put into the queue where its task belongs. -/
def lock (g : Group) (a : LockArgs) : Group :=
  { g with slowPending := g.slowPending + 1 }.insertSection a

/-- `GroupLock::lock`: the handle takes a token when those in front of it leave one. -/
def handleLock (g : Group) (r : ℕ) : Group × Bool :=
  if (g.handles r).locked then (g, true)
  else if lockWalk g.handles r g.tokens g.queue then
    ({ g.setHandle r (fun h => { h with locked := true }) with tokens := g.tokens - 1 }, true)
  else (g, false)

/-- `~GroupLock` up to `slow_pending.fetch_sub`: the handle gives its token back and leaves the
queue; the handles to notify, and the group. -/
def leaveQueue (g : Group) (r : ℕ) : List ℕ × Group :=
  let (toNotify, g) := { g.unlockSection r with mutex := false }.notifyLoop
  (toNotify, { g with slowPending := g.slowPending - 1 })

/-- `~GroupLock`: handles are notified; and a handle that was locked drains a parked task when
tokens were owed, or when no handle is left. -/
def handleDestroy (g : Group) (r : ℕ) : Group × List Event :=
  let wasLocked := (g.handles r).locked
  let prevTokens := g.tokens
  let (toNotify, g) := g.leaveQueue r
  let events := g.notifyAll toNotify
  if wasLocked ∧ prevTokens < 0 then
    let (g, events') := g.drain
    (g, events ++ events')
  else if wasLocked ∧ g.slowPending = 0 then
    let (g, events') := g.drain
    (g, events ++ events')
  else (g, events)

/-- One call, from its start to its end.  It needs the object that it is called on. -/
def perform (g : Group) : Call → Option (Group × List Event)
  | .tryAcquireRunningLock =>
      let (g, _, events) := g.tryAcquireRunningLock
      some (g, events)
  | .trySubmit w => some (g.trySubmit w)
  | .runningDestroy => if g.running = 0 then none else some g.runningDestroy
  | .lock a => some (g.lock a, [])
  | .handleLock r =>
      if r ∈ g.queue then
        let (g, locked) := g.handleLock r
        some (g, [.lockReturned r locked])
      else none
  | .handleDestroy r => if r ∈ g.queue then some (g.handleDestroy r) else none

/-! ### What a call does -/

section

variable {g g' : Group} {ev : List Event} {r : ℕ}

theorem perform_tryAcquireRunningLock (h : g.perform .tryAcquireRunningLock = some (g', ev)) :
    g.tryAcquireRunningLock.1 = g' ∧ g.tryAcquireRunningLock.2.2 = ev :=
  Prod.mk.inj (Option.some.inj h)

theorem perform_trySubmit {w : Waiter} (h : g.perform (.trySubmit w) = some (g', ev)) :
    g.trySubmit w = (g', ev) :=
  Option.some.inj h

theorem perform_runningDestroy (h : g.perform .runningDestroy = some (g', ev)) :
    g.running ≠ 0 ∧ g.runningDestroy = (g', ev) := by
  simp only [perform] at h
  split_ifs at h with hr
  exact ⟨hr, Option.some.inj h⟩

theorem perform_lock {a : LockArgs} (h : g.perform (.lock a) = some (g', ev)) :
    g.lock a = g' ∧ [] = ev :=
  Prod.mk.inj (Option.some.inj h)

theorem perform_handleLock (h : g.perform (.handleLock r) = some (g', ev)) :
    r ∈ g.queue ∧ (g.handleLock r).1 = g' ∧ [.lockReturned r (g.handleLock r).2] = ev := by
  simp only [perform] at h
  split_ifs at h with hr
  exact ⟨hr, Prod.mk.inj (Option.some.inj h)⟩

theorem perform_handleDestroy (h : g.perform (.handleDestroy r) = some (g', ev)) :
    r ∈ g.queue ∧ g.handleDestroy r = (g', ev) := by
  simp only [perform] at h
  split_ifs at h with hr
  exact ⟨hr, Option.some.inj h⟩

end

/-! ## Uninterrupted operations -/

variable {g : Group} {ops : List Op} {tr : List Event}

/-- One access of the newest operation, which no other one interrupts. -/
theorem reaches_access {o : Op} {r : Outcome Group Op Event} {m : Machine}
    (h : advance g o false = some r)
    (hrest : Reaches step Always ⟨r.mem, r.next.toList ++ ops, r.emitted.reverse ++ tr⟩ m) :
    Reaches step Always ⟨g, o :: ops, tr⟩ m := by
  refine .head (a := .advance 0 false) trivial ?_ hrest
  simp [step, Program.step, program, h]

/-- The search for a parked task, from bucket `b` upward. -/
theorem reaches_drainScan (k : Cont) (b : ℕ) :
    match Buckets.scan g.waitBuckets ((List.finRange priorityBuckets).drop b) with
    | none => Reaches step Always ⟨g, .drainScan b k :: ops, tr⟩ ⟨g, k.resume.toList ++ ops, tr⟩
    | some (_, e, q) => Reaches step Always ⟨g, .drainScan b k :: ops, tr⟩
        ⟨{ g with waitBuckets := q }, .drainClaim e k :: ops, tr⟩ := by
  by_cases hb : b < priorityBuckets
  · have hdrop : (List.finRange priorityBuckets).drop b =
        ⟨b, hb⟩ :: (List.finRange priorityBuckets).drop (b + 1) := by
      rw [List.drop_eq_getElem_cons (by simpa using hb)]
      simp
    have ih := reaches_drainScan k (b + 1)
    rw [hdrop, Buckets.scan]
    cases hq : g.waitBuckets ⟨b, hb⟩ with
    | nil =>
      have hadv : advance g (.drainScan b k) false = some ⟨g, some (.drainScan (b + 1) k), []⟩ := by
        simp only [advance, dif_pos hb]
        rw [hq]
      simp only
      split <;> rename_i hs <;> rw [hs] at ih <;> exact reaches_access hadv ih
    | cons e l =>
      have hadv : advance g (.drainScan b k) false =
          some ⟨{ g with waitBuckets := g.waitBuckets.setBucket ⟨b, hb⟩ l },
            some (.drainClaim e k), []⟩ := by
        simp only [advance, dif_pos hb]
        rw [hq]
      exact reaches_access hadv .start
  · have hdrop : (List.finRange priorityBuckets).drop b = [] := by
      rw [List.drop_eq_nil_iff, List.length_finRange]
      omega
    have hadv : advance g (.drainScan b k) false = some ⟨g, k.resume, []⟩ := by
      simp only [advance, dif_neg hb]
    rw [hdrop]
    exact reaches_access hadv .start
termination_by priorityBuckets - b

theorem reaches_drain (k : Cont) :
    Reaches step Always ⟨g, .drainScan 0 k :: ops, tr⟩
      ⟨g.drain.1, k.resume.toList ++ ops, g.drain.2.reverse ++ tr⟩ := by
  have h := @reaches_drainScan g ops tr k 0
  rw [List.drop_zero] at h
  cases hd : g.waitBuckets.dequeueFirst with
  | none =>
    have hs : Buckets.scan g.waitBuckets (List.finRange priorityBuckets) = none := hd
    rw [hs] at h
    simpa [drain, drainOneToPool, hd] using h
  | some x =>
    obtain ⟨b, e, q⟩ := x
    have hs : Buckets.scan g.waitBuckets (List.finRange priorityBuckets) = some (b, e, q) := hd
    rw [hs] at h
    refine h.trans (reaches_access rfl ?_)
    cases hslot : g.slots e.slot with
    | true =>
      simp only [drain, drainOneToPool, hd, hslot]
      exact .start
    | false =>
      simp only [drain, drainOneToPool, hd, hslot]
      exact reaches_access rfl .start

/-- The invocation of callbacks, one access for each of them. -/
theorem reaches_notifyCalls (k : Cont) (rs : List ℕ) :
    Reaches step Always ⟨g, .notifyCalls rs k :: ops, tr⟩
      ⟨g, k.resume.toList ++ ops, (g.notifyAll rs).reverse ++ tr⟩ := by
  induction rs generalizing tr with
  | nil => exact reaches_access rfl .start
  | cons r rs ih =>
    refine reaches_access rfl ?_
    simpa [notifyAll] using @ih (.notify r (g.handles r).notify :: tr)

theorem reaches_handleCalls (was : Option ℤ) (rs : List ℕ) :
    Reaches step Always ⟨g, .handleCalls was rs :: ops, tr⟩
      ⟨g, .handleCalls was [] :: ops, (g.notifyAll rs).reverse ++ tr⟩ := by
  induction rs generalizing tr with
  | nil => exact .start
  | cons r rs ih =>
    refine reaches_access rfl ?_
    simpa [notifyAll] using @ih (.notify r (g.handles r).notify :: tr)

theorem reaches_notifySlowPath (hm : g.mutex = false) (k : Cont) :
    Reaches step Always ⟨g, .notifySection k :: ops, tr⟩
      ⟨g.notifySlowPath.1, k.resume.toList ++ ops, g.notifySlowPath.2.reverse ++ tr⟩ := by
  refine reaches_access (r := ⟨g.notifyLoop.2, some (.notifyCalls g.notifyLoop.1 k), []⟩)
    (by simp [advance, hm]) ?_
  exact reaches_notifyCalls k _

/-- The rest of `release_token`, after the addition: a drain, or the notification of handles. -/
theorem reaches_afterRelease (hm : g.mutex = false) (k : Cont) :
    Reaches step Always
      ⟨{ g with tokens := g.tokens + 1 }, afterRelease g.tokens k :: ops, tr⟩
      ⟨g.releaseToken.1, k.resume.toList ++ ops, g.releaseToken.2.reverse ++ tr⟩ := by
  rw [afterRelease, releaseToken]
  by_cases ht : g.tokens < 0
  · simp only [ht, if_true]
    exact reaches_drain k
  · simp only [ht, if_false]
    by_cases hp : g.slowPending > 0
    · simp only [hp, if_true]
      refine reaches_access (r := ⟨{ g with tokens := g.tokens + 1 }, some (.notifySection k), []⟩)
        (by simp [advance, hp]) ?_
      exact reaches_notifySlowPath (g := { g with tokens := g.tokens + 1 }) hm k
    · simp only [hp, if_false]
      refine reaches_access (r := ⟨{ g with tokens := g.tokens + 1 }, some (.drainScan 0 k), []⟩)
        (by simp [advance, hp]) ?_
      exact reaches_drain k

theorem reaches_releaseToken (hm : g.mutex = false) (k : Cont) :
    Reaches step Always ⟨g, .releaseAdd k :: ops, tr⟩
      ⟨g.releaseToken.1, k.resume.toList ++ ops, g.releaseToken.2.reverse ++ tr⟩ :=
  reaches_access rfl (reaches_afterRelease hm k)

theorem reaches_parkReconcile (hm : g.mutex = false) (s : ℕ) :
    Reaches step Always ⟨g, .reconcileSub s :: ops, tr⟩
      ⟨(g.parkReconcile s).1, ops, (g.parkReconcile s).2.reverse ++ tr⟩ := by
  have hclaim : ∀ (g : Group) (free : Bool), g.mutex = false →
      Reaches step Always ⟨g, .reconcileClaim s free :: ops, tr⟩
        (if g.slots s then ⟨(g.exchangeSlot s).releaseToken.1, ops,
            (g.exchangeSlot s).releaseToken.2.reverse ++ tr⟩
          else if free then ⟨(g.exchangeSlot s).drain.1, ops,
            (g.exchangeSlot s).drain.2.reverse ++ tr⟩
          else ⟨g.exchangeSlot s, ops, tr⟩) := by
    intro g free hm
    cases hs : g.slots s with
    | true =>
      refine reaches_access (r := ⟨g.exchangeSlot s, some (.releaseAdd .done), []⟩)
        (by simp [advance, hs]) ?_
      exact reaches_releaseToken (g := g.exchangeSlot s) hm .done
    | false =>
      cases free with
      | true =>
        refine reaches_access (r := ⟨g.exchangeSlot s, some (.drainScan 0 .done), []⟩)
          (by simp [advance, hs]) ?_
        exact reaches_drain .done
      | false =>
        exact reaches_access (r := ⟨g.exchangeSlot s, none, []⟩) (by simp [advance, hs]) .start
  rw [parkReconcile]
  by_cases ht : g.tokens > 0
  · refine reaches_access (r := ⟨{ g with tokens := g.tokens - 1 }, some (.reconcileCheck s), []⟩)
      (by simp [advance, ht]) ?_
    by_cases hp : g.slowPending > 0
    · simp only [ht, hp, and_self, if_true]
      refine reaches_access (r := ⟨{ g with tokens := g.tokens - 1 }, some (.releaseAdd .done), []⟩)
        (by simp [advance, hp]) ?_
      exact reaches_releaseToken (g := { g with tokens := g.tokens - 1 }) hm .done
    · refine reaches_access (r := ⟨{ g with tokens := g.tokens - 1 },
        some (.reconcileClaim s true), []⟩) (by simp [advance, hp]) ?_
      have h := hclaim { g with tokens := g.tokens - 1 } true hm
      simp only [ht, hp, and_false, if_true, if_false]
      cases hs : g.slots s <;> simpa [hs] using h
  · refine reaches_access (r := ⟨{ g with tokens := g.tokens - 1 },
      some (.reconcileClaim s false), []⟩)
      (by simp [advance, ht]) ?_
    have h := hclaim { g with tokens := g.tokens - 1 } false hm
    simp only [ht, false_and, if_false]
    cases hs : g.slots s <;> simpa [hs] using h

theorem reaches_park (hm : g.mutex = false) (w : Waiter) :
    Reaches step Always ⟨g, .parkPublish w :: ops, tr⟩
      ⟨(g.park w).1, ops, (g.park w).2.reverse ++ tr⟩ := by
  refine reaches_access rfl ?_
  have h := @reaches_parkReconcile (g.publish w) ops (.register w.pool :: tr) hm g.nextSlot
  simpa [park] using h

/-- The token loop, entered with a free token and no pending handle: a token is taken. -/
theorem reaches_take (w : Option Waiter) (hp : g.slowPending ≤ 0) (ht : 0 < g.tokens) :
    Reaches step Always ⟨g, .takeLoad w :: ops, tr⟩
      ⟨{ g with tokens := g.tokens - 1 }.makeRunningLock, ops, (startEvents w).reverse ++ tr⟩ := by
  refine reaches_access (r := ⟨g, some (.takeCas w g.tokens), []⟩)
    (by simp [advance, casLoop, ht]) ?_
  refine reaches_access (r := ⟨{ g with tokens := g.tokens - 1 }, some (.takeRecheck w), []⟩)
    (by simp [advance]) ?_
  exact reaches_access (r := ⟨{ g with tokens := g.tokens - 1 }.makeRunningLock, none,
    startEvents w⟩)
    (by simp [advance, not_lt.mpr hp]) .start

theorem reaches_tryAcquireRunningLock (tr : List Event) :
    Reaches step Always ⟨g, .takeCheck none :: ops, tr⟩
      ⟨g.tryAcquireRunningLock.1, ops, g.tryAcquireRunningLock.2.2.reverse ++ tr⟩ := by
  rw [tryAcquireRunningLock]
  by_cases hp : g.slowPending > 0
  · simp only [hp, if_true]
    exact reaches_access (r := ⟨g, none, []⟩) (by simp [advance, hp]) .start
  · simp only [hp, if_false]
    refine reaches_access (r := ⟨g, some (.takeLoad none), []⟩) (by simp [advance, hp]) ?_
    by_cases ht : g.tokens > 0
    · simp only [ht, if_true]
      exact reaches_take none (not_lt.mp hp) ht
    · simp only [ht, if_false]
      exact reaches_access (r := ⟨g, none, []⟩) (by simp [advance, casLoop, giveUp, ht]) .start

theorem reaches_trySubmit (hm : g.mutex = false) (w : Waiter) (tr : List Event) :
    Reaches step Always ⟨g, .takeCheck (some w) :: ops, tr⟩
      ⟨(g.trySubmit w).1, ops, (g.trySubmit w).2.reverse ++ tr⟩ := by
  rw [trySubmit]
  by_cases hp : g.slowPending = 0
  · refine reaches_access (r := ⟨g, some (.takeLoad (some w)), []⟩) (by simp [advance, hp]) ?_
    by_cases ht : g.tokens > 0
    · dsimp only
      rw [if_pos ⟨hp, ht⟩, if_neg (show ¬ g.slowPending > 0 by omega)]
      exact reaches_take (some w) hp.le ht
    · simp only [ht, and_false, if_false]
      refine reaches_access (r := ⟨g, some (.parkPublish w), []⟩)
        (by simp [advance, casLoop, giveUp, ht]) ?_
      exact reaches_park hm w
  · simp only [hp, false_and, if_false]
    refine reaches_access (r := ⟨g, some (.parkPublish w), []⟩) (by simp [advance, hp]) ?_
    exact reaches_park hm w

theorem reaches_lock (hm : g.mutex = false) (a : LockArgs) :
    Reaches step Always ⟨g, .lockAdd a :: ops, tr⟩ ⟨g.lock a, ops, tr⟩ :=
  reaches_access rfl (reaches_access (r := ⟨g.lock a, none, []⟩)
    (by simp [advance, hm, lock]) .start)

theorem reaches_handleLock (hm : g.mutex = false) (r : ℕ) :
    Reaches step Always ⟨g, .handleLock r :: ops, tr⟩
      ⟨(g.handleLock r).1, ops, .lockReturned r (g.handleLock r).2 :: tr⟩ := by
  rw [handleLock]
  by_cases hl : (g.handles r).locked = true
  · simp only [hl, if_true]
    exact reaches_access (r := ⟨g, none, [.lockReturned r true]⟩) (by simp [advance, hl]) .start
  · by_cases hw : lockWalk g.handles r g.tokens g.queue = true
    · simp only [hl, hw, if_true, if_false, Bool.false_eq_true]
      refine reaches_access (r := ⟨{ g.setHandle r (fun h => { h with locked := true }) with
        mutex := true }, some (.handleTake r), []⟩) (by simp [advance, hl, hm, hw]) ?_
      refine reaches_access rfl ?_
      rw [← hm]
      exact .start
    · simp only [hl, hw, if_false, Bool.false_eq_true]
      exact reaches_access (r := ⟨g, none, [.lockReturned r false]⟩)
        (by simp [advance, hl, hm, hw]) .start

/-- The end of `~GroupLock`, after its callbacks. -/
theorem reaches_afterCalls (wasLocked : Bool) (prevTokens : ℤ) :
    Reaches step Always
      ⟨g, .handleCalls (if wasLocked then some prevTokens else none) [] :: ops, tr⟩
      (if wasLocked ∧ prevTokens < 0 ∨ wasLocked ∧ g.slowPending = 0 then
        ⟨g.drain.1, ops, g.drain.2.reverse ++ tr⟩ else ⟨g, ops, tr⟩) := by
  cases wasLocked with
  | false => exact reaches_access (r := ⟨g, none, []⟩) rfl (by simpa using .start)
  | true =>
    by_cases ht : prevTokens < 0
    · simp only [ht, and_self, true_or, if_true]
      refine reaches_access (r := ⟨g, some (.drainScan 0 .done), []⟩)
        (by simp [advance, afterCalls, ht]) ?_
      exact reaches_drain .done
    · refine reaches_access (r := ⟨g, some .handleCheck, []⟩) (by simp [advance, afterCalls, ht]) ?_
      by_cases hp : g.slowPending = 0
      · simp only [hp, and_self, or_true, if_true]
        refine reaches_access (r := ⟨g, some (.drainScan 0 .done), []⟩) (by simp [advance, hp]) ?_
        exact reaches_drain .done
      · simp only [hp, ht, and_false, or_self, if_false]
        exact reaches_access (r := ⟨g, none, []⟩) (by simp [advance, hp]) .start

theorem reaches_leaveQueue (hm : g.mutex = false) (r : ℕ) :
    Reaches step Always ⟨g, .handleUnlock r :: ops, tr⟩
      ⟨(g.leaveQueue r).2, .handleCalls (if (g.handles r).locked then some g.tokens else none)
        (g.leaveQueue r).1 :: ops, tr⟩ := by
  refine reaches_access (r := ⟨g.unlockSection r,
    some (.handleWalk (if (g.handles r).locked then some g.tokens else none)), []⟩)
    (by simp [advance, hm]) ?_
  exact reaches_access rfl (reaches_access rfl .start)

theorem reaches_handleDestroy (hm : g.mutex = false) (r : ℕ) :
    Reaches step Always ⟨g, .handleUnlock r :: ops, tr⟩
      ⟨(g.handleDestroy r).1, ops, (g.handleDestroy r).2.reverse ++ tr⟩ := by
  refine (reaches_leaveQueue hm r).trans ((reaches_handleCalls _ _).trans ?_)
  refine (reaches_afterCalls _ _).trans ?_
  rw [handleDestroy]
  generalize g.leaveQueue r = x
  obtain ⟨toNotify, g'⟩ := x
  dsimp only
  by_cases h₁ : (g.handles r).locked = true ∧ g.tokens < 0
  · rw [if_pos (Or.inl h₁), if_pos h₁, List.reverse_append, List.append_assoc]
    exact .start
  · by_cases h₂ : (g.handles r).locked = true ∧ g'.slowPending = 0
    · rw [if_pos (Or.inr h₂), if_neg h₁, if_pos h₂, List.reverse_append, List.append_assoc]
      exact .start
    · rw [if_neg (not_or.mpr ⟨h₁, h₂⟩), if_neg h₁, if_neg h₂]
      exact .start

/-- **A call that is not interrupted does what its function says**: from the group before it the
interleaved machine reaches the group after it, with the events of the call, and no operation is
left over. -/
theorem reaches_perform {g' : Group} {c : Call} {ev : List Event} (hm : g.mutex = false)
    (h : g.perform c = some (g', ev)) (tr : List Event) :
    Reaches step Always ⟨g, [], tr⟩ ⟨g', [], ev.reverse ++ tr⟩ := by
  have hcall : ∀ {r : Outcome Group Op Event} {m : Machine}, startCall g [] c = some r →
      Reaches step Always ⟨r.mem, r.next.toList, r.emitted.reverse ++ tr⟩ m →
      Reaches step Always ⟨g, [], tr⟩ m := by
    intro r m hr hrest
    refine .head (a := .call c) trivial ?_ hrest
    simp [step, Program.step, program, hr]
  cases c with
  | tryAcquireRunningLock =>
    obtain ⟨rfl, rfl⟩ := perform_tryAcquireRunningLock h
    exact hcall rfl (reaches_tryAcquireRunningLock tr)
  | trySubmit w =>
    replace h := perform_trySubmit h
    have := @reaches_trySubmit g [] hm w tr
    rw [h] at this
    exact hcall rfl this
  | runningDestroy =>
    obtain ⟨hr, h⟩ := perform_runningDestroy h
    have := @reaches_afterRelease { g with running := g.running - 1 } [] tr hm .done
    rw [← runningDestroy, h] at this
    exact hcall (by simp [startCall, hr]; rfl) this
  | lock a =>
    obtain ⟨rfl, rfl⟩ := perform_lock h
    exact hcall rfl (reaches_lock hm a)
  | handleLock r =>
    obtain ⟨hr, rfl, rfl⟩ := perform_handleLock h
    exact hcall (by simp [startCall, hr]; rfl) (reaches_handleLock hm r)
  | handleDestroy r =>
    obtain ⟨hr, h⟩ := perform_handleDestroy h
    have := @reaches_handleDestroy g [] tr hm r
    rw [h] at this
    exact hcall (by simp [startCall, hr]; rfl) this

end Group

end Scheduler
end NUClear
