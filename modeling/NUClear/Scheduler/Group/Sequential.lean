import NUClear.Scheduler.Group.Operations

/-!
# A group between two operations

`Quiet` is what the interleaved machine says of a group when no operation is in progress.  Every
call keeps it, by refinement (`quiet_perform`): nothing about the tokens is proved a second time for
the functions.  Two more facts hold when the calls come one after the other, and `Calm` adds them.

* `full`: while a parked task reserves a token, the group is full.  Together with the accounting
  this says that `tokens` is negative exactly as far as there are reservations.
* `inOrder`: each bucket holds its tasks in the order in which they were parked.  The arbiter flags
  are allocated in that order, so their identities are the order.

The lemmas before say what one drain, one release and one parking do, field by field, and which of
their outcomes a call has (`releaseToken_cases`, `Quiet.trySubmit_cases`, `handleDestroy_cases`).
The calls are then compared by what they do to four counts: the tokens, the `RunningLock`s, the
locked handles and the reservations.  A call that takes as many tokens as it hands out keeps the
group full (`Calm.full_of_counts`).

* `Calm.perform`: every call keeps a group calm.
* `InOrder.perform`: whatever starts a parked task starts one that is ahead of all that remain.
-/

namespace NUClear
namespace Scheduler

open Foundation

namespace Group

variable {c : ℕ} {g g' : Group} {ev : List Event}

/-! ## Quiet groups -/

/-- The group is as a group of this concurrency is when no operation is in progress: the mutex is
free, `slowPending` counts the queue, and the tokens balance. -/
def Quiet (c : ℕ) (g : Group) : Prop := Consistent c ⟨g, [], []⟩

theorem quiet_make (c : ℕ) : Quiet c (make c) := consistent_start c

theorem consistent_run {ok : Machine → Action Call Bool → Prop} {m m' : Machine}
    (hm : Consistent c m) (h : Reaches step ok m m') : Consistent c m' :=
  invariant_of_access h hm (fun _ _ _ _ _ _ hI _ hs => consistent_call hI hs)
    fun _ _ _ _ _ _ _ _ _ hI _ _ ha => consistent_access hI ha

theorem Quiet.mutex (h : Quiet c g) : g.mutex = false := by
  have hm := h.handles.mutex
  cases hb : g.mutex with
  | false => rfl
  | true =>
    simp only [hb, total_nil, if_true] at hm
    exact absurd hm (by decide)

theorem Quiet.slowPending (h : Quiet c g) : g.slowPending = g.queue.length := by
  have hs := h.handles.slow
  simpa only [total_nil, add_zero] using hs

theorem Quiet.nodup (h : Quiet c g) : g.queue.Nodup := h.handles.nodup

theorem Quiet.notMem_nextHandle (h : Quiet c g) : g.nextHandle ∉ g.queue := fun hm =>
  absurd (h.handles.fresh _ hm) (lt_irrefl _)

/-- The balance: the tokens are what the others leave over. -/
theorem Quiet.tokens (h : Quiet c g) :
    g.tokens + g.running + g.lockedCount + g.parkedHeld g.slots = c := by
  have hb := Consistent.tokens h
  simpa only [balance, total_nil, add_zero] using hb

theorem Quiet.slowPending_pos (h : Quiet c g) {r : ℕ} (hr : r ∈ g.queue) : 0 < g.slowPending := by
  rw [h.slowPending]
  have := List.length_pos_of_mem hr
  omega

/-- **Every call keeps a group quiet.** -/
theorem quiet_perform {call : Call} (h : Quiet c g) (hp : g.perform call = some (g', ev)) :
    Quiet c g' := by
  have hrun := consistent_run h (reaches_perform h.mutex hp [])
  exact ⟨hrun.concurrency_eq, ⟨hrun.slots.1, hrun.slots.2, hrun.slots.3, hrun.slots.4,
    hrun.slots.5⟩, ⟨hrun.handles.1, hrun.handles.2, hrun.handles.3, hrun.handles.4, hrun.handles.5,
    hrun.handles.6, hrun.handles.7⟩, hrun.tokens⟩

/-! ## What a drain does -/

theorem drain_of_parked_nil (h : g.parked = []) : g.drain = (g, []) := by
  have hd : g.waitBuckets.dequeueFirst = none := Buckets.dequeueFirst_eq_none_iff.mpr h
  simp [drain, drainOneToPool, hd]

/-- A drain takes the first parked task, and the group is left with the others. -/
theorem drain_of_parked_ne_nil (h : g.parked ≠ []) :
    ∃ b e q, g.waitBuckets.dequeueFirst = some (b, e, q) ∧
      g.drain = ({ g with
        waitBuckets := q
        slots := Function.update g.slots e.slot true
        running := g.running + 1
        tokens := g.tokens - if g.slots e.slot then 0 else 1 },
        [.submitForced e, .unregister e.pool]) := by
  cases hd : g.waitBuckets.dequeueFirst with
  | none => exact absurd (Buckets.dequeueFirst_eq_none_iff.mp hd) h
  | some x =>
    obtain ⟨b, e, q⟩ := x
    refine ⟨b, e, q, rfl, ?_⟩
    cases hs : g.slots e.slot <;> simp [drain, drainOneToPool, hd, hs, exchangeSlot,
      makeRunningLock]

/-- A drain leaves the slow path alone. -/
theorem drain_slow (g : Group) : g.drain.1.queue = g.queue ∧ g.drain.1.handles = g.handles ∧
    g.drain.1.slowPending = g.slowPending ∧ g.drain.1.nextHandle = g.nextHandle ∧
    g.drain.1.nextSlot = g.nextSlot := by
  by_cases h : g.parked = []
  · rw [drain_of_parked_nil h]
    exact ⟨rfl, rfl, rfl, rfl, rfl⟩
  · obtain ⟨b, e, q, -, hd⟩ := drain_of_parked_ne_nil h
    rw [hd]
    exact ⟨rfl, rfl, rfl, rfl, rfl⟩

@[simp] theorem drain_queue (g : Group) : g.drain.1.queue = g.queue := (drain_slow g).1

@[simp] theorem drain_handles (g : Group) : g.drain.1.handles = g.handles := (drain_slow g).2.1

@[simp] theorem drain_slowPending (g : Group) : g.drain.1.slowPending = g.slowPending :=
  (drain_slow g).2.2.1

@[simp] theorem drain_nextHandle (g : Group) : g.drain.1.nextHandle = g.nextHandle :=
  (drain_slow g).2.2.2.1

@[simp] theorem lockedCount_drain (g : Group) : g.drain.1.lockedCount = g.lockedCount :=
  lockedCount_congr (drain_queue g) fun _ => by rw [drain_handles]

/-- A drain starts one task, if one is parked, and takes at most its token. -/
theorem drain_counts (h : g.parked ≠ []) : g.drain.1.running = g.running + 1 ∧
    g.tokens - 1 ≤ g.drain.1.tokens ∧ g.drain.1.tokens ≤ g.tokens := by
  obtain ⟨b, e, q, -, hd⟩ := drain_of_parked_ne_nil h
  rw [hd]
  dsimp only
  split_ifs <;> omega

/-! ## What notifying does -/

@[simp] theorem notifySlowPath_fst (g : Group) : g.notifySlowPath.1 = g.notifyLoop.2 := rfl

theorem mem_notifyAll {rs : List ℕ} {e : Event} (h : e ∈ g.notifyAll rs) :
    ∃ r ∈ rs, e = .notify r (g.handles r).notify := by
  obtain ⟨r, hr, rfl⟩ := List.mem_map.mp h
  exact ⟨r, hr, rfl⟩

@[simp] theorem lockedCount_setNotified (rs : List ℕ) (b : Bool) :
    (g.setNotified rs b).lockedCount = g.lockedCount :=
  lockedCount_congr rfl fun _ => setNotified_locked _ _ _ _

/-! ## What a release and a parking do -/

/-- A release starts a parked task, or returns the token: because none is parked, or to the handles
that are pending. -/
theorem releaseToken_cases (g : Group) :
    (g.parked ≠ [] ∧ (g.tokens < 0 ∨ g.slowPending ≤ 0) ∧
      g.releaseToken = { g with tokens := g.tokens + 1 }.drain) ∨
    (g.parked = [] ∧ (g.tokens < 0 ∨ g.slowPending ≤ 0) ∧
      g.releaseToken = ({ g with tokens := g.tokens + 1 }, [])) ∨
    (0 ≤ g.tokens ∧ 0 < g.slowPending ∧
      g.releaseToken = { g with tokens := g.tokens + 1 }.notifySlowPath) := by
  by_cases ht : g.tokens < 0
  · have hrel : g.releaseToken = { g with tokens := g.tokens + 1 }.drain := by
      simp only [releaseToken, ht, if_true]
    rw [hrel]
    by_cases hp : g.parked = []
    · exact Or.inr (Or.inl ⟨hp, Or.inl ht, drain_of_parked_nil hp⟩)
    · exact Or.inl ⟨hp, Or.inl ht, rfl⟩
  · by_cases hs : g.slowPending > 0
    · have hrel : g.releaseToken = { g with tokens := g.tokens + 1 }.notifySlowPath := by
        simp only [releaseToken, ht, if_false, hs, if_true]
      exact Or.inr (Or.inr ⟨not_lt.mp ht, hs, hrel⟩)
    · have hrel : g.releaseToken = { g with tokens := g.tokens + 1 }.drain := by
        simp only [releaseToken, ht, if_false, hs]
      rw [hrel]
      by_cases hp : g.parked = []
      · exact Or.inr (Or.inl ⟨hp, Or.inr (not_lt.mp hs), drain_of_parked_nil hp⟩)
      · exact Or.inl ⟨hp, Or.inr (not_lt.mp hs), rfl⟩

/-- What a release does to the counts. -/
theorem releaseToken_counts (g : Group) : g.releaseToken.1.lockedCount = g.lockedCount ∧
    ((g.releaseToken.1.running = g.running + 1 ∧ g.tokens ≤ g.releaseToken.1.tokens ∧
        g.releaseToken.1.tokens ≤ g.tokens + 1) ∨
      (g.releaseToken.1.running = g.running ∧ g.releaseToken.1.tokens = g.tokens + 1 ∧
        g.releaseToken.1.parked = g.parked ∧ (g.parked = [] ∨ 0 ≤ g.tokens))) := by
  have hl : lockedCount { g with tokens := g.tokens + 1 } = g.lockedCount :=
    lockedCount_congr rfl fun _ => rfl
  rcases releaseToken_cases g with ⟨hp, -, heq⟩ | ⟨hp, -, heq⟩ | ⟨ht, -, heq⟩ <;> rw [heq]
  · have hc := drain_counts (g := { g with tokens := g.tokens + 1 }) hp
    simp only at hc
    exact ⟨(lockedCount_drain _).trans hl, Or.inl ⟨hc.1, by omega, by omega⟩⟩
  · exact ⟨hl, Or.inr ⟨rfl, rfl, rfl, Or.inl hp⟩⟩
  · exact ⟨(lockedCount_setNotified _ _).trans hl, Or.inr ⟨rfl, rfl, rfl, Or.inr ht⟩⟩

/-- With a free token, which handles are pending for, the task stays parked without a reservation,
and the handles are notified. -/
theorem park_of_token (w : Waiter) (ht : 0 < g.tokens) (hp : 0 < g.slowPending) :
    g.park w = ((g.publish w).notifySlowPath.1,
      .register w.pool :: (g.publish w).notifySlowPath.2) := by
  have hback : ¬ g.tokens - 1 < 0 := by omega
  simp [park, parkReconcile, releaseToken, ht, hp, hback, publish]

/-- Without a free token the task is parked with a reservation. -/
theorem park_of_no_token (w : Waiter) (ht : g.tokens ≤ 0) :
    g.park w = ({ (g.publish w).exchangeSlot g.nextSlot with tokens := g.tokens - 1 },
      [.register w.pool]) := by
  have hslot : (g.publish w).slots g.nextSlot = false := by simp
  simp [park, parkReconcile, not_lt.mpr ht, publish, exchangeSlot]

theorem trySubmit_of_free (w : Waiter) (hp : g.slowPending = 0) (ht : 0 < g.tokens) :
    g.trySubmit w = ({ g with tokens := g.tokens - 1 }.makeRunningLock, [.submit w]) := by
  have hp' : ¬ g.slowPending > 0 := by omega
  rw [trySubmit, if_pos ⟨hp, ht⟩]
  dsimp only
  rw [if_neg hp']

theorem trySubmit_of_not_free (w : Waiter) (h : ¬ (g.slowPending = 0 ∧ g.tokens > 0)) :
    g.trySubmit w = g.park w := by
  rw [trySubmit, if_neg h]

/-- What a newcomer finds: a free token that no handle waits for, a free token that handles wait
for, or none. -/
theorem Quiet.trySubmit_cases (hq : Quiet c g) (w : Waiter) :
    (g.queue = [] ∧ 0 < g.tokens ∧
      g.trySubmit w = ({ g with tokens := g.tokens - 1 }.makeRunningLock, [.submit w])) ∨
    (0 < g.slowPending ∧ 0 < g.tokens ∧ g.trySubmit w = ((g.publish w).notifySlowPath.1,
      .register w.pool :: (g.publish w).notifySlowPath.2)) ∨
    (g.tokens ≤ 0 ∧ g.trySubmit w =
      ({ (g.publish w).exchangeSlot g.nextSlot with tokens := g.tokens - 1 },
        [.register w.pool])) := by
  have hlen := hq.slowPending
  by_cases ht : 0 < g.tokens
  · by_cases hp : g.slowPending = 0
    · have hnil : g.queue = [] := List.length_eq_zero_iff.mp (by omega)
      exact Or.inl ⟨hnil, ht, trySubmit_of_free w hp ht⟩
    · have hpos : 0 < g.slowPending := by omega
      rw [trySubmit_of_not_free w (fun h => hp h.1), park_of_token w ht hpos]
      exact Or.inr (Or.inl ⟨hpos, ht, rfl⟩)
  · rw [trySubmit_of_not_free w (fun h => ht h.2), park_of_no_token w (not_lt.mp ht)]
    exact Or.inr (Or.inr ⟨not_lt.mp ht, rfl⟩)

/-- `try_acquire_running_lock` takes a free token that no handle waits for, or does nothing. -/
theorem Quiet.tryAcquire_cases (hq : Quiet c g) :
    (g.queue = [] ∧ 0 < g.tokens ∧ g.tryAcquireRunningLock =
      ({ g with tokens := g.tokens - 1 }.makeRunningLock, true, [])) ∨
    g.tryAcquireRunningLock = (g, false, []) := by
  have hlen := hq.slowPending
  rw [tryAcquireRunningLock]
  by_cases hp : g.slowPending > 0
  · exact Or.inr (if_pos hp)
  · by_cases ht : g.tokens > 0
    · have hnil : g.queue = [] := List.length_eq_zero_iff.mp (by omega)
      refine Or.inl ⟨hnil, ht, ?_⟩
      rw [if_neg hp, if_pos ht]
      dsimp only
      rw [if_neg hp]
    · exact Or.inr (by rw [if_neg hp, if_neg ht])

/-! ## What `~GroupLock` does -/

@[simp] theorem leaveQueue_queue (r : ℕ) : (g.leaveQueue r).2.queue = g.queue.erase r :=
  unlockSection_queue g r

@[simp] theorem leaveQueue_slowPending (r : ℕ) :
    (g.leaveQueue r).2.slowPending = g.slowPending - 1 :=
  congrArg (· - 1) (unlockSection_slowPending g r)

@[simp] theorem leaveQueue_running (r : ℕ) : (g.leaveQueue r).2.running = g.running :=
  unlockSection_running g r

@[simp] theorem leaveQueue_waitBuckets (r : ℕ) : (g.leaveQueue r).2.waitBuckets = g.waitBuckets :=
  unlockSection_waitBuckets g r

@[simp] theorem leaveQueue_nextSlot (r : ℕ) : (g.leaveQueue r).2.nextSlot = g.nextSlot :=
  unlockSection_nextSlot g r

@[simp] theorem leaveQueue_slots (r : ℕ) : (g.leaveQueue r).2.slots = g.slots :=
  unlockSection_slots g r

theorem leaveQueue_tokens (r : ℕ) :
    (g.leaveQueue r).2.tokens = g.tokens + if (g.handles r).locked then 1 else 0 := by
  change (g.unlockSection r).tokens = _
  unfold unlockSection
  cases h : (g.handles r).locked <;> simp

theorem lockedCount_leaveQueue {r : ℕ} (hq : g.queue.Nodup) (hr : r ∈ g.queue) :
    (g.leaveQueue r).2.lockedCount = g.lockedCount - if (g.handles r).locked then 1 else 0 := by
  have hsum := tokens_unlockSection hq hr
  have ht : (g.unlockSection r).tokens = _ := leaveQueue_tokens (g := g) r
  have hl : (g.leaveQueue r).2.lockedCount = (g.unlockSection r).lockedCount :=
    lockedCount_congr rfl fun _ => setNotified_locked _ _ _ _
  omega

/-- `~GroupLock` drains for a token that parked tasks have reserved, and for one that no handle
waits for. -/
theorem handleDestroy_cases (r : ℕ) :
    ((g.handles r).locked = true ∧ (g.tokens < 0 ∨ g.slowPending = 1) ∧
      g.handleDestroy r = ((g.leaveQueue r).2.drain.1,
        (g.leaveQueue r).2.notifyAll (g.leaveQueue r).1 ++ (g.leaveQueue r).2.drain.2)) ∨
    (((g.handles r).locked = false ∨ 0 ≤ g.tokens ∧ g.slowPending ≠ 1) ∧
      g.handleDestroy r = ((g.leaveQueue r).2,
        (g.leaveQueue r).2.notifyAll (g.leaveQueue r).1)) := by
  have hp : g.slowPending - 1 = 0 ↔ g.slowPending = 1 := by omega
  rw [handleDestroy]
  dsimp only
  cases hl : (g.handles r).locked with
  | false => simp
  | true =>
    by_cases ht : g.tokens < 0
    · simp [ht]
    · by_cases hs : g.slowPending = 1
      · simp [hs]
      · simp [ht, hs, hp, not_lt.mp ht]

/-! ## The order of the parked tasks -/

/-- The first task goes before the second one: its bucket is of a higher priority, or it is in the
same bucket and was parked earlier. -/
def Ahead (e₁ e₂ : WaitEntry) : Prop :=
  e₁.bucket < e₂.bucket ∨ e₁.bucket = e₂.bucket ∧ e₁.slot < e₂.slot

/-- Every bucket holds tasks of its priority, in the order in which they were parked. -/
def InOrder (g : Group) : Prop :=
  g.waitBuckets.InOrder (fun e => e.bucket) WaitEntry.slot g.nextSlot

theorem InOrder.congr (h : InOrder g) (hb : g'.waitBuckets = g.waitBuckets)
    (hn : g'.nextSlot = g.nextSlot) : InOrder g' := by
  rwa [InOrder, hb, hn]

theorem InOrder.publish (h : InOrder g) (w : Waiter) : InOrder (g.publish w) := by
  show Buckets.InOrder _ _ (g.nextSlot + 1) (g.waitBuckets.enqueue w.bucket ⟨w, g.nextSlot⟩)
  exact Buckets.InOrder.enqueue (x := (⟨w, g.nextSlot⟩ : WaitEntry)) h rfl

/-- A drain keeps the order, and **the task that it starts is ahead of all that remain**. -/
theorem InOrder.drain (h : InOrder g) : InOrder g.drain.1 ∧
    ∀ e, .submitForced e ∈ g.drain.2 → ∀ e' ∈ g.drain.1.parked, Ahead e e' := by
  by_cases hp : g.parked = []
  · rw [drain_of_parked_nil hp]
    exact ⟨h, fun e he => absurd he (List.not_mem_nil)⟩
  · obtain ⟨b, e, q, hq, hd⟩ := drain_of_parked_ne_nil hp
    obtain ⟨hrest, hahead⟩ := Buckets.InOrder.dequeueFirst h hq
    rw [hd]
    refine ⟨hrest, fun e₀ he₀ e' he' => ?_⟩
    obtain rfl : e₀ = e := by simpa using he₀
    exact hahead e' he'

theorem submitForced_notMem_notifyAll {rs : List ℕ} {e : WaitEntry} :
    .submitForced e ∉ g.notifyAll rs := by
  intro h
  obtain ⟨r, -, he⟩ := mem_notifyAll h
  exact absurd he (by simp)

/-- **Whatever starts a parked task starts one that is ahead of all that remain**, and the order is
kept. -/
theorem InOrder.perform {call : Call} (hq : Quiet c g) (h : InOrder g)
    (hp : g.perform call = some (g', ev)) :
    InOrder g' ∧ ∀ e, .submitForced e ∈ ev → ∀ e' ∈ g'.parked, Ahead e e' := by
  have hrelease : ∀ g : Group, InOrder g → InOrder g.releaseToken.1 ∧
      ∀ e, .submitForced e ∈ g.releaseToken.2 → ∀ e' ∈ g.releaseToken.1.parked, Ahead e e' := by
    intro g h
    have h' : InOrder { g with tokens := g.tokens + 1 } := h.congr rfl rfl
    rcases releaseToken_cases g with ⟨-, -, heq⟩ | ⟨-, -, heq⟩ | ⟨-, -, heq⟩ <;> rw [heq]
    · exact h'.drain
    · exact ⟨h', fun e he => absurd he (List.not_mem_nil)⟩
    · exact ⟨h'.congr rfl rfl, fun e he => absurd he submitForced_notMem_notifyAll⟩
  cases call with
  | tryAcquireRunningLock =>
    obtain ⟨rfl, rfl⟩ := perform_tryAcquireRunningLock hp
    rcases hq.tryAcquire_cases with ⟨-, -, heq⟩ | heq <;> rw [heq]
    · exact ⟨h.congr rfl rfl, fun e he => absurd he (List.not_mem_nil)⟩
    · exact ⟨h, fun e he => absurd he (List.not_mem_nil)⟩
  | trySubmit w =>
    replace hp := perform_trySubmit hp
    rcases hq.trySubmit_cases w with ⟨-, -, heq⟩ | ⟨-, -, heq⟩ | ⟨-, heq⟩ <;>
      obtain ⟨rfl, rfl⟩ := Prod.mk.injEq .. ▸ heq.symm.trans hp
    · exact ⟨h.congr rfl rfl, fun e he => absurd he (by simp)⟩
    · refine ⟨(h.publish w).congr rfl rfl, fun e he => ?_⟩
      rcases List.mem_cons.mp he with he | he
      · exact absurd he (by simp)
      · exact absurd he submitForced_notMem_notifyAll
    · exact ⟨(h.publish w).congr rfl rfl, fun e he => absurd he (by simp)⟩
  | runningDestroy =>
    obtain ⟨hr, hp⟩ := perform_runningDestroy hp
    have := hrelease { g with running := g.running - 1 } (h.congr rfl rfl)
    rwa [← runningDestroy, hp] at this
  | lock a =>
    obtain ⟨rfl, rfl⟩ := perform_lock hp
    exact ⟨h.congr rfl rfl, fun e he => absurd he (List.not_mem_nil)⟩
  | handleLock r =>
    obtain ⟨hr, rfl, rfl⟩ := perform_handleLock hp
    refine ⟨?_, fun e he => absurd he (by simp)⟩
    rw [Group.handleLock]
    split_ifs
    · exact h
    · exact h.congr rfl rfl
    · exact h
  | handleDestroy r =>
    obtain ⟨hr, hp⟩ := perform_handleDestroy hp
    have hleave : InOrder (g.leaveQueue r).2 :=
      h.congr (leaveQueue_waitBuckets r) (leaveQueue_nextSlot r)
    rcases handleDestroy_cases (g := g) r with ⟨-, -, heq⟩ | ⟨-, heq⟩ <;> rw [heq] at hp <;>
      simp only [Prod.mk.injEq] at hp <;> obtain ⟨rfl, rfl⟩ := hp
    · refine ⟨hleave.drain.1, fun e he => hleave.drain.2 e ?_⟩
      exact (List.mem_append.mp he).resolve_left submitForced_notMem_notifyAll
    · exact ⟨hleave, fun e he => absurd he submitForced_notMem_notifyAll⟩

/-! ## Calm groups -/

/-- A group between two operations, when operations come one after the other: quiet, with its
buckets in order, and full while somebody has a reservation. -/
structure Calm (c : ℕ) (g : Group) : Prop where
  quiet : Quiet c g
  inOrder : InOrder g
  full : 0 < g.parkedHeld g.slots → (c : ℤ) ≤ g.running + g.lockedCount

theorem parkedHeld_of_parked_nil (h : g.parked = []) : g.parkedHeld g.slots = 0 := by
  rw [parkedHeld, h]
  rfl

/-- Tokens that are not negative are reserved for nobody. -/
theorem Calm.parkedHeld_eq_zero (h : Calm c g) (ht : 0 ≤ g.tokens) : g.parkedHeld g.slots = 0 := by
  have hb := h.quiet.tokens
  have h₀ := g.parkedHeld_nonneg g.slots
  by_contra hne
  have := h.full (lt_of_le_of_ne h₀ (Ne.symm hne))
  omega

/-- A call that takes as many tokens as it hands out keeps the group full, or nobody had a
reservation. -/
theorem Calm.full_of_counts (h : Calm c g) (hq : Quiet c g')
    (ht : g.tokens + g.running + g.lockedCount ≤ g'.tokens + g'.running + g'.lockedCount)
    (hu : g.parkedHeld g.slots = 0 ∨
      (g.running : ℤ) + g.lockedCount ≤ g'.running + g'.lockedCount) :
    0 < g'.parkedHeld g'.slots → (c : ℤ) ≤ g'.running + g'.lockedCount := by
  intro hpos
  have h₁ := h.quiet.tokens
  have h₂ := hq.tokens
  have h₃ := g.parkedHeld_nonneg g.slots
  have hpos' : 0 < g.parkedHeld g.slots := by omega
  have := h.full hpos'
  rcases hu with hu | hu <;> omega

/-- A task is admitted on the fast path only when nobody has a reservation. -/
theorem Calm.full_of_admission (h : Calm c g) (ht : 0 < g.tokens) (hq : Quiet c g')
    (heq : g' = ({ g with tokens := g.tokens - 1 } : Group).makeRunningLock) :
    0 < g'.parkedHeld g'.slots → (c : ℤ) ≤ g'.running + g'.lockedCount := by
  subst heq
  have hl : ({ g with tokens := g.tokens - 1 }.makeRunningLock).lockedCount = g.lockedCount :=
    lockedCount_congr rfl fun _ => rfl
  refine h.full_of_counts hq ?_ (Or.inl (h.parkedHeld_eq_zero ht.le))
  rw [hl, makeRunningLock_tokens, makeRunningLock_running]
  push_cast
  omega

theorem Calm.full_trySubmit {w : Waiter} (h : Calm c g) (hq : Quiet c g')
    (hp : g.perform (.trySubmit w) = some (g', ev)) :
    0 < g'.parkedHeld g'.slots → (c : ℤ) ≤ g'.running + g'.lockedCount := by
  replace hp := perform_trySubmit hp
  rcases h.quiet.trySubmit_cases w with ⟨-, ht, heq⟩ | ⟨-, ht, heq⟩ | ⟨ht, heq⟩ <;>
    rw [heq] at hp <;> simp only [Prod.mk.injEq] at hp <;> obtain ⟨rfl, rfl⟩ := hp
  · exact h.full_of_admission ht hq rfl
  · have hl : (g.publish w).notifySlowPath.1.lockedCount = g.lockedCount :=
      lockedCount_setNotified (g := g.publish w) _ _
    refine h.full_of_counts hq ?_ (Or.inl (h.parkedHeld_eq_zero ht.le))
    rw [hl]
    exact le_rfl
  · have hl : lockedCount { (g.publish w).exchangeSlot g.nextSlot with tokens := g.tokens - 1 } =
      g.lockedCount := lockedCount_congr rfl fun _ => rfl
    intro _
    rw [hl]
    change (c : ℤ) ≤ g.running + g.lockedCount
    have hb := h.quiet.tokens
    by_cases hpos : 0 < g.parkedHeld g.slots
    · exact h.full hpos
    · have := g.parkedHeld_nonneg g.slots
      omega

theorem Calm.full_runningDestroy (h : Calm c g) (hq : Quiet c g')
    (hp : g.perform .runningDestroy = some (g', ev)) :
    0 < g'.parkedHeld g'.slots → (c : ℤ) ≤ g'.running + g'.lockedCount := by
  obtain ⟨hr, hp⟩ := perform_runningDestroy hp
  obtain ⟨hl, hc⟩ := releaseToken_counts { g with running := g.running - 1 }
  have hl' : lockedCount { g with running := g.running - 1 } = g.lockedCount :=
    lockedCount_congr rfl fun _ => rfl
  rw [← runningDestroy, hp, hl'] at hl
  rw [← runningDestroy, hp] at hc
  simp only at hl hc
  rcases hc with ⟨hr', ht₁, ht₂⟩ | ⟨hr', ht, hpk, hnil | hnn⟩
  · refine h.full_of_counts hq ?_ (Or.inr ?_) <;> omega
  · intro hpos
    rw [parkedHeld_of_parked_nil (hpk.trans hnil)] at hpos
    exact absurd hpos (lt_irrefl _)
  · exact h.full_of_counts hq (by omega) (Or.inl (h.parkedHeld_eq_zero hnn))

theorem Calm.full_handleLock {r : ℕ} (h : Calm c g)
    (hp : g.perform (.handleLock r) = some (g', ev)) :
    0 < g'.parkedHeld g'.slots → (c : ℤ) ≤ g'.running + g'.lockedCount := by
  obtain ⟨hr, rfl, rfl⟩ := perform_handleLock hp
  rw [Group.handleLock]
  cases hl : (g.handles r).locked with
  | true =>
    simp only [if_true]
    exact h.full
  | false =>
    by_cases hw : lockWalk g.handles r g.tokens g.queue = true
    · have hcount := countP_update_handle g.handles { g.handles r with locked := true }
        h.quiet.nodup hr
      simp only [hl, if_true, if_false, Bool.false_eq_true, sub_zero] at hcount
      simp only [hw, if_true, if_false, Bool.false_eq_true]
      intro hpos
      change (c : ℤ) ≤ g.running + ((g.queue.countP fun x => (Function.update g.handles r
        { g.handles r with locked := true } x).locked : ℕ) : ℤ)
      rw [hcount]
      have := h.full hpos
      rw [lockedCount] at this
      omega
    · simp only [hw, if_false, Bool.false_eq_true]
      exact h.full

theorem Calm.full_handleDestroy {r : ℕ} (h : Calm c g) (hq : Quiet c g')
    (hp : g.perform (.handleDestroy r) = some (g', ev)) :
    0 < g'.parkedHeld g'.slots → (c : ℤ) ≤ g'.running + g'.lockedCount := by
  obtain ⟨hr, hp⟩ := perform_handleDestroy hp
  have ht := leaveQueue_tokens (g := g) r
  have hl := lockedCount_leaveQueue h.quiet.nodup hr
  have hrun := leaveQueue_running (g := g) r
  have hpk : (g.leaveQueue r).2.parked = g.parked := congrArg Buckets.contents
    (leaveQueue_waitBuckets r)
  rcases handleDestroy_cases (g := g) r with ⟨hlk, -, heq⟩ | ⟨hidle, heq⟩ <;> rw [heq] at hp <;>
    simp only [Prod.mk.injEq] at hp <;> obtain ⟨rfl, rfl⟩ := hp
  · rw [hlk, if_pos rfl] at ht hl
    by_cases hnil : g.parked = []
    · rw [drain_of_parked_nil (hpk.trans hnil)] at hq ⊢
      intro hpos
      rw [parkedHeld_of_parked_nil (hpk.trans hnil)] at hpos
      exact absurd hpos (lt_irrefl _)
    · have hc := drain_counts (g := (g.leaveQueue r).2) (hpk ▸ hnil)
      have hl' := lockedCount_drain (g.leaveQueue r).2
      refine h.full_of_counts hq ?_ (Or.inr ?_) <;> omega
  · cases hlk : (g.handles r).locked with
    | false =>
      rw [hlk] at ht hl
      simp only [Bool.false_eq_true, if_false] at ht hl
      refine h.full_of_counts hq ?_ (Or.inr ?_) <;> omega
    | true =>
      rw [hlk, if_pos rfl] at ht hl
      have htok : 0 ≤ g.tokens := (hidle.resolve_left (by simp [hlk])).1
      exact h.full_of_counts hq (by omega) (Or.inl (h.parkedHeld_eq_zero htok))

/-- **Every call keeps a group calm.** -/
theorem Calm.perform {call : Call} (h : Calm c g) (hp : g.perform call = some (g', ev)) :
    Calm c g' := by
  have hq : Quiet c g' := quiet_perform h.quiet hp
  refine ⟨hq, (h.inOrder.perform h.quiet hp).1, ?_⟩
  cases call with
  | tryAcquireRunningLock =>
    obtain ⟨rfl, rfl⟩ := perform_tryAcquireRunningLock hp
    rcases h.quiet.tryAcquire_cases with ⟨-, ht, heq⟩ | heq <;> rw [heq] at hq ⊢
    · exact h.full_of_admission ht hq rfl
    · exact h.full
  | trySubmit w => exact h.full_trySubmit hq hp
  | runningDestroy => exact h.full_runningDestroy hq hp
  | lock a =>
    obtain ⟨rfl, rfl⟩ := perform_lock hp
    have hl : (g.lock a).lockedCount = g.lockedCount :=
      lockedCount_insertSection (g := { g with slowPending := g.slowPending + 1 }) a
        h.quiet.notMem_nextHandle
    intro hpos
    rw [hl]
    exact h.full hpos
  | handleLock r => exact h.full_handleLock hp
  | handleDestroy r => exact h.full_handleDestroy hq hp

theorem calm_make (c : ℕ) : Calm c (make c) := by
  refine ⟨quiet_make c, Buckets.InOrder.empty, fun hpos => ?_⟩
  rw [parkedHeld_of_parked_nil (g := make c) Buckets.contents_empty] at hpos
  exact absurd hpos (lt_irrefl _)

end Group

end Scheduler
end NUClear
