import NUClear.Scheduler.Group.Accounting

/-!
# How many tasks of a group run at a time

A group is to hold at most `concurrency` units: its `RunningLock`s and its locked handles.  The code
does not keep to that under every interleaving, and the one thing that breaks it is
`drain_one_to_pool`.  A drain follows the release of a token, but nothing ties the token to the
drain: between the `fetch_add` of the release and the `RunningLock` of the drained task another
thread may take the token, and for an uncounted waiter the drain's own `fetch_sub` comes after the
task has started.  Nor does the release that undoes a phantom reservation free anything for the task
that it drains.

`TokenInHand` is the condition on an access that this does not happen: a drain starts a task only
when a token is left for it (`available`), and a token is taken only beyond those that drains in
progress have handed out already.  It counts tokens, not tasks: the limit on the tasks that run
follows by the accounting.

* `available_add_inUse`: what is in use and what is left add up to the concurrency, in every
  reachable state.  This is the balance of the tokens.
* `bounded_access`: under the condition `Bounded` is kept by every access.  Those that neither start
  a task nor take a token cannot raise what is in use (`Bounded.frame`).
* `running_add_locked_le`: so the group is never over its concurrency in such a run.
* `over_concurrency_of_stolenToken`: two tasks of a group of one run at a time.
-/

namespace NUClear
namespace Scheduler

open Foundation

namespace Group

/-- The operation took a token on the fast path and starts a task unless the slow path stops it. -/
def Op.admits : Op → ℤ
  | .takeRecheck _ => 1
  | _ => 0

/-- The operation started a task and owes the subtraction of its token. -/
def Op.owes : Op → ℤ
  | .drainSub _ => 1
  | _ => 0

instance : Settled Op.admits := ⟨fun _ => rfl⟩
instance : Settled Op.owes := ⟨fun _ => rfl⟩

/-- The tokens that are left: `tokens`, with the reservations of the parked tasks given back, and
the subtractions that are owed made. -/
def available (m : Machine) : ℤ :=
  m.mem.tokens + m.mem.parkedHeld m.mem.slots + total (Op.entryHeld m.mem.slots) m.ops +
    (total Op.debt m.ops - total Op.admits m.ops)

/-- The access starts a parked task. -/
def Op.startsParked : Op → Bool
  | .drainClaim _ _ => true
  | _ => false

/-- The access takes a token, for a newcomer or for a handle. -/
def Op.takesToken (g : Group) : Op → Bool → Bool
  | .takeCas _ expected, spurious => g.tokens = expected ∧ spurious = false
  | .handleLock r, _ => (g.handles r).locked = false ∧ lockWalk g.handles r g.tokens g.queue = true
  | _, _ => false

/-- A drain has a token for the task it starts, and what is taken has not been handed out. -/
def TokenInHand (m : Machine) (o : Op) (spurious : Bool) : Prop :=
  (o.startsParked = true → 0 < available m) ∧
    (o.takesToken m.mem spurious = true → total Op.owes m.ops < m.mem.tokens)

instance (m : Machine) (o : Op) (z : Bool) : Decidable (TokenInHand m o z) :=
  inferInstanceAs (Decidable (_ ∧ _))

/-- The units in use: on the fast path with the tokens already taken, and with the slow path. -/
structure Bounded (concurrency : ℕ) (m : Machine) : Prop where
  fast : m.mem.running + total Op.admits m.ops ≤ concurrency
  held : m.mem.running + m.mem.lockedCount ≤ concurrency

variable {g g' : Group} {pre post ops : List Op} {o : Op} {next : Option Op} {tr tr' : List Event}
variable {c : ℕ}

theorem admits_nonneg (ops : List Op) : 0 ≤ total Op.admits ops :=
  total_nonneg fun o _ => by cases o <;> simp [Op.admits]

theorem entryHeld_nonneg (slots : ℕ → Bool) (ops : List Op) : 0 ≤ total (Op.entryHeld slots) ops :=
  total_nonneg fun o _ => by
    cases o <;> simp only [Op.entryHeld, le_refl]
    split_ifs <;> omega

/-- What an operation in progress has taken beyond an admission is never negative, but for the
subtractions it owes. -/
theorem admits_le_debt (ops : List Op) :
    total Op.admits ops ≤ total Op.debt ops + total Op.owes ops + total Op.locks ops := by
  induction ops with
  | nil => simp
  | cons o ops ih =>
    simp only [total_cons]
    have : o.admits ≤ o.debt + o.owes + o.locks := by
      cases o <;> simp [Op.admits, Op.debt, Op.owes, Op.locks]
    omega

/-- What is in use and what is left add up to the concurrency. -/
theorem available_add_inUse {m : Machine} (h : Consistent c m) :
    available m + m.mem.running + m.mem.lockedCount + total Op.admits m.ops = c := by
  have := h.tokens
  rw [balance] at this
  rw [available]
  omega

/-- An access that does not add to what is in use. -/
theorem Bounded.frame (h : Bounded c ⟨g, pre ++ o :: post, tr⟩) (hr : g'.running = g.running)
    (hl : g'.lockedCount ≤ g.lockedCount) (ha : total Op.admits next.toList ≤ o.admits) :
    Bounded c ⟨g', pre ++ (next.toList ++ post), tr'⟩ := by
  obtain ⟨h₁, h₂⟩ := h
  simp only [total_append, total_cons] at h₁ h₂
  constructor
  · simp only [total_append, hr]
    omega
  · simp only [hr]
    omega

/-- `~GroupLock` frees at most what its handle held. -/
theorem lockedCount_unlockSection_le {r : ℕ} (hq : g.queue.Nodup) (hr : r ∈ g.queue) :
    (g.unlockSection r).lockedCount ≤ g.lockedCount := by
  have h := tokens_unlockSection hq hr
  have : g.tokens ≤ (g.unlockSection r).tokens := by
    unfold unlockSection
    split_ifs <;> simp
  omega

theorem bounded_access {ev : List Event} {z : Bool} (hc : Consistent c ⟨g, pre ++ o :: post, tr⟩)
    (hok : TokenInHand ⟨g, pre ++ o :: post, tr⟩ o z)
    (h : Bounded c ⟨g, pre ++ o :: post, tr⟩) (hadv : advance g o z = some ⟨g', next, ev⟩)
    (ha : Access g o g' next ev) :
    Bounded c ⟨g', pre ++ (next.toList ++ post), tr'⟩ := by
  have hsum := available_add_inUse hc
  have hlocks := locks_le_lockedCount hc.handles
  have hdebt := admits_le_debt (pre ++ o :: post)
  have hheld := g.parkedHeld_nonneg g.slots
  have hentry := entryHeld_nonneg g.slots (pre ++ o :: post)
  simp only [available] at hsum
  cases ha
  case takeCasTake w e ht =>
    obtain ⟨he, rfl⟩ := takeCas_of_advance hadv
    have howed := hok.2 (by simp [Op.takesToken, he])
    obtain ⟨h₁, h₂⟩ := h
    simp only [total_append, total_cons, Op.admits, Op.owes, Op.debt, Op.locks, Op.entryHeld]
      at h₁ h₂ hsum hlocks hdebt howed hentry
    refine ⟨?_, h₂⟩
    simp only [Option.toList_some, List.singleton_append, total_append, total_cons, Op.admits]
    omega
  case takeRecheckStart w hp =>
    have hl := lockedCount_eq_zero hc.handles hp
    obtain ⟨h₁, h₂⟩ := h
    simp only [total_append, total_cons, Op.admits] at h₁ h₂ hl
    have := admits_nonneg pre
    have := admits_nonneg post
    have hl' : g.makeRunningLock.lockedCount = g.lockedCount := lockedCount_congr rfl fun r => rfl
    constructor
    · simp only [Option.toList_none, List.nil_append, total_append, makeRunningLock_running]
      push_cast
      omega
    · simp only [hl', makeRunningLock_running]
      push_cast
      omega
  case drainClaimCounted e k hs =>
    have htoken := hok.1 rfl
    obtain ⟨h₁, h₂⟩ := h
    have := g.lockedCount_nonneg
    have := admits_nonneg (pre ++ .drainClaim e k :: post)
    have hl : (g.exchangeSlot e.slot).makeRunningLock.lockedCount = g.lockedCount :=
      lockedCount_congr rfl fun r => rfl
    simp only [available] at htoken
    simp only [total_append, total_cons, Op.admits] at *
    constructor
    · simp only [total_append, total_resume, makeRunningLock_running, exchangeSlot_running]
      push_cast
      omega
    · simp only [hl, makeRunningLock_running, exchangeSlot_running]
      push_cast
      omega
  case drainClaimUncounted e k hs =>
    have htoken := hok.1 rfl
    obtain ⟨h₁, h₂⟩ := h
    have := g.lockedCount_nonneg
    have := admits_nonneg (pre ++ .drainClaim e k :: post)
    have hl : (g.exchangeSlot e.slot).makeRunningLock.lockedCount = g.lockedCount :=
      lockedCount_congr rfl fun r => rfl
    simp only [available] at htoken
    simp only [total_append, total_cons, Op.admits] at *
    constructor
    · simp only [Option.toList_some, List.singleton_append, total_append, total_cons, Op.admits,
        makeRunningLock_running, exchangeSlot_running]
      push_cast
      omega
    · simp only [hl, makeRunningLock_running, exchangeSlot_running]
      push_cast
      omega
  case handleLockTake r hl hm hw =>
    have howed := hok.2 (by simp [Op.takesToken, hl, hw])
    have hr : r ∈ g.queue := (lockWalk_eq_true_iff.mp hw).1
    have hcount := countP_update_handle g.handles { g.handles r with locked := true }
      hc.handles.nodup hr
    simp only [hl, if_true, if_false, Bool.false_eq_true, sub_zero] at hcount
    have hmutex := hc.handles.mutex
    have hle := locks_le_holdsMutex (pre ++ .handleLock r :: post)
    simp only [hm, Bool.false_eq_true, if_false] at hmutex
    obtain ⟨h₁, h₂⟩ := h
    have := admits_nonneg (pre ++ .handleLock r :: post)
    refine ⟨?_, ?_⟩
    · simpa [Op.admits] using h₁
    · change (g.running : ℤ) + ((g.queue.countP fun x => (Function.update g.handles r
        { g.handles r with locked := true } x).locked : ℕ) : ℤ) ≤ c
      rw [hcount]
      simp only [lockedCount] at hsum
      simp only at howed
      omega
  case lockInsert a hm =>
    have hnew : g.nextHandle ∉ g.queue := fun hq => absurd (hc.handles.fresh _ hq) (lt_irrefl _)
    exact h.frame rfl (lockedCount_insertSection a hnew).le (by simp [Op.admits])
  case handleUnlockHeld r hm hl | handleUnlockIdle r hm hl =>
    have hr : r ∈ g.queue :=
      hc.handles.works r (worksOn_pos_of_mem (o := .handleUnlock r) (by simp) rfl)
    exact h.frame (unlockSection_running g r) (lockedCount_unlockSection_le hc.handles.nodup hr)
      (by simp [Op.admits])
  case notifySection k hm | handleWalk was =>
    have hl : g.notifyLoop.2.lockedCount = g.lockedCount :=
      lockedCount_congr rfl fun r => setNotified_locked _ _ _ _
    exact h.frame rfl hl.le (by simp [Op.admits])
  all_goals
    refine h.frame rfl (lockedCount_congr rfl fun r => rfl).le ?_
    simp [Op.admits]

/-- **A group keeps to its concurrency** in every run in which drains have a token in hand. -/
theorem running_add_locked_le {m : Machine}
    (h : Reaches step (AtAccess TokenInHand) (start c) m) :
    m.mem.running + m.mem.lockedHandles.length ≤ c := by
  have hb : Consistent c m ∧ Bounded c m := by
    refine invariant_of_access (I := fun m => Consistent c m ∧ Bounded c m) h
      ⟨consistent_start c, ?_⟩ ?_ ?_
    · constructor <;> simp [start, lockedCount] <;> simp [make]
    · intro g ops tr call g' o hI _ hs
      refine ⟨consistent_call hI.1 hs, ?_⟩
      obtain ⟨h₁, h₂⟩ := hI.2
      cases hs <;> constructor <;> simp only [total_cons, Op.admits, lockedCount] at h₁ h₂ ⊢ <;>
        omega
    · intro g pre o post tr z g' next ev hI hok hadv ha
      exact ⟨consistent_access hI.1 ha, bounded_access hI.1 hok.apply hI.2 hadv ha⟩
  have := hb.2.held
  rw [lockedCount_eq_length] at this
  omega

/-- The running task ends and hands its token to the parked one. -/
def handOver : List (Action Call Bool) := oneParked ++ [.call .runningDestroy] ++ accesses 4

theorem running_add_locked_le_handOver :
    ∃ m, exec step (start 1) handOver = some m ∧ m.mem.running = 1 ∧
      m.mem.running + m.mem.lockedHandles.length ≤ 1 := by
  obtain ⟨m, hm⟩ := Option.isSome_iff_exists.mp
    (by decide : (exec step (start 1) handOver).isSome = true)
  have hr : (exec step (start 1) handOver).map (fun m => m.mem.running) = some 1 := by decide
  have hok : execOk step (AtAccess TokenInHand) (start 1) handOver := by decide
  rw [hm] at hr
  exact ⟨m, hm, by simpa using hr, running_add_locked_le (reaches_of_exec hm hok)⟩

/-- The first task has ended and its release is at `slow_pending.load`; a newcomer takes the token,
and then the release drains the task that was about to park. -/
def stolenToken : List (Action Call Bool) :=
  [.call (.trySubmit ⟨⟨1, 500⟩, 0, true⟩)] ++ accesses 4 ++
    [.call (.trySubmit ⟨⟨2, 500⟩, 0, true⟩)] ++ accesses 3 ++
    [.call .runningDestroy, .call .tryAcquireRunningLock] ++ accesses 9

/-- A drain that has no token in hand brings the group over its concurrency. -/
theorem over_concurrency_of_stolenToken :
    ¬ ∀ (c : ℕ) (m : Machine), 1 ≤ c → Reaches step Always (start c) m →
      m.mem.running + m.mem.lockedHandles.length ≤ c := by
  intro h
  obtain ⟨m, hm⟩ := Option.isSome_iff_exists.mp
    (by decide : (exec step (start 1) stolenToken).isSome = true)
  have hr : (exec step (start 1) stolenToken).map (fun m => m.mem.running) = some 2 := by decide
  have hle := h 1 m le_rfl (reaches_always_of_exec hm)
  rw [hm] at hr
  simp only [Option.map_some, Option.some.injEq] at hr
  omega

end Group

end Scheduler
end NUClear
