import NUClear.Scheduler.Group.Accounting

/-!
# Who wakes a handle that failed to lock

`GroupLock::lock` that returns `false` leaves its task waiting for the callback of the handle.  The
flag `notified` says that the callback has been invoked, or that some operation in progress is about
to (`Op.callbacks`); while it is set nobody invokes the callback again.

`Told` is what is needed of a handle that waits: with the flag set the callback is on its way, and
with the flag clear the handle cannot lock, or somebody is about to run the notification loop
(`Op.notifies`).  The tokens that count here are those that no other handle has just locked.

## The stale flag

`lock()` itself does not touch the flag.  A handle that was notified and then fails to lock, because
a phantom reservation of the fast path takes the token away for a moment, keeps a flag that stands
for a callback of the past.  `NotStale` is the condition that no failing `lock()` does that.  It is
asked of the access in which `lock()` fails, in the state before it.

## The proof

* `Told.frame`, `Told.quiet`: accesses that leave the queue and the handles as they are.
* `Told.notifyLoop`: after the notification loop, the handles that are not told cannot lock.
* `told_lockInsert`, `told_handleLockTake`, `told_handleLockFail`, `told_handleUnlock`: the accesses
  that change what a handle compares.
* `notifiedSince_of_wouldLock`: no wake-up is lost in a run that meets the condition.
-/

namespace NUClear
namespace Scheduler

open Foundation

namespace Group

/-! ## What a trace says about a handle -/

/-- The result of the most recent `GroupLock::lock()` of a handle. -/
def lastLock (r : ℕ) : List Event → Option Bool
  | [] => none
  | .lockReturned r' b :: tr => if r' = r then some b else lastLock r tr
  | _ :: tr => lastLock r tr

/-- The callback of a handle was invoked after its most recent `GroupLock::lock()`. -/
def notifiedSince (r : ℕ) : List Event → Bool
  | [] => false
  | .notify r' _ :: tr => if r' = r then true else notifiedSince r tr
  | .lockReturned r' _ :: tr => if r' = r then false else notifiedSince r tr
  | _ :: tr => notifiedSince r tr

/-- The handle failed to lock and was not notified since. -/
def Awaits (r : ℕ) (tr : List Event) : Prop :=
  lastLock r tr = some false ∧ notifiedSince r tr = false

theorem not_awaits_nil (r : ℕ) : ¬ Awaits r [] := by simp [Awaits, lastLock]

@[simp] theorem awaits_submit {r : ℕ} {w : Waiter} {tr : List Event} :
    Awaits r (.submit w :: tr) ↔ Awaits r tr := Iff.rfl

@[simp] theorem awaits_submitForced {r : ℕ} {e : WaitEntry} {tr : List Event} :
    Awaits r (.submitForced e :: tr) ↔ Awaits r tr := Iff.rfl

@[simp] theorem awaits_register {r : ℕ} {p : PoolId} {tr : List Event} :
    Awaits r (.register p :: tr) ↔ Awaits r tr := Iff.rfl

@[simp] theorem awaits_unregister {r : ℕ} {p : PoolId} {tr : List Event} :
    Awaits r (.unregister p :: tr) ↔ Awaits r tr := Iff.rfl

@[simp] theorem awaits_notify {r r' : ℕ} {p : PoolId} {tr : List Event} :
    Awaits r (.notify r' p :: tr) ↔ r' ≠ r ∧ Awaits r tr := by
  by_cases h : r' = r <;> simp [Awaits, lastLock, notifiedSince, h]

@[simp] theorem awaits_lockReturned {r r' : ℕ} {b : Bool} {tr : List Event} :
    Awaits r (.lockReturned r' b :: tr) ↔ if r' = r then b = false else Awaits r tr := by
  by_cases h : r' = r <;> simp [Awaits, lastLock, notifiedSince, h]

/-! ## The invariant -/

/-- The callbacks that the operation is about to invoke. -/
def Op.callbacks : Op → List ℕ
  | .notifyCalls rs _ => rs
  | .handlePending _ rs => rs
  | .handleCalls _ rs => rs
  | _ => []

/-- The operation is about to run the notification loop, if handles are pending. -/
def Op.notifies : Op → Bool
  | .releaseCheck _ => true
  | .notifySection _ => true
  | .handleWalk _ => true
  | _ => false

/-- The handle that the access fails to lock. -/
def Op.failsToLock (g : Group) : Op → Option ℕ
  | .handleLock r => if wouldLock g r then none else some r
  | _ => none

/-- `lock()` fails only on handles whose flag is clear or whose callback is still to come. -/
def NotStale (m : Machine) (o : Op) (_ : Bool) : Prop :=
  ∀ r ∈ o.failsToLock m.mem, (m.mem.handles r).notified = true → ∃ o' ∈ m.ops, r ∈ o'.callbacks

instance (m : Machine) (o : Op) (z : Bool) : Decidable (NotStale m o z) :=
  inferInstanceAs (Decidable (∀ r ∈ o.failsToLock m.mem, _))

/-- The handles that wait are going to be told. -/
structure Told (m : Machine) : Prop where
  fresh : ∀ r, Awaits r m.trace → r < m.mem.nextHandle
  told : ∀ r ∈ m.mem.queue, Awaits r m.trace → (m.mem.handles r).locked = false →
    (m.mem.handles r).notified = true → ∃ o ∈ m.ops, r ∈ o.callbacks
  free : ∀ r ∈ m.mem.queue, Awaits r m.trace → (m.mem.handles r).locked = false →
    (m.mem.handles r).notified = false →
    demand m.mem.handles r m.mem.queue ≤ m.mem.tokens - total Op.locks m.ops →
    ∃ o ∈ m.ops, o.notifies = true
  held : ∀ r ∈ m.mem.queue, Awaits r m.trace → (m.mem.handles r).locked = true →
    Op.handleTake r ∈ m.ops

variable {g g' : Group} {pre post ops : List Op} {o : Op} {next : Option Op} {tr tr' : List Event}
variable {c : ℕ}

/-! ## One access -/

theorem exists_of_middle {p : Op → Prop} {n : Option Op} (h : ∃ x ∈ pre ++ o :: post, p x)
    (ho : ¬ p o) : ∃ x ∈ pre ++ (n.toList ++ post), p x := by
  obtain ⟨x, hx, hp⟩ := h
  simp only [List.mem_append, List.mem_cons] at hx
  rcases hx with hx | rfl | hx
  · exact ⟨x, by simp [hx], hp⟩
  · exact absurd hp ho
  · exact ⟨x, by simp [hx], hp⟩

/-- What an operation has that its next point does not have, the operations after an access do not
need it to have. -/
theorem exists_of_middle_or {p : Op → Prop} (h : ∃ x ∈ pre ++ o :: post, p x)
    (ho : p o → ∃ x ∈ next.toList, p x) : ∃ x ∈ pre ++ (next.toList ++ post), p x := by
  by_cases hp : p o
  · obtain ⟨x, hx, hpx⟩ := ho hp
    exact ⟨x, by simp only [List.mem_append]; exact Or.inr (Or.inl hx), hpx⟩
  · exact exists_of_middle h hp

/-- An access that leaves the queue and the handles as they are: it hands its callbacks on, and when
it returns a token it goes on to notify, or the token was owed. -/
theorem Told.frame {ev : List Event} (h : Told ⟨g, pre ++ o :: post, tr⟩)
    (hq : g'.queue = g.queue) (hh : g'.handles = g.handles) (hn : g'.nextHandle = g.nextHandle)
    (he : ∀ r, Awaits r (ev.reverse ++ tr) → Awaits r tr)
    (ht : g'.tokens - total Op.locks next.toList ≤ g.tokens - o.locks ∨ g'.tokens ≤ 0 ∨
      ∃ x ∈ next.toList, x.notifies = true)
    (hc : ∀ r, Awaits r (ev.reverse ++ tr) → r ∈ o.callbacks → ∃ x ∈ next.toList, r ∈ x.callbacks)
    (hno : o.notifies = true → g.queue = [] ∨ ∃ x ∈ next.toList, x.notifies = true)
    (hta : ∀ r, Awaits r (ev.reverse ++ tr) → o ≠ .handleTake r) :
    Told ⟨g', pre ++ (next.toList ++ post), ev.reverse ++ tr⟩ := by
  constructor
  · intro r ha
    exact hn ▸ h.fresh r (he r ha)
  · intro r hr ha hl hnf
    rw [hq] at hr
    rw [hh] at hl hnf
    exact exists_of_middle_or (h.told r hr (he r ha) hl hnf) (hc r ha)
  · intro r hr ha hl hnf hd
    rw [hq] at hr hd
    rw [hh] at hl hnf hd
    simp only [total_append] at hd
    have hone := one_le_demand hr hl
    have h₁ := locks_nonneg pre
    have h₂ := locks_nonneg post
    have h₃ := locks_nonneg next.toList
    rcases ht with ht | ht | ⟨x, hx, hnx⟩
    · refine exists_of_middle_or (h.free r hr (he r ha) hl hnf ?_) fun hnot => ?_
      · simp only [total_append, total_cons]
        omega
      · exact (hno hnot).resolve_left (List.ne_nil_of_mem hr)
    · omega
    · exact ⟨x, by simp only [List.mem_append]; exact Or.inr (Or.inl hx), hnx⟩
  · intro r hr ha hl
    rw [hq] at hr
    rw [hh] at hl
    have hmem := h.held r hr (he r ha) hl
    obtain ⟨x, hx, rfl⟩ := exists_of_middle (p := fun x => x = Op.handleTake r) (n := next)
      ⟨_, hmem, rfl⟩ (hta r ha)
    exact hx

/-- An access that has nothing to do with the waiting handles. -/
theorem Told.quiet {ev : List Event} (h : Told ⟨g, pre ++ o :: post, tr⟩)
    (hq : g'.queue = g.queue) (hh : g'.handles = g.handles) (hn : g'.nextHandle = g.nextHandle)
    (he : ∀ r, Awaits r (ev.reverse ++ tr) → Awaits r tr) (ht : g'.tokens ≤ g.tokens)
    (hl : o.locks = 0) (hc : o.callbacks = []) (hno : o.notifies = false) :
    Told ⟨g', pre ++ (next.toList ++ post), ev.reverse ++ tr⟩ := by
  have hnext := locks_nonneg next.toList
  refine h.frame hq hh hn he (Or.inl (by omega)) (fun r _ hr => ?_) (fun hn => ?_) fun r _ ho => ?_
  · rw [hc] at hr
    exact absurd hr (List.not_mem_nil)
  · rw [hno] at hn
    exact absurd hn (by simp)
  · rw [ho] at hl
    exact absurd hl (by simp [Op.locks])

/-- After the notification loop, the handles that are not told cannot lock. -/
theorem Told.notifyLoop {mutex : Bool} {n : Op} (hc : HandlesConsistent ⟨g, pre ++ o :: post, tr⟩)
    (h : Told ⟨g, pre ++ o :: post, tr⟩) (hcb : o.callbacks = [])
    (hta : ∀ r, o ≠ .handleTake r) (hn : n.callbacks = g.notifyLoop.1) :
    Told ⟨{ g.notifyLoop.2 with mutex := mutex }, pre ++ ((some n).toList ++ post), tr⟩ := by
  have hd : ∀ r, demand (g.setNotified (toNotify g.handles g.tokens g.queue) true).handles r
    g.queue =
      demand g.handles r g.queue := fun r => demand_congr fun x _ => setNotified_locked _ _ _ _
  constructor
  · exact h.fresh
  · intro r hr ha hl hnf
    simp only [notifyLoop_snd, setNotified_locked] at hl
    by_cases hm : r ∈ toNotify g.handles g.tokens g.queue
    · exact ⟨n, by simp, hn ▸ hm⟩
    · simp only [notifyLoop_snd, setNotified, if_neg hm] at hnf
      exact exists_of_middle (h.told r hr ha hl hnf) (by simp [hcb])
  · intro r hr ha hl hnf hle
    simp only [notifyLoop_snd, setNotified_locked] at hl
    simp only [notifyLoop_snd, setNotified_queue, setNotified_tokens, hd] at hle
    have hm : r ∉ toNotify g.handles g.tokens g.queue := by
      intro hm
      simp only [notifyLoop_snd, setNotified, if_pos hm] at hnf
      exact absurd hnf (by simp)
    simp only [notifyLoop_snd, setNotified, if_neg hm] at hnf
    have := locks_nonneg (pre ++ ((some n).toList ++ post))
    refine absurd ?_ hm
    have hle : demand g.handles r g.queue ≤ g.tokens := by omega
    exact (mem_toNotify_iff hc.nodup).mpr ⟨hr, hle, hl, hnf⟩
  · intro r hr ha hl
    simp only [notifyLoop_snd, setNotified_locked] at hl
    obtain ⟨x, hx, rfl⟩ := exists_of_middle (p := fun x => x = Op.handleTake r) (n := some n)
      ⟨_, h.held r hr ha hl, rfl⟩ (hta r)
    exact hx

/-- A new handle does not wait, and the handles that it delays are told again later. -/
theorem told_lockInsert {a : LockArgs} (hc : HandlesConsistent
    ⟨g, pre ++ .lockInsert a :: post, tr⟩)
    (h : Told ⟨g, pre ++ .lockInsert a :: post, tr⟩) :
    Told ⟨g.insertSection a, pre ++ post, tr⟩ := by
  have hnew : g.nextHandle ∉ g.queue := fun hm => absurd (hc.fresh _ hm) (lt_irrefl _)
  have hwait : ∀ r, Awaits r tr → r ≠ g.nextHandle := by
    rintro r ha rfl
    exact absurd (h.fresh _ ha) (lt_irrefl _)
  have hold : ∀ r ∈ (g.insertSection a).queue, Awaits r tr → r ∈ g.queue := fun r hr ha =>
    (mem_insertSection_queue.mp hr).resolve_left (hwait r ha)
  have hpost : (none : Option Op).toList ++ post = post := rfl
  constructor
  · intro r ha
    exact Nat.lt_succ_of_lt (h.fresh r ha)
  · intro r hr ha hl hnf
    rw [insertSection_locked a (hwait r ha)] at hl
    have hnf' : (g.handles r).notified = true := by
      simp only [insertSection, setNotified] at hnf
      split_ifs at hnf
      rwa [Function.update_of_ne (hwait r ha)] at hnf
    exact hpost ▸ exists_of_middle (h.told r (hold r hr ha) ha hl hnf') (by simp [Op.callbacks])
  · intro r hr ha hl hnf hle
    rw [insertSection_locked a (hwait r ha)] at hl
    set handles := Function.update g.handles g.nextHandle
      (⟨a.taskId, a.priority, false, false, a.notify⟩ : LockHandle) with hhandles
    set queue := insertHandle handles g.nextHandle g.queue with hqueue
    have hdem : demand (g.insertSection a).handles r (g.insertSection a).queue =
        demand handles r queue := demand_congr fun x _ => setNotified_locked _ _ _ _
    have hnodup : queue.Nodup := nodup_insertHandle hnew hc.nodup
    have hreset : r ∉ toReset handles g.tokens queue := by
      intro hm
      have hlt := ((mem_toReset_iff hnodup).mp hm).2
      have := locks_nonneg (pre ++ post)
      rw [hdem] at hle
      have hle : demand handles r queue ≤ g.tokens - total Op.locks (pre ++ post) := hle
      omega
    have hnf' : (g.handles r).notified = false := by
      have hnf : (if r ∈ toReset handles g.tokens queue then { handles r with notified := false }
        else handles r).notified = false := hnf
      rw [if_neg hreset] at hnf
      rwa [hhandles, Function.update_of_ne (hwait r ha)] at hnf
    have hgrow : demand g.handles r g.queue ≤ demand handles r queue := by
      have hsame : demand handles r g.queue = demand g.handles r g.queue :=
        demand_congr fun x hx => by
          rw [hhandles, Function.update_of_ne]
          rintro rfl
          exact hnew hx
      have hsplit := List.takeWhile_append_dropWhile
        (p := fun x => (handles x).before (handles g.nextHandle)) (l := g.queue)
      have hins := demand_le_insert (h := handles) (Ne.symm (hwait r ha))
        (g.queue.takeWhile fun x => (handles x).before (handles g.nextHandle))
        (g.queue.dropWhile fun x => (handles x).before (handles g.nextHandle))
      rw [hsplit, hsame] at hins
      exact hins
    refine hpost ▸ exists_of_middle (h.free r (hold r hr ha) ha hl hnf' ?_) (by simp [Op.notifies])
    rw [hdem] at hle
    have hle : demand handles r queue ≤ g.tokens - total Op.locks (pre ++ post) := hle
    simp only [total_append, total_cons, Op.locks] at hle ⊢
    omega
  · intro r hr ha hl
    rw [insertSection_locked a (hwait r ha)] at hl
    obtain ⟨x, hx, rfl⟩ := exists_of_middle (p := fun x => x = Op.handleTake r) (n := none)
      ⟨_, h.held r (hold r hr ha) ha hl, rfl⟩ (by simp)
    exact hx

/-- A handle that is locked takes one token away, from the tokens and from what is counted. -/
theorem told_handleLockTake {r : ℕ} (hc : HandlesConsistent ⟨g, pre ++ .handleLock r :: post, tr⟩)
    (hm : g.mutex = false) (h : Told ⟨g, pre ++ .handleLock r :: post, tr⟩) :
    Told ⟨{ g.setHandle r (fun h => { h with locked := true }) with mutex := true },
      pre ++ .handleTake r :: post, tr⟩ := by
  have hzero : total Op.locks (pre ++ .handleLock r :: post) ≤ 0 := by
    have h₁ := locks_le_holdsMutex (pre ++ .handleLock r :: post)
    have h₂ := hc.mutex
    simp only [hm, Bool.false_eq_true, if_false] at h₂
    omega
  have hne : ∀ x, (Function.update g.handles r { g.handles r with locked := true } x).locked =
    false →
      x ≠ r := by
    rintro x hx rfl
    rw [Function.update_self] at hx
    exact absurd hx (by simp)
  constructor
  · exact h.fresh
  · intro x hx ha hl hnf
    simp only [setHandle] at hl hnf
    have hxr := hne x hl
    rw [Function.update_of_ne hxr] at hl hnf
    exact exists_of_middle (n := some (.handleTake r)) (h.told x hx ha hl hnf)
      (by simp [Op.callbacks])
  · intro x hx ha hl hnf hle
    simp only [setHandle] at hl hnf hle
    have hxr := hne x hl
    rw [Function.update_of_ne hxr] at hl hnf
    have hstep := demand_le_lock (h := g.handles) (s := x) (r := r)
      (l := { g.handles r with locked := true }) hc.nodup
    refine exists_of_middle (n := some (.handleTake r)) (h.free x hx ha hl hnf ?_)
      (by simp [Op.notifies])
    simp only [total_append, total_cons, Op.locks] at hle hzero ⊢
    simp only at hstep
    omega
  · intro x hx ha hl
    simp only [setHandle] at hl
    by_cases hxr : x = r
    · subst hxr
      simp
    · rw [Function.update_of_ne hxr] at hl
      obtain ⟨y, hy, rfl⟩ := exists_of_middle (p := fun y => y = Op.handleTake x)
        (n := some (.handleTake r)) ⟨_, h.held x hx ha hl, rfl⟩ (by simp)
      exact hy

/-- A failing `lock()` leaves the handle to the flag, which is not stale. -/
theorem told_handleLockFail {r : ℕ} {z : Bool}
    (hc : HandlesConsistent ⟨g, pre ++ .handleLock r :: post, tr⟩)
    (hok : NotStale ⟨g, pre ++ .handleLock r :: post, tr⟩ (.handleLock r) z)
    (hw : wouldLock g r = false) (h : Told ⟨g, pre ++ .handleLock r :: post, tr⟩) :
    Told ⟨g, pre ++ post, .lockReturned r false :: tr⟩ := by
  have hr : r ∈ g.queue := hc.works r (worksOn_pos_of_mem (o := .handleLock r) (by simp) rfl)
  have hpost : (none : Option Op).toList ++ post = post := rfl
  constructor
  · intro x ha
    by_cases hx : r = x
    · exact hc.fresh x (hx ▸ hr)
    · rw [awaits_lockReturned, if_neg hx] at ha
      exact h.fresh x ha
  · intro x hx ha hl hnf
    by_cases hxr : r = x
    · subst hxr
      refine hpost ▸ exists_of_middle (hok r ?_ hnf) (by simp [Op.callbacks])
      simp [Op.failsToLock, hw]
    · rw [awaits_lockReturned, if_neg hxr] at ha
      exact hpost ▸ exists_of_middle (h.told x hx ha hl hnf) (by simp [Op.callbacks])
  · intro x hx ha hl hnf hle
    by_cases hxr : r = x
    · subst hxr
      have hmore := (wouldLock_iff hr hl).not.mp (by simp [hw])
      have := locks_nonneg (pre ++ post)
      simp only at hle hmore
      omega
    · rw [awaits_lockReturned, if_neg hxr] at ha
      refine hpost ▸ exists_of_middle (h.free x hx ha hl hnf ?_) (by simp [Op.notifies])
      simpa only [total_append, total_cons, Op.locks, zero_add] using hle
  · intro x hx ha hl
    by_cases hxr : r = x
    · subst hxr
      simp only [wouldLock, Bool.or_eq_false_iff] at hw
      rw [hw.1] at hl
      exact absurd hl (by simp)
    · rw [awaits_lockReturned, if_neg hxr] at ha
      obtain ⟨y, hy, rfl⟩ := exists_of_middle (p := fun y => y = Op.handleTake x) (n := none)
        ⟨_, h.held x hx ha hl, rfl⟩ (by simp)
      exact hy

/-- `~GroupLock` goes on to notify. -/
theorem told_handleUnlock {r : ℕ} {was : Option ℤ}
    (hc : HandlesConsistent ⟨g, pre ++ .handleUnlock r :: post, tr⟩)
    (h : Told ⟨g, pre ++ .handleUnlock r :: post, tr⟩) :
    Told ⟨g.unlockSection r, pre ++ .handleWalk was :: post, tr⟩ := by
  have hmem : ∀ x ∈ (g.unlockSection r).queue, x ≠ r ∧ x ∈ g.queue := fun x hx => by
    rw [unlockSection_queue] at hx
    have hnodup : g.queue.Nodup := hc.nodup
    exact (hnodup.mem_erase_iff).mp hx
  constructor
  · intro x ha
    rw [unlockSection_nextHandle]
    exact h.fresh x ha
  · intro x hx ha hl hnf
    obtain ⟨hxr, hx⟩ := hmem x hx
    rw [unlockSection_handles_of_ne hxr] at hl hnf
    exact exists_of_middle (n := some (.handleWalk was)) (h.told x hx ha hl hnf)
      (by simp [Op.callbacks])
  · intro x _ _ _ _ _
    exact ⟨.handleWalk was, by simp, rfl⟩
  · intro x hx ha hl
    obtain ⟨hxr, hx⟩ := hmem x hx
    rw [unlockSection_handles_of_ne hxr] at hl
    obtain ⟨y, hy, rfl⟩ := exists_of_middle (p := fun y => y = Op.handleTake x)
      (n := some (.handleWalk was)) ⟨_, h.held x hx ha hl, rfl⟩ (by simp)
    exact hy

theorem told_access {ev : List Event} {z : Bool} (hc : HandlesConsistent ⟨g, pre ++ o :: post, tr⟩)
    (hok : NotStale ⟨g, pre ++ o :: post, tr⟩ o z) (h : Told ⟨g, pre ++ o :: post, tr⟩)
    (ha : Access g o g' next ev) : Told ⟨g', pre ++ (next.toList ++ post), ev.reverse ++ tr⟩ := by
  cases ha
  case notifySection k hm | handleWalk was => exact h.notifyLoop hc rfl (fun r => by simp) rfl
  case lockInsert a hm => exact told_lockInsert hc h
  case handleLockTake r hl hm hw => exact told_handleLockTake hc hm h
  case handleLockFail r hl hm hw => exact told_handleLockFail hc hok (by simp [wouldLock, hl, hw]) h
  case handleUnlockHeld r hm hl | handleUnlockIdle r hm hl => exact told_handleUnlock hc h
  case releaseCheckDrain k hp =>
    have hslow := hc.slow
    have := countsSlow_nonneg (pre ++ .releaseCheck k :: post)
    have hnil : g.queue = [] := List.length_eq_zero_iff.mp (by simp only at hslow; omega)
    refine h.frame rfl rfl rfl (fun r ha => ha) (Or.inl ?_) (fun r _ hr => ?_)
      (fun _ => Or.inl hnil)
      fun r _ => by simp
    · simp [Op.locks]
    · simp [Op.callbacks] at hr
  case releaseCheckSlow k hp =>
    exact h.frame rfl rfl rfl (fun r ha => ha) (Or.inr (Or.inr ⟨_, List.mem_cons_self .., rfl⟩))
      (fun r _ hr => absurd hr (List.not_mem_nil))
      (fun _ => Or.inr ⟨_, List.mem_cons_self .., rfl⟩) fun r _ => by simp
  case releaseAddOwed k ht =>
    exact h.frame rfl rfl rfl (fun r ha => ha) (Or.inr (Or.inl (show g.tokens + 1 ≤ 0 by omega)))
      (fun r _ hr => absurd hr (List.not_mem_nil)) (fun hn => absurd hn (by simp [Op.notifies]))
      fun r _ => by simp
  case releaseAddFree k ht =>
    exact h.frame rfl rfl rfl (fun r ha => ha) (Or.inr (Or.inr ⟨_, List.mem_cons_self .., rfl⟩))
      (fun r _ hr => absurd hr (List.not_mem_nil)) (fun hn => absurd hn (by simp [Op.notifies]))
      fun r _ => by simp
  case notifyCallsNext r rs k | handleCallsNext was r rs =>
    refine h.frame rfl rfl rfl (fun x ha => (awaits_notify.mp ha).2) (Or.inl le_rfl)
      (fun x ha hx => ⟨_, List.mem_cons_self .., ?_⟩) (fun hn => absurd hn (by simp [Op.notifies]))
      fun x _ => by simp
    exact (List.mem_cons.mp hx).resolve_left (Ne.symm (awaits_notify.mp ha).1)
  case handlePending was rs =>
    exact h.frame rfl rfl rfl (fun x ha => ha) (Or.inl le_rfl)
      (fun x _ hx => ⟨_, List.mem_cons_self .., hx⟩) (fun hn => absurd hn (by simp [Op.notifies]))
      fun x _ => by simp
  case handleTake r =>
    have hback : ∀ x, Awaits x (.lockReturned r true :: tr) → r ≠ x ∧ Awaits x tr := by
      intro x ha
      rw [awaits_lockReturned] at ha
      split_ifs at ha with hx
      exact ⟨hx, ha⟩
    exact h.frame rfl rfl rfl (fun x ha => (hback x ha).2)
      (Or.inl (by simp [Op.locks])) (fun x _ hx => absurd hx (List.not_mem_nil))
      (fun hn =>
        absurd hn (by simp [Op.notifies])) fun x ha hx => (hback x ha).1 (by simpa using hx)
  case handleLockHeld r hl =>
    refine h.quiet rfl rfl rfl (fun x ha => ?_) le_rfl rfl rfl rfl
    have ha : Awaits x (.lockReturned r true :: tr) := ha
    rw [awaits_lockReturned] at ha
    split_ifs at ha with hx
    exact ha
  case takeCasTake w e ht =>
    exact h.quiet rfl rfl rfl (fun r ha => ha) (show e - 1 ≤ g.tokens by omega) rfl rfl rfl
  case takeRecheckStart w hp =>
    refine h.quiet rfl rfl rfl (fun r ha => ?_) le_rfl rfl rfl rfl
    cases w <;> exact ha
  case drainSub k =>
    exact h.quiet rfl rfl rfl (fun r ha => ha) (show g.tokens - 1 ≤ g.tokens by omega) rfl rfl rfl
  case reconcileSubFree s hs =>
    exact h.quiet rfl rfl rfl (fun r ha => ha) (show g.tokens - 1 ≤ g.tokens by omega) rfl rfl rfl
  case reconcileSubFull s hs =>
    exact h.quiet rfl rfl rfl (fun r ha => ha) (show g.tokens - 1 ≤ g.tokens by omega) rfl rfl rfl
  all_goals exact h.quiet rfl rfl rfl (fun r ha => ha) le_rfl rfl rfl rfl

/-- A call emits nothing, and a returned token is notified about or owed. -/
theorem told_call {call : Call} (h : Told ⟨g, ops, tr⟩) (hs : Start g ops call g' o) :
    Told ⟨g', o :: ops, tr⟩ := by
  have key : g'.queue = g.queue → g'.handles = g.handles → g'.nextHandle = g.nextHandle →
      g'.tokens ≤ g.tokens ∨ g'.tokens ≤ 0 ∨ o.notifies = true → Told ⟨g', o :: ops, tr⟩ := by
    intro hq hh hn ht
    constructor
    · exact fun r ha => hn ▸ h.fresh r ha
    · intro r hr ha hl hnf
      rw [hh] at hl hnf
      obtain ⟨x, hx, hp⟩ := h.told r (hq ▸ hr) ha hl hnf
      exact ⟨x, List.mem_cons_of_mem _ hx, hp⟩
    · intro r hr ha hl hnf hd
      rw [hh] at hl hnf hd
      rw [hq] at hr hd
      have hone := one_le_demand hr hl
      have h₁ := locks_nonneg [o]
      have h₂ := locks_nonneg ops
      simp only [total_cons, total_nil] at hd h₁
      rcases ht with ht | ht | ht
      · obtain ⟨x, hx, hp⟩ := h.free r hr ha hl hnf (by simp only; omega)
        exact ⟨x, List.mem_cons_of_mem _ hx, hp⟩
      · omega
      · exact ⟨o, List.mem_cons_self .., ht⟩
    · intro r hr ha hl
      rw [hh] at hl
      exact List.mem_cons_of_mem _ (h.held r (hq ▸ hr) ha hl)
  cases hs
  case runningDestroyOwed hr ht =>
    exact key rfl rfl rfl (Or.inr (Or.inl (show g.tokens + 1 ≤ 0 by omega)))
  case runningDestroyFree hr ht => exact key rfl rfl rfl (Or.inr (Or.inr rfl))
  all_goals exact key rfl rfl rfl (Or.inl le_rfl)

/-- **No wake-up is lost** in a run in which no failing `lock()` leaves a stale flag: when no
operation is in progress, a handle that failed to lock and could lock now has been notified
since. -/
theorem notifiedSince_of_wouldLock {m : Machine}
    (h : Reaches step (AtAccess NotStale) (start c) m) (hq : m.ops = []) {r : ℕ}
    (hr : r ∈ m.mem.queue) (hf : lastLock r m.trace = some false)
    (hl : wouldLock m.mem r = true) : notifiedSince r m.trace = true := by
  have hI : HandlesConsistent m ∧ Told m := by
    refine invariant_of_access (I := fun m => HandlesConsistent m ∧ Told m) h
      ⟨(consistent_start c).handles, ?_⟩ ?_ ?_
    · constructor <;> intro r <;> intros <;> exact absurd ‹Awaits r _› (not_awaits_nil r)
    · intro g ops tr call g' o hI _ hs
      exact ⟨handlesConsistent_start hI.1 hs, told_call hI.2 hs⟩
    · intro g pre o post tr z g' next ev hI hok _ ha
      exact ⟨handlesConsistent_access hI.1 ha, told_access hI.1 hok.apply hI.2 ha⟩
  by_contra hn
  have ha : Awaits r m.trace := ⟨hf, by simpa using hn⟩
  have hnone : ∀ {p : Op → Prop}, ¬ ∃ o ∈ m.ops, p o := by
    rintro p ⟨o, ho, -⟩
    rw [hq] at ho
    exact absurd ho (List.not_mem_nil)
  have hlocked : (m.mem.handles r).locked = false := by
    by_contra hlocked
    exact hnone ⟨_, hI.2.held r hr ha (by simpa using hlocked), rfl⟩
  have hwalk : lockWalk m.mem.handles r m.mem.tokens m.mem.queue = true := by
    simpa [wouldLock, hlocked] using hl
  cases hnf : (m.mem.handles r).notified with
  | true => exact hnone (hI.2.told r hr ha hlocked hnf)
  | false =>
    refine hnone (hI.2.free r hr ha hlocked hnf ?_)
    rw [hq, total_nil]
    have := (lockWalk_eq_true_iff.mp hwalk).2
    omega

/-- A task runs, a handle fails to lock, the task ends and the handle is notified. -/
def lockAfterRunning : List (Action Call Bool) :=
  [.call (.trySubmit ⟨⟨1, 500⟩, 0, true⟩)] ++ accesses 4 ++ [.call (.lock ⟨2, 500, 0⟩)] ++
    accesses 2 ++ [.call (.handleLock 0)] ++ accesses 1 ++ [.call .runningDestroy] ++ accesses 4

theorem notifiedSince_of_wouldLock_lockAfterRunning :
    ∃ m, exec step (start 1) lockAfterRunning = some m ∧ wouldLock m.mem 0 = true ∧
      notifiedSince 0 m.trace = true := by
  obtain ⟨m, hm⟩ := Option.isSome_iff_exists.mp
    (by decide : (exec step (start 1) lockAfterRunning).isSome = true)
  have hend : (exec step (start 1) lockAfterRunning).map
      (fun m => (m.ops, m.mem.queue, lastLock 0 m.trace, wouldLock m.mem 0)) =
      some ([], [0], some false, true) := by decide
  have hok : execOk step (AtAccess NotStale) (start 1) lockAfterRunning := by decide
  rw [hm] at hend
  simp only [Option.map_some, Option.some.injEq, Prod.mk.injEq] at hend
  obtain ⟨hops, hqueue, hlast, hlock⟩ := hend
  exact ⟨m, hm, hlock, notifiedSince_of_wouldLock (reaches_of_exec hm hok) hops (by simp [hqueue])
    hlast hlock⟩

/-- Then a newcomer is about to hand its phantom reservation back, the notified handle fails to lock
for lack of that token, and the token comes back. -/
def staleFlag : List (Action Call Bool) :=
  lockAfterRunning ++ [.call (.trySubmit ⟨⟨3, 500⟩, 0, true⟩)] ++ accesses 3 ++
    [.call (.handleLock 0)] ++ accesses 6

/-- A stale flag costs the handle its wake-up. -/
theorem lost_wakeup_of_staleFlag :
    ¬ ∀ (c : ℕ) (m : Machine) (r : ℕ), 1 ≤ c → Reaches step Always (start c) m → m.ops = [] →
      r ∈ m.mem.queue → lastLock r m.trace = some false → wouldLock m.mem r = true →
      notifiedSince r m.trace = true := by
  intro h
  obtain ⟨m, hm⟩ := Option.isSome_iff_exists.mp
    (by decide : (exec step (start 1) staleFlag).isSome = true)
  have hend : (exec step (start 1) staleFlag).map (fun m =>
      (m.ops, m.mem.queue, lastLock 0 m.trace, wouldLock m.mem 0, notifiedSince 0 m.trace)) =
      some ([], [0], some false, true, false) := by decide
  rw [hm] at hend
  simp only [Option.map_some, Option.some.injEq, Prod.mk.injEq] at hend
  obtain ⟨hops, hqueue, hlast, hlock, hsince⟩ := hend
  have := h 1 m 0 le_rfl (reaches_always_of_exec hm) hops (by simp [hqueue]) hlast hlock
  rw [hsince] at this
  exact absurd this (by simp)

end Group

end Scheduler
end NUClear
