import NUClear.Scheduler.Group.Rank

/-!
# A group that is used through its slow path only

`Group::lock`, `GroupLock::lock` and `~GroupLock`, in any order, on a group whose fast path nobody
uses.  Then every token that is not free is that of a locked handle (`Slow.tokens`), so the three
loops over the queue compare the handles in front of one with what the locked ones leave.

`told` reads from the calls made so far whether a handle was notified since it was created or last
unable to lock.  It knows nothing of the flag.  The flag `notified` is that, as long as the handle
is not locked (`Slow.told`): `Group::lock` clears it for exactly the handles that it makes unable to
lock, and no other call makes one unable.

* `Slow`: the invariant of these runs; it adds the flags to what is known of every quiet group.
* `Slow.lock`, `Slow.handleLock`, `Slow.handleDestroy`: the three calls keep it.
* `Slow.sorted`, `Slow.lock_iff`, `Slow.notifies`: what it says about the order of the queue, about
  who locks and about who is notified, in numbers of handles (`unlockedUpTo`) instead of the
  counting of the loops.
* `exact_of_reaches`: all of it, after any sequence of calls.
-/

namespace NUClear
namespace Scheduler

open Foundation

namespace Group

variable {c : ℕ} {g g' : Group} {ev : List Event} {r x : ℕ}

/-! ## What the loops count, as numbers of handles -/

/-- The number of handles at or before `r` in the queue that are not locked. -/
def unlockedUpTo (g : Group) (r : ℕ) : ℕ :=
  (g.queue.take (g.queue.idxOf r + 1)).countP fun x => !(g.handles x).locked

theorem demand_eq_countP {h : ℕ → LockHandle} {q : List ℕ} (hr : r ∈ q) :
    demand h r q = ((q.take (q.idxOf r + 1)).countP fun x => !(h x).locked : ℕ) := by
  induction q with
  | nil => exact absurd hr List.not_mem_nil
  | cons x q ih =>
    have hweight : weight h x = if (!(h x).locked) = true then 1 else 0 := by
      rw [weight]
      cases (h x).locked <;> rfl
    rw [demand, List.take_succ_cons, List.countP_cons, Nat.cast_add, hweight,
      Nat.cast_ite, Nat.cast_one,
      Nat.cast_zero, add_comm]
    congr 1
    by_cases hx : x = r
    · rw [if_pos hx, hx, List.idxOf_cons_self, List.take_zero]
      rfl
    · have hmem : r ∈ q := (List.mem_cons.mp hr).resolve_left (Ne.symm hx)
      rw [if_neg hx, ih hmem, List.idxOf_cons_ne _ hx]

/-- The notification loop picks, in the order of the queue, the handles that can lock and have not
been told. -/
theorem toNotify_eq_filter {h : ℕ → LockHandle} {free : ℤ} {q : List ℕ} (hq : q.Nodup) :
    toNotify h free q =
      q.filter fun x => decide (demand h x q ≤ free) && !(h x).locked && !(h x).notified := by
  induction q generalizing free with
  | nil => rfl
  | cons r q ih =>
    obtain ⟨hr, hq⟩ := List.nodup_cons.mp hq
    have htail : (q.filter fun x => decide (demand h x (r :: q) ≤ free) && !(h x).locked &&
      !(h x).notified) =
        toNotify h (free - weight h r) q := by
      rw [ih hq]
      refine List.filter_congr fun x hx => ?_
      have hne : r ≠ x := fun heq => hr (heq ▸ hx)
      have hle : demand h x (r :: q) ≤ free ↔ demand h x q ≤ free - weight h r := by
        rw [demand, if_neg hne]
        omega
      rw [decide_eq_decide.mpr hle]
    have hself : demand h r (r :: q) = weight h r := by rw [demand, if_pos rfl, add_zero]
    rw [List.filter_cons, htail, hself, toNotify]
    cases hl : (h r).locked <;> cases hn : (h r).notified <;> simp

/-! ## Runs of the slow path -/

namespace SlowPath

/-- The group, and the calls made so far, the newest first: for each one the group before it, and
the events that it caused. -/
structure State where
  group : Group
  past : List (Group × List Event)

def start (c : ℕ) : State := ⟨make c, []⟩

/-- A call of the slow path. -/
def step (s : State) (call : Call) : Option State :=
  if call.isFast then none
  else (s.group.perform call).map fun r => ⟨r.1, (s.group, r.2) :: s.past⟩

end SlowPath

/-- The callback of the handle is invoked. -/
def Event.isNotify (r : ℕ) : Event → Bool
  | .notify r' _ => decide (r' = r)
  | _ => false

/-- The handle has been notified since its creation and since it was last unable to lock, as the
calls made so far tell. -/
def told (r : ℕ) : Group → List (Group × List Event) → Bool
  | _, [] => false
  | g, (before, events) :: past =>
      decide (r ∈ g.queue) && wouldLock g r && (events.any (Event.isNotify r) || told r before past)

namespace SlowPath

/-- What is exact about the slow path of a group of concurrency `c`. -/
structure Exact (c : ℕ) (s : State) : Prop where
  /-- A higher priority is first, then a lower task id. -/
  sorted : s.group.queue.Pairwise fun x y =>
    (s.group.handles y).priority < (s.group.handles x).priority ∨
      (s.group.handles x).priority = (s.group.handles y).priority ∧
        (s.group.handles x).taskId ≤ (s.group.handles y).taskId
  /-- `GroupLock::lock()`. -/
  lock_iff : ∀ r ∈ s.group.queue, (s.group.handleLock r).2 = true ↔
    (s.group.handles r).locked = true ∨ (s.group.unlockedUpTo r : ℤ) ≤ c - s.group.lockedCount
  locked_le : s.group.lockedCount ≤ c
  /-- `~GroupLock` invokes callbacks of the handles that remain, in the order of the queue. -/
  notifies : ∀ r ∈ s.group.queue, (s.group.handleDestroy r).2 =
    ((s.group.handleDestroy r).1.queue.filter fun x =>
      !((s.group.handleDestroy r).1.handles x).locked &&
        ((s.group.handleDestroy r).1.handleLock x).2 &&
        !told x s.group s.past).map fun x => .notify x (s.group.handles x).notify

/-- The invariant: the fast path is not in use, the queue is sorted, and the flag of a handle that
is not locked says what the calls made so far tell. -/
structure Slow (c : ℕ) (s : State) : Prop where
  quiet : Quiet c s.group
  flags : FlagsExact s.group
  ranked : Ranked s.group
  parked : s.group.parked = []
  running : s.group.running = 0
  told : ∀ x ∈ s.group.queue, (s.group.handles x).locked = false →
    (s.group.handles x).notified = told x s.group s.past

variable {s s' : State}

theorem slow_start (c : ℕ) : Slow c (start c) where
  quiet := quiet_make c
  flags := fun _ hr => absurd hr List.not_mem_nil
  ranked := ranked_make c
  parked := Buckets.contents_empty
  running := rfl
  told := fun _ hx => absurd hx List.not_mem_nil

/-- A token that is not free is that of a locked handle. -/
theorem Slow.tokens (h : Slow c s) : s.group.tokens = c - s.group.lockedCount := by
  have hb := h.quiet.tokens
  have hparked := parkedHeld_of_parked_nil h.parked
  have hrunning := h.running
  omega

end SlowPath

/-! ## What the calls do to the flags -/

/-- `Group::lock` keeps the flag of a handle that can still lock, and clears it of one that
cannot. -/
theorem notified_lock {a : LockArgs} (hc : Quiet c g) (hx : x ∈ g.queue)
    (hl : (g.handles x).locked = false) :
    ((g.lock a).handles x).notified = ((g.handles x).notified && wouldLock (g.lock a) x) := by
  have hne : x ≠ g.nextHandle := fun heq => hc.notMem_nextHandle (heq ▸ hx)
  have hmem : x ∈ (g.lock a).queue := mem_lock_queue.mpr (.inr hx)
  have hnd : (g.lock a).queue.Nodup := nodup_insertHandle hc.notMem_nextHandle hc.nodup
  have hlocked : ((g.lock a).handles x).locked = false := by
    rw [lock_handles_eq, lockHandles_of_ne g a hne, hl]
  have hreset : x ∉ toReset (g.lockHandles a) g.tokens (g.lock a).queue ↔
    wouldLock (g.lock a) x = true := by
    rw [mem_toReset_iff hnd, wouldLock_iff hmem hlocked, demand_lock_handles, lock_tokens, ← not_lt]
    exact not_congr (and_iff_right hmem)
  have hdec : decide (x ∉ toReset (g.lockHandles a) g.tokens (g.lock a).queue) =
    wouldLock (g.lock a) x := by
    rw [Bool.eq_iff_iff, decide_eq_true_eq, hreset]
  rw [lock_handles_eq, lockHandles_of_ne g a hne, hdec]

theorem handleLock_handles_of_ne (hne : x ≠ r) : (g.handleLock r).1.handles x = g.handles x := by
  rw [handleLock]
  split_ifs
  · rfl
  · exact Function.update_of_ne hne _ _
  · rfl

@[simp] theorem handleLock_waitBuckets (g : Group) (r : ℕ) :
    (g.handleLock r).1.waitBuckets = g.waitBuckets := by
  rw [handleLock]
  split_ifs <;> rfl

@[simp] theorem handleLock_running (g : Group) (r : ℕ) :
    (g.handleLock r).1.running = g.running := by
  rw [handleLock]
  split_ifs <;> rfl

/-- Without parked tasks `~GroupLock` does no more than leave the queue and invoke callbacks. -/
theorem handleDestroy_of_parked_nil (hp : g.parked = []) (r : ℕ) :
    g.handleDestroy r = ((g.leaveQueue r).2, (g.leaveQueue r).2.notifyAll (g.leaveQueue r).1) := by
  have hleave : (g.leaveQueue r).2.parked = [] :=
    (congrArg Buckets.contents (leaveQueue_waitBuckets r)).trans hp
  obtain ⟨-, -, heq⟩ | ⟨-, heq⟩ := handleDestroy_cases (g := g) r
  · rw [heq, drain_of_parked_nil hleave, List.append_nil]
  · exact heq

/-- The handles that `~GroupLock` notifies: those that remain, are not locked, can lock now and have
a flag that is clear. -/
theorem leaveQueue_fst (hq : g.queue.Nodup) (r : ℕ) : (g.leaveQueue r).1 =
    (g.leaveQueue r).2.queue.filter fun x =>
      !((g.leaveQueue r).2.handles x).locked && wouldLock (g.leaveQueue r).2 x &&
        !(g.handles x).notified := by
  have hlocked (x : ℕ) : ((g.leaveQueue r).2.handles x).locked =
    ((g.unlockSection r).handles x).locked :=
    setNotified_locked _ _ _ _
  have hdemand (x : ℕ) (q : List ℕ) :
      demand (g.leaveQueue r).2.handles x q = demand (g.unlockSection r).handles x q :=
    demand_congr fun y _ => hlocked y
  have hfst : (g.leaveQueue r).1 = toNotify (g.unlockSection r).handles (g.leaveQueue r).2.tokens
      (g.leaveQueue r).2.queue := rfl
  rw [hfst, toNotify_eq_filter (by rw [leaveQueue_queue]; exact hq.erase r)]
  refine List.filter_congr fun x hx => ?_
  have hne : x ≠ r := by
    rw [leaveQueue_queue, hq.mem_erase_iff] at hx
    exact hx.1
  have hsame : (g.unlockSection r).handles x = g.handles x := unlockSection_handles_of_ne hne
  cases hl : ((g.leaveQueue r).2.handles x).locked with
  | true =>
    rw [← hlocked x, hl, Bool.not_true, Bool.and_false, Bool.false_and, Bool.false_and,
    Bool.false_and]
  | false =>
    have hiff := wouldLock_iff hx hl
    rw [hdemand] at hiff
    have hdec : decide (demand (g.unlockSection r).handles x (g.leaveQueue r).2.queue ≤
        (g.leaveQueue r).2.tokens) = wouldLock (g.leaveQueue r).2 x := by
      rw [Bool.eq_iff_iff, decide_eq_true_eq, hiff]
    rw [hdec, ← hlocked x, hl, hsame, Bool.not_false, Bool.and_true, Bool.true_and]

theorem leaveQueue_notified (hne : x ≠ r) : ((g.leaveQueue r).2.handles x).notified =
    ((g.handles x).notified || decide (x ∈ (g.leaveQueue r).1)) := by
  have hsame : (g.unlockSection r).handles x = g.handles x := unlockSection_handles_of_ne hne
  change (if x ∈ (g.leaveQueue r).1 then { (g.unlockSection r).handles x with notified := true }
    else (g.unlockSection r).handles x).notified = _
  rw [hsame]
  split_ifs with hx <;> simp [hx]

theorem leaveQueue_locked (hne : x ≠ r) :
    ((g.leaveQueue r).2.handles x).locked = (g.handles x).locked := by
  have hsame : (g.unlockSection r).handles x = g.handles x := unlockSection_handles_of_ne hne
  rw [← hsame]
  exact setNotified_locked _ _ _ _

theorem leaveQueue_notify (hne : x ≠ r) :
    ((g.leaveQueue r).2.handles x).notify = (g.handles x).notify := by
  have hsame : (g.unlockSection r).handles x = g.handles x := unlockSection_handles_of_ne hne
  rw [← hsame]
  exact setNotified_notify _ _ _

/-- The callbacks that are invoked for some handles. -/
theorem any_isNotify_notifyAll {rs : List ℕ} :
    (g.notifyAll rs).any (Event.isNotify x) = decide (x ∈ rs) := by
  rw [Bool.eq_iff_iff, decide_eq_true_eq, List.any_eq_true]
  constructor
  · rintro ⟨e, he, hx⟩
    obtain ⟨y, hy, rfl⟩ := mem_notifyAll he
    exact of_decide_eq_true hx ▸ hy
  · exact fun hx => ⟨_, List.mem_map.mpr ⟨x, hx, rfl⟩, decide_eq_true rfl⟩

namespace SlowPath

variable {s s' : State} {call : Call}

/-- A step is one of the three calls. -/
theorem step_cases (h : step s call = some s') :
    (∃ a, call = .lock a ∧ s' = ⟨s.group.lock a, (s.group, []) :: s.past⟩) ∨
    (∃ r ∈ s.group.queue, call = .handleLock r ∧
      s' = ⟨(s.group.handleLock r).1, (s.group, [.lockReturned r (s.group.handleLock r).2]) ::
        s.past⟩) ∨
    ∃ r ∈ s.group.queue, call = .handleDestroy r ∧
      s' = ⟨(s.group.handleDestroy r).1, (s.group, (s.group.handleDestroy r).2) :: s.past⟩ := by
  cases call with
  | tryAcquireRunningLock | trySubmit w | runningDestroy =>
    exact absurd h (by simp [step, Call.isFast])
  | lock a => exact .inl ⟨a, rfl, (Option.some.inj h).symm⟩
  | handleLock r =>
    by_cases hr : r ∈ s.group.queue
    · simp only [step, Call.isFast, perform, if_pos hr] at h
      exact .inr (.inl ⟨r, hr, rfl, (Option.some.inj h).symm⟩)
    · simp [step, Call.isFast, perform, hr] at h
  | handleDestroy r =>
    by_cases hr : r ∈ s.group.queue
    · simp only [step, Call.isFast, perform, if_pos hr] at h
      exact .inr (.inr ⟨r, hr, rfl, (Option.some.inj h).symm⟩)
    · simp [step, Call.isFast, perform, hr] at h

theorem told_cons {before : Group} {past : List (Group × List Event)} (hx : x ∈ g.queue) :
    told x g ((before, ev) :: past) =
      (wouldLock g x && (ev.any (Event.isNotify x) || told x before past)) := by
  rw [told, decide_eq_true hx, Bool.true_and]

/-- A handle that is made now has not been told. -/
theorem told_eq_false_of_notMem {past : List (Group × List Event)} (hx : x ∉ g.queue) :
    told x g past = false := by
  cases past with
  | nil => rfl
  | cons e past => rw [told, decide_eq_false hx, Bool.false_and, Bool.false_and]

theorem Slow.lock (h : Slow c s) (a : LockArgs) (hs : step s (.lock a) = some s') : Slow c s' := by
  have hp : s.group.perform (.lock a) = some (s.group.lock a, []) := rfl
  obtain rfl := Option.some.inj hs
  refine ⟨quiet_perform h.quiet hp, h.flags.perform h.quiet hp, h.ranked.perform h.quiet hp,
    h.parked, h.running,
    fun x hx hl => ?_⟩
  rw [told_cons hx, List.any_nil, Bool.false_or]
  obtain rfl | hmem := mem_lock_queue.mp hx
  · rw [told_eq_false_of_notMem h.quiet.notMem_nextHandle, Bool.and_false, lock_handles_self]
  · have hne : x ≠ s.group.nextHandle := fun heq => h.quiet.notMem_nextHandle (heq ▸ hmem)
    have hlocked : (s.group.handles x).locked = false := by
      rwa [lock_handles_eq, lockHandles_of_ne _ a hne] at hl
    rw [notified_lock h.quiet hmem hlocked, h.told x hmem hlocked, Bool.and_comm]

theorem Slow.handleLock (h : Slow c s) (hr : r ∈ s.group.queue) :
    Slow c ⟨(s.group.handleLock r).1, (s.group, [.lockReturned r (s.group.handleLock r).2]) ::
      s.past⟩ := by
  have hp : s.group.perform (.handleLock r) =
      some ((s.group.handleLock r).1, [.lockReturned r (s.group.handleLock r).2]) := if_pos hr
  have hflags := h.flags.perform h.quiet hp
  refine ⟨quiet_perform h.quiet hp, hflags, h.ranked.perform h.quiet hp, ?_, ?_, fun x hx hl => ?_⟩
  · rw [Group.parked, handleLock_waitBuckets]
    exact h.parked
  · rw [handleLock_running]
    exact h.running
  · -- the flag is as before, and a handle whose flag is set can still lock
    have hmem : x ∈ s.group.queue := by rwa [handleLock_queue] at hx
    have hsame : ((s.group.handleLock r).1.handles x).notified = (s.group.handles x).notified ∧
        (s.group.handles x).locked = false := by
      by_cases hne : x = r
      · subst hne
        obtain ⟨-, hlocked, hres, -, -, -, hnotified, hself⟩ := handleLock_self hr
        refine ⟨hnotified, ?_⟩
        by_contra hlock
        rw [hlocked, hres, wouldLock_of_locked (by simpa using hlock)] at hl
        exact Bool.noConfusion hl
      · rw [handleLock_handles_of_ne hne] at hl ⊢
        exact ⟨rfl, hl⟩
    rw [told_cons hx, ← h.told x hmem hsame.2, ← hsame.1]
    cases hn : ((s.group.handleLock r).1.handles x).notified with
    | false => simp [Event.isNotify]
    | true => simp [hflags x hx hn]

theorem Slow.handleDestroy (h : Slow c s) (hr : r ∈ s.group.queue) :
    Slow c ⟨(s.group.handleDestroy r).1, (s.group, (s.group.handleDestroy r).2) :: s.past⟩ := by
  have hp : s.group.perform (.handleDestroy r) =
      some ((s.group.handleDestroy r).1, (s.group.handleDestroy r).2) := if_pos hr
  have hflags := h.flags.perform h.quiet hp
  have heq := handleDestroy_of_parked_nil h.parked r
  refine ⟨quiet_perform h.quiet hp, hflags, h.ranked.perform h.quiet hp, ?_, ?_, fun x hx hl => ?_⟩
  · show (s.group.handleDestroy r).1.parked = []
    rw [heq, Group.parked, leaveQueue_waitBuckets]
    exact h.parked
  · show (s.group.handleDestroy r).1.running = 0
    rw [heq, leaveQueue_running]
    exact h.running
  · have hmem := hx
    rw [handleDestroy_queue, h.quiet.nodup.mem_erase_iff] at hmem
    rw [told_cons hx]
    rw [heq] at hflags hx hl ⊢
    rw [leaveQueue_locked hmem.1] at hl
    have hnotified := leaveQueue_notified (g := s.group) hmem.1
    rw [any_isNotify_notifyAll, ← h.told x hmem.2 hl, Bool.or_comm, ← hnotified]
    cases hn : ((s.group.leaveQueue r).2.handles x).notified with
    | false => rw [Bool.and_false]
    | true => rw [hflags x hx hn, Bool.and_self]

theorem Slow.step (h : Slow c s) (hs : step s call = some s') : Slow c s' := by
  obtain ⟨a, rfl, -⟩ | ⟨r, hr, rfl, rfl⟩ | ⟨r, hr, rfl, rfl⟩ := step_cases hs
  · exact h.lock a hs
  · exact h.handleLock hr
  · exact h.handleDestroy hr

/-! ## What the invariant says -/

theorem Slow.sorted (h : Slow c s) : s.group.queue.Pairwise fun x y =>
    (s.group.handles y).priority < (s.group.handles x).priority ∨
      (s.group.handles x).priority = (s.group.handles y).priority ∧
        (s.group.handles x).taskId ≤ (s.group.handles y).taskId := by
  refine h.ranked.imp fun {x y} hle => ?_
  rw [RankLe, LockHandle.rank, LockHandle.rank, Prod.Lex.toLex_le_toLex] at hle
  obtain hlt | ⟨heq, hid⟩ := hle
  · exact .inl (neg_lt_neg_iff.mp hlt)
  · exact .inr ⟨neg_injective heq, hid⟩

theorem Slow.lock_iff (h : Slow c s) (hr : r ∈ s.group.queue) : (s.group.handleLock r).2 = true ↔
    (s.group.handles r).locked = true ∨ (s.group.unlockedUpTo r : ℤ) ≤ c - s.group.lockedCount := by
  obtain ⟨-, -, hres, -⟩ := handleLock_self hr
  rw [hres]
  cases hl : (s.group.handles r).locked with
  | true => simp [wouldLock_of_locked hl]
  | false =>
    rw [wouldLock_iff hr hl, demand_eq_countP hr, h.tokens]
    simp [unlockedUpTo]

/-- The tokens are never negative: `GroupLock::lock` takes one only when it counts one. -/
theorem tokens_nonneg_of_step (h : Slow c s) (ht : 0 ≤ s.group.tokens)
    (hs : step s call = some s') :
    0 ≤ s'.group.tokens := by
  obtain ⟨a, -, rfl⟩ | ⟨r, hr, -, rfl⟩ | ⟨r, hr, -, rfl⟩ := step_cases hs
  · exact ht
  · show 0 ≤ (s.group.handleLock r).1.tokens
    rw [handleLock]
    split_ifs with hl hw
    · exact ht
    · have hone := one_le_demand hr (Bool.eq_false_iff.mpr hl)
      have hle := (lockWalk_eq_true_iff.mp hw).2
      show 0 ≤ s.group.tokens - 1
      omega
    · exact ht
  · have htokens := leaveQueue_tokens (g := s.group) r
    show 0 ≤ (s.group.handleDestroy r).1.tokens
    rw [handleDestroy_of_parked_nil h.parked, htokens]
    split_ifs <;> omega

theorem Slow.notifies (h : Slow c s) (r : ℕ) : (s.group.handleDestroy r).2 =
    ((s.group.handleDestroy r).1.queue.filter fun x =>
      !((s.group.handleDestroy r).1.handles x).locked &&
        ((s.group.handleDestroy r).1.handleLock x).2 &&
        !Group.told x s.group s.past).map fun x => .notify x (s.group.handles x).notify := by
  rw [handleDestroy_of_parked_nil h.parked]
  have hfilter : (s.group.leaveQueue r).1 = (s.group.leaveQueue r).2.queue.filter fun x =>
      !((s.group.leaveQueue r).2.handles x).locked && ((s.group.leaveQueue r).2.handleLock x).2 &&
        !Group.told x s.group s.past := by
    rw [leaveQueue_fst h.quiet.nodup]
    refine List.filter_congr fun x hx => ?_
    have hmem := hx
    rw [leaveQueue_queue, h.quiet.nodup.mem_erase_iff] at hmem
    obtain ⟨-, -, hres, -⟩ := handleLock_self hx
    rw [hres]
    cases hl : ((s.group.leaveQueue r).2.handles x).locked with
    | true => rw [Bool.not_true, Bool.false_and, Bool.false_and, Bool.false_and]
    | false =>
      rw [leaveQueue_locked hmem.1] at hl
      rw [h.told x hmem.2 hl]
  show notifyAll _ _ = _
  rw [notifyAll, ← hfilter]
  refine List.map_congr_left fun x hx => ?_
  have hne : x ≠ r := by
    rw [hfilter, List.mem_filter, leaveQueue_queue, h.quiet.nodup.mem_erase_iff] at hx
    exact hx.1.1
  rw [leaveQueue_notify hne]

/-- **The slow path is exact.**  After any sequence of `Group::lock`, `GroupLock::lock` and
`~GroupLock`. -/
theorem exact_of_reaches (h : Reaches step Always (start c) s) : Exact c s := by
  obtain ⟨hslow, htokens⟩ : Slow c s ∧ 0 ≤ s.group.tokens :=
    h.invariant (P := fun s => Slow c s ∧ 0 ≤ s.group.tokens) ⟨slow_start c, Int.natCast_nonneg c⟩
      fun _ _ _ hx _ hst => ⟨hx.1.step hst, tokens_nonneg_of_step hx.1 hx.2 hst⟩
  have hcount := hslow.tokens
  exact ⟨hslow.sorted, fun r hr => hslow.lock_iff hr, by omega, fun r _ => hslow.notifies r⟩

/-- Three handles of a group of concurrency 1.  The destruction of the first notifies the second,
which is then overtaken by a third one of a higher priority: when that is destroyed, the second is
notified again. -/
theorem exact_of_reaches_overtaken : ∃ s, Reaches step Always (start 1) s ∧
    told 1 s.group s.past = false ∧ (s.group.handleDestroy 2).2 = [.notify 1 8] := by
  have hrun : (exec step (start 1) [.lock ⟨1, 0, 7⟩, .lock ⟨2, 0, 8⟩, .handleLock 0,
    .handleDestroy 0,
      .lock ⟨3, 5, 9⟩, .handleLock 2]).any (fun s => decide (2 ∈ s.group.queue ∧
        (s.group.handleDestroy 2).1.queue = [1] ∧ told 1 s.group s.past = false ∧
        ((s.group.handleDestroy 2).1.handles 1).locked = false ∧ (s.group.handles 1).notify = 8 ∧
        ((s.group.handleDestroy 2).1.handleLock 1).2 = true)) = true := by decide +kernel
  obtain ⟨s, hs, hfacts⟩ := (Option.any_eq_true _ _).mp hrun
  obtain ⟨hmem, hqueue, htold, hl, hnotify, hlock⟩ := of_decide_eq_true hfacts
  have hreach : Reaches step Always (start 1) s := reaches_always_of_exec hs
  refine ⟨s, hreach, htold, ?_⟩
  rw [(exact_of_reaches hreach).notifies 2 hmem, hqueue]
  simp [hl, hlock, htold, hnotify]

end SlowPath

end Group

end Scheduler
end NUClear
