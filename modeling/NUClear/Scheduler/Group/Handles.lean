import NUClear.Scheduler.Group.Sequential

/-!
# What a call does to the other handles

For the tasks that wait for several groups only the slow path of a group matters: which handles are
in its queue, which of them are locked, and which would lock (`wouldLock`).

`Kept` says what a call leaves of a handle that it is not about.  The handle stays, and if it would
have locked, it still would.  If it would lock now and did not before, its callback has been
invoked, unless its flag was set already.

* `kept_of_fast`: every call of the fast path, of a calm group.  It takes a token only when no
  handle is pending, and gives one back to the handles when some are.
* `kept_of_handleLock`: locking a handle takes one token and one unlocked handle away, so the others
  compare the same numbers as before.
* `kept_of_handleDestroy`: a locked handle that goes gives its token back, an unlocked one its
  place; both end with the notification loop.
* `wouldLock_of_lock`: `Group::lock` is the exception.  A new handle may come before others, and
  then these would lock no more; it clears their flags.

`FlagsExact` is the consequence for the flags when calls come one after the other: a handle that was
notified and has not locked would lock.
-/

namespace NUClear
namespace Scheduler

open Foundation

namespace Group

variable {c : ℕ} {g g' : Group} {ev : List Event} {r : ℕ}

/-- What a call leaves of a handle that it is not about: its place, its lock and what it was made
with, whether it would lock, and its flag. -/
structure Kept (g g' : Group) (ev : List Event) (r : ℕ) : Prop where
  queue : r ∈ g'.queue
  locked : (g'.handles r).locked = (g.handles r).locked
  taskId : (g'.handles r).taskId = (g.handles r).taskId
  priority : (g'.handles r).priority = (g.handles r).priority
  notify : (g'.handles r).notify = (g.handles r).notify
  keeps : wouldLock g r = true → wouldLock g' r = true
  tells : wouldLock g r = false → wouldLock g' r = true → (g.handles r).notified = false →
    .notify r (g.handles r).notify ∈ ev
  flag : (g'.handles r).notified = true → (g.handles r).notified = true ∨ wouldLock g' r = true

/-- With the same queue and handles, and tokens that are the same or not there, nothing changes. -/
theorem Kept.of_same (hr : r ∈ g.queue) (hq : g'.queue = g.queue) (hh : g'.handles = g.handles)
    (ht : g'.tokens = g.tokens ∨ g.tokens ≤ 0 ∧ g'.tokens ≤ 0) : Kept g g' ev r := by
  have hsame : wouldLock g' r = wouldLock g r := by
    cases hl : (g.handles r).locked with
    | true => rw [wouldLock_of_locked hl, wouldLock_of_locked (hh ▸ hl)]
    | false =>
      have hone := one_le_demand hr hl
      rw [Bool.eq_iff_iff, wouldLock_iff hr hl, wouldLock_iff (hq ▸ hr) (hh ▸ hl), hq, hh]
      omega
  refine ⟨hq ▸ hr, by rw [hh], by rw [hh], by rw [hh], by rw [hh], fun h => hsame ▸ h, ?_, ?_⟩
  · intro h₁ h₂
    rw [hsame, h₁] at h₂
    exact absurd h₂ (by simp)
  · exact fun h => Or.inl (hh ▸ h)

theorem Kept.refl (hr : r ∈ g.queue) : Kept g g ev r := Kept.of_same hr rfl rfl (Or.inl rfl)

/-- One call after the other: what both keep is kept. -/
theorem Kept.trans {g'' : Group} {ev' : List Event} (hk : Kept g g' ev r)
    (hk' : Kept g' g'' ev' r) : Kept g g'' (ev ++ ev') r := by
  refine ⟨hk'.queue, hk'.locked.trans hk.locked, hk'.taskId.trans hk.taskId,
    hk'.priority.trans hk.priority, hk'.notify.trans hk.notify,
    fun hw => hk'.keeps (hk.keeps hw), fun hno hw hn => ?_, fun hn => ?_⟩
  · cases hmid : wouldLock g' r with
    | true => exact List.mem_append_left _ (hk.tells hno hmid hn)
    | false =>
      have hflag : (g'.handles r).notified = false := by
        by_contra hset
        rcases hk.flag (by simpa using hset) with h | h
        · exact absurd (hn.symm.trans h) (by simp)
        · exact absurd (hmid.symm.trans h) (by simp)
      rw [← hk.notify]
      exact List.mem_append_right _ (hk'.tells hmid hw hflag)
  · rcases hk'.flag hn with h | h
    · exact (hk.flag h).imp id hk'.keeps
    · exact Or.inr h

@[simp] theorem setNotified_taskId (rs : List ℕ) (b : Bool) (r : ℕ) :
    ((g.setNotified rs b).handles r).taskId = (g.handles r).taskId := by
  simp only [setNotified]
  split_ifs <;> rfl

@[simp] theorem setNotified_priority (rs : List ℕ) (b : Bool) (r : ℕ) :
    ((g.setNotified rs b).handles r).priority = (g.handles r).priority := by
  simp only [setNotified]
  split_ifs <;> rfl

@[simp] theorem setNotified_notify (rs : List ℕ) (b : Bool) (r : ℕ) :
    ((g.setNotified rs b).handles r).notify = (g.handles r).notify := by
  simp only [setNotified]
  split_ifs <;> rfl

@[simp] theorem wouldLock_setNotified (rs : List ℕ) (b : Bool) (r : ℕ) :
    wouldLock (g.setNotified rs b) r = wouldLock g r := by
  rw [Bool.eq_iff_iff, wouldLock, wouldLock, setNotified_locked, Bool.or_eq_true, Bool.or_eq_true,
    lockWalk_eq_true_iff, lockWalk_eq_true_iff, setNotified_queue, setNotified_tokens,
    demand_congr fun x _ => setNotified_locked g rs b x]

/-- The notification loop tells every handle that would lock. -/
theorem mem_notifySlowPath (hq : g.queue.Nodup) (hr : r ∈ g.queue)
    (hl : (g.handles r).locked = false) (hn : (g.handles r).notified = false)
    (hw : wouldLock g r = true) : .notify r (g.handles r).notify ∈ g.notifySlowPath.2 := by
  have hm : r ∈ toNotify g.handles g.tokens g.queue :=
    (mem_toNotify_iff hq).mpr ⟨hr, (wouldLock_iff hr hl).mp hw, hl, hn⟩
  have hnotify : (g.notifyLoop.2.handles r).notify = (g.handles r).notify :=
    setNotified_notify _ _ r
  rw [← hnotify]
  exact List.mem_map.mpr ⟨r, hm, rfl⟩

/-- More tokens, and the notification loop over the handles that they are for. -/
theorem Kept.of_notify (g₁ : Group) (hnd : g.queue.Nodup) (hr : r ∈ g.queue)
    (hq : g₁.queue = g.queue) (hh : g₁.handles = g.handles) (ht : g.tokens ≤ g₁.tokens)
    (hev : ∀ e ∈ g₁.notifySlowPath.2, e ∈ ev) : Kept g g₁.notifySlowPath.1 ev r := by
  have hgrow : wouldLock g r = true → wouldLock g₁ r = true := by
    intro hw
    cases hl : (g.handles r).locked with
    | true => exact wouldLock_of_locked (hh ▸ hl)
    | false =>
      rw [wouldLock_iff hr hl] at hw
      rw [wouldLock_iff (hq ▸ hr) (hh ▸ hl), hq, hh]
      omega
  rw [notifySlowPath_fst, notifyLoop_snd]
  refine ⟨hq ▸ hr, by rw [setNotified_locked, hh], by rw [setNotified_taskId, hh],
    by rw [setNotified_priority, hh], by rw [setNotified_notify, hh], ?_, ?_, ?_⟩
  · rw [wouldLock_setNotified]
    exact hgrow
  · rw [wouldLock_setNotified]
    intro hno hw hn
    have hl : (g.handles r).locked = false := by
      by_contra hl
      rw [wouldLock_of_locked (by simpa using hl)] at hno
      exact absurd hno (by simp)
    rw [← hh] at hl hn ⊢
    exact hev _ (mem_notifySlowPath (hq ▸ hnd) (hq ▸ hr) hl hn hw)
  · rw [wouldLock_setNotified]
    intro hn
    by_cases hm : r ∈ toNotify g₁.handles g₁.tokens g₁.queue
    · obtain ⟨hr₁, hd, hl, -⟩ := (mem_toNotify_iff (hq ▸ hnd)).mp hm
      exact Or.inr ((wouldLock_iff hr₁ hl).mpr hd)
    · simp only [setNotified, if_neg hm] at hn
      exact Or.inl (hh ▸ hn)

/-! ## The fast path -/

/-- The calls of the fast path, which make no handle and end none. -/
def Call.isFast : Call → Bool
  | .tryAcquireRunningLock => true
  | .trySubmit _ => true
  | .runningDestroy => true
  | _ => false

/-- **The fast path keeps every handle**, and tells the ones that it lets lock. -/
theorem kept_of_fast (call : Call) (hc : Quiet c g) (hf : call.isFast = true)
    (hp : g.perform call = some (g', ev)) (hr : r ∈ g.queue) : Kept g g' ev r := by
  have hpos := hc.slowPending_pos hr
  cases call with
  | tryAcquireRunningLock =>
    obtain ⟨rfl, rfl⟩ := perform_tryAcquireRunningLock hp
    rcases hc.tryAcquire_cases with ⟨hnil, -, -⟩ | heq
    · rw [hnil] at hr
      exact absurd hr (List.not_mem_nil)
    · rw [heq]
      exact Kept.of_same hr rfl rfl (Or.inl rfl)
  | trySubmit w =>
    replace hp := perform_trySubmit hp
    rcases hc.trySubmit_cases w with ⟨hnil, -, -⟩ | ⟨-, -, heq⟩ | ⟨ht, heq⟩
    · rw [hnil] at hr
      exact absurd hr (List.not_mem_nil)
    · rw [heq, Prod.mk.injEq] at hp
      obtain ⟨rfl, rfl⟩ := hp
      exact Kept.of_notify _ hc.nodup hr rfl rfl le_rfl fun e he => List.mem_cons_of_mem _ he
    · rw [heq, Prod.mk.injEq] at hp
      obtain ⟨rfl, rfl⟩ := hp
      exact Kept.of_same hr rfl rfl (Or.inr ⟨ht, show g.tokens - 1 ≤ 0 by omega⟩)
  | runningDestroy =>
    obtain ⟨-, hp⟩ := perform_runningDestroy hp
    rcases releaseToken_cases { g with running := g.running - 1 } with
      ⟨hpk, ht | hs, heq⟩ | ⟨-, ht | hs, heq⟩ | ⟨-, -, heq⟩ <;> rw [← runningDestroy, hp] at heq
    · have hcnt := drain_counts (g := { g with running := g.running - 1, tokens := g.tokens + 1 })
        hpk
      have hq := drain_queue { g with running := g.running - 1, tokens := g.tokens + 1 }
      have hh := drain_handles { g with running := g.running - 1, tokens := g.tokens + 1 }
      have hneg : g.tokens < 0 := ht
      rw [← heq] at hcnt hq hh
      simp only at hcnt
      exact Kept.of_same hr hq hh (Or.inr ⟨hneg.le, by omega⟩)
    · exact absurd hpos (not_lt.mpr hs)
    · simp only [Prod.mk.injEq] at heq
      rw [heq.1]
      exact Kept.of_same hr rfl rfl (Or.inr ⟨le_of_lt ht, show g.tokens + 1 ≤ 0 from ht⟩)
    · exact absurd hpos (not_lt.mpr hs)
    · obtain ⟨rfl, rfl⟩ := Prod.mk.injEq .. ▸ heq
      exact Kept.of_notify _ hc.nodup hr rfl rfl (show g.tokens ≤ g.tokens + 1 by omega)
        fun e he => he
  | lock a | handleLock r | handleDestroy r => exact absurd hf (by simp [Call.isFast])

/-! ## The slow path -/

/-- How two unlocked handles count for each other: locking one frees the count of the later ones,
and the later one counts all that the earlier one does, and itself. -/
theorem demand_lock {h : ℕ → LockHandle} {s r : ℕ} {l : LockHandle} {q : List ℕ} (hq : q.Nodup)
    (hs : s ∈ q) (hr : r ∈ q) (hne : s ≠ r) (hsl : (h s).locked = false)
    (hrl : (h r).locked = false) (hl : l.locked = true) :
    demand (Function.update h r l) s q = demand h s q - 1 ∨
      demand (Function.update h r l) s q = demand h s q ∧ demand h s q + 1 ≤ demand h r q := by
  induction q with
  | nil => exact absurd hs (List.not_mem_nil)
  | cons x q ih =>
    obtain ⟨hx, hq⟩ := List.nodup_cons.mp hq
    have hrest : ∀ y, x ∉ q → demand (Function.update h x l) y q = demand h y q := fun y hx =>
      demand_congr fun z hz => by
        rw [Function.update_of_ne]
        rintro rfl
        exact hx hz
    by_cases hxr : x = r
    · subst hxr
      left
      rw [demand, demand, if_neg (Ne.symm hne), if_neg (Ne.symm hne), hrest s hx,
        weight_of_not_locked hrl, weight_of_locked (by rw [Function.update_self, hl])]
      omega
    · have hw : weight (Function.update h r l) x = weight h x := by
        rw [weight, weight, Function.update_of_ne hxr]
      have hr' : r ∈ q := (List.mem_cons.mp hr).resolve_left (Ne.symm hxr)
      rw [demand, demand, demand, hw, if_neg hxr]
      by_cases hxs : x = s
      · subst hxs
        have := one_le_demand hr' hrl
        rw [if_pos rfl, if_pos rfl, weight_of_not_locked hsl]
        right
        omega
      · rw [if_neg hxs, if_neg hxs]
        rcases ih hq ((List.mem_cons.mp hs).resolve_left (Ne.symm hxs)) hr' with h | h
        · left
          omega
        · right
          omega

/-- Taking one handle out of the queue leaves at most what was counted. -/
theorem demand_erase_le {h : ℕ → LockHandle} {s r : ℕ} {q : List ℕ} (hne : s ≠ r) :
    demand h s (q.erase r) ≤ demand h s q := by
  induction q with
  | nil => exact le_rfl
  | cons x q ih =>
    by_cases hxr : x = r
    · subst hxr
      have := @weight_nonneg h x
      rw [List.erase_cons_head, demand, if_neg (Ne.symm hne)]
      omega
    · rw [List.erase_cons_tail (by simpa using hxr), demand, demand]
      split_ifs <;> omega

/-- **`GroupLock::lock` keeps the other handles**, and lets none of them lock. -/
theorem kept_of_handleLock {s : ℕ} (ev : List Event) (hc : Quiet c g) (hs : s ∈ g.queue)
    (hr : r ∈ g.queue) (hne : s ≠ r) : Kept g (g.handleLock r).1 ev s := by
  rw [handleLock]
  cases hl : (g.handles r).locked with
  | true =>
    simp only [if_true]
    exact Kept.of_same hs rfl rfl (Or.inl rfl)
  | false =>
    by_cases hw : lockWalk g.handles r g.tokens g.queue = true
    · simp only [hw, if_true, if_false, Bool.false_eq_true]
      have hd := (lockWalk_eq_true_iff.mp hw).2
      set g' : Group := { g.setHandle r (fun h => { h with locked := true }) with
        tokens := g.tokens - 1 } with hg'
      have hh : g'.handles = Function.update g.handles r { g.handles r with locked := true } := rfl
      have hsame : g'.handles s = g.handles s := by rw [hh, Function.update_of_ne hne]
      have hiff : wouldLock g' s = wouldLock g s := by
        cases hsl : (g.handles s).locked with
        | true => rw [wouldLock_of_locked hsl, wouldLock_of_locked (by rw [hsame, hsl])]
        | false =>
          have hcnt := demand_lock (l := { g.handles r with locked := true }) hc.nodup hs hr hne hsl
            hl rfl
          have ht : g'.tokens = g.tokens - 1 := rfl
          have hq : g'.queue = g.queue := rfl
          rw [Bool.eq_iff_iff, wouldLock_iff hs hsl,
            wouldLock_iff (g := g') hs (by rw [hsame, hsl]),
            hh, ht, hq]
          omega
      refine ⟨hs, by rw [hsame], by rw [hsame], by rw [hsame], by rw [hsame], fun h => hiff ▸ h, ?_,
        fun h => Or.inl (by rwa [hsame] at h)⟩
      intro h₁ h₂
      rw [hiff, h₁] at h₂
      exact absurd h₂ (by simp)
    · simp only [hw, if_false, Bool.false_eq_true]
      exact Kept.of_same hs rfl rfl (Or.inl rfl)

/-- A handle that `lock()` returned `true` for is locked, and one that it returned `false` for would
still not lock. -/
theorem handleLock_self (hr : r ∈ g.queue) : r ∈ (g.handleLock r).1.queue ∧
    ((g.handleLock r).1.handles r).locked = (g.handleLock r).2 ∧
    (g.handleLock r).2 = wouldLock g r ∧
    ((g.handleLock r).1.handles r).taskId = (g.handles r).taskId ∧
    ((g.handleLock r).1.handles r).priority = (g.handles r).priority ∧
    ((g.handleLock r).1.handles r).notify = (g.handles r).notify ∧
    ((g.handleLock r).1.handles r).notified = (g.handles r).notified ∧
    (wouldLock g r = false → (g.handleLock r).1 = g) := by
  rw [handleLock, wouldLock]
  cases hl : (g.handles r).locked with
  | true => simp [hr, hl]
  | false =>
    by_cases hw : lockWalk g.handles r g.tokens g.queue = true
    · simp [hw, hr, setHandle]
    · simp [hw, hr, hl]

/-- **`~GroupLock` keeps the other handles**, and tells the ones that it lets lock. -/
theorem kept_of_handleDestroy {s : ℕ} (hc : Quiet c g) (hs : s ∈ g.queue) (hr : r ∈ g.queue)
    (hne : s ≠ r) : Kept g (g.handleDestroy r).1 (g.handleDestroy r).2 s := by
  have hmem : s ∈ g.queue.erase r := (List.mem_erase_of_ne hne).mpr hs
  -- the group in which the notification loop runs
  set g₁ : Group := { g.unlockSection r with mutex := false } with hg₁
  have hq₁ : g₁.queue = g.queue.erase r := unlockSection_queue g r
  have hs₁ : g₁.handles s = g.handles s := unlockSection_handles_of_ne hne
  have ht₁ : g₁.tokens = g.tokens + if (g.handles r).locked then 1 else 0 := leaveQueue_tokens r
  have hd₁ : demand g₁.handles s g₁.queue ≤ demand g.handles s g.queue := by
    have hsame : demand g₁.handles s (g.queue.erase r) = demand g.handles s (g.queue.erase r) :=
      demand_congr fun x hx => by
        have hxr : x ≠ r := by
          rintro rfl
          exact (hc.nodup.not_mem_erase) hx
        rw [show g₁.handles x = g.handles x from unlockSection_handles_of_ne hxr]
    rw [hq₁, hsame]
    exact demand_erase_le hne
  have hgrow : wouldLock g s = true → wouldLock g₁ s = true := by
    intro hw
    cases hl : (g.handles s).locked with
    | true => exact wouldLock_of_locked (by rw [hs₁, hl])
    | false =>
      rw [wouldLock_iff hs hl] at hw
      rw [wouldLock_iff (hq₁ ▸ hmem) (by rw [hs₁, hl])]
      split_ifs at ht₁ <;> omega
  have hleave : (g.leaveQueue r).2 = { g₁.notifyLoop.2 with slowPending := g₁.slowPending - 1 } :=
    rfl
  have hcalls : (g.leaveQueue r).2.notifyAll (g.leaveQueue r).1 = g₁.notifySlowPath.2 := rfl
  have hkept : ∀ ev, (∀ e ∈ g₁.notifySlowPath.2, e ∈ ev) → Kept g (g.leaveQueue r).2 ev s := by
    intro ev hev
    have hk : Kept g₁ g₁.notifySlowPath.1 ev s := Kept.of_notify g₁
      (hq₁ ▸ hc.nodup.erase r) (hq₁ ▸ hmem) rfl rfl le_rfl hev
    obtain ⟨h₁, h₂, h₃, h₄, h₅, h₆, h₇, h₈⟩ := hk
    rw [hs₁] at h₂ h₃ h₄ h₅ h₇ h₈
    refine ⟨h₁, h₂, h₃, h₄, h₅, fun hw => h₆ (hgrow hw), fun hno hw hn => ?_, h₈⟩
    cases hw₁ : wouldLock g₁ s with
    | false => exact h₇ hw₁ hw hn
    | true =>
      have hl : (g.handles s).locked = false := by
        by_contra hl
        rw [wouldLock_of_locked (by simpa using hl)] at hno
        exact absurd hno (by simp)
      have htell := mem_notifySlowPath (hq₁ ▸ hc.nodup.erase r) (hq₁ ▸ hmem) (by rw [hs₁, hl])
        (by rw [hs₁, hn]) hw₁
      rw [hs₁] at htell
      exact hev _ htell
  rcases handleDestroy_cases (g := g) r with ⟨-, ht | hp, heq⟩ | ⟨-, heq⟩ <;> rw [heq]
  · -- the token is owed: nobody could lock, and nobody can
    have hcnt : (g.leaveQueue r).2.drain.1.tokens ≤ (g.leaveQueue r).2.tokens := by
      by_cases hnil : (g.leaveQueue r).2.parked = []
      · rw [drain_of_parked_nil hnil]
      · exact (drain_counts hnil).2.2
    have hle : (g.leaveQueue r).2.tokens ≤ 0 := by
      have ht₂ : (g.leaveQueue r).2.tokens = g₁.tokens := rfl
      rw [ht₂, ht₁]
      split_ifs <;> omega
    have hk := hkept (g₁.notifySlowPath.2 ++ (g.leaveQueue r).2.drain.2)
      fun e he => List.mem_append_left _ he
    have hd : Kept (g.leaveQueue r).2 (g.leaveQueue r).2.drain.1
        (g₁.notifySlowPath.2 ++ (g.leaveQueue r).2.drain.2) s := Kept.of_same hk.queue
      (drain_queue _) (drain_handles _) (Or.inr ⟨hle, by omega⟩)
    rw [hcalls]
    refine ⟨hd.queue, hd.locked.trans hk.locked, hd.taskId.trans hk.taskId,
      hd.priority.trans hk.priority, hd.notify.trans hk.notify, fun hw => hd.keeps (hk.keeps hw),
      fun hno hw hn => ?_, fun hn => ?_⟩
    · cases hw' : wouldLock (g.leaveQueue r).2 s with
      | true => exact hk.tells hno hw' hn
      | false =>
        have hl : ((g.leaveQueue r).2.handles s).locked = false := by
          by_contra hl
          rw [wouldLock_of_locked (by simpa using hl)] at hw'
          exact absurd hw' (by simp)
        have hone := one_le_demand hk.queue hl
        rw [wouldLock_iff hd.queue (by rw [drain_handles, hl]), drain_handles, drain_queue] at hw
        omega
    · rcases hk.flag (by rwa [drain_handles] at hn) with h | h
      · exact Or.inl h
      · exact Or.inr (hd.keeps h)
  · -- the last handle
    have hlen := hc.slowPending
    have h₂ : 2 ≤ g.queue.length := by
      have hlt := List.length_pos_of_mem hmem
      rw [List.length_erase_of_mem hr] at hlt
      omega
    omega
  · rw [hcalls]
    exact hkept _ fun e he => he

/-! ## New handles -/

section Lock

variable (g) (a : LockArgs)

/-- The handles with the new one, before the flags are reset. -/
def lockHandles : ℕ → LockHandle :=
  Function.update g.handles g.nextHandle ⟨a.taskId, a.priority, false, false, a.notify⟩

theorem lock_queue : (g.lock a).queue = insertHandle (g.lockHandles a) g.nextHandle g.queue := rfl

theorem lock_tokens : (g.lock a).tokens = g.tokens := rfl

/-- Resetting touches only the flags. -/
theorem lock_handles_eq (r : ℕ) : (g.lock a).handles r = { g.lockHandles a r with
    notified := (g.lockHandles a r).notified &&
      decide (r ∉ toReset (g.lockHandles a) g.tokens (g.lock a).queue) } := by
  change (if r ∈ toReset (g.lockHandles a) g.tokens (g.lock a).queue then
    { g.lockHandles a r with notified := false } else g.lockHandles a r) = _
  split_ifs with h <;> simp [h]

theorem lockHandles_of_ne {r : ℕ} (h : r ≠ g.nextHandle) : g.lockHandles a r = g.handles r :=
  Function.update_of_ne h _ _

theorem lockHandles_self : g.lockHandles a g.nextHandle =
    ⟨a.taskId, a.priority, false, false, a.notify⟩ := Function.update_self ..

/-- The new handle is not locked and was not notified. -/
theorem lock_handles_self : (g.lock a).handles g.nextHandle =
    ⟨a.taskId, a.priority, false, false, a.notify⟩ := by
  rw [lock_handles_eq, lockHandles_self, Bool.false_and]

variable {g} {a}

theorem demand_lock_handles (r : ℕ) (q : List ℕ) :
    demand (g.lock a).handles r q = demand (g.lockHandles a) r q :=
  demand_congr fun x _ => by rw [lock_handles_eq]

theorem mem_lock_queue : r ∈ (g.lock a).queue ↔ r = g.nextHandle ∨ r ∈ g.queue := mem_insertHandle

theorem demand_lockHandles (hc : Quiet c g) (r : ℕ) :
    demand (g.lockHandles a) r g.queue = demand g.handles r g.queue :=
  demand_congr fun x hx => by
    rw [lockHandles_of_ne]
    rintro rfl
    exact hc.notMem_nextHandle hx

/-- **`Group::lock` lets no handle lock**, and a handle that keeps its flag would lock. -/
theorem wouldLock_of_lock (hc : Quiet c g) (hr : r ∈ g.queue) :
    (wouldLock (g.lock a) r = true → wouldLock g r = true) ∧
      (((g.lock a).handles r).notified = true →
        (g.handles r).notified = true ∧ wouldLock (g.lock a) r = true) := by
  have hne : r ≠ g.nextHandle := by
    rintro rfl
    exact hc.notMem_nextHandle hr
  have hmem : r ∈ (g.lock a).queue := mem_lock_queue.mpr (Or.inr hr)
  have hlocked : ((g.lock a).handles r).locked = (g.handles r).locked := by
    rw [lock_handles_eq, lockHandles_of_ne g a hne]
  have hgrow : demand g.handles r g.queue ≤ demand (g.lockHandles a) r (g.lock a).queue := by
    have hsplit := List.takeWhile_append_dropWhile
      (p := fun x => (g.lockHandles a x).before (g.lockHandles a g.nextHandle)) (l := g.queue)
    have hins := demand_le_insert (h := g.lockHandles a) (Ne.symm hne)
      (g.queue.takeWhile fun x => (g.lockHandles a x).before (g.lockHandles a g.nextHandle))
      (g.queue.dropWhile fun x => (g.lockHandles a x).before (g.lockHandles a g.nextHandle))
    rw [hsplit, demand_lockHandles hc] at hins
    exact hins
  cases hl : (g.handles r).locked with
  | true =>
    refine ⟨fun _ => wouldLock_of_locked hl, fun hn => ⟨?_, wouldLock_of_locked (hlocked.trans hl)⟩⟩
    rw [lock_handles_eq, lockHandles_of_ne g a hne, Bool.and_eq_true] at hn
    exact hn.1
  | false =>
    rw [wouldLock_iff hr hl, wouldLock_iff hmem (hlocked.trans hl),
      demand_lock_handles, lock_tokens]
    refine ⟨fun h => hgrow.trans h, fun hn => ?_⟩
    have hnd : (g.lock a).queue.Nodup := nodup_insertHandle hc.notMem_nextHandle hc.nodup
    rw [lock_handles_eq, lockHandles_of_ne g a hne, Bool.and_eq_true, decide_eq_true_eq,
      mem_toReset_iff hnd] at hn
    exact ⟨hn.1, not_lt.mp fun hlt => hn.2 ⟨hmem, hlt⟩⟩

end Lock

/-! ## The flags of calm groups -/

/-- A handle that was notified and has not locked would lock. -/
def FlagsExact (g : Group) : Prop :=
  ∀ r ∈ g.queue, (g.handles r).notified = true → wouldLock g r = true

theorem Kept.wouldLock_of_notified (h : Kept g g' ev r) (hf : FlagsExact g) (hr : r ∈ g.queue)
    (hn : (g'.handles r).notified = true) : wouldLock g' r = true :=
  (h.flag hn).elim (fun hn => h.keeps (hf r hr hn)) id

@[simp] theorem handleDestroy_queue (g : Group) (r : ℕ) :
    (g.handleDestroy r).1.queue = g.queue.erase r := by
  rcases handleDestroy_cases (g := g) r with ⟨-, -, heq⟩ | ⟨-, heq⟩ <;> rw [heq] <;> simp

@[simp] theorem handleLock_queue (g : Group) (r : ℕ) : (g.handleLock r).1.queue = g.queue := by
  rw [handleLock]
  split_ifs <;> rfl

/-- The fast path leaves the queue as it is. -/
theorem queue_of_fast {call : Call} (hc : Quiet c g) (hf : call.isFast = true)
    (hp : g.perform call = some (g', ev)) : g'.queue = g.queue := by
  cases call with
  | tryAcquireRunningLock =>
    obtain ⟨rfl, rfl⟩ := perform_tryAcquireRunningLock hp
    rcases hc.tryAcquire_cases with ⟨-, -, heq⟩ | heq
    · rw [heq]
      rfl
    · rw [heq]
  | trySubmit w =>
    replace hp := perform_trySubmit hp
    rcases hc.trySubmit_cases w with ⟨-, -, heq⟩ | ⟨-, -, heq⟩ | ⟨-, heq⟩ <;>
      rw [show g' = _ from congrArg Prod.fst (hp.symm.trans heq)]
    all_goals rfl
  | runningDestroy =>
    obtain ⟨-, hp⟩ := perform_runningDestroy hp
    rcases releaseToken_cases { g with running := g.running - 1 } with
      ⟨-, -, heq⟩ | ⟨-, -, heq⟩ | ⟨-, -, heq⟩ <;> rw [← runningDestroy, hp] at heq <;>
      rw [show g' = _ from congrArg Prod.fst heq]
    · exact drain_queue _
    · rfl
  | lock a | handleLock r | handleDestroy r => exact absurd hf (by simp [Call.isFast])

/-- **Every call keeps the flags exact.**  It sets the flag of a handle only when that would lock,
and `Group::lock` clears those of the handles that would not any more. -/
theorem FlagsExact.perform {call : Call} (hc : Quiet c g) (hf : FlagsExact g)
    (hp : g.perform call = some (g', ev)) : FlagsExact g' := by
  intro r hr hn
  by_cases hfast : call.isFast = true
  · rw [queue_of_fast hc hfast hp] at hr
    exact (kept_of_fast call hc hfast hp hr).wouldLock_of_notified hf hr hn
  · cases call with
    | tryAcquireRunningLock | trySubmit w | runningDestroy => exact absurd rfl hfast
    | lock a =>
      obtain ⟨rfl, rfl⟩ := perform_lock hp
      rcases mem_lock_queue.mp hr with rfl | hr
      · rw [lock_handles_self] at hn
        exact absurd hn (by simp)
      · exact ((wouldLock_of_lock hc hr).2 hn).2
    | handleLock r' =>
      obtain ⟨hr', rfl, rfl⟩ := perform_handleLock hp
      rw [handleLock_queue] at hr
      by_cases hne : r = r'
      · subst hne
        obtain ⟨-, hl, hw, -, -, -, hn', hsame⟩ := handleLock_self hr
        rw [hn'] at hn
        exact wouldLock_of_locked (by rw [hl, hw, hf r hr hn])
      · exact (kept_of_handleLock [] hc hr hr' hne).wouldLock_of_notified hf hr hn
    | handleDestroy r' =>
      obtain ⟨hr', hp⟩ := perform_handleDestroy hp
      have hk := fun hr₀ hne => kept_of_handleDestroy (s := r) hc hr₀ hr' hne
      have hq := handleDestroy_queue g r'
      rw [hp] at hk hq
      simp only at hq
      rw [hq, hc.nodup.mem_erase_iff] at hr
      exact (hk hr.2 hr.1).wouldLock_of_notified hf hr.2 hn

end Group

end Scheduler
end NUClear
