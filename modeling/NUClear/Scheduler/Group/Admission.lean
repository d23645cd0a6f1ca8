import NUClear.Scheduler.Group.Sequential

/-!
# What a group admits

A `RunningLock` and a locked handle each stand for one of the group's tasks that may run.  When the
operations of a group come one after the other, there are never more of them than its concurrency
(`Within.perform`).  Under every interleaving this is not so, and `Exclusion` has the condition.

A call starts tasks that it was given or that were parked, and makes a `RunningLock` for each of
them (`Starts`).  So whoever counts the tasks that a group has started counts its `RunningLock`s:
the scheduler's exclusion is proved from the two.

* `Calm.within_of_token`: a token that nobody has reserved is one that the limit leaves over, so
  whoever takes it stays within.
* `Within.releaseToken`: a release hands one token back and starts one task at most.
* `Within.handleLock`, `Within.handleDestroy`: `lock()` takes a token only when it counts one for
  its handle, and `~GroupLock` starts a task only with the token that it gives back, or with one
  that is free.
* `starts_drain`, `Quiet.starts_trySubmit` and the others: what each call starts, read off its
  events.
-/

namespace NUClear
namespace Scheduler

open Foundation

/-- The task that the event starts. -/
def Event.started : Event → Option ReactionTask
  | .submit w => some w.task
  | .submitForced e => some e.task
  | _ => none

/-- The tasks that some events start. -/
def startedBy (ev : List Event) : List ReactionTask := ev.filterMap Event.started

@[simp] theorem startedBy_nil : startedBy [] = [] := rfl

theorem startedBy_append (ev ev' : List Event) :
    startedBy (ev ++ ev') = startedBy ev ++ startedBy ev' := List.filterMap_append

namespace Group

variable {c : ℕ} {g g' : Group} {ev : List Event} {r : ℕ}

@[simp] theorem startedBy_notifyAll (rs : List ℕ) : startedBy (g.notifyAll rs) = [] := by
  rw [startedBy, List.filterMap_eq_nil_iff]
  intro e he
  obtain ⟨r, -, rfl⟩ := mem_notifyAll he
  rfl

/-! ## The limit -/

/-- The group has handed out no more than it may. -/
def Within (c : ℕ) (g : Group) : Prop := g.running + g.lockedCount ≤ c

theorem within_make (c : ℕ) : Within c (make c) := by
  rw [Within, lockedCount]
  simp [make]

/-- Tokens that nobody has reserved are left over from the limit. -/
theorem Calm.within_of_token (h : Calm c g) (ht : 0 < g.tokens) :
    g.running + g.lockedCount + 1 ≤ c := by
  have hb := h.quiet.tokens
  have := h.parkedHeld_eq_zero ht.le
  omega

/-- A release keeps the limit that held before its `RunningLock` was destroyed. -/
theorem Within.releaseToken (h : g.running + g.lockedCount + 1 ≤ (c : ℤ)) :
    Within c g.releaseToken.1 := by
  obtain ⟨hl, ⟨hr, -, -⟩ | ⟨hr, -, -, -⟩⟩ := releaseToken_counts g <;> rw [Within, hl, hr]
  · push_cast
    omega
  · omega

theorem Within.handleLock (hc : Calm c g) (h : Within c g) (hr : r ∈ g.queue) :
    Within c (g.handleLock r).1 := by
  rw [Group.handleLock]
  cases hl : (g.handles r).locked with
  | true =>
    simp only [if_true]
    exact h
  | false =>
    by_cases hw : lockWalk g.handles r g.tokens g.queue = true
    · have hcount := countP_update_handle g.handles { g.handles r with locked := true }
        hc.quiet.nodup hr
      simp only [hl, if_true, if_false, Bool.false_eq_true, sub_zero] at hcount
      -- the handle takes a token of its own
      have htoken : 0 < g.tokens := by
        have hdemand := (lockWalk_eq_true_iff.mp hw).2
        have := one_le_demand hr hl
        omega
      have hlimit := hc.within_of_token htoken
      simp only [hw, if_true, if_false, Bool.false_eq_true]
      change (g.running : ℤ) + ((g.queue.countP fun x => (Function.update g.handles r
        { g.handles r with locked := true } x).locked : ℕ) : ℤ) ≤ c
      rw [hcount]
      rw [lockedCount] at hlimit
      omega
    · simp only [hw, if_false, Bool.false_eq_true]
      exact h

theorem Within.handleDestroy (hc : Calm c g) (h : Within c g) (hr : r ∈ g.queue) :
    Within c (g.handleDestroy r).1 := by
  have hl := lockedCount_leaveQueue hc.quiet.nodup hr
  have hrun := leaveQueue_running (g := g) r
  rw [Within] at h
  rcases handleDestroy_cases (g := g) r with ⟨hlk, -, heq⟩ | ⟨-, heq⟩ <;> rw [heq, Within]
  · rw [hlk, if_pos rfl] at hl
    by_cases hnil : (g.leaveQueue r).2.parked = []
    · rw [drain_of_parked_nil hnil, hl, hrun]
      omega
    · rw [lockedCount_drain, (drain_counts hnil).1, hl, hrun]
      push_cast
      omega
  · rw [hl, hrun]
    split_ifs <;> omega

/-- **Every call keeps the limit.**  One case for each call; those that start a parked task go
through what a drain and a release do. -/
theorem Within.perform {call : Call} (hc : Calm c g) (h : Within c g)
    (hp : g.perform call = some (g', ev)) : Within c g' := by
  have hadmit : 0 < g.tokens → Within c ({ g with tokens := g.tokens - 1 } :
    Group).makeRunningLock := by
    intro ht
    have hl : ({ g with tokens := g.tokens - 1 }.makeRunningLock).lockedCount = g.lockedCount :=
      lockedCount_congr rfl fun _ => rfl
    have := hc.within_of_token ht
    rw [Within, hl, makeRunningLock_running]
    push_cast
    omega
  cases call with
  | tryAcquireRunningLock =>
    obtain ⟨rfl, -⟩ := perform_tryAcquireRunningLock hp
    rcases hc.quiet.tryAcquire_cases with ⟨-, ht, heq⟩ | heq <;> rw [heq]
    · exact hadmit ht
    · exact h
  | trySubmit w =>
    replace hp := perform_trySubmit hp
    rcases hc.quiet.trySubmit_cases w with ⟨-, ht, heq⟩ | ⟨-, -, heq⟩ | ⟨-, heq⟩ <;>
      obtain ⟨rfl, -⟩ := Prod.mk.inj (heq.symm.trans hp)
    · exact hadmit ht
    · have hl : (g.publish w).notifySlowPath.1.lockedCount = g.lockedCount :=
        lockedCount_setNotified (g := g.publish w) _ _
      rw [Within, hl]
      exact h
    · exact h
  | runningDestroy =>
    obtain ⟨hr, hp⟩ := perform_runningDestroy hp
    have hl : lockedCount { g with running := g.running - 1 } = g.lockedCount :=
      lockedCount_congr rfl fun _ => rfl
    have hw := Within.releaseToken (c := c) (g := { g with running := g.running - 1 }) (by
      rw [hl]
      rw [Within] at h
      dsimp only
      omega)
    rwa [← runningDestroy, hp] at hw
  | lock a =>
    obtain ⟨rfl, -⟩ := perform_lock hp
    have hl : (g.lock a).lockedCount = g.lockedCount :=
      lockedCount_insertSection (g := { g with slowPending := g.slowPending + 1 }) a
        hc.quiet.notMem_nextHandle
    rw [Within, hl]
    exact h
  | handleLock r =>
    obtain ⟨hr, rfl, -⟩ := perform_handleLock hp
    exact h.handleLock hc hr
  | handleDestroy r =>
    obtain ⟨hr, hp⟩ := perform_handleDestroy hp
    have := h.handleDestroy hc hr
    rwa [hp] at this

/-! ## What a call starts -/

/-- The call has made a `RunningLock` for each task that it has started, these were parked before
it, and so was all that is parked after it. -/
structure Starts (g g' : Group) (ev : List Event) : Prop where
  running : g'.running = g.running + (startedBy ev).length
  parked : ∀ e ∈ g'.parked, e ∈ g.parked
  origin : ∀ t ∈ startedBy ev, ∃ e ∈ g.parked, e.task = t

/-- Nothing has been started. -/
theorem Starts.nothing (hr : g'.running = g.running) (hw : g'.waitBuckets = g.waitBuckets)
    (hev : startedBy ev = []) : Starts g g' ev := by
  refine ⟨by rw [hr, hev]; rfl, fun e he => ?_, fun t ht => ?_⟩
  · rwa [Group.parked, hw] at he
  · rw [hev] at ht
    exact absurd ht (List.not_mem_nil)

theorem starts_drain (g : Group) : Starts g g.drain.1 g.drain.2 := by
  by_cases h : g.parked = []
  · rw [drain_of_parked_nil h]
    exact .nothing rfl rfl rfl
  · obtain ⟨b, e, q, hd, heq⟩ := drain_of_parked_ne_nil h
    have hcontents : g.parked = e :: q.contents := Buckets.contents_of_dequeueFirst hd
    rw [heq]
    refine ⟨rfl, fun e' he' => ?_, fun t ht => ⟨e, ?_, ?_⟩⟩
    · rw [hcontents]
      exact List.mem_cons_of_mem _ he'
    · rw [hcontents]
      exact List.mem_cons_self ..
    · exact (List.mem_singleton.mp (show t ∈ [e.task] from ht)).symm

theorem starts_releaseToken (g : Group) : Starts g g.releaseToken.1 g.releaseToken.2 := by
  rcases releaseToken_cases g with ⟨-, -, heq⟩ | ⟨-, -, heq⟩ | ⟨-, -, heq⟩ <;> rw [heq]
  · obtain ⟨hr, hp, ho⟩ := starts_drain { g with tokens := g.tokens + 1 }
    exact ⟨hr, hp, ho⟩
  · exact .nothing rfl rfl rfl
  · exact .nothing rfl rfl (startedBy_notifyAll _)

/-- `~RunningLock` has one `RunningLock` less to begin with. -/
theorem starts_runningDestroy (g : Group) :
    Starts { g with running := g.running - 1 } g.runningDestroy.1 g.runningDestroy.2 :=
  starts_releaseToken _

theorem starts_handleDestroy (g : Group) (r : ℕ) :
    Starts g (g.handleDestroy r).1 (g.handleDestroy r).2 := by
  have hleave : ∀ ev, startedBy ev = [] → Starts g (g.leaveQueue r).2 ev := fun ev =>
    .nothing (leaveQueue_running r) (leaveQueue_waitBuckets r)
  rcases handleDestroy_cases (g := g) r with ⟨-, -, heq⟩ | ⟨-, heq⟩ <;> rw [heq]
  · obtain ⟨hr, hp, ho⟩ := starts_drain (g.leaveQueue r).2
    have hev : startedBy ((g.leaveQueue r).2.notifyAll (g.leaveQueue r).1 ++
        (g.leaveQueue r).2.drain.2) = startedBy (g.leaveQueue r).2.drain.2 := by
      rw [startedBy_append, startedBy_notifyAll, List.nil_append]
    have hparked : (g.leaveQueue r).2.parked = g.parked :=
      congrArg Buckets.contents (leaveQueue_waitBuckets r)
    rw [leaveQueue_running] at hr
    rw [hparked] at hp ho
    exact ⟨by rw [hr, hev], hp, fun t ht => ho t (hev ▸ ht)⟩
  · exact hleave _ (startedBy_notifyAll _)

/-- A newcomer is started, or it is parked behind the others and nobody is started. -/
theorem Quiet.starts_trySubmit (hq : Quiet c g) (w : Waiter) :
    ((g.trySubmit w).2 = [.submit w] ∧ (g.trySubmit w).1.running = g.running + 1 ∧
      (g.trySubmit w).1.parked = g.parked) ∨
    (startedBy (g.trySubmit w).2 = [] ∧ (g.trySubmit w).1.running = g.running ∧
      ∀ e ∈ (g.trySubmit w).1.parked, e.toWaiter = w ∨ e ∈ g.parked) := by
  have hpublish : ∀ e ∈ (g.publish w).parked, e.toWaiter = w ∨ e ∈ g.parked := by
    intro e he
    have hperm := Buckets.contents_enqueue_perm g.waitBuckets w.bucket
      (⟨w, g.nextSlot⟩ : WaitEntry)
    rcases List.mem_cons.mp (hperm.mem_iff.mp he) with rfl | he
    · exact Or.inl rfl
    · exact Or.inr he
  rcases hq.trySubmit_cases w with ⟨-, -, heq⟩ | ⟨-, -, heq⟩ | ⟨-, heq⟩ <;> rw [heq]
  · exact Or.inl ⟨rfl, rfl, rfl⟩
  · exact Or.inr ⟨startedBy_notifyAll (g := (g.publish w).notifyLoop.2) _, rfl, hpublish⟩
  · exact Or.inr ⟨rfl, rfl, hpublish⟩

end Group

end Scheduler
end NUClear
