import NUClear.Scheduler.Group.Sequential

/-!
# In which order a group starts its tasks

A drain always takes the first parked task (`InOrder.perform`), so what can go wrong is a newcomer
that takes a free token while a task is parked.  The code relies on this not to happen: without
pending handles, free tokens and parked tasks are never there together (`Drained`).

Every release keeps that up by draining one task for one token.  While handles are pending it need
not hold: newcomers are parked and hand their tokens back.  So the last `~GroupLock` may find
several free tokens and several parked tasks, but it drains one task at most, and none when its
handle never locked.  `DrainsEnough` is the condition that one is enough, in terms of the group
before the call.

* `Drained.perform`: a call that meets the condition keeps `Drained`.  The counts of what is in use
  before and after the call, with the balance of the tokens, say whether a token is free.
* `started_ahead_of_parked`: in a run that meets the condition, whatever a call starts is ahead of
  all that stay parked.
* `overtaken_of_drainsOnlyOne`: a newcomer of a lower priority overtakes a parked task after a
  `~GroupLock` that left one behind.
-/

namespace NUClear
namespace Scheduler

open Foundation

namespace Group

/-- One call, as a step of the group. -/
def performStep (g : Group) (call : Call) : Option Group := (g.perform call).map Prod.fst

/-- The last `~GroupLock` leaves no free token next to a parked task. -/
def DrainsEnough (g : Group) : Call → Prop
  | .handleDestroy r => g.slowPending = 1 →
      g.tokens ≤ 0 ∨ g.parked.length ≤ if (g.handles r).locked then 1 else 0
  | _ => True

instance (g : Group) : ∀ call : Call, Decidable (DrainsEnough g call)
  | .handleDestroy r => inferInstanceAs (Decidable (g.slowPending = 1 →
      g.tokens ≤ 0 ∨ g.parked.length ≤ if (g.handles r).locked then 1 else 0))
  | .tryAcquireRunningLock => .isTrue trivial
  | .trySubmit _ => .isTrue trivial
  | .runningDestroy => .isTrue trivial
  | .lock _ => .isTrue trivial
  | .handleLock _ => .isTrue trivial

/-- Without pending handles, no token is free while a task is parked. -/
def Drained (g : Group) : Prop := g.slowPending = 0 → g.parked = [] ∨ g.tokens ≤ 0

variable {c : ℕ} {g g' : Group} {ev : List Event}

/-- As many tasks in use as before leave no more tokens free than before. -/
theorem Calm.tokens_le_zero (h : Calm c g) (hq : Quiet c g')
    (hu : (g'.running : ℤ) + g'.lockedCount = g.running + g.lockedCount) (ht : g.tokens ≤ 0) :
    g'.tokens ≤ 0 := by
  have h₁ := h.quiet.tokens
  have h₂ := hq.tokens
  have h₃ := g'.parkedHeld_nonneg g'.slots
  have h₄ := g.parkedHeld_nonneg g.slots
  by_cases hpos : 0 < g.parkedHeld g.slots
  · have := h.full hpos
    omega
  · omega

theorem length_parked_drain (h : g.parked ≠ []) :
    g.parked.length = g.drain.1.parked.length + 1 := by
  obtain ⟨b, e, q, hq, hd⟩ := drain_of_parked_ne_nil h
  have hpk : g.parked = e :: q.contents := Buckets.contents_of_dequeueFirst hq
  rw [hpk, hd]
  rfl

theorem Drained.perform {call : Call} (hc : Calm c g) (h : Drained g) (hok : DrainsEnough g call)
    (hp : g.perform call = some (g', ev)) : Drained g' := by
  have hq : Quiet c g' := quiet_perform hc.quiet hp
  have hlen := hc.quiet.slowPending
  intro hslow
  cases call with
  | tryAcquireRunningLock =>
    obtain ⟨rfl, rfl⟩ := perform_tryAcquireRunningLock hp
    rcases hc.quiet.tryAcquire_cases with ⟨-, ht, heq⟩ | heq <;> rw [heq] at hslow ⊢
    · exact Or.inl ((h hslow).resolve_right (not_le.mpr ht))
    · exact h hslow
  | trySubmit w =>
    replace hp := perform_trySubmit hp
    rcases hc.quiet.trySubmit_cases w with ⟨-, ht, heq⟩ | ⟨hs, -, heq⟩ | ⟨ht, heq⟩ <;>
      rw [heq] at hp <;> simp only [Prod.mk.injEq] at hp <;> obtain ⟨rfl, rfl⟩ := hp
    · exact Or.inl ((h hslow).resolve_right (not_le.mpr ht))
    · exact absurd hslow (ne_of_gt hs)
    · exact Or.inr (show g.tokens - 1 ≤ 0 by omega)
  | runningDestroy =>
    obtain ⟨hr, hp⟩ := perform_runningDestroy hp
    obtain ⟨hl, hcnt⟩ := releaseToken_counts { g with running := g.running - 1 }
    have hl' : lockedCount { g with running := g.running - 1 } = g.lockedCount :=
      lockedCount_congr rfl fun _ => rfl
    rw [← runningDestroy, hp, hl'] at hl
    rcases releaseToken_cases { g with running := g.running - 1 } with
      ⟨hpk, -, heq⟩ | ⟨hpk, -, heq⟩ | ⟨-, hs, heq⟩ <;>
      rw [← runningDestroy, hp] at heq
    · have hrun := (drain_counts (g := { g with running := g.running - 1, tokens := g.tokens + 1 })
        hpk).1
      rw [← heq] at hrun
      have hslow' : g.slowPending = 0 := by
        have : g'.slowPending = g.slowPending := by
          rw [show g' = _ from congrArg Prod.fst heq]; simp
        omega
      refine Or.inr (hc.tokens_le_zero hq ?_ ((h hslow').resolve_left hpk))
      simp only at hrun hl
      omega
    · rw [show g' = _ from congrArg Prod.fst heq]
      exact Or.inl hpk
    · rw [show g' = _ from congrArg Prod.fst heq] at hslow
      exact absurd hslow (ne_of_gt hs)
  | lock a =>
    obtain ⟨rfl, rfl⟩ := perform_lock hp
    have hslow : g.slowPending + 1 = 0 := hslow
    omega
  | handleLock r =>
    obtain ⟨hr, rfl, rfl⟩ := perform_handleLock hp
    have hsame : (g.handleLock r).1.slowPending = g.slowPending := by
      rw [Group.handleLock]
      split_ifs <;> rfl
    have := hc.quiet.slowPending_pos hr
    omega
  | handleDestroy r =>
    obtain ⟨hr, hp⟩ := perform_handleDestroy hp
    have hl := lockedCount_leaveQueue hc.quiet.nodup hr
    have hrun := leaveQueue_running (g := g) r
    have hpk : (g.leaveQueue r).2.parked = g.parked := congrArg Buckets.contents
      (leaveQueue_waitBuckets r)
    rcases handleDestroy_cases (g := g) r with ⟨hlk, -, heq⟩ | ⟨hidle, heq⟩ <;> rw [heq] at hp <;>
      simp only [Prod.mk.injEq] at hp <;> obtain ⟨rfl, rfl⟩ := hp
    · rw [drain_slowPending, leaveQueue_slowPending] at hslow
      rw [hlk, if_pos rfl] at hl
      by_cases hnil : g.parked = []
      · rw [drain_of_parked_nil (hpk.trans hnil)]
        exact Or.inl (hpk.trans hnil)
      · have hcnt := drain_counts (g := (g.leaveQueue r).2) (hpk ▸ hnil)
        have hl' := lockedCount_drain (g.leaveQueue r).2
        have hone := length_parked_drain (g := (g.leaveQueue r).2) (hpk ▸ hnil)
        rw [hpk] at hone
        have henough := hok (by omega)
        rw [hlk, if_pos rfl] at henough
        rcases henough with ht | hle
        · exact Or.inr (hc.tokens_le_zero hq (by omega) ht)
        · exact Or.inl (List.length_eq_zero_iff.mp (by omega))
    · rw [leaveQueue_slowPending] at hslow
      have hlast : g.slowPending = 1 := by omega
      have hlk : (g.handles r).locked = false := hidle.resolve_right fun h => h.2 hlast
      have henough := hok hlast
      have ht := leaveQueue_tokens (g := g) r
      rw [hlk] at henough ht
      simp only [Bool.false_eq_true, if_false, add_zero, Nat.le_zero] at henough ht
      rw [hpk, ht]
      exact (henough.imp_right List.length_eq_zero_iff.mp).symm

/-- **A group starts its tasks in order**, in a run in which the last `~GroupLock` drains enough: a
newcomer leaves no task of its bucket or of a higher one parked, and a parked task that is started
is ahead of all that stay parked. -/
theorem started_ahead_of_parked {call : Call} (h : Reaches performStep DrainsEnough (make c) g)
    (hp : g.perform call = some (g', ev)) :
    (∀ w, .submit w ∈ ev → ∀ e ∈ g'.parked, w.bucket < e.bucket) ∧
      ∀ e₀, .submitForced e₀ ∈ ev → ∀ e ∈ g'.parked, Ahead e₀ e := by
  have hI : Calm c g ∧ Drained g := by
    refine h.invariant (P := fun g => Calm c g ∧ Drained g)
      ⟨calm_make c, fun _ => Or.inl Buckets.contents_empty⟩ fun x a y hx hok hst => ?_
    obtain ⟨⟨y', ev⟩, hy, rfl⟩ := Option.map_eq_some_iff.mp hst
    exact ⟨hx.1.perform hy, hx.2.perform hx.1 hok hy⟩
  refine ⟨fun w hw => ?_, (hI.1.inOrder.perform hI.1.quiet hp).2⟩
  -- only `try_submit` starts a newcomer, and it finds no parked task
  have hfree : g.slowPending = 0 → 0 < g.tokens → g.parked = [] := fun hs ht =>
    (hI.2 hs).resolve_right (not_le.mpr ht)
  have hnotify : ∀ (g : Group) (rs : List ℕ), .submit w ∉ g.notifyAll rs := by
    intro g rs hm
    obtain ⟨r, -, he⟩ := mem_notifyAll hm
    exact absurd he (by simp)
  have hdrain : ∀ g : Group, .submit w ∉ g.drain.2 := by
    intro g hm
    by_cases hpk : g.parked = []
    · rw [drain_of_parked_nil hpk] at hm
      exact absurd hm (List.not_mem_nil)
    · obtain ⟨b, e, q, -, hd⟩ := drain_of_parked_ne_nil hpk
      rw [hd] at hm
      exact absurd hm (by simp)
  cases call with
  | tryAcquireRunningLock =>
    obtain ⟨rfl, rfl⟩ := perform_tryAcquireRunningLock hp
    rcases hI.1.quiet.tryAcquire_cases with ⟨-, -, heq⟩ | heq <;> rw [heq] at hw <;>
      exact absurd hw (List.not_mem_nil)
  | trySubmit w' =>
    replace hp := perform_trySubmit hp
    have hlen := hI.1.quiet.slowPending
    rcases hI.1.quiet.trySubmit_cases w' with ⟨hnil, ht, heq⟩ | ⟨-, -, heq⟩ | ⟨-, heq⟩ <;>
      rw [heq] at hp <;> simp only [Prod.mk.injEq] at hp <;> obtain ⟨rfl, rfl⟩ := hp
    · intro e he
      rw [hnil] at hlen
      have he : e ∈ g.parked := he
      rw [hfree hlen ht] at he
      exact absurd he (List.not_mem_nil)
    · rcases List.mem_cons.mp hw with hw | hw
      · exact absurd hw (by simp)
      · exact absurd hw (hnotify _ _)
    · exact absurd hw (by simp)
  | runningDestroy =>
    obtain ⟨-, hp⟩ := perform_runningDestroy hp
    rcases releaseToken_cases { g with running := g.running - 1 } with
      ⟨-, -, heq⟩ | ⟨-, -, heq⟩ | ⟨-, -, heq⟩ <;> rw [← runningDestroy, hp] at heq <;>
      rw [show ev = _ from congrArg Prod.snd heq] at hw
    · exact absurd hw (hdrain _)
    · exact absurd hw (List.not_mem_nil)
    · exact absurd hw (hnotify _ _)
  | lock a =>
    replace hp := perform_lock hp
    rw [← hp.2] at hw
    exact absurd hw (List.not_mem_nil)
  | handleLock r =>
    obtain ⟨-, hp⟩ := perform_handleLock hp
    rw [← hp.2] at hw
    exact absurd hw (by simp)
  | handleDestroy r =>
    obtain ⟨-, hp⟩ := perform_handleDestroy hp
    rcases handleDestroy_cases (g := g) r with ⟨-, -, heq⟩ | ⟨-, heq⟩ <;> rw [hp] at heq <;>
      rw [show ev = _ from congrArg Prod.snd heq] at hw
    · rcases List.mem_append.mp hw with hw | hw
      · exact absurd hw (hnotify _ _)
      · exact absurd hw (hdrain _)
    · exact absurd hw (hnotify _ _)

/-- One task runs in a group of one, and two more park. -/
def twoParked : List Call :=
  [.trySubmit ⟨⟨1, 500⟩, 0, true⟩, .trySubmit ⟨⟨2, 500⟩, 0, true⟩, .trySubmit ⟨⟨3, 500⟩, 0, true⟩]

theorem started_ahead_of_parked_twoParked :
    ∃ g, exec performStep (make 1) twoParked = some g ∧ g.runningDestroy.1.parked.length = 1 ∧
      ∀ e₀, .submitForced e₀ ∈ g.runningDestroy.2 → ∀ e ∈ g.runningDestroy.1.parked,
        Ahead e₀ e := by
  obtain ⟨g, hg⟩ := Option.isSome_iff_exists.mp
    (by decide : (exec performStep (make 1) twoParked).isSome = true)
  have hend : (exec performStep (make 1) twoParked).map
      (fun g => (g.running, g.runningDestroy.1.parked.length)) = some (1, 1) := by decide
  have hok : execOk performStep DrainsEnough (make 1) twoParked := by decide
  rw [hg] at hend
  simp only [Option.map_some, Option.some.injEq, Prod.mk.injEq] at hend
  have hp : g.perform .runningDestroy = some g.runningDestroy := by simp [perform, hend.1]
  exact ⟨g, hg, hend.2, (started_ahead_of_parked (reaches_of_exec hg hok) hp).2⟩

/-- In a group of two a handle is locked, two tasks hand their tokens back and stay parked, and the
handle is destroyed: two tokens are free then, and one task is started. -/
def drainsOnlyOne : List Call :=
  [.lock ⟨1, 500, 0⟩, .handleLock 0, .trySubmit ⟨⟨2, 500⟩, 0, true⟩,
    .trySubmit ⟨⟨3, 500⟩, 0, true⟩, .handleDestroy 0]

/-- A newcomer of a lower priority overtakes the task that stayed parked. -/
theorem overtaken_of_drainsOnlyOne :
    ¬ ∀ (c : ℕ) (g g' : Group) (call : Call) (ev : List Event), 1 ≤ c →
      Reaches performStep Always (make c) g → g.perform call = some (g', ev) →
      (∀ w, .submit w ∈ ev → ∀ e ∈ g'.parked, w.bucket < e.bucket) ∧
        ∀ e₀, .submitForced e₀ ∈ ev → ∀ e ∈ g'.parked, Ahead e₀ e := by
  intro h
  obtain ⟨g, hg⟩ := Option.isSome_iff_exists.mp
    (by decide : (exec performStep (make 2) drainsOnlyOne).isSome = true)
  let w : Waiter := ⟨⟨4, 250⟩, 0, true⟩
  have hend : (exec performStep (make 2) drainsOnlyOne).map
      (fun g => ((g.trySubmit w).2, (g.trySubmit w).1.parked)) =
      some ([.submit w], [⟨⟨⟨3, 500⟩, 0, true⟩, 1⟩]) := by decide
  rw [hg] at hend
  simp only [Option.map_some, Option.some.injEq, Prod.mk.injEq] at hend
  have hp : g.perform (.trySubmit w) = some ((g.trySubmit w).1, (g.trySubmit w).2) := rfl
  have hfirst := (h 2 g _ _ _ (by decide) (reaches_always_of_exec hg) hp).1 w
    (by rw [hend.1]; exact List.mem_cons_self ..) ⟨⟨⟨3, 500⟩, 0, true⟩, 1⟩
    (by rw [hend.2]; exact List.mem_cons_self ..)
  exact absurd hfirst (by decide)

end Group

end Scheduler
end NUClear
