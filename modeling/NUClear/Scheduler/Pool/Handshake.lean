import NUClear.Scheduler.Pool.Mutex

/-!
# `stop(FORCE)` and the consumer of a pool

A pool with one thread has queues that only this thread may take from.  So `stop(FORCE)` from
another thread asks it to discard what is queued: it raises `discard_queues_requested`, notifies,
and waits until the flag is cleared.  Where there is no consumer, or the caller is the consumer, the
caller drains the queues itself.

## The window

The consumer tests the flag, with the mutex held, before it leaves its loop.  But the caller decides
from `consumer_thread_id`, which the consumer resets only after it has released the mutex: in
between, the caller asks a thread that has left, and waits for ever (`stranded_of_stopsAtExit`).

`asksInLoop` is the condition that excludes this window.  It is asked of the access in which
`stop(FORCE)` reads `consumer_thread_id`, and speaks of where the consumer is at that moment.

## The proof

* `WorkerAccess.life`: a worker starts, stays in the loop up to its last test, and leaves; it takes
  back the identity that it has stored only after that.
* `HasConsumer`: as long as somebody is about to raise the flag, or the flag is raised, there is a
  thread in the loop.  Its last test would find the flag, and it cannot get past it while the flag
  is raised.
* `not_stranded_of_reaches`: so whoever waits for the flag has a consumer in its loop, in every run
  in which no caller asks in that window.
-/

namespace NUClear
namespace Scheduler

open Foundation

namespace PoolMemory

variable {m m' : PoolMemory} {sh sh' : Shared} {o : Op} {pre post ops : List Op} {next : Option Op}
  {ev : List Event} {i : ℕ} {w : WorkerPoint} {s : StopPoint}

/-! ## The consumer and those who wait for it -/

/-- The worker is in the loop of `run`. -/
def WorkerPoint.inLoop : WorkerPoint → Bool
  | .starting => false
  | .leaving => false
  | _ => true

/-- A thread is in the loop of `run`. -/
def SomeInLoop (ops : List Op) : Prop := ∃ i w, .worker i w ∈ ops ∧ w.inLoop = true

/-- A caller of `stop(FORCE)` is in `condition.wait`. -/
def Op.waitsForConsumer : Op → Bool
  | .stop .blocked => true
  | .worker _ (.stopping _ .blocked) => true
  | _ => false

/-- `stop(FORCE)` is about to raise `discard_queues_requested`. -/
def Op.requests : Op → Bool
  | .stop .requestDiscard => true
  | .worker _ (.stopping _ .requestDiscard) => true
  | _ => false

/-- A caller of `stop(FORCE)` waits for the flag to be cleared, and the consumer has left. -/
def Stranded (m : PoolMemory) (ops : List Op) : Prop :=
  m.discardQueuesRequested = true ∧ (∃ o ∈ ops, o.waitsForConsumer = true) ∧ ¬ SomeInLoop ops

/-- The thread that has called `stop`, if it is a thread of the pool. -/
def Op.caller : Op → Option ℕ
  | .worker i _ => some i
  | _ => none

/-- `stop(FORCE)` reads `consumer_thread_id`. -/
def Op.decides : Op → Bool
  | .stop .decide => true
  | .worker _ (.stopping _ .decide) => true
  | _ => false

/-- The condition on a run: a `stop(FORCE)` that finds `consumer_thread_id` set to another thread
does not find that thread on its way out, between the release of the mutex and the reset.  All other
accesses and all calls are free. -/
def asksInLoop : PoolSystem.Condition where
  call _ _ _ := True
  access m ops o _ := o.decides = true → m.singleConsumer = true →
    ∀ i ∈ m.consumer, o.caller ≠ some i → .worker i .leaving ∉ ops

/-- Whoever has been asked is in the loop: the invariant of the pool for the hand-shake. -/
structure HasConsumer (m : PoolMemory) (ops : List Op) : Prop where
  exclusive : Exclusive m ops
  consumer : ∀ i, m.consumer = some i → ∃ w, .worker i w ∈ ops ∧ w ≠ .starting
  requesting : ∀ o ∈ ops, o.requests = true → SomeInLoop ops
  requested : m.discardQueuesRequested = true → SomeInLoop ops

/-! ## What one step does -/

theorem inLoop_loopTop (m : PoolMemory) : m.loopTop.inLoop = true := by
  unfold loopTop
  split_ifs <;> rfl

theorem inLoop_lookForTask (m : PoolMemory) : m.lookForTask.inLoop = true := by
  unfold lookForTask
  split_ifs <;> rfl

theorem inLoop_afterStop (t : Option Task) (s : Option StopPoint) :
    (afterStop t s).inLoop = true := by
  cases s <;> rfl

/-- **The life of a worker**: it starts, stays in the loop up to its last test, and leaves. -/
theorem WorkerAccess.life {w' : Option WorkerPoint} (h : WorkerAccess m sh i w m' sh' w' ev) :
    (w = .starting ∧ m'.consumer = some i ∧ w' = some .locking) ∨
      (w = .leaving ∧ m'.consumer = none ∧ w' = none) ∨
        m'.consumer = m.consumer ∧
          ((w = .testDiscard ∧ m.discardQueuesRequested = false ∧ w' = some .leaving) ∨
            ∃ v, w' = some v ∧ v.inLoop = true) := by
  have hstays : ∀ v, m'.consumer = m.consumer → v.inLoop = true → w' = some v →
      m'.consumer = m.consumer ∧ ((w = .testDiscard ∧ m.discardQueuesRequested = false ∧
        w' = some .leaving) ∨ ∃ v, w' = some v ∧ v.inLoop = true) :=
    fun v hc hv hw' => ⟨hc, Or.inr ⟨v, hw', hv⟩⟩
  cases h
  case starting => exact Or.inl ⟨rfl, rfl, rfl⟩
  case leaving => exact Or.inr (Or.inl ⟨rfl, rfl, rfl⟩)
  case testDiscardNone h => exact Or.inr (Or.inr ⟨rfl, Or.inl ⟨rfl, h, rfl⟩⟩)
  case stopping t s s' h =>
    refine Or.inr (Or.inr (hstays _ ?_ (inLoop_afterStop t s') rfl))
    cases h <;> rfl
  all_goals refine Or.inr (Or.inr (hstays _ rfl ?_ rfl))
  all_goals first | rfl | exact inLoop_loopTop m | exact inLoop_lookForTask m

/-- Somebody stays in the loop, but for a worker that leaves it after its last test. -/
theorem SomeInLoop.access (h : SomeInLoop (pre ++ o :: post)) (ha : Access m sh o m' sh' next ev) :
    SomeInLoop (pre ++ (next.toList ++ post)) ∨
      ∃ i, o = .worker i .testDiscard ∧ m.discardQueuesRequested = false := by
  obtain ⟨i, w, hmem, hw⟩ := h
  rw [List.mem_append, List.mem_cons] at hmem
  by_cases ho : o = .worker i w
  · subst ho
    cases ha
    case worker w' h =>
      rcases h.life with ⟨rfl, -⟩ | ⟨rfl, -⟩ | ⟨-, ⟨rfl, hd, -⟩ | ⟨v, rfl, hv⟩⟩
      · exact absurd hw (by decide)
      · exact absurd hw (by decide)
      · exact Or.inr ⟨i, rfl, hd⟩
      · exact Or.inl ⟨i, v, by simp, hv⟩
  · refine Or.inl ⟨i, w, ?_, hw⟩
    rw [List.mem_append, List.mem_append]
    rcases hmem with hmem | rfl | hmem
    · exact Or.inl hmem
    · exact absurd rfl ho
    · exact Or.inr (Or.inr hmem)

/-- The flag is raised by those who are about to. -/
theorem StopAccess.raises {caller : Option ℕ} {s' : Option StopPoint}
    (h : StopAccess m caller s m' s') (hd : m'.discardQueuesRequested = true) :
    m.discardQueuesRequested = true ∨ s = .requestDiscard := by
  cases h
  case request => exact Or.inr rfl
  all_goals exact Or.inl hd

theorem Access.raises (h : Access m sh o m' sh' next ev) (hd : m'.discardQueuesRequested = true) :
    m.discardQueuesRequested = true ∨ o.requests = true := by
  cases h
  case worker i w w' h =>
    cases h
    case stopping t s s' h => exact (h.raises hd).imp id fun hs => by rw [hs]; rfl
    case discardClear => exact absurd hd (by simp)
    all_goals exact Or.inl hd
  case stop s s' h => exact (h.raises hd).imp id fun hs => by rw [hs]; rfl
  all_goals exact Or.inl hd

/-- Who is about to raise the flag has read `consumer_thread_id`. -/
theorem StopAccess.asks {caller : Option ℕ} {s' : Option StopPoint}
    (h : StopAccess m caller s m' s') (hr : s' = some .requestDiscard) :
    s = .decide ∧ m.singleConsumer = true ∧ ∃ i, m.consumer = some i ∧ caller ≠ some i := by
  cases h
  case delegate i hs hi hne => exact ⟨rfl, hs, i, hi, hne.symm⟩
  all_goals simp at hr

theorem Access.asks {o' : Op} (h : Access m sh o m' sh' next ev) (ho' : o' ∈ next.toList)
    (hr : o'.requests = true) :
    o.decides = true ∧ m.singleConsumer = true ∧ ∃ i, m.consumer = some i ∧ o.caller ≠ some i := by
  cases h
  case worker i w w' h =>
    cases w' with
    | none => exact absurd ho' (by simp)
    | some v =>
      obtain rfl : o' = .worker i v := by simpa using ho'
      cases h
      case stopping t s s' h =>
        cases s' with
        | none => exact absurd hr (by simp [afterStop, Op.requests])
        | some s' =>
          have hs' : s' = .requestDiscard := by
            cases s' <;> simp [afterStop, Op.requests] at hr ⊢
          obtain ⟨rfl, hs, hi⟩ := h.asks (by rw [hs'])
          exact ⟨rfl, hs, hi⟩
      case locking | waitPendingIdleSome | waitDiscardSome | waitExternalNone | waitingLoop =>
        exact absurd hr (by unfold loopTop; split_ifs <;> simp [Op.requests])
      case checkPendingIdleNone | clearPendingIdleNone =>
        exact absurd hr (by unfold lookForTask; split_ifs <;> simp [Op.requests])
      all_goals simp [Op.requests] at hr
  case stop s s' h =>
    cases s' with
    | none => exact absurd ho' (by simp)
    | some s' =>
      obtain rfl : o' = .stop s' := by simpa using ho'
      have hs' : s' = .requestDiscard := by
        cases s' <;> simp [Op.requests] at hr ⊢
      obtain ⟨rfl, hs, i, hi, -⟩ := h.asks (by rw [hs'])
      exact ⟨rfl, hs, i, hi, by simp [Op.caller]⟩
  case submitSection t clearIdle force h =>
    cases force
    · exact absurd ho' (by simp)
    · obtain rfl : o' = .unregister := by simpa using ho'
      exact absurd hr (by decide)
  all_goals
    simp only [Option.toList_some, Option.toList_none, List.mem_singleton, List.not_mem_nil] at ho'
    try subst ho'
    try exact absurd hr (by simp [Op.requests])

/-! ## The invariant -/

theorem SomeInLoop.mono {ops ops' : List Op} (h : SomeInLoop ops) (hsub : ∀ o ∈ ops, o ∈ ops') :
    SomeInLoop ops' := by
  obtain ⟨i, w, hmem, hw⟩ := h
  exact ⟨i, w, hsub _ hmem, hw⟩

/-- Who requests holds the mutex. -/
theorem Op.holds_of_requests {o : Op} (h : o.requests = true) : o.holds = true := by
  unfold Op.requests at h
  split at h <;> first | rfl | exact absurd h (by decide)

/-- A call leaves the consumer where it is. -/
theorem HasConsumer.startCall {c : Call} {r : Outcome (PoolMemory × Shared) Op Event}
    (h : HasConsumer m ops) (hr : m.startCall sh c = some r) :
    HasConsumer r.mem.1 (r.next.toList ++ ops) := by
  have hsub : ∀ o ∈ ops, o ∈ r.next.toList ++ ops := fun o ho => List.mem_append_right _ ho
  obtain ⟨-, hd, hc, hnext⟩ := startCall_frame hr
  refine ⟨h.exclusive.startCall hr, fun i hi => ?_, fun o ho hreq => ?_, fun hdr => ?_⟩
  · obtain ⟨w, hmem, hw⟩ := h.consumer i (hc ▸ hi)
    exact ⟨w, hsub _ hmem, hw⟩
  · rcases List.mem_append.mp ho with ho | ho
    · -- a new operation does not hold the mutex, and one that requests does
      have hfree := hnext o (Option.mem_toList.mp ho)
      exact absurd (hfree.symm.trans (Op.holds_of_requests hreq)) (by decide)
    · exact (h.requesting o ho hreq).mono hsub
  · exact (h.requested (hd ▸ hdr)).mono hsub

/-- The thread whose identity is stored has started and has not left. -/
theorem consumer_access (h : ∀ i, m.consumer = some i → ∃ w, .worker i w ∈ pre ++ o :: post ∧
    w ≠ .starting) (ha : Access m sh o m' sh' next ev) (hi : m'.consumer = some i) :
    ∃ w, .worker i w ∈ pre ++ (next.toList ++ post) ∧ w ≠ .starting := by
  have hother : ∀ w, .worker i w ∈ pre ++ o :: post → Op.worker i w ≠ o → w ≠ .starting →
      ∃ w, .worker i w ∈ pre ++ (next.toList ++ post) ∧ w ≠ .starting := by
    intro w hw hne hs
    refine ⟨w, ?_, hs⟩
    simp only [List.mem_append, List.mem_cons] at hw ⊢
    tauto
  cases ha
  case worker j w w' ha =>
    rcases ha.life with ⟨rfl, hc, rfl⟩ | ⟨rfl, hc, rfl⟩ | ⟨hc, hlife⟩
    · obtain rfl : j = i := Option.some.inj (hc.symm.trans hi)
      exact ⟨.locking, by simp, by simp⟩
    · exact absurd (hc.symm.trans hi) (by simp)
    · obtain ⟨v, hv, hs⟩ := h i (hc ▸ hi)
      by_cases heq : Op.worker i v = .worker j w
      · obtain ⟨rfl, rfl⟩ := Op.worker.inj heq
        rcases hlife with ⟨-, -, rfl⟩ | ⟨u, rfl, hu⟩
        · exact ⟨.leaving, by simp, by simp⟩
        · refine ⟨u, by simp, ?_⟩
          rintro rfl
          exact absurd hu (by decide)
      · exact hother v hv heq hs
  case stop s s' ha =>
    have hc : m'.consumer = m.consumer := by cases ha <;> rfl
    obtain ⟨v, hv, hs⟩ := h i (hc ▸ hi)
    exact hother v hv (by simp) hs
  all_goals
    obtain ⟨v, hv, hs⟩ := h i hi
    exact hother v hv (by simp) hs

/-- **An access keeps a consumer for those who have asked.** -/
theorem HasConsumer.access {z : Choice} (h : HasConsumer m (pre ++ o :: post))
    (hok : asksInLoop.access m (pre ++ o :: post) o z) (ha : Access m sh o m' sh' next ev) :
    HasConsumer m' (pre ++ (next.toList ++ post)) := by
  have hmem : o ∈ pre ++ o :: post := by simp
  refine ⟨h.exclusive.access ha, fun i hi => consumer_access h.consumer ha hi,
    fun o' ho' hr => ?_, fun hd => ?_⟩
  · have hcases : o' ∈ pre ++ post ∨ o' ∈ next.toList := by
      simp only [List.mem_append] at ho' ⊢
      tauto
    rcases hcases with ho' | ho'
    · have hold : o' ∈ pre ++ o :: post := by
        simp only [List.mem_append, List.mem_cons] at ho' ⊢
        tauto
      rcases (h.requesting o' hold hr).access ha with hin | ⟨i, rfl, -⟩
      · exact hin
      · -- two operations would hold the mutex
        have := (h.exclusive.held (o := .worker i .testDiscard) rfl).2 o' ho'
        exact absurd (this.symm.trans (Op.holds_of_requests hr)) (by decide)
    · -- the consumer was in its loop when the caller looked
      obtain ⟨hdecides, hs, i, hi, hne⟩ := ha.asks ho' hr
      obtain ⟨w, hw, hstart⟩ := h.consumer i hi
      have hleave : w ≠ .leaving := by
        rintro rfl
        exact hok hdecides hs i hi hne hw
      have hin : SomeInLoop (pre ++ o :: post) :=
        ⟨i, w, hw, by cases w <;> first | rfl | contradiction⟩
      refine (hin.access ha).resolve_right ?_
      rintro ⟨j, rfl, -⟩
      exact absurd hdecides (by simp [Op.decides])
  · rcases ha.raises hd with hd | hr
    · refine ((h.requested hd).access ha).resolve_right ?_
      rintro ⟨i, -, hnot⟩
      exact absurd (hd.symm.trans hnot) (by decide)
    · refine ((h.requesting o hmem hr).access ha).resolve_right ?_
      rintro ⟨i, rfl, -⟩
      exact absurd hr (by simp [Op.requests])

end PoolMemory

namespace PoolSystem

open PoolMemory

variable {n : ℕ} {descriptors : Fin n → PoolDescriptor} {k : ℕ} {s : Machine n}

/-- **The hand-shake.**  When every `stop(FORCE)` that asks the consumer finds it in its loop,
nobody waits for a consumer that has left. -/
theorem not_stranded_of_reaches (h : Reaches step asksInLoop.ok (start descriptors k) s)
    (p : Fin n) : ¬ Stranded (s.mem.pools p) (ofPool p s.ops) := by
  have hinv := invariant (I := fun m ops _ => HasConsumer m ops) h p
    ⟨rfl, fun i hi => absurd hi (by simp [start, make]), fun o ho => absurd ho (by simp [start]),
      fun hd => absurd hd (by simp [start, make])⟩
    (fun mem sh ops tr c r hI _ hr => hI.startCall hr)
    (fun mem sh pre o post tr z mem' sh' next ev hI hok ha => hI.access hok ha)
  rintro ⟨hd, -, hnot⟩
  exact hnot (hinv.requested hd)

instance : ∀ m ops c, Decidable (asksInLoop.call m ops c) := fun _ _ _ => .isTrue trivial

instance (m : PoolMemory) (ops : List Op) (o : Op) (z : Choice) :
    Decidable (asksInLoop.access m ops o z) :=
  inferInstanceAs (Decidable (o.decides = true → m.singleConsumer = true →
    ∀ i ∈ m.consumer, o.caller ≠ some i → .worker i .leaving ∉ ops))

/-- `stop(FORCE)` is called while the one thread is blocked in `condition.wait`. -/
def stopsWhileWaiting : List (Action (Call 1) Choice) :=
  [.call (.pool onlyPool .start), .call (.pool onlyPool .run)] ++ accesses 0 13 ++
    [.call (.pool onlyPool (.stop .force))] ++ accesses 0 6

/-- The caller waits, and the consumer is there. -/
theorem not_stranded_of_reaches_stopsWhileWaiting :
    ∃ s, exec step (start oneThread 1) stopsWhileWaiting = some s ∧
      s.ops = [(onlyPool, .stop .blocked), (onlyPool, .worker 0 .waiting)] ∧
      ¬ Stranded (s.mem.pools onlyPool) (ofPool onlyPool s.ops) := by
  obtain ⟨s, hs⟩ := Option.isSome_iff_exists.mp
    (by decide : (exec step (start oneThread 1) stopsWhileWaiting).isSome = true)
  have hops : (exec step (start oneThread 1) stopsWhileWaiting).map (fun s => s.ops) =
      some [(onlyPool, .stop .blocked), (onlyPool, .worker 0 .waiting)] := by decide
  have hok : execOk step asksInLoop.ok (start oneThread 1) stopsWhileWaiting := by decide
  rw [hs] at hops
  exact ⟨s, hs, Option.some.inj hops, not_stranded_of_reaches (reaches_of_exec hs hok) onlyPool⟩

/-- The one thread leaves, and `stop(FORCE)` is called before `consumer_thread_id` is reset. -/
def stopsAtExit : List (Action (Call 1) Choice) :=
  [.call (.pool onlyPool .start), .call (.pool onlyPool .run),
    .call (.pool onlyPool (.stop .normal))] ++ accesses 0 7 ++
    [.call (.pool onlyPool (.stop .force))] ++ accesses 0 6 ++ accesses 1 1

/-- The caller waits for a thread that has left. -/
theorem stranded_of_stopsAtExit :
    ¬ ∀ (n : ℕ) (descriptors : Fin n → PoolDescriptor) (k : ℕ) (s : Machine n) (p : Fin n),
      Reaches step Always (start descriptors k) s →
      ¬ Stranded (s.mem.pools p) (ofPool p s.ops) := by
  intro h
  obtain ⟨s, hs⟩ := Option.isSome_iff_exists.mp
    (by decide : (exec step (start oneThread 1) stopsAtExit).isSome = true)
  have hend : (exec step (start oneThread 1) stopsAtExit).map (fun s =>
      ((s.mem.pools onlyPool).discardQueuesRequested, ofPool onlyPool s.ops)) =
      some (true, [.stop .blocked]) := by decide
  rw [hs, Option.map_some, Option.some.injEq, Prod.mk.injEq] at hend
  obtain ⟨hd, hops⟩ := hend
  refine h 1 oneThread 1 s onlyPool (reaches_always_of_exec hs) ⟨hd, ?_, ?_⟩ <;> rw [hops]
  · exact ⟨_, List.mem_singleton_self _, rfl⟩
  · rintro ⟨i, w, hmem, -⟩
    exact absurd (List.mem_singleton.mp hmem) (by simp)

end PoolSystem

end Scheduler
end NUClear
