import Mathlib.Algebra.BigOperators.Fin
import Mathlib.Algebra.Order.BigOperators.Group.Finset
import NUClear.Scheduler.Pool.Handshake
import NUClear.Scheduler.Pool.Drain

/-!
# When all pools are idle

Every thread of a pool that counts for idle has a `CountingLock` on the number of active threads,
and the pool has one on the number of active pools.  A worker that takes a task releases both.  So a
pool that is idle runs no task (`Idling.running`), and when the number of active pools drops to
zero, every pool that counts is idle (`activePools_of_reaches`).

## The gap

A pool that is idle may have a task in a bucket.  `submit` enqueues before it takes the mutex and
clears the idle state, so in between the pool is idle with a task; and a worker that wakes up with
`live` false does not search the buckets and accounts for idle, whatever is in them.  The condition
`handsOutEmpty` excludes this, and then the reactions that wait for all pools to be idle are handed
out when nothing is queued or running (`empty_of_globalIdle`).

## The proof

* `Threads`: the number of active threads is that of the threads that do not count as idle; a thread
  changes its own state only (`WorkerAccess.active`).
* `Idling`: what an idle pool has.  Its threads are idle and run nothing, and what is in its buckets
  was put there by a `submit` that has yet to take the mutex.
* `Access.activePools`: the number of active pools and the pool's own part of it (`act`) change
  together, so the number is the sum of the parts.
* `step_globalIdle`: the reactions of the scheduler are handed out by the worker whose pool is the
  last to go idle.
-/

namespace NUClear
namespace Scheduler

open Foundation

/-- A sum over one changed value. -/
theorem sum_update {ι β : Type} [DecidableEq ι] (s : Finset ι) (f : β → ℤ) (g : ι → β) {i : ι}
    (hi : i ∈ s) (b : β) :
    ∑ x ∈ s, f (Function.update g i b x) = ∑ x ∈ s, f (g x) - f (g i) + f b := by
  have hdiff : ∑ x ∈ s, (f (Function.update g i b x) - f (g x)) = f b - f (g i) := by
    rw [Finset.sum_eq_single_of_mem i hi]
    · rw [Function.update_self]
    · intro x _ hx
      rw [Function.update_of_ne hx, sub_self]
  rw [Finset.sum_sub_distrib] at hdiff
  omega

namespace PoolMemory

/-! ## The threads of a pool -/

/-- The task that a worker runs. -/
def WorkerPoint.runs : WorkerPoint → Option Task
  | .running t => t
  | .stopping t _ => t
  | _ => none

/-- The number of threads below `k` that do not count as idle. -/
def awake (threadIdle : ℕ → Bool) (k : ℕ) : ℤ :=
  ∑ i ∈ Finset.range k, if threadIdle i then 0 else 1

/-- The threads that have entered `run`, no two the same, and the number of those that are active.
-/
structure Threads (m : PoolMemory) (ops : List Op) : Prop where
  nodup : (ops.filterMap Op.caller).Nodup
  launched : ∀ i ∈ ops.filterMap Op.caller, i < m.launched
  enough : m.launched ≤ m.threads
  fresh : m.started = false → m.launched = 0 ∧ m.threadIdle = fun _ => false
  active : m.started = true → m.descriptor.countsForIdle = true →
    m.active = awake m.threadIdle m.threads
  busy : ∀ i w, .worker i w ∈ ops → ∀ t ∈ w.runs, m.threadIdle i = false

/-- The task that a `submit` has enqueued, before it clears the idle state. -/
def Op.announces : Op → Option Task
  | .submitSection t true _ => some t
  | _ => none

/-- A `submit` that does not clear the idle state enqueues. -/
def Op.quietly : Op → Bool
  | .enqueue _ false _ => true
  | _ => false

/-- The worker's pool goes idle. -/
def Op.goesIdle (m : PoolMemory) : Op → Bool
  | .worker i .account => m.goesIdle i
  | _ => false

/-- The worker's pool goes idle, the last active one. -/
def Op.lastActive (m : PoolMemory) (sh : Shared) : Op → Bool
  | .worker i .account => m.lastActive sh i
  | _ => false

/-- What an idle pool has: it counts for idle, none of its threads runs a task or has one in its
hands, and every task in its buckets is announced by a `submit` that has yet to clear the idle
state. -/
structure Idling (m : PoolMemory) (ops : List Op) : Prop where
  counts : m.poolIdle = true → m.descriptor.countsForIdle = true
  queued : m.poolIdle = true → ∀ t : Task, (t ∈ m.buckets.contents ∨
    ∃ i w, .worker i w ∈ ops ∧ w.carried = some t) → ∃ o ∈ ops, o.announces = some t
  running : m.poolIdle = true → ∀ i w, .worker i w ∈ ops → w.runs = none

/-- The condition on a run, in one pool: no task is enqueued in an idle pool by a `submit` that does
not clear the idle state; and when a worker finds its pool idle, every task in the buckets has yet
to be announced by a `submit` that does. -/
def accountsEmpty : PoolSystem.Condition where
  call _ _ _ := True
  access m ops o _ :=
    (o.quietly = true → m.poolIdle = false) ∧
      (o.goesIdle m = true → ∀ t ∈ m.buckets.contents, ∃ o' ∈ ops, o'.announces = some t)

section

variable {m m' : PoolMemory} {sh sh' : Shared} {o : Op} {pre post ops : List Op} {next : Option Op}
  {ev : List Event} {i : ℕ} {w : WorkerPoint} {s : StopPoint} {t : Task}

theorem awake_update (threadIdle : ℕ → Bool) {k i : ℕ} (hi : i < k) (b : Bool) :
    awake (Function.update threadIdle i b) k =
      awake threadIdle k - (if threadIdle i then 0 else 1) + if b then 0 else 1 :=
  sum_update (Finset.range k) (fun b : Bool => if b then 0 else 1) threadIdle
    (Finset.mem_range.mpr hi) b

/-- A thread that is awake is counted. -/
theorem awake_pos (threadIdle : ℕ → Bool) {k i : ℕ} (hi : i < k) (h : threadIdle i = false) :
    0 < awake threadIdle k := by
  have hle : (if threadIdle i then 0 else 1 : ℤ) ≤ awake threadIdle k :=
    Finset.single_le_sum (f := fun i => if threadIdle i then 0 else (1 : ℤ))
      (fun j _ => by split_ifs <;> decide) (Finset.mem_range.mpr hi)
  rw [h] at hle
  exact hle

/-- Thread `i` of the pool changes its own idle state only, and `active` with it. -/
theorem WorkerAccess.active {w' : Option WorkerPoint} (h : WorkerAccess m sh i w m' sh' w' ev)
    (hi : i < m.threads) :
    m'.active - awake m'.threadIdle m.threads = m.active - awake m.threadIdle m.threads ∧
      ∀ j, j ≠ i → m'.threadIdle j = m.threadIdle j := by
  have hget : (m.getLocalIdleTask i).active - awake (m.getLocalIdleTask i).threadIdle m.threads =
      m.active - awake m.threadIdle m.threads ∧
        ∀ j, j ≠ i → (m.getLocalIdleTask i).threadIdle j = m.threadIdle j := by
    unfold getLocalIdleTask
    split_ifs with hg
    · have hidle : m.threadIdle i = false := by
        rw [getsIdle, Bool.and_eq_true] at hg
        simpa using hg.2
      refine ⟨?_, fun j hj => Function.update_of_ne hj ..⟩
      rw [awake_update _ hi, hidle]
      simp only [if_true, Bool.false_eq_true, if_false]
      omega
    · exact ⟨rfl, fun j _ => rfl⟩
  cases h
  case clearPendingIdleNone | clearPendingIdleSome | accountNone | accountSome => exact hget
  case tryLock t =>
    show (if m.threadIdle i then m.active + 1 else m.active) -
      awake (Function.update m.threadIdle i false) m.threads = _ ∧ _
    refine ⟨?_, fun j hj => Function.update_of_ne hj ..⟩
    rw [awake_update _ hi]
    simp only [Bool.false_eq_true, if_false]
    split_ifs <;> omega
  case stopping t s s' h => cases h <;> exact ⟨rfl, fun j _ => rfl⟩
  all_goals exact ⟨rfl, fun j _ => rfl⟩

theorem Access.active (h : Access m sh o m' sh' next ev) (hi : ∀ i ∈ o.caller, i < m.threads) :
    m'.active - awake m'.threadIdle m.threads = m.active - awake m.threadIdle m.threads ∧
      ∀ j, o.caller ≠ some j → m'.threadIdle j = m.threadIdle j := by
  cases h
  case worker i w w' h =>
    obtain ⟨hactive, hothers⟩ := h.active (hi i rfl)
    exact ⟨hactive, fun j hj => hothers j fun heq => hj (by rw [heq]; rfl)⟩
  case stop s s' h => cases h <;> exact ⟨rfl, fun j _ => rfl⟩
  all_goals exact ⟨rfl, fun j _ => rfl⟩

/-- What no access changes. -/
theorem Access.frame (h : Access m sh o m' sh' next ev) :
    m'.descriptor = m.descriptor ∧ m'.threads = m.threads ∧ m'.started = m.started ∧
      m'.launched = m.launched := by
  cases h
  case worker i w w' h =>
    cases h
    case stopping t s s' h => cases h <;> exact ⟨rfl, rfl, rfl, rfl⟩
    all_goals exact ⟨rfl, rfl, rfl, rfl⟩
  case stop s s' h => cases h <;> exact ⟨rfl, rfl, rfl, rfl⟩
  all_goals exact ⟨rfl, rfl, rfl, rfl⟩

/-- A worker stays the same thread. -/
theorem Access.caller (h : Access m sh o m' sh' next ev) :
    next.toList.filterMap Op.caller = [] ∨
      next.toList.filterMap Op.caller = o.caller.toList := by
  cases h
  case worker i w w' h => cases w' <;> first | exact Or.inl rfl | exact Or.inr rfl
  case stop s s' h => cases s' <;> exact Or.inl rfl
  case submitSection t clearIdle force h => cases force <;> exact Or.inl rfl
  all_goals exact Or.inl rfl

theorem runs_loopTop (m : PoolMemory) : m.loopTop.runs = none := by
  unfold loopTop
  split_ifs <;> rfl

theorem runs_lookForTask (m : PoolMemory) : m.lookForTask.runs = none := by
  unfold lookForTask
  split_ifs <;> rfl

/-- Who runs a task has run it before, or takes it, and the idle state of the thread and of the pool
is cleared. -/
theorem WorkerAccess.runs {v : WorkerPoint} (h : WorkerAccess m sh i w m' sh' (some v) ev)
    (ht : v.runs = some t) : w.runs = some t ∧ m'.threadIdle = m.threadIdle ∨
      m'.threadIdle i = false ∧ m'.poolIdle = false := by
  generalize hv : some v = w' at h
  cases h
  case tryLock t' => exact Or.inr ⟨Function.update_self .., rfl⟩
  case callStop t' type =>
    obtain rfl := Option.some.inj hv
    exact Or.inl ⟨ht, rfl⟩
  case stopping t' s s' h =>
    obtain rfl := Option.some.inj hv
    refine Or.inl ⟨?_, by cases h <;> rfl⟩
    cases s' <;> exact ht
  case leaving => exact absurd hv (by simp)
  all_goals
    obtain rfl := Option.some.inj hv
    refine absurd ht ?_
    first
      | rw [runs_loopTop]; simp
      | rw [runs_lookForTask]; simp
      | simp [WorkerPoint.runs]

/-- **An access keeps the count of active threads.** -/
theorem Threads.access (h : Threads m (pre ++ o :: post)) (ha : Access m sh o m' sh' next ev) :
    Threads m' (pre ++ (next.toList ++ post)) := by
  have hmem : o ∈ pre ++ o :: post := by simp
  have hcallers : (pre ++ o :: post).filterMap Op.caller =
      pre.filterMap Op.caller ++ (o.caller.toList ++ post.filterMap Op.caller) := by
    rw [List.filterMap_append, List.filterMap_cons]
    cases o.caller <;> rfl
  have hsub : ((pre ++ (next.toList ++ post)).filterMap Op.caller).Sublist
      ((pre ++ o :: post).filterMap Op.caller) := by
    rw [hcallers, List.filterMap_append, List.filterMap_append]
    rcases ha.caller with hc | hc
    · rw [hc]
      exact (List.Sublist.refl _).append (List.sublist_append_right ..)
    · rw [hc]
  have hbound : ∀ i, o.caller = some i → i < m.threads := by
    intro i hi
    exact (h.launched i (List.mem_filterMap.mpr ⟨o, hmem, hi⟩)).trans_le h.enough
  obtain ⟨hd, ht, hs, hl⟩ := ha.frame
  obtain ⟨hactive, hothers⟩ := ha.active hbound
  refine ⟨h.nodup.sublist hsub, fun i hi => ?_, ?_, fun hstart => ?_, fun hstart hc => ?_,
    fun i v hv t hrun => ?_⟩
  · rw [hl]
    exact h.launched i (hsub.subset hi)
  · rw [hl, ht]
    exact h.enough
  · obtain ⟨hzero, hidle⟩ := h.fresh (hs ▸ hstart)
    refine ⟨hl.trans hzero, ?_⟩
    have hnone : o.caller = none := by
      rw [Option.eq_none_iff_forall_not_mem]
      intro i hi
      have := h.launched i (List.mem_filterMap.mpr ⟨o, hmem, hi⟩)
      omega
    rw [← hidle]
    exact funext fun j => hothers j (by rw [hnone]; simp)
  · have := h.active (hs ▸ hstart) (hd ▸ hc)
    rw [ht]
    omega
  · rcases mem_access hv with hold | hnew
    · -- another thread's idle state is not touched
      have hne : o.caller ≠ some i := by
        intro hi
        have hdup := h.nodup
        rw [hcallers, hi] at hdup
        have hin : i ∈ pre.filterMap Op.caller ++ post.filterMap Op.caller := by
          rw [← List.filterMap_append]
          exact List.mem_filterMap.mpr ⟨_, hold, rfl⟩
        have := (List.perm_middle.nodup_iff.mp hdup)
        exact (List.nodup_cons.mp this).1 hin
      rw [hothers i hne]
      exact h.busy i v (mem_of_mem_append hold) t hrun
    · obtain ⟨w, rfl, hstep⟩ := ha.of_worker hnew
      rcases hstep.runs hrun with ⟨hw, hsame⟩ | ⟨hidle, -⟩
      · rw [hsame]
        exact h.busy i w hmem t hw
      · exact hidle

/-- A call, but for that of `start` or `run`, leaves the threads as they are. -/
theorem Threads.startCall {c : Call} {r : Outcome (PoolMemory × Shared) Op Event}
    (h : Threads m ops) (hr : m.startCall sh c = some r) :
    Threads r.mem.1 (r.next.toList ++ ops) := by
  have hsame : ∀ {m' : PoolMemory} {next : List Op}, m'.descriptor = m.descriptor →
      m'.threads = m.threads → m'.started = m.started → m'.launched = m.launched →
      m'.threadIdle = m.threadIdle → m'.active = m.active → next.filterMap Op.caller = [] →
      Threads m' (next ++ ops) := by
    intro m' next hd ht hs hl hi ha hnext
    have hcallers : (next ++ ops).filterMap Op.caller = ops.filterMap Op.caller := by
      rw [List.filterMap_append, hnext, List.nil_append]
    refine ⟨hcallers ▸ h.nodup, hcallers ▸ hl ▸ h.launched, hl ▸ ht ▸ h.enough, ?_, ?_, ?_⟩
    · rw [hs, hl, hi]
      exact h.fresh
    · rw [hs, hd, ha, hi, ht]
      exact h.active
    · intro i w hw
      rcases List.mem_append.mp hw with hw | hw
      · have : i ∈ next.filterMap Op.caller := List.mem_filterMap.mpr ⟨_, hw, rfl⟩
        rw [hnext] at this
        exact absurd this List.not_mem_nil
      · rw [hi]
        exact h.busy i w hw
  cases c <;> simp only [PoolMemory.startCall] at hr
  case start =>
    by_cases hs : m.started = true
    · rw [if_pos hs] at hr
      exact absurd hr (by simp)
    · rw [if_neg hs] at hr
      cases hr
      obtain ⟨hzero, hidle⟩ := h.fresh (by simpa using hs)
      refine ⟨h.nodup, h.launched, h.enough, fun hs => absurd hs (by simp), fun _ hc => ?_, h.busy⟩
      have hc : m.descriptor.countsForIdle = true := hc
      show (if m.descriptor.countsForIdle then (m.threads : ℤ) else 0) =
        awake m.threadIdle m.threads
      rw [if_pos hc, hidle, awake]
      simp
  case run =>
    split_ifs at hr with hrun
    cases hr
    refine ⟨?_, fun i hi => ?_, Nat.succ_le_of_lt hrun.2, fun hs => ?_, h.active, fun i w hw => ?_⟩
    · show (m.launched :: ops.filterMap Op.caller).Nodup
      exact List.nodup_cons.mpr ⟨fun hmem => lt_irrefl _ (h.launched _ hmem), h.nodup⟩
    · have hi : i ∈ m.launched :: ops.filterMap Op.caller := hi
      rcases List.mem_cons.mp hi with rfl | hi
      · exact Nat.lt_succ_self _
      · exact (h.launched i hi).trans (Nat.lt_succ_self _)
    · exact absurd (hrun.1.symm.trans hs) (by simp)
    · rcases List.mem_cons.mp hw with heq | hw
      · obtain ⟨-, rfl⟩ := Op.worker.inj heq
        exact fun t ht => absurd ht (by simp [WorkerPoint.runs])
      · exact h.busy i w hw
  case drain k =>
    obtain ⟨e, -, rfl⟩ := Option.map_eq_some_iff.mp hr
    exact hsame rfl rfl rfl rfl rfl rfl rfl
  case stop | park =>
    cases hr
    exact hsame rfl rfl rfl rfl rfl rfl rfl
  all_goals split_ifs at hr <;> cases hr <;> exact hsame rfl rfl rfl rfl rfl rfl rfl

/-! ## What an idle pool has -/

/-- A pool goes idle when a worker finds all its threads idle. -/
theorem Access.poolIdle (h : Access m sh o m' sh' next ev) (hi : m'.poolIdle = true) :
    m.poolIdle = true ∨ ∃ i, o = .worker i .account ∧ m.goesIdle i = true := by
  cases h
  case worker i w w' h =>
    cases h
    case accountNone | accountSome => exact (Bool.or_eq_true _ _ ▸ hi).imp id fun hg => ⟨i, rfl, hg⟩
    case tryLock => exact absurd hi (by simp)
    case stopping t s s' h => cases h <;> exact Or.inl hi
    all_goals exact Or.inl hi
  case stop s s' h => cases h <;> exact Or.inl hi
  case submitSection t clearIdle force h =>
    rw [wake_poolIdle, Bool.and_eq_true] at hi
    exact Or.inl hi.1
  all_goals exact Or.inl hi

/-- `get_idle_task` touches the idle state only. -/
theorem account_frame (h : Access m sh (.worker i .account) m' sh' next ev) :
    m'.buckets = m.buckets ∧ m'.threadIdle = (m.getLocalIdleTask i).threadIdle ∧
      ∀ j v, next = some (.worker j v) → v.carried = none ∧ v.runs = none := by
  cases h
  case worker w' h =>
    cases h
    case accountNone | accountSome =>
      refine ⟨rfl, rfl, fun j v hv => ?_⟩
      obtain ⟨-, rfl⟩ := Op.worker.inj (Option.some.inj hv)
      exact ⟨rfl, rfl⟩

theorem mem_contents_of_put {t' : Task} (h : t ∈ (m.put t').buckets.contents) :
    t = t' ∨ t ∈ m.buckets.contents :=
  List.mem_cons.mp ((Buckets.contents_enqueue_perm m.buckets t'.bucket t').mem_iff.mp h)

theorem mem_contents_of_dequeue {b : Fin priorityBuckets} {t' : Task} {l : List Task}
    (h : m.buckets b = t' :: l) (ht : t ∈ (m.dequeue b l).buckets.contents) :
    t ∈ m.buckets.contents :=
  (Buckets.contents_dequeue_perm h).mem_iff.mpr (List.mem_cons_of_mem _ ht)

theorem head_mem_contents {b : Fin priorityBuckets} {l : List Task} (h : m.buckets b = t :: l) :
    t ∈ m.buckets.contents :=
  (Buckets.contents_dequeue_perm h).mem_iff.mpr (List.mem_cons_self ..)

/-- A task gets into the buckets by `submit`, or back from a worker. -/
theorem Access.source_contents (h : Access m sh o m' sh' next ev) (ht : t ∈ m'.buckets.contents) :
    t ∈ m.buckets.contents ∨ (∃ i w, o = .worker i w ∧ w.carried = some t) ∨
      ∃ clearIdle force, o = .enqueue t clearIdle force := by
  cases h
  case worker i w w' h =>
    cases h
    case reenqueue t' =>
      rcases mem_contents_of_put ht with rfl | ht
      · exact Or.inr (Or.inl ⟨i, _, rfl, rfl⟩)
      · exact Or.inl ht
    case scanTake b hb t' l h => exact Or.inl (mem_contents_of_dequeue h ht)
    case discardingTake b discarded hb t' l h => exact Or.inl (mem_contents_of_dequeue h ht)
    case stopping t' s s' h =>
      cases h
      case drainTake b drained hb t' l h => exact Or.inl (mem_contents_of_dequeue h ht)
      all_goals exact Or.inl ht
    all_goals exact Or.inl ht
  case stop s s' h =>
    cases h
    case drainTake b drained hb t' l h => exact Or.inl (mem_contents_of_dequeue h ht)
    all_goals exact Or.inl ht
  case enqueue t' clearIdle force =>
    rcases mem_contents_of_put ht with rfl | ht
    · exact Or.inr (Or.inr ⟨clearIdle, force, rfl⟩)
    · exact Or.inl ht
  all_goals exact Or.inl ht

theorem carried_loopTop (m : PoolMemory) : m.loopTop.carried = none := by
  unfold loopTop
  split_ifs <;> rfl

theorem carried_lookForTask (m : PoolMemory) : m.lookForTask.carried = none := by
  unfold lookForTask
  split_ifs <;> rfl

/-- A worker has a task from the buckets, or had it before. -/
theorem WorkerAccess.source_carried {v : WorkerPoint} (h : WorkerAccess m sh i w m' sh' (some v) ev)
    (ht : v.carried = some t) : t ∈ m.buckets.contents ∨ w.carried = some t := by
  generalize hv : some v = w' at h
  cases h
  case scanTake b hb t' l h =>
    obtain rfl := Option.some.inj hv
    obtain rfl : t' = t := Option.some.inj ht
    exact Or.inl (head_mem_contents h)
  case dequeued | tryLockFail | readd =>
    obtain rfl := Option.some.inj hv
    exact Or.inr ht
  case stopping t' s s' h =>
    obtain rfl := Option.some.inj hv
    cases s' <;> exact absurd ht (by simp [afterStop, WorkerPoint.carried])
  case leaving => exact absurd hv (by simp)
  all_goals
    obtain rfl := Option.some.inj hv
    refine absurd ht ?_
    first
      | rw [carried_loopTop]; simp
      | rw [carried_lookForTask]; simp
      | simp [WorkerPoint.carried]

/-- Who has a task from the buckets in its hands holds the mutex. -/
theorem holds_of_carried (h : w.carried = some t) : (Op.worker i w).holds = true := by
  cases w <;> first | rfl | exact absurd h (by simp [WorkerPoint.carried])

/-- The worker that finds its pool idle finds all threads idle. -/
theorem Threads.runs_none (h : Threads m (pre ++ .worker i .account :: post))
    (hg : m.goesIdle i = true) {j : ℕ} {v : WorkerPoint} (hj : .worker j v ∈ pre ++ post) :
    v.runs = none := by
  rw [Option.eq_none_iff_forall_not_mem]
  intro t ht
  have hmem : Op.worker i .account ∈ pre ++ .worker i .account :: post := by simp
  have hbound : ∀ k w, .worker k w ∈ pre ++ .worker i .account :: post → k < m.launched :=
    fun k w hk => h.launched k (List.mem_filterMap.mpr ⟨_, hk, rfl⟩)
  have hi := (hbound i _ hmem).trans_le h.enough
  have hj' := (hbound j v (mem_of_mem_append hj)).trans_le h.enough
  rw [goesIdle, Bool.and_eq_true, Bool.and_eq_true, idles, Bool.and_eq_true, beq_iff_eq] at hg
  obtain ⟨⟨⟨-, hc⟩, -⟩, hzero⟩ := hg
  have hstart : m.started = true := by
    by_contra hs
    have := (h.fresh (by simpa using hs)).1
    have := hbound i _ hmem
    omega
  have hne : j ≠ i := by
    rintro rfl
    have hdup := h.nodup
    rw [List.filterMap_append] at hdup
    have hdup : (pre.filterMap Op.caller ++ j :: post.filterMap Op.caller).Nodup := hdup
    have hin : j ∈ pre.filterMap Op.caller ++ post.filterMap Op.caller := by
      rw [← List.filterMap_append]
      exact List.mem_filterMap.mpr ⟨_, hj, rfl⟩
    exact (List.nodup_cons.mp (List.perm_middle.nodup_iff.mp hdup)).1 hin
  have haccount : WorkerAccess m ⟨0, 0⟩ i .account (m.getIdleTask i) (m.deactivated ⟨0, 0⟩ i)
      (some .waitPendingIdle) (if m.lastActive ⟨0, 0⟩ i then [.globalIdle] else []) := .accountNone
  obtain ⟨hactive, hothers⟩ := haccount.active hi
  have hawake := awake_pos (m.getIdleTask i).threadIdle hj' (by
    rw [hothers j hne]
    exact h.busy j v (mem_of_mem_append hj) t ht)
  have hcount := h.active hstart hc
  have hzero' : (m.getIdleTask i).active = 0 := hzero
  omega

/-- The section of a `submit` that clears the idle state clears it. -/
theorem Access.announced (h : Access m sh o m' sh' next ev) (ho : o.announces = some t) :
    m'.poolIdle = false := by
  cases o with
  | submitSection t' clearIdle force =>
    cases clearIdle with
    | false => exact absurd ho (by simp [Op.announces])
    | true =>
      cases h
      rw [wake_poolIdle, Bool.not_true, Bool.and_false]
  | _ => exact absurd ho (by simp [Op.announces])

/-- **An access keeps what an idle pool has.** -/
theorem Idling.access {z : Choice} (h : Idling m (pre ++ o :: post))
    (hx : Exclusive m (pre ++ o :: post)) (ht : Threads m (pre ++ o :: post))
    (hok : accountsEmpty.access m (pre ++ o :: post) o z) (ha : Access m sh o m' sh' next ev) :
    Idling m' (pre ++ (next.toList ++ post)) := by
  have hmem : o ∈ pre ++ o :: post := by simp
  obtain ⟨hquiet, haccount⟩ := hok
  refine ⟨fun hi => ?_, fun hi t hin => ?_, fun hi j v hv => ?_⟩
  · rw [ha.frame.1]
    rcases ha.poolIdle hi with hidle | ⟨i, rfl, hg⟩
    · exact h.counts hidle
    · rw [goesIdle, Bool.and_eq_true, Bool.and_eq_true, idles, Bool.and_eq_true] at hg
      exact hg.1.1.2
  · -- the `submit` that has yet to announce the task goes on to do so
    have hkeep : (∃ o' ∈ pre ++ o :: post, o'.announces = some t) →
        ∃ o' ∈ pre ++ (next.toList ++ post), o'.announces = some t := by
      rintro ⟨o', ho', hann⟩
      refine ⟨o', mem_others ho' ?_, hann⟩
      rintro rfl
      exact absurd hi (by rw [ha.announced hann]; decide)
    rcases ha.poolIdle hi with hidle | ⟨i, rfl, hg⟩
    · have hold : (t ∈ m.buckets.contents ∨ ∃ i w, .worker i w ∈ pre ++ o :: post ∧
          w.carried = some t) ∨ ∃ clearIdle force, o = .enqueue t clearIdle force := by
        rcases hin with hin | ⟨i, w, hw, hc⟩
        · rcases ha.source_contents hin with hin | ⟨i, w, rfl, hc⟩ | hen
          · exact Or.inl (Or.inl hin)
          · exact Or.inl (Or.inr ⟨i, w, hmem, hc⟩)
          · exact Or.inr hen
        · rcases mem_access hw with hw | hw
          · exact Or.inl (Or.inr ⟨i, w, mem_of_mem_append hw, hc⟩)
          · obtain ⟨u, rfl, hstep⟩ := ha.of_worker hw
            rcases hstep.source_carried hc with hin | hc
            · exact Or.inl (Or.inl hin)
            · exact Or.inl (Or.inr ⟨i, u, hmem, hc⟩)
      rcases hold with hold | ⟨clearIdle, force, rfl⟩
      · exact hkeep (h.queued hidle t hold)
      · cases clearIdle with
        | false => exact absurd (hidle.symm.trans (hquiet rfl)) (by decide)
        | true =>
          cases ha
          exact ⟨.submitSection t true force, by simp, rfl⟩
    · obtain ⟨hb, -, hnext⟩ := account_frame ha
      rcases hin with hin | ⟨j, v, hv, hc⟩
      · exact hkeep (haccount hg t (hb ▸ hin))
      · rcases mem_access hv with hv | hv
        · have := (hx.held (o := .worker i .account) rfl).2 _ hv
          exact absurd (this.symm.trans (holds_of_carried hc)) (by decide)
        · exact absurd ((hnext j v hv).1.symm.trans hc) (by simp)
  · rcases ha.poolIdle hi with hidle | ⟨i, rfl, hg⟩
    · rcases mem_access hv with hv | hv
      · exact h.running hidle j v (mem_of_mem_append hv)
      · obtain ⟨u, rfl, hstep⟩ := ha.of_worker hv
        rw [Option.eq_none_iff_forall_not_mem]
        intro t htask
        rcases hstep.runs htask with ⟨hw, -⟩ | ⟨-, hnot⟩
        · exact absurd ((h.running hidle j u hmem).symm.trans hw) (by simp)
        · exact absurd (hnot.symm.trans hi) (by decide)
    · rcases mem_access hv with hv | hv
      · exact ht.runs_none hg hv
      · exact ((account_frame ha).2.2 j v hv).2

/-- The first access of a call makes no pool idle, and leaves the buckets as they are. -/
theorem startCall_idle {c : Call} {r : Outcome (PoolMemory × Shared) Op Event}
    (h : m.startCall sh c = some r) : (r.mem.1.poolIdle = true → m.poolIdle = true) ∧
      r.mem.1.descriptor = m.descriptor ∧ r.mem.1.buckets = m.buckets ∧
      ∀ i w, r.next = some (.worker i w) → w = .starting := by
  cases c <;> simp only [PoolMemory.startCall] at h
  case drain k =>
    obtain ⟨e, -, rfl⟩ := Option.map_eq_some_iff.mp h
    exact ⟨id, rfl, rfl, fun i w hw => absurd hw (by simp)⟩
  case stop | park =>
    cases h
    exact ⟨id, rfl, rfl, fun i w hw => absurd hw (by simp)⟩
  case run =>
    split_ifs at h
    cases h
    exact ⟨id, rfl, rfl, fun i w hw => (Op.worker.inj (Option.some.inj hw)).2.symm⟩
  case notify clearIdle =>
    split_ifs at h
    cases h
    refine ⟨fun hi => ?_, rfl, rfl, fun i w hw => absurd hw (by simp)⟩
    rw [wake_poolIdle, Bool.and_eq_true] at hi
    exact hi.1
  all_goals
    split_ifs at h <;> cases h <;> exact ⟨id, rfl, rfl, fun i w hw => absurd hw (by simp)⟩

theorem Idling.startCall {c : Call} {r : Outcome (PoolMemory × Shared) Op Event}
    (h : Idling m ops) (hr : m.startCall sh c = some r) :
    Idling r.mem.1 (r.next.toList ++ ops) := by
  obtain ⟨hi, hd, hb, hnext⟩ := startCall_idle hr
  have hold : ∀ {i w}, .worker i w ∈ r.next.toList ++ ops → .worker i w ∈ ops ∨ w = .starting := by
    intro i w hw
    rcases List.mem_append.mp hw with hw | hw
    · exact Or.inr (hnext i w (Option.mem_toList.mp hw))
    · exact Or.inl hw
  refine ⟨fun hidle => hd ▸ h.counts (hi hidle), fun hidle t ht => ?_, fun hidle i w hw => ?_⟩
  · have : ∃ o ∈ ops, o.announces = some t := by
      refine h.queued (hi hidle) t (ht.imp (fun ht => hb ▸ ht) ?_)
      rintro ⟨i, w, hw, hc⟩
      rcases hold hw with hw | rfl
      · exact ⟨i, w, hw, hc⟩
      · exact absurd hc (by simp [WorkerPoint.carried])
    obtain ⟨o, ho, hann⟩ := this
    exact ⟨o, List.mem_append_right _ ho, hann⟩
  · rcases hold hw with hw | rfl
    · exact h.running (hi hidle) i w hw
    · rfl

/-! ## The number of active pools -/

/-- One for a pool that counts and is not idle. -/
def act (m : PoolMemory) : ℤ := if m.descriptor.countsForIdle && !m.poolIdle then 1 else 0

theorem act_nonneg (m : PoolMemory) : 0 ≤ m.act := by
  unfold act
  split_ifs <;> decide

theorem activated_act (hc : m.poolIdle = true → m.descriptor.countsForIdle = true) :
    (m.activated sh).activePools - m.clearPoolIdle.act = sh.activePools - m.act := by
  show (if m.poolIdle then sh.activePools + 1 else sh.activePools) - act _ = _
  unfold act
  rw [clearPoolIdle_descriptor, clearPoolIdle_poolIdle, Bool.not_false, Bool.and_true]
  by_cases hi : m.poolIdle = true
  · rw [if_pos hi, if_pos (hc hi), hi]
    simp
  · rw [if_neg hi, Bool.not_eq_true] at *
    rw [hi, Bool.not_false, Bool.and_true]

theorem woken_act (hc : m.poolIdle = true → m.descriptor.countsForIdle = true) (clearIdle : Bool) :
    (m.woken sh clearIdle).activePools - (m.wake clearIdle).act = sh.activePools - m.act := by
  cases clearIdle with
  | false =>
    show sh.activePools - act _ = _
    unfold act
    rw [wake_descriptor, wake_poolIdle, Bool.not_false, Bool.and_true]
  | true =>
    rw [← activated_act hc]
    show (m.activated sh).activePools - act _ = _
    unfold act
    rw [wake_descriptor, wake_poolIdle, clearPoolIdle_descriptor, clearPoolIdle_poolIdle,
      Bool.not_true, Bool.and_false]

theorem deactivated_act :
    (m.deactivated sh i).activePools - (m.getIdleTask i).act = sh.activePools - m.act := by
  show (if m.goesIdle i then sh.activePools - 1 else sh.activePools) - act _ = _
  unfold act
  rw [getIdleTask_descriptor, getIdleTask_poolIdle]
  by_cases hg : m.goesIdle i = true
  · have hcount := hg
    rw [goesIdle, idles, Bool.and_eq_true, Bool.and_eq_true, Bool.and_eq_true,
      Bool.not_eq_true'] at hcount
    obtain ⟨⟨⟨-, hc⟩, hi⟩, -⟩ := hcount
    rw [if_pos hg, hg, hc, hi]
    simp
  · rw [if_neg hg, Bool.not_eq_true] at *
    rw [hg, Bool.or_false]
    rfl

/-- **An access keeps the count of active pools.** -/
theorem Access.activePools (h : Access m sh o m' sh' next ev)
    (hc : m.poolIdle = true → m.descriptor.countsForIdle = true) :
    sh'.activePools - m'.act = sh.activePools - m.act := by
  cases h
  case worker i w w' h =>
    cases h
    case tryLock => exact activated_act hc
    case accountNone | accountSome => exact deactivated_act
    case stopping t s s' h => cases h <;> rfl
    all_goals rfl
  case stop s s' h => cases h <;> rfl
  case submitSection t clearIdle force h => exact woken_act hc clearIdle
  all_goals rfl

theorem startCall_activePools {c : Call} {r : Outcome (PoolMemory × Shared) Op Event}
    (h : m.startCall sh c = some r)
    (hc : m.poolIdle = true → m.descriptor.countsForIdle = true) :
    r.mem.2.activePools - r.mem.1.act = sh.activePools - m.act := by
  cases c <;> simp only [PoolMemory.startCall] at h
  case drain k =>
    obtain ⟨e, -, rfl⟩ := Option.map_eq_some_iff.mp h
    rfl
  case stop | park =>
    cases h
    rfl
  case notify clearIdle =>
    split_ifs at h
    cases h
    exact woken_act hc clearIdle
  all_goals split_ifs at h <;> cases h <;> rfl

/-- The reactions of the scheduler are handed out by the last active pool that goes idle. -/
theorem Access.globalIdle (h : Access m sh o m' sh' next ev) (he : .globalIdle ∈ ev) :
    ∃ i, o = .worker i .account ∧ m.lastActive sh i = true := by
  cases h
  case worker i w w' h =>
    cases h
    case accountNone | accountSome =>
      refine ⟨i, rfl, ?_⟩
      by_contra hl
      rw [if_neg hl] at he
      exact absurd he List.not_mem_nil
    all_goals exact absurd he (by simp)
  all_goals exact absurd he (by simp)

/-- The worker goes on with no task. -/
theorem account_next (h : Access m sh (.worker i .account) m' sh' next ev) (ho : next = some o) :
    o.announces = none ∧ o.carried = none := by
  cases h
  case worker w' h =>
    obtain ⟨v, rfl, rfl⟩ := Option.map_eq_some_iff.mp ho
    cases h <;> exact ⟨rfl, rfl⟩

/-- Then no pool is active any more. -/
theorem Access.deactivates (h : Access m sh (.worker i .account) m' sh' next ev)
    (hl : m.lastActive sh i = true) : sh'.activePools = 0 := by
  rw [lastActive, Bool.and_eq_true, beq_iff_eq] at hl
  obtain ⟨hg, hlast⟩ := hl
  have : (m.deactivated sh i).activePools = 0 := by
    rw [← hlast]
    exact if_pos hg
  cases h
  case worker w' h => cases h <;> exact this

/-- No call hands them out. -/
theorem startCall_globalIdle {c : Call} {r : Outcome (PoolMemory × Shared) Op Event}
    (h : m.startCall sh c = some r) : .globalIdle ∉ r.emitted := by
  cases c <;> simp only [PoolMemory.startCall] at h
  case drain k =>
    obtain ⟨e, -, rfl⟩ := Option.map_eq_some_iff.mp h
    exact List.not_mem_nil
  case stop | park =>
    cases h
    exact List.not_mem_nil
  all_goals split_ifs at h <;> cases h <;> simp

end

end PoolMemory

namespace PoolSystem

open PoolMemory

variable {n : ℕ} {descriptors : Fin n → PoolDescriptor} {k : ℕ} {s s' : Machine n}

/-- A pool that does not count is never idle. -/
theorem counts_of_reaches {ok : Machine n → Action (Call n) Choice → Prop}
    (h : Reaches step ok (start descriptors k) s) (p : Fin n)
    (hi : (s.mem.pools p).poolIdle = true) :
    (s.mem.pools p).descriptor.countsForIdle = true := by
  refine invariant (C := ⟨fun _ _ _ => True, fun _ _ _ _ => True⟩)
    (I := fun m _ _ => m.poolIdle = true → m.descriptor.countsForIdle = true)
    (h.mono fun _ a _ => ?_) p id (fun mem sh ops tr c r hI _ hr hi => ?_)
    (fun mem sh pre o post tr z mem' sh' next ev hI _ ha hi => ?_) hi
  · cases a with
    | call c => cases c <;> trivial
    | advance i z => exact fun _ _ => trivial
  · obtain ⟨hidle, hd, -, -⟩ := startCall_idle hr
    exact hd ▸ hI (hidle hi)
  · rw [ha.frame.1]
    rcases ha.poolIdle hi with hidle | ⟨i, rfl, hg⟩
    · exact hI hidle
    · rw [goesIdle, Bool.and_eq_true, Bool.and_eq_true, idles, Bool.and_eq_true] at hg
      exact hg.1.1.2

/-- What one pool does to its part of the number of active pools, it does to the number. -/
theorem activePools_lift (S : PoolSystem n) (p : Fin n)
    (r : Outcome (PoolMemory × Shared) PoolMemory.Op PoolMemory.Event)
    (hS : S.shared.activePools = ∑ q, (S.pools q).act)
    (hr : r.mem.2.activePools - r.mem.1.act = S.shared.activePools - (S.pools p).act) :
    (S.lift p r).mem.shared.activePools = ∑ q, ((S.lift p r).mem.pools q).act := by
  show r.mem.2.activePools = ∑ q, (Function.update S.pools p r.mem.1 q).act
  rw [sum_update Finset.univ act S.pools (Finset.mem_univ p), ← hS]
  omega

/-- **The number of active pools.**  It is that of the pools that count and are not idle. -/
theorem activePools_of_reaches {ok : Machine n → Action (Call n) Choice → Prop}
    (h : Reaches step ok (start descriptors k) s) :
    s.mem.shared.activePools = ∑ p, (s.mem.pools p).act := by
  induction h with
  | start =>
    refine (Finset.sum_eq_zero fun p _ => ?_).symm
    show (if (descriptors p).countsForIdle && !(descriptors p).countsForIdle then 1
      else 0) = (0 : ℤ)
    cases (descriptors p).countsForIdle <;> rfl
  | @step m m' a h _ hst ih =>
    have hcounts := counts_of_reaches h
    cases a with
    | call c =>
      obtain ⟨r, hr, rfl⟩ := Program.step_call_eq_some hst
      cases c with
      | pool p c =>
        obtain ⟨r, hr', rfl⟩ := Option.map_eq_some_iff.mp hr
        exact activePools_lift _ p r ih (startCall_activePools hr' (hcounts p))
      | addIdleTask =>
        cases hr
        exact ih
      | removeIdleTask =>
        cases hr
        exact ih
    | advance j z =>
      obtain ⟨pre, o, post, r, -, -, hr, rfl⟩ := Program.step_advance_eq_some hst
      obtain ⟨p, o⟩ := o
      obtain ⟨r, hr', rfl⟩ := Option.map_eq_some_iff.mp hr
      exact activePools_lift _ p r ih ((access_of_advance hr').activePools (hcounts p))

/-- The task of a `submit` that has yet to clear the idle state is in a bucket, or a worker has it
in its hands. -/
def SubmitOpen (m : PoolMemory) (ops : List PoolMemory.Op) : Prop :=
  ∃ o ∈ ops, ∃ t ∈ o.announces, t ∈ m.buckets.contents ∨ ∃ o' ∈ ops, t ∈ o'.carried

/-- The condition on a run: `accountsEmpty`, and when the last active pool goes idle, no `submit` to
a pool that counts has enqueued its task, which is still there, and not cleared the idle state. -/
def handsOutEmpty (m : Machine n) (a : Action (Call n) Choice) : Prop :=
  accountsEmpty.ok m a ∧ AtAccess (fun m x _ =>
    (x.2.lastActive (m.mem.pools x.1) m.mem.shared = true →
      ∀ q, (m.mem.pools q).descriptor.countsForIdle = true →
        ¬ SubmitOpen (m.mem.pools q) (ofPool q m.ops))) m a

/-- A submitted task is in a bucket of the pool, or a worker has it or runs it. -/
def HasTask (m : PoolMemory) (ops : List PoolMemory.Op) : Prop :=
  m.buckets.contents ≠ [] ∨ ∃ i w, .worker i w ∈ ops ∧ (w.carried ≠ none ∨ w.runs ≠ none)

/-- What the pools keep, one by one. -/
theorem idling_of_reaches (h : Reaches step accountsEmpty.ok (start descriptors k) s) (p : Fin n) :
    Exclusive (s.mem.pools p) (ofPool p s.ops) ∧ Threads (s.mem.pools p) (ofPool p s.ops) ∧
      Idling (s.mem.pools p) (ofPool p s.ops) := by
  refine invariant (I := fun m ops _ => Exclusive m ops ∧ Threads m ops ∧ Idling m ops) h p
    ⟨rfl, ?_, ?_⟩
    (fun mem sh ops tr c r hI _ hr => ⟨hI.1.startCall hr, hI.2.1.startCall hr, hI.2.2.startCall hr⟩)
    (fun mem sh pre o post tr z mem' sh' next ev hI hok ha =>
      ⟨hI.1.access ha, hI.2.1.access ha, hI.2.2.access hI.1 hI.2.1 hok ha⟩)
  · exact ⟨List.nodup_nil, fun i hi => absurd hi List.not_mem_nil, Nat.zero_le _,
      fun _ => ⟨rfl, rfl⟩, fun hs => absurd hs (by simp [start, make]),
      fun i w hw => absurd hw List.not_mem_nil⟩
  · refine ⟨id, fun _ t ht => ?_, fun _ i w hw => absurd hw List.not_mem_nil⟩
    rcases ht with ht | ⟨i, w, hw, -⟩
    · exact absurd ht (by simp [start, make])
    · exact absurd hw List.not_mem_nil

/-- The step that hands out the reactions of the scheduler. -/
theorem step_globalIdle {a : Action (Call n) Choice} {p : Fin n} (hst : step s a = some s')
    (hev : s'.trace = (p, .globalIdle) :: s.trace) :
    ∃ pre q i post mem' sh' next ev, a = .advance pre.length .proceed ∧
      s.ops = pre ++ (q, .worker i .account) :: post ∧
      (s.mem.pools q).lastActive s.mem.shared i = true ∧
      Access (s.mem.pools q) s.mem.shared (.worker i .account) mem' sh' next ev ∧
      s'.mem = ⟨Function.update s.mem.pools q mem', sh'⟩ ∧
      s'.ops = pre ++ ((next.map fun o => (q, o)).toList ++ post) := by
  have hemit : ∀ {ev : List (Fin n × PoolMemory.Event)},
      ev.reverse ++ s.trace = (p, .globalIdle) :: s.trace → (p, .globalIdle) ∈ ev := by
    intro ev he
    have hrev : ev.reverse = [(p, .globalIdle)] := List.append_cancel_right he
    exact List.mem_reverse.mp (by rw [hrev]; exact List.mem_singleton_self _)
  cases a with
  | call c =>
    obtain ⟨r, hr, rfl⟩ := Program.step_call_eq_some hst
    have he := hemit hev
    cases c with
    | pool q c =>
      obtain ⟨r, hr', rfl⟩ := Option.map_eq_some_iff.mp hr
      obtain ⟨e, he, heq⟩ := List.mem_map.mp he
      obtain rfl : e = .globalIdle := (Prod.mk.inj heq).2
      exact absurd he (startCall_globalIdle hr')
    | addIdleTask =>
      cases hr
      exact absurd he List.not_mem_nil
    | removeIdleTask =>
      cases hr
      exact absurd he List.not_mem_nil
  | advance j z =>
    obtain ⟨pre, ⟨q, o⟩, post, r, hops, rfl, hr, rfl⟩ := Program.step_advance_eq_some hst
    obtain ⟨r, hr', rfl⟩ := Option.map_eq_some_iff.mp hr
    obtain ⟨e, he, heq⟩ := List.mem_map.mp (hemit hev)
    obtain rfl : e = PoolMemory.Event.globalIdle := (Prod.mk.inj heq).2
    have ha := access_of_advance hr'
    obtain ⟨i, hi, hl⟩ := ha.globalIdle he
    obtain rfl : o = .worker i .account := hi
    cases z with
    | proceed => exact ⟨pre, q, i, post, _, _, _, _, rfl, hops, hl, ha, rfl, rfl⟩
    | fail | stop type => exact absurd hr' (by simp [PoolMemory.advance, workerAdvance])

/-- **Global idle is not premature.**  When the reactions of the scheduler are handed out, every
pool that counts for idle has no task, queued or running. -/
theorem empty_of_globalIdle {a : Action (Call n) Choice} {p : Fin n}
    (h : Reaches step handsOutEmpty (start descriptors k) s) (hok : handsOutEmpty s a)
    (hst : step s a = some s') (hev : s'.trace = (p, .globalIdle) :: s.trace) (q : Fin n)
    (hq : (s'.mem.pools q).descriptor.countsForIdle = true) :
    ¬ HasTask (s'.mem.pools q) (ofPool q s'.ops) := by
  have h' : Reaches step handsOutEmpty (start descriptors k) s' := .step h hok hst
  obtain ⟨-, -, hidling⟩ := idling_of_reaches (h'.mono fun _ _ hx => hx.1) q
  obtain ⟨pre, p', i, post, m', sh', next, ev, rfl, hops, hl, ha, hmem, hops'⟩ :=
    step_globalIdle hst hev
  -- all pools that count are idle
  have hidle : (s'.mem.pools q).poolIdle = true := by
    have hsum := activePools_of_reaches h'
    have hzero : s'.mem.shared.activePools = 0 := by
      rw [hmem]
      exact ha.deactivates hl
    rw [hzero, eq_comm, Finset.sum_eq_zero_iff_of_nonneg fun p _ => act_nonneg _] at hsum
    have hact := hsum q (Finset.mem_univ q)
    rw [act, hq, Bool.true_and] at hact
    by_contra hi
    rw [Bool.not_eq_true] at hi
    rw [hi] at hact
    exact absurd hact (by decide)
  -- the step is made with the mutex and leaves the tasks as they are
  obtain ⟨hb, -, hnext⟩ := account_frame ha
  have hpool : (s'.mem.pools q).buckets = (s.mem.pools q).buckets ∧
      (s'.mem.pools q).descriptor = (s.mem.pools q).descriptor := by
    rw [hmem]
    show (Function.update s.mem.pools p' m' q).buckets = _ ∧
      (Function.update s.mem.pools p' m' q).descriptor = _
    by_cases hp : q = p'
    · subst hp
      rw [Function.update_self]
      exact ⟨hb, ha.frame.1⟩
    · rw [Function.update_of_ne hp]
      exact ⟨rfl, rfl⟩
  have hold : ∀ o ∈ ofPool q s'.ops, o ∈ ofPool q s.ops ∨ o.announces = none ∧
    o.carried = none := by
    intro o ho
    rw [mem_ofPool, hops'] at ho
    rw [mem_ofPool, hops]
    rcases mem_access ho with ho | ho
    · exact Or.inl (mem_of_mem_append ho)
    · obtain ⟨o', ho', heq⟩ := Option.map_eq_some_iff.mp ho
      obtain rfl := (Prod.mk.inj heq).2
      exact Or.inr (account_next ha ho')
  have hopen : ¬ SubmitOpen (s.mem.pools q) (ofPool q s.ops) := by
    refine hok.2 (p', .worker i .account) ?_ hl q (hpool.2 ▸ hq)
    rw [hops]
    simp
  -- so a task of the pool would belong to a `submit` that has yet to clear its idle state
  have hnone : ∀ t : Task, ¬ (t ∈ (s'.mem.pools q).buckets.contents ∨
      ∃ i w, .worker i w ∈ ofPool q s'.ops ∧ w.carried = some t) := by
    intro t ht
    obtain ⟨o, ho, hann⟩ := hidling.queued hidle t ht
    refine hopen ⟨o, (hold o ho).resolve_right fun hn => ?_, t, hann, ?_⟩
    · exact absurd (hn.1.symm.trans hann) (by simp)
    rcases ht with ht | ⟨i, w, hw, hc⟩
    · exact Or.inl (hpool.1 ▸ ht)
    · refine Or.inr ⟨_, (hold _ hw).resolve_right fun hn => ?_, hc⟩
      exact absurd (hn.2.symm.trans hc) (by simp)
  rintro (hne | ⟨i, w, hw, hc | hr⟩)
  · obtain ⟨t, ht⟩ := List.exists_mem_of_ne_nil _ hne
    exact hnone t (Or.inl ht)
  · obtain ⟨t, ht⟩ := Option.ne_none_iff_exists'.mp hc
    exact hnone t (Or.inr ⟨i, w, hw, ht⟩)
  · exact hr (hidling.running hidle i w hw)

instance : ∀ m ops c, Decidable (accountsEmpty.call m ops c) := fun _ _ _ => .isTrue trivial

instance (m : PoolMemory) (ops : List Op) (o : Op) (z : Choice) :
    Decidable (accountsEmpty.access m ops o z) :=
  inferInstanceAs (Decidable ((o.quietly = true → m.poolIdle = false) ∧
    (o.goesIdle m = true → ∀ t ∈ m.buckets.contents, ∃ o' ∈ ops, o'.announces = some t)))

instance (m : PoolMemory) (ops : List Op) : Decidable (SubmitOpen m ops) :=
  inferInstanceAs (Decidable (∃ o ∈ ops, ∃ t ∈ o.announces,
    t ∈ m.buckets.contents ∨ ∃ o' ∈ ops, t ∈ o'.carried))

instance (m : Machine n) (a : Action (Call n) Choice) : Decidable (handsOutEmpty m a) :=
  inferInstanceAs (Decidable (accountsEmpty.ok m a ∧ AtAccess (fun m x _ =>
    (x.2.lastActive (m.mem.pools x.1) m.mem.shared = true →
      ∀ q, (m.mem.pools q).descriptor.countsForIdle = true →
        ¬ SubmitOpen (m.mem.pools q) (ofPool q m.ops))) m a))

/-- A task is submitted and run, and the one worker comes back to look for another: it has found
nothing and is about to account for idle. -/
def runsOne : List (Action (Call 1) Choice) :=
  [.call .addIdleTask, .call (.pool onlyPool .start), .call (.pool onlyPool .run),
    .call (.pool onlyPool (.submit 500 .none true))] ++ accesses 0 3 ++ accesses 0 19

theorem empty_of_globalIdle_runsOne :
    ∃ s s', exec step (start oneThread 1) runsOne = some s ∧
      step s (.advance 0 .proceed) = some s' ∧
      s'.trace = (onlyPool, .globalIdle) :: s.trace ∧
      ¬ HasTask (s'.mem.pools onlyPool) (ofPool onlyPool s'.ops) := by
  obtain ⟨s', hs'⟩ := Option.isSome_iff_exists.mp (by decide +kernel :
    (exec step (start oneThread 1) (runsOne ++ [.advance 0 .proceed])).isSome = true)
  obtain ⟨s, hs, hst⟩ := exec_concat_eq_some hs'
  have htrace : (exec step (start oneThread 1) runsOne).map (·.trace) =
      some [(onlyPool, .handed 0), (onlyPool, .returned 0)] := by decide +kernel
  have htrace' : (exec step (start oneThread 1) (runsOne ++ [.advance 0 .proceed])).map (fun s =>
      (s.trace, (s.mem.pools onlyPool).descriptor.countsForIdle)) =
      some ([(onlyPool, .globalIdle), (onlyPool, .handed 0), (onlyPool, .returned 0)], true) := by
    decide +kernel
  have hok : execOk step handsOutEmpty (start oneThread 1) (runsOne ++ [.advance 0 .proceed]) := by
    decide +kernel
  rw [hs, Option.map_some, Option.some.injEq] at htrace
  rw [hs', Option.map_some, Option.some.injEq, Prod.mk.injEq] at htrace'
  obtain ⟨hpre, hlast⟩ := execOk_concat hok hs
  have hev : s'.trace = (onlyPool, .globalIdle) :: s.trace := by rw [htrace'.1, htrace]
  exact ⟨s, s', hs, hst, hev,
    empty_of_globalIdle (reaches_of_exec hs hpre) hlast hst hev onlyPool htrace'.2⟩

/-- While the worker is about to account for idle, a `submit` enqueues its task. -/
def submitsWhileAccounting : List (Action (Call 1) Choice) :=
  runsOne ++ [.call (.pool onlyPool (.submit 500 .none true))] ++ accesses 0 2

/-- The reactions of the scheduler are handed out, and a task is in its bucket. -/
theorem hasTask_of_submitsWhileAccounting :
    ¬ ∀ (n : ℕ) (descriptors : Fin n → PoolDescriptor) (k : ℕ) (s s' : Machine n)
      (a : Action (Call n) Choice) (p : Fin n), Reaches step Always (start descriptors k) s →
      step s a = some s' → s'.trace = (p, .globalIdle) :: s.trace →
      ∀ q, (s'.mem.pools q).descriptor.countsForIdle = true →
        ¬ HasTask (s'.mem.pools q) (ofPool q s'.ops) := by
  intro h
  obtain ⟨s', hs'⟩ := Option.isSome_iff_exists.mp (by decide +kernel :
    (exec step (start oneThread 1) (submitsWhileAccounting ++ [.advance 1 .proceed])).isSome = true)
  obtain ⟨s, hs, hst⟩ := exec_concat_eq_some hs'
  have htrace : (exec step (start oneThread 1) submitsWhileAccounting).map (·.trace) =
      some [(onlyPool, .handed 0), (onlyPool, .returned 0)] := by decide +kernel
  have htrace' : (exec step (start oneThread 1)
      (submitsWhileAccounting ++ [.advance 1 .proceed])).map (fun s =>
        (s.trace, (s.mem.pools onlyPool).descriptor.countsForIdle,
          (s.mem.pools onlyPool).buckets.contents.length)) =
      some ([(onlyPool, .globalIdle), (onlyPool, .handed 0), (onlyPool, .returned 0)], true,
        1) := by
    decide +kernel
  rw [hs, Option.map_some, Option.some.injEq] at htrace
  rw [hs', Option.map_some, Option.some.injEq, Prod.mk.injEq, Prod.mk.injEq] at htrace'
  obtain ⟨htr, hcount, hlength⟩ := htrace'
  refine h 1 oneThread 1 s s' _ onlyPool (reaches_always_of_exec hs) hst (by rw [htr, htrace])
    onlyPool hcount (Or.inl fun hnil => ?_)
  rw [hnil] at hlength
  exact absurd hlength (by decide)

end PoolSystem

end Scheduler
end NUClear
