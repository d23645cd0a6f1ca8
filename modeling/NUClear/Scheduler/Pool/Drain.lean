import NUClear.Scheduler.Pool.Pending

/-!
# What a pool runs before its workers leave

A worker leaves when the pool is not `running` and it has read zero from `pending_tasks` and then
from `external_waiters`, with the mutex held throughout.  Meanwhile a task may move from a group to
a bucket.  The group keeps its registration until `submit` has returned, and `submit` ends with a
mutex section: so while the worker tests, no task can reach a bucket and give up its registration.
A task that was in no bucket when the worker read `pending_tasks`, and is registered no more when it
reads `external_waiters`, has been handed out.

## Following one task

The statement is about one task, by its identity, and every access either leaves it where it is or
moves it one place further.

* `Kept id`: the task has been handed to a worker, or it is somewhere on its way to one: in a
  bucket, parked in a group, or in the hands of an operation.
* `Late id`: it has been handed out, or it is still registered with its group.  This is what is left
  of `Kept` when the buckets are known to be empty and nothing is in the hands of a worker.
* `Settled id`: what the worker that tests has found out so far.  Reading zero from `pending_tasks`
  turns `Kept` into `Late` (`Kept.late`); reading zero from `external_waiters` turns `Late` into
  handed out (`Late.handed`).

`Orderly` holds of a pool in which no `stop(FORCE)` gets the mutex: the counter of pending tasks is
exact, the registrations are counted, and nobody discards.

* `handed_of_left`: a stop leaves behind nothing that was accepted or parked before it.
* `refused_of_submitsAfterStop`: what is submitted after a stop is dropped, by design, and a second
  stop does not bring it back.
-/

namespace NUClear
namespace Scheduler

open Foundation

namespace PoolMemory

/-! ## Where a task is -/

/-- The task that a worker has in its hands. -/
def WorkerPoint.carried : WorkerPoint → Option Task
  | .dequeued t => some t
  | .tryLock t => some t
  | .readd t => some t
  | .reenqueue t => some t
  | _ => none

/-- The task that an operation brings from a group to a bucket, up to the end of `submit`. -/
def Op.drains : Op → Option Task
  | .add t _ true => some t
  | .enqueue t _ true => some t
  | .submitSection t _ true => some t
  | _ => none

/-- The task that is in the hands of an operation: a worker has it, or a group hands it over. -/
def Op.carried : Op → Option Task
  | .worker _ w => w.carried
  | .add t _ true => some t
  | .enqueue t _ true => some t
  | _ => none

/-- The task is in a bucket, in a group, or on its way from one to the other or to a worker. -/
def Located (id : ℕ) (m : PoolMemory) (ops : List Op) : Prop :=
  ∃ t : Task, t.id = id ∧ (t ∈ m.buckets.contents ∨ (∃ e ∈ m.parked, e.1 = t) ∨
    ∃ o ∈ ops, o.carried = some t)

/-- The task has been handed to a worker or will be found. -/
def Kept (id : ℕ) (m : PoolMemory) (ops : List Op) (tr : List Event) : Prop :=
  .handed id ∈ tr ∨ Located id m ops

/-- The task has been handed to a worker or is registered with its group. -/
def Late (id : ℕ) (m : PoolMemory) (ops : List Op) (tr : List Event) : Prop :=
  .handed id ∈ tr ∨ ∃ t : Task, t.id = id ∧ ((∃ e ∈ m.parked, e.1 = t) ∨
    ∃ o ∈ ops, o.drains = some t)

/-- `submit` has enqueued the task. -/
def Op.submitted : Op → Option ℕ
  | .submitSection t _ _ => some t.id
  | _ => none

/-- What is in a group or on its way from one is registered. -/
def Op.registered : Op → ℤ
  | .localRelevant _ _ => 1
  | .globalRelevant _ _ => 1
  | .latch _ _ => 1
  | .latchSection _ _ => 1
  | .publish _ _ => 1
  | .add _ _ force => if force then 1 else 0
  | .enqueue _ _ force => if force then 1 else 0
  | .submitSection _ _ force => if force then 1 else 0
  | .unregister => 1
  | _ => 0

/-- `external_waiters` counts what is parked, with those that are being parked or drained. -/
def Registered (m : PoolMemory) (ops : List Op) : Prop :=
  m.externalWaiters = m.parked.length + total Op.registered ops

/-! ## Runs without `stop(FORCE)` -/

/-- `stop(FORCE)` is about to take the mutex. -/
def Op.forces : Op → Bool
  | .stop (.enter .force) => true
  | .worker _ (.stopping _ (.enter .force)) => true
  | _ => false

/-- No `stop(FORCE)` gets the mutex. -/
def noForce : PoolSystem.Condition where
  call _ _ _ := True
  access _ _ o _ := o.forces = false

/-- The points of `stop(FORCE)`, but for the first. -/
def StopPoint.forced : StopPoint → Bool
  | .enter _ => false
  | .storeAccept .normal => false
  | .storeAccept .final => false
  | _ => true

/-- The points that only `stop(FORCE)` leads to. -/
def Op.forced : Op → Bool
  | .stop s => s.forced
  | .worker _ (.stopping _ s) => s.forced
  | .worker _ (.discarding _ _) => true
  | .worker _ (.discardZero _) => true
  | .worker _ .discardClear => true
  | _ => false

/-- The worker is in the test of the loop of `get_task`. -/
def Op.tests : Op → Bool
  | .worker _ .testPending => true
  | .worker _ .testExternal => true
  | .worker _ .testDiscard => true
  | _ => false

/-- What holds of a pool in which no `stop(FORCE)` gets the mutex: the mutex excludes, the counters
are exact, nobody discards, and who tests the loop does so in a pool that is not running. -/
structure Orderly (m : PoolMemory) (ops : List Op) : Prop where
  exclusive : Exclusive m ops
  counted : Counted m ops
  registered : Registered m ops
  notRequested : m.discardQueuesRequested = false
  notForced : ∀ o ∈ ops, o.forced = false
  stopped : ∀ o ∈ ops, o.tests = true → m.running = false

section

variable {m m' : PoolMemory} {sh sh' : Shared} {o : Op} {pre post ops : List Op} {next : Option Op}
  {ev : List Event} {i : ℕ} {w : WorkerPoint} {s : StopPoint} {id : ℕ} {tr : List Event} {t : Task}

theorem tests_loopTop (h : (Op.worker i m.loopTop).tests = true) : m.running = false := by
  unfold loopTop at h
  split_ifs at h with hr
  · exact absurd h (by simp [Op.tests])
  · simpa using hr

theorem forced_loopTop (m : PoolMemory) (i : ℕ) : (Op.worker i m.loopTop).forced = false := by
  unfold loopTop
  split_ifs <;> rfl

theorem forced_lookForTask (m : PoolMemory) (i : ℕ) :
    (Op.worker i m.lookForTask).forced = false := by
  unfold lookForTask
  split_ifs <;> rfl

theorem tests_lookForTask (m : PoolMemory) (i : ℕ) : (Op.worker i m.lookForTask).tests = false := by
  unfold lookForTask
  split_ifs <;> rfl

/-- Without `stop(FORCE)` the flag is not raised and the points of `stop(FORCE)` are not reached. -/
theorem Access.orderly (h : Access m sh o m' sh' next ev) (hf : o.forces = false)
    (hforced : o.forced = false) (hd : m.discardQueuesRequested = false) :
    m'.discardQueuesRequested = false ∧ ∀ o' ∈ next, o'.forced = false := by
  cases h
  case worker i w w' h =>
    cases h
    case stopping t s s' h =>
      cases h
      case enter type h =>
        cases type <;> simp_all [Op.forces, afterStop, Op.forced, StopPoint.forced]
      all_goals simp_all [Op.forced, StopPoint.forced, afterStop]
    case locking | waitPendingIdleSome | waitDiscardSome | waitExternalNone | waitingLoop =>
      exact ⟨hd, by simpa using forced_loopTop m i⟩
    case checkPendingIdleNone | clearPendingIdleNone =>
      exact ⟨hd, by simpa using forced_lookForTask m i⟩
    all_goals simp_all [Op.forced, StopPoint.forced]
  case stop s s' h =>
    cases h
    case enter type h => cases type <;> simp_all [Op.forces, Op.forced, StopPoint.forced]
    all_goals simp_all [Op.forced, StopPoint.forced]
  case submitSection t clearIdle force h => cases force <;> simp_all [Op.forced]
  all_goals simp_all [Op.forced]

/-- `running` is changed by `stop` only, which then holds the mutex. -/
theorem Access.running (h : Access m sh o m' sh' next ev) :
    m'.running = m.running ∨ o.holds = true := by
  cases h
  case worker i w w' h =>
    cases h
    case stopping t s s' h => cases h <;> first | exact Or.inl rfl | exact Or.inr rfl
    all_goals exact Or.inl rfl
  case stop s s' h => cases h <;> first | exact Or.inl rfl | exact Or.inr rfl
  all_goals exact Or.inl rfl

/-- The test of the loop is begun when the pool is not running. -/
theorem Access.tests {o' : Op} (h : Access m sh o m' sh' next ev) (ho' : next = some o')
    (ht : o'.tests = true) : m'.running = m.running ∧ (m.running = false ∨ o.tests = true) := by
  cases h
  case worker i w w' h =>
    cases h
    case locking | waitPendingIdleSome | waitDiscardSome | waitExternalNone | waitingLoop =>
      cases ho'
      exact ⟨rfl, Or.inl (tests_loopTop ht)⟩
    case testPendingNone | testExternalNone => exact ⟨rfl, Or.inr rfl⟩
    case checkPendingIdleNone | clearPendingIdleNone =>
      cases ho'
      exact absurd ht (by rw [tests_lookForTask]; decide)
    case stopping t s s' h =>
      cases s' <;> cases ho' <;> exact absurd ht (by simp [afterStop, Op.tests])
    case leaving => exact absurd ho' (by simp)
    all_goals cases ho'; exact absurd ht (by simp [Op.tests])
  case stop s s' h =>
    cases s' <;> cases ho'
    exact absurd ht (by simp [Op.tests])
  case submitSection t clearIdle force h =>
    cases force <;> cases ho'
    exact absurd ht (by simp [Op.tests])
  all_goals cases ho' <;> exact absurd ht (by simp [Op.tests])

/-- Who tests holds the mutex. -/
theorem holds_of_tests (h : o.tests = true) : o.holds = true := by
  unfold Op.tests at h
  split at h <;> first | rfl | exact absurd h (by decide)

/-- What an access does to the registrations. -/
theorem Access.registered (h : Access m sh o m' sh' next ev) :
    m'.externalWaiters - m'.parked.length - total Op.registered next.toList =
      m.externalWaiters - m.parked.length - o.registered := by
  cases h
  case worker i w w' h =>
    have hnext : total Op.registered (w'.map (Op.worker i)).toList = 0 := by
      cases w' <;> rfl
    rw [hnext]
    cases h
    case stopping t s s' h => cases h <;> rfl
    all_goals rfl
  case stop s s' h =>
    have hnext : total Op.registered (s'.map Op.stop).toList = 0 := by
      cases s' <;> rfl
    rw [hnext]
    cases h <;> rfl
  case submitSection t clearIdle force h => cases force <;> rfl
  case publish t clearIdle =>
    simp only [List.length_append, List.length_singleton, Option.toList_none, total_nil,
      Op.registered]
    omega
  case add t clearIdle force => cases force <;> rfl
  case enqueue t clearIdle force => cases force <;> rfl
  all_goals
    simp only [Option.toList_some, Option.toList_none, total_cons, total_nil, Op.registered]
    try omega

theorem registered_nonneg (o : Op) : 0 ≤ o.registered := by
  unfold Op.registered
  split <;> omega

/-- **An access keeps order.** -/
theorem Orderly.access {z : Choice} (h : Orderly m (pre ++ o :: post))
    (hok : noForce.access m (pre ++ o :: post) o z) (ha : Access m sh o m' sh' next ev) :
    Orderly m' (pre ++ (next.toList ++ post)) := by
  have hmem : o ∈ pre ++ o :: post := by simp
  have hfree := h.notForced o hmem
  obtain ⟨hd, hnext⟩ := ha.orderly hok hfree h.notRequested
  refine ⟨h.exclusive.access ha, h.counted.access (z := z) h.exclusive ?_ ha, ?_, hd, ?_, ?_⟩
  · -- nobody stores zero
    intro hz
    unfold Op.zeroes at hz
    split at hz <;> first
      | exact absurd hz Bool.false_ne_true
      | exact absurd hfree (by simp [Op.forced, StopPoint.forced])
  · have := ha.registered
    have hreg := h.registered
    rw [Registered, total_append, total_cons] at hreg
    rw [Registered, total_append, total_append]
    omega
  · intro o' ho'
    rcases mem_access ho' with ho' | ho'
    · exact h.notForced o' (mem_of_mem_append ho')
    · exact hnext o' ho'
  · intro o' ho' ht
    rcases mem_access ho' with ho' | ho'
    · have hold := h.stopped o' (mem_of_mem_append ho') ht
      rcases ha.running with hrun | hholds
      · rw [hrun, hold]
      · have := (h.exclusive.held hholds).2 o' ho'
        exact absurd (this.symm.trans (holds_of_tests ht)) (by decide)
    · obtain ⟨hrun, hstop | htest⟩ := ha.tests ho' ht
      · rw [hrun, hstop]
      · rw [hrun, h.stopped o hmem htest]

/-- A call, but for that of a group that drains a parked task. -/
theorem startCall_cases {c : Call} {r : Outcome (PoolMemory × Shared) Op Event}
    (h : m.startCall sh c = some r) :
    (∃ (k : ℕ) (e : Task × Bool), m.parked[k]? = some e ∧
      r = ⟨({ m with parked := m.parked.eraseIdx k }, sh), some (.add e.1 e.2 true), []⟩) ∨
      r.mem.1.parked = m.parked ∧ r.mem.1.externalWaiters = m.externalWaiters ∧
        r.mem.1.buckets = m.buckets ∧ r.mem.1.running = m.running ∧
          (∀ id, .returned id ∉ r.emitted) ∧ ∀ o ∈ r.next, o.registered = 0 ∧ o.forced = false ∧
            o.tests = false ∧ o.submitted = none := by
  cases c <;> simp only [PoolMemory.startCall] at h
  case drain k =>
    obtain ⟨e, he, rfl⟩ := Option.map_eq_some_iff.mp h
    exact Or.inl ⟨k, e, he, rfl⟩
  case stop type =>
    cases h
    exact Or.inr ⟨rfl, rfl, rfl, rfl, by simp, by simp [Op.registered, Op.forced, StopPoint.forced,
      Op.tests, Op.submitted]⟩
  case park priority clearIdle =>
    cases h
    exact Or.inr ⟨rfl, rfl, rfl, rfl, by simp, by simp [Op.registered, Op.forced, Op.tests,
      Op.submitted]⟩
  all_goals
    split_ifs at h <;> cases h <;>
      exact Or.inr ⟨rfl, rfl, rfl, rfl, by simp, by simp [Op.registered, Op.forced, Op.tests,
        Op.submitted]⟩

/-- A call keeps order. -/
theorem Orderly.startCall {c : Call} {r : Outcome (PoolMemory × Shared) Op Event}
    (h : Orderly m ops) (hr : m.startCall sh c = some r) :
    Orderly r.mem.1 (r.next.toList ++ ops) := by
  obtain ⟨-, hd, -, -⟩ := startCall_frame hr
  refine ⟨h.exclusive.startCall hr, h.counted.startCall hr, ?_, hd.trans h.notRequested, ?_, ?_⟩
  · have hreg := h.registered
    rw [Registered] at hreg
    rcases startCall_cases hr with ⟨k, e, he, rfl⟩ | ⟨hp, he, -, -, -, hnext⟩
    · obtain ⟨hk, -⟩ := List.getElem?_eq_some_iff.mp he
      rw [Registered, List.length_eraseIdx_of_lt hk]
      simp only [Option.toList_some, total_append, total_cons, total_nil, Op.registered, if_true]
      omega
    · have hzero : total Op.registered r.next.toList = 0 := by
        cases hn : r.next with
        | none => rfl
        | some o =>
          rw [Option.toList_some, total_cons, total_nil, (hnext o hn).1]
          rfl
      rw [Registered, hp, he, total_append, hzero, zero_add, hreg]
  · intro o ho
    rcases List.mem_append.mp ho with ho | ho
    · rcases startCall_cases hr with ⟨k, e, -, rfl⟩ | ⟨-, -, -, -, -, hnext⟩
      · obtain rfl := List.mem_singleton.mp ho
        rfl
      · exact (hnext o (Option.mem_toList.mp ho)).2.1
    · exact h.notForced o ho
  · intro o ho ht
    rcases startCall_cases hr with ⟨k, e, -, rfl⟩ | ⟨-, -, -, hrun, -, hnext⟩
    · rcases List.mem_append.mp ho with ho | ho
      · obtain rfl := List.mem_singleton.mp ho
        exact absurd ht (by simp [Op.tests])
      · exact h.stopped o ho ht
    · rw [hrun]
      rcases List.mem_append.mp ho with ho | ho
      · exact absurd ((hnext o (Option.mem_toList.mp ho)).2.2.1.symm.trans ht) (by decide)
      · exact h.stopped o ho ht

/-! ## No task gets lost -/

theorem mem_put (m : PoolMemory) (t : Task) : t ∈ (m.put t).buckets.contents :=
  (Buckets.contents_enqueue_perm m.buckets t.bucket t).mem_iff.mpr (List.mem_cons_self ..)

theorem mem_contents_put {t' : Task} (h : t ∈ m.buckets.contents) :
    t ∈ (m.put t').buckets.contents :=
  (Buckets.contents_enqueue_perm m.buckets t'.bucket t').mem_iff.mpr (List.mem_cons_of_mem _ h)

/-- A task leaves the buckets in the hands of a worker. -/
theorem Access.contents (h : Access m sh o m' sh' next ev) (hf : o.forced = false)
    (ht : t ∈ m.buckets.contents) :
    t ∈ m'.buckets.contents ∨ ∃ o' ∈ next, o'.carried = some t := by
  cases h
  case worker i w w' h =>
    cases h
    case scanTake b hb t' l h =>
      rcases List.mem_cons.mp ((Buckets.contents_dequeue_perm h).mem_iff.mp ht) with rfl | ht
      · exact Or.inr ⟨_, rfl, rfl⟩
      · exact Or.inl ht
    case stopping t s s' h =>
      cases h
      case drainTake => exact absurd hf (by simp [Op.forced, StopPoint.forced])
      all_goals exact Or.inl ht
    case discardingTake => exact absurd hf (by simp [Op.forced])
    case reenqueue t' => exact Or.inl (mem_contents_put ht)
    all_goals exact Or.inl ht
  case stop s s' h =>
    cases h
    case drainTake => exact absurd hf (by simp [Op.forced, StopPoint.forced])
    all_goals exact Or.inl ht
  case enqueue t' clearIdle force => exact Or.inl (mem_contents_put ht)
  all_goals exact Or.inl ht

/-- A task that is in the hands of an operation stays there, is enqueued, or is handed out. -/
theorem Access.carried (h : Access m sh o m' sh' next ev) (ht : o.carried = some t) :
    (∃ o' ∈ next, o'.carried = some t) ∨ t ∈ m'.buckets.contents ∨ .handed t.id ∈ ev := by
  cases h
  case worker i w w' h =>
    cases h
    case dequeued t' =>
      obtain rfl : t' = t := Option.some.inj ht
      exact Or.inl ⟨_, rfl, rfl⟩
    case tryLock t' =>
      obtain rfl : t' = t := Option.some.inj ht
      exact Or.inr (Or.inr (List.mem_singleton_self _))
    case tryLockFail t' h =>
      obtain rfl : t' = t := Option.some.inj ht
      exact Or.inl ⟨_, rfl, rfl⟩
    case readd t' =>
      obtain rfl : t' = t := Option.some.inj ht
      exact Or.inl ⟨_, rfl, rfl⟩
    case reenqueue t' =>
      obtain rfl : t' = t := Option.some.inj ht
      exact Or.inr (Or.inl (mem_put m t'))
    all_goals exact absurd ht (by simp [Op.carried, WorkerPoint.carried])
  case add t' clearIdle force =>
    cases force with
    | false => exact absurd ht (by simp [Op.carried])
    | true =>
      obtain rfl : t' = t := Option.some.inj ht
      exact Or.inl ⟨_, rfl, rfl⟩
  case enqueue t' clearIdle force =>
    cases force with
    | false => exact absurd ht (by simp [Op.carried])
    | true =>
      obtain rfl : t' = t := Option.some.inj ht
      exact Or.inr (Or.inl (mem_put m t'))
  all_goals exact absurd ht (by simp [Op.carried])

/-- What is parked stays parked through the accesses. -/
theorem Access.parked {e : Task × Bool} (h : Access m sh o m' sh' next ev) (he : e ∈ m.parked) :
    e ∈ m'.parked := by
  cases h
  case worker i w w' h =>
    cases h
    case stopping t s s' h => cases h <;> exact he
    all_goals exact he
  case stop s s' h => cases h <;> exact he
  case publish t clearIdle => exact List.mem_append_left _ he
  all_goals exact he

theorem mem_next {o' : Op} (h : next = some o') : o' ∈ pre ++ (next.toList ++ post) := by
  rw [h]
  simp

/-- **An access loses no task.** -/
theorem Kept.access (h : Kept id m (pre ++ o :: post) tr) (hf : o.forced = false)
    (ha : Access m sh o m' sh' next ev) :
    Kept id m' (pre ++ (next.toList ++ post)) (ev.reverse ++ tr) := by
  rcases h with h | ⟨t, rfl, ht | ⟨e, he, rfl⟩ | ⟨o', ho', ht⟩⟩
  · exact Or.inl (List.mem_append_right _ h)
  · refine Or.inr ⟨t, rfl, ?_⟩
    rcases ha.contents hf ht with ht | ⟨o', ho', ht⟩
    · exact Or.inl ht
    · exact Or.inr (Or.inr ⟨o', mem_next ho', ht⟩)
  · exact Or.inr ⟨e.1, rfl, Or.inr (Or.inl ⟨e, ha.parked he, rfl⟩)⟩
  · by_cases hne : o' = o
    · subst hne
      rcases ha.carried ht with ⟨o', ho', ht⟩ | ht | ht
      · exact Or.inr ⟨t, rfl, Or.inr (Or.inr ⟨o', mem_next ho', ht⟩)⟩
      · exact Or.inr ⟨t, rfl, Or.inl ht⟩
      · exact Or.inl (List.mem_append_left _ (List.mem_reverse.mpr ht))
    · exact Or.inr ⟨t, rfl, Or.inr (Or.inr ⟨o', mem_others ho' hne, ht⟩)⟩

/-- A parked task that is taken out of its group is being handed over. -/
theorem parked_startCall {c : Call} {r : Outcome (PoolMemory × Shared) Op Event} {e : Task × Bool}
    (hr : m.startCall sh c = some r) (he : e ∈ m.parked) :
    e ∈ r.mem.1.parked ∨ ∃ o ∈ r.next, o.drains = some e.1 ∧ o.carried = some e.1 := by
  rcases startCall_cases hr with ⟨k, e', he', rfl⟩ | ⟨hp, -⟩
  · obtain ⟨hk, hget⟩ := List.getElem?_eq_some_iff.mp he'
    by_cases heq : e = e'
    · exact Or.inr ⟨_, rfl, by rw [heq]; rfl, by rw [heq]; rfl⟩
    · refine Or.inl ?_
      obtain ⟨j, hj, hje⟩ := List.getElem_of_mem he
      have hne : j ≠ k := by
        rintro rfl
        exact heq (hje.symm.trans hget)
      exact List.mem_eraseIdx_iff_getElem.mpr ⟨j, hj, hne, hje⟩
  · exact Or.inl (hp ▸ he)

/-- A call loses no task. -/
theorem Kept.startCall {c : Call} {r : Outcome (PoolMemory × Shared) Op Event}
    (h : Kept id m ops tr) (hr : m.startCall sh c = some r) :
    Kept id r.mem.1 (r.next.toList ++ ops) (r.emitted.reverse ++ tr) := by
  have hbuckets : r.mem.1.buckets = m.buckets := by
    rcases startCall_cases hr with ⟨k, e, -, rfl⟩ | ⟨-, -, hb, -⟩
    · rfl
    · exact hb
  rcases h with h | ⟨t, rfl, ht | ⟨e, he, rfl⟩ | ⟨o', ho', ht⟩⟩
  · exact Or.inl (List.mem_append_right _ h)
  · exact Or.inr ⟨t, rfl, Or.inl (hbuckets ▸ ht)⟩
  · refine Or.inr ⟨e.1, rfl, ?_⟩
    rcases parked_startCall hr he with he | ⟨o, ho, -, ht⟩
    · exact Or.inr (Or.inl ⟨e, he, rfl⟩)
    · exact Or.inr (Or.inr ⟨o, List.mem_append_left _ (Option.mem_toList.mpr ho), ht⟩)
  · exact Or.inr ⟨t, rfl, Or.inr (Or.inr ⟨o', List.mem_append_right _ ho', ht⟩)⟩

/-- Whatever `submit` has enqueued is kept. -/
structure Accepted (m : PoolMemory) (ops : List Op) (tr : List Event) : Prop where
  orderly : Orderly m ops
  returned : ∀ id, .returned id ∈ tr → Kept id m ops tr
  submitted : ∀ o ∈ ops, ∀ id ∈ o.submitted, Kept id m ops tr

/-- The end of `submit`. -/
theorem Access.returned (h : Access m sh o m' sh' next ev) (hid : .returned id ∈ ev) :
    o.submitted = some id := by
  cases h
  case worker i w w' h =>
    cases h
    case accountNone => split_ifs at hid <;> simp at hid
    case accountSome => split_ifs at hid <;> simp at hid
    all_goals simp at hid
  case submitSection t clearIdle force h =>
    obtain rfl : id = t.id := by simpa using hid
    rfl
  all_goals simp at hid

theorem Access.submitted {o' : Op} (h : Access m sh o m' sh' next ev) (ho' : next = some o')
    (hid : o'.submitted = some id) : ∃ t ∈ m'.buckets.contents, t.id = id := by
  cases h
  case worker i w w' h =>
    cases w' <;> cases ho'
    exact absurd hid (by simp [Op.submitted])
  case stop s s' h =>
    cases s' <;> cases ho'
    exact absurd hid (by simp [Op.submitted])
  case enqueue t clearIdle force =>
    cases ho'
    obtain rfl : t.id = id := Option.some.inj hid
    exact ⟨t, mem_put m t, rfl⟩
  case submitSection t clearIdle force h =>
    cases force <;> cases ho'
    exact absurd hid (by simp [Op.submitted])
  all_goals cases ho' <;> exact absurd hid (by simp [Op.submitted])

theorem Accepted.access {z : Choice} (h : Accepted m (pre ++ o :: post) tr)
    (hok : noForce.access m (pre ++ o :: post) o z) (ha : Access m sh o m' sh' next ev) :
    Accepted m' (pre ++ (next.toList ++ post)) (ev.reverse ++ tr) := by
  have hmem : o ∈ pre ++ o :: post := by simp
  have hf := h.orderly.notForced o hmem
  refine ⟨h.orderly.access (z := z) hok ha, fun id hid => ?_, fun o' ho' id hid => ?_⟩
  · rcases List.mem_append.mp hid with hid | hid
    · exact (h.submitted o hmem id (ha.returned (List.mem_reverse.mp hid))).access hf ha
    · exact (h.returned id hid).access hf ha
  · rcases mem_access ho' with ho' | ho'
    · exact (h.submitted o' (mem_of_mem_append ho') id hid).access hf ha
    · obtain ⟨t, ht, rfl⟩ := ha.submitted ho' hid
      exact Or.inr ⟨t, rfl, Or.inl ht⟩

theorem Accepted.startCall {c : Call} {r : Outcome (PoolMemory × Shared) Op Event}
    (h : Accepted m ops tr) (hr : m.startCall sh c = some r) :
    Accepted r.mem.1 (r.next.toList ++ ops) (r.emitted.reverse ++ tr) := by
  have hnew : (∀ id, .returned id ∉ r.emitted) ∧ ∀ o ∈ r.next, o.submitted = none := by
    rcases startCall_cases hr with ⟨k, e, -, rfl⟩ | ⟨-, -, -, -, hev, hnext⟩
    · refine ⟨by simp, fun o ho => ?_⟩
      obtain rfl := Option.some.inj ho
      rfl
    · exact ⟨hev, fun o ho => (hnext o ho).2.2.2⟩
  refine ⟨h.orderly.startCall hr, fun id hid => ?_, fun o ho id hid => ?_⟩
  · rcases List.mem_append.mp hid with hid | hid
    · exact absurd (List.mem_reverse.mp hid) (hnew.1 id)
    · exact (h.returned id hid).startCall hr
  · rcases List.mem_append.mp ho with ho | ho
    · have := hnew.2 o (Option.mem_toList.mp ho)
      exact absurd (this.symm.trans hid) (by simp)
    · exact (h.submitted o ho id hid).startCall hr

/-! ## The test of the loop -/

theorem Exclusive.mutex_of_mem (h : Exclusive m ops) (ho : o ∈ ops) (hh : o.holds = true) :
    m.mutex = true := by
  obtain ⟨pre, post, rfl⟩ := List.append_of_mem ho
  exact (h.held hh).1

/-- A task that is handed over stays registered as long as the mutex is held. -/
theorem Access.drains (h : Access m sh o m' sh' next ev) (hm : m.mutex = true)
    (ht : o.drains = some t) : ∃ o' ∈ next, o'.drains = some t := by
  cases h
  case add t' clearIdle force | enqueue t' clearIdle force =>
    exact ⟨_, rfl, by cases force <;> exact ht⟩
  case submitSection t' clearIdle force h => exact absurd (h.symm.trans hm) (by decide)
  all_goals exact absurd ht (by simp [Op.drains])

/-- While the mutex is held, who is registered with a group stays so. -/
theorem Late.access (h : Late id m (pre ++ o :: post) tr) (hm : m.mutex = true)
    (ha : Access m sh o m' sh' next ev) :
    Late id m' (pre ++ (next.toList ++ post)) (ev.reverse ++ tr) := by
  rcases h with h | ⟨t, rfl, ⟨e, he, rfl⟩ | ⟨o', ho', ht⟩⟩
  · exact Or.inl (List.mem_append_right _ h)
  · exact Or.inr ⟨e.1, rfl, Or.inl ⟨e, ha.parked he, rfl⟩⟩
  · refine Or.inr ⟨t, rfl, Or.inr ?_⟩
    by_cases hne : o' = o
    · subst hne
      obtain ⟨o', ho', ht⟩ := ha.drains hm ht
      exact ⟨o', mem_next ho', ht⟩
    · exact ⟨o', mem_others ho' hne, ht⟩

theorem Late.startCall {c : Call} {r : Outcome (PoolMemory × Shared) Op Event}
    (h : Late id m ops tr) (hr : m.startCall sh c = some r) :
    Late id r.mem.1 (r.next.toList ++ ops) (r.emitted.reverse ++ tr) := by
  rcases h with h | ⟨t, rfl, ⟨e, he, rfl⟩ | ⟨o', ho', ht⟩⟩
  · exact Or.inl (List.mem_append_right _ h)
  · refine Or.inr ⟨e.1, rfl, ?_⟩
    rcases parked_startCall hr he with he | ⟨o, ho, ht, -⟩
    · exact Or.inl ⟨e, he, rfl⟩
    · exact Or.inr ⟨o, List.mem_append_left _ (Option.mem_toList.mpr ho), ht⟩
  · exact Or.inr ⟨t, rfl, Or.inr ⟨o', List.mem_append_right _ ho', ht⟩⟩

/-- A worker that has read zero from `pending_tasks` finds no task in a bucket or on its way
back. -/
theorem Kept.late (h : Kept id m (pre ++ .worker i .testPending :: post) tr)
    (ho : Orderly m (pre ++ .worker i .testPending :: post)) (hp : m.pendingTasks = 0) :
    Late id m (pre ++ .worker i .testPending :: post) tr := by
  have hcount := ho.counted
  have howed : ∀ o : Op, 0 ≤ o.owed := owed_nonneg
  have htotal := total_nonneg fun o (_ : o ∈ pre ++ .worker i .testPending :: post) => howed o
  rw [Counted, hp, size] at hcount
  rcases h with h | ⟨t, rfl, ht | hparked | ⟨o', ho', ht⟩⟩
  · exact Or.inl h
  · have := List.length_pos_of_mem ht
    omega
  · exact Or.inr ⟨t, rfl, Or.inl hparked⟩
  · cases o' with
    | worker j v =>
      -- two workers would hold the mutex
      have hholds : (Op.worker j v).holds = true := by
        cases v <;> first | rfl | exact absurd ht (by simp [Op.carried, WorkerPoint.carried])
      have hne : Op.worker j v ≠ .worker i .testPending := by
        intro heq
        rw [heq] at ht
        exact absurd ht (by simp [Op.carried, WorkerPoint.carried])
      have hothers : Op.worker j v ∈ pre ++ post := by
        simp only [List.mem_append, List.mem_cons] at ho' ⊢
        tauto
      have := (ho.exclusive.held (o := .worker i .testPending) rfl).2 _ hothers
      exact absurd (this.symm.trans hholds) (by decide)
    | add t' clearIdle force => exact Or.inr ⟨t, rfl, Or.inr ⟨_, ho', by cases force <;> exact ht⟩⟩
    | enqueue t' clearIdle force =>
      have := le_total_of_mem (fun o _ => howed o) ho'
      simp only [Op.owed] at this
      omega
    | _ => exact absurd ht (by simp [Op.carried])

/-- A worker that has read zero from `external_waiters` finds nobody registered. -/
theorem Late.handed (h : Late id m ops tr) (hreg : Registered m ops) (he : m.externalWaiters = 0) :
    .handed id ∈ tr := by
  have hnonneg := total_nonneg fun o (_ : o ∈ ops) => registered_nonneg o
  rw [Registered, he] at hreg
  rcases h with h | ⟨t, rfl, ⟨e, hmem, rfl⟩ | ⟨o, ho, ht⟩⟩
  · exact h
  · have := List.length_pos_of_mem hmem
    omega
  · have hle := le_total_of_mem (fun o _ => registered_nonneg o) ho
    have hone : o.registered = 1 := by
      unfold Op.drains at ht
      split at ht <;> first | rfl | exact absurd ht (by simp)
    omega

/-- `external_waiters` is read after `pending_tasks`, which was zero. -/
theorem WorkerAccess.testExternal (h : WorkerAccess m sh i w m' sh' (some .testExternal) ev) :
    w = .testPending ∧ m.pendingTasks = 0 := by
  have hloop : m.loopTop ≠ .testExternal := by unfold loopTop; split_ifs <;> simp
  have hlook : m.lookForTask ≠ .testExternal := by unfold lookForTask; split_ifs <;> simp
  have hstop : ∀ t s, afterStop t s ≠ .testExternal := by rintro t (_ | s) <;> simp [afterStop]
  generalize hv : some WorkerPoint.testExternal = v at h
  cases h
  case testPendingNone h => exact ⟨rfl, h⟩
  case stopping t s s' h => exact absurd (Option.some.inj hv).symm (hstop t s')
  case leaving => exact absurd hv (by simp)
  all_goals first
    | exact absurd (Option.some.inj hv).symm hloop
    | exact absurd (Option.some.inj hv).symm hlook
    | exact absurd (Option.some.inj hv) (by simp)

/-- `discard_queues_requested` is read after `external_waiters`, which was zero. -/
theorem WorkerAccess.testDiscard (h : WorkerAccess m sh i w m' sh' (some .testDiscard) ev) :
    w = .testExternal ∧ m.externalWaiters = 0 := by
  have hloop : m.loopTop ≠ .testDiscard := by unfold loopTop; split_ifs <;> simp
  have hlook : m.lookForTask ≠ .testDiscard := by unfold lookForTask; split_ifs <;> simp
  have hstop : ∀ t s, afterStop t s ≠ .testDiscard := by rintro t (_ | s) <;> simp [afterStop]
  generalize hv : some WorkerPoint.testDiscard = v at h
  cases h
  case testExternalNone h => exact ⟨rfl, h⟩
  case stopping t s s' h => exact absurd (Option.some.inj hv).symm (hstop t s')
  case leaving => exact absurd hv (by simp)
  all_goals first
    | exact absurd (Option.some.inj hv).symm hloop
    | exact absurd (Option.some.inj hv).symm hlook
    | exact absurd (Option.some.inj hv) (by simp)

theorem Access.left (h : Access m sh o m' sh' next ev) (hl : .left i ∈ ev) :
    o = .worker i .testDiscard := by
  cases h
  case worker j w w' h =>
    cases h
    case testDiscardNone =>
      obtain rfl : i = j := by simpa using hl
      rfl
    case accountNone => split_ifs at hl <;> simp at hl
    case accountSome => split_ifs at hl <;> simp at hl
    all_goals simp at hl
  all_goals simp at hl

/-- What the test of the loop finds out about one task: it is kept, and late or handed out for a
worker that has got past the first or the second of its reads. -/
structure Settled (id : ℕ) (m : PoolMemory) (ops : List Op) (tr : List Event) : Prop where
  orderly : Orderly m ops
  kept : Kept id m ops tr
  late : ∀ i, .worker i .testExternal ∈ ops → Late id m ops tr
  done : ∀ i, .worker i .testDiscard ∈ ops → .handed id ∈ tr

/-- **An access of the test, or of others meanwhile.** -/
theorem Settled.access {z : Choice} (h : Settled id m (pre ++ o :: post) tr)
    (hok : noForce.access m (pre ++ o :: post) o z) (ha : Access m sh o m' sh' next ev) :
    Settled id m' (pre ++ (next.toList ++ post)) (ev.reverse ++ tr) := by
  have hmem : o ∈ pre ++ o :: post := by simp
  refine ⟨h.orderly.access (z := z) hok ha, h.kept.access (h.orderly.notForced o hmem) ha,
    fun i hi => ?_, fun i hi => ?_⟩
  · rcases mem_access hi with hi | hi
    · have hold := mem_of_mem_append (o := o) hi
      exact (h.late i hold).access (h.orderly.exclusive.mutex_of_mem hold rfl) ha
    · obtain ⟨w, rfl, hstep⟩ := ha.of_worker hi
      obtain ⟨rfl, hp⟩ := hstep.testExternal
      exact (h.kept.late h.orderly hp).access (h.orderly.exclusive.held rfl).1 ha
  · rcases mem_access hi with hi | hi
    · exact List.mem_append_right _ (h.done i (mem_of_mem_append hi))
    · obtain ⟨w, rfl, hstep⟩ := ha.of_worker hi
      obtain ⟨rfl, he⟩ := hstep.testDiscard
      exact List.mem_append_right _ ((h.late i hmem).handed h.orderly.registered he)

theorem Settled.startCall {c : Call} {r : Outcome (PoolMemory × Shared) Op Event}
    (h : Settled id m ops tr) (hr : m.startCall sh c = some r) :
    Settled id r.mem.1 (r.next.toList ++ ops) (r.emitted.reverse ++ tr) := by
  have hnew : ∀ o ∈ r.next.toList ++ ops, o.tests = true → o ∈ ops := by
    intro o ho ht
    refine (List.mem_append.mp ho).resolve_left fun ho => ?_
    rcases startCall_cases hr with ⟨k, e, -, rfl⟩ | ⟨-, -, -, -, -, hnext⟩
    · obtain rfl := List.mem_singleton.mp ho
      exact absurd ht (by simp [Op.tests])
    · exact absurd ((hnext o (Option.mem_toList.mp ho)).2.2.1.symm.trans ht) (by decide)
  exact ⟨h.orderly.startCall hr, h.kept.startCall hr,
    fun i hi => (h.late i (hnew _ hi rfl)).startCall hr,
    fun i hi => List.mem_append_right _ (h.done i (hnew _ hi rfl))⟩

/-- While the pool is running, nobody tests. -/
theorem Settled.of_running (h : Orderly m ops) (hk : Kept id m ops tr) (hr : m.running = true) :
    Settled id m ops tr := by
  refine ⟨h, hk, fun i hi => ?_, fun i hi => ?_⟩
  · exact absurd ((h.stopped _ hi rfl).symm.trans hr) (by decide)
  · exact absurd ((h.stopped _ hi rfl).symm.trans hr) (by decide)

end

end PoolMemory

namespace PoolSystem

open PoolMemory

variable {n : ℕ} {descriptors : Fin n → PoolDescriptor} {k : ℕ} {s s₁ s₂ s₃ s₄ : Machine n}
  {p : Fin n} {id i : ℕ}

theorem accepted_of_reaches (h : Reaches step noForce.ok (start descriptors k) s) (p : Fin n) :
    Accepted (s.mem.pools p) (ofPool p s.ops) (ofPool p s.trace) := by
  refine invariant (I := Accepted) h p ⟨⟨rfl, ?_, ?_, rfl, ?_, ?_⟩, ?_, ?_⟩
    (fun mem sh ops tr c r hI _ hr => hI.startCall hr)
    fun mem sh pre o post tr z mem' sh' next ev hI hok ha => hI.access (z := z) hok ha
  · simp [Counted, size, start, make]
  · simp [Registered, start, make]
  · simp [start]
  · simp [start]
  · simp [start]
  · simp [start]

/-- A worker leaves after the last test of its loop. -/
theorem testDiscard_of_left {a : Action (Call n) Choice} (h : step s₃ a = some s₄)
    (hleft : s₄.trace = (p, .left i) :: s₃.trace) :
    .worker i .testDiscard ∈ ofPool p s₃.ops := by
  have hemitted : ∀ (q : Fin n) (ev : List PoolMemory.Event),
      (ev.map fun e => (q, e)).reverse ++ s₃.trace = (p, .left i) :: s₃.trace →
      q = p ∧ ev = [.left i] := by
    intro q ev heq
    have hone : (ev.map fun e => (q, e)).reverse = [(p, .left i)] := List.append_cancel_right heq
    rw [List.reverse_eq_iff, List.reverse_singleton, List.map_eq_singleton_iff] at hone
    obtain ⟨e, rfl, he⟩ := hone
    exact ⟨(Prod.mk.inj he).1, by rw [(Prod.mk.inj he).2]⟩
  cases a with
  | call c =>
    obtain ⟨r, hr, rfl⟩ := Program.step_call_eq_some h
    cases c with
    | addIdleTask =>
      cases hr
      exact absurd hleft (by simp)
    | removeIdleTask =>
      cases hr
      exact absurd hleft (by simp)
    | pool q c =>
      obtain ⟨r', hr', rfl⟩ := Option.map_eq_some_iff.mp hr
      obtain ⟨rfl, hev⟩ := hemitted q r'.emitted hleft
      cases c <;> simp only [PoolMemory.startCall] at hr'
      case drain =>
        obtain ⟨e, -, rfl⟩ := Option.map_eq_some_iff.mp hr'
        exact absurd hev (by simp)
      case stop | park => cases hr'; exact absurd hev (by simp)
      all_goals split_ifs at hr' <;> cases hr' <;> exact absurd hev (by simp)
  | advance j z =>
    obtain ⟨pre, ⟨q, o⟩, post, r, hops, -, hr, rfl⟩ := Program.step_advance_eq_some h
    obtain ⟨r', hr', rfl⟩ := Option.map_eq_some_iff.mp hr
    obtain ⟨rfl, hev⟩ := hemitted q r'.emitted hleft
    obtain rfl := (access_of_advance hr').left (i := i)
      (by rw [hev]; exact List.mem_singleton_self _)
    rw [hops, mem_ofPool]
    simp

/-- **Nothing that was accepted is left behind.**  `stop` is called while the pool is running, and a
worker leaves later.  By then every task whose `submit` was accepted and had returned when `stop`
was called, and every task that was parked for the pool or was being handed over by its group at
that moment, has been handed to a worker. -/
theorem handed_of_left {type : Pool.StopType} {a : Action (Call n) Choice}
    (h₁ : Reaches step noForce.ok (start descriptors k) s₁)
    (hrun : (s₁.mem.pools p).running = true)
    (hstop : step s₁ (.call (.pool p (.stop type))) = some s₂)
    (h₂ : Reaches step noForce.ok s₂ s₃) (hleave : step s₃ a = some s₄)
    (hleft : s₄.trace = (p, .left i) :: s₃.trace)
    (hid : (p, .returned id) ∈ s₁.trace ∨ (∃ e ∈ (s₁.mem.pools p).parked, e.1.id = id) ∨
      ∃ o ∈ ofPool p s₁.ops, ∃ t : Task, o.drains = some t ∧ t.id = id) :
    (p, .handed id) ∈ s₃.trace := by
  have hacc := accepted_of_reaches h₁ p
  have hkept : Kept id (s₁.mem.pools p) (ofPool p s₁.ops) (ofPool p s₁.trace) := by
    rcases hid with hid | ⟨e, he, rfl⟩ | ⟨o, ho, t, ht, rfl⟩
    · exact hacc.returned id ((mem_ofPool ..).mpr hid)
    · exact Or.inr ⟨e.1, rfl, Or.inr (Or.inl ⟨e, he, rfl⟩)⟩
    · cases hs : o.submitted with
      | some id' =>
        have heq : id' = t.id := by
          cases o <;> simp only [Op.submitted, reduceCtorEq] at hs
          case submitSection t' clearIdle force =>
            cases force <;> simp_all [Op.drains]
        exact heq ▸ hacc.submitted o ho id' hs
      | none =>
        refine Or.inr ⟨t, rfl, Or.inr (Or.inr ⟨o, ho, ?_⟩)⟩
        unfold Op.drains at ht
        split at ht
        · exact ht
        · exact ht
        · exact absurd hs (by simp [Op.submitted])
        · exact absurd ht (by simp)
  have hsettled : Settled id (s₃.mem.pools p) (ofPool p s₃.ops) (ofPool p s₃.trace) := by
    have hok : noForce.ok s₁ (.call (.pool p (.stop type))) := trivial
    have hstep : Reaches step noForce.ok s₁ s₂ := .single hok hstop
    refine invariant (I := Settled id) (hstep.trans h₂) p (.of_running hacc.orderly hkept hrun)
      (fun mem sh ops tr c r hI _ hr => hI.startCall hr)
      fun mem sh pre o post tr z mem' sh' next ev hI hok ha => hI.access (z := z) hok ha
  exact (mem_ofPool ..).mp (hsettled.done i (testDiscard_of_left hleave hleft))

instance : ∀ m ops c, Decidable (noForce.call m ops c) := fun _ _ _ => .isTrue trivial

instance (m : PoolMemory) (ops : List Op) (o : Op) (z : Choice) :
    Decidable (noForce.access m ops o z) := inferInstanceAs (Decidable (o.forces = false))

/-! ## Two runs -/

/-- One task has been submitted, and another one is parked. -/
def submitsAndParks : List (Action (Call 1) Choice) :=
  [.call (.pool onlyPool .start), .call (.pool onlyPool .run),
    .call (.pool onlyPool (.submit 500 .none true))] ++ accesses 0 3 ++
    [.call (.pool onlyPool (.park 500 true))] ++ accesses 0 4

/-- The stop winds the pool down, the group hands the parked task over, and the worker runs both
tasks up to the last test of its loop. -/
def runsBoth : List (Action (Call 1) Choice) :=
  accesses 0 2 ++ [.call (.pool onlyPool (.drain 0))] ++ accesses 0 29

theorem handed_of_left_runsBoth :
    ∃ s₃ s₄ : Machine 1, step s₃ (.advance 0 .proceed) = some s₄ ∧
      s₄.trace = (onlyPool, .left 0) :: s₃.trace ∧
      (onlyPool, .handed 0) ∈ s₃.trace ∧ (onlyPool, .handed 1) ∈ s₃.trace := by
  have hrun : ((exec step (start oneThread 1) submitsAndParks).bind fun s₁ =>
      (step s₁ (.call (.pool onlyPool (.stop .normal)))).bind fun s₂ =>
        (exec step s₂ runsBoth).bind fun s₃ => (step s₃ (.advance 0 .proceed)).map fun s₄ =>
          decide ((s₁.mem.pools onlyPool).running = true ∧ s₁.trace = [(onlyPool, .returned 0)] ∧
            (s₁.mem.pools onlyPool).parked.map Prod.fst = [⟨⟨1, 500⟩, .running⟩] ∧
            s₄.trace = (onlyPool, .left 0) :: s₃.trace ∧
            execOk step noForce.ok s₂ runsBoth)) = some true := by decide +kernel
  have hok : execOk step noForce.ok (start oneThread 1) submitsAndParks := by decide
  obtain ⟨s₁, hs₁, hrun⟩ := Option.bind_eq_some_iff.mp hrun
  obtain ⟨s₂, hs₂, hrun⟩ := Option.bind_eq_some_iff.mp hrun
  obtain ⟨s₃, hs₃, hrun⟩ := Option.bind_eq_some_iff.mp hrun
  obtain ⟨s₄, hs₄, hrun⟩ := Option.map_eq_some_iff.mp hrun
  obtain ⟨hrunning, htrace, hparked, hleft, hok'⟩ := of_decide_eq_true hrun
  have hmem : (⟨⟨1, 500⟩, .running⟩ : Task) ∈ (s₁.mem.pools onlyPool).parked.map Prod.fst := by
    rw [hparked]
    exact List.mem_singleton_self _
  obtain ⟨e, he, hfst⟩ := List.mem_map.mp hmem
  have hrun₁ := reaches_of_exec hs₁ hok
  have hrun₃ := reaches_of_exec hs₃ hok'
  refine ⟨s₃, s₄, hs₄, hleft, ?_, ?_⟩
  · refine handed_of_left hrun₁ hrunning hs₂ hrun₃ hs₄ hleft (Or.inl ?_)
    rw [htrace]
    exact List.mem_singleton_self _
  · refine handed_of_left hrun₁ hrunning hs₂ hrun₃ hs₄ hleft (Or.inr (Or.inl ⟨e, he, ?_⟩))
    rw [hfst]

/-- After a first stop a task is submitted, and refused. -/
def submitsAfterStop : List (Action (Call 1) Choice) :=
  [.call (.pool onlyPool .start), .call (.pool onlyPool .run),
    .call (.pool onlyPool (.stop .normal))] ++ accesses 0 2 ++
    [.call (.pool onlyPool (.submit 500 .none true))]

/-- A second stop is called when `submit` has returned, and the last worker leaves without the
task. -/
theorem refused_of_submitsAfterStop :
    ¬ ∀ (n : ℕ) (descriptors : Fin n → PoolDescriptor) (k : ℕ) (s₁ s₂ s₃ s₄ : Machine n) (p : Fin n)
      (type : Pool.StopType) (a : Action (Call n) Choice) (i id : ℕ), type ≠ .force →
      Reaches step noForce.ok (start descriptors k) s₁ →
      step s₁ (.call (.pool p (.stop type))) = some s₂ → Reaches step noForce.ok s₂ s₃ →
      step s₃ a = some s₄ → s₄.trace = (p, .left i) :: s₃.trace →
      (∀ o ∈ ofPool p s₄.ops, o.holds = false) →
      ((p, .returned id) ∈ s₁.trace ∨ (p, .refused id) ∈ s₁.trace ∨
        ∃ e ∈ (s₁.mem.pools p).parked, e.1.id = id) →
      (p, .handed id) ∈ s₃.trace := by
  intro h
  have hrun : ((exec step (start oneThread 1) submitsAfterStop).bind fun s₁ =>
      (step s₁ (.call (.pool onlyPool (.stop .final)))).bind fun s₂ =>
        (exec step s₂ (accesses 0 2 ++ accesses 0 4)).bind fun s₃ =>
          (step s₃ (.advance 0 .proceed)).map fun s₄ =>
            decide (s₁.trace = [(onlyPool, .refused 0)] ∧ s₃.trace = [(onlyPool, .refused 0)] ∧
              s₄.trace = (onlyPool, .left 0) :: s₃.trace ∧
              s₄.ops = [(onlyPool, .worker 0 .leaving)] ∧
              execOk step noForce.ok s₂ (accesses 0 2 ++ accesses 0 4))) = some true := by
    decide +kernel
  have hok : execOk step noForce.ok (start oneThread 1) submitsAfterStop := by decide
  obtain ⟨s₁, hs₁, hrun⟩ := Option.bind_eq_some_iff.mp hrun
  obtain ⟨s₂, hs₂, hrun⟩ := Option.bind_eq_some_iff.mp hrun
  obtain ⟨s₃, hs₃, hrun⟩ := Option.bind_eq_some_iff.mp hrun
  obtain ⟨s₄, hs₄, hrun⟩ := Option.map_eq_some_iff.mp hrun
  obtain ⟨ht₁, ht₃, ht₄, hops, hok'⟩ := of_decide_eq_true hrun
  have := h 1 oneThread 1 s₁ s₂ s₃ s₄ onlyPool .final (.advance 0 .proceed) 0 0 (by decide)
    (reaches_of_exec hs₁ hok) hs₂ (reaches_of_exec hs₃ hok') hs₄ ht₄
    (by rw [hops]; decide) (Or.inr (Or.inl (by rw [ht₁]; exact List.mem_singleton_self _)))
  rw [ht₃] at this
  exact absurd (List.mem_singleton.mp this) (by simp)

end PoolSystem

end Scheduler
end NUClear
