import NUClear.Scheduler.Pool.Mutex

/-!
# What `pending_tasks` counts

`submit` counts a task before it enqueues it, and a worker takes it out of the bucket before it
counts it off.  In between, the task is owed to the counter or to the bucket; what is owed is known
from the points of the operations, and the counter is the number of tasks in the buckets plus what
is owed (`Counted`).

## The store of zero

`stop(FORCE)` breaks this.  It sets the counter to zero after it has drained the buckets, and does
so twice when it asks the consumer to drain them.  `submit` takes no mutex before it has enqueued
its task: a task that was counted before the store and is enqueued after it stays in its bucket
without being counted (`uncounted_of_submitsAcrossForce`), and when a worker takes it the counter
falls below zero, which the source's unsigned counter cannot express.

## The proof

* `Op.owed`: what each operation owes, at each of its points.
* `Access.counted`: an access that does not store zero changes the counter, the buckets and what is
  owed by amounts that agree.  It has one case for each branch of the code.
* `Access.zero`: who stores zero holds the mutex, so no worker and no other `stop` owes anything;
  only a `submit` may, and the condition `drainsAll` excludes that.
* `pending_of_reaches`: where nothing is in the buckets or on its way to them when zero is stored,
  the counter is exact.
-/

namespace NUClear
namespace Scheduler

open Foundation

namespace PoolMemory

/-- What `stop` owes to the counter: the tasks it has drained. -/
def StopPoint.owed : StopPoint → ℤ
  | .drain _ drained => drained.length
  | .storeZero drained => drained.length
  | _ => 0

/-- What a worker owes: a task that is out of the buckets is still counted. -/
def WorkerPoint.owed : WorkerPoint → ℤ
  | .discarding _ discarded => discarded.length
  | .discardZero discarded => discarded.length
  | .dequeued _ => 1
  | .reenqueue _ => 1
  | .stopping _ s => s.owed
  | _ => 0

/-- The tasks that an operation has counted and are not in a bucket. -/
def Op.owed : Op → ℤ
  | .worker _ w => w.owed
  | .stop s => s.owed
  | .enqueue _ _ _ => 1
  | _ => 0

/-- The number of tasks in the buckets. -/
def size (m : PoolMemory) : ℤ := m.buckets.contents.length

/-- The counter is the number of tasks in the buckets, with what the operations in progress owe: the
invariant of the pool. -/
def Counted (m : PoolMemory) (ops : List Op) : Prop :=
  m.pendingTasks = m.size + total Op.owed ops

/-- The next access stores zero in `pending_tasks`. -/
def Op.zeroes : Op → Bool
  | .stop (.storeZero _) => true
  | .worker _ (.discardZero _) => true
  | .worker _ (.stopping _ (.storeZero _)) => true
  | _ => false

/-- A task has been counted and is about to be enqueued. -/
def Op.enqueues : Op → Bool
  | .enqueue _ _ _ => true
  | _ => false

/-- The condition on a run: when zero is stored, there is no task in the buckets, and none is
between its `fetch_add` and its `enqueue`. -/
def drainsAll : PoolSystem.Condition where
  call _ _ _ := True
  access m ops o _ := o.zeroes = true →
    m.buckets.contents = [] ∧ ∀ o' ∈ ops, o'.enqueues = false

/-- A `submit`, a dequeue (with what follows it in `get_task`) or a `stop` is in progress. -/
def Op.inProgress : Op → Bool
  | .add _ _ _ => true
  | .enqueue _ _ _ => true
  | .submitSection _ _ _ => true
  | .stop _ => true
  | .worker _ (.stopping _ _) => true
  | .worker _ (.discarding _ _) => true
  | .worker _ (.discardZero _) => true
  | .worker _ (.dequeued _) => true
  | .worker _ (.tryLock _) => true
  | .worker _ (.readd _) => true
  | .worker _ (.reenqueue _) => true
  | _ => false

section

variable {m m' : PoolMemory} {sh sh' : Shared} {o : Op} {pre post ops : List Op} {next : Option Op}
  {ev : List Event} {i : ℕ} {w : WorkerPoint} {s : StopPoint}

/-! ## What one access owes -/

@[simp] theorem size_put (m : PoolMemory) (t : Task) : (m.put t).size = m.size + 1 := by
  have h := (Buckets.contents_enqueue_perm m.buckets t.bucket t).length_eq
  show ((m.buckets.enqueue t.bucket t).contents.length : ℤ) = m.buckets.contents.length + 1
  rw [h, List.length_cons]
  omega

theorem size_dequeue {b : Fin priorityBuckets} {t : Task} {l : List Task}
    (h : m.buckets b = t :: l) : (m.dequeue b l).size + 1 = m.size := by
  have h := (Buckets.contents_dequeue_perm h).length_eq
  show ((m.buckets.setBucket b l).contents.length : ℤ) + 1 = m.buckets.contents.length
  rw [h, List.length_cons]
  omega

theorem owed_nonneg (o : Op) : 0 ≤ o.owed := by
  have hstop : ∀ s : StopPoint, 0 ≤ s.owed := by
    intro s
    unfold StopPoint.owed
    split <;> omega
  unfold Op.owed
  split
  · unfold WorkerPoint.owed
    split <;> first | omega | exact hstop _
  · exact hstop _
  · omega
  · omega

@[simp] theorem loopTop_owed (m : PoolMemory) : m.loopTop.owed = 0 := by
  unfold loopTop
  split_ifs <;> rfl

@[simp] theorem lookForTask_owed (m : PoolMemory) : m.lookForTask.owed = 0 := by
  unfold lookForTask
  split_ifs <;> rfl

theorem afterStop_owed (t : Option Task) (s : Option StopPoint) :
    (afterStop t s).owed = (s.map StopPoint.owed).getD 0 := by
  cases s <;> rfl

/-- What an access of `stop` owes. -/
theorem StopAccess.counted {caller : Option ℕ} {s' : Option StopPoint}
    (h : StopAccess m caller s m' s') (hz : ∀ drained, s ≠ .storeZero drained) :
    m'.pendingTasks - m'.size - (s'.map StopPoint.owed).getD 0 =
      m.pendingTasks - m.size - s.owed := by
  cases h
  case drainTake b drained hb t l h =>
    have := size_dequeue h
    simp only [dequeue_pendingTasks, Option.map_some, Option.getD_some, StopPoint.owed,
      List.length_cons]
    push_cast
    omega
  case zero drained => exact absurd rfl (hz drained)
  all_goals rfl

/-- What an access of a worker owes. -/
theorem WorkerAccess.counted {w' : Option WorkerPoint} (h : WorkerAccess m sh i w m' sh' w' ev)
    (hz : (Op.worker i w).zeroes = false) :
    m'.pendingTasks - m'.size - (w'.map WorkerPoint.owed).getD 0 =
      m.pendingTasks - m.size - w.owed := by
  cases h
  case stopping t s s' h =>
    rw [Option.map_some, Option.getD_some, afterStop_owed]
    refine h.counted ?_
    rintro drained rfl
    exact absurd hz (by simp [Op.zeroes])
  case discardingTake b discarded hb t l h =>
    have := size_dequeue h
    simp only [dequeue_pendingTasks, Option.map_some, Option.getD_some, WorkerPoint.owed,
      List.length_cons]
    push_cast
    omega
  case scanTake b hb t l h =>
    have := size_dequeue h
    simp only [dequeue_pendingTasks, Option.map_some, Option.getD_some, WorkerPoint.owed]
    omega
  case discardZero discarded => exact absurd hz (by simp [Op.zeroes])
  case reenqueue t =>
    have hsize : PoolMemory.size { m.put t with live := false } = m.size + 1 := size_put m t
    rw [hsize, Option.map_some, Option.getD_some]
    show m.pendingTasks - (m.size + 1) - 0 = m.pendingTasks - m.size - 1
    omega
  case dequeued t =>
    have hsize : (m.setPending (m.pendingTasks - 1)).size = m.size := rfl
    simp only [setPending_pendingTasks, Option.map_some, Option.getD_some, WorkerPoint.owed, hsize]
    omega
  case readd t =>
    have hsize : (m.setPending (m.pendingTasks + 1)).size = m.size := rfl
    simp only [setPending_pendingTasks, Option.map_some, Option.getD_some, WorkerPoint.owed, hsize]
    omega
  all_goals simp only [Option.map_some, Option.map_none, Option.getD_some, Option.getD_none,
    loopTop_owed, lookForTask_owed]
  all_goals rfl

/-- **What an access owes**: what it does to the counter and to the buckets it takes over or pays,
unless it stores zero. -/
theorem Access.counted (h : Access m sh o m' sh' next ev) (hz : o.zeroes = false) :
    m'.pendingTasks - m'.size - total Op.owed next.toList =
      m.pendingTasks - m.size - o.owed := by
  cases h
  case worker i w w' h =>
    have htotal : total Op.owed (w'.map (Op.worker i)).toList =
      (w'.map WorkerPoint.owed).getD 0 := by
      cases w' <;> simp [Op.owed]
    rw [htotal]
    exact h.counted hz
  case stop s s' h =>
    have htotal : total Op.owed (s'.map Op.stop).toList = (s'.map StopPoint.owed).getD 0 := by
      cases s' <;> simp [Op.owed]
    rw [htotal]
    refine h.counted ?_
    rintro drained rfl
    exact absurd hz (by simp [Op.zeroes])
  case add t clearIdle force =>
    have hsize : (m.setPending (m.pendingTasks + 1)).size = m.size := rfl
    simp only [setPending_pendingTasks, Option.toList_some, total_cons, total_nil, Op.owed, hsize]
    omega
  case enqueue t clearIdle force =>
    simp only [put_pendingTasks, size_put, Option.toList_some, total_cons, total_nil, Op.owed]
    omega
  case submitSection t clearIdle force h => cases force <;> rfl
  all_goals rfl

/-! ## The store of zero -/

/-- Who stores zero holds the mutex, and leaves the counter at zero. -/
theorem Access.zero (h : Access m sh o m' sh' next ev) (hz : o.zeroes = true) :
    o.holds = true ∧ m'.pendingTasks = 0 ∧ m'.buckets = m.buckets ∧
      total Op.owed next.toList = 0 := by
  cases h
  case worker i w w' h =>
    cases h
    case discardZero discarded => exact ⟨rfl, rfl, rfl, by simp [Op.owed, WorkerPoint.owed]⟩
    case stopping t s s' h =>
      cases h
      case zero drained => exact ⟨rfl, rfl, rfl, by simp [afterStop, Op.owed, WorkerPoint.owed]⟩
      all_goals simp [Op.zeroes] at hz
    all_goals simp [Op.zeroes] at hz
  case stop s s' h =>
    cases h
    case zero drained => exact ⟨rfl, rfl, rfl, rfl⟩
    all_goals simp [Op.zeroes] at hz
  all_goals simp [Op.zeroes] at hz

/-- Who owes something enqueues a task or holds the mutex. -/
theorem owed_eq_zero (hh : o.holds = false) (he : o.enqueues = false) : o.owed = 0 := by
  cases o with
  | worker i w =>
    cases w with
    | stopping t s =>
      cases s <;> first | rfl | exact absurd hh (by simp [Op.holds, WorkerPoint.holds,
        StopPoint.holds])
    | _ => first | rfl | exact absurd hh (by simp [Op.holds, WorkerPoint.holds])
  | stop s => cases s <;> first | rfl | exact absurd hh (by simp [Op.holds, StopPoint.holds])
  | enqueue t clearIdle force => exact absurd he (by simp [Op.enqueues])
  | _ => rfl

theorem total_owed_eq_zero (h : ∀ o ∈ ops, o.owed = 0) : total Op.owed ops = 0 := by
  induction ops with
  | nil => rfl
  | cons o ops ih =>
    rw [total_cons, h o (List.mem_cons_self ..), ih fun o' ho' => h o' (List.mem_cons_of_mem _ ho')]
    rfl

/-- **An access keeps the counter exact.** -/
theorem Counted.access {z : Choice} (hx : Exclusive m (pre ++ o :: post))
    (h : Counted m (pre ++ o :: post)) (hok : drainsAll.access m (pre ++ o :: post) o z)
    (ha : Access m sh o m' sh' next ev) : Counted m' (pre ++ (next.toList ++ post)) := by
  rw [Counted, total_append, total_append]
  cases hz : o.zeroes with
  | false =>
    have := ha.counted hz
    rw [Counted, total_append, total_cons] at h
    omega
  | true =>
    obtain ⟨hempty, hnone⟩ := hok hz
    obtain ⟨hholds, hpending, hbuckets, hnext⟩ := ha.zero hz
    have hothers : ∀ o' ∈ pre ++ post, o'.owed = 0 := by
      intro o' ho'
      refine owed_eq_zero ((hx.held hholds).2 o' ho') (hnone o' ?_)
      simp only [List.mem_append, List.mem_cons] at ho' ⊢
      tauto
    have hpre := total_owed_eq_zero fun o' ho' => hothers o' (List.mem_append_left _ ho')
    have hpost := total_owed_eq_zero fun o' ho' => hothers o' (List.mem_append_right _ ho')
    rw [hpending, hnext, hpre, hpost, size, hbuckets, hempty]
    rfl

/-- A call counts nothing and enqueues nothing. -/
theorem Counted.startCall {c : Call} {r : Outcome (PoolMemory × Shared) Op Event}
    (h : Counted m ops) (hr : m.startCall sh c = some r) :
    Counted r.mem.1 (r.next.toList ++ ops) := by
  have hframe : r.mem.1.pendingTasks = m.pendingTasks ∧ r.mem.1.buckets = m.buckets ∧
      total Op.owed r.next.toList = 0 := by
    cases c <;> simp only [PoolMemory.startCall] at hr
    case drain k =>
      obtain ⟨e, -, rfl⟩ := Option.map_eq_some_iff.mp hr
      exact ⟨rfl, rfl, rfl⟩
    case stop type =>
      cases hr
      exact ⟨rfl, rfl, rfl⟩
    case park priority clearIdle =>
      cases hr
      exact ⟨rfl, rfl, rfl⟩
    all_goals
      split_ifs at hr <;> cases hr <;> exact ⟨rfl, rfl, rfl⟩
  obtain ⟨hp, hb, hnext⟩ := hframe
  rw [Counted, total_append, hnext, hp, size, hb, zero_add]
  exact h

/-- What is not in progress owes nothing. -/
theorem owed_of_not_inProgress (h : o.inProgress = false) : o.owed = 0 := by
  cases o with
  | worker i w => cases w <;> first | rfl | exact absurd h (by simp [Op.inProgress])
  | _ => first | rfl | exact absurd h (by simp [Op.inProgress])

end

end PoolMemory

namespace PoolSystem

open PoolMemory

variable {n : ℕ} {descriptors : Fin n → PoolDescriptor} {k : ℕ} {s : Machine n}

/-- **The accounting of `pending_tasks`.**  When every store of zero finds nothing in the buckets or
on its way to them, the counter never wraps, and it is the number of tasks in the buckets whenever
no `submit`, dequeue or `stop` is in progress. -/
theorem pending_of_reaches (h : Reaches step drainsAll.ok (start descriptors k) s) (p : Fin n) :
    0 ≤ (s.mem.pools p).pendingTasks ∧
      ((∀ o ∈ ofPool p s.ops, o.inProgress = false) →
        (s.mem.pools p).pendingTasks = (s.mem.pools p).buckets.contents.length) := by
  have hinv := invariant (I := fun m ops _ => Exclusive m ops ∧ Counted m ops) h p
    ⟨rfl, by simp [Counted, size, start, make]⟩
    (fun mem sh ops tr c r hI _ hr => ⟨hI.1.startCall hr, hI.2.startCall hr⟩)
    (fun mem sh pre o post tr z mem' sh' next ev hI hok ha =>
      ⟨hI.1.access ha, hI.2.access hI.1 hok ha⟩)
  have hcount : (s.mem.pools p).pendingTasks = _ := hinv.2
  have howed : 0 ≤ total Op.owed (ofPool p s.ops) := total_nonneg fun o _ => owed_nonneg o
  refine ⟨?_, fun hquiet => ?_⟩
  · rw [hcount, size]
    omega
  · rw [hcount, total_owed_eq_zero fun o ho => owed_of_not_inProgress (hquiet o ho), add_zero]
    rfl

instance : ∀ m ops c, Decidable (drainsAll.call m ops c) := fun _ _ _ => .isTrue trivial

instance (m : PoolMemory) (ops : List Op) (o : Op) (z : Choice) :
    Decidable (drainsAll.access m ops o z) :=
  inferInstanceAs (Decidable (o.zeroes = true →
    m.buckets.contents = [] ∧ ∀ o' ∈ ops, o'.enqueues = false))

/-- A task is submitted, and `stop(FORCE)` drains it; one is parked, and drained by its group
later. -/
def submitsThenForce : List (Action (Call 1) Choice) :=
  [.call (.pool onlyPool (.submit 500 .none true))] ++ accesses 0 3 ++
    [.call (.pool onlyPool (.park 500 true))] ++ accesses 0 4 ++
    [.call (.pool onlyPool (.stop .force))] ++ accesses 0 12 ++
    [.call (.pool onlyPool (.drain 0))] ++ accesses 0 5

theorem pending_of_reaches_submitsThenForce :
    ∃ s, exec step (start oneThread 1) submitsThenForce = some s ∧ s.ops = [] ∧
      (s.mem.pools onlyPool).buckets.contents.length = 1 ∧
      0 ≤ (s.mem.pools onlyPool).pendingTasks ∧ (s.mem.pools onlyPool).pendingTasks = 1 := by
  obtain ⟨s, hs⟩ := Option.isSome_iff_exists.mp
    (by decide : (exec step (start oneThread 1) submitsThenForce).isSome = true)
  have hend : (exec step (start oneThread 1) submitsThenForce).map (fun s =>
      (s.ops, (s.mem.pools onlyPool).buckets.contents.length)) = some ([], 1) := by decide
  have hok : execOk step drainsAll.ok (start oneThread 1) submitsThenForce := by decide
  rw [hs, Option.map_some, Option.some.injEq, Prod.mk.injEq] at hend
  obtain ⟨hops, hlength⟩ := hend
  obtain ⟨hnonneg, hquiet⟩ := pending_of_reaches (reaches_of_exec hs hok) onlyPool
  refine ⟨s, hs, hops, hlength, hnonneg, ?_⟩
  rw [hquiet (by rw [hops]; exact fun o ho => absurd ho (List.not_mem_nil)), hlength]
  rfl

/-- A task is counted before `stop(FORCE)` drains the buckets, and enqueued after zero is stored. -/
def submitsAcrossForce : List (Action (Call 1) Choice) :=
  [.call (.pool onlyPool (.submit 500 .none true))] ++ accesses 0 1 ++
    [.call (.pool onlyPool (.stop .force))] ++ accesses 0 11 ++ accesses 0 2

/-- Nothing is in progress, a task is in its bucket, and the counter is zero. -/
theorem uncounted_of_submitsAcrossForce :
    ¬ ∀ (n : ℕ) (descriptors : Fin n → PoolDescriptor) (k : ℕ) (s : Machine n) (p : Fin n),
      Reaches step Always (start descriptors k) s →
      0 ≤ (s.mem.pools p).pendingTasks ∧
        ((∀ o ∈ ofPool p s.ops, o.inProgress = false) →
          (s.mem.pools p).pendingTasks = (s.mem.pools p).buckets.contents.length) := by
  intro h
  obtain ⟨s, hs⟩ := Option.isSome_iff_exists.mp
    (by decide : (exec step (start oneThread 1) submitsAcrossForce).isSome = true)
  have hend : (exec step (start oneThread 1) submitsAcrossForce).map (fun s =>
      (s.ops, (s.mem.pools onlyPool).pendingTasks,
        (s.mem.pools onlyPool).buckets.contents.length)) = some ([], 0, 1) := by decide
  rw [hs, Option.map_some, Option.some.injEq, Prod.mk.injEq, Prod.mk.injEq] at hend
  obtain ⟨hops, hpending, hlength⟩ := hend
  have := (h 1 oneThread 1 s onlyPool (reaches_always_of_exec hs)).2
    (by rw [hops]; exact fun o ho => absurd ho (List.not_mem_nil))
  rw [hpending, hlength] at this
  exact absurd this (by decide)

end PoolSystem

end Scheduler
end NUClear
