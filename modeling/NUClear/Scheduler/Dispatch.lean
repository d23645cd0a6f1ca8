import NUClear.Scheduler.Sleep

/-!
# In which order a pool hands out its tasks

`try_dequeue_task` takes the first task of the first bucket that is not empty, and a task joins its
bucket at the end.  So a worker always gets a task that is ahead of all that remain in the buckets,
whether these could be run or not: the bucket is of a higher priority, or it is the same one and the
task was enqueued earlier (`ahead_of_getTask`).

What counts is when a task was last enqueued.  A task whose lock has failed goes to the end of its
bucket, and so behind tasks that were submitted after it.

* `InOrder`: every bucket of every pool is in the order in which its tasks were enqueued.  An
  operation enqueues at the end, dequeues at the front or empties the buckets; that is all that
  `InOrder.does` has to look at.
* `dequeueFirst_of_lookForTask`, `dequeueFirst_of_getTask`: a worker that returns with a task has
  taken the first one of the buckets, and has left the others there.
* `ahead_of_getTask`: in every run, such a task is ahead of the others.
* `overtaken_of_overtakenInBucket`: a task can be ahead of one that was submitted before it, with
  the same priority, and that could be run.
-/

namespace NUClear
namespace Scheduler

open Foundation

/-- Every bucket is in the order in which its tasks were enqueued. -/
def Pool.InOrder (P : Pool) : Prop :=
  P.buckets.InOrder PoolTask.bucket PoolTask.enqueued P.clock

theorem Pool.InOrder.enqueue {P : Pool} (h : P.InOrder) (t : PoolTask) : (P.enqueue t).InOrder := by
  show Buckets.InOrder _ _ (P.clock + 1) (P.buckets.enqueue t.bucket { t with enqueued := P.clock })
  exact Buckets.InOrder.enqueue (x := { t with enqueued := P.clock }) h rfl

namespace SchedulerState

variable {c : GroupId → ℕ} {n : ℕ} {s s' : SchedulerState n} {p q : Fin n} {P : Pool}
  {current : Option (Fin n)} {t : PoolTask} {g : GroupId} {ev : List Event} {e : Event} {i : ℕ}
  {lock : TaskLock}

/-- The buckets of all pools are in order, which no operation on the groups can change. -/
def InOrder (s : SchedulerState n) : Prop := ∀ p, (s.pools p).InOrder

theorem InOrder.setPool (h : InOrder s) (hP : P.InOrder) : InOrder (s.setPool p P) := by
  intro q
  by_cases hq : q = p
  · rw [hq, setPool_self]
    exact hP
  · rw [setPool_of_ne s P hq]
    exact h q

theorem InOrder.unmoved (h : InOrder s) (hu : Unmoved s s') : InOrder s' := by
  intro p
  rw [Pool.InOrder, hu.buckets, hu.clock]
  exact h p

theorem InOrder.submit {task : ReactionTask} (h : InOrder s) :
    InOrder (s.setPool p ((s.pools p).submit task lock)) :=
  h.setPool ((h p).enqueue ⟨task, lock, (s.pools p).clock, (s.pools p).clock⟩)

theorem InOrder.setWorker {w : Worker} (h : InOrder s) : InOrder (s.setWorker p i w) :=
  h.setPool (h p)

theorem InOrder.dequeue (h : InOrder s) (hd : (s.pools p).tryDequeueTask = some (t, P))
    (groups : Groups) : InOrder { s.setPool p P with groups := groups } := by
  obtain ⟨b, buckets, hfirst, rfl⟩ := Pool.tryDequeueTask_cases hd
  exact InOrder.setPool h (Buckets.InOrder.dequeueFirst (h p) hfirst).1

/-- **Whatever an operation does, it keeps the buckets in order.**  The groups and the locks do not
matter. -/
theorem InOrder.does {skips : Prop} {m m' : Midway n} (h : InOrder m.state)
    (hd : Does skips m m') : InOrder m'.state := by
  cases hd with
  | unmoved hu => exact h.unmoved hu
  | called he hu hn => exact h.unmoved hu
  | submitTo hfree => exact h.submit
  | submitted he hp hfree => exact h.submit
  | runInline hl => exact h.setPool (h _)
  | finishInline ht => exact h.setPool (h _)
  | sleep hs => exact h.setPool (h _)
  | start hw => exact h.setPool (h _)
  | moveWorker hw ht ht' => exact h.setWorker
  | finish hw => exact h.setWorker
  | take hw hfree hlive hd hl => exact (h.dequeue hd _).setWorker
  | fail hw hfree hlive hd hl hskip => exact (h.dequeue hd _).setWorker
  | putBack hw => exact h.setPool ((h _).enqueue _)
  | drain => exact h.setPool .empty
  | turn | tryAcquire | acquire | trySubmit | admitted | getGroupsLock | tryLock | refuse
  | runningDestroy | handleDestroy | destroyed | astray => exact h

/-! ## Looking for a task -/

theorem getElem?_setWorker {w : Worker} (hi : i < (s.pools p).workers.length) :
    ((s.setWorker p i w).pools p).workers[i]? = some w := by
  rw [SchedulerState.setWorker, setPool_self]
  exact List.getElem?_set_self hi

theorem buckets_setWorker {w : Worker} :
    ((s.setWorker p i w).pools p).buckets = (s.pools p).buckets := by
  rw [SchedulerState.setWorker, setPool_self]
  rfl

/-- A worker returns a task only if it was the first one of the buckets. -/
theorem dequeueFirst_of_lookForTask (hw : (s.pools p).workers[i]? = some .looking)
    (ht : ((s.lookForTask p i).pools p).workers[i]? = some (.running t)) :
    ∃ b, (s.pools p).buckets.dequeueFirst =
      some (b, t, ((s.lookForTask p i).pools p).buckets) := by
  have hi : i < (s.pools p).workers.length := (List.getElem?_eq_some_iff.mp hw).1
  cases hd : (if (s.pools p).live then (s.pools p).tryDequeueTask else none) with
  | none =>
    simp only [SchedulerState.lookForTask, hd] at ht
    have hu := unmoved_getIdleTask (s.setPool p { s.pools p with live := false }) p i
    rw [getElem?_setWorker (by rwa [hu.workers, setPool_self]), Option.some.injEq] at ht
    split_ifs at ht
  | some r =>
    obtain ⟨t', P⟩ := r
    simp only [SchedulerState.lookForTask, hd] at ht ⊢
    split_ifs at hd with hlive
    have hworkers := workers_dequeued hd (t'.lock.lock s.groups).1
    obtain ⟨b, hfirst⟩ : ∃ b, (s.pools p).buckets.dequeueFirst = some (b, t', P.buckets) := by
      obtain ⟨b, buckets, hfirst, rfl⟩ := Pool.tryDequeueTask_cases hd
      exact ⟨b, hfirst⟩
    set s₁ : SchedulerState n := { s.setPool p P with groups := (t'.lock.lock s.groups).1 }
      with hs₁
    have hp : s₁.pools p = P := setPool_self s p P
    split_ifs at ht ⊢ with hl
    · have hu := (unmoved_clearThreadIdle hp i).trans (unmoved_clearPoolIdle _ p)
      rw [getElem?_setWorker (by rwa [hu.workers, hworkers]), Option.some.injEq,
        Worker.running.injEq] at ht
      rw [buckets_setWorker, hu.buckets, hp, ← ht]
      exact ⟨b, hfirst⟩
    · rw [getElem?_setWorker (by rwa [hworkers]), Option.some.injEq] at ht
      exact absurd ht (by simp)

/-- **One round of `get_task`** that returns a task returns the first one of the buckets. -/
theorem dequeueFirst_of_getTask (hw : (s.pools p).workers[i]? = some .looking)
    (hs : s.getTask p i = some s') (ht : (s'.pools p).workers[i]? = some (.running t)) :
    ∃ b, (s.pools p).buckets.dequeueFirst = some (b, t, (s'.pools p).buckets) := by
  have hi : i < (s.pools p).workers.length := (List.getElem?_eq_some_iff.mp hw).1
  obtain ⟨hb, hwk, -⟩ := consumePendingIdle_frame (s.pools p) i
  set s₁ := s.setPool p ((s.pools p).consumePendingIdle i).1 with hs₁
  have hp : s₁.pools p = ((s.pools p).consumePendingIdle i).1 := setPool_self ..
  simp only [SchedulerState.getTask] at hs
  split_ifs at hs
  · rw [← Option.some.inj hs, getElem?_setWorker hi] at ht
    exact absurd ht (by simp)
  · -- the worker discards the tasks, and is still looking
    rw [(undisturbed_releaseAll hs).workers, setPool_self] at ht
    exact absurd (hw.symm.trans ht) (by simp)
  · rw [← Option.some.inj hs] at ht ⊢
    have hfirst := dequeueFirst_of_lookForTask (s := s₁) (by rwa [hp, hwk]) ht
    rwa [hp, hb] at hfirst
  · rw [← Option.some.inj hs, getElem?_setWorker (by rwa [hp, hwk])] at ht
    exact absurd ht (by simp)

/-! ## The steps -/

theorem inOrder_start (c : GroupId → ℕ) (descriptors : Fin n → PoolDescriptor) (mainThread : Fin n)
    (k : ℕ) : InOrder (start c descriptors mainThread k) := fun _ => Buckets.InOrder.empty

theorem InOrder.step {a : Action n} (h : InOrder s) (hs : step s a = some s') : InOrder s' := by
  obtain ⟨refused, -, hwalk⟩ := walk_step True (Or.inl trivial) hs
  exact hwalk.invariant (P := fun m => InOrder m.state) h fun _ _ => InOrder.does

theorem inOrder_of_reaches {c : GroupId → ℕ} {descriptors : Fin n → PoolDescriptor}
    {mainThread : Fin n} {k : ℕ}
    (h : Reaches SchedulerState.step Always (start c descriptors mainThread k) s) : InOrder s :=
  h.invariant (inOrder_start c descriptors mainThread k) fun _ _ _ hx _ hs => InOrder.step hx hs

/-- **A task that `get_task` returns is ahead of all that remain in the buckets**: in an earlier
bucket, or enqueued earlier in the same one. -/
theorem ahead_of_getTask {c : GroupId → ℕ} {descriptors : Fin n → PoolDescriptor}
    {mainThread : Fin n} {k : ℕ} {u : PoolTask}
    (h : Reaches SchedulerState.step Always (start c descriptors mainThread k) s)
    (hs : SchedulerState.step s (.getTask p i) = some s')
    (ht : (s'.pools p).workers[i]? = some (.running t)) (hu : u ∈ (s'.pools p).buckets.contents) :
    t.bucket < u.bucket ∨ t.bucket = u.bucket ∧ t.enqueued < u.enqueued := by
  simp only [SchedulerState.step] at hs
  split_ifs at hs with hg
  obtain ⟨b, hfirst⟩ := dequeueFirst_of_getTask hg.1 hs ht
  exact (Buckets.InOrder.dequeueFirst (inOrder_of_reaches h p) hfirst).2 u hu

/-! ## Two runs -/

/-- A task of group 0 runs in the second pool, and the first one has two tasks of different
priorities. -/
def twoPriorities : List (Action 2) :=
  [.start firstPool, .start secondPool,
    .submit none ⟨⟨1, 500⟩, secondPool, .single 0, false⟩, .getTask secondPool 0,
    .submit none ⟨⟨2, 500⟩, firstPool, .empty, false⟩,
    .submit none ⟨⟨3, 750⟩, firstPool, .empty, false⟩]

theorem ahead_of_getTask_twoPriorities :
    ∃ (s : SchedulerState 2) (t u : PoolTask), (s.pools 0).workers = [.running t] ∧
      u ∈ (s.pools 0).buckets.contents ∧
      (t.bucket < u.bucket ∨ t.bucket = u.bucket ∧ t.enqueued < u.enqueued) := by
  obtain ⟨s, hs⟩ := Option.isSome_iff_exists.mp
    (by decide : (exec step (start (fun _ => 1) twoPools 0 1) twoPriorities).isSome = true)
  have hnext : ((exec step (start (fun _ => 1) twoPools 0 1) twoPriorities).bind
      fun s => (step s (.getTask 0 0)).map fun s =>
        ((s.pools 0).workers, (s.pools 0).buckets.contents)) =
      some ([.running ⟨⟨3, 750⟩, .none, 1, 1⟩], [⟨⟨2, 500⟩, .none, 0, 0⟩]) := by decide
  rw [hs, Option.bind_some, Option.map_eq_some_iff] at hnext
  obtain ⟨s', hs', heq⟩ := hnext
  obtain ⟨hworkers, hcontents⟩ := Prod.mk.inj heq
  have hu : (⟨⟨2, 500⟩, .none, 0, 0⟩ : PoolTask) ∈ (s'.pools 0).buckets.contents :=
    hcontents ▸ List.mem_singleton.mpr rfl
  refine ⟨s', _, _, hworkers, hu, ?_⟩
  exact ahead_of_getTask (reaches_always_of_exec hs) hs' (by rw [hworkers]; rfl) hu

/-- The task over the groups 0 and 1 fails first, and when it could be run it is behind the other
one. -/
def overtakenInBucket : List (Action 2) :=
  failsWithAnother ++ [.finish secondPool 0, .wake firstPool 0]

/-- The one worker returns the task that was submitted later, and the earlier one could be run. -/
theorem overtaken_of_overtakenInBucket :
    ¬ ∀ (c : GroupId → ℕ) (n : ℕ) (descriptors : Fin n → PoolDescriptor) (mainThread : Fin n)
      (k : ℕ) (s s' : SchedulerState n) (p : Fin n) (i : ℕ) (t u : PoolTask), (∀ g, 1 ≤ c g) →
      Reaches step Always (start c descriptors mainThread k) s →
      (s.pools p).workers.length = 1 → step s (.getTask p i) = some s' →
      (s'.pools p).workers[i]? = some (.running t) → u ∈ (s'.pools p).buckets.contents →
      u.lock.ready s'.groups = true →
      ¬ (u.bucket < t.bucket ∨ u.bucket = t.bucket ∧ u.submitted < t.submitted) := by
  intro h
  obtain ⟨s, hs⟩ := Option.isSome_iff_exists.mp
    (by decide : (exec step (start (fun _ => 1) twoPools 0 1) overtakenInBucket).isSome = true)
  have hnext : ((exec step (start (fun _ => 1) twoPools 0 1) overtakenInBucket).bind
      fun s => (step s (.getTask 0 0)).map fun s' =>
        ((s.pools 0).workers.length, (s'.pools 0).workers, (s'.pools 0).buckets.contents.any
          fun u => u.lock.ready s'.groups && u.bucket == 2 && u.submitted == 0)) =
      some (1, [.running ⟨⟨3, 500⟩, .none, 1, 1⟩], true) := by decide
  rw [hs, Option.bind_some, Option.map_eq_some_iff] at hnext
  obtain ⟨s', hs', heq⟩ := hnext
  simp only [Prod.mk.injEq] at heq
  obtain ⟨hlength, hworkers, hany⟩ := heq
  obtain ⟨u, hu, hready⟩ := List.any_eq_true.mp hany
  simp only [Bool.and_eq_true, beq_iff_eq] at hready
  obtain ⟨⟨hready, hbucket⟩, hsubmitted⟩ := hready
  refine h (fun _ => 1) 2 twoPools 0 1 s s' 0 0 _ u (fun _ => le_rfl) (reaches_always_of_exec hs)
    hlength hs' (by rw [hworkers]; rfl) hu hready (Or.inr ⟨?_, ?_⟩)
  · rw [hbucket]
    rfl
  · rw [hsubmitted]
    exact Nat.zero_lt_one

end SchedulerState

end Scheduler
end NUClear
