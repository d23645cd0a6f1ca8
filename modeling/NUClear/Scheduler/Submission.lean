import NUClear.Scheduler.Ownership
import NUClear.Foundation.Reachability

/-!
# Pools that are made on first use (`Scheduler.cpp`)

`get_pool` makes the pool of a descriptor that it has not seen, and throws once the scheduler is
stopping.  `submit`, which is `noexcept`, asks it for the pool of a task, unless the reaction of the
task has the pool of an earlier one cached; `add_idle_task` and `remove_idle_task` ask it too.  An
exception that leaves `submit` terminates the program.

## The life of the scheduler

* `submitAs`: `submit` on pools that exist, with what becomes of the task: it runs, is queued, is
  parked or is dropped.  `submitAs_snd` says that it is `submit`, and `placed_submitAs` that a task
  that runs or is queued is where it is said to be.
* `Lifecycle`: the scheduler from its construction on.  Pools are made by `get_pool`, started by
  `start` or, when the scheduler is running already, as they are made, and stopped by `stop`.
* `KnowsPool`: the condition on a step.  The pool of the task is known, to its reaction or to the
  scheduler, or the scheduler is not stopping.

## The result

* `handled_step_iff`: one step leaves every task handled if and only if it meets the condition.
* `handled_iff_of_exec`: in a run each task has had one of these ends if and only if the pool of
  each was known when it was submitted, or the scheduler was not stopping.
-/

namespace NUClear
namespace Scheduler

open Foundation

variable {n : ℕ}

/-! ## What becomes of a task -/

/-- What becomes of a task that is submitted: it runs inline, is in a bucket of its pool, is parked
in its group, or is dropped because the pool does not accept it. -/
inductive Outcome where
  | ran
  | queued
  /-- With the waiters of its group. -/
  | parked
  | dropped
  deriving DecidableEq, Repr

namespace SchedulerState

/-- `submitOrDrop`, with what becomes of the task. -/
def submitOrDropAs (s : SchedulerState n) (current : Option (Fin n)) (x : Submission n)
    (lock : TaskLock) (clearIdle : Bool) : Option (Outcome × SchedulerState n) :=
  (s.submitOrDrop current x lock clearIdle).map fun s' =>
    (if (s.pools x.pool).accept then .queued else .dropped, s')

/-- `trySubmit`, with what becomes of the task. -/
def trySubmitAs (s : SchedulerState n) (current : Option (Fin n)) (g : GroupId) (x : Submission n)
    (clearIdle : Bool) : Option (Outcome × SchedulerState n) :=
  let r := (s.groups g).trySubmit ⟨x.task, x.pool, clearIdle⟩
  if r.2 = [.submit ⟨x.task, x.pool, clearIdle⟩] then
    (s.setGroup g r.1).submitOrDropAs current x (.running g) clearIdle
  else (s.afterCall current g r).map fun s' => (.parked, s')

/-- `submitSlow`, with what becomes of the task. -/
def submitSlowAs (s : SchedulerState n) (current : Option (Fin n)) (x : Submission n)
    (clearIdle : Bool) :
    Option (Outcome × SchedulerState n) :=
  let (groups, groupLock) := getGroupsLock s.groups ⟨x.task.id, x.task.priority, x.pool⟩ x.groups
  let lock := TaskLock.ofOption groupLock
  if x.runInline then
    let (groups, locked) := lock.lock groups
    if locked then some (.ran, { s with groups := groups }.runInline x lock)
    else { s with groups := groups }.submitOrDropAs current x lock clearIdle
  else { s with groups := groups }.submitOrDropAs current x lock clearIdle

/-- `Scheduler::submit` with the pool of the task, and with what becomes of it. -/
def submitAs (s : SchedulerState n) (current : Option (Fin n)) (x : Submission n) :
    Option (Outcome × SchedulerState n) :=
  let clearIdle := !s.currentPoolIdle current
  match x.groups.descs with
  | [g] =>
      if x.runInline then
        match (s.groups g).tryAcquireRunningLock with
        | (group, true, _) => some (.ran, (s.setGroup g group).runInline x (.running g))
        | (group, false, events) =>
            (s.afterCall current g (group, events)).bind fun s =>
              s.trySubmitAs current g x clearIdle
      else s.trySubmitAs current g x clearIdle
  | _ => s.submitSlowAs current x clearIdle

end SchedulerState

/-! ## The scheduler from its construction on -/

/-- The scheduler from its construction on: the pools of all descriptors, of which some have been
made, and what the reactions have cached. -/
structure Lifecycle (n : ℕ) where
  base : SchedulerState n
  /-- `pools.count(desc) != 0`. -/
  created : Fin n → Bool
  running : Bool
  started : Bool
  /-- `scheduler_data` of a reaction. -/
  cached : ℕ → Option (Fin n)
  /-- `submit` was left by an exception. -/
  terminated : Bool
  /-- The number of tasks that were submitted, and what became of them. -/
  submitted : ℕ
  outcomes : List Outcome

namespace Lifecycle

inductive Action (n : ℕ) where
  /-- `start`, up to where the main thread looks for tasks. -/
  | start
  /-- `stop`, up to where it stops the pools. -/
  | stop
  | addIdleTask (desc : Option (Fin n)) (reaction : ℕ)
  | removeIdleTask (desc : Option (Fin n)) (reaction : ℕ)
  /-- `submit`, with the reaction of the task; without a task it is a null pointer. -/
  | submit (current : Option (Fin n)) (parent : Option ℕ) (x : Option (Submission n))
  /-- The workers, the end of a task, and the rest of `stop` and `start`. -/
  | base (a : SchedulerState.Action n)

/-- `Scheduler::Scheduler`: there is the main thread pool, and the others are made when they are
asked for. -/
def construct (c : GroupId → ℕ) (descriptors : Fin n → PoolDescriptor) (mainThread : Fin n)
    (defaultPoolConcurrency : ℕ) : Lifecycle n where
  base := .start c descriptors mainThread defaultPoolConcurrency
  created := fun p => p == mainThread
  running := true
  started := false
  cached := fun _ => none
  terminated := false
  submitted := 0
  outcomes := []

/-- `Pool::start`, with as many threads as the pool is to have. -/
def startPool (b : SchedulerState n) (p : Fin n) : SchedulerState n :=
  b.setPool p ((b.pools p).start (b.threads p))

/-- `Pool::Pool`, whose `CountingLock` takes back the pool that it has just counted. -/
def makePool (b : SchedulerState n) (p : Fin n) : SchedulerState n :=
  let P := Pool.make (b.pools p).descriptor
  b.setPool p { P with
    idle := { P.idle with poolIdle := P.idle.poolIdle.map fun _ => b.activePools == 0 } }

/-- `get_pool`: the pool that there is, or a new one, which is started if the scheduler was; nothing
where it throws, since the scheduler is stopping. -/
def getPool (s : Lifecycle n) (desc : Fin n) : Option (Lifecycle n) :=
  if s.created desc then some s
  else if !s.running then none
  else
    let b := makePool s.base desc
    some { s with
      created := Function.update s.created desc true
      base := if desc ≠ b.mainThread ∧ s.started = true then startPool b desc else b }

/-- The pool that `submit` finds: the one that the reaction has cached, or that of `get_pool`;
nothing where this throws. -/
def findPool (s : Lifecycle n) (parent : Option ℕ) (desc : Fin n) : Option (Lifecycle n × Fin n) :=
  match parent with
  | some r =>
      match s.cached r with
      | some p => some (s, p)
      | none =>
        (s.getPool desc).map fun s =>
        ({ s with cached := Function.update s.cached r (some desc) }, desc)
  | none => (s.getPool desc).map fun s => (s, desc)

/-- What the other threads may do: `start` and `stop` say when pools start and stop, and tasks are
submitted by `submit`. -/
def allows (s : Lifecycle n) : SchedulerState.Action n → Bool
  | .start _ | .submit _ _ | .addIdleTask _ _ | .removeIdleTask _ _ => false
  | .stop _ p _ => s.created p && !s.running
  | .notify p _ => s.created p
  | _ => true

def step (s : Lifecycle n) (a : Action n) : Option (Lifecycle n) :=
  if s.terminated then none
  else
    match a with
    | .start =>
        if s.started then none
        else some { s with
          started := true
          base := ((List.finRange n).filter fun p => s.created p).foldl startPool s.base }
    | .stop => some { s with running := false }
    | .addIdleTask none reaction =>
        (s.base.step (.addIdleTask none reaction)).map fun b => { s with base := b }
    | .addIdleTask (some p) reaction =>
        match s.getPool p with
        | none => some s
        | some s => (s.base.step (.addIdleTask (some p) reaction)).map fun b => { s with base := b }
    | .removeIdleTask none reaction =>
        (s.base.step (.removeIdleTask none reaction)).map fun b => { s with base := b }
    | .removeIdleTask (some p) reaction =>
        match s.getPool p with
        | none => some s
        | some s =>
          (s.base.step (.removeIdleTask (some p) reaction)).map fun b => { s with base := b }
    | .submit _ _ none => some s
    | .submit current parent (some x) =>
        match s.findPool parent x.pool with
        | none => some { s with terminated := true, submitted := s.submitted + 1 }
        | some (s, p) =>
            (s.base.submitAs current { x with pool := p }).map fun r =>
              { s with base := r.2, submitted := s.submitted + 1, outcomes := r.1 :: s.outcomes }
    | .base a => if s.allows a then (s.base.step a).map fun b => { s with base := b } else none

/-! ## The property and its condition -/

/-- **What `submit` is for**: each task that was submitted has had one of the ends, and no exception
has left it. -/
structure Handled (s : Lifecycle n) : Prop where
  alive : s.terminated = false
  each : s.outcomes.length = s.submitted

/-- **The condition** on a step: the pool of the task is known, to its reaction or to the scheduler,
or the scheduler is not stopping. -/
def KnowsPool (s : Lifecycle n) : Action n → Prop
  | .submit _ parent (some x) =>
      (∃ r ∈ parent, (s.cached r).isSome = true) ∨ s.created x.pool = true ∨ s.running = true
  | _ => True

instance (s : Lifecycle n) : (a : Action n) → Decidable (s.KnowsPool a)
  | .submit _ parent (some _) => inferInstanceAs (Decidable ((∃ r ∈ parent, _) ∨ _))
  | .submit _ _ none | .start | .stop | .addIdleTask _ _ | .removeIdleTask _ _ | .base _ =>
    .isTrue trivial

end Lifecycle

/-! ## `submit` on pools that exist -/

namespace SchedulerState

variable {s : SchedulerState n} {current : Option (Fin n)} {x : Submission n}
  {lock : TaskLock} {b : Bool}

theorem submitOrDropAs_snd : (s.submitOrDropAs current x lock b).map Prod.snd =
    s.submitOrDrop current x lock b := by
  rw [submitOrDropAs, Option.map_map]
  exact Option.map_id'

theorem trySubmitAs_snd {g : GroupId} : (s.trySubmitAs current g x b).map Prod.snd =
    s.trySubmit current g x b := by
  rw [trySubmitAs, trySubmit]
  split_ifs
  · exact submitOrDropAs_snd
  · rw [Option.map_map]
    exact Option.map_id'

theorem submitSlowAs_snd : (s.submitSlowAs current x b).map Prod.snd =
    s.submitSlow current x b := by
  rw [submitSlowAs, submitSlow]
  dsimp only
  split_ifs
  · rfl
  · exact submitOrDropAs_snd
  · exact submitOrDropAs_snd

/-- Where a task is that runs or is queued; one that is parked is in its group, and a dropped one
nowhere. -/
def Placed (s : SchedulerState n) (x : Submission n) : Outcome → Prop
  | .ran => ∃ t ∈ (s.pools x.pool).inlined, t.task = x.task
  | .queued => ∃ t ∈ (s.pools x.pool).buckets.contents, t.task = x.task
  | .parked | .dropped => True

theorem placed_runInline : (s.runInline x lock).Placed x .ran := by
  unfold runInline Placed
  rw [setPool_self]
  exact ⟨_, List.mem_append_right _ (List.mem_singleton.mpr rfl), rfl⟩

theorem buckets_clearPoolIdle {p q : Fin n} :
    ((s.clearPoolIdle p).pools q).buckets = (s.pools q).buckets := by
  unfold clearPoolIdle
  dsimp only
  split_ifs
  · show ((s.setPool p _).pools q).buckets = _
    obtain rfl | hne := eq_or_ne q p
    · rw [setPool_self]
    · rw [setPool_of_ne _ _ hne]
  · rfl

theorem placed_submitTo : (s.submitTo x.pool x.task lock b).Placed x .queued := by
  have hbuckets : ((s.submitTo x.pool x.task lock b).pools x.pool).buckets =
      ((s.pools x.pool).submit x.task lock).buckets := by
    unfold submitTo
    dsimp only
    split_ifs
    · rw [buckets_clearPoolIdle, setPool_self]
    · rw [setPool_self]
  show ∃ t ∈ ((s.submitTo x.pool x.task lock b).pools x.pool).buckets.contents, t.task = x.task
  rw [hbuckets]
  exact ⟨_, (Buckets.contents_enqueue_perm ..).symm.subset (List.mem_cons_self ..), rfl⟩

variable {s' : SchedulerState n} {o : Outcome}

theorem placed_submitOrDropAs (h : s.submitOrDropAs current x lock b = some (o, s')) :
    s'.Placed x o := by
  obtain ⟨s1, hs1, heq⟩ := Option.map_eq_some_iff.mp h
  obtain ⟨rfl, rfl⟩ := Prod.mk.inj heq
  cases haccept : (s.pools x.pool).accept with
  | false => trivial
  | true =>
    rw [submitOrDrop, haccept] at hs1
    simp only [Bool.not_true, Bool.false_eq_true, if_false, Option.ite_none_right_eq_some] at hs1
    exact Option.some.inj hs1.2 ▸ placed_submitTo

theorem placed_trySubmitAs {g : GroupId} (h : s.trySubmitAs current g x b = some (o, s')) :
    s'.Placed x o := by
  unfold trySubmitAs at h
  dsimp only at h
  split_ifs at h
  · exact placed_submitOrDropAs h
  · obtain ⟨s1, -, heq⟩ := Option.map_eq_some_iff.mp h
    obtain ⟨rfl, -⟩ := Prod.mk.inj heq
    trivial

theorem placed_submitSlowAs (h : s.submitSlowAs current x b = some (o, s')) : s'.Placed x o := by
  unfold submitSlowAs at h
  dsimp only at h
  split_ifs at h
  · obtain ⟨rfl, rfl⟩ := Prod.mk.inj (Option.some.inj h)
    exact placed_runInline
  · exact placed_submitOrDropAs h
  · exact placed_submitOrDropAs h

/-- A task that runs is among those that run inline, and one that is queued is in a bucket of its
pool. -/
theorem placed_submitAs (h : s.submitAs current x = some (o, s')) : s'.Placed x o := by
  unfold submitAs at h
  cases hdescs : x.groups.descs with
  | nil =>
    rw [hdescs] at h
    exact placed_submitSlowAs h
  | cons g rest =>
    rw [hdescs] at h
    cases rest with
    | cons _ _ => exact placed_submitSlowAs h
    | nil =>
      dsimp only at h
      split_ifs at h
      · generalize (s.groups g).tryAcquireRunningLock = r at h
        obtain ⟨group, acquired, events⟩ := r
        cases acquired with
        | true =>
          obtain ⟨rfl, rfl⟩ := Prod.mk.inj (Option.some.inj h)
          exact placed_runInline
        | false =>
          obtain ⟨s1, -, htry⟩ := Option.bind_eq_some_iff.mp h
          exact placed_trySubmitAs htry
      · exact placed_trySubmitAs h

/-- `submitAs` is `submit`: what becomes of the task is said besides, and changes nothing. -/
theorem submitAs_snd : (s.submitAs current x).map Prod.snd = s.submit current x := by
  unfold submitAs submit
  cases hdescs : x.groups.descs with
  | nil => exact submitSlowAs_snd
  | cons g rest =>
    cases rest with
    | cons _ _ => exact submitSlowAs_snd
    | nil =>
      dsimp only
      split_ifs with hinline
      · obtain ⟨group, acquired, events⟩ := (s.groups g).tryAcquireRunningLock
        cases acquired with
        | true => rfl
        | false =>
          dsimp only
          rw [Option.map_bind]
          exact congrArg _ (funext fun _ => trySubmitAs_snd)
      · exact trySubmitAs_snd

end SchedulerState

namespace Lifecycle

variable {s s' : Lifecycle n} {a : Action n} {p : Fin n} {parent : Option ℕ}

/-! ## The pool of a task -/

/-- What the search for a pool leaves as it is, all but the pools and the cache. -/
structure Same (s s' : Lifecycle n) : Prop where
  terminated : s'.terminated = s.terminated
  submitted : s'.submitted = s.submitted
  outcomes : s'.outcomes = s.outcomes

theorem getPool_eq_none : s.getPool p = none ↔ ¬ (s.created p = true ∨ s.running = true) := by
  rw [getPool]
  cases s.created p <;> cases s.running <;> simp

theorem same_getPool (h : s.getPool p = some s') : Same s s' := by
  rw [getPool] at h
  split_ifs at h
  · exact Option.some.inj h ▸ ⟨rfl, rfl, rfl⟩
  · exact Option.some.inj h ▸ ⟨rfl, rfl, rfl⟩

theorem findPool_eq_none {desc : Fin n} : s.findPool parent desc = none ↔
    ¬ ((∃ r ∈ parent, (s.cached r).isSome = true) ∨ s.created desc = true ∨ s.running = true) := by
  unfold findPool
  split
  · next r =>
    cases hcached : s.cached r with
    | none => simp [hcached, getPool_eq_none]
    | some p => simp [hcached]
  · simp [getPool_eq_none]

theorem same_findPool {desc : Fin n} (h : s.findPool parent desc = some (s', p)) : Same s s' := by
  unfold findPool at h
  split at h
  · next r =>
    split at h
    · obtain ⟨rfl, -⟩ := Prod.mk.inj (Option.some.inj h)
      exact ⟨rfl, rfl, rfl⟩
    · obtain ⟨s1, hs1, heq⟩ := Option.map_eq_some_iff.mp h
      obtain ⟨rfl, -⟩ := Prod.mk.inj heq
      exact ⟨(same_getPool hs1).terminated, (same_getPool hs1).submitted,
        (same_getPool hs1).outcomes⟩
  · obtain ⟨s1, hs1, heq⟩ := Option.map_eq_some_iff.mp h
    obtain ⟨rfl, -⟩ := Prod.mk.inj heq
    exact same_getPool hs1

/-! ## One step -/

theorem same_of_map {s1 : Lifecycle n} {o : Option (SchedulerState n)} (hs : Same s s1)
    (h : (o.map fun b => { s1 with base := b }) = some s') : Same s s' := by
  obtain ⟨b, -, rfl⟩ := Option.map_eq_some_iff.mp h
  exact ⟨hs.terminated, hs.submitted, hs.outcomes⟩

/-- What a step does: it submits no task, or a task whose pool is found, or one whose pool is
not. -/
theorem step_cases (h : step s a = some s') : s.terminated = false ∧
    ((Same s s' ∧ s.KnowsPool a) ∨
      (∃ current parent x, a = .submit current parent (some x) ∧ s.findPool parent x.pool = none ∧
        s' = { s with terminated := true, submitted := s.submitted + 1 }) ∨
      ∃ current parent x s1 p r, a = .submit current parent (some x) ∧
        s.findPool parent x.pool = some (s1, p) ∧
        s1.base.submitAs current { x with pool := p } = some r ∧
        s' = { s1 with
          base := r.2, submitted := s1.submitted + 1, outcomes := r.1 :: s1.outcomes }) := by
  have hrefl : Same s s := ⟨rfl, rfl, rfl⟩
  unfold step at h
  by_cases hterminated : s.terminated = true
  · rw [if_pos hterminated] at h
    exact absurd h (by simp)
  rw [if_neg hterminated] at h
  refine ⟨Bool.eq_false_iff.mpr hterminated, ?_⟩
  cases a with
  | start =>
    dsimp only at h
    split_ifs at h
    exact .inl ⟨Option.some.inj h ▸ ⟨rfl, rfl, rfl⟩, trivial⟩
  | stop => exact .inl ⟨Option.some.inj h ▸ ⟨rfl, rfl, rfl⟩, trivial⟩
  | addIdleTask desc reaction | removeIdleTask desc reaction =>
    cases desc with
    | none => exact .inl ⟨same_of_map hrefl h, trivial⟩
    | some p =>
      dsimp only at h
      split at h
      · exact .inl ⟨Option.some.inj h ▸ hrefl, trivial⟩
      · next s1 hs1 => exact .inl ⟨same_of_map (same_getPool hs1) h, trivial⟩
  | base b =>
    dsimp only at h
    split_ifs at h
    exact .inl ⟨same_of_map hrefl h, trivial⟩
  | submit current parent x =>
    cases x with
    | none => exact .inl ⟨Option.some.inj h ▸ hrefl, trivial⟩
    | some x =>
      dsimp only at h
      split at h
      · next hfind => exact .inr (.inl ⟨current, parent, x, rfl, hfind, (Option.some.inj h).symm⟩)
      · next s1 p hfind =>
        obtain ⟨r, hr, rfl⟩ := Option.map_eq_some_iff.mp h
        exact .inr (.inr ⟨current, parent, x, s1, p, r, rfl, hfind, hr, rfl⟩)

/-- A step leaves every task handled if and only if it knows the pool of the task that it submits;
otherwise `get_pool` throws, in a function that must not. -/
theorem handled_step_iff (hs : Handled s) (h : step s a = some s') :
    Handled s' ↔ s.KnowsPool a := by
  obtain ⟨-, ⟨hsame, hknows⟩ | ⟨current, parent, x, rfl, hfind, rfl⟩ |
    ⟨current, parent, x, s1, p, r, rfl, hfind, -, rfl⟩⟩ :=
    step_cases h
  · exact iff_of_true ⟨hsame.terminated.trans
      hs.alive, by rw [hsame.outcomes, hsame.submitted, hs.each]⟩ hknows
  · exact iff_of_false (fun hs' => Bool.noConfusion hs'.alive) (findPool_eq_none.mp hfind)
  · have hsame := same_findPool hfind
    refine iff_of_true ⟨hsame.terminated.trans hs.alive, ?_⟩ ?_
    · show s1.outcomes.length + 1 = s1.submitted + 1
      rw [hsame.outcomes, hsame.submitted, hs.each]
    · by_contra hknows
      rw [findPool_eq_none.mpr hknows] at hfind
      exact absurd hfind (by simp)

theorem Handled.of_step (h : step s a = some s') (hs' : Handled s') : Handled s := by
  obtain ⟨hterminated, ⟨hsame, -⟩ | ⟨current, parent, x, rfl, hfind, rfl⟩ |
    ⟨current, parent, x, s1, p, r, rfl, hfind, -, rfl⟩⟩ := step_cases h
  · exact ⟨hterminated, by rw [← hsame.outcomes, ← hsame.submitted, hs'.each]⟩
  · exact Bool.noConfusion hs'.alive
  · have hsame := same_findPool hfind
    have heach : s1.outcomes.length + 1 = s1.submitted + 1 := hs'.each
    exact ⟨hterminated, by rw [← hsame.outcomes, ← hsame.submitted]; exact Nat.succ.inj heach⟩

/-- **Submission.**  At the end of a run each task has run, been queued, been parked or been
dropped, and no exception has left `submit`, if and only if each task that was submitted came with a
known pool, or before the scheduler was stopping. -/
theorem handled_iff_of_exec {c : GroupId → ℕ} {descriptors : Fin n → PoolDescriptor}
    {mainThread : Fin n} {k : ℕ} {l : List (Action n)}
    (h : exec step (construct c descriptors mainThread k) l = some s) :
    Handled s ↔ execOk step KnowsPool (construct c descriptors mainThread k) l :=
  execOk_iff (I := fun _ => True) (P := Handled) (fun _ _ _ _ _ => trivial)
    (fun _ _ _ hst _ hs => handled_step_iff hs hst)
    (fun _ _ _ hst _ hs' => Handled.of_step hst hs') trivial
    ⟨rfl, rfl⟩ h

/-- Two pools of one thread: the main thread's and another one. -/
def lateTask : Submission 2 := ⟨⟨1, 500⟩, ⟨1, Nat.one_lt_two⟩, .empty, false⟩

/-- A task for a pool that is made by it, before the stop and after it, and one that finds the pool
cached. -/
def knownPool : List (Action 2) :=
  [.submit none none (some lateTask), .start, .stop, .submit none (some 7) (some lateTask),
    .submit (some ⟨0, Nat.two_pos⟩) (some 7) (some lateTask)]

def knownPoolDescriptors : Fin 2 → PoolDescriptor := fun _ => ⟨1, true, false, false⟩

theorem handled_iff_of_exec_knownPool :
    ∃ s, exec step (construct (fun _ => 1) knownPoolDescriptors 0 1) knownPool = some s ∧
      Handled s := by
  obtain ⟨s, hs⟩ := Option.isSome_iff_exists.mp (by decide +kernel :
    (exec step (construct (fun _ => 1) knownPoolDescriptors 0 1) knownPool).isSome = true)
  exact ⟨s, hs, (handled_iff_of_exec hs).mpr (by decide +kernel)⟩

/-- A task for a new pool after the stop. -/
theorem not_handled_lateTask : ¬ ∀ (n : ℕ) (c : GroupId → ℕ) (descriptors : Fin n → PoolDescriptor)
    (mainThread : Fin n) (k : ℕ) (l : List (Action n)) (s : Lifecycle n),
    exec step (construct c descriptors mainThread k) l = some s → Handled s := by
  intro hall
  obtain ⟨s, hs, hterminated⟩ := (Option.any_eq_true _ _).mp (by decide +kernel :
    (exec step (construct (fun _ => 1) knownPoolDescriptors 0 1)
      [.stop, .submit none none (some lateTask)]).any
      (fun s => s.terminated) = true)
  exact Bool.noConfusion (hterminated.symm.trans (hall 2 _ _ 0 1 _ s hs).alive)

end Lifecycle

end Scheduler
end NUClear
