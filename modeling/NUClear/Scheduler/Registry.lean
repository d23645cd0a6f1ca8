import NUClear.Foundation.Interleaving
import NUClear.Scheduler.Pool

/-!
# The pools that there are (`Scheduler.cpp`)

`get_pool` makes a pool when it is first asked for, from any thread, and starts it if `start` has
been called.  `start` starts the pools that there are, runs the main thread pool, and stops and
joins all of them at the end.  `stop` tells all the pools to stop.  Every constructor of `Op` is a
point of this code just before an access to an atomic, to what `pools_mutex` protects, or to a pool;
any number of threads are at such points.

`start` reads `pools` without the mutex when the main thread pool has returned, and `stop` works on
a copy.  Neither can miss a pool: the flag `running` is cleared before the copy is taken, and
`get_pool` reads it under the mutex (`Frozen`).

## The results

* `started_once`: when the mutex is free, every pool but that of the main thread has been started
  once if the scheduler has been started, and not at all otherwise.
* `stop_misses_none`: when a `stop` has returned, the pools stay the same ones and all of them have
  been told to stop.
* `persistent_last`: the final stop of a persistent pool waits for the threads of all the others.

## The proof

`Op.Placed` is what is known at each point of the code, and it is not spoilt by others because the
registry only grows and the flags change one way (`Memory.Grows`).  `WellRegistered` is the
invariant about who holds the mutex and who has been started: a pool that is not started yet is owed
its start by an operation that holds the mutex (`Owed`).  `Closed` is the invariant about the stops:
what a loop over a copy has still to stop (`Op.Covers`).

A descriptor stands for its address.  The workers of a pool are a number of threads; when one leaves
`Pool::run` is up to the environment, as long as the pool is not `running`.
-/

namespace NUClear
namespace Scheduler

open Foundation

namespace Registry

universe u

variable {κ : Type u}

/-! ## The memory -/

/-- A pool, by what starts and stops it, and by how many of its threads are left. -/
structure Entry (κ : Type u) where
  desc : κ
  /-- The calls of `Pool::start`. -/
  starts : ℕ
  /-- The threads of the pool that have not left `Pool::run`. -/
  threads : ℕ
  running : Bool
  /-- The calls of `Pool::stop`, latest first. -/
  stops : List Pool.StopType
  deriving DecidableEq, Repr

/-- The call of `PowerPlant::start`, of which there is one. -/
inductive StartCall where
  | before
  | within
  | after
  deriving DecidableEq, Repr

structure Memory (κ : Type u) where
  /-- `pools`, in the order in which they were made. -/
  pools : List (Entry κ)
  poolsMutex : Bool
  started : Bool
  running : Bool
  startCall : StartCall
  /-- `scheduler_data` of a reaction. -/
  schedulerData : ℕ → Option κ

namespace Entry

/-- `Pool::Pool`: it is running, and has no thread yet. -/
def make (d : κ) : Entry κ where
  desc := d
  starts := 0
  threads := 0
  running := true
  stops := []

/-- `Pool::start`, with the threads that it makes; the calls are counted. -/
def start (threads : ℕ) (e : Entry κ) : Entry κ :=
  { e with starts := e.starts + 1, threads := e.threads + threads }

/-- `Pool::stop`: a persistent pool goes on running after a normal one, and every other stop ends
it. -/
def stop (persistent : Bool) (type : Pool.StopType) (e : Entry κ) : Entry κ :=
  { e with
    running := match type with
      | .normal => persistent
      | .final => false
      | .force => false
    stops := type :: e.stops }

/-- A thread leaves `Pool::run`, which it does when its pool is stopped and it finds nothing more to
do. -/
def leave (e : Entry κ) : Entry κ := { e with threads := e.threads - 1 }

end Entry

namespace Memory

/-- The keys of `pools`, which are the descriptors that a pool was made for. -/
def descs (m : Memory κ) : List κ := m.pools.map Entry.desc

variable [DecidableEq κ]

def update (m : Memory κ) (d : κ) (f : Entry κ → Entry κ) : Memory κ :=
  { m with pools := m.pools.map fun e => if e.desc = d then f e else e }

end Memory

/-! ## The operations -/

/-- Who has called `get_pool`, and goes on behind it. -/
inductive Caller where
  | user
  /-- `start`. -/
  | start
  /-- `submit`, of a task of the reaction. -/
  | submit (r : ℕ)
  deriving DecidableEq, Repr

/-- The points of the operations: at each of them one access is next, and other threads may come in
between. -/
inductive Op (κ : Type u) where
  /-- `get_pool`: the mutex is taken. -/
  | getLock (d : κ) (c : Caller)
  /-- `pools.count(desc)`. -/
  | getCount (d : κ) (c : Caller)
  /-- `running.load`. -/
  | getRunning (d : κ) (c : Caller)
  /-- `pools[desc] = pool`. -/
  | getInsert (d : κ) (c : Caller)
  /-- `started.load`. -/
  | getStarted (d : κ) (c : Caller)
  /-- `pool->start()`. -/
  | getStart (d : κ) (c : Caller)
  /-- `pools.at(desc)`, and the mutex is released. -/
  | getReturn (d : κ) (c : Caller)
  /-- The mutex is released by the exception. -/
  | getThrow (d : κ)
  /-- `submit`: `scheduler_data.load`. -/
  | submitLoad (r : ℕ)
  /-- `submit`: `scheduler_data.store`. -/
  | submitStore (r : ℕ) (d : κ)
  /-- `start`: the mutex is taken. -/
  | startLock
  /-- `started.store(true)`. -/
  | startFlag
  /-- The loop that starts the pools, with those that it has not come to. -/
  | startPools (rest : List κ)
  /-- The mutex is released. -/
  | startUnlock
  /-- `Pool::start` of the main thread pool. -/
  | startMain
  /-- Its `run` returns. -/
  | runMain
  /-- The pools are copied, without the mutex, and sorted. -/
  | collect
  /-- `pool->stop(FINAL)` of the first of the rest. -/
  | finalStop (rest : List κ)
  /-- `pool->join()`. -/
  | finalJoin (d : κ) (rest : List κ)
  /-- `stop`: `running.store(false)`. -/
  | stopFlag (force : Bool)
  /-- The mutex is taken. -/
  | stopLock (force : Bool)
  /-- The pools are copied. -/
  | stopCopy (force : Bool)
  /-- The mutex is released. -/
  | stopUnlock (force : Bool) (rest : List κ)
  /-- `pool->stop` of the first of the rest. -/
  | stopPools (force : Bool) (rest : List κ)
  deriving DecidableEq, Repr

/-- What is called, any number of times by any number of threads; and `leave`: a thread of a pool
leaves `Pool::run`. -/
inductive Call (κ : Type u) where
  | getPool (d : κ)
  | submit (r : ℕ)
  | start
  | stop (force : Bool)
  | leave (d : κ)
  deriving DecidableEq, Repr

inductive Event (κ : Type u) where
  /-- `get_pool` has returned a pool to its user. -/
  | got (d : κ)
  /-- `get_pool` has thrown. -/
  | threw (d : κ)
  /-- `submit` has found the pool of a reaction. -/
  | resolved (r : ℕ) (d : κ)
  /-- `stop` has returned. -/
  | stopped
  deriving DecidableEq, Repr

/-- The descriptors, and the pool that the tasks of a reaction are for. -/
structure Setup (κ : Type u) where
  /-- `MainThread::descriptor()`. -/
  main : κ
  descriptor : κ → PoolDescriptor
  defaultPoolConcurrency : ℕ
  poolOf : ℕ → κ

section program

variable [DecidableEq κ] (S : Setup κ)

/-- `n_threads` of `Pool::start`.  The main thread pool makes none, `run` is called. -/
def Setup.threadsOf (d : κ) : ℕ :=
  if d = S.main then 0
  else if (S.descriptor d).isDefault then S.defaultPoolConcurrency
  else (S.descriptor d).concurrency

/-- The order of the sort: a pool that is not persistent comes before one that is.  Among those of
one kind the order is free. -/
def Setup.StopOrder (S : Setup κ) (a b : κ) : Prop :=
  (S.descriptor a).persistent = true → (S.descriptor b).persistent = true

instance (a b : κ) : Decidable (S.StopOrder a b) := inferInstanceAs (Decidable (_ → _))

/-- What follows `get_pool`, and what is observed of it. -/
def afterGet (d : κ) : Caller → Option (Op κ) × List (Event κ)
  | .user => (none, [.got d])
  | .start => (some .startMain, [])
  | .submit r => (some (.submitStore r d), [])

/-- The next access of an operation.  The environment chooses the order in which a loop goes through
`pools`. -/
def advance (m : Memory κ) : Op κ → List κ → Option (Outcome (Memory κ) (Op κ) (Event κ))
  | .getLock d c, _ =>
    if m.poolsMutex then none else some ⟨{ m with poolsMutex := true }, some (.getCount d c), []⟩
  | .getCount d c, _ => some ⟨m, some (if d ∈ m.descs then .getReturn d c else .getRunning d c), []⟩
  | .getRunning d c, _ => some ⟨m, some (if m.running then .getInsert d c else .getThrow d), []⟩
  | .getInsert d c, _ => some ⟨{ m with pools := m.pools ++ [.make d] }, some (.getStarted d c), []⟩
  | .getStarted d c, _ =>
      some ⟨m, some (if d ≠ S.main ∧ m.started then .getStart d c else .getReturn d c), []⟩
  | .getStart d c, _ =>
      some ⟨m.update d (.start (S.threadsOf d)), some (.getReturn d c), []⟩
  | .getReturn d c, _ => some ⟨{ m with poolsMutex := false }, (afterGet d c).1, (afterGet d c).2⟩
  | .getThrow d, _ => some ⟨{ m with poolsMutex := false }, none, [.threw d]⟩
  | .submitLoad r, _ =>
      match m.schedulerData r with
      | some d => some ⟨m, none, [.resolved r d]⟩
      | none => some ⟨m, some (.getLock (S.poolOf r) (.submit r)), []⟩
  | .submitStore r d, _ =>
      some ⟨{ m with schedulerData := Function.update m.schedulerData r (some d) }, none,
        [.resolved r d]⟩
  | .startLock, _ =>
    if m.poolsMutex then none else some ⟨{ m with poolsMutex := true }, some .startFlag, []⟩
  | .startFlag, order =>
      if order.Perm m.descs then some ⟨{ m with started := true }, some (.startPools order), []⟩
        else none
  | .startPools [], _ => some ⟨m, some .startUnlock, []⟩
  | .startPools (d :: rest), _ =>
      some ⟨if d = S.main then m else m.update d (.start (S.threadsOf d)),
        some (.startPools rest), []⟩
  | .startUnlock, _ => some ⟨{ m with poolsMutex := false }, some (.getLock S.main .start), []⟩
  | .startMain, _ => some ⟨m.update S.main (.start (S.threadsOf S.main)), some .runMain, []⟩
  | .runMain, _ =>
      if m.pools.any fun e => e.desc = S.main && !e.running then some ⟨m, some .collect, []⟩
        else none
  | .collect, order =>
      if order.Perm m.descs ∧ order.Pairwise (S.StopOrder) then
        some ⟨m, some (.finalStop order), []⟩
      else none
  | .finalStop [], _ => some ⟨{ m with startCall := .after }, none, []⟩
  | .finalStop (d :: rest), _ =>
      some ⟨m.update d (.stop (S.descriptor d).persistent .final), some (.finalJoin d rest), []⟩
  | .finalJoin d rest, _ =>
      if ∀ e ∈ m.pools, e.desc = d → e.threads = 0 then some ⟨m, some (.finalStop rest), []⟩
        else none
  | .stopFlag force, _ => some ⟨{ m with running := false }, some (.stopLock force), []⟩
  | .stopLock force, _ =>
      if m.poolsMutex then none else some ⟨{ m with poolsMutex := true },
        some (.stopCopy force), []⟩
  | .stopCopy force, order =>
      if order.Perm m.descs then some ⟨m, some (.stopUnlock force order), []⟩ else none
  | .stopUnlock force rest, _ =>
    some ⟨{ m with poolsMutex := false }, some (.stopPools force rest), []⟩
  | .stopPools _ [], _ => some ⟨m, none, [.stopped]⟩
  | .stopPools force (d :: rest), _ =>
      some ⟨m.update d (.stop (S.descriptor d).persistent (if force then .force else .normal)),
        some (.stopPools force rest), []⟩

/-- The first access of a call is still to come, except for a thread that leaves. -/
def call (m : Memory κ) (_ : List (Op κ)) : Call κ → Option (Outcome (Memory κ) (Op κ) (Event κ))
  | .getPool d => some ⟨m, some (.getLock d .user), []⟩
  | .submit r => some ⟨m, some (.submitLoad r), []⟩
  | .start =>
      if m.startCall = .before then some ⟨{ m with startCall := .within }, some .startLock, []⟩
        else none
  | .stop force => some ⟨m, some (.stopFlag force), []⟩
  | .leave d =>
      if ∃ e ∈ m.pools, e.desc = d ∧ e.running = false ∧ 0 < e.threads then
        some ⟨m.update d .leave, none, []⟩
      else none

/-- The scheduler. -/
def program : Program (Memory κ) (Call κ) (Op κ) (List κ) (Event κ) where
  call := call
  advance := advance S

/-- `Scheduler::Scheduler`: there is the main thread pool, and nothing was called. -/
def initial : Machine (Memory κ) (Op κ) (Event κ) where
  mem :=
    { pools := [.make S.main]
      poolsMutex := false
      started := false
      running := true
      startCall := .before
      schedulerData := fun _ => none }
  ops := []
  trace := []

end program

/-! ## Who holds the mutex, and who runs `start` -/

/-- The operation is in `get_pool`, for this caller; the one that is about to throw has no use for
it. -/
def Op.caller : Op κ → Option Caller
  | .getLock _ c | .getCount _ c | .getRunning _ c | .getInsert _ c | .getStarted _ c
    | .getStart _ c
  | .getReturn _ c => some c
  | _ => none

/-- The operation holds `pools_mutex` before the access; so at most one operation is at such a
point. -/
def Op.holds : Op κ → Bool
  | .getCount .. | .getRunning .. | .getInsert .. | .getStarted .. | .getStart .. | .getReturn ..
  | .getThrow .. | .startFlag | .startPools .. | .startUnlock | .stopCopy .. | .stopUnlock .. =>
    true
  | _ => false

/-- The operation is that of `start`, also when it is in `get_pool` for the main thread pool. -/
def Op.isStart : Op κ → Bool
  | .startLock | .startFlag | .startPools .. | .startUnlock | .startMain | .runMain | .collect
  | .finalStop .. | .finalJoin .. => true
  | .getThrow .. | .submitLoad .. | .submitStore .. | .stopFlag .. | .stopLock .. | .stopCopy ..
  | .stopUnlock .. | .stopPools .. => false
  | o => o.caller = some .start

/-- The operation is going to start the pool: `get_pool` for a pool it has made, or the loop of
`start` that has not come to it. -/
def Op.owes [DecidableEq κ] (started : Bool) (d : κ) : Op κ → Bool
  | .getStarted d' _ => started && d' = d
  | .getStart d' _ => d' = d
  | .startPools rest => rest.contains d
  | _ => false

/-- The operation has made a pool or is going to, before it releases the mutex. -/
def Op.creates : Op κ → Bool
  | .getInsert .. | .getStarted .. | .getStart .. => true
  | _ => false

section

variable [DecidableEq κ] {S : Setup κ} {m m' : Memory κ} {o o' : Op κ} {next : Option (Op κ)}
  {order : List κ}
  {d : κ} {pre post ops : List (Op κ)} {tr evs : List (Event κ)} {flag : Bool} {e e' : Entry κ}
  {r : Outcome (Memory κ) (Op κ) (Event κ)}

/-- What an access does, one constructor for each of its outcomes. -/
inductive Access (S : Setup κ) (m : Memory κ) :
    Op κ → Memory κ → Option (Op κ) → List (Event κ) → Prop
  | getLock {d : κ} {c : Caller} (h : m.poolsMutex = false) :
      Access S m (.getLock d c) { m with poolsMutex := true } (some (.getCount d c)) []
  | getFound {d : κ} {c : Caller} (h : d ∈ m.descs) : Access S m (.getCount d c) m
    (some (.getReturn d c)) []
  | getMissing {d : κ} {c : Caller} (h : d ∉ m.descs) :
      Access S m (.getCount d c) m (some (.getRunning d c)) []
  | getAllowed {d : κ} {c : Caller} (h : m.running = true) :
      Access S m (.getRunning d c) m (some (.getInsert d c)) []
  | getRefused {d : κ} {c : Caller} (h : m.running = false) :
      Access S m (.getRunning d c) m (some (.getThrow d)) []
  | getInsert {d : κ} {c : Caller} :
      Access S m (.getInsert d c) { m with pools := m.pools ++ [.make d] }
        (some (.getStarted d c)) []
  | getStarted {d : κ} {c : Caller} (hd : d ≠ S.main) (h : m.started = true) :
      Access S m (.getStarted d c) m (some (.getStart d c)) []
  | getUnstarted {d : κ} {c : Caller} (h : d = S.main ∨ m.started = false) :
      Access S m (.getStarted d c) m (some (.getReturn d c)) []
  | getStart {d : κ} {c : Caller} :
      Access S m (.getStart d c) (m.update d (.start (S.threadsOf d))) (some (.getReturn d c)) []
  | getReturn {d : κ} {c : Caller} :
      Access S m (.getReturn d c) { m with poolsMutex := false } (afterGet d c).1 (afterGet d c).2
  | getThrow {d : κ} : Access S m (.getThrow d) { m with poolsMutex := false } none [.threw d]
  | submitCached {x : ℕ} {d : κ} (h : m.schedulerData x = some d) :
      Access S m (.submitLoad x) m none [.resolved x d]
  | submitLoad {x : ℕ} (h : m.schedulerData x = none) :
      Access S m (.submitLoad x) m (some (.getLock (S.poolOf x) (.submit x))) []
  | submitStore {x : ℕ} {d : κ} : Access S m (.submitStore x d)
      { m with schedulerData := Function.update m.schedulerData x (some d) } none [.resolved x d]
  | startLock (h : m.poolsMutex = false) :
      Access S m .startLock { m with poolsMutex := true } (some .startFlag) []
  | startFlag {order : List κ} (h : order.Perm m.descs) :
      Access S m .startFlag { m with started := true } (some (.startPools order)) []
  | startDone : Access S m (.startPools []) m (some .startUnlock) []
  | startSkip {rest : List κ} : Access S m (.startPools (S.main :: rest)) m
    (some (.startPools rest)) []
  | startPool {d : κ} {rest : List κ} (hd : d ≠ S.main) : Access S m (.startPools (d :: rest))
      (m.update d (.start (S.threadsOf d))) (some (.startPools rest)) []
  | startUnlock : Access S m .startUnlock { m with poolsMutex := false }
    (some (.getLock S.main .start)) []
  | startMain : Access S m .startMain (m.update S.main (.start (S.threadsOf S.main)))
    (some .runMain) []
  | runMain {e : Entry κ} (he : e ∈ m.pools) (hd : e.desc = S.main) (h : e.running = false) :
      Access S m .runMain m (some .collect) []
  | collect {order : List κ} (h : order.Perm m.descs) (hsort : order.Pairwise S.StopOrder) :
      Access S m .collect m (some (.finalStop order)) []
  | finalDone : Access S m (.finalStop []) { m with startCall := .after } none []
  | finalStop {d : κ} {rest : List κ} : Access S m (.finalStop (d :: rest))
      (m.update d (.stop (S.descriptor d).persistent .final)) (some (.finalJoin d rest)) []
  | finalJoin {d : κ} {rest : List κ} (h : ∀ e ∈ m.pools, e.desc = d → e.threads = 0) :
      Access S m (.finalJoin d rest) m (some (.finalStop rest)) []
  | stopFlag {force : Bool} :
      Access S m (.stopFlag force) { m with running := false } (some (.stopLock force)) []
  | stopLock {force : Bool} (h : m.poolsMutex = false) :
      Access S m (.stopLock force) { m with poolsMutex := true } (some (.stopCopy force)) []
  | stopCopy {force : Bool} {order : List κ} (h : order.Perm m.descs) :
      Access S m (.stopCopy force) m (some (.stopUnlock force order)) []
  | stopUnlock {force : Bool} {rest : List κ} :
      Access S m (.stopUnlock force rest) { m with poolsMutex := false }
        (some (.stopPools force rest)) []
  | stopDone {force : Bool} : Access S m (.stopPools force []) m none [.stopped]
  | stopPool {force : Bool} {d : κ} {rest : List κ} : Access S m (.stopPools force (d :: rest))
      (m.update d (.stop (S.descriptor d).persistent (if force then .force else .normal)))
      (some (.stopPools force rest)) []

theorem access_of_advance (h : advance S m o order = some r) :
    Access S m o r.mem r.next r.emitted := by
  cases o
  case startPools rest =>
    cases rest with
    | nil => cases h; exact .startDone
    | cons d rest =>
      cases h
      dsimp only
      split_ifs with hd
      · subst hd
        exact .startSkip
      · exact .startPool hd
  case finalStop rest =>
    cases rest with
    | nil => cases h; exact .finalDone
    | cons d rest => cases h; exact .finalStop
  case stopPools force rest =>
    cases rest with
    | nil => cases h; exact .stopDone
    | cons d rest => cases h; exact .stopPool
  all_goals simp only [advance, Option.ite_none_left_eq_some, Option.ite_none_right_eq_some,
    Option.some.injEq] at h
  case getCount d c =>
    subst h
    dsimp only
    split_ifs with hd
    · exact .getFound hd
    · exact .getMissing hd
  case getRunning d c =>
    subst h
    dsimp only
    split_ifs with hm
    · exact .getAllowed hm
    · exact .getRefused (Bool.eq_false_iff.mpr hm)
  case getStarted d c =>
    subst h
    dsimp only
    split_ifs with hm
    · exact .getStarted hm.1 hm.2
    · refine .getUnstarted ?_
      by_cases hd : d = S.main
      · exact Or.inl hd
      · exact Or.inr (Bool.eq_false_iff.mpr fun hs => hm ⟨hd, hs⟩)
  case submitLoad x =>
    split at h
    · next d hd => cases h; exact .submitCached hd
    · next hd => cases h; exact .submitLoad hd
  case runMain =>
    obtain ⟨hm, rfl⟩ := h
    obtain ⟨e, he, hrun⟩ := List.any_eq_true.mp hm
    simp only [Bool.and_eq_true, decide_eq_true_eq, Bool.not_eq_true'] at hrun
    exact .runMain he hrun.1 hrun.2
  case getInsert d c => subst h; exact .getInsert
  case getStart d c => subst h; exact .getStart
  case getReturn d c => subst h; exact .getReturn
  case getThrow d => subst h; exact .getThrow
  case submitStore x d => subst h; exact .submitStore
  case startUnlock => subst h; exact .startUnlock
  case startMain => subst h; exact .startMain
  case stopFlag force => subst h; exact .stopFlag
  case stopUnlock force rest => subst h; exact .stopUnlock
  -- The rest wait: for the mutex, for the threads, or for an order that the environment may choose.
  all_goals
    obtain ⟨hm, rfl⟩ := h
  case getLock d c => exact .getLock (Bool.eq_false_iff.mpr hm)
  case startLock => exact .startLock (Bool.eq_false_iff.mpr hm)
  case startFlag => exact .startFlag hm
  case collect => exact .collect hm.1 hm.2
  case finalJoin d rest => exact .finalJoin hm
  case stopLock force => exact .stopLock (Bool.eq_false_iff.mpr hm)
  case stopCopy force => exact .stopCopy hm

/-! ## The mutex, and the operation of `start` -/

/-- What an access does to the mutex: it takes it when it is free, keeps it, or releases it. -/
theorem Access.mutex (h : Access S m o m' next evs) (hm : o.holds = true → m.poolsMutex = true) :
    m.poolsMutex = o.holds ∧ m'.poolsMutex = next.any Op.holds ∨
      o.holds = next.any Op.holds ∧ m'.poolsMutex = m.poolsMutex := by
  cases h
  case getLock h => exact Or.inl ⟨h, rfl⟩
  case startLock h => exact Or.inl ⟨h, rfl⟩
  case stopLock h => exact Or.inl ⟨h, rfl⟩
  case getReturn d c => cases c <;> exact Or.inl ⟨hm rfl, rfl⟩
  case getThrow => exact Or.inl ⟨hm rfl, rfl⟩
  case startUnlock => exact Or.inl ⟨hm rfl, rfl⟩
  case stopUnlock => exact Or.inl ⟨hm rfl, rfl⟩
  all_goals exact Or.inr ⟨rfl, rfl⟩

/-! ## What is known at each point -/

/-- What is known of the descriptor that a caller of `get_pool` has passed. -/
def Setup.Asked (S : Setup κ) (m : Memory κ) (d : κ) : Caller → Prop
  | .user => True
  | .start => d = S.main ∧ m.started = true
  | .submit x => d = S.poolOf x

/-- What is known before the access of an operation, from the accesses before it. -/
def Op.Placed (S : Setup κ) (m : Memory κ) : Op κ → Prop
  | .getLock d c | .getCount d c => S.Asked m d c
  | .getRunning d c | .getInsert d c => d ∉ m.descs ∧ S.Asked m d c
  | .getStarted d c | .getReturn d c => d ∈ m.descs ∧ S.Asked m d c
  | .getStart d c => (d ∈ m.descs ∧ S.Asked m d c) ∧ m.started = true
  | .getThrow _ => m.running = false
  | .submitLoad _ => True
  | .submitStore x d => d ∈ m.descs ∧ d = S.poolOf x
  | .startLock | .startFlag => m.started = false
  | .startPools rest => m.started = true ∧ rest.Nodup
  | .startUnlock | .startMain | .runMain | .collect | .finalStop _ | .finalJoin .. =>
    m.started = true
  | .stopLock _ | .stopCopy _ => m.running = false
  | .stopFlag _ | .stopUnlock .. | .stopPools .. => True

/-- What has been observed, and still holds: pools do not go away, and the flags do not come back.
-/
def Event.Holds (S : Setup κ) (m : Memory κ) : Event κ → Prop
  | .got d => d ∈ m.descs
  | .threw _ => m.running = false
  | .resolved x d => d ∈ m.descs ∧ d = S.poolOf x
  | .stopped => True

/-- The registry keeps its pools, and the flags only change one way. -/
structure Memory.Grows (m m' : Memory κ) : Prop where
  descs : m.descs ⊆ m'.descs
  started : m.started = true → m'.started = true
  running : m.running = false → m'.running = false

omit [DecidableEq κ] in
theorem Setup.Asked.grows {c : Caller} (h : S.Asked m d c) (hg : m.Grows m') : S.Asked m' d c := by
  cases c with
  | user => trivial
  | start => exact ⟨h.1, hg.started h.2⟩
  | submit x => exact h

omit [DecidableEq κ] in
/-- Only `get_pool` and `start` rely on what may change, and only they change it, with the mutex
held. -/
theorem Op.Placed.grows (h : o.Placed S m) (hg : m.Grows m')
    (hheld : o.holds = true → m'.descs = m.descs)
    (hstart : o.isStart = true → m'.started = m.started) : o.Placed S m' := by
  cases o with
  | getLock d c => exact Setup.Asked.grows h hg
  | getCount d c => exact Setup.Asked.grows h hg
  | getRunning d c => exact ⟨by rw [hheld rfl]; exact h.1, h.2.grows hg⟩
  | getInsert d c => exact ⟨by rw [hheld rfl]; exact h.1, h.2.grows hg⟩
  | getStarted d c => exact ⟨hg.descs h.1, h.2.grows hg⟩
  | getStart d c => exact ⟨⟨hg.descs h.1.1, h.1.2.grows hg⟩, hg.started h.2⟩
  | getReturn d c => exact ⟨hg.descs h.1, h.2.grows hg⟩
  | getThrow d => exact hg.running h
  | submitLoad x => trivial
  | submitStore x d => exact ⟨hg.descs h.1, h.2⟩
  | startLock => exact (hstart rfl).trans h
  | startFlag => exact (hstart rfl).trans h
  | startPools rest => exact ⟨hg.started h.1, h.2⟩
  | startUnlock => exact hg.started h
  | startMain => exact hg.started h
  | runMain => exact hg.started h
  | collect => exact hg.started h
  | finalStop rest => exact hg.started h
  | finalJoin d rest => exact hg.started h
  | stopFlag force => trivial
  | stopLock force => exact hg.running h
  | stopCopy force => exact hg.running h
  | stopUnlock force rest => trivial
  | stopPools force rest => trivial

omit [DecidableEq κ] in
theorem Event.Holds.grows {ev : Event κ} (h : ev.Holds S m) (hg : m.Grows m') : ev.Holds S m' := by
  cases ev with
  | got d => exact hg.descs h
  | threw d => exact hg.running h
  | resolved x d => exact ⟨hg.descs h.1, h.2⟩
  | stopped => trivial

/-! ## What an access does to the memory -/

@[simp] theorem descs_update {f : Entry κ → Entry κ} (hf : ∀ e, (f e).desc = e.desc) :
    (m.update d f).descs = m.descs := by
  rw [Memory.descs, Memory.update, List.map_map]
  refine List.map_congr_left fun e _ => ?_
  rw [Function.comp_apply]
  split_ifs
  · exact hf e
  · rfl

theorem mem_update {f : Entry κ → Entry κ} :
    e' ∈ (m.update d f).pools ↔ ∃ e ∈ m.pools, (if e.desc = d then f e else e) = e' := List.mem_map

/-- An access leaves the keys as they are, or makes a pool. -/
theorem Access.descs (h : Access S m o m' next evs) :
    m'.descs = m.descs ∨ ∃ d c, o = .getInsert d c ∧ m'.descs = m.descs ++ [d] := by
  cases h
  case getInsert d c => exact Or.inr ⟨d, c, rfl, List.map_append⟩
  all_goals first | exact Or.inl rfl | exact Or.inl (descs_update fun _ => rfl)

/-- Only `start` sets `started`, and nothing resets it. -/
theorem Access.started (h : Access S m o m' next evs) :
    m'.started = m.started ∨ o = .startFlag ∧ m'.started = true := by
  cases h
  case startFlag => exact Or.inr ⟨rfl, rfl⟩
  all_goals exact Or.inl rfl

/-- Nothing sets `running`. -/
theorem Access.running (h : Access S m o m' next evs) :
    m'.running = m.running ∨ m'.running = false := by
  cases h
  case stopFlag => exact Or.inr rfl
  all_goals exact Or.inl rfl

theorem Access.grows (h : Access S m o m' next evs) : m.Grows m' where
  descs := by
    rcases h.descs with hd | ⟨d, c, -, hd⟩
    · exact hd.symm ▸ List.Subset.refl _
    · rw [hd]
      exact List.subset_append_left _ _
  started hs := by
    rcases h.started with h | ⟨-, h⟩
    · rw [h, hs]
    · exact h
  running hr := by
    rcases h.running with h | h
    · rw [h, hr]
    · exact h

/-- What is known at the next point. -/
theorem Access.placed (h : Access S m o m' next evs) (ho : o.Placed S m) (hnodup : m.descs.Nodup) :
    ∀ o' ∈ next, o'.Placed S m' := by
  have hg : m.Grows m' := h.grows
  cases h
  case getReturn d c =>
    cases c with
    | user => intro o' ho'; cases ho'
    | start => rintro _ ⟨⟩; exact ho.2.2
    | submit x => rintro _ ⟨⟩; exact ⟨ho.1, ho.2⟩
  all_goals rintro _ ⟨⟩
  case getLock h => exact Setup.Asked.grows ho hg
  case getFound d c hd => exact ⟨hd, ho⟩
  case getMissing d c hd => exact ⟨hd, ho⟩
  case getAllowed h => exact ho
  case getRefused h => exact h
  case getInsert d c =>
    exact ⟨List.mem_map_of_mem (List.mem_append_right _ (List.mem_singleton_self _)), ho.2.grows hg⟩
  case getStarted hd h => exact ⟨ho, h⟩
  case getUnstarted h => exact ho
  case getStart d c => exact ⟨hg.descs ho.1.1, ho.1.2.grows hg⟩
  case submitLoad x h => exact rfl
  case startLock h => exact ho
  case startFlag order h => exact ⟨rfl, h.nodup_iff.mpr hnodup⟩
  case startDone => exact ho.1
  case startSkip rest => exact ⟨ho.1, (List.nodup_cons.mp ho.2).2⟩
  case startPool d rest hd => exact ⟨ho.1, (List.nodup_cons.mp ho.2).2⟩
  case startUnlock => exact ⟨rfl, ho⟩
  case startMain => exact ho
  case runMain => exact ho
  case collect => exact ho
  case finalStop => exact ho
  case finalJoin => exact ho
  case stopFlag => exact rfl
  case stopLock => exact ho
  case stopCopy => trivial
  case stopUnlock => trivial
  case stopPool => trivial

/-- What an access emits. -/
theorem Access.events (h : Access S m o m' next evs) (ho : o.Placed S m)
    (hcache : ∀ x d, m.schedulerData x = some d → d ∈ m.descs ∧ d = S.poolOf x) :
    ∀ ev ∈ evs, ev.Holds S m' := by
  cases h
  case getReturn d c =>
    cases c with
    | user => exact List.forall_mem_singleton.mpr ho.1
    | start => exact List.forall_mem_nil _
    | submit x => exact List.forall_mem_nil _
  case getThrow => exact List.forall_mem_singleton.mpr ho
  case submitCached x d h => exact List.forall_mem_singleton.mpr (hcache x d h)
  case submitStore => exact List.forall_mem_singleton.mpr ho
  case stopDone => exact List.forall_mem_singleton.mpr trivial
  all_goals exact List.forall_mem_nil _

/-- The cache of an access. -/
theorem Access.cache (h : Access S m o m' next evs) (ho : o.Placed S m)
    (hcache : ∀ x d, m.schedulerData x = some d → d ∈ m.descs ∧ d = S.poolOf x) :
    ∀ x d, m'.schedulerData x = some d → d ∈ m'.descs ∧ d = S.poolOf x := by
  intro x d hx
  have hg : m.Grows m' := h.grows
  cases h
  case submitStore y d' =>
    dsimp only at hx
    rcases eq_or_ne x y with rfl | hxy
    · rw [Function.update_self, Option.some.injEq] at hx
      exact hx ▸ ho
    · rw [Function.update_of_ne hxy] at hx
      exact hcache x d hx
  all_goals exact ⟨hg.descs (hcache x d hx).1, (hcache x d hx).2⟩

/-- What an access does to the call of `start`.  `get_pool` does not throw in it: the main thread
pool is there. -/
theorem Access.startCall (h : Access S m o m' next evs)
    (hm : o.isStart = true → m.startCall = .within) (ho : o.Placed S m) (hmain : S.main ∈ m.descs) :
    o.isStart = true ∧ m.startCall = .within ∧ next = none ∧ m'.startCall = .after ∨
      o.isStart = next.any Op.isStart ∧ m'.startCall = m.startCall := by
  cases h
  case finalDone => exact Or.inl ⟨rfl, hm rfl, rfl, rfl⟩
  case getReturn d c => cases c <;> exact Or.inr ⟨rfl, rfl⟩
  case getRefused d c h =>
    cases c with
    | start => exact absurd (ho.2.1 ▸ hmain) ho.1
    | user => exact Or.inr ⟨rfl, rfl⟩
    | submit x => exact Or.inr ⟨rfl, rfl⟩
  all_goals exact Or.inr ⟨rfl, rfl⟩

/-! ## The starts -/

theorem holds_of_owes (h : o.owes flag d = true) : o.holds = true := by
  cases o <;> first | rfl | exact absurd h Bool.false_ne_true

omit [DecidableEq κ] in
theorem holds_of_creates (h : o.creates = true) : o.holds = true := by
  cases o <;> first | rfl | exact absurd h (by simp [Op.creates])

/-- Every pool but that of the main thread has been started once if the scheduler has, or an
operation that holds the mutex is going to. -/
def Owed (S : Setup κ) (m : Memory κ) (ops : List (Op κ)) : Prop :=
  ∀ e ∈ m.pools, e.desc ≠ S.main → e.starts + ops.countP (Op.owes m.started e.desc) =
    m.started.toNat

/-- What an access does to the starts of one pool: with what the operation owes they are as before,
or the operation holds the mutex and they are as they should be. -/
theorem Access.starts (h : Access S m o m' next evs) (ho : o.Placed S m)
    (hzero : ∀ e ∈ m.pools, e.desc ≠ S.main → m.started = false → e.starts = 0) (he : e' ∈ m'.pools)
    (hd : e'.desc ≠ S.main) :
    (m'.started = m.started ∧ ∃ e ∈ m.pools, e.desc = e'.desc ∧
      e'.starts + (next.any (Op.owes m.started e'.desc)).toNat =
        e.starts + (o.owes m.started e'.desc).toNat) ∨
    o.holds = true ∧ e'.starts + (next.any (Op.owes m'.started e'.desc)).toNat =
      m'.started.toNat := by
  cases h
  case getInsert d c =>
    rcases List.mem_append.mp he with he | he
    · have hne : d ≠ e'.desc := fun heq => ho.1 (heq ▸ List.mem_map_of_mem he)
      exact Or.inl ⟨rfl, e', he, rfl, by simp [Op.owes, hne]⟩
    · rw [List.mem_singleton.mp he]
      exact Or.inr ⟨rfl, by simp [Op.owes, Entry.make]⟩
  case getUnstarted d c h =>
    refine Or.inl ⟨rfl, e', he, rfl, ?_⟩
    rcases h with rfl | h
    · simp [Op.owes, Ne.symm hd]
    · simp [Op.owes, h]
  case getStarted d c hd' h => exact Or.inl ⟨rfl, e', he, rfl, by simp [Op.owes, h]⟩
  case getStart d c =>
    obtain ⟨e, he₀, rfl⟩ := mem_update.mp he
    refine Or.inl ⟨rfl, e, he₀, ?_, ?_⟩
    · split_ifs <;> rfl
    · split_ifs with heq
      · simp [Op.owes, Entry.start, heq]
      · simp [Op.owes, Ne.symm heq]
  case getReturn d c => exact Or.inl ⟨rfl, e', he, rfl, by cases c <;> rfl⟩
  case startFlag order h =>
    have hmem : e'.desc ∈ order := h.mem_iff.mpr (List.mem_map_of_mem he)
    exact Or.inr ⟨rfl, by simp [Op.owes, hmem, hzero e' he hd ho]⟩
  case startDone => exact Or.inl ⟨rfl, e', he, rfl, by simp [Op.owes]⟩
  case startSkip rest => exact Or.inl ⟨rfl, e', he, rfl, by simp [Op.owes, hd]⟩
  case startPool d rest hd' =>
    obtain ⟨e, he₀, rfl⟩ := mem_update.mp he
    have hnot : d ∉ rest := (List.nodup_cons.mp ho.2).1
    refine Or.inl ⟨rfl, e, he₀, ?_, ?_⟩
    · split_ifs <;> rfl
    · split_ifs with heq
      · simp [Op.owes, Entry.start, heq, hnot]
      · simp [Op.owes, heq]
  case startMain =>
    obtain ⟨e, he₀, rfl⟩ := mem_update.mp he
    have hne : e.desc ≠ S.main := by
      split_ifs at hd with heq
      · exact absurd heq hd
      · exact heq
    exact Or.inl ⟨rfl, e, he₀, by rw [if_neg hne], by rw [if_neg hne]; rfl⟩
  case finalStop d rest =>
    obtain ⟨e, he₀, rfl⟩ := mem_update.mp he
    refine Or.inl ⟨rfl, e, he₀, ?_, ?_⟩ <;> split_ifs <;> rfl
  case stopPool force d rest =>
    obtain ⟨e, he₀, rfl⟩ := mem_update.mp he
    refine Or.inl ⟨rfl, e, he₀, ?_, ?_⟩ <;> split_ifs <;> rfl
  all_goals exact Or.inl ⟨rfl, e', he, rfl, rfl⟩

/-- **An access keeps the starts**: what one operation owed it has started, or it is still going to.
-/
theorem Access.owed (h : Access S m o m' next evs) (ho : o.Placed S m)
    (hothers : o.holds = true → ∀ o' ∈ pre ++ post, o'.holds = false)
    (hd : Owed S m (pre ++ o :: post)) : Owed S m' (pre ++ (next.toList ++ post)) := by
  intro e' he' hmain
  have hzero : ∀ e ∈ m.pools, e.desc ≠ S.main → m.started = false → e.starts = 0 := by
    intro e he hne hs
    have := hd e he hne
    rw [hs] at this
    exact (Nat.add_eq_zero_iff.mp this).1
  rw [countP_access]
  rcases h.starts ho hzero he' hmain with ⟨hs, e, he, hdesc, heq⟩ | ⟨hh, heq⟩
  · have hold := hd e he (hdesc ▸ hmain)
    rw [hdesc, countP_middle] at hold
    rw [hs]
    omega
  · have hnone : (pre ++ post).countP (Op.owes m'.started e'.desc) = 0 := by
      refine List.countP_eq_zero.mpr fun o' ho' howes => ?_
      exact absurd (holds_of_owes howes) (by rw [hothers hh o' ho']; exact Bool.false_ne_true)
    rw [hnone]
    omega

/-- What holds of every state: the mutex is held by one, the keys are different, and every pool has
been started as often as it should, or is going to be. -/
structure WellRegistered (S : Setup κ) (m : Memory κ) (ops : List (Op κ)) (tr : List (Event κ)) :
    Prop where
  mutex : HeldByOne Op.holds m.poolsMutex ops
  start : HeldByOne Op.isStart (decide (m.startCall = .within)) ops
  before : m.startCall = .before → m.started = false
  nodup : m.descs.Nodup
  main : S.main ∈ m.descs
  placed : ∀ o ∈ ops, o.Placed S m
  cache : ∀ x d, m.schedulerData x = some d → d ∈ m.descs ∧ d = S.poolOf x
  events : ∀ ev ∈ tr, ev.Holds S m
  owed : Owed S m ops

theorem WellRegistered.access (h : WellRegistered S m (pre ++ o :: post) tr)
    (ha : Access S m o m' next evs) :
    WellRegistered S m' (pre ++ (next.toList ++ post)) (evs.reverse ++ tr) := by
  have ho : o ∈ pre ++ o :: post := List.mem_append_right _ (List.mem_cons_self ..)
  have hplaced : o.Placed S m := h.placed o ho
  have hheld : o.holds = true → m.poolsMutex = true := fun hm => (h.mutex.held hm).1
  have hstart : o.isStart = true → m.startCall = .within :=
    fun hs => of_decide_eq_true (h.start.held hs).1
  have hcall := ha.startCall hstart hplaced h.main
  constructor
  case mutex => exact h.mutex.access (ha.mutex hheld)
  case start =>
    refine h.start.access ?_
    rcases hcall with ⟨h₁, h₂, h₃, h₄⟩ | ⟨h₁, h₂⟩
    · left
      simp [h₁, h₂, h₃, h₄]
    · exact Or.inr ⟨h₁, by rw [h₂]⟩
  case before =>
    intro hb
    rcases hcall with ⟨-, -, -, h₄⟩ | ⟨-, h₂⟩
    · exact absurd (h₄.symm.trans hb) (by decide)
    · rw [h₂] at hb
      rcases ha.started with h₃ | ⟨rfl, -⟩
      · exact h₃.trans (h.before hb)
      · exact absurd (hb.symm.trans (hstart rfl)) (by decide)
  case nodup =>
    rcases ha.descs with hd | ⟨d, c, rfl, hd⟩
    · exact hd ▸ h.nodup
    · rw [hd]
      exact h.nodup.append (List.nodup_singleton d) (List.disjoint_singleton.mpr hplaced.1)
  case main => exact ha.grows.descs h.main
  case placed =>
    intro o' ho'
    rcases mem_access ho' with ho' | ho'
    · refine (h.placed o' (mem_of_mem_append ho')).grows ha.grows (fun hm => ?_) fun hs => ?_
      · rcases ha.descs with hd | ⟨d, c, rfl, -⟩
        · exact hd
        · exact absurd ((h.mutex.held rfl).2 o' ho') (by simp [hm])
      · rcases ha.started with h₃ | ⟨rfl, -⟩
        · exact h₃
        · exact absurd ((h.start.held rfl).2 o' ho') (by simp [hs])
    · exact ha.placed hplaced h.nodup o' ho'
  case cache => exact ha.cache hplaced h.cache
  case events =>
    intro ev hev
    rcases List.mem_append.mp hev with hev | hev
    · exact ha.events hplaced h.cache ev (List.mem_reverse.mp hev)
    · exact (h.events ev hev).grows ha.grows
  case owed => exact ha.owed hplaced (fun hm => (h.mutex.held hm).2) h.owed

/-- The operation is that of a `start` or a `stop` that has seen a pool stopped, or copied the
pools. -/
def Op.afterCopy : Op κ → Bool
  | .collect | .finalStop _ | .finalJoin .. | .stopUnlock .. | .stopPools .. => true
  | _ => false

/-- A call is at its first access then, or it was a thread that left. -/
theorem call_eq_some {c : Call κ} (h : call m ops c = some r) :
    (∃ o, r = ⟨m, some o, []⟩ ∧ o.holds = false ∧ o.isStart = false ∧ o.afterCopy = false ∧
      ∀ S : Setup κ, o.Placed S m) ∨
    m.startCall = .before ∧ r = ⟨{ m with startCall := .within }, some .startLock, []⟩ ∨
    ∃ d, r = ⟨m.update d .leave, none, []⟩ := by
  cases c with
  | getPool d => exact Or.inl ⟨_, (Option.some.inj h).symm, rfl, rfl, rfl, fun _ => trivial⟩
  | submit x => exact Or.inl ⟨_, (Option.some.inj h).symm, rfl, rfl, rfl, fun _ => trivial⟩
  | start =>
    simp only [call, Option.ite_none_right_eq_some, Option.some.injEq] at h
    exact Or.inr (Or.inl ⟨h.1, h.2.symm⟩)
  | stop force => exact Or.inl ⟨_, (Option.some.inj h).symm, rfl, rfl, rfl, fun _ => trivial⟩
  | leave d =>
    simp only [call, Option.ite_none_right_eq_some, Option.some.injEq] at h
    exact Or.inr (Or.inr ⟨d, h.2.symm⟩)

theorem WellRegistered.call {c : Call κ} (h : WellRegistered S m ops tr)
    (hc : call m ops c = some r) :
    WellRegistered S r.mem (r.next.toList ++ ops) (r.emitted.reverse ++ tr) := by
  rcases call_eq_some hc with ⟨o, rfl, hh, hs, -, hp⟩ | ⟨hb, rfl⟩ | ⟨d, rfl⟩
  · refine ⟨?_, ?_, h.before, h.nodup, h.main, ?_, h.cache, h.events, fun e he hd => ?_⟩
    · simpa [HeldByOne, hh] using h.mutex
    · simpa [HeldByOne, hs] using h.start
    · exact List.forall_mem_cons.mpr ⟨hp S, h.placed⟩
    · have hnot : o.owes m.started e.desc = false :=
        Bool.eq_false_iff.mpr fun howes => absurd (holds_of_owes howes) (by simp [hh])
      simpa [hnot] using h.owed e he hd
  · refine ⟨?_, ?_, fun hb' => StartCall.noConfusion hb', h.nodup, h.main, ?_, h.cache, ?_, ?_⟩
    · simpa [HeldByOne, Op.holds] using h.mutex
    · have hzero : ops.countP Op.isStart = 0 := by simpa [HeldByOne, hb] using h.start
      have hone : (Op.startLock :: ops).countP Op.isStart = 1 := by
        rw [List.countP_cons_of_pos rfl, hzero]
      exact hone
    · refine List.forall_mem_cons.mpr ⟨h.before hb, fun o ho => ?_⟩
      exact (h.placed o ho).grows ⟨List.Subset.refl _, id, id⟩ (fun _ => rfl) fun _ => rfl
    · exact fun ev hev => (h.events ev hev).grows ⟨List.Subset.refl _, id, id⟩
    · intro e he hd
      simpa [Op.owes] using h.owed e he hd
  · have hdescs : (m.update d Entry.leave).descs = m.descs := descs_update fun _ => rfl
    have hg : m.Grows (m.update d Entry.leave) := ⟨hdescs ▸ List.Subset.refl _, id, id⟩
    refine ⟨h.mutex, h.start, h.before, hdescs ▸ h.nodup, hdescs ▸ h.main, ?_, ?_, ?_, ?_⟩
    · exact fun o ho => (h.placed o ho).grows hg (fun _ => hdescs) fun _ => rfl
    · exact fun x d hx => ⟨hg.descs (h.cache x d hx).1, (h.cache x d hx).2⟩
    · exact fun ev hev => (h.events ev hev).grows hg
    · intro e' he' hd'
      obtain ⟨e, he, rfl⟩ := mem_update.mp he'
      have hsame : (if e.desc = d then e.leave else e).desc = e.desc ∧
          (if e.desc = d then e.leave else e).starts = e.starts := by
        split_ifs <;> exact ⟨rfl, rfl⟩
      rw [hsame.1] at hd'
      rw [hsame.1, hsame.2]
      exact h.owed e he hd'

/-! ## No pool is made after the pools were copied -/

/-- No pool is being made, and none will be: `running` is cleared, and nobody has looked at it
before. -/
def Frozen (m : Memory κ) (ops : List (Op κ)) : Prop :=
  m.running = false ∧ ∀ o ∈ ops, o.creates = false

/-- The pools have been copied by a `stop`, or by `start` at its end. -/
def Shut (m : Memory κ) (ops : List (Op κ)) (tr : List (Event κ)) : Prop :=
  (∃ o ∈ ops, o.afterCopy = true) ∨ (∃ e ∈ m.pools, e.stops ≠ []) ∨ .stopped ∈ tr ∨
    m.startCall = .after

theorem Frozen.access (h : Frozen m (pre ++ o :: post)) (ha : Access S m o m' next evs) :
    Frozen m' (pre ++ (next.toList ++ post)) := by
  have ho : o.creates = false := h.2 o (List.mem_append_right _ (List.mem_cons_self ..))
  have hnext : ∀ o' ∈ next, o'.creates = false := by
    cases ha
    case getAllowed hrun => exact absurd (hrun.symm.trans h.1) Bool.noConfusion
    case getInsert => exact Bool.noConfusion ho
    case getStarted => exact Bool.noConfusion ho
    case getReturn d c => cases c <;> rintro _ ⟨⟩ <;> rfl
    all_goals rintro _ ⟨⟩ <;> rfl
  refine ⟨ha.grows.running h.1, fun o' ho' => ?_⟩
  rcases mem_access ho' with ho' | ho'
  · exact h.2 o' (mem_of_mem_append ho')
  · exact hnext o' ho'

/-- The operation is at the stop of a pool. -/
def Op.stopping : Op κ → Option (κ × Pool.StopType)
  | .stopPools force (d :: _) => some (d, if force then .force else .normal)
  | .finalStop (d :: _) => some (d, .final)
  | _ => none

/-- What an access that makes no pool does to the stops of a pool. -/
def StopsOf (S : Setup κ) (o : Op κ) (e e' : Entry κ) : Prop :=
  e'.stops = e.stops ∧ e'.running = e.running ∨
    ∃ type, o.stopping = some (e.desc, type) ∧ e' = e.stop (S.descriptor e.desc).persistent type

/-- The entries when a pool is told to stop. -/
theorem stopsOf_of_mem_update {d : κ} {type : Pool.StopType} (ho : o.stopping = some (d, type))
    (he : e' ∈ (m.update d (.stop (S.descriptor d).persistent type)).pools) :
    ∃ e ∈ m.pools, e'.desc = e.desc ∧ e'.threads = e.threads ∧ StopsOf S o e e' := by
  obtain ⟨e, he₀, rfl⟩ := mem_update.mp he
  by_cases hd : e.desc = d
  · subst hd
    rw [if_pos rfl]
    exact ⟨e, he₀, rfl, rfl, Or.inr ⟨_, ho, rfl⟩⟩
  · rw [if_neg hd]
    exact ⟨e, he₀, rfl, rfl, Or.inl ⟨rfl, rfl⟩⟩

/-- Where an entry comes from: it is new, or it was there, with its threads if the operation starts
none. -/
theorem Access.origin (h : Access S m o m' next evs) (he : e' ∈ m'.pools) :
    o.creates = true ∧ e'.running = true ∧ e'.stops = [] ∨
    ∃ e ∈ m.pools, e'.desc = e.desc ∧
      (o.creates = false → (∀ rest, o ≠ .startPools rest) → e'.threads = e.threads) ∧
        StopsOf S o e e' := by
  cases h
  case getInsert d c =>
    rcases List.mem_append.mp he with he | he
    · exact Or.inr ⟨e', he, rfl, fun _ _ => rfl, Or.inl ⟨rfl, rfl⟩⟩
    · rw [List.mem_singleton.mp he]
      exact Or.inl ⟨rfl, rfl, rfl⟩
  all_goals right
  case getStart d c =>
    obtain ⟨e, he₀, rfl⟩ := mem_update.mp he
    refine ⟨e, he₀, ?_, fun hc => Bool.noConfusion hc, Or.inl ?_⟩
    · split_ifs <;> rfl
    · split_ifs <;> exact ⟨rfl, rfl⟩
  case startPool d rest hd =>
    obtain ⟨e, he₀, rfl⟩ := mem_update.mp he
    refine ⟨e, he₀, ?_, fun _ hstart => absurd rfl (hstart _), Or.inl ?_⟩
    · split_ifs <;> rfl
    · split_ifs <;> exact ⟨rfl, rfl⟩
  case startMain =>
    obtain ⟨e, he₀, rfl⟩ := mem_update.mp he
    refine ⟨e, he₀, ?_, fun _ _ => ?_, Or.inl ?_⟩
    · split_ifs <;> rfl
    · split_ifs
      · exact congrArg (e.threads + ·) (if_pos rfl)
      · rfl
    · split_ifs <;> exact ⟨rfl, rfl⟩
  case finalStop d rest =>
    obtain ⟨e, he₀, hdesc, hthreads, hstops⟩ :=
      stopsOf_of_mem_update (o := .finalStop (d :: rest)) rfl he
    exact ⟨e, he₀, hdesc, fun _ _ => hthreads, hstops⟩
  case stopPool force d rest =>
    obtain ⟨e, he₀, hdesc, hthreads, hstops⟩ :=
      stopsOf_of_mem_update (o := .stopPools force (d :: rest)) rfl he
    exact ⟨e, he₀, hdesc, fun _ _ => hthreads, hstops⟩
  all_goals exact ⟨e', he, rfl, fun _ _ => rfl, Or.inl ⟨rfl, rfl⟩⟩

omit [DecidableEq κ] in
theorem StopsOf.subset (h : StopsOf S o e e') : e.stops ⊆ e'.stops := by
  rcases h with ⟨hs, -⟩ | ⟨type, -, rfl⟩
  · exact hs ▸ List.Subset.refl _
  · exact List.subset_cons_self _ _

omit [DecidableEq κ] in
/-- An operation that stops a pool has copied the pools. -/
theorem afterCopy_of_stopping {x : κ × Pool.StopType} (h : o.stopping = some x) :
    o.afterCopy = true := by
  cases o <;> first | rfl | exact absurd h (by simp [Op.stopping])

/-- The pools are copied first by a `stop` that holds the mutex. -/
theorem Access.shut (h : Access S m o m' next evs)
    (htold : ∀ e ∈ m.pools, e.running = false → e.stops ≠ [])
    (hs : Shut m' (pre ++ (next.toList ++ post)) (evs.reverse ++ tr)) :
    (∃ force, o = .stopCopy force) ∨ Shut m (pre ++ o :: post) tr := by
  have ho : o ∈ pre ++ o :: post := List.mem_append_right _ (List.mem_cons_self ..)
  by_cases hcopy : o.afterCopy = true
  · exact Or.inr (Or.inl ⟨o, ho, hcopy⟩)
  rcases hs with ⟨o', ho', hc⟩ | ⟨e', he', hne⟩ | hstop | hafter
  · rcases mem_access ho' with ho' | hnext
    · exact Or.inr (Or.inl ⟨o', mem_of_mem_append ho', hc⟩)
    · cases h
      case getReturn d c => cases c <;> cases hnext <;> exact Bool.noConfusion hc
      case runMain e he hd hrun => exact Or.inr (Or.inr (Or.inl ⟨e, he, htold e he hrun⟩))
      case stopCopy force order h => exact Or.inl ⟨force, rfl⟩
      all_goals cases hnext <;> first | exact Bool.noConfusion hc | exact absurd rfl hcopy
  · rcases h.origin he' with ⟨-, -, hnil⟩ | ⟨e, he, -, -, ⟨hsame, -⟩ | ⟨type, hstop, -⟩⟩
    · exact absurd hnil hne
    · exact Or.inr (Or.inr (Or.inl ⟨e, he, hsame ▸ hne⟩))
    · exact absurd (afterCopy_of_stopping hstop) hcopy
  · rcases List.mem_append.mp hstop with hev | hev
    · cases h
      case stopDone => exact absurd rfl hcopy
      case getReturn d c => cases c <;> simp [afterGet] at hev
      all_goals simp at hev
    · exact Or.inr (Or.inr (Or.inr (Or.inl hev)))
  · cases h
    case finalDone => exact absurd rfl hcopy
    all_goals exact Or.inr (Or.inr (Or.inr (Or.inr hafter)))

/-- The `stop` that copies the pools holds the mutex, and the flag `running` is cleared. -/
theorem WellRegistered.frozen_of_stopCopy {force : Bool}
    (h : WellRegistered S m (pre ++ .stopCopy force :: post) tr) :
    Frozen m (pre ++ .stopCopy force :: post) := by
  have ho : Op.stopCopy force ∈ pre ++ .stopCopy force :: post :=
    List.mem_append_right _ (List.mem_cons_self ..)
  refine ⟨h.placed _ ho, fun o' ho' => ?_⟩
  by_cases heq : o' = .stopCopy force
  · rw [heq]
    rfl
  · have hother : o' ∈ pre ++ post := by
      simpa [heq] using ho'
    exact Bool.eq_false_iff.mpr fun hc =>
      absurd (holds_of_creates hc) (by simp [(h.mutex.held rfl).2 o' hother])

/-! ## The order of the final stops -/

/-- The pool has had its final stop, and its threads have left, so it can be destroyed. -/
def Entry.Done (e : Entry κ) : Prop := .final ∈ e.stops ∧ e.threads = 0

/-- The operation is in the last loop of `start`, which stops the pools for good and joins them. -/
def Op.isFinal : Op κ → Bool
  | .finalStop _ | .finalJoin .. => true
  | _ => false

/-- `start` is in its last loop, or has returned. -/
def Ending (m : Memory κ) (ops : List (Op κ)) : Prop :=
  m.startCall = .after ∨ ∃ o ∈ ops, o.isFinal = true

omit [DecidableEq κ] in
theorem isStart_of_isFinal (h : o.isFinal = true) : o.isStart = true := by
  cases o <;> first | rfl | exact Bool.noConfusion h

omit [DecidableEq κ] in
theorem Ending.shut (h : Ending m ops) : Shut m ops tr := by
  rcases h with h | ⟨o, ho, hf⟩
  · exact Or.inr (Or.inr (Or.inr h))
  · refine Or.inl ⟨o, ho, ?_⟩
    cases o <;> first | rfl | exact Bool.noConfusion hf

/-- `start` is called once, so it starts no pools then. -/
theorem WellRegistered.ne_startPools (h : WellRegistered S m (pre ++ o :: post) tr)
    (hend : Ending m (pre ++ o :: post)) :
    ∀ rest, o ≠ .startPools rest := by
  rintro rest rfl
  have hheld := h.start.held rfl
  rcases hend with hafter | ⟨o', ho', hf⟩
  · rw [hafter] at hheld
    exact Bool.noConfusion hheld.1
  · have hne : o' ≠ .startPools rest := by
      rintro rfl
      exact Bool.noConfusion hf
    have hother : o' ∈ pre ++ post := by
      simpa [hne] using ho'
    exact absurd (isStart_of_isFinal hf) (by simp [hheld.2 o' hother])

theorem Ending.access (hs : WellRegistered S m (pre ++ o :: post) tr)
    (h : Ending m (pre ++ o :: post)) (ha : Access S m o m' next evs) :
    Ending m' (pre ++ (next.toList ++ post)) := by
  have ho : o ∈ pre ++ o :: post := List.mem_append_right _ (List.mem_cons_self ..)
  have hstart : o.isStart = true → m.startCall = .within :=
    fun hs' => of_decide_eq_true (hs.start.held hs').1
  rcases ha.startCall hstart (hs.placed o ho) hs.main with ⟨-, -, -, hafter⟩ | ⟨hsame, hcall⟩
  · exact Or.inl hafter
  rcases h with hafter | ⟨o', ho', hf⟩
  · exact Or.inl (hcall.trans hafter)
  · by_cases heq : o' = o
    · subst heq
      have hnext : ∃ o'' ∈ next, o''.isFinal = true := by
        cases ha <;> first
          | exact Bool.noConfusion hf
          | exact ⟨_, rfl, rfl⟩
          | exact Bool.noConfusion hsame
      obtain ⟨o'', rfl, hf'⟩ := hnext
      exact Or.inr ⟨o'', by simp, hf'⟩
    · exact Or.inr ⟨o', mem_others ho' heq, hf⟩

/-- What is known of the pools that an operation has still to stop: all others have been stopped. -/
def Op.Covers (S : Setup κ) (m : Memory κ) : Op κ → Prop
  | .stopUnlock _ rest | .stopPools _ rest => ∀ e ∈ m.pools, e.desc ∈ rest ∨ e.stops ≠ []
  | .finalStop rest => rest.Pairwise S.StopOrder ∧ ∀ e ∈ m.pools, e.desc ∈ rest ∨ e.Done
  | .finalJoin d rest => (d :: rest).Pairwise S.StopOrder ∧
      ∀ e ∈ m.pools, e.desc = d ∧ .final ∈ e.stops ∨ e.desc ∈ rest ∨ e.Done
  | _ => True

/-- An entry that was there, with its stops, and its threads if `start` is ending. -/
structure Entry.Later (ending : Prop) (e e' : Entry κ) : Prop where
  desc : e'.desc = e.desc
  stops : e.stops ⊆ e'.stops
  threads : ending → e'.threads ≤ e.threads

omit [DecidableEq κ] in
theorem Entry.Later.ne_nil {ending : Prop} (h : e.Later ending e') (hne : e.stops ≠ []) :
    e'.stops ≠ [] :=
  fun hnil => hne (List.subset_nil.mp (hnil ▸ h.stops))

omit [DecidableEq κ] in
theorem Entry.Later.done {ending : Prop} (h : e.Later ending e') (hend : ending) (hd : e.Done) :
    e'.Done :=
  ⟨h.stops hd.1, Nat.le_zero.mp (hd.2 ▸ h.threads hend)⟩

omit [DecidableEq κ] in
theorem Op.Covers.later {ending : Prop} (h : o.Covers S m)
    (hl : ∀ e' ∈ m'.pools, ∃ e ∈ m.pools, e.Later ending e') (hend : o.isFinal = true → ending) :
    o.Covers S m' := by
  cases o
  case stopUnlock force rest =>
    intro e' he'
    obtain ⟨e, he, hl⟩ := hl e' he'
    exact (h e he).imp (hl.desc ▸ ·) hl.ne_nil
  case stopPools force rest =>
    intro e' he'
    obtain ⟨e, he, hl⟩ := hl e' he'
    exact (h e he).imp (hl.desc ▸ ·) hl.ne_nil
  case finalStop rest =>
    refine ⟨h.1, fun e' he' => ?_⟩
    obtain ⟨e, he, hl⟩ := hl e' he'
    exact (h.2 e he).imp (hl.desc ▸ ·) (hl.done (hend rfl))
  case finalJoin d rest =>
    refine ⟨h.1, fun e' he' => ?_⟩
    obtain ⟨e, he, hl⟩ := hl e' he'
    exact (h.2 e he).imp (fun hd => ⟨hl.desc.trans hd.1, hl.stops hd.2⟩)
      (Or.imp (hl.desc ▸ ·) (hl.done (hend rfl)))
  all_goals trivial

omit [DecidableEq κ] in
theorem covers_of_not_afterCopy (h : o.afterCopy = false) : o.Covers S m := by
  cases o <;> first | exact Bool.noConfusion h | trivial

/-- What holds of every state about the stops: who has copied the pools misses none, and the
persistent ones are last. -/
structure Closed (S : Setup κ) (m : Memory κ) (ops : List (Op κ)) (tr : List (Event κ)) : Prop where
  shut : Shut m ops tr → Frozen m ops
  told : ∀ e ∈ m.pools, e.running = false → e.stops ≠ []
  quiet : ∀ e ∈ m.pools, e.stops ≠ [] → (S.descriptor e.desc).persistent = false → e.running = false
  covers : ∀ o ∈ ops, o.Covers S m
  stopped : .stopped ∈ tr → ∀ e ∈ m.pools, e.stops ≠ []
  final : ∀ e ∈ m.pools, .final ∈ e.stops → Ending m ops
  last : ∀ e ∈ m.pools, (S.descriptor e.desc).persistent = true → .final ∈ e.stops →
    ∀ e' ∈ m.pools, (S.descriptor e'.desc).persistent = false → e'.Done
  ended : m.startCall = .after → ∀ e ∈ m.pools, e.Done

/-- Where the entries come from when the pools were copied. -/
theorem Access.later (h : Access S m o m' next evs) (hs : WellRegistered S m (pre ++ o :: post) tr)
    (hf : Frozen m (pre ++ o :: post)) :
    ∀ e' ∈ m'.pools, ∃ e ∈ m.pools, e.Later (Ending m (pre ++ o :: post)) e' ∧
      StopsOf S o e e' := by
  intro e' he'
  have ho : o.creates = false := hf.2 o (List.mem_append_right _ (List.mem_cons_self ..))
  rcases h.origin he' with ⟨hc, -⟩ | ⟨e, he, hdesc, hthreads, hstops⟩
  · exact absurd hc (by simp [ho])
  · exact ⟨e, he, ⟨hdesc, hstops.subset, fun hend => (hthreads ho (hs.ne_startPools hend)).le⟩,
      hstops⟩

omit [DecidableEq κ] in
/-- A final stop is the one that `start` is at, or it was there. -/
theorem StopsOf.final (h : StopsOf S o e e') (hf : .final ∈ e'.stops) :
    .final ∈ e.stops ∨ ∃ rest, o = .finalStop (e.desc :: rest) := by
  rcases h with ⟨hs, -⟩ | ⟨type, hstop, rfl⟩
  · exact Or.inl (hs ▸ hf)
  · rcases List.mem_cons.mp hf with rfl | hf
    · cases o
      case finalStop rest => cases rest <;> simp_all [Op.stopping]
      case stopPools force rest => cases rest <;> cases force <;> simp_all [Op.stopping]
      all_goals exact absurd hstop (by simp [Op.stopping])
    · exact Or.inl hf

/-- What the next operation has still to stop. -/
theorem Access.covers (h : Access S m o m' next evs) (ho : o.Covers S m) :
    ∀ o' ∈ next, o'.Covers S m' := by
  have hmem : ∀ {order : List κ}, order.Perm m.descs → ∀ e ∈ m.pools, e.desc ∈ order :=
    fun hp e he => hp.mem_iff.mpr (List.mem_map_of_mem he)
  cases h
  case getReturn d c => cases c <;> rintro _ ⟨⟩ <;> trivial
  all_goals rintro _ ⟨⟩
  case collect order hp hsort => exact ⟨hsort, fun e he => Or.inl (hmem hp e he)⟩
  case stopCopy force order hp => exact fun e he => Or.inl (hmem hp e he)
  case stopUnlock force rest => exact ho
  case stopPool force d rest =>
    intro e' he'
    obtain ⟨e, he, rfl⟩ := mem_update.mp he'
    by_cases hd : e.desc = d
    · rw [if_pos hd]
      exact Or.inr (List.cons_ne_nil _ _)
    · rw [if_neg hd]
      exact (ho e he).imp_left fun h => (List.mem_cons.mp h).resolve_left hd
  case finalStop d rest =>
    refine ⟨ho.1, fun e' he' => ?_⟩
    obtain ⟨e, he, rfl⟩ := mem_update.mp he'
    by_cases hd : e.desc = d
    · rw [if_pos hd]
      exact Or.inl ⟨hd, List.mem_cons_self ..⟩
    · rw [if_neg hd]
      exact Or.inr ((ho.2 e he).imp_left fun h => (List.mem_cons.mp h).resolve_left hd)
  case finalJoin d rest h =>
    refine ⟨(List.pairwise_cons.mp ho.1).2, fun e he => ?_⟩
    rcases ho.2 e he with ⟨hd, hf⟩ | hrest
    · exact Or.inr ⟨hf, h e he hd⟩
    · exact hrest
  all_goals trivial

theorem Closed.access (hs : WellRegistered S m (pre ++ o :: post) tr)
    (h : Closed S m (pre ++ o :: post) tr) (ha : Access S m o m' next evs) :
    Closed S m' (pre ++ (next.toList ++ post)) (evs.reverse ++ tr) := by
  have ho : o ∈ pre ++ o :: post := List.mem_append_right _ (List.mem_cons_self ..)
  have hcovers := h.covers o ho
  have hfrozen (hshut : Shut m' (pre ++ (next.toList ++ post)) (evs.reverse ++ tr)) :
      Frozen m (pre ++ o :: post) := by
    rcases ha.shut h.told hshut with ⟨force, rfl⟩ | hold
    · exact hs.frozen_of_stopCopy
    · exact h.shut hold
  have hlater (hend : Ending m (pre ++ o :: post)) := ha.later hs (h.shut hend.shut)
  have hdone {e' : Entry κ} (hend : Ending m (pre ++ o :: post)) (he' : e' ∈ m'.pools)
      (hall : ∀ e ∈ m.pools, e'.desc = e.desc → e.Done) : e'.Done := by
    obtain ⟨e, he, hl, -⟩ := hlater hend e' he'
    exact hl.done hend (hall e he hl.desc)
  constructor
  case shut => exact fun hshut => (hfrozen hshut).access ha
  case told =>
    intro e' he' hrun
    rcases ha.origin he' with ⟨-, hr, -⟩ | ⟨e, he, -, -, ⟨hst, hr⟩ | ⟨type, -, rfl⟩⟩
    · exact Bool.noConfusion (hr.symm.trans hrun)
    · exact hst ▸ h.told e he (hr ▸ hrun)
    · exact List.cons_ne_nil _ _
  case quiet =>
    intro e' he' hne hp
    rcases ha.origin he' with ⟨-, -, hnil⟩ | ⟨e, he, hdesc, -, ⟨hst, hr⟩ | ⟨type, -, rfl⟩⟩
    · exact absurd hnil hne
    · exact hr ▸ h.quiet e he (hst ▸ hne) (hdesc ▸ hp)
    · cases type with
      | normal => exact hp
      | final => rfl
      | force => rfl
  case covers =>
    intro o' ho'
    rcases mem_access ho' with hother | hnext
    · have ho'' := mem_of_mem_append (o := o) hother
      by_cases hc : o'.afterCopy = true
      · have hl : ∀ e' ∈ m'.pools, ∃ e ∈ m.pools, e.Later (Ending m (pre ++ o :: post)) e' :=
          fun e' he' => by
          obtain ⟨e, he, hl, -⟩ := ha.later hs (h.shut (Or.inl ⟨o', ho'', hc⟩)) e' he'
          exact ⟨e, he, hl⟩
        exact (h.covers o' ho'').later hl fun hf => Or.inr ⟨o', ho'', hf⟩
      · exact covers_of_not_afterCopy (Bool.eq_false_iff.mpr hc)
    · exact ha.covers hcovers o' hnext
  case stopped =>
    intro hst e' he'
    rcases List.mem_append.mp hst with hev | hev
    · cases ha
      case stopDone force => exact (hcovers e' he').resolve_left List.not_mem_nil
      case getReturn d c => cases c <;> simp [afterGet] at hev
      all_goals simp at hev
    · obtain ⟨e, he, hl, -⟩ := ha.later hs (h.shut (Or.inr (Or.inr (Or.inl hev)))) e' he'
      exact hl.ne_nil (h.stopped hev e he)
  case final =>
    intro e' he' hf
    refine Ending.access hs ?_ ha
    rcases ha.origin he' with ⟨-, -, hnil⟩ | ⟨e, he, -, -, hst⟩
    · exact absurd (hnil ▸ hf) List.not_mem_nil
    · rcases hst.final hf with hf | ⟨rest, rfl⟩
      · exact h.final e he hf
      · exact Or.inr ⟨_, ho, rfl⟩
  case last =>
    intro e' he' hp hf x' hx' hx
    rcases ha.origin he' with ⟨-, -, hnil⟩ | ⟨e, he, hdesc, -, hst⟩
    · exact absurd (hnil ▸ hf) List.not_mem_nil
    · rw [hdesc] at hp
      rcases hst.final hf with hf | ⟨rest, rfl⟩
      · exact hdone (h.final e he hf) hx' fun x hx₀ hd => h.last e he hp hf x hx₀ (hd ▸ hx)
      · refine hdone (Or.inr ⟨_, ho, rfl⟩) hx' fun x hx₀ hd => ?_
        rw [hd] at hx
        rcases hcovers.2 x hx₀ with hmem | hdone
        · rcases List.mem_cons.mp hmem with heq | hrest
          · exact Bool.noConfusion ((heq ▸ hx).symm.trans hp)
          · exact Bool.noConfusion (hx.symm.trans ((List.pairwise_cons.mp hcovers.1).1 _ hrest hp))
        · exact hdone
  case ended =>
    intro hafter e' he'
    have hstart : o.isStart = true → m.startCall = .within :=
      fun h' => of_decide_eq_true (hs.start.held h').1
    rcases ha.startCall hstart (hs.placed o ho) hs.main with ⟨hst, hw, -, -⟩ | ⟨-, hcall⟩
    · cases ha
      case finalDone => exact (hcovers.2 e' he').resolve_left List.not_mem_nil
      all_goals exact StartCall.noConfusion (hafter.symm.trans hw)
    · rw [hcall] at hafter
      exact hdone (Or.inl hafter) he' fun e he _ => h.ended hafter e he

omit [DecidableEq κ] in
theorem Frozen.call {o : Op κ} (h : Frozen m ops) (ho : o.holds = false) : Frozen m (o :: ops) :=
  ⟨h.1, List.forall_mem_cons.mpr
    ⟨Bool.eq_false_iff.mpr fun hc => Bool.noConfusion ((holds_of_creates hc).symm.trans ho), h.2⟩⟩

omit [DecidableEq κ] in
/-- An operation that has just been called adds nothing to what is known. -/
theorem Closed.push {o : Op κ} (h : Closed S m ops tr) (ho : o.holds = false)
    (hc : o.afterCopy = false) :
    Closed S m (o :: ops) tr where
  shut hs := by
    refine (h.shut ?_).call ho
    rcases hs with ⟨o', ho', hc'⟩ | hs
    · rcases List.mem_cons.mp ho' with rfl | ho'
      · exact Bool.noConfusion (hc.symm.trans hc')
      · exact Or.inl ⟨o', ho', hc'⟩
    · exact Or.inr hs
  told := h.told
  quiet := h.quiet
  covers := List.forall_mem_cons.mpr ⟨covers_of_not_afterCopy hc, h.covers⟩
  stopped := h.stopped
  final e he hf := (h.final e he hf).imp_right fun ⟨o', ho', hf'⟩ =>
    ⟨o', List.mem_cons_of_mem _ ho', hf'⟩
  last := h.last
  ended := h.ended

theorem Closed.call {c : Call κ} (h : Closed S m ops tr) (hc : call m ops c = some r) :
    Closed S r.mem (r.next.toList ++ ops) (r.emitted.reverse ++ tr) := by
  rcases call_eq_some hc with ⟨o, rfl, hh, -, hcopy, -⟩ | ⟨hb, rfl⟩ | ⟨d, rfl⟩
  · exact h.push hh hcopy
  · have hw : Closed S { m with startCall := .within } ops tr := by
      refine ⟨fun hs => h.shut ?_, h.told, h.quiet, h.covers, h.stopped,
        fun e he hf => ?_, h.last, ?_⟩
      · exact hs.imp_right (Or.imp_right (Or.imp_right fun hs => StartCall.noConfusion hs))
      · exact (h.final e he hf).imp_left fun hs => StartCall.noConfusion (hb.symm.trans hs)
      · exact fun hs => StartCall.noConfusion hs
    exact hw.push rfl rfl
  · have horigin : ∀ e' ∈ (m.update d Entry.leave).pools, ∃ e ∈ m.pools, e.Later True e' ∧
        e'.stops = e.stops ∧ e'.running = e.running := by
      intro e' he'
      obtain ⟨e, he, rfl⟩ := mem_update.mp he'
      refine ⟨e, he, ?_, ?_⟩
      · split_ifs
        · exact ⟨rfl, List.Subset.refl _, fun _ => Nat.sub_le _ _⟩
        · exact ⟨rfl, List.Subset.refl _, fun _ => le_rfl⟩
      · split_ifs <;> exact ⟨rfl, rfl⟩
    constructor
    case shut =>
      intro hs
      refine h.shut (hs.imp_right (Or.imp_left ?_))
      rintro ⟨e', he', hne⟩
      obtain ⟨e, he, -, hst, -⟩ := horigin e' he'
      exact ⟨e, he, hst ▸ hne⟩
    case told =>
      intro e' he' hrun
      obtain ⟨e, he, -, hst, hr⟩ := horigin e' he'
      exact hst ▸ h.told e he (hr ▸ hrun)
    case quiet =>
      intro e' he' hne hp
      obtain ⟨e, he, hl, hst, hr⟩ := horigin e' he'
      exact hr ▸ h.quiet e he (hst ▸ hne) (hl.desc ▸ hp)
    case covers =>
      intro o ho
      refine (h.covers o ho).later (fun e' he' => ?_) fun _ => trivial
      obtain ⟨e, he, hl, -⟩ := horigin e' he'
      exact ⟨e, he, hl⟩
    case stopped =>
      intro hst e' he'
      obtain ⟨e, he, hl, -⟩ := horigin e' he'
      exact hl.ne_nil (h.stopped hst e he)
    case final =>
      intro e' he' hf
      obtain ⟨e, he, -, hst, -⟩ := horigin e' he'
      exact h.final e he (hst ▸ hf)
    case last =>
      intro e' he' hp hf x' hx' hx
      obtain ⟨e, he, hl, hst, -⟩ := horigin e' he'
      obtain ⟨x, hx₀, hlx, -⟩ := horigin x' hx'
      exact hlx.done trivial (h.last e he (hl.desc ▸ hp) (hst ▸ hf) x hx₀ (hlx.desc ▸ hx))
    case ended =>
      intro hafter e' he'
      obtain ⟨e, he, hl, -⟩ := horigin e' he'
      exact hl.done trivial (h.ended hafter e he)

/-! ## Every run -/

variable {s s' : Machine (Memory κ) (Op κ) (Event κ)}

theorem wellRegistered_initial (S : Setup κ) : WellRegistered S (initial S).mem [] [] where
  mutex := rfl
  start := rfl
  before _ := rfl
  nodup := List.nodup_singleton _
  main := List.mem_singleton_self _
  placed := List.forall_mem_nil _
  cache _ _ hx := absurd hx (Option.some_ne_none _).symm
  events := List.forall_mem_nil _
  owed := List.forall_mem_singleton.mpr fun hne => absurd rfl hne

omit [DecidableEq κ] in
theorem closed_initial (S : Setup κ) : Closed S (initial S).mem [] [] where
  shut hs := by simp [Shut, initial, Entry.make] at hs
  told := List.forall_mem_singleton.mpr Bool.noConfusion
  quiet := List.forall_mem_singleton.mpr fun hne => absurd rfl hne
  covers := List.forall_mem_nil _
  stopped hs := absurd hs List.not_mem_nil
  final := List.forall_mem_singleton.mpr fun hf => absurd hf List.not_mem_nil
  last := List.forall_mem_singleton.mpr fun _ hf => absurd hf List.not_mem_nil
  ended hs := StartCall.noConfusion hs

theorem wellRegistered_closed_of_reaches (h : Reaches (program S).step Always (initial S) s) :
    WellRegistered S s.mem s.ops s.trace ∧ Closed S s.mem s.ops s.trace := by
  refine Program.invariant (I := fun s => WellRegistered S s.mem s.ops s.trace ∧
    Closed S s.mem s.ops s.trace) h
    ⟨wellRegistered_initial S, closed_initial S⟩ ?_ ?_
  · intro mem ops tr c r hI _ hr
    exact ⟨hI.1.call hr, hI.2.call hr⟩
  · intro mem pre o post tr z r hI _ hr
    exact ⟨hI.1.access (access_of_advance hr), hI.2.access hI.1 (access_of_advance hr)⟩

/-- The pools stay the same ones. -/
theorem Frozen.descs_eq (hf : Frozen s.mem s.ops)
    (h : Reaches (program S).step Always s s') : s'.mem.descs = s.mem.descs := by
  have hI : Frozen s'.mem s'.ops ∧ s'.mem.descs = s.mem.descs := by
    refine Program.invariant (I := fun x => Frozen x.mem x.ops ∧ x.mem.descs = s.mem.descs) h
      ⟨hf, rfl⟩ ?_ ?_
    · intro mem ops tr c r hI _ hr
      have hcall : Registry.call mem ops c = some r := hr
      rcases call_eq_some hcall with ⟨o, rfl, hh, -⟩ | ⟨hb, rfl⟩ | ⟨d, rfl⟩
      · exact ⟨hI.1.call hh, hI.2⟩
      · exact ⟨Frozen.call (m := { mem with startCall := .within }) hI.1 rfl, hI.2⟩
      · have hdescs : (mem.update d Entry.leave).descs = mem.descs := descs_update fun _ => rfl
        exact ⟨hI.1, hdescs.trans hI.2⟩
    · intro mem pre o post tr z r hI _ hr
      have ha := access_of_advance hr
      refine ⟨hI.1.access ha, ?_⟩
      rcases ha.descs with hd | ⟨d, c, rfl, -⟩
      · exact hd.trans hI.2
      · exact Bool.noConfusion (hI.1.2 _ (List.mem_append_right _ (List.mem_cons_self ..)))
  exact hI.2

/-- The pool 0 is that of the main thread, the pool 2 is persistent, and the reaction 5 is for the
pool 1. -/
def threePools : Setup ℕ where
  main := 0
  descriptor d := ⟨1, true, d = 2, false⟩
  defaultPoolConcurrency := 4
  poolOf _ := 1

/-- Two pools are made and started, and a `stop` returns while the main thread pool runs. -/
def stopsPools : List (Action (Call ℕ) (List ℕ)) :=
  .call (.getPool 2) :: List.replicate 6 (.advance 0 []) ++
    .call (.submit 5) :: List.replicate 8 (.advance 0 []) ++
    .call .start :: .advance 0 [] :: .advance 0 [2, 0, 1] :: List.replicate 9 (.advance 0 []) ++
    .call (.stop false) :: .advance 0 [] :: .advance 0 [] :: .advance 0 [0, 1, 2] ::
    List.replicate 5 (.advance 0 [])

/-- Then `start` stops the pools, and returns. -/
def startReturns : List (Action (Call ℕ) (List ℕ)) :=
  .advance 0 [] :: .advance 0 [1, 0, 2] :: .advance 0 [] :: .call (.leave 1) :: List.replicate 4
    (.advance 0 []) ++
    .call (.leave 2) :: List.replicate 2 (.advance 0 [])

/-- **A pool is made once and started once.**  There is one pool for a descriptor, a submitter gets
the one of its reaction, and when the mutex is free each pool but that of the main thread has been
started as often as the scheduler. -/
theorem started_once (h : Reaches (program S).step Always (initial S) s) :
    s.mem.descs.Nodup ∧
    (∀ x d, .resolved x d ∈ s.trace → d = S.poolOf x ∧ d ∈ s.mem.descs) ∧
    (s.mem.poolsMutex = false → ∀ e ∈ s.mem.pools, e.desc ≠ S.main →
      e.starts = s.mem.started.toNat) := by
  have hs := (wellRegistered_closed_of_reaches h).1
  refine ⟨hs.nodup, fun x d hx => (hs.events _ hx).symm, fun hfree e he hd => ?_⟩
  have hnone : s.ops.countP (Op.owes s.mem.started e.desc) = 0 := by
    refine List.countP_eq_zero.mpr fun o ho howes => ?_
    have hmutex := hs.mutex
    rw [HeldByOne, hfree] at hmutex
    exact List.countP_eq_zero.mp hmutex o ho (holds_of_owes howes)
  have := hs.owed e he hd
  omega

/-- The pools after a `stop`, which the reaction 5 has one of. -/
theorem started_once_stopsPools : ∃ s, Reaches (program threePools).step Always
    (initial threePools) s ∧ (.resolved 5 1 ∈ s.trace ∧ s.mem.poolsMutex = false ∧
      s.mem.descs = [0, 2, 1]) ∧
    s.mem.descs.Nodup ∧
    (∀ x d, .resolved x d ∈ s.trace → d = threePools.poolOf x ∧ d ∈ s.mem.descs) ∧
    (s.mem.poolsMutex = false → ∀ e ∈ s.mem.pools, e.desc ≠ threePools.main →
      e.starts = s.mem.started.toNat) := by
  have hrun : (exec (program threePools).step (initial threePools) stopsPools).any (fun s =>
      decide (.resolved 5 1 ∈ s.trace ∧ s.mem.poolsMutex = false ∧ s.mem.descs = [0, 2, 1])) =
        true := by
    decide +kernel
  obtain ⟨s, hs, hstate⟩ := (Option.any_eq_true _ _).mp hrun
  have hreach := reaches_always_of_exec hs
  exact ⟨s, hreach, of_decide_eq_true hstate, started_once hreach⟩

/-- **A stop misses no pool.**  When a `stop` has returned, or `start` is about to copy the pools
without the mutex, the pools stay the same ones; all pools have been told to stop in the first case,
and those that are not persistent do not run. -/
theorem stop_misses_none (h : Reaches (program S).step Always (initial S) s)
    (hshut : .stopped ∈ s.trace ∨ .collect ∈ s.ops) (h' : Reaches (program S).step Always s s') :
    s'.mem.descs = s.mem.descs ∧
    (.stopped ∈ s.trace → ∀ e ∈ s'.mem.pools, e.stops ≠ [] ∧
      ((S.descriptor e.desc).persistent = false → e.running = false)) := by
  have hc := (wellRegistered_closed_of_reaches h).2
  have hf : Frozen s.mem s.ops := by
    refine hc.shut (hshut.elim (fun hst => Or.inr (Or.inr (Or.inl hst))) fun hcol =>
      Or.inl ⟨_, hcol, rfl⟩)
  refine ⟨hf.descs_eq h', fun hst e he => ?_⟩
  obtain ⟨-, hc'⟩ := wellRegistered_closed_of_reaches (h.trans h')
  have hne := hc'.stopped (Program.mem_trace_of_reaches h' hst) e he
  exact ⟨hne, hc'.quiet e he hne⟩

/-- A `stop` has returned, and a thread leaves. -/
theorem stop_misses_none_stopsPools : ∃ s s',
    Reaches (program threePools).step Always (initial threePools) s ∧
    Event.stopped ∈ s.trace ∧ Reaches (program threePools).step Always s s' ∧
    s'.mem.descs = s.mem.descs ∧
    (.stopped ∈ s.trace → ∀ e ∈ s'.mem.pools, e.stops ≠ [] ∧
      ((threePools.descriptor e.desc).persistent = false → e.running = false)) := by
  have hrun : (exec (program threePools).step (initial threePools) stopsPools).any (fun s =>
      decide (.stopped ∈ s.trace) && ((program threePools).step s (.call (.leave 1))).isSome) =
        true := by
    decide +kernel
  obtain ⟨s, hs, hstate⟩ := (Option.any_eq_true _ _).mp hrun
  obtain ⟨hstop, hleave⟩ := (Bool.and_eq_true _ _).mp hstate
  obtain ⟨s', hs'⟩ := Option.isSome_iff_exists.mp hleave
  have hreach := reaches_always_of_exec hs
  have hreach' : Reaches (program threePools).step Always s s' := .single trivial hs'
  exact ⟨s, s', hreach, of_decide_eq_true hstop, hreach',
    stop_misses_none hreach (Or.inl (of_decide_eq_true hstop)) hreach'⟩

/-- **The persistent pools are last.**  A persistent pool has its final stop when the threads of all
other pools have left, and `start` returns when all threads have. -/
theorem persistent_last (h : Reaches (program S).step Always (initial S) s) :
    (∀ e ∈ s.mem.pools, (S.descriptor e.desc).persistent = true → .final ∈ e.stops →
      ∀ e' ∈ s.mem.pools, (S.descriptor e'.desc).persistent = false → .final ∈ e'.stops ∧
        e'.threads = 0) ∧
    (s.mem.startCall = .after → ∀ e ∈ s.mem.pools, .final ∈ e.stops ∧ e.threads = 0) := by
  have hc := (wellRegistered_closed_of_reaches h).2
  exact ⟨hc.last, hc.ended⟩

/-- `start` has returned. -/
theorem persistent_last_startReturns :
    ∃ s, Reaches (program threePools).step Always (initial threePools) s ∧
      s.mem.startCall = .after ∧
    (∀ e ∈ s.mem.pools, (threePools.descriptor e.desc).persistent = true → .final ∈ e.stops →
      ∀ e' ∈ s.mem.pools, (threePools.descriptor e'.desc).persistent = false → .final ∈ e'.stops ∧
        e'.threads = 0) ∧
    (s.mem.startCall = .after → ∀ e ∈ s.mem.pools, .final ∈ e.stops ∧ e.threads = 0) := by
  have hrun : (exec (program threePools).step (initial threePools) (stopsPools ++ startReturns)).any
    (fun s =>
      decide (s.mem.startCall = .after)) = true := by
    decide +kernel
  obtain ⟨s, hs, hstate⟩ := (Option.any_eq_true _ _).mp hrun
  have hreach := reaches_always_of_exec hs
  exact ⟨s, hreach, of_decide_eq_true hstate, persistent_last hreach⟩

end

end Registry
end Scheduler
end NUClear
