import NUClear.Scheduler.Pool.Idle

/-!
# The counters behind idle

A `CountingLock` subtracts one from a counter when it is made, adds it again when it is destroyed,
and `lock()` says whether the counter got to zero when it was made.  The threads of a pool have such
locks on the number of its active threads, and the pools that count for idle on the number of active
pools.

The pools are made as they are needed: the constructor counts the pool first and then makes its
lock, which is never asked (`Pools`).  The pools that are there run as before, so `stop`, `submit`,
`notify`, the workers and the dispatch of idle reactions interleave freely with the constructors.

## The accounting

`Counted` says of each pool what it adds to the number of active pools: one when it counts for idle
and holds no lock, one too while its constructor has counted it and not made the lock yet, and
nothing otherwise.  A step of the pools that are made changes the part of one pool and the number
alike (`Counted.run`); a step of a constructor does so, too (`Counted.construct`).

* `accounted_of_reaches`: each counter is the number of those that are counted less the number of
  the locks that are held, and never negative.
* Between two releases of a lock on a counter, at most one new lock on it says that it was the last.
  When one has said so, all are locked (`AllIdle`, `AllAsleep`), and a new lock needs one of them to
  be released first.
-/

namespace NUClear
namespace Scheduler
namespace PoolSystem

open Foundation PoolMemory

variable {n : ℕ}

/-! ## The pools as they are made -/

/-- Where a pool is in its constructor, which counts the pool as active and then as idle. -/
inductive Phase where
  | absent
  /-- `scheduler.active_pools.fetch_add(1)`, if it counts for idle. -/
  | counted
  /-- The lock is made, if it counts for idle, and the constructor is left. -/
  | made
  deriving DecidableEq, Repr

/-- The pools, with how far each is made.  A pool that is not made is as its constructor leaves
it. -/
structure Pools (n : ℕ) where
  phase : Fin n → Phase
  machine : Machine n

/-- One step of one thread: of a constructor, or of an operation of a pool that is made. -/
inductive PoolsAction (n : ℕ) where
  | count (p : Fin n)
  | lock (p : Fin n)
  | run (a : Action (Call n) Choice)

namespace Pools

/-- The number of active pools is changed. -/
def addActive (g : Pools n) (k : ℤ) : Machine n :=
  { g.machine with mem := { g.machine.mem with
      shared := { g.machine.mem.shared with
        activePools := g.machine.mem.shared.activePools + k } } }

/-- What a pool adds to the number of active pools when it is made. -/
def share (g : Pools n) (p : Fin n) : ℤ :=
  if (g.machine.mem.pools p).descriptor.countsForIdle then 1 else 0

/-- The calls are to pools that are made. -/
def allows (g : Pools n) : Action (Call n) Choice → Bool
  | .call (.pool p _) => g.phase p = .made
  | _ => true

def step (g : Pools n) : PoolsAction n → Option (Pools n)
  | .count p =>
      if g.phase p = .absent then
        some ⟨Function.update g.phase p .counted, g.addActive (g.share p)⟩
      else none
  | .lock p =>
      if g.phase p = .counted then
        some ⟨Function.update g.phase p .made, g.addActive (-g.share p)⟩
      else none
  | .run a =>
      if g.allows a then (PoolSystem.step g.machine a).map fun m => ⟨g.phase, m⟩ else none

/-- No pool is made, and the number of active pools is zero. -/
def start (descriptors : Fin n → PoolDescriptor) (defaultPoolConcurrency : ℕ) : Pools n :=
  ⟨fun _ => .absent, PoolSystem.start descriptors defaultPoolConcurrency⟩

/-! ## The locks -/

/-- The number of locks that the threads of a pool hold. -/
def threadLocks (m : PoolMemory) : ℕ := ((Finset.range m.threads).filter fun i =>
    m.threadIdle i).card

/-- The number of pools that are counted. -/
def idlePools (g : Pools n) : ℕ :=
  (Finset.univ.filter fun p =>
    g.phase p ≠ .absent ∧ (g.machine.mem.pools p).descriptor.countsForIdle = true).card

/-- The number of locks that the pools hold. -/
def poolLocks (g : Pools n) : ℕ :=
  (Finset.univ.filter fun p => g.phase p = .made ∧ (g.machine.mem.pools p).poolIdle = true).card

/-- The lock of a pool is destroyed. -/
def ReleasesPool (g g' : Pools n) : Prop :=
  ∃ p, g.phase p = .made ∧ (g.machine.mem.pools p).poolIdle = true ∧
    (g'.machine.mem.pools p).poolIdle = false

/-- `pool_idle->lock()` of a new lock returns true: no active pool is left. -/
def LastPool (g g' : Pools n) : Prop :=
  ∃ p, g.phase p = .made ∧ (g.machine.mem.pools p).poolIdle = false ∧
    (g'.machine.mem.pools p).poolIdle = true ∧ g'.machine.mem.shared.activePools = 0

/-- The lock of a thread of pool `p` is destroyed. -/
def ReleasesThread (p : Fin n) (g g' : Pools n) : Prop :=
  ∃ i < (g.machine.mem.pools p).threads, (g.machine.mem.pools p).threadIdle i = true ∧
    (g'.machine.mem.pools p).threadIdle i = false

/-- `local_lock->lock()` of a new lock of a thread of pool `p` returns true. -/
def LastThread (p : Fin n) (g g' : Pools n) : Prop :=
  ∃ i < (g.machine.mem.pools p).threads, (g.machine.mem.pools p).threadIdle i = false ∧
    (g'.machine.mem.pools p).threadIdle i = true ∧ (g'.machine.mem.pools p).active = 0

instance (g g' : Pools n) : Decidable (LastPool g g') :=
  inferInstanceAs (Decidable (∃ p, g.phase p = .made ∧ (g.machine.mem.pools p).poolIdle = false ∧
    (g'.machine.mem.pools p).poolIdle = true ∧ g'.machine.mem.shared.activePools = 0))

instance (p : Fin n) (g g' : Pools n) : Decidable (LastThread p g g') :=
  inferInstanceAs (Decidable (∃ i < (g.machine.mem.pools p).threads,
    (g.machine.mem.pools p).threadIdle i = false ∧ (g'.machine.mem.pools p).threadIdle i = true ∧
      (g'.machine.mem.pools p).active = 0))

instance (g g' : Pools n) : Decidable (ReleasesPool g g') :=
  inferInstanceAs (Decidable (∃ p, g.phase p = .made ∧ (g.machine.mem.pools p).poolIdle = true ∧
    (g'.machine.mem.pools p).poolIdle = false))

instance (p : Fin n) (g g' : Pools n) : Decidable (ReleasesThread p g g') :=
  inferInstanceAs (Decidable (∃ i < (g.machine.mem.pools p).threads,
    (g.machine.mem.pools p).threadIdle i = true ∧ (g'.machine.mem.pools p).threadIdle i = false))

/-- The step does not release a lock of this kind. -/
def Without (releases : Pools n → Pools n → Prop) (g : Pools n) (a : PoolsAction n) : Prop :=
  ∀ g' ∈ g.step a, ¬ releases g g'

instance (releases : Pools n → Pools n → Prop) [∀ g g', Decidable (releases g g')] (g : Pools n)
    (a : PoolsAction n) : Decidable (Without releases g a) :=
  inferInstanceAs (Decidable (∀ g' ∈ g.step a, ¬ releases g g'))

/-! ## One step -/

/-- A step of the pools that are made is one of one pool, but for the reactions that wait for all
pools. -/
theorem step_machine {m m' : Machine n} {a : Action (Call n) Choice}
    (h : PoolSystem.step m a = some m') :
    (m'.mem.pools = m.mem.pools ∧ m'.mem.shared.activePools = m.mem.shared.activePools ∧
      m'.ops = m.ops) ∨
    ∃ p mem', m'.mem.pools = Function.update m.mem.pools p mem' ∧
      (∀ q, q ≠ p → ofPool q m'.ops = ofPool q m.ops) ∧
      ((∃ c r, a = .call (.pool p c) ∧ (m.mem.pools p).startCall m.mem.shared c = some r ∧
          mem' = r.mem.1 ∧ m'.mem.shared = r.mem.2 ∧
            ofPool p m'.ops = r.next.toList ++ ofPool p m.ops) ∨
        ∃ pre o post next ev, ofPool p m.ops = pre ++ o :: post ∧
          Access (m.mem.pools p) m.mem.shared o mem' m'.mem.shared next ev ∧
          ofPool p m'.ops = pre ++ (next.toList ++ post)) := by
  cases a with
  | call c =>
    obtain ⟨r, hr, rfl⟩ := Program.step_call_eq_some h
    cases c with
    | pool p c =>
      obtain ⟨r, hr', rfl⟩ := Option.map_eq_some_iff.mp hr
      refine .inr ⟨p, r.mem.1, rfl, fun q hq => ?_, .inl ⟨c, r, rfl, hr', rfl, rfl, ?_⟩⟩
      · simp only [lift, ofPool_append, Option.toList_map]
        rw [ofPool_map_of_ne q p (Ne.symm hq), List.nil_append]
      · simp only [lift, ofPool_append, Option.toList_map, ofPool_map_self]
    | addIdleTask =>
      cases hr
      exact .inl ⟨rfl, rfl, rfl⟩
    | removeIdleTask =>
      cases hr
      exact .inl ⟨rfl, rfl, rfl⟩
  | advance j z =>
    obtain ⟨pre, ⟨p, o⟩, post, r, hops, -, hr, rfl⟩ := Program.step_advance_eq_some h
    obtain ⟨r, hr', rfl⟩ := Option.map_eq_some_iff.mp hr
    refine .inr ⟨p, r.mem.1, rfl, fun q hq => ?_,
      .inr ⟨ofPool p pre, o, ofPool p post, r.next, r.emitted, ?_, access_of_advance hr', ?_⟩⟩
    · simp only [lift, hops, ofPool_append, Option.toList_map]
      rw [ofPool_map_of_ne q p (Ne.symm hq), ofPool_of_ne q p post o (Ne.symm hq), List.nil_append]
    · rw [hops, ofPool_append, ofPool_self]
    · simp only [lift, ofPool_append, Option.toList_map, ofPool_map_self]

/-- What a pool in its constructor adds to the number of active pools. -/
def pending (g : Pools n) (p : Fin n) : ℤ := if g.phase p = .counted then g.share p else 0

/-- The counters are those of the pools and threads without a lock, with what the constructors in
progress have added. -/
structure Counted (g : Pools n) : Prop where
  threads : ∀ p, Threads (g.machine.mem.pools p) (ofPool p g.machine.ops)
  counts : ∀ p, (g.machine.mem.pools p).poolIdle = true →
    (g.machine.mem.pools p).descriptor.countsForIdle = true
  unmade : ∀ p, g.phase p ≠ .made → ofPool p g.machine.ops = [] ∧
    (g.machine.mem.pools p).poolIdle = (g.machine.mem.pools p).descriptor.countsForIdle
  active : g.machine.mem.shared.activePools =
    ∑ p, (g.machine.mem.pools p).act + ∑ p, g.pending p

theorem counted_start (descriptors : Fin n → PoolDescriptor) (k : ℕ) :
    Counted (start descriptors k) where
  threads p := ⟨List.nodup_nil, fun i hi => absurd hi List.not_mem_nil, Nat.zero_le _,
    fun _ => ⟨rfl, rfl⟩, fun hs => absurd hs (by simp [start, PoolSystem.start, make]),
    fun i w hw => absurd hw List.not_mem_nil⟩
  counts p h := h
  unmade p _ := ⟨rfl, rfl⟩
  active := by
    have hact (p : Fin n) : act ((start descriptors k).machine.mem.pools p) = 0 := by
      show (if (descriptors p).countsForIdle && !(descriptors p).countsForIdle then 1
        else 0) = (0 : ℤ)
      cases (descriptors p).countsForIdle <;> rfl
    have hpending (p : Fin n) : pending (start descriptors k) p = 0 := rfl
    rw [Finset.sum_eq_zero fun p _ => hact p, Finset.sum_eq_zero fun p _ => hpending p]
    rfl

/-- What one pool does keeps its part of the counters. -/
theorem pool_step {m mem' : PoolMemory} {sh sh' : Shared} {ops ops' : List Op}
    (hthreads : Threads m ops) (hcounts : m.poolIdle = true → m.descriptor.countsForIdle = true)
    (h : (∃ c r, m.startCall sh c = some r ∧ mem' = r.mem.1 ∧ sh' = r.mem.2 ∧
      ops' = r.next.toList ++ ops) ∨
      ∃ pre o post next ev, ops = pre ++ o :: post ∧ Access m sh o mem' sh' next ev ∧
        ops' = pre ++ (next.toList ++ post)) :
    Threads mem' ops' ∧ mem'.descriptor = m.descriptor ∧
      (mem'.poolIdle = true → mem'.descriptor.countsForIdle = true) ∧
      sh'.activePools - mem'.act = sh.activePools - m.act := by
  obtain ⟨c, r, hr, rfl, rfl, rfl⟩ | ⟨pre, o, post, next, ev, rfl, ha, rfl⟩ := h
  · obtain ⟨hidle, hd, -, -⟩ := startCall_idle hr
    exact ⟨hthreads.startCall hr, hd, fun hi => hd ▸ hcounts (hidle hi),
      startCall_activePools hr hcounts⟩
  · refine ⟨hthreads.access ha, ha.frame.1, fun hi => ?_, ha.activePools hcounts⟩
    rw [ha.frame.1]
    obtain hidle | ⟨i, rfl, hg⟩ := ha.poolIdle hi
    · exact hcounts hidle
    · rw [goesIdle, Bool.and_eq_true, Bool.and_eq_true, idles, Bool.and_eq_true] at hg
      exact hg.1.1.2

/-- A step of the pools that are made leaves the others alone. -/
theorem Counted.unmade_run {g : Pools n} (h : Counted g) {a : Action (Call n) Choice}
    (hallows : g.allows a = true) {m : Machine n} (hst : PoolSystem.step g.machine a = some m)
    {p : Fin n} (hp : g.phase p ≠ .made) :
    m.mem.pools p = g.machine.mem.pools p ∧ ofPool p m.ops = ofPool p g.machine.ops := by
  obtain ⟨hpools, -, hops⟩ | ⟨q, mem', hpools, hothers, hstep⟩ := step_machine hst
  · rw [hpools, hops]
    exact ⟨rfl, rfl⟩
  · have hq : g.phase q = .made := by
      obtain ⟨c, r, rfl, -⟩ | ⟨pre, o, post, -, -, hops, -⟩ := hstep
      · exact of_decide_eq_true hallows
      · by_contra hq
        rw [(h.unmade q hq).1] at hops
        exact absurd hops (by simp)
    have hne : p ≠ q := fun heq => hp (heq ▸ hq)
    rw [hpools, Function.update_of_ne hne]
    exact ⟨rfl, hothers p hne⟩

/-- A step of the pools that are made, for each pool and for the number of active pools. -/
theorem Counted.of_run {g : Pools n} (h : Counted g) {a : Action (Call n) Choice} {m : Machine n}
    (hst : PoolSystem.step g.machine a = some m) :
    (∀ p, Threads (m.mem.pools p) (ofPool p m.ops) ∧
      (m.mem.pools p).descriptor = (g.machine.mem.pools p).descriptor ∧
      ((m.mem.pools p).poolIdle = true → (m.mem.pools p).descriptor.countsForIdle = true)) ∧
    m.mem.shared.activePools - ∑ p, (m.mem.pools p).act =
      g.machine.mem.shared.activePools - ∑ p, (g.machine.mem.pools p).act := by
  obtain ⟨hpools, hactive, hops⟩ | ⟨q, mem', hpools, hothers, hstep⟩ := step_machine hst
  · rw [hpools, hactive, hops]
    exact ⟨fun p => ⟨h.threads p, rfl, h.counts p⟩, rfl⟩
  · obtain ⟨hthreads, hd, hcounts, hact⟩ := pool_step (h.threads q) (h.counts q)
      (hstep.imp (fun ⟨c, r, _, hc⟩ => ⟨c, r, hc⟩) id)
    rw [hpools]
    refine ⟨fun p => ?_, ?_⟩
    · by_cases hp : p = q
      · subst hp
        rw [Function.update_self]
        exact ⟨hthreads, hd, hcounts⟩
      · rw [Function.update_of_ne hp, hothers p hp]
        exact ⟨h.threads p, rfl, h.counts p⟩
    · rw [sum_update Finset.univ act g.machine.mem.pools (Finset.mem_univ q)]
      omega

theorem Counted.run {g : Pools n} (h : Counted g) {a : Action (Call n) Choice}
    (hallows : g.allows a = true) {m : Machine n} (hst : PoolSystem.step g.machine a = some m) :
    Counted ⟨g.phase, m⟩ := by
  obtain ⟨hpool, hactive⟩ := h.of_run hst
  have hshare (p : Fin n) : pending ⟨g.phase, m⟩ p = g.pending p := by
    simp only [pending, share, (hpool p).2.1]
  refine ⟨fun p => (hpool p).1, fun p => (hpool p).2.2, fun p hp => ?_, ?_⟩
  · obtain ⟨hsame, hops⟩ := h.unmade_run hallows hst hp
    show ofPool p m.ops = [] ∧ (m.mem.pools p).poolIdle = (m.mem.pools p).descriptor.countsForIdle
    rw [hsame, hops]
    exact h.unmade p hp
  · have hold := h.active
    show m.mem.shared.activePools = ∑ p, (m.mem.pools p).act + ∑ p, pending ⟨g.phase, m⟩ p
    simp only [hshare]
    omega

/-- A step of a constructor. -/
theorem Counted.construct {g : Pools n} (h : Counted g) {p : Fin n} {x : Phase}
    (hp : g.phase p ≠ .made) {k : ℤ} (hk : k =
    (if x = .counted then g.share p else 0) - g.pending p) :
    Counted ⟨Function.update g.phase p x, g.addActive k⟩ := by
  refine ⟨h.threads, h.counts, fun q hq => ?_, ?_⟩
  · by_cases hqp : q = p
    · exact h.unmade q (hqp ▸ hp)
    · replace hq : Function.update g.phase p x q ≠ .made := hq
      rw [Function.update_of_ne hqp] at hq
      exact h.unmade q hq
  · have hpending : pending ⟨Function.update g.phase p x, g.addActive k⟩ =
        Function.update g.pending p (if x = .counted then g.share p else 0) := by
      funext q
      by_cases hqp : q = p
      · subst hqp
        simp only [pending, Function.update_self]
        rfl
      · simp only [pending, Function.update_of_ne hqp]
        rfl
    have hsum := sum_update Finset.univ (id : ℤ → ℤ) g.pending (Finset.mem_univ p)
      (if x = .counted then g.share p else 0)
    simp only [id] at hsum
    have hold := h.active
    show g.machine.mem.shared.activePools + k = ∑ q, (g.machine.mem.pools q).act + _
    rw [hpending, hsum]
    omega

theorem Counted.step {g g' : Pools n} (h : Counted g) {a : PoolsAction n}
    (hst : g.step a = some g') :
    Counted g' := by
  cases a with
  | count p | lock p =>
    obtain ⟨hp, hg⟩ := Option.ite_none_right_eq_some.mp hst
    obtain rfl := Option.some.inj hg
    exact h.construct (by rw [hp]; decide) (by simp [pending, hp])
  | run a =>
    obtain ⟨hallows, hg⟩ := Option.ite_none_right_eq_some.mp hst
    obtain ⟨m, hm, rfl⟩ := Option.map_eq_some_iff.mp hg
    exact h.run hallows hm

/-! ## What the counters count -/

theorem awake_eq (m : PoolMemory) : awake m.threadIdle m.threads = m.threads - threadLocks m := by
  have hsum : (∑ i ∈ Finset.range m.threads, if m.threadIdle i then (1 : ℤ) else 0) =
    threadLocks m := by
    rw [threadLocks, Finset.card_filter]
    push_cast
    rfl
  have hall : awake m.threadIdle m.threads +
      (∑ i ∈ Finset.range m.threads, if m.threadIdle i then (1 : ℤ) else 0) = m.threads := by
    rw [awake, ← Finset.sum_add_distrib, Finset.sum_congr rfl fun i _ => show _ =
      (1 : ℤ) by split <;> rfl]
    simp
  omega

theorem awake_nonneg (threadIdle : ℕ → Bool) (k : ℕ) : 0 ≤ awake threadIdle k :=
  Finset.sum_nonneg fun i _ => by split <;> decide

theorem pending_nonneg (g : Pools n) (p : Fin n) : 0 ≤ g.pending p := by
  unfold pending share
  split
  · split <;> decide
  · exact le_rfl

theorem Counted.sum_eq {g : Pools n} (h : Counted g) :
    ∑ p, (g.machine.mem.pools p).act + ∑ p, g.pending p = g.idlePools - g.poolLocks := by
  have hpool (p : Fin n) : (g.machine.mem.pools p).act + g.pending p =
      (if g.phase p ≠ .absent ∧ (g.machine.mem.pools p).descriptor.countsForIdle = true then 1
        else 0) -
        (if g.phase p = .made ∧ (g.machine.mem.pools p).poolIdle = true then 1 else 0) := by
    have hcounts := h.counts p
    have hunmade := fun hp => (h.unmade p hp).2
    unfold act pending share
    cases hphase : g.phase p <;> cases hidle : (g.machine.mem.pools p).poolIdle <;>
      cases hc : (g.machine.mem.pools p).descriptor.countsForIdle <;> simp_all
  rw [← Finset.sum_add_distrib, Finset.sum_congr rfl fun p _ => hpool p,
    Finset.sum_sub_distrib, idlePools,
    poolLocks, Finset.card_filter, Finset.card_filter]
  push_cast
  rfl

/-! ## At most one lock is the last -/

theorem startCall_threads {m : PoolMemory} {sh : Shared} {c : PoolMemory.Call}
    {r : Outcome (PoolMemory × Shared) PoolMemory.Op PoolMemory.Event}
    (h : m.startCall sh c = some r) :
    r.mem.1.threads = m.threads := by
  cases c <;> simp only [PoolMemory.startCall] at h
  case drain k =>
    obtain ⟨e, -, rfl⟩ := Option.map_eq_some_iff.mp h
    rfl
  case stop | park =>
    cases h
    rfl
  all_goals split_ifs at h <;> cases h <;> rfl

/-- What no step changes. -/
theorem step_frame {g g' : Pools n} {a : PoolsAction n} (h : g.step a = some g') (p : Fin n) :
    (g'.machine.mem.pools p).descriptor = (g.machine.mem.pools p).descriptor ∧
      (g'.machine.mem.pools p).threads = (g.machine.mem.pools p).threads := by
  cases a with
  | count q | lock q =>
    obtain ⟨-, hg⟩ := Option.ite_none_right_eq_some.mp h
    obtain rfl := Option.some.inj hg
    exact ⟨rfl, rfl⟩
  | run a =>
    obtain ⟨-, hg⟩ := Option.ite_none_right_eq_some.mp h
    obtain ⟨m, hm, rfl⟩ := Option.map_eq_some_iff.mp hg
    show (m.mem.pools p).descriptor = _ ∧ (m.mem.pools p).threads = _
    obtain ⟨hpools, -, -⟩ | ⟨q, mem', hpools, -, hstep⟩ := step_machine hm
    · rw [hpools]
      exact ⟨rfl, rfl⟩
    · rw [hpools]
      by_cases hp : p = q
      · subst hp
        rw [Function.update_self]
        obtain ⟨c, r, -, hr, rfl, -⟩ | ⟨pre, o, post, next, ev, -, ha, -⟩ := hstep
        · exact ⟨(startCall_idle hr).2.1, startCall_threads hr⟩
        · exact ⟨ha.frame.1, ha.frame.2.1⟩
      · rw [Function.update_of_ne hp]
        exact ⟨rfl, rfl⟩

/-- Every pool that is made and counts holds its lock. -/
def AllIdle (g : Pools n) : Prop :=
  ∀ p, g.phase p = .made → (g.machine.mem.pools p).descriptor.countsForIdle = true →
    (g.machine.mem.pools p).poolIdle = true

theorem Counted.allIdle_of_last {g g' : Pools n} (h' : Counted g') (hlast : LastPool g g') :
    AllIdle g' := by
  obtain ⟨-, -, -, -, hzero⟩ := hlast
  have hactive := h'.active
  have hact : 0 ≤ ∑ p, (g'.machine.mem.pools p).act := Finset.sum_nonneg fun p _ => act_nonneg _
  have hpending : 0 ≤ ∑ p, g'.pending p := Finset.sum_nonneg fun p _ => g'.pending_nonneg p
  have hsum : ∑ p, (g'.machine.mem.pools p).act = 0 := by omega
  rw [Finset.sum_eq_zero_iff_of_nonneg fun p _ => act_nonneg _] at hsum
  intro p _ hc
  have hp := hsum p (Finset.mem_univ p)
  rw [act, hc, Bool.true_and] at hp
  by_contra hi
  rw [Bool.not_eq_true] at hi
  rw [hi] at hp
  exact absurd hp (by decide)

theorem Counted.allIdle_step {g g' : Pools n} (h : Counted g) {a : PoolsAction n}
    (hst : g.step a = some g') (hkeep : Without ReleasesPool g a) (hidle : AllIdle g) :
    AllIdle g' ∧ ¬ LastPool g g' := by
  have hnone : ¬ ReleasesPool g g' := hkeep g' hst
  have hmade (p : Fin n) (hp : g.phase p = .made)
      (hc : (g.machine.mem.pools p).descriptor.countsForIdle = true) :
      (g'.machine.mem.pools p).poolIdle = true := by
    by_contra hi
    rw [Bool.not_eq_true] at hi
    exact hnone ⟨p, hp, hidle p hp hc, hi⟩
  refine ⟨fun p hp hc => ?_, ?_⟩
  · rw [(step_frame hst p).1] at hc
    by_cases hold : g.phase p = .made
    · exact hmade p hold hc
    · -- its constructor has just made its lock
      have hlock := (h.unmade p hold).2
      cases a with
      | count q | lock q =>
        obtain ⟨-, hg⟩ := Option.ite_none_right_eq_some.mp hst
        obtain rfl := Option.some.inj hg
        exact hlock.trans hc
      | run a =>
        obtain ⟨-, hg⟩ := Option.ite_none_right_eq_some.mp hst
        obtain ⟨m, -, rfl⟩ := Option.map_eq_some_iff.mp hg
        exact absurd hp hold
  · rintro ⟨p, hp, hfree, hheld, -⟩
    have hc := (h.step hst).counts p hheld
    rw [(step_frame hst p).1] at hc
    exact absurd (hfree.symm.trans (hidle p hp hc)) (by decide)

/-- Every thread of the pool holds its lock. -/
def AllAsleep (p : Fin n) (g : Pools n) : Prop :=
  ∀ i < (g.machine.mem.pools p).threads, (g.machine.mem.pools p).threadIdle i = true

theorem Counted.allAsleep_of_last {g g' : Pools n} (h' : Counted g') {a : PoolsAction n}
    (hst : g.step a = some g') {p : Fin n}
    (hc : (g.machine.mem.pools p).descriptor.countsForIdle = true) (hlast : LastThread p g g') :
    AllAsleep p g' := by
  obtain ⟨j, -, -, hj, hzero⟩ := hlast
  have hthreads := h'.threads p
  have hstarted : (g'.machine.mem.pools p).started = true := by
    by_contra hs
    rw [(hthreads.fresh (by simpa using hs)).2] at hj
    exact Bool.false_ne_true hj
  have hawake := hthreads.active hstarted (by rw [(step_frame hst p).1]; exact hc)
  intro i hi
  by_contra hidle
  have hpos := awake_pos _ hi (by simpa using hidle)
  omega

theorem allAsleep_step {g g' : Pools n} {a : PoolsAction n} {p : Fin n} (hst : g.step a = some g')
    (hkeep : Without (ReleasesThread p) g a) (hidle : AllAsleep p g) :
    AllAsleep p g' ∧ ¬ LastThread p g g' := by
  have hnone : ¬ ReleasesThread p g g' := hkeep g' hst
  refine ⟨fun i hi => ?_, ?_⟩
  · rw [(step_frame hst p).2] at hi
    by_contra hfree
    exact hnone ⟨i, hi, hidle i hi, by simpa using hfree⟩
  · rintro ⟨i, hi, hfree, -⟩
    exact absurd (hfree.symm.trans (hidle i hi)) (by decide)

/-- **Idle counter accounting.**  In every state reached, the active threads of a pool and the
active pools are those that hold no lock; and as long as no lock on a counter is released, at most
one new lock on it is the last. -/
theorem accounted_of_reaches {descriptors : Fin n → PoolDescriptor} {k : ℕ} {g : Pools n}
    (h : Reaches step Always (start descriptors k) g) :
    (∀ p, (g.machine.mem.pools p).started = true →
      (g.machine.mem.pools p).descriptor.countsForIdle = true →
      (g.machine.mem.pools p).active =
          (g.machine.mem.pools p).threads - threadLocks (g.machine.mem.pools p) ∧
        0 ≤ (g.machine.mem.pools p).active) ∧
    (g.machine.mem.shared.activePools = g.idlePools - g.poolLocks ∧
      0 ≤ g.machine.mem.shared.activePools) ∧
    (∀ l, execOk step (Without ReleasesPool) g l → stepCount step LastPool g l ≤ 1) ∧
    ∀ p, (g.machine.mem.pools p).descriptor.countsForIdle = true →
      ∀ l, execOk step (Without (ReleasesThread p)) g l →
        stepCount step (LastThread p) g l ≤ 1 := by
  have hg : Counted g :=
    h.invariant (counted_start descriptors k) fun _ _ _ hx _ hst => hx.step hst
  refine ⟨fun p hs hc => ?_, ⟨?_, ?_⟩, fun l hl => ?_, fun p hc l hl => ?_⟩
  · rw [(hg.threads p).active hs hc]
    exact ⟨awake_eq _, awake_nonneg _ _⟩
  · rw [hg.active, hg.sum_eq]
  · rw [hg.active]
    exact add_nonneg (Finset.sum_nonneg fun p _ => act_nonneg _)
      (Finset.sum_nonneg fun p _ => g.pending_nonneg p)
  · exact stepCount_le_one (I := Counted) (J := AllIdle) (fun _ _ _ hst hx => hx.step hst)
      (fun _ _ _ hst hx hlast => (hx.step hst).allIdle_of_last hlast)
      (fun _ _ _ hst hkeep hx hidle => hx.allIdle_step hst hkeep hidle) hg hl
  · exact stepCount_le_one (I := fun x => Counted x ∧
        (x.machine.mem.pools p).descriptor.countsForIdle = true) (J := AllAsleep p)
      (fun _ _ _ hst hx => ⟨hx.1.step hst, by rw [(step_frame hst p).1]; exact hx.2⟩)
      (fun _ _ _ hst hx hlast => (hx.1.step hst).allAsleep_of_last hst hx.2 hlast)
      (fun _ _ _ hst hkeep _ hidle => allAsleep_step hst hkeep hidle) ⟨hg, hc⟩ hl

/-- The pool of one thread is made and started, and its worker runs a task and finds nothing
more. -/
def makesAndRunsOne : List (PoolsAction 1) :=
  [.count onlyPool, .lock onlyPool] ++ runsOne.map .run

/-- When the worker accounts for idle, its lock and that of the pool are the last. -/
theorem accounted_of_reaches_makesAndRunsOne :
    ∃ g, exec step (start oneThread 1) makesAndRunsOne = some g ∧
      stepCount step LastPool g [.run (.advance 0 .proceed)] = 1 ∧
      stepCount step (LastThread onlyPool) g [.run (.advance 0 .proceed)] = 1 ∧
      (g.machine.mem.pools onlyPool).active =
        (g.machine.mem.pools onlyPool).threads - threadLocks (g.machine.mem.pools onlyPool) ∧
      g.machine.mem.shared.activePools = g.idlePools - g.poolLocks ∧
      stepCount step LastPool g [.run (.advance 0 .proceed)] ≤ 1 ∧
      stepCount step (LastThread onlyPool) g [.run (.advance 0 .proceed)] ≤ 1 := by
  have hrun : (exec step (start oneThread 1) makesAndRunsOne).any (fun g =>
      decide ((g.machine.mem.pools onlyPool).started = true ∧
        (g.machine.mem.pools onlyPool).descriptor.countsForIdle = true ∧
        execOk step (Without ReleasesPool) g [.run (.advance 0 .proceed)] ∧
        execOk step (Without (ReleasesThread onlyPool)) g [.run (.advance 0 .proceed)] ∧
        stepCount step LastPool g [.run (.advance 0 .proceed)] = 1 ∧
        stepCount step (LastThread onlyPool) g [.run (.advance 0 .proceed)] = 1)) = true := by
    decide +kernel
  obtain ⟨g, hg, hp⟩ := (Option.any_eq_true _ _).mp hrun
  obtain ⟨hs, hc, hpool, hthread, hone, htwo⟩ := of_decide_eq_true hp
  obtain ⟨hactive, hpools, hlast, hlastThread⟩ :=
    accounted_of_reaches (reaches_always_of_exec hg)
  exact ⟨g, hg, hone, htwo, (hactive onlyPool hs hc).1, hpools.1, hlast _ hpool,
    hlastThread onlyPool hc _ hthread⟩

end Pools

end PoolSystem
end Scheduler
end NUClear
