import NUClear.Scheduler.Pool.Accesses

/-!
# Who holds the mutex of a pool

The mutex is a bit of the memory and a property of the point that an operation has reached: each
point of the code is inside a `lock_guard` or `unique_lock` of the pool's mutex or outside.  They
agree (`Exclusive`): at most one operation is at a point at which it holds the mutex, and only then
is it held.

This is what the critical sections of `Pool.cpp` rest on.  What is written under the mutex only
(`running`, `live`, the idle state) is changed by the operation that holds it, so an invariant about
these need only look at one operation between two takings of the mutex.  A worker in
`condition.wait` does not hold it, nor does a caller of `stop` that waits for the consumer.

* `WorkerPoint.holds`, `StopPoint.holds`, `Op.holds`: the points inside the critical sections, read
  off the code.
* `Access.mutex`: an access takes the mutex, gives it back, or leaves it as it is, as the points
  before and after it say.
* `Exclusive.access`, `Exclusive.startCall`: every access and every call keeps mutual exclusion.
  The count of the points that hold the mutex is a sum over the operations in progress
  (`mutexWeight`), so one operation can be taken out of the sum and put back after its access.
-/

namespace NUClear
namespace Scheduler

open Foundation

namespace PoolMemory

/-- `stop` holds the mutex before the access; it lets go of it while it is blocked. -/
def StopPoint.holds : StopPoint → Bool
  | .enter _ => false
  | .blocked => false
  | _ => true

/-- The worker holds the mutex before the access. -/
def WorkerPoint.holds : WorkerPoint → Bool
  | .starting => false
  | .locking => false
  | .leaving => false
  | .waiting => false
  | .running _ => false
  | .stopping _ s => s.holds
  | _ => true

/-- The operation holds the mutex before the access that it makes next. -/
def Op.holds : Op → Bool
  | .worker _ w => w.holds
  | .stop s => s.holds
  | _ => false

/-- One for an operation that holds the mutex. -/
def mutexWeight (o : Op) : ℤ := if o.holds then 1 else 0

/-- **Mutual exclusion**: as many operations are at a point that holds the mutex as the mutex says,
one when it is held and none when it is free. -/
def Exclusive (m : PoolMemory) (ops : List Op) : Prop :=
  total mutexWeight ops = if m.mutex then 1 else 0

section

variable {m m' : PoolMemory} {sh sh' : Shared} {o : Op} {pre post ops : List Op} {next : Option Op}
  {ev : List Event} {i : ℕ} {w : WorkerPoint} {s : StopPoint}

@[simp] theorem loopTop_holds (m : PoolMemory) : m.loopTop.holds = true := by
  unfold loopTop
  split_ifs <;> rfl

@[simp] theorem lookForTask_holds (m : PoolMemory) : m.lookForTask.holds = true := by
  unfold lookForTask
  split_ifs <;> rfl

theorem mutexWeight_nonneg (o : Op) : 0 ≤ mutexWeight o := by
  unfold mutexWeight
  split_ifs <;> decide

theorem afterStop_holds (t : Option Task) (s : Option StopPoint) :
    (afterStop t s).holds = s.any StopPoint.holds := by
  cases s <;> rfl

/-- What an access of `stop` does to the mutex. -/
theorem StopAccess.mutex {caller : Option ℕ} {s' : Option StopPoint}
    (h : StopAccess m caller s m' s') (hm : s.holds = true → m.mutex = true) :
    m.mutex = s.holds ∧ m'.mutex = s'.any StopPoint.holds ∨
      s.holds = true ∧ s'.any StopPoint.holds = true ∧ m'.mutex = m.mutex := by
  cases h <;> simp_all [StopPoint.holds]

/-- What an access of a worker does to the mutex. -/
theorem WorkerAccess.mutex {w' : Option WorkerPoint} (h : WorkerAccess m sh i w m' sh' w' ev)
    (hm : w.holds = true → m.mutex = true) :
    m.mutex = w.holds ∧ m'.mutex = w'.any WorkerPoint.holds ∨
      w.holds = w'.any WorkerPoint.holds ∧ m'.mutex = m.mutex := by
  cases h
  case stopping t s s' h =>
    rw [Option.any_some, afterStop_holds]
    rcases h.mutex hm with h | ⟨h₁, h₂, h₃⟩
    · exact Or.inl h
    · exact Or.inr ⟨h₁.trans h₂.symm, h₃⟩
  all_goals simp only [Option.any_some, Option.any_none, loopTop_holds, lookForTask_holds]
  all_goals simp_all [WorkerPoint.holds, StopPoint.holds]

/-- **What an access does to the mutex**: it takes or releases it, when it was as the point before
says, or leaves it alone. -/
theorem Access.mutex (h : Access m sh o m' sh' next ev) (hm : o.holds = true → m.mutex = true) :
    m.mutex = o.holds ∧ m'.mutex = next.any Op.holds ∨
      o.holds = next.any Op.holds ∧ m'.mutex = m.mutex := by
  cases h
  case worker i w w' h =>
    have hany : (w'.map (Op.worker i)).any Op.holds = w'.any WorkerPoint.holds := by
      cases w' <;> rfl
    rw [hany]
    exact h.mutex hm
  case stop s s' h =>
    have hany : (s'.map Op.stop).any Op.holds = s'.any StopPoint.holds := by
      cases s' <;> rfl
    rw [hany]
    rcases h.mutex hm with h | ⟨h₁, h₂, h₃⟩
    · exact Or.inl h
    · exact Or.inr ⟨h₁.trans h₂.symm, h₃⟩
  case submitSection t clearIdle force h =>
    cases force <;> exact Or.inr ⟨rfl, rfl⟩
  all_goals exact Or.inr ⟨rfl, rfl⟩

theorem mutexWeight_next (next : Option Op) :
    total mutexWeight next.toList = if next.any Op.holds then 1 else 0 := by
  cases next <;> simp [mutexWeight]

/-- An operation that holds the mutex is the only one. -/
theorem Exclusive.held (h : Exclusive m (pre ++ o :: post)) (ho : o.holds = true) :
    m.mutex = true ∧ (∀ o' ∈ pre ++ post, o'.holds = false) := by
  have hpre : 0 ≤ total mutexWeight pre := total_nonneg fun o _ => mutexWeight_nonneg o
  have hpost : 0 ≤ total mutexWeight post := total_nonneg fun o _ => mutexWeight_nonneg o
  have hone : mutexWeight o = 1 := by rw [mutexWeight, if_pos ho]
  rw [Exclusive, total_append, total_cons, hone] at h
  have hm : m.mutex = true := by
    by_contra hm
    rw [if_neg hm] at h
    omega
  refine ⟨hm, fun o' ho' => ?_⟩
  rw [if_pos hm] at h
  by_contra hh
  have hle : mutexWeight o' ≤ total mutexWeight (pre ++ post) :=
    le_total_of_mem (fun o _ => mutexWeight_nonneg o) ho'
  rw [total_append, mutexWeight, if_pos (by simpa using hh)] at hle
  omega

/-- **An access keeps mutual exclusion**: it takes the mutex only when no operation holds it. -/
theorem Exclusive.access (h : Exclusive m (pre ++ o :: post)) (ha : Access m sh o m' sh' next ev) :
    Exclusive m' (pre ++ (next.toList ++ post)) := by
  have hmutex := ha.mutex fun ho => (h.held ho).1
  rw [Exclusive, total_append, total_append, mutexWeight_next]
  rw [Exclusive, total_append, total_cons, mutexWeight] at h
  rcases hmutex with ⟨h₁, h₂⟩ | ⟨h₁, h₂⟩
  · rw [h₁] at h
    rw [h₂]
    omega
  · rw [h₂, ← h₁]
    omega

/-- The first access of a call does not touch the mutex, the flag or the consumer, and the operation
does not hold the mutex after it. -/
theorem startCall_frame {c : Call} {r : Outcome (PoolMemory × Shared) Op Event}
    (h : m.startCall sh c = some r) : r.mem.1.mutex = m.mutex ∧
      r.mem.1.discardQueuesRequested = m.discardQueuesRequested ∧ r.mem.1.consumer = m.consumer ∧
      ∀ o ∈ r.next, o.holds = false := by
  cases c <;> simp only [startCall] at h
  case drain k =>
    obtain ⟨e, -, rfl⟩ := Option.map_eq_some_iff.mp h
    exact ⟨rfl, rfl, rfl, by simp [Op.holds]⟩
  case stop type =>
    cases h
    exact ⟨rfl, rfl, rfl, by simp [Op.holds, StopPoint.holds]⟩
  case park priority clearIdle =>
    cases h
    exact ⟨rfl, rfl, rfl, by simp [Op.holds]⟩
  all_goals
    split_ifs at h <;> cases h <;>
      exact ⟨rfl, rfl, rfl, by simp [Op.holds, WorkerPoint.holds]⟩

theorem Exclusive.startCall {c : Call} {r : Outcome (PoolMemory × Shared) Op Event}
    (h : Exclusive m ops) (hr : m.startCall sh c = some r) :
    Exclusive r.mem.1 (r.next.toList ++ ops) := by
  obtain ⟨hm, -, -, hnext⟩ := startCall_frame hr
  have hany : r.next.any Op.holds = false := by
    rw [← Bool.not_eq_true, Option.any_eq_true]
    rintro ⟨o, ho, hh⟩
    exact absurd (hnext o ho) (by rw [hh]; decide)
  rw [Exclusive, total_append, mutexWeight_next, hany, hm]
  rw [Exclusive] at h
  rw [h]
  simp

end

end PoolMemory

end Scheduler
end NUClear
