import Mathlib.Data.Nat.Notation
import Mathlib.Data.Int.Notation
import Mathlib.Tactic.Common

/-!
# Priority buckets (`queue/Priority.hpp`)

A task's priority is any integer; the pools and the groups queue tasks in five fixed buckets.  The
bucket of a task is found by comparing its priority with the lower end of each range, from the most
urgent range on, so the ends belong to the bucket above and what is below all ranges is idle.

* `priorityLevel`, `priorityIndex`: the bucket of a priority.
* `priorityIndex_antitone`: the buckets keep the order of the priorities, but not what distinguishes
  two priorities of one bucket.  Within a bucket tasks are in the order in which they were enqueued.
-/

namespace NUClear
namespace Scheduler

/-- The fixed scheduler priority buckets, the most urgent first. -/
inductive PriorityLevel where
  | realtime
  | high
  | normal
  | low
  | idle
  deriving DecidableEq, Repr

/-- The number of priority buckets. -/
abbrev priorityBuckets : ℕ := 5

/-- The value of the enumerator, which is the place of its bucket: the lower one is looked at first.
-/
def PriorityLevel.toIndex : PriorityLevel → Fin priorityBuckets
  | .realtime => 0
  | .high => 1
  | .normal => 2
  | .low => 3
  | .idle => 4

/-- Map a priority to its bucket level, by the values of the named priorities. -/
def priorityLevel (priority : ℤ) : PriorityLevel :=
  if priority ≥ 1000 then .realtime
  else if priority ≥ 750 then .high
  else if priority ≥ 500 then .normal
  else if priority ≥ 250 then .low
  else .idle

/-- Map a priority to its bucket index. -/
def priorityIndex (priority : ℤ) : Fin priorityBuckets := (priorityLevel priority).toIndex

/-- A higher priority is never put into a later bucket: two tasks in different buckets are in the
order of their priorities. -/
theorem priorityIndex_antitone {p q : ℤ} (h : p ≤ q) : priorityIndex q ≤ priorityIndex p := by
  simp only [priorityIndex, priorityLevel]
  split_ifs <;> first | exact (by decide) | omega

end Scheduler
end NUClear
