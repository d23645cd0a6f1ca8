import NUClear.Foundation.PublishRing

/-!
# The clock (`clock.cpp`)

The clock runs on from its last update: it was at `epoch` when the base clock was at `base_from`,
and goes `rtf` times as fast.  An update writes the next of three records and makes it the active
one; `now` and `rtf` read the active record without the mutex.

What `now` returns is the time of a clock whose updates are indivisible (`now_eq_reading`), unless
three updates have begun since the one whose record it reads.  An adjustment moves that clock by
what it says and changes its rate, and nothing else: the times before and after fit together
(`reading_adjustClock`).

## The model

`scaled d r` is `dc(d * r)`, a number of ticks; `double` is an arbitrary type, and all that is asked
of `scaled` is that it takes no ticks to none.  The ring of records is that of the library
(`Foundation.Ring`), with the members of `ClockData` as its fields: an update writes them one by
one, and a reader copies those that it needs one by one.

* `Update.next`: the record that an update makes of the active one.
* `after`: the clock after some updates, each of them indivisible.
* `program`: the clock with any number of threads that update and read it.
* `now_eq_reading`: by the library's theorem about what a reader has copied.
-/

namespace NUClear
namespace Clock

open Foundation

structure ClockData (R : Type) where
  baseFrom : ℤ
  epoch : ℤ
  rtf : R
  deriving DecidableEq, Repr

/-- The updates, each with what it reads from the base clock, and with the factor by which time is
to pass. -/
inductive Update (R : Type) where
  | adjustClock (adjustment : ℤ) (rtf : R) (base : ℤ)
  | setClock (time : ℤ) (rtf : R) (base : ℤ)
  deriving DecidableEq, Repr

variable {R : Type} (scaled : ℤ → R → ℤ)

/-- `current.epoch + dc((base_clock::now() - current.base_from) * current.rtf)`: the time of a
record when the base clock shows `base`. -/
def ClockData.reading (current : ClockData R) (base : ℤ) : ℤ :=
  current.epoch + scaled (base - current.baseFrom) current.rtf

/-- The record `next` of an update: an adjustment goes on from what the clock shows, and a setting
from the time that is given. -/
def Update.next (current : ClockData R) : Update R → ClockData R
  | .adjustClock adjustment rtf base =>
      { epoch := current.epoch + adjustment + scaled (base - current.baseFrom) current.rtf
        baseFrom := base
        rtf := rtf }
  | .setClock time rtf base => { epoch := time, baseFrom := base, rtf := rtf }

/-- The clock after some updates, each of them indivisible, from the record it had at first. -/
def after (init : ClockData R) (l : List (Update R)) : ClockData R :=
  l.foldl (fun current x => x.next scaled current) init

/-! ## Member by member -/

inductive Field where
  | baseFrom
  | epoch
  | rtf
  deriving DecidableEq, Repr

/-- The type of a member: two of them are times, and one is the factor. -/
def Field.Value (R : Type) : Field → Type
  | .baseFrom => ℤ
  | .epoch => ℤ
  | .rtf => R

/-- The members of a record. -/
def ClockData.field (c : ClockData R) : (f : Field) → f.Value R
  | .baseFrom => c.baseFrom
  | .epoch => c.epoch
  | .rtf => c.rtf

/-- The record of some members. -/
def ClockData.ofFields (c : (f : Field) → f.Value R) : ClockData R :=
  ⟨c .baseFrom, c .epoch, c .rtf⟩

abbrev Op (R : Type) := Ring.Op Field (Field.Value R) (Update R)

abbrev Event (R : Type) := Ring.Event Field (Field.Value R) (Update R)

/-- `adjust_clock`, `set_clock`, `now` and `rtf`, called by any number of threads, access by access
to the three records and to `active`. -/
def program : Program (Ring Field (Field.Value R)) (Ring.Call Field (Update R))
    (Op R) Unit (Event R) :=
  Ring.program 3 [.epoch, .baseFrom, .rtf] fun x c => (x.next scaled (.ofFields c)).field

/-- The clock is at the record `init`, and nobody is in a call. -/
def initial (init : ClockData R) : Machine (Ring Field (Field.Value R)) (Op R) (Event R) :=
  ⟨Ring.start init.field, [], []⟩

variable {scaled} {init : ClockData R} {s : Machine (Ring Field (Field.Value R)) (Op R) (Event R)}

/-- An adjustment moves the clock by what it says, when it is made; the factor counts from then on.
-/
theorem reading_adjustClock (hzero : ∀ r, scaled 0 r = 0) (current : ClockData R)
    (adjustment : ℤ) (rtf : R) (base : ℤ) :
    ((Update.adjustClock adjustment rtf base).next scaled current).reading scaled base =
      current.reading scaled base + adjustment := by
  rw [Update.next, ClockData.reading, ClockData.reading, sub_self, hzero]
  dsimp only
  omega

theorem field_after (init : ClockData R) (l : List (Update R)) :
    l.foldl (fun r x => (x.next scaled (.ofFields r)).field) init.field =
      (after scaled init l).field := by
  induction l generalizing init with
  | nil => rfl
  | cons x l ih => exact ih (x.next scaled init)

/-- **`now` reads a clock with indivisible updates.**  The record that it has copied is that of the
clock after the updates which were published when it loaded `active`, if no more than two updates
have begun after them; and in these updates an adjustment moves the time by what it says, and
`set_clock` sets it. -/
theorem now_eq_reading (hzero : ∀ r, scaled 0 r = 0)
    (h : Reaches (program scaled).step Always (initial init) s) :
    (∀ k begun copy (baseFrom epoch : ℤ) (rtf : R) (base : ℤ), .got k begun copy ∈ s.trace →
      begun < k + 3 →
      copy .baseFrom = some baseFrom → copy .epoch = some epoch → copy .rtf = some rtf →
      epoch + scaled (base - baseFrom) rtf =
        (after scaled init ((Ring.updates s.trace).take k)).reading scaled base) ∧
    ∀ k adjustment rtf base, (Ring.updates s.trace)[k]? = some (.adjustClock adjustment rtf base) →
      (after scaled init ((Ring.updates s.trace).take (k + 1))).reading scaled base =
        (after scaled init ((Ring.updates s.trace).take k)).reading scaled base + adjustment := by
  constructor
  · intro k begun copy baseFrom epoch rtf base he hlt hbase hepoch hrtf
    have hcopy (f : Field) {v : f.Value R} (hv : copy f = some v) :
        v = (after scaled init ((Ring.updates s.trace).take k)).field f := by
      have hgot := Ring.got_eq h (Nat.le_succ 2) (fun f => by cases f <;> simp) he hlt f hv
      rwa [field_after] at hgot
    have hbase : baseFrom = (after scaled init ((Ring.updates s.trace).take k)).baseFrom :=
      hcopy .baseFrom hbase
    have hepoch : epoch = (after scaled init ((Ring.updates s.trace).take k)).epoch :=
      hcopy .epoch hepoch
    have hrtf : rtf = (after scaled init ((Ring.updates s.trace).take k)).rtf := hcopy .rtf hrtf
    rw [hbase, hepoch, hrtf, ClockData.reading]
  · intro k adjustment rtf base hk
    have hlast : (Ring.updates s.trace).take (k + 1) =
        (Ring.updates s.trace).take k ++ [.adjustClock adjustment rtf base] := by
      rw [List.take_add_one, hk]
      rfl
    rw [hlast, after, List.foldl_concat]
    exact reading_adjustClock hzero _ adjustment rtf base

/-- Two updates overlap with a reader, which has loaded `active` before them. -/
def overlapped : List (Action (Ring.Call Field (Update ℤ)) Unit) :=
  .call (.read [.epoch, .baseFrom, .rtf]) :: List.replicate 2 (.advance 0 ()) ++
    .call (.update (.adjustClock 7 2 10)) :: List.replicate 7 (.advance 0 ()) ++
    .call (.update (.setClock 100 1 20)) :: List.replicate 4 (.advance 0 ()) ++
    List.replicate 3 (.advance 1 ())

theorem now_eq_reading_overlapped :
    ∃ s, Reaches (program fun d r => d * r).step Always (initial ⟨0, 0, 1⟩) s ∧
      s.mem.begun = 2 ∧ s.trace.length = 2 ∧
      (∀ k begun copy (baseFrom epoch : ℤ) (rtf : ℤ) (base : ℤ), .got k begun copy ∈ s.trace →
        begun < k + 3 →
        copy .baseFrom = some baseFrom → copy .epoch = some epoch → copy .rtf = some rtf →
        epoch + (base - baseFrom) * rtf =
          (after (fun d r => d * r) ⟨0, 0, 1⟩ ((Ring.updates s.trace).take k)).reading
          (fun d r => d * r) base) ∧
      ∀ k adjustment rtf base, (Ring.updates s.trace)[k]? =
        some (.adjustClock adjustment rtf base) →
        (after (fun d r => d * r) ⟨0, 0, 1⟩ ((Ring.updates s.trace).take (k + 1))).reading
        (fun d r => d * r) base =
          (after (fun d r => d * r) ⟨0, 0, 1⟩ ((Ring.updates s.trace).take k)).reading
          (fun d r => d * r) base +
            adjustment := by
  have hrun : (exec (program fun d r => d * r).step (initial ⟨0, 0, 1⟩) overlapped).any (fun s =>
      decide (s.mem.begun = 2 ∧ s.trace.length = 2)) = true := by
    decide +kernel
  obtain ⟨s, hs, hstate⟩ := (Option.any_eq_true _ _).mp hrun
  obtain ⟨hbegun, htrace⟩ := of_decide_eq_true hstate
  have hreach := reaches_always_of_exec hs
  exact ⟨s, hreach, hbegun, htrace, now_eq_reading zero_mul hreach⟩

end Clock
end NUClear
