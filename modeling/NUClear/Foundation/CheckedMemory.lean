import Mathlib.Data.BitVec
import Mathlib.Data.Nat.Basic
import Mathlib.Tactic.Common

/-!
# Computations on byte buffers, with their accesses checked

A computation gives a value and the list of what went wrong on the way: accesses outside a buffer,
unsigned subtractions below zero, signed overflow, division by zero, and loops that do not end.
After a fault the value is some value, and the computation goes on: that nothing went wrong is a
statement of its own (`Safe`), and it can be asked of an input whatever the value is.

* `Checked`: the monad; `Checked.Safe`: nothing went wrong.  `safe_bind` and `value_bind` take a
  computation apart, so that its faults and its value are followed step by step.
* `readByte`, `readField`, `modifyByte`: the accesses, each safe exactly when it is within the
  buffer.
* `leBytes`, `leValue`: numbers in little-endian bytes, and back.
* `bitAt`, `setBits`, `combine`: sets of numbers as the bits of a buffer.  `bitAt_setBits` says
  which numbers are in the set after some have been put in, `bitAt_combine` what combining two sets
  byte by byte does number by number.
* `field_eq_of_take`: two buffers that agree up to a place hold the same numbers in front of it.
-/

namespace NUClear
namespace Foundation

/-! ## Checked computations -/

/-- What goes wrong: an access outside of a buffer, a number that wraps, a division by zero, or a
loop that does not end. -/
inductive Fault where
  | outOfBounds
  | underflow
  | overflow
  | divisionByZero
  | endless
  deriving DecidableEq, Repr

/-- A value, and what went wrong on the way.  The computation goes on after a fault, with the value
that the machine would have. -/
structure Checked (α : Type) where
  value : α
  faults : List Fault
  deriving DecidableEq, Repr

namespace Checked

variable {α β : Type}

instance : Monad Checked where
  pure a := ⟨a, []⟩
  bind x f := ⟨(f x.value).value, x.faults ++ (f x.value).faults⟩

/-- Nothing goes wrong: the list of faults is empty. -/
def Safe (x : Checked α) : Prop := x.faults = []

instance (x : Checked α) : Decidable x.Safe := inferInstanceAs (Decidable (x.faults = []))

@[simp] theorem value_pure (a : α) : (pure a : Checked α).value = a := rfl

@[simp] theorem value_bind (x : Checked α) (f : α → Checked β) :
    (x >>= f).value = (f x.value).value := rfl

@[simp] theorem safe_pure (a : α) : (pure a : Checked α).Safe := rfl

@[simp] theorem safe_bind (x : Checked α) (f : α → Checked β) :
    (x >>= f).Safe ↔ x.Safe ∧ (f x.value).Safe :=
  List.append_eq_nil_iff

theorem safe_ite {c : Prop} [Decidable c] {x y : Checked α} :
    (if c then x else y).Safe ↔ (c → x.Safe) ∧ (¬ c → y.Safe) := by
  split_ifs with h <;> simp [h]

theorem value_ite {c : Prop} [Decidable c] (x y : Checked α) :
    (if c then x else y).value = if c then x.value else y.value :=
  apply_ite Checked.value c x y

/-- A test that is to succeed, before what relies on it. -/
def check (p : Prop) [Decidable p] (f : Fault) : Checked Unit := ⟨(), if p then [] else [f]⟩

@[simp] theorem safe_check {p : Prop} [Decidable p] {f : Fault} : (check p f).Safe ↔ p := by
  unfold check Safe
  split_ifs with h <;> simp [h]

/-- A value, which may be used only if the test succeeds. -/
def checked (p : Prop) [Decidable p] (f : Fault) (a : α) : Checked α := ⟨a, if p then [] else [f]⟩

@[simp] theorem value_checked {p : Prop} [Decidable p] (f : Fault) (a : α) :
    (checked p f a).value = a := rfl

@[simp] theorem safe_checked {p : Prop} [Decidable p] {f : Fault} {a : α} :
    (checked p f a).Safe ↔ p := by
  unfold checked Safe
  split_ifs with h <;> simp [h]

end Checked

/-- The difference of two numbers of `size_t`; it wraps when the second is the larger one. -/
def subSize (a b : ℕ) : Checked ℕ := .checked (b ≤ a) .underflow ((a + 2 ^ 64 - b) % 2 ^ 64)

@[simp] theorem safe_subSize {a b : ℕ} : (subSize a b).Safe ↔ b ≤ a := Checked.safe_checked

theorem value_subSize {a b : ℕ} (h : b ≤ a) : (subSize a b).value = (a - b) % 2 ^ 64 := by
  have hsub : a + 2 ^ 64 - b = a - b + 2 ^ 64 := by omega
  unfold subSize
  rw [Checked.value_checked, hsub, Nat.add_mod_right]

/-! ## Numbers in little-endian bytes -/

abbrev Byte := BitVec 8

abbrev Bytes := List Byte

/-- The `k` bytes of a number, least significant first. -/
def leBytes : ℕ → ℕ → Bytes
  | 0, _ => []
  | k + 1, x => BitVec.ofNat 8 x :: leBytes k (x / 256)

/-- The number of the bytes, least significant first: what `leBytes` is undone by. -/
def leValue : Bytes → ℕ
  | [] => 0
  | b :: l => b.toNat + 256 * leValue l

@[simp] theorem length_leBytes (k x : ℕ) : (leBytes k x).length = k := by
  induction k generalizing x with
  | zero => rfl
  | succ k ih => rw [leBytes, List.length_cons, ih]

theorem leValue_leBytes (k x : ℕ) : leValue (leBytes k x) = x % 256 ^ k := by
  induction k generalizing x with
  | zero => rw [leBytes, leValue, pow_zero, Nat.mod_one]
  | succ k ih =>
    have hpow : 256 ^ (k + 1) = 256 * 256 ^ k := Nat.pow_succ'
    rw [leBytes, leValue, ih, BitVec.toNat_ofNat, hpow]
    exact Nat.mod_mul.symm

theorem leValue_leBytes_of_lt {k x : ℕ} (h : x < 256 ^ k) : leValue (leBytes k x) = x := by
  rw [leValue_leBytes, Nat.mod_eq_of_lt h]

theorem leValue_lt (b : Bytes) : leValue b < 256 ^ b.length := by
  induction b with
  | nil => decide
  | cons x l ih =>
    have hx := x.isLt
    rw [leValue, List.length_cons, Nat.pow_succ']
    omega

/-! ## The accesses -/

/-- The number in `k` bytes of a buffer, as a packed structure has it in memory. -/
def field (b : Bytes) (i k : ℕ) : ℕ := leValue ((b.drop i).take k)

theorem field_lt (b : Bytes) (i k : ℕ) : field b i k < 256 ^ k :=
  (leValue_lt _).trans_le (Nat.pow_le_pow_right (by decide) (by rw [List.length_take]; omega))

/-- A number is read, all of whose bytes are to be within the buffer. -/
def readField (b : Bytes) (i k : ℕ) : Checked ℕ :=
  .checked (i + k ≤ b.length) .outOfBounds (field b i k)

@[simp] theorem value_readField (b : Bytes) (i k : ℕ) : (readField b i k).value = field b i k := rfl

@[simp] theorem safe_readField {b : Bytes} {i k : ℕ} : (readField b i k).Safe ↔ i + k ≤ b.length :=
  Checked.safe_checked

/-- A byte is read, which is to be within the buffer. -/
def readByte (b : Bytes) (i : ℕ) : Checked Byte := .checked (i < b.length) .outOfBounds (b.getD i 0)

@[simp] theorem value_readByte (b : Bytes) (i : ℕ) : (readByte b i).value = b.getD i 0 := rfl

@[simp] theorem safe_readByte {b : Bytes} {i : ℕ} : (readByte b i).Safe ↔ i < b.length :=
  Checked.safe_checked

/-- A byte is changed, which is to be within the buffer; the others stay. -/
def modifyByte (b : Bytes) (i : ℕ) (f : Byte → Byte) : Checked Bytes :=
  .checked (i < b.length) .outOfBounds (b.modify i f)

@[simp] theorem value_modifyByte (b : Bytes) (i : ℕ) (f : Byte → Byte) :
    (modifyByte b i f).value = b.modify i f := rfl

@[simp] theorem safe_modifyByte {b : Bytes} {i : ℕ} {f : Byte → Byte} :
    (modifyByte b i f).Safe ↔ i < b.length :=
  Checked.safe_checked

/-! ## Sets of numbers as bits -/

/-- `1 << (n % 8)`: the byte that has the bit of the number only. -/
def bit (n : ℕ) : Byte := 1#8 <<< (n % 8)

/-- Whether the number is in the set, which is kept with one bit for each number. -/
def bitAt (b : Bytes) (n : ℕ) : Bool := (b.getD (n / 8) 0).getLsbD (n % 8)

/-- The numbers are put into the set that starts at `o`. -/
def setBits (o : ℕ) : List ℕ → Bytes → Checked Bytes
  | [], b => pure b
  | n :: l, b => do
      let b ← modifyByte b (o + n / 8) (· ||| bit n)
      setBits o l b

/-- A number is taken out of the set that starts at `o`. -/
def clearBit (o n : ℕ) (b : Bytes) : Checked Bytes := modifyByte b (o + n / 8) (· &&& ~~~bit n)

/-- Every byte of `a` is combined with that of `b`, from place `i` on. -/
def combine (f : Byte → Byte → Byte) (b : Bytes) : ℕ → Bytes → Checked Bytes
  | _, [] => pure []
  | i, x :: a => do
      let y ← readByte b i
      let a ← combine f b (i + 1) a
      pure (f x y :: a)

theorem length_setBits (o : ℕ) (l : List ℕ) (b : Bytes) :
    (setBits o l b).value.length = b.length := by
  induction l generalizing b with
  | nil => rfl
  | cons n l ih =>
    show (setBits o l (b.modify (o + n / 8) _)).value.length = _
    rw [ih, List.length_modify]

/-- Bits are set within the buffer just if each of them has its byte there. -/
theorem safe_setBits {o : ℕ} {l : List ℕ} {b : Bytes} :
    (setBits o l b).Safe ↔ ∀ n ∈ l, o + n / 8 < b.length := by
  induction l generalizing b with
  | nil => simp [setBits]
  | cons n l ih =>
    rw [setBits, Checked.safe_bind, safe_modifyByte, value_modifyByte, ih, List.forall_mem_cons,
      List.length_modify]

theorem length_combine (f : Byte → Byte → Byte) (b : Bytes) (i : ℕ) (a : Bytes) :
    (combine f b i a).value.length = a.length := by
  induction a generalizing i with
  | nil => rfl
  | cons x a ih =>
    show (f x _ :: (combine f b (i + 1) a).value).length = _
    rw [List.length_cons, ih, List.length_cons]

/-- Bytes are combined within the buffer, if there are any. -/
theorem safe_combine {f : Byte → Byte → Byte} {b : Bytes} {i : ℕ} {a : Bytes} :
    (combine f b i a).Safe ↔ a = [] ∨ i + a.length ≤ b.length := by
  induction a generalizing i with
  | nil => simp [combine]
  | cons x a ih =>
    rw [combine, Checked.safe_bind, Checked.safe_bind, safe_readByte, ih]
    simp only [Checked.safe_pure, and_true, List.length_cons, reduceCtorEq, false_or]
    rcases a with - | ⟨y, a⟩
    · rw [List.length_nil, zero_add]
      exact ⟨fun h => h.1, fun h => ⟨h, .inl rfl⟩⟩
    · simp only [reduceCtorEq, false_or, List.length_cons]
      omega

theorem getLsbD_bit (n : ℕ) {i : ℕ} (hi : i < 8) : (bit n).getLsbD i = decide (i = n % 8) := by
  unfold bit
  rw [BitVec.getLsbD_shiftLeft]
  have hn : n % 8 < 8 := Nat.mod_lt _ (by decide)
  by_cases h : i = n % 8
  · subst h
    simp [hn]
  · by_cases hlt : i < n % 8
    · simp [h, hlt]
    · have hpos : i - n % 8 ≠ 0 := by omega
      simp [h, BitVec.getLsbD_one, hpos]

/-- A bit of a buffer of which one byte has been changed. -/
theorem bitAt_modify {b : Bytes} {n : ℕ} (h : n / 8 < b.length) (i : ℕ) (f : Byte → Byte) :
    bitAt (b.modify i f) n =
      if i = n / 8 then (f (b.getD i 0)).getLsbD (n % 8) else bitAt b n := by
  unfold bitAt
  rw [List.getD_eq_getElem?_getD, List.getElem?_modify, List.getD_eq_getElem?_getD,
    List.getD_eq_getElem?_getD]
  split_ifs with hi
  · rw [hi, List.getElem?_eq_getElem h]
    rfl
  · cases b[n / 8]? <;> rfl

/-- One number is put into the set, and no other one comes or goes. -/
theorem bitAt_modify_or {b : Bytes} {n : ℕ} (h : n / 8 < b.length) (m : ℕ) :
    bitAt (b.modify (m / 8) (· ||| bit m)) n = (bitAt b n || decide (n = m)) := by
  have hn : n % 8 < 8 := Nat.mod_lt _ (by decide)
  rw [bitAt_modify h]
  split_ifs with hm
  · rw [BitVec.getLsbD_or, getLsbD_bit m hn, hm]
    have hiff : n % 8 = m % 8 ↔ n = m := by omega
    simp only [hiff]
    rfl
  · have hne : n ≠ m := by
      rintro rfl
      exact hm rfl
    simp [hne]

theorem drop_modify (b : Bytes) (o i : ℕ) (f : Byte → Byte) :
    (b.modify (o + i) f).drop o = (b.drop o).modify i f := by
  induction o generalizing b with
  | zero => simp
  | succ o ih =>
    cases b with
    | nil => simp
    | cons x b =>
      rw [Nat.succ_add, List.modify_succ_cons, List.drop_succ_cons, List.drop_succ_cons, ih]

theorem take_modify (b : Bytes) (o i : ℕ) (f : Byte → Byte) :
    (b.modify (o + i) f).take o = b.take o := by
  induction o generalizing b with
  | zero => rw [List.take_zero, List.take_zero]
  | succ o ih =>
    cases b with
    | nil => simp
    | cons x b =>
      rw [Nat.succ_add, List.modify_succ_cons, List.take_succ_cons, List.take_succ_cons, ih]

/-- What is in front of the set stays, whatever is put into the set. -/
theorem take_setBits (o : ℕ) (l : List ℕ) (b : Bytes) :
    (setBits o l b).value.take o = b.take o := by
  induction l generalizing b with
  | nil => rfl
  | cons m l ih =>
    show (setBits o l (b.modify (o + m / 8) _)).value.take o = _
    rw [ih, take_modify]

/-- **The numbers in the set** after some have been put into it: those that were there, and these.
-/
theorem bitAt_setBits {o : ℕ} {b : Bytes} {n : ℕ} (h : o + n / 8 < b.length) (l : List ℕ) :
    bitAt ((setBits o l b).value.drop o) n = (bitAt (b.drop o) n || decide (n ∈ l)) := by
  induction l generalizing b with
  | nil => simp [setBits]
  | cons m l ih =>
    have hlen : n / 8 < (b.drop o).length := by
      rw [List.length_drop]
      omega
    show bitAt ((setBits o l (b.modify (o + m / 8) _)).value.drop o) n = _
    rw [ih (by rwa [List.length_modify]), drop_modify, bitAt_modify_or hlen, Bool.or_assoc,
      ← Bool.decide_or]
    simp only [List.mem_cons]

/-- The bits of combined bytes, each from the bytes at the same distance. -/
theorem getD_combine {f : Byte → Byte → Byte} {b a : Bytes} {i k : ℕ} (h : k < a.length) :
    (combine f b i a).value.getD k 0 = f (a.getD k 0) (b.getD (i + k) 0) := by
  induction a generalizing i k with
  | nil => exact absurd h (by simp)
  | cons x a ih =>
    show (f x (b.getD i 0) :: (combine f b (i + 1) a).value).getD k 0 = _
    cases k with
    | zero => rfl
    | succ k =>
      rw [List.getD_cons_succ, List.getD_cons_succ, ih (Nat.lt_of_succ_lt_succ h),
        Nat.add_right_comm, Nat.add_assoc]

theorem getD_drop (b : Bytes) (o k : ℕ) : (b.drop o).getD k 0 = b.getD (o + k) 0 := by
  rw [List.getD_eq_getElem?_getD, List.getD_eq_getElem?_getD, List.getElem?_drop]

/-- Sets are combined number by number when bytes are combined bit by bit. -/
theorem bitAt_combine {f : Byte → Byte → Byte} {g : Bool → Bool → Bool}
    (hf : ∀ x y : Byte, ∀ i < 8, (f x y).getLsbD i = g (x.getLsbD i) (y.getLsbD i)) {b a : Bytes}
    {o n : ℕ} (h : n / 8 < a.length) :
    bitAt (combine f b o a).value n = g (bitAt a n) (bitAt (b.drop o) n) := by
  unfold bitAt
  rw [getD_combine h, hf _ _ _ (Nat.mod_lt _ (by decide)), getD_drop]

theorem bitAt_replicate (k n : ℕ) : bitAt (List.replicate k 0) n = false := by
  unfold bitAt
  rw [List.getD_eq_getElem?_getD, List.getElem?_replicate]
  split_ifs <;> exact BitVec.getLsbD_zero

/-- The byte in front of the place up to which two buffers agree. -/
theorem getD_eq_of_take {b b' : Bytes} {o i : ℕ} (h : b.take o = b'.take o) (hi : i < o) :
    b.getD i 0 = b'.getD i 0 := by
  have htake : ∀ x : Bytes, x.getD i 0 = (x.take o).getD i 0 := by
    intro x
    rw [List.getD_eq_getElem?_getD, List.getD_eq_getElem?_getD, List.getElem?_take_of_lt hi]
  rw [htake b, htake b', h]

/-- The number in front of the place up to which two buffers agree. -/
theorem field_eq_of_take {b b' : Bytes} {o i k : ℕ} (h : b.take o = b'.take o) (hi : i + k ≤ o) :
    field b i k = field b' i k := by
  have htake : ∀ x : Bytes, (x.drop i).take k = ((x.take o).drop i).take k := by
    intro x
    rw [List.take_drop, List.take_drop, List.take_take, Nat.min_eq_left hi]
  unfold field
  rw [htake b, htake b', h]

end Foundation
end NUClear
