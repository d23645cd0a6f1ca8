import NUClear.Foundation.CheckedMemory
import Mathlib.Data.Nat.Bitwise

/-!
# Loops over a byte buffer, and the words in it

A `for` loop of a checked computation is a recursion on the number of rounds that it may take.
Where the body of each round is safe and its value known, the loop is a fold over the rounds
(`forBelow_eq`), so what a loop computes is stated without the loop.

* `forBelow`: the loop over every `step`-th place below a bound.
* `forBelow_eq`: it is a fold, nothing goes wrong in it, and it ends at the place behind its last
  round.
* `foldl_range_getD`: a fold over places is a fold over the bytes there.
* `ldiff_two_pow_sub_one`: the bound of the loop over whole blocks, for code that rounds a length
  down by clearing its low bits.
* `packBytes`: a word from its bytes by shifts; `packBytes_eq` says which number it is.
-/

namespace NUClear
namespace Foundation

/-! ## Computations in which nothing goes wrong -/

section

variable {α β : Type}

theorem Checked.checked_eq {p : Prop} [Decidable p] {e : Fault} {a : α} (h : p) :
    Checked.checked p e a = pure a := by
  rw [Checked.checked, if_pos h]
  rfl

theorem Checked.pure_eq_iff {a a' : α} : (pure a : Checked α) = pure a' ↔ a = a' :=
  ⟨fun h => congrArg Checked.value h, congrArg pure⟩

-- In parentheses: as a definitional equation it would make the kernel unfold the words that are
-- computed.
theorem Checked.pure_bind (a : α) (f : α → Checked β) : (pure a >>= f) = f a := (rfl)

theorem readByte_eq {b : Bytes} {i : ℕ} (h : i < b.length) : readByte b i = pure (b.getD i 0) :=
  Checked.checked_eq h

end

/-! ## The loop -/

section

variable {σ : Type} {α : Type*}

/-- `for (; p < stop; p += step) s = body(s, p);`, with a bound on the number of rounds. -/
def forBelow (stop step : ℕ) (body : σ → ℕ → Checked σ) : ℕ → ℕ → σ → Checked (σ × ℕ)
  | 0, p, s => .checked (¬ p < stop) .endless (s, p)
  | fuel + 1, p, s =>
      if p < stop then do
        let s ← body s p
        forBelow stop step body fuel (p + step) s
      else pure (s, p)

variable {stop step : ℕ} {body : σ → ℕ → Checked σ} {f : σ → ℕ → σ}

/-- The loop is a fold over the rounds, and nothing goes wrong in it, when nothing goes wrong in a
round. -/
theorem forBelow_eq (hstep : 0 < step) (fuel k p : ℕ) (s : σ) (hfuel : k ≤ fuel)
    (hstop : p + step * k = stop) (hbody : ∀ s i, i < k → body s (p + step * i) = pure (f s i)) :
    forBelow stop step body fuel p s = pure ((List.range k).foldl f s, stop) := by
  induction fuel generalizing k p s f with
  | zero =>
    obtain rfl : k = 0 := Nat.le_zero.mp hfuel
    rw [Nat.mul_zero, Nat.add_zero] at hstop
    rw [forBelow, hstop, Checked.checked_eq (Nat.lt_irrefl stop)]
    rfl
  | succ fuel ih =>
    cases k with
    | zero =>
      rw [Nat.mul_zero, Nat.add_zero] at hstop
      rw [forBelow, if_neg (by omega), hstop]
      rfl
    | succ k =>
      have hfirst : body s p = pure (f s 0) := hbody s 0 k.succ_pos
      have hlt : p < stop := by
        have hpos : 0 < step * (k + 1) := Nat.mul_pos hstep k.succ_pos
        omega
      have hrest : ∀ s i, i < k → body s (p + step + step * i) = pure (f s (i + 1)) := by
        intro s i hi
        have hplace : p + step + step * i = p + step * (i + 1) := by rw [Nat.mul_succ]; omega
        rw [hplace]
        exact hbody s (i + 1) (Nat.succ_lt_succ hi)
      have hend : p + step + step * k = stop := by rw [← hstop, Nat.mul_succ]; omega
      have hloop : forBelow stop step body fuel (p + step) (f s 0) =
          pure ((List.range k).foldl (fun s i => f s (i + 1)) (f s 0), stop) :=
        ih k (p + step) (f s 0) (Nat.le_of_succ_le_succ hfuel) hend hrest
      rw [forBelow, if_pos hlt, hfirst, Checked.pure_bind, hloop, List.range_succ_eq_map,
        List.foldl_cons, List.foldl_map]

/-- The bytes of a block. -/
theorem take_drop_eq {b : Bytes} {p k : ℕ} (h : p + k ≤ b.length) :
    (b.drop p).take k = (List.range k).map fun i => b.getD (p + i) 0 := by
  refine List.ext_getElem (by simp; omega) fun i hi hk => ?_
  rw [List.length_map, List.length_range] at hk
  rw [List.getElem_take, List.getElem_drop, List.getElem_map, List.getElem_range,
    List.getD_eq_getElem]

/-- A fold over the places behind one is a fold over the bytes behind it. -/
theorem foldl_range_getD (g : α → Byte → α) (b : Bytes) {p k : ℕ} (h : p + k = b.length) (a : α) :
    (List.range k).foldl (fun a i => g a (b.getD (p + i) 0)) a = (b.drop p).foldl g a := by
  have hdrop : b.drop p = (List.range k).map fun i => b.getD (p + i) 0 := by
    rw [← take_drop_eq h.le, List.take_of_length_le (by rw [List.length_drop]; omega)]
  rw [hdrop, List.foldl_map]

end

/-! ## Blocks -/

/-- Clearing the low bits rounds down to a multiple. -/
theorem ldiff_two_pow_sub_one (n k : ℕ) : Nat.ldiff n (2 ^ k - 1) = 2 ^ k * (n / 2 ^ k) := by
  refine Nat.eq_of_testBit_eq fun i => ?_
  rw [Nat.testBit_ldiff, Nat.testBit_two_pow_sub_one, Nat.testBit_two_pow_mul,
    Nat.testBit_div_two_pow]
  by_cases hi : i < k
  · simp [hi]
  · simp [hi, Nat.not_lt.mp hi, Nat.sub_add_cancel (Nat.not_lt.mp hi)]

/-! ## Words -/

/-- The bytes of a word, put together by shifts. -/
def packBytes (w : ℕ) : Bytes → BitVec w
  | [] => 0#w
  | b :: l => b.setWidth w ||| packBytes w l <<< 8

theorem packBytes_eq (w : ℕ) (b : Bytes) : packBytes w b = BitVec.ofNat w (leValue b) := by
  induction b with
  | nil => rfl
  | cons x l ih =>
    refine BitVec.eq_of_getLsbD_eq fun i hi => ?_
    rw [packBytes, ih, leValue, Nat.add_comm, BitVec.getLsbD_or, BitVec.getLsbD_setWidth,
      BitVec.getLsbD_shiftLeft,
      BitVec.getLsbD_ofNat, BitVec.getLsbD_ofNat, Nat.testBit_two_pow_mul_add (i := 8) _ x.isLt]
    by_cases h8 : i < 8
    · simp [hi, h8, BitVec.getLsbD]
    · have hle : 8 ≤ i := Nat.not_lt.mp h8
      simp [hi, h8, BitVec.getLsbD_of_ge x i hle, Nat.lt_of_le_of_lt (Nat.sub_le i 8) hi]

end Foundation
end NUClear
