/-
BestOS/BitMask.lean

Masking natural numbers, independent of any particular program.

C code selects a bit field `[k, w)` of a word by `x & mask` with
`mask = 2 ^ w - 2 ^ k`.  On naturals this is arithmetic (`and_field_mask`):

    x &&& (2 ^ w - 2 ^ k)  =  x % 2 ^ w / 2 ^ k * 2 ^ k,

and or-ing flags below an aligned value is addition (`or_flags`).  With both,
goals about packed words become linear arithmetic with division.
-/
import Mathlib.Data.Nat.Bitwise
import Mathlib.Tactic.Common

namespace BitMask

theorem testBit_field_mask {k w : Nat} (h : k ≤ w) (i : Nat) :
    (2 ^ w - 2 ^ k).testBit i = (decide (i < w) && decide (k ≤ i)) := by
  have hpos : 0 < 2 ^ k := Nat.two_pow_pos k
  have hle : 2 ^ k ≤ 2 ^ w := Nat.pow_le_pow_right (by decide) h
  have hsucc : 2 ^ w - 2 ^ k = 2 ^ w - ((2 ^ k - 1) + 1) := by omega
  rw [hsucc, Nat.testBit_two_pow_sub_succ (by omega), Nat.testBit_two_pow_sub_one]
  by_cases hi : i < k
  · simp [hi]
  · simp [hi, Nat.le_of_not_lt hi]

/-- Selecting the bit field `[k, w)`. -/
theorem and_field_mask {k w : Nat} (h : k ≤ w) (x : Nat) :
    x &&& (2 ^ w - 2 ^ k) = x % 2 ^ w / 2 ^ k * 2 ^ k := by
  apply Nat.eq_of_testBit_eq
  intro i
  rw [Nat.testBit_and, testBit_field_mask h, Nat.testBit_mul_two_pow]
  by_cases hk : k ≤ i
  · have hi : i - k + k = i := Nat.sub_add_cancel hk
    rw [← Nat.shiftRight_eq_div_pow, Nat.testBit_shiftRight, Nat.testBit_mod_two_pow,
      Nat.add_comm k, hi]
    by_cases hw : i < w <;> simp [hk, hw]
  · simp [hk]

/-- Flags below the alignment of a value are or-ed in by addition. -/
theorem or_flags {k a f : Nat} (ha : a % 2 ^ k = 0) (hf : f < 2 ^ k) : a ||| f = a + f := by
  have hdvd : a = 2 ^ k * (a / 2 ^ k) := (Nat.mul_div_cancel' (Nat.dvd_of_mod_eq_zero ha)).symm
  rw [hdvd]
  exact (Nat.two_pow_add_eq_or_of_lt hf _).symm

end BitMask
