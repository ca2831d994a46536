/-
# MipsOnQemu.Lib.Words -- fields of machine words

What the usual expressions on a word of 32 bits compute, as arithmetic on its value: masks of the
lowest bits, rounding down and up to a multiple of a power of two, and changing one field of a word
with exclusive or.
-/

import Mathlib

namespace Words

open BitVec Nat

variable {s n : Nat}

theorem toNat_ofNat_of_lt (hn : n < 2 ^ 32) : (BitVec.ofNat 32 n).toNat = n := by
  rw [toNat_ofNat, mod_eq_of_lt hn]

theorem toNat_one_shiftLeft (hs : s < 32) : (1#32 <<< s).toNat = 2 ^ s := by
  rw [← twoPow_eq, toNat_twoPow_of_lt hs]

theorem toNat_mask (hs : s < 32) : ((1#32 <<< s) - 1#32).toNat = 2 ^ s - 1 := by
  have hpow : 2 ^ s < 2 ^ 32 := Nat.pow_lt_pow_right (by omega) hs
  have hpos := Nat.two_pow_pos s
  rw [toNat_sub, toNat_one_shiftLeft hs]
  simp
  omega

/-- `x & ~((1 << s) - 1)` rounds down to a multiple of `2 ^ s`. -/
theorem and_not_mask (hs : s < 32) (x : BitVec 32) :
    (x &&& ~~~((1#32 <<< s) - 1#32)).toNat = x.toNat / 2 ^ s * 2 ^ s := by
  have heq : x &&& ~~~((1#32 <<< s) - 1#32) = (x >>> s) <<< s := by
    refine eq_of_getLsbD_eq fun i hi => ?_
    have hmask : ((1#32 <<< s) - 1#32).getLsbD i = decide (i < s) := by
      rw [getLsbD, toNat_mask hs, Nat.testBit_two_pow_sub_one]
    rw [getLsbD_and, getLsbD_not, hmask, getLsbD_shiftLeft, getLsbD_ushiftRight]
    by_cases his : i < s
    · simp [his]
    · have hadd : s + (i - s) = i := by omega
      simp [his, hi, hadd, getLsbD_eq_getElem]
  rw [heq, toNat_shiftLeft, toNat_ushiftRight, Nat.shiftLeft_eq, Nat.shiftRight_eq_div_pow]
  exact Nat.mod_eq_of_lt ((Nat.div_mul_le_self _ _).trans_lt x.isLt)

/-- The next multiple of `2 ^ s` is at most the number of words. -/
theorem next_le (hs : s < 32) (hn : n < 2 ^ 32) : (n / 2 ^ s + 1) * 2 ^ s ≤ 2 ^ 32 := by
  refine le_of_lt_add_of_dvd ?_ (Nat.dvd_mul_left _ _) (Nat.pow_dvd_pow 2 hs.le)
  rw [Nat.succ_mul]
  exact Nat.add_lt_add_right ((div_mul_le_self _ _).trans_lt hn) _

theorem lt_next : n < (n / 2 ^ s + 1) * 2 ^ s := by
  rw [mul_comm]
  exact Nat.lt_mul_div_succ n (Nat.two_pow_pos s)

/-- Up to the next multiple of `2 ^ s`, only the lowest bits change. -/
theorem div_eq_of_lt_next {j : Nat} (hle : n ≤ j) (hlt : j < (n / 2 ^ s + 1) * 2 ^ s) :
    j / 2 ^ s = n / 2 ^ s :=
  Nat.div_eq_of_lt_le ((div_mul_le_self n _).trans hle) hlt

/-- `(x & ~((1 << s) - 1)) + (1 << s)` is the next multiple of `2 ^ s`. -/
theorem ofNat_next (hs : s < 32) (hn : n < 2 ^ 32) :
    (BitVec.ofNat 32 n &&& ~~~((1#32 <<< s) - 1#32)) + (1#32 <<< s) =
      BitVec.ofNat 32 ((n / 2 ^ s + 1) * 2 ^ s) := by
  refine eq_of_toNat_eq ?_
  rw [toNat_add, and_not_mask hs, toNat_one_shiftLeft hs, toNat_ofNat, toNat_ofNat,
    Nat.mod_eq_of_lt hn, Nat.succ_mul]

theorem ofNat_eq_zero_iff (hpos : 0 < n) (hle : n ≤ 2 ^ 32) : BitVec.ofNat 32 n = 0#32 ↔ n = 2 ^ 32 := by
  constructor
  · intro h
    have hmod := congrArg BitVec.toNat h
    rw [toNat_ofNat, toNat_ofNat, zero_mod] at hmod
    by_contra hne
    rw [mod_eq_of_lt (by omega)] at hmod
    omega
  · rintro rfl
    rfl

end Words
