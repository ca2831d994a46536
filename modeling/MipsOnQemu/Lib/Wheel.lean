/-
# MipsOnQemu.Lib.Wheel -- hierarchical timing wheels

A wheel has levels of slots. What is due at a tick is kept in the slot of a level that some bits of the
tick select: at the lowest level the lowest `r` bits, at each level above it the next `n` bits. With
each tick the slot of the lowest level that its bits select is emptied, and with each tick whose bits
below a level are all zero a slot of that level.

`visit` is the tick at which what is due at a tick is taken out of a level. A thing is kept in the right
place (`Stored`) as long as that tick has not passed.
-/

import Mathlib

namespace Wheel

open Nat

variable (r n : Nat)

/-- The bits below those that a level uses. -/
def shift : Nat → Nat
  | 0 => 0
  | level + 1 => r + level * n

/-- How many bits a level uses. -/
def width : Nat → Nat
  | 0 => r
  | _ + 1 => n

/-- The slot that a tick selects. -/
def index (level x : Nat) : Nat := x / 2 ^ shift r n level % 2 ^ width r n level

/-- The tick at which what is due at a tick is taken out of a level. -/
def visit (level due : Nat) : Nat := due / 2 ^ shift r n level * 2 ^ shift r n level

/-- What is due at a tick can still be found in a level; `now` is the next tick. -/
def Stored (level now due : Nat) : Prop :=
  now ≤ visit r n level due ∧ (level = 0 → due < now + 2 ^ r)

variable {r n} {level now due : Nat}

theorem shift_succ (level : Nat) : shift r n (level + 1) = shift r n level + width r n level := by
  cases level with
  | zero =>
    show r + 0 * n = 0 + r
    omega
  | succ level =>
    show r + (level + 1) * n = r + level * n + n
    rw [succ_mul, Nat.add_assoc]

theorem aligned_succ_iff (level x : Nat) : x % 2 ^ shift r n (level + 1) = 0 ↔
    x % 2 ^ shift r n level = 0 ∧ index r n level x = 0 := by
  unfold index
  rw [shift_succ, Nat.pow_add, ← dvd_iff_mod_eq_zero, ← dvd_iff_mod_eq_zero, ← dvd_iff_mod_eq_zero]
  constructor
  · intro h
    exact ⟨(Nat.dvd_mul_right _ _).trans h, (dvd_div_iff_mul_dvd ((Nat.dvd_mul_right _ _).trans h)).mpr h⟩
  · rintro ⟨hlow, hindex⟩
    exact (dvd_div_iff_mul_dvd hlow).mp hindex

theorem aligned_of_le {level' x : Nat} (hle : level ≤ level')
    (h : x % 2 ^ shift r n level' = 0) : x % 2 ^ shift r n level = 0 := by
  induction level', hle using le_induction with
  | base => exact h
  | succ level' _ ih => exact ih ((aligned_succ_iff level' x).mp h).1

theorem visit_zero (due : Nat) : visit r n 0 due = due := by
  unfold visit shift
  rw [Nat.pow_zero, Nat.div_one, Nat.mul_one]

theorem visit_le (level due : Nat) : visit r n level due ≤ due := div_mul_le_self _ _

/-- At that tick the bits below the level are zero, and the slot is the one that is selected. -/
theorem aligned_visit (level due : Nat) : visit r n level due % 2 ^ shift r n level = 0 ∧
    index r n level (visit r n level due) = index r n level due := by
  unfold visit index
  exact ⟨Nat.mul_mod_left _ _, by rw [Nat.mul_div_cancel _ (Nat.two_pow_pos _)]⟩

/-- What is put into a level above the lowest, because it is not due for long enough, is taken out
later. -/
theorem lt_visit (h : 2 ^ shift r n level ≤ due - now) : now < visit r n level due := by
  have hpos := Nat.two_pow_pos (shift r n level)
  have hrest := mod_lt due hpos
  have heq := div_add_mod due (2 ^ shift r n level)
  unfold visit
  rw [Nat.mul_comm]
  omega

theorem eq_of_index_zero (h : Stored r n 0 now due) (hindex : index r n 0 now = index r n 0 due) :
    due = now := by
  obtain ⟨hle, hlt⟩ := h
  rw [visit_zero] at hle
  have hlt := hlt rfl
  unfold index shift width at hindex
  rw [Nat.pow_zero, Nat.div_one, Nat.div_one] at hindex
  have hdvd : 2 ^ r ∣ due - now := (modEq_iff_dvd' hle).mp hindex
  have hzero := eq_zero_of_dvd_of_lt hdvd (by omega)
  omega

theorem Stored.succ (h : Stored r n level now due) (hne : now ≠ visit r n level due) :
    Stored r n level (now + 1) due := by
  obtain ⟨hle, hlt⟩ := h
  exact ⟨by omega, fun hzero => by have := hlt hzero; omega⟩

end Wheel
