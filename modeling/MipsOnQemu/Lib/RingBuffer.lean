/-
# MipsOnQemu.Lib.RingBuffer -- slots in a ring, and bytes in a slot

A ring of `n` slots with a first slot and a number of slots in use holds a list (`inUse`); a slot behind
the last one in use is filled by writing it and counting it (`inUse_update`), and the first one is given
up by moving on (`inUse_succ`). A slot that holds bytes has a memory, of which a part is in use (`slice`);
`store` writes a list into it.
-/

import Mathlib

namespace RingBuffer

open List Function Nat

universe u

/-! ## Slots -/

section Slots

variable {σ : Type u} {n : Nat} {slots : Nat → σ} {head count : Nat}

/-- The slots in use, in order. -/
def inUse (n : Nat) (slots : Nat → σ) (head count : Nat) : List σ :=
  (List.range count).map fun i => slots ((head + i) % n)

theorem add_mod_ne {i j : Nat} (hij : i < j) (hj : j < n) : (head + i) % n ≠ (head + j) % n := by
  intro heq
  have hmod : i ≡ j [MOD n] := Nat.ModEq.add_left_cancel' head heq
  have hi := mod_eq_of_lt (hij.trans hj)
  have hj := mod_eq_of_lt hj
  rw [Nat.ModEq, hi, hj] at hmod
  omega

theorem inUse_update (hcount : count < n) (x : σ) :
    inUse n (Function.update slots ((head + count) % n) x) head (count + 1) = inUse n slots head count ++ [x] := by
  rw [inUse, range_succ, map_append, map_singleton, update_self, inUse]
  congr 1
  refine map_congr_left fun i hi => ?_
  exact update_of_ne (add_mod_ne (mem_range.mp hi) hcount) x slots

theorem inUse_succ (head count : Nat) :
    inUse n slots head (count + 1) = slots (head % n) :: inUse n slots ((head + 1) % n) count := by
  rw [inUse, range_succ_eq_map, map_cons, map_map, add_zero, inUse]
  congr 1
  refine map_congr_left fun i _ => ?_
  rw [comp_apply, mod_add_mod]
  congr 2
  omega

theorem inUse_last (head count : Nat) :
    inUse n slots head (count + 1) = inUse n slots head count ++ [slots ((head + count) % n)] := by
  rw [inUse, range_succ, map_append, map_singleton, inUse]

theorem inUse_update_head (hcount : count < n) (hhead : head < n) (x : σ) :
    inUse n (Function.update slots head x) ((head + 1) % n) count = inUse n slots ((head + 1) % n) count := by
  refine map_congr_left fun i hi => ?_
  refine update_of_ne ?_ x slots
  have hne : (head + 0) % n ≠ (head + (i + 1)) % n :=
    add_mod_ne (succ_pos i) (by have := mem_range.mp hi; omega)
  rw [add_zero, mod_eq_of_lt hhead] at hne
  rw [mod_add_mod, add_assoc, add_comm 1 i]
  exact hne.symm

end Slots

/-! ## Bytes -/

section Bytes

variable {α : Type u} {mem : Nat → α} {start len : Nat} {bytes : List α}

/-- A part of a memory. -/
def slice (mem : Nat → α) (start len : Nat) : List α := (List.range len).map fun i => mem (start + i)

/-- A memory after a list was written to it. -/
def store (mem : Nat → α) (start : Nat) (bytes : List α) : Nat → α := fun i =>
  if start ≤ i then bytes.getD (i - start) (mem i) else mem i

@[simp] theorem length_slice : (slice mem start len).length = len := by
  rw [slice, length_map, length_range]

@[simp] theorem store_nil (mem : Nat → α) (start : Nat) : store mem start [] = mem := by
  funext i
  simp [store]

theorem slice_add (mem : Nat → α) (start m k : Nat) :
    slice mem start (m + k) = slice mem start m ++ slice mem (start + m) k := by
  rw [slice, range_add, map_append, map_map, slice, slice]
  congr 1
  refine map_congr_left fun i _ => ?_
  rw [comp_apply, add_assoc]

theorem slice_store (mem : Nat → α) (start : Nat) (bytes : List α) :
    slice (store mem start bytes) start bytes.length = bytes := by
  refine ext_getElem (by rw [length_slice]) fun i hi hi' => ?_
  simp [slice, store, hi']

theorem slice_store_before {pos : Nat} (h : start + len ≤ pos) :
    slice (store mem pos bytes) start len = slice mem start len := by
  refine map_congr_left fun i hi => ?_
  have hi' := mem_range.mp hi
  exact if_neg (by omega)

theorem store_append (mem : Nat → α) (start : Nat) (b₁ b₂ : List α) :
    store (store mem start b₁) (start + b₁.length) b₂ = store mem start (b₁ ++ b₂) := by
  funext i
  rw [store, store, store]
  by_cases hle : start ≤ i
  · rw [if_pos hle, if_pos hle]
    by_cases hle' : start + b₁.length ≤ i
    · have hold : b₁.getD (i - start) (mem i) = mem i := getD_eq_default _ _ (by omega)
      rw [if_pos hle', hold, getD_append_right _ _ _ _ (by omega), Nat.sub_sub]
    · rw [if_neg hle', getD_append _ _ _ _ (by omega)]
  · rw [if_neg hle, if_neg hle, if_neg (by omega)]

theorem store_store {b₁ b₂ : List α} (h : b₁.length ≤ b₂.length) :
    store (store mem start b₁) start b₂ = store mem start b₂ := by
  funext i
  rw [store, store, store]
  by_cases hle : start ≤ i
  · rw [if_pos hle, if_pos hle, if_pos hle]
    by_cases hlt : i - start < b₂.length
    · rw [getD_eq_getElem _ _ hlt, getD_eq_getElem _ _ hlt]
    · rw [getD_eq_default _ _ (by omega), getD_eq_default _ _ (by omega), getD_eq_default _ _ (by omega)]
  · rw [if_neg hle, if_neg hle, if_neg hle]

end Bytes

end RingBuffer
