/-
# MipsOnQemu.Linux.BitmapShift -- shifts of whole bitmaps

`__bitmap_shift_right` and `__bitmap_shift_left` of `lib/bitmap.c`. A round makes one word of the result
from two words of the source. In place, the source is read from the words that the rounds before have
left, and no round reads a word that one of them has written (`writeWords_spec`).
-/

import MipsOnQemu.Linux.BitmapRegion

namespace Linux

open List Function

open BitVec hiding not_or

/-- `if (left && q == lim - 1) word &= mask`. -/
def maskLast (bits q : Nat) (word : BitVec 32) : BitVec 32 :=
  let left := bits % bitsPerLong
  if left ≠ 0 ∧ q = bitsToLongs bits - 1 then word &&& ((1#32 <<< left) - 1#32) else word

/-- The word `dst[k]` of a right shift. -/
def shiftRightWord (shift bits : Nat) (src : Longs) (k : Nat) : BitVec 32 :=
  let off := shift / bitsPerLong
  let rem := shift % bitsPerLong
  let upper :=
    if rem = 0 ∨ off + k + 1 ≥ bitsToLongs bits then 0#32 else maskLast bits (off + k + 1) (src (off + k + 1))
  let lower := maskLast bits (off + k) (src (off + k))
  maskLast bits k (upper <<< (bitsPerLong - rem) ||| lower >>> rem)

/-- The word `dst[k + off]` of a left shift. -/
def shiftLeftWord (shift bits : Nat) (src : Longs) (k : Nat) : BitVec 32 :=
  let off := shift / bitsPerLong
  let rem := shift % bitsPerLong
  let lower := if rem ≠ 0 ∧ k > 0 then src (k - 1) else 0#32
  let upper := maskLast bits k (src k)
  maskLast bits (k + off) (lower >>> (bitsPerLong - rem) ||| upper <<< rem)

/-- The rounds of a loop, each of which writes one word. Without a source of its own, the loop reads from the
destination. -/
def writeWords (source : Option Longs) (place : Nat → Nat) (word : Longs → Nat → BitVec 32) (ks : List Nat)
    (dst : Longs) : Longs :=
  ks.foldl (fun dst k => update dst (place k) (word (source.getD dst) k)) dst

/-- `memset` of `n` words. -/
def clearWords (start n : Nat) (dst : Longs) : Longs := fun j => if start ≤ j ∧ j < start + n then 0#32 else dst j

/-- `__bitmap_shift_right`; in place if there is no source. -/
def bitmapShiftRight (source : Option Longs) (shift bits : Nat) (dst : Longs) : Longs :=
  let lim := bitsToLongs bits
  let off := shift / bitsPerLong
  clearWords (lim - off) off
    (writeWords source id (shiftRightWord shift bits) (range (lim - off)) dst)

/-- `__bitmap_shift_left`; in place if there is no source. -/
def bitmapShiftLeft (source : Option Longs) (shift bits : Nat) (dst : Longs) : Longs :=
  let lim := bitsToLongs bits
  let off := shift / bitsPerLong
  clearWords 0 off
    (writeWords source (· + off) (shiftLeftWord shift bits) (range (lim - off)).reverse dst)

/-! ## Words -/

/-- **The loop**, if no round reads a word that an earlier one writes. -/
theorem writeWords_spec (source : Option Longs) (place : Nat → Nat) {word : Longs → Nat → BitVec 32}
    (reads : Nat → Nat → Prop) (hword : ∀ k m m', (∀ j, reads k j → m j = m' j) → word m k = word m' k)
    (ks : List Nat) (hks : ks.Pairwise fun k k' => place k ≠ place k' ∧ ¬ reads k' (place k)) (dst : Longs) :
    (∀ k ∈ ks, writeWords source place word ks dst (place k) = word (source.getD dst) k) ∧
      ∀ j ∉ ks.map place, writeWords source place word ks dst j = dst j := by
  induction ks generalizing dst with
  | nil => simp [writeWords]
  | cons k ks ih =>
    obtain ⟨hk, hks⟩ := pairwise_cons.mp hks
    obtain ⟨hin, hout⟩ := ih hks (update dst (place k) (word (source.getD dst) k))
    refine ⟨forall_mem_cons.mpr ⟨?_, fun k' hk' => ?_⟩, fun j hj => ?_⟩
    · refine (hout _ fun hmem => ?_).trans (update_self ..)
      obtain ⟨k', hk', heq⟩ := mem_map.mp hmem
      exact (hk k' hk').1 heq.symm
    · refine (hin k' hk').trans (hword k' _ _ fun j hj => ?_)
      cases source with
      | some src => rfl
      | none =>
        refine update_of_ne ?_ ..
        rintro rfl
        exact (hk k' hk').2 hj
    · simp only [map_cons, mem_cons, not_or] at hj
      exact (hout j hj.2).trans (update_of_ne hj.1 ..)

/-! ## Bits -/

section Bits

variable {shift bits k t : Nat} {src : Longs}

theorem getLsbD_maskLast (word : BitVec 32) {q : Nat} (hq : q < bitsToLongs bits) (ht : t < 32) :
    (maskLast bits q word).getLsbD t = (decide (32 * q + t < bits) && word.getLsbD t) := by
  unfold maskLast
  delta bitsToLongs bitsPerLong at *
  dsimp only
  by_cases hlast : bits % 32 ≠ 0 ∧ q = (bits + 32 - 1) / 32 - 1
  · have hmask : ((1#32 <<< (bits % 32)) - 1#32).getLsbD t = decide (t < bits % 32) := by
      rw [getLsbD, Words.toNat_mask (by omega), Nat.testBit_two_pow_sub_one]
    rw [if_pos hlast, getLsbD_and, hmask, Bool.and_comm]
    congr 2
    simp only [eq_iff_iff]
    omega
  · rw [if_neg hlast, decide_eq_true (by omega), Bool.true_and]

theorem bitAt_of_eq {n q : Nat} (h : n = 32 * q + t) (ht : t < 32) : bitAt src n = (src q).getLsbD t := by
  rw [bitAt, bitsPerLong, show n / 32 = q by omega, show n % 32 = t by omega]

theorem getLsbD_masked {n q : Nat} (h : n = 32 * q + t) (ht : t < 32) (hq : q < bitsToLongs bits) :
    (maskLast bits q (src q)).getLsbD t = (decide (n < bits) && bitAt src n) := by
  rw [getLsbD_maskLast _ hq ht, bitAt_of_eq h ht, h]

/-- A word from two neighbours. -/
theorem getLsbD_join (upper lower : BitVec 32) {i j : Nat} (hij : i + j = 32) (ht : t < 32) :
    (upper <<< i ||| lower >>> j).getLsbD t = if j + t < 32 then lower.getLsbD (j + t) else upper.getLsbD (t - i) := by
  rw [getLsbD_or, getLsbD_shiftLeft, getLsbD_ushiftRight]
  split
  · simp [show t < i by omega]
  · rw [getLsbD_of_ge _ _ (by omega : 32 ≤ j + t)]
    simp [ht, show ¬ t < i by omega]

theorem getLsbD_shiftRightWord (hk : shift / 32 + k < bitsToLongs bits) (ht : t < 32) :
    (shiftRightWord shift bits src k).getLsbD t =
      (decide (32 * k + t + shift < bits) && bitAt src (32 * k + t + shift)) := by
  have hlim : bitsToLongs bits = (bits + 31) / 32 := rfl
  have hmask : ∀ x, (decide (32 * k + t < bits) && (decide (32 * k + t + shift < bits) && x)) =
      (decide (32 * k + t + shift < bits) && x) := by
    intro x
    by_cases hin : 32 * k + t + shift < bits
    · simp [hin, show 32 * k + t < bits by omega]
    · simp [hin]
  unfold shiftRightWord
  delta bitsPerLong
  dsimp only
  rw [getLsbD_maskLast _ (by omega) ht, getLsbD_join _ _ (by omega) ht]
  split
  · next hcarry => rw [getLsbD_masked (n := 32 * k + t + shift) (by omega) hcarry hk, hmask]
  · by_cases hlast : shift / 32 + k + 1 ≥ bitsToLongs bits
    · simp [hlast, show ¬ 32 * k + t + shift < bits by omega]
    · rw [if_neg (by omega), getLsbD_masked (n := 32 * k + t + shift) (by omega) (by omega) (by omega), hmask]

theorem getLsbD_shiftLeftWord (ht : t < 32) (hin : 32 * (k + shift / 32) + t < bits) :
    (shiftLeftWord shift bits src k).getLsbD t =
      (decide (shift ≤ 32 * (k + shift / 32) + t) && bitAt src (32 * (k + shift / 32) + t - shift)) := by
  have hlim : bitsToLongs bits = (bits + 31) / 32 := rfl
  unfold shiftLeftWord
  delta bitsPerLong
  dsimp only
  rw [getLsbD_maskLast _ (by omega) ht, decide_eq_true hin, Bool.true_and, BitVec.or_comm, getLsbD_join _ _ (by omega) ht]
  split
  · by_cases hk : k > 0
    · rw [if_pos (by omega), decide_eq_true (by omega : shift ≤ _), Bool.true_and]
      exact (bitAt_of_eq (by omega) (by omega)).symm
    · simp [hk, show ¬ shift ≤ 32 * (k + shift / 32) + t by omega]
  · rw [getLsbD_masked (n := 32 * (k + shift / 32) + t - shift) (by omega) (by omega) (by omega),
      decide_eq_true (by omega : shift ≤ _), decide_eq_true (by omega : _ < bits)]

end Bits

/-! ## Shifts -/

section Shifts

variable (source : Option Longs) (dst : Longs) {bits : Nat} (shift : Nat) {i : Nat} (hi : i < bits)
include hi

theorem bitAt_bitmapShiftRight : bitAt (bitmapShiftRight source shift bits dst) i =
    (decide (i + shift < bits) && bitAt (source.getD dst) (i + shift)) := by
  have hlim : bitsToLongs bits = (bits + 31) / 32 := rfl
  -- a round reads no word below the one that it writes
  have hreads : ∀ (k : Nat) (m m' : Longs), (∀ j, k ≤ j → m j = m' j) →
      shiftRightWord shift bits m k = shiftRightWord shift bits m' k := by
    intro k m m' h
    have hle := Nat.le_add_left k (shift / bitsPerLong)
    rw [shiftRightWord, shiftRightWord, h _ hle, h _ (hle.trans (Nat.le_succ _))]
  have hloop := (writeWords_spec source id _ hreads (range (bitsToLongs bits - shift / 32))
    (pairwise_lt_range.imp fun h => ⟨h.ne, h.not_ge⟩) dst).1 (i / 32)
  rw [id_eq] at hloop
  rw [bitAt, bitmapShiftRight, clearWords]
  delta bitsPerLong
  by_cases hclear : bitsToLongs bits - shift / 32 ≤ i / 32
  · rw [if_pos (by omega), decide_eq_false (by omega)]
    simp
  · rw [if_neg (by omega), hloop (mem_range.mpr (by omega)), getLsbD_shiftRightWord (by omega) (by omega),
      Nat.div_add_mod]

theorem bitAt_bitmapShiftLeft : bitAt (bitmapShiftLeft source shift bits dst) i =
    (decide (shift ≤ i) && bitAt (source.getD dst) (i - shift)) := by
  have hlim : bitsToLongs bits = (bits + 31) / 32 := rfl
  -- a round reads no word above the one that it writes
  have hreads : ∀ (k : Nat) (m m' : Longs), (∀ j, j ≤ k → m j = m' j) →
      shiftLeftWord shift bits m k = shiftLeftWord shift bits m' k := by
    intro k m m' h
    rw [shiftLeftWord, shiftLeftWord, h _ le_rfl, h _ (Nat.sub_le k 1)]
  have hloop := (writeWords_spec source (· + shift / 32) _ hreads (range (bitsToLongs bits - shift / 32)).reverse
    (pairwise_reverse.mpr (pairwise_lt_range.imp fun h => by omega)) dst).1 (i / 32 - shift / 32)
  rw [bitAt, bitmapShiftLeft, clearWords]
  delta bitsPerLong
  by_cases hclear : i / 32 < shift / 32
  · rw [if_pos (by omega), decide_eq_false (by omega)]
    simp
  · have hword : i / 32 - shift / 32 + shift / 32 = i / 32 := by omega
    rw [hword] at hloop
    rw [if_neg (by omega), hloop (mem_reverse.mpr (mem_range.mpr (by omega))),
      getLsbD_shiftLeftWord (by omega) (by omega), hword, Nat.div_add_mod]

end Shifts

/-- **Shifts are exact,** in place and with a destination of its own, whatever the unused bits of the source
are. -/
theorem bitmap_shift_exact (source : Option Longs) (dst : Longs) (bits : Nat) (shift : Fin (bits + 1)) (i : Fin bits) :
    bitAt (bitmapShiftRight source shift bits dst) i =
        (decide (i + shift.val < bits) && bitAt (source.getD dst) (i + shift)) ∧
      bitAt (bitmapShiftLeft source shift bits dst) i =
        (decide (shift.val ≤ i) && bitAt (source.getD dst) (i - shift)) :=
  ⟨bitAt_bitmapShiftRight source dst shift i.isLt, bitAt_bitmapShiftLeft source dst shift i.isLt⟩

end Linux
