/-
# MipsOnQemu.Linux.BitmapRemap -- remapping of bits

`bitmap_remap` and `bitmap_bitremap` of `lib/bitmap.c`: the n-th set bit of one bitmap goes to the n-th set
bit of another. The loops go from one set bit to the next; what they have in common is that a step raises
the number of set bits below the position by one (`findNext_spec`), and that number tells set bits apart.
-/

import MipsOnQemu.Linux.BootmemScan
import MipsOnQemu.Linux.BitmapRegion

namespace Linux

open Nat

variable (buf old new src : Nat → Bool) (bits : Nat)

/-- `find_next_bit(buf, bits, i)`. -/
def findNext (i : Nat) : Nat := findNextBit buf (bits - i) i

def SetBit (i : Nat) : Prop := i < bits ∧ buf i = true

instance : DecidablePred (SetBit buf bits) := fun _ => instDecidableAnd

/-- The number of set bits below a position. -/
abbrev rank (i : Nat) : Nat := count (SetBit buf bits) i

def bitmapWeight : Nat := rank buf bits bits

theorem findNext_spec {i : Nat} (hi : i ≤ bits) :
    (SetBit buf bits (findNext buf bits i) ∨ findNext buf bits i = bits) ∧
      rank buf bits (findNext buf bits i) = rank buf bits i := by
  obtain ⟨hge, hle, hclear, hset⟩ := findNextBit_spec buf (bits - i) i
  rw [Nat.add_sub_cancel' hi] at hle hset
  refine ⟨(Nat.lt_or_eq_of_le hle).imp (fun hlt => ⟨hlt, hset hlt⟩) id, ?_⟩
  apply le_antisymm
  · by_contra hlt
    obtain ⟨k, ⟨hk, hk'⟩, hbit⟩ := Nat.exists_of_count_lt_count (not_le.mp hlt)
    exact Bool.false_ne_true ((hclear k hk hk').symm.trans hbit.2)
  · exact Nat.count_monotone _ hge

theorem lt_findNext (i : Nat) : i < findNext buf bits (i + 1) :=
  (findNextBit_spec buf (bits - (i + 1)) (i + 1)).1

theorem findNext_first :
    (SetBit buf bits (findNext buf bits 0) ∨ findNext buf bits 0 = bits) ∧ rank buf bits (findNext buf bits 0) = 0 :=
  findNext_spec buf bits (zero_le bits)

/-! ## Ordinals -/

/-- The loop of `bitmap_pos_to_ord`. -/
def ordLoop (pos i ord : Nat) : Nat × Nat :=
  if i < pos then ordLoop pos (findNext buf bits (i + 1)) (ord + 1) else (i, ord)
  termination_by pos - i
  decreasing_by exact Nat.sub_lt_sub_left ‹_› (lt_findNext buf bits i)

/-- `bitmap_pos_to_ord`; `none` is the `BUG_ON`, `some none` is -1. -/
def bitmapPosToOrd (pos : Nat) : Option (Option Nat) :=
  if pos ≥ bits ∨ buf pos = false then some none
  else
    let r := ordLoop buf bits pos (findNext buf bits 0) 0
    if r.1 ≠ pos then none else some (some r.2)

/-- The loop of `bitmap_ord_to_pos`. -/
def posLoop : Nat → Nat → Nat × Nat
  | i, 0 => (i, 0)
  | i, ord + 1 => if i < bits then posLoop (findNext buf bits (i + 1)) ord else (i, ord + 1)

def bitmapOrdToPos (ord : Nat) : Nat :=
  if ord < bits then
    let r := posLoop buf bits (findNext buf bits 0) ord
    if r.1 < bits ∧ r.2 = 0 then r.1 else 0
  else 0

/-- Bit `i` is set, and `n` set bits are below it. -/
def NthBit (n i : Nat) : Prop := SetBit buf bits i ∧ rank buf bits i = n

section Ordinals

variable {buf bits} {i pos n : Nat}

theorem SetBit.next (hi : SetBit buf bits i) :
    (SetBit buf bits (findNext buf bits (i + 1)) ∨ findNext buf bits (i + 1) = bits) ∧
      rank buf bits (findNext buf bits (i + 1)) = rank buf bits i + 1 := by
  have hrank : rank buf bits (i + 1) = rank buf bits i + 1 := by rw [rank, count_succ, if_pos hi]
  rw [← hrank]
  exact findNext_spec buf bits hi.1

theorem SetBit.le_iff (hpos : SetBit buf bits pos) : i ≤ pos ↔ rank buf bits i ≤ rank buf bits pos :=
  ⟨fun h => count_monotone _ h, fun h => not_lt.mp fun hlt => (count_strict_mono hpos hlt).not_ge h⟩

theorem SetBit.next_le_iff (hi : SetBit buf bits i) (hpos : SetBit buf bits pos) :
    findNext buf bits (i + 1) ≤ pos ↔ i < pos := by
  rw [hpos.le_iff, hi.next.2, ← not_le, hi.le_iff, not_le, succ_le_iff]

theorem ordLoop_spec {ord : Nat} (hi : SetBit buf bits i) (hpos : SetBit buf bits pos) (hle : i ≤ pos)
    (hord : ord = rank buf bits i) : ordLoop buf bits pos i ord = (pos, rank buf bits pos) := by
  fun_induction ordLoop buf bits pos i ord with
  | case1 i ord hlt ih =>
    obtain ⟨hnext, hrank⟩ := hi.next
    have hle := (hi.next_le_iff hpos).mpr hlt
    exact ih (hnext.resolve_right (hle.trans_lt hpos.1).ne) hle (by rw [hord, hrank])
  | case2 i ord hge => rw [hord, le_antisymm hle (not_lt.mp hge)]

theorem bitmapPosToOrd_spec (hpos : SetBit buf bits pos) :
    bitmapPosToOrd buf bits pos = some (some (rank buf bits pos)) := by
  obtain ⟨hfirst, hrank⟩ := findNext_first buf bits
  have hle : findNext buf bits 0 ≤ pos := by
    rw [hpos.le_iff, hrank]
    exact zero_le _
  have hloop := ordLoop_spec (hfirst.resolve_right (hle.trans_lt hpos.1).ne) hpos hle hrank.symm
  rw [bitmapPosToOrd, hloop]
  simp [hpos.1, hpos.2]

theorem posLoop_spec (hi : SetBit buf bits i ∨ i = bits) (hn : rank buf bits i + n < bitmapWeight buf bits) :
    ∃ c, posLoop buf bits i n = (c, 0) ∧ NthBit buf bits (rank buf bits i + n) c := by
  induction n generalizing i with
  | zero => exact ⟨i, rfl, hi.resolve_right fun h => by subst h; exact hn.false, rfl⟩
  | succ n ih =>
    have hi : SetBit buf bits i := hi.resolve_right fun h => by subst h; unfold bitmapWeight at hn; omega
    obtain ⟨hnext, hrank⟩ := hi.next
    rw [posLoop, if_pos hi.1]
    have hrec := ih hnext (by omega)
    rwa [hrank, add_assoc, add_comm 1] at hrec

theorem bitmapOrdToPos_spec (hn : n < bitmapWeight buf bits) : NthBit buf bits n (bitmapOrdToPos buf bits n) := by
  obtain ⟨hfirst, hrank⟩ := findNext_first buf bits
  obtain ⟨c, hloop, hc⟩ := posLoop_spec (n := n) hfirst (by omega)
  rw [bitmapOrdToPos, if_pos (hn.trans_le (count_le _)), hloop, if_pos ⟨hc.1.1, rfl⟩]
  rwa [hrank, zero_add] at hc

theorem NthBit.unique {c : Nat} (hi : NthBit buf bits n i) (hc : NthBit buf bits n c) : i = c :=
  count_injective hi.1 hc.1 (hi.2.trans hc.2.symm)

end Ordinals

/-! ## Remapping -/

/-- Where a bit goes, if `new` has `w` bits. -/
def remapBit (w oldbit : Nat) : Option Nat :=
  (bitmapPosToOrd old bits oldbit).map fun
    | some n => if w = 0 then oldbit else bitmapOrdToPos new bits (n % w)
    | none => oldbit

def bitmapBitremap (oldbit : Nat) : Option Nat := remapBit old new bits (bitmapWeight new bits) oldbit

def bitmapZero (dst : Nat → Bool) (i : Nat) : Bool :=
  if i < (if bits ≤ bitsPerLong then 1 else bitsToLongs bits) * bitsPerLong then false else dst i

/-- The loop of `bitmap_remap`. -/
def remapLoop (w oldbit : Nat) (dst : Nat → Bool) : Option (Nat → Bool) :=
  if oldbit < bits then
    (remapBit old new bits w oldbit).bind fun b =>
      remapLoop w (findNext src bits (oldbit + 1)) (Function.update dst b true)
  else some dst
  termination_by bits - oldbit
  decreasing_by exact Nat.sub_lt_sub_left ‹_› (lt_findNext src bits oldbit)

/-- `bitmap_remap`, with a destination that is not the source. -/
def bitmapRemap (dst : Nat → Bool) : Option (Nat → Bool) :=
  remapLoop old new src bits (bitmapWeight new bits) (findNext src bits 0) (bitmapZero bits dst)

/-- The map that the two bitmaps define. -/
def Remaps (b c : Nat) : Prop :=
  if SetBit old bits b ∧ 0 < bitmapWeight new bits then
    NthBit new bits (rank old bits b % bitmapWeight new bits) c
  else c = b

theorem bitmapBitremap_spec (b : Nat) :
    ∃ c, bitmapBitremap old new bits b = some c ∧ Remaps old new bits b c := by
  unfold bitmapBitremap remapBit Remaps
  by_cases hb : SetBit old bits b
  · rw [bitmapPosToOrd_spec hb]
    by_cases hw : bitmapWeight new bits = 0
    · exact ⟨b, by simp [hw], by simp [hw]⟩
    · refine ⟨bitmapOrdToPos new bits (rank old bits b % bitmapWeight new bits), by simp [hw], ?_⟩
      rw [if_pos ⟨hb, pos_of_ne_zero hw⟩]
      exact bitmapOrdToPos_spec (mod_lt _ (pos_of_ne_zero hw))
  · refine ⟨b, ?_, by simp [hb]⟩
    have hout : b ≥ bits ∨ old b = false := by
      rwa [SetBit, not_and_or, not_lt, Bool.not_eq_true] at hb
    simp [bitmapPosToOrd, hout]

theorem remapLoop_spec {i : Nat} (hi : SetBit src bits i ∨ i = bits) (dst : Nat → Bool) :
    ∃ dst', remapLoop old new src bits (bitmapWeight new bits) i dst = some dst' ∧ ∀ c, dst' c = true ↔
      dst c = true ∨ ∃ b, i ≤ b ∧ SetBit src bits b ∧ bitmapBitremap old new bits b = some c := by
  fun_induction remapLoop old new src bits (bitmapWeight new bits) i dst with
  | case1 i dst hlt ih =>
    have hi := hi.resolve_right hlt.ne
    obtain ⟨c, hc, -⟩ := bitmapBitremap_spec old new bits i
    obtain ⟨dst', hrun, hdst'⟩ := ih c hi.next.1
    refine ⟨dst', (congrArg (Option.bind · _) hc).trans hrun, fun k => ?_⟩
    have hset : Function.update dst c true k = true ↔ dst k = true ∨ k = c := by
      by_cases hk : k = c <;> simp [hk]
    rw [hdst' k, hset, or_assoc]
    refine or_congr_right ⟨?_, ?_⟩
    · rintro (rfl | ⟨b, hle, hb, hk⟩)
      · exact ⟨i, le_rfl, hi, hc⟩
      · exact ⟨b, ((hi.next_le_iff hb).mp hle).le, hb, hk⟩
    · rintro ⟨b, hle, hb, hk⟩
      rcases hle.eq_or_lt with rfl | hlt
      · exact .inl (Option.some.inj (hk.symm.trans hc))
      · exact .inr ⟨b, (hi.next_le_iff hb).mpr hlt, hb, hk⟩
  | case2 i dst hge =>
    refine ⟨dst, rfl, fun c => (or_iff_left ?_).symm⟩
    rintro ⟨b, hle, hb, -⟩
    exact hge (hle.trans_lt hb.1)

theorem bitmapRemap_spec (dst : Nat → Bool) : ∃ dst', bitmapRemap old new src bits dst = some dst' ∧
    ∀ c < bits, dst' c = true ↔ ∃ b, SetBit src bits b ∧ bitmapBitremap old new bits b = some c := by
  obtain ⟨dst', hrun, hdst'⟩ := remapLoop_spec old new src bits (findNext_first src bits).1 (bitmapZero bits dst)
  refine ⟨dst', hrun, fun c hc => (hdst' c).trans ?_⟩
  have hzero : bitmapZero bits dst c = false := by
    apply if_pos
    unfold bitsToLongs bitsPerLong
    split <;> omega
  rw [hzero, or_iff_right Bool.false_ne_true]
  refine exists_congr fun b => and_iff_right_of_imp fun hb => ?_
  rw [hb.1.le_iff, (findNext_first src bits).2]
  exact zero_le _

variable {old new bits}

/-- The way back, if the weights are equal. -/
theorem bitmapBitremap_back {b c : Nat} (hw : bitmapWeight old bits = bitmapWeight new bits) (hb : SetBit old bits b)
    (hc : bitmapBitremap old new bits b = some c) :
    SetBit new bits c ∧ bitmapBitremap new old bits c = some b := by
  have hlt : rank old bits b < bitmapWeight new bits := hw ▸ count_strict_mono hb hb.1
  have hpos := zero_lt_of_lt hlt
  obtain ⟨c', hc', hmaps⟩ := bitmapBitremap_spec old new bits b
  obtain rfl := Option.some.inj (hc.symm.trans hc')
  rw [Remaps, if_pos ⟨hb, hpos⟩, mod_eq_of_lt hlt] at hmaps
  obtain ⟨b', hb', hback⟩ := bitmapBitremap_spec new old bits c
  rw [Remaps, hw, if_pos ⟨hmaps.1, hpos⟩, hmaps.2, mod_eq_of_lt hlt] at hback
  rw [hb', hback.unique ⟨hb, rfl⟩]
  exact ⟨hmaps.1, rfl⟩

/-- **Remapping is exact:** every bit goes where the two bitmaps say, the result has the bits to which those of
the source go, and if the bitmaps have equally many bits, a subset of the first comes back. -/
theorem bitmap_remap_exact (old new src : Nat → Bool) (bits : Nat) (dst : Nat → Bool) :
    (∀ b, ∃ c, bitmapBitremap old new bits b = some c ∧ Remaps old new bits b c) ∧
    ∃ dst', bitmapRemap old new src bits dst = some dst' ∧
      (∀ c < bits, dst' c = true ↔ ∃ b, SetBit src bits b ∧ bitmapBitremap old new bits b = some c) ∧
      (bitmapWeight old bits = bitmapWeight new bits → (∀ b, SetBit src bits b → SetBit old bits b) →
        ∀ dst₂, ∃ src', bitmapRemap new old dst' bits dst₂ = some src' ∧ ∀ b < bits, src' b = src b) := by
  obtain ⟨dst', hrun, himage⟩ := bitmapRemap_spec old new src bits dst
  refine ⟨bitmapBitremap_spec old new bits, dst', hrun, himage, fun hw hsub dst₂ => ?_⟩
  obtain ⟨src', hrun', hback⟩ := bitmapRemap_spec new old dst' bits dst₂
  refine ⟨src', hrun', fun b hb => Bool.eq_iff_iff.mpr ((hback b hb).trans ⟨?_, fun hsrc => ?_⟩)⟩
  · rintro ⟨c, hc, hcb⟩
    obtain ⟨b', hb', hc'⟩ := (himage c hc.1).mp hc.2
    obtain rfl := Option.some.inj (hcb.symm.trans (bitmapBitremap_back hw (hsub b' hb') hc').2)
    exact hb'.2
  · obtain ⟨c, hc, -⟩ := bitmapBitremap_spec old new bits b
    obtain ⟨hnew, hcb⟩ := bitmapBitremap_back hw (hsub b ⟨hb, hsrc⟩) hc
    exact ⟨c, ⟨hnew.1, (himage c hnew.1).mpr ⟨b, ⟨hb, hsrc⟩, hc⟩⟩, hcb⟩

end Linux
