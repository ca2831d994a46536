/-
# MipsOnQemu.Linux.TextSearchBm -- the Boyer-Moore text search

`lib/ts_bm.c`. `compute_prefix_tbl` fills two tables from the pattern. `bm_find` moves a window over the
blocks of the text, compares it with the pattern from the right, and moves on by the larger of two numbers
from the tables.

Both tables are right: no number in them leads past an occurrence (`badShift_spec`, `goodShift_spec`). But the
window starts one place too far to the right, so an occurrence at the very start of the text is missed
(`bmFind_first`).
-/

import MipsOnQemu.Lib.Loop
import MipsOnQemu.Lib.Matching

namespace Linux

open Matching List Function Option Nat

open BitVec hiding not_not

/-! ## The tables -/

def patternAt (pattern : List (BitVec 8)) (x : Int) : BitVec 8 := pattern.getD x.toNat 0#8

/-- The loop of `subpattern`. It is entered with a positive `g`. -/
def subpatternLoop (pattern : List (BitVec 8)) (i j : Int) : Nat → Int → Int → Bool
  | 0, _, _ => false
  | g + 1, x, y =>
    if patternAt pattern x = patternAt pattern y then
      if y - 1 < 0 then true
      else if g = 0 then patternAt pattern (i - 1) ≠ patternAt pattern (j - 1)
      else subpatternLoop pattern i j g (x - 1) (y - 1)
    else false

def subpattern (pattern : List (BitVec 8)) (i j : Int) (g : Nat) : Bool :=
  subpatternLoop pattern i j g (i + g - 1) (j + g - 1)

structure TsBm where
  pattern : List (BitVec 8)
  badShift : BitVec 8 → Nat
  goodShift : Nat → Nat

def TsBm.patlen (bm : TsBm) : Nat := bm.pattern.length

variable (pattern : List (BitVec 8))

/-- `bad_shift` after the first loop and `n` rounds of the second. -/
def badShiftRounds : Nat → BitVec 8 → Nat
  | 0 => fun _ => pattern.length
  | i + 1 => Function.update (badShiftRounds i) (patternAt pattern i) (pattern.length - 1 - i)

/-- The loop over `j`, from `i - 1` down to `1 - g`. -/
def findSubpattern (i g : Nat) : Option Int :=
  ((range (pattern.length - 1)).map fun (k : Nat) => (i : Int) - 1 - k).find? fun j =>
    subpattern pattern i j g

/-- `good_shift` after the first loop and the rounds of the second for the first `g` lengths. In the round for
`g`, the variable `i` is `patlen - g`. -/
def goodShiftRounds : Nat → Nat → Nat
  | 0 => fun g => if g = 0 then 1 else pattern.length
  | g + 1 =>
    match findSubpattern pattern (pattern.length - (g + 1)) (g + 1) with
    | some j => Function.update (goodShiftRounds g) (g + 1) (pattern.length - j - (g + 1 : Nat)).toNat
    | none => goodShiftRounds g

/-- `bm_init`, with `compute_prefix_tbl`. -/
def bmInit : TsBm where
  pattern := pattern
  badShift := badShiftRounds pattern (pattern.length - 1)
  goodShift := goodShiftRounds pattern (pattern.length - 1)

/-! ## The search -/

def uintMax : BitVec 32 := allOnes 32

def maxInt (x y : BitVec 32) : BitVec 32 := if y.slt x then x else y

structure BmState where
  consumed : BitVec 32
  text : List (BitVec 8)
  shift : BitVec 32
  deriving DecidableEq

/-- The number of characters that match before the first one that does not. -/
def bmMismatch (bm : TsBm) (text : List (BitVec 8)) (shift : BitVec 32) : Option Nat :=
  (range bm.patlen).find? fun i =>
    text.getD (shift - BitVec.ofNat 32 i).toNat 0#8 ≠ patternAt bm.pattern (bm.patlen - 1 - i : Nat)

/-- One round of `bm_find`: a window is looked at, or the next block is fetched. -/
def bmStep (bm : TsBm) (getNextBlock : BitVec 32 → List (BitVec 8)) (st : BmState) :
    Option (BmState ⊕ BitVec 32) :=
  if st.text.length = 0 then some (.inr uintMax)
  else if st.shift.toNat < st.text.length then
    match bmMismatch bm st.text st.shift with
    | none => some (.inr (st.consumed + (st.shift - (BitVec.ofNat 32 bm.patlen - 1#32))))
    | some i =>
      let bs := bm.badShift (st.text.getD (st.shift - BitVec.ofNat 32 i).toNat 0#8)
      let shift := maxInt (st.shift - BitVec.ofNat 32 i + BitVec.ofNat 32 bs)
        (st.shift + BitVec.ofNat 32 (bm.goodShift i))
      some (.inl { st with shift := shift })
  else
    let consumed := st.consumed + BitVec.ofNat 32 st.text.length
    some (.inl { st with consumed := consumed, text := getNextBlock consumed })

/-- `bm_find`, as far as it gets in a number of rounds. -/
def bmFind (rounds : Nat) (bm : TsBm) (getNextBlock : BitVec 32 → List (BitVec 8)) (offset : BitVec 32) :
    Option (BitVec 32) :=
  Loop.run (bmStep bm getNextBlock) rounds
    { consumed := offset, text := getNextBlock offset, shift := BitVec.ofNat 32 bm.patlen }

/-- `get_linear_data`: the rest of the data as one block. -/
def getLinearData (data : List (BitVec 8)) (consumed : BitVec 32) : List (BitVec 8) := data.drop consumed.toNat

/-! ## What the tables hold -/

variable {k n g : Nat} {shift : BitVec 32}

section Tables

variable {pattern : List (BitVec 8)}

theorem patternAt_fromEnd (hk : k < pattern.length) :
    fromEnd pattern k = some (patternAt pattern (pattern.length - 1 - k : Nat)) := by
  have hlt : pattern.length - 1 - k < pattern.length := by omega
  rw [fromEnd, patternAt, Int.toNat_natCast, getD_eq_getElem?_getD, List.getElem?_eq_getElem hlt,
    getD_some]

/-- After `n` rounds a character that stands at one of the first `n` places has the distance of the last of these
from the end. -/
theorem badShiftRounds_spec (hn : n ≤ pattern.length - 1) (c : BitVec 8) :
    badShiftRounds pattern n c ≤ pattern.length ∧
      ∀ i : Nat, i < n → patternAt pattern i = c → badShiftRounds pattern n c ≤ pattern.length - 1 - i := by
  induction n with
  | zero => exact ⟨le_refl _, fun i hi => absurd hi (not_lt_zero i)⟩
  | succ n ih =>
    obtain ⟨hle, hlast⟩ := ih (by omega)
    rw [badShiftRounds]
    by_cases hc : c = patternAt pattern n
    · subst hc
      rw [update_self]
      exact ⟨by omega, fun i hi _ => by omega⟩
    · rw [update_of_ne hc]
      refine ⟨hle, ?_⟩
      intro i hi hic
      rcases Nat.lt_succ_iff_lt_or_eq.mp hi with hi | rfl
      · exact hlast i hi hic
      · exact absurd hic.symm hc

/-- `bad_shift` leads past no place of the character in the pattern but the last. -/
theorem badShift_spec (pattern : List (BitVec 8)) (c : BitVec 8) :
    (bmInit pattern).badShift c ≤ pattern.length ∧
      ∀ d, 1 ≤ d → d < pattern.length → fromEnd pattern d = some c → (bmInit pattern).badShift c ≤ d := by
  obtain ⟨hle, hlast⟩ := badShiftRounds_spec (le_refl (pattern.length - 1)) c
  refine ⟨hle, ?_⟩
  intro d hd hlt hc
  rw [patternAt_fromEnd hlt] at hc
  have := hlast (pattern.length - 1 - d) (by omega) (some.inj hc)
  exact this.trans (by omega)

/-- The comparison of `subpattern` with `g` characters left. -/
theorem subpatternLoop_iff (i j : Int) (g : Nat) (hg : 0 < g) (hy : 0 ≤ j + g - 1) :
    subpatternLoop pattern i j g (i + g - 1) (j + g - 1) = true ↔
      (∀ k : Nat, k < g → 0 ≤ j + g - 1 - k → patternAt pattern (i + g - 1 - k) = patternAt pattern (j + g - 1 - k)) ∧
      (1 ≤ j → patternAt pattern (i - 1) ≠ patternAt pattern (j - 1)) := by
  induction g with
  | zero => exact absurd hg (lt_irrefl 0)
  | succ g ih =>
    rw [subpatternLoop]
    have hsplit : (∀ k : Nat, k < g + 1 → 0 ≤ j + (g + 1 : Nat) - 1 - k →
          patternAt pattern (i + (g + 1 : Nat) - 1 - k) = patternAt pattern (j + (g + 1 : Nat) - 1 - k)) ↔
        patternAt pattern (i + (g + 1 : Nat) - 1) = patternAt pattern (j + (g + 1 : Nat) - 1) ∧
        ∀ k : Nat, k < g → 0 ≤ j + g - 1 - k →
          patternAt pattern (i + g - 1 - k) = patternAt pattern (j + g - 1 - k) := by
      have hshift : ∀ (a : Int) (k : Nat), a + (g + 1 : Nat) - 1 - (k + 1 : Nat) = a + g - 1 - k := by
        intro a k
        push_cast
        ring
      constructor
      · intro h
        refine ⟨?_, ?_⟩
        · have h0 := h 0 (by omega) (by push_cast at hy ⊢; omega)
          simpa only [cast_zero, sub_zero] using h0
        · intro k hk hle
          have hk' := h (k + 1) (by omega) (by rw [hshift]; exact hle)
          rwa [hshift, hshift] at hk'
      · rintro ⟨h0, hrest⟩ k hk hle
        cases k with
        | zero => simpa only [cast_zero, sub_zero] using h0
        | succ k =>
          rw [hshift] at hle ⊢
          rw [hshift]
          exact hrest k (by omega) hle
    rw [hsplit]
    have hnext : ∀ a : Int, a + (g + 1 : Nat) - 1 - 1 = a + g - 1 := by
      intro a
      push_cast
      ring
    by_cases heq : patternAt pattern (i + (g + 1 : Nat) - 1) = patternAt pattern (j + (g + 1 : Nat) - 1)
    swap
    · rw [if_neg heq]
      exact ⟨fun h => absurd h (by decide), fun h => absurd h.1.1 heq⟩
    rw [if_pos heq, hnext, hnext]
    by_cases hneg : j + g - 1 < 0
    · rw [if_pos hneg]
      refine ⟨fun _ => ⟨⟨heq, ?_⟩, ?_⟩, fun _ => rfl⟩
      · intro k _ hle
        omega
      · intro hj
        omega
    rw [if_neg hneg]
    by_cases hzero : g = 0
    · subst hzero
      rw [if_pos rfl, decide_eq_true_iff]
      constructor
      · intro h
        exact ⟨⟨heq, fun k hk => absurd hk (not_lt_zero k)⟩, fun _ => h⟩
      · rintro ⟨_, h⟩
        refine h ?_
        simpa using hneg
    · rw [if_neg hzero, ih (pos_of_ne_zero hzero) (not_lt.mp hneg)]
      exact ⟨fun h => ⟨⟨heq, h.1⟩, h.2⟩, fun h => ⟨h.1.2, h.2⟩⟩

/-- `subpattern` asks whether the last `g` characters of the pattern recur `d` places to the left. -/
theorem subpattern_iff {d : Nat} (hg : 0 < g) (hglt : g < pattern.length) (hd : 1 ≤ d)
    (hdlt : d < pattern.length) :
    subpattern pattern (pattern.length - g : Nat) ((pattern.length - g : Nat) - (d : Int)) g = true ↔
      Recurs pattern g d := by
  rw [subpattern, subpatternLoop_iff _ _ g hg (by omega), Recurs]
  refine and_congr ?_ ?_
  · refine forall₂_congr fun k hk => ?_
    constructor
    · intro h hin
      have h' := h (by omega)
      rw [patternAt_fromEnd hin, patternAt_fromEnd (by omega)]
      have hx : ((pattern.length - g : Nat) : Int) + g - 1 - k = (pattern.length - 1 - k : Nat) := by omega
      have hy : ((pattern.length - g : Nat) : Int) - d + g - 1 - k = (pattern.length - 1 - (k + d) : Nat) := by omega
      rw [hx, hy] at h'
      rw [h']
    · intro h hle
      have h' := h (by omega)
      rw [patternAt_fromEnd (by omega), patternAt_fromEnd (by omega), some_inj] at h'
      have hx : ((pattern.length - g : Nat) : Int) + g - 1 - k = (pattern.length - 1 - k : Nat) := by omega
      have hy : ((pattern.length - g : Nat) : Int) - d + g - 1 - k = (pattern.length - 1 - (k + d) : Nat) := by omega
      rw [hx, hy, h']
  · have hx : ((pattern.length - g : Nat) : Int) - 1 = (pattern.length - 1 - g : Nat) := by omega
    constructor
    · intro h hin heq
      have hy : ((pattern.length - g : Nat) : Int) - d - 1 = (pattern.length - 1 - (g + d) : Nat) := by omega
      rw [patternAt_fromEnd hin, patternAt_fromEnd hglt, some_inj] at heq
      have h' := h (by omega)
      rw [hx, hy, heq] at h'
      exact h' rfl
    · intro h hj heq
      have hy : ((pattern.length - g : Nat) : Int) - d - 1 = (pattern.length - 1 - (g + d) : Nat) := by omega
      refine h (by omega) ?_
      rw [patternAt_fromEnd (by omega), patternAt_fromEnd hglt, some_inj]
      rw [hx, hy] at heq
      exact heq.symm

/-- The loop over `j` finds the nearest place to the left at which the last `g` characters recur. -/
theorem findSubpattern_spec (pattern : List (BitVec 8)) (hg : 0 < g) (hglt : g < pattern.length) :
    (findSubpattern pattern (pattern.length - g) g = none ∧
      ∀ d, 1 ≤ d → d < pattern.length → ¬ Recurs pattern g d) ∨
    ∃ d, 1 ≤ d ∧ d < pattern.length ∧
      findSubpattern pattern (pattern.length - g) g = some ((pattern.length - g : Nat) - (d : Int)) ∧
      ∀ d', 1 ≤ d' → d' < d → ¬ Recurs pattern g d' := by
  have hplace : ∀ k : Nat, ((pattern.length - g : Nat) : Int) - 1 - k = (pattern.length - g : Nat) - ((k + 1 : Nat) : Int) := by
    intro k
    push_cast
    ring
  have hiff : ∀ k : Nat, k < pattern.length - 1 →
      (subpattern pattern (pattern.length - g : Nat) ((pattern.length - g : Nat) - 1 - k) g = true ↔
        Recurs pattern g (k + 1)) := by
    intro k hk
    rw [hplace]
    exact subpattern_iff hg hglt (by omega) (by omega)
  rw [findSubpattern, find?_map]
  cases hfind : (range (pattern.length - 1)).find? ((fun j => subpattern pattern (pattern.length - g : Nat) j g) ∘
      fun (k : Nat) => ((pattern.length - g : Nat) : Int) - 1 - k) with
  | none =>
    refine .inl ⟨rfl, ?_⟩
    intro d hd hlt hrec
    have hnone := find?_eq_none.mp hfind (d - 1) (mem_range.mpr (by omega))
    refine hnone ((hiff (d - 1) (by omega)).mpr ?_)
    rwa [Nat.sub_add_cancel hd]
  | some k =>
    obtain ⟨_, hk, hfirst⟩ := find?_range_eq_some.mp hfind
    have hlt := mem_range.mp hk
    refine .inr ⟨k + 1, by omega, by omega, ?_, ?_⟩
    · rw [map_some, hplace]
    · intro d hd hdlt hrec
      have hnot := hfirst (d - 1) (by omega)
      have hsub := (hiff (d - 1) (by omega)).mpr (by rwa [Nat.sub_add_cancel hd])
      rw [comp_apply, hsub] at hnot
      exact absurd hnot (by decide)

theorem goodShiftRounds_of_ne (h : g ≠ n + 1) :
    goodShiftRounds pattern (n + 1) g = goodShiftRounds pattern n g := by
  rw [goodShiftRounds]
  cases findSubpattern pattern (pattern.length - (n + 1)) (n + 1) with
  | some j => exact update_of_ne h _ _
  | none => rfl

theorem goodShiftRounds_zero (n : Nat) : goodShiftRounds pattern n 0 = 1 := by
  induction n with
  | zero => rfl
  | succ n ih => rw [goodShiftRounds_of_ne (succ_ne_zero n).symm, ih]

theorem goodShiftRounds_above (h : n < g) : goodShiftRounds pattern n g = pattern.length := by
  induction n with
  | zero => exact if_neg (ne_of_gt h)
  | succ n ih => rw [goodShiftRounds_of_ne (ne_of_gt h), ih (lt_of_succ_lt h)]

theorem goodShiftRounds_spec (hn : n ≤ pattern.length - 1) (hg : 0 < g) (hgn : g ≤ n) :
    1 ≤ goodShiftRounds pattern n g ∧ goodShiftRounds pattern n g ≤ pattern.length ∧
      ∀ d, 1 ≤ d → d < goodShiftRounds pattern n g → ¬ Recurs pattern g d := by
  induction n with
  | zero => omega
  | succ n ih =>
    by_cases hlast : g = n + 1
    · subst hlast
      rw [goodShiftRounds]
      rcases findSubpattern_spec pattern hg (by omega) with ⟨hnone, hrec⟩ | ⟨d, hd, hdlt, hsome, hrec⟩
      · rw [hnone]
        dsimp only
        rw [goodShiftRounds_above (lt_succ_self n)]
        exact ⟨by omega, le_refl _, hrec⟩
      · have hvalue : ((pattern.length : Int) - (((pattern.length - (n + 1) : Nat) : Int) - d) - (n + 1 : Nat)).toNat =
            d := by omega
        rw [hsome]
        dsimp only
        rw [update_self, hvalue]
        exact ⟨hd, hdlt.le, hrec⟩
    · rw [goodShiftRounds_of_ne hlast]
      exact ih (by omega) (by omega)

/-- `good_shift` leads past no place where what has matched recurs. -/
theorem goodShift_spec (hg : g < pattern.length) :
    1 ≤ (bmInit pattern).goodShift g ∧ (bmInit pattern).goodShift g ≤ pattern.length ∧
      ∀ d, 1 ≤ d → d < (bmInit pattern).goodShift g → ¬ Recurs pattern g d := by
  rcases Nat.eq_zero_or_pos g with rfl | hpos
  · have hone : (bmInit pattern).goodShift 0 = 1 := goodShiftRounds_zero _
    rw [hone]
    exact ⟨le_refl 1, hg, fun d hd hlt => absurd hlt (not_lt.mpr hd)⟩
  · exact goodShiftRounds_spec (le_refl _) hpos (by omega)

end Tables

/-! ## The search -/

section Search

variable {pattern data : List (BitVec 8)}

/-- What `bm_find` is for: the first occurrence, and `UINT_MAX` exactly if there is none. -/
def FindsFirst (pattern data : List (BitVec 8)) (result : BitVec 32) : Prop :=
  (∀ p, IsLeast { p | OccursAt pattern data p } p → result.toNat = p) ∧
    (result = uintMax ↔ ∀ p, ¬ OccursAt pattern data p)

/-- What `bm_find` does: the first occurrence but for the one at the start. -/
def FindsFirstLater (pattern data : List (BitVec 8)) (result : BitVec 32) : Prop :=
  (∃ p, 1 ≤ p ∧ OccursAt pattern data p ∧ (∀ p', 1 ≤ p' → OccursAt pattern data p' → p ≤ p') ∧
    result = BitVec.ofNat 32 p) ∨
  ((∀ p, 1 ≤ p → ¬ OccursAt pattern data p) ∧ result = uintMax)

theorem toNat_sub_ofNat (hk : k ≤ shift.toNat) : (shift - BitVec.ofNat 32 k).toNat = shift.toNat - k := by
  bv_omega

theorem window_getD (hk : k ≤ shift.toNat) (hlt : shift.toNat < data.length) :
    data[shift.toNat - k]? = some (data.getD (shift - BitVec.ofNat 32 k).toNat 0#8) := by
  have hin : shift.toNat - k < data.length := by omega
  rw [toNat_sub_ofNat hk, getD_eq_getElem?_getD, List.getElem?_eq_getElem hin, getD_some]

theorem window_eq_iff (hk : k < pattern.length) (hlow : pattern.length ≤ shift.toNat + 1)
    (hlt : shift.toNat < data.length) : data[shift.toNat - k]? = fromEnd pattern k ↔
      data.getD (shift - BitVec.ofNat 32 k).toNat 0#8 = patternAt pattern (pattern.length - 1 - k : Nat) := by
  rw [window_getD (by omega) hlt, patternAt_fromEnd hk, some_inj]

theorem bmMismatch_none (hlow : pattern.length ≤ shift.toNat + 1) (hlt : shift.toNat < data.length)
    (h : bmMismatch (bmInit pattern) data shift = none) :
    ∀ k < pattern.length, data[shift.toNat - k]? = fromEnd pattern k := by
  intro k hk
  have hno := find?_eq_none.mp h k (mem_range.mpr hk)
  rw [decide_eq_true_iff, not_not] at hno
  exact (window_eq_iff hk hlow hlt).mpr hno

theorem bmMismatch_some {i : Nat} (hlow : pattern.length ≤ shift.toNat + 1) (hlt : shift.toNat < data.length)
    (h : bmMismatch (bmInit pattern) data shift = some i) :
    i < pattern.length ∧ (∀ k < i, data[shift.toNat - k]? = fromEnd pattern k) ∧
      data[shift.toNat - i]? ≠ fromEnd pattern i := by
  obtain ⟨hfail, hi, hbefore⟩ := find?_range_eq_some.mp h
  have hi := mem_range.mp hi
  refine ⟨hi, ?_, ?_⟩
  · intro k hk
    have hno := hbefore k hk
    rw [Bool.not_eq_true', decide_eq_false_iff_not, not_not] at hno
    exact (window_eq_iff (hk.trans hi) hlow hlt).mpr hno
  · intro heq
    rw [decide_eq_true_iff] at hfail
    exact hfail ((window_eq_iff hi hlow hlt).mp heq)

theorem maxInt_toNat {x y : BitVec 32} (hx : x.toNat < 2 ^ 31) (hy : y.toNat < 2 ^ 31) :
    (maxInt x y).toNat = Max.max x.toNat y.toNat := by
  have hxi : x.toInt = x.toNat := toInt_eq_toNat_of_lt (by omega)
  have hyi : y.toInt = y.toNat := toInt_eq_toNat_of_lt (by omega)
  have hslt : y.slt x = true ↔ y.toNat < x.toNat := by
    rw [BitVec.slt, decide_eq_true_iff, hxi, hyi, cast_lt]
  rw [maxInt]
  by_cases h : y.toNat < x.toNat
  · rw [if_pos (hslt.mpr h)]
    omega
  · rw [if_neg (h ∘ hslt.mp)]
    omega

theorem nextShift_spec {i : Nat} (hmem : data.length + pattern.length ≤ 2 ^ 31)
    (hlow : pattern.length ≤ shift.toNat + 1) (hlt : shift.toNat < data.length)
    (h : bmMismatch (bmInit pattern) data shift = some i) {next : BitVec 32} (hnext : next = maxInt
      (shift - BitVec.ofNat 32 i +
        BitVec.ofNat 32 ((bmInit pattern).badShift (data.getD (shift - BitVec.ofNat 32 i).toNat 0#8)))
      (shift + BitVec.ofNat 32 ((bmInit pattern).goodShift i))) :
    shift.toNat < next.toNat ∧ ∀ p, OccursAt pattern data p → shift.toNat ≤ p + pattern.length - 1 →
      next.toNat ≤ p + pattern.length - 1 := by
  obtain ⟨hi, hmatch, hfail⟩ := bmMismatch_some hlow hlt h
  obtain ⟨hbad, hlast⟩ := badShift_spec pattern (data.getD (shift - BitVec.ofNat 32 i).toNat 0#8)
  obtain ⟨hpos, hgood, hrecurs⟩ := goodShift_spec hi
  generalize hb : (bmInit pattern).badShift (data.getD (shift - BitVec.ofNat 32 i).toNat 0#8) = b at *
  generalize hg : (bmInit pattern).goodShift i = g at *
  have hx : (shift - BitVec.ofNat 32 i + BitVec.ofNat 32 b).toNat = shift.toNat - i + b := by
    rw [BitVec.toNat_add, toNat_sub_ofNat (by omega), BitVec.toNat_ofNat]
    omega
  have hy : (shift + BitVec.ofNat 32 g).toNat = shift.toNat + g := by
    rw [BitVec.toNat_add, BitVec.toNat_ofNat]
    omega
  have hmax : next.toNat = Max.max (shift.toNat - i + b) (shift.toNat + g) := by
    rw [hnext, maxInt_toNat (by omega) (by omega), hx, hy]
  refine ⟨by omega, ?_⟩
  intro p hp hle
  -- the window itself does not hold the pattern
  have hafter : shift.toNat < p + pattern.length - 1 := by
    refine lt_of_le_of_ne hle fun heq => hfail ?_
    rw [heq]
    exact hp.fromEnd hi
  have hchar := le_of_badCharacter (window_getD (by omega) hlt) hbad hlast hp hafter
  have hsuffix := le_of_goodSuffix hi hmatch hfail hlow hrecurs hp hafter
  omega

/-- A state of the search in the one block that there is, with what is left to do. -/
def BmInv (pattern data : List (BitVec 8)) (n : Nat) (st : BmState) : Prop :=
  (st.text = [] ∧ ∀ p, 1 ≤ p → ¬ OccursAt pattern data p) ∨
  (st.text = data ∧ st.consumed = 0#32 ∧ n = 1 + (data.length - st.shift.toNat) ∧ pattern.length ≤ st.shift.toNat ∧
    ∀ p, 1 ≤ p → OccursAt pattern data p → st.shift.toNat ≤ p + pattern.length - 1)

theorem bmStep_spec (hpat : pattern ≠ []) (hmem : data.length + pattern.length ≤ 2 ^ 31) {st : BmState}
    (hinv : BmInv pattern data n st) :
    (∃ r, bmStep (bmInit pattern) (getLinearData data) st = some (.inr r) ∧ FindsFirstLater pattern data r) ∨
    ∃ st' n', bmStep (bmInit pattern) (getLinearData data) st = some (.inl st') ∧ n' < n ∧
      BmInv pattern data n' st' := by
  have hlen : 0 < pattern.length := length_pos_iff.mpr hpat
  have hpatlen : (bmInit pattern).patlen = pattern.length := rfl
  by_cases hempty : st.text.length = 0
  · refine .inl ⟨uintMax, by rw [bmStep, if_pos hempty], .inr ⟨?_, rfl⟩⟩
    rcases hinv with ⟨_, hnone⟩ | ⟨htext, _⟩
    · exact hnone
    · intro p _ hp
      have := hp.1
      rw [htext] at hempty
      omega
  rcases hinv with ⟨htext, _⟩ | ⟨htext, hconsumed, hn, hlow, hleft⟩
  · exact absurd (by rw [htext]; rfl) hempty
  rw [bmStep, if_neg hempty, htext]
  rw [htext] at hempty
  by_cases hlt : st.shift.toNat < data.length
  · rw [if_pos hlt]
    cases hmis : bmMismatch (bmInit pattern) data st.shift with
    | none =>
      have hocc := occursAt_of_fromEnd (by omega) hlt (bmMismatch_none (by omega) hlt hmis)
      refine .inl ⟨_, rfl, .inl ⟨_, by omega, hocc, ?_, ?_⟩⟩
      · intro p' hp' hocc'
        have := hleft p' hp' hocc'
        omega
      · rw [hconsumed, hpatlen]
        apply eq_of_toNat_eq
        simp only [toNat_add, toNat_sub, toNat_ofNat]
        omega
    | some i =>
      obtain ⟨hmore, hskip⟩ := nextShift_spec hmem (by omega) hlt hmis rfl
      refine .inr ⟨_, _, rfl, ?_, .inr ⟨rfl, hconsumed, rfl, by dsimp only; omega, ?_⟩⟩
      · dsimp only
        omega
      · intro p hp hocc
        exact hskip p hocc (hleft p hp hocc)
  · rw [if_neg hlt]
    refine .inr ⟨_, 0, rfl, by omega, .inl ⟨?_, ?_⟩⟩
    · dsimp only
      rw [hconsumed, getLinearData, drop_eq_nil_iff, BitVec.zero_add, BitVec.toNat_ofNat]
      omega
    · intro p hp hocc
      have := hleft p hp hocc
      have := hocc.1
      omega

/-- Where `bm_find` is right: the one occurrence that it misses is at the start. -/
theorem FindsFirstLater.findsFirst_iff {r : BitVec 32} (hpat : pattern ≠ [])
    (hmem : data.length + pattern.length ≤ 2 ^ 31) (h : FindsFirstLater pattern data r) :
    FindsFirst pattern data r ↔ ¬ OccursAt pattern data 0 := by
  have hlen : 0 < pattern.length := length_pos_iff.mpr hpat
  have hmax : uintMax.toNat = 2 ^ 32 - 1 := by decide
  have hsmall : ∀ p, OccursAt pattern data p → (BitVec.ofNat 32 p).toNat = p := by
    intro p hp
    have := hp.1
    rw [toNat_ofNat]
    omega
  constructor
  · rintro ⟨hfirst, _⟩ hzero
    have hresult := hfirst 0 ⟨hzero, fun _ _ => zero_le _⟩
    rcases h with ⟨p, hp, hocc, _, rfl⟩ | ⟨_, rfl⟩
    · rw [hsmall p hocc] at hresult
      omega
    · rw [hmax] at hresult
      omega
  · intro hzero
    have hlater : ∀ p, OccursAt pattern data p → 1 ≤ p := by
      intro p hp
      refine Nat.pos_of_ne_zero fun heq => ?_
      rw [heq] at hp
      exact hzero hp
    rcases h with ⟨p, hp, hocc, hleast, rfl⟩ | ⟨hnone, rfl⟩
    · refine ⟨?_, ?_⟩
      · intro p' hp'
        rw [hsmall p hocc]
        exact le_antisymm (hleast p' (hlater p' hp'.1) hp'.1) (hp'.2 hocc)
      · constructor
        · intro heq
          have hn := congrArg BitVec.toNat heq
          have := hocc.1
          rw [hsmall p hocc, hmax] at hn
          omega
        · intro hnone
          exact absurd hocc (hnone p)
    · have hnone' : ∀ p, ¬ OccursAt pattern data p := fun p hp => hnone p (hlater p hp) hp
      exact ⟨fun p hp => absurd hp.1 (hnone' p), ⟨fun _ => hnone', fun _ => rfl⟩⟩

/-- The text and the pattern lie in the kernel's half of the address space. `bm_find` returns, and it returns
the first occurrence, or `UINT_MAX` exactly if there is none, unless the text starts with the pattern. -/
theorem bmFind_first (pattern data : List (BitVec 8)) (hpat : pattern ≠ [])
    (hmem : data.length + pattern.length ≤ 2 ^ 31) (rounds : Nat) (hrounds : data.length + 1 < rounds) :
    ∃ r, bmFind rounds (bmInit pattern) (getLinearData data) 0#32 = some r ∧
      (FindsFirst pattern data r ↔ ¬ OccursAt pattern data 0) := by
  have hpatlen : (BitVec.ofNat 32 (bmInit pattern).patlen).toNat = pattern.length := by
    rw [toNat_ofNat]
    exact mod_eq_of_lt (by omega : pattern.length < 2 ^ 32)
  have hstart : BmInv pattern data (1 + (data.length - pattern.length))
      ⟨0#32, getLinearData data 0#32, BitVec.ofNat 32 (bmInit pattern).patlen⟩ := by
    refine .inr ⟨rfl, rfl, ?_, ?_, ?_⟩
    · rw [hpatlen]
    · rw [hpatlen]
    · intro p hp _
      rw [hpatlen]
      omega
  obtain ⟨r, hrun, hr⟩ := Loop.run_of_measure (fun n st => bmStep_spec hpat hmem) hstart
    (show 1 + (data.length - pattern.length) < rounds by omega)
  exact ⟨r, hrun, hr.findsFirst_iff hpat hmem⟩

/-- The pattern `ab` is found in the text `cabab`. -/
theorem bmFind_first_cabab : ∃ r, bmFind 7 (bmInit [97#8, 98#8]) (getLinearData [99#8, 97#8, 98#8, 97#8, 98#8]) 0#32 =
    some r ∧ FindsFirst [97#8, 98#8] [99#8, 97#8, 98#8, 97#8, 98#8] r := by
  obtain ⟨r, hrun, hr⟩ := bmFind_first [97#8, 98#8] [99#8, 97#8, 98#8, 97#8, 98#8] (by decide) (by decide) 7 (by decide)
  exact ⟨r, hrun, hr.mpr (by decide)⟩

/-- The text `ab` is not found in itself. -/
theorem bmFind_misses_start : OccursAt [97#8, 98#8] [97#8, 98#8] 0 ∧
      bmFind 4 (bmInit [97#8, 98#8]) (getLinearData [97#8, 98#8]) 0#32 = some uintMax := by
  decide

end Search

end Linux
