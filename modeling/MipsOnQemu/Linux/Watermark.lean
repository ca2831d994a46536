/-
# MipsOnQemu.Linux.Watermark -- what the watermark test lets through

`zone_watermark_ok` compares a count that may be negative with unsigned limits, so a negative count
passes every comparison but one with a limit near the greatest word. Here the count is followed as an
integer: the test refuses exactly when the count is in the range of a limit. If the first limit does not
wrap around, its answer 1 can be relied on exactly when no count below 0 gets through (`Zone.Slips`).
-/

import MipsOnQemu.Linux.Buddy

namespace Linux

open BitVec Zone

/-! ## Signed counts in words -/

/-- The words are the integers modulo `2 ^ 32`. -/
theorem ofInt_sub (a b : Int) : BitVec.ofInt 32 (a - b) = BitVec.ofInt 32 a - BitVec.ofInt 32 b :=
  map_sub (Int.castRingHom (BitVec 32)) a b

theorem ofInt_two_pow_mul (n k : Nat) : BitVec.ofNat 32 n <<< k = BitVec.ofInt 32 (n * 2 ^ k : Int) := by
  apply eq_of_toNat_eq
  rw [toNat_shiftLeft, toNat_ofNat, toNat_ofInt, Nat.shiftLeft_eq, Nat.mod_mul_mod]
  norm_cast

theorem ofInt_le_iff {d : Int} (hlow : -2 ^ 31 ≤ d) (hhigh : d < 2 ^ 31) (m : BitVec 32) :
    BitVec.ofInt 32 d ≤ m ↔ (0 ≤ d ∧ d ≤ m.toNat) ∨ (d < 0 ∧ d + 2 ^ 32 ≤ m.toNat) := by
  have hcast : ((2 ^ 32 : Nat) : Int) = 2 ^ 32 := by norm_num
  rw [le_def, toNat_ofInt, hcast]
  omega

theorem ofInt_le_iff_of_half {d : Int} (hlow : -2 ^ 31 ≤ d) (hhigh : d < 2 ^ 31) {m : BitVec 32}
    (hm : m.toNat < 2 ^ 31) : BitVec.ofInt 32 d ≤ m ↔ 0 ≤ d ∧ d ≤ m.toNat := by
  rw [ofInt_le_iff hlow hhigh]
  omega

/-! ## The test -/

/-- The count that `zone_watermark_ok` compares at an order, as an integer: the pages that are left in
blocks of at least that order when `2 ^ order` pages less one are gone. -/
def Zone.left (z : Zone) (order k : Nat) : Int :=
  z.freePages + 1 - 2 ^ order - z.pagesBelow k

/-- The limit it is compared with. -/
def watermarkLimit (min reserve : BitVec 32) (k : Nat) : Nat :=
  if k = 0 then (min + reserve).toNat else min.toNat / 2 ^ k

/-- **Some comparison refuses:** the count is there and does not exceed the limit, or it is below 0
and the first limit is among the greatest words. -/
def Zone.Refuses (z : Zone) (order : Nat) (min reserve : BitVec 32) : Prop :=
  (∃ k ≤ order, 0 ≤ z.left order k ∧ z.left order k ≤ watermarkLimit min reserve k) ∨
    (z.left order 0 < 0 ∧ z.left order 0 + 2 ^ 32 ≤ watermarkLimit min reserve 0)

theorem Zone.left_succ (z : Zone) (order k : Nat) :
    BitVec.ofInt 32 (z.left order k) - BitVec.ofNat 32 (z.freeArea k).nrFree <<< k =
      BitVec.ofInt 32 (z.left order (k + 1)) := by
  rw [ofInt_two_pow_mul, ← ofInt_sub]
  congr 1
  unfold left
  rw [z.pagesBelow_succ]
  push_cast
  ring

variable {z : Zone} {order : Nat}

/-- The counts of a zone of less than `2 ^ 31` pages are signed words. -/
theorem Zone.left_range (hz : z.Counted) (hfit : z.freePages < 2 ^ 31) {k : Nat}
    (horder : order < maxOrder) (hk : k ≤ order) : -2 ^ 31 ≤ z.left order k ∧ z.left order k < 2 ^ 31 := by
  have hpow : 2 ^ order ≤ 2 ^ 10 := Nat.pow_le_pow_right (by omega) (by unfold maxOrder at horder; omega)
  have hpos : 1 ≤ 2 ^ order := Nat.one_le_two_pow
  have hbelow : z.pagesBelow k ≤ z.freePages := by
    rw [hz.freePages]
    exact z.pagesBelow_mono (hk.trans horder.le)
  unfold left
  zify at hpow hpos hbelow hfit
  omega

theorem watermarkLoop_eq_false_iff (hz : z.Counted) (hfit : z.freePages < 2 ^ 31)
    (horder : order < maxOrder) (min reserve : BitVec 32) (rounds o : Nat) (hsum : o + rounds = order) :
    watermarkLoop z rounds o (BitVec.ofInt 32 (z.left order o)) (min >>> o) = false ↔
      ∃ k ≤ order, o < k ∧ 0 ≤ z.left order k ∧ z.left order k ≤ watermarkLimit min reserve k := by
  induction rounds generalizing o with
  | zero => exact iff_of_false Bool.true_eq_false_eq_False fun ⟨k, hk, hlt, _⟩ => by omega
  | succ rounds ih =>
    obtain ⟨hlow, hhigh⟩ := z.left_range hz hfit horder (k := o + 1) (by omega)
    have hlimit : (min >>> (o + 1)).toNat = watermarkLimit min reserve (o + 1) := by
      rw [toNat_ushiftRight, Nat.shiftRight_eq_div_pow, watermarkLimit, if_neg (by omega)]
    have hhalf : (min >>> (o + 1)).toNat < 2 ^ 31 := by
      rw [toNat_ushiftRight, Nat.shiftRight_eq_div_pow]
      have hmin := min.isLt
      have hpow : 2 ≤ 2 ^ (o + 1) := Nat.le_self_pow (by omega) 2
      apply Nat.div_lt_of_lt_mul
      omega
    have hcmp := ofInt_le_iff_of_half hlow hhigh hhalf
    rw [hlimit] at hcmp
    simp only [watermarkLoop, z.left_succ, ← shiftRight_add]
    by_cases hle : BitVec.ofInt 32 (z.left order (o + 1)) ≤ min >>> (o + 1)
    · rw [if_pos hle]
      exact ⟨fun _ => ⟨o + 1, by omega, by omega, hcmp.mp hle⟩, fun _ => rfl⟩
    · rw [if_neg hle, ih (o + 1) (by omega)]
      constructor
      · rintro ⟨k, hk, hlt, h⟩
        exact ⟨k, hk, by omega, h⟩
      · rintro ⟨k, hk, hlt, h⟩
        refine ⟨k, hk, ?_, h⟩
        rcases Nat.lt_or_ge (o + 1) k with hlt' | hge
        · exact hlt'
        · obtain rfl : k = o + 1 := by omega
          exact absurd (hcmp.mpr h) hle

/-- **What the test computes.** -/
theorem zoneWatermarkOk_eq_false_iff (hz : z.Counted) (hfit : z.freePages < 2 ^ 31)
    (horder : order < maxOrder) (mark : BitVec 32) (classzoneIdx : Nat) (allocFlags : BitVec 32) :
    zoneWatermarkOk z order mark classzoneIdx allocFlags = false ↔
      z.Refuses order (reducedMark mark allocFlags) (z.lowmemReserve classzoneIdx) := by
  have hstart : BitVec.ofNat 32 z.freePages - (1#32 <<< order) + 1#32 =
      BitVec.ofInt 32 (z.left order 0) := by
    have hone := ofInt_two_pow_mul 1 order
    rw [hone, ← BitVec.ofInt_natCast, ← ofInt_sub, show (1#32 : BitVec 32) = BitVec.ofInt 32 1 from rfl,
      ← ofInt_add]
    congr 1
    unfold left pagesBelow
    rw [Finset.range_zero, Finset.sum_empty]
    push_cast
    ring
  obtain ⟨hlow, hhigh⟩ := z.left_range hz hfit horder (k := 0) (Nat.zero_le _)
  have hcmp := ofInt_le_iff hlow hhigh (reducedMark mark allocFlags + z.lowmemReserve classzoneIdx)
  have hloop := watermarkLoop_eq_false_iff hz hfit horder (reducedMark mark allocFlags)
    (z.lowmemReserve classzoneIdx) order 0 (Nat.zero_add order)
  have hlimit : watermarkLimit (reducedMark mark allocFlags) (z.lowmemReserve classzoneIdx) 0 =
      (reducedMark mark allocFlags + z.lowmemReserve classzoneIdx).toNat := if_pos rfl
  rw [ushiftRight_zero] at hloop
  simp only [zoneWatermarkOk, hstart]
  rw [← hlimit] at hcmp
  split
  · rename_i hle
    refine ⟨fun _ => ?_, fun _ => rfl⟩
    rcases hcmp.mp hle with hpos | hneg
    · exact .inl ⟨0, Nat.zero_le _, hpos⟩
    · exact .inr hneg
  · rename_i hle
    rw [hloop]
    constructor
    · rintro ⟨k, hk, -, h⟩
      exact .inl ⟨k, hk, h⟩
    · rintro (⟨k, hk, h⟩ | hneg)
      · refine ⟨k, hk, Nat.pos_of_ne_zero fun hzero => hle (hcmp.mpr (.inl ?_)), h⟩
        rw [← hzero]
        exact h
      · exact absurd (hcmp.mpr (.inr hneg)) hle

/-! ## Soundness -/

/-- The mark, reduced by the flags, as a number of pages. -/
def reducedPages (mark : Nat) (allocFlags : BitVec 32) : Nat :=
  let min := if allocFlags &&& allocHigh ≠ 0#32 then mark - mark / 2 else mark
  if allocFlags &&& allocHarder ≠ 0#32 then min - min / 4 else min

theorem toNat_reducedMark (mark allocFlags : BitVec 32) :
    (reducedMark mark allocFlags).toNat = reducedPages mark.toNat allocFlags := by
  have hsub : ∀ (x d : BitVec 32), (x - x / d).toNat = x.toNat - x.toNat / d.toNat := by
    intro x d
    have hle : x / d ≤ x := by
      rw [le_def, toNat_udiv]
      exact Nat.div_le_self _ _
    rw [toNat_sub_of_le hle, toNat_udiv]
  unfold reducedMark reducedPages
  split <;> split <;> simp only [hsub] <;> rfl

/-- The pages in free blocks of the orders from `k` on. -/
def Zone.pagesFrom (z : Zone) (k : Nat) : Nat :=
  ∑ o ∈ Finset.Ico k maxOrder, (z.freeArea o).nrFree * 2 ^ o

/-- What is to be left in blocks of at least an order. -/
def wantedPages (mark reserve k : Nat) : Nat := if k = 0 then mark + reserve else mark / 2 ^ k

/-- **A count below 0 gets through** at order `k`: without `2 ^ order - 1` pages, enough are left at all
lower orders, but in blocks of at least order `k` there are not even so many, and the difference is not so
small that the limit, as a word, is above it. -/
def Zone.Slips (z : Zone) (order mark reserve k : Nat) : Prop :=
  (∀ j < k, 2 ^ order + wantedPages mark reserve j ≤ z.pagesFrom j) ∧ z.pagesFrom k + 1 < 2 ^ order ∧
    wantedPages mark reserve k + 2 ^ order < 2 ^ 32 + (z.pagesFrom k + 1)

theorem Zone.left_eq (hz : z.Counted) (order : Nat) {k : Nat} (hk : k ≤ maxOrder) :
    z.left order k = z.pagesFrom k + 1 - 2 ^ order := by
  have hsum : z.pagesBelow k + z.pagesFrom k = z.freePages := by
    rw [hz.freePages]
    exact Finset.sum_range_add_sum_Ico _ hk
  unfold left
  zify at hsum
  omega

theorem Zone.pagesFrom_anti (z : Zone) {j k : Nat} (hle : j ≤ k) : z.pagesFrom k ≤ z.pagesFrom j :=
  Finset.sum_le_sum_of_subset (Finset.Ico_subset_Ico_left hle)

theorem Zone.hasBlock_of_pagesFrom (hz : z.Counted) (hpos : 0 < z.pagesFrom order) : z.HasBlock order := by
  obtain ⟨o, ho, hne⟩ := Finset.exists_ne_zero_of_sum_ne_zero hpos.ne'
  obtain ⟨hle, hlt⟩ := Finset.mem_Ico.mp ho
  refine ⟨o, hle, hlt, fun hnil => hne ?_⟩
  rw [hz.nrFree o hlt, hnil, List.length_nil, Nat.zero_mul]

section Slips

variable {min reserve : BitVec 32} (hz : z.Counted) (horder : order < maxOrder)
  (hwrap : min.toNat + reserve.toNat < 2 ^ 32)

include hwrap in
theorem watermarkLimit_eq (k : Nat) : watermarkLimit min reserve k = wantedPages min.toNat reserve.toNat k := by
  unfold watermarkLimit wantedPages
  rw [toNat_add, Nat.mod_eq_of_lt hwrap]

include hz horder hwrap in
/-- No comparison refuses where a count gets through. -/
theorem Zone.Slips.not_refuses {k : Nat} (h : z.Slips order min.toNat reserve.toNat k) (hk : k ≤ order) :
    ¬ z.Refuses order min reserve := by
  obtain ⟨hbelow, hfew, hword⟩ := h
  have hpages : ∀ j ≤ order, z.left order j = z.pagesFrom j + 1 - 2 ^ order :=
    fun j hj => z.left_eq hz order (hj.trans horder.le)
  rintro (⟨j, hj, hpos, hle⟩ | ⟨hneg, hle⟩)
  · rw [hpages j hj, watermarkLimit_eq hwrap] at hle
    rw [hpages j hj] at hpos
    rcases Nat.lt_or_ge j k with hlt | hge
    · have henough := hbelow j hlt
      zify at henough
      omega
    · have hanti := z.pagesFrom_anti hge
      zify at hanti hfew
      omega
  · rw [hpages 0 (Nat.zero_le _), watermarkLimit_eq hwrap] at hle
    rw [hpages 0 (Nat.zero_le _)] at hneg
    rcases Nat.eq_zero_or_pos k with rfl | hpos
    · zify at hword
      omega
    · have henough := hbelow 0 hpos
      zify at henough
      omega

include hz horder hwrap in
/-- If none gets through and no comparison refuses, enough is left at every order. -/
theorem enough_of_not_slips (hslips : ∀ k ≤ order, ¬ z.Slips order min.toNat reserve.toNat k)
    (hnot : ¬ z.Refuses order min reserve) :
    ∀ k ≤ order, 2 ^ order + wantedPages min.toNat reserve.toNat k ≤ z.pagesFrom k := by
  intro k
  induction k using Nat.strong_induction_on with
  | h k ih =>
    intro hk
    have hleft := z.left_eq hz order (hk.trans horder.le)
    have hlimit := watermarkLimit_eq hwrap k
    by_contra hfew
    rcases Nat.lt_or_ge (z.pagesFrom k + 1) (2 ^ order) with hlt | hge
    · refine hslips k hk ⟨fun j hj => ih j hj (hj.le.trans hk), hlt, Nat.not_le.mp fun hword => ?_⟩
      rcases Nat.eq_zero_or_pos k with rfl | hpos
      · refine hnot (.inr ?_)
        rw [hleft, hlimit]
        zify at hlt hword
        omega
      · -- the later limits are halves
        have hpow : 2 ^ order ≤ 2 ^ 10 := Nat.pow_le_pow_right (by omega) (by unfold maxOrder at horder; omega)
        have hhalf : wantedPages min.toNat reserve.toNat k ≤ min.toNat / 2 := by
          rw [wantedPages, if_neg (by omega)]
          exact Nat.div_le_div_left (Nat.le_self_pow (by omega) 2) (by omega)
        have hmin := min.isLt
        omega
    · refine hnot (.inl ⟨k, hk, ?_⟩)
      rw [hleft, hlimit]
      zify at hge hfew
      omega

end Slips

/-- **When the answer 1 can be relied on.** -/
theorem zone_watermark_ok_sound_iff {z : Zone} (hz : z.Counted) (hfit : z.freePages < 2 ^ 31)
    {order : Nat} (horder : order < maxOrder) (mark : BitVec 32) (classzoneIdx : Nat) (allocFlags : BitVec 32)
    (hwrap : reducedPages mark.toNat allocFlags + (z.lowmemReserve classzoneIdx).toNat < 2 ^ 32) :
    (zoneWatermarkOk z order mark classzoneIdx allocFlags = true →
      (reducedPages mark.toNat allocFlags + (z.lowmemReserve classzoneIdx).toNat : Int) <
          z.freePages - 2 ^ order + 1 ∧
        z.HasBlock order ∧ (rmqueue z order).1.isSome = true) ↔
      ∀ k ≤ order, ¬ z.Slips order (reducedPages mark.toNat allocFlags)
        (z.lowmemReserve classzoneIdx).toNat k := by
  have hok := zoneWatermarkOk_eq_false_iff hz hfit horder mark classzoneIdx allocFlags
  rw [← toNat_reducedMark] at hwrap ⊢
  rw [rmqueue_isSome_iff]
  constructor
  · intro hsound k hk hslips
    have htrue : zoneWatermarkOk z order mark classzoneIdx allocFlags = true := by
      rw [← Bool.not_eq_false, hok]
      exact hslips.not_refuses hz horder hwrap hk
    have hblock := z.two_pow_le_of_hasBlock hz (hsound htrue).2.1
    have hleft := z.left_eq hz order horder.le
    have hanti := z.pagesFrom_anti hk
    have hfew := hslips.2.1
    unfold left at hleft
    zify at hblock hanti hfew
    omega
  · intro hslips htrue
    have hnot : ¬ z.Refuses order (reducedMark mark allocFlags) (z.lowmemReserve classzoneIdx) := by
      rw [← hok, htrue]
      exact Bool.noConfusion
    have henough := enough_of_not_slips hz horder hwrap hslips hnot
    have hfirst := henough 0 (Nat.zero_le _)
    have hpages : z.freePages = z.pagesFrom 0 := by
      rw [hz.freePages, pagesBelow, pagesFrom, Finset.range_eq_Ico]
    have hblock : z.HasBlock order := by
      apply z.hasBlock_of_pagesFrom hz
      exact (Nat.two_pow_pos order).trans_le ((Nat.le_add_right _ _).trans (henough order le_rfl))
    refine ⟨?_, hblock, hblock⟩
    rw [wantedPages, if_pos rfl, ← hpages] at hfirst
    zify at hfirst
    omega

theorem freshZone_counted : freshZone.Counted := by
  refine ⟨fun _ _ => rfl, ?_⟩
  unfold pagesBelow freshZone
  simp

/-- **The test passes a zone without a free page**, for an order above 0. -/
theorem zoneWatermarkOk_freshZone : freshZone.Counted ∧ zoneWatermarkOk freshZone 1 100#32 0 0#32 = true ∧
      (rmqueue freshZone 1).1 = none :=
  ⟨freshZone_counted, by decide, rfl⟩

/-- A zone with a block of one page and one of eight. -/
def twoBlocks : Zone :=
  { freshZone with
    freePages := 9
    freeArea := fun k => if k = 0 then ⟨[8], 1⟩ else if k = 3 then ⟨[0], 1⟩ else ⟨[], 0⟩ }

/-- It passes the test for two pages above a mark of four, and they are there. -/
theorem zone_watermark_ok_sound_twoBlocks : zoneWatermarkOk twoBlocks 1 4#32 0 0#32 = true ∧
    (reducedPages 4 0#32 + 0 : Int) < 9 - 2 ^ 1 + 1 ∧ twoBlocks.HasBlock 1 ∧
      (rmqueue twoBlocks 1).1.isSome = true := by
  have hcounted : twoBlocks.Counted := ⟨by decide, by decide⟩
  have htrue : zoneWatermarkOk twoBlocks 1 4#32 0 0#32 = true := by decide
  refine ⟨htrue, (zone_watermark_ok_sound_iff hcounted (by decide) (by decide) 4#32 0 0#32 (by decide)).mpr ?_ htrue⟩
  intro k hk hslips
  have hfew : twoBlocks.pagesFrom k + 1 < 2 ^ 1 := hslips.2.1
  have hanti := twoBlocks.pagesFrom_anti hk
  have hone : twoBlocks.pagesFrom 1 = 8 := by decide
  omega

end Linux
