/-
# MipsOnQemu.Linux.BitmapRegion -- regions of a bitmap

The last part of `lib/bitmap.c`: `bitmap_find_free_region`, `bitmap_allocate_region` and
`bitmap_release_region`. A region is a run of `2 ^ order` bits at a multiple of `2 ^ order`. One helper,
`__reg_op`, tests, sets or clears a region through a mask for each of the words it spans; it is exact
for every region (`isFree_iff`, `bitAt_alloc`, `bitAt_release`). The search takes a position that is
not the number of bits for a region it has found, so it is exact only if regions of that size fill the
bitmap, or if it finds one before it comes to the end (`bitmap_regions_exact`).
-/

import MipsOnQemu.Lib.Runs
import MipsOnQemu.Lib.Words
import MipsOnQemu.Linux.Bootmem

namespace Linux

open BitVec Option Nat

def bitsToLongs (bits : Nat) : Nat := (bits + bitsPerLong - 1) / bitsPerLong

/-- The words from the first one of the bitmap on. Behind the last one is other memory. -/
abbrev Longs := Nat → BitVec 32

/-- One bit of the memory, counted from the first bit of the bitmap. -/
def bitAt (bitmap : Longs) (i : Nat) : Bool := (bitmap (i / bitsPerLong)).getLsbD (i % bitsPerLong)

/-! ## `__reg_op` -/

/-- The mask for one word of a region. -/
def regMask (nbitsinlong offset : Nat) : BitVec 32 :=
  let mask := 1#32 <<< (nbitsinlong - 1)
  (mask + (mask - 1#32)) <<< offset

/-- `bitmap[index + i] = f(bitmap[index + i])` for `i` from 0 to `nlongs - 1`. -/
def mapLongs (f : BitVec 32 → BitVec 32) (bitmap : Longs) (index : Nat) : Nat → Longs
  | 0 => bitmap
  | i + 1 =>
    let done := mapLongs f bitmap index i
    Function.update done (index + i) (f (done (index + i)))

/-- What `__reg_op` computes from a position and an order. -/
structure Region where
  index : Nat
  nlongs : Nat
  mask : BitVec 32

def regionAt (pos order : Nat) : Region :=
  let nbitsReg := 2 ^ order
  let index := pos / bitsPerLong
  let offset := pos - index * bitsPerLong
  { index := index
    nlongs := bitsToLongs nbitsReg
    mask := regMask (min nbitsReg bitsPerLong) offset }

def regOpIsFree (bitmap : Longs) (pos order : Nat) : Bool :=
  let reg := regionAt pos order
  (List.range reg.nlongs).all fun i => bitmap (reg.index + i) &&& reg.mask == 0#32

def regOpAlloc (bitmap : Longs) (pos order : Nat) : Longs :=
  let reg := regionAt pos order
  mapLongs (· ||| reg.mask) bitmap reg.index reg.nlongs

def regOpRelease (bitmap : Longs) (pos order : Nat) : Longs :=
  let reg := regionAt pos order
  mapLongs (· &&& ~~~reg.mask) bitmap reg.index reg.nlongs

theorem mapLongs_apply (f : BitVec 32 → BitVec 32) (bitmap : Longs) (index n j : Nat) :
    mapLongs f bitmap index n j =
      if index ≤ j ∧ j < index + n then f (bitmap j) else bitmap j := by
  induction n generalizing j with
  | zero => rw [mapLongs, if_neg (by omega)]
  | succ i ih =>
    rw [mapLongs]
    by_cases hj : j = index + i
    · subst hj
      rw [Function.update_self, ih, if_neg (by omega), if_pos (by omega)]
    · rw [Function.update_of_ne hj, ih]
      exact if_congr (by omega) rfl rfl

theorem getLsbD_regMask {nbits offset : Nat} (hpos : 0 < nbits) (hle : offset + nbits ≤ 32) (k : Nat) :
    (regMask nbits offset).getLsbD k = decide (offset ≤ k ∧ k < offset + nbits) := by
  have hlow : ((1#32 <<< (nbits - 1)) + ((1#32 <<< (nbits - 1)) - 1#32)).toNat = 2 ^ nbits - 1 := by
    have hpow : 2 ^ nbits ≤ 2 ^ 32 := Nat.pow_le_pow_right (by omega) (by omega)
    have hhalf : 2 ^ nbits = 2 * 2 ^ (nbits - 1) := by
      rw [← Nat.pow_succ']
      congr 1
      omega
    have hone := Nat.two_pow_pos (nbits - 1)
    rw [toNat_add, Words.toNat_mask (by omega), Words.toNat_one_shiftLeft (by omega),
      mod_eq_of_lt (by omega)]
    omega
  rw [regMask, getLsbD_shiftLeft, getLsbD, hlow, testBit_two_pow_sub_one]
  by_cases hk : k < 32
  · by_cases hoff : k < offset
    · simp [hk, hoff, not_le.mpr hoff]
    · simp only [hk, hoff, decide_true, decide_false, Bool.not_false, Bool.true_and]
      exact decide_eq_decide.mpr (by omega)
  · simp only [hk, decide_false, Bool.false_and]
    exact (decide_eq_false (by omega)).symm

/-- The region at `pos`. -/
def InRegion (pos order i : Nat) : Prop := pos ≤ i ∧ i < pos + 2 ^ order

instance (pos order i : Nat) : Decidable (InRegion pos order i) := instDecidableAnd

variable {pos order bits : Nat} {bitmap : Longs}

theorem inRegion_iff (halign : 2 ^ order ∣ pos) (i : Nat) : InRegion pos order i ↔
      ((regionAt pos order).index ≤ i / bitsPerLong ∧
        i / bitsPerLong < (regionAt pos order).index + (regionAt pos order).nlongs) ∧
      (regionAt pos order).mask.getLsbD (i % bitsPerLong) := by
  have hsize := Nat.two_pow_pos order
  show _ ↔ (pos / 32 ≤ i / 32 ∧ i / 32 < pos / 32 + (2 ^ order + 32 - 1) / 32) ∧
    (regMask (min (2 ^ order) 32) (pos - pos / 32 * 32)).getLsbD (i % 32) = true
  rw [InRegion]
  rcases Nat.lt_or_ge order 5 with hsmall | hlarge
  · have hdvd : 2 ^ order ∣ 32 := by
      rw [show (32 : Nat) = 2 ^ 5 from rfl]
      exact Nat.pow_dvd_pow 2 hsmall.le
    have hoffset : pos % 32 + 2 ^ order ≤ 32 := by
      have hmod := (Nat.dvd_mod_iff hdvd).mpr halign
      exact Nat.le_of_lt_add_of_dvd (by omega) (Nat.dvd_add hmod dvd_rfl) hdvd
    rw [getLsbD_regMask (by omega) (by omega), decide_eq_true_iff]
    omega
  · have hdvd : 32 ∣ 2 ^ order := by
      rw [show (32 : Nat) = 2 ^ 5 from rfl]
      exact Nat.pow_dvd_pow 2 hlarge
    have hpos := hdvd.trans halign
    rw [getLsbD_regMask (by omega) (by omega), decide_eq_true_iff]
    omega

theorem and_mask_eq_zero_iff (w mask : BitVec 32) :
    w &&& mask = 0#32 ↔ ∀ k, k < 32 → mask.getLsbD k → w.getLsbD k = false := by
  constructor
  · intro h k _ hmask
    have hbit := congrArg (getLsbD · k) h
    simpa [hmask] using hbit
  · intro h
    refine eq_of_getLsbD_eq fun k hk => ?_
    rw [getLsbD_and, getLsbD_zero]
    cases hmask : mask.getLsbD k with
    | false => exact Bool.and_false _
    | true => rw [h k hk hmask, Bool.false_and]

/-- **`REG_OP_ISFREE` is exact.** -/
theorem regOpIsFree_iff (halign : 2 ^ order ∣ pos) (bitmap : Longs) :
    regOpIsFree bitmap pos order ↔ ∀ i, InRegion pos order i → bitAt bitmap i = false := by
  rw [regOpIsFree, List.all_eq_true]
  simp only [List.mem_range, beq_iff_eq, and_mask_eq_zero_iff]
  constructor
  · intro h i hi
    obtain ⟨⟨hlo, hhi⟩, hmask⟩ := (inRegion_iff halign i).mp hi
    have hbit := h (i / bitsPerLong - (regionAt pos order).index) (by omega) (i % bitsPerLong)
      (mod_lt _ (by decide)) hmask
    rwa [Nat.add_sub_cancel' hlo] at hbit
  · intro h j hj k hk hmask
    have hdiv : (32 * ((regionAt pos order).index + j) + k) / 32 = (regionAt pos order).index + j := by omega
    have hmod : (32 * ((regionAt pos order).index + j) + k) % 32 = k := by omega
    have hbit := h (32 * ((regionAt pos order).index + j) + k) ((inRegion_iff halign _).mpr (by
      rw [bitsPerLong, hdiv, hmod]
      exact ⟨⟨Nat.le_add_right _ _, Nat.add_lt_add_left hj _⟩, hmask⟩))
    rwa [bitAt, bitsPerLong, hdiv, hmod] at hbit

/-- **`REG_OP_ALLOC` sets the region** and nothing else. -/
theorem bitAt_alloc (halign : 2 ^ order ∣ pos) (bitmap : Longs) (i : Nat) :
    bitAt (regOpAlloc bitmap pos order) i = (decide (InRegion pos order i) || bitAt bitmap i) := by
  rw [bitAt, regOpAlloc, mapLongs_apply, decide_eq_decide.mpr (inRegion_iff halign i), Bool.decide_and,
    Bool.decide_eq_true]
  split
  · rename_i hword
    rw [decide_eq_true hword, getLsbD_or, Bool.true_and, Bool.or_comm, bitAt]
  · rename_i hword
    rw [decide_eq_false hword, Bool.false_and, Bool.false_or, bitAt]

/-- **`REG_OP_RELEASE` clears the region** and nothing else. -/
theorem bitAt_release (halign : 2 ^ order ∣ pos) (bitmap : Longs) (i : Nat) :
    bitAt (regOpRelease bitmap pos order) i = (!decide (InRegion pos order i) && bitAt bitmap i) := by
  rw [bitAt, regOpRelease, mapLongs_apply, decide_eq_decide.mpr (inRegion_iff halign i), Bool.decide_and,
    Bool.decide_eq_true]
  split
  · rename_i hword
    rw [decide_eq_true hword, getLsbD_and, getLsbD_not,
      decide_eq_true (show i % bitsPerLong < 32 from mod_lt i (by decide)), Bool.true_and,
      Bool.true_and, Bool.and_comm, bitAt]
  · rename_i hword
    rw [decide_eq_false hword, Bool.false_and, Bool.not_false, Bool.true_and, bitAt]

/-! ## The three functions -/

def enomem : Int := -12

def ebusy : Int := -16

variable (bitmap)

/-- The loop of `bitmap_find_free_region`: the position at its end. A position that is no `int` has no
meaning in C. -/
def scanRegions (bits order : Nat) : Nat → Nat → Option Nat
  | 0, _ => none
  | rounds + 1, pos =>
    if pos < bits then
      if regOpIsFree bitmap pos order then some pos
      else if pos + 2 ^ order < 2 ^ 31 then scanRegions bits order rounds (pos + 2 ^ order)
      else none
    else some pos

def bitmapFindFreeRegion (bits order : Nat) : Option (Int × Longs) :=
  (scanRegions bitmap bits order (bits + 1) 0).map fun pos =>
    if pos = bits then (enomem, bitmap)
    else ((pos : Int), regOpAlloc bitmap pos order)

def bitmapReleaseRegion (pos order : Nat) : Longs := regOpRelease bitmap pos order

def bitmapAllocateRegion (pos order : Nat) : Int × Longs :=
  if regOpIsFree bitmap pos order = false then (ebusy, bitmap)
  else (0, regOpAlloc bitmap pos order)

/-! ## What the search finds -/

def RegionClear (pos order : Nat) : Prop :=
  ∀ i, InRegion pos order i → bitAt bitmap i = false

/-- A region of the bitmap is clear. -/
def FreeRegion (bits order : Nat) : Prop :=
  ∃ pos, 2 ^ order ∣ pos ∧ pos + 2 ^ order ≤ bits ∧ RegionClear bitmap pos order

/-- How the loop ends: at a clear region, behind the last region that starts in the bitmap, or with a
position that is no `int`. -/
inductive ScanEnd (bits order : Nat) : Option Nat → Prop
  | found {p : Nat} : p < bits → 2 ^ order ∣ p → RegionClear bitmap p order →
      (∀ q, 2 ^ order ∣ q → q < p → ¬ RegionClear bitmap q order) → ScanEnd bits order (some p)
  | behind {p : Nat} : bits ≤ p → p < bits + 2 ^ order → 2 ^ order ∣ p →
      (∀ q, 2 ^ order ∣ q → q < bits → ¬ RegionClear bitmap q order) → ScanEnd bits order (some p)
  | overflow {p : Nat} : p < bits → 2 ^ order ∣ p → 2 ^ 31 ≤ p + 2 ^ order →
      (∀ q, 2 ^ order ∣ q → q ≤ p → ¬ RegionClear bitmap q order) → ScanEnd bits order none

variable {bitmap}

theorem scanRegions_end {rounds : Nat} (hpos : 2 ^ order ∣ pos) (hbound : pos < bits + 2 ^ order)
    (hsome : 0 < rounds) (hrounds : bits < pos + rounds)
    (hbefore : ∀ q, 2 ^ order ∣ q → q < pos → ¬ RegionClear bitmap q order) :
    ScanEnd bitmap bits order (scanRegions bitmap bits order rounds pos) := by
  induction rounds generalizing pos with
  | zero => omega
  | succ rounds ih =>
    rw [scanRegions]
    by_cases hlt : pos < bits
    · rw [if_pos hlt]
      by_cases hfree : regOpIsFree bitmap pos order
      · rw [if_pos hfree]
        exact .found hlt hpos ((regOpIsFree_iff hpos bitmap).mp hfree) hbefore
      · rw [if_neg hfree]
        have hbusy : ¬ RegionClear bitmap pos order := fun h => hfree ((regOpIsFree_iff hpos bitmap).mpr h)
        have hupto : ∀ q, 2 ^ order ∣ q → q ≤ pos → ¬ RegionClear bitmap q order := by
          intro q hq hle
          rcases lt_or_eq_of_le hle with hlt | rfl
          · exact hbefore q hq hlt
          · exact hbusy
        have hsize := Nat.two_pow_pos order
        split
        · refine ih (hpos.add (dvd_refl _)) (by omega) (by omega) (by omega) fun q hq hqlt => ?_
          exact hupto q hq (le_of_lt_add_of_dvd hqlt hq hpos)
        · exact .overflow hlt hpos (by omega) hupto
    · rw [if_neg hlt]
      exact .behind (not_lt.mp hlt) hbound hpos fun q hq hqlt => hbefore q hq (by omega)

/-! ## Runs -/

inductive RegionOp where
  | find (order : Nat)
  | allocate (pos order : Nat)
  | release (pos order : Nat)
  deriving DecidableEq

/-- Regions that fit, and those given by a position are aligned and inside the bitmap. -/
def RegionOp.Legal (bits : Nat) : RegionOp → Prop
  | .find order => 2 ^ order ≤ bits
  | .allocate pos order => 2 ^ order ∣ pos ∧ pos + 2 ^ order ≤ bits
  | .release pos order => 2 ^ order ∣ pos ∧ pos + 2 ^ order ≤ bits

instance (bits : Nat) : (op : RegionOp) → Decidable (op.Legal bits)
  | .find order => inferInstanceAs (Decidable (2 ^ order ≤ bits))
  | .allocate pos order => inferInstanceAs (Decidable (2 ^ order ∣ pos ∧ pos + 2 ^ order ≤ bits))
  | .release pos order => inferInstanceAs (Decidable (2 ^ order ∣ pos ∧ pos + 2 ^ order ≤ bits))

def regionStep (bits : Nat) (bitmap : Longs) : RegionOp → Option (Int × Longs)
  | .find order => bitmapFindFreeRegion bitmap bits order
  | .allocate pos order => some (bitmapAllocateRegion bitmap pos order)
  | .release pos order => some (0, bitmapReleaseRegion bitmap pos order)

/-- The region at `pos` was clear and is set, and every other bit is as it was. -/
def TakesRegion (bitmap : Longs) (pos order : Nat) (bitmap' : Longs) : Prop :=
  RegionClear bitmap pos order ∧ ∀ i, bitAt bitmap' i = (decide (InRegion pos order i) || bitAt bitmap i)

/-- What an operation may return, and leave in the memory. -/
def RegionSpec (bits : Nat) (bitmap : Longs) (op : RegionOp) (r : Int) (bitmap' : Longs) : Prop :=
  match op with
  | .find order =>
    (∃ pos : Nat, r = pos ∧ 2 ^ order ∣ pos ∧ pos + 2 ^ order ≤ bits ∧ TakesRegion bitmap pos order bitmap') ∨
      (r = enomem ∧ ¬ FreeRegion bitmap bits order ∧ bitmap' = bitmap)
  | .allocate pos order =>
    (r = 0 ∧ TakesRegion bitmap pos order bitmap') ∨
      (r = ebusy ∧ ¬ RegionClear bitmap pos order ∧ bitmap' = bitmap)
  | .release pos order =>
    r = 0 ∧ ∀ i, bitAt bitmap' i = (!decide (InRegion pos order i) && bitAt bitmap i)

/-- An operation returns what it may. -/
def RegionExact (bits : Nat) (bitmap : Longs) (op : RegionOp) : Prop :=
  ∃ p, regionStep bits bitmap op = some p ∧ RegionSpec bits bitmap op p.1 p.2

/-- Regions of the size asked for fill the bitmap, or one of them is clear. -/
def RegionFits (bits : Nat) (bitmap : Longs) : RegionOp → Prop
  | .find order => 2 ^ order ∣ bits ∨ FreeRegion bitmap bits order
  | .allocate _ _ => True
  | .release _ _ => True

theorem bitmapAllocateRegion_spec (halign : 2 ^ order ∣ pos) :
    RegionExact bits bitmap (.allocate pos order) := by
  refine ⟨_, rfl, ?_⟩
  rw [bitmapAllocateRegion]
  by_cases hfree : regOpIsFree bitmap pos order = false
  · rw [if_pos hfree]
    refine .inr ⟨rfl, fun hclear => ?_, rfl⟩
    rw [(regOpIsFree_iff halign bitmap).mpr hclear] at hfree
    cases hfree
  · rw [if_neg hfree]
    have hclear := (regOpIsFree_iff halign bitmap).mp (Bool.eq_true_of_not_eq_false hfree)
    exact .inl ⟨rfl, hclear, bitAt_alloc halign bitmap⟩

/-- A position that is taken for a region is right if and only if the region is one of the bitmap and
was clear. -/
theorem find_spec_iff {p : Nat} (hdvd : 2 ^ order ∣ p) :
    RegionSpec bits bitmap (.find order) p (regOpAlloc bitmap p order) ↔
      p + 2 ^ order ≤ bits ∧ RegionClear bitmap p order := by
  constructor
  · rintro (⟨pos, hpos, -, hle, hclear, -⟩ | ⟨herror, -⟩)
    · obtain rfl := Int.ofNat_inj.mp hpos
      exact ⟨hle, hclear⟩
    · exact absurd herror (by rw [enomem]; omega)
  · rintro ⟨hle, hclear⟩
    exact .inl ⟨p, rfl, hdvd, hle, hclear, bitAt_alloc hdvd bitmap⟩

/-- **`bitmap_find_free_region` is exact** if and only if regions of that size fill the bitmap or one
of them is clear. -/
theorem bitmapFindFreeRegion_spec (hbits : bits < 2 ^ 31) :
    RegionExact bits bitmap (.find order) ↔ RegionFits bits bitmap (.find order) := by
  have hsize := Nat.two_pow_pos order
  have hend : ScanEnd bitmap bits order (scanRegions bitmap bits order (bits + 1) 0) :=
    scanRegions_end (dvd_zero _) (by omega) (by omega) (by omega) fun q _ hq => absurd hq (Nat.not_lt_zero q)
  show (∃ p, bitmapFindFreeRegion bitmap bits order = some p ∧ _) ↔ _
  rw [bitmapFindFreeRegion]
  generalize scanRegions bitmap bits order (bits + 1) 0 = result at hend
  cases hend with
  | @found p hlt hdvd hclear hbefore =>
    simp only [map_some, if_neg (Nat.ne_of_lt hlt), some.injEq, exists_eq_left']
    rw [find_spec_iff hdvd]
    constructor
    · rintro ⟨hle, -⟩
      exact .inr ⟨p, hdvd, hle, hclear⟩
    · refine fun hfits => ⟨Nat.not_lt.mp fun hover => ?_, hclear⟩
      rcases hfits with hfill | ⟨q, hq, hle, hqclear⟩
      · exact absurd (Nat.le_of_lt_add_of_dvd hover hfill hdvd) (by omega)
      · exact hbefore q hq (by omega) hqclear
  | @behind p hge hlt hdvd hnone =>
    have hfree : ¬ FreeRegion bitmap bits order := by
      rintro ⟨q, hq, hle, hclear⟩
      exact hnone q hq (by omega) hclear
    by_cases hp : p = bits
    · simp only [map_some, if_pos hp, some.injEq, exists_eq_left']
      exact ⟨fun _ => .inl (hp ▸ hdvd), fun _ => .inr ⟨rfl, hfree, rfl⟩⟩
    · simp only [map_some, if_neg hp, some.injEq, exists_eq_left']
      rw [find_spec_iff hdvd]
      refine ⟨fun h => absurd h.1 (by omega), fun hfits => ?_⟩
      exact absurd (Nat.le_of_lt_add_of_dvd hlt hdvd (hfits.resolve_right hfree)) (by omega)
  | @overflow p hlt hdvd hge hnone =>
    simp only [map_none, reduceCtorEq, false_and, exists_false, false_iff]
    rintro (hfill | ⟨q, hq, hle, hclear⟩)
    · exact absurd (Nat.le_of_lt_add_of_dvd (by omega) hfill hdvd) (by omega)
    · exact hnone q hq (by omega) hclear

theorem regionExact_iff (hbits : bits < 2 ^ 31) {op : RegionOp} (hlegal : op.Legal bits) :
    RegionExact bits bitmap op ↔ RegionFits bits bitmap op := by
  cases op with
  | find order => exact bitmapFindFreeRegion_spec hbits
  | allocate pos order => exact iff_of_true (bitmapAllocateRegion_spec hlegal.1) trivial
  | release pos order => exact iff_of_true ⟨_, rfl, rfl, bitAt_release hlegal.1 bitmap⟩ trivial

/-- **Region allocation is exact.** In a run of searches, allocations and releases, from any bitmap,
every operation returns what it may, and leaves every bit it should, if and only if every search meets
regions that fill the bitmap or a region that is clear. -/
theorem bitmap_regions_exact {bits : Nat} (hbits : bits < 2 ^ 31) (bitmap : Longs) {ops : List RegionOp}
    (hlegal : ∀ op ∈ ops, op.Legal bits) : Runs.Along (regionStep bits) (RegionExact bits) bitmap ops ↔
      Runs.Along (regionStep bits) (RegionFits bits) bitmap ops :=
  Runs.along_congr (P := RegionOp.Legal bits) (fun _ _ hop => regionExact_iff hbits hop) hlegal bitmap

/-- A bitmap of 64 bits: one word is taken and released, and then the whole bitmap is taken, which
leaves nothing for the last search. -/
theorem bitmap_regions_exact_words : Runs.Along (regionStep 64) (RegionExact 64) (fun _ => 0#32)
      [.find 5, .release 0 5, .find 6, .find 6] :=
  (bitmap_regions_exact (by decide) _ (by decide)).mpr
    ⟨.inl (by decide), fun _ _ => ⟨trivial, fun _ _ => ⟨.inl (by decide), fun _ _ =>
      ⟨.inl (by decide), fun _ _ => trivial⟩⟩⟩⟩

/-- **A region behind the bitmap.** In a bitmap of three bits, of which the first two are set, the
search for a pair takes the third bit and one that is not of the bitmap. -/
theorem find_free_region_behind : ¬ RegionExact 3 (fun _ => 3#32) (.find 1) ∧
      bitmapFindFreeRegion (fun _ => 3#32) 3 1 = some (2, regOpAlloc (fun _ => 3#32) 2 1) := by
  refine ⟨fun hexact => ?_, rfl⟩
  rcases (bitmapFindFreeRegion_spec (by decide)).mp hexact with hfill | ⟨pos, hdvd, hle, hclear⟩
  · exact absurd hfill (by decide)
  · obtain rfl : pos = 0 := by omega
    exact absurd (hclear 0 (by decide)) (by decide)

end Linux
