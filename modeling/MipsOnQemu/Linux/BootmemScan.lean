/-
# MipsOnQemu.Linux.BootmemScan -- what the search of the boot allocator finds

What the search returns is an aligned run of free pages. It does not find every such run: after a
busy page inside a candidate it goes to the next aligned page and one step further, so if the busy
page is not an aligned one, the aligned page behind it is passed over (`passedOver`). It finds nothing
exactly if all runs are passed over (`scanArea_eq_none_iff`), from the preferred page and from the first.
-/

import MipsOnQemu.Linux.BootmemRetire

namespace Linux

open Nat Bootmem

variable (map : Nat → Bool) {eidx incr area : Nat}

def FreeRun (eidx area c : Nat) : Prop :=
  c + area ≤ eidx ∧ ∀ k, c ≤ k → k < c + area → map k = false

/-! ## The two inner loops -/

theorem findNextZeroBit_spec (left i : Nat) :
    i ≤ findNextZeroBit map left i ∧ findNextZeroBit map left i ≤ i + left ∧
      ∀ k, i ≤ k → k < findNextZeroBit map left i → map k = true := by
  induction left generalizing i with
  | zero => exact ⟨le_rfl, le_rfl, fun k hik hk => absurd hk (not_lt.mpr hik)⟩
  | succ left ih =>
    unfold findNextZeroBit
    split
    · rename_i hset
      obtain ⟨hle, hub, hbusy⟩ := ih (i + 1)
      refine ⟨by omega, by omega, fun k hik hk => ?_⟩
      rcases eq_or_lt_of_le hik with rfl | hlt
      · exact hset
      · exact hbusy k hlt hk
    · exact ⟨le_rfl, by omega, fun k hik hk => absurd hk (not_lt.mpr hik)⟩

theorem findNextZeroBit_clear {left i : Nat} (h : findNextZeroBit map left i < i + left) :
    map (findNextZeroBit map left i) = false := by
  induction left generalizing i with
  | zero => exact absurd h (lt_irrefl _)
  | succ left ih =>
    rw [findNextZeroBit] at h ⊢
    by_cases hbit : map i = true
    · rw [if_pos hbit] at h ⊢
      exact ih (by omega)
    · rw [if_neg hbit]
      exact Bool.eq_false_of_not_eq_true hbit

/-- `find_next_bit` among the next `left` bits. -/
def findNextBit (left i : Nat) : Nat := findNextZeroBit (fun k => !map k) left i

theorem findNextBit_spec (left i : Nat) : i ≤ findNextBit map left i ∧ findNextBit map left i ≤ i + left ∧
      (∀ k, i ≤ k → k < findNextBit map left i → map k = false) ∧
      (findNextBit map left i < i + left → map (findNextBit map left i) = true) := by
  obtain ⟨hge, hle, hclear⟩ := findNextZeroBit_spec (fun k => !map k) left i
  refine ⟨hge, hle, fun k hk hlt => ?_, fun hlt => ?_⟩
  · simpa using hclear k hk hlt
  · simpa [findNextBit] using findNextZeroBit_clear (fun k => !map k) hlt

variable {map}

theorem failBlock_eq_none_iff (n j : Nat) :
    failBlock map eidx n j = none ↔ ∀ k, j ≤ k → k < j + n → k < eidx ∧ map k = false := by
  induction n generalizing j with
  | zero =>
    refine ⟨fun _ k hjk hk => ?_, fun _ => rfl⟩
    omega
  | succ n ih =>
    unfold failBlock
    by_cases hend : eidx ≤ j
    · rw [if_pos hend]
      refine ⟨fun h => absurd h (Option.some_ne_none _), fun h => ?_⟩
      have hlt := (h j le_rfl (by omega)).1
      omega
    · rw [if_neg hend]
      cases hbit : map j with
      | true =>
        refine ⟨fun h => absurd h (Option.some_ne_none _), fun h => ?_⟩
        have hclear := (h j le_rfl (by omega)).2
        rw [hbit] at hclear
        cases hclear
      | false =>
        rw [if_neg Bool.false_ne_true, ih]
        constructor
        · intro h k hjk hk
          rcases eq_or_lt_of_le hjk with rfl | hlt
          · exact ⟨by omega, hbit⟩
          · exact h k hlt (by omega)
        · exact fun h k hjk hk => h k (by omega) (by omega)

theorem failBlock_eq_some {n j j' : Nat} (hj : j ≤ eidx) (h : failBlock map eidx n j = some j') :
    j ≤ j' ∧ j' < j + n ∧ j' ≤ eidx ∧ (eidx ≤ j' ∨ map j' = true) := by
  induction n generalizing j with
  | zero => cases h
  | succ n ih =>
    unfold failBlock at h
    split at h
    · cases h
      exact ⟨le_rfl, by omega, by omega, .inl ‹_›⟩
    · split at h
      · cases h
        exact ⟨le_rfl, by omega, by omega, .inr ‹_›⟩
      · obtain ⟨hle, hlt, hub, hbusy⟩ := ih (by omega) h
        exact ⟨by omega, by omega, hub, hbusy⟩

/-- The pages before the one where the loop gives up are free. -/
theorem failBlock_free {n j j' : Nat} (h : failBlock map eidx n j = some j') :
    ∀ k, j ≤ k → k < j' → map k = false := by
  induction n generalizing j with
  | zero => cases h
  | succ n ih =>
    unfold failBlock at h
    intro k hk hlt
    split at h
    · cases h
      omega
    · split at h
      · cases h
        omega
      · rcases eq_or_lt_of_le hk with rfl | hgt
        · exact Bool.eq_false_of_not_eq_true ‹_›
        · exact ih h k hgt hlt

/-! ## What is passed over -/

/-- The aligned pages from `start` on. -/
def alignedPage (incr start m : Nat) : Nat := start + m * incr

/-- A stride that begins with a free page and has a busy one. -/
def gap (map : Nat → Bool) (incr p : Nat) : Bool := !map p && (List.range' (p + 1) (incr - 1)).any map

/-- **The aligned pages that a search from `start` passes over:** those behind a gap that it does not pass
over. So in a row of gaps every other one has its turn. -/
def passedOver (map : Nat → Bool) (incr start : Nat) : Nat → Bool
  | 0 => false
  | m + 1 => !passedOver map incr start m && gap map incr (alignedPage incr start m)

theorem gap_eq_true_iff {p : Nat} :
    gap map incr p = true ↔ map p = false ∧ ∃ j, p < j ∧ j < p + incr ∧ map j = true := by
  simp only [gap, Bool.and_eq_true, Bool.not_eq_true', List.any_eq_true, List.mem_range'_1]
  refine and_congr_right fun _ => exists_congr fun j => ?_
  constructor
  · rintro ⟨⟨h1, h2⟩, h3⟩
    exact ⟨h1, by omega, h3⟩
  · rintro ⟨h1, h2, h3⟩
    exact ⟨⟨h1, by omega⟩, h3⟩

section Pages

variable {start m n : Nat}

theorem alignedPage_succ (incr start m : Nat) : alignedPage incr start (m + 1) = alignedPage incr start m + incr := by
  unfold alignedPage
  ring

theorem alignedPage_add_le (incr start : Nat) (h : m < n) : alignedPage incr start m + incr ≤ alignedPage incr start n := by
  rw [← alignedPage_succ]
  exact Nat.add_le_add_left (Nat.mul_le_mul_right incr h) start

theorem alignedPage_le (incr start : Nat) (h : m ≤ n) : alignedPage incr start m ≤ alignedPage incr start n :=
  Nat.add_le_add_left (Nat.mul_le_mul_right incr h) start

theorem lt_of_alignedPage_lt (h : alignedPage incr start m < alignedPage incr start n) : m < n :=
  lt_of_not_ge fun hle => absurd h (not_lt.mpr (alignedPage_le incr start hle))

theorem exists_alignedPage {c : Nat} (hstart : incr ∣ start) (hc : incr ∣ c) (hle : start ≤ c) :
    ∃ m, c = alignedPage incr start m := by
  obtain ⟨m, hm⟩ := Nat.dvd_sub hc hstart
  refine ⟨m, ?_⟩
  unfold alignedPage
  rw [Nat.mul_comm, ← hm]
  omega

/-- Behind a busy aligned page, or a stride of free pages, nothing is passed over. -/
theorem passedOver_of_busy (h : map (alignedPage incr start m) = true) :
    passedOver map incr start (m + 1) = false := by
  simp [passedOver, gap, h]

theorem passedOver_of_free
    (h : ∀ k, alignedPage incr start m ≤ k → k < alignedPage incr start (m + 1) → map k = false) :
    passedOver map incr start (m + 1) = false := by
  have hgap : gap map incr (alignedPage incr start m) = false := by
    rw [← Bool.not_eq_true, gap_eq_true_iff]
    rintro ⟨-, j, hj, hlt, hbusy⟩
    rw [h j hj.le (by rwa [alignedPage_succ])] at hbusy
    cases hbusy
  simp [passedOver, hgap]

/-- In a row of free pages nothing is passed over, if the first one is not. -/
theorem passedOver_of_row {j : Nat} (hm : passedOver map incr start m = false)
    (hfree : ∀ k, alignedPage incr start m ≤ k → k < j → map k = false) (hle : m ≤ n)
    (hj : alignedPage incr start n ≤ j) : passedOver map incr start n = false := by
  induction n, hle using le_induction with
  | base => exact hm
  | succ n hle _ =>
    refine passedOver_of_free fun k hk hlt => hfree k ?_ (by omega)
    exact (alignedPage_le incr start hle).trans hk

end Pages

/-! ## The search -/

section Search

variable {s : Nat} (hs : s < 20) (heidx : eidx < 2 ^ 20)

include hs heidx

theorem alignUp_step {x : Nat} (hx : x ≤ eidx) :
    x ≤ alignUp x (2 ^ s) ∧ alignUp x (2 ^ s) < x + 2 ^ s ∧ 2 ^ s ∣ alignUp x (2 ^ s) := by
  apply alignUp_spec
  have hpow : 2 ^ s ≤ 2 ^ 19 := Nat.pow_le_pow_right (by omega) (by omega)
  omega

variable {rounds i : Nat}

/-- **What the search returns is an aligned run of free pages.** -/
theorem scanArea_sound {start : Nat} (h : scanArea map eidx (2 ^ s) area rounds i = some start) :
    i ≤ start ∧ start < eidx ∧ 2 ^ s ∣ start ∧ map start = false ∧
      failBlock map eidx (area - 1) (start + 1) = none := by
  induction rounds generalizing i with
  | zero => cases h
  | succ rounds ih =>
    unfold scanArea at h
    by_cases hend : eidx ≤ i
    · rw [if_pos hend] at h
      cases h
    rw [if_neg hend] at h
    obtain ⟨hzero, hub, -⟩ := findNextZeroBit_spec map (eidx - i) i
    obtain ⟨hge, -, hdvd⟩ := alignUp_step hs heidx (x := findNextZeroBit map (eidx - i) i) (by omega)
    dsimp only at h
    generalize alignUp (findNextZeroBit map (eidx - i) i) (2 ^ s) = p at h hge hdvd
    by_cases hp : eidx ≤ p
    · rw [if_pos hp] at h
      cases h
    rw [if_neg hp] at h
    have hpos := Nat.two_pow_pos s
    cases hbit : map p with
    | true =>
      rw [hbit, if_pos rfl] at h
      obtain ⟨hle, hrest⟩ := ih h
      exact ⟨by omega, hrest⟩
    | false =>
      rw [hbit, if_neg Bool.false_ne_true] at h
      cases hfail : failBlock map eidx (area - 1) (p + 1) with
      | none =>
        rw [hfail] at h
        cases h
        exact ⟨by omega, by omega, hdvd, hbit, hfail⟩
      | some j =>
        rw [hfail] at h
        obtain ⟨hj, -, hjub, -⟩ := failBlock_eq_some (by omega) hfail
        obtain ⟨hjge, -, -⟩ := alignUp_step hs heidx hjub
        obtain ⟨hle, hrest⟩ := ih h
        exact ⟨by omega, hrest⟩

omit hs heidx in
theorem freeRun_of_failBlock {start : Nat} (harea : 0 < area) (hlt : start < eidx) (hbit : map start = false)
    (hfail : failBlock map eidx (area - 1) (start + 1) = none) : FreeRun map eidx area start := by
  rw [failBlock_eq_none_iff] at hfail
  refine ⟨?_, fun k hk hk' => ?_⟩
  · by_contra hover
    have hlast := hfail (start + area - 1) (by omega) (by omega)
    omega
  · rcases eq_or_lt_of_le hk with rfl | hgt
    · exact hbit
    · exact (hfail k hgt (by omega)).2

theorem scanArea_freeRun {start : Nat} (harea : 0 < area)
    (h : scanArea map eidx (2 ^ s) area rounds i = some start) : FreeRun map eidx area start := by
  obtain ⟨-, hlt, -, hbit, hfail⟩ := scanArea_sound hs heidx h
  exact freeRun_of_failBlock harea hlt hbit hfail

omit hs heidx in
theorem scanArea_end {incr : Nat} (hi : eidx ≤ i) : scanArea map eidx incr area rounds i = none := by
  cases rounds with
  | zero => rfl
  | succ rounds => rw [scanArea, if_pos hi]

section Strides

variable {start m : Nat} (hstart : 2 ^ s ∣ start)
include hstart

omit hs heidx in
theorem dvd_alignedPage (n : Nat) : 2 ^ s ∣ alignedPage (2 ^ s) start n := dvd_add hstart (Nat.dvd_mul_left _ n)

/-- The next candidate: the aligned pages before it are busy. -/
theorem exists_candidate (hm : passedOver map (2 ^ s) start m = false)
    (hend : alignedPage (2 ^ s) start m < eidx) : ∃ n, m ≤ n ∧
      alignUp (findNextZeroBit map (eidx - alignedPage (2 ^ s) start m) (alignedPage (2 ^ s) start m)) (2 ^ s) =
        alignedPage (2 ^ s) start n ∧
      passedOver map (2 ^ s) start n = false ∧
      ∀ k, m ≤ k → k < n → map (alignedPage (2 ^ s) start k) = true := by
  obtain ⟨hzero, hub, hbusy⟩ := findNextZeroBit_spec map (eidx - alignedPage (2 ^ s) start m)
    (alignedPage (2 ^ s) start m)
  generalize findNextZeroBit map (eidx - alignedPage (2 ^ s) start m) (alignedPage (2 ^ s) start m) = z at *
  obtain ⟨hge, hlt, hmul⟩ := alignUp_step hs heidx (x := z) (by omega)
  obtain ⟨n, hn⟩ : ∃ n, alignUp z (2 ^ s) = alignedPage (2 ^ s) start n :=
    exists_alignedPage hstart hmul ((Nat.le_add_right _ _).trans (hzero.trans hge))
  have hall : ∀ k, m ≤ k → k < n → map (alignedPage (2 ^ s) start k) = true := by
    intro k hk hkn
    have hle := alignedPage_add_le (2 ^ s) start hkn
    exact hbusy _ (alignedPage_le (2 ^ s) start hk) (by omega)
  have hmn : m ≤ n := by
    by_contra hgt
    have hle := alignedPage_add_le (2 ^ s) start (not_le.mp hgt)
    have hpos := Nat.two_pow_pos s
    omega
  refine ⟨n, hmn, hn, ?_, hall⟩
  rcases eq_or_lt_of_le hmn with rfl | hgt
  · exact hm
  · obtain ⟨k, rfl⟩ := Nat.exists_eq_succ_of_ne_zero (by omega : n ≠ 0)
    exact passedOver_of_busy (hall k (by omega) (lt_add_one k))

/-- Where the search goes on from a candidate with a busy page: the runs before that are passed over. -/
theorem exists_next {j : Nat} (hm : passedOver map (2 ^ s) start m = false)
    (hclear : map (alignedPage (2 ^ s) start m) = false)
    (hlow : alignedPage (2 ^ s) start m < eidx)
    (hfail : failBlock map eidx (area - 1) (alignedPage (2 ^ s) start m + 1) = some j) (hj : j < eidx) :
    ∃ q, m < q ∧ alignUp j (2 ^ s) = alignedPage (2 ^ s) start q ∧
      passedOver map (2 ^ s) start (q + 1) = false ∧
      ∀ k, m ≤ k → k ≤ q → FreeRun map eidx area (alignedPage (2 ^ s) start k) →
        passedOver map (2 ^ s) start k = true := by
  obtain ⟨hgt, hjlt, -, hobstacle⟩ := failBlock_eq_some hlow hfail
  have hbusy : map j = true := hobstacle.resolve_left (not_le.mpr hj)
  have hfree : ∀ k, alignedPage (2 ^ s) start m ≤ k → k < j → map k = false := by
    intro k hk hlt
    rcases eq_or_lt_of_le hk with rfl | hk
    · exact hclear
    · exact failBlock_free hfail k hk hlt
  obtain ⟨hge, hlt, hmul⟩ := alignUp_step hs heidx hj.le
  obtain ⟨q, hq⟩ := exists_alignedPage hstart hmul
    ((Nat.le_add_right start _).trans ((Nat.le_of_lt hgt).trans hge))
  rw [hq] at hge hlt
  have hmq : m < q := lt_of_alignedPage_lt (lt_of_lt_of_le hgt hge)
  -- what holds of the aligned pages up to the busy one
  have hrow : ∀ k, m ≤ k → alignedPage (2 ^ s) start k ≤ j → passedOver map (2 ^ s) start k = false :=
    fun k hk hle => passedOver_of_row hm hfree hk hle
  -- the page behind the busy one is passed over, if that is not aligned
  have hpassed : j < alignedPage (2 ^ s) start q → passedOver map (2 ^ s) start q = true := by
    intro hjq
    obtain ⟨p, rfl⟩ := Nat.exists_eq_succ_of_ne_zero (by omega : q ≠ 0)
    rw [alignedPage_succ] at hlt hjq
    have hpm : m ≤ p := by omega
    have hple := alignedPage_le (2 ^ s) start hpm
    have hgap : gap map (2 ^ s) (alignedPage (2 ^ s) start p) = true :=
      gap_eq_true_iff.mpr ⟨hfree _ hple (by omega), j, by omega, hjq, hbusy⟩
    rw [passedOver, hrow p hpm (by omega), hgap]
    rfl
  refine ⟨q, hmq, hq, ?_, fun k hk hkq hrun => ?_⟩
  · rcases eq_or_lt_of_le hge with heq | hjq
    · exact passedOver_of_busy (heq ▸ hbusy)
    · rw [passedOver, hpassed hjq]
      rfl
  · rcases le_or_gt (alignedPage (2 ^ s) start k) j with hle | hjk
    · -- the busy page is inside
      have hmk := alignedPage_le (2 ^ s) start hk
      rw [hrun.2 j hle (by omega)] at hbusy
      cases hbusy
    · have hkeq : k = q := by
        by_contra hne
        have hadd := alignedPage_add_le (2 ^ s) start (lt_of_le_of_ne hkq hne)
        omega
      rw [hkeq] at hjk ⊢
      exact hpassed hjk

/-- **Nothing is found exactly if every run is passed over.** -/
theorem scanArea_eq_none_iff (harea : 0 < area) (hm : passedOver map (2 ^ s) start m = false)
    (hrounds : eidx < alignedPage (2 ^ s) start m + rounds) :
    scanArea map eidx (2 ^ s) area rounds (alignedPage (2 ^ s) start m) = none ↔
      ∀ n, m ≤ n → FreeRun map eidx area (alignedPage (2 ^ s) start n) →
        passedOver map (2 ^ s) start n = true := by
  -- a run lies below the end and begins with a free page
  have hrun : ∀ n, FreeRun map eidx area (alignedPage (2 ^ s) start n) →
      alignedPage (2 ^ s) start n < eidx ∧ map (alignedPage (2 ^ s) start n) = false :=
    fun n h => ⟨by have := h.1; omega, h.2 _ le_rfl (by omega)⟩
  have hover : ∀ {m n}, eidx ≤ alignedPage (2 ^ s) start m → m ≤ n →
      ¬ FreeRun map eidx area (alignedPage (2 ^ s) start n) := by
    intro m n hend hle h
    have hlt := (hrun n h).1
    have hmono := alignedPage_le (2 ^ s) start hle
    omega
  induction rounds generalizing m with
  | zero => exact iff_of_true rfl fun n hn h => absurd h (hover (by omega) hn)
  | succ rounds ih =>
    rw [scanArea]
    by_cases hend : eidx ≤ alignedPage (2 ^ s) start m
    · rw [if_pos hend]
      exact iff_of_true rfl fun n hn h => absurd h (hover hend hn)
    obtain ⟨p, hmp, hp, hpassed, hbusy⟩ := exists_candidate hs heidx hstart hm (not_le.mp hend)
    have hskip : ∀ n, m ≤ n → n < p → ¬ FreeRun map eidx area (alignedPage (2 ^ s) start n) := by
      intro n hn hlt h
      have hset := hbusy n hn hlt
      rw [(hrun n h).2] at hset
      cases hset
    have hfrom : (∀ n, m ≤ n → FreeRun map eidx area (alignedPage (2 ^ s) start n) →
        passedOver map (2 ^ s) start n = true) ↔
          ∀ n, p ≤ n → FreeRun map eidx area (alignedPage (2 ^ s) start n) → passedOver map (2 ^ s) start n = true := by
      refine ⟨fun h n hn => h n (hmp.trans hn), fun h n hn hfree => ?_⟩
      rcases lt_or_ge n p with hlt | hge
      · exact absurd hfree (hskip n hn hlt)
      · exact h n hge hfree
    have hmp' := alignedPage_le (2 ^ s) start hmp
    have hpos := Nat.two_pow_pos s
    rw [hfrom, if_neg hend]
    dsimp only
    rw [hp]
    by_cases hlow : eidx ≤ alignedPage (2 ^ s) start p
    · rw [if_pos hlow]
      exact iff_of_true rfl fun n hn h => absurd h (hover hlow hn)
    rw [if_neg hlow]
    cases hbit : map (alignedPage (2 ^ s) start p) with
    | true =>
      have hrest := ih (passedOver_of_busy hbit) (by rw [alignedPage_succ]; omega)
      rw [if_pos rfl, ← alignedPage_succ]
      refine hrest.trans ⟨fun h n hn hfree => ?_, fun h n hn => h n (by omega)⟩
      rcases eq_or_lt_of_le hn with rfl | hgt
      · rw [(hrun p hfree).2] at hbit
        cases hbit
      · exact h n hgt hfree
    | false =>
      rw [if_neg Bool.false_ne_true]
      cases hfail : failBlock map eidx (area - 1) (alignedPage (2 ^ s) start p + 1) with
      | none =>
        refine iff_of_false (Option.some_ne_none _) fun h => ?_
        have hset := h p le_rfl (freeRun_of_failBlock harea (not_le.mp hlow) hbit hfail)
        rw [hpassed] at hset
        cases hset
      | some j =>
        rcases lt_or_ge j eidx with hj | hj
        · obtain ⟨q, hpq, hq, hnext, hbefore⟩ :=
            exists_next hs heidx hstart hpassed hbit (not_le.mp hlow) hfail hj
          have hpq' := alignedPage_le (2 ^ s) start hpq.le
          have hrest := ih hnext (by rw [alignedPage_succ]; omega)
          dsimp only
          rw [hq, ← alignedPage_succ]
          refine hrest.trans ⟨fun h n hn hfree => ?_, fun h n hn => h n (by omega)⟩
          rcases le_or_gt n q with hle | hgt
          · exact hbefore n hn hle hfree
          · exact h n hgt hfree
        · -- the area would end behind the last page
          obtain ⟨hjge, -, -⟩ := alignUp_step hs heidx (failBlock_eq_some (not_le.mp hlow) hfail).2.2.1
          refine iff_of_true (scanArea_end (by omega)) fun n hn hfree => ?_
          have hjlt := (failBlock_eq_some (not_le.mp hlow) hfail).2.1
          have hpn := alignedPage_le (2 ^ s) start hn
          have hend := hfree.1
          omega

/-- The search comes to an aligned page. -/
def ReachedFrom (map : Nat → Bool) (incr start c : Nat) : Prop :=
  ∃ m, c = alignedPage incr start m ∧ passedOver map incr start m = false

theorem scanArea_start_eq_none_iff (harea : 0 < area) :
    scanArea map eidx (2 ^ s) area (eidx + 1) start = none ↔
      ∀ c, FreeRun map eidx area c → ¬ ReachedFrom map (2 ^ s) start c := by
  have hzero : alignedPage (2 ^ s) start 0 = start := by rw [alignedPage, Nat.zero_mul, Nat.add_zero]
  have hscan : scanArea map eidx (2 ^ s) area (eidx + 1) (alignedPage (2 ^ s) start 0) = none ↔ _ :=
    scanArea_eq_none_iff hs heidx hstart harea rfl (by omega)
  rw [hzero] at hscan
  refine hscan.trans ⟨?_, ?_⟩
  · rintro h c hfree ⟨m, rfl, hpassed⟩
    rw [h m (zero_le m) hfree] at hpassed
    cases hpassed
  · intro h n _ hfree
    rw [← Bool.not_eq_false]
    exact fun hpassed => h _ hfree ⟨n, rfl, hpassed⟩

end Strides

end Search

/-! ## When nothing is found -/

def neededPages (size : Nat) : Nat := (size + pageSize - 1) / pageSize

/-- The end of what a request may use of a node: the end of the node, or the limit. -/
def topAddr (lowPfn limit : Nat) : Nat :=
  if limit = 0 then lowPfn * pageSize else min (lowPfn * pageSize) limit

/-- **There is room** at an aligned page: a run of free pages that ends below the end of the node and the
limit, in a node at address 0. -/
def Bootmem.RoomAt (b : Bootmem) (size align limit c : Nat) : Prop :=
  align ∣ c * pageSize ∧ (c + neededPages size) * pageSize ≤ topAddr b.nodeLowPfn limit ∧
    ∀ k, c ≤ k → k < c + neededPages size → b.nodeBootmemMap k = false

/-- **The search comes to a page**, from the preferred page or from the first. -/
def Bootmem.ComesTo (b : Bootmem) (align goal limit c : Nat) : Prop :=
  ReachedFrom b.nodeBootmemMap (alignIncr align) (b.preferred align goal limit) c ∨
    ReachedFrom b.nodeBootmemMap (alignIncr align) 0 c

section Request

variable {a size limit : Nat}

theorem alignIncr_two_pow (a : Nat) : alignIncr (2 ^ a) = 2 ^ (a - 12) := by
  unfold alignIncr
  rw [shiftRight_eq_div_pow]
  rcases lt_or_ge a 12 with hlt | hge
  · rw [Nat.div_eq_of_lt (Nat.pow_lt_pow_right (by omega) hlt), if_neg (not_not.mpr rfl),
      Nat.sub_eq_zero_of_le hlt.le, Nat.pow_zero]
  · rw [Nat.pow_div hge (by omega), if_pos (Nat.two_pow_pos _).ne']

theorem le_pageShift (h : 2 ^ a ≤ pageSize) : a ≤ 12 := (Nat.pow_le_pow_iff_right Nat.one_lt_two).mp h

theorem neededPages_pos (hsize : 0 < size) : 0 < neededPages size := by
  unfold neededPages pageSize
  omega

theorem areaPages_eq (h : neededPages size < 2 ^ 20) : areaPages size = neededPages size := by
  unfold neededPages pageSize at h
  unfold areaPages neededPages pageSize
  rw [mod_eq_of_lt (by omega)]

variable {b : Bootmem}

/-- The pages that end below a top are those below `eidx`. -/
theorem Bootmem.le_eidx_iff (hb : b.nodeBootStart = 0) (hlimit : limit = 0 ∨ pageSize ≤ limit) (n : Nat) :
    n * pageSize ≤ topAddr b.nodeLowPfn limit ↔ n ≤ b.eidx limit := by
  unfold eidx endPfn
  rw [hb, pfnDown_eq, pfnDown_eq]
  unfold topAddr
  unfold pageSize at hlimit ⊢
  split_ifs <;> omega

theorem Bootmem.alignOffset_zero (hb : b.nodeBootStart = 0) (align : Nat) : b.alignOffset align = 0 := by
  unfold alignOffset
  rw [hb, zero_and, if_neg (by simp)]
  rfl

theorem Bootmem.eidx_lt (b : Bootmem) (limit : Nat) : b.eidx limit < 2 ^ 20 := by
  have hlow := b.low
  unfold eidx endPfn
  split
  · omega
  · omega

theorem Bootmem.preferred_dvd (hb : b.nodeBootStart = 0) (ha : a < 32) (goal limit : Nat) :
    2 ^ (a - 12) ∣ b.preferred (2 ^ a) goal limit := by
  unfold preferred
  rw [b.alignOffset_zero hb, Nat.add_zero, pfnDown_eq]
  dsimp only
  rw [alignUp, and_not_two_pow_sub_one (mod_lt _ (by decide)) ha.le]
  rcases lt_or_ge a 12 with hlt | hge
  · rw [Nat.sub_eq_zero_of_le hlt.le]
    exact one_dvd _
  · have hsplit : 2 ^ a = 2 ^ (a - 12) * 4096 := by
      rw [show 4096 = 2 ^ 12 from rfl, ← Nat.pow_add, Nat.sub_add_cancel hge]
    rw [hsplit, ← Nat.mul_assoc, Nat.mul_div_cancel _ (by decide)]
    exact Nat.dvd_mul_left _ _

theorem Bootmem.findArea_eq_none_iff (hb : b.nodeBootStart = 0) {align goal : Nat} :
    b.findArea size align goal limit = none ↔
      scanArea b.nodeBootmemMap (b.eidx limit) (alignIncr align) (areaPages size) (b.eidx limit + 1)
          (b.preferred align goal limit) = none ∧
        scanArea b.nodeBootmemMap (b.eidx limit) (alignIncr align) (areaPages size) (b.eidx limit + 1) 0 =
          none := by
  unfold findArea
  rw [b.alignOffset_zero hb]
  dsimp only
  cases hscan : scanArea b.nodeBootmemMap (b.eidx limit) (alignIncr align) (areaPages size) (b.eidx limit + 1)
      (b.preferred align goal limit) with
  | some start => simp
  | none =>
    dsimp only
    split
    · simp
    · rename_i hzero
      rw [Nat.eq_zero_of_not_pos hzero] at hscan
      simp [hscan]

/-- `__alloc_bootmem_core` for a power of two: `NULL`, or what follows `found`. -/
theorem allocBootmemCore_cases (b : Bootmem) (hsize : 0 < size) (a goal limit : Nat) :
    (allocBootmemCore b size (2 ^ a) goal limit = some (none, b) ∧
      ((limit ≠ 0 ∧ limit ≤ b.nodeBootStart) ∨ b.findArea size (2 ^ a) goal limit = none)) ∨
    ∃ start, (limit ≠ 0 → b.nodeBootStart < limit) ∧ b.findArea size (2 ^ a) goal limit = some start ∧
      allocBootmemCore b size (2 ^ a) goal limit =
        (b.takeArea size (2 ^ a) start).map fun r => (some r.1, r.2) := by
  have hpower : 2 ^ a &&& (2 ^ a - 1) = 0 := by
    rw [and_two_pow_sub_one_eq_mod, mod_self]
  unfold allocBootmemCore
  rw [if_neg hsize.ne', hpower, if_neg (not_not.mpr rfl)]
  by_cases hbelow : limit ≠ 0 ∧ limit ≤ b.nodeBootStart
  · exact .inl ⟨if_pos hbelow, .inl hbelow⟩
  · rw [if_neg hbelow]
    cases hfind : b.findArea size (2 ^ a) goal limit with
    | none => exact .inl ⟨rfl, .inr rfl⟩
    | some start => exact .inr ⟨start, fun hne => by omega, rfl, rfl⟩

/-- The answer `NULL` is that of the search. -/
theorem alloc_null_iff_findArea (hb : b.nodeBootStart = 0) (hsize : 0 < size) {goal : Nat} :
    (allocBootmemCore b size (2 ^ a) goal limit).map Prod.fst = some none ↔
      b.findArea size (2 ^ a) goal limit = none := by
  rcases allocBootmemCore_cases b hsize a goal limit with ⟨hnull, hlow | hnone⟩ | ⟨start, -, hfind, htake⟩
  · omega
  · simp [hnull, hnone]
  · rw [htake, hfind]
    cases b.takeArea size (2 ^ a) start <;> simp

theorem dvd_mul_pageSize_iff (c : Nat) : 2 ^ a ∣ c * pageSize ↔ 2 ^ (a - 12) ∣ c := by
  rcases lt_or_ge a 12 with hlt | hge
  · rw [Nat.sub_eq_zero_of_le hlt.le]
    exact iff_of_true ((pow_dvd_pow 2 hlt.le).mul_left c) (one_dvd c)
  · have hsplit : 2 ^ a = 2 ^ (a - 12) * pageSize := by
      rw [show pageSize = 2 ^ 12 from rfl, ← Nat.pow_add, Nat.sub_add_cancel hge]
    rw [hsplit]
    exact Nat.mul_dvd_mul_iff_right (by decide)

theorem Bootmem.roomAt_iff (hb : b.nodeBootStart = 0) (hlimit : limit = 0 ∨ pageSize ≤ limit) (c : Nat) :
    b.RoomAt size (2 ^ a) limit c ↔
      2 ^ (a - 12) ∣ c ∧ FreeRun b.nodeBootmemMap (b.eidx limit) (neededPages size) c := by
  rw [RoomAt, FreeRun, dvd_mul_pageSize_iff, b.le_eidx_iff hb hlimit]

end Request

/-- **When the answer `NULL` means that there is no room:** exactly if the search comes to some page with
room whenever there is one. -/
theorem alloc_bootmem_null_iff {b : Bootmem} (hb : b.nodeBootStart = 0) {size a : Nat} (hsize : 0 < size)
    (ha : a < 32) (goal limit : Nat) :
    ((allocBootmemCore b size (2 ^ a) goal limit).map Prod.fst = some none →
        ∀ c, ¬ b.RoomAt size (2 ^ a) limit c) ↔
      ((∃ c, b.RoomAt size (2 ^ a) limit c) →
        ∃ c, b.RoomAt size (2 ^ a) limit c ∧ b.ComesTo (2 ^ a) goal limit c) := by
  by_cases hroom : ∃ c, b.RoomAt size (2 ^ a) limit c
  swap
  · exact iff_of_true (fun _ c hc => hroom ⟨c, hc⟩) fun h => absurd h hroom
  have hneeded := neededPages_pos hsize
  have hlimit : limit = 0 ∨ pageSize ≤ limit := by
    obtain ⟨c, -, htop, -⟩ := hroom
    have hmul := Nat.mul_le_mul_right pageSize (show 1 ≤ c + neededPages size by omega)
    unfold topAddr at htop
    split_ifs at htop with hzero
    · exact .inl hzero
    · exact .inr (by omega)
  have heidx := b.eidx_lt limit
  have hsmall : neededPages size < 2 ^ 20 := by
    obtain ⟨c, hc⟩ := hroom
    have hend := ((b.roomAt_iff hb hlimit c).mp hc).2.1
    omega
  rw [alloc_null_iff_findArea hb hsize, b.findArea_eq_none_iff hb, alignIncr_two_pow, areaPages_eq hsmall,
    scanArea_start_eq_none_iff (by omega) heidx (b.preferred_dvd hb ha goal limit) hneeded,
    scanArea_start_eq_none_iff (by omega) heidx (dvd_zero _) hneeded]
  have hreached : ∀ start c, 2 ^ (a - 12) ∣ start →
      ReachedFrom b.nodeBootmemMap (2 ^ (a - 12)) start c → 2 ^ (a - 12) ∣ c := by
    rintro start c hstart ⟨m, rfl, -⟩
    exact dvd_alignedPage hstart m
  simp only [ComesTo, alignIncr_two_pow, b.roomAt_iff hb hlimit] at hroom ⊢
  constructor
  · rintro h ⟨c, hc⟩
    by_contra hnone
    refine h ⟨fun c hfree hc => hnone ?_, fun c hfree hc => hnone ?_⟩ c hc
    · exact ⟨c, ⟨hreached _ c (b.preferred_dvd hb ha goal limit) hc, hfree⟩, .inl hc⟩
    · exact ⟨c, ⟨hreached _ c (dvd_zero _) hc, hfree⟩, .inr hc⟩
  · rintro h ⟨hpreferred, hfirst⟩
    obtain ⟨c, ⟨-, hfree⟩, hc | hc⟩ := h hroom
    · exact absurd hc (hpreferred c hfree)
    · exact absurd hc (hfirst c hfree)

def busyNode (lowPfn : Nat) (hlow : lowPfn < 2 ^ 20) (busy : List Nat) : Bootmem where
  nodeBootStart := 0
  nodeLowPfn := lowPfn
  nodeBootmemMap := fun k => busy.contains k
  mapPfn := 0
  lastOffset := 0
  lastPos := 0
  lastSuccess := 0
  aligned := dvd_zero _
  ordered := zero_le _
  low := hlow

/-- A node of four pages, page 1 busy: two pages aligned to two pages are not found. -/
theorem alloc_bootmem_null_with_room : (allocBootmemCore (busyNode 4 (by decide) [1]) 8192 8192 0 0).map Prod.fst =
        some none ∧
      (busyNode 4 (by decide) [1]).RoomAt 8192 8192 0 2 := by
  refine ⟨rfl, by decide, by decide, fun k hk hk' => ?_⟩
  have hcases : k = 2 ∨ k = 3 := by
    have : k < 4 := hk'
    omega
  rcases hcases with rfl | rfl <;> rfl

/-- If page 3 is busy as well, the third aligned page of a node has its turn again. -/
theorem alloc_bootmem_null_twoGaps :
    (busyNode 6 (by decide) [1, 3]).RoomAt 8192 (2 ^ 13) 0 4 ∧
      (allocBootmemCore (busyNode 6 (by decide) [1, 3]) 8192 (2 ^ 13) 0 0).map Prod.fst ≠ some none := by
  have hroom : (busyNode 6 (by decide) [1, 3]).RoomAt 8192 (2 ^ 13) 0 4 := by
    refine ⟨by decide, by decide, fun k hk hk' => ?_⟩
    have hcases : k = 4 ∨ k = 5 := by
      have : k < 6 := hk'
      omega
    rcases hcases with rfl | rfl <;> rfl
  refine ⟨hroom, fun hnull => ?_⟩
  refine (alloc_bootmem_null_iff rfl (by decide) (by decide) 0 0).mpr (fun _ => ⟨4, hroom, .inr ?_⟩) hnull 4 hroom
  exact ⟨2, rfl, rfl⟩

end Linux
