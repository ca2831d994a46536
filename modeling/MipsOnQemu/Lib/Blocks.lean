/-
# MipsOnQemu.Lib.Blocks -- aligned blocks of numbers, their halves and buddies

A block is a range of `2 ^ order` numbers. It is aligned if its start is a multiple of its length;
then it is one half of an aligned block of the next order, whose other half is its buddy, and the two
are told apart by one bit of their starts. `Tiles` says that some blocks are disjoint and cover a
set; halving a block and joining two halves keep it.
-/

import Mathlib

namespace Blocks

open List Nat

/-- The numbers from `start` on, `2 ^ order` of them. -/
structure Block where
  start : Nat
  order : Nat
  deriving DecidableEq

/-- What lies in a block. -/
def Block.pages (b : Block) : List Nat := List.range' b.start (2 ^ b.order)

/-- The start of a block is a multiple of its length. -/
def Block.Aligned (b : Block) : Prop := 2 ^ b.order ∣ b.start

theorem mem_pages {b : Block} {x : Nat} : x ∈ b.pages ↔ b.start ≤ x ∧ x < b.start + 2 ^ b.order := by
  rw [Block.pages, mem_range'_1]

theorem start_mem_pages (b : Block) : b.start ∈ b.pages := by
  rw [mem_pages]
  have hpos := Nat.two_pow_pos b.order
  omega

theorem length_pages (b : Block) : b.pages.length = 2 ^ b.order := length_range'

theorem pages_succ (s k : Nat) :
    (⟨s, k + 1⟩ : Block).pages = (⟨s, k⟩ : Block).pages ++ (⟨s + 2 ^ k, k⟩ : Block).pages := by
  unfold Block.pages
  rw [range'_append_1, pow_succ, mul_two]

/-! ## Buddies -/

section Buddy

variable {s k : Nat}

theorem aligned_cases (h : (⟨s, k⟩ : Block).Aligned) :
    ∃ q, s = 2 ^ (k + 1) * q ∨ s = 2 ^ (k + 1) * q + 2 ^ k := by
  obtain ⟨r, hr⟩ := h
  have hr' : s = 2 ^ k * r := hr
  rcases even_or_odd' r with ⟨q, hq | hq⟩
  · refine ⟨q, .inl ?_⟩
    rw [hr', hq, pow_succ, mul_assoc]
  · refine ⟨q, .inr ?_⟩
    rw [hr', hq, pow_succ, mul_add, mul_one, mul_assoc]

theorem left_xor (q k : Nat) : (2 ^ (k + 1) * q) ^^^ 2 ^ k = 2 ^ (k + 1) * q + 2 ^ k := by
  have hlt : 2 ^ k < 2 ^ (k + 1) := Nat.pow_lt_pow_right (by omega) (by omega)
  refine eq_of_testBit_eq fun i => ?_
  rw [testBit_xor, testBit_two_pow_mul_add _ hlt, testBit_two_pow_mul]
  by_cases hi : i < k + 1
  · have hge : ¬ k < i := by omega
    simp [hi, hge]
  · have hne : k ≠ i := by omega
    simp [hi, hne, not_lt.mp hi]

theorem right_xor (q k : Nat) : (2 ^ (k + 1) * q + 2 ^ k) ^^^ 2 ^ k = 2 ^ (k + 1) * q := by
  rw [← left_xor, xor_xor_cancel_right]

theorem left_ldiff (q k : Nat) : ldiff (2 ^ (k + 1) * q) (2 ^ k) = 2 ^ (k + 1) * q := by
  refine eq_of_testBit_eq fun i => ?_
  rw [testBit_ldiff, testBit_two_pow_mul, testBit_two_pow]
  by_cases hi : k = i
  · simp [hi]
  · simp [hi]

theorem right_ldiff (q k : Nat) : ldiff (2 ^ (k + 1) * q + 2 ^ k) (2 ^ k) = 2 ^ (k + 1) * q := by
  have hlt : 2 ^ k < 2 ^ (k + 1) := Nat.pow_lt_pow_right (by omega) (by omega)
  refine eq_of_testBit_eq fun i => ?_
  rw [testBit_ldiff, testBit_two_pow_mul_add _ hlt, testBit_two_pow_mul, testBit_two_pow]
  by_cases hi : i < k + 1
  · by_cases hk : k = i
    · simp [hk]
    · have hge : ¬ k + 1 ≤ i := by omega
      simp [hi, hk, hge]
  · have hne : k ≠ i := by omega
    have hge : k + 1 ≤ i := by omega
    simp [hi, hne, hge]

theorem pages_buddy (h : (⟨s, k⟩ : Block).Aligned) : (⟨ldiff s (2 ^ k), k + 1⟩ : Block).Aligned ∧
      ((⟨ldiff s (2 ^ k), k + 1⟩ : Block).pages).Perm
        ((⟨s, k⟩ : Block).pages ++ (⟨s ^^^ 2 ^ k, k⟩ : Block).pages) := by
  obtain ⟨q, rfl | rfl⟩ := aligned_cases h
  · rw [left_ldiff, left_xor, pages_succ]
    exact ⟨Dvd.intro q rfl, List.Perm.refl _⟩
  · rw [right_ldiff, right_xor, pages_succ]
    exact ⟨Dvd.intro q rfl, perm_append_comm⟩

theorem aligned_right (h : (⟨s, k + 1⟩ : Block).Aligned) :
    (⟨s, k⟩ : Block).Aligned ∧ (⟨s + 2 ^ k, k⟩ : Block).Aligned ∧ (s + 2 ^ k) ^^^ 2 ^ k = s := by
  obtain ⟨q, hq⟩ := h
  have hs : s = 2 ^ (k + 1) * q := hq
  have hleft : 2 ^ k ∣ s := (pow_dvd_pow 2 (le_succ k)).trans ⟨q, hs⟩
  refine ⟨hleft, (dvd_add hleft dvd_rfl), ?_⟩
  rw [hs, right_xor]

end Buddy

/-! ## Tilings -/

/-- **Some blocks are disjoint and cover a set.** -/
def Tiles (bs : List Block) (pages : Finset Nat) : Prop :=
  (bs.flatMap Block.pages : Multiset Nat) = pages.val

section Tiles

variable {bs bs' : List Block} {pages : Finset Nat} {b c : Block}

theorem Tiles.perm (h : Tiles bs pages) (hp : bs.Perm bs') : Tiles bs' pages := by
  rw [Tiles, ← h]
  exact Multiset.coe_eq_coe.mpr (hp.symm.flatMap_right Block.pages)

theorem Tiles.exchange {l l' : List Block} (h : Tiles (l ++ bs) pages)
    (hp : (l.flatMap Block.pages).Perm (l'.flatMap Block.pages)) : Tiles (l' ++ bs) pages := by
  rw [Tiles, ← h, flatMap_append, flatMap_append]
  exact Multiset.coe_eq_coe.mpr (hp.symm.append_right _)

theorem Tiles.nodup (h : Tiles bs pages) : (bs.flatMap Block.pages).Nodup := by
  rw [← Multiset.coe_nodup, h]
  exact pages.nodup

theorem Tiles.pairwise (h : Tiles bs pages) : bs.Pairwise fun a b => List.Disjoint a.pages b.pages :=
  (nodup_flatMap.mp h.nodup).2

theorem Tiles.mem_iff (h : Tiles bs pages) {x : Nat} : x ∈ pages ↔ ∃ b ∈ bs, x ∈ b.pages := by
  rw [← Finset.mem_val, ← h, Multiset.mem_coe, mem_flatMap]

theorem Tiles.not_mem (h : Tiles (b :: bs) pages) (hc : c ∈ bs) {x : Nat} (hx : x ∈ c.pages) : x ∉ b.pages :=
  fun hb => (pairwise_cons.mp h.pairwise).1 c hc hb hx

theorem Tiles.card (h : Tiles bs pages) : (bs.map fun b => 2 ^ b.order).sum = pages.card := by
  rw [Finset.card_def, ← h, Multiset.coe_card, length_flatMap]
  congr 1
  refine map_congr_left fun b _ => ?_
  exact (length_pages b).symm

theorem tiles_of_pairwise (h : bs.Pairwise fun a b => List.Disjoint a.pages b.pages) :
    Tiles bs (bs.flatMap Block.pages).toFinset := by
  have hnodup : (bs.flatMap Block.pages).Nodup :=
    nodup_flatMap.mpr ⟨fun b _ => nodup_range', h⟩
  rw [Tiles, toFinset_val, hnodup.dedup]

end Tiles

end Blocks
