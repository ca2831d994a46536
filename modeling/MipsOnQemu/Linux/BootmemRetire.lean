/-
# MipsOnQemu.Linux.BootmemRetire -- the free pages are handed over

`free_all_bootmem_core` goes through the map with three cursors. The page frame number is always that
of the first bit of the word, and the bit index stands at the beginning of a word or at the end of
the map: so what is passed on from a bit index on are the pages of the clear bits from there, in
order, whether a word goes as one block or bit by bit.
-/

import MipsOnQemu.Linux.Bootmem
import MipsOnQemu.Lib.Words

namespace Linux

open Blocks List Nat Bool

/-! ## Rounding -/

variable {x s : Nat}

theorem and_not_two_pow_sub_one (hx : x < 2 ^ 32) (hs : s ≤ 32) :
    x &&& (2 ^ 32 - 1 - (2 ^ s - 1)) = x / 2 ^ s * 2 ^ s := by
  rcases hs.lt_or_eq with hs | rfl
  · have hword := Words.and_not_mask hs (BitVec.ofNat 32 x)
    rwa [BitVec.toNat_and, BitVec.toNat_not, Words.toNat_mask hs, BitVec.toNat_ofNat, mod_eq_of_lt hx] at hword
  · rw [Nat.sub_self, Nat.and_zero, div_eq_of_lt hx, Nat.zero_mul]

/-- `ALIGN` to a power of two, where it does not wrap around. -/
theorem alignUp_two_pow (h : x + 2 ^ s - 1 < 2 ^ 32) :
    alignUp x (2 ^ s) = (x + 2 ^ s - 1) / 2 ^ s * 2 ^ s := by
  have hs : s ≤ 32 := by
    by_contra hgt
    have hpow : 2 ^ 33 ≤ 2 ^ s := Nat.pow_le_pow_right (by omega) (by omega)
    omega
  unfold alignUp
  rw [mod_eq_of_lt h, and_not_two_pow_sub_one h hs]

theorem alignUp_spec (h : x + 2 ^ s - 1 < 2 ^ 32) :
    x ≤ alignUp x (2 ^ s) ∧ alignUp x (2 ^ s) < x + 2 ^ s ∧ 2 ^ s ∣ alignUp x (2 ^ s) := by
  rw [alignUp_two_pow h]
  have hpos := Nat.two_pow_pos s
  have hdiv := div_add_mod (x + 2 ^ s - 1) (2 ^ s)
  have hmod := mod_lt (x + 2 ^ s - 1) hpos
  rw [Nat.mul_comm] at hdiv
  refine ⟨?_, ?_, Nat.dvd_mul_left _ _⟩
  · omega
  · omega

theorem pfnDown_eq (x : Nat) : pfnDown x = x / 4096 := shiftRight_eq_div_pow x 12

/-! ## The words of the map -/

/-- The pages with clear bits, from `i` to `j`. -/
def Bootmem.clearPages (b : Bootmem) (i j : Nat) : List Nat :=
  ((List.range' i (j - i)).filter fun k => !b.nodeBootmemMap k).map (pfnDown b.nodeBootStart + ·)

namespace Bootmem

variable (b : Bootmem)

variable {i j : Nat}

theorem clearPages_of_le (h : j ≤ i) : b.clearPages i j = [] := by
  unfold clearPages
  rw [Nat.sub_eq_zero_of_le h]
  rfl

theorem clearPages_append {k : Nat} (hij : i ≤ j) (hjk : j ≤ k) :
    b.clearPages i k = b.clearPages i j ++ b.clearPages j k := by
  unfold clearPages
  rw [← map_append, ← filter_append]
  congr 2
  have hsplit : k - i = (j - i) + (k - j) := by omega
  have hstart : i + (j - i) = j := by omega
  rw [hsplit, ← range'_append_1, hstart]

theorem clearPages_succ (h : i < j) :
    b.clearPages i j = (if b.nodeBootmemMap i then [] else [pfnDown b.nodeBootStart + i]) ++
      b.clearPages (i + 1) j := by
  rw [b.clearPages_append (le_succ i) h]
  congr 1
  unfold clearPages
  rw [show i.succ - i = 1 by omega, range'_one]
  cases hbit : b.nodeBootmemMap i with
  | true => simp [hbit]
  | false => simp [hbit]

theorem clearPages_all {n : Nat} (h : ∀ k, i ≤ k → k < i + n → b.nodeBootmemMap k = false) :
    b.clearPages i (i + n) = range' (pfnDown b.nodeBootStart + i) n := by
  unfold clearPages
  rw [Nat.add_sub_cancel_left, filter_eq_self.mpr, map_add_range']
  intro k hk
  rw [mem_range'_1] at hk
  rw [h k hk.1 hk.2]
  rfl

theorem clearPages_none (h : ∀ k, i ≤ k → k < j → b.nodeBootmemMap k = true) : b.clearPages i j = [] := by
  unfold clearPages
  rw [filter_eq_nil_iff.mpr]
  · rfl
  · intro k hk
    rw [mem_range'_1] at hk
    rw [h k hk.1 (by omega)]
    exact false_ne_true

theorem mem_clearPages {page : Nat} : page ∈ b.clearPages i j ↔
      ∃ k, i ≤ k ∧ k < j ∧ b.nodeBootmemMap k = false ∧ page = pfnDown b.nodeBootStart + k := by
  unfold clearPages
  rw [mem_map]
  constructor
  · rintro ⟨k, hk, rfl⟩
    rw [mem_filter, mem_range'_1, not_eq_true'] at hk
    exact ⟨k, hk.1.1, by omega, hk.2, rfl⟩
  · rintro ⟨k, hi, hj, hbit, rfl⟩
    refine ⟨k, ?_, rfl⟩
    rw [mem_filter, mem_range'_1, not_eq_true']
    exact ⟨⟨hi, by omega⟩, hbit⟩

theorem nodup_clearPages (i j : Nat) : (b.clearPages i j).Nodup :=
  (Nodup.filter _ nodup_range').map (add_right_injective _)

/-- **The loop over the bits of a word.** -/
theorem freeWord_spec (idx v left m : Nat) (hv : bitsPerLong ∣ v) :
    (b.freeWord idx v left m (pfnDown b.nodeBootStart + (v + m)) (v + m)).1.flatMap Block.pages =
        b.clearPages (v + m) (min (v + m + left) idx) ∧
      (b.freeWord idx v left m (pfnDown b.nodeBootStart + (v + m)) (v + m)).2 =
        max (v + m) (min (v + m + left) idx) ∧
      ∀ c ∈ (b.freeWord idx v left m (pfnDown b.nodeBootStart + (v + m)) (v + m)).1, c.order = 0 := by
  induction left generalizing m with
  | zero =>
    have hmin : min (v + m + 0) idx ≤ v + m := by omega
    refine ⟨?_, ?_, ?_⟩
    · rw [b.clearPages_of_le hmin]
      rfl
    · rw [max_eq_left hmin]
      rfl
    · intro c hc
      cases hc
  | succ left ih =>
    unfold freeWord
    by_cases hend : idx ≤ v + m
    · have hmin : min (v + m + (left + 1)) idx ≤ v + m := by omega
      rw [if_pos hend]
      refine ⟨?_, ?_, ?_⟩
      · rw [b.clearPages_of_le hmin]
        rfl
      · rw [max_eq_left hmin]
      · intro c hc
        cases hc
    · rw [if_neg hend]
      obtain ⟨hpages, hi, horder⟩ := ih (m + 1)
      have hassoc : v + (m + 1) = v + m + 1 := by omega
      have hpfn : pfnDown b.nodeBootStart + (v + (m + 1)) = pfnDown b.nodeBootStart + (v + m) + 1 := by
        omega
      rw [hpfn, hassoc] at hpages hi horder
      have hmin : min (v + m + (left + 1)) idx = min (v + m + 1 + left) idx := by omega
      have hbit : b.clearBits v m = !b.nodeBootmemMap (v + m) := by
        unfold clearBits
        rw [Nat.div_mul_cancel hv]
      dsimp only
      rw [hmin, hbit]
      refine ⟨?_, ?_, ?_⟩
      · rw [b.clearPages_succ (by omega), ← hpages]
        cases b.nodeBootmemMap (v + m) with
        | true => rfl
        | false => rfl
      · rw [hi]
        omega
      · cases b.nodeBootmemMap (v + m) with
        | true => exact horder
        | false => exact forall_mem_cons.mpr ⟨rfl, horder⟩

/-- A call of `__free_pages_bootmem`: a page alone, or an aligned block of `BITS_PER_LONG` pages. -/
def GoodCall (c : Block) : Prop := c.order = 0 ∨ (2 ^ c.order = bitsPerLong ∧ c.Aligned)

/-- The fast path is taken in nodes that start at a multiple of `BITS_PER_LONG` pages. -/
theorem dvd_of_gofast (h : b.gofast = true) : bitsPerLong ∣ pfnDown b.nodeBootStart := by
  unfold gofast at h
  rw [or_eq_true, beq_iff_eq, decide_eq_true_iff] at h
  rcases h with hzero | hlt
  · rw [hzero]
    exact ⟨0, rfl⟩
  · have hbits : ffs bitsPerLong = 6 := by
      show padicValNat 2 32 + 1 = 6
      rw [show (32 : Nat) = 2 ^ 5 from rfl, padicValNat.prime_pow]
    rw [hbits] at hlt
    unfold ffs at hlt
    have hval : 17 ≤ padicValNat 2 b.nodeBootStart := by omega
    obtain ⟨q, hq⟩ := (Nat.pow_dvd_pow 2 hval).trans pow_padicValNat_dvd
    rw [hq, pfnDown_eq]
    refine ⟨q, ?_⟩
    show 2 ^ 17 * q / 4096 = 32 * q
    omega

theorem freeWords_end {idx : Nat} (h : idx ≤ i) (rounds pfn : Nat) :
    b.freeWords idx rounds i pfn = ([], 0) := by
  cases rounds with
  | zero => rfl
  | succ rounds =>
    unfold freeWords
    rw [if_pos h]

theorem word_le {idx : Nat} (hpast : ∀ k, idx ≤ k → k < (idx + 31) / 32 * 32 → b.nodeBootmemMap k = true)
    (hi : bitsPerLong ∣ i) (hlt : i < idx)
    (hclear : ∀ m < bitsPerLong, b.nodeBootmemMap (i + m) = false) : i + bitsPerLong ≤ idx := by
  obtain ⟨q, rfl⟩ := hi
  by_contra hover
  rw [show bitsPerLong = 32 from rfl] at hlt hclear hover
  -- its last bit is past the end of the node
  have hset := hpast (32 * q + 31) (by omega) (by omega)
  rw [hclear 31 (by omega)] at hset
  cases hset

/-- **What is passed on:** the pages in order, their number, and in calls of the two kinds. -/
structure Passes (r : List Block × Nat) (pages : List Nat) : Prop where
  same : r.1.flatMap Block.pages = pages
  count : r.2 = pages.length
  calls : ∀ c ∈ r.1, GoodCall c

theorem passes_nil : Passes ([], 0) [] := ⟨rfl, rfl, nofun⟩

theorem Passes.append {calls : List Block} {r : List Block × Nat} {first pages : List Nat}
    (h : Passes r pages) (hfirst : calls.flatMap Block.pages = first)
    (hcalls : ∀ c ∈ calls, GoodCall c) : Passes (calls ++ r.1, r.2 + first.length) (first ++ pages) := by
  refine ⟨?_, ?_, forall_mem_append.mpr ⟨hcalls, h.calls⟩⟩
  · rw [flatMap_append, hfirst, h.same]
  · rw [length_append, h.count, Nat.add_comm]

theorem length_of_single {calls : List Block} {pages : List Nat}
    (h : calls.flatMap Block.pages = pages) (hsingle : ∀ c ∈ calls, c.order = 0) :
    calls.length = pages.length := by
  rw [← h, length_flatMap]
  have hone : calls.map (fun c => c.pages.length) = calls.map fun _ => 1 := by
    refine map_congr_left fun c hc => ?_
    rw [length_pages, hsingle c hc, Nat.pow_zero]
  rw [hone, map_const', sum_replicate, smul_eq_mul, Nat.mul_one]

section Word

variable {idx i : Nat}

theorem freeWords_fast (hlt : ¬ idx ≤ i)
    (hfast : (b.gofast && (range bitsPerLong).all (b.clearBits i)) = true) (rounds pfn : Nat) :
    b.freeWords idx (rounds + 1) i pfn = ([⟨pfn, ffs bitsPerLong - 1⟩] ++
          (b.freeWords idx rounds (i + bitsPerLong) (pfn + bitsPerLong)).1,
        (b.freeWords idx rounds (i + bitsPerLong) (pfn + bitsPerLong)).2 + bitsPerLong) := by
  conv_lhs => rw [freeWords]
  rw [if_neg hlt, if_pos hfast]
  rfl

section

variable (hlt : ¬ idx ≤ i) (hfast : ¬ (b.gofast && (range bitsPerLong).all (b.clearBits i)) = true)
include hlt hfast

theorem freeWords_bits (hany : (range bitsPerLong).any (b.clearBits i) = true) (rounds pfn : Nat) :
    b.freeWords idx (rounds + 1) i pfn = ((b.freeWord idx i bitsPerLong 0 pfn i).1 ++
          (b.freeWords idx rounds (b.freeWord idx i bitsPerLong 0 pfn i).2 (pfn + bitsPerLong)).1,
        (b.freeWords idx rounds (b.freeWord idx i bitsPerLong 0 pfn i).2 (pfn + bitsPerLong)).2 +
          (b.freeWord idx i bitsPerLong 0 pfn i).1.length) := by
  conv_lhs => rw [freeWords]
  rw [if_neg hlt, if_neg hfast, if_pos hany]

theorem freeWords_skip (hany : ¬ (range bitsPerLong).any (b.clearBits i) = true) (rounds pfn : Nat) :
    b.freeWords idx (rounds + 1) i pfn =
      b.freeWords idx rounds (i + bitsPerLong) (pfn + bitsPerLong) := by
  conv_lhs => rw [freeWords]
  rw [if_neg hlt, if_neg hfast, if_neg hany]

end

end Word

/-- **The loop over the words**, from the beginning of a word. -/
theorem freeWords_spec (idx : Nat)
    (hpast : ∀ k, idx ≤ k → k < (idx + 31) / 32 * 32 → b.nodeBootmemMap k = true)
    (rounds i : Nat) (hi : bitsPerLong ∣ i) (hrounds : idx < i + rounds) :
    Passes (b.freeWords idx rounds i (pfnDown b.nodeBootStart + i)) (b.clearPages i idx) := by
  induction rounds generalizing i with
  | zero =>
    rw [b.freeWords_end (by omega), b.clearPages_of_le (by omega)]
    exact passes_nil
  | succ rounds ih =>
    by_cases hend : idx ≤ i
    · rw [b.freeWords_end hend, b.clearPages_of_le hend]
      exact passes_nil
    have hbits : ∀ m, b.clearBits i m = !b.nodeBootmemMap (i + m) := by
      intro m
      unfold clearBits
      rw [Nat.div_mul_cancel hi]
    have hpos : 0 < bitsPerLong := by decide
    have hrest := ih (i + bitsPerLong) (Nat.dvd_add hi dvd_rfl) (by omega)
    rw [← Nat.add_assoc] at hrest
    by_cases hfast : (b.gofast && (range bitsPerLong).all (b.clearBits i)) = true
    · -- all pages of the word at once
      rw [b.freeWords_fast hend hfast]
      rw [and_eq_true, all_eq_true] at hfast
      have hclear : ∀ m < bitsPerLong, b.nodeBootmemMap (i + m) = false := by
        intro m hm
        have hbit := hfast.2 m (mem_range.mpr hm)
        rwa [hbits m, not_eq_true'] at hbit
      have hword : b.clearPages i (i + bitsPerLong) =
          range' (pfnDown b.nodeBootStart + i) bitsPerLong := by
        apply b.clearPages_all
        intro k hik hk
        rw [show k = i + (k - i) by omega]
        exact hclear _ (by omega)
      have horder : 2 ^ (ffs bitsPerLong - 1) = bitsPerLong := by
        show 2 ^ padicValNat 2 32 = 32
        rw [show (32 : Nat) = 2 ^ 5 from rfl, padicValNat.prime_pow]
      rw [b.clearPages_append (Nat.le_add_right i bitsPerLong)
        (b.word_le hpast hi (Nat.not_le.mp hend) hclear), hword]
      have hblock : ([⟨pfnDown b.nodeBootStart + i, ffs bitsPerLong - 1⟩] : List Block).flatMap
          Block.pages = range' (pfnDown b.nodeBootStart + i) bitsPerLong := by
        rw [flatMap_singleton]
        unfold Block.pages
        rw [horder]
      have happ := hrest.append hblock ?_
      · rwa [length_range'] at happ
      · intro c hc
        rw [mem_singleton.mp hc]
        refine .inr ⟨horder, ?_⟩
        show 2 ^ (ffs bitsPerLong - 1) ∣ pfnDown b.nodeBootStart + i
        rw [horder]
        exact Nat.dvd_add (b.dvd_of_gofast hfast.1) hi
    by_cases hany : (range bitsPerLong).any (b.clearBits i) = true
    · -- bit by bit, to the end of the word or of the map
      rw [b.freeWords_bits hend hfast hany]
      obtain ⟨hword, hi', hsingle⟩ := b.freeWord_spec idx i bitsPerLong 0 hi
      rw [Nat.add_zero] at hword hi' hsingle
      have hlen := length_of_single hword hsingle
      have hgood : ∀ c ∈ (b.freeWord idx i bitsPerLong 0 (pfnDown b.nodeBootStart + i) i).1,
          GoodCall c := fun c hc => .inl (hsingle c hc)
      rw [hlen, hi']
      rcases Nat.lt_or_ge idx (i + bitsPerLong) with hshort | hfull
      · rw [b.freeWords_end (by omega)]
        have hmin : min (i + bitsPerLong) idx = idx := by omega
        rw [hmin] at hword ⊢
        have happ := passes_nil.append hword hgood
        rwa [append_nil (b.clearPages i idx)] at happ
      · have hmin : min (i + bitsPerLong) idx = i + bitsPerLong := by omega
        have hmax : max i (i + bitsPerLong) = i + bitsPerLong := by omega
        rw [hmin] at hword ⊢
        rw [hmax, b.clearPages_append (Nat.le_add_right i bitsPerLong) hfull]
        exact hrest.append hword hgood
    · -- no page of the word
      rw [b.freeWords_skip hend hfast hany]
      have hset : ∀ k, i ≤ k → k < i + bitsPerLong → b.nodeBootmemMap k = true := by
        intro k hik hk
        rw [any_eq_true] at hany
        by_contra hclear
        refine hany ⟨k - i, mem_range.mpr (by omega), ?_⟩
        rw [hbits, Nat.add_sub_cancel' hik, eq_false_of_not_eq_true hclear]
        rfl
      rcases Nat.lt_or_ge idx (i + bitsPerLong) with hshort | hfull
      · rw [b.freeWords_end (by omega), b.clearPages_none fun k hik hk => hset k hik (by omega)]
        exact passes_nil
      · rw [b.clearPages_append (Nat.le_add_right i bitsPerLong) hfull, b.clearPages_none hset]
        exact hrest

theorem pages_lt : b.pages < 2 ^ 20 := by
  have hlow := b.low
  unfold pages
  omega

theorem getMapsize_eq : b.getMapsize * 8 = (b.pages + 31) / 32 * 32 := by
  have hlt := b.pages_lt
  unfold getMapsize
  rw [show (4 : Nat) = 2 ^ 2 from rfl, alignUp_two_pow (by omega)]
  omega

end Bootmem

/-- **The free pages and the pages of the map are passed on**, each once, alone or in an aligned
block, and no others; and their number is returned. -/
theorem free_all_bootmem_exact (b : Bootmem)
    (hpast : ∀ k, b.pages ≤ k → k < b.getMapsize * 8 → b.nodeBootmemMap k = true)
    (hmap : ∀ k < b.pages, b.mapPfn ≤ pfnDown b.nodeBootStart + k →
      pfnDown b.nodeBootStart + k < b.mapPfn + b.mapPages → b.nodeBootmemMap k = true) :
    ((freeAllBootmemCore b).1.flatMap Block.pages).Nodup ∧
      (∀ page, page ∈ (freeAllBootmemCore b).1.flatMap Block.pages ↔
        (∃ k < b.pages, b.nodeBootmemMap k = false ∧ page = pfnDown b.nodeBootStart + k) ∨
          (b.mapPfn ≤ page ∧ page < b.mapPfn + b.mapPages)) ∧
      (∀ c ∈ (freeAllBootmemCore b).1, c.order = 0 ∨ (2 ^ c.order = bitsPerLong ∧ c.Aligned)) ∧
      (freeAllBootmemCore b).2 = ((freeAllBootmemCore b).1.flatMap Block.pages).length := by
  have hwords : Bootmem.Passes (b.freeWords b.pages (b.pages + 1) 0 (pfnDown b.nodeBootStart))
      (b.clearPages 0 b.pages) := by
    apply b.freeWords_spec b.pages ?_ (b.pages + 1) 0 (Nat.dvd_zero _) (by omega)
    intro k hk hlt
    apply hpast k hk
    rw [b.getMapsize_eq]
    exact hlt
  have hcalls : (freeAllBootmemCore b).1 =
      (b.freeWords b.pages (b.pages + 1) 0 (pfnDown b.nodeBootStart)).1 ++
        (range' b.mapPfn b.mapPages).map fun page => (⟨page, 0⟩ : Block) := rfl
  have hcount : (freeAllBootmemCore b).2 =
      (b.freeWords b.pages (b.pages + 1) 0 (pfnDown b.nodeBootStart)).2 + b.mapPages := rfl
  have hmapPages : ((range' b.mapPfn b.mapPages).map fun page => (⟨page, 0⟩ : Block)).flatMap
      Block.pages = range' b.mapPfn b.mapPages := by
    rw [flatMap_map]
    exact flatMap_singleton' _
  have hflat : (freeAllBootmemCore b).1.flatMap Block.pages =
      b.clearPages 0 b.pages ++ range' b.mapPfn b.mapPages := by
    rw [hcalls, flatMap_append, hwords.same, hmapPages]
  refine ⟨?_, ?_, ?_, ?_⟩
  · rw [hflat]
    refine nodup_append'.mpr ⟨b.nodup_clearPages _ _, nodup_range', ?_⟩
    intro page hclear hrange
    obtain ⟨k, -, hk, hbit, rfl⟩ := b.mem_clearPages.mp hclear
    rw [mem_range'_1] at hrange
    rw [hmap k hk hrange.1 hrange.2] at hbit
    cases hbit
  · intro page
    rw [hflat, mem_append, b.mem_clearPages, mem_range'_1]
    constructor
    · rintro (⟨k, -, hk, h⟩ | h)
      · exact .inl ⟨k, hk, h⟩
      · exact .inr h
    · rintro (⟨k, hk, h⟩ | h)
      · exact .inl ⟨k, Nat.zero_le k, hk, h⟩
      · exact .inr h
  · rw [hcalls]
    exact forall_mem_append.mpr ⟨hwords.calls, forall_mem_map.mpr fun page _ => .inl rfl⟩
  · rw [hflat, hcount, hwords.count, length_append, length_range']

/-- A node of 64 pages at address 0. The first word of its map is clear, of the second only one bit; the page
of the map is page 40. -/
def mixedNode : Bootmem where
  nodeBootStart := 0
  nodeLowPfn := 64
  nodeBootmemMap := fun k => decide (32 ≤ k) && decide (k ≠ 33)
  mapPfn := 40
  lastOffset := 0
  lastPos := 0
  lastSuccess := 0
  aligned := dvd_zero _
  ordered := zero_le _
  low := by decide

/-- The first word is passed on as one block, the free page of the second and the page of the map alone. -/
theorem free_all_bootmem_mixedNode : freeAllBootmemCore mixedNode = ([⟨0, 5⟩, ⟨33, 0⟩, ⟨40, 0⟩], 34) ∧
    ∀ page, page ∈ (freeAllBootmemCore mixedNode).1.flatMap Block.pages ↔
      (∃ k < 64, mixedNode.nodeBootmemMap k = false ∧ page = 0 + k) ∨ (40 ≤ page ∧ page < 40 + 1) := by
  have hreserved : ∀ k, 40 ≤ k → mixedNode.nodeBootmemMap k = true := by
    intro k hk
    show (decide (32 ≤ k) && decide (k ≠ 33)) = true
    rw [decide_eq_true (by omega), decide_eq_true (by omega)]
    rfl
  refine ⟨by decide +kernel, (free_all_bootmem_exact mixedNode (fun k hk _ => ?_) fun k _ hk _ => ?_).2.1⟩
  · have hpages : (64 : Nat) ≤ k := hk
    exact hreserved k (by omega)
  · have hpages : 40 ≤ 0 + k := hk
    exact hreserved k (by omega)

end Linux
