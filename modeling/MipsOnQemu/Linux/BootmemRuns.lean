/-
# MipsOnQemu.Linux.BootmemRuns -- boot memory allocations do not overlap

A run of the boot allocator, with what its callers know: the bytes of the allocations that no page
has been freed of since, and the pages that are reserved. The end of the last allocation may lie in
a page whose rest is given to the next one; nothing tells the allocator that this page has been freed
or reserved meanwhile, so an allocation that would use it then is left out. So are sizes that wrap
around, limits below a page, and alignments that the start of the node does not have.
-/

import MipsOnQemu.Linux.BootmemScan
import MipsOnQemu.Lib.Runs

namespace Linux

open Nat Bootmem

/-- A node, and what its callers know. -/
structure BootState where
  node : Bootmem
  /-- the bytes of live allocations -/
  live : Set Nat
  /-- the pages of the node that are reserved -/
  reserved : Set Nat

inductive BootOp where
  | reserve (addr size : Nat)
  | free (addr size : Nat)
  | alloc (size align goal limit : Nat)

/-- The page of the node that an address lies in. -/
def Bootmem.pageOf (b : Bootmem) (x : Nat) : Nat := (x - b.nodeBootStart) / pageSize

namespace BootOp

variable (s : BootState)

/-- An operation of the allocator, and what becomes of live bytes and reserved pages. -/
def exec : BootOp → Option (Option Nat × BootState)
  | .reserve addr size => (reserveBootmemCore s.node addr size).map fun b =>
      (none, ⟨b, s.live, s.reserved ∪ {p | ∃ x, addr ≤ x ∧ x < addr + size ∧ p = s.node.pageOf x}⟩)
  | .free addr size => (freeBootmemCore s.node addr size).map fun b =>
      (none, ⟨b, {x | x ∈ s.live ∧ ¬ (addr ≤ x ∧ x < addr + size)},
        {p | p ∈ s.reserved ∧ ¬ ∃ x, addr ≤ x ∧ x < addr + size ∧ p = s.node.pageOf x}⟩)
  | .alloc size align goal limit => (allocBootmemCore s.node size align goal limit).map fun r =>
      (r.1, ⟨r.2, s.live ∪ {x | ∃ a, r.1 = some a ∧ a ≤ x ∧ x < a + size}, s.reserved⟩)

/-- The operations that callers make: ranges of the node are reserved, whole reserved pages are
freed. -/
def Legal : BootOp → Prop
  | .reserve addr size => 0 < size ∧ s.node.nodeBootStart ≤ addr ∧
      addr + size ≤ s.node.nodeLowPfn * pageSize
  | .free addr size => 0 < size ∧ pageSize ∣ addr ∧ pageSize ∣ size ∧ s.node.nodeBootStart ≤ addr ∧
      addr + size ≤ s.node.nodeLowPfn * pageSize ∧
      ∀ x, addr ≤ x → x < addr + size → s.node.nodeBootmemMap (s.node.pageOf x) = true
  | .alloc size align _ _ => 0 < size ∧ ∃ a < 32, align = 2 ^ a

/-- **What an allocation must avoid.** -/
def Safe : BootOp → Prop
  | .alloc size align _ limit => size ≤ 2 ^ 32 - pageSize ∧ align ∣ s.node.nodeBootStart ∧
      (limit = 0 ∨ pageSize ≤ limit) ∧
      (align < pageSize → s.node.lastOffset ≠ 0 →
        s.node.nodeBootmemMap s.node.lastPos = true ∧ s.node.lastPos ∉ s.reserved)
  | _ => True

/-- **What an allocation is to give:** a range in the node and below the limit, aligned, and disjoint
from live allocations, reserved pages and pages that are still marked free. -/
def Good : BootOp → Option Nat → BootState → Prop
  | .alloc size align _ limit, some a, s' =>
    s.node.nodeBootStart ≤ a ∧ a + size ≤ s.node.nodeLowPfn * pageSize ∧
      (limit ≠ 0 → a + size ≤ limit) ∧ align ∣ a ∧
      ∀ x, a ≤ x → x < a + size → x ∉ s.live ∧ s.node.pageOf x ∉ s.reserved ∧
        s'.node.nodeBootmemMap (s.node.pageOf x) = true
  | _, _, _ => True

/-- An operation that is not `BUG`, and what it gives is good. -/
def Works (op : BootOp) (r : Option Nat) (s' : BootState) : Prop :=
  op.exec s = some (r, s') ∧ op.Good s r s'

end BootOp

/-- What holds between the operations. The last says that in the page that the last allocation ends
in, if it still belongs to allocations, the rest is unused. -/
structure BootInv (s : BootState) : Prop where
  live : ∀ x ∈ s.live, s.node.nodeBootStart ≤ x ∧ s.node.pageOf x < s.node.pages ∧
    s.node.nodeBootmemMap (s.node.pageOf x) = true
  reserved : ∀ p ∈ s.reserved, s.node.nodeBootmemMap p = true
  tail : s.node.lastOffset ≠ 0 → s.node.lastOffset < pageSize ∧ s.node.lastPos < s.node.pages ∧
    (s.node.nodeBootmemMap s.node.lastPos = true → s.node.lastPos ∉ s.reserved →
      ∀ x ∈ s.live, s.node.pageOf x = s.node.lastPos →
        (x - s.node.nodeBootStart) % pageSize < s.node.lastOffset)

/-! ## Addresses and pages -/

variable {x n addr size : Nat} {b : Bootmem}

namespace Bootmem

variable (b : Bootmem)

theorem start_eq : b.nodeBootStart = pfnDown b.nodeBootStart * pageSize := by
  rw [pfnDown_eq]
  exact (Nat.div_mul_cancel b.aligned).symm

theorem end_eq : b.nodeLowPfn * pageSize = b.nodeBootStart + b.pages * pageSize := by
  have hstart := b.start_eq
  have hordered := b.ordered
  have hsplit : b.nodeLowPfn = pfnDown b.nodeBootStart + b.pages := by
    unfold pages
    omega
  rw [hsplit, add_mul]
  omega

theorem end_lt : b.nodeLowPfn * pageSize < 2 ^ 32 := by
  have hlow := b.low
  unfold pageSize
  omega

theorem pageOf_lt_iff (hx : b.nodeBootStart ≤ x) : b.pageOf x < n ↔ x < b.nodeBootStart + n * pageSize := by
  unfold pageOf
  rw [div_lt_iff_lt_mul (by decide)]
  omega

theorem le_pageOf_iff (hx : b.nodeBootStart ≤ x) : n ≤ b.pageOf x ↔ b.nodeBootStart + n * pageSize ≤ x := by
  rw [← not_lt, b.pageOf_lt_iff hx, not_lt]

end Bootmem

/-! ## Reserving and freeing -/

section Steps

variable {s : BootState}

theorem subWord_of_le {a b : Nat} (h : b ≤ a) (ha : a < 2 ^ 32) : subWord a b = a - b := by
  unfold subWord
  rw [show a + 2 ^ 32 - b = (a - b) + 2 ^ 32 by omega, add_mod_right, mod_eq_of_lt (by omega)]

theorem pfnUp_eq (h : x + 4095 < 2 ^ 32) : pfnUp x = (x + 4095) / 4096 := by
  show ((x + 4095) % 2 ^ 32) >>> 12 = _
  rw [mod_eq_of_lt h, shiftRight_eq_div_pow]

/-- `reserve_bootmem_core` on a range of the node. -/
theorem reserveBootmemCore_spec (hsize : 0 < size)
    (hstart : b.nodeBootStart ≤ addr) (hend : addr + size ≤ b.nodeLowPfn * pageSize) :
    reserveBootmemCore b addr size = some (b.writeBits (b.pageOf addr)
      (b.pageOf (addr + size + (pageSize - 1))) true) := by
  have hlt := b.end_lt
  unfold reserveBootmemCore
  have hsum : (addr + size) % 2 ^ 32 = addr + size := mod_eq_of_lt (by omega)
  rw [if_neg (by omega), hsum, pfnDown_eq, if_neg (by unfold pageSize at *; omega),
    pfnUp_eq (by unfold pageSize at *; omega), if_neg (by unfold pageSize at *; omega)]
  have hsub : subWord addr b.nodeBootStart = addr - b.nodeBootStart :=
    subWord_of_le hstart (by omega)
  have hsub' : subWord (addr + size) b.nodeBootStart = addr + size - b.nodeBootStart :=
    subWord_of_le (by omega) (by omega)
  have hup' : pfnUp (addr + size - b.nodeBootStart) = b.pageOf (addr + size + (pageSize - 1)) := by
    rw [pfnUp_eq (by unfold pageSize at *; omega)]
    unfold pageOf pageSize
    omega
  rw [hsub, hsub', hup', pfnDown_eq]
  rfl

theorem Bootmem.pageOf_range {p : Nat} (hsize : 0 < size) (hstart : b.nodeBootStart ≤ addr) :
    (b.pageOf addr ≤ p ∧ p < b.pageOf (addr + size + (pageSize - 1))) ↔
      ∃ x, addr ≤ x ∧ x < addr + size ∧ p = b.pageOf x := by
  unfold pageOf pageSize
  constructor
  · rintro ⟨hle, hlt⟩
    refine ⟨max addr (b.nodeBootStart + p * 4096), by omega, by omega, by omega⟩
  · rintro ⟨x, hle, hlt, rfl⟩
    omega

theorem Bootmem.pageOf_pages (hstart : b.nodeBootStart ≤ addr)
    (haddr : pageSize ∣ addr) (hsize : pageSize ∣ size) (hx : b.nodeBootStart ≤ x) :
    (b.pageOf addr ≤ b.pageOf x ∧ b.pageOf x < b.pageOf (addr + size)) ↔
      (addr ≤ x ∧ x < addr + size) := by
  obtain ⟨q, hq⟩ := b.aligned
  obtain ⟨r, rfl⟩ := haddr
  obtain ⟨t, rfl⟩ := hsize
  unfold pageOf
  rw [hq] at hstart hx ⊢
  unfold pageSize at *
  omega

theorem Bootmem.pageOf_end (hstart : b.nodeBootStart ≤ addr) (haddr : pageSize ∣ addr) (hsize : pageSize ∣ size) :
    b.pageOf (addr + size + (pageSize - 1)) = b.pageOf (addr + size) := by
  obtain ⟨q, hq⟩ := b.aligned
  unfold pageOf
  rw [hq] at hstart ⊢
  unfold pageSize at *
  omega

/-- `free_bootmem_core` on reserved pages of the node. -/
theorem freeBootmemCore_spec (hsize : 0 < size)
    (haddr : pageSize ∣ addr) (hpages : pageSize ∣ size) (hstart : b.nodeBootStart ≤ addr)
    (hend : addr + size ≤ b.nodeLowPfn * pageSize)
    (hset : ∀ x, addr ≤ x → x < addr + size → b.nodeBootmemMap (b.pageOf x) = true) :
    ∃ success, freeBootmemCore b addr size = some { b.writeBits (b.pageOf addr)
      (b.pageOf (addr + size)) false with lastSuccess := success } := by
  have hlt := b.end_lt
  have hsum : (addr + size) % 2 ^ 32 = addr + size := mod_eq_of_lt (by omega)
  have hsidx : subWord (pfnUp addr) (pfnDown b.nodeBootStart) = b.pageOf addr := by
    obtain ⟨q, hq⟩ := b.aligned
    obtain ⟨r, rfl⟩ := haddr
    rw [pfnUp_eq (by unfold pageSize at *; omega), pfnDown_eq,
      subWord_of_le (by unfold pageSize at *; omega) (by unfold pageSize at *; omega)]
    unfold pageOf
    rw [hq] at hstart ⊢
    unfold pageSize at *
    omega
  have heidx : pfnDown (subWord (addr + size) b.nodeBootStart) = b.pageOf (addr + size) := by
    rw [subWord_of_le (by omega) (by omega), pfnDown_eq]
    rfl
  have hall : (List.range' (b.pageOf addr) (b.pageOf (addr + size) - b.pageOf addr)).all
      b.nodeBootmemMap = true := by
    rw [List.all_eq_true]
    intro p hp
    rw [List.mem_range'_1] at hp
    obtain ⟨x, hle, hlt, rfl⟩ := (b.pageOf_range hsize hstart).mp
      ⟨hp.1, by rw [b.pageOf_end hstart haddr hpages]; omega⟩
    exact hset x hle hlt
  unfold freeBootmemCore
  rw [if_neg (by omega), hsum, if_neg (by rw [pfnDown_eq]; unfold pageSize at *; omega)]
  by_cases hsuccess : addr < b.lastSuccess
  · rw [if_pos hsuccess]
    dsimp only
    rw [hsidx, heidx, if_pos hall]
    exact ⟨addr, rfl⟩
  · rw [if_neg hsuccess]
    dsimp only
    rw [hsidx, heidx, if_pos hall]
    exact ⟨b.lastSuccess, rfl⟩

theorem reserve_step (h : BootInv s) (hop : (BootOp.reserve addr size).Legal s) :
    ∃ r s', (BootOp.reserve addr size).exec s = some (r, s') ∧ BootInv s' := by
  obtain ⟨hsize, hstart, hend⟩ := hop
  have hrange := fun p => s.node.pageOf_range (p := p) hsize hstart
  refine ⟨_, _, by rw [BootOp.exec, reserveBootmemCore_spec hsize hstart hend, Option.map_some],
    ?_, ?_, ?_⟩
  · intro x hx
    obtain ⟨hle, hlt, hbit⟩ := h.live x hx
    refine ⟨hle, hlt, ?_⟩
    show (if _ then true else s.node.nodeBootmemMap (s.node.pageOf x)) = true
    rw [hbit, ite_self]
  · intro p hp
    show (if _ then true else s.node.nodeBootmemMap p) = true
    rcases hp with hold | hnew
    · rw [h.reserved p hold, ite_self]
    · rw [if_pos ((hrange p).mpr hnew)]
  · intro hoffset
    obtain ⟨hlt, hpos, htail⟩ := h.tail hoffset
    refine ⟨hlt, hpos, fun hbit hres x hx hpage => ?_⟩
    have hnot : ¬ (s.node.pageOf addr ≤ s.node.lastPos ∧
        s.node.lastPos < s.node.pageOf (addr + size + (pageSize - 1))) :=
      fun hin => hres (.inr ((hrange _).mp hin))
    have hbit' : s.node.nodeBootmemMap s.node.lastPos = true := by
      rw [← hbit]
      exact (if_neg hnot).symm
    exact htail hbit' (fun hold => hres (.inl hold)) x hx hpage

theorem free_step (h : BootInv s) (hop : (BootOp.free addr size).Legal s) :
    ∃ r s', (BootOp.free addr size).exec s = some (r, s') ∧ BootInv s' := by
  obtain ⟨hsize, haddr, hpages, hstart, hend, hset⟩ := hop
  obtain ⟨success, hfree⟩ := freeBootmemCore_spec hsize haddr hpages hstart hend hset
  have hrange := fun x => s.node.pageOf_pages (x := x) hstart haddr hpages
  have hpage := fun p => s.node.pageOf_range (p := p) hsize hstart
  rw [s.node.pageOf_end hstart haddr hpages] at hpage
  refine ⟨_, _, by rw [BootOp.exec, hfree, Option.map_some], ?_, ?_, ?_⟩
  · rintro x ⟨hx, hout⟩
    obtain ⟨hle, hlt, hbit⟩ := h.live x hx
    refine ⟨hle, hlt, ?_⟩
    exact (if_neg fun hin => hout ((hrange x hle).mp hin)).trans hbit
  · rintro p ⟨hp, hout⟩
    exact (if_neg fun hin => hout ((hpage p).mp hin)).trans (h.reserved p hp)
  · intro hoffset
    obtain ⟨hlt, hpos, htail⟩ := h.tail hoffset
    refine ⟨hlt, hpos, ?_⟩
    rintro hbit hres x ⟨hx, -⟩ hxpage
    have hbit' : (if s.node.pageOf addr ≤ s.node.lastPos ∧ s.node.lastPos < s.node.pageOf (addr + size)
        then false else s.node.nodeBootmemMap s.node.lastPos) = true := hbit
    split at hbit'
    · cases hbit'
    · rename_i hnot
      exact htail hbit' (fun hold => hres ⟨hold, fun hin => hnot ((hpage _).mpr hin)⟩) x hx hxpage

end Steps

/-! ## Allocation -/

section Alloc

/-- What an allocation does to a node: it gives a range from `addr` on, whose pages from `start` to
`stop` it marks, and remembers where it ends. -/
structure Takes (b : Bootmem) (size addr start stop : Nat) (b' : Bootmem) : Prop where
  node : b'.nodeBootStart = b.nodeBootStart ∧ b'.nodeLowPfn = b.nodeLowPfn
  map : b'.nodeBootmemMap = (b.writeBits start stop true).nodeBootmemMap
  /-- the pages were free -/
  clear : ∀ k, start ≤ k → k < stop → b.nodeBootmemMap k = false
  /-- the range ends with the pages, or in the page before them -/
  upper : addr + size ≤ b.nodeBootStart + max start stop * pageSize
  /-- it starts with the pages, or in the last page of the allocation before -/
  lower : addr = b.nodeBootStart + start * pageSize ∨ (b.lastOffset ≠ 0 ∧ b.lastPos + 1 = start ∧
      b.nodeBootStart + b.lastPos * pageSize + b.lastOffset ≤ addr)
  /-- the rest of its last page is unused -/
  tail : b'.lastOffset ≠ 0 → b'.lastOffset < pageSize ∧ addr + size =
    b.nodeBootStart + b'.lastPos * pageSize + b'.lastOffset ∧ ((b'.lastPos + 1 = stop ∧ start < stop) ∨
        (b'.lastPos = b.lastPos ∧ b.lastOffset ≠ 0 ∧ b.lastPos + 1 = start))

variable {b : Bootmem} {size a start limit : Nat}

theorem reserveArea_eq {area : Nat} (h : ∀ k, start ≤ k → k < start + area → b.nodeBootmemMap k = false) :
    b.reserveArea start area = some (b.writeBits start (start + area) true) := by
  unfold reserveArea
  rw [if_neg]
  rw [List.any_eq_true]
  rintro ⟨k, hk, hbit⟩
  rw [List.mem_range'_1] at hk
  rw [h k hk.1 hk.2] at hbit
  cases hbit

theorem neededPages_le : neededPages size ≤ n ↔ size ≤ n * pageSize := by
  unfold neededPages pageSize
  omega

theorem neededPages_last (h : size % pageSize ≠ 0) :
    0 < neededPages size ∧ size + pageSize = neededPages size * pageSize + size % pageSize := by
  unfold neededPages pageSize at *
  omega

theorem alignUp_page (hx : x < pageSize) (ha : 2 ^ a < pageSize) :
    x ≤ alignUp x (2 ^ a) ∧ alignUp x (2 ^ a) ≤ pageSize ∧ 2 ^ a ∣ alignUp x (2 ^ a) ∧
      2 ^ a ∣ pageSize := by
  have hpow : 2 ^ a ∣ pageSize := pow_dvd_pow 2 (le_pageShift ha.le)
  obtain ⟨hge, hlt, hdvd⟩ := alignUp_spec (x := x) (s := a) (by unfold pageSize at *; omega)
  exact ⟨hge, le_of_lt_add_of_dvd (by omega) hdvd hpow, hdvd, hpow⟩

/-- The pages from `start` on are marked, and the last one is remembered, for a range that ends `rest` bytes
behind the start of the first one. -/
theorem reserveArea_takes {rest : Nat} (hrest : neededPages rest < 2 ^ 20)
    (hend : start + neededPages rest < 2 ^ 32)
    (hclear : ∀ k, start ≤ k → k < start + neededPages rest → b.nodeBootmemMap k = false)
    (hstop : addr + size = b.nodeBootStart + start * pageSize + rest)
    (hlower : addr = b.nodeBootStart + start * pageSize ∨
      (b.lastOffset ≠ 0 ∧ b.lastPos + 1 = start ∧ b.nodeBootStart + b.lastPos * pageSize + b.lastOffset ≤ addr)) :
    ∃ b', ({ b with
        lastSuccess := start <<< 12
        lastPos := subWord (start + areaPages rest) 1
        lastOffset := rest % pageSize } : Bootmem).reserveArea start (areaPages rest) = some b' ∧
      Takes b size addr start (start + neededPages rest) b' := by
  have hcover := neededPages_le.mp (le_refl (neededPages rest))
  rw [areaPages_eq hrest, reserveArea_eq (by exact hclear)]
  refine ⟨_, rfl, ⟨rfl, rfl⟩, rfl, hclear, ?_, hlower, fun hne => ?_⟩
  · rw [max_eq_right (by omega), add_mul]
    omega
  · have hne' : rest % pageSize ≠ 0 := hne
    obtain ⟨hsome, hlastPage⟩ := neededPages_last hne'
    have hfull : pageSize ≤ neededPages rest * pageSize := Nat.le_mul_of_pos_left _ hsome
    have hword : subWord (start + neededPages rest) 1 = start + neededPages rest - 1 :=
      subWord_of_le (by omega) (by omega)
    show rest % pageSize < pageSize ∧ _ = _ + subWord (start + neededPages rest) 1 * pageSize + _ ∧
      ((subWord (start + neededPages rest) 1 + 1 = _ ∧ _) ∨ _)
    rw [hword]
    refine ⟨mod_lt _ (by decide), ?_, .inl ⟨by omega, by omega⟩⟩
    rw [Nat.sub_mul, Nat.add_mul, hstop]
    show _ = _ + _ + rest % pageSize
    omega

/-- **What follows `found`.** -/
theorem takeArea_spec (hsmall : neededPages size < 2 ^ 20)
    (htail : b.lastOffset ≠ 0 → b.lastOffset < pageSize ∧ b.lastPos < b.pages)
    (hrun : FreeRun b.nodeBootmemMap (b.eidx limit) (neededPages size) start) :
    ∃ addr stop b', b.takeArea size (2 ^ a) start = some (addr, b') ∧
      Takes b size addr start stop b' ∧ stop ≤ start + neededPages size ∧ start ≤ stop ∧
      (addr = b.nodeBootStart + start * pageSize ∨ (2 ^ a < pageSize ∧ 2 ^ a ∣ addr)) := by
  have heidx := b.eidx_lt limit
  have hend := hrun.1
  have hpages := b.pages_lt
  unfold takeArea
  dsimp only
  by_cases hmerge : 2 ^ a < pageSize ∧ b.lastOffset ≠ 0 ∧ (b.lastPos + 1) % 2 ^ 32 = start
  · obtain ⟨halign, hoffset, hlast⟩ := hmerge
    obtain ⟨hlt, hlastPos⟩ := htail hoffset
    rw [mod_eq_of_lt (by omega)] at hlast
    obtain ⟨hge, hle, hdvd, hdvdPage⟩ := alignUp_page hlt halign
    rw [if_pos ⟨halign, hoffset, by rw [mod_eq_of_lt (by omega)]; exact hlast⟩, if_neg (not_lt.mpr hle)]
    generalize alignUp b.lastOffset (2 ^ a) = offset at hge hle hdvd
    have haddr : 2 ^ a ∣ b.lastPos * pageSize + offset + b.nodeBootStart :=
      dvd_add (dvd_add (Dvd.dvd.mul_left hdvdPage _) hdvd) (hdvdPage.trans b.aligned)
    have hstart : start * pageSize = b.lastPos * pageSize + pageSize := by
      rw [← hlast, succ_mul]
    have hlower : b.nodeBootStart + b.lastPos * pageSize + b.lastOffset ≤
        b.lastPos * pageSize + offset + b.nodeBootStart := by omega
    by_cases hfits : size < pageSize - offset
    · -- in the rest of the page
      rw [if_pos hfits, reserveArea_eq fun k hk hk' => by omega]
      refine ⟨_, start, _, rfl, ⟨⟨rfl, rfl⟩, rfl, fun k hk hk' => by omega, ?_,
        .inr ⟨hoffset, hlast, hlower⟩, fun _ => ?_⟩, by omega, le_rfl, .inr ⟨halign, haddr⟩⟩
      · rw [max_self]
        omega
      · show (offset + size) % pageSize < pageSize ∧
          _ = _ + b.lastPos * pageSize + (offset + size) % pageSize ∧ _
        have hmod : (offset + size) % pageSize = offset + size := mod_eq_of_lt (by omega)
        rw [hmod]
        exact ⟨by omega, by omega, .inr ⟨rfl, hoffset, hlast⟩⟩
    · -- to the end of the page, and on
      have hrest : neededPages (size - (pageSize - offset)) ≤ neededPages size := by
        rw [neededPages_le]
        exact (sub_le _ _).trans (neededPages_le.mp le_rfl)
      obtain ⟨b', htake, htakes⟩ := reserveArea_takes (hrest.trans_lt hsmall) (by omega)
        (fun k hk hk' => hrun.2 k hk (by omega)) (show _ + size = _ by omega) (.inr ⟨hoffset, hlast, hlower⟩)
      rw [if_neg hfits, htake]
      exact ⟨_, _, b', rfl, htakes, by omega, by omega, .inr ⟨halign, haddr⟩⟩
  · obtain ⟨b', htake, htakes⟩ := reserveArea_takes hsmall (by omega) hrun.2
      (show start * pageSize + b.nodeBootStart + size = _ by omega) (.inl (add_comm _ _))
    rw [if_neg hmerge, htake]
    exact ⟨_, _, b', rfl, htakes, le_rfl, by omega, .inl (add_comm _ _)⟩

/-- The pages of the range: those that are marked, and the last page of the allocation before. -/
theorem Takes.pageOf {b' : Bootmem} {stop : Nat} (ht : Takes b size addr start stop b')
    (hle : start ≤ stop) (hx : addr ≤ x) (hx' : x < addr + size) :
    b.nodeBootStart ≤ x ∧ ((start ≤ b.pageOf x ∧ b.pageOf x < stop) ∨
      (b.pageOf x = b.lastPos ∧ b.lastOffset ≠ 0 ∧ b.lastPos + 1 = start ∧
        addr ≠ b.nodeBootStart + start * pageSize ∧
        b.lastOffset ≤ (x - b.nodeBootStart) % pageSize)) := by
  have hupper := ht.upper
  rw [max_eq_right hle] at hupper
  rcases ht.lower with hpages | ⟨hoffset, hlast, hlower⟩
  · have hstart : b.nodeBootStart ≤ x := by omega
    refine ⟨hstart, .inl ⟨?_, ?_⟩⟩
    · rw [b.le_pageOf_iff hstart]
      omega
    · rw [b.pageOf_lt_iff hstart]
      omega
  · have hstart : b.nodeBootStart ≤ x := by omega
    refine ⟨hstart, ?_⟩
    have hlt : b.pageOf x < stop := by
      rw [b.pageOf_lt_iff hstart]
      omega
    rcases lt_or_ge (b.pageOf x) start with hbefore | hge
    · have hpage : b.lastPos ≤ b.pageOf x := by
        rw [b.le_pageOf_iff hstart]
        omega
      have heq : b.pageOf x = b.lastPos := by omega
      refine .inr ⟨heq, hoffset, hlast, ?_, ?_⟩
      · have hxlt := (b.pageOf_lt_iff hstart).mp hbefore
        omega
      · have hsplit := div_add_mod (x - b.nodeBootStart) pageSize
        rw [show (x - b.nodeBootStart) / pageSize = b.lastPos from heq, mul_comm] at hsplit
        omega
    · exact .inl ⟨hge, hlt⟩

theorem Bootmem.findArea_spec (hsize : 0 < size) (hsmall : neededPages size < 2 ^ 20) (ha : a < 32)
    {goal : Nat} (h : b.findArea size (2 ^ a) goal limit = some start) :
    2 ^ (a - 12) ∣ start ∧ FreeRun b.nodeBootmemMap (b.eidx limit) (neededPages size) start := by
  have heidx := b.eidx_lt limit
  have hstep : a - 12 < 20 := by omega
  have hsound : ∀ rounds i, scanArea b.nodeBootmemMap (b.eidx limit) (alignIncr (2 ^ a))
      (areaPages size) rounds i = some start →
      2 ^ (a - 12) ∣ start ∧ FreeRun b.nodeBootmemMap (b.eidx limit) (neededPages size) start := by
    intro rounds i hscan
    rw [alignIncr_two_pow, areaPages_eq hsmall] at hscan
    exact ⟨(scanArea_sound hstep heidx hscan).2.2.1,
      scanArea_freeRun hstep heidx (neededPages_pos hsize) hscan⟩
  unfold findArea at h
  dsimp only at h
  split at h
  · rename_i hscan
    cases h
    exact hsound _ _ hscan
  · split at h
    · exact hsound _ _ h
    · cases h

/-- `eidx` is below the end of the node and the limit. -/
theorem Bootmem.eidx_le (hstart : limit ≠ 0 → b.nodeBootStart < limit)
    (hlimit : limit = 0 ∨ pageSize ≤ limit) :
    b.eidx limit ≤ b.pages ∧ (limit ≠ 0 → b.nodeBootStart + b.eidx limit * pageSize ≤ limit) := by
  have hs := b.start_eq
  have hordered := b.ordered
  unfold eidx endPfn pages
  rw [pfnDown_eq limit]
  generalize pfnDown b.nodeBootStart = p at hs hordered
  unfold pageSize at *
  constructor
  · split
    · omega
    · omega
  · intro hne
    split
    · omega
    · omega

theorem Takes.marked {b' : Bootmem} {stop p : Nat} (ht : Takes b size addr start stop b')
    (hp : b.nodeBootmemMap p = true) : b'.nodeBootmemMap p = true := by
  rw [ht.map]
  show (if _ then true else b.nodeBootmemMap p) = true
  rw [hp, ite_self]

section Taken

variable {s : BootState} {b' : Bootmem} {addr stop : Nat} (ht : Takes s.node size addr start stop b')
  (h : BootInv s) (hle : start ≤ stop) (hstop : stop ≤ s.node.pages)
  (hlast : addr ≠ s.node.nodeBootStart + start * pageSize → s.node.lastOffset ≠ 0 →
    s.node.nodeBootmemMap s.node.lastPos = true ∧ s.node.lastPos ∉ s.reserved)

include ht h hle hstop hlast

/-- The bytes of the range lie in pages that are marked now, and nothing else was there. -/
theorem Takes.byte (hx : addr ≤ x) (hx' : x < addr + size) :
    (s.node.nodeBootStart ≤ x ∧ s.node.pageOf x < s.node.pages ∧
      b'.nodeBootmemMap (s.node.pageOf x) = true) ∧ x ∉ s.live ∧ s.node.pageOf x ∉ s.reserved := by
  obtain ⟨hstart, hnew | ⟨hpage, hoffset, -, hne, hrest⟩⟩ := ht.pageOf hle hx hx'
  · have hclear := ht.clear _ hnew.1 hnew.2
    refine ⟨⟨hstart, by omega, ?_⟩, fun hlive => ?_, fun hres => ?_⟩
    · rw [ht.map]
      exact if_pos hnew
    · rw [(h.live x hlive).2.2] at hclear
      cases hclear
    · rw [h.reserved _ hres] at hclear
      cases hclear
  · -- the rest of the last page is unused, and its page neither freed nor reserved
    obtain ⟨hbit, hres⟩ := hlast hne hoffset
    obtain ⟨-, hpos, htail⟩ := h.tail hoffset
    refine ⟨⟨hstart, hpage ▸ hpos, ht.marked (hpage ▸ hbit)⟩, fun hlive => ?_, hpage ▸ hres⟩
    have hlt := htail hbit hres x hlive hpage
    omega

theorem Takes.inv :
    BootInv ⟨b', s.live ∪ {x | ∃ a, some addr = some a ∧ a ≤ x ∧ x < a + size}, s.reserved⟩ := by
  have hbyte := fun {x} => Takes.byte (x := x) ht h hle hstop hlast
  have hpageOf : ∀ x, b'.pageOf x = s.node.pageOf x := fun x => by
    unfold Bootmem.pageOf
    rw [ht.node.1]
  have hpages : b'.pages = s.node.pages := by
    unfold pages
    rw [ht.node.1, ht.node.2]
  refine ⟨fun x hx => ?_, fun p hp => ht.marked (h.reserved p hp), fun hoffset' => ?_⟩
  · show b'.nodeBootStart ≤ x ∧ b'.pageOf x < b'.pages ∧ b'.nodeBootmemMap (b'.pageOf x) = true
    rw [hpageOf, hpages, ht.node.1]
    rcases hx with hold | ⟨_, ⟨⟩, hx, hx'⟩
    · obtain ⟨hstart, hpage, hbit⟩ := h.live x hold
      exact ⟨hstart, hpage, ht.marked hbit⟩
    · exact (hbyte hx hx').1
  · obtain ⟨hlt, hend, hwhere⟩ := ht.tail hoffset'
    have hpos : b'.lastPos < b'.pages := by
      rw [hpages]
      rcases hwhere with ⟨hlast', -⟩ | ⟨hsame, hoffset, -⟩
      · omega
      · rw [hsame]
        exact (h.tail hoffset).2.1
    refine ⟨hlt, hpos, fun _ hres x hx hpage => ?_⟩
    change b'.lastPos ∉ s.reserved at hres
    change b'.pageOf x = b'.lastPos at hpage
    show (x - b'.nodeBootStart) % pageSize < b'.lastOffset
    rw [hpageOf] at hpage
    rw [ht.node.1]
    rcases hx with hold | ⟨_, ⟨⟩, hx, hx'⟩
    · obtain ⟨hstart, -, hbit⟩ := h.live x hold
      rw [hpage] at hbit
      rcases hwhere with ⟨hlast', hsome⟩ | ⟨hsame, hoffset, hnext⟩
      · -- the new last page was free, so nothing lived there
        rw [ht.clear _ (by omega) (by omega)] at hbit
        cases hbit
      · rw [hsame] at hbit hres hpage hend
        have hold' := (h.tail hoffset).2.2 hbit hres x hold hpage
        have hle' : s.node.lastOffset ≤ b'.lastOffset := by
          rcases ht.lower with heq | ⟨-, -, hge⟩
          · rw [heq, ← hnext, succ_mul] at hend
            omega
          · omega
        exact lt_of_lt_of_le hold' hle'
    · -- the range ends in the new last page
      have hstart := (hbyte hx hx').1.1
      have hsplit := div_add_mod (x - s.node.nodeBootStart) pageSize
      rw [show (x - s.node.nodeBootStart) / pageSize = b'.lastPos from hpage, mul_comm] at hsplit
      omega

end Taken

theorem alloc_step {s : BootState} {align goal : Nat} (h : BootInv s)
    (hop : (BootOp.alloc size align goal limit).Legal s)
    (hsafe : (BootOp.alloc size align goal limit).Safe s) :
    ∃ r s', (BootOp.alloc size align goal limit).exec s = some (r, s') ∧
      (BootOp.alloc size align goal limit).Good s r s' ∧ BootInv s' := by
  obtain ⟨hsize, a, ha, rfl⟩ := hop
  obtain ⟨hwrap, hnode, hlimit, hlast⟩ := hsafe
  have hsmall : neededPages size < 2 ^ 20 := by
    unfold neededPages pageSize at *
    omega
  rcases allocBootmemCore_cases s.node hsize a goal limit with ⟨hnull, -⟩ | ⟨start, hbelow, hfind, halloc⟩
  · refine ⟨none, s, ?_, trivial, h⟩
    simp [BootOp.exec, hnull]
  · obtain ⟨hdvd, hrun⟩ := s.node.findArea_spec hsize hsmall ha hfind
    obtain ⟨addr, stop, b', htake, ht, hstop, hle, haddr⟩ := takeArea_spec (a := a) hsmall
      (fun hoffset => ⟨(h.tail hoffset).1, (h.tail hoffset).2.1⟩) hrun
    obtain ⟨hpages, hbelowLimit⟩ := s.node.eidx_le hbelow hlimit
    have hstopEidx : stop ≤ s.node.eidx limit := hstop.trans hrun.1
    have hlast' := fun hne => hlast ((haddr.resolve_left hne).1)
    refine ⟨some addr, ⟨b', s.live ∪ {x | ∃ a, some addr = some a ∧ a ≤ x ∧ x < a + size}, s.reserved⟩,
      ?_, ?_, ht.inv h hle (hstopEidx.trans hpages) hlast'⟩
    · show (allocBootmemCore s.node size (2 ^ a) goal limit).map _ = _
      rw [halloc, htake]
      rfl
    · have hupper := ht.upper
      rw [max_eq_right hle] at hupper
      have hroom : stop * pageSize ≤ s.node.eidx limit * pageSize := mul_le_mul_right _ hstopEidx
      have hend : s.node.eidx limit * pageSize ≤ s.node.pages * pageSize :=
        mul_le_mul_right _ hpages
      have hnodeEnd := s.node.end_eq
      refine ⟨(ht.pageOf hle le_rfl (by omega)).1, by omega, fun hne => ?_, ?_, fun x hx hx' => ?_⟩
      · have hlim := hbelowLimit hne
        omega
      · rcases haddr with heq | ⟨-, hdvd'⟩
        · rw [heq]
          refine dvd_add hnode ?_
          have hpow : 2 ^ a ∣ 2 ^ (a - 12) * pageSize := by
            rw [show pageSize = 2 ^ 12 from rfl, ← pow_add]
            exact pow_dvd_pow 2 (by omega)
          exact hpow.trans (mul_dvd_mul_right hdvd pageSize)
        · exact hdvd'
      · obtain ⟨⟨-, -, hbit⟩, hlive, hres⟩ := ht.byte h hle (hstopEidx.trans hpages) hlast' hx hx'
        exact ⟨hlive, hres, hbit⟩

end Alloc

/-! ## Runs -/

/-- A node before its first allocation. -/
structure BootState.Initial (s : BootState) : Prop where
  offset : s.node.lastOffset = 0
  live : s.live = ∅
  reserved : s.reserved = {p | s.node.nodeBootmemMap p = true}

theorem BootState.Initial.inv {s : BootState} (h : s.Initial) : BootInv s := by
  refine ⟨fun x hx => ?_, fun p hp => ?_, fun hne => absurd h.offset hne⟩
  · rw [h.live] at hx
    exact hx.elim
  · rw [h.reserved] at hp
    exact hp

/-- **Boot memory allocations do not overlap:** in every run whose allocations do not take over a
page that was freed or reserved behind the allocator's back, fit in a word, and ask for an alignment
that the node has and no limit within the first page, nothing is `BUG`, and every range that is
given is good. -/
theorem bootmem_allocations_disjoint {s : BootState} (h : s.Initial) {ops : List BootOp}
    (hops : Runs.Along BootOp.exec (fun s op => op.Legal s ∧ op.Safe s) s ops) :
    ∃ rs s', Runs.run BootOp.exec s ops = some (rs, s') ∧ Runs.Allows BootOp.Works s ops rs s' := by
  have hstep : ∀ (s t : BootState) (op : BootOp), (t = s ∧ BootInv s) → op.Legal s ∧ op.Safe s →
      ∃ r s' t', op.exec s = some (r, s') ∧ BootOp.Works t op r t' ∧ t' = s' ∧ BootInv s' := by
    rintro _ s op ⟨rfl, hinv⟩ hop
    have hworks : ∃ r s', BootOp.Works s op r s' ∧ BootInv s' := by
      cases op with
      | reserve addr size =>
        obtain ⟨r, s', hexec, hinv'⟩ := reserve_step hinv hop.1
        exact ⟨r, s', ⟨hexec, trivial⟩, hinv'⟩
      | free addr size =>
        obtain ⟨r, s', hexec, hinv'⟩ := free_step hinv hop.1
        exact ⟨r, s', ⟨hexec, trivial⟩, hinv'⟩
      | alloc size align goal limit =>
        obtain ⟨r, s', hexec, hgood, hinv'⟩ := alloc_step hinv hop.1 hop.2
        exact ⟨r, s', ⟨hexec, hgood⟩, hinv'⟩
    obtain ⟨r, s', hworks, hinv'⟩ := hworks
    exact ⟨r, s', s', hworks.1, hworks, rfl, hinv'⟩
  obtain ⟨rs, s', t', hrun, hallows, heq, -⟩ :=
    Runs.run_refines (R := fun s t => t = s ∧ BootInv s) hstep ⟨rfl, h.inv⟩ hops
  exact ⟨rs, s', hrun, heq ▸ hallows⟩

def fourPages : BootState where
  node :=
    { nodeBootStart := 0
      nodeLowPfn := 4
      nodeBootmemMap := fun _ => false
      mapPfn := 0
      lastOffset := 0
      lastPos := 0
      lastSuccess := 0
      aligned := by decide
      ordered := by decide
      low := by decide }
  live := ∅
  reserved := ∅

theorem fourPages_initial : fourPages.Initial :=
  ⟨rfl, rfl, by ext p; exact ⟨fun h => h.elim, nofun⟩⟩

/-- **An allocation in a page that is free:** the page of a small allocation is freed, and the next
allocation, which begins its search behind that page, is put in the rest of it. -/
theorem alloc_bootmem_in_freed_page : fourPages.Initial ∧
    Runs.Along BootOp.exec (fun s op => op.Legal s) fourPages
      [.alloc 100 32 0 0, .free 0 4096, .alloc 100 32 4096 0] ∧
    ∃ s s', Runs.run BootOp.exec fourPages [.alloc 100 32 0 0, .free 0 4096] = some ([some 0, none], s) ∧
      (BootOp.alloc 100 32 4096 0).exec s = some (some 128, s') ∧
      ¬ (BootOp.alloc 100 32 4096 0).Good s (some 128) s' := by
  refine ⟨fourPages_initial, ?_, ?_⟩
  · refine ⟨⟨by decide, 5, by decide, rfl⟩, fun p hp => ⟨?_, fun p' _ => ?_⟩⟩
    · obtain rfl := Option.some.inj hp
      refine ⟨by decide, by decide, by decide, zero_le _, by decide, fun x _ hx => ?_⟩
      have hpage : (x - 0) / pageSize = 0 := by
        unfold pageSize
        omega
      show (if _ ≤ (x - 0) / pageSize ∧ (x - 0) / pageSize < _ then true else false) = true
      rw [hpage]
      rfl
    · exact ⟨⟨by decide, 5, by decide, rfl⟩, fun _ _ => trivial⟩
  · refine ⟨_, _, rfl, rfl, ?_⟩
    rintro ⟨-, -, -, -, hmarked⟩
    have hbit := (hmarked 128 le_rfl (by decide)).2.2
    cases hbit

/-- Two small allocations that share a page. -/
theorem bootmem_allocations_fourPages :
    ∃ rs s', Runs.run BootOp.exec fourPages [.alloc 100 32 0 0, .alloc 100 32 0 0] = some (rs, s') ∧
      Runs.Allows BootOp.Works fourPages
        [.alloc 100 32 0 0, .alloc 100 32 0 0] rs s' := by
  apply bootmem_allocations_disjoint fourPages_initial
  refine ⟨⟨⟨by decide, 5, by decide, rfl⟩, by decide, dvd_zero _, .inl rfl,
    fun _ h => absurd rfl h⟩, fun p hp => ⟨⟨⟨by decide, 5, by decide, rfl⟩, ?_⟩, fun _ _ => trivial⟩⟩
  obtain rfl := Option.some.inj hp
  exact ⟨by decide, dvd_zero _, .inl rfl, fun _ _ => ⟨rfl, fun h => h⟩⟩

end Linux
