/-
# MipsOnQemu.Linux.Vmalloc -- the list of kernel virtual areas

`mm/vmalloc.c`. `vmlist` has the areas in the order of their addresses, each with a guard page at its end.
`__get_vm_area_node` goes through the list with a candidate address that it raises past every area in the way,
and links the new area where the candidate leaves enough room. The candidate is compared with `end` only when it
has just been raised past an area that does not begin below it. So a request for which there is no room may be
answered with an area beyond `end`: if the list is empty, if the next area lies beyond `end`, or if the last
area that was in the way began below the candidate. And for the largest sizes the guard page makes the size 0.

As long as every request has room, or steps over an area from below and comes out too near to `end`, the areas
are as they should be (`vmlist_right`). `vmlist_overruns` has requests that are not.
-/

import MipsOnQemu.Lib.Tiling
import MipsOnQemu.Linux.Resource

namespace Linux

open List BitVec Nat

/-- `struct vm_struct`; `size` is with the guard page. -/
structure VmStruct where
  addr : BitVec 32
  size : BitVec 32
  flags : BitVec 32
  deriving DecidableEq

/-- The arguments of `__get_vm_area_node`; `stop` is `end`. -/
structure VmRequest where
  size : BitVec 32
  flags : BitVec 32
  start : BitVec 32
  stop : BitVec 32

def fls (word : BitVec 32) : Nat := word.toNat.size

/-- The order of the alignment: between `PAGE_SHIFT` and `IOREMAP_MAX_ORDER` for `VM_IOREMAP`. -/
def VmRequest.alignBit (q : VmRequest) : Nat :=
  if q.flags &&& 1#32 ≠ 0#32 then
    if fls q.size > 19 then 19 else if fls q.size < 12 then 12 else fls q.size
  else 0

def VmRequest.align (q : VmRequest) : BitVec 32 := 1#32 <<< q.alignBit

/-- The loop over `vmlist`: the new area and the list with it, or nothing after `goto out`. -/
def linkArea (q : VmRequest) (size : BitVec 32) : BitVec 32 → List VmStruct → Option (VmStruct × List VmStruct)
  | addr, [] => some (⟨addr, size, q.flags⟩, [⟨addr, size, q.flags⟩])
  | addr, tmp :: rest =>
    if tmp.addr < addr then
      (linkArea q size
        (if tmp.addr + tmp.size ≥ addr then alignTo (tmp.size + tmp.addr) q.align else addr) rest).map
          fun r => (r.1, tmp :: r.2)
    else if size + addr < addr then none
    else if size + addr ≤ tmp.addr then
      some (⟨addr, size, q.flags⟩, ⟨addr, size, q.flags⟩ :: tmp :: rest)
    else if alignTo (tmp.size + tmp.addr) q.align > q.stop - size then none
    else (linkArea q size (alignTo (tmp.size + tmp.addr) q.align) rest).map fun r => (r.1, tmp :: r.2)

/-- `__get_vm_area_node`: its result and the list afterwards. `kmalloc` says whether there is memory for the
descriptor. -/
def getVmAreaNode (vmlist : List VmStruct) (q : VmRequest) (kmalloc : Bool) :
    Option VmStruct × List VmStruct :=
  -- `PAGE_ALIGN`
  let size := alignTo q.size 4096#32
  if size = 0#32 then (none, vmlist)
  else if !kmalloc then (none, vmlist)
  else
    match linkArea q (size + 4096#32) (alignTo q.start q.align) vmlist with
    | none => (none, vmlist)
    | some (area, vmlist) => (some area, vmlist)

/-- `__remove_vm_area`: its result, without the guard page, and the list afterwards. -/
def removeVmArea (addr : BitVec 32) : List VmStruct → Option VmStruct × List VmStruct
  | [] => (none, [])
  | tmp :: rest =>
    if tmp.addr = addr then (some { tmp with size := tmp.size - 4096#32 }, rest)
    else ((removeVmArea addr rest).1, tmp :: (removeVmArea addr rest).2)

/-! ## What the list and the results should be -/

/-- The address behind an area and its guard page. -/
def VmStruct.stop (a : VmStruct) : Nat := a.addr.toNat + a.size.toNat

/-- Sorted by address, disjoint, and in the address space. -/
structure VmAreas (l : List VmStruct) : Prop where
  inOrder : Tiling.InOrder (fun a : VmStruct => a.addr.toNat) VmStruct.stop l
  size_pos : ∀ a ∈ l, 0 < a.size.toNat
  stop_lt : ∀ a ∈ l, a.stop < 2 ^ 32

namespace VmRequest

/-- The bytes of a request, with the guard page. -/
def need (q : VmRequest) : Nat := roundUp 4096 q.size.toNat + 4096

/-- The size rounds to zero, or overflows. -/
def RoundsToZero (q : VmRequest) : Prop := roundUp 4096 q.size.toNat % 2 ^ 32 = 0

/-- **An aligned gap** for a request at `x`. -/
structure Gap (q : VmRequest) (l : List VmStruct) (x : Nat) : Prop where
  aligned : q.align.toNat ∣ x
  start_le : q.start.toNat ≤ x
  le_stop : x + q.need ≤ q.stop.toNat
  free : ∀ a ∈ l, a.stop ≤ x ∨ x + q.need ≤ a.addr.toNat

/-- **The request is stopped at an area `t`:** there is an aligned address `c` with nothing between it and `t`,
no room before `t`, and behind `t` the end is too near. -/
def StoppedAt (q : VmRequest) (l : List VmStruct) (t : VmStruct) (c : Nat) : Prop :=
  q.align.toNat ∣ c ∧ q.start.toNat ≤ c ∧ c ≤ t.addr.toNat ∧ (∀ a ∈ l, a.stop ≤ c ∨ t.addr.toNat ≤ a.addr.toNat) ∧
    (∀ x, q.align.toNat ∣ x → q.start.toNat ≤ x → x + q.need ≤ t.addr.toNat →
      ∃ a ∈ l, x < a.stop ∧ a.addr.toNat < x + q.need) ∧
    q.need ≤ q.stop.toNat ∧ q.stop.toNat < roundUp q.align.toNat t.stop + q.need ∧
    roundUp q.align.toNat t.stop < 2 ^ 32

/-- **The requests that are answered as they should be**, in terms of the list that they meet. -/
def Answered (q : VmRequest) (l : List VmStruct) (kmalloc : Bool) : Prop :=
  kmalloc = false ∨ q.RoundsToZero ∨ (∃ x, q.Gap l x) ∨ ∃ t ∈ l, ∃ c, q.StoppedAt l t c

end VmRequest

/-- **A right answer:** an area of the size that was asked for, aligned and in the range, linked into the list;
or nothing, if there is no memory, no size or no gap. -/
structure VmRight (l : List VmStruct) (q : VmRequest) (kmalloc : Bool) (r : Option VmStruct × List VmStruct) :
    Prop where
  aligned : ∀ area ∈ r.1, q.align.toNat ∣ area.addr.toNat
  size : ∀ area ∈ r.1, area.size.toNat = q.need
  start_le : ∀ area ∈ r.1, q.start.toNat ≤ area.addr.toNat
  le_stop : ∀ area ∈ r.1, area.stop ≤ q.stop.toNat
  linked : ∀ area ∈ r.1, ∃ before rest, l = before ++ rest ∧ r.2 = before ++ area :: rest
  null : r.1 = none → r.2 = l ∧ (kmalloc = true → q.RoundsToZero ∨ ∀ x, ¬ q.Gap l x)

/-- The lists that calls produce, if each request is one of those. -/
inductive VmReached : List VmStruct → Prop
  | empty : VmReached []
  | get {l : List VmStruct} (q : VmRequest) (kmalloc : Bool) (h : VmReached l) (hq : q.Answered l kmalloc) :
      VmReached (getVmAreaNode l q kmalloc).2
  | remove {l : List VmStruct} (addr : BitVec 32) (h : VmReached l) : VmReached (removeVmArea addr l).2

/-! ## Rounding the candidate -/

section Walk

variable {q : VmRequest} {size addr : BitVec 32} {l : List VmStruct}

theorem VmRequest.align_toNat (q : VmRequest) : q.align.toNat = 2 ^ q.alignBit := by
  have hbit : q.alignBit < 32 := by
    unfold alignBit
    split_ifs <;> omega
  exact Words.toNat_one_shiftLeft hbit

theorem VmRequest.align_pos (q : VmRequest) : 0 < q.align.toNat := by
  rw [q.align_toNat]
  exact Nat.two_pow_pos _

theorem align_le {x : BitVec 32} {y : Nat} (hy : q.align.toNat ∣ y) (hxy : x.toNat ≤ y) (hlt : y < 2 ^ 32) :
    q.align.toNat ∣ (alignTo x q.align).toNat ∧ x.toNat ≤ (alignTo x q.align).toNat ∧
      (alignTo x q.align).toNat ≤ y := by
  have hle : roundUp q.align.toNat x.toNat ≤ y := (roundUp_le_iff q.align_pos hy).mpr hxy
  have heq : (alignTo x q.align).toNat = roundUp q.align.toNat x.toNat := by
    rw [alignTo_toNat q.align_toNat, ← q.align_toNat, mod_eq_of_lt (by omega)]
  rw [heq]
  exact ⟨dvd_roundUp, le_roundUp q.align_pos, hle⟩

theorem VmStruct.toNat_end {a : VmStruct} (h : a.stop < 2 ^ 32) :
    (a.size + a.addr).toNat = a.stop ∧ (a.addr + a.size).toNat = a.stop := by
  unfold stop at *
  rw [toNat_add, toNat_add, add_comm a.size.toNat]
  exact ⟨mod_eq_of_lt h, mod_eq_of_lt h⟩

theorem VmAreas.sublist {l' : List VmStruct} (hl : VmAreas l) (h : l'.Sublist l) : VmAreas l' :=
  ⟨hl.inOrder.sublist h, fun a ha => hl.size_pos a (h.subset ha), fun a ha => hl.stop_lt a (h.subset ha)⟩

theorem VmAreas.tail {a : VmStruct} (h : VmAreas (a :: l)) : VmAreas l := h.sublist (sublist_cons_self a l)

/-- **One area.** The candidate behind it is the first aligned address from its end and the old candidate on. -/
theorem linkArea_cons (size : BitVec 32) (l : List VmStruct) {tmp : VmStruct} {y : Nat}
    (htmp : tmp.stop < 2 ^ 32) (haddr : q.align.toNat ∣ addr.toNat) (hy : q.align.toNat ∣ y)
    (hle : addr.toNat ≤ y) (hover : tmp.stop ≤ y) (hlt : y < 2 ^ 32) :
    ∃ next : BitVec 32, q.align.toNat ∣ next.toNat ∧ addr.toNat ≤ next.toNat ∧ tmp.stop ≤ next.toNat ∧
      next.toNat ≤ y ∧ linkArea q size addr (tmp :: l) =
        if tmp.addr < addr then (linkArea q size next l).map fun r => (r.1, tmp :: r.2)
        else if size + addr < addr then none
        else if size + addr ≤ tmp.addr then
          some (⟨addr, size, q.flags⟩, ⟨addr, size, q.flags⟩ :: tmp :: l)
        else if next > q.stop - size then none
        else (linkArea q size next l).map fun r => (r.1, tmp :: r.2) := by
  obtain ⟨hend, hend'⟩ := VmStruct.toNat_end htmp
  obtain ⟨hdvd, hlow, hhigh⟩ := align_le hy (hend ▸ hover) hlt
  have hpos : tmp.addr.toNat ≤ tmp.stop := le_add_right _ _
  rw [linkArea]
  by_cases hless : tmp.addr < addr
  · by_cases hreach : tmp.addr + tmp.size ≥ addr
    · refine ⟨_, hdvd, ?_, by omega, hhigh, by rw [if_pos hless, if_pos hless, if_pos hreach]⟩
      have hreach' : addr.toNat ≤ (tmp.addr + tmp.size).toNat := hreach
      omega
    · refine ⟨addr, haddr, le_rfl, ?_, hle, by rw [if_pos hless, if_pos hless, if_neg hreach]⟩
      have hreach' : ¬ addr.toNat ≤ (tmp.addr + tmp.size).toNat := hreach
      omega
  · refine ⟨_, hdvd, ?_, by omega, hhigh, by rw [if_neg hless, if_neg hless]⟩
    have hless' : ¬ tmp.addr.toNat < addr.toNat := hless
    omega

/-! ## The loop -/

/-- The new area is linked at `place`, behind the areas `before`. -/
structure LinkedAt (q : VmRequest) (size : BitVec 32) (l : List VmStruct) (r : Option (VmStruct × List VmStruct))
    (place : BitVec 32) (before rest : List VmStruct) : Prop where
  eq : r = some (⟨place, size, q.flags⟩, before ++ ⟨place, size, q.flags⟩ :: rest)
  list : l = before ++ rest
  aligned : q.align.toNat ∣ place.toNat
  stop_le : ∀ a ∈ before, a.stop ≤ place.toNat
  le_addr : ∀ a ∈ rest, place.toNat + size.toNat ≤ a.addr.toNat

theorem LinkedAt.pass {r : Option (VmStruct × List VmStruct)} {place : BitVec 32} {before rest : List VmStruct}
    (h : LinkedAt q size l r place before rest) {tmp : VmStruct} (hover : tmp.stop ≤ place.toNat) :
    LinkedAt q size (tmp :: l) (r.map fun r => (r.1, tmp :: r.2)) place (tmp :: before) rest := by
  refine ⟨?_, congrArg (tmp :: ·) h.list, h.aligned, forall_mem_cons.mpr ⟨hover, h.stop_le⟩, h.le_addr⟩
  rw [h.eq]
  rfl

/-- **With a gap** the loop links the new area, at or before the gap. -/
theorem linkArea_gap (hl : VmAreas l) {x : Nat} (haddr : q.align.toNat ∣ addr.toNat) (hx : q.align.toNat ∣ x)
    (hle : addr.toNat ≤ x) (htop : x + size.toNat ≤ q.stop.toNat)
    (hfree : ∀ a ∈ l, a.stop ≤ x ∨ x + size.toNat ≤ a.addr.toNat) :
    ∃ place before rest, LinkedAt q size l (linkArea q size addr l) place before rest ∧
      addr.toNat ≤ place.toNat ∧ place.toNat ≤ x := by
  have hstop := q.stop.isLt
  have hsum : (size + addr).toNat = size.toNat + addr.toNat := toNat_add_of_lt (by omega)
  have hwrap : ¬ size + addr < addr := by
    rw [lt_def]
    omega
  induction l generalizing addr with
  | nil => exact ⟨addr, [], [], ⟨rfl, rfl, haddr, by simp, by simp⟩, le_rfl, hle⟩
  | cons tmp l ih =>
    have hbehind := (pairwise_cons.mp hl.inOrder).1
    have hpos : tmp.addr.toNat ≤ tmp.stop := le_add_right _ _
    -- the area lies behind the candidate and the room that it needs
    have hhere : size + addr ≤ tmp.addr → ∃ place before rest, LinkedAt q size (tmp :: l)
        (some (⟨addr, size, q.flags⟩, ⟨addr, size, q.flags⟩ :: tmp :: l)) place before rest ∧
          addr.toNat ≤ place.toNat ∧ place.toNat ≤ x := by
      intro hfit
      have hfit' : (size + addr).toNat ≤ tmp.addr.toNat := hfit
      refine ⟨addr, [], tmp :: l, ⟨rfl, rfl, haddr, by simp, ?_⟩, le_rfl, hle⟩
      refine forall_mem_cons.mpr ⟨by omega, fun a ha => ?_⟩
      have hafter : tmp.stop ≤ a.addr.toNat := hbehind a ha
      omega
    rcases hfree tmp mem_cons_self with hover | hbefore
    · obtain ⟨next, hdvd, hlow, hnext, hhigh, hlink⟩ :=
        linkArea_cons size l (hl.stop_lt tmp mem_cons_self) haddr hx hle hover (by omega)
      have hsum' : (size + next).toNat = size.toNat + next.toNat := toNat_add_of_lt (by omega)
      obtain ⟨place, before, rest, hlinked, hge, hxle⟩ := ih hl.tail hdvd hhigh
        (fun a ha => hfree a (mem_cons_of_mem tmp ha)) hsum' (by rw [lt_def]; omega)
      have hpass : ∃ place before rest, LinkedAt q size (tmp :: l)
          ((linkArea q size next l).map fun r => (r.1, tmp :: r.2)) place before rest ∧
            addr.toNat ≤ place.toNat ∧ place.toNat ≤ x :=
        ⟨place, _, rest, hlinked.pass (by omega), by omega, hxle⟩
      have hsub : (q.stop - size).toNat = q.stop.toNat - size.toNat :=
        toNat_sub_of_le (le_def.mpr (by omega))
      have hnear : ¬ next > q.stop - size := by
        rw [gt_iff_lt, lt_def]
        omega
      rw [hlink, if_neg hwrap, if_neg hnear]
      split_ifs with hless hfit
      · exact hpass
      · exact hhere hfit
      · exact hpass
    · have hless : ¬ tmp.addr < addr := by
        rw [lt_def]
        omega
      have hfit : size + addr ≤ tmp.addr := le_def.mpr (by omega)
      rw [linkArea, if_neg hless, if_neg hwrap, if_pos hfit]
      exact hhere hfit

/-- **A request that is stopped at an area** is given up there, or before. -/
theorem linkArea_stopped (hl : VmAreas l) {t : VmStruct} (ht : t ∈ l) {c : Nat} (haddr : q.align.toNat ∣ addr.toNat)
    (hc : q.align.toNat ∣ c) (hle : addr.toNat ≤ c) (hct : c ≤ t.addr.toNat)
    (hclear : ∀ a ∈ l, a.stop ≤ c ∨ t.addr.toNat ≤ a.addr.toNat)
    (hroom : ∀ x, q.align.toNat ∣ x → addr.toNat ≤ x → x + size.toNat ≤ t.addr.toNat →
      ∃ a ∈ l, x < a.stop ∧ a.addr.toNat < x + size.toNat)
    (hsize : size.toNat ≤ q.stop.toNat) (hnear : q.stop.toNat < roundUp q.align.toNat t.stop + size.toNat)
    (htop : roundUp q.align.toNat t.stop < 2 ^ 32) : linkArea q size addr l = none := by
  have hlast := t.addr.isLt
  have hsub : (q.stop - size).toNat = q.stop.toNat - size.toNat := toNat_sub_of_le (le_def.mpr hsize)
  induction l generalizing addr with
  | nil => cases ht
  | cons tmp l ih =>
    have htmp := hl.stop_lt tmp mem_cons_self
    have hpos := hl.size_pos tmp mem_cons_self
    have hstop : tmp.stop = tmp.addr.toNat + tmp.size.toNat := rfl
    have hbehind : ∀ a ∈ l, tmp.stop ≤ a.addr.toNat := (pairwise_cons.mp hl.inOrder).1
    -- there is no room before this area
    have hfit : ¬ size + addr < addr → ¬ size + addr ≤ tmp.addr := by
      intro hwrap hfit
      have hwrap' : ¬ (size + addr).toNat < addr.toNat := hwrap
      have hfit' : (size + addr).toNat ≤ tmp.addr.toNat := hfit
      rw [toNat_add] at hwrap' hfit'
      have htmple : tmp.addr.toNat ≤ t.addr.toNat := by
        rcases mem_cons.mp ht with rfl | ht
        · exact le_rfl
        · have horder := hbehind t ht
          omega
      obtain ⟨a, ha, hlow, hhigh⟩ := hroom addr.toNat haddr le_rfl (by omega)
      rcases mem_cons.mp ha with rfl | ha
      · omega
      · have horder := hbehind a ha
        omega
    by_cases htt : t = tmp
    · -- behind `t` the end is too near
      subst htt
      have hless : ¬ t.addr < addr := by
        rw [lt_def]
        omega
      have hround : (alignTo (t.size + t.addr) q.align).toNat = roundUp q.align.toNat t.stop := by
        rw [alignTo_toNat q.align_toNat, ← q.align_toNat, (VmStruct.toNat_end htmp).1, mod_eq_of_lt htop]
      have hgt : alignTo (t.size + t.addr) q.align > q.stop - size := by
        rw [gt_iff_lt, lt_def]
        omega
      rw [linkArea, if_neg hless]
      split_ifs with hwrap hroom'
      · rfl
      · exact absurd hroom' (hfit hwrap)
      · rfl
    · have htl : t ∈ l := (mem_cons.mp ht).resolve_left htt
      have horder := hbehind t htl
      have hover : tmp.stop ≤ c := (hclear tmp mem_cons_self).resolve_right (by omega)
      obtain ⟨next, hdvd, hlow, hnext, hhigh, hlink⟩ :=
        linkArea_cons size l htmp haddr hc hle hover (by omega)
      have hrest : linkArea q size next l = none := by
        refine ih hl.tail htl hdvd hhigh (fun a ha => hclear a (mem_cons_of_mem tmp ha)) fun x hx hxle hxt => ?_
        obtain ⟨a, ha, hmeets⟩ := hroom x hx (by omega) hxt
        rcases mem_cons.mp ha with rfl | ha
        · omega
        · exact ⟨a, ha, hmeets⟩
      rw [hlink, hrest]
      split_ifs with hless hwrap hroom'
      · rfl
      · rfl
      · exact absurd hroom' (hfit hwrap)
      · rfl
      · rfl

theorem VmAreas.link {place : BitVec 32} {before rest : List VmStruct} {r : Option (VmStruct × List VmStruct)}
    (hl : VmAreas l) (h : LinkedAt q size l r place before rest) (hpos : 0 < size.toNat)
    (htop : place.toNat + size.toNat < 2 ^ 32) : VmAreas (before ++ ⟨place, size, q.flags⟩ :: rest) := by
  have hall : ∀ {P : VmStruct → Prop}, P ⟨place, size, q.flags⟩ → (∀ a ∈ l, P a) →
      ∀ a ∈ before ++ (⟨place, size, q.flags⟩ : VmStruct) :: rest, P a := by
    intro P hnew hold
    rw [h.list, forall_mem_append] at hold
    exact forall_mem_append.mpr ⟨hold.1, forall_mem_cons.mpr ⟨hnew, hold.2⟩⟩
  obtain ⟨hbefore, hrest, hcross⟩ := pairwise_append.mp (h.list ▸ hl.inOrder)
  refine ⟨pairwise_append.mpr ⟨hbefore, pairwise_cons.mpr ⟨h.le_addr, hrest⟩, fun a ha => ?_⟩,
    hall hpos hl.size_pos, hall htop hl.stop_lt⟩
  exact forall_mem_cons.mpr ⟨h.stop_le a ha, hcross a ha⟩

theorem removeVmArea_sublist (addr : BitVec 32) (l : List VmStruct) : ((removeVmArea addr l).2).Sublist l := by
  induction l with
  | nil => exact List.Sublist.refl _
  | cons tmp l ih =>
    rw [removeVmArea]
    split
    · exact sublist_cons_self tmp l
    · exact ih.cons_cons tmp

/-! ## One call, and all calls -/

theorem vmRight_none {kmalloc : Bool} (h : kmalloc = true → q.RoundsToZero ∨ ∀ x, ¬ q.Gap l x) :
    VmRight l q kmalloc (none, l) :=
  ⟨nofun, nofun, nofun, nofun, nofun, fun _ => ⟨rfl, h⟩⟩

theorem VmRequest.StoppedAt.no_gap {t : VmStruct} {c : Nat} (h : q.StoppedAt l t c) (ht : t ∈ l) (x : Nat) :
    ¬ q.Gap l x := by
  obtain ⟨-, -, -, -, hroom, -, hnear, -⟩ := h
  intro hgap
  have hstop := hgap.le_stop
  rcases hgap.free t ht with hbehind | hbefore
  · have hround := (roundUp_le_iff q.align_pos hgap.aligned).mpr hbehind
    omega
  · obtain ⟨a, ha, hmeets⟩ := hroom x hgap.aligned hgap.start_le hbefore
    have hapart := hgap.free a ha
    omega

theorem getVmAreaNode_right (hl : VmAreas l) {kmalloc : Bool} (h : q.Answered l kmalloc) :
    VmRight l q kmalloc (getVmAreaNode l q kmalloc) ∧ VmAreas (getVmAreaNode l q kmalloc).2 := by
  have hround : (alignTo q.size 4096#32).toNat = roundUp 4096 q.size.toNat % 2 ^ 32 :=
    alignTo_toNat (k := 12) rfl
  unfold getVmAreaNode
  by_cases hzero : alignTo q.size 4096#32 = 0#32
  · rw [hzero] at hround
    rw [if_pos hzero]
    exact ⟨vmRight_none fun _ => .inl hround.symm, hl⟩
  rw [if_neg hzero]
  have hnonzero : ¬ q.RoundsToZero := fun hrounds => hzero (eq_of_toNat_eq (hround.trans hrounds))
  cases kmalloc with
  | false => exact ⟨vmRight_none nofun, hl⟩
  | true =>
    have hstop := q.stop.isLt
    -- the size with its guard page, if that is not beyond `end`
    have hneed : q.need ≤ q.stop.toNat → (alignTo q.size 4096#32 + 4096#32).toNat = q.need := by
      intro hle
      unfold VmRequest.need at hle ⊢
      have hpage : (4096#32).toNat = 4096 := by decide
      rw [mod_eq_of_lt (by omega)] at hround
      rw [toNat_add, hround, hpage, mod_eq_of_lt (by omega)]
    generalize alignTo q.size 4096#32 + 4096#32 = size at hneed ⊢
    rcases h with h | h | ⟨x, hgap⟩ | ⟨t, ht, c, hstopped⟩
    · cases h
    · exact absurd h hnonzero
    · have hle := hgap.le_stop
      have hsize := hneed (by omega)
      obtain ⟨hdvd, hlow, hhigh⟩ := align_le hgap.aligned hgap.start_le (by omega)
      obtain ⟨place, before, rest, hlinked, hge, hxle⟩ :=
        linkArea_gap hl hdvd hgap.aligned hhigh (hsize.symm ▸ hle) (hsize.symm ▸ hgap.free)
      have hpos : 0 < q.need := succ_pos _
      have hareas := hl.link hlinked (by omega) (by omega)
      rw [hlinked.eq]
      refine ⟨⟨?_, ?_, ?_, ?_, ?_, nofun⟩, hareas⟩ <;> rintro area ⟨⟩
      · exact hlinked.aligned
      · exact hsize
      · exact hlow.trans hge
      · show place.toNat + size.toNat ≤ q.stop.toNat
        omega
      · exact ⟨before, rest, hlinked.list, rfl⟩
    · obtain ⟨hc, hstart, hct, hclear, hroom, hle, hnear, htop⟩ := id hstopped
      have hsize := hneed hle
      have hlast := t.addr.isLt
      obtain ⟨hdvd, hlow, hhigh⟩ := align_le hc hstart (by omega)
      have hnone : linkArea q size (alignTo q.start q.align) l = none := linkArea_stopped hl ht hdvd hc hhigh hct hclear
        (fun x hx hxle hxt => hsize.symm ▸ hroom x hx (hlow.trans hxle) (hsize ▸ hxt)) (hsize.symm ▸ hle)
        (hsize.symm ▸ hnear) htop
      rw [hnone]
      exact ⟨vmRight_none fun _ => .inr (hstopped.no_gap ht), hl⟩

end Walk

/-- **The areas are in order and disjoint, and every such request gets a right answer.** -/
theorem vmlist_right {l : List VmStruct} (h : VmReached l) :
    VmAreas l ∧ ∀ (q : VmRequest) (kmalloc : Bool), q.Answered l kmalloc →
      VmRight l q kmalloc (getVmAreaNode l q kmalloc) := by
  have hareas : VmAreas l := by
    induction h with
    | empty => exact ⟨List.Pairwise.nil, nofun, nofun⟩
    | get q kmalloc _ hq ih => exact (getVmAreaNode_right ih hq).2
    | remove addr _ ih => exact ih.sublist (removeVmArea_sublist addr _)
  exact ⟨hareas, fun q kmalloc hq => (getVmAreaNode_right hareas hq).1⟩

/-- So many bytes from a range of four pages. -/
def inFourPages (size : BitVec 32) : VmRequest := ⟨size, 0, 0xC0000000, 0xC0004000⟩

/-- Three pages have room once; the second request for them is stopped at the first area. -/
theorem vmlist_right_threePages : ∃ l, VmReached l ∧ l.map (fun a => (a.addr, a.size)) = [(0xC0000000, 0x4000)] ∧
    VmAreas l ∧ (getVmAreaNode l (inFourPages 0x3000) true).1 = none ∧
    VmRight l (inFourPages 0x3000) true (getVmAreaNode l (inFourPages 0x3000) true) := by
  have hfirst : VmReached (getVmAreaNode [] (inFourPages 0x3000) true).2 :=
    .get _ true .empty (.inr (.inr (.inl ⟨0xC0000000, by decide, by decide, by decide, by decide⟩)))
  obtain ⟨hareas, hright⟩ := vmlist_right hfirst
  refine ⟨_, hfirst, by decide, hareas, by decide, hright _ true (.inr (.inr (.inr ?_)))⟩
  refine ⟨⟨0xC0000000, 0x4000, 0⟩, by decide, 0xC0000000, by decide, by decide, by decide, by decide,
    fun x _ hx hend => ?_, by decide, by decide, by decide⟩
  have hstart : 0xC0000000 ≤ x := hx
  have hbefore : x + 0x4000 ≤ 0xC0000000 := hend
  omega

/-- In an empty list a request for five pages is answered with an area that goes beyond the range of four. A
request whose guard page overflows gets an area without any bytes. -/
theorem vmlist_overruns : VmReached [] ∧
    getVmAreaNode [] (inFourPages 0x5000) true = (some ⟨0xC0000000, 0x6000, 0⟩, [⟨0xC0000000, 0x6000, 0⟩]) ∧
    ¬ VmRight [] (inFourPages 0x5000) true (getVmAreaNode [] (inFourPages 0x5000) true) ∧
    getVmAreaNode [] (inFourPages 0xFFFFF000) true = (some ⟨0xC0000000, 0, 0⟩, [⟨0xC0000000, 0, 0⟩]) ∧
    ¬ VmRight [] (inFourPages 0xFFFFF000) true (getVmAreaNode [] (inFourPages 0xFFFFF000) true) := by
  refine ⟨.empty, by decide, fun hright => ?_, by decide, fun hright => ?_⟩
  · exact absurd (hright.le_stop ⟨0xC0000000, 0x6000, 0⟩ (by decide)) (by decide)
  · exact absurd (hright.size ⟨0xC0000000, 0, 0⟩ (by decide)) (by decide)

end Linux
