/-
# MipsOnQemu.Linux.Zone -- the free blocks of a zone (`mm/page_alloc.c`)

A page is its frame number. Of a `struct page`, the buddy allocator uses the flag `PG_buddy` and
`page_private`, which holds the order of a free block in its first page; of `struct zone`, the
number of free pages and the free list of every order. Pages of other zones are told by
`page_zone_id`, which no function here changes. `unsigned long` has 32 bits; page frame numbers and
counts of pages are far below that and are natural numbers, while `zone_watermark_ok`, which
calculates with limits that a caller chooses, does so in words.
-/

import Mathlib

namespace Linux

open Function

def maxOrder : Nat := 11

/-- `struct free_area`: the list of the first pages of the free blocks of an order, and its length. -/
structure FreeArea where
  freeList : List Nat
  nrFree : Nat

/-- What the allocator keeps in a `struct page`. -/
structure PageWord where
  /-- `PG_buddy` -/
  buddy : Bool
  /-- `page_private` -/
  order : Nat

/-- A `struct zone`, with the pages it is kept in. -/
structure Zone where
  freePages : Nat
  freeArea : Nat → FreeArea
  lowmemReserve : Nat → BitVec 32
  page : Nat → PageWord
  /-- `page_zone_id` -/
  zoneId : Nat → Nat

namespace Zone

def setPageOrder (z : Zone) (page order : Nat) : Zone :=
  { z with page := update z.page page ⟨true, order⟩ }

def rmvPageOrder (z : Zone) (page : Nat) : Zone :=
  { z with page := update z.page page ⟨false, 0⟩ }

/-- `list_add(&page->lru, &area->free_list)`, `area->nr_free++` and `set_page_order`. -/
def addBlock (z : Zone) (page order : Nat) : Zone :=
  let area := z.freeArea order
  ({ z with freeArea := update z.freeArea order ⟨page :: area.freeList, area.nrFree + 1⟩ }
    ).setPageOrder page order

/-- `list_del(&page->lru)`, `area->nr_free--` and `rmv_page_order`. -/
def delBlock (z : Zone) (page order : Nat) : Zone :=
  let area := z.freeArea order
  ({ z with freeArea :=
      update z.freeArea order ⟨area.freeList.erase page, area.nrFree - 1⟩ }
    ).rmvPageOrder page

end Zone

/-! ## Freeing -/

def pageFindBuddy (page pageIdx order : Nat) : Nat :=
  let buddyIdx := pageIdx ^^^ (1 <<< order)
  page + buddyIdx - pageIdx

def findCombinedIndex (pageIdx order : Nat) : Nat := Nat.ldiff pageIdx (1 <<< order)

def pageIsBuddy (z : Zone) (page buddy order : Nat) : Bool :=
  if z.zoneId page ≠ z.zoneId buddy then false
  else (z.page buddy).buddy && (z.page buddy).order == order

/-- The loop of `__free_one_page`: `MAX_ORDER - 1 - order` rounds are left. -/
def coalesce : Nat → Zone → Nat → Nat → Nat → Zone
  | 0, z, page, _, order => z.addBlock page order
  | rounds + 1, z, page, pageIdx, order =>
    let buddy := pageFindBuddy page pageIdx order
    if pageIsBuddy z page buddy order then
      let combinedIdx := findCombinedIndex pageIdx order
      coalesce rounds (z.delBlock buddy order) (page + combinedIdx - pageIdx) combinedIdx (order + 1)
    else z.addBlock page order

def freeOnePage (z : Zone) (page order : Nat) : Zone :=
  let pageIdx := page &&& ((1 <<< maxOrder) - 1)
  coalesce (maxOrder - 1 - order) { z with freePages := z.freePages + 1 <<< order } page pageIdx order

/-! ## Allocation -/

/-- `expand`: `rounds` is `high - low`. -/
def expand (z : Zone) (page low : Nat) : Nat → Zone
  | 0 => z
  | rounds + 1 =>
    let high := low + rounds
    expand (z.addBlock (page + 1 <<< high) high) page low rounds

/-- The loop of `__rmqueue` from `current_order` on, with the orders that are left. -/
def rmqueueFrom (z : Zone) (order : Nat) : Nat → Nat → Option Nat × Zone
  | 0, _ => (none, z)
  | rounds + 1, currentOrder =>
    match (z.freeArea currentOrder).freeList with
    | [] => rmqueueFrom z order rounds (currentOrder + 1)
    | page :: _ =>
      let z := z.delBlock page currentOrder
      let z := { z with freePages := z.freePages - 1 <<< order }
      (some page, expand z page order (currentOrder - order))

def rmqueue (z : Zone) (order : Nat) : Option Nat × Zone :=
  rmqueueFrom z order (maxOrder - order) order

/-! ## Watermarks -/

def allocHarder : BitVec 32 := 0x10#32

def allocHigh : BitVec 32 := 0x20#32

/-- `mark`, reduced by the flags. -/
def reducedMark (mark allocFlags : BitVec 32) : BitVec 32 :=
  let min := mark
  let min := if allocFlags &&& allocHigh ≠ 0#32 then min - min / 2#32 else min
  if allocFlags &&& allocHarder ≠ 0#32 then min - min / 4#32 else min

/-- The loop of `zone_watermark_ok` over the orders from `o` on. The comparison of a `long` with an
`unsigned long` is one of unsigned numbers. -/
def watermarkLoop (z : Zone) : Nat → Nat → BitVec 32 → BitVec 32 → Bool
  | 0, _, _, _ => true
  | rounds + 1, o, freePages, min =>
    let freePages := freePages - BitVec.ofNat 32 (z.freeArea o).nrFree <<< o
    let min := min >>> 1
    if freePages ≤ min then false else watermarkLoop z rounds (o + 1) freePages min

def zoneWatermarkOk (z : Zone) (order : Nat) (mark : BitVec 32) (classzoneIdx : Nat)
    (allocFlags : BitVec 32) : Bool :=
  let min := reducedMark mark allocFlags
  let freePages := BitVec.ofNat 32 z.freePages - (1#32 <<< order) + 1#32
  if freePages ≤ min + z.lowmemReserve classzoneIdx then false
  else watermarkLoop z order 0 freePages min

end Linux
