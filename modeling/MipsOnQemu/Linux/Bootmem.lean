/-
# MipsOnQemu.Linux.Bootmem -- the boot memory allocator (`mm/bootmem.c`)

A node has a bit for each of its pages; the bit of a reserved page is set. Addresses are physical
ones, of 32 bits: what a caller passes may be any word, and where the source calculates with it the
result wraps around. The pages of a node have addresses, so their numbers are below `2 ^ 20`. A
function returns `none` where the source stops at a `BUG`.
-/

import MipsOnQemu.Lib.Blocks

namespace Linux

open Blocks

def pageSize : Nat := 4096

def pfnDown (x : Nat) : Nat := x >>> 12

def pfnUp (x : Nat) : Nat := ((x + pageSize - 1) % 2 ^ 32) >>> 12

def alignUp (x a : Nat) : Nat := ((x + a - 1) % 2 ^ 32) &&& (2 ^ 32 - 1 - (a - 1))

/-- `a - b`, as a word. -/
def subWord (a b : Nat) : Nat := (a + 2 ^ 32 - b) % 2 ^ 32

/-- `struct bootmem_data`, with the bits of its map. -/
structure Bootmem where
  nodeBootStart : Nat
  nodeLowPfn : Nat
  nodeBootmemMap : Nat → Bool
  /-- the page frame of the map -/
  mapPfn : Nat
  lastOffset : Nat
  lastPos : Nat
  lastSuccess : Nat
  /-- a node starts at a page -/
  aligned : pageSize ∣ nodeBootStart
  ordered : pfnDown nodeBootStart ≤ nodeLowPfn
  /-- its end has an address -/
  low : nodeLowPfn < 2 ^ 20

namespace Bootmem

def pages (b : Bootmem) : Nat := b.nodeLowPfn - pfnDown b.nodeBootStart

/-- The bits of the pages from `sidx` to `eidx` are set or cleared. -/
def writeBits (b : Bootmem) (sidx eidx : Nat) (bit : Bool) : Bootmem :=
  { b with nodeBootmemMap := fun i => if sidx ≤ i ∧ i < eidx then bit else b.nodeBootmemMap i }

end Bootmem

def reserveBootmemCore (b : Bootmem) (addr size : Nat) : Option Bootmem :=
  if size = 0 then none
  else if b.nodeLowPfn ≤ pfnDown addr then none
  else if b.nodeLowPfn < pfnUp ((addr + size) % 2 ^ 32) then none
  else
    let sidx := pfnDown (subWord addr b.nodeBootStart)
    let eidx := pfnUp (subWord ((addr + size) % 2 ^ 32) b.nodeBootStart)
    some (b.writeBits sidx eidx true)

def freeBootmemCore (b : Bootmem) (addr size : Nat) : Option Bootmem :=
  if size = 0 then none
  else if b.nodeLowPfn < pfnDown ((addr + size) % 2 ^ 32) then none
  else
    let b := if addr < b.lastSuccess then { b with lastSuccess := addr } else b
    let sidx := subWord (pfnUp addr) (pfnDown b.nodeBootStart)
    let eidx := pfnDown (subWord ((addr + size) % 2 ^ 32) b.nodeBootStart)
    -- a page that is not reserved is a `BUG`
    if (List.range' sidx (eidx - sidx)).all b.nodeBootmemMap then some (b.writeBits sidx eidx false)
    else none

/-! ## Allocation -/

/-- `find_next_zero_bit`, over the bits that are left. -/
def findNextZeroBit (map : Nat → Bool) : Nat → Nat → Nat
  | 0, offset => offset
  | left + 1, offset => if map offset then findNextZeroBit map left (offset + 1) else offset

/-- The loop over `j` in `__alloc_bootmem_core`: where it goes to `fail_block`, if it does. -/
def failBlock (map : Nat → Bool) (eidx : Nat) : Nat → Nat → Option Nat
  | 0, _ => none
  | left + 1, j =>
    if eidx ≤ j then some j
    else if map j then some j
    else failBlock map eidx left (j + 1)

/-- The loop over `i`: where it finds an area. -/
def scanArea (map : Nat → Bool) (eidx incr areasize : Nat) : Nat → Nat → Option Nat
  | 0, _ => none
  | rounds + 1, i =>
    if eidx ≤ i then none
    else
      let i := findNextZeroBit map (eidx - i) i
      let i := alignUp i incr
      if eidx ≤ i then none
      else if map i then scanArea map eidx incr areasize rounds (i + incr)
      else
        match failBlock map eidx (areasize - 1) (i + 1) with
        | none => some i
        | some j => scanArea map eidx incr areasize rounds (alignUp j incr + incr)

/-- `incr = align >> PAGE_SHIFT ? : 1`. -/
def alignIncr (align : Nat) : Nat := if align >>> 12 ≠ 0 then align >>> 12 else 1

/-- `(size + PAGE_SIZE-1) / PAGE_SIZE`. -/
def areaPages (size : Nat) : Nat := (size + pageSize - 1) % 2 ^ 32 / pageSize

namespace Bootmem

variable (b : Bootmem)

def endPfn (limit : Nat) : Nat :=
  if pfnDown limit ≠ 0 ∧ pfnDown limit < b.nodeLowPfn then pfnDown limit else b.nodeLowPfn

def eidx (limit : Nat) : Nat := b.endPfn limit - pfnDown b.nodeBootStart

def alignOffset (align : Nat) : Nat :=
  pfnDown (if align ≠ 0 ∧ b.nodeBootStart &&& (align - 1) ≠ 0
    then align - (b.nodeBootStart &&& (align - 1)) else 0)

def preferred (align goal limit : Nat) : Nat :=
  let preferred :=
    if goal ≠ 0 ∧ b.nodeBootStart ≤ goal ∧ pfnDown goal < b.endPfn limit then
      let preferred := goal - b.nodeBootStart
      -- `limit` is a page frame number by now
      if preferred ≤ b.lastSuccess ∧ (pfnDown limit = 0 ∨ b.lastSuccess < pfnDown limit)
      then b.lastSuccess else preferred
    else 0
  pfnDown (alignUp preferred align) + b.alignOffset align

/-- The search, from the preferred place and then from the first. -/
def findArea (size align goal limit : Nat) : Option Nat :=
  let scan := scanArea b.nodeBootmemMap (b.eidx limit) (alignIncr align) (areaPages size)
    (b.eidx limit + 1)
  match scan (b.preferred align goal limit) with
  | some start => some start
  | none =>
    if b.alignOffset align < b.preferred align goal limit then scan (b.alignOffset align) else none

/-- "Reserve the area now"; a page that is reserved already is a `BUG`. -/
def reserveArea (start areasize : Nat) : Option Bootmem :=
  if (List.range' start areasize).any b.nodeBootmemMap then none
  else some (b.writeBits start (start + areasize) true)

/-- What follows `found`: the address, and the node after it. -/
def takeArea (size align start : Nat) : Option (Nat × Bootmem) :=
  let b := { b with lastSuccess := start <<< 12 }
  if align < pageSize ∧ b.lastOffset ≠ 0 ∧ (b.lastPos + 1) % 2 ^ 32 = start then
    let offset := alignUp b.lastOffset align
    if pageSize < offset then none
    else
      let ret := b.lastPos * pageSize + offset + b.nodeBootStart
      let remainingSize := pageSize - offset
      if size < remainingSize then
        ({ b with lastOffset := (offset + size) % pageSize }.reserveArea start 0).map (ret, ·)
      else
        let remainingSize := size - remainingSize
        let areasize := areaPages remainingSize
        ({ b with lastPos := subWord (start + areasize) 1, lastOffset := remainingSize % pageSize
          }.reserveArea start areasize).map (ret, ·)
  else
    let areasize := areaPages size
    ({ b with lastPos := subWord (start + areasize) 1, lastOffset := size % pageSize
      }.reserveArea start areasize).map (start * pageSize + b.nodeBootStart, ·)

end Bootmem

/-- `__alloc_bootmem_core`: the address, if it is not `NULL`. -/
def allocBootmemCore (b : Bootmem) (size align goal limit : Nat) : Option (Option Nat × Bootmem) :=
  if size = 0 then none
  else if align &&& (align - 1) ≠ 0 then none
  else if limit ≠ 0 ∧ limit ≤ b.nodeBootStart then some (none, b)
  else
    match b.findArea size align goal limit with
    | none => some (none, b)
    | some start => (b.takeArea size align start).map fun r => (some r.1, r.2)

/-! ## Retirement -/

def bitsPerLong : Nat := 32

/-- `ffs` of a word that is not 0. -/
def ffs (x : Nat) : Nat := padicValNat 2 x + 1

namespace Bootmem

def gofast (b : Bootmem) : Bool :=
  b.nodeBootStart == 0 || decide (ffs bitsPerLong < ffs b.nodeBootStart - 12)

/-- The bits of `~map[i / BITS_PER_LONG]`. -/
def clearBits (b : Bootmem) (i m : Nat) : Bool :=
  !b.nodeBootmemMap (i / bitsPerLong * bitsPerLong + m)

/-- The loop over the bits of a word: the pages that are passed on, each alone, and `i` after it. -/
def freeWord (b : Bootmem) (idx v : Nat) : Nat → Nat → Nat → Nat → List Block × Nat
  | 0, _, _, i => ([], i)
  | left + 1, m, page, i =>
    if idx ≤ i then ([], i)
    else
      let (calls, i') := freeWord b idx v left (m + 1) (page + 1) (i + 1)
      (if b.clearBits v m then ⟨page, 0⟩ :: calls else calls, i')

/-- The loop over the words: the calls of `__free_pages_bootmem`, and `count`. -/
def freeWords (b : Bootmem) (idx : Nat) : Nat → Nat → Nat → List Block × Nat
  | 0, _, _ => ([], 0)
  | rounds + 1, i, pfn =>
    if idx ≤ i then ([], 0)
    else if b.gofast && (List.range bitsPerLong).all (b.clearBits i) then
      let (calls, count) := freeWords b idx rounds (i + bitsPerLong) (pfn + bitsPerLong)
      (⟨pfn, ffs bitsPerLong - 1⟩ :: calls, count + bitsPerLong)
    else if (List.range bitsPerLong).any (b.clearBits i) then
      let (word, i') := freeWord b idx i bitsPerLong 0 pfn i
      let (calls, count) := freeWords b idx rounds i' (pfn + bitsPerLong)
      (word ++ calls, count + word.length)
    else freeWords b idx rounds (i + bitsPerLong) (pfn + bitsPerLong)

def getMapsize (b : Bootmem) : Nat := alignUp ((b.pages + 7) / 8) 4

def mapPages (b : Bootmem) : Nat := (b.getMapsize + pageSize - 1) >>> 12

end Bootmem

/-- `free_all_bootmem_core`: the calls of `__free_pages_bootmem`, and the total. -/
def freeAllBootmemCore (b : Bootmem) : List Block × Nat :=
  let idx := b.pages
  let (calls, count) := b.freeWords idx (idx + 1) 0 (pfnDown b.nodeBootStart)
  let map := (List.range' b.mapPfn b.mapPages).map fun page => (⟨page, 0⟩ : Block)
  (calls ++ map, count + b.mapPages)

end Linux
