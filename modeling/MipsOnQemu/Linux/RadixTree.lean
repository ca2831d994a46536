/-
# MipsOnQemu.Linux.RadixTree -- the radix trees of `lib/radix-tree.c`

The slots of a node hold nodes or, at the bottom, items; which of them is only known from the height.
Here the height is part of the type of what a pointer points to, and a null pointer is `none`. The
functions return `none` where the source would dereference a null pointer, run into a `BUG_ON`, or
hand a node back to the slab that is not zeroed ("must only free zeroed nodes into the slab": the
constructor of the slab runs once for each node, not at every allocation).

Whether an allocation succeeds is up to the allocator: an insertion is given the outcomes, and an
allocation that the list says nothing about succeeds. `unsigned long` has 32 bits.
-/

import MipsOnQemu.Lib.DigitTrie

namespace Linux

open DigitTrie Function

/-! ## Nodes and roots -/

/-- `RADIX_TREE_MAP_SHIFT`, by `CONFIG_BASE_SMALL`. -/
def mapShift (baseSmall : Bool) : Nat := if baseSmall then 4 else 6

/-- A tag, below `RADIX_TREE_MAX_TAGS`. -/
abbrev Tag := Fin 2

/-- What a `struct radix_tree_node` holds beside its slots. -/
structure RadixData (w : Nat) where
  count : Nat
  tags : Tag → Fin (2 ^ w) → Bool

/-- `struct radix_tree_node`, over what its slots point to. -/
abbrev RadixNode (w : Nat) (β : Type) := Node w (RadixData w) β

/-- What a pointer at a height points to: a node, or an item at height 0. -/
abbrev RadixSub (w : Nat) (α : Type) (h : Nat) := Trie w (RadixData w) α h

/-- `struct radix_tree_root`; of `gfp_mask`, the bits of the root's tags. -/
structure RadixRoot (w : Nat) (α : Type) where
  height : Nat
  tags : Tag → Bool
  rnode : Option (RadixSub w α height)

def RadixRoot.init (w : Nat) (α : Type) : RadixRoot w α := ⟨0, fun _ => false, none⟩

section Model

variable {w : Nat} {α β : Type}

/-- A node as the constructor of the slab leaves it. -/
def zeroNode : RadixNode w β := ⟨⟨0, fun _ _ => false⟩, fun _ => none⟩

/-- `(index >> shift) & RADIX_TREE_MAP_MASK`. -/
def offset (w : Nat) (index : BitVec 32) (shift : Nat) : Fin (2 ^ w) :=
  ⟨(index.toNat >>> shift) &&& (2 ^ w - 1), by
    have hpos := Nat.two_pow_pos w
    have hle : (index.toNat >>> shift) &&& (2 ^ w - 1) ≤ 2 ^ w - 1 := Nat.and_le_right
    omega⟩

/-- `__maxindex`, tabulated in `height_to_maxindex`. -/
def radixTreeMaxindex (w height : Nat) : Nat :=
  let tmp := height * w
  if 32 ≤ tmp then 2 ^ 32 - 1 else ((2 ^ 32 - 1) >>> (32 - tmp - 1)) >>> 1

def tagSet (tag : Tag) (offset : Fin (2 ^ w)) (n : RadixNode w β) : RadixNode w β :=
  { n with data := { n.data with
    tags := update n.data.tags tag (update (n.data.tags tag) offset true) } }

def tagClear (tag : Tag) (offset : Fin (2 ^ w)) (n : RadixNode w β) : RadixNode w β :=
  { n with data := { n.data with
    tags := update n.data.tags tag (update (n.data.tags tag) offset false) } }

def anyTagSet (n : RadixNode w β) (tag : Tag) : Bool := decide (∃ i, n.data.tags tag i = true)

/-- A pointer that is in a slot already points to a node that was changed. -/
def keepSlot (i : Fin (2 ^ w)) (c : β) (n : RadixNode w β) : RadixNode w β :=
  { n with slots := update n.slots i (some c) }

/-- `node->slots[offset] = slot; node->count++;` -/
def fillSlot (i : Fin (2 ^ w)) (c : β) (n : RadixNode w β) : RadixNode w β :=
  ⟨{ n.data with count := n.data.count + 1 }, update n.slots i (some c)⟩

/-- `node->slots[offset] = NULL; node->count--;` -/
def dropSlot (i : Fin (2 ^ w)) (n : RadixNode w β) : RadixNode w β :=
  ⟨{ n.data with count := n.data.count - 1 }, update n.slots i none⟩

def radixTreeNodeFree (n : RadixNode w β) : Option Unit :=
  if n.data.count = 0 ∧ (∀ i, (n.slots i).isNone) ∧ ∀ tag, anyTagSet n tag = false then some ()
  else none

/-! ## Insertion -/

/-- What `radix_tree_insert` returns: 0, `-ENOMEM` or `-EEXIST`. -/
inductive InsertResult where
  | ok | nomem | exist
  deriving DecidableEq, Repr

/-- The search of `radix_tree_extend` for the height that `index` needs. -/
def heightFor (w : Nat) (index : BitVec 32) : Nat → Nat → Nat
  | 0, height => height
  | fuel + 1, height =>
    if radixTreeMaxindex w height < index.toNat then heightFor w index fuel (height + 1) else height

def slot0 : Fin (2 ^ w) := ⟨0, Nat.two_pow_pos w⟩

/-- A new root node: the tree becomes its slot 0, and it takes the root's tags over for it. -/
def raisedNode (tags : Tag → Bool) (rnode : Option β) : RadixNode w β :=
  ⟨⟨1, fun tag i => tags tag && decide (i = slot0)⟩, update (fun _ => none) slot0 rnode⟩

/-- One more level. -/
def growRoot (root : RadixRoot w α) : RadixRoot w α :=
  ⟨root.height + 1, root.tags, some (raisedNode root.tags root.rnode)⟩

/-- The loop of `radix_tree_extend`, over the levels to add. It returns whether all allocations
succeeded, the root, and the outcomes that are left. -/
def extendLoop : Nat → RadixRoot w α → List Bool → Bool × RadixRoot w α × List Bool
  | 0, root, allocs => (true, root, allocs)
  | k + 1, root, allocs =>
    if allocs.headD true then extendLoop k (growRoot root) allocs.tail
    else (false, root, allocs.tail)

def radixTreeExtend (root : RadixRoot w α) (index : BitVec 32) (allocs : List Bool) :
    Bool × RadixRoot w α × List Bool :=
  -- `RADIX_TREE_MAX_PATH` bounds the heights
  let height := heightFor w index (32 / w + 2) (root.height + 1)
  match root.rnode with
  | none => (true, ⟨height, root.tags, none⟩, allocs)
  | some _ => extendLoop (height - root.height) root allocs

/-- The pointer that a node gets for the slot `i`, whose pointer has become `child`. -/
def storeChild (h : Nat) (i : Fin (2 ^ w)) (n : RadixNode w β) (res : InsertResult)
    (child : Option β) : Option (InsertResult × Option (RadixNode w β)) :=
  -- the two `BUG_ON`s on the tags of a new item
  if h = 0 ∧ res = .ok ∧ ∃ tag, n.data.tags tag i = true then none
  else match child with
    | none => some (res, some n)
    | some c => some (res, some (if (n.slots i).isSome then keepSlot i c n else fillSlot i c n))

/-- The loop of `radix_tree_insert` and what follows it, on the pointer at a height. It returns the
pointer it leaves there. -/
def insertSlot (index : BitVec 32) (item : α) :
    (h : Nat) → Option (RadixSub w α h) → List Bool → Option (InsertResult × Option (RadixSub w α h))
  | 0, some a, _ => some (.exist, some a)
  | 0, none, _ => some (.ok, some item)
  | h + 1, slot, allocs =>
    -- "Have to add a child node."
    let (node, allocs) : Option (RadixSub w α (h + 1)) × List Bool := match slot with
      | some n => (some n, allocs)
      | none => (if allocs.headD true then some zeroNode else none, allocs.tail)
    match node with
    | none => some (.nomem, none)
    | some n => do
      let i := offset w index (h * w)
      let (res, child) ← insertSlot index item h (n.slots i) allocs
      storeChild h i n res child

/-- `radix_tree_insert` into a tree that is high enough. -/
def insertRoot (root : RadixRoot w α) (index : BitVec 32) (item : α) (allocs : List Bool) :
    Option (InsertResult × RadixRoot w α) := do
  let (res, rnode) ← insertSlot index item root.height root.rnode allocs
  -- the two `BUG_ON`s on the tags of a root item
  if root.height = 0 ∧ res = .ok ∧ ∃ tag, root.tags tag = true then none
  else some (res, ⟨root.height, root.tags, rnode⟩)

def radixTreeInsert (root : RadixRoot w α) (index : BitVec 32) (item : α) (allocs : List Bool) :
    Option (InsertResult × RadixRoot w α) :=
  -- "Make sure the tree is high enough."
  match if radixTreeMaxindex w root.height < index.toNat then radixTreeExtend root index allocs
    else (true, root, allocs) with
  | (true, root, allocs) => insertRoot root index item allocs
  | (false, root, _) => some (.nomem, root)

/-! ## Lookup -/

/-- The loop of `__lookup_slot`, on the pointer at a height, and the item in the slot. -/
def lookupSlot (index : BitVec 32) : (h : Nat) → Option (RadixSub w α h) → Option α
  | 0, slot => slot
  | _ + 1, none => none
  | h + 1, some n => lookupSlot index h (n.slots (offset w index (h * w)))

def radixTreeLookup (root : RadixRoot w α) (index : BitVec 32) : Option α :=
  if radixTreeMaxindex w root.height < index.toNat then none
  else lookupSlot index root.height root.rnode

/-! ## Tags -/

/-- The loop of `radix_tree_tag_set`, on the pointer at a height. -/
def setTagSlot (index : BitVec 32) (tag : Tag) :
    (h : Nat) → Option (RadixSub w α h) → Option (Option (RadixSub w α h))
  | 0, slot => some slot
  | _ + 1, none => none
  | h + 1, some n => do
    let i := offset w index (h * w)
    -- `BUG_ON(slot == NULL)`
    let c ← n.slots i
    let c ← setTagSlot index tag h (some c)
    c.map fun c => some (keepSlot i c (tagSet tag i n))

/-- `radix_tree_tag_set`. It returns the item. -/
def radixTreeTagSet (root : RadixRoot w α) (index : BitVec 32) (tag : Tag) :
    Option (Option α × RadixRoot w α) := do
  if radixTreeMaxindex w root.height < index.toNat then none
  else
    let item := lookupSlot index root.height root.rnode
    let rnode ← setTagSlot index tag root.height root.rnode
    pure (item,
      ⟨root.height, if item.isSome then update root.tags tag true else root.tags, rnode⟩)

/-- The way up of `radix_tree_tag_clear` over the path of an item that is present, on the pointer at a
height: the pointer it leaves, and whether the loop goes on above. -/
def clearTagSlot (index : BitVec 32) (tag : Tag) :
    (h : Nat) → Option (RadixSub w α h) → Option (RadixSub w α h) × Bool
  | 0, slot => (slot, true)
  | _ + 1, none => (none, false)
  | h + 1, some n =>
    let i := offset w index (h * w)
    let (c, goOn) := clearTagSlot index tag h (n.slots i)
    let n' : RadixNode w (RadixSub w α h) := { n with slots := update n.slots i c }
    if goOn && n.data.tags tag i then
      (some (tagClear tag i n'), !anyTagSet (tagClear tag i n') tag)
    else (some n', false)

/-- `radix_tree_tag_clear`. It returns the item. -/
def radixTreeTagClear (root : RadixRoot w α) (index : BitVec 32) (tag : Tag) : Option α × RadixRoot w α :=
  if radixTreeMaxindex w root.height < index.toNat then (none, root)
  else match lookupSlot index root.height root.rnode with
    | none => (none, root)
    | some item =>
      let (rnode, goOn) := clearTagSlot index tag root.height root.rnode
      (some item,
        ⟨root.height, if goOn then update root.tags tag false else root.tags, rnode⟩)

def radixTreeTagged (root : RadixRoot w α) (tag : Tag) : Bool := root.tags tag

/-! ## Deletion -/

/-- `tag_get` at the bottom of the path of an item; for a root item, the root's tag. -/
def tagOf (index : BitVec 32) (tag : Tag) : (h : Nat) → Option (RadixSub w α h) → Bool → Bool
  | 0, _, bit => bit
  | _ + 1, none, _ => false
  | h + 1, some n, _ =>
    let i := offset w index (h * w)
    tagOf index tag h (n.slots i) (n.data.tags tag i)

/-- `if (tag_get(pathp->node, tag, pathp->offset)) radix_tree_tag_clear(root, index, tag);` -/
def clearTagOf (index : BitVec 32) (tag : Tag) (root : RadixRoot w α) : RadixRoot w α :=
  if tagOf index tag root.height root.rnode (root.tags tag) then (radixTreeTagClear root index tag).2
  else root

/-- The way up of `radix_tree_delete`, on the pointer at a height: the pointer it leaves, and whether
the node there has lost a slot. -/
def deleteSlot (index : BitVec 32) :
    (h : Nat) → Option (RadixSub w α h) → Option (Option (RadixSub w α h) × Bool)
  | 0, _ => some (none, false)
  | _ + 1, none => none
  | h + 1, some n => do
    let i := offset w index (h * w)
    let (child, _) ← deleteSlot index h (n.slots i)
    match child with
    | some c => some (some (keepSlot i c n), false)
    | none =>
      let n := dropSlot i n
      if n.data.count ≠ 0 then some (some n, true)
      else
        radixTreeNodeFree n
        some (none, true)

def radixTreeShrink (tags : Tag → Bool) : (h : Nat) → Option (RadixSub w α h) → Option (RadixRoot w α)
  | 0, rnode => some ⟨0, tags, rnode⟩
  | _ + 1, none => none
  | h + 1, some n =>
    if n.data.count = 1 ∧ (n.slots slot0).isSome then do
      -- "must only free zeroed nodes into the slab"
      radixTreeNodeFree (dropSlot slot0 (tagClear 1 slot0 (tagClear 0 slot0 n)))
      radixTreeShrink tags h (n.slots slot0)
    else some ⟨h + 1, tags, some n⟩

/-- "Now free the nodes we do not need anymore": the rest of `radix_tree_delete`. -/
def deleteRoot (root : RadixRoot w α) (index : BitVec 32) : Option (RadixRoot w α) := do
  let (rnode, lost) ← deleteSlot index root.height root.rnode
  if rnode.isNone then some (RadixRoot.init w α)
  else if lost then radixTreeShrink root.tags root.height rnode
  else some ⟨root.height, root.tags, rnode⟩

/-- `radix_tree_delete`. It returns the item. -/
def radixTreeDelete (root : RadixRoot w α) (index : BitVec 32) : Option (Option α × RadixRoot w α) :=
  if radixTreeMaxindex w root.height < index.toNat then some (none, root)
  else match lookupSlot index root.height root.rnode with
    | none => some (none, root)
    | some item =>
      if root.height = 0 then some (some item, RadixRoot.init w α)
      else
        -- "Clear all tags associated with the just-deleted item"
        (deleteRoot (clearTagOf index 1 (clearTagOf index 0 root)) index).map (some item, ·)

/-! ## Scans -/

/-- How the search of a scan for a slot ends: with the slot, or with the index to go on from. -/
inductive Scan (w : Nat) where
  | found (i : Fin (2 ^ w)) (index : BitVec 32)
  | out (index : BitVec 32)

/-- The inner loops of `__lookup` and `__lookup_tag`, over the offsets that are left. -/
def scan (test : Fin (2 ^ w) → Bool) (shift : Nat) : List (Fin (2 ^ w)) → BitVec 32 → Scan w
  | [], index => .out index
  | i :: rest, index =>
    if test i then .found i index
    else
      let index := (index &&& ~~~((1#32 <<< shift) - 1#32)) + (1#32 <<< shift)
      -- "32-bit wraparound"
      if index = 0#32 then .out index else scan test shift rest index

/-- The offsets from one on. -/
def offsetsFrom (i : Fin (2 ^ w)) : List (Fin (2 ^ w)) := (List.finRange (2 ^ w)).drop i.val

/-- "Bottom level: grab some items", over the offsets that are left. `pick` is what the loop takes
from a slot, if it does not run into a `BUG_ON`; `room` is `max_items - nr_found`. -/
def grab (pick : Fin (2 ^ w) → Option (Option α)) :
    List (Fin (2 ^ w)) → BitVec 32 → Nat → Option (List α × BitVec 32)
  | [], index, _ => some ([], index)
  | i :: rest, index, room => do
    match ← pick i with
    | none => grab pick rest (index + 1#32) room
    | some a =>
      if room = 1 then some ([a], index + 1#32)
      else
        let (items, next) ← grab pick rest (index + 1#32) (room - 1)
        some (a :: items, next)

/-- The loop of `__lookup` over the heights, from a node of height `h + 1`. -/
def lookupDown (room : Nat) :
    (h : Nat) → RadixNode w (RadixSub w α h) → BitVec 32 → Option (List α × BitVec 32)
  | 0, slot, index =>
    grab (fun j => some (slot.slots j)) (offsetsFrom (offset w index 0)) index room
  | h + 1, slot, index =>
    match scan (fun i => (slot.slots i).isSome) ((h + 1) * w)
      (offsetsFrom (offset w index ((h + 1) * w))) index with
    | .out index => some ([], index)
    | .found i index => (slot.slots i).bind fun n => lookupDown room h n index

/-- `__lookup`: the items, and `*next_index`. -/
def lookupItems (room : Nat) (index : BitVec 32) :
    (h : Nat) → Option (RadixSub w α h) → Option (List α × BitVec 32)
  | 0, rnode => some (if index = 0#32 then rnode.toList else [], index)
  | _ + 1, none => none
  | h + 1, some n => lookupDown room h n index

/-- The loop of `__lookup_tag` over the heights, from a node of height `h + 1`. A tagged slot that is
empty is a `BUG_ON`. -/
def lookupTagDown (tag : Tag) (room : Nat) :
    (h : Nat) → RadixNode w (RadixSub w α h) → BitVec 32 → Option (List α × BitVec 32)
  | 0, slot, index =>
    match scan (slot.data.tags tag) 0 (offsetsFrom (offset w index 0)) index with
    | .out index => some ([], index)
    | .found i index => (slot.slots i).bind fun _ =>
      grab (fun j => if slot.data.tags tag j then (slot.slots j).map some else some none)
        (offsetsFrom (offset w index 0)) index room
  | h + 1, slot, index =>
    match scan (slot.data.tags tag) ((h + 1) * w) (offsetsFrom (offset w index ((h + 1) * w)))
      index with
    | .out index => some ([], index)
    | .found i index => (slot.slots i).bind fun n => lookupTagDown tag room h n index

def lookupTagItems (tag : Tag) (room : Nat) (index : BitVec 32) :
    (h : Nat) → Option (RadixSub w α h) → Option (List α × BitVec 32)
  | 0, rnode => some (if index = 0#32 then rnode.toList else [], index)
  | _ + 1, none => none
  | h + 1, some n => lookupTagDown tag room h n index

/-- The loop of the two gang lookups: `search` is `__lookup` or `__lookup_tag`, given the room that is
left. Every round goes up, so there are no more of them than indices. -/
def gangLoop (search : Nat → BitVec 32 → Option (List α × BitVec 32)) (maxIndex : Nat) :
    Nat → BitVec 32 → Nat → Option (List α)
  | 0, _, _ => none
  | fuel + 1, cur, room =>
    if room = 0 ∨ maxIndex < cur.toNat then some []
    else do
      let (items, next) ← search room cur
      if next = 0#32 then some items
      else
        let rest ← gangLoop search maxIndex fuel next (room - items.length)
        some (items ++ rest)

def radixTreeGangLookup (root : RadixRoot w α) (firstIndex : BitVec 32) (maxItems : Nat) : Option (List α) :=
  gangLoop (fun room index => lookupItems room index root.height root.rnode)
    (radixTreeMaxindex w root.height) (2 ^ 32 + 1) firstIndex maxItems

def radixTreeGangLookupTag (root : RadixRoot w α) (firstIndex : BitVec 32) (maxItems : Nat)
    (tag : Tag) : Option (List α) :=
  if root.tags tag then
    gangLoop (fun room index => lookupTagItems tag room index root.height root.rnode)
      (radixTreeMaxindex w root.height) (2 ^ 32 + 1) firstIndex maxItems
  else some []

end Model

end Linux
