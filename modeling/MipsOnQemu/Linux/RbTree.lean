/-
# MipsOnQemu.Linux.RbTree -- the red-black trees of `lib/rbtree.c`

A node is three words: its two children, and the address of its parent with the colour in the
lowest bit, which is free because nodes are aligned. The functions of the source run on a memory
of nodes and the root pointer; `none` is a dereference of an address that holds no node, the null
pointer first of all. Loops take a bound on their rounds.

The two halves of `rb_insert_color` and of `__rb_erase_color`, and the two rotations, are mirror
images of one another; each is one definition over the side it works on.
-/

import MipsOnQemu.Lib.LinkedTree
import MipsOnQemu.Lib.Loop

namespace Linux

open SidedTree (Side)
open LinkedTree (Memory)

/-! ## Nodes -/

/-- A pointer, on a machine of 32 bits. -/
abbrev Ptr := BitVec 32

def NULL : Ptr := 0#32

structure RbNode where
  rbParentColor : BitVec 32
  rbRight : Ptr
  rbLeft : Ptr

def rbParent (r : RbNode) : Ptr := r.rbParentColor &&& ~~~3#32

/-- `rb_color`: `RB_RED` is 0, `RB_BLACK` is 1. -/
def rbColor (r : RbNode) : BitVec 32 := r.rbParentColor &&& 1#32

def rbIsRed (r : RbNode) : Bool := rbColor r == 0#32

def rbSetRed (r : RbNode) : RbNode := { r with rbParentColor := r.rbParentColor &&& ~~~1#32 }

def rbSetBlack (r : RbNode) : RbNode := { r with rbParentColor := r.rbParentColor ||| 1#32 }

def rbSetParent (p : Ptr) (rb : RbNode) : RbNode :=
  { rb with rbParentColor := (rb.rbParentColor &&& 3#32) ||| p }

def rbSetColor (color : BitVec 32) (rb : RbNode) : RbNode :=
  { rb with rbParentColor := (rb.rbParentColor &&& ~~~1#32) ||| color }

def RbNode.child : Side → RbNode → Ptr
  | .left, r => r.rbLeft
  | .right, r => r.rbRight

def RbNode.setChild : Side → Ptr → RbNode → RbNode
  | .left, p, r => { r with rbLeft := p }
  | .right, p, r => { r with rbRight := p }

/-- The nodes in memory, and `root->rb_node`. -/
abbrev RbMemory := Memory Ptr RbNode

/-- `if (child) rb_set_parent(child, parent);` -/
def setParentIf (child parent : Ptr) (m : RbMemory) : Option RbMemory :=
  if child ≠ NULL then m.modify child (rbSetParent parent) else some m

/-- The pointer to `old`, in its parent or in the root, is made to point to `new`. The parent is
asked first whether `old` is its child on side `s`. -/
def changeChild (s : Side) (parent old new : Ptr) (m : RbMemory) : Option RbMemory :=
  if parent ≠ NULL then
    m.modify parent fun p => if p.child s = old then p.setChild s new else p.setChild s.other new
  else some (m.setRoot new)

/-- `p && rb_is_red(p)`. -/
def isRed (m : RbMemory) (p : Ptr) : Option Bool :=
  if p ≠ NULL then (m.heap p).map rbIsRed else some false

/-! ## Rotations -/

/-- The rotation that takes the child of `node` on the other side up and `node` down on side
`s`. -/
def rotate (s : Side) (node : Ptr) (m : RbMemory) : Option RbMemory := do
  let n ← m.heap node
  let right := n.child s.other
  let parent := rbParent n
  let r ← m.heap right
  let m ← m.modify node (RbNode.setChild s.other (r.child s))
  let m ← setParentIf (r.child s) node m
  let m ← m.modify right (RbNode.setChild s node)
  let m ← m.modify right (rbSetParent parent)
  let m ← changeChild s parent node right m
  m.modify node (rbSetParent right)

def rbRotateLeft : Ptr → RbMemory → Option RbMemory := rotate .left

def rbRotateRight : Ptr → RbMemory → Option RbMemory := rotate .right

/-! ## Insertion -/

/-- `*rb_link = node;`, where `rb_link` is the root pointer, or the child of `parent` on a side. -/
def setLink (node parent : Ptr) (m : RbMemory) : Option Side → Option RbMemory
  | none => some (m.setRoot node)
  | some s => m.modify parent (RbNode.setChild s node)

def rbLinkNode (node parent : Ptr) (rbLink : Option Side) (m : RbMemory) : Option RbMemory := do
  let m ← m.modify node fun _ => ⟨parent, NULL, NULL⟩
  setLink node parent m rbLink

/-- One half of the loop of `rb_insert_color`: `parent` is the child of `gparent` on side `s`. It
returns the node the loop goes on with. -/
def insertHalf (s : Side) (node parent gparent : Ptr) (m : RbMemory) : Option (Ptr × RbMemory) := do
  let uncle := (← m.heap gparent).child s.other
  if ← isRed m uncle then
    let m ← m.modify uncle rbSetBlack
    let m ← m.modify parent rbSetBlack
    let m ← m.modify gparent rbSetRed
    pure (gparent, m)
  else
    let inner := (← m.heap parent).child s.other == node
    let m ← if inner then rotate s parent m else pure m
    let (node, parent) := if inner then (parent, node) else (node, parent)
    let m ← m.modify parent rbSetBlack
    let m ← m.modify gparent rbSetRed
    let m ← rotate s.other gparent m
    pure (node, m)

/-- A round of the loop of `rb_insert_color`. -/
def insertRound : Ptr × RbMemory → Option ((Ptr × RbMemory) ⊕ RbMemory)
  | (node, m) => do
    let parent := rbParent (← m.heap node)
    if ← isRed m parent then
      let gparent := rbParent (← m.heap parent)
      let s := if parent = (← m.heap gparent).rbLeft then Side.left else Side.right
      (insertHalf s node parent gparent m).map .inl
    else pure (.inr m)

def rbInsertColor (fuel : Nat) (node : Ptr) (m : RbMemory) : Option RbMemory := do
  let m ← Loop.run insertRound fuel (node, m)
  m.modify m.root rbSetBlack

/-! ## Deletion -/

/-- `!p || rb_is_black(p)`. -/
def isBlackOrNull (m : RbMemory) (p : Ptr) : Option Bool := (isRed m p).map (!·)

/-- The first `if` of a half: a red sibling is rotated away. It returns the sibling. -/
def redSibling (s : Side) (parent : Ptr) (m : RbMemory) : Option (Ptr × RbMemory) := do
  let other := (← m.heap parent).child s.other
  if rbIsRed (← m.heap other) then
    let m ← m.modify other rbSetBlack
    let m ← m.modify parent rbSetRed
    let m ← rotate s parent m
    pure ((← m.heap parent).child s.other, m)
  else pure (other, m)

/-- `if (!other->rb_right || rb_is_black(other->rb_right))`: a red near nephew is rotated out. It
returns the sibling. -/
def nearNephew (s : Side) (other parent : Ptr) (m : RbMemory) : Option (Ptr × RbMemory) := do
  if ← isBlackOrNull m ((← m.heap other).child s.other) then
    let near := (← m.heap other).child s
    let m ← if near ≠ NULL then m.modify near rbSetBlack else pure m
    let m ← m.modify other rbSetRed
    let m ← rotate s.other other m
    pure ((← m.heap parent).child s.other, m)
  else pure (other, m)

/-- The end of a half, with a red far nephew: the sibling goes up in the place of `parent`. -/
def eraseLast (s : Side) (other parent : Ptr) (m : RbMemory) : Option RbMemory := do
  let m ← m.modify other (rbSetColor (rbColor (← m.heap parent)))
  let m ← m.modify parent rbSetBlack
  let far := (← m.heap other).child s.other
  let m ← if far ≠ NULL then m.modify far rbSetBlack else pure m
  rotate s parent m

/-- Both children of the sibling are black or missing. -/
def nephewsBlack (o : RbNode) (m : RbMemory) : Option Bool := do
  let left ← isBlackOrNull m o.rbLeft
  let right ← isBlackOrNull m o.rbRight
  pure (left && right)

/-- The rest of a half, with a black sibling `other`. The loop goes on above `parent`, or is left
with the root. -/
def eraseRest (s : Side) (other parent : Ptr) (m : RbMemory) :
    Option ((Ptr × Ptr × RbMemory) ⊕ (Ptr × RbMemory)) := do
  if ← nephewsBlack (← m.heap other) m then
    let m ← m.modify other rbSetRed
    pure (.inl (parent, rbParent (← m.heap parent), m))
  else
    let (other, m) ← nearNephew s other parent m
    let m ← eraseLast s other parent m
    pure (.inr (m.root, m))

/-- One half of the loop of `__rb_erase_color`: `node` is the child of `parent` on side `s`. -/
def eraseHalf (s : Side) (parent : Ptr) (m : RbMemory) :
    Option ((Ptr × Ptr × RbMemory) ⊕ (Ptr × RbMemory)) := do
  let (other, m) ← redSibling s parent m
  eraseRest s other parent m

/-- A round of the loop of `__rb_erase_color`. -/
def eraseRound : Ptr × Ptr × RbMemory → Option ((Ptr × Ptr × RbMemory) ⊕ (Ptr × RbMemory))
  | (node, parent, m) => do
    if (← isBlackOrNull m node) && node ≠ m.root then
      let s := if (← m.heap parent).rbLeft = node then Side.left else Side.right
      eraseHalf s parent m
    else pure (.inr (node, m))

def rbEraseColor (fuel : Nat) (node parent : Ptr) (m : RbMemory) : Option RbMemory := do
  let (node, m) ← Loop.run eraseRound fuel (node, parent, m)
  if node ≠ NULL then m.modify node rbSetBlack else pure m

/-- `while (n->rb_left) n = n->rb_left;`, or the same on the right. -/
def outermost (s : Side) (m : RbMemory) (fuel : Nat) (n : Ptr) : Option Ptr :=
  Loop.run (fun n => do
    let next := (← m.heap n).child s
    pure (if next ≠ NULL then .inl next else .inr n)) fuel n

/-- The end of `rb_erase`, after the label `color`. -/
def eraseFixup (fuel : Nat) (color : BitVec 32) (child parent : Ptr) (m : RbMemory) : Option RbMemory :=
  if color = 1#32 then rbEraseColor fuel child parent m else some m

/-- `rb_erase` of a node with at most one child. -/
def eraseSimple (fuel : Nat) (node child : Ptr) (m : RbMemory) : Option RbMemory := do
  let parent := rbParent (← m.heap node)
  let color := rbColor (← m.heap node)
  let m ← setParentIf child parent m
  let m ← changeChild .left parent node child m
  eraseFixup fuel color child parent m

/-- `rb_erase` of a node with two children: its successor takes its place. -/
def eraseInner (fuel : Nat) (old : Ptr) (m : RbMemory) : Option RbMemory := do
  let node ← outermost .left m fuel (← m.heap old).rbRight
  let child := (← m.heap node).rbRight
  let parent := rbParent (← m.heap node)
  let color := rbColor (← m.heap node)
  let m ← setParentIf child parent m
  let m ← m.modify parent (RbNode.setChild (if parent = old then .right else .left) child)
  let parent := if parent = old then node else parent
  let o ← m.heap old
  let m ← m.modify node fun _ => ⟨o.rbParentColor, o.rbRight, o.rbLeft⟩
  let m ← changeChild .left (rbParent (← m.heap old)) old node m
  let m ← m.modify (← m.heap old).rbLeft (rbSetParent node)
  let m ← setParentIf (← m.heap old).rbRight node m
  eraseFixup fuel color child parent m

def rbErase (fuel : Nat) (node : Ptr) (m : RbMemory) : Option RbMemory := do
  let n ← m.heap node
  if n.rbLeft = NULL then eraseSimple fuel node n.rbRight m
  else if n.rbRight = NULL then eraseSimple fuel node n.rbLeft m
  else eraseInner fuel node m

/-! ## The rest -/

def rbEnd (s : Side) (fuel : Nat) (m : RbMemory) : Option Ptr :=
  if m.root = NULL then some NULL else outermost s m fuel m.root

def rbFirst : Nat → RbMemory → Option Ptr := rbEnd .left

def rbLast : Nat → RbMemory → Option Ptr := rbEnd .right

/-- `while ((parent = rb_parent(node)) && node == parent->rb_right) node = parent;` and its
result. -/
def climb (s : Side) (m : RbMemory) (fuel : Nat) (node : Ptr) : Option Ptr :=
  Loop.run (fun node => do
    let parent := rbParent (← m.heap node)
    if parent = NULL then pure (.inr parent)
    else if node = (← m.heap parent).child s then pure (.inl parent) else pure (.inr parent))
    fuel node

def rbStep (s : Side) (fuel : Nat) (node : Ptr) (m : RbMemory) : Option Ptr := do
  let n ← m.heap node
  if rbParent n = node then pure NULL
  else if n.child s ≠ NULL then outermost s.other m fuel (n.child s)
  else climb s m fuel node

def rbNext : Nat → Ptr → RbMemory → Option Ptr := rbStep .right

def rbPrev : Nat → Ptr → RbMemory → Option Ptr := rbStep .left

def rbReplaceNode (victim new : Ptr) (m : RbMemory) : Option RbMemory := do
  let m ← changeChild .left (rbParent (← m.heap victim)) victim new m
  let m ← setParentIf (← m.heap victim).rbLeft new m
  let m ← setParentIf (← m.heap victim).rbRight new m
  let v ← m.heap victim
  m.modify new fun _ => v

end Linux
