/-
# MipsOnQemu.Linux.Resource -- the tree of I/O resources

`kernel/resource.c`. A resource is a range of addresses; its children are ranges inside it, linked
through `sibling` in ascending order. `__request_resource` links a new resource between the children of
another or returns the one in the way; `insert_resource` goes down to where the new one fits, and if it
covers a run of children, pushes them below it; `adjust_resource` changes a range in place;
`__request_region` and `__release_region` work on busy regions below resources that are not busy. A tree
is well formed if every node has a range, in that of its parent, and the children of a node follow each
other without overlapping (`WellFormed`). Two walks that find where to act are kept as such here; what
they keep is in `MipsOnQemu.Linux.ResourceRuns`.
-/

import MipsOnQemu.Lib.Words

namespace Linux

abbrev ResourceSize := BitVec 32

/-- `struct resource` without its links to other resources but for the parent; `addr` is where it is in
memory, and `stop` is its field `end`. -/
structure Resource where
  addr : Nat
  start : ResourceSize
  stop : ResourceSize
  busy : Bool
  parent : Option Nat
  deriving DecidableEq

/-- What a pointer `child` or `sibling` leads to: nothing, or a resource with its own two pointers. -/
inductive Chain where
  | nil
  | node (r : Resource) (child sibling : Chain)
  deriving DecidableEq

structure ResourceTree where
  root : Resource
  child : Chain
  deriving DecidableEq

namespace Chain

def kids : Chain → List Resource
  | nil => []
  | node r _ s => r :: s.kids

/-- All resources, each with what its `child` leads to. -/
def nodes : Chain → List (Resource × Chain)
  | nil => []
  | node r c s => (r, c) :: (c.nodes ++ s.nodes)

def addrs (t : Chain) : List Nat := t.nodes.map fun n => n.1.addr

/-- The chain behind some resources and their children. -/
def behind : List (Resource × Chain) → Chain → Chain
  | [], t => t
  | (r, c) :: before, t => node r c (behind before t)

/-- `next->parent = new` for every resource of the chain. -/
def reparent (parent : Nat) : Chain → Chain
  | nil => nil
  | node r c s => node { r with parent := some parent } c (s.reparent parent)

def size : Chain → Nat
  | nil => 0
  | node _ c s => c.size + s.size + 1

end Chain

/-! ## `__request_resource` and the functions that call it -/

/-- What `__request_resource` returns: nothing, and then the new resource is linked; the root; or the
child that is in the way, here with the children before it and the links from it on. -/
inductive Requested where
  | linked (child : Chain)
  | root
  | conflict (before : List (Resource × Chain)) (r : Resource) (child sibling : Chain)

/-- The result of the walk, one child earlier. -/
def Requested.after (r : Resource) (c : Chain) : Requested → Requested
  | .linked child => .linked (.node r c child)
  | .root => .root
  | .conflict before r' c' s' => .conflict ((r, c) :: before) r' c' s'

/-- The loop of `__request_resource`. -/
def requestWalk (root new : Resource) : Chain → Requested
  | .nil => .linked (.node { new with parent := some root.addr } .nil .nil)
  | .node tmp c s =>
    if tmp.start > new.stop then
      .linked (.node { new with parent := some root.addr } .nil (.node tmp c s))
    else if tmp.stop < new.start then (requestWalk root new s).after tmp c
    else .conflict [] tmp c s

def rawRequestResource (root new : Resource) (child : Chain) : Requested :=
  if new.stop < new.start then .root
  else if new.start < root.start then .root
  else if new.stop > root.stop then .root
  else requestWalk root new child

/-- The children after `request_resource`, if it succeeds. -/
def requestResource (root new : Resource) (child : Chain) : Option Chain :=
  match rawRequestResource root new child with
  | .linked child => some child
  | _ => none

/-- The loop of `__release_resource`: the chain without the resource. -/
def unlink (old : Nat) : Chain → Option Chain
  | .nil => none
  | .node tmp c s => if tmp.addr = old then some s else (unlink old s).map fun s => .node tmp c s

/-! ### `ALIGN` -/

def alignTo (x a : ResourceSize) : ResourceSize := (x + (a - 1#32)) &&& ~~~(a - 1#32)

/-- The least multiple of `a` that is not below `n`. -/
def roundUp (a n : Nat) : Nat := a * (n ⌈/⌉ a)

section RoundUp

variable {a n x : Nat}

theorem roundUp_le_iff (ha : 0 < a) (hx : a ∣ x) : roundUp a n ≤ x ↔ n ≤ x := by
  obtain ⟨m, rfl⟩ := hx
  rw [roundUp, Nat.mul_le_mul_left_iff ha]
  exact ceilDiv_le_iff_le_mul ha

theorem dvd_roundUp : a ∣ roundUp a n := Nat.dvd_mul_right a _

theorem le_roundUp (ha : 0 < a) : n ≤ roundUp a n := (roundUp_le_iff ha dvd_roundUp).mp le_rfl

/-- Two multiples are at least `a` apart. -/
theorem add_le_of_dvd_of_lt (ha : a ∣ n) (hx : a ∣ x) (hlt : n < x) : n + a ≤ x :=
  Nat.le_of_lt_add_of_dvd (Nat.add_lt_add_right hlt a) (Nat.dvd_add ha dvd_rfl) hx

theorem roundUp_top (ha : 0 < a) (htop : a ∣ x) (hn : n < x) :
    (x < n + a ∧ roundUp a n = x) ∨ (n + a ≤ x ∧ roundUp a n + a ≤ x) := by
  have hle : roundUp a n ≤ x := (roundUp_le_iff ha htop).mpr hn.le
  have hge : n ≤ roundUp a n := le_roundUp ha
  rcases Nat.lt_or_ge (roundUp a n) x with hlt | hge'
  · right
    have hstep := add_le_of_dvd_of_lt dvd_roundUp htop hlt
    exact ⟨by omega, hstep⟩
  · left
    have heq := le_antisymm hle hge'
    refine ⟨?_, heq⟩
    by_contra hnot
    have hsub : a ∣ x - a := Nat.dvd_sub htop dvd_rfl
    have hround : roundUp a n ≤ x - a := (roundUp_le_iff ha hsub).mpr (by omega)
    omega

end RoundUp

theorem alignTo_toNat {x a : ResourceSize} {k : Nat} (ha : a.toNat = 2 ^ k) :
    (alignTo x a).toNat = roundUp (2 ^ k) x.toNat % 2 ^ 32 := by
  have hk : k < 32 := by
    have hlt := a.isLt
    rw [ha] at hlt
    exact (Nat.pow_lt_pow_iff_right (by omega)).mp hlt
  have hpos := Nat.two_pow_pos k
  have hshift : a = 1#32 <<< k := by
    refine BitVec.eq_of_toNat_eq ?_
    rw [ha, Words.toNat_one_shiftLeft hk]
  have hsplit : 2 ^ 32 = 2 ^ k * 2 ^ (32 - k) := by
    rw [← Nat.pow_add]
    congr 1
    omega
  rw [alignTo, hshift, Words.and_not_mask hk, BitVec.toNat_add, Words.toNat_mask hk, hsplit,
    Nat.mod_mul_right_div_self, roundUp, Nat.ceilDiv_eq_add_pred_div, Nat.mul_mod_mul_left, Nat.mul_comm,
    Nat.add_sub_assoc hpos]

/-! ### `find_resource` and `allocate_resource` -/

/-- An alignment callback: from the start and the end of the gap, the size and the alignment. -/
abbrev AlignFn := ResourceSize → ResourceSize → ResourceSize → ResourceSize → ResourceSize × ResourceSize

/-- The request of a caller of `allocate_resource`. -/
structure SlotRequest where
  size : ResourceSize
  min : ResourceSize
  max : ResourceSize
  align : ResourceSize
  alignf : Option AlignFn

/-- The gap from `start` to `stop`, clipped and aligned. -/
def SlotRequest.clip (q : SlotRequest) (start stop : ResourceSize) : ResourceSize × ResourceSize :=
  let start := if start < q.min then q.min else start
  let stop := if stop > q.max then q.max else stop
  let start := alignTo start q.align
  match q.alignf with
  | some f => f start stop q.size q.align
  | none => (start, stop)

/-- Is the gap large enough? -/
def SlotRequest.fits (q : SlotRequest) (gap : ResourceSize × ResourceSize) : Bool :=
  gap.1 < gap.2 && gap.2 - gap.1 ≥ q.size - 1#32

/-- The loop of `find_resource`, from a start on. -/
def findLoop (root : Resource) (q : SlotRequest) : ResourceSize → Chain → Option (ResourceSize × ResourceSize)
  | start, .nil =>
    let gap := q.clip start root.stop
    if q.fits gap then some (gap.1, gap.1 + q.size - 1#32) else none
  | start, .node this _ s =>
    let gap := q.clip start (this.start - 1#32)
    if q.fits gap then some (gap.1, gap.1 + q.size - 1#32) else findLoop root q (this.stop + 1#32) s

/-- `find_resource`: the range that it puts into `new`. -/
def findResource (root : Resource) (q : SlotRequest) : Chain → Option (ResourceSize × ResourceSize)
  | .node this c s =>
    if this.start = 0#32 then findLoop root q (this.stop + 1#32) s
    else findLoop root q root.start (.node this c s)
  | .nil => findLoop root q root.start .nil

/-- The children after `allocate_resource`, if it succeeds. -/
def allocateResource (root new : Resource) (q : SlotRequest) (child : Chain) : Option Chain :=
  match findResource root q child with
  | some (start, stop) => requestResource root { new with start := start, stop := stop } child
  | none => none

/-! ### `insert_resource` -/

/-- The second loop of `insert_resource`: the run of siblings from `next` on that the new resource
covers, and what follows them. -/
def coveredRun (new next : Resource) (c : Chain) : Chain → Option (Chain × Chain)
  | .nil => if next.start < new.start ∨ next.stop > new.stop then none else some (.node next c .nil, .nil)
  | .node r c' s =>
    if next.start < new.start ∨ next.stop > new.stop then none
    else if r.start > new.stop then some (.node next c .nil, .node r c' s)
    else (coveredRun new r c' s).map fun p => (.node next c p.1, p.2)

/-- Does `insert_resource` stop going down? The child in the way does not cover the new resource, or has
the same range. -/
def stopsAt (first new : Resource) : Prop :=
  first.start > new.start ∨ first.stop < new.stop ∨ (first.start = new.start ∧ first.stop = new.stop)

instance (first new : Resource) : Decidable (stopsAt first new) := instDecidableOr

/-- `insert_resource`: the children of `parent` afterwards, if it succeeds. There are at most as many rounds
as resources below it. -/
def insertResource (new : Resource) : Nat → Resource → Chain → Option Chain
  | 0, _, _ => none
  | rounds + 1, parent, child =>
    match rawRequestResource parent new child with
    | .linked child => some child
    | .root => none
    | .conflict before first c s =>
      if stopsAt first new then
        (coveredRun new first c s).map fun p =>
          .behind before (.node { new with parent := some parent.addr } (p.1.reparent new.addr) p.2)
      else (insertResource new rounds first c).map fun c => .behind before (.node first c s)

/-! ### `adjust_resource` -/

/-- Do the children fit into the new range? -/
def coversKids (start stop : ResourceSize) (child : Chain) : Bool :=
  child.kids.all fun tmp => !(decide (tmp.start < start) || decide (tmp.stop > stop))

/-- Is the next sibling behind the new range? -/
def clearsNext (stop : ResourceSize) : Chain → Bool
  | .nil => true
  | .node r _ _ => !decide (r.start ≤ stop)

/-- The walk through the children of the parent, with the end of the one before: the children with the new
range. `none` is the end of the chain, which the source runs into if the resource is not there. -/
def adjustWalk (res : Nat) (start stop : ResourceSize) : Option ResourceSize → Chain → Option (Option Chain)
  | _, .nil => none
  | prev, .node tmp c s =>
    if tmp.addr = res then
      some (if coversKids start stop c && clearsNext stop s && !(prev.any fun e => decide (start ≤ e)) then
        some (.node { tmp with start := start, stop := stop } c s)
      else none)
    else (adjustWalk res start stop (some tmp.stop) s).map fun r => r.map fun s => .node tmp c s

/-- `adjust_resource`, in the children of the parent. -/
def adjustResource (parent : Resource) (res : Nat) (start size : ResourceSize) (child : Chain) :
    Option (Option Chain) :=
  let stop := start + size - 1#32
  if start < parent.start ∨ stop > parent.stop then some none
  else adjustWalk res start stop none child

/-! ### `__request_region` and `__release_region` -/

/-- `__request_region`: the children of `parent` afterwards, if it succeeds. -/
def requestRegion (res : Resource) : Nat → Resource → Chain → Option Chain
  | 0, _, _ => none
  | rounds + 1, parent, child =>
    match rawRequestResource parent res child with
    | .linked child => some child
    | .root => none
    | .conflict before conflict c s =>
      if conflict.busy = false then
        (requestRegion res rounds conflict c).map fun c => .behind before (.node conflict c s)
      else none

/-- `__release_region`: the chain without the region, if there is one. -/
def releaseRegion (start stop : ResourceSize) : Chain → Option Chain
  | .nil => none
  | .node res c s =>
    if res.start ≤ start ∧ res.stop ≥ stop then
      if res.busy = false then (releaseRegion start stop c).map fun c => .node res c s
      else if res.start ≠ start ∨ res.stop ≠ stop then none
      else some s
    else (releaseRegion start stop s).map fun s => .node res c s

/-! ## A tree and its calls -/

/-- Change the children of the resource at an address, wherever it is in the chain. -/
def modifyAt {β : Type} (a : Nat) (f : Resource → Chain → β × Chain) : Chain → Option (β × Chain)
  | .nil => none
  | .node r c s =>
    if r.addr = a then some ((f r c).1, .node r (f r c).2 s)
    else
      match modifyAt a f c with
      | some p => some (p.1, .node r p.2 s)
      | none => (modifyAt a f s).map fun p => (p.1, .node r c p.2)

/-- The same in a tree. -/
def ResourceTree.modify {β : Type} (t : ResourceTree) (a : Nat) (f : Resource → Chain → β × Chain) :
    Option (β × ResourceTree) :=
  if t.root.addr = a then some ((f t.root t.child).1, { t with child := (f t.root t.child).2 })
  else (modifyAt a f t.child).map fun p => (p.1, { t with child := p.2 })

/-- The resource at an address, with its children. -/
def ResourceTree.lookup (t : ResourceTree) (a : Nat) : Option (Resource × Chain) :=
  if t.root.addr = a then some (t.root, t.child) else t.child.nodes.find? fun n => n.1.addr = a

def ResourceTree.addrs (t : ResourceTree) : List Nat := t.root.addr :: t.child.addrs

inductive ResourceOp where
  | request (root : Nat) (new : Resource)
  | release (old : Nat)
  | allocate (root : Nat) (new : Resource) (q : SlotRequest)
  | insert (parent : Nat) (new : Resource)
  | adjust (res : Nat) (start size : ResourceSize)
  | requestRegion (parent : Nat) (kzalloc : Option Nat) (start n : ResourceSize)
  | releaseRegion (parent : Nat) (start n : ResourceSize)

/-- What a call returns: 0 or the new region, an error, or nothing (`__release_region`, which prints a
warning if there is no such region). -/
inductive ResourceResult where
  | done
  | failed
  | warned
  deriving DecidableEq

/-- A change that succeeds, or leaves the children as they are. -/
def changeOr (error : ResourceResult) (child : Chain) : Option Chain → ResourceResult × Chain
  | some child' => (.done, child')
  | none => (error, child)

/-- The same, where the call has no meaning if the walk runs into the end of the chain. -/
def changeIfFound (child : Chain) : Option (Option Chain) → Option ResourceResult × Chain
  | some result => (some (changeOr .failed child result).1, (changeOr .failed child result).2)
  | none => (none, child)

/-- A call. It has a meaning if the resources that it is given are in the tree, a new one is not, the one
that is released is a leaf, and one that is released or adjusted has a parent. -/
def resourceStep (t : ResourceTree) : ResourceOp → Option (ResourceResult × ResourceTree)
  | .request root new =>
    if new.addr ∈ t.addrs then none
    else t.modify root fun r c => changeOr .failed c (requestResource r new c)
  | .release old =>
    (t.lookup old).bind fun n => n.1.parent.bind fun parent =>
      if n.2 = .nil then t.modify parent fun _ c => changeOr .failed c (unlink old c) else none
  | .allocate root new q =>
    if new.addr ∈ t.addrs then none
    else t.modify root fun r c => changeOr .failed c (allocateResource r new q c)
  | .insert parent new =>
    if new.addr ∈ t.addrs then none
    else t.modify parent fun r c => changeOr .failed c (insertResource new (c.size + 1) r c)
  | .adjust res start size =>
    (t.lookup res).bind fun n => n.1.parent.bind fun parent =>
      (t.modify parent fun r c => changeIfFound c (adjustResource r res start size c)).bind fun p =>
        p.1.map fun r => (r, p.2)
  | .requestRegion parent (some addr) start n =>
    if addr ∈ t.addrs then none
    else t.modify parent fun r c =>
      changeOr .failed c (requestRegion ⟨addr, start, start + n - 1#32, true, none⟩ (c.size + 1) r c)
  | .requestRegion _ none _ _ => some (.failed, t)
  | .releaseRegion parent start n =>
    t.modify parent fun _ c => changeOr .warned c (releaseRegion start (start + n - 1#32) c)

/-! ## Well-formed trees -/

/-- What holds of a resource and its children. -/
structure NodeOk (r : Resource) (child : Chain) : Prop where
  start_le_stop : r.start ≤ r.stop
  parent_eq : ∀ k ∈ child.kids, k.parent = some r.addr
  inside : ∀ k ∈ child.kids, r.start ≤ k.start ∧ k.stop ≤ r.stop
  ascending : child.kids.Pairwise fun a b => a.stop < b.start

/-- **A well-formed tree:** every node has a range and lies inside its parent, the children of each node
are sorted by address and pairwise disjoint, the parent pointers match the links, and no two nodes are at
the same address. -/
structure WellFormed (t : ResourceTree) : Prop where
  root_parent : t.root.parent = none
  root : NodeOk t.root t.child
  below : ∀ n ∈ t.child.nodes, NodeOk n.1 n.2
  addrs_nodup : t.addrs.Nodup

end Linux
