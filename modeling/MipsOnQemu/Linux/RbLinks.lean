/-
# MipsOnQemu.Linux.RbLinks -- what the pointer code of `rbtree.c` does to a tree

Each piece of pointer code takes a tree that lies in memory to another one: a colour changes, a
subtree gets another parent, a place gets another subtree, a rotation turns two nodes. The colour
bit and the parent share a word, which is harmless for aligned addresses.
-/

import MipsOnQemu.Linux.RbTree

namespace Linux

open SidedTree LinkedTree Footprint List BitVec Option Shape RbNode Context

/-! ## The word of parent and colour -/

inductive Color where
  | red | black
  deriving DecidableEq, Repr

/-- A colour as `rb_is_red` shows it. -/
def Color.isRed : Color → Bool
  | .red => true
  | .black => false

/-- The two lowest bits are free. -/
def Aligned (p : Ptr) : Prop := p &&& 3#32 = 0#32

theorem aligned_NULL : Aligned NULL := rfl

section Bits

variable {p : Ptr} {r r' : RbNode}

theorem Aligned.getLsbD (h : Aligned p) (i : Nat) : (p.getLsbD i && (3#32).getLsbD i) = false := by
  have hbit := congrArg (BitVec.getLsbD · i) h
  simpa only [getLsbD_and, getLsbD_zero] using hbit

theorem getLsbD_one_and_three (i : Nat) : ((1#32).getLsbD i && (3#32).getLsbD i) = (1#32).getLsbD i := by
  rw [← getLsbD_and]
  rfl

theorem getLsbD_not_three {i : Nat} (hi : i < 32) : (~~~3#32).getLsbD i = !(3#32).getLsbD i := by
  rw [getLsbD_not, decide_eq_true hi, Bool.true_and]

@[simp] theorem rbParent_rbSetParent (h : Aligned p) : rbParent (rbSetParent p r) = p := by
  refine eq_of_getLsbD_eq fun i hi => ?_
  have hp := h.getLsbD i
  simp only [rbParent, rbSetParent, getLsbD_and, getLsbD_or, getLsbD_not_three hi]
  revert hp
  cases p.getLsbD i <;> cases (3#32).getLsbD i <;> cases r.rbParentColor.getLsbD i <;> decide

theorem rbColor_rbSetParent (h : Aligned p) : rbColor (rbSetParent p r) = rbColor r := by
  refine eq_of_getLsbD_eq fun i hi => ?_
  have hp := h.getLsbD i
  have hone := getLsbD_one_and_three i
  simp only [rbColor, rbSetParent, getLsbD_and, getLsbD_or]
  revert hp hone
  cases p.getLsbD i <;> cases (3#32).getLsbD i <;> cases (1#32).getLsbD i <;>
    cases r.rbParentColor.getLsbD i <;> decide

@[simp] theorem rbIsRed_rbSetParent (h : Aligned p) : rbIsRed (rbSetParent p r) = rbIsRed r := by
  rw [rbIsRed, rbColor_rbSetParent h, rbIsRed]

/-- The lowest bit, which is the color, is not part of the parent. -/
theorem rbParent_congr (h : ∀ i < 32, (1#32).getLsbD i = false →
    r'.rbParentColor.getLsbD i = r.rbParentColor.getLsbD i) : rbParent r' = rbParent r := by
  refine eq_of_getLsbD_eq fun i hi => ?_
  have hone := getLsbD_one_and_three i
  have hbit := h i hi
  simp only [rbParent, getLsbD_and, getLsbD_not_three hi]
  revert hone hbit
  cases (3#32).getLsbD i <;> cases (1#32).getLsbD i <;> simp

@[simp] theorem rbParent_rbSetRed : rbParent (rbSetRed r) = rbParent r :=
  rbParent_congr fun i hi hone => by simp only [rbSetRed, getLsbD_and, getLsbD_not, hone]; simp [hi]

@[simp] theorem rbParent_rbSetBlack : rbParent (rbSetBlack r) = rbParent r :=
  rbParent_congr fun i hi hone => by simp only [rbSetBlack, getLsbD_or, hone, Bool.or_false]

@[simp] theorem rbIsRed_rbSetRed : rbIsRed (rbSetRed r) = true := by
  have h : (r.rbParentColor &&& ~~~1#32) &&& 1#32 = 0#32 := by
    rw [BitVec.and_assoc]
    simp
  simp only [rbIsRed, rbColor, rbSetRed, h, beq_self_eq_true]

theorem rbColor_rbSetBlack : rbColor (rbSetBlack r) = 1#32 := by
  refine eq_of_getLsbD_eq fun i _ => ?_
  simp only [rbColor, rbSetBlack, getLsbD_and, getLsbD_or]
  cases (1#32).getLsbD i <;> simp

@[simp] theorem rbIsRed_rbSetBlack : rbIsRed (rbSetBlack r) = false := by
  rw [rbIsRed, rbColor_rbSetBlack]
  decide

@[simp] theorem rbParent_rbSetColor : rbParent (rbSetColor (rbColor r') r) = rbParent r :=
  rbParent_congr fun i hi hone => by
    simp only [rbSetColor, rbColor, getLsbD_and, getLsbD_or, getLsbD_not, hone]
    simp [hi]

@[simp] theorem rbIsRed_rbSetColor : rbIsRed (rbSetColor (rbColor r') r) = rbIsRed r' := by
  have h : rbColor (rbSetColor (rbColor r') r) = rbColor r' := by
    refine eq_of_getLsbD_eq fun i hi => ?_
    simp only [rbColor, rbSetColor, getLsbD_and, getLsbD_or, getLsbD_not, hi]
    cases (1#32).getLsbD i <;> cases r.rbParentColor.getLsbD i <;>
      cases r'.rbParentColor.getLsbD i <;> decide
  rw [rbIsRed, h, rbIsRed]

theorem rbColor_eq_one_iff : rbColor r = 1#32 ↔ rbIsRed r = false := by
  have hbit : rbColor r = 0#32 ∨ rbColor r = 1#32 := by
    have hle : (rbColor r).toNat < 2 := by
      rw [rbColor, toNat_and]
      exact Nat.lt_succ_of_le (Nat.and_le_right)
    have hcases : (rbColor r).toNat = 0 ∨ (rbColor r).toNat = 1 := by omega
    exact hcases.imp (fun h => eq_of_toNat_eq h) fun h => eq_of_toNat_eq h
  rw [rbIsRed]
  rcases hbit with h | h <;> rw [h] <;> decide

/-- `rb_link_node` writes the address of the parent as the whole word. -/
theorem rbParent_link (h : Aligned p) {a b : Ptr} : rbParent ⟨p, a, b⟩ = p := by
  refine eq_of_getLsbD_eq fun i hi => ?_
  have hp := h.getLsbD i
  simp only [rbParent, getLsbD_and, getLsbD_not_three hi]
  revert hp
  cases p.getLsbD i <;> cases (3#32).getLsbD i <;> decide

theorem rbIsRed_link (h : Aligned p) {a b : Ptr} : rbIsRed ⟨p, a, b⟩ = true := by
  have hzero : rbColor ⟨p, a, b⟩ = 0#32 := by
    refine eq_of_getLsbD_eq fun i _ => ?_
    have hp := h.getLsbD i
    have hone := getLsbD_one_and_three i
    simp only [rbColor, getLsbD_and, getLsbD_zero]
    revert hp hone
    cases p.getLsbD i <;> cases (3#32).getLsbD i <;> cases (1#32).getLsbD i <;> decide
  rw [rbIsRed, hzero]
  decide

end Bits

/-! ## Children -/

section Child

variable (s s' : Side) (p : Ptr) (r : RbNode) (c : BitVec 32)

@[simp] theorem child_setChild_self : (setChild s p r).child s = p := by cases s <;> rfl

@[simp] theorem child_setChild_other :
    (setChild s p r).child s.other = r.child s.other := by cases s <;> rfl

@[simp] theorem child_setChild_of_other :
    (setChild s.other p r).child s = r.child s := by cases s <;> rfl

@[simp] theorem rbParent_setChild : rbParent (setChild s p r) = rbParent r := by
  cases s <;> rfl

@[simp] theorem rbIsRed_setChild : rbIsRed (setChild s p r) = rbIsRed r := by
  cases s <;> rfl

@[simp] theorem child_rbSetParent : (rbSetParent p r).child s = r.child s := by cases s <;> rfl
@[simp] theorem child_rbSetRed : (rbSetRed r).child s = r.child s := by cases s <;> rfl
@[simp] theorem child_rbSetBlack : (rbSetBlack r).child s = r.child s := by cases s <;> rfl
@[simp] theorem child_rbSetColor : (rbSetColor c r).child s = r.child s := by cases s <;> rfl

end Child

variable {s : Side}

theorem side_eq {p : Ptr} {r : RbNode} (hnear : r.child s = p)
    (hfar : p ≠ r.child s.other) : (if p = r.rbLeft then Side.left else Side.right) = s := by
  cases s with
  | left => exact if_pos hnear.symm
  | right => exact if_neg hfar

/-! ## Trees of marks -/

/-- A node of a tree: its address and its colour. -/
structure Mark where
  addr : Ptr
  color : Color
  deriving DecidableEq

/-- How `rbtree.c` lays a tree out. -/
@[reducible] def rbShape : Shape Ptr RbNode Mark where
  addr := Mark.addr
  up := rbParent
  child := child
  fits := fun n a => rbIsRed n = a.color.isRed
  absent := fun _ => NULL
  null := NULL

variable {a : Mark} {x y : BinaryTree Mark}

theorem rbShows_iff {n : RbNode} {parent : Ptr} {x y : Option Ptr} :
    rbShape.Shows s n a parent x y ↔ rbIsRed n = a.color.isRed ∧ rbParent n = parent ∧
      n.child s = x.getD NULL ∧ n.child s.other = y.getD NULL :=
  ⟨fun h => ⟨h.fits, h.up, h.near, h.far⟩, fun h => ⟨h.1, h.2.1, h.2.2.1, h.2.2.2⟩⟩

/-- An address that a node can have. -/
structure IsNode (p : Ptr) : Prop where
  aligned : Aligned p
  ne_null : p ≠ NULL

/-- The addresses of a tree are addresses of nodes. -/
def AllNodes (t : BinaryTree Mark) : Prop := ∀ a ∈ inorder t, IsNode a.addr

/-- **A tree lies in the memory of a program that uses `rbtree.c`.** -/
structure RbHolds (m : RbMemory) (t : BinaryTree Mark) : Prop where
  linked : rbShape.Linked m t
  nodes : AllNodes t

section Fragments

variable {m : RbMemory} {ps : List (Piece Ptr RbNode)}

theorem AllNodes.branch_iff : AllNodes (branch s a x y) ↔ IsNode a.addr ∧ AllNodes x ∧ AllNodes y := by
  simp only [AllNodes, (inorder_branch_perm s a x y).mem_iff, forall_mem_cons, forall_mem_append]

variable {t : BinaryTree Mark} {ctx : Context Mark}

theorem top_eq_NULL_iff (h : AllNodes t) : (rbShape.top t).getD NULL = NULL ↔ t = .nil := by
  rcases eq_nil_or_branch .left t with rfl | ⟨a, x, y, rfl⟩
  · exact iff_of_true rfl rfl
  · rw [top_branch, getD_some]
    exact iff_of_false (AllNodes.branch_iff.mp h).1.ne_null (branch_ne_nil _ _ _ _)

/-- `if (child) rb_set_parent(child, parent);` gives a subtree another parent. -/
theorem setParentIf_tree {up : Ptr → Ptr} {parent : Ptr}
    (h : Sats m (rbShape.treeAt up t :: ps)) (hnodes : AllNodes t) (hparent : Aligned parent) :
    ∃ m', setParentIf ((rbShape.top t).getD NULL) parent m = some m' ∧
      Sats m' (rbShape.treeAt (fun _ => parent) t :: ps) := by
  rcases eq_nil_or_branch .left t with rfl | ⟨a, x, y, rfl⟩
  · exact ⟨m, rfl, h.write (List.Perm.refl _) trivial fun _ _ => rfl⟩
  · obtain ⟨n, hshows, hopen⟩ := openTree h
    obtain ⟨m', hm', hcell⟩ := modifyCell hopen (rbSetParent parent)
    refine ⟨m', ?_, closeTree _ ?_ hcell⟩
    · rw [top_branch, getD_some, setParentIf, if_pos (AllNodes.branch_iff.mp hnodes).1.ne_null]
      exact hm'
    · rw [rbShows_iff] at hshows ⊢
      simp only [rbIsRed_rbSetParent hparent, rbParent_rbSetParent hparent, child_rbSetParent]
      exact ⟨hshows.1, trivial, hshows.2.2⟩

theorem AllNodes.plug_iff : AllNodes (plug ctx t) ↔ AllNodes t ∧ ∀ a ∈ values ctx, IsNode a.addr := by
  simp only [AllNodes, (inorder_plug_perm ctx t).mem_iff, forall_mem_append]

theorem aligned_upOf (hnodes : ∀ a ∈ values ctx, IsNode a.addr) (p : Ptr) : Aligned (rbShape.upOf ctx p) := by
  cases ctx with
  | nil => exact aligned_NULL
  | cons f ctx => exact (hnodes f.value mem_cons_self).aligned

theorem upOf_eq (ctx : Context Mark) (p p' : Ptr) : rbShape.upOf ctx p = rbShape.upOf ctx p' := by
  cases ctx <;> rfl

theorem setChild_ctx {f : Frame Mark} {q : Option Ptr} (q' : Option Ptr)
    (h : Sats m (rbShape.ctxAt q (f :: ctx) :: ps)) :
    ∃ m', m.modify f.value.addr (setChild f.side (q'.getD NULL)) = some m' ∧
      Sats m' (rbShape.ctxAt q' (f :: ctx) :: ps) := by
  obtain ⟨n, hshows, hopen⟩ := openCtx h
  obtain ⟨m', hm', hcell⟩ := modifyCell hopen (setChild f.side (q'.getD NULL))
  refine ⟨m', hm', closeCtx ?_ hcell⟩
  rw [rbShows_iff] at hshows ⊢
  simp only [rbIsRed_setChild, rbParent_setChild, child_setChild_self, child_setChild_other]
  exact ⟨hshows.1, hshows.2.1, trivial, hshows.2.2.2⟩

theorem changeChild_ctx (s : Side) {old : Ptr} (q : Option Ptr)
    (h : Sats m (rbShape.ctxAt (some old) ctx :: ps)) (hold : old ≠ NULL)
    (hfresh : ∀ a ∈ values ctx, a.addr ≠ old) (hnodes : ∀ a ∈ values ctx, IsNode a.addr) :
    ∃ m', changeChild s (rbShape.upOf ctx old) old (q.getD NULL) m = some m' ∧
      Sats m' (rbShape.ctxAt q ctx :: ps) := by
  cases ctx with
  | nil => exact ⟨_, rfl, setRootCtx h q⟩
  | cons f ctx =>
    obtain ⟨n, hshows, hopen⟩ := openCtx h
    obtain ⟨m', hm', hcell⟩ := modifyCell hopen fun p =>
      if p.child s = old then p.setChild s (q.getD NULL) else p.setChild s.other (q.getD NULL)
    refine ⟨m', ?_, closeCtx ?_ hcell⟩
    · rw [changeChild]
      exact (if_pos (hnodes f.value mem_cons_self).ne_null).trans hm'
    · rw [rbShows_iff] at hshows ⊢
      obtain ⟨hred, hparent, hnear, hfar⟩ := hshows
      rw [getD_some] at hnear
      rcases Side.eq_or_eq_other s f.side with hs | hs
      · rw [← hs, if_pos hnear]
        simp only [rbIsRed_setChild, rbParent_setChild, child_setChild_self, child_setChild_other]
        exact ⟨hred, hparent, trivial, hfar⟩
      · -- the place is on the other side: the child on side `s` is the sibling
        have hs' : s = f.side.other := by rw [hs, Side.other_other]
        have hne : n.child s ≠ old := by
          rw [hs', hfar]
          rcases eq_nil_or_branch .left f.sibling with hsib | ⟨b, x, y, hsib⟩
          · rw [hsib, top_nil]
            exact hold.symm
          · have hb : b ∈ inorder f.sibling := by
              rw [hsib]
              exact root?_mem (root?_branch ..)
            rw [hsib, top_branch]
            exact hfresh b (mem_cons_of_mem _ (mem_append_left _ hb))
        rw [if_neg hne, ← hs]
        simp only [rbIsRed_setChild, rbParent_setChild, child_setChild_self, child_setChild_other]
        exact ⟨hred, hparent, trivial, hfar⟩

end Fragments

/-! ## Reading and colouring -/

/-- The colour of the root of a tree is red; the empty tree counts as black. -/
def redRoot (t : BinaryTree Mark) : Bool := (root? t).elim false (·.color.isRed)

@[simp] theorem redRoot_nil : redRoot .nil = false := rfl

@[simp] theorem redRoot_branch (s : Side) (a : Mark) (x y : BinaryTree Mark) :
    redRoot (branch s a x y) = a.color.isRed := by
  rw [redRoot, root?_branch, elim_some]

namespace RbHolds

variable {m : RbMemory} {ctx : Context Mark} {t : BinaryTree Mark}

theorem plug_iff : RbHolds m (plug ctx t) ↔
    Sats m [rbShape.treeAt (rbShape.upOf ctx) t, rbShape.ctxAt (rbShape.top t) ctx] ∧
      AllNodes t ∧ ∀ a ∈ values ctx, IsNode a.addr :=
  ⟨fun h => ⟨linked_plug.mp h.linked, AllNodes.plug_iff.mp h.nodes⟩,
    fun h => ⟨linked_plug.mpr h.1, AllNodes.plug_iff.mpr h.2⟩⟩

theorem isNode (h : RbHolds m (plug ctx (branch s a x y))) : IsNode a.addr :=
  (AllNodes.branch_iff.mp (plug_iff.mp h).2.1).1

theorem load (h : RbHolds m (plug ctx (branch s a x y))) :
    ∃ n, m.heap a.addr = some n ∧ rbIsRed n = a.color.isRed ∧
      rbParent n = rbShape.upOf ctx a.addr ∧ n.child s = (rbShape.top x).getD NULL ∧
      n.child s.other = (rbShape.top y).getD NULL := by
  obtain ⟨n, hshows, hopen⟩ := openTree (plug_iff.mp h).1
  exact ⟨n, hopen.head, rbShows_iff.mp hshows⟩

theorem root_eq (h : RbHolds m t) : m.root = (rbShape.top t).getD NULL := h.linked.tail.head

theorem top_eq_NULL (h : RbHolds m (plug ctx t)) :
    (rbShape.top t).getD NULL = NULL ↔ t = .nil := top_eq_NULL_iff (plug_iff.mp h).2.1

theorem nodup (h : RbHolds m t) : ((inorder t).map Mark.addr).Nodup := h.linked.nodup

theorem child_ne (h : RbHolds m (plug ctx (branch s a x y))) (hx : x ≠ .nil) :
    (rbShape.top x).getD NULL ≠ (rbShape.top y).getD NULL := by
  obtain ⟨b, u, v, rfl⟩ := (eq_nil_or_branch .left x).resolve_left hx
  rcases eq_nil_or_branch .left y with rfl | ⟨c, w, z, rfl⟩
  · rw [top_branch, top_nil]
    exact (AllNodes.branch_iff.mp (AllNodes.branch_iff.mp (plug_iff.mp h).2.1).2.1).1.ne_null
  · rw [top_branch, top_branch, getD_some, getD_some]
    have hnodup := ((inorder_plug_perm ctx _).map Mark.addr).nodup_iff.mp h.nodup
    rw [map_append, nodup_append] at hnodup
    have hinner := ((inorder_branch_perm s a _ _).map Mark.addr).nodup_iff.mp hnodup.1
    rw [map_cons, map_append, nodup_cons, nodup_append] at hinner
    exact hinner.2.2.2 b.addr (mem_map_of_mem (root?_mem (root?_branch ..))) c.addr
      (mem_map_of_mem (root?_mem (root?_branch ..)))

/-- `p && rb_is_red(p)` on a subtree. -/
theorem isRed_top (h : RbHolds m (plug ctx t)) : isRed m ((rbShape.top t).getD NULL) = some (redRoot t) := by
  rcases eq_nil_or_branch .left t with rfl | ⟨a, x, y, rfl⟩
  · rfl
  · obtain ⟨n, hn, hred, -⟩ := h.load
    rw [top_branch, getD_some, isRed, if_pos h.isNode.ne_null, hn, map_some, hred, redRoot_branch]

theorem setColor {f : RbNode → RbNode} (c : Color) (h : RbHolds m (plug ctx (branch s a x y)))
    (hparent : ∀ n, rbParent (f n) = rbParent n) (hchild : ∀ n s, (f n).child s = n.child s)
    (hcolor : ∀ n, rbIsRed (f n) = c.isRed) :
    ∃ m', m.modify a.addr f = some m' ∧ RbHolds m' (plug ctx (branch s ⟨a.addr, c⟩ x y)) := by
  obtain ⟨hsats, hnodes, hctx⟩ := plug_iff.mp h
  obtain ⟨n, hshows, hopen⟩ := openTree hsats
  obtain ⟨m', hm', hcell⟩ := modifyCell hopen f
  refine ⟨m', hm', plug_iff.mpr ⟨?_, ?_, hctx⟩⟩
  · rw [top_branch] at hcell ⊢
    refine closeTree (S := rbShape) _ (a := Mark.mk a.addr c) ?_ hcell
    rw [rbShows_iff] at hshows ⊢
    rw [hparent, hchild, hchild, hcolor]
    exact ⟨rfl, hshows.2⟩
  · exact AllNodes.branch_iff.mpr (AllNodes.branch_iff.mp hnodes :)

theorem setRed (h : RbHolds m (plug ctx (branch s a x y))) : ∃ m', m.modify a.addr rbSetRed = some m' ∧
      RbHolds m' (plug ctx (branch s ⟨a.addr, .red⟩ x y)) :=
  h.setColor .red (fun _ => rbParent_rbSetRed) (fun _ _ => child_rbSetRed ..)
    fun _ => rbIsRed_rbSetRed

theorem setBlack (h : RbHolds m (plug ctx (branch s a x y))) : ∃ m', m.modify a.addr rbSetBlack = some m' ∧
      RbHolds m' (plug ctx (branch s ⟨a.addr, .black⟩ x y)) :=
  h.setColor .black (fun _ => rbParent_rbSetBlack) (fun _ _ => child_rbSetBlack ..)
    fun _ => rbIsRed_rbSetBlack

/-! ## Rotation -/

/-- **A rotation** at `a` takes `b`, its child on the other side, up. -/
theorem rotate {b : Mark} {u v w : BinaryTree Mark} (h : RbHolds m (plug ctx (branch s a u (branch s b v w)))) :
    ∃ m', rotate s a.addr m = some m' ∧ RbHolds m' (plug ctx (branch s b (branch s a u v) w)) := by
  obtain ⟨hsats, hnodes, hctx⟩ := plug_iff.mp h
  obtain ⟨ha, hu, hbvw⟩ := AllNodes.branch_iff.mp hnodes
  obtain ⟨hb, hv, hw⟩ := AllNodes.branch_iff.mp hbvw
  obtain ⟨na, hna, hsats⟩ := openTree hsats
  obtain ⟨nb, hnb, hsats⟩ := openTree hsats.pull₂
  rw [rbShows_iff] at hna hnb
  obtain ⟨hna₁, hna₂, hna₃, hna₄⟩ := hna
  obtain ⟨hnb₁, hnb₂, hnb₃, hnb₄⟩ := hnb
  have hloadb : m.heap b.addr = some nb := hsats.head
  have hloada : m.heap a.addr = some na := hsats.pull₃.head
  have hfresh := ne_of_cell_ctx hsats.pull₅.pull₄
  rw [top_branch] at hna₄ hsats
  -- the writes, one after the other
  obtain ⟨m₁, hm₁, hsats⟩ := modifyCell hsats.pull₃
    (setChild s.other ((rbShape.top v).getD NULL))
  obtain ⟨m₂, hm₂, hsats⟩ := setParentIf_tree hsats.pull₂ hv ha.aligned
  obtain ⟨m₃, hm₃, hsats⟩ := modifyCell hsats.pull₂ (setChild s a.addr)
  obtain ⟨m₄, hm₄, hsats⟩ := modifyCell hsats (rbSetParent (rbShape.upOf ctx a.addr))
  obtain ⟨m₅, hm₅, hsats⟩ := changeChild_ctx s (some b.addr) hsats.pull₅ ha.ne_null hfresh hctx
  obtain ⟨m₆, hm₆, hsats⟩ := modifyCell hsats.pull₃ (rbSetParent b.addr)
  refine ⟨m₆, ?_, plug_iff.mpr ⟨?_, ?_, hctx⟩⟩
  · simp only [Linux.rotate, hloada, hna₄, hloadb, hna₂, hnb₃, bind_eq_bind,
      bind_some, getD_some, hm₁, hm₂, hm₃, hm₄] at hm₅ ⊢
    simp only [hm₅, bind_some]
    exact hm₆
  · have hlow := closeTree (fun _ => b.addr) (s := s) (x := u) (y := v) ?_
      hsats.pull₅.pull₄.pull₁.pull₂
    · rw [top_branch]
      refine closeTree _ ?_ hlow.pull₃.pull₁.pull₃
      rw [rbShows_iff, top_branch]
      simp only [rbIsRed_rbSetParent (aligned_upOf hctx _), rbIsRed_setChild, child_rbSetParent,
        rbParent_rbSetParent (aligned_upOf hctx _), child_setChild_self, child_setChild_other]
      exact ⟨hnb₁, upOf_eq _ _ _, rfl, hnb₄⟩
    · rw [rbShows_iff]
      simp only [rbIsRed_rbSetParent hb.aligned, rbIsRed_setChild, child_rbSetParent,
        rbParent_rbSetParent hb.aligned, child_setChild_self, child_setChild_of_other]
      exact ⟨hna₁, trivial, hna₃, trivial⟩
  · exact AllNodes.branch_iff.mpr ⟨hb, AllNodes.branch_iff.mpr ⟨ha, hu, hv⟩, hw⟩

/-- The same the other way: `b` is the child of `a` on side `s`. -/
theorem rotate_other {b : Mark} {u v w : BinaryTree Mark}
    (h : RbHolds m (plug ctx (branch s a (branch s b u v) w))) :
    ∃ m', Linux.rotate s.other a.addr m = some m' ∧
      RbHolds m' (plug ctx (branch s b u (branch s a v w))) := by
  have hbefore : branch s a (branch s b u v) w = branch s.other a w (branch s.other b v u) := by
    rw [branch_other, branch_other]
  have hafter : branch s.other b (branch s.other a w v) u = branch s b u (branch s a v w) := by
    rw [branch_other, branch_other]
  rw [hbefore] at h
  rw [← hafter]
  exact h.rotate

end RbHolds

end Linux
