/-
# MipsOnQemu.Linux.RbInsert -- the red-black invariants, and insertion

`Balanced t c n` says that `t` has a root of colour `c`, no red node with a red child, and `n`
black nodes on every path down. `Fits ctx c n` says of a place what it says of a tree: whatever is
balanced with these data can stand there.

The loop of `rb_insert_color` walks up with a red node whose parent may be red, too: its subtree
is balanced below it, and the place it stands at would take a black tree of the same height.
-/

import MipsOnQemu.Linux.RbLinks

namespace Linux

open SidedTree LinkedTree List Option Shape

/-! ## Balance -/

/-- **A tree with a root of colour `c`, no red node above another, and `n` black nodes on every
path.** -/
inductive Balanced : BinaryTree Mark → Color → Nat → Prop
  | nil : Balanced .nil .black 0
  | red {p : Ptr} {l r : BinaryTree Mark} {n : Nat} : Balanced l .black n → Balanced r .black n →
      Balanced (.node ⟨p, .red⟩ l r) .red n
  | black {p : Ptr} {l r : BinaryTree Mark} {c c' : Color} {n : Nat} : Balanced l c n →
      Balanced r c' n → Balanced (.node ⟨p, .black⟩ l r) .black (n + 1)

/-- **A red-black tree**: balanced, with a black root. -/
def IsRb (t : BinaryTree Mark) : Prop := ∃ n, Balanced t .black n

variable {s : Side} {p : Ptr} {c : Color} {n : Nat} {a : Mark} {t : BinaryTree Mark}

variable {x y : BinaryTree Mark} {ctx : Context Mark} {m : RbMemory} {node : Ptr}

theorem balanced_red_iff :
    Balanced (branch s ⟨p, .red⟩ x y) c n ↔ c = .red ∧ Balanced x .black n ∧ Balanced y .black n := by
  constructor
  · intro h
    cases s with
    | left =>
      cases h with
      | red hx hy => exact ⟨rfl, hx, hy⟩
    | right =>
      cases h with
      | red hy hx => exact ⟨rfl, hx, hy⟩
  · rintro ⟨rfl, hx, hy⟩
    cases s with
    | left => exact .red hx hy
    | right => exact .red hy hx

theorem balanced_black_iff : Balanced (branch s ⟨p, .black⟩ x y) c n ↔
      c = .black ∧ ∃ k, n = k + 1 ∧ (∃ c, Balanced x c k) ∧ ∃ c, Balanced y c k := by
  constructor
  · intro h
    cases s with
    | left =>
      cases h with
      | black hx hy => exact ⟨rfl, _, rfl, ⟨_, hx⟩, ⟨_, hy⟩⟩
    | right =>
      cases h with
      | black hy hx => exact ⟨rfl, _, rfl, ⟨_, hx⟩, ⟨_, hy⟩⟩
  · rintro ⟨rfl, k, rfl, ⟨_, hx⟩, ⟨_, hy⟩⟩
    cases s with
    | left => exact .black hx hy
    | right => exact .black hy hx

theorem Balanced.redBranch (hx : Balanced x .black n) (hy : Balanced y .black n) :
    Balanced (branch s ⟨p, .red⟩ x y) .red n :=
  balanced_red_iff.mpr ⟨rfl, hx, hy⟩

theorem Balanced.blackBranch {c' : Color} (hx : Balanced x c n) (hy : Balanced y c' n) :
    Balanced (branch s ⟨p, .black⟩ x y) .black (n + 1) :=
  balanced_black_iff.mpr ⟨rfl, n, rfl, ⟨c, hx⟩, ⟨c', hy⟩⟩

theorem Balanced.color_branch (h : Balanced (branch s a x y) c n) : c = a.color := by
  obtain ⟨p, c'⟩ := a
  cases c' with
  | red => exact (balanced_red_iff.mp h).1
  | black => exact (balanced_black_iff.mp h).1

theorem Balanced.redRoot_eq (h : Balanced t c n) : redRoot t = c.isRed := by
  rcases eq_nil_or_branch .left t with rfl | ⟨a, x, y, rfl⟩
  · cases h
    rfl
  · rw [redRoot_branch, h.color_branch]

theorem Balanced.exists_red (h : Balanced t .red n) (s : Side) :
    ∃ p x y, t = branch s ⟨p, .red⟩ x y ∧ Balanced x .black n ∧ Balanced y .black n := by
  rcases eq_nil_or_branch s t with rfl | ⟨⟨p, c⟩, x, y, rfl⟩
  · cases h
  · obtain rfl := h.color_branch
    obtain ⟨-, hx, hy⟩ := balanced_red_iff.mp h
    exact ⟨p, x, y, rfl, hx, hy⟩

theorem balanced_nil_iff : Balanced .nil c n ↔ c = .black ∧ n = 0 :=
  ⟨fun h => by cases h; exact ⟨rfl, rfl⟩, fun ⟨hc, hn⟩ => by rw [hc, hn]; exact .nil⟩

/-- **A tree of colour `c` and black height `n` can stand at a place.** -/
def Fits : Context Mark → Color → Nat → Prop
  | [], c, _ => c = .black
  | f :: ctx, c, n =>
    match f.value.color with
    | .red => c = .black ∧ Balanced f.sibling .black n ∧ Fits ctx .red n
    | .black => (∃ c, Balanced f.sibling c n) ∧ Fits ctx .black (n + 1)

theorem fits_red_iff {u : BinaryTree Mark} : Fits (⟨s, ⟨p, .red⟩, u⟩ :: ctx) c n ↔
      c = .black ∧ Balanced u .black n ∧ Fits ctx .red n := Iff.rfl

theorem fits_black_iff {u : BinaryTree Mark} : Fits (⟨s, ⟨p, .black⟩, u⟩ :: ctx) c n ↔
      (∃ c, Balanced u c n) ∧ Fits ctx .black (n + 1) := Iff.rfl

/-- **A tree is red-black when its parts are balanced and fit.** -/
theorem isRb_plug_iff : IsRb (plug ctx t) ↔ ∃ c n, Balanced t c n ∧ Fits ctx c n := by
  induction ctx generalizing t with
  | nil =>
    constructor
    · rintro ⟨n, h⟩
      exact ⟨.black, n, h, rfl⟩
    · rintro ⟨c, n, h, rfl⟩
      exact ⟨n, h⟩
  | cons f ctx ih =>
    obtain ⟨s, ⟨p, c⟩, u⟩ := f
    rw [plug_cons, ih]
    cases c with
    | red =>
      simp only [balanced_red_iff, fits_red_iff]
      constructor
      · rintro ⟨c, n, ⟨rfl, ht, hu⟩, hctx⟩
        exact ⟨.black, n, ht, rfl, hu, hctx⟩
      · rintro ⟨c, n, ht, rfl, hu, hctx⟩
        exact ⟨.red, n, ⟨rfl, ht, hu⟩, hctx⟩
    | black =>
      simp only [balanced_black_iff, fits_black_iff]
      constructor
      · rintro ⟨c, n, ⟨rfl, k, rfl, ⟨ct, ht⟩, hu⟩, hctx⟩
        exact ⟨ct, k, ht, hu, hctx⟩
      · rintro ⟨c, n, ht, hu, hctx⟩
        exact ⟨.black, n + 1, ⟨rfl, n, rfl, ⟨c, ht⟩, hu⟩, hctx⟩

theorem Fits.exists_black (h : Fits ctx .red n) : ∃ s p u ctx', ctx = ⟨s, ⟨p, .black⟩, u⟩ :: ctx' := by
  cases ctx with
  | nil => cases h
  | cons f ctx =>
    obtain ⟨s, ⟨p, c⟩, u⟩ := f
    cases c with
    | red => cases h.1
    | black => exact ⟨s, p, u, ctx, rfl⟩

/-! ## The sequence of addresses -/

/-- The addresses of a tree from left to right. -/
def addrs (t : BinaryTree Mark) : List Ptr := (inorder t).map Mark.addr

theorem addrs_plug (ctx : Context Mark) (t : BinaryTree Mark) :
    addrs (plug ctx t) = (before ctx).map Mark.addr ++ addrs t ++ (after ctx).map Mark.addr := by
  rw [addrs, inorder_plug, map_append, map_append, addrs]

theorem addrs_plug_congr (ctx : Context Mark) {t' : BinaryTree Mark} (h : addrs t = addrs t') :
    addrs (plug ctx t) = addrs (plug ctx t') := by
  rw [addrs_plug, addrs_plug, h]

theorem addrs_branch_congr {a' : Mark} {x' y' : BinaryTree Mark} (ha : a.addr = a'.addr)
    (hx : addrs x = addrs x') (hy : addrs y = addrs y') :
    addrs (branch s a x y) = addrs (branch s a' x' y') := by
  unfold addrs at hx hy ⊢
  cases s with
  | left => simp [branch, inorder, ha, hx, hy]
  | right => simp [branch, inorder, ha, hx, hy]

theorem addrs_rotate (s : Side) (a b : Mark) (u v w : BinaryTree Mark) :
    addrs (branch s b (branch s a u v) w) = addrs (branch s a u (branch s b v w)) := by
  unfold addrs
  cases s with
  | left => simp [branch, inorder]
  | right => simp [branch, inorder]

/-! ## One half of the loop -/

section Half

variable {m : RbMemory} {ctx : Context Mark} {gs fs : Side} {g f node : Mark}
variable {x y sib uncle : BinaryTree Mark}

theorem insertHalf_recolour {us : Side} {u : Ptr} {u₁ u₂ : BinaryTree Mark} (p : Ptr)
    (h : RbHolds m (plug ctx (branch gs g (branch fs f x sib) (branch us ⟨u, .red⟩ u₁ u₂)))) :
    ∃ m', insertHalf gs p f.addr g.addr m = some (g.addr, m') ∧
      RbHolds m' (plug ctx (branch gs ⟨g.addr, .red⟩ (branch fs ⟨f.addr, .black⟩ x sib)
        (branch us ⟨u, .black⟩ u₁ u₂))) := by
  obtain ⟨ng, hng, -, -, -, hfar⟩ := h.load
  rw [top_branch, getD_some] at hfar
  have huncle := h
  rw [plug_far] at huncle
  have hred := huncle.isRed_top
  rw [top_branch, getD_some] at hred
  obtain ⟨m₁, hm₁, h₁⟩ := huncle.setBlack
  rw [← plug_far] at h₁
  have hparent : RbHolds m₁ (plug (⟨gs, g, _⟩ :: ctx) (branch fs f x sib)) := h₁
  obtain ⟨m₂, hm₂, h₂⟩ := hparent.setBlack
  rw [plug_cons] at h₂
  obtain ⟨m₃, hm₃, h₃⟩ := h₂.setRed
  refine ⟨m₃, ?_, h₃⟩
  simp only [insertHalf, hng, hfar, hred, Option.bind_eq_bind, Option.bind_some, redRoot_branch,
    Color.isRed, if_true, hm₁, hm₂, hm₃]
  rfl

theorem insertHalf_outer (h : RbHolds m (plug ctx (branch gs g (branch gs f (branch fs node x y) sib) uncle)))
    (huncle : redRoot uncle = false) : ∃ m', insertHalf gs node.addr f.addr g.addr m = some (node.addr, m') ∧
      RbHolds m' (plug ctx (branch gs ⟨f.addr, .black⟩ (branch fs node x y)
        (branch gs ⟨g.addr, .red⟩ sib uncle))) := by
  obtain ⟨ng, hng, -, -, -, hfar⟩ := h.load
  have hu := h
  rw [plug_far] at hu
  have hred := hu.isRed_top
  rw [huncle] at hred
  have hparent : RbHolds m (plug (⟨gs, g, uncle⟩ :: ctx) (branch gs f (branch fs node x y) sib)) := h
  obtain ⟨nf, hnf, -, -, hnear, hsib⟩ := hparent.load
  -- the node is not the inner child
  have hinner : (nf.child gs.other == node.addr) = false := by
    have hne := hparent.child_ne (branch_ne_nil _ _ _ _)
    rw [top_branch, getD_some] at hne
    rw [hsib]
    exact beq_false_of_ne hne.symm
  obtain ⟨m₁, hm₁, h₁⟩ := hparent.setBlack
  replace h₁ : RbHolds m₁ (plug ctx (branch gs g (branch gs ⟨f.addr, .black⟩
    (branch fs node x y) sib) uncle)) := h₁
  obtain ⟨m₂, hm₂, h₂⟩ := h₁.setRed
  obtain ⟨m₃, hm₃, h₃⟩ := h₂.rotate_other
  refine ⟨m₃, ?_, h₃⟩
  simp only [insertHalf, hng, hfar, hred, hnf, hinner, Option.bind_eq_bind, Option.bind_some,
    Bool.false_eq_true, if_false, Option.pure_def, hm₁, hm₂, hm₃]

theorem insertHalf_inner (h : RbHolds m (plug ctx (branch gs g (branch gs f sib (branch gs node x y)) uncle)))
    (huncle : redRoot uncle = false) : ∃ m', insertHalf gs node.addr f.addr g.addr m = some (f.addr, m') ∧
      RbHolds m' (plug ctx (branch gs ⟨node.addr, .black⟩ (branch gs f sib x)
        (branch gs ⟨g.addr, .red⟩ y uncle))) := by
  obtain ⟨ng, hng, -, -, -, hfar⟩ := h.load
  have hu := h
  rw [plug_far] at hu
  have hred := hu.isRed_top
  rw [huncle] at hred
  have hparent : RbHolds m (plug (⟨gs, g, uncle⟩ :: ctx) (branch gs f sib (branch gs node x y))) := h
  obtain ⟨nf, hnf, -, -, -, hnode⟩ := hparent.load
  rw [top_branch, getD_some] at hnode
  obtain ⟨m₁, hm₁, h₁⟩ := hparent.rotate
  obtain ⟨m₂, hm₂, h₂⟩ := h₁.setBlack
  replace h₂ : RbHolds m₂ (plug ctx (branch gs g (branch gs ⟨node.addr, .black⟩
    (branch gs f sib x) y) uncle)) := h₂
  obtain ⟨m₃, hm₃, h₃⟩ := h₂.setRed
  obtain ⟨m₄, hm₄, h₄⟩ := h₃.rotate_other
  refine ⟨m₄, ?_, h₄⟩
  simp only [insertHalf, hng, hfar, hred, hnf, hnode, bind_eq_bind, bind_some,
    Bool.false_eq_true, if_false, beq_self_eq_true, if_true, Option.pure_def, hm₁, hm₂, hm₃, hm₄]

end Half

/-! ## The loop -/

/-- The invariant of the loop of `rb_insert_color`, with the length of the way up as the bound:
below the red node all is balanced, and a black tree of its height would fit at its place. -/
def InsertInv (as : List Ptr) (k : Nat) (node : Ptr) (m : RbMemory) : Prop :=
  ∃ ctx s x y n, RbHolds m (plug ctx (branch s ⟨node, .red⟩ x y)) ∧ Balanced x .black n ∧
    Balanced y .black n ∧ Fits ctx .black n ∧ ctx.length = k ∧
    addrs (plug ctx (branch s ⟨node, .red⟩ x y)) = as

def blacken : BinaryTree Mark → BinaryTree Mark
  | .nil => .nil
  | .node a l r => .node ⟨a.addr, .black⟩ l r

theorem blacken_branch (s : Side) (a : Mark) (x y : BinaryTree Mark) :
    blacken (branch s a x y) = branch s ⟨a.addr, .black⟩ x y := by
  cases s <;> rfl

theorem IsRb.blacken_eq (h : IsRb t) : blacken t = t := by
  obtain ⟨n, h⟩ := h
  cases h with
  | nil => rfl
  | black _ _ => rfl

/-- When the loop is left, only the root may have the wrong colour. -/
def Inserted (as : List Ptr) (m : RbMemory) : Prop :=
  ∃ t, RbHolds m t ∧ t ≠ .nil ∧ IsRb (blacken t) ∧ addrs t = as

theorem plug_ne_nil : plug ctx (branch s a x y) ≠ .nil := by
  intro h
  have hmem : a ∈ inorder (plug ctx (branch s a x y)) :=
    (inorder_plug_perm ctx _).mem_iff.mpr (mem_append_left _ (root?_mem (root?_branch ..)))
  rw [h] at hmem
  cases hmem

/-- The red parent of a red node has a black parent, and the round takes the half of its side. -/
theorem insertRound_red {gs fs : Side} {fp gp : Ptr}
    {sib uncle : BinaryTree Mark} (h : RbHolds m (plug ctx (branch gs ⟨gp, .black⟩
      (branch fs ⟨fp, .red⟩ (branch s ⟨node, .red⟩ x y) sib) uncle))) :
    insertRound (node, m) = (insertHalf gs node fp gp m).map .inl := by
  have hf : RbHolds m (plug (⟨gs, ⟨gp, .black⟩, uncle⟩ :: ctx)
    (branch fs ⟨fp, .red⟩ (branch s ⟨node, .red⟩ x y) sib)) := h
  have hn : RbHolds m (plug (⟨fs, ⟨fp, .red⟩, sib⟩ :: ⟨gs, ⟨gp, .black⟩, uncle⟩ :: ctx)
    (branch s ⟨node, .red⟩ x y)) := h
  obtain ⟨nn, hnn, -, hnup, -⟩ := hn.load
  obtain ⟨nf, hnf, -, hfup, -⟩ := hf.load
  obtain ⟨ng, hng, -, -, hgnear, hgfar⟩ := h.load
  have hred := hf.isRed_top
  have hne := h.child_ne (branch_ne_nil _ _ _ _)
  rw [top_branch, getD_some] at hred hgnear hne
  rw [← hgfar] at hne
  replace hnup : rbParent nn = fp := hnup
  replace hfup : rbParent nf = gp := hfup
  simp only [insertRound, hnn, hnup, hred, hnf, hfup, hng, side_eq hgnear hne,
    bind_eq_bind, bind_some, redRoot_branch, Color.isRed, if_true]

theorem insertRound_inv {as : List Ptr} {k : Nat} (h : InsertInv as k node m) :
    (∃ m', insertRound (node, m) = some (.inr m') ∧ Inserted as m') ∨
      ∃ node' m' k', insertRound (node, m) = some (.inl (node', m')) ∧ k' < k ∧
        InsertInv as k' node' m' := by
  obtain ⟨ctx, s, x, y, n, hm, hx, hy, hfits, rfl, has⟩ := h
  cases ctx with
  | nil =>
    -- the node is the root
    obtain ⟨nn, hnn, -, hup, -⟩ := hm.load
    have hred : isRed m (rbParent nn) = some false := by
      rw [hup]
      rfl
    refine .inl ⟨m, ?_, plug [] (branch s ⟨node, .red⟩ x y), hm, plug_ne_nil, ?_, has⟩
    · simp only [insertRound, hnn, hred, bind_eq_bind, bind_some]
      rfl
    · rw [plug_nil, blacken_branch]
      exact ⟨n + 1, hx.blackBranch hy⟩
  | cons f ctx =>
    obtain ⟨fs, ⟨fp, fc⟩, sib⟩ := f
    cases fc with
    | black =>
      -- a red node below a black one is in place
      have hf : RbHolds m (plug ctx (branch fs ⟨fp, .black⟩ (branch s ⟨node, .red⟩ x y) sib)) := hm
      have hred := hf.isRed_top
      rw [top_branch, getD_some, redRoot_branch] at hred
      obtain ⟨nn, hnn, -, hup, -⟩ := hm.load
      replace hup : rbParent nn = fp := hup
      have hrb : IsRb (plug (⟨fs, ⟨fp, .black⟩, sib⟩ :: ctx) (branch s ⟨node, .red⟩ x y)) :=
        isRb_plug_iff.mpr ⟨.red, n, hx.redBranch hy, hfits⟩
      refine .inl ⟨m, ?_, _, hm, plug_ne_nil, ?_, has⟩
      · simp only [insertRound, hnn, hup, hred, bind_eq_bind, bind_some]
        rfl
      · rw [hrb.blacken_eq]
        exact hrb
    | red =>
      obtain ⟨-, hsib, habove⟩ := fits_red_iff.mp hfits
      obtain ⟨gs, gp, uncle, ctx, rfl⟩ := habove.exists_black
      obtain ⟨⟨cu, huncle⟩, hctx⟩ := fits_black_iff.mp habove
      right
      have hg : RbHolds m (plug ctx (branch gs ⟨gp, .black⟩
        (branch fs ⟨fp, .red⟩ (branch s ⟨node, .red⟩ x y) sib) uncle)) := hm
      rw [insertRound_red hg]
      cases cu with
      | red =>
        obtain ⟨u, u₁, u₂, rfl, hu₁, hu₂⟩ := huncle.exists_red .left
        obtain ⟨m', hres, hm'⟩ := insertHalf_recolour node hg
        refine ⟨gp, m', ctx.length, by rw [hres]; rfl, by simp, ctx, gs, _, _, n + 1, hm', ?_, ?_,
          hctx, rfl, ?_⟩
        · exact (hx.redBranch hy).blackBranch hsib
        · exact hu₁.blackBranch hu₂
        · rw [← has]
          exact addrs_plug_congr ctx (addrs_branch_congr rfl
            (addrs_branch_congr rfl rfl rfl) (addrs_branch_congr rfl rfl rfl))
      | black =>
        have hblack : redRoot uncle = false := huncle.redRoot_eq
        rcases Side.eq_or_eq_other gs fs with rfl | rfl
        · obtain ⟨m', hres, hm'⟩ := insertHalf_outer hg hblack
          refine ⟨node, m', ctx.length + 1, by rw [hres]; rfl, by simp,
            ⟨fs, ⟨fp, .black⟩, _⟩ :: ctx, s, x, y, n, hm', hx, hy, ?_, rfl, ?_⟩
          · exact fits_black_iff.mpr ⟨⟨_, hsib.redBranch huncle⟩, hctx⟩
          · rw [← has]
            exact addrs_plug_congr ctx ((addrs_rotate fs _ _ _ _ _).symm.trans
              (addrs_branch_congr rfl (addrs_branch_congr rfl rfl rfl) rfl))
        · -- the node seen from the side of its parent
          obtain ⟨x', y', hnode, hx', hy'⟩ : ∃ x' y', branch s ⟨node, .red⟩ x y =
              branch gs ⟨node, .red⟩ x' y' ∧ Balanced x' .black n ∧ Balanced y' .black n := by
            rcases Side.eq_or_eq_other gs s with rfl | rfl
            · exact ⟨x, y, rfl, hx, hy⟩
            · exact ⟨y, x, branch_other .., hy, hx⟩
          rw [branch_other, hnode] at hg
          obtain ⟨m', hres, hm'⟩ := insertHalf_inner hg hblack
          refine ⟨fp, m', ctx.length + 1, by rw [hres]; rfl, by simp,
            ⟨gs, ⟨node, .black⟩, _⟩ :: ctx, gs, sib, x', n, hm', hsib, hx', ?_, rfl, ?_⟩
          · exact fits_black_iff.mpr ⟨⟨_, hy'.redBranch huncle⟩, hctx⟩
          · rw [← has, plug_cons, plug_cons, plug_cons, branch_other, hnode]
            refine addrs_plug_congr ctx ?_
            refine (addrs_rotate gs _ _ _ _ _).symm.trans (addrs_branch_congr rfl ?_ rfl)
            have hcolour : addrs (branch gs ⟨node, .black⟩ (branch gs ⟨fp, .red⟩ sib x') y') =
                addrs (branch gs ⟨node, .red⟩ (branch gs ⟨fp, .red⟩ sib x') y') :=
              addrs_branch_congr rfl rfl rfl
            exact hcolour.trans (addrs_rotate gs _ _ _ _ _)

theorem rbInsertColor_spec {as : List Ptr} {k : Nat} (h : InsertInv as k node m) {fuel : Nat} (hfuel : k < fuel) :
    ∃ m' t, rbInsertColor fuel node m = some m' ∧ RbHolds m' t ∧ IsRb t ∧ addrs t = as := by
  obtain ⟨m₁, hrun, t, hm₁, hne, hrb, has⟩ := Loop.run_of_measure
    (I := fun k (σ : Ptr × RbMemory) => InsertInv as k σ.1 σ.2) (Q := Inserted as)
    (fun k σ hσ => (insertRound_inv hσ).imp_right fun ⟨node', m', k', hres, hlt, h'⟩ =>
      ⟨(node', m'), k', hres, hlt, h'⟩) (s := (node, m)) h hfuel
  obtain ⟨a, x, y, rfl⟩ := (eq_nil_or_branch .left t).resolve_left hne
  have hroot : m₁.root = a.addr := by
    rw [hm₁.root_eq, top_branch, getD_some]
  have hplug : RbHolds m₁ (plug [] (branch .left a x y)) := hm₁
  obtain ⟨m₂, hm₂, h₂⟩ := hplug.setBlack
  refine ⟨m₂, _, ?_, h₂, ?_, ?_⟩
  · simp only [rbInsertColor, hrun, hroot, bind_eq_bind, bind_some, hm₂]
  · rw [plug_nil, ← blacken_branch]
    exact hrb
  · rw [← has, plug_nil]
    exact addrs_branch_congr rfl rfl rfl

/-! ## Linking a leaf -/

/-- The pointer to the place that `rb_link_node` is given: a child of the parent, or the root. -/
def linkOf : Context Mark → Option Side
  | [] => none
  | f :: _ => some f.side

/-- An address of a node that is in memory, but not in the tree. -/
structure Spare (m : RbMemory) (t : BinaryTree Mark) (p : Ptr) : Prop where
  isNode : IsNode p
  alloc : ∃ n, m.heap p = some n
  fresh : p ∉ addrs t

theorem Spare.sats (h : Spare m (plug ctx t) p) (hm : RbHolds m (plug ctx t)) :
    ∃ n, Footprint.Sats m [cell p n, rbShape.treeAt (rbShape.upOf ctx) t,
      rbShape.ctxAt (rbShape.top t) ctx] := by
  obtain ⟨n, hn⟩ := h.alloc
  have hfresh : ∀ a ∈ inorder t ++ Context.values ctx, a.addr ≠ p := by
    rintro a ha rfl
    exact h.fresh (mem_map_of_mem ((inorder_plug_perm ctx t).mem_iff.mpr ha))
  refine ⟨n, newCell (RbHolds.plug_iff.mp hm).1 hn fun b hb hp => ?_⟩
  simp only [mem_cons, not_mem_nil, or_false] at hb
  rcases hb with rfl | rfl
  · obtain ⟨a, ha, hap⟩ := mem_map.mp hp
    exact hfresh a (mem_append_left _ ha) (some.inj hap)
  · rcases mem_cons.mp hp with hp | hp
    · cases hp
    · obtain ⟨a, ha, hap⟩ := mem_map.mp hp
      exact hfresh a (mem_append_right _ ha) (some.inj hap)

/-- **`rb_link_node` puts a red leaf at a free place.** -/
theorem rbLinkNode_spec (hm : RbHolds m (plug ctx .nil)) (hnode : Spare m (plug ctx .nil) node) :
    ∃ m', rbLinkNode node (rbShape.upOf ctx node) (linkOf ctx) m = some m' ∧
      RbHolds m' (plug ctx (branch .left ⟨node, .red⟩ .nil .nil)) := by
  obtain ⟨-, -, hctx⟩ := RbHolds.plug_iff.mp hm
  obtain ⟨n, hsats⟩ := hnode.sats hm
  obtain ⟨m₁, hm₁, hsats⟩ := modifyCell hsats fun _ => ⟨rbShape.upOf ctx node, NULL, NULL⟩
  -- the pointer to the place
  obtain ⟨m₂, hm₂, hsats⟩ : ∃ m₂, setLink node (rbShape.upOf ctx node) m₁ (linkOf ctx) = some m₂ ∧
      Footprint.Sats m₂ [rbShape.ctxAt (some node) ctx,
        cell node ⟨rbShape.upOf ctx node, NULL, NULL⟩, rbShape.treeAt (rbShape.upOf ctx) .nil] := by
    cases ctx with
    | nil => exact ⟨_, rfl, setRootCtx hsats.pull₂ (some node)⟩
    | cons f ctx => exact setChild_ctx (some node) hsats.pull₂
  have haligned : Aligned (rbShape.upOf ctx node) := aligned_upOf hctx node
  have hleaf := nilTree (S := rbShape) (fun _ => node) (nilTree (S := rbShape)
    (fun _ => node) hsats.pull₂.tail.pull₁)
  refine ⟨m₂, ?_, RbHolds.plug_iff.mpr ⟨?_, ?_, hctx⟩⟩
  · simp only [rbLinkNode, hm₁, bind_eq_bind, bind_some]
    exact hm₂
  · refine closeTree _ ?_ hleaf.pull₂
    rw [rbShows_iff]
    exact ⟨rbIsRed_link haligned, rbParent_link haligned, rfl, rfl⟩
  · exact AllNodes.branch_iff.mpr ⟨hnode.isNode, nofun, nofun⟩

/-- **Insertion**: a red leaf at a free place, then `rb_insert_color`. -/
theorem rbInsert_spec (hm : RbHolds m (plug ctx .nil)) (hrb : IsRb (plug ctx .nil))
    (hnode : Spare m (plug ctx .nil) node) {fuel : Nat} (hfuel : (addrs (plug ctx .nil)).length < fuel) :
    ∃ m' t, (rbLinkNode node (rbShape.upOf ctx node) (linkOf ctx) m).bind (rbInsertColor fuel node)
        = some m' ∧ RbHolds m' t ∧ IsRb t ∧
      addrs t = (before ctx).map Mark.addr ++ node :: (after ctx).map Mark.addr := by
  obtain ⟨m₁, hm₁, h₁⟩ := rbLinkNode_spec hm hnode
  obtain ⟨c, n, hnil, hfits⟩ := isRb_plug_iff.mp hrb
  obtain ⟨rfl, rfl⟩ := balanced_nil_iff.mp hnil
  have hinv : InsertInv (addrs (plug ctx (branch .left ⟨node, .red⟩ .nil .nil))) ctx.length node m₁ :=
    ⟨ctx, .left, .nil, .nil, 0, h₁, .nil, .nil, hfits, rfl, rfl⟩
  have hlength : ctx.length ≤ (addrs (plug ctx .nil)).length := by
    rw [addrs, length_map]
    exact length_add_le ctx .nil
  obtain ⟨m₂, t, hm₂, h₂, hrb₂, has⟩ := rbInsertColor_spec hinv (hlength.trans_lt hfuel)
  refine ⟨m₂, t, ?_, h₂, hrb₂, ?_⟩
  · rw [hm₁]
    exact hm₂
  · rw [has, addrs_plug]
    simp [addrs, branch, inorder]

end Linux
