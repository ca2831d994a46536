/-
# MipsOnQemu.Linux.RbSplice -- `rb_erase` and `rb_replace_node`

A node with at most one child is cut out by giving its place to the child. A node with two children
stays where it is as a place: its successor is cut out below it, and then takes its links over, the
way `rb_replace_node` gives a node's place to a new one. What remains is a tree that is one black
node short where the node was cut out, if that was black.
-/

import MipsOnQemu.Linux.RbErase

namespace Linux

open List hiding after pure_def

open SidedTree LinkedTree Footprint Option Shape RbHolds AllNodes

/-! ## Cutting a node out -/

section Cut

variable {m : RbMemory} {ctx : Context Mark} {s : Side} {a : Mark} {t : BinaryTree Mark}

theorem upOf_funext (ctx : Context Mark) (p : Ptr) : (fun _ => rbShape.upOf ctx p) = rbShape.upOf ctx :=
  funext fun q => upOf_eq ctx p q

theorem cut_simple (h : RbHolds m (plug ctx (branch s a t .nil))) :
    ∃ m₁ m₂, setParentIf ((rbShape.top t).getD NULL) (rbShape.upOf ctx a.addr) m = some m₁ ∧
      changeChild .left (rbShape.upOf ctx a.addr) a.addr ((rbShape.top t).getD NULL) m₁ = some m₂ ∧
      RbHolds m₂ (plug ctx t) := by
  obtain ⟨hsats, hnodes, hctx⟩ := plug_iff.mp h
  obtain ⟨ha, ht, -⟩ := branch_iff.mp hnodes
  obtain ⟨n, -, hsats⟩ := openTree hsats
  have hfresh := ne_of_cell_ctx hsats.pull₃.pull₁
  rw [top_branch] at hsats
  obtain ⟨m₁, hm₁, hsats⟩ := setParentIf_tree hsats.pull₁ ht (aligned_upOf hctx a.addr)
  obtain ⟨m₂, hm₂, hsats⟩ :=
    changeChild_ctx .left (rbShape.top t) hsats.pull₃ ha.ne_null hfresh hctx
  rw [upOf_funext] at hsats
  exact ⟨m₁, m₂, hm₁, hm₂, plug_iff.mpr ⟨hsats.pull₃.tail.pull₂.tail.pull₁, ht, hctx⟩⟩

theorem addr_fresh (h : RbHolds m (plug ctx (branch s a t .nil))) : a.addr ∉ addrs (plug ctx t) := by
  have hnodup := ((inorder_plug_perm ctx _).map Mark.addr).nodup_iff.mp h.nodup
  have hbranch := ((inorder_branch_perm s a t .nil).append_right (Context.values ctx)).map Mark.addr
  rw [hbranch.nodup_iff, inorder_nil, append_nil, cons_append, map_cons, nodup_cons] at hnodup
  intro hmem
  exact hnodup.1 (((inorder_plug_perm ctx t).map Mark.addr).mem_iff.mp hmem)

theorem cut_below {f : Frame Mark} (h : RbHolds m (plug (f :: ctx) (branch s a t .nil))) :
    ∃ m₁ m₂, setParentIf ((rbShape.top t).getD NULL) f.value.addr m = some m₁ ∧
      m₁.modify f.value.addr (RbNode.setChild f.side ((rbShape.top t).getD NULL)) = some m₂ ∧
      RbHolds m₂ (plug (f :: ctx) t) ∧ Spare m₂ (plug (f :: ctx) t) a.addr := by
  obtain ⟨hsats, hnodes, hctx⟩ := plug_iff.mp h
  obtain ⟨ha, ht, -⟩ := branch_iff.mp hnodes
  obtain ⟨n, -, hsats⟩ := openTree hsats
  obtain ⟨m₁, hm₁, hsats⟩ := setParentIf_tree hsats.pull₁ ht (aligned_upOf hctx a.addr)
  obtain ⟨m₂, hm₂, hsats⟩ := setChild_ctx (rbShape.top t) hsats.pull₃
  rw [upOf_funext] at hsats
  exact ⟨m₁, m₂, hm₁, hm₂, plug_iff.mpr ⟨hsats.pull₃.tail.pull₂.tail.pull₁, ht, hctx⟩,
    ha, ⟨n, hsats.pull₂.head⟩, addr_fresh h⟩

end Cut

/-! ## Taking a node's links over -/

variable {z : Ptr} {x : Mark} {fuel : Nat}

section TakeOver

variable {m : RbMemory} {ctx : Context Mark} {l r : BinaryTree Mark}

/-- Everything that points to `x` is made to point to `z`. -/
theorem takeOver {x : Ptr} {nz nx : RbNode}
    (h : Sats m [cell z nz, cell x nx, rbShape.treeAt (fun _ => x) l, rbShape.treeAt (fun _ => x) r,
      rbShape.ctxAt (some x) ctx]) (hz : Aligned z) (hx : x ≠ NULL) (hl : AllNodes l) (hr : AllNodes r)
    (hctx : ∀ a ∈ Context.values ctx, IsNode a.addr) :
    ∃ m₁ m₂ m₃, changeChild .left (rbShape.upOf ctx x) x z m = some m₁ ∧ m₁.heap x = some nx ∧
      setParentIf ((rbShape.top l).getD NULL) z m₁ = some m₂ ∧ m₂.heap x = some nx ∧
      setParentIf ((rbShape.top r).getD NULL) z m₂ = some m₃ ∧ m₃.heap x = some nx ∧
      Sats m₃ [cell z nz, rbShape.treeAt (fun _ => z) l, rbShape.treeAt (fun _ => z) r,
        rbShape.ctxAt (some z) ctx] := by
  have hfresh := ne_of_cell_ctx h.pull₄.pull₂
  obtain ⟨m₁, hm₁, h₁⟩ := changeChild_ctx .left (some z) h.pull₄ hx hfresh hctx
  obtain ⟨m₂, hm₂, h₂⟩ := setParentIf_tree h₁.pull₃ hl hz
  obtain ⟨m₃, hm₃, h₃⟩ := setParentIf_tree h₂.pull₄ hr hz
  exact ⟨m₁, m₂, m₃, hm₁, h₁.pull₂.head, hm₂, h₂.pull₃.head, hm₃, h₃.pull₄.head,
    h₃.pull₄.tail.pull₁.pull₃⟩

/-- A node that shows what `x` showed stands where `x` stood. -/
theorem closeTakeOver {nx : RbNode}
    (h : Sats m [cell z nx, rbShape.treeAt (fun _ => z) l, rbShape.treeAt (fun _ => z) r,
      rbShape.ctxAt (some z) ctx])
    (hshows : rbShape.Shows .left nx x (rbShape.upOf ctx x.addr) (rbShape.top l) (rbShape.top r))
    (hz : IsNode z) (hl : AllNodes l) (hr : AllNodes r) (hctx : ∀ a ∈ Context.values ctx, IsNode a.addr) :
    RbHolds m (plug ctx (branch .left ⟨z, x.color⟩ l r)) := by
  refine plug_iff.mpr ⟨?_, branch_iff.mpr ⟨hz, hl, hr⟩, hctx⟩
  rw [top_branch]
  refine closeTree (S := rbShape) _ (a := Mark.mk z x.color) ?_ h
  rw [rbShows_iff] at hshows ⊢
  exact ⟨hshows.1, hshows.2.1.trans (upOf_eq _ _ _), hshows.2.2⟩

theorem rbReplaceNode_spec (h : RbHolds m (plug ctx (branch .left x l r)))
    (hz : Spare m (plug ctx (branch .left x l r)) z) : ∃ m', rbReplaceNode x.addr z m = some m' ∧
      RbHolds m' (plug ctx (branch .left ⟨z, x.color⟩ l r)) := by
  obtain ⟨-, hnodes, hctx⟩ := plug_iff.mp h
  obtain ⟨hx, hl, hr⟩ := branch_iff.mp hnodes
  obtain ⟨nz, hsats⟩ := hz.sats h
  obtain ⟨nx, hshows, hsats⟩ := openTree hsats.pull₁
  have hload : m.heap x.addr = some nx := hsats.head
  rw [top_branch] at hsats
  obtain ⟨m₁, m₂, m₃, hm₁, hx₁, hm₂, hx₂, hm₃, hx₃, hsats⟩ :=
    takeOver hsats.pull₃ hz.isNode.aligned hx.ne_null hl hr hctx
  obtain ⟨m₄, hm₄, hsats⟩ := modifyCell hsats fun _ => nx
  refine ⟨m₄, ?_, closeTakeOver hsats hshows hz.isNode hl hr hctx⟩
  obtain ⟨-, hup, hleft, hright⟩ := rbShows_iff.mp hshows
  replace hleft : nx.rbLeft = _ := hleft
  replace hright : nx.rbRight = _ := hright
  simp [rbReplaceNode, hload, hup, hm₁, hx₁, hleft, hm₂, hx₂, hright, hm₃, hx₃, hm₄]

end TakeOver

/-! ## `rb_erase` -/

section Erase

variable {m : RbMemory} {ctx : Context Mark}

variable {s : Side} {t l r : BinaryTree Mark}

/-- **After a node is cut out**: if it was black, the subtree at its place is one black node short,
and `__rb_erase_color` repairs that. -/
theorem eraseFixup_spec {c : Color} {n : RbNode} (h : RbHolds m (plug ctx t))
    (hrb : IsRb (plug ctx (branch s ⟨z, c⟩ t .nil))) (hn : rbIsRed n = c.isRed)
    (hfuel : ctx.length + 1 < fuel) :
    ∃ m' t', eraseFixup fuel (rbColor n) ((rbShape.top t).getD NULL) (rbShape.upOf ctx NULL) m =
      some m' ∧ RbHolds m' t' ∧ IsRb t' ∧ addrs t' = addrs (plug ctx t) := by
  obtain ⟨c', k, hbal, hfits⟩ := isRb_plug_iff.mp hrb
  obtain rfl : c' = c := hbal.color_branch
  cases c' with
  | red =>
    have hcolor : rbColor n ≠ 1#32 := by
      rw [Ne, rbColor_eq_one_iff, hn]
      exact Bool.noConfusion
    obtain ⟨-, ht, -⟩ := balanced_red_iff.mp hbal
    refine ⟨m, plug ctx t, ?_, h, isRb_plug_iff.mpr ⟨.black, k, ht, hfits.toBlack⟩, rfl⟩
    rw [eraseFixup, if_neg hcolor]
  | black =>
    obtain ⟨-, k, rfl, ⟨ct, ht⟩, -⟩ := balanced_black_iff.mp hbal
    have hinv : EraseInv (addrs (plug ctx t)) (roundsLeft ctx t) ((rbShape.top t).getD NULL)
        (rbShape.upOf ctx NULL) m := ⟨ctx, t, k, h, rfl, rfl, ht.short, hfits, rfl, rfl⟩
    have hrounds : roundsLeft ctx t ≤ ctx.length + 1 := by
      rw [roundsLeft]
      split <;> omega
    rw [eraseFixup, if_pos (rbColor_eq_one_iff.mpr hn)]
    exact rbEraseColor_spec hinv (hrounds.trans_lt hfuel)

/-- `rb_erase` of a node with at most one child. -/
theorem eraseSimple_spec (h : RbHolds m (plug ctx (branch s x t .nil)))
    (hrb : IsRb (plug ctx (branch s x t .nil))) (hfuel : ctx.length + 1 < fuel) :
    ∃ m' t', eraseSimple fuel x.addr ((rbShape.top t).getD NULL) m = some m' ∧ RbHolds m' t' ∧
      IsRb t' ∧ addrs t' = addrs (plug ctx t) := by
  obtain ⟨n, hn, hred, hup, -⟩ := h.load
  obtain ⟨m₁, m₂, hm₁, hm₂, h₂⟩ := cut_simple h
  obtain ⟨m', t', hm', hres⟩ := eraseFixup_spec h₂ hrb hred hfuel
  refine ⟨m', t', ?_, hres⟩
  rw [upOf_eq ctx x.addr NULL] at hup hm₁ hm₂
  simp [eraseSimple, hn, hup, hm₁, hm₂, hm']

theorem outermost_spec (s : Side) (h : RbHolds m (plug ctx t)) (hne : t ≠ .nil)
    (hfuel : (inorder t).length ≤ fuel) :
    ∃ way a u, t = plug way (branch s a .nil u) ∧ (∀ f ∈ way, f.side = s) ∧
      outermost s m fuel ((rbShape.top t).getD NULL) = some a.addr := by
  induction fuel generalizing ctx t with
  | zero =>
    obtain ⟨a, x, y, rfl⟩ := (eq_nil_or_branch s t).resolve_left hne
    rw [(inorder_branch_perm s a x y).length_eq, length_cons] at hfuel
    omega
  | succ fuel ih =>
    obtain ⟨a, x, y, rfl⟩ := (eq_nil_or_branch s t).resolve_left hne
    obtain ⟨n, hn, -, -, hnear, -⟩ := h.load
    have hx : RbHolds m (plug (⟨s, a, y⟩ :: ctx) x) := h
    rw [top_branch, getD_some]
    rcases eq_nil_or_branch s x with rfl | ⟨b, u, v, rfl⟩
    · refine ⟨[], a, y, rfl, nofun, ?_⟩
      rw [top_nil, getD_none] at hnear
      simp [outermost, Loop.run, hn, hnear]
    · have hsize : (inorder (branch s b u v)).length ≤ fuel := by
        rw [(inorder_branch_perm s a _ y).length_eq, length_cons, length_append] at hfuel
        omega
      obtain ⟨way, z, w, heq, hway, hres⟩ := ih hx (branch_ne_nil _ _ _ _) hsize
      rw [heq] at hnear hres ⊢
      have hnull : (rbShape.top (plug way (branch s z .nil w))).getD NULL ≠ NULL := by
        rw [← heq, top_branch]
        exact hx.isNode.ne_null
      refine ⟨way ++ [⟨s, a, y⟩], z, w, by rw [plug_append]; rfl, ?_, ?_⟩
      · exact forall_mem_append.mpr ⟨hway, forall_mem_singleton.mpr rfl⟩
      · rw [outermost, Loop.run]
        simp only [hn, hnear, bind_eq_bind, bind_some, ne_eq, hnull, not_false_eq_true, if_true, pure_def]
        exact hres

theorem isRb_readdress {p : Ptr} (p' : Ptr) {c : Color} {x y : BinaryTree Mark}
    (h : IsRb (plug ctx (branch s ⟨p, c⟩ x y))) : IsRb (plug ctx (branch s ⟨p', c⟩ x y)) := by
  obtain ⟨c', n, hbal, hfits⟩ := isRb_plug_iff.mp h
  refine isRb_plug_iff.mpr ⟨c', n, ?_, hfits⟩
  cases c with
  | red => exact balanced_red_iff.mpr (balanced_red_iff.mp hbal)
  | black => exact balanced_black_iff.mpr (balanced_black_iff.mp hbal)

/-- **The successor takes the place of a node**: the links of `x` go over to `z`. -/
theorem succeed (h : RbHolds m (plug ctx (branch .left x l r))) (hz : Spare m (plug ctx (branch .left x l r)) z) :
    ∃ o m₁ m₂ m₃ m₄, m.heap x.addr = some o ∧
      m.modify z (fun _ => ⟨o.rbParentColor, o.rbRight, o.rbLeft⟩) = some m₁ ∧
      m₁.heap x.addr = some o ∧ changeChild .left (rbParent o) x.addr z m₁ = some m₂ ∧
      m₂.heap x.addr = some o ∧ setParentIf o.rbLeft z m₂ = some m₃ ∧ m₃.heap x.addr = some o ∧
      setParentIf o.rbRight z m₃ = some m₄ ∧
      RbHolds m₄ (plug ctx (branch .left ⟨z, x.color⟩ l r)) := by
  obtain ⟨-, hnodes, hctx⟩ := plug_iff.mp h
  obtain ⟨hx, hl, hr⟩ := branch_iff.mp hnodes
  obtain ⟨nz, hsats⟩ := hz.sats h
  obtain ⟨o, hshows, hsats⟩ := openTree hsats.pull₁
  have hload : m.heap x.addr = some o := hsats.head
  rw [top_branch] at hsats
  obtain ⟨m₁, hm₁, hsats⟩ := modifyCell hsats.pull₃ fun _ => o
  have hx₁ : m₁.heap x.addr = some o := hsats.pull₁.head
  obtain ⟨m₂, m₃, m₄, hm₂, hx₂, hm₃, hx₃, hm₄, -, hsats⟩ :=
    takeOver hsats hz.isNode.aligned hx.ne_null hl hr hctx
  obtain ⟨-, hup, hleft, hright⟩ := rbShows_iff.mp hshows
  rw [← hup] at hm₂
  rw [← hleft] at hm₃
  rw [← hright] at hm₄
  exact ⟨o, m₁, m₂, m₃, m₄, hload, hm₁, hx₁, hm₂, hx₂, hm₃, hx₃, hm₄,
    closeTakeOver hsats hshows hz.isNode hl hr hctx⟩

/-- The nearest node above the successor: `x` itself, which has it on its right, or a node that has
it on its left. -/
theorem nearest_frame {way : Context Mark}
    (h : RbHolds m (plug (way ++ ⟨.right, x, l⟩ :: ctx) t)) (hway : ∀ f ∈ way, f.side = .left) (z : Mark) :
    ∃ f rest, way ++ ⟨.right, x, l⟩ :: ctx = f :: rest ∧
      f.side = (if f.value.addr = x.addr then .right else .left) ∧
      rbShape.upOf (way ++ ⟨.right, z, l⟩ :: ctx) NULL =
        if f.value.addr = x.addr then z.addr else f.value.addr := by
  cases way with
  | nil => exact ⟨_, _, rfl, (if_pos rfl).symm, (if_pos rfl).symm⟩
  | cons f way =>
    have hne : f.value.addr ≠ x.addr := by
      rw [cons_append, plug_cons, plug_append, plug_cons] at h
      have hmem : f.value ∈ inorder (plug way (branch f.side f.value t f.sibling)) :=
        (inorder_plug_perm way _).mem_iff.mpr (mem_append_left _ (root?_mem (root?_branch ..)))
      have hx : RbHolds m (plug (⟨.right, x, l⟩ :: ctx)
        (plug way (branch f.side f.value t f.sibling))) := h
      exact hx.ne_of_mem hmem mem_cons_self
    refine ⟨f, _, rfl, ?_, ?_⟩
    · rw [if_neg hne]
      exact hway f mem_cons_self
    · rw [if_neg hne]
      rfl

/-- `rb_erase` of a node with two children. -/
theorem eraseInner_spec (h : RbHolds m (plug ctx (branch .left x l r)))
    (hrb : IsRb (plug ctx (branch .left x l r))) (hl : l ≠ .nil) (hr : r ≠ .nil)
    (hfuel : (inorder (plug ctx (branch .left x l r))).length + 1 < fuel) :
    ∃ m' t', eraseInner fuel x.addr m = some m' ∧ RbHolds m' t' ∧ IsRb t' ∧
      addrs t' = (before ctx).map Mark.addr ++ addrs l ++ (addrs r ++ (after ctx).map Mark.addr) := by
  obtain ⟨nx, hnx, -, -, -, hnxr⟩ := h.load
  have hright : RbHolds m (plug (⟨.right, x, l⟩ :: ctx) r) := h
  replace hfuel : (inorder (plug (⟨.right, x, l⟩ :: ctx) r)).length + 1 < fuel := hfuel
  have hsize : (inorder r).length ≤ fuel := by
    have hle := length_add_le (⟨.right, x, l⟩ :: ctx) r
    omega
  obtain ⟨way, ⟨z, cz⟩, u, rfl, hway, hout⟩ := outermost_spec .left hright hr hsize
  -- the successor is cut out below `x`
  have hz : RbHolds m (plug (way ++ ⟨.right, x, l⟩ :: ctx) (branch .right ⟨z, cz⟩ u .nil)) := by
    rw [plug_append]
    exact hright
  obtain ⟨f, rest, heq, hside, hparent⟩ := nearest_frame hz hway ⟨z, x.color⟩
  obtain ⟨nz, hnz, hred, hzup, hznear, -⟩ := hz.load
  have hlength := length_add_le (way ++ ⟨.right, x, l⟩ :: ctx) (branch .right ⟨z, cz⟩ u .nil)
  rw [plug_append, length_append, length_cons] at hlength
  rw [heq] at hz hzup
  obtain ⟨m₁, m₂, hm₁, hm₂, h₂, hspare⟩ := cut_below hz
  rw [← heq, plug_append] at h₂ hspare
  rw [hside] at hm₂
  -- and takes the links of `x` over
  have hx₂ : RbHolds m₂ (plug ctx (branch .left x l (plug way u))) := h₂
  obtain ⟨o, m₃, m₄, m₅, m₆, ho, hm₃, ho₃, hm₄, ho₄, hm₅, ho₅, hm₆, h₆⟩ := succeed hx₂ hspare
  have hleft : o.rbLeft ≠ NULL := by
    obtain ⟨o', ho', -, -, hnear, -⟩ := hx₂.load
    obtain rfl : o' = o := some.inj (ho'.symm.trans ho)
    have hltop : RbHolds m₂ (plug (⟨.left, x, plug way u⟩ :: ctx) l) := hx₂
    replace hnear : o'.rbLeft = (rbShape.top l).getD NULL := hnear
    rw [hnear, Ne, hltop.top_eq_NULL]
    exact hl
  rw [setParentIf, if_pos hleft] at hm₅
  have hplace : RbHolds m₆ (plug (way ++ ⟨.right, ⟨z, x.color⟩, l⟩ :: ctx) u) := by
    rw [plug_append]
    exact h₆
  have hrb₆ : IsRb (plug (way ++ ⟨.right, ⟨z, x.color⟩, l⟩ :: ctx) (branch .right ⟨z, cz⟩ u .nil)) := by
    rw [plug_append]
    exact isRb_readdress z hrb
  have hlow : (way ++ (⟨.right, ⟨z, x.color⟩, l⟩ : Frame Mark) :: ctx).length + 1 < fuel := by
    rw [length_append, length_cons]
    replace hlength : way.length + (ctx.length + 1) + (inorder (branch .right ⟨z, cz⟩ u .nil)).length ≤
      (inorder (plug (⟨.right, x, l⟩ :: ctx) (plug way (branch .left ⟨z, cz⟩ .nil u)))).length := hlength
    omega
  obtain ⟨m', t', hm', h', hrb', has⟩ := eraseFixup_spec hplace hrb₆ hred hlow
  refine ⟨m', t', ?_, h', hrb', ?_⟩
  · replace hnxr : nx.rbRight = _ := hnxr
    replace hznear : nz.rbRight = _ := hznear
    replace hzup : rbParent nz = f.value.addr := hzup
    rw [hparent] at hm'
    simp [eraseInner, hnx, hnxr, hout, hnz, hznear, hzup, hm₁, hm₂, ho, hm₃, ho₃, hm₄, ho₄, hm₅, ho₅, hm₆,
      hm']
  · rw [has, plug_append, addrs_plug]
    have hbefore : before way = [] := before_eq_nil hway
    have hr : addrs (plug way (branch .left ⟨z, cz⟩ .nil u)) = z :: addrs (plug way u) := by
      rw [addrs_plug, addrs_plug, hbefore]
      simp [addrs, branch, inorder]
    rw [hr]
    simp [addrs, before, after]

theorem rbErase_spec (h : RbHolds m (plug ctx (branch .left x l r))) (hrb : IsRb (plug ctx (branch .left x l r)))
    (hfuel : (inorder (plug ctx (branch .left x l r))).length + 1 < fuel) :
    ∃ m' t', rbErase fuel x.addr m = some m' ∧ RbHolds m' t' ∧ IsRb t' ∧
      addrs t' = (before ctx).map Mark.addr ++ addrs l ++ (addrs r ++ (after ctx).map Mark.addr) := by
  obtain ⟨n, hn, -, -, hleft, hright⟩ := h.load
  replace hleft : n.rbLeft = (rbShape.top l).getD NULL := hleft
  replace hright : n.rbRight = (rbShape.top r).getD NULL := hright
  have hlm : RbHolds m (plug (⟨.left, x, r⟩ :: ctx) l) := h
  have hrm : RbHolds m (plug (⟨.right, x, l⟩ :: ctx) r) := h
  have hctx : ctx.length + 1 < fuel := by
    have hle := length_add_le ctx (branch .left x l r)
    omega
  by_cases hl : l = .nil
  · subst hl
    have hres := eraseSimple_spec (s := .right) (t := r) h hrb hctx
    rw [top_nil, getD_none] at hleft
    simp only [rbErase, hn, hleft, hright, if_true, bind_eq_bind, bind_some]
    rw [addrs_plug] at hres
    simpa [addrs] using hres
  · have hlne : n.rbLeft ≠ NULL := by
      rw [hleft, Ne, hlm.top_eq_NULL]
      exact hl
    by_cases hr : r = .nil
    · subst hr
      have hres := eraseSimple_spec (s := .left) (t := l) h hrb hctx
      rw [top_nil, getD_none] at hright
      rw [hleft] at hlne
      simp only [rbErase, hn, hleft, hright, hlne, if_true, if_false, bind_eq_bind, bind_some]
      rw [addrs_plug] at hres
      simpa [addrs] using hres
    · have hrne : n.rbRight ≠ NULL := by
        rw [hright, Ne, hrm.top_eq_NULL]
        exact hr
      simp only [rbErase, hn, hlne, hrne, if_false, bind_eq_bind, bind_some]
      exact eraseInner_spec h hrb hl hr hfuel

end Erase

end Linux
