/-
# MipsOnQemu.Linux.RbErase -- deletion from a red-black tree

The loop of `__rb_erase_color` walks up with a subtree that is one black node short of what its
place asks for. A red root of the subtree makes it good when it is painted black, and so does a
rotation that takes a red node over from the sibling's side; otherwise the sibling gives up a black
node too and the shortage moves up.
-/

import MipsOnQemu.Linux.RbInsert

namespace Linux

open SidedTree LinkedTree Option Shape List

/-! ## Places and pointers -/

variable {n : Nat} {o : Ptr} {co : Color} {as : List Ptr}

section Places

variable {m : RbMemory} {ctx : Context Mark} {t : BinaryTree Mark}

theorem isBlackOrNull_top (h : RbHolds m (plug ctx t)) :
    isBlackOrNull m ((rbShape.top t).getD NULL) = some (!redRoot t) := by
  rw [isBlackOrNull, h.isRed_top, map_some]

theorem RbHolds.ne_of_mem {a b : Mark} (h : RbHolds m (plug ctx t)) (ha : a ∈ inorder t)
    (hb : b ∈ Context.values ctx) : a.addr ≠ b.addr := by
  have hnodup := ((inorder_plug_perm ctx t).map Mark.addr).nodup_iff.mp h.nodup
  rw [map_append, nodup_append] at hnodup
  exact hnodup.2.2 a.addr (mem_map_of_mem ha) b.addr (mem_map_of_mem hb)

theorem exists_root_mem_values (f : Frame Mark) (ctx : Context Mark) (t : BinaryTree Mark) :
    ∃ a ∈ Context.values (f :: ctx), rbShape.top (plug (f :: ctx) t) = some a.addr := by
  induction ctx generalizing f t with
  | nil =>
    refine ⟨f.value, mem_cons_self, ?_⟩
    rw [plug_cons, plug_nil, top_branch]
  | cons g ctx ih =>
    obtain ⟨a, ha, htop⟩ := ih g (branch f.side f.value t f.sibling)
    exact ⟨a, mem_cons_of_mem _ (mem_append_right _ ha), htop⟩

theorem RbHolds.top_ne_root {f : Frame Mark} (h : RbHolds m (plug (f :: ctx) t)) :
    (rbShape.top t).getD NULL ≠ m.root := by
  obtain ⟨b, hb, htop⟩ := exists_root_mem_values f ctx t
  rw [h.root_eq, htop, getD_some]
  rcases eq_nil_or_branch .left t with rfl | ⟨a, x, y, rfl⟩
  · exact ((RbHolds.plug_iff.mp h).2.2 b hb).ne_null.symm
  · rw [top_branch, getD_some]
    exact h.ne_of_mem (root?_mem (root?_branch ..)) hb

theorem Fits.toBlack (h : Fits ctx .red n) : Fits ctx .black n := by
  obtain ⟨s, p, u, ctx', rfl⟩ := h.exists_black
  exact h

end Places

/-! ## One half of the loop -/

section Half

variable {m : RbMemory} {ctx : Context Mark} {s : Side} {p : Ptr} {c : Color}
variable {t sib x y : BinaryTree Mark}

theorem redSibling_black (h : RbHolds m (plug ctx (branch s ⟨p, c⟩ t sib))) (hsib : sib ≠ .nil)
    (hblack : redRoot sib = false) : redSibling s p m = some ((rbShape.top sib).getD NULL, m) := by
  obtain ⟨n, hn, -, -, -, hfar⟩ := h.load
  obtain ⟨o, o₁, o₂, rfl⟩ := (eq_nil_or_branch s sib).resolve_left hsib
  rw [plug_far] at h
  obtain ⟨no, hno, hred, -⟩ := h.load
  rw [redRoot_branch] at hblack
  rw [top_branch, getD_some] at hfar ⊢
  simp [redSibling, hn, hfar, hno, hred, hblack]

theorem redSibling_red (h : RbHolds m (plug ctx (branch s ⟨p, c⟩ t (branch s ⟨o, .red⟩ x y)))) :
    ∃ m', redSibling s p m = some ((rbShape.top x).getD NULL, m') ∧
      RbHolds m' (plug ctx (branch s ⟨o, .black⟩ (branch s ⟨p, .red⟩ t x) y)) := by
  obtain ⟨n, hn, -, -, -, hfar⟩ := h.load
  rw [top_branch, getD_some] at hfar
  have ho := h
  rw [plug_far] at ho
  obtain ⟨no, hno, hred, -⟩ := ho.load
  obtain ⟨m₁, hm₁, h₁⟩ := ho.setBlack
  rw [← plug_far] at h₁
  obtain ⟨m₂, hm₂, h₂⟩ := h₁.setRed
  obtain ⟨m₃, hm₃, h₃⟩ := h₂.rotate
  have hp : RbHolds m₃ (plug (⟨s, ⟨o, .black⟩, y⟩ :: ctx) (branch s ⟨p, .red⟩ t x)) := h₃
  obtain ⟨n₃, hn₃, -, -, -, hfar₃⟩ := hp.load
  refine ⟨m₃, ?_, h₃⟩
  simp [redSibling, hn, hfar, hno, hred, Color.isRed, hm₁, hm₂, hm₃, hn₃, hfar₃]

theorem nearNephew_red {q : Ptr} {q₁ q₂ : BinaryTree Mark}
    (h : RbHolds m (plug ctx (branch s ⟨p, c⟩ t (branch s ⟨o, co⟩ (branch s ⟨q, .red⟩ q₁ q₂) y))))
    (hfar : redRoot y = false) :
    ∃ m', nearNephew s o p m = some (q, m') ∧ RbHolds m' (plug ctx (branch s ⟨p, c⟩ t
      (branch s ⟨q, .black⟩ q₁ (branch s ⟨o, .red⟩ q₂ y)))) := by
  have ho := h
  rw [plug_far] at ho
  obtain ⟨no, hno, -, -, hnear, hfaro⟩ := ho.load
  have hy := ho
  rw [plug_far] at hy
  have hblack := isBlackOrNull_top hy
  rw [hfar] at hblack
  have hq : RbHolds m (plug (⟨s, ⟨o, co⟩, y⟩ :: ⟨s.other, ⟨p, c⟩, t⟩ :: ctx)
    (branch s ⟨q, .red⟩ q₁ q₂)) := ho
  rw [top_branch, getD_some] at hnear
  obtain ⟨m₁, hm₁, h₁⟩ := hq.setBlack
  replace h₁ : RbHolds m₁ (plug (⟨s.other, ⟨p, c⟩, t⟩ :: ctx)
    (branch s ⟨o, co⟩ (branch s ⟨q, .black⟩ q₁ q₂) y)) := h₁
  obtain ⟨m₂, hm₂, h₂⟩ := h₁.setRed
  obtain ⟨m₃, hm₃, h₃⟩ := h₂.rotate_other
  rw [← plug_far] at h₃
  obtain ⟨n₃, hn₃, -, -, -, hfar₃⟩ := h₃.load
  rw [top_branch, getD_some] at hfar₃
  refine ⟨m₃, ?_, h₃⟩
  have hne : q ≠ NULL := hq.isNode.ne_null
  simp [nearNephew, hno, hfaro, hblack, hnear, hne, hm₁, hm₂, hm₃, hn₃, hfar₃]

theorem nearNephew_far (h : RbHolds m (plug ctx (branch s ⟨p, c⟩ t (branch s ⟨o, co⟩ x y))))
    (hfar : redRoot y = true) : nearNephew s o p m = some (o, m) := by
  rw [plug_far] at h
  obtain ⟨no, hno, -, -, -, hfaro⟩ := h.load
  rw [plug_far] at h
  have hred := isBlackOrNull_top h
  rw [hfar] at hred
  simp [nearNephew, hno, hfaro, hred]

theorem eraseLast_spec {r : Ptr} {rs : Side} {r₁ r₂ : BinaryTree Mark}
    (h : RbHolds m (plug ctx (branch s ⟨p, c⟩ t (branch s ⟨o, co⟩ x (branch rs ⟨r, .red⟩ r₁ r₂))))) :
    ∃ m', eraseLast s o p m = some m' ∧ RbHolds m' (plug ctx (branch s ⟨o, c⟩ (branch s ⟨p, .black⟩ t x)
        (branch rs ⟨r, .black⟩ r₁ r₂))) := by
  obtain ⟨n, hn, hcolor, -⟩ := h.load
  have ho := h
  rw [plug_far] at ho
  obtain ⟨m₁, hm₁, h₁⟩ := ho.setColor (f := rbSetColor (rbColor n)) c
    (fun _ => rbParent_rbSetColor) (fun _ _ => child_rbSetColor ..)
    (fun _ => rbIsRed_rbSetColor.trans hcolor)
  rw [← plug_far] at h₁
  obtain ⟨m₂, hm₂, h₂⟩ := h₁.setBlack
  rw [plug_far] at h₂
  obtain ⟨no, hno, -, -, -, hfaro⟩ := h₂.load
  rw [top_branch, getD_some] at hfaro
  rw [plug_far] at h₂
  have hne : r ≠ NULL := h₂.isNode.ne_null
  obtain ⟨m₃, hm₃, h₃⟩ := h₂.setBlack
  rw [← plug_far, ← plug_far] at h₃
  obtain ⟨m₄, hm₄, h₄⟩ := h₃.rotate
  refine ⟨m₄, ?_, h₄⟩
  simp [eraseLast, hn, hm₁, hm₂, hno, hfaro, hne, hm₃, hm₄]

end Half

/-! ## The loop -/

/-- A subtree that is one black node short of height `n + 1`: it is black and of height `n`, or it
has a red root and is right once that is black. -/
def Short (t : BinaryTree Mark) (n : Nat) : Prop :=
  Balanced t .black n ∨ (redRoot t = true ∧ Balanced (blacken t) .black (n + 1))

variable {t sib : BinaryTree Mark} {c : Color} {m : RbMemory} {ctx : Context Mark} {s : Side} {p : Ptr}

theorem Balanced.short (h : Balanced t c n) : Short t n := by
  cases c with
  | black => exact .inl h
  | red =>
    refine .inr ⟨h.redRoot_eq, ?_⟩
    obtain ⟨p, x, y, rfl, hx, hy⟩ := h.exists_red .left
    rw [blacken_branch]
    exact hx.blackBranch hy

/-- The bound on the rounds: none is left for a red root. -/
def roundsLeft (ctx : Context Mark) (t : BinaryTree Mark) : Nat :=
  if redRoot t then 0 else ctx.length + 1

/-- The invariant of the loop of `__rb_erase_color`. -/
def EraseInv (as : List Ptr) (k : Nat) (node parent : Ptr) (m : RbMemory) : Prop :=
  ∃ ctx t n, RbHolds m (plug ctx t) ∧ node = (rbShape.top t).getD NULL ∧
    parent = rbShape.upOf ctx NULL ∧ Short t n ∧ Fits ctx .black (n + 1) ∧
    addrs (plug ctx t) = as ∧ roundsLeft ctx t = k

/-- When the loop is left, the tree is right once `node` is black. -/
def Erased (as : List Ptr) (node : Ptr) (m : RbMemory) : Prop :=
  ∃ ctx t, RbHolds m (plug ctx t) ∧ node = (rbShape.top t).getD NULL ∧
    IsRb (plug ctx (blacken t)) ∧ addrs (plug ctx t) = as

theorem Erased.of_isRb (h : RbHolds m t) (hrb : IsRb t) (has : addrs t = as) : Erased as m.root m := by
  refine ⟨[], t, h, h.root_eq, ?_, has⟩
  rw [hrb.blacken_eq]
  exact hrb

theorem eraseLast_inv {rs : Side} {r : Ptr} {cx : Color} {x r₁ r₂ : BinaryTree Mark}
    (h : RbHolds m (plug ctx (branch s ⟨p, c⟩ t (branch s ⟨o, co⟩ x (branch rs ⟨r, .red⟩ r₁ r₂)))))
    (ht : Balanced t .black n) (hx : Balanced x cx n) (hr₁ : Balanced r₁ .black n)
    (hr₂ : Balanced r₂ .black n) (hctx : Fits ctx c (if c = .red then n + 1 else n + 2))
    (has : addrs (plug ctx (branch s ⟨p, c⟩ t (branch s ⟨o, co⟩ x (branch rs ⟨r, .red⟩ r₁ r₂)))) =
      as) : ∃ m', eraseLast s o p m = some m' ∧ Erased as m'.root m' := by
  obtain ⟨m', hm', h'⟩ := eraseLast_spec h
  have hnear : Balanced (branch s ⟨p, .black⟩ t x) .black (n + 1) := ht.blackBranch hx
  have hfar : Balanced (branch rs ⟨r, .black⟩ r₁ r₂) .black (n + 1) := hr₁.blackBranch hr₂
  refine ⟨m', hm', Erased.of_isRb h' (isRb_plug_iff.mpr ?_) ?_⟩
  · cases c with
    | red => exact ⟨.red, n + 1, hnear.redBranch hfar, hctx⟩
    | black => exact ⟨.black, n + 2, hnear.blackBranch hfar, hctx⟩
  · rw [← has]
    refine addrs_plug_congr ctx ((addrs_rotate s _ _ _ _ _).trans ?_)
    exact addrs_branch_congr rfl rfl (addrs_branch_congr rfl rfl (addrs_branch_congr rfl rfl rfl))

/-- The height that the place of a node asks for, over children of height `n + 1`. -/
theorem fits_of_frame
    (h : Fits (⟨s, ⟨p, c⟩, sib⟩ :: ctx) .black (n + 1)) : Fits ctx c (if c = .red then n + 1 else n + 2) := by
  cases c with
  | red => exact h.2.2
  | black => exact h.2

/-- **The rest of a half.** The sibling is black; the loop goes on above, or the tree is right. -/
theorem eraseRest_inv (h : RbHolds m (plug ctx (branch s ⟨p, c⟩ t sib))) (ht : Balanced t .black n)
    (hsib : Balanced sib .black (n + 1)) (hctx : Fits ctx c (if c = .red then n + 1 else n + 2))
    (has : addrs (plug ctx (branch s ⟨p, c⟩ t sib)) = as) :
    (∃ node m', eraseRest s ((rbShape.top sib).getD NULL) p m = some (.inr (node, m')) ∧
      Erased as node m') ∨
    ∃ node parent m' k, eraseRest s ((rbShape.top sib).getD NULL) p m =
      some (.inl (node, parent, m')) ∧ EraseInv as k node parent m' ∧
        k ≤ if c = .red then 0 else ctx.length + 1 := by
  -- a black tree with a black node on every path is a node
  obtain ⟨o, x, y, rfl, ⟨cx, hx⟩, ⟨cy, hy⟩⟩ : ∃ o x y, sib = branch s ⟨o, .black⟩ x y ∧
      (∃ c, Balanced x c n) ∧ ∃ c, Balanced y c n := by
    rcases eq_nil_or_branch s sib with rfl | ⟨⟨o, co⟩, x, y, rfl⟩
    · cases hsib
    · obtain rfl := hsib.color_branch
      obtain ⟨-, k, hk, hx, hy⟩ := balanced_black_iff.mp hsib
      obtain rfl : n = k := by omega
      exact ⟨o, x, y, rfl, hx, hy⟩
  have ho := h
  rw [plug_far] at ho
  obtain ⟨no, hno, -, -, hnear, hfar⟩ := ho.load
  have hxm : RbHolds m (plug (⟨s, ⟨o, .black⟩, y⟩ :: ⟨s.other, ⟨p, c⟩, t⟩ :: ctx) x) := ho
  have hym := ho
  rw [plug_far] at hym
  have hxb := isBlackOrNull_top hxm
  have hyb := isBlackOrNull_top hym
  rw [← hnear, hx.redRoot_eq] at hxb
  rw [← hfar, hy.redRoot_eq] at hyb
  -- both nephews are black, as the source asks
  have hboth : nephewsBlack no m = some (!cx.isRed && !cy.isRed) := by
    cases s with
    | left =>
      replace hxb : isBlackOrNull m no.rbLeft = _ := hxb
      replace hyb : isBlackOrNull m no.rbRight = _ := hyb
      simp [nephewsBlack, hxb, hyb]
    | right =>
      replace hxb : isBlackOrNull m no.rbRight = _ := hxb
      replace hyb : isBlackOrNull m no.rbLeft = _ := hyb
      simp [nephewsBlack, hxb, hyb, Bool.and_comm]
  rw [top_branch, getD_some]
  cases cy with
  | red =>
    -- the far nephew is red already
    left
    obtain ⟨r, r₁, r₂, rfl, hr₁, hr₂⟩ := hy.exists_red .left
    obtain ⟨m', hm', herased⟩ := eraseLast_inv h ht hx hr₁ hr₂ hctx has
    refine ⟨m'.root, m', ?_, herased⟩
    have hnephew := nearNephew_far h (redRoot_branch ..)
    simp [eraseRest, hno, hboth, hnephew, hm', Color.isRed]
  | black =>
    cases cx with
    | red =>
      -- the near nephew is red: it is rotated out first
      left
      obtain ⟨q, q₁, q₂, rfl, hq₁, hq₂⟩ := hx.exists_red s
      obtain ⟨m₁, hm₁, h₁⟩ := nearNephew_red h hy.redRoot_eq
      have has₁ : addrs (plug ctx (branch s ⟨p, c⟩ t (branch s ⟨q, .black⟩ q₁
          (branch s ⟨o, .red⟩ q₂ y)))) = as := by
        rw [← has]
        refine addrs_plug_congr ctx (addrs_branch_congr rfl rfl ?_)
        refine (addrs_rotate s _ _ _ _ _).symm.trans ?_
        exact addrs_branch_congr rfl (addrs_branch_congr rfl rfl rfl) rfl
      obtain ⟨m', hm', herased⟩ := eraseLast_inv h₁ ht hq₁ hq₂ hy hctx has₁
      refine ⟨m'.root, m', ?_, herased⟩
      simp [eraseRest, hno, hboth, hm₁, hm', Color.isRed]
    | black =>
      -- both are black: the sibling gives up a black node
      right
      obtain ⟨m₁, hm₁, h₁⟩ := ho.setRed
      rw [← plug_far] at h₁
      obtain ⟨np, hnp, -, hup, -⟩ := h₁.load
      have hnode : Balanced (branch s ⟨p, .black⟩ t (branch s ⟨o, .red⟩ x y)) .black (n + 1) :=
        ht.blackBranch (hx.redBranch hy)
      refine ⟨p, rbShape.upOf ctx NULL, m₁, _, ?_, ⟨ctx, _, if c = .red then n else n + 1, h₁, ?_, rfl,
        ?_, ?_, ?_, rfl⟩, ?_⟩
      · rw [upOf_eq ctx p NULL] at hup
        simp [eraseRest, hno, hboth, hm₁, hnp, hup, Color.isRed]
      · rw [top_branch, getD_some]
      · cases c with
        | red =>
          refine .inr ⟨redRoot_branch .., ?_⟩
          rw [blacken_branch]
          exact hnode
        | black => exact .inl hnode
      · cases c with
        | red => exact Fits.toBlack hctx
        | black => exact hctx
      · rw [← has]
        exact addrs_plug_congr ctx (addrs_branch_congr rfl rfl (addrs_branch_congr rfl rfl rfl))
      · rw [roundsLeft, redRoot_branch]
        cases c with
        | red => exact le_rfl
        | black => exact le_rfl

/-- **One half.** A red sibling is rotated away first; then the parent is red, and the loop does not
go on. -/
theorem eraseHalf_inv (h : RbHolds m (plug ctx (branch s ⟨p, c⟩ t sib))) (ht : Balanced t .black n)
    (hfits : Fits (⟨s, ⟨p, c⟩, sib⟩ :: ctx) .black (n + 1))
    (has : addrs (plug ctx (branch s ⟨p, c⟩ t sib)) = as) :
    (∃ node m', eraseHalf s p m = some (.inr (node, m')) ∧ Erased as node m') ∨
    ∃ node parent m' k, eraseHalf s p m = some (.inl (node, parent, m')) ∧
      EraseInv as k node parent m' ∧ k ≤ ctx.length + 1 := by
  have hctx := fits_of_frame hfits
  obtain ⟨cs, hsib, hcs⟩ : ∃ cs, Balanced sib cs (n + 1) ∧ (cs = .red → c = .black) := by
    cases c with
    | red => exact ⟨.black, hfits.2.1, Color.noConfusion⟩
    | black =>
      obtain ⟨⟨cs, hsib⟩, -⟩ := fits_black_iff.mp hfits
      exact ⟨cs, hsib, fun _ => rfl⟩
  cases cs with
  | black =>
    have hne : sib ≠ .nil := by
      rintro rfl
      cases hsib
    have hred := redSibling_black h hne hsib.redRoot_eq
    have hhalf : eraseHalf s p m = eraseRest s ((rbShape.top sib).getD NULL) p m := by
      simp [eraseHalf, hred]
    rw [hhalf]
    refine (eraseRest_inv h ht hsib hctx has).imp_right ?_
    rintro ⟨node, parent, m', k, hres, hinv, hk⟩
    refine ⟨node, parent, m', k, hres, hinv, hk.trans ?_⟩
    split <;> omega
  | red =>
    obtain rfl := hcs rfl
    obtain ⟨o, x, y, rfl, hx, hy⟩ := hsib.exists_red s
    obtain ⟨m₁, hred, h₁⟩ := redSibling_red h
    have hhalf : eraseHalf s p m = eraseRest s ((rbShape.top x).getD NULL) p m₁ := by
      simp [eraseHalf, hred]
    rw [hhalf]
    have h₁' : RbHolds m₁ (plug (⟨s, ⟨o, .black⟩, y⟩ :: ctx) (branch s ⟨p, .red⟩ t x)) := h₁
    have habove : Fits (⟨s, ⟨o, .black⟩, y⟩ :: ctx) .red (n + 1) :=
      fits_black_iff.mpr ⟨⟨_, hy⟩, hctx⟩
    have has₁ : addrs (plug (⟨s, ⟨o, .black⟩, y⟩ :: ctx) (branch s ⟨p, .red⟩ t x)) = as := by
      rw [← has, plug_cons]
      refine addrs_plug_congr ctx ((addrs_rotate s _ _ _ _ _).trans ?_)
      exact addrs_branch_congr rfl rfl (addrs_branch_congr rfl rfl rfl)
    refine (eraseRest_inv h₁' ht hx habove has₁).imp_right ?_
    rintro ⟨node, parent, m', k, hres, hinv, hk⟩
    exact ⟨node, parent, m', k, hres, hinv, hk.trans (Nat.zero_le _)⟩

theorem Short.isRb (h : Short t n)
    (hfits : Fits ctx .black (n + 1)) (hred : redRoot t = true) : IsRb (plug ctx (blacken t)) := by
  rcases h with h | ⟨-, h⟩
  · rw [h.redRoot_eq] at hred
    cases hred
  · exact isRb_plug_iff.mpr ⟨.black, n + 1, h, hfits⟩

theorem Short.balanced (h : Short t n) (hred : redRoot t = false) : Balanced t .black n := by
  refine h.resolve_right ?_
  rintro ⟨htrue, -⟩
  rw [hred] at htrue
  cases htrue

theorem Fits.sibling_ne_nil {f : Frame Mark} (h : Fits (f :: ctx) .black (n + 1)) : f.sibling ≠ .nil := by
  obtain ⟨s, ⟨p, c⟩, u⟩ := f
  rintro rfl
  cases c with
  | red => cases (fits_red_iff.mp h).2.1
  | black =>
    obtain ⟨⟨c, hnil⟩, -⟩ := fits_black_iff.mp h
    cases hnil

theorem eraseRound_inv {k : Nat} {node parent : Ptr} (h : EraseInv as k node parent m) :
    (∃ r, eraseRound (node, parent, m) = some (.inr r) ∧ Erased as r.1 r.2) ∨
      ∃ σ k', eraseRound (node, parent, m) = some (.inl σ) ∧ k' < k ∧ EraseInv as k' σ.1 σ.2.1 σ.2.2 := by
  obtain ⟨ctx, t, n, hm, rfl, rfl, hshort, hfits, has, rfl⟩ := h
  have hblack := isBlackOrNull_top hm
  cases hred : redRoot t with
  | true =>
    refine .inl ⟨((rbShape.top t).getD NULL, m), ?_, ctx, t, hm, rfl, hshort.isRb hfits hred, has⟩
    simp [eraseRound, hblack, hred]
  | false =>
    have ht := hshort.balanced hred
    cases ctx with
    | nil =>
      have hroot : m.root = (rbShape.top t).getD NULL := RbHolds.root_eq hm
      refine .inl ⟨(m.root, m), ?_, Erased.of_isRb hm ⟨n, ht⟩ has⟩
      simp [eraseRound, hblack, hred, hroot]
    | cons f ctx =>
      obtain ⟨s, ⟨p, c⟩, sib⟩ := f
      have hp : RbHolds m (plug ctx (branch s ⟨p, c⟩ t sib)) := hm
      have hp' := hp
      rw [← branch_other] at hp'
      obtain ⟨np, hnp, -, -, hnear, hfar⟩ := hp.load
      have hne := hp'.child_ne hfits.sibling_ne_nil
      rw [← hfar] at hne
      -- the child that is looked at first is `node` exactly when it stands on the left
      have hside : (if np.rbLeft = (rbShape.top t).getD NULL then Side.left else Side.right) = s := by
        cases s with
        | left => exact if_pos hnear
        | right => exact if_neg hne
      have hround : eraseRound ((rbShape.top t).getD NULL,
          rbShape.upOf (⟨s, ⟨p, c⟩, sib⟩ :: ctx) NULL, m) = eraseHalf s p m := by
        have hup : rbShape.upOf (⟨s, ⟨p, c⟩, sib⟩ :: ctx) NULL = p := rfl
        simp [eraseRound, hblack, hred, hm.top_ne_root, hup, hnp, hside]
      rw [hround]
      rcases eraseHalf_inv hp ht hfits has with ⟨node, m', hres, hdone⟩ | hnext
      · exact .inl ⟨(node, m'), hres, hdone⟩
      · obtain ⟨node, parent, m', k, hres, hinv, hk⟩ := hnext
        refine .inr ⟨(node, parent, m'), k, hres, ?_, hinv⟩
        rw [roundsLeft, hred, length_cons]
        exact Nat.lt_succ_of_le hk

theorem rbEraseColor_spec {k : Nat} {node parent : Ptr} (h : EraseInv as k node parent m)
    {fuel : Nat} (hfuel : k < fuel) :
    ∃ m' t, rbEraseColor fuel node parent m = some m' ∧ RbHolds m' t ∧ IsRb t ∧ addrs t = as := by
  obtain ⟨⟨last, m₁⟩, hrun, ctx, t, hm₁, rfl, hrb, has⟩ := Loop.run_of_measure
    (I := fun k (σ : Ptr × Ptr × RbMemory) => EraseInv as k σ.1 σ.2.1 σ.2.2)
    (Q := fun r : Ptr × RbMemory => Erased as r.1 r.2) (fun k σ hσ => eraseRound_inv hσ) (s := (node, parent, m))
    h hfuel
  rcases eq_nil_or_branch .left t with rfl | ⟨a, x, y, rfl⟩
  · refine ⟨m₁, plug ctx .nil, ?_, hm₁, hrb, has⟩
    simp [rbEraseColor, hrun, top_nil]
  · have hne : a.addr ≠ NULL := hm₁.isNode.ne_null
    obtain ⟨m₂, hm₂, h₂⟩ := hm₁.setBlack
    rw [blacken_branch] at hrb
    refine ⟨m₂, _, ?_, h₂, hrb, ?_⟩
    · simp [rbEraseColor, hrun, top_branch, hne, hm₂]
    · rw [← has]
      exact addrs_plug_congr ctx (addrs_branch_congr rfl rfl rfl)

end Linux
