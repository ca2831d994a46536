/-
# MipsOnQemu.Linux.RbSteps -- walking a tree, and the legal steps on it

`rb_first` and `rb_last` go to the end of a tree, `rb_next` and `rb_prev` to the neighbour of a
node; together they enumerate the sequence of its nodes. Every legal step on a red-black tree (a new
leaf with `rb_insert_color`, `rb_erase`, `rb_replace_node`) leads to a red-black tree with the
sequence that the step asks for (`rbOp_step`).
-/

import MipsOnQemu.Linux.RbSplice

namespace Linux

open SidedTree LinkedTree List Option Mark

/-! ## Walking a tree -/

variable {a : Mark} {x y t : BinaryTree Mark} {fuel : Nat}

section Walk

variable {m : RbMemory} {ctx : Context Mark}

variable {way : Context Mark} (s : Side) {l r : BinaryTree Mark}

/-- The loop of `rb_next` and `rb_prev` climbs to the nearest node on the side it looks for. -/
theorem climb_spec {s' : Side} (h : RbHolds m (plug ctx (branch s' a x y))) (hfuel : ctx.length < fuel) :
    climb s m fuel a.addr = some (((nearest s ctx).map addr).getD NULL) := by
  induction ctx generalizing fuel s' a x y with
  | nil =>
    obtain ⟨fuel, rfl⟩ := Nat.exists_eq_succ_of_ne_zero (Nat.ne_of_gt hfuel)
    obtain ⟨n, hn, -, hup, -⟩ := h.load
    replace hup : rbParent n = NULL := hup
    simp only [climb, Loop.run, hn, hup, bind_eq_bind, bind_some, if_true, Option.pure_def]
    rfl
  | cons f ctx ih =>
    obtain ⟨fuel, rfl⟩ := Nat.exists_eq_succ_of_ne_zero (Nat.ne_of_gt (Nat.zero_lt_of_lt hfuel))
    obtain ⟨n, hn, -, hup, -⟩ := h.load
    replace hup : rbParent n = f.value.addr := hup
    have hf : RbHolds m (plug ctx (branch f.side f.value (branch s' a x y) f.sibling)) := h
    obtain ⟨nf, hnf, -, -, hnear, hfar⟩ := hf.load
    have hne := hf.child_ne (branch_ne_nil _ _ _ _)
    rw [Shape.top_branch, getD_some] at hnear hne
    have hnull : f.value.addr ≠ NULL := hf.isNode.ne_null
    rcases Side.eq_or_eq_other s f.side with hs | hs
    · rw [hs] at hnear
      have hstep : climb s m (fuel + 1) a.addr = climb s m fuel f.value.addr := by
        rw [climb, Loop.run]
        simp only [hn, hup, hnf, hnear, hnull, bind_eq_bind, bind_some, if_true,
          if_false, Option.pure_def]
        rfl
      rw [Nat.succ_eq_add_one, hstep, nearest, if_pos hs]
      exact ih hf (by simpa using hfuel)
    · have hother : a.addr ≠ nf.child s := by
        rw [hs, Side.other_other] at hfar
        rw [hfar]
        exact hne
      rw [nearest, if_neg (hs ▸ Side.other_ne s)]
      simp [climb, Loop.run, hn, hup, hnf, hother, hnull]

theorem up_ne {s : Side} (h : RbHolds m (plug ctx (branch s a x y))) : rbShape.upOf ctx a.addr ≠ a.addr := by
  cases ctx with
  | nil => exact h.isNode.ne_null.symm
  | cons f ctx => exact (h.ne_of_mem (root?_mem (root?_branch ..)) mem_cons_self).symm

/-- `rb_next` and `rb_prev` go down on side `s` if there is a subtree, and up otherwise. -/
theorem rbStep_spec (h : RbHolds m (plug ctx (branch s a x y)))
    (hfuel : (inorder (plug ctx (branch s a x y))).length < fuel) :
    (x = .nil ∧ rbStep s fuel a.addr m = some (((nearest s ctx).map addr).getD NULL)) ∨
      ∃ way b u, x = plug way (branch s.other b .nil u) ∧ (∀ f ∈ way, f.side = s.other) ∧
        rbStep s fuel a.addr m = some b.addr := by
  obtain ⟨n, hn, -, hup, hnear, -⟩ := h.load
  have hself : rbParent n ≠ a.addr := hup ▸ up_ne h
  have hx : RbHolds m (plug (⟨s, a, y⟩ :: ctx) x) := h
  have hsize := length_add_le (⟨s, a, y⟩ :: ctx) x
  replace hfuel : (inorder (plug (⟨s, a, y⟩ :: ctx) x)).length < fuel := hfuel
  rw [length_cons] at hsize
  rcases eq_or_ne x .nil with rfl | hne
  · refine .inl ⟨rfl, ?_⟩
    rw [Shape.top_nil, getD_none] at hnear
    have hclimb := climb_spec s h (show ctx.length < fuel by omega)
    simp [rbStep, hn, hself, hnear, hclimb]
  · obtain ⟨way, b, u, heq, hway, hout⟩ :=
      outermost_spec s.other hx hne (show (inorder x).length ≤ fuel by omega)
    refine .inr ⟨way, b, u, heq, hway, ?_⟩
    have hnull : (rbShape.top x).getD NULL ≠ NULL := by
      rw [Ne, hx.top_eq_NULL]
      exact hne
    simp [rbStep, hn, hself, hnear, hnull, hout]

theorem addrs_outermost_left (hway : ∀ f ∈ way, f.side = .left) (b : Mark)
    (u : BinaryTree Mark) : ∃ as, addrs (plug way (branch .left b .nil u)) = b.addr :: as := by
  rw [addrs_plug, before_eq_nil hway]
  exact ⟨_, rfl⟩

theorem addrs_outermost_right (hway : ∀ f ∈ way, f.side = .right) (b : Mark)
    (u : BinaryTree Mark) : ∃ as, addrs (plug way (branch .right b .nil u)) = as ++ [b.addr] := by
  rw [addrs_plug, after_eq_nil hway]
  refine ⟨(before way).map addr ++ addrs u, ?_⟩
  simp [addrs, branch, inorder]

/-- **`rb_next` goes to the next node of the sequence.** -/
theorem rbNext_spec (h : RbHolds m (plug ctx (branch .left a l r)))
    (hfuel : (inorder (plug ctx (branch .left a l r))).length < fuel) :
    rbNext fuel a.addr m = some ((addrs r ++ (after ctx).map addr).head?.getD NULL) := by
  rcases rbStep_spec .right (x := r) (y := l) h hfuel with ⟨rfl, hres⟩ | ⟨way, b, u, rfl, hway, hres⟩
  · rw [rbNext, hres, ← head?_after, ← head?_map]
    rfl
  · obtain ⟨as, has⟩ := addrs_outermost_left hway b u
    rw [rbNext, hres, Side.other_right, has]
    rfl

/-- **`rb_prev` goes to the previous one.** -/
theorem rbPrev_spec (h : RbHolds m (plug ctx (branch .left a l r)))
    (hfuel : (inorder (plug ctx (branch .left a l r))).length < fuel) :
    rbPrev fuel a.addr m = some (((before ctx).map addr ++ addrs l).getLast?.getD NULL) := by
  rcases rbStep_spec .left h hfuel with ⟨rfl, hres⟩ | ⟨way, b, u, rfl, hway, hres⟩
  · rw [rbPrev, hres, ← getLast?_before, ← getLast?_map]
    simp [addrs]
  · obtain ⟨as, has⟩ := addrs_outermost_right hway b u
    rw [rbPrev, hres, Side.other_left, has, ← append_assoc, getLast?_concat, getD_some]

/-- `rb_first` and `rb_last` are null on the empty tree, and go to an end of any other. -/
theorem rbEnd_spec (h : RbHolds m t) (hfuel : (inorder t).length < fuel) :
    (t = .nil ∧ rbEnd s fuel m = some NULL) ∨
      ∃ way b u, t = plug way (branch s b .nil u) ∧ (∀ f ∈ way, f.side = s) ∧
        rbEnd s fuel m = some b.addr := by
  have hplug : RbHolds m (plug [] t) := h
  rcases eq_or_ne t .nil with rfl | hne
  · exact .inl ⟨rfl, by rw [rbEnd, h.root_eq]; rfl⟩
  · obtain ⟨way, b, u, heq, hway, hout⟩ := outermost_spec s hplug hne hfuel.le
    have hnull : (rbShape.top t).getD NULL ≠ NULL := by
      rw [Ne, hplug.top_eq_NULL]
      exact hne
    refine .inr ⟨way, b, u, heq, hway, ?_⟩
    rw [rbEnd, h.root_eq, if_neg hnull]
    exact hout

theorem rbFirst_spec (h : RbHolds m t) (hfuel : (inorder t).length < fuel) :
    rbFirst fuel m = some ((addrs t).head?.getD NULL) := by
  rcases rbEnd_spec .left h hfuel with ⟨rfl, hres⟩ | ⟨way, b, u, rfl, hway, hres⟩
  · exact hres
  · obtain ⟨as, has⟩ := addrs_outermost_left hway b u
    rw [rbFirst, hres, has]
    rfl

theorem rbLast_spec (h : RbHolds m t) (hfuel : (inorder t).length < fuel) :
    rbLast fuel m = some ((addrs t).getLast?.getD NULL) := by
  rcases rbEnd_spec .right h hfuel with ⟨rfl, hres⟩ | ⟨way, b, u, rfl, hway, hres⟩
  · exact hres
  · obtain ⟨as, has⟩ := addrs_outermost_right hway b u
    rw [rbLast, hres, has, getLast?_concat, getD_some]

end Walk

/-- A sequence is what the walk finds. -/
structure Enumerates (fuel : Nat) (m : RbMemory) (as : List Ptr) : Prop where
  first : rbFirst fuel m = some (as.head?.getD NULL)
  last : rbLast fuel m = some (as.getLast?.getD NULL)
  next : ∀ pre x post, as = pre ++ x :: post → rbNext fuel x m = some (post.head?.getD NULL)
  prev : ∀ pre x post, as = pre ++ x :: post → rbPrev fuel x m = some (pre.getLast?.getD NULL)

variable {m : RbMemory}

theorem RbHolds.exists_place (h : RbHolds m t) {pre post : List Ptr} {x : Ptr}
    (has : addrs t = pre ++ x :: post) : ∃ ctx a l r, t = plug ctx (branch .left a l r) ∧ a.addr = x ∧
      pre = (before ctx).map addr ++ addrs l ∧ post = addrs r ++ (after ctx).map addr := by
  have hmem : x ∈ addrs t := by
    rw [has]
    exact mem_append_right _ mem_cons_self
  obtain ⟨a, ha, rfl⟩ := mem_map.mp hmem
  obtain ⟨ctx, l, r, rfl⟩ := exists_plug ha
  have hnodup : (addrs (plug ctx (.node a l r))).Nodup := h.nodup
  have hseq : addrs (plug ctx (.node a l r)) = ((before ctx).map addr ++ addrs l) ++
      a.addr :: (addrs r ++ (after ctx).map addr) := by
    rw [addrs_plug]
    simp [addrs, inorder]
  rw [has] at hnodup hseq
  have hfresh := nodup_append.mp hnodup
  obtain ⟨hpre, -, hpost⟩ := (append_cons_inj_of_notMem
    (fun hin => hfresh.2.2 a.addr hin a.addr mem_cons_self rfl)
    (nodup_cons.mp hfresh.2.1).1).mp hseq
  exact ⟨ctx, a, l, r, rfl, rfl, hpre, hpost⟩

/-- **`rb_first`, `rb_next`, `rb_prev` and `rb_last` enumerate a tree that lies in memory.** -/
theorem RbHolds.enumerates (h : RbHolds m t) (hfuel : (addrs t).length < fuel) :
    Enumerates fuel m (addrs t) := by
  have hsize : (inorder t).length < fuel := by
    rw [addrs, length_map] at hfuel
    exact hfuel
  refine ⟨rbFirst_spec h hsize, rbLast_spec h hsize, fun pre x post has => ?_, fun pre x post has => ?_⟩
  · obtain ⟨ctx, a, l, r, rfl, rfl, -, rfl⟩ := h.exists_place has
    exact rbNext_spec h hsize
  · obtain ⟨ctx, a, l, r, rfl, rfl, rfl, -⟩ := h.exists_place has
    exact rbPrev_spec h hsize

/-! ## Legal steps -/

inductive RbOp where
  | insert (node parent : Ptr) (rbLink : Option Side)
  | erase (node : Ptr)
  | replace (victim new : Ptr)

/-- The calls that make a step. -/
def RbOp.run (fuel : Nat) : RbOp → RbMemory → Option RbMemory
  | .insert node parent rbLink, m =>
    (rbLinkNode node parent rbLink m).bind (rbInsertColor fuel node)
  | .erase node, m => rbErase fuel node m
  | .replace victim new, m => rbReplaceNode victim new m

/-- **The legal steps on a tree**, with the sequence each is to lead to: a new leaf at any free
place, any node of the tree erased, any node of the tree replaced by a new one. -/
inductive RbOp.Legal (m : RbMemory) (t : BinaryTree Mark) : RbOp → List Ptr → Prop
  | insert {ctx : Context Mark} {node : Ptr} : t = plug ctx .nil → Spare m t node →
      Legal m t (.insert node (rbShape.upOf ctx node) (linkOf ctx))
        ((before ctx).map addr ++ node :: (after ctx).map addr)
  | erase {pre post : List Ptr} {node : Ptr} : addrs t = pre ++ node :: post →
      Legal m t (.erase node) (pre ++ post)
  | replace {pre post : List Ptr} {victim new : Ptr} : addrs t = pre ++ victim :: post →
      Spare m t new → Legal m t (.replace victim new) (pre ++ new :: post)

theorem RbOp.Legal.length_le {op : RbOp} {as : List Ptr} (h : op.Legal m t as) :
    as.length ≤ (addrs t).length + 1 := by
  cases h with
  | insert ht _ =>
    rw [ht, addrs_plug]
    simp [addrs]
    omega
  | erase ht =>
    rw [ht]
    simp
    omega
  | replace ht _ =>
    rw [ht]
    simp

theorem RbOp.Legal.run_spec {op : RbOp} {as : List Ptr} (h : op.Legal m t as)
    (hm : RbHolds m t) (hrb : IsRb t) (hfuel : (addrs t).length + 1 < fuel) :
    ∃ m' t', op.run fuel m = some m' ∧ RbHolds m' t' ∧ IsRb t' ∧ addrs t' = as := by
  cases h with
  | insert ht hnode =>
    subst ht
    exact rbInsert_spec hm hrb hnode (by omega)
  | erase has =>
    obtain ⟨ctx, a, l, r, rfl, rfl, rfl, rfl⟩ := hm.exists_place has
    rw [addrs, length_map] at hfuel
    exact rbErase_spec hm hrb hfuel
  | replace has hnew =>
    obtain ⟨ctx, a, l, r, rfl, rfl, rfl, rfl⟩ := hm.exists_place has
    obtain ⟨m', hm', h'⟩ := rbReplaceNode_spec hm hnew
    refine ⟨m', _, hm', h', isRb_readdress _ hrb, ?_⟩
    rw [addrs_plug]
    simp [addrs, branch, inorder]

/-- **Every legal step keeps a red-black tree.** From any tree in memory that is red-black, the step
ends, and what lies in memory then is a red-black tree, with the sequence of nodes that the step
asks for; `rb_first`, `rb_next`, `rb_prev` and `rb_last` enumerate that sequence. -/
theorem rbOp_step {m : RbMemory} {t : BinaryTree Mark} {op : RbOp} {as : List Ptr} {fuel : Nat}
    (hm : RbHolds m t) (hrb : IsRb t) (hop : op.Legal m t as) (hfuel : (addrs t).length + 1 < fuel) :
    ∃ m' t', op.run fuel m = some m' ∧ RbHolds m' t' ∧ IsRb t' ∧ addrs t' = as ∧
      Enumerates fuel m' as := by
  obtain ⟨m', t', hrun, h', hrb', rfl⟩ := hop.run_spec hm hrb hfuel
  exact ⟨m', t', hrun, h', hrb', rfl, h'.enumerates (hop.length_le.trans_lt hfuel)⟩

/-- A black root with two red children. -/
def sampleRbTree : BinaryTree Mark :=
  .node ⟨8#32, .black⟩ (.node ⟨4#32, .red⟩ .nil .nil) (.node ⟨12#32, .red⟩ .nil .nil)

/-- It in memory. -/
def sampleRbMemory : RbMemory where
  heap := fun p => if p = 8#32 then some ⟨1#32, 12#32, 4#32⟩ else
    if p = 4#32 ∨ p = 12#32 then some ⟨8#32, NULL, NULL⟩ else none
  root := 8#32

theorem sampleRb_holds : RbHolds sampleRbMemory sampleRbTree := by
  refine ⟨⟨?_, by decide⟩, ?_⟩
  · intro b hb
    simp only [mem_cons, not_mem_nil, or_false] at hb
    rcases hb with rfl | rfl
    · exact ⟨⟨_, rfl, rfl, rfl, rfl, rfl⟩, ⟨⟨_, rfl, rfl, rfl, rfl, rfl⟩, trivial, trivial⟩,
        ⟨_, rfl, rfl, rfl, rfl, rfl⟩, trivial, trivial⟩
    · rfl
  · intro a ha
    have hcases : a = ⟨4#32, .red⟩ ∨ a = ⟨8#32, .black⟩ ∨ a = ⟨12#32, .red⟩ := by
      simpa [sampleRbTree, inorder] using ha
    rcases hcases with rfl | rfl | rfl
    · exact ⟨rfl, by decide⟩
    · exact ⟨rfl, by decide⟩
    · exact ⟨rfl, by decide⟩

theorem sampleRb_erase : (RbOp.erase 8#32).Legal sampleRbMemory sampleRbTree ([4#32] ++ [12#32]) := .erase rfl

theorem rbOp_step_sample : ∃ m' t', (RbOp.erase 8#32).run 5 sampleRbMemory = some m' ∧
    RbHolds m' t' ∧ IsRb t' ∧ addrs t' = [4#32, 12#32] ∧ Enumerates 5 m' [4#32, 12#32] :=
  rbOp_step (t := sampleRbTree) sampleRb_holds ⟨1, .black (.red .nil .nil) (.red .nil .nil)⟩
    sampleRb_erase (by decide)

end Linux
