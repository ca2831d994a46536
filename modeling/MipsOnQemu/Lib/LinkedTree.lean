/-
# MipsOnQemu.Lib.LinkedTree -- binary trees in memory, with links down and up

A node in memory points to its two children and to its parent. `Shape` says how to read that from
a node, and which pointer a program writes where there is no child or no parent. `treeAt` and
`ctxAt` say that a tree, or the way from a place up to the root, lies in memory; their footprints
are the nodes. A tree that lies in memory can be taken apart at any place and put together again
(`linked_plug`), a node can be opened into its cell and its two subtrees (`Sats.openTree`), and a
place can be opened into the cell above it and the rest of the way (`Sats.openCtx`).
-/

import MipsOnQemu.Lib.Footprint
import MipsOnQemu.Lib.SidedTree

namespace LinkedTree

open Footprint SidedTree List Function Context

universe u v w

variable {P : Type u} {N : Type v} {α : Type w}

/-! ## Memory -/

/-- Nodes by address, and the pointer to the root. -/
structure Memory (P : Type u) (N : Type v) where
  heap : P → Option N
  root : P

namespace Memory

/-- A location is an address, or the root pointer. -/
def read (m : Memory P N) : Option P → P ⊕ Option N
  | none => .inl m.root
  | some p => .inr (m.heap p)

variable [DecidableEq P]

/-- Change the node at an address. It fails where there is none. -/
def modify (m : Memory P N) (p : P) (f : N → N) : Option (Memory P N) :=
  (m.heap p).map fun n => { m with heap := update m.heap p (some (f n)) }

def setRoot (m : Memory P N) (p : P) : Memory P N := { m with root := p }

end Memory

/-! ## How a node shows its place -/

/-- How a program lays a tree out: the address of a value, the pointers in a node, what else of the
value a node shows, and the pointers that stand for nothing. -/
structure Shape (P : Type u) (N : Type v) (α : Type w) where
  addr : α → P
  up : N → P
  child : Side → N → P
  fits : N → α → Prop
  absent : P → P
  null : P

variable {s : Side} {n : N} {a : α} {m' : Memory P N} {t x y : BinaryTree α} {ctx : Context α} {q : Option P}
  {p : P}

variable {m : Memory P N}

namespace Shape

variable (S : Shape P N α)

/-- The address of the root of a tree. -/
def top (t : BinaryTree α) : Option P := (root? t).map S.addr

/-- The pointer from `a` to what is at `q`. -/
def link (a : α) (q : Option P) : P := q.getD (S.absent (S.addr a))

/-- The pointer to the parent that the node at a place has. -/
def upOf : Context α → P → P
  | [], p => S.absent p
  | f :: _, _ => S.addr f.value

/-- A node shows the value `a`, its parent, and on side `s` the child `x`, on the other `y`. -/
structure Shows (s : Side) (n : N) (a : α) (parent : P) (x y : Option P) : Prop where
  fits : S.fits n a
  up : S.up n = parent
  near : S.child s n = S.link a x
  far : S.child s.other n = S.link a y

variable {S}

theorem Shows.flip {parent : P} {x y : Option P} (h : S.Shows s n a parent x y) :
    S.Shows s.other n a parent y x :=
  ⟨h.fits, h.up, h.far, by rw [Side.other_other]; exact h.near⟩

variable (S)

/-- A tree lies in memory below the parent that `up` gives for the address of its root. -/
def TreeAt (m : Memory P N) : (P → P) → BinaryTree α → Prop
  | _, .nil => True
  | up, .node a l r =>
    (∃ n, m.heap (S.addr a) = some n ∧ S.Shows .left n a (up (S.addr a)) (S.top l) (S.top r)) ∧
      TreeAt m (fun _ => S.addr a) l ∧ TreeAt m (fun _ => S.addr a) r

/-- The way up from a place lies in memory, with `q` at the place. -/
def CtxAt (m : Memory P N) : Option P → Context α → Prop
  | q, [] => m.root = q.getD S.null
  | q, f :: ctx =>
    (∃ n, m.heap (S.addr f.value) = some n ∧
      S.Shows f.side n f.value (S.upOf ctx (S.addr f.value)) q (S.top f.sibling)) ∧
      S.TreeAt m (fun _ => S.addr f.value) f.sibling ∧ CtxAt m (some (S.addr f.value)) ctx

theorem treeAt_frame : ∀ {up : P → P}, (∀ a ∈ inorder t, m'.heap (S.addr a) = m.heap (S.addr a)) →
      S.TreeAt m up t → S.TreeAt m' up t := by
  induction t with
  | nil => exact fun _ _ => trivial
  | node a l r hl hr =>
    rintro up hsame ⟨⟨n, hn, hshows⟩, hleft, hright⟩
    have hmem : a ∈ inorder (.node a l r) := mem_append_right _ mem_cons_self
    refine ⟨⟨n, (hsame a hmem).trans hn, hshows⟩, hl (fun b hb => hsame b ?_) hleft,
      hr (fun b hb => hsame b ?_) hright⟩
    · exact mem_append_left _ hb
    · exact mem_append_right _ (mem_cons_of_mem _ hb)

theorem ctxAt_frame (hroot : m'.root = m.root) :
    ∀ {q : Option P}, (∀ a ∈ values ctx, m'.heap (S.addr a) = m.heap (S.addr a)) →
      S.CtxAt m q ctx → S.CtxAt m' q ctx := by
  induction ctx with
  | nil =>
    intro q _ h
    exact hroot.trans h
  | cons f ctx ih =>
    rintro q hsame ⟨⟨n, hn, hshows⟩, hsib, hctx⟩
    refine ⟨⟨n, (hsame f.value mem_cons_self).trans hn, hshows⟩,
      S.treeAt_frame (fun b hb => hsame b ?_) hsib, ih (fun b hb => hsame b ?_) hctx⟩
    · exact mem_cons_of_mem _ (mem_append_left _ hb)
    · exact mem_cons_of_mem _ (mem_append_right _ hb)

theorem treeAt_branch {up : P → P} : S.TreeAt m up (branch s a x y) ↔
      (∃ n, m.heap (S.addr a) = some n ∧ S.Shows s n a (up (S.addr a)) (S.top x) (S.top y)) ∧
        S.TreeAt m (fun _ => S.addr a) x ∧ S.TreeAt m (fun _ => S.addr a) y := by
  cases s with
  | left => exact Iff.rfl
  | right =>
    constructor
    · rintro ⟨⟨n, hn, hshows⟩, hy, hx⟩
      exact ⟨⟨n, hn, hshows.flip⟩, hx, hy⟩
    · rintro ⟨⟨n, hn, hshows⟩, hx, hy⟩
      exact ⟨⟨n, hn, hshows.flip⟩, hy, hx⟩

@[simp] theorem top_branch (s : Side) (a : α) (x y : BinaryTree α) :
    S.top (branch s a x y) = some (S.addr a) := by
  rw [top, root?_branch, Option.map_some]

@[simp] theorem top_nil : S.top .nil = none := rfl

end Shape

/-! ## The assertions -/

variable (P N) in
/-- An assertion about a memory. -/
abbrev Piece := Assn (Memory.read : Memory P N → Option P → P ⊕ Option N)

def cell (p : P) (n : N) : Piece P N where
  foot := [some p]
  holds := fun m => m.heap p = some n
  frame := by
    intro m m' hsame h
    have hread : (Sum.inr (m'.heap p) : P ⊕ Option N) = .inr (m.heap p) :=
      hsame (some p) List.mem_cons_self
    rw [Sum.inr.inj hread]
    exact h

namespace Shape

variable (S : Shape P N α)

/-- The locations of some values. -/
def places (as : List α) : List (Option P) := as.map fun a => some (S.addr a)

theorem heap_eq_of_places {as : List α} (h : ∀ l ∈ S.places as, m'.read l = m.read l) :
    ∀ a ∈ as, m'.heap (S.addr a) = m.heap (S.addr a) := fun _ ha =>
  Sum.inr.inj (h _ (mem_map_of_mem ha))

def treeAt (up : P → P) (t : BinaryTree α) : Piece P N where
  foot := S.places (inorder t)
  holds := fun m => S.TreeAt m up t
  frame := fun hsame h => S.treeAt_frame (S.heap_eq_of_places hsame) h

/-- The way up from a place, the root pointer included. -/
def ctxAt (q : Option P) (ctx : Context α) : Piece P N where
  foot := none :: S.places (values ctx)
  holds := fun m => S.CtxAt m q ctx
  frame := by
    intro m m' hsame h
    have hroot : (Sum.inl m'.root : P ⊕ Option N) = .inl m.root := hsame none List.mem_cons_self
    refine S.ctxAt_frame (Sum.inl.inj hroot) ?_ h
    exact S.heap_eq_of_places fun l hl => hsame l (List.mem_cons_of_mem _ hl)

/-- **A tree lies in memory**, all of its nodes at different addresses. -/
def Linked (m : Memory P N) (t : BinaryTree α) : Prop :=
  Sats m [S.treeAt (S.upOf []) t, S.ctxAt (S.top t) []]

variable {S} {m : Memory P N} {ps : List (Piece P N)}

theorem places_branch (s : Side) (a : α) (x y : BinaryTree α) : (S.places (inorder (branch s a x y))).Perm
      (some (S.addr a) :: (S.places (inorder x) ++ S.places (inorder y))) := by
  have h := (inorder_branch_perm s a x y).map fun a => some (S.addr a)
  rw [map_cons, map_append] at h
  exact h

theorem openTree {up : P → P} (h : Sats m (S.treeAt up (branch s a x y) :: ps)) :
    ∃ n, S.Shows s n a (up (S.addr a)) (S.top x) (S.top y) ∧
      Sats m (cell (S.addr a) n :: S.treeAt (fun _ => S.addr a) x ::
        S.treeAt (fun _ => S.addr a) y :: ps) := by
  obtain ⟨⟨n, hn, hshows⟩, hx, hy⟩ := S.treeAt_branch.mp h.head
  refine ⟨n, hshows, Sats.replace [S.treeAt up (branch s a x y)]
    [cell (S.addr a) n, S.treeAt (fun _ => S.addr a) x, S.treeAt (fun _ => S.addr a) y] h ?_ ?_⟩
  · simpa [treeAt, cell] using places_branch s a x y
  · simp only [mem_cons, not_mem_nil, or_false, forall_eq_or_imp, forall_eq]
    exact ⟨hn, hx, hy⟩

theorem closeTree (up : P → P) (hshows : S.Shows s n a (up (S.addr a)) (S.top x) (S.top y))
    (h : Sats m (cell (S.addr a) n :: S.treeAt (fun _ => S.addr a) x ::
      S.treeAt (fun _ => S.addr a) y :: ps)) : Sats m (S.treeAt up (branch s a x y) :: ps) := by
  refine Sats.replace
    [cell (S.addr a) n, S.treeAt (fun _ => S.addr a) x, S.treeAt (fun _ => S.addr a) y]
    [S.treeAt up (branch s a x y)] h ?_ ?_
  · simpa [treeAt, cell] using (places_branch s a x y).symm
  · simp only [mem_cons, not_mem_nil, or_false, forall_eq]
    exact S.treeAt_branch.mpr ⟨⟨n, h.head, hshows⟩, h.tail.head, h.tail.tail.head⟩

/-- The locations of a place are those of the node above it and of the place of that node. -/
theorem places_ctx (f : Frame α) (ctx : Context α) : (none :: S.places (values (f :: ctx))).Perm
      (some (S.addr f.value) :: (S.places (inorder f.sibling) ++ none :: S.places (values ctx))) := by
  have hmiddle : ((some (S.addr f.value) :: S.places (inorder f.sibling)) ++
      none :: S.places (values ctx)).Perm (none :: ((some (S.addr f.value) ::
        S.places (inorder f.sibling)) ++ S.places (values ctx))) := perm_middle
  have hvalues : S.places (values (f :: ctx)) = (some (S.addr f.value) ::
      S.places (inorder f.sibling)) ++ S.places (values ctx) := by
    simp [places, values]
  rw [hvalues]
  exact hmiddle.symm

/-- A place below a node is the cell of the node, its other subtree, and the place of the node. -/
theorem openCtx {f : Frame α} (h : Sats m (S.ctxAt q (f :: ctx) :: ps)) :
    ∃ n, S.Shows f.side n f.value (S.upOf ctx (S.addr f.value)) q (S.top f.sibling) ∧
      Sats m (cell (S.addr f.value) n :: S.treeAt (fun _ => S.addr f.value) f.sibling ::
        S.ctxAt (some (S.addr f.value)) ctx :: ps) := by
  obtain ⟨⟨n, hn, hshows⟩, hsib, hctx⟩ := h.head
  refine ⟨n, hshows, Sats.replace [S.ctxAt q (f :: ctx)]
    [cell (S.addr f.value) n, S.treeAt (fun _ => S.addr f.value) f.sibling,
      S.ctxAt (some (S.addr f.value)) ctx] h ?_ ?_⟩
  · simpa [treeAt, cell, ctxAt] using places_ctx f ctx
  · simp only [mem_cons, not_mem_nil, or_false, forall_eq_or_imp, forall_eq]
    exact ⟨hn, hsib, hctx⟩

theorem closeCtx {f : Frame α}
    (hshows : S.Shows f.side n f.value (S.upOf ctx (S.addr f.value)) q (S.top f.sibling))
    (h : Sats m (cell (S.addr f.value) n :: S.treeAt (fun _ => S.addr f.value) f.sibling ::
        S.ctxAt (some (S.addr f.value)) ctx :: ps)) : Sats m (S.ctxAt q (f :: ctx) :: ps) := by
  refine Sats.replace [cell (S.addr f.value) n, S.treeAt (fun _ => S.addr f.value) f.sibling,
    S.ctxAt (some (S.addr f.value)) ctx] [S.ctxAt q (f :: ctx)] h ?_ ?_
  · simpa [treeAt, cell, ctxAt] using (places_ctx f ctx).symm
  · simp only [mem_cons, not_mem_nil, or_false, forall_eq]
    exact ⟨⟨n, h.head, hshows⟩, h.tail.head, h.tail.tail.head⟩

/-- **A tree can be taken apart at any place.** -/
theorem sats_plug : Sats m (S.treeAt (S.upOf []) (plug ctx t) :: S.ctxAt (S.top (plug ctx t)) [] :: ps) ↔
      Sats m (S.treeAt (S.upOf ctx) t :: S.ctxAt (S.top t) ctx :: ps) := by
  induction ctx generalizing t with
  | nil => exact Iff.rfl
  | cons f ctx ih =>
    rw [plug_cons, ih, top_branch]
    constructor
    · intro h
      obtain ⟨n, hshows, h⟩ := openTree h
      exact (closeCtx hshows h.pull₁.pull₃.pull₃.pull₃).pull₁
    · intro h
      obtain ⟨n, hshows, h⟩ := openCtx h.pull₁
      exact closeTree _ hshows h.pull₃.pull₁

theorem linked_plug :
    S.Linked m (plug ctx t) ↔ Sats m [S.treeAt (S.upOf ctx) t, S.ctxAt (S.top t) ctx] := sats_plug

theorem Linked.nodup (h : S.Linked m t) : ((inorder t).map S.addr).Nodup := by
  have hnodup := h.2
  rw [flatMap_cons, nodup_append] at hnodup
  have hplaces : ((inorder t).map S.addr).map some = S.places (inorder t) := by
    rw [places, map_map]
    rfl
  exact List.Nodup.of_map some (hplaces ▸ hnodup.1)

theorem nilTree (up : P → P) (h : Sats m ps) : Sats m (S.treeAt up .nil :: ps) :=
  ⟨forall_mem_cons.mpr ⟨trivial, h.1⟩, h.2⟩

theorem newCell (h : Sats m ps) (hn : m.heap p = some n) (hfresh : ∀ b ∈ ps, some p ∉ b.foot) :
    Sats m (cell p n :: ps) := by
  refine ⟨forall_mem_cons.mpr ⟨hn, h.1⟩, nodup_cons.mpr ⟨fun hmem => ?_, h.2⟩⟩
  obtain ⟨b, hb, hpb⟩ := mem_flatMap.mp hmem
  exact hfresh b hb hpb

theorem ne_of_cell_ctx (h : Sats m (cell p n :: S.ctxAt q ctx :: ps)) :
    ∀ a ∈ values ctx, S.addr a ≠ p := by
  rintro a ha rfl
  exact h.not_mem mem_cons_self mem_cons_self
    (mem_cons_of_mem _ (mem_map_of_mem ha))

end Shape

/-! ## Writes -/

section Writes

variable {S : Shape P N α} {m : Memory P N} {ps : List (Piece P N)}

theorem setRootCtx (h : Sats m (S.ctxAt q [] :: ps)) (q' : Option P) :
    Sats (m.setRoot (q'.getD S.null)) (S.ctxAt q' [] :: ps) := by
  refine h.write (List.Perm.refl _) rfl fun l hl => ?_
  cases l with
  | none => exact absurd mem_cons_self hl
  | some p => rfl

variable [DecidableEq P]

theorem modifyCell (h : Sats m (cell p n :: ps)) (f : N → N) :
    ∃ m', m.modify p f = some m' ∧ Sats m' (cell p (f n) :: ps) := by
  have hn : m.heap p = some n := h.head
  refine ⟨{ m with heap := update m.heap p (some (f n)) }, ?_, ?_⟩
  · rw [Memory.modify, hn, Option.map_some]
  · refine h.write (List.Perm.refl _) (update_self ..) fun l hl => ?_
    cases l with
    | none => rfl
    | some q =>
      have hne : q ≠ p := fun heq => hl (heq ▸ mem_cons_self)
      exact congrArg Sum.inr (update_of_ne hne ..)

end Writes

end LinkedTree
