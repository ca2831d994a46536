/-
# MipsOnQemu.Lib.SidedTree -- binary trees up to reflection, and places in them

Algorithms on binary trees come in two halves, one the mirror image of the other. `branch s` makes a
node by the child on side `s` and the child on the other side, so that one statement over `s`
covers both halves. A `Context` is the way from a place in a tree up to the root; `plug` puts a
tree at the place, and the in-order sequence of the result is what lies before the place, the
sequence of the tree, and what lies after it.
-/

import Mathlib

namespace SidedTree

open List

universe u

variable {α : Type u}

inductive Side where
  | left | right
  deriving DecidableEq, Repr

def Side.other : Side → Side
  | .left => .right
  | .right => .left

@[simp] theorem Side.other_left : Side.left.other = .right := rfl
@[simp] theorem Side.other_right : Side.right.other = .left := rfl
@[simp] theorem Side.other_other (s : Side) : s.other.other = s := by cases s <;> rfl
@[simp] theorem Side.other_ne (s : Side) : s.other ≠ s := by cases s <;> decide
theorem Side.eq_or_eq_other (s s' : Side) : s' = s ∨ s' = s.other := by
  cases s <;> cases s' <;> decide

/-- A node by the child on side `s` and the other child. -/
def branch (s : Side) (a : α) (near far : BinaryTree α) : BinaryTree α :=
  match s with
  | .left => .node a near far
  | .right => .node a far near

theorem branch_other (s : Side) (a : α) (x y : BinaryTree α) : branch s.other a y x = branch s a x y := by
  cases s <;> rfl

theorem eq_nil_or_branch (s : Side) (t : BinaryTree α) : t = .nil ∨ ∃ a x y, t = branch s a x y := by
  cases t with
  | nil => exact .inl rfl
  | node a l r =>
    cases s with
    | left => exact .inr ⟨a, l, r, rfl⟩
    | right => exact .inr ⟨a, r, l, rfl⟩

theorem branch_ne_nil (s : Side) (a : α) (x y : BinaryTree α) : branch s a x y ≠ .nil := by
  intro h
  cases s <;> cases h

def root? : BinaryTree α → Option α
  | .nil => none
  | .node a _ _ => some a

@[simp] theorem root?_nil : root? (.nil : BinaryTree α) = none := rfl

@[simp] theorem root?_branch (s : Side) (a : α) (x y : BinaryTree α) : root? (branch s a x y) = some a := by
  cases s <;> rfl

def inorder : BinaryTree α → List α
  | .nil => []
  | .node a l r => inorder l ++ a :: inorder r

@[simp] theorem inorder_nil : inorder (.nil : BinaryTree α) = [] := rfl

theorem inorder_branch_perm (s : Side) (a : α) (x y : BinaryTree α) :
    (inorder (branch s a x y)).Perm (a :: (inorder x ++ inorder y)) := by
  cases s with
  | left => exact perm_middle
  | right => exact perm_middle.trans (perm_append_comm.cons a)

theorem root?_mem {t : BinaryTree α} {a : α} (h : root? t = some a) : a ∈ inorder t := by
  cases t with
  | nil => cases h
  | node b l r =>
    cases h
    exact mem_append_right _ mem_cons_self

/-! ## Places -/

/-- One step up: the side the place is on, the value there, and the other subtree. -/
structure Frame (α : Type u) where
  side : Side
  value : α
  sibling : BinaryTree α

/-- The way up from a place, the nearest step first. -/
abbrev Context (α : Type u) := List (Frame α)

/-- A tree put at a place. -/
def plug : Context α → BinaryTree α → BinaryTree α
  | [], t => t
  | f :: ctx, t => plug ctx (branch f.side f.value t f.sibling)

variable (ctx : Context α) (t : BinaryTree α)

@[simp] theorem plug_nil : plug [] t = t := rfl

theorem plug_cons (f : Frame α) (ctx : Context α) (t : BinaryTree α) :
    plug (f :: ctx) t = plug ctx (branch f.side f.value t f.sibling) := rfl

theorem plug_far (s : Side) (a : α) (x y : BinaryTree α) :
    plug ctx (branch s a x y) = plug (⟨s.other, a, x⟩ :: ctx) y := by
  rw [plug_cons, branch_other]

theorem plug_append (ctx ctx' : Context α) (t : BinaryTree α) :
    plug (ctx ++ ctx') t = plug ctx' (plug ctx t) := by
  induction ctx generalizing t with
  | nil => rfl
  | cons f ctx ih => exact ih _

def before : Context α → List α
  | [] => []
  | f :: ctx =>
    match f.side with
    | .left => before ctx
    | .right => before ctx ++ inorder f.sibling ++ [f.value]

def after : Context α → List α
  | [] => []
  | f :: ctx =>
    match f.side with
    | .left => f.value :: inorder f.sibling ++ after ctx
    | .right => after ctx

theorem inorder_plug : inorder (plug ctx t) = before ctx ++ inorder t ++ after ctx := by
  induction ctx generalizing t with
  | nil => simp [before, after]
  | cons f ctx ih =>
    obtain ⟨s, a, u⟩ := f
    rw [plug_cons, ih]
    cases s with
    | left => simp [before, after, branch, inorder]
    | right => simp [before, after, branch, inorder]

theorem before_eq_nil {ctx : Context α} (h : ∀ f ∈ ctx, f.side = .left) : before ctx = [] := by
  induction ctx with
  | nil => rfl
  | cons f ctx ih =>
    rw [before, h f mem_cons_self]
    exact ih fun g hg => h g (mem_cons_of_mem _ hg)

theorem after_eq_nil {ctx : Context α} (h : ∀ f ∈ ctx, f.side = .right) : after ctx = [] := by
  induction ctx with
  | nil => rfl
  | cons f ctx ih =>
    rw [after, h f mem_cons_self]
    exact ih fun g hg => h g (mem_cons_of_mem _ hg)

/-- The nearest value above a place that lies on side `s` of it. -/
def nearest (s : Side) : Context α → Option α
  | [] => none
  | f :: ctx => if f.side = s then nearest s ctx else some f.value

theorem head?_after : (after ctx).head? = nearest .right ctx := by
  induction ctx with
  | nil => rfl
  | cons f ctx ih =>
    obtain ⟨s, a, u⟩ := f
    cases s with
    | left => rfl
    | right => exact ih

theorem getLast?_before : (before ctx).getLast? = nearest .left ctx := by
  induction ctx with
  | nil => rfl
  | cons f ctx ih =>
    obtain ⟨s, a, u⟩ := f
    cases s with
    | left => exact ih
    | right => exact getLast?_concat

def Context.values : Context α → List α
  | [] => []
  | f :: ctx => f.value :: inorder f.sibling ++ Context.values ctx

theorem inorder_plug_perm : (inorder (plug ctx t)).Perm (inorder t ++ Context.values ctx) := by
  induction ctx generalizing t with
  | nil => simp [Context.values]
  | cons f ctx ih =>
    rw [plug_cons, Context.values]
    refine (ih _).trans ?_
    have hbranch := (inorder_branch_perm f.side f.value t f.sibling).append_right (Context.values ctx)
    refine hbranch.trans ?_
    rw [cons_append, append_assoc, cons_append]
    exact perm_middle.symm

theorem length_add_le : ctx.length + (inorder t).length ≤ (inorder (plug ctx t)).length := by
  rw [(inorder_plug_perm ctx t).length_eq, length_append]
  have hvalues : ctx.length ≤ (Context.values ctx).length := by
    induction ctx with
    | nil => exact Nat.zero_le _
    | cons f ctx ih =>
      rw [Context.values, length_append, length_cons, length_cons]
      omega
  omega

theorem exists_plug {t : BinaryTree α} {a : α} (h : a ∈ inorder t) :
    ∃ ctx l r, t = plug ctx (.node a l r) := by
  induction t with
  | nil => cases h
  | node b l r hl hr =>
    rcases mem_append.mp h with h | h
    · obtain ⟨ctx, l', r', rfl⟩ := hl h
      exact ⟨ctx ++ [⟨.left, b, r⟩], l', r', by rw [plug_append]; rfl⟩
    · rcases mem_cons.mp h with rfl | h
      · exact ⟨[], l, r, rfl⟩
      · obtain ⟨ctx, l', r', rfl⟩ := hr h
        exact ⟨ctx ++ [⟨.right, b, l⟩], l', r', by rw [plug_append]; rfl⟩

end SidedTree
