/-
# MipsOnQemu.Lib.Forest -- keyed forests up to sibling order

A forest is a list of rose trees. Where no two siblings carry the same key, a
forest is determined, up to the order of siblings at every level, by what stands
under each key: `bucket k f` lists the child forests of the trees of `f` keyed
`k`, and `SameUpToOrder.of_bucket` rebuilds the equivalence from the buckets.
Every later fact about a forest is therefore stated key by key, and the
operations on forests (append, filter, map under a key) come with one bucket
lemma each.
-/

import Mathlib.Data.List.Forall2
import Mathlib.Data.List.Nodup
import Mathlib.Data.List.Perm.Basic

namespace KeyedForest

open List Option

universe u v w

variable {α : Type u} {β : Type v}

/-! ## Rose trees and forests -/

/-- A tree with a value at its root and a list of subtrees. -/
inductive Rose (α : Type u) where
  | node (val : α) (children : List (Rose α))

/-- A forest is a list of trees; the children of a node are one. -/
abbrev Forest (α : Type u) := List (Rose α)

namespace Rose

def val : Rose α → α
  | node a _ => a

def children : Rose α → Forest α
  | node _ cs => cs

@[simp] theorem val_node (a : α) (cs : Forest α) : (node a cs).val = a := rfl

@[simp] theorem children_node (a : α) (cs : Forest α) : (node a cs).children = cs := rfl

theorem eta (t : Rose α) : node t.val t.children = t := by cases t; rfl

end Rose

@[elab_as_elim]
theorem forest_induction {P : Forest α → Prop} (nil : P [])
    (cons : ∀ a cs f, P cs → P f → P (.node a cs :: f)) : ∀ f, P f
  | [] => nil
  | .node a cs :: f =>
    cons a cs f (forest_induction nil cons cs) (forest_induction nil cons f)

@[elab_as_elim]
theorem children_induction {P : Forest α → Prop}
    (step : ∀ f, (∀ t ∈ f, P t.children) → P f) (f : Forest α) : P f := by
  refine step f ?_
  induction f using forest_induction with
  | nil => simp
  | cons a cs f ihc ihf =>
    exact forall_mem_cons.mpr ⟨step cs ihc, ihf⟩

/-! ### Decidable equality and relabelling -/

section DecidableEq

variable [DecidableEq α]

mutual
def Rose.decideEq : (s t : Rose α) → Decidable (s = t)
  | .node a cs, .node b ds =>
    match decEq a b, decideEqForest cs ds with
    | isTrue h, isTrue h' => isTrue (h ▸ h' ▸ rfl)
    | isFalse h, _ => isFalse fun e => h (Rose.node.inj e).1
    | _, isFalse h => isFalse fun e => h (Rose.node.inj e).2

def decideEqForest : (f g : Forest α) → Decidable (f = g)
  | [], [] => isTrue rfl
  | [], _ :: _ => isFalse nofun
  | _ :: _, [] => isFalse nofun
  | s :: f, t :: g =>
    match Rose.decideEq s t, decideEqForest f g with
    | isTrue h, isTrue h' => isTrue (h ▸ h' ▸ rfl)
    | isFalse h, _ => isFalse fun e => h (List.cons.inj e).1
    | _, isFalse h => isFalse fun e => h (List.cons.inj e).2
end

instance : DecidableEq (Rose α) := Rose.decideEq

end DecidableEq

mutual
def Rose.map (h : α → β) : Rose α → Rose β
  | .node a cs => .node (h a) (mapForest h cs)

def mapForest (h : α → β) : Forest α → Forest β
  | [] => []
  | t :: f => t.map h :: mapForest h f
end

section

variable (h : α → β)
include h

theorem mapForest_eq_map (f : Forest α) : mapForest h f = f.map (Rose.map h) := by
  induction f with
  | nil => rfl
  | cons t f ih => rw [mapForest, ih, map_cons]

@[simp] theorem mapForest_nil : mapForest h [] = [] := rfl

@[simp] theorem mapForest_cons (t : Rose α) (f : Forest α) :
    mapForest h (t :: f) = t.map h :: mapForest h f := rfl

@[simp] theorem mapForest_append (f g : Forest α) :
    mapForest h (f ++ g) = mapForest h f ++ mapForest h g := by
  simp [mapForest_eq_map]

@[simp] theorem Rose.map_node (a : α) (cs : Forest α) :
    (Rose.node a cs).map h = .node (h a) (mapForest h cs) := rfl

@[simp] theorem Rose.val_map (t : Rose α) : (t.map h).val = h t.val := by
  cases t; rfl

@[simp] theorem Rose.children_map (t : Rose α) :
    (t.map h).children = mapForest h t.children := by
  cases t; rfl

/-! ### A property of every node -/

end

mutual
/-- Every node of the tree, with the forest below it, satisfies `p`. -/
def Rose.Everywhere (p : α → Forest α → Prop) : Rose α → Prop
  | .node a cs => p a cs ∧ Everywhere p cs

/-- Every node of the forest, with the forest below it, satisfies `p`. -/
def Everywhere (p : α → Forest α → Prop) : Forest α → Prop
  | [] => True
  | t :: f => t.Everywhere p ∧ Everywhere p f
end

variable {f c g : Forest α} {t : Rose α} {k : α}

section Everywhere

variable {p q : α → Forest α → Prop}

@[simp] theorem everywhere_nil : Everywhere p [] := trivial

@[simp] theorem everywhere_cons (t : Rose α) (f : Forest α) :
    Everywhere p (t :: f) ↔ t.Everywhere p ∧ Everywhere p f := Iff.rfl

@[simp] theorem Rose.everywhere_node (a : α) (cs : Forest α) :
    (Rose.node a cs).Everywhere p ↔ p a cs ∧ KeyedForest.Everywhere p cs := Iff.rfl

@[simp] theorem everywhere_append (f g : Forest α) :
    Everywhere p (f ++ g) ↔ Everywhere p f ∧ Everywhere p g := by
  induction f with
  | nil => simp
  | cons t f ih => rw [cons_append, everywhere_cons, everywhere_cons, ih, and_assoc]

theorem everywhere_iff : Everywhere p f ↔ ∀ t ∈ f, t.Everywhere p := by
  induction f with
  | nil => simp
  | cons t f ih => rw [everywhere_cons, ih, forall_mem_cons]

theorem Everywhere.of_mem (hf : Everywhere p f) (ht : t ∈ f) : t.Everywhere p := everywhere_iff.mp hf t ht

theorem Everywhere.imp (h : ∀ a cs, p a cs → q a cs) (hf : Everywhere p f) : Everywhere q f := by
  induction f using forest_induction with
  | nil => trivial
  | cons a cs f ihc ihf => exact ⟨⟨h a cs hf.1.1, ihc hf.1.2⟩, ihf hf.2⟩

mutual
def Rose.decideEverywhere (dp : ∀ a cs, Decidable (p a cs)) : (t : Rose α) → Decidable (t.Everywhere p)
  | .node a cs => @instDecidableAnd _ _ (dp a cs) (decideEverywhere dp cs)

def decideEverywhere (dp : ∀ a cs, Decidable (p a cs)) : (f : Forest α) → Decidable (Everywhere p f)
  | [] => isTrue trivial
  | t :: f => @instDecidableAnd _ _ (Rose.decideEverywhere dp t) (decideEverywhere dp f)
end

instance [dp : ∀ a cs, Decidable (p a cs)] (f : Forest α) : Decidable (Everywhere p f) :=
  decideEverywhere dp f

end Everywhere

theorem everywhere_mapForest {p : β → Prop} {h : α → β} {f : Forest α} :
    Everywhere (fun b _ => p b) (mapForest h f) ↔ Everywhere (fun a _ => p (h a)) f := by
  induction f using forest_induction with
  | nil => exact Iff.rfl
  | cons a cs f ihc ihf =>
    rw [mapForest_cons, Rose.map_node, everywhere_cons, everywhere_cons]
    exact and_congr (and_congr_right fun _ => ihc) ihf

theorem mapForest_mapForest {γ : Type w} (g : β → γ) (h : α → β) (f : Forest α) :
    mapForest g (mapForest h f) = mapForest (fun a => g (h a)) f := by
  induction f using forest_induction with
  | nil => rfl
  | cons a cs f ihc ihf => simp only [mapForest_cons, Rose.map_node, ihc, ihf]

/-! ## Keys, buckets and the child under a key -/

/-- The keys at the top level, in order. -/
def roots (f : Forest α) : List α := f.map Rose.val

@[simp] theorem roots_nil : roots ([] : Forest α) = [] := rfl

@[simp] theorem roots_cons (t : Rose α) (f : Forest α) : roots (t :: f) = t.val :: roots f := rfl

theorem mem_roots_of_mem (ht : t ∈ f) : t.val ∈ roots f :=
  mem_map_of_mem ht

variable [DecidableEq α]

/-- The child forests of all trees keyed `k`, in order. -/
def bucket (k : α) (f : Forest α) : List (Forest α) :=
  f.filterMap fun t => if t.val = k then some t.children else none

/-- The child forest of the first tree keyed `k`. -/
def child (k : α) (f : Forest α) : Option (Forest α) :=
  (f.find? fun t => t.val = k).map Rose.children

@[simp] theorem bucket_nil (k : α) : bucket k ([] : Forest α) = [] := rfl

theorem bucket_cons (k : α) (t : Rose α) (f : Forest α) :
    bucket k (t :: f) = if t.val = k then t.children :: bucket k f else bucket k f := by
  unfold bucket
  by_cases h : t.val = k <;> simp [h]

@[simp] theorem bucket_append (k : α) (f g : Forest α) :
    bucket k (f ++ g) = bucket k f ++ bucket k g := by
  simp [bucket]

@[simp] theorem child_nil (k : α) : child k ([] : Forest α) = none := rfl

theorem child_cons (k : α) (t : Rose α) (f : Forest α) :
    child k (t :: f) = if t.val = k then some t.children else child k f := by
  unfold child
  by_cases h : t.val = k <;> simp [h]

theorem child_eq_head? (k : α) (f : Forest α) : child k f = (bucket k f).head? := by
  induction f with
  | nil => rfl
  | cons t f ih =>
    rw [child_cons, bucket_cons]
    split <;> simp [ih]

theorem bucket_eq_nil_iff : bucket k f = [] ↔ k ∉ roots f := by
  induction f with
  | nil => simp
  | cons t f ih =>
    rw [bucket_cons, roots_cons, mem_cons, not_or, ← ih, eq_comm (a := k)]
    split <;> simp_all

theorem child_eq_none_iff : child k f = none ↔ k ∉ roots f := by
  rw [child_eq_head?, head?_eq_none_iff, bucket_eq_nil_iff]

@[simp] theorem child_isSome (k : α) (f : Forest α) :
    (child k f).isSome = decide (k ∈ roots f) := by
  by_cases h : k ∈ roots f
  · rw [isSome_iff_ne_none.mpr fun e => child_eq_none_iff.mp e h, decide_eq_true h]
  · rw [child_eq_none_iff.mpr h, decide_eq_false h]
    rfl

theorem mem_roots_iff_child : k ∈ roots f ↔ ∃ c, child k f = some c := by
  rw [← isSome_iff_exists, isSome_iff_ne_none, ne_eq, child_eq_none_iff, not_not]

theorem mem_roots_of_child (h : child k f = some c) : k ∈ roots f :=
  mem_roots_iff_child.mpr ⟨c, h⟩

theorem exists_mem_of_child (h : child k f = some c) : ∃ t ∈ f, t.val = k ∧ t.children = c := by
  obtain ⟨t, hfind, hc⟩ := map_eq_some_iff.mp h
  exact ⟨t, List.mem_of_find?_eq_some hfind, by simpa using List.find?_some hfind, hc⟩

theorem mem_bucket : c ∈ bucket k f ↔ ∃ t ∈ f, t.val = k ∧ t.children = c := by
  simp [bucket]

/-! ## Forests without equal siblings -/

omit [DecidableEq α] in
mutual
/-- No two siblings below the root have one key. -/
def Rose.Distinct : Rose α → Prop
  | .node _ cs => Distinct cs

/-- No two siblings, at any level, have one key. -/
def Distinct : Forest α → Prop
  | [] => True
  | t :: f => t.Distinct ∧ t.val ∉ roots f ∧ Distinct f
end

mutual
def Rose.decideDistinct : (t : Rose α) → Decidable t.Distinct
  | .node _ cs => decideDistinct cs

def decideDistinct : (f : Forest α) → Decidable (Distinct f)
  | [] => isTrue trivial
  | t :: f =>
    @instDecidableAnd _ _ t.decideDistinct
      (@instDecidableAnd _ _ (inferInstance : Decidable (t.val ∉ roots f)) (decideDistinct f))
end

instance (f : Forest α) : Decidable (Distinct f) := decideDistinct f

omit [DecidableEq α] in
@[simp] theorem distinct_nil : Distinct ([] : Forest α) := trivial

omit [DecidableEq α] in
theorem distinct_cons : Distinct (t :: f) ↔ Distinct t.children ∧ t.val ∉ roots f ∧ Distinct f := by
  cases t; rfl

omit [DecidableEq α] in
theorem Distinct.of_mem (hf : Distinct f) (ht : t ∈ f) : Distinct t.children := by
  induction f with
  | nil => cases ht
  | cons s f ih =>
    obtain ⟨hs, -, hf⟩ := distinct_cons.mp hf
    rcases mem_cons.mp ht with rfl | ht
    · exact hs
    · exact ih hf ht

theorem Distinct.child (hf : Distinct f) (h : child k f = some c) : Distinct c := by
  obtain ⟨t, ht, -, rfl⟩ := exists_mem_of_child h
  exact hf.of_mem ht

theorem Distinct.bucket_eq (hf : Distinct f) (k : α) : bucket k f = (KeyedForest.child k f).toList := by
  induction f with
  | nil => rfl
  | cons t f ih =>
    obtain ⟨-, hnot, hf⟩ := distinct_cons.mp hf
    rw [bucket_cons, child_cons]
    split
    · next h => rw [bucket_eq_nil_iff.mpr (h ▸ hnot), toList_some]
    · exact ih hf

/-! ## The same forest up to sibling order -/

/-- Two forests with the same trees at every level, in any order. -/
inductive SameUpToOrder : Forest α → Forest α → Prop
  | nil : SameUpToOrder [] []
  | cons {cs ds f g : Forest α} (a : α) :
      SameUpToOrder cs ds → SameUpToOrder f g → SameUpToOrder (.node a cs :: f) (.node a ds :: g)
  | swap (s t : Rose α) (f : Forest α) : SameUpToOrder (s :: t :: f) (t :: s :: f)
  | trans {f g h : Forest α} : SameUpToOrder f g → SameUpToOrder g h → SameUpToOrder f h

namespace SameUpToOrder

omit [DecidableEq α]

theorem refl (f : Forest α) : SameUpToOrder f f := by
  induction f using forest_induction with
  | nil => exact .nil
  | cons a cs f ihc ihf => exact .cons a ihc ihf

theorem of_perm (h : f.Perm g) : SameUpToOrder f g := by
  induction h with
  | nil => exact .nil
  | cons t _ ih => rw [← t.eta]; exact .cons _ (refl _) ih
  | swap s t f => exact .swap t s f
  | trans _ _ ih₁ ih₂ => exact .trans ih₁ ih₂

theorem map {β : Type v} (h : α → β) (hfg : SameUpToOrder f g) :
    SameUpToOrder (mapForest h f) (mapForest h g) := by
  induction hfg with
  | nil => exact .nil
  | cons a _ _ ihc ihf =>
    rw [mapForest_cons, mapForest_cons, Rose.map_node, Rose.map_node]
    exact .cons (h a) ihc ihf
  | swap s t f =>
    rw [mapForest_cons, mapForest_cons, mapForest_cons, mapForest_cons]
    exact .swap _ _ _
  | trans _ _ ih ih' => exact ih.trans ih'

/-- What holds of every value does not depend on the order. -/
theorem everywhere {p : α → Prop} (h : SameUpToOrder f g) (hf : Everywhere (fun a _ => p a) f) :
    Everywhere (fun a _ => p a) g := by
  induction h with
  | nil => exact hf
  | cons a _ _ ihc ihf => exact ⟨⟨hf.1.1, ihc hf.1.2⟩, ihf hf.2⟩
  | swap s t f => exact ⟨hf.2.1, hf.1, hf.2.2⟩
  | trans _ _ ih ih' => exact ih' (ih hf)

end SameUpToOrder

theorem exists_split_of_bucket {rest : List (Forest α)} (h : bucket k f = c :: rest) :
    ∃ f₁ f₂, f = f₁ ++ .node k c :: f₂ ∧ bucket k f₁ = [] ∧ bucket k f₂ = rest := by
  induction f with
  | nil => cases h
  | cons t f ih =>
    rw [bucket_cons] at h
    split at h
    · next e =>
      obtain ⟨hc, hrest⟩ := cons.inj h
      exact ⟨[], f, by rw [← e, ← hc, t.eta]; rfl, rfl, hrest⟩
    · next e =>
      obtain ⟨f₁, f₂, rfl, h₁, h₂⟩ := ih h
      exact ⟨t :: f₁, f₂, rfl, by rw [bucket_cons, if_neg e, h₁], h₂⟩

/-- **Forests are determined by their buckets.** If under every key the two
forests hold child forests that agree up to order, so do the forests. -/
theorem SameUpToOrder.of_bucket (h : ∀ k, List.Forall₂ SameUpToOrder (bucket k f) (bucket k g)) :
    SameUpToOrder f g := by
  induction f generalizing g with
  | nil =>
    have hg : ∀ k, bucket k g = [] := fun k => forall₂_nil_left_iff.mp (h k)
    cases g with
    | nil => exact .nil
    | cons t g =>
      have := hg t.val
      rw [bucket_cons, if_pos rfl] at this
      cases this
  | cons t f ih =>
    have ht := h t.val
    rw [bucket_cons, if_pos rfl] at ht
    obtain ⟨d, rest, hd, hrest, hg⟩ := forall₂_cons_left_iff.mp ht
    obtain ⟨g₁, g₂, rfl, h₁, h₂⟩ := exists_split_of_bucket hg
    -- pull the matching tree to the front, then compare what is left
    have hperm : SameUpToOrder (.node t.val d :: (g₁ ++ g₂)) (g₁ ++ .node t.val d :: g₂) :=
      .of_perm perm_middle.symm
    refine .trans ?_ hperm
    rw [← t.eta]
    refine .cons _ hd (ih fun k => ?_)
    have hk := h k
    rw [bucket_cons, bucket_append, bucket_cons, Rose.val_node] at hk
    rw [bucket_append]
    split at hk
    · next e =>
      subst e
      rw [h₁, h₂]
      exact hrest
    · exact hk

omit [DecidableEq α] in
theorem SameUpToOrder.mem_roots_iff (h : SameUpToOrder f g) (k : α) : k ∈ roots f ↔ k ∈ roots g := by
  induction h with
  | nil => exact Iff.rfl
  | cons a _ _ _ ih => simp [ih]
  | swap s t f => simp [or_left_comm]
  | trans _ _ ih₁ ih₂ => exact ih₁.trans ih₂

omit [DecidableEq α] in
theorem SameUpToOrder.distinct (h : SameUpToOrder f g) (hf : Distinct f) : Distinct g := by
  induction h with
  | nil => exact hf
  | cons a _ hfg ihc ihf =>
    obtain ⟨hcs, ha, hf⟩ := distinct_cons.mp hf
    exact distinct_cons.mpr ⟨ihc hcs, mt (hfg.mem_roots_iff a).mpr ha, ihf hf⟩
  | swap s t f =>
    obtain ⟨hs, hsf, htf⟩ := distinct_cons.mp hf
    obtain ⟨ht, htf, hf⟩ := distinct_cons.mp htf
    simp only [roots_cons, mem_cons, not_or] at hsf
    refine distinct_cons.mpr ⟨ht, ?_, distinct_cons.mpr ⟨hs, hsf.2, hf⟩⟩
    simp only [roots_cons, mem_cons, not_or]
    exact ⟨Ne.symm hsf.1, htf⟩
  | trans _ _ ih₁ ih₂ => exact ih₂ (ih₁ hf)

theorem SameUpToOrder.child (h : SameUpToOrder f g) (hf : Distinct f) (hc : KeyedForest.child k f = some c) :
    ∃ d, KeyedForest.child k g = some d ∧ SameUpToOrder c d := by
  induction h generalizing c with
  | nil => cases hc
  | @cons cs ds f g a hcd _ _ ih =>
    rw [child_cons] at hc ⊢
    split at hc
    · next e =>
      cases hc
      exact ⟨ds, if_pos e, hcd⟩
    · next e =>
      obtain ⟨d, hd, hcd⟩ := ih (distinct_cons.mp hf).2.2 hc
      exact ⟨d, (if_neg e).trans hd, hcd⟩
  | swap s t f =>
    have hne : s.val ≠ t.val := by
      have := (distinct_cons.mp hf).2.1
      simp only [roots_cons, mem_cons, not_or] at this
      exact this.1
    refine ⟨c, ?_, .refl c⟩
    rw [child_cons, child_cons] at hc ⊢
    by_cases hs : s.val = k
    · rw [if_pos hs] at hc
      rw [if_neg (fun ht => hne (hs.trans ht.symm)), if_pos hs, hc]
    · rw [if_neg hs] at hc
      rw [if_neg hs, hc]
  | trans h₁ _ ih₁ ih₂ =>
    obtain ⟨d, hd, hcd⟩ := ih₁ hf hc
    obtain ⟨e, he, hde⟩ := ih₂ (h₁.distinct hf) hd
    exact ⟨e, he, hcd.trans hde⟩

/-- The forest reached by descending through the keys of a path. -/
def dirAt : List α → Forest α → Option (Forest α)
  | [], f => some f
  | k :: p, f => (child k f).bind (dirAt p)

@[simp] theorem dirAt_nil (f : Forest α) : dirAt [] f = some f := rfl

@[simp] theorem dirAt_cons (k : α) (p : List α) (f : Forest α) :
    dirAt (k :: p) f = (child k f).bind (dirAt p) := rfl

end KeyedForest
