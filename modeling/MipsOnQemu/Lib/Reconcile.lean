/-
# MipsOnQemu.Lib.Reconcile -- what a three-way merge achieves

For replicas without equal siblings. `Reconciles r` says once, key by key, what it
means that a function `r left base right` reconciles two replicas. The list function
`merge` reconciles, and `Reconciles.sameUpToOrder` says that any two functions that
reconcile agree up to sibling order. Symmetry is an instance of that theorem.
-/

import MipsOnQemu.Lib.ThreeWayMerge

namespace KeyedForest

open List SameUpToOrder

universe u

variable {κ : Type u} [DecidableEq κ]

variable (base : Forest κ) (k : κ) {f g left right : Forest κ}

theorem bucket_flatMap_mergeTree (hl : Distinct left) (base right : Forest κ) (k : κ) :
    bucket k (mergeLeft child left base right) = match child k left with
      | none => []
      | some cs => bucket k (mergeTree child (.node k cs) base right) := by
  have hkey : ∀ t : Rose κ, t.val ≠ k → bucket k (mergeTree child t base right) = [] := by
    rintro ⟨j, cs⟩ (hj : j ≠ k)
    rw [mergeTree_node]
    cases child j right with
    | some ds => simp [bucket_cons, hj]
    | none =>
      show bucket k (if (child j base).isSome then [] else [.node j cs]) = []
      split <;> simp [bucket_cons, hj]
  rw [mergeLeft_eq_flatMap]
  induction left with
  | nil => rfl
  | cons t left ih =>
    obtain ⟨j, cs⟩ := t
    obtain ⟨-, hnot, hl⟩ := distinct_cons.mp hl
    rw [flatMap_cons, bucket_append, ih hl, child_cons]
    by_cases hk : j = k
    · subst hk
      have hnone : child j left = none := child_eq_none_iff.mpr hnot
      rw [hnone, Rose.val_node, if_pos rfl]
      exact append_nil _
    · rw [Rose.val_node, if_neg hk, hkey (.node j cs) hk, nil_append]

/-! ## Reconciliation, key by key -/

/-- What a reconciliation holds under `k`, given how it reconciles below `k`. -/
def slot (r : Forest κ → Forest κ → Forest κ → Forest κ) (k : κ) (left base right : Forest κ) :
    Option (Forest κ) :=
  match child k left, child k right with
  | some cs, some ds => some (r cs (baseBelow child k base) ds)
  | some cs, none => if k ∈ roots base then none else some cs
  | none, some ds => if k ∈ roots base then none else some ds
  | none, none => none

/-- `r` reconciles two replicas against a base: a key on both sides is kept and
reconciled below, a key on one side is kept exactly when the base lacks it. -/
def Reconciles (r : Forest κ → Forest κ → Forest κ → Forest κ) : Prop :=
  ∀ left base right, Distinct left → Distinct right →
    ∀ k, bucket k (r left base right) = (slot r k left base right).toList

/-- **Uniqueness.** Two functions that reconcile agree up to sibling order. -/
theorem Reconciles.sameUpToOrder {r r' : Forest κ → Forest κ → Forest κ → Forest κ}
    (hr : Reconciles r) (hr' : Reconciles r') (base : Forest κ)
    (hl : Distinct left) (hright : Distinct right) :
    SameUpToOrder (r left base right) (r' left base right) := by
  induction left using children_induction generalizing base right with
  | step left ih =>
    refine of_bucket fun k => ?_
    rw [hr left base right hl hright k, hr' left base right hl hright k, slot, slot]
    cases hcl : child k left with
    | none =>
      cases hcr : child k right with
      | none => simp
      | some ds => by_cases hb : k ∈ roots base <;> simp [hb, refl]
    | some cs =>
      cases hcr : child k right with
      | none => by_cases hb : k ∈ roots base <;> simp [hb, refl]
      | some ds =>
        obtain ⟨t, ht, -, rfl⟩ := exists_mem_of_child hcl
        have := ih t ht (baseBelow child k base) (hl.child hcl) (hright.child hcr)
        simpa using this

theorem Reconciles.swap {r : Forest κ → Forest κ → Forest κ → Forest κ} (hr : Reconciles r) :
    Reconciles fun left base right => r right base left := by
  intro left base right hl hright k
  rw [hr right base left hright hl k, slot, slot]
  cases child k left <;> cases child k right <;> rfl

/-! ### The merge reconciles -/

theorem bucket_newRight (left base : Forest κ) (hright : Distinct right) (k : κ) :
    bucket k (newRight child left base right) =
      if k ∈ roots left ∨ k ∈ roots base then [] else (child k right).toList := by
  rw [newRight, ← hright.bucket_eq]
  clear hright
  induction right with
  | nil => simp
  | cons t right ih =>
    rw [filter_cons, bucket_cons]
    by_cases hk : t.val = k
    · subst hk
      by_cases hl : t.val ∈ roots left <;> by_cases hb : t.val ∈ roots base <;>
        simp_all [bucket_cons]
    · rw [if_neg hk, ← ih]
      split
      · rw [bucket_cons, if_neg hk]
      · rfl

theorem reconciles_merge : Reconciles (merge (child : κ → Forest κ → Option (Forest κ))) := by
  intro left base right hl hright k
  rw [merge, bucket_append, bucket_flatMap_mergeTree hl, bucket_newRight left base hright, slot]
  cases hcl : child k left with
  | none =>
    have hkl : k ∉ roots left := child_eq_none_iff.mp hcl
    cases hcr : child k right with
    | none => simp
    | some ds => by_cases hb : k ∈ roots base <;> simp [hkl, hb]
  | some cs =>
    have hkl : k ∈ roots left := mem_roots_of_child hcl
    cases hcr : child k right with
    | none => by_cases hb : k ∈ roots base <;> simp [mergeTree_node, hcr, hkl, hb, bucket_cons]
    | some ds => simp [mergeTree_node, hcr, hkl, bucket_cons]

/-! ## What is kept, at every shared directory -/

section Kept

variable {r : Forest κ → Forest κ → Forest κ → Forest κ} {left right : Forest κ}

theorem Reconciles.child_eq (hr : Reconciles r) (base : Forest κ) (hl : Distinct left)
    (hright : Distinct right) (k : κ) : child k (r left base right) = slot r k left base right := by
  rw [child_eq_head?, hr left base right hl hright k]
  cases slot r k left base right <;> rfl

theorem Reconciles.mem_roots_iff (hr : Reconciles r) (base : Forest κ) (hl : Distinct left)
    (hright : Distinct right) (k : κ) : k ∈ roots (r left base right) ↔
      (k ∈ roots left ∧ k ∈ roots right) ∨ ((k ∈ roots left ∨ k ∈ roots right) ∧ k ∉ roots base) := by
  rw [mem_roots_iff_child, hr.child_eq base hl hright k, slot]
  cases hcl : child k left with
  | none =>
    have hkl : k ∉ roots left := child_eq_none_iff.mp hcl
    cases hcr : child k right with
    | none => simp [hkl, child_eq_none_iff.mp hcr]
    | some ds => by_cases hb : k ∈ roots base <;> simp [hkl, mem_roots_of_child hcr, hb]
  | some cs =>
    have hkl : k ∈ roots left := mem_roots_of_child hcl
    cases hcr : child k right with
    | none => by_cases hb : k ∈ roots base <;> simp [hkl, child_eq_none_iff.mp hcr, hb]
    | some ds => simp [hkl, mem_roots_of_child hcr]

/-- What `base` has at a directory: nothing, when it does not have the directory. -/
def baseAt (p : List κ) (base : Forest κ) : Forest κ := (dirAt p base).getD []

theorem baseAt_cons (p : List κ) (base : Forest κ) :
    baseAt (k :: p) base = baseAt p (baseBelow child k base) := by
  rw [baseAt, baseAt, dirAt_cons, baseBelow]
  cases child k base with
  | some c => rfl
  | none => cases p <;> rfl

/-- At a directory both replicas have, the reconciliation holds their reconciliation. -/
theorem Reconciles.dirAt_eq (hr : Reconciles r) (base : Forest κ) (hl : Distinct left)
    (hright : Distinct right) {p : List κ} {l d : Forest κ} (hpl : dirAt p left = some l)
    (hpr : dirAt p right = some d) : dirAt p (r left base right) = some (r l (baseAt p base) d) := by
  induction p generalizing left right base with
  | nil =>
    cases hpl
    cases hpr
    rfl
  | cons k p ih =>
    rw [dirAt_cons] at hpl hpr
    obtain ⟨cs, hcs, hpl⟩ := Option.bind_eq_some_iff.mp hpl
    obtain ⟨ds, hds, hpr⟩ := Option.bind_eq_some_iff.mp hpr
    have hslot : slot r k left base right = some (r cs (baseBelow child k base) ds) := by
      rw [slot, hcs, hds]
    rw [dirAt_cons, hr.child_eq base hl hright k, hslot, baseAt_cons]
    exact ih (baseBelow child k base) (hl.child hcs) (hright.child hds) hpl hpr

end Kept

theorem Distinct.dirAt (hf : Distinct f) {p : List κ} (h : KeyedForest.dirAt p f = some g) : Distinct g := by
  induction p generalizing f with
  | nil => cases h; exact hf
  | cons k p ih =>
    obtain ⟨c, hc, h⟩ := Option.bind_eq_some_iff.mp h
    exact ih (hf.child hc) h

/-! ## When a merge has nothing to do -/

theorem Distinct.child_of_mem (hf : Distinct f) {t : Rose κ} (ht : t ∈ f) :
    KeyedForest.child t.val f = some t.children := by
  have hmem : t.children ∈ bucket t.val f := mem_bucket.mpr ⟨t, ht, rfl, rfl⟩
  rw [hf.bucket_eq] at hmem
  exact Option.mem_toList.mp hmem

/-- **A merge makes no edit exactly when the replicas already agree.** -/
theorem edits_eq_nil_iff (hl : Distinct left)
    (hright : Distinct right) : edits child left base right = [] ↔ SameUpToOrder left right := by
  induction left using children_induction generalizing base right with
  | step left ih =>
    rw [edits, append_eq_nil_iff, editsOfLeft_eq_flatMap, flatMap_eq_nil_iff, editsOfRight_eq_nil_iff]
    simp only [child_isSome, decide_eq_true_eq]
    constructor
    · rintro ⟨hleft, hr⟩
      refine of_bucket fun k => ?_
      rw [hl.bucket_eq, hright.bucket_eq]
      cases hcl : child k left with
      | none =>
        have hcr : child k right = none := by
          refine child_eq_none_iff.mpr fun hk => child_eq_none_iff.mp hcl ?_
          obtain ⟨t, ht, rfl⟩ := mem_map.mp hk
          exact hr t ht
        rw [hcr]
        exact .nil
      | some cs =>
        obtain ⟨t, ht, rfl, rfl⟩ := exists_mem_of_child hcl
        obtain ⟨ds, hds, hnil⟩ := (editsOfTree_eq_nil_iff child).mp (hleft t ht)
        rw [hds]
        exact .cons ((ih t ht _ (hl.child hcl) (hright.child hds)).mp hnil) .nil
    · intro h
      refine ⟨fun t ht => ?_, fun t ht => ?_⟩
      · obtain ⟨ds, hds, hsame⟩ := h.child hl (hl.child_of_mem ht)
        exact (editsOfTree_eq_nil_iff child).mpr
          ⟨ds, hds, (ih t ht _ (hl.of_mem ht) (hright.child hds)).mpr hsame⟩
      · exact (h.mem_roots_iff t.val).mpr (mem_roots_of_mem ht)

end KeyedForest
