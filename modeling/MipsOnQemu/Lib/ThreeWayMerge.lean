/-
# MipsOnQemu.Lib.ThreeWayMerge -- three-way merge of keyed forests

Two replicas `left` and `right` of a forest are merged against a common `base`.
A key on both sides is kept and merged below; a key on one side only is new there
when the base does not know it, and deleted on the other side when the base does.
`merge` builds the merged forest, `edits` lists what each replica has to do.

`InSync` says when there is nothing to do, whatever the base. The results that need
distinct siblings are in `MipsOnQemu.Lib.Reconcile`.
-/

import MipsOnQemu.Lib.Forest

namespace KeyedForest

open List KeyedForest

universe u

variable {κ : Type u}

/-! ## The merge

The functions of this section find an entry by a lookup function `look`, which a program may
implement by a search that relies on more than the forest alone. `child` is the lookup the
results below are about; `merge_congr_look` and `edits_congr_look` carry them to any lookup that
agrees with it on the forests at hand. -/

section Look

variable (look : κ → Forest κ → Option (Forest κ))

/-- The trees of `right` that neither `left` nor `base` has. -/
def newRight (left base right : Forest κ) : Forest κ :=
  right.filter fun t => !(look t.val left).isSome && !(look t.val base).isSome

/-- What `base` has below `k`: nothing, when it does not have `k`. -/
def baseBelow (k : κ) (base : Forest κ) : Forest κ := (look k base).getD []

mutual
/-- What one tree of the left replica contributes to the merge: itself merged
with its counterpart, itself when it is new, nothing when it was deleted. -/
def mergeTree : Rose κ → Forest κ → Forest κ → Forest κ
  | .node k cs, base, right =>
    match look k right with
    | some ds =>
      [.node k (mergeLeft cs (baseBelow look k base) ds ++ newRight look cs (baseBelow look k base) ds)]
    | none => if (look k base).isSome then [] else [.node k cs]

/-- What the trees of the left replica contribute, in order. -/
def mergeLeft : Forest κ → Forest κ → Forest κ → Forest κ
  | [], _, _ => []
  | t :: left, base, right => mergeTree t base right ++ mergeLeft left base right
end

/-- The three-way merge: the left replica's contribution, then what is new on the right. -/
def merge (left base right : Forest κ) : Forest κ :=
  mergeLeft look left base right ++ newRight look left base right

theorem newRight_cons (left base : Forest κ) (t : Rose κ) (right : Forest κ) :
    newRight look left base (t :: right) =
      (if (look t.val left).isSome then []
        else if (look t.val base).isSome then [] else [t]) ++ newRight look left base right := by
  rw [newRight, filter_cons, ← newRight]
  cases (look t.val left).isSome <;> cases (look t.val base).isSome <;> rfl

theorem mergeTree_node (k : κ) (cs base right : Forest κ) : mergeTree look (.node k cs) base right =
      match look k right with
      | some ds => [.node k (merge look cs (baseBelow look k base) ds)]
      | none => if (look k base).isSome then [] else [.node k cs] := by
  rw [mergeTree]; rfl

theorem mergeLeft_eq_flatMap (left base right : Forest κ) :
    mergeLeft look left base right = left.flatMap fun t => mergeTree look t base right := by
  induction left with
  | nil => rfl
  | cons t left ih => rw [mergeLeft, ih, flatMap_cons]

end Look

/-! ## Edits -/

/-- The replica an edit is for. -/
inductive Side where
  | left | right
  deriving DecidableEq, Repr

/-- Add a tree to a directory, or delete the entry with a key from it. -/
inductive Action (κ : Type u) where
  | add (t : Rose κ)
  | del (k : κ)
  deriving DecidableEq

/-- An edit of one replica at the directory reached by the path `dir`. -/
structure Edit (κ : Type u) where
  side : Side
  dir : List κ
  act : Action κ
  deriving DecidableEq

namespace Edit

/-- The same edit one directory further down. -/
def under (k : κ) (e : Edit κ) : Edit κ := { e with dir := k :: e.dir }

/-- The same edit below a path. -/
def prepend (dir : List κ) (e : Edit κ) : Edit κ := { e with dir := dir ++ e.dir }

theorem map_prepend_nil (es : List (Edit κ)) : es.map (prepend []) = es := map_id es

theorem map_prepend_under (dir : List κ) (k : κ) (es : List (Edit κ)) :
    (es.map (under k)).map (prepend dir) = es.map (prepend (dir ++ [k])) := by
  rw [map_map]
  refine map_congr_left fun e _ => ?_
  simp [prepend, under]

end Edit

variable {base right left : Forest κ}

section Look

variable (look : κ → Forest κ → Option (Forest κ))

/-- The edit for one entry of the right replica: none when the left one has it too. -/
def editsOfRightTree (left base : Forest κ) (t : Rose κ) : List (Edit κ) :=
  if (look t.val left).isSome then []
  else if (look t.val base).isSome then [⟨.right, [], .del t.val⟩]
  else [⟨.left, [], .add t⟩]

/-- The edits for the entries of the right replica. -/
def editsOfRight (left base right : Forest κ) : List (Edit κ) :=
  right.flatMap (editsOfRightTree look left base)

mutual
/-- The edits one tree of the left replica gives rise to. -/
def editsOfTree : Rose κ → Forest κ → Forest κ → List (Edit κ)
  | .node k cs, base, right =>
    match look k right with
    | some ds =>
      (editsOfLeft cs (baseBelow look k base) ds ++
        editsOfRight look cs (baseBelow look k base) ds).map (Edit.under k)
    | none =>
      if (look k base).isSome then [⟨.left, [], .del k⟩] else [⟨.right, [], .add (.node k cs)⟩]

/-- The edits the trees of the left replica give rise to, in order. -/
def editsOfLeft : Forest κ → Forest κ → Forest κ → List (Edit κ)
  | [], _, _ => []
  | t :: left, base, right => editsOfTree t base right ++ editsOfLeft left base right
end

/-- All edits of a merge, in the order they are made. -/
def edits (left base right : Forest κ) : List (Edit κ) :=
  editsOfLeft look left base right ++ editsOfRight look left base right

theorem editsOfTree_node (k : κ) (cs base right : Forest κ) : editsOfTree look (.node k cs) base right =
      match look k right with
      | some ds => (edits look cs (baseBelow look k base) ds).map (Edit.under k)
      | none =>
        if (look k base).isSome then [⟨.left, [], .del k⟩]
        else [⟨.right, [], .add (.node k cs)⟩] := by
  rw [editsOfTree]; rfl

theorem editsOfLeft_eq_flatMap (left base right : Forest κ) :
    editsOfLeft look left base right = left.flatMap fun t => editsOfTree look t base right := by
  induction left with
  | nil => rfl
  | cons t left ih => rw [editsOfLeft, ih, flatMap_cons]

theorem editsOfRight_cons (left base : Forest κ) (t : Rose κ) (right : Forest κ) :
    editsOfRight look left base (t :: right) =
      editsOfRightTree look left base t ++ editsOfRight look left base right := flatMap_cons

theorem editsOfTree_eq_nil_iff {t : Rose κ} : editsOfTree look t base right = [] ↔
      ∃ ds, look t.val right = some ds ∧ edits look t.children (baseBelow look t.val base) ds = [] := by
  obtain ⟨k, cs⟩ := t
  rw [editsOfTree_node]
  cases hc : look k right with
  | some ds => simp [hc]
  | none => cases hb : (look k base).isSome <;> simp [hc]

theorem editsOfRight_eq_nil_iff :
    editsOfRight look left base right = [] ↔ ∀ t ∈ right, (look t.val left).isSome := by
  rw [editsOfRight, flatMap_eq_nil_iff]
  refine forall₂_congr fun t _ => ?_
  unfold editsOfRightTree
  cases (look t.val left).isSome <;> cases (look t.val base).isSome <;> simp

end Look

/-! ## Where the trees of a merge come from -/

section Look

variable {look : κ → Forest κ → Option (Forest κ)}

/-- What holds everywhere in both replicas, and of a merged node when it holds of both sides,
holds everywhere in the merge. -/
theorem Everywhere.merge {p : κ → Forest κ → Prop}
    (hlook : ∀ k f ds, look k f = some ds → ∃ t ∈ f, t.val = k ∧ t.children = ds)
    (hp : ∀ k cs base ds, p k cs → p k ds → p k (merge look cs base ds)) (hl : Everywhere p left)
    (base : Forest κ) (hr : Everywhere p right) : Everywhere p (merge look left base right) := by
  have hnew : ∀ cs base {ds : Forest κ}, Everywhere p ds → Everywhere p (newRight look cs base ds) := by
    intro cs base ds hds
    exact everywhere_iff.mpr fun t ht => everywhere_iff.mp hds t (mem_filter.mp ht).1
  have hleft : ∀ (base : Forest κ) {right : Forest κ}, Everywhere p right →
      Everywhere p (mergeLeft look left base right) := by
    induction left using forest_induction with
    | nil => exact fun _ _ _ => trivial
    | cons k cs left ihc ihl =>
      intro base right hr
      obtain ⟨⟨hk, hcs⟩, hl⟩ := hl
      rw [mergeLeft, everywhere_append, mergeTree_node]
      refine ⟨?_, ihl hl base hr⟩
      cases hds : look k right with
      | none =>
        show Everywhere p (if (look k base).isSome then [] else [.node k cs])
        split
        · trivial
        · exact ⟨⟨hk, hcs⟩, trivial⟩
      | some ds =>
        obtain ⟨t, ht, rfl, rfl⟩ := hlook k right ds hds
        have hnode := hr.of_mem ht
        rw [← Rose.eta t] at hnode
        refine ⟨⟨hp _ _ _ _ hk hnode.1, ?_⟩, trivial⟩
        exact (everywhere_append _ _).mpr ⟨ihc hcs _ hnode.2, hnew _ _ hnode.2⟩
  exact (everywhere_append _ _).mpr ⟨hleft base hr, hnew _ _ hr⟩

end Look

/-! ## Replicas in sync -/

section Look

variable (look : κ → Forest κ → Option (Forest κ))

mutual
/-- The right replica has the root of the tree, and the two have the same entries below it. -/
def InSyncTree : Rose κ → Forest κ → Prop
  | .node k cs, right =>
    ∃ ds, look k right = some ds ∧ InSyncList cs ds ∧ ∀ d ∈ ds, (look d.val cs).isSome

/-- The same for every tree of the left replica. -/
def InSyncList : Forest κ → Forest κ → Prop
  | [], _ => True
  | t :: left, right => InSyncTree t right ∧ InSyncList left right
end

/-- Each replica has what the other has, directory by directory, as `look` finds it. -/
def InSync (left right : Forest κ) : Prop :=
  InSyncList look left right ∧ ∀ d ∈ right, (look d.val left).isSome

theorem inSyncTree_node (k : κ) (cs right : Forest κ) :
    InSyncTree look (.node k cs) right ↔ ∃ ds, look k right = some ds ∧ InSync look cs ds :=
  Iff.rfl

theorem editsOfLeft_eq_nil_iff : editsOfLeft look left base right = [] ↔ InSyncList look left right := by
  induction left using forest_induction generalizing base right with
  | nil => exact ⟨fun _ => trivial, fun _ => rfl⟩
  | cons k cs left ihc ihl =>
    rw [editsOfLeft, append_eq_nil_iff, editsOfTree_eq_nil_iff, ihl, InSyncList, inSyncTree_node]
    refine and_congr_left fun _ => exists_congr fun ds => and_congr_right fun _ => ?_
    rw [edits, append_eq_nil_iff, Rose.children_node, ihc, editsOfRight_eq_nil_iff]
    exact Iff.rfl

/-- **A merge has nothing to do exactly when the replicas are in sync.** The base does not
matter. -/
theorem edits_eq_nil_iff_inSync : edits look left base right = [] ↔ InSync look left right := by
  rw [edits, append_eq_nil_iff, editsOfLeft_eq_nil_iff, editsOfRight_eq_nil_iff]
  exact Iff.rfl

end Look

/-! ## Other lookups -/

section Look

variable [DecidableEq κ] {look : κ → Forest κ → Option (Forest κ)}

/-- `look` finds what `child` finds, in the forest and in every forest below it. -/
inductive Agrees (look : κ → Forest κ → Option (Forest κ)) : Forest κ → Prop
  | intro {f : Forest κ} :
      (∀ k, look k f = child k f) → (∀ t ∈ f, Agrees look t.children) → Agrees look f

theorem Agrees.look_eq {f : Forest κ} (h : Agrees look f) (k : κ) : look k f = child k f := by
  cases h with
  | intro h _ => exact h k

theorem Agrees.child {f c : Forest κ} (h : Agrees look f) {k : κ}
    (hc : child k f = some c) : Agrees look c := by
  obtain ⟨t, ht, -, rfl⟩ := exists_mem_of_child hc
  cases h with
  | intro _ h => exact h t ht

theorem Agrees.baseBelow (h : Agrees look base) (hnil : Agrees look []) (k : κ) :
    Agrees look (KeyedForest.baseBelow KeyedForest.child k base) := by
  unfold KeyedForest.baseBelow
  cases hc : KeyedForest.child k base with
  | none => exact hnil
  | some c => exact h.child hc

theorem Agrees.baseBelow_eq (h : Agrees look base) (k : κ) :
    KeyedForest.baseBelow look k base = KeyedForest.baseBelow KeyedForest.child k base := by
  rw [KeyedForest.baseBelow, KeyedForest.baseBelow, h.look_eq]

section

variable (hnil : Agrees look []) (hl : Agrees look left) (hb : Agrees look base) (hr : Agrees look right)
include hnil hl hb hr

theorem merge_congr_look : merge look left base right = merge child left base right := by
  induction left using children_induction generalizing base right with
  | step left ih =>
    have hleft : mergeLeft look left base right = mergeLeft child left base right := by
      rw [mergeLeft_eq_flatMap, mergeLeft_eq_flatMap]
      refine flatMap_congr fun t ht => ?_
      cases hl with
      | intro _ hchildren =>
        have hsub := fun ds (hds : child t.val right = some ds) =>
          ih t ht (hchildren t ht) (hb.baseBelow hnil t.val) (hr.child hds)
        obtain ⟨k, cs⟩ := t
        rw [mergeTree_node, mergeTree_node, hr.look_eq, hb.look_eq, hb.baseBelow_eq]
        cases hc : child k right with
        | none => rfl
        | some ds => exact congrArg (fun f => [Rose.node k f]) (hsub ds hc)
    have hright : newRight look left base right = newRight child left base right := by
      rw [newRight, newRight]
      exact filter_congr fun t _ => by rw [hl.look_eq, hb.look_eq]
    rw [merge, merge, hleft, hright]

theorem edits_congr_look : edits look left base right = edits child left base right := by
  induction left using children_induction generalizing base right with
  | step left ih =>
    have hleft : editsOfLeft look left base right = editsOfLeft child left base right := by
      rw [editsOfLeft_eq_flatMap, editsOfLeft_eq_flatMap]
      refine flatMap_congr fun t ht => ?_
      cases hl with
      | intro _ hchildren =>
        have hsub := fun ds (hds : child t.val right = some ds) =>
          ih t ht (hchildren t ht) (hb.baseBelow hnil t.val) (hr.child hds)
        obtain ⟨k, cs⟩ := t
        rw [editsOfTree_node, editsOfTree_node, hr.look_eq, hb.look_eq, hb.baseBelow_eq]
        cases hc : child k right with
        | none => rfl
        | some ds => exact congrArg (map (Edit.under k)) (hsub ds hc)
    have hright : editsOfRight look left base right = editsOfRight child left base right := by
      rw [editsOfRight, editsOfRight]
      refine flatMap_congr fun t _ => ?_
      rw [editsOfRightTree, editsOfRightTree, hl.look_eq, hb.look_eq]
    rw [edits, edits, hleft, hright]

end

end Look

end KeyedForest
