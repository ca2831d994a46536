/-
# MipsOnQemu.Linux.RadixRuns -- runs of operations on a radix tree

Two kinds of runs from an empty root. In the first any allocation may fail: the operations do what a
finite map does, except that a gang lookup on a root left with a height and no node dereferences
`NULL`. In the second no allocation fails and items are tagged: every bit in the tree is set exactly
when an item below it has the tag.
-/

import MipsOnQemu.Linux.RadixScan
import MipsOnQemu.Lib.Runs

namespace Linux

open DigitTrie Words List Function Option RadixRoot Runs

variable {w : Nat} {α : Type}

/-! ## A finite map -/

/-- The operations, an insertion with the outcomes of the allocations it may come to. -/
inductive RadixOp (α : Type) where
  | insert (index : BitVec 32) (item : α) (allocs : List Bool)
  | delete (index : BitVec 32)
  | lookup (index : BitVec 32)
  | gangLookup (firstIndex : BitVec 32) (maxItems : Nat)

/-- What they return. -/
inductive RadixResult (α : Type) where
  | inserted (result : InsertResult)
  | item (item : Option α)
  | items (items : List α)

def RadixOp.exec (root : RadixRoot w α) : RadixOp α → Option (RadixResult α × RadixRoot w α)
  | .insert index item allocs =>
    (radixTreeInsert root index item allocs).map fun p => (.inserted p.1, p.2)
  | .delete index => (radixTreeDelete root index).map fun p => (.item p.1, p.2)
  | .lookup index => some (.item (radixTreeLookup root index), root)
  | .gangLookup firstIndex maxItems =>
    (radixTreeGangLookup root firstIndex maxItems).map fun items => (.items items, root)

/-- **The same operation of a finite map:** what it may return, and the map after it. An insertion may
fail with `-ENOMEM` if an allocation may, and only if the index is free. -/
def RadixOp.OnMap (m : BitVec 32 → Option α) : RadixOp α → RadixResult α → (BitVec 32 → Option α) → Prop
  | .insert index _ _, .inserted .exist, m' => m index ≠ none ∧ m' = m
  | .insert index _ allocs, .inserted .nomem, m' => m index = none ∧ false ∈ allocs ∧ m' = m
  | .insert index item _, .inserted .ok, m' =>
    m index = none ∧ m' = update m index (some item)
  | .delete index, .item found, m' => found = m index ∧ m' = update m index none
  | .lookup index, .item found, m' => found = m index ∧ m' = m
  | .gangLookup firstIndex maxItems, .items items, m' =>
    items = (valuesFrom (2 ^ 32) (fun j => m (BitVec.ofNat 32 j)) firstIndex.toNat).take maxItems ∧ m' = m
  | _, _, _ => False

/-- A gang lookup that comes to look at the root finds a node there. -/
def RadixOp.Rooted (root : RadixRoot w α) : RadixOp α → Prop
  | .gangLookup firstIndex maxItems =>
    maxItems ≠ 0 → firstIndex.toNat ≤ radixTreeMaxindex w root.height → 0 < root.height →
      root.rnode ≠ none
  | _ => True

/-- A root and the map that its lookups are. -/
def IsMap (root : RadixRoot w α) (m : BitVec 32 → Option α) : Prop :=
  RootInv root ∧ radixTreeLookup root = m

variable {root root' : RadixRoot w α}

variable (baseSmall : Bool) {index : BitVec 32}

theorem lookup_update {v : Option α × (Tag → Bool)} (hat : root'.at = update root.at index.toNat v) :
    radixTreeLookup root' = update (radixTreeLookup root) index v.1 := by
  funext i
  rw [radixTreeLookup_eq, hat]
  rcases eq_or_ne i index with rfl | hne
  · rw [update_self, update_self]
  · rw [update_of_ne hne, update_of_ne fun h => hne (BitVec.eq_of_toNat_eq h), radixTreeLookup_eq]

theorem lookup_congr (hat : root'.at = root.at) : radixTreeLookup root' = radixTreeLookup root := by
  funext i
  rw [radixTreeLookup_eq, radixTreeLookup_eq, hat]

theorem valuesFrom_at (root : RadixRoot w α) (n : Nat) : valuesFrom (2 ^ 32) (fun j => (root.at j).1) n =
      valuesFrom (2 ^ 32) (fun j => radixTreeLookup root (BitVec.ofNat 32 j)) n := by
  refine valuesFrom_congr fun j hlt => ?_
  rw [radixTreeLookup_eq, toNat_ofNat_of_lt hlt]

theorem RadixOp.exec_spec (hw : 0 < w) (hw' : w ≤ 32) (root : RadixRoot w α)
    (m : BitVec 32 → Option α) (op : RadixOp α) (h : IsMap root m) (hop : op.Rooted root) :
    ∃ r root' m', op.exec root = some (r, root') ∧ op.OnMap m r m' ∧ IsMap root' m' := by
  obtain ⟨hinv, rfl⟩ := h
  cases op with
  | insert index item allocs =>
    obtain ⟨res, root', hrun, hinv', hspec⟩ := radixTreeInsert_spec hw hinv index item allocs
    refine ⟨.inserted res, root', radixTreeLookup root', ?_, ?_, hinv', rfl⟩
    · rw [exec, hrun, map_some]
    · cases res with
      | exist => exact ⟨by rw [radixTreeLookup_eq]; exact hspec.1, lookup_congr hspec.2⟩
      | nomem =>
        exact ⟨by rw [radixTreeLookup_eq]; exact hspec.1, hspec.2.2, lookup_congr hspec.2.1⟩
      | ok => exact ⟨by rw [radixTreeLookup_eq]; exact hspec.1, lookup_update hspec.2⟩
  | delete index =>
    obtain ⟨root', hrun, hinv', -, hat⟩ := radixTreeDelete_spec hinv index
    refine ⟨.item (root.at index.toNat).1, root', radixTreeLookup root', ?_, ?_, hinv', rfl⟩
    · rw [exec, hrun, map_some]
    · exact ⟨by rw [radixTreeLookup_eq], lookup_update hat⟩
  | lookup index => exact ⟨.item (radixTreeLookup root index), root, _, rfl, ⟨rfl, rfl⟩, hinv, rfl⟩
  | gangLookup firstIndex maxItems =>
    have hgang : radixTreeGangLookup root firstIndex maxItems =
        some ((valuesFrom (2 ^ 32) (fun j => (root.at j).1) firstIndex.toNat).take maxItems) := by
      by_cases hlook : maxItems = 0 ∨ radixTreeMaxindex w root.height < firstIndex.toNat
      · rw [radixTreeGangLookup_nothing hlook]
        rcases hlook with rfl | hlt
        · rw [take_zero]
        · rw [valuesFrom_skip firstIndex.isLt.le fun j hj _ =>
            congrArg Prod.fst (hinv.at_of_maxindex_lt (hlt.trans_le hj)), valuesFrom_of_le le_rfl,
            take_nil]
      · rw [not_or, Nat.not_lt] at hlook
        exact radixTreeGangLookup_spec hw' hinv (hop hlook.1 hlook.2) firstIndex maxItems
    refine ⟨.items _, root, radixTreeLookup root, ?_, ⟨rfl, rfl⟩, hinv, rfl⟩
    rw [exec, hgang, map_some, valuesFrom_at]

theorem RadixOp.rooted_of_exec {op : RadixOp α} {p : RadixResult α × RadixRoot w α}
    (h : op.exec root = some p) : op.Rooted root := by
  cases op with
  | gangLookup firstIndex maxItems =>
    intro hroom hle hheight hnode
    rw [exec, radixTreeGangLookup_null hheight hnode hroom hle] at h
    cases h
  | _ => trivial

theorem mapShift_pos : 0 < mapShift baseSmall := by
  cases baseSmall <;> decide

theorem mapShift_le : mapShift baseSmall ≤ 32 := by
  cases baseSmall <;> decide

theorem isMap_init : IsMap (init w α) fun _ => none := by
  refine ⟨rootInv_init, funext fun i => ?_⟩
  rw [radixTreeLookup_eq, at_init]

/-- **A radix tree is a finite map, for as long as no gang lookup finds a height without a node.** -/
theorem radix_tree_refines_map (baseSmall : Bool) (ops : List (RadixOp α)) :
    (∃ results root, run RadixOp.exec (init (mapShift baseSmall) α) ops = some (results, root) ∧
      Runs.Allows RadixOp.OnMap (fun _ => none) ops results (radixTreeLookup root)) ↔
      Runs.Along RadixOp.exec RadixOp.Rooted (init (mapShift baseSmall) α) ops := by
  constructor
  · rintro ⟨results, root, hrun, -⟩
    exact along_of_run (fun _ _ _ => RadixOp.rooted_of_exec) hrun
  · intro hops
    obtain ⟨results, root, m, hrun, hallows, -, rfl⟩ := run_refines
      (RadixOp.exec_spec (mapShift_pos baseSmall) (mapShift_le baseSmall)) isMap_init hops
    exact ⟨results, root, hrun, hallows⟩

/-- An insertion into an empty tree fails at its first allocation, and the height is left behind: a
gang lookup dereferences `NULL`. -/
theorem gang_lookup_after_failed_insert : (run RadixOp.exec (init (mapShift false) Unit)
      [.insert 1#32 () [false]]).isSome = true ∧
    run RadixOp.exec (init (mapShift false) Unit)
      [.insert 1#32 () [false], .gangLookup 0#32 1] = none :=
  ⟨rfl, rfl⟩

/-! ## Scans -/

/-- An insertion without a failing allocation, or a deletion. -/
def RadixOp.Stores : RadixOp α → Prop
  | .insert _ _ allocs => false ∉ allocs
  | .delete _ => True
  | _ => False

/-- A root with a height has a node. -/
def HasNode (root : RadixRoot w α) : Prop := 0 < root.height → root.rnode ≠ none

theorem hasNode_of_lookup (h : radixTreeLookup root index ≠ none) : HasNode root := by
  intro _ hnode
  apply h
  rw [radixTreeLookup, hnode]
  cases root.height <;> simp [lookupSlot]

theorem RadixOp.exec_stores (hw : 0 < w) (hw' : w ≤ 32) (root : RadixRoot w α) (m : BitVec 32 → Option α)
    (op : RadixOp α) (h : IsMap root m ∧ HasNode root) (hop : op.Stores) :
    ∃ r root' m', op.exec root = some (r, root') ∧ op.OnMap m r m' ∧ IsMap root' m' ∧ HasNode root' := by
  have hrooted : op.Rooted root := by
    cases op <;> trivial
  obtain ⟨r, root', m', hexec, hmap, hinv, rfl⟩ := RadixOp.exec_spec hw hw' root m op h.1 hrooted
  refine ⟨r, root', _, hexec, hmap, ⟨hinv, rfl⟩, ?_⟩
  cases op with
  | insert index item allocs =>
    -- whether it was there or not, the item is there now
    obtain ⟨⟨res, root₁⟩, -, heq⟩ := map_eq_some_iff.mp hexec
    obtain ⟨rfl, rfl⟩ := Prod.mk.inj heq
    have hitem : radixTreeLookup root₁ index ≠ none := by
      cases res with
      | ok => simp [hmap.2]
      | nomem => exact absurd hmap.2.1 hop
      | exist => exact hmap.2 ▸ hmap.1
    exact hasNode_of_lookup hitem
  | delete index =>
    obtain ⟨root₁, hdelete, -, hnone, -⟩ := radixTreeDelete_spec h.1.1 index
    rw [exec, hdelete, map_some] at hexec
    cases hexec
    intro hheight hnode
    rcases hnone hnode with rfl | rfl
    · exact h.2 hheight hnode
    · exact absurd hheight (Nat.lt_irrefl 0)
  | lookup | gangLookup => exact hop.elim

/-- **A gang lookup is a complete ascending scan** of what insertions and deletions have left in a tree, if
no allocation has failed. -/
theorem radix_gang_lookup_scans (baseSmall : Bool) {ops : List (RadixOp α)} (hops : ∀ op ∈ ops, op.Stores) :
    ∃ results root, run RadixOp.exec (init (mapShift baseSmall) α) ops = some (results, root) ∧
      Runs.Allows RadixOp.OnMap (fun _ => none) ops results (radixTreeLookup root) ∧
      ∀ firstIndex maxItems, radixTreeGangLookup root firstIndex maxItems =
        some ((valuesFrom (2 ^ 32) (fun j => radixTreeLookup root (BitVec.ofNat 32 j))
          firstIndex.toNat).take maxItems) := by
  have hw := mapShift_pos baseSmall
  have hw' := mapShift_le baseSmall
  obtain ⟨results, root, _, hrun, hallows, ⟨hinv, rfl⟩, hnode⟩ := run_refines
    (RadixOp.exec_stores hw hw') ⟨isMap_init, fun hheight => absurd hheight (Nat.lt_irrefl 0)⟩
    (along_of_forall hops _)
  refine ⟨results, root, hrun, hallows, fun firstIndex maxItems => ?_⟩
  obtain ⟨r, root', m', hexec, hspec, -⟩ := RadixOp.exec_spec hw hw' root _
    (.gangLookup firstIndex maxItems) ⟨hinv, rfl⟩ fun _ _ => hnode
  obtain ⟨items, hgang, heq⟩ := map_eq_some_iff.mp hexec
  cases heq
  rw [hgang, hspec.1]

/-- The highest index, and one that was deleted. -/
theorem radix_gang_lookup_scans_top : ∃ results root, run RadixOp.exec (init (mapShift false) Nat)
        [.insert 0xffffffff#32 7 [], .insert 3#32 8 [], .delete 3#32] = some (results, root) ∧
      radixTreeGangLookup root 3#32 2 =
        some ((valuesFrom (2 ^ 32) (fun j => radixTreeLookup root (BitVec.ofNat 32 j)) 3).take 2) := by
  have hops : ∀ op ∈ [.insert 0xffffffff#32 7 [], .insert 3#32 8 [], .delete 3#32], RadixOp.Stores op := by
    simp [RadixOp.Stores]
  obtain ⟨results, root, hrun, -, hscan⟩ := radix_gang_lookup_scans false hops
  exact ⟨results, root, hrun, hscan 3#32 2⟩

/-! ## Tags -/

/-- The operations on tagged items; no allocation fails. -/
inductive TagOp (α : Type) where
  | insert (index : BitVec 32) (item : α)
  | delete (index : BitVec 32)
  | tagSet (index : BitVec 32) (tag : Tag)
  | tagClear (index : BitVec 32) (tag : Tag)

def TagOp.exec (root : RadixRoot w α) : TagOp α → Option (Unit × RadixRoot w α)
  | .insert index item => (radixTreeInsert root index item []).map fun p => ((), p.2)
  | .delete index => (radixTreeDelete root index).map fun p => ((), p.2)
  | .tagSet index tag => (radixTreeTagSet root index tag).map fun p => ((), p.2)
  | .tagClear index tag => some ((), (radixTreeTagClear root index tag).2)

/-- A map from indices to items with their tags. -/
abbrev TagMap (α : Type) := BitVec 32 → Option (α × (Tag → Bool))

/-- **What an operation does to the items and their tags:** a new item has none. -/
def TagOp.onMap (m : TagMap α) : TagOp α → TagMap α
  | .insert index item =>
    if (m index).isSome then m else update m index (some (item, noTags))
  | .delete index => update m index none
  | .tagSet index tag =>
    update m index ((m index).map fun e => (e.1, update e.2 tag true))
  | .tagClear index tag =>
    update m index ((m index).map fun e => (e.1, update e.2 tag false))

/-- A tag is set on a present item. -/
def TagOp.OnPresent (root : RadixRoot w α) : TagOp α → Prop
  | .tagSet index _ => (radixTreeLookup root index).isSome = true
  | _ => True

/-- An item with its tags, as the tree has it. -/
def entryOf : Option (α × (Tag → Bool)) → Option α × (Tag → Bool)
  | none => (none, noTags)
  | some e => (some e.1, e.2)

/-- Some item of a range of indices has a tag. -/
def TaggedIn (m : TagMap α) (tag : Tag) (range : Nat → Prop) : Prop :=
  ∃ index e, range index.toNat ∧ m index = some e ∧ e.2 tag = true

/-- The bits of a pointer are set exactly when an item below it has the tag. The indices below the
pointer are those whose digits above height `h` are `above`. -/
def BitsExact (w : Nat) (m : TagMap α) (h above : Nat) (bits : Tag → Bool) : Prop :=
  ∀ tag, bits tag = true ↔ TaggedIn m tag fun j => j / 2 ^ (w * h) = above

/-- **Exact bits**, of a pointer and of every pointer in the nodes below it. -/
def TagsExact (m : TagMap α) : (h : Nat) → Nat → Option (RadixSub w α h) → (Tag → Bool) → Prop
  | 0, above, _, bits => BitsExact w m 0 above bits
  | h + 1, above, none, bits => BitsExact w m (h + 1) above bits
  | h + 1, above, some n, bits => BitsExact w m (h + 1) above bits ∧
    ∀ i, TagsExact m h (above * 2 ^ w + i.val) (n.slots i) (tagNote n.data i)

variable {m : TagMap α}

theorem TagsExact.bits {h above : Nat} {slot : Option (RadixSub w α h)}
    {bits : Tag → Bool} (hexact : TagsExact m h above slot bits) : BitsExact w m h above bits := by
  cases h with
  | zero => exact hexact
  | succ h =>
    cases slot with
    | none => exact hexact
    | some n => exact hexact.1

/-- A root and the items and tags it has. -/
def IsTagMap (root : RadixRoot w α) (m : TagMap α) : Prop :=
  RootInv root ∧ ∀ index, root.at index.toNat = entryOf (m index)

theorem entryOf_eq_none {e : Option (α × (Tag → Bool))} : (entryOf e).1 = none ↔ e = none := by
  cases e with
  | none => exact ⟨fun _ => rfl, fun _ => rfl⟩
  | some e => exact ⟨fun h => absurd h (some_ne_none _), fun h => absurd h (some_ne_none _)⟩

theorem IsTagMap.update {v : Option (α × (Tag → Bool))} (h : IsTagMap root m) (hinv : RootInv root')
    (hat : root'.at = update root.at index.toNat (entryOf v)) : IsTagMap root' (update m index v) := by
  refine ⟨hinv, fun i => ?_⟩
  rw [hat]
  rcases eq_or_ne i index with rfl | hne
  · rw [update_self, update_self]
  · rw [update_of_ne hne, update_of_ne fun h => hne (BitVec.eq_of_toNat_eq h), h.2 i]

theorem entryOf_map (e : Option (α × (Tag → Bool))) (tag : Tag) (b : Bool) (h : e = none → b = false) :
    ((entryOf e).1, update (entryOf e).2 tag b) = entryOf (e.map fun e => (e.1, update e.2 tag b)) := by
  cases e with
  | none =>
    rw [h rfl]
    exact congrArg (Prod.mk none) (update_eq_self tag noTags)
  | some e => rfl

theorem TagOp.exec_spec (hw : 0 < w) (root : RadixRoot w α) (m : TagMap α) (op : TagOp α)
    (h : IsTagMap root m) (hop : op.OnPresent root) :
    ∃ r root' m', op.exec root = some (r, root') ∧ m' = op.onMap m ∧ IsTagMap root' m' := by
  cases op with
  | insert index item =>
    obtain ⟨res, root', hrun, hinv', hspec⟩ := radixTreeInsert_spec hw h.1 index item []
    refine ⟨(), root', _, by rw [exec, hrun, map_some], rfl, ?_⟩
    rw [onMap]
    cases res with
    | exist =>
      have hpresent := hspec.1
      rw [h.2 index, Ne, entryOf_eq_none] at hpresent
      rw [if_pos (isSome_iff_ne_none.mpr hpresent)]
      exact ⟨hinv', fun i => by rw [hspec.2, h.2 i]⟩
    | nomem => exact absurd hspec.2.2 not_mem_nil
    | ok =>
      have hfree := hspec.1
      rw [h.2 index, entryOf_eq_none] at hfree
      rw [hfree, if_neg (by simp)]
      exact h.update hinv' hspec.2
  | delete index =>
    obtain ⟨root', hrun, hinv', -, hat⟩ := radixTreeDelete_spec h.1 index
    exact ⟨(), root', _, by rw [exec, hrun, map_some], rfl, h.update hinv' hat⟩
  | tagSet index tag =>
    have hitem : (root.at index.toNat).1 ≠ none := by
      rw [← radixTreeLookup_eq]
      exact isSome_iff_ne_none.mp hop
    obtain ⟨root', hrun, hinv', -, hat⟩ := radixTreeTagSet_spec h.1 tag hitem
    refine ⟨(), root', _, by rw [exec, hrun, map_some], rfl, h.update hinv' ?_⟩
    rw [h.2 index] at hitem hat
    rw [hat, entryOf_map _ _ _ fun hnone => absurd (entryOf_eq_none.mpr hnone) hitem]
  | tagClear index tag =>
    obtain ⟨root', hrun, hinv', -, hat⟩ := radixTreeTagClear_spec h.1 index tag
    refine ⟨(), root', _, by rw [exec, hrun], rfl, h.update hinv' ?_⟩
    rw [h.2 index] at hat
    rw [hat, entryOf_map _ _ _ fun _ => rfl]

theorem IsTagMap.taggedIn_iff (h : IsTagMap root m) (tag : Tag) (range : Nat → Prop) :
    TaggedIn m tag range ↔ ∃ j, range j ∧ (root.at j).1 ≠ none ∧ (root.at j).2 tag = true := by
  constructor
  · rintro ⟨index, e, hrange, he, htag⟩
    refine ⟨index.toNat, hrange, ?_, ?_⟩
    · rw [h.2 index, he]
      exact some_ne_none _
    · rw [h.2 index, he]
      exact htag
  · rintro ⟨j, hrange, hitem, htag⟩
    have hlt : j < 2 ^ 32 := Nat.lt_of_not_le fun hle => hitem (by rw [h.1.range j hle])
    have hat := h.2 (BitVec.ofNat 32 j)
    rw [toNat_ofNat_of_lt hlt] at hat
    cases he : m (BitVec.ofNat 32 j) with
    | none =>
      rw [hat, he] at hitem
      exact absurd rfl hitem
    | some e =>
      rw [hat, he] at htag
      exact ⟨BitVec.ofNat 32 j, e, by rw [toNat_ofNat_of_lt hlt]; exact hrange, he, htag⟩

section Exact

variable {m : TagMap α} {items : Nat → Option α × (Tag → Bool)} {h above : Nat}
  {slot : Option (RadixSub w α h)} {bits : Tag → Bool}
  (hitems : ∀ tag range, TaggedIn m tag range ↔ ∃ j, range j ∧ (items j).1 ≠ none ∧ (items j).2 tag = true)
  (hs : Sound h slot bits) (hbelow : ∀ j, j / 2 ^ (w * h) = above → items j = entry h slot bits j)
include hitems hs hbelow

theorem Sound.bits_exact : BitsExact w m h above bits := by
  intro tag
  rw [hs.bit_iff tag, hitems]
  constructor
  · rintro ⟨idx, hitem, htag⟩
    -- the same item, with the digits above the pointer
    have hlow := Nat.mod_lt idx (Nat.two_pow_pos (w * h))
    have habove : (idx % 2 ^ (w * h) + 2 ^ (w * h) * above) / 2 ^ (w * h) = above := by
      rw [Nat.add_mul_div_left _ _ (Nat.two_pow_pos _), Nat.div_eq_of_lt hlow, Nat.zero_add]
    have heq : items (idx % 2 ^ (w * h) + 2 ^ (w * h) * above) = entry h slot bits idx := by
      rw [hbelow _ habove]
      exact leaf_congr (by rw [Nat.add_mul_mod_self_left, Nat.mod_mod]) _ _
    rw [← heq] at hitem htag
    exact ⟨_, habove, hitem, htag⟩
  · rintro ⟨j, habove, hitem, htag⟩
    rw [hbelow j habove] at hitem htag
    exact ⟨j, hitem, htag⟩

/-- **Sound nodes have exact bits.** -/
theorem Sound.tagsExact : TagsExact m h above slot bits := by
  induction h generalizing above bits with
  | zero => exact hs.bits_exact hitems hbelow
  | succ h ih =>
    cases slot with
    | none => exact hs.bits_exact hitems hbelow
    | some n =>
      refine ⟨hs.bits_exact hitems hbelow, fun i => ih (hs.2.2 i) fun j hj => ?_⟩
      have habove : j / 2 ^ (w * (h + 1)) = above := by
        rw [two_pow_succ, ← Nat.div_div_eq_div_mul, hj, Nat.mul_comm,
          Nat.mul_add_div (Nat.two_pow_pos w), Nat.div_eq_of_lt i.isLt, Nat.add_zero]
      have hdigit : digit w h j = i := by
        refine Fin.ext ?_
        show j / 2 ^ (w * h) % 2 ^ w = i.val
        rw [hj, Nat.mul_comm, Nat.mul_add_mod, Nat.mod_eq_of_lt i.isLt]
      rw [hbelow j habove, entry, leaf_some, hdigit]

end Exact

theorem IsTagMap.tagsExact (h : IsTagMap root m) : TagsExact m root.height 0 root.rnode root.tags := by
  refine h.1.sound.tagsExact h.taggedIn_iff fun j hj => at_of_lt ?_
  rcases Nat.div_eq_zero_iff.mp hj with hzero | hlt
  · exact absurd hzero (Nat.two_pow_pos _).ne'
  · exact hlt

/-- `radix_tree_tagged` looks at the bit of the root. -/
theorem IsTagMap.radixTreeTagged_iff (h : IsTagMap root m) (tag : Tag) :
    radixTreeTagged root tag = true ↔ ∃ index e, m index = some e ∧ e.2 tag = true := by
  rw [radixTreeTagged, h.tagsExact.bits tag]
  constructor
  · rintro ⟨index, e, -, he, htag⟩
    exact ⟨index, e, he, htag⟩
  · rintro ⟨index, e, he, htag⟩
    refine ⟨index, e, Nat.div_eq_of_lt (Nat.lt_of_not_le fun hle => ?_), he, htag⟩
    have hat := h.2 index
    rw [at_of_le hle, he] at hat
    cases hat

theorem IsTagMap.gangLookupTag (hw : w ≤ 32) (h : IsTagMap root m) (firstIndex : BitVec 32)
    (maxItems : Nat) (tag : Tag) : radixTreeGangLookupTag root firstIndex maxItems tag =
      some ((valuesFrom (2 ^ 32) (fun j => taggedItem tag (entryOf (m (BitVec.ofNat 32 j))))
        firstIndex.toNat).take maxItems) := by
  rw [radixTreeGangLookupTag_spec hw h.1]
  congr 2
  refine valuesFrom_congr fun j hlt => ?_
  rw [← h.2, toNat_ofNat_of_lt hlt]

/-- **Tags are exact summaries** after every run in which tags are set on present items: the tree has
the items and tags that its history says, every bit of it is exact, and so are the two operations
that read the bits. -/
theorem radix_tree_tags_exact (baseSmall : Bool) (ops : List (TagOp α))
    (hops : Runs.Along TagOp.exec TagOp.OnPresent (init (mapShift baseSmall) α) ops) :
    ∃ results root, run TagOp.exec (init (mapShift baseSmall) α) ops = some (results, root) ∧
      (∀ index, root.at index.toNat = entryOf (ops.foldl TagOp.onMap (fun _ => none) index)) ∧
      TagsExact (ops.foldl TagOp.onMap fun _ => none) root.height 0 root.rnode root.tags ∧
      (∀ tag, radixTreeTagged root tag = true ↔
        ∃ index e, ops.foldl TagOp.onMap (fun _ => none) index = some e ∧ e.2 tag = true) ∧
      ∀ firstIndex maxItems tag, radixTreeGangLookupTag root firstIndex maxItems tag =
        some ((valuesFrom (2 ^ 32) (fun j => taggedItem tag (entryOf
          (ops.foldl TagOp.onMap (fun _ => none) (BitVec.ofNat 32 j)))) firstIndex.toNat).take
            maxItems) := by
  have hinit : IsTagMap (init (mapShift baseSmall) α) fun _ => none :=
    ⟨rootInv_init, fun index => at_init index.toNat⟩
  obtain ⟨results, root, m, hrun, hallows, hmap⟩ := run_refines
    (S := fun m op _ m' => m' = TagOp.onMap m op) (TagOp.exec_spec (mapShift_pos baseSmall))
    hinit hops
  obtain rfl := hallows.eq_foldl
  exact ⟨results, root, hrun, hmap.2, hmap.tagsExact, hmap.radixTreeTagged_iff,
    hmap.gangLookupTag (mapShift_le baseSmall)⟩

/-- Three items, each too far for the root as it was, of which the second is tagged. -/
def taggedOps : List (TagOp Nat) :=
  [.insert 3#32 7, .insert 70#32 8, .insert 5000#32 9, .tagSet 70#32 ⟨1, by decide⟩]

theorem radix_tree_tags_exact_sample : ∃ results root,
    run TagOp.exec (init (mapShift false) Nat) taggedOps = some (results, root) ∧
      root.at 5000 = (some 9, noTags) ∧ radixTreeTagged root 1 = true := by
  have hops : Along TagOp.exec TagOp.OnPresent (init (mapShift false) Nat) taggedOps := by
    refine ⟨trivial, fun p hp => ?_⟩
    cases hp
    refine ⟨trivial, fun p hp => ?_⟩
    cases hp
    refine ⟨trivial, fun p hp => ?_⟩
    cases hp
    exact ⟨rfl, fun _ _ => trivial⟩
  obtain ⟨results, root, hrun, hat, -, htagged, -⟩ := radix_tree_tags_exact false taggedOps hops
  exact ⟨results, root, hrun, hat 5000#32, (htagged 1).mpr ⟨70#32, (8, update noTags 1 true), rfl, rfl⟩⟩

end Linux
