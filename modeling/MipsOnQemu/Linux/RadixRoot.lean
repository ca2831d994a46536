/-
# MipsOnQemu.Linux.RadixRoot -- the operations on a radix tree

`RadixRoot.at` reads a root as a map from indices to tagged items. Growing and shrinking the tree do
not change it; an insertion, a deletion and the two operations on tags change it at their index only.
An insertion whose allocation fails may leave more levels, nodes without items, or a height without
a node behind, and the map is as it was.
-/

import MipsOnQemu.Linux.RadixMap

namespace Linux

open Nat hiding two_pow_succ

open DigitTrie Function Option RadixRoot

variable {w : Nat} {α : Type}

/-! ## Roots as maps -/

/-- **The item at an index, and its tags.** -/
def RadixRoot.at (root : RadixRoot w α) (idx : Nat) : Option α × (Tag → Bool) :=
  if idx < 2 ^ (w * root.height) then entry root.height root.rnode root.tags idx else (none, noTags)

/-- **What holds of every root.** The last says that no shift is by the width of an index. -/
structure RootInv (root : RadixRoot w α) : Prop where
  sound : Sound root.height root.rnode root.tags
  range : ∀ idx, 2 ^ 32 ≤ idx → root.at idx = (none, noTags)
  low : root.height * w < 32 + w

variable {idx h : Nat} {root : RadixRoot w α} {tags : Tag → Bool} {index : BitVec 32}

variable {r : RadixRoot w α}

theorem RadixRoot.at_of_lt (h : idx < 2 ^ (w * r.height)) :
    r.at idx = entry r.height r.rnode r.tags idx := if_pos h

theorem RadixRoot.at_of_le (h : 2 ^ (w * r.height) ≤ idx) : r.at idx = (none, noTags) := if_neg (not_lt.mpr h)

theorem RadixRoot.lt_of_item (h : (r.at idx).1 ≠ none) : idx < 2 ^ (w * r.height) :=
  Nat.lt_of_not_le fun hle => h (by rw [at_of_le hle])

theorem rootInv_init : RootInv (init w α) := by
  refine ⟨fun _ => rfl, fun idx hidx => ?_, ?_⟩
  · refine at_of_le ?_
    show 2 ^ (w * 0) ≤ idx
    rw [mul_zero, pow_zero]
    exact Nat.one_le_two_pow.trans hidx
  · show 0 * w < 32 + w
    omega

theorem at_empty (h idx : Nat) : (⟨h, noTags, none⟩ : RadixRoot w α).at idx = (none, noTags) := by
  rw [RadixRoot.at]
  split
  · exact entry_none h idx
  · rfl

theorem at_init (idx : Nat) : (init w α).at idx = (none, noTags) := at_empty 0 idx

theorem radixTreeLookup_eq (root : RadixRoot w α) (index : BitVec 32) :
    radixTreeLookup root index = (root.at index.toNat).1 := by
  rw [radixTreeLookup]
  by_cases h : 2 ^ (w * root.height) ≤ index.toNat
  · rw [if_pos (maxindex_lt_iff.mpr h), at_of_le h]
  · rw [if_neg (maxindex_lt_iff.not.mpr h), at_of_lt (not_le.mp h)]
    exact lookupSlot_eq index root.rnode root.tags

/-- An operation sees at once that there is no item. -/
theorem RadixRoot.lookup_none (hnone : (r.at index.toNat).1 = none) :
    radixTreeMaxindex w r.height < index.toNat ∨ lookupSlot index r.height r.rnode = none := by
  refine or_iff_not_imp_left.mpr fun hmax => ?_
  rw [lookupSlot_eq index _ r.tags, ← at_of_lt (not_le.mp (maxindex_lt_iff.not.mp hmax)), hnone]

theorem RadixRoot.lookup_some {item : α} (hitem : (r.at index.toNat).1 = some item) :
    index.toNat < 2 ^ (w * r.height) ∧ ¬ radixTreeMaxindex w r.height < index.toNat ∧
      lookupSlot index r.height r.rnode = some item := by
  have hindex := lt_of_item (hitem ▸ some_ne_none item)
  refine ⟨hindex, maxindex_lt_iff.not.mpr (not_le.mpr hindex), ?_⟩
  rw [lookupSlot_eq index _ r.tags, ← at_of_lt hindex, hitem]

theorem RootInv.at_of_none (h : RootInv root) (hnone : (root.at idx).1 = none) :
    root.at idx = (none, noTags) := by
  by_cases hidx : idx < 2 ^ (w * root.height)
  · rw [at_of_lt hidx] at hnone ⊢
    exact h.sound.tags_of_none hnone
  · exact at_of_le (not_lt.mp hidx)

theorem at_update {rnode : Option (RadixSub w α root.height)} {v : Option α × (Tag → Bool)}
    (hindex : index.toNat < 2 ^ (w * root.height)) (h : ∀ j, entry root.height rnode tags j =
      if j % 2 ^ (w * root.height) = index.toNat % 2 ^ (w * root.height) then v
      else entry root.height root.rnode root.tags j) :
    (⟨root.height, tags, rnode⟩ : RadixRoot w α).at = update root.at index.toNat v := by
  funext j
  by_cases hj : j < 2 ^ (w * root.height)
  · rw [at_of_lt (r := ⟨root.height, tags, rnode⟩) hj, h j, mod_eq_of_lt hj, mod_eq_of_lt hindex]
    rcases eq_or_ne j index.toNat with rfl | hne
    · rw [if_pos rfl, update_self]
    · rw [if_neg hne, update_of_ne hne, at_of_lt hj]
  · have hne : j ≠ index.toNat := by omega
    rw [at_of_le (r := ⟨root.height, tags, rnode⟩) (not_lt.mp hj),
      update_of_ne hne, at_of_le (not_lt.mp hj)]

theorem RootInv.update {root' : RadixRoot w α} (h : RootInv root) {v : Option α × (Tag → Bool)}
    (hsound : Sound root'.height root'.rnode root'.tags) (hheight : root'.height ≤ root.height)
    (hat : root'.at = update root.at index.toNat v) : RootInv root' := by
  refine ⟨hsound, fun idx hidx => ?_, (mul_le_mul_right w hheight).trans_lt h.low⟩
  have hindex := index.isLt
  rw [hat, update_of_ne (by omega)]
  exact h.range idx hidx

/-! ## Growing and shrinking -/

theorem digit_eq_zero_iff (hidx : idx < 2 ^ (w * (h + 1))) : digit w h idx = slot0 ↔ idx < 2 ^ (w * h) := by
  have hlt : idx / 2 ^ (w * h) < 2 ^ w := by
    rw [Nat.div_lt_iff_lt_mul (Nat.two_pow_pos _), Nat.mul_comm, ← two_pow_succ]
    exact hidx
  rw [Fin.ext_iff]
  show idx / 2 ^ (w * h) % 2 ^ w = 0 ↔ _
  rw [Nat.mod_eq_of_lt hlt, Nat.div_eq_zero_iff]
  have hpos := Nat.two_pow_pos (w * h)
  omega

theorem at_raise {n : RadixNode w (RadixSub w α h)}
    (hother : ∀ i, i ≠ slot0 → n.slots i = none ∧ tagNote n.data i = noTags)
    (hbits : tagNote n.data slot0 = tags) : (⟨h + 1, tags, some n⟩ : RadixRoot w α).at =
      (⟨h, tags, n.slots slot0⟩ : RadixRoot w α).at := by
  funext idx
  have hmono : 2 ^ (w * h) ≤ 2 ^ (w * (h + 1)) :=
    Nat.pow_le_pow_right (by omega) (Nat.mul_le_mul_left w (Nat.le_succ h))
  by_cases hidx : idx < 2 ^ (w * (h + 1))
  · rw [at_of_lt (r := ⟨h + 1, tags, some n⟩) hidx, entry, leaf_some]
    by_cases hlow : idx < 2 ^ (w * h)
    · rw [(digit_eq_zero_iff hidx).mpr hlow, hbits]
      exact (at_of_lt
        (r := ⟨h, tags, n.slots slot0⟩) hlow).symm
    · obtain ⟨hslot, hnote⟩ := hother _ fun hd => hlow ((digit_eq_zero_iff hidx).mp hd)
      rw [hslot, hnote, leaf_none]
      exact (at_of_le (r := ⟨h, tags, n.slots slot0⟩)
        (not_lt.mp hlow)).symm
  · rw [at_of_le (r := ⟨h + 1, tags, some n⟩) (not_lt.mp hidx)]
    exact (at_of_le (r := ⟨h, tags, n.slots slot0⟩)
      (hmono.trans (not_lt.mp hidx))).symm

theorem tagNote_raisedNode (tags : Tag → Bool) {β : Type} (rnode : Option β) :
    tagNote (raisedNode (w := w) tags rnode).data slot0 = tags := by
  funext tag
  simp [tagNote, raisedNode]

theorem raisedNode_of_ne (tags : Tag → Bool) {β : Type} (rnode : Option β) {i : Fin (2 ^ w)}
    (hi : i ≠ slot0) : (raisedNode tags rnode).slots i = none ∧
      tagNote (raisedNode tags rnode).data i = noTags := by
  refine ⟨by simp [raisedNode, hi], ?_⟩
  funext tag
  simp [tagNote, raisedNode, noTags, hi]

/-- **One more level changes nothing in the map.** -/
theorem growRoot_spec (h : RootInv root) (hnode : root.rnode ≠ none) (hlow : (root.height + 1) * w < 32 + w) :
    RootInv (growRoot root) ∧ (growRoot root).at = root.at := by
  obtain ⟨c, hc⟩ := ne_none_iff_exists'.mp hnode
  have hslot : (raisedNode root.tags root.rnode : RadixNode w _).slots slot0 = root.rnode := by
    simp [raisedNode]
  have hzero := tagNote_raisedNode (w := w) root.tags root.rnode
  have hat : (growRoot root).at = root.at := by
    refine (at_raise (fun i hi => raisedNode_of_ne root.tags root.rnode hi) hzero).trans ?_
    rw [hslot]
  refine ⟨⟨⟨?_, fun tag => ?_, fun i => ?_⟩, fun idx hidx => ?_, hlow⟩, hat⟩
  · show 1 = occupied (update (fun _ => none) slot0 root.rnode)
    rw [hc, occupied_update_free rfl, occupied_none]
  · constructor
    · exact fun hbit => ⟨slot0, (congrFun hzero tag).trans hbit⟩
    · rintro ⟨i, hi⟩
      exact (Bool.and_eq_true_iff.mp hi).1
  · by_cases hi : i = slot0
    · rw [hi, hslot, hzero]
      exact h.sound
    · obtain ⟨hfree, hnote⟩ := raisedNode_of_ne root.tags root.rnode hi
      rw [hfree, hnote]
      exact sound_none.mpr rfl
  · rw [hat]
    exact h.range idx hidx

/-- The levels that `radix_tree_extend` adds. -/
theorem extendLoop_spec (k : Nat) (h : RootInv root) (hnode : root.rnode ≠ none)
    (hlow : (root.height + k) * w < 32 + w) (allocs : List Bool) :
    ∃ ok root' rest, extendLoop k root allocs = (ok, root', rest) ∧ RootInv root' ∧
      root'.at = root.at ∧ root'.rnode ≠ none ∧ (ok = true → root'.height = root.height + k) ∧
      (ok = false → false ∈ allocs) ∧ (false ∈ rest → false ∈ allocs) := by
  induction k generalizing root allocs with
  | zero => exact ⟨true, root, allocs, rfl, h, rfl, hnode, fun _ => rfl, Bool.noConfusion, fun h => h⟩
  | succ k ih =>
    cases hhead : allocs.headD true with
    | false =>
      exact ⟨false, root, allocs.tail, by rw [extendLoop, hhead]; rfl, h, rfl, hnode,
        Bool.noConfusion, fun _ => false_mem_of_headD hhead, List.mem_of_mem_tail⟩
    | true =>
      have hstep : root.height + 1 + k = root.height + (k + 1) := by omega
      have hle : (root.height + 1) * w ≤ (root.height + (k + 1)) * w :=
        mul_le_mul_right w (by omega)
      obtain ⟨hgrow, hat⟩ := growRoot_spec h hnode (hle.trans_lt hlow)
      obtain ⟨ok, root', rest, hres, hinv, hat', hnode', hheight, hfail, hrest⟩ :=
        ih hgrow (some_ne_none _) (by rw [← hstep] at hlow; exact hlow) allocs.tail
      refine ⟨ok, root', rest, by rw [extendLoop, hhead]; exact hres, hinv, hat'.trans hat, hnode',
        fun hok => ?_, fun hok => List.mem_of_mem_tail (hfail hok),
        fun hmem => List.mem_of_mem_tail (hrest hmem)⟩
      rw [hheight hok]
      exact hstep

theorem lt_of_maxindex_lt (hmax : radixTreeMaxindex w h < index.toNat) : h * w < 32 := by
  have hlt : 2 ^ (w * h) < 2 ^ 32 := (maxindex_lt_iff.mp hmax).trans_lt index.isLt
  rw [mul_comm]
  exact (Nat.pow_lt_pow_iff_right (by omega)).mp hlt

theorem heightFor_spec (index : BitVec 32) (fuel height : Nat) :
    height ≤ heightFor w index fuel height ∧ (32 ≤ w * (height + fuel) →
      index.toNat < 2 ^ (w * heightFor w index fuel height)) ∧
      (height * w < 32 + w → heightFor w index fuel height * w < 32 + w) := by
  induction fuel generalizing height with
  | zero =>
    refine ⟨le_rfl, fun hle => ?_, fun h => h⟩
    exact index.isLt.trans_le (Nat.pow_le_pow_right (by omega) hle)
  | succ fuel ih =>
    rw [heightFor]
    split
    · rename_i hmax
      obtain ⟨hle, hlt, hlow⟩ := ih (height + 1)
      refine ⟨(le_succ height).trans hle, fun h => hlt ?_, fun _ => hlow ?_⟩
      · rwa [add_right_comm, add_assoc]
      · have hbits := lt_of_maxindex_lt hmax
        rw [succ_mul]
        omega
    · rename_i hmax
      exact ⟨le_rfl, fun _ => not_le.mp (maxindex_lt_iff.not.mp hmax), fun h => h⟩

theorem radixTreeExtend_spec (hw : 0 < w) (h : RootInv root)
    (hmax : radixTreeMaxindex w root.height < index.toNat) (allocs : List Bool) :
    ∃ ok root' rest, radixTreeExtend root index allocs = (ok, root', rest) ∧ RootInv root' ∧
      root'.at = root.at ∧ (ok = true → index.toNat < 2 ^ (w * root'.height)) ∧
      (ok = false → false ∈ allocs) ∧ (false ∈ rest → false ∈ allocs) := by
  obtain ⟨hle, hlt, hlow⟩ := heightFor_spec (w := w) index (32 / w + 2) (root.height + 1)
  replace hlow := hlow (by
    have hbits := lt_of_maxindex_lt hmax
    rw [succ_mul]
    omega)
  have hheight : index.toNat < 2 ^ (w * heightFor w index (32 / w + 2) (root.height + 1)) := by
    refine hlt ?_
    have hdiv : 32 < w * (32 / w + 1) := lt_mul_div_succ 32 hw
    refine hdiv.le.trans (mul_le_mul_left w ?_)
    omega
  generalize hH : heightFor w index (32 / w + 2) (root.height + 1) = H at hle hheight hlow
  cases hnode : root.rnode with
  | none =>
    obtain ⟨height, tags, rnode⟩ := root
    obtain rfl : rnode = none := hnode
    obtain rfl : tags = noTags := sound_none.mp h.sound
    subst hH
    refine ⟨true, _, allocs, rfl, ⟨sound_none.mpr rfl, fun idx _ => at_empty _ idx, hlow⟩, funext fun idx => ?_,
      fun _ => hheight, Bool.noConfusion, fun h => h⟩
    rw [at_empty, at_empty]
  | some c =>
    have hne : root.rnode ≠ none := by
      rw [hnode]
      exact some_ne_none c
    have hsum : root.height + (H - root.height) = H := by omega
    obtain ⟨ok, root', rest, hres, hinv, hat, -, hheight', hfail, hrest⟩ :=
      extendLoop_spec (H - root.height) h hne (by rw [hsum]; exact hlow) allocs
    refine ⟨ok, root', rest, ?_, hinv, hat, fun hok => ?_, hfail, hrest⟩
    · simp only [radixTreeExtend, hnode, hH]
      exact hres
    · rw [hheight' hok, hsum]
      exact hheight

/-- **`radix_tree_shrink` changes nothing in the map.** -/
theorem radixTreeShrink_spec {slot : Option (RadixSub w α h)} (hs : Sound h slot tags) (hslot : slot ≠ none) :
    ∃ root', radixTreeShrink tags h slot = some root' ∧ Sound root'.height root'.rnode root'.tags ∧
      root'.height ≤ h ∧ root'.rnode ≠ none ∧ root'.at = (⟨h, tags, slot⟩ : RadixRoot w α).at := by
  induction h with
  | zero => exact ⟨⟨0, tags, slot⟩, rfl, hs, le_rfl, hslot, rfl⟩
  | succ h ih =>
    cases slot with
    | none => exact absurd rfl hslot
    | some n =>
      by_cases hone : n.data.count = 1 ∧ (n.slots slot0).isSome
      · have hused := isSome_iff_ne_none.mp hone.2
        have hother : ∀ i, i ≠ slot0 → n.slots i = none ∧ tagNote n.data i = noTags := by
          intro i hi
          have hfree := eq_none_of_occupied_eq_one (hs.1.symm.trans hone.1) hused hi
          have hsound := hs.2.2 i
          rw [hfree] at hsound
          exact ⟨hfree, sound_none.mp hsound⟩
        have hbits : tagNote n.data slot0 = tags := by
          funext tag
          refine Bool.eq_iff_iff.mpr ?_
          rw [hs.2.1 tag]
          constructor
          · exact fun hbit => ⟨_, hbit⟩
          · rintro ⟨i, hi⟩
            by_cases hz : i = slot0
            · rw [← hz]
              exact hi
            · have hbit := congrFun (hother i hz).2 tag
              rw [show tagNote n.data i tag = true from hi] at hbit
              cases hbit
        have hsound : Sound h (n.slots slot0) tags := hbits ▸ hs.2.2 _
        obtain ⟨root', hres, hsound', hle, hnode', hat'⟩ := ih hsound hused
        have hfree : radixTreeNodeFree (dropSlot slot0
            (tagClear 1 slot0 (tagClear 0 slot0 n))) = some () := by
          refine if_pos ⟨?_, fun i => ?_, fun tag => anyTagSet_eq_false.mpr fun i => ?_⟩
          · show n.data.count - 1 = 0
            rw [hone.1]
          · rw [slots_dropSlot, slots_tagClear, slots_tagClear]
            by_cases hi : i = slot0
            · rw [hi, update_self]
              rfl
            · rw [update_of_ne hi, (hother i hi).1]
              rfl
          · show tagNote (tagClear 1 slot0 (tagClear 0 slot0 n)).data i tag = false
            rw [tagNote_tagClear, tagNote_tagClear]
            by_cases hi : i = slot0
            · rw [hi, update_self, update_self]
              revert tag
              exact Fin.forall_fin_two.mpr ⟨by simp, by simp⟩
            · rw [update_of_ne hi, update_of_ne hi, (hother i hi).2]
              rfl
        refine ⟨root', ?_, hsound', hle.trans (le_succ h), hnode',
          hat'.trans (at_raise hother hbits).symm⟩
        simp only [radixTreeShrink, hone, hfree, and_self, if_true, bind_eq_bind, bind_some]
        exact hres
      · exact ⟨⟨h + 1, tags, some n⟩, by simp only [radixTreeShrink, hone, if_false], hs, le_rfl,
          hslot, rfl⟩

/-! ## The operations -/

/-- What `radix_tree_insert` may return, and what it does to the map. -/
def RootInsertSpec (index : BitVec 32) (item : α) (allocs : List Bool)
    (old new : Nat → Option α × (Tag → Bool)) : InsertResult → Prop
  | .exist => (old index.toNat).1 ≠ none ∧ new = old
  | .nomem => (old index.toNat).1 = none ∧ new = old ∧ false ∈ allocs
  | .ok => (old index.toNat).1 = none ∧ new = Function.update old index.toNat (some item, noTags)

theorem entry_snd_of_zero (hzero : h = 0) (slot : Option (RadixSub w α h)) (bits : Tag → Bool) (idx : Nat) :
    (entry h slot bits idx).2 = bits := by
  subst hzero
  rfl

theorem insertSlot_root (h : RootInv root) (hindex : index.toNat < 2 ^ (w * root.height)) (item : α)
    (allocs : List Bool) :
    ∃ res rnode, insertSlot index item root.height root.rnode allocs = some (res, rnode) ∧
      RootInv ⟨root.height, root.tags, rnode⟩ ∧ RootInsertSpec index item allocs root.at
        (⟨root.height, root.tags, rnode⟩ : RadixRoot w α).at res := by
  obtain ⟨res, rnode, hres, hsound, -, hspec⟩ := insertSlot_spec index item h.sound allocs
  have hold : root.at index.toNat = entry root.height root.rnode root.tags index.toNat :=
    at_of_lt hindex
  have hsame : entry root.height rnode root.tags = entry root.height root.rnode root.tags →
      (⟨root.height, root.tags, rnode⟩ : RadixRoot w α).at = root.at := by
    intro heq
    funext idx
    show (if _ then entry root.height rnode root.tags idx else _) = _
    rw [heq]
    rfl
  refine ⟨res, rnode, hres, ?_⟩
  cases res with
  | exist =>
    have hat := hsame hspec.2
    exact ⟨⟨hsound, hat ▸ h.range, h.low⟩, hold ▸ hspec.1, hat⟩
  | nomem =>
    have hat := hsame hspec.2.1
    exact ⟨⟨hsound, hat ▸ h.range, h.low⟩, hold ▸ hspec.1, hat, hspec.2.2⟩
  | ok =>
    have hat := at_update hindex hspec.2
    exact ⟨h.update hsound le_rfl hat, hold ▸ hspec.1, hat⟩

theorem radixTreeInsert_spec (hw : 0 < w) (h : RootInv root) (index : BitVec 32) (item : α)
    (allocs : List Bool) :
    ∃ res root', radixTreeInsert root index item allocs = some (res, root') ∧ RootInv root' ∧
      RootInsertSpec index item allocs root.at root'.at res := by
  obtain ⟨ok, root₁, rest, hext, h₁, hat₁, hindex, hfail, hrest⟩ : ∃ ok root₁ rest,
      (if radixTreeMaxindex w root.height < index.toNat then radixTreeExtend root index allocs
        else (true, root, allocs)) = (ok, root₁, rest) ∧ RootInv root₁ ∧ root₁.at = root.at ∧
      (ok = true → index.toNat < 2 ^ (w * root₁.height)) ∧
      (ok = false → (root.at index.toNat).1 = none ∧ false ∈ allocs) ∧
      (false ∈ rest → false ∈ allocs) := by
    by_cases hmax : radixTreeMaxindex w root.height < index.toNat
    · obtain ⟨ok, root₁, rest, hext, h₁, hat, hindex, hfail, hrest⟩ :=
        radixTreeExtend_spec hw h hmax allocs
      refine ⟨ok, root₁, rest, (if_pos hmax).trans hext, h₁, hat, hindex, fun hok => ?_, hrest⟩
      exact ⟨by rw [at_of_le (maxindex_lt_iff.mp hmax)], hfail hok⟩
    · exact ⟨true, root, allocs, if_neg hmax, h, rfl,
        fun _ => not_le.mp (maxindex_lt_iff.not.mp hmax), Bool.noConfusion, fun hmem => hmem⟩
  cases ok with
  | false =>
    refine ⟨.nomem, root₁, ?_, h₁, (hfail rfl).1, hat₁, (hfail rfl).2⟩
    rw [radixTreeInsert, hext]
  | true =>
    obtain ⟨res, rnode, hres, hinv, hspec⟩ := insertSlot_root h₁ (hindex rfl) item rest
    -- a root item that is new has no tags
    have hbug : ¬ (root₁.height = 0 ∧ res = .ok ∧ ∃ tag, root₁.tags tag = true) := by
      rintro ⟨hheight, rfl, tag, htag⟩
      have hnone := hspec.1
      rw [at_of_lt (hindex rfl)] at hnone
      have htags := h₁.sound.tags_of_none hnone
      have hbits := entry_snd_of_zero hheight root₁.rnode root₁.tags index.toNat
      rw [htags] at hbits
      rw [← hbits] at htag
      cases htag
    refine ⟨res, ⟨root₁.height, root₁.tags, rnode⟩, ?_, hinv, ?_⟩
    · rw [radixTreeInsert, hext]
      simp only [insertRoot, hres, bind_eq_bind, bind_some, hbug, if_false]
    · rw [hat₁] at hspec
      cases res with
      | exist => exact hspec
      | ok => exact hspec
      | nomem => exact ⟨hspec.1, hspec.2.1, hrest hspec.2.2⟩

/-- **`radix_tree_tag_set`** on an item that is present. -/
theorem radixTreeTagSet_spec (h : RootInv root) (tag : Tag) (hitem : (root.at index.toNat).1 ≠ none) :
    ∃ root', radixTreeTagSet root index tag = some ((root.at index.toNat).1, root') ∧
      RootInv root' ∧ root'.rnode ≠ none ∧ root'.at = update root.at index.toNat
        ((root.at index.toNat).1, update (root.at index.toNat).2 tag true) := by
  have hindex := lt_of_item hitem
  rw [at_of_lt hindex] at hitem ⊢
  obtain ⟨c, hc, hsound, hentry⟩ := setTagSlot_spec index tag h.sound hitem
  have hat := at_update hindex hentry
  refine ⟨⟨root.height, update root.tags tag true, some c⟩, ?_, h.update hsound le_rfl hat,
    some_ne_none c, hat⟩
  simp [radixTreeTagSet, maxindex_lt_iff.not.mpr (not_le.mpr hindex), hc, lookupSlot_eq index root.rnode root.tags, isSome_iff_ne_none.mpr hitem]

theorem radixTreeTagClear_spec (h : RootInv root) (index : BitVec 32) (tag : Tag) :
    ∃ root', radixTreeTagClear root index tag = ((root.at index.toNat).1, root') ∧ RootInv root' ∧
      (root.rnode ≠ none → root'.rnode ≠ none) ∧ root'.at = update root.at index.toNat
        ((root.at index.toNat).1, update (root.at index.toNat).2 tag false) := by
  -- without an item there are no tags to clear
  have habsent : (root.at index.toNat).1 = none → root.at = update root.at index.toNat
      ((root.at index.toNat).1, update (root.at index.toNat).2 tag false) := by
    intro hnone
    have hval := h.at_of_none hnone
    have hclear : update noTags tag false = noTags := update_eq_self tag noTags
    rw [hval, hclear, ← hval, update_eq_self]
  cases hitem : (root.at index.toNat).1 with
  | none =>
    rw [hitem] at habsent
    refine ⟨root, ?_, h, fun hne => hne, habsent rfl⟩
    rcases lookup_none hitem with hnone | hnone <;> simp [radixTreeTagClear, hnone]
  | some item =>
    obtain ⟨hindex, hmax, hlookup⟩ := lookup_some hitem
    rw [at_of_lt hindex] at hitem ⊢
    obtain ⟨c, goOn, hc, hsound, hentry⟩ := clearTagSlot_spec index tag h.sound (hitem ▸ some_ne_none item)
    rw [hitem] at hentry
    have hat := at_update hindex hentry
    refine ⟨⟨root.height, clearedBits goOn tag root.tags, some c⟩, ?_, h.update hsound le_rfl hat,
      fun _ => some_ne_none c, hat⟩
    simp only [radixTreeTagClear, hmax, if_false, hlookup, hc]
    rfl

theorem clearTagOf_spec (h : RootInv root) {item : α} (hitem : root.at index.toNat = (some item, tags))
    (tag : Tag) : RootInv (clearTagOf index tag root) ∧ (clearTagOf index tag root).at =
      update root.at index.toNat (some item, update tags tag false) := by
  have hindex := (lookup_some (congrArg Prod.fst hitem)).1
  have hbit : tagOf index tag root.height root.rnode (root.tags tag) = tags tag := by
    rw [tagOf_eq, ← at_of_lt hindex, hitem]
  rw [clearTagOf, hbit]
  cases htag : tags tag with
  | true =>
    obtain ⟨root', hclear, hinv, -, hat⟩ := radixTreeTagClear_spec h index tag
    rw [hitem] at hat
    rw [if_pos rfl, hclear]
    exact ⟨hinv, hat⟩
  | false =>
    rw [if_neg Bool.false_ne_true, ← htag, update_eq_self, ← hitem, update_eq_self]
    exact ⟨h, rfl⟩

theorem deleteRoot_spec (h : RootInv root) {item : α} (hitem : root.at index.toNat = (some item, noTags)) :
    ∃ root', deleteRoot root index = some root' ∧ RootInv root' ∧
      (root'.rnode = none → root' = init w α) ∧
      root'.at = update root.at index.toNat (none, noTags) := by
  have hindex := (lookup_some (congrArg Prod.fst hitem)).1
  have hentry := hitem
  rw [at_of_lt hindex] at hentry
  obtain ⟨rnode, lost, hres, hsound, hnew⟩ := deleteSlot_spec index h.sound hentry
  have hat := at_update hindex hnew
  cases rnode with
  | none =>
    have hempty : (init w α).at = update root.at index.toNat (none, noTags) := by
      rw [← hat, sound_none.mp hsound]
      funext idx
      rw [at_init, at_empty]
    refine ⟨init w α, ?_, rootInv_init, fun _ => rfl, hempty⟩
    simp [deleteRoot, hres]
  | some n =>
    cases lost with
    | true =>
      obtain ⟨root', hshrink, hsound', hle, hnode, hat'⟩ :=
        radixTreeShrink_spec hsound (some_ne_none n)
      refine ⟨root', ?_, h.update hsound' hle (hat'.trans hat), fun hnone => absurd hnone hnode,
        hat'.trans hat⟩
      simp [deleteRoot, hres, hshrink]
    | false =>
      refine ⟨⟨root.height, root.tags, some n⟩, ?_, h.update hsound le_rfl hat,
        fun hnone => absurd hnone (some_ne_none n), hat⟩
      simp [deleteRoot, hres]

theorem radixTreeDelete_spec (h : RootInv root) (index : BitVec 32) :
    ∃ root', radixTreeDelete root index = some ((root.at index.toNat).1, root') ∧ RootInv root' ∧
      (root'.rnode = none → root' = root ∨ root' = init w α) ∧
      root'.at = update root.at index.toNat (none, noTags) := by
  have habsent : (root.at index.toNat).1 = none →
      root.at = update root.at index.toNat (none, noTags) := by
    intro hnone
    rw [← h.at_of_none hnone, update_eq_self]
  cases hitem : (root.at index.toNat).1 with
  | none =>
    refine ⟨root, ?_, h, fun _ => .inl rfl, habsent hitem⟩
    rcases lookup_none hitem with hnone | hnone <;> simp [radixTreeDelete, hnone]
  | some item =>
    obtain ⟨hindex, hmax, hlookup⟩ := lookup_some hitem
    by_cases hheight : root.height = 0
    · -- the root item was the only one
      refine ⟨init w α, ?_, rootInv_init, fun _ => .inr rfl, ?_⟩
      · rw [radixTreeDelete, if_neg hmax, hlookup]
        exact if_pos hheight
      · funext j
        rw [at_init]
        rw [hheight, mul_zero, pow_zero] at hindex
        rcases eq_or_ne j index.toNat with rfl | hne
        · rw [update_self]
        · have hj : 2 ^ (w * root.height) ≤ j := by
            rw [hheight, mul_zero, pow_zero]
            omega
          rw [update_of_ne hne, at_of_le hj]
    · have hfull : root.at index.toNat = (some item, (root.at index.toNat).2) :=
        Prod.ext hitem rfl
      obtain ⟨h₁, hat₁⟩ := clearTagOf_spec h hfull 0
      have hitem₁ := congrFun hat₁ index.toNat
      rw [update_self] at hitem₁
      obtain ⟨h₂, hat₂⟩ := clearTagOf_spec h₁ hitem₁ 1
      have hitem₂ := congrFun hat₂ index.toNat
      have htags : update (update (root.at index.toNat).2 0 false) 1 false = noTags := by
        exact funext (Fin.forall_fin_two.mpr ⟨by simp [noTags], by simp [noTags]⟩)
      rw [update_self, htags] at hitem₂
      obtain ⟨root', hres, hinv, hnone, hat⟩ := deleteRoot_spec h₂ hitem₂
      refine ⟨root', ?_, hinv, fun hn => .inr (hnone hn), ?_⟩
      · simp [radixTreeDelete, hmax, hlookup, hheight, hres]
      · rw [hat, hat₂, hat₁, update_idem, update_idem]

end Linux
