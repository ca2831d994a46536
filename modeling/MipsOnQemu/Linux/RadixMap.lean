/-
# MipsOnQemu.Linux.RadixMap -- a radix tree as a map of tagged items

`entry` is the item at an index with the tags that the lowest node on its path has for it. `Sound`
says of a pointer, and of the tag bits that are kept for it one level up, what every function relies
on: a node counts its slots in use, and a bit is set exactly when a bit is set in the node below it.
Each function of the source on the pointer at a height has here what it does to the entries below,
and that it keeps `Sound`.
-/

import MipsOnQemu.Linux.RadixTree

namespace Linux

open DigitTrie Function Option Nat Bool

variable {w : Nat} {α β : Type}

/-! ## Indices -/

variable (index : BitVec 32)

theorem offset_eq_digit (h : Nat) : offset w index (h * w) = digit w h index.toNat := by
  refine Fin.ext ?_
  show (index.toNat >>> (h * w)) &&& (2 ^ w - 1) = index.toNat / 2 ^ (w * h) % 2 ^ w
  rw [and_two_pow_sub_one_eq_mod, shiftRight_eq_div_pow, mul_comm h w]

variable {h idx : Nat} {bits : Tag → Bool} {slot : Option (RadixSub w α h)} {item : α}

theorem radixTreeMaxindex_of_lt (hlt : h * w < 32) : radixTreeMaxindex w h = 2 ^ (w * h) - 1 := by
  rw [radixTreeMaxindex, if_neg (by omega), ← Nat.shiftRight_add, Nat.shiftRight_eq_div_pow]
  have hsum : 32 - h * w - 1 + 1 = 32 - h * w := by omega
  have hsplit : 2 ^ 32 = 2 ^ (32 - h * w) * 2 ^ (h * w) := by
    rw [← Nat.pow_add]
    congr 1
    omega
  rw [hsum, hsplit, Nat.mul_comm w h]
  have hlow := Nat.two_pow_pos (32 - h * w)
  have hhigh := Nat.two_pow_pos (h * w)
  refine Nat.div_eq_of_lt_le ?_ ?_
  · rw [Nat.sub_mul, Nat.one_mul, Nat.mul_comm (2 ^ (h * w))]
    omega
  · rw [Nat.sub_add_cancel hhigh, Nat.mul_comm (2 ^ (h * w))]
    exact Nat.sub_lt (Nat.mul_pos hlow hhigh) Nat.one_pos

theorem maxindex_lt_iff {index : BitVec 32} :
    radixTreeMaxindex w h < index.toNat ↔ 2 ^ (w * h) ≤ index.toNat := by
  have hindex := index.isLt
  by_cases hlt : h * w < 32
  · have hpos := Nat.two_pow_pos (w * h)
    rw [radixTreeMaxindex_of_lt hlt]
    omega
  · have hpow : 2 ^ 32 ≤ 2 ^ (w * h) := by
      refine Nat.pow_le_pow_right (by omega) ?_
      rw [Nat.mul_comm]
      omega
    have hmax : radixTreeMaxindex w h = 2 ^ 32 - 1 := by
      rw [radixTreeMaxindex, if_pos (by omega)]
    rw [hmax]
    omega

/-! ## Entries -/

/-- The tags that a node has for a slot. -/
def tagNote (d : RadixData w) (i : Fin (2 ^ w)) : Tag → Bool := fun tag => d.tags tag i

def noTags : Tag → Bool := fun _ => false

/-- **The item at an index below a pointer, and its tags.** -/
abbrev entry (h : Nat) (slot : Option (RadixSub w α h)) (bits : Tag → Bool) (idx : Nat) :
    Option α × (Tag → Bool) := leaf tagNote noTags h slot bits idx

theorem lookupSlot_eq (slot : Option (RadixSub w α h)) (bits : Tag → Bool) :
    lookupSlot index h slot = (entry h slot bits index.toNat).1 := by
  induction h generalizing bits with
  | zero => rfl
  | succ h ih =>
    cases slot with
    | none => rfl
    | some n =>
      rw [lookupSlot, offset_eq_digit, entry, leaf_some]
      exact ih _ _

theorem tagOf_eq (tag : Tag) (slot : Option (RadixSub w α h)) (bits : Tag → Bool) :
    tagOf index tag h slot (bits tag) = (entry h slot bits index.toNat).2 tag := by
  induction h generalizing bits with
  | zero => rfl
  | succ h ih =>
    cases slot with
    | none => rfl
    | some n =>
      rw [tagOf, offset_eq_digit, entry, leaf_some]
      exact ih _ (tagNote n.data (digit w h index.toNat))

section Nodes

variable (tag : Tag) (i : Fin (2 ^ w)) (c : β) (n : RadixNode w β)

@[simp] theorem slots_keepSlot : (keepSlot i c n).slots = update n.slots i (some c) := rfl
@[simp] theorem slots_fillSlot : (fillSlot i c n).slots = update n.slots i (some c) := rfl
@[simp] theorem slots_dropSlot : (dropSlot i n).slots = update n.slots i none := rfl
@[simp] theorem slots_tagSet : (tagSet tag i n).slots = n.slots := rfl
@[simp] theorem slots_tagClear : (tagClear tag i n).slots = n.slots := rfl

@[simp] theorem tagNote_keepSlot : tagNote (keepSlot i c n).data = tagNote n.data := rfl
@[simp] theorem tagNote_fillSlot : tagNote (fillSlot i c n).data = tagNote n.data := rfl
@[simp] theorem tagNote_dropSlot : tagNote (dropSlot i n).data = tagNote n.data := rfl

theorem tagNote_tagSet : tagNote (tagSet tag i n).data =
    update (tagNote n.data) i (update (tagNote n.data i) tag true) := by
  funext j t
  rcases eq_or_ne j i with rfl | hj <;> rcases eq_or_ne t tag with rfl | ht <;> simp [tagNote, tagSet, *]

theorem tagNote_tagClear : tagNote (tagClear tag i n).data =
    update (tagNote n.data) i (update (tagNote n.data i) tag false) := by
  funext j t
  rcases eq_or_ne j i with rfl | hj <;> rcases eq_or_ne t tag with rfl | ht <;> simp [tagNote, tagClear, *]

end Nodes

/-! ## Soundness -/

/-- **What holds of a pointer and of the tag bits one level up.** -/
def Sound : (h : Nat) → Option (RadixSub w α h) → (Tag → Bool) → Prop
  | 0, slot, bits => slot = none → bits = noTags
  | _ + 1, none, bits => bits = noTags
  | h + 1, some n, bits => n.data.count = occupied n.slots ∧
    (∀ tag, bits tag = true ↔ ∃ i, n.data.tags tag i = true) ∧
    ∀ i, Sound h (n.slots i) (tagNote n.data i)

theorem sound_none : Sound h (none : Option (RadixSub w α h)) bits ↔ bits = noTags := by
  cases h with
  | zero => exact ⟨fun h => h rfl, fun h _ => h⟩
  | succ h => exact Iff.rfl

theorem entry_none (h idx : Nat) : entry h (none : Option (RadixSub w α h)) noTags idx =
    (none, noTags) := leaf_none h idx

theorem Sound.tags_of_none (hs : Sound h slot bits) (hnone : (entry h slot bits idx).1 = none) :
    entry h slot bits idx = (none, noTags) := by
  induction h generalizing bits with
  | zero =>
    have hslot : slot = none := hnone
    rw [hs hslot, hslot]
    rfl
  | succ h ih =>
    cases slot with
    | none => rfl
    | some n => exact ih (hs.2.2 (digit w h idx)) hnone

variable {n n' : RadixNode w (RadixSub w α h)} {tag : Tag}

theorem Sound.update {bits' : Tag → Bool} {d : Fin (2 ^ w)}
    (hs : Sound (h + 1) (some n) bits) (hcount : n'.data.count = occupied n'.slots)
    (hbits : ∀ tag, bits' tag = true ↔ ∃ i, n'.data.tags tag i = true)
    (hother : ∀ i, i ≠ d → n'.slots i = n.slots i ∧ tagNote n'.data i = tagNote n.data i)
    (hchild : Sound h (n'.slots d) (tagNote n'.data d)) : Sound (h + 1) (some n') bits' := by
  refine ⟨hcount, hbits, fun i => ?_⟩
  by_cases hi : i = d
  · rw [hi]
    exact hchild
  · obtain ⟨hslot, hnote⟩ := hother i hi
    rw [hslot, hnote]
    exact hs.2.2 i

/-- **A bit is set exactly when an item below it has the tag.** -/
theorem Sound.bit_iff (hs : Sound h slot bits) (tag : Tag) :
    bits tag = true ↔ ∃ idx, (entry h slot bits idx).1 ≠ none ∧ (entry h slot bits idx).2 tag = true := by
  induction h generalizing bits with
  | zero =>
    constructor
    · intro hbit
      refine ⟨0, fun hnone => ?_, hbit⟩
      rw [hs hnone] at hbit
      cases hbit
    · rintro ⟨idx, -, hbit⟩
      exact hbit
  | succ h ih =>
    cases slot with
    | none =>
      rw [sound_none.mp hs]
      refine ⟨nofun, ?_⟩
      rintro ⟨idx, -, hbit⟩
      exact hbit
    | some n =>
      rw [hs.2.1 tag]
      constructor
      · rintro ⟨i, hi⟩
        obtain ⟨j, hitem, htag⟩ := (ih (hs.2.2 i)).mp hi
        obtain ⟨idx, hdigit, hlow⟩ := exists_digit (w := w) h i j
        have heq : entry (h + 1) (some n) bits idx = entry h (n.slots i) (tagNote n.data i) j := by
          rw [entry, leaf_some, hdigit]
          exact leaf_congr hlow _ _
        exact ⟨idx, heq ▸ hitem, heq ▸ htag⟩
      · rintro ⟨idx, hitem, htag⟩
        exact ⟨digit w h idx, (ih (hs.2.2 (digit w h idx))).mpr ⟨idx, hitem, htag⟩⟩

/-! ## Insertion -/

/-- What an insertion may return for the entry it finds, and what it does to the entries. -/
def InsertSpec (modulus idx : Nat) (item : α) (allocs : List Bool)
    (old new : Nat → Option α × (Tag → Bool)) : InsertResult → Prop
  | .exist => (old idx).1 ≠ none ∧ new = old
  | .nomem => (old idx).1 = none ∧ new = old ∧ false ∈ allocs
  | .ok => (old idx).1 = none ∧
      ∀ j, new j = if j % modulus = idx % modulus then (some item, noTags) else old j

theorem InsertSpec.node {allocs : List Bool} {res : InsertResult}
    (hother : ∀ i, i ≠ digit w h idx → n'.slots i = n.slots i ∧ tagNote n'.data i = tagNote n.data i)
    (hspec : InsertSpec (2 ^ (w * h)) idx item allocs
      (entry h (n.slots (digit w h idx)) (tagNote n.data (digit w h idx)))
      (entry h (n'.slots (digit w h idx)) (tagNote n'.data (digit w h idx))) res) :
    InsertSpec (2 ^ (w * (h + 1))) idx item allocs (entry (h + 1) (some n) bits)
      (entry (h + 1) (some n') bits) res := by
  cases res with
  | exist => exact ⟨hspec.1, funext (leaf_update_same hother (congrFun hspec.2))⟩
  | nomem => exact ⟨hspec.1, funext (leaf_update_same hother (congrFun hspec.2.1)), hspec.2.2⟩
  | ok => exact ⟨hspec.1, leaf_update hother hspec.2⟩

/-- What is known after an insertion at the pointer at a height. -/
structure InsertedBelow (index : BitVec 32) (item : α) (allocs : List Bool) (h : Nat)
    (slot : Option (RadixSub w α h)) (bits : Tag → Bool) (res : InsertResult)
    (slot' : Option (RadixSub w α h)) : Prop where
  sound : Sound h slot' bits
  keeps : slot ≠ none → slot' ≠ none
  spec : InsertSpec (2 ^ (w * h)) index.toNat item allocs (entry h slot bits) (entry h slot' bits) res

theorem storeChild_spec {index : BitVec 32} {allocs : List Bool}
    {res : InsertResult} {child : Option (RadixSub w α h)} (hs : Sound (h + 1) (some n) bits)
    (hchild : InsertedBelow index item allocs h (n.slots (digit w h index.toNat))
      (tagNote n.data (digit w h index.toNat)) res child) :
    ∃ n', storeChild h (digit w h index.toNat) n res child = some (res, some n') ∧
      InsertedBelow index item allocs (h + 1) (some n) bits res (some n') := by
  generalize hd : digit w h index.toNat = d at hchild ⊢
  -- a new item has no tags yet
  have hbug : ¬ (h = 0 ∧ res = .ok ∧ ∃ tag, n.data.tags tag d = true) := by
    rintro ⟨rfl, rfl, tag, htag⟩
    have hfree : n.slots d = none := hchild.spec.1
    have hnone : tagNote n.data d = noTags := hs.2.2 d hfree
    have hbit := congrFun hnone tag
    rw [show tagNote n.data d tag = true from htag] at hbit
    cases hbit
  unfold storeChild
  rw [if_neg hbug]
  cases child with
  | none =>
    -- the first allocation below has failed
    have hfree : n.slots d = none := by
      by_contra hne
      exact hchild.keeps hne rfl
    refine ⟨n, rfl, hs, fun h => h, ?_⟩
    have hspec := hchild.spec
    rw [← hd] at hspec hfree
    refine InsertSpec.node (fun i _ => ⟨rfl, rfl⟩) ?_
    rw [hfree] at hspec ⊢
    exact hspec
  | some c =>
    refine ⟨_, rfl, ?_, fun _ => some_ne_none _, ?_⟩
    · split
      · rename_i hsome
        refine Sound.update (d := d) hs ?_ hs.2.1 ?_ ?_
        · exact hs.1.trans (occupied_update_used (isSome_iff_ne_none.mp hsome)).symm
        · exact fun i hi => ⟨update_of_ne hi .., rfl⟩
        · rw [slots_keepSlot, update_self]
          exact hchild.sound
      · rename_i hsome
        refine Sound.update (d := d) hs ?_ hs.2.1 ?_ ?_
        · rw [fillSlot, hs.1]
          exact (occupied_update_free (by simpa using hsome)).symm
        · exact fun i hi => ⟨update_of_ne hi .., rfl⟩
        · rw [slots_fillSlot, update_self]
          exact hchild.sound
    · have hspec := hchild.spec
      rw [← hd] at hspec ⊢
      split
      · refine InsertSpec.node (fun i hi => ⟨update_of_ne hi .., rfl⟩) ?_
        rw [slots_keepSlot, update_self]
        exact hspec
      · refine InsertSpec.node (fun i hi => ⟨update_of_ne hi .., rfl⟩) ?_
        rw [slots_fillSlot, update_self]
        exact hspec

theorem sound_zeroNode : Sound (h + 1) (some (zeroNode : RadixNode w (RadixSub w α h))) noTags := by
  refine ⟨occupied_none.symm, fun tag => ⟨nofun, ?_⟩, fun i => sound_none.mpr rfl⟩
  rintro ⟨i, hi⟩
  exact hi

theorem entry_zeroNode (bits : Tag → Bool) (idx : Nat) :
    entry (h + 1) (some (zeroNode : RadixNode w (RadixSub w α h))) bits idx = (none, noTags) := by
  rw [entry, leaf_some]
  exact leaf_none h idx

theorem false_mem_of_headD {allocs : List Bool} (h : allocs.headD true = false) : false ∈ allocs := by
  cases allocs with
  | nil => cases h
  | cons ok rest => exact List.mem_cons.mpr (.inl h.symm)

theorem insertSlot_spec (item : α) (hs : Sound h slot bits) (allocs : List Bool) :
    ∃ res slot', insertSlot index item h slot allocs = some (res, slot') ∧
      InsertedBelow index item allocs h slot bits res slot' := by
  induction h generalizing bits allocs with
  | zero =>
    cases slot with
    | some a =>
      exact ⟨.exist, some a, rfl, hs, fun h => h, some_ne_none _, rfl⟩
    | none =>
      refine ⟨.ok, some item, rfl, fun h => absurd h (some_ne_none _),
        fun h => absurd rfl h, rfl, fun j => ?_⟩
      have hone : 2 ^ (w * 0) = 1 := by rw [mul_zero, pow_zero]
      rw [hone, mod_one, mod_one, if_pos rfl, sound_none.mp hs]
      rfl
  | succ h ih =>
    -- the node that is gone down through, once it is there
    have hnode : ∀ (n : RadixNode w (RadixSub w α h)) (rest : List Bool),
        Sound (h + 1) (some n) bits → ∃ res n',
          ((insertSlot index item h (n.slots (digit w h index.toNat)) rest).bind fun p =>
            storeChild h (digit w h index.toNat) n p.1 p.2) = some (res, some n') ∧
          InsertedBelow index item rest (h + 1) (some n) bits res (some n') := by
      intro n rest hn
      obtain ⟨res, child, hres, hins⟩ := ih (hn.2.2 (digit w h index.toNat)) rest
      obtain ⟨n', hn', hins'⟩ := storeChild_spec hn hins
      refine ⟨res, n', ?_, hins'⟩
      rw [hres]
      exact hn'
    cases slot with
    | some n =>
      obtain ⟨res, n', hres, hins⟩ := hnode n allocs hs
      refine ⟨res, some n', ?_, hins⟩
      rw [← offset_eq_digit] at hres
      exact hres
    | none =>
      obtain rfl := sound_none.mp hs
      cases hhead : allocs.headD true with
      | false =>
        refine ⟨.nomem, none, ?_, hs, fun h => h, rfl, rfl, ?_⟩
        · simp only [insertSlot, hhead, false_eq_true, if_false]
        · exact false_mem_of_headD hhead
      | true =>
        obtain ⟨res, n', hres, hins⟩ := hnode zeroNode allocs.tail sound_zeroNode
        refine ⟨res, some n', ?_, hins.sound, fun h => absurd rfl h, ?_⟩
        · rw [← offset_eq_digit] at hres
          simp only [insertSlot, hhead, if_true]
          exact hres
        · have hold : entry (h + 1) (none : Option (RadixSub w α (h + 1))) noTags =
              entry (h + 1) (some (zeroNode : RadixNode w (RadixSub w α h))) noTags := by
            funext j
            rw [entry_zeroNode]
            rfl
          rw [hold]
          have hspec := hins.spec
          cases res with
          | nomem => exact ⟨hspec.1, hspec.2.1, List.mem_of_mem_tail hspec.2.2⟩
          | exist => exact hspec
          | ok => exact hspec

/-! ## Tags -/

theorem used_of_entry (hitem : (entry (h + 1) (some n) bits idx).1 ≠ none) :
    n.slots (digit w h idx) ≠ none := by
  intro hnone
  refine hitem ?_
  rw [entry, leaf_some, hnone]
  cases h <;> rfl

/-- A pointer and its tag bits, of which only the entry at an index has changed. -/
structure ChangedAt (h idx : Nat) (slot slot' : Option (RadixSub w α h)) (bits bits' : Tag → Bool)
    (v : Option α × (Tag → Bool)) : Prop where
  sound : Sound h slot' bits'
  spec : ∀ j, entry h slot' bits' j =
    if j % 2 ^ (w * h) = idx % 2 ^ (w * h) then v else entry h slot bits j

section Changed

variable {bits' : Tag → Bool} {v : Option α × (Tag → Bool)}

theorem changedAt_zero {slot slot' : Option (RadixSub w α 0)} (hsound : slot' = none → bits' = noTags) :
    ChangedAt 0 idx slot slot' bits bits' (slot', bits') := by
  refine ⟨hsound, fun j => ?_⟩
  rw [mul_zero, pow_zero, mod_one, mod_one, if_pos rfl]
  rfl

theorem ChangedAt.node {child : Option (RadixSub w α h)} {note : Tag → Bool} (hs : Sound (h + 1) (some n) bits)
    (hchild : ChangedAt h idx (n.slots (digit w h idx)) child (tagNote n.data (digit w h idx)) note v)
    (hslots : n'.slots = update n.slots (digit w h idx) child)
    (hnote : tagNote n'.data = update (tagNote n.data) (digit w h idx) note)
    (hcount : n'.data.count = occupied n'.slots)
    (hbits : ∀ tag, bits' tag = true ↔ ∃ i, tagNote n'.data i tag = true) :
    ChangedAt (h + 1) idx (some n) (some n') bits bits' v := by
  have hother : ∀ i, i ≠ digit w h idx → n'.slots i = n.slots i ∧ tagNote n'.data i = tagNote n.data i := by
    intro i hi
    rw [hslots, hnote, update_of_ne hi, update_of_ne hi]
    exact ⟨rfl, rfl⟩
  have hslot : n'.slots (digit w h idx) = child := by rw [hslots, update_self]
  have hself : tagNote n'.data (digit w h idx) = note := by rw [hnote, update_self]
  refine ⟨Sound.update hs hcount hbits hother ?_, leaf_update hother fun j => ?_⟩
  · rw [hslot, hself]
    exact hchild.sound
  · rw [hslot, hself]
    exact hchild.spec j

theorem ChangedAt.keep {c : RadixSub w α h} (hs : Sound (h + 1) (some n) bits)
    (hused : n.slots (digit w h idx) ≠ none)
    (hchild : ChangedAt h idx (n.slots (digit w h idx)) (some c) (tagNote n.data (digit w h idx))
      (tagNote n.data (digit w h idx)) v) :
    ChangedAt (h + 1) idx (some n) (some (keepSlot (digit w h idx) c n)) bits bits v :=
  .node hs hchild rfl (update_eq_self ..).symm (hs.1.trans (occupied_update_used hused).symm) hs.2.1

theorem exists_tagNote_update {f : Fin (2 ^ w) → Tag → Bool} {d : Fin (2 ^ w)} {t : Tag} (ht : t ≠ tag)
    (b : Bool) : (∃ i, update f d (update (f d) tag b) i t = true) ↔ ∃ i, f i t = true := by
  refine exists_congr fun i => ?_
  rcases eq_or_ne i d with rfl | hi
  · rw [update_self, update_of_ne ht]
  · rw [update_of_ne hi]

end Changed

/-- **`radix_tree_tag_set` below a pointer**, on an item that is present. -/
theorem setTagSlot_spec (tag : Tag) (hs : Sound h slot bits)
    (hitem : (entry h slot bits index.toNat).1 ≠ none) : ∃ c, setTagSlot index tag h slot = some (some c) ∧
      ChangedAt h index.toNat slot (some c) bits (update bits tag true)
        ((entry h slot bits index.toNat).1, update (entry h slot bits index.toNat).2 tag true) := by
  induction h generalizing bits with
  | zero =>
    obtain ⟨c, rfl⟩ := ne_none_iff_exists'.mp hitem
    exact ⟨c, rfl, changedAt_zero fun h => absurd h (some_ne_none _)⟩
  | succ h ih =>
    cases slot with
    | none => exact absurd rfl hitem
    | some n =>
      obtain ⟨c, hc, hchild⟩ := ih (hs.2.2 (digit w h index.toNat)) hitem
      have hused := used_of_entry hitem
      obtain ⟨c₀, hc₀⟩ := ne_none_iff_exists'.mp hused
      have hnote := tagNote_tagSet tag (digit w h index.toNat) n
      refine ⟨keepSlot (digit w h index.toNat) c (tagSet tag (digit w h index.toNat) n), ?_,
        .node hs hchild rfl hnote (hs.1.trans (occupied_update_used hused).symm) fun t => ?_⟩
      · rw [hc₀] at hc
        simp [setTagSlot, offset_eq_digit, hc₀, hc]
      · rw [tagNote_keepSlot, hnote]
        rcases eq_or_ne t tag with rfl | ht
        · rw [update_self]
          exact iff_of_true rfl ⟨_, by rw [update_self, update_self]⟩
        · rw [update_of_ne ht, exists_tagNote_update ht]
          exact hs.2.1 t

/-- The bits one level up after `radix_tree_tag_clear`. -/
def clearedBits (goOn : Bool) (tag : Tag) (bits : Tag → Bool) : Tag → Bool :=
  if goOn then Function.update bits tag false else bits

theorem anyTagSet_eq_true {n : RadixNode w β} : anyTagSet n tag = true ↔ ∃ i, n.data.tags tag i = true := by
  rw [anyTagSet, decide_eq_true_iff]

theorem anyTagSet_eq_false {n : RadixNode w β} :
    anyTagSet n tag = false ↔ ∀ i, n.data.tags tag i = false := by
  rw [anyTagSet, decide_eq_false_iff_not]
  simp

/-- **`radix_tree_tag_clear` below a pointer**, on an item that is present. -/
theorem clearTagSlot_spec (tag : Tag) (hs : Sound h slot bits)
    (hitem : (entry h slot bits index.toNat).1 ≠ none) :
    ∃ c goOn, clearTagSlot index tag h slot = (some c, goOn) ∧
      ChangedAt h index.toNat slot (some c) bits (clearedBits goOn tag bits)
        ((entry h slot bits index.toNat).1, update (entry h slot bits index.toNat).2 tag false) := by
  induction h generalizing bits with
  | zero =>
    obtain ⟨c, rfl⟩ := ne_none_iff_exists'.mp hitem
    exact ⟨c, true, rfl, changedAt_zero fun h => absurd h (some_ne_none _)⟩
  | succ h ih =>
    cases slot with
    | none => exact absurd rfl hitem
    | some n =>
      obtain ⟨c, goOn, hc, hchild⟩ := ih (hs.2.2 (digit w h index.toNat)) hitem
      have hused := used_of_entry hitem
      by_cases hgo : (goOn && n.data.tags tag (digit w h index.toNat)) = true
      · -- the bit of the slot is cleared
        obtain ⟨rfl, hbit⟩ := and_eq_true_iff.mp hgo
        have hnote := tagNote_tagClear tag (digit w h index.toNat) (keepSlot (digit w h index.toNat) c n)
        generalize hn' : tagClear tag (digit w h index.toNat) (keepSlot (digit w h index.toNat) c n) = n' at hnote
        refine ⟨n', !anyTagSet n' tag, ?_, .node hs hchild (by rw [← hn']; rfl) hnote ?_ fun t => ?_⟩
        · simp only [clearTagSlot, offset_eq_digit, hc, hgo, if_true, ← hn']
          rfl
        · rw [← hn']
          exact hs.1.trans (occupied_update_used hused).symm
        · rcases eq_or_ne t tag with rfl | ht
          · cases hany : anyTagSet n' t with
            | false =>
              rw [clearedBits, Bool.not_false, if_pos rfl, update_self]
              refine iff_of_false false_ne_true ?_
              rintro ⟨i, hi⟩
              exact absurd (hi.symm.trans (anyTagSet_eq_false.mp hany i)) Bool.noConfusion
            | true => exact iff_of_true ((hs.2.1 t).mpr ⟨_, hbit⟩) (anyTagSet_eq_true.mp hany)
          · have hkeep : clearedBits (!anyTagSet n' tag) tag bits t = bits t := by
              rw [clearedBits]
              split
              · exact update_of_ne ht ..
              · rfl
            rw [hkeep, hnote, exists_tagNote_update ht]
            exact hs.2.1 t
      · -- nothing more is to clear
        have hsame : clearedBits goOn tag (tagNote n.data (digit w h index.toNat)) =
            tagNote n.data (digit w h index.toNat) := by
          cases goOn with
          | false => rfl
          | true =>
            have hbit : tagNote n.data (digit w h index.toNat) tag = false := eq_false_iff.mpr hgo
            rw [clearedBits, if_pos rfl, ← hbit, update_eq_self]
        rw [hsame] at hchild
        refine ⟨_, false, ?_, .keep hs hused hchild⟩
        simp only [clearTagSlot, offset_eq_digit, hc, hgo]
        rfl

/-! ## Deletion -/

/-- **A node that counts nothing is zeroed.** -/
theorem Sound.zeroed (hs : Sound (h + 1) (some n) bits) (hcount : n.data.count = 0) :
    radixTreeNodeFree n = some () ∧ bits = noTags ∧
      ∀ idx, entry (h + 1) (some n) bits idx = (none, noTags) := by
  have hfree := occupied_eq_zero_iff.mp (hs.1.symm.trans hcount)
  have hnote : ∀ i, tagNote n.data i = noTags := by
    intro i
    have hi := hs.2.2 i
    rw [hfree i] at hi
    exact sound_none.mp hi
  have htags : ∀ tag, anyTagSet n tag = false := fun tag =>
    anyTagSet_eq_false.mpr fun i => congrFun (hnote i) tag
  refine ⟨?_, ?_, fun idx => ?_⟩
  · rw [radixTreeNodeFree, if_pos ⟨hcount, fun i => by rw [hfree i]; rfl, htags⟩]
  · funext tag
    have hbit : ¬ bits tag = true := by
      rw [hs.2.1 tag, ← anyTagSet_eq_true, htags tag]
      exact false_ne_true
    exact eq_false_iff.mpr hbit
  · rw [entry, leaf_some, hfree, hnote]
    exact leaf_none h idx

/-- **`radix_tree_delete` below a pointer**, for an item that is present and has no tags any more. -/
theorem deleteSlot_spec (hs : Sound h slot bits)
    (hitem : entry h slot bits index.toNat = (some item, noTags)) :
    ∃ slot' lost, deleteSlot index h slot = some (slot', lost) ∧
      ChangedAt h index.toNat slot slot' bits bits (none, noTags) := by
  induction h generalizing bits with
  | zero =>
    obtain rfl : bits = noTags := congrArg Prod.snd hitem
    exact ⟨none, false, rfl, changedAt_zero fun _ => rfl⟩
  | succ h ih =>
    cases slot with
    | none => cases hitem
    | some n =>
      have hpresent : (entry (h + 1) (some n) bits index.toNat).1 ≠ none := by
        rw [hitem]
        exact some_ne_none _
      have hused := used_of_entry hpresent
      obtain ⟨child, lost, hres, hchild⟩ := ih (hs.2.2 (digit w h index.toNat)) hitem
      cases child with
      | some c =>
        refine ⟨_, false, ?_, .keep hs hused hchild⟩
        simp [deleteSlot, offset_eq_digit, hres]
      | none =>
        have hdropped := occupied_update_none hused
        have hdrop : ChangedAt (h + 1) index.toNat (some n) (some (dropSlot (digit w h index.toNat) n)) bits bits
            (none, noTags) := by
          refine .node hs hchild rfl (update_eq_self ..).symm ?_ hs.2.1
          show n.data.count - 1 = occupied (update n.slots _ none)
          rw [hs.1, ← hdropped, Nat.add_sub_cancel]
        by_cases hcount : (dropSlot (digit w h index.toNat) n).data.count = 0
        · -- the node is not needed any more
          obtain ⟨hfree, hbits, hempty⟩ := hdrop.sound.zeroed hcount
          refine ⟨none, true, ?_, sound_none.mpr hbits, fun j => ?_⟩
          · simp [deleteSlot, offset_eq_digit, hres, hcount, hfree]
          · rw [← hdrop.spec j, hempty j]
            rfl
        · refine ⟨_, true, ?_, hdrop⟩
          simp [deleteSlot, offset_eq_digit, hres, hcount]

end Linux
