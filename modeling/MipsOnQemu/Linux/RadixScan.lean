/-
# MipsOnQemu.Linux.RadixScan -- the gang lookups

A round of a gang lookup goes down once and takes what it finds in one node at the bottom. What it
takes is the beginning of what is left to be found, and it returns where to go on; the index after
the last one is 0 again, which ends the lookup. So the rounds together return the items in ascending
order, as many as are asked for.
-/

import MipsOnQemu.Linux.RadixRoot
import MipsOnQemu.Lib.Words

namespace Linux

open Nat hiding two_pow_succ

open DigitTrie Words List Option RadixRoot

variable {w : Nat} {α : Type}

/-! ## The next index -/

variable {h n n' : Nat} {tag : Tag}

theorem digit_congr {j : Nat} (hdiv : j / 2 ^ (w * h) = n / 2 ^ (w * h)) : digit w h j = digit w h n :=
  Fin.ext (congrArg (· % 2 ^ w) hdiv)

theorem digit_next (hlast : (digit w h n).val + 1 < 2 ^ w) :
    (digit w h ((n / 2 ^ (h * w) + 1) * 2 ^ (h * w))).val = (digit w h n).val + 1 ∧
      (n / 2 ^ (h * w) + 1) * 2 ^ (h * w) / 2 ^ (w * (h + 1)) = n / 2 ^ (w * (h + 1)) := by
  have hquot : (n / 2 ^ (h * w) + 1) * 2 ^ (h * w) / 2 ^ (w * h) = n / 2 ^ (w * h) + 1 := by
    rw [Nat.mul_comm h w, Nat.mul_div_cancel _ (Nat.two_pow_pos _)]
  have hval : n / 2 ^ (w * h) % 2 ^ w + 1 < 2 ^ w := hlast
  have hsplit : n / 2 ^ (w * h) + 1 =
      (n / 2 ^ (w * h) % 2 ^ w + 1) + 2 ^ w * (n / 2 ^ (w * h) / 2 ^ w) := by
    have hdiv := div_add_mod (n / 2 ^ (w * h)) (2 ^ w)
    omega
  constructor
  · show _ / 2 ^ (w * h) % 2 ^ w = n / 2 ^ (w * h) % 2 ^ w + 1
    rw [hquot, hsplit, add_mul_mod_self_left, mod_eq_of_lt hval]
  · rw [two_pow_succ, ← Nat.div_div_eq_div_mul, ← Nat.div_div_eq_div_mul, hquot, hsplit,
      Nat.add_mul_div_left _ _ (Nat.two_pow_pos w), Nat.div_eq_of_lt hval, Nat.zero_add]

/-! ## The search for a slot -/

theorem drop_finRange {k : Nat} (hk : k < 2 ^ w) :
    (finRange (2 ^ w)).drop k = ⟨k, hk⟩ :: (finRange (2 ^ w)).drop (k + 1) := by
  rw [drop_eq_getElem_cons (by simpa using hk)]
  simp

theorem drop_finRange_of_le {k : Nat} (hk : 2 ^ w ≤ k) : (finRange (2 ^ w)).drop k = [] :=
  drop_eq_nil_of_le (by simpa using hk)

/-- From `n` to `n'` there is no slot that passes the test, in the node that `n` is below. -/
def Passed (test : Fin (2 ^ w) → Bool) (h n n' : Nat) : Prop :=
  ∀ j, n ≤ j → j < n' → test (digit w h j) = false ∧ j / 2 ^ (w * (h + 1)) = n / 2 ^ (w * (h + 1))

theorem Passed.trans {test : Fin (2 ^ w) → Bool} {n'' : Nat} (h₁ : Passed test h n n')
    (h₂ : Passed test h n' n'') (hblock : n' / 2 ^ (w * (h + 1)) = n / 2 ^ (w * (h + 1))) :
    Passed test h n n'' := by
  intro j hle hlt
  by_cases hj : j < n'
  · exact h₁ j hle hj
  · obtain ⟨htest, hdiv⟩ := h₂ j (not_lt.mp hj) hlt
    exact ⟨htest, hdiv.trans hblock⟩

/-- What the search for a slot returns. -/
def ScanSpec (test : Fin (2 ^ w) → Bool) (h n : Nat) (r : Scan w) : Prop :=
  (∃ n', r = .found (digit w h n') (BitVec.ofNat 32 n') ∧ test (digit w h n') = true ∧ n ≤ n' ∧
    n' < 2 ^ 32 ∧ n' / 2 ^ (w * (h + 1)) = n / 2 ^ (w * (h + 1)) ∧ Passed test h n n') ∨
  ∃ n', r = .out (BitVec.ofNat 32 n') ∧ n < n' ∧ n' ≤ 2 ^ 32 ∧ Passed test h n n'

theorem scan_spec (test : Fin (2 ^ w) → Bool) (hs : h * w < 32) (hn : n < 2 ^ 32) :
    ScanSpec test h n (scan test (h * w) ((finRange (2 ^ w)).drop (digit w h n).val)
      (BitVec.ofNat 32 n)) := by
  -- the induction is on the offsets that are left
  generalize hm : 2 ^ w - (digit w h n).val = m
  induction m using Nat.strong_induction_on generalizing n with
  | _ m ih =>
    have hk := (digit w h n).isLt
    rw [drop_finRange hk, scan]
    by_cases htest : test (digit w h n) = true
    · rw [if_pos htest]
      refine .inl ⟨n, rfl, htest, le_rfl, hn, rfl, fun j hle hlt => ?_⟩
      omega
    · rw [if_neg htest]
      simp only [ofNat_next hs hn]
      -- the indices up to the next one are all below this slot
      have hshift : 2 ^ (h * w) = 2 ^ (w * h) := by rw [mul_comm]
      have hnext := next_le hs hn
      have hlt := lt_next (s := h * w) (n := n)
      have hpassed : Passed test h n ((n / 2 ^ (h * w) + 1) * 2 ^ (h * w)) := by
        intro j hle hj
        have hdiv := div_eq_of_lt_next hle hj
        rw [hshift] at hdiv
        refine ⟨by rw [digit_congr hdiv, Bool.eq_false_of_not_eq_true htest], ?_⟩
        rw [two_pow_succ, ← Nat.div_div_eq_div_mul, hdiv, Nat.div_div_eq_div_mul]
      by_cases hwrap : BitVec.ofNat 32 ((n / 2 ^ (h * w) + 1) * 2 ^ (h * w)) = 0#32
      · rw [if_pos hwrap]
        exact .inr ⟨_, rfl, hlt, hnext, hpassed⟩
      · rw [if_neg hwrap]
        have hN : (n / 2 ^ (h * w) + 1) * 2 ^ (h * w) < 2 ^ 32 := by
          refine lt_of_le_of_ne hnext fun heq => hwrap ?_
          rw [heq]
          rfl
        by_cases hlast : (digit w h n).val + 1 < 2 ^ w
        · -- the next slot of the same node
          obtain ⟨hdigit, hblock⟩ := digit_next hlast
          have hres := ih _ (by omega) hN rfl
          rw [hdigit] at hres
          rcases hres with ⟨n', hr, htest', hle, hn', hblk, hpass⟩ | ⟨n', hr, hlt', hn', hpass⟩
          · exact .inl ⟨n', hr, htest', hlt.le.trans hle, hn', hblk.trans hblock,
              hpassed.trans hpass hblock⟩
          · exact .inr ⟨n', hr, hlt.trans hlt', hn', hpassed.trans hpass hblock⟩
        · rw [drop_finRange_of_le (by omega), scan]
          exact .inr ⟨_, rfl, hlt, hnext, hpassed⟩

/-! ## One round -/

/-- **What a round of a gang lookup returns:** the beginning of what is left of the map `m`, no more
than there is room for, and where the rest begins. -/
def RoundSpec (m : Nat → Option α) (room n : Nat) (r : Option (List α × BitVec 32)) : Prop :=
  ∃ items n', r = some (items, BitVec.ofNat 32 n') ∧ n < n' ∧ n' ≤ 2 ^ 32 ∧
    valuesFrom (2 ^ 32) m n = items ++ valuesFrom (2 ^ 32) m n' ∧ items.length ≤ room

section Round

variable {m : Nat → Option α} {room n n' : Nat}

theorem RoundSpec.skip {r : Option (List α × BitVec 32)} (h : RoundSpec m room n' r) (hle : n ≤ n')
    (hnone : ∀ j, n ≤ j → j < n' → m j = none) : RoundSpec m room n r := by
  obtain ⟨items, n'', hr, hlt, hn'', hvalues, hroom⟩ := h
  refine ⟨items, n'', hr, hle.trans_lt hlt, hn'', ?_, hroom⟩
  rw [valuesFrom_skip hle hnone, hvalues]

theorem roundSpec_out (hlt : n < n') (hn' : n' ≤ 2 ^ 32) (hnone : ∀ j, n ≤ j → j < n' → m j = none) :
    RoundSpec m room n (some ([], BitVec.ofNat 32 n')) := by
  refine ⟨[], n', rfl, hlt, hn', ?_, zero_le _⟩
  rw [valuesFrom_skip hlt.le hnone]
  rfl

theorem succ_lt_of_digit (hw : w ≤ 32) (hn : n < 2 ^ 32) (hlast : (digit w 0 n).val + 1 < 2 ^ w) :
    n + 1 < 2 ^ 32 := by
  refine lt_of_le_of_ne hn fun heq => ?_
  have hval : n % 2 ^ w + 1 < 2 ^ w := by
    have hdigit : (digit w 0 n).val = n % 2 ^ w := by
      show n / 2 ^ (w * 0) % 2 ^ w = n % 2 ^ w
      rw [Nat.mul_zero, Nat.pow_zero, Nat.div_one]
    rw [← hdigit]
    exact hlast
  have hzero : (n + 1) % 2 ^ w = 0 := by
    rw [show n + 1 = 2 ^ 32 from heq]
    exact mod_eq_zero_of_dvd (pow_dvd_pow 2 hw)
  rw [add_mod, mod_eq_of_lt (lt_of_le_of_lt (le_add_left _ _) hval), mod_eq_of_lt hval] at hzero
  omega

theorem grab_spec (hw : w ≤ 32) {pick : Fin (2 ^ w) → Option (Option α)} (hn : n < 2 ^ 32) (hroom : 0 < room)
    (hpick : ∀ j, j < 2 ^ 32 → j / 2 ^ (w * (0 + 1)) = n / 2 ^ (w * (0 + 1)) →
      pick (digit w 0 j) = some (m j)) :
    RoundSpec m room n
      (grab pick ((finRange (2 ^ w)).drop (digit w 0 n).val) (BitVec.ofNat 32 n) room) := by
  generalize hk : 2 ^ w - (digit w 0 n).val = k
  induction k using Nat.strong_induction_on generalizing n room with
  | _ k ih =>
    have hdigit := (digit w 0 n).isLt
    have hnext : BitVec.ofNat 32 n + 1#32 = BitVec.ofNat 32 (n + 1) := by
      rw [BitVec.ofNat_add]
    -- what the loop makes of the slots after this one
    have hrest : ∀ left, 0 < left → ∃ items n',
        grab pick ((finRange (2 ^ w)).drop ((digit w 0 n).val + 1)) (BitVec.ofNat 32 (n + 1))
          left = some (items, BitVec.ofNat 32 n') ∧ n < n' ∧ n' ≤ 2 ^ 32 ∧
        valuesFrom (2 ^ 32) m (n + 1) = items ++ valuesFrom (2 ^ 32) m n' ∧
        items.length ≤ left := by
      intro left hleft
      by_cases hlast : (digit w 0 n).val + 1 < 2 ^ w
      · obtain ⟨hsucc, hblock⟩ := digit_next hlast
        rw [Nat.zero_mul, Nat.pow_zero, Nat.div_one, Nat.mul_one] at hsucc hblock
        obtain ⟨items, n', hr, hlt, hn', hvalues, hlen⟩ := ih _ (by omega)
          (succ_lt_of_digit hw hn hlast) hleft (fun j hj hdiv => hpick j hj (hdiv.trans hblock)) rfl
        rw [hsucc] at hr
        exact ⟨items, n', hr, by omega, hn', hvalues, hlen⟩
      · rw [drop_finRange_of_le (by omega)]
        exact ⟨[], n + 1, rfl, by omega, hn, rfl, zero_le _⟩
    rw [drop_finRange hdigit]
    have hfirst : pick ⟨(digit w 0 n).val, hdigit⟩ = some (m n) := hpick n hn rfl
    cases hm : m n with
    | none =>
      obtain ⟨items, n', hr, hlt, hn', hvalues, hlen⟩ := hrest room hroom
      refine ⟨items, n', ?_, hlt, hn', ?_, hlen⟩
      · simp [grab, hfirst, hm, hnext, hr]
      · rw [valuesFrom_step hn, hm, hvalues]
        rfl
    | some a =>
      by_cases hone : room = 1
      · refine ⟨[a], n + 1, ?_, by omega, hn, ?_, hroom⟩
        · simp [grab, hfirst, hm, hnext, hone]
        · rw [valuesFrom_step hn, hm]
          rfl
      · obtain ⟨items, n', hr, hlt, hn', hvalues, hlen⟩ := hrest (room - 1) (by omega)
        refine ⟨a :: items, n', ?_, hlt, hn', ?_, ?_⟩
        · simp [grab, hfirst, hm, hnext, if_neg hone, hr]
        · rw [valuesFrom_step hn, hm, hvalues]
          rfl
        · rw [length_cons]
          omega

end Round

/-! ## The way down -/

/-- What `radix_tree_gang_lookup_tag` looks for: the item, if it has the tag. -/
def taggedItem (tag : Tag) (e : Option α × (Tag → Bool)) : Option α :=
  if e.2 tag then e.1 else none

/-- The map `m` is what `val` sees below a pointer, on the indices below it. -/
def Agrees (val : Option α × (Tag → Bool) → Option α) (m : Nat → Option α) (n h : Nat)
    (slot : Option (RadixSub w α h)) (bits : Tag → Bool) : Prop :=
  ∀ j, j < 2 ^ 32 → j / 2 ^ (w * h) = n / 2 ^ (w * h) → m j = val (entry h slot bits j)

section Down

variable {val : Option α × (Tag → Bool) → Option α} {m : Nat → Option α} {room n h : Nat}
  {slot : RadixNode w (RadixSub w α h)} {bits : Tag → Bool}

theorem Agrees.down (hm : Agrees val m n (h + 1) (some slot) bits)
    (hblock : n' / 2 ^ (w * (h + 1)) = n / 2 ^ (w * (h + 1))) :
    Agrees val m n' h (slot.slots (digit w h n')) (tagNote slot.data (digit w h n')) := by
  intro j hj hdiv
  have habove : j / 2 ^ (w * (h + 1)) = n / 2 ^ (w * (h + 1)) := by
    rw [← hblock, two_pow_succ, ← Nat.div_div_eq_div_mul, hdiv, Nat.div_div_eq_div_mul]
  rw [hm j hj habove, entry, leaf_some, digit_congr hdiv]

theorem Agrees.passed (hm : Agrees val m n (h + 1) (some slot) bits) {test : Fin (2 ^ w) → Bool}
    (htest : ∀ i, test i = false → ∀ j, val (entry h (slot.slots i) (tagNote slot.data i) j) = none)
    (hn' : n' ≤ 2 ^ 32) (hpass : Passed test h n n') : ∀ j, n ≤ j → j < n' → m j = none := by
  intro j hle hlt
  obtain ⟨hfalse, hblock⟩ := hpass j hle hlt
  rw [hm j (by omega) hblock, entry, leaf_some]
  exact htest _ hfalse j

theorem offsetsFrom_offset (hn : n < 2 ^ 32) : offsetsFrom (offset w (BitVec.ofNat 32 n) (h * w)) =
      (finRange (2 ^ w)).drop (digit w h n).val := by
  rw [offsetsFrom, offset_eq_digit, toNat_ofNat_of_lt hn]

theorem offsetsFrom_zero (hn : n < 2 ^ 32) :
    offsetsFrom (offset w (BitVec.ofNat 32 n) 0) = (finRange (2 ^ w)).drop (digit w 0 n).val := by
  have hoffsets := offsetsFrom_offset (w := w) (h := 0) hn
  rwa [zero_mul] at hoffsets

theorem lookupDown_spec (hw : w ≤ 32) (hh : h * w < 32) (hn : n < 2 ^ 32) (hroom : 0 < room)
    (hm : Agrees Prod.fst m n (h + 1) (some slot) bits) :
    RoundSpec m room n (lookupDown room h slot (BitVec.ofNat 32 n)) := by
  induction h generalizing n bits with
  | zero =>
    rw [lookupDown, offsetsFrom_zero hn]
    refine grab_spec hw hn hroom fun j hj hdiv => ?_
    rw [hm j hj hdiv]
    rfl
  | succ h ih =>
    have hfree : ∀ i, (slot.slots i).isSome = false →
        ∀ j, (entry (h + 1) (slot.slots i) (tagNote slot.data i) j).1 = none := by
      intro i hi j
      rw [isSome_eq_false_iff, isNone_iff_eq_none] at hi
      rw [hi]
      rfl
    rw [lookupDown, offsetsFrom_offset hn]
    rcases scan_spec (fun i => (slot.slots i).isSome) hh hn with
      ⟨n', hr, htest, hle, hn', hblock, hpass⟩ | ⟨n', hr, hlt, hn', hpass⟩
    · rw [hr]
      obtain ⟨c, hc⟩ := isSome_iff_exists.mp htest
      have hbelow := hm.down hblock
      rw [hc] at hbelow
      have hround := ih (by rw [succ_mul] at hh; omega) hn' hbelow
      show RoundSpec m room n ((slot.slots (digit w (h + 1) n')).bind _)
      rw [hc]
      exact hround.skip hle (hm.passed hfree hn'.le hpass)
    · rw [hr]
      exact roundSpec_out hlt hn' (hm.passed hfree hn' hpass)

theorem slots_of_set (hs : Sound (h + 1) (some slot) bits) {i : Fin (2 ^ w)}
    (hset : slot.data.tags tag i = true) : ∃ c, slot.slots i = some c := by
  cases hslot : slot.slots i with
  | none =>
    have hbelow := hs.2.2 i
    rw [hslot, sound_none] at hbelow
    rw [show slot.data.tags tag i = false from congrFun hbelow tag] at hset
    cases hset
  | some c => exact ⟨c, rfl⟩

/-- What `__lookup_tag` picks from a slot of a node at the bottom. -/
theorem pick_tagged {slot : RadixNode w (RadixSub w α 0)} (hs : Sound 1 (some slot) bits) (tag : Tag)
    (hm : Agrees (taggedItem tag) m n 1 (some slot) bits) {j : Nat} (hj : j < 2 ^ 32)
    (hdiv : j / 2 ^ (w * (0 + 1)) = n / 2 ^ (w * (0 + 1))) :
    (if slot.data.tags tag (digit w 0 j) then (slot.slots (digit w 0 j)).map some else some none) =
      some (m j) := by
  rw [hm j hj hdiv, entry, leaf_some]
  show _ = some (if slot.data.tags tag (digit w 0 j) then slot.slots (digit w 0 j) else none)
  by_cases htag : slot.data.tags tag (digit w 0 j) = true
  · obtain ⟨c, hc⟩ := slots_of_set hs htag
    rw [if_pos htag, if_pos htag, hc]
    rfl
  · rw [if_neg htag, if_neg htag]

theorem taggedItem_of_clear (hs : Sound (h + 1) (some slot) bits) (i : Fin (2 ^ w))
    (hclear : slot.data.tags tag i = false) (j : Nat) :
    taggedItem tag (entry h (slot.slots i) (tagNote slot.data i) j) = none := by
  rw [taggedItem]
  split
  · rename_i htag
    by_contra hitem
    have hset := ((hs.2.2 i).bit_iff tag).mpr ⟨j, hitem, htag⟩
    rw [show tagNote slot.data i tag = false from hclear] at hset
    cases hset
  · rfl

theorem lookupTagDown_spec (hw : w ≤ 32) (hh : h * w < 32) (hs : Sound (h + 1) (some slot) bits)
    (tag : Tag) (hn : n < 2 ^ 32) (hroom : 0 < room)
    (hm : Agrees (taggedItem tag) m n (h + 1) (some slot) bits) :
    RoundSpec m room n (lookupTagDown tag room h slot (BitVec.ofNat 32 n)) := by
  induction h generalizing n bits with
  | zero =>
    have hscan := scan_spec (slot.data.tags tag) hh hn
    rw [zero_mul] at hscan
    rw [lookupTagDown, offsetsFrom_zero hn]
    rcases hscan with ⟨n', hr, htest, hle, hn', hblock, hpass⟩ | ⟨n', hr, hlt, hn', hpass⟩
    · rw [hr]
      obtain ⟨c, hc⟩ := slots_of_set hs htest
      show RoundSpec m room n ((slot.slots (digit w 0 n')).bind _)
      rw [hc, bind_some, offsetsFrom_zero hn']
      refine RoundSpec.skip ?_ hle (hm.passed (taggedItem_of_clear hs) hn'.le hpass)
      exact grab_spec hw hn' hroom fun j hj hdiv => pick_tagged hs tag hm hj (hdiv.trans hblock)
    · rw [hr]
      exact roundSpec_out hlt hn' (hm.passed (taggedItem_of_clear hs) hn' hpass)
  | succ h ih =>
    rw [lookupTagDown, offsetsFrom_offset hn]
    rcases scan_spec (slot.data.tags tag) hh hn with
      ⟨n', hr, htest, hle, hn', hblock, hpass⟩ | ⟨n', hr, hlt, hn', hpass⟩
    · rw [hr]
      obtain ⟨c, hc⟩ := slots_of_set hs htest
      have hbelow := hm.down hblock
      have hsound := hs.2.2 (digit w (h + 1) n')
      rw [hc] at hbelow hsound
      have hround := ih (by rw [succ_mul] at hh; omega) hsound hn' hbelow
      show RoundSpec m room n ((slot.slots (digit w (h + 1) n')).bind _)
      rw [hc]
      exact hround.skip hle (hm.passed (taggedItem_of_clear hs) hn'.le hpass)
    · rw [hr]
      exact roundSpec_out hlt hn' (hm.passed (taggedItem_of_clear hs) hn' hpass)

end Down

/-! ## All rounds -/

/-- **The rounds of a gang lookup return what there is, up to the number asked for.** -/
theorem gangLoop_spec {s : Nat → BitVec 32 → Option (List α × BitVec 32)} {maxIndex : Nat}
    {m : Nat → Option α} (hmax : ∀ j, maxIndex < j → m j = none)
    (hsearch : ∀ room n, 0 < room → n < 2 ^ 32 → n ≤ maxIndex →
      RoundSpec m room n (s room (BitVec.ofNat 32 n)))
    (fuel : Nat) (hn : n < 2 ^ 32) (hfuel : 2 ^ 32 < n + fuel) (room : Nat) :
    gangLoop s maxIndex fuel (BitVec.ofNat 32 n) room = some ((valuesFrom (2 ^ 32) m n).take room) := by
  induction fuel generalizing n room with
  | zero => omega
  | succ fuel ih =>
    rw [gangLoop, toNat_ofNat_of_lt hn]
    by_cases hstop : room = 0 ∨ maxIndex < n
    · rw [if_pos hstop]
      rcases hstop with rfl | hlt
      · rw [take_zero]
      · rw [valuesFrom_skip hn.le fun j hj _ => hmax j (by omega), valuesFrom_of_le le_rfl, take_nil]
    · rw [if_neg hstop]
      rw [not_or, not_lt] at hstop
      obtain ⟨items, n', hr, hlt, hn', hvalues, hroom⟩ :=
        hsearch room n (pos_of_ne_zero hstop.1) hn hstop.2
      rw [hr, hvalues, take_append, take_of_length_le hroom]
      by_cases hend : n' = 2 ^ 32
      · subst hend
        rw [valuesFrom_of_le le_rfl, take_nil, append_nil]
        rfl
      · have hne : ¬ BitVec.ofNat 32 n' = 0#32 :=
          fun h => hend ((ofNat_eq_zero_iff (by omega) hn').mp h)
        have hrest := ih (lt_of_le_of_ne hn' hend) (by omega) (room - items.length)
        simp [if_neg hne, hrest]

section Root

variable {root : RadixRoot w α}

theorem agrees_root (root : RadixRoot w α) (val : Option α × (Tag → Bool) → Option α)
    (hn : n < 2 ^ (w * root.height)) :
    Agrees val (fun j => val (root.at j)) n root.height root.rnode root.tags := by
  intro j _ hdiv
  rw [div_eq_of_lt hn] at hdiv
  have hj : j < 2 ^ (w * root.height) := by
    rcases Nat.div_eq_zero_iff.mp hdiv with h | h
    · exact absurd h (Nat.two_pow_pos _).ne'
    · exact h
  show val (root.at j) = _
  rw [at_of_lt hj]

theorem RootInv.at_of_maxindex_lt (h : RootInv root) {j : Nat}
    (hj : radixTreeMaxindex w root.height < j) : root.at j = (none, noTags) := by
  by_cases hlt : j < 2 ^ 32
  · rw [← toNat_ofNat_of_lt hlt] at hj ⊢
    exact at_of_le (maxindex_lt_iff.mp hj)
  · exact h.range j (not_lt.mp hlt)

theorem lt_of_le_maxindex (hn : n < 2 ^ 32) (hle : n ≤ radixTreeMaxindex w h) : n < 2 ^ (w * h) := by
  by_contra hge
  rw [← toNat_ofNat_of_lt hn] at hle hge
  exact not_lt.mpr hle (maxindex_lt_iff.mpr (not_lt.mp hge))

variable {room : Nat}

theorem roundSpec_zero {m : Nat → Option α} (hroom : 0 < room) (hn : n = 0) (hrest : ∀ j, 0 < j → m j = none) :
    RoundSpec m room n (some ((m 0).toList, BitVec.ofNat 32 (2 ^ 32))) := by
  subst hn
  refine ⟨(m 0).toList, 2 ^ 32, rfl, by omega, le_rfl, ?_, ?_⟩
  · have hskip : valuesFrom (2 ^ 32) m (0 + 1) = valuesFrom (2 ^ 32) m (2 ^ 32) :=
      valuesFrom_skip (by omega) fun j hj _ => hrest j (by omega)
    rw [valuesFrom_step (by omega), hskip]
  · cases m 0 with
    | none => exact zero_le _
    | some a => exact hroom

theorem eq_zero_of_height_zero (hzero : root.height = 0) (hn : n < 2 ^ 32)
    (hle : n ≤ radixTreeMaxindex w root.height) : n = 0 := by
  have hlt := lt_of_le_maxindex hn hle
  rw [hzero, mul_zero, pow_zero] at hlt
  omega

theorem at_of_height_zero {r : RadixRoot w α} (hzero : r.height = 0) (j : Nat) (hj : 0 < j) :
    r.at j = (none, noTags) := by
  refine at_of_le ?_
  rw [hzero, mul_zero, pow_zero]
  exact hj

theorem shift_lt {k : Nat} (hlow : (k + 1) * w < 32 + w) : k * w < 32 := by
  rw [succ_mul] at hlow
  omega

/-- `__lookup`, from a root that has a node if it has a height. -/
theorem lookupItems_spec (hw : w ≤ 32) (h : RootInv root) (hnode : 0 < root.height → root.rnode ≠ none)
    (hroom : 0 < room) (hn : n < 2 ^ 32) (hle : n ≤ radixTreeMaxindex w root.height) :
    RoundSpec (fun j => (root.at j).1) room n
      (lookupItems room (BitVec.ofNat 32 n) root.height root.rnode) := by
  have hagrees := agrees_root root Prod.fst (lt_of_le_maxindex hn hle)
  have hlow := h.low
  have hzero := fun h0 : root.height = 0 => eq_zero_of_height_zero h0 hn hle
  have hrest := at_of_height_zero (r := root)
  clear h hle
  obtain ⟨height, tags, rnode⟩ := root
  cases height with
  | zero =>
    obtain rfl := hzero rfl
    exact roundSpec_zero hroom rfl fun j hj => congrArg Prod.fst (hrest rfl j hj)
  | succ k =>
    cases rnode with
    | none => exact absurd rfl (hnode (succ_pos k))
    | some slot => exact lookupDown_spec hw (shift_lt hlow) hn hroom hagrees

/-- `__lookup_tag`, from a root whose bit is set. -/
theorem lookupTagItems_spec (hw : w ≤ 32) (h : RootInv root) (htag : root.tags tag = true)
    (hroom : 0 < room) (hn : n < 2 ^ 32) (hle : n ≤ radixTreeMaxindex w root.height) :
    RoundSpec (fun j => taggedItem tag (root.at j)) room n
      (lookupTagItems tag room (BitVec.ofNat 32 n) root.height root.rnode) := by
  have hagrees := agrees_root root (taggedItem tag) (lt_of_le_maxindex hn hle)
  have hlow := h.low
  have hsound := h.sound
  have hzero := fun h0 : root.height = 0 => eq_zero_of_height_zero h0 hn hle
  have hrest := at_of_height_zero (r := root)
  clear h hle
  obtain ⟨height, tags, rnode⟩ := root
  cases height with
  | zero =>
    obtain rfl := hzero rfl
    have hitem : taggedItem tag ((⟨0, tags, rnode⟩ : RadixRoot w α).at 0) = rnode := by
      rw [RadixRoot.at_of_lt (Nat.two_pow_pos _)]
      exact if_pos htag
    have hround := roundSpec_zero (m := fun j => taggedItem tag ((⟨0, tags, rnode⟩ : RadixRoot w α).at j))
      hroom rfl fun j hj => by
        show taggedItem tag (RadixRoot.at _ j) = none
        rw [hrest rfl j hj]
        rfl
    simp only [hitem] at hround
    exact hround
  | succ k =>
    cases rnode with
    | none =>
      -- a root without a node has no tags
      rw [show tags = noTags from sound_none.mp hsound] at htag
      cases htag
    | some slot => exact lookupTagDown_spec hw (shift_lt hlow) hsound tag hn hroom hagrees

/-- **`radix_tree_gang_lookup` returns the items from an index on, in ascending order.** -/
theorem radixTreeGangLookup_spec (hw : w ≤ 32) (h : RootInv root)
    (hnode : 0 < root.height → root.rnode ≠ none) (firstIndex : BitVec 32) (maxItems : Nat) :
    radixTreeGangLookup root firstIndex maxItems =
      some ((valuesFrom (2 ^ 32) (fun j => (root.at j).1) firstIndex.toNat).take maxItems) := by
  have hspec := gangLoop_spec (m := fun j => (root.at j).1)
    (s := fun room index => lookupItems room index root.height root.rnode)
    (fun j hj => congrArg Prod.fst (h.at_of_maxindex_lt hj))
    (fun room n hroom hn hle => lookupItems_spec hw h hnode hroom hn hle)
    (2 ^ 32 + 1) firstIndex.isLt (by omega) maxItems
  rwa [BitVec.ofNat_toNat, BitVec.setWidth_eq] at hspec

/-- **`radix_tree_gang_lookup` dereferences `NULL`** in a root that has a height and no node, if it
comes to look. -/
theorem radixTreeGangLookup_null (hheight : 0 < root.height) (hnode : root.rnode = none)
    {firstIndex : BitVec 32} {maxItems : Nat} (hroom : maxItems ≠ 0)
    (hle : firstIndex.toNat ≤ radixTreeMaxindex w root.height) :
    radixTreeGangLookup root firstIndex maxItems = none := by
  have hitems : lookupItems maxItems firstIndex root.height root.rnode = none := by
    rw [hnode]
    obtain ⟨k, hk⟩ := exists_eq_succ_of_ne_zero hheight.ne'
    rw [hk]
    rfl
  rw [radixTreeGangLookup, gangLoop, if_neg (not_or.mpr ⟨hroom, not_lt.mpr hle⟩), hitems]
  rfl

theorem radixTreeGangLookup_nothing {firstIndex : BitVec 32} {maxItems : Nat}
    (h : maxItems = 0 ∨ radixTreeMaxindex w root.height < firstIndex.toNat) :
    radixTreeGangLookup root firstIndex maxItems = some [] := by
  rw [radixTreeGangLookup, gangLoop, if_pos h]

/-- **`radix_tree_gang_lookup_tag` returns the tagged items from an index on, in ascending order.** -/
theorem radixTreeGangLookupTag_spec (hw : w ≤ 32) (h : RootInv root) (firstIndex : BitVec 32)
    (maxItems : Nat) (tag : Tag) : radixTreeGangLookupTag root firstIndex maxItems tag =
      some ((valuesFrom (2 ^ 32) (fun j => taggedItem tag (root.at j)) firstIndex.toNat).take
        maxItems) := by
  rw [radixTreeGangLookupTag]
  split
  · rename_i htag
    have hspec := gangLoop_spec (m := fun j => taggedItem tag (root.at j))
      (s := fun room index => lookupTagItems tag room index root.height root.rnode)
      (fun j hj => by
        show taggedItem tag (root.at j) = none
        rw [h.at_of_maxindex_lt hj]
        rfl)
      (fun room n hroom hn hle => lookupTagItems_spec hw h htag hroom hn hle)
      (2 ^ 32 + 1) firstIndex.isLt (by omega) maxItems
    rwa [BitVec.ofNat_toNat, BitVec.setWidth_eq] at hspec
  · rename_i htag
    -- without the bit of the root, nothing is tagged
    have hnone : ∀ j, taggedItem tag (root.at j) = none := by
      intro j
      rw [taggedItem]
      split
      · rename_i hbit
        by_contra hitem
        by_cases hj : j < 2 ^ (w * root.height)
        · rw [at_of_lt hj] at hbit hitem
          exact htag ((h.sound.bit_iff tag).mpr ⟨j, hitem, hbit⟩)
        · exact hitem (by rw [at_of_le (not_lt.mp hj)])
      · rfl
    rw [valuesFrom_skip firstIndex.isLt.le fun j _ _ => hnone j, valuesFrom_of_le le_rfl, take_nil]

end Root

end Linux
