/-
# MipsOnQemu.Lib.DigitTrie -- tries over the digits of a number

A trie of height `h` over digits of `w` bits has a slot for every digit in each of its nodes; the
slots of a node of height `h + 1` hold tries of height `h`, and a trie of height 0 is a value. The
type says the height, so a node is never taken for a value. `leaf` goes down along the digits of an
index, the most significant first, and sees no more of the index than its lowest `w * h` bits; with
the value it finds it returns what the last node on the way says of the slot.

At the end, the values that a map has from an index on, in ascending order, and how they change
along a scan.
-/

import Mathlib

namespace DigitTrie

open Function Finset List

universe u

/-! ## Digits -/

/-- Digit number `h` of an index. -/
def digit (w h idx : Nat) : Fin (2 ^ w) :=
  ⟨idx / 2 ^ (w * h) % 2 ^ w, Nat.mod_lt _ (Nat.two_pow_pos w)⟩

theorem two_pow_succ (w h : Nat) : 2 ^ (w * (h + 1)) = 2 ^ (w * h) * 2 ^ w := by
  rw [Nat.mul_succ, Nat.pow_add]

theorem mod_eq_iff (w h i j : Nat) : i % 2 ^ (w * (h + 1)) = j % 2 ^ (w * (h + 1)) ↔
    digit w h i = digit w h j ∧ i % 2 ^ (w * h) = j % 2 ^ (w * h) := by
  rw [two_pow_succ, Nat.mod_mul, Nat.mod_mul, Fin.ext_iff]
  show _ ↔ i / 2 ^ (w * h) % 2 ^ w = j / 2 ^ (w * h) % 2 ^ w ∧ _
  have hi := Nat.mod_lt i (Nat.two_pow_pos (w * h))
  have hj := Nat.mod_lt j (Nat.two_pow_pos (w * h))
  constructor
  · intro h'
    have hlow := congrArg (· % 2 ^ (w * h)) h'
    have hhigh := congrArg (· / 2 ^ (w * h)) h'
    simp only [Nat.add_mul_mod_self_left, Nat.mod_mod] at hlow
    simp only [Nat.add_mul_div_left _ _ (Nat.two_pow_pos _), Nat.div_eq_of_lt hi,
      Nat.div_eq_of_lt hj, Nat.zero_add] at hhigh
    exact ⟨hhigh, hlow⟩
  · rintro ⟨hhigh, hlow⟩
    rw [hhigh, hlow]

/-! ## Nodes and tries -/

/-- A node: its own data, and a slot for every digit. -/
structure Node (w : Nat) (ν β : Type u) where
  data : ν
  slots : Fin (2 ^ w) → Option β

/-- **A trie of height `h`.** -/
@[reducible] def Trie (w : Nat) (ν α : Type u) : Nat → Type u
  | 0 => α
  | h + 1 => Node w ν (Trie w ν α h)

variable {w : Nat} {ν α β : Type u}

section Leaf

-- what a node says of a slot, and what is said of the slots of a node that is missing
variable {γ : Type u} (note : ν → Fin (2 ^ w) → γ) (blank : γ)

/-- **The value at an index, with what the lowest node says of its slot.** For a trie of height 0 that
is what is said of the trie itself. -/
def leaf : (h : Nat) → Option (Trie w ν α h) → γ → Nat → Option α × γ
  | 0, slot, said, _ => (slot, said)
  | _ + 1, none, _, _ => (none, blank)
  | h + 1, some n, _, idx => leaf h (n.slots (digit w h idx)) (note n.data (digit w h idx)) idx

variable {note blank}

theorem leaf_none (h idx : Nat) :
    leaf note blank h (none : Option (Trie w ν α h)) blank idx = (none, blank) := by
  cases h <;> rfl

theorem leaf_some {h : Nat} (n : Node w ν (Trie w ν α h)) (said : γ) (idx : Nat) :
    leaf note blank (h + 1) (some n) said idx =
      leaf note blank h (n.slots (digit w h idx)) (note n.data (digit w h idx)) idx := rfl

theorem leaf_congr {h : Nat} {i j : Nat} (hij : i % 2 ^ (w * h) = j % 2 ^ (w * h))
    (slot : Option (Trie w ν α h)) (said : γ) :
    leaf note blank h slot said i = leaf note blank h slot said j := by
  induction h generalizing said with
  | zero => rfl
  | succ h ih =>
    obtain ⟨hdigit, hlow⟩ := (mod_eq_iff w h i j).mp hij
    cases slot with
    | none => rfl
    | some n =>
      rw [leaf_some, leaf_some, hdigit]
      exact ih hlow _ _

theorem leaf_update {h : Nat} {n n' : Node w ν (Trie w ν α h)} {said said' : γ} {idx : Nat} {v : Option α × γ}
    (hother : ∀ i, i ≠ digit w h idx → n'.slots i = n.slots i ∧ note n'.data i = note n.data i)
    (hchild : ∀ j, leaf note blank h (n'.slots (digit w h idx)) (note n'.data (digit w h idx)) j =
      if j % 2 ^ (w * h) = idx % 2 ^ (w * h) then v
      else leaf note blank h (n.slots (digit w h idx)) (note n.data (digit w h idx)) j) (j : Nat) :
    leaf note blank (h + 1) (some n') said' j =
      if j % 2 ^ (w * (h + 1)) = idx % 2 ^ (w * (h + 1)) then v
      else leaf note blank (h + 1) (some n) said j := by
  rw [leaf_some, leaf_some]
  by_cases hd : digit w h j = digit w h idx
  · rw [hd, hchild]
    by_cases hlow : j % 2 ^ (w * h) = idx % 2 ^ (w * h)
    · rw [if_pos hlow, if_pos ((mod_eq_iff w h j idx).mpr ⟨hd, hlow⟩)]
    · rw [if_neg hlow, if_neg fun h' => hlow ((mod_eq_iff w h j idx).mp h').2]
  · obtain ⟨hslot, hnote⟩ := hother _ hd
    rw [hslot, hnote, if_neg fun h' => hd ((mod_eq_iff w h j idx).mp h').1]

theorem leaf_update_same {h : Nat} {n n' : Node w ν (Trie w ν α h)} {said said' : γ} {d : Fin (2 ^ w)}
    (hother : ∀ i, i ≠ d → n'.slots i = n.slots i ∧ note n'.data i = note n.data i)
    (hchild : ∀ j, leaf note blank h (n'.slots d) (note n'.data d) j =
      leaf note blank h (n.slots d) (note n.data d) j) (j : Nat) :
    leaf note blank (h + 1) (some n') said' j = leaf note blank (h + 1) (some n) said j := by
  rw [leaf_some, leaf_some]
  by_cases hd : digit w h j = d
  · rw [hd, hchild]
  · obtain ⟨hslot, hnote⟩ := hother _ hd
    rw [hslot, hnote]

theorem exists_digit (h : Nat) (d : Fin (2 ^ w)) (j : Nat) :
    ∃ idx, digit w h idx = d ∧ idx % 2 ^ (w * h) = j % 2 ^ (w * h) := by
  refine ⟨j % 2 ^ (w * h) + 2 ^ (w * h) * d.val, Fin.ext ?_, ?_⟩
  · show (j % 2 ^ (w * h) + 2 ^ (w * h) * d.val) / 2 ^ (w * h) % 2 ^ w = d.val
    rw [Nat.add_mul_div_left _ _ (Nat.two_pow_pos _),
      Nat.div_eq_of_lt (Nat.mod_lt _ (Nat.two_pow_pos _)), Nat.zero_add, Nat.mod_eq_of_lt d.isLt]
  · rw [Nat.add_mul_mod_self_left, Nat.mod_mod]

end Leaf

/-! ## Slots in use -/

/-- How many slots are in use. -/
def occupied (slots : Fin (2 ^ w) → Option β) : Nat :=
  (Finset.univ.filter fun i => (slots i).isSome).card

section Occupied

variable {slots : Fin (2 ^ w) → Option β} {d : Fin (2 ^ w)} {c : β}

theorem occupied_none : occupied (fun _ : Fin (2 ^ w) => (none : Option β)) = 0 := by
  simp [occupied]

theorem occupied_update_free (h : slots d = none) :
    occupied (update slots d (some c)) = occupied slots + 1 := by
  have hset : (univ.filter fun i => (update slots d (some c) i).isSome) =
      insert d (univ.filter fun i => (slots i).isSome) := by
    ext i
    rcases eq_or_ne i d with rfl | hne
    · simp
    · simp [hne]
  rw [occupied, hset, card_insert_of_notMem (by simp [h]), occupied]

theorem occupied_update_used (h : slots d ≠ none) : occupied (update slots d (some c)) = occupied slots := by
  refine congrArg card ?_
  ext i
  rcases eq_or_ne i d with rfl | hne
  · simpa using Option.isSome_iff_ne_none.mpr h
  · simp [update_of_ne hne]

theorem occupied_update_none (h : slots d ≠ none) : occupied (update slots d none) + 1 = occupied slots := by
  have hset : (univ.filter fun i => (update slots d none i).isSome) =
      (univ.filter fun i => (slots i).isSome).erase d := by
    ext i
    rcases eq_or_ne i d with rfl | hne
    · simp
    · simp [hne]
  have hmem : d ∈ univ.filter fun i => (slots i).isSome := by
    simpa using Option.isSome_iff_ne_none.mpr h
  rw [occupied, hset, card_erase_add_one hmem, occupied]

theorem occupied_eq_zero_iff : occupied slots = 0 ↔ ∀ i, slots i = none := by
  simp [occupied, filter_eq_empty_iff]

theorem eq_none_of_occupied_eq_one (h : occupied slots = 1) (hd : slots d ≠ none)
    {i : Fin (2 ^ w)} (hi : i ≠ d) : slots i = none := by
  have hzero := occupied_update_none hd
  rw [h] at hzero
  have hfree := occupied_eq_zero_iff.mp (Nat.succ.inj hzero) i
  rwa [update_of_ne hi] at hfree

end Occupied

/-! ## The values in ascending order -/

/-- The values of a map on the numbers below `bound`, from `n` on. -/
def valuesFrom (bound : Nat) (m : Nat → Option α) (n : Nat) : List α :=
  (range' n (bound - n)).filterMap m

section Values

variable {bound : Nat} {m : Nat → Option α} {n n' : Nat}

theorem valuesFrom_of_le (h : bound ≤ n) : valuesFrom bound m n = [] := by
  rw [valuesFrom, Nat.sub_eq_zero_of_le h]
  rfl

theorem valuesFrom_congr {m' : Nat → Option α} (h : ∀ i, i < bound → m i = m' i) :
    valuesFrom bound m n = valuesFrom bound m' n := by
  refine filterMap_congr fun i hi => h i ?_
  rw [mem_range'_1] at hi
  omega

theorem valuesFrom_step (h : n < bound) :
    valuesFrom bound m n = (m n).toList ++ valuesFrom bound m (n + 1) := by
  obtain ⟨k, hk⟩ := Nat.exists_eq_add_of_lt h
  have hlen : bound - n = (bound - (n + 1)) + 1 := by omega
  rw [valuesFrom, hlen, range'_succ, filterMap_cons, valuesFrom]
  cases m n <;> rfl

theorem valuesFrom_skip (hle : n ≤ n') (h : ∀ i, n ≤ i → i < n' → m i = none) :
    valuesFrom bound m n = valuesFrom bound m n' := by
  obtain ⟨k, rfl⟩ := Nat.exists_eq_add_of_le hle
  clear hle
  induction k generalizing n with
  | zero => rfl
  | succ k ih =>
    by_cases hn : n < bound
    · rw [valuesFrom_step hn, h n le_rfl (by omega)]
      have hrest := ih (n := n + 1) fun i hi hlt => h i (by omega) (by omega)
      rw [Option.toList_none, nil_append, hrest]
      congr 1
      omega
    · rw [valuesFrom_of_le (by omega), valuesFrom_of_le (by omega)]

end Values

end DigitTrie
