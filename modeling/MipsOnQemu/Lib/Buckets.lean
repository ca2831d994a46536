/-
# MipsOnQemu.Lib.Buckets -- tables of lists, indexed by a hash of a key

Elements with a key are kept in lists; the list of an element is given by a hash of its key. An element
is put in front of its list, and the first one with a key is found or taken out. A table keeps every
element in the list its key belongs to (`Placed`) and has at most one for each key (`Unique`), as long
as only elements with new keys are put in. Then the keys of all lists, one after another, are pairwise
different (`nodup_keys`), and they are the keys that can be found (`mem_keys`).
-/

import Mathlib

namespace Buckets

open List Function

universe u v

variable {α : Type u} {κ : Type v} (key : α → κ) (hash : κ → Nat)

def push (table : Nat → List α) (a : α) : Nat → List α :=
  Function.update table (hash (key a)) (a :: table (hash (key a)))

/-- Some element has the key. -/
def Has (table : Nat → List α) (k : κ) : Prop := ∃ a ∈ table (hash k), key a = k

/-- The keys of the first `n` lists. -/
def keys (n : Nat) (table : Nat → List α) : List κ := (range n).flatMap fun i => (table i).map key

/-- Every element is in the list of its key, and no two have the same. -/
structure Sound (table : Nat → List α) : Prop where
  placed : ∀ i, ∀ a ∈ table i, hash (key a) = i
  unique : ∀ i, ((table i).map key).Nodup

variable {key hash} {table : Nat → List α}

theorem sound_empty : Sound key hash fun _ => [] :=
  ⟨nofun, fun _ => nodup_nil⟩

theorem sound_push (h : Sound key hash table) {a : α} (hnew : ¬ Has key hash table (key a)) :
    Sound key hash (push key hash table a) := by
  constructor
  · intro i b hb
    rw [push, update_apply] at hb
    split at hb
    · rename_i hi
      rcases mem_cons.mp hb with rfl | hb
      · exact hi.symm
      · rw [h.placed _ b hb, hi]
    · exact h.placed i b hb
  · intro i
    rw [push, update_apply]
    split
    · rw [map_cons, nodup_cons]
      refine ⟨fun hmem => hnew ?_, h.unique _⟩
      obtain ⟨b, hb, hkey⟩ := mem_map.mp hmem
      exact ⟨b, hb, hkey⟩
    · exact h.unique i

theorem has_push (a : α) (k : κ) :
    Has key hash (push key hash table a) k ↔ k = key a ∨ Has key hash table k := by
  rw [Has, push, update_apply]
  constructor
  · rintro ⟨b, hb, rfl⟩
    split at hb
    · rename_i hhash
      rcases mem_cons.mp hb with rfl | hb
      · exact .inl rfl
      · exact .inr ⟨b, hhash ▸ hb, rfl⟩
    · exact .inr ⟨b, hb, rfl⟩
  · rintro (rfl | ⟨b, hb, rfl⟩)
    · exact ⟨a, by rw [if_pos rfl]; exact mem_cons_self, rfl⟩
    · refine ⟨b, ?_, rfl⟩
      split
      · rename_i hhash
        exact mem_cons_of_mem _ (hhash ▸ hb)
      · exact hb

theorem Sound.nodup_keys (h : Sound key hash table) (n : Nat) : (keys key n table).Nodup := by
  rw [keys, nodup_flatMap]
  refine ⟨fun i _ => h.unique i, nodup_range.imp ?_⟩
  intro i j hij k hi hj
  obtain ⟨a, ha, rfl⟩ := mem_map.mp hi
  obtain ⟨b, hb, hkey⟩ := mem_map.mp hj
  exact hij (by rw [← h.placed i a ha, ← h.placed j b hb, hkey])

theorem Sound.mem_keys (h : Sound key hash table) {n : Nat} (hn : ∀ k, hash k < n) (k : κ) :
    k ∈ keys key n table ↔ Has key hash table k := by
  rw [keys, mem_flatMap]
  constructor
  · rintro ⟨i, -, hi⟩
    obtain ⟨a, ha, rfl⟩ := mem_map.mp hi
    exact ⟨a, by rw [h.placed i a ha]; exact ha, rfl⟩
  · rintro ⟨a, ha, rfl⟩
    exact ⟨hash (key a), mem_range.mpr (hn _), mem_map_of_mem ha⟩

/-! ## Finding and taking out -/

section Find

variable [DecidableEq κ]

variable (key hash) in
def find (table : Nat → List α) (k : κ) : Option α := (table (hash k)).find? fun a => key a = k

variable (key hash) in
def remove (table : Nat → List α) (k : κ) : Nat → List α :=
  Function.update table (hash k) ((table (hash k)).eraseP fun a => key a = k)

theorem find_isSome_iff {k : κ} : (find key hash table k).isSome ↔ Has key hash table k := by
  rw [find, find?_isSome]
  simp [Has]

theorem find_eq_none_iff {k : κ} : find key hash table k = none ↔ ¬ Has key hash table k := by
  rw [← find_isSome_iff, Option.not_isSome_iff_eq_none]

theorem sound_remove (h : Sound key hash table) (k : κ) : Sound key hash (remove key hash table k) := by
  constructor
  · intro i a ha
    rw [remove, update_apply] at ha
    split at ha
    · rename_i hi
      rw [h.placed _ a (mem_of_mem_eraseP ha), hi]
    · exact h.placed i a ha
  · intro i
    rw [remove, update_apply]
    split
    · exact (h.unique _).sublist (eraseP_sublist.map _)
    · exact h.unique i

theorem ne_of_mem_eraseP {l : List α} (h : (l.map key).Nodup) {k : κ} {a : α}
    (ha : a ∈ l.eraseP fun a => key a = k) : key a ≠ k := by
  induction l with
  | nil => exact absurd ha not_mem_nil
  | cons b l ih =>
    rw [map_cons, nodup_cons] at h
    by_cases hb : key b = k
    · rw [eraseP_cons_of_pos (by simpa using hb)] at ha
      rintro rfl
      exact h.1 (hb ▸ mem_map_of_mem ha)
    · rw [eraseP_cons_of_neg (by simpa using hb)] at ha
      rcases mem_cons.mp ha with rfl | ha
      · exact hb
      · exact ih h.2 ha

theorem Sound.has_remove (h : Sound key hash table) (k k' : κ) :
    Has key hash (remove key hash table k) k' ↔ k' ≠ k ∧ Has key hash table k' := by
  rw [Has, remove, update_apply]
  by_cases hhash : hash k' = hash k
  · rw [if_pos hhash, Has, hhash]
    constructor
    · rintro ⟨a, ha, rfl⟩
      exact ⟨ne_of_mem_eraseP (h.unique _) ha, a, mem_of_mem_eraseP ha, rfl⟩
    · rintro ⟨hne, a, ha, rfl⟩
      exact ⟨a, (mem_eraseP_of_neg (by simpa using hne)).mpr ha, rfl⟩
  · have hne : k' ≠ k := fun hk => hhash (hk ▸ rfl)
    rw [if_neg hhash]
    exact (and_iff_right hne).symm

end Find

/-! ## Changing an element -/

section Adjust

variable [DecidableEq κ]

variable (key hash) in
def adjust (table : Nat → List α) (k : κ) (f : α → α) : Nat → List α :=
  Function.update table (hash k) ((table (hash k)).replaceF fun a => if key a = k then some (f a) else none)

theorem find_push (a : α) (k : κ) :
    find key hash (push key hash table a) k = if key a = k then some a else find key hash table k := by
  rw [find, push, update_apply]
  by_cases hkey : key a = k
  · rw [if_pos (by rw [hkey]), if_pos hkey, find?_cons_of_pos (by simpa using hkey)]
  · rw [if_neg hkey]
    split
    · rename_i hhash
      rw [find?_cons_of_neg (by simpa using hkey), ← hhash, find]
    · rfl

theorem find?_replaceF (k : κ) (f : α → α) (hf : ∀ a, key (f a) = key a) (l : List α) (k' : κ) :
    (l.replaceF fun a => if key a = k then some (f a) else none).find? (fun a => key a = k') =
      if k' = k then (l.find? fun a => key a = k').map f else l.find? fun a => key a = k' := by
  induction l with
  | nil => simp
  | cons a l ih =>
    rw [replaceF_cons]
    by_cases hkey : key a = k
    · -- the first one with the key
      rw [if_pos hkey]
      by_cases heq : k' = k
      · rw [if_pos heq, find?_cons_of_pos (by simp [hf, hkey, heq]), find?_cons_of_pos (by simp [hkey, heq]),
          Option.map_some]
      · have hne : ¬ key a = k' := fun h => heq (h.symm.trans hkey)
        rw [if_neg heq, find?_cons_of_neg (by simpa [hf] using hne), find?_cons_of_neg (by simpa using hne)]
    · rw [if_neg hkey]
      by_cases heq : key a = k'
      · have hne : ¬ k' = k := fun h => hkey (heq.trans h)
        rw [if_neg hne, find?_cons_of_pos (by simpa using heq), find?_cons_of_pos (by simpa using heq)]
      · rw [find?_cons_of_neg (by simpa using heq), find?_cons_of_neg (by simpa using heq), ih]

theorem find_adjust (k : κ) (f : α → α) (hf : ∀ a, key (f a) = key a) (k' : κ) :
    find key hash (adjust key hash table k f) k' =
      if k' = k then (find key hash table k').map f else find key hash table k' := by
  rw [find, adjust, update_apply]
  by_cases hhash : hash k' = hash k
  · rw [if_pos hhash, find?_replaceF k f hf, find, hhash]
  · have hne : ¬ k' = k := fun h => hhash (by rw [h])
    rw [if_neg hhash, if_neg hne, find]

end Adjust

end Buckets
