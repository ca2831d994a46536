/-
# MipsOnQemu.Lib.Ranges -- partial maps of integers as sorted lists of ranges

A list of ranges with values stands for a partial map of the integers (`valueAt`). In a canonical
list the ranges are sorted and disjoint, and two that touch have different values. `put` gives a value
to all integers of a range and joins what touches it; `cut` takes a range away. Both keep the list
canonical and do to the map what they say, and nothing else. They are proved about as one operation,
`write`.
-/

import Mathlib

namespace Ranges

open List

universe u

/-- The integers from `lo` to `hi`, with a value. -/
structure Range (V : Type u) where
  lo : Int
  hi : Int
  val : V

variable {V : Type u}

/-- The value at an integer. -/
def valueAt : List (Range V) → Int → Option V
  | [], _ => none
  | r :: l, x => if r.lo ≤ x ∧ x ≤ r.hi then some r.val else valueAt l x

/-- The first range ends before the second, and they could not be joined. -/
def Before (a b : Range V) : Prop := a.hi + 1 < b.lo ∨ (a.hi + 1 = b.lo ∧ a.val ≠ b.val)

/-- Sorted, disjoint, and nothing is left to be joined. -/
def Canonical : List (Range V) → Prop
  | [] => True
  | r :: l => r.lo ≤ r.hi ∧ (∀ q ∈ l.head?, Before r q) ∧ Canonical l

/-- What is left of a range below `s`. -/
def leftOf (r : Range V) (s : Int) : List (Range V) :=
  if r.lo < s then [⟨r.lo, s - 1, r.val⟩] else []

/-- The range from `s` to `e` gets the value `v`. -/
def put [DecidableEq V] (v : V) : Int → Int → List (Range V) → List (Range V)
  | s, e, [] => [⟨s, e, v⟩]
  | s, e, r :: l =>
    if r.val = v then
      if r.hi < s - 1 then r :: put v s e l
      else if e < r.lo - 1 then ⟨s, e, v⟩ :: r :: l
      else put v (min s r.lo) (max e r.hi) l
    else
      if r.hi < s then r :: put v s e l
      else if e < r.lo then ⟨s, e, v⟩ :: r :: l
      else leftOf r s ++ if e < r.hi then ⟨s, e, v⟩ :: ⟨e + 1, r.hi, r.val⟩ :: l else put v s e l

/-- The range from `s` to `e` gets no value. -/
def cut (s e : Int) : List (Range V) → List (Range V)
  | [] => []
  | r :: l =>
    if r.hi < s then r :: cut s e l
    else if e < r.lo then r :: l
    else leftOf r s ++ if e < r.hi then ⟨e + 1, r.hi, r.val⟩ :: l else cut s e l

/-! ## Canonical lists -/

variable {a r : Range V} {l : List (Range V)} {x s e : Int}

theorem Before.trans {b c : Range V} (hab : Before a b) (hb : b.lo ≤ b.hi) (hbc : Before b c) :
    Before a c := by
  left
  rcases hab with hab | ⟨hab, -⟩
  · rcases hbc with hbc | ⟨hbc, -⟩
    · omega
    · omega
  · rcases hbc with hbc | ⟨hbc, -⟩
    · omega
    · omega

theorem Before.lt {b : Range V} (h : Before a b) : a.hi < b.lo := by
  rcases h with h | ⟨h, -⟩
  · omega
  · omega

theorem valueAt_of_lt (h : Canonical l) (hx : ∀ q ∈ l.head?, x < q.lo) : valueAt l x = none := by
  induction l with
  | nil => rfl
  | cons r l ih =>
    have hr : x < r.lo := hx r rfl
    rw [valueAt, if_neg (by omega)]
    refine ih h.2.2 fun q hq => ?_
    have hlt := (h.2.1 q hq).lt
    have hle := h.1
    omega

theorem valueAt_tail (h : Canonical (r :: l)) (hx : x ≤ r.hi) : valueAt l x = none := by
  refine valueAt_of_lt h.2.2 fun q hq => ?_
  have hlt := (h.2.1 q hq).lt
  omega

theorem lt_of_canonical (h : Canonical (r :: l)) : ∀ q ∈ l, r.hi < q.lo ∧ q.lo ≤ q.hi := by
  induction l generalizing r with
  | nil => exact nofun
  | cons p l ih =>
    have hrp := (h.2.1 p rfl).lt
    have hp := h.2.2.1
    refine forall_mem_cons.mpr ⟨⟨hrp, hp⟩, fun q hq => ?_⟩
    have hrest := ih h.2.2 q hq
    exact ⟨by omega, hrest.2⟩

theorem le_of_canonical (h : Canonical l) : ∀ r ∈ l, r.lo ≤ r.hi := by
  cases l with
  | nil => exact nofun
  | cons p l => exact forall_mem_cons.mpr ⟨h.1, fun r hr => (lt_of_canonical h r hr).2⟩

theorem valueAt_eq_some_iff (h : Canonical l) {v : V} :
    valueAt l x = some v ↔ ∃ r ∈ l, r.lo ≤ x ∧ x ≤ r.hi ∧ r.val = v := by
  induction l with
  | nil => exact ⟨nofun, fun ⟨_, hr, _⟩ => by cases hr⟩
  | cons r l ih =>
    rw [valueAt]
    by_cases hx : r.lo ≤ x ∧ x ≤ r.hi
    · rw [if_pos hx]
      constructor
      · intro heq
        exact ⟨r, mem_cons_self, hx.1, hx.2, Option.some.inj heq⟩
      · rintro ⟨q, hq, hlo, hhi, rfl⟩
        rcases mem_cons.mp hq with rfl | hq
        · rfl
        · have hlt := (lt_of_canonical h q hq).1
          omega
    · rw [if_neg hx, ih h.2.2, exists_mem_cons_iff]
      refine (or_iff_right fun hr => hx ⟨hr.1, hr.2.1⟩).symm

theorem valueAt_leftOf (r : Range V) (s : Int) (l : List (Range V)) (x : Int) :
    valueAt (leftOf r s ++ l) x = if r.lo ≤ x ∧ x < s then some r.val else valueAt l x := by
  unfold leftOf
  by_cases h : r.lo < s
  · rw [if_pos h, singleton_append, valueAt]
    by_cases hx : r.lo ≤ x ∧ x < s
    · rw [if_pos hx, if_pos ⟨hx.1, by show x ≤ s - 1; omega⟩]
    · rw [if_neg hx, if_neg (by show ¬ (r.lo ≤ x ∧ x ≤ s - 1); omega)]
  · rw [if_neg h, nil_append, if_neg (by omega)]

theorem head_leftOf (har : Before a r) (hl : ∀ q ∈ l.head?, Before a q) :
    ∀ q ∈ (leftOf r s ++ l).head?, Before a q := by
  unfold leftOf
  split
  · rintro q hq
    cases hq
    exact har
  · exact hl

theorem canonical_leftOf (hl : ∀ q ∈ l.head?, s < q.lo ∨ (s = q.lo ∧ r.val ≠ q.val)) (h : Canonical l) :
    Canonical (leftOf r s ++ l) := by
  unfold leftOf
  split
  · rename_i hlo
    refine ⟨?_, fun q hq => ?_, h⟩
    · show r.lo ≤ s - 1
      omega
    · show s - 1 + 1 < q.lo ∨ (s - 1 + 1 = q.lo ∧ _)
      rw [sub_add_cancel]
      exact hl q hq
  · exact h

/-! ## `put` and `cut` as one -/

section Write

variable {o : Option V}

/-- The range itself, with its value. -/
def placed (o : Option V) (s e : Int) : List (Range V) := o.toList.map fun v => ⟨s, e, v⟩

theorem valueAt_placed (o : Option V) (s e : Int) (l : List (Range V)) (x : Int)
    (hl : s ≤ x → x ≤ e → valueAt l x = none) :
    valueAt (placed o s e ++ l) x = if s ≤ x ∧ x ≤ e then o else valueAt l x := by
  cases o with
  | none =>
    show valueAt l x = _
    split
    · rename_i hx
      exact hl hx.1 hx.2
    · rfl
  | some v => rfl

theorem head_placed (hs : ∀ v ∈ o, a.hi + 1 < s ∨ (a.hi + 1 = s ∧ a.val ≠ v)) (hl : ∀ q ∈ l.head?, Before a q)
    : ∀ q ∈ (placed o s e ++ l).head?, Before a q := by
  cases o with
  | none => exact hl
  | some v =>
    rintro q hq
    cases hq
    exact hs v rfl

theorem canonical_placed (hse : s ≤ e) (h : Canonical l)
    (hl : ∀ q ∈ l.head?, ∀ v ∈ o, e + 1 < q.lo ∨ (e + 1 = q.lo ∧ v ≠ q.val)) :
    Canonical (placed o s e ++ l) := by
  cases o with
  | none => exact h
  | some v => exact ⟨hse, fun q hq => hl q hq v rfl, h⟩

variable [DecidableEq V]

/-- The range from `s` to `e` gets the value `o`, or none. -/
def write (o : Option V) (s e : Int) (l : List (Range V)) : List (Range V) :=
  o.elim (cut s e l) fun v => put v s e l

theorem write_nil (o : Option V) (s e : Int) : write o s e [] = placed o s e := by
  cases o <;> rfl

theorem write_same (h : some r.val = o) (s e : Int) (l : List (Range V)) : write o s e (r :: l) =
      if r.hi < s - 1 then r :: write o s e l
      else if e < r.lo - 1 then placed o s e ++ r :: l
      else write o (min s r.lo) (max e r.hi) l := by
  subst h
  exact if_pos rfl

theorem write_other (h : some r.val ≠ o) (s e : Int) (l : List (Range V)) : write o s e (r :: l) =
      if r.hi < s then r :: write o s e l
      else if e < r.lo then placed o s e ++ r :: l
      else leftOf r s ++ if e < r.hi then placed o s e ++ ⟨e + 1, r.hi, r.val⟩ :: l else write o s e l := by
  cases o with
  | none => rfl
  | some v => exact if_neg fun hval => h (congrArg some hval)

theorem valueAt_write (h : Canonical l) (hse : s ≤ e) (x : Int) :
    valueAt (write o s e l) x = if s ≤ x ∧ x ≤ e then o else valueAt l x := by
  induction l generalizing s e with
  | nil =>
    rw [write_nil, ← append_nil (placed o s e)]
    exact valueAt_placed o s e [] x fun _ _ => rfl
  | cons r l ih =>
    have hr := h.1
    have htail := fun hx => valueAt_tail (x := x) h hx
    -- a range before the new one is passed
    have hpass : r.hi < s → valueAt (r :: write o s e l) x = if s ≤ x ∧ x ≤ e then o else valueAt (r :: l) x := by
      intro hlow
      rw [valueAt, ih h.2.2 hse, valueAt]
      by_cases hx : r.lo ≤ x ∧ x ≤ r.hi
      · rw [if_pos hx, if_pos hx, if_neg (by omega)]
      · rw [if_neg hx, if_neg hx]
    have hend : e < r.lo → valueAt (placed o s e ++ r :: l) x = if s ≤ x ∧ x ≤ e then o else valueAt (r :: l) x := by
      refine fun hhigh => valueAt_placed o s e _ x fun _ hxe => ?_
      rw [valueAt, if_neg (by omega), htail (by omega)]
    by_cases hval : some r.val = o
    · rw [write_same hval]
      by_cases hlow : r.hi < s - 1
      · rw [if_pos hlow, hpass (by omega)]
      rw [if_neg hlow]
      by_cases hhigh : e < r.lo - 1
      · rw [if_pos hhigh, hend (by omega)]
      · -- the two are joined, and there is no gap between them
        rw [if_neg hhigh, ih h.2.2 (by omega), valueAt]
        by_cases hnew : s ≤ x ∧ x ≤ e
        · rw [if_pos hnew, if_pos (by omega)]
        · rw [if_neg hnew]
          by_cases hx : r.lo ≤ x ∧ x ≤ r.hi
          · rw [if_pos hx, if_pos (by omega), hval]
          · rw [if_neg hx, if_neg (by omega)]
    · rw [write_other hval]
      by_cases hlow : r.hi < s
      · rw [if_pos hlow, hpass hlow]
      rw [if_neg hlow]
      by_cases hhigh : e < r.lo
      · rw [if_pos hhigh, hend hhigh]
      rw [if_neg hhigh, valueAt_leftOf, valueAt]
      by_cases hleft : r.lo ≤ x ∧ x < s
      · rw [if_pos hleft, if_neg (by omega), if_pos (by omega)]
      rw [if_neg hleft]
      by_cases hright : e < r.hi
      · have hrest : valueAt (⟨e + 1, r.hi, r.val⟩ :: l) x =
            if e + 1 ≤ x ∧ x ≤ r.hi then some r.val else valueAt l x := rfl
        rw [if_pos hright, valueAt_placed o s e _ x, hrest]
        · by_cases hnew : s ≤ x ∧ x ≤ e
          · rw [if_pos hnew, if_pos hnew]
          · rw [if_neg hnew, if_neg hnew]
            exact if_congr (by omega) rfl rfl
        · intro _ hxe
          rw [hrest, if_neg (by omega), htail (by omega)]
      · rw [if_neg hright, ih h.2.2 hse]
        by_cases hnew : s ≤ x ∧ x ≤ e
        · rw [if_pos hnew, if_pos hnew]
        · rw [if_neg hnew, if_neg hnew, if_neg (by omega)]

theorem head_write (h : Canonical l) (hl : ∀ q ∈ l.head?, Before a q)
    (hs : ∀ v ∈ o, a.hi + 1 < s ∨ (a.hi + 1 = s ∧ a.val ≠ v)) : ∀ q ∈ (write o s e l).head?, Before a q := by
  induction l generalizing s e with
  | nil =>
    rw [write_nil, ← append_nil (placed o s e)]
    exact head_placed hs hl
  | cons r l ih =>
    have har : Before a r := hl r rfl
    have hnext : ∀ q ∈ l.head?, Before a q := fun q hq => har.trans h.1 (h.2.1 q hq)
    have hself : ∀ q ∈ (r :: write o s e l).head?, Before a q := by
      rintro q hq
      cases hq
      exact har
    by_cases hval : some r.val = o
    · rw [write_same hval]
      split
      · exact hself
      split
      · exact head_placed hs hl
      · refine ih h.2.2 hnext fun v hv => ?_
        rcases le_total s r.lo with hle | hle
        · rw [min_eq_left hle]
          exact hs v hv
        · obtain rfl := Option.some.inj (hval.trans hv)
          rw [min_eq_right hle]
          exact har
    · rw [write_other hval]
      split
      · exact hself
      split
      · exact head_placed hs hl
      · apply head_leftOf har
        split
        · refine head_placed hs fun q hq => ?_
          cases hq
          have hlt := har.lt
          exact .inl (by show a.hi + 1 < e + 1; omega)
        · exact ih h.2.2 hnext hs

theorem canonical_write (h : Canonical l) (hse : s ≤ e) : Canonical (write o s e l) := by
  induction l generalizing s e with
  | nil =>
    rw [write_nil, ← append_nil (placed o s e)]
    exact canonical_placed hse trivial nofun
  | cons r l ih =>
    by_cases hval : some r.val = o
    · rw [write_same hval]
      split
      · rename_i hlow
        exact ⟨h.1, head_write h.2.2 h.2.1 fun v _ => .inl (by omega), ih h.2.2 hse⟩
      split
      · rename_i hhigh
        refine canonical_placed hse h fun q hq v _ => ?_
        cases hq
        exact .inl (by omega)
      · have hr := h.1
        exact ih h.2.2 (by omega)
    · have hne : ∀ v ∈ o, r.val ≠ v := by
        rintro v hv rfl
        exact hval hv.symm
      rw [write_other hval]
      split
      · rename_i hlow
        refine ⟨h.1, head_write h.2.2 h.2.1 fun v hv => ?_, ih h.2.2 hse⟩
        exact (lt_or_eq_of_le (show r.hi + 1 ≤ s by omega)).imp_right fun heq => ⟨heq, hne v hv⟩
      split
      · rename_i hhigh
        refine canonical_placed hse h fun q hq v hv => ?_
        cases hq
        exact (lt_or_eq_of_le (show e + 1 ≤ r.lo by omega)).imp_right fun heq => ⟨heq, (hne v hv).symm⟩
      · rename_i hlow hhigh
        -- what is left of the range is before all that follows
        have hleft : ∀ v ∈ o, s - 1 + 1 < s ∨ (s - 1 + 1 = s ∧ r.val ≠ v) :=
          fun v hv => .inr ⟨sub_add_cancel s 1, hne v hv⟩
        have hbefore : ∀ (l' : List (Range V)), (∀ q ∈ l'.head?, Before (⟨r.lo, s - 1, r.val⟩ : Range V) q) →
            ∀ q ∈ l'.head?, s < q.lo ∨ (s = q.lo ∧ r.val ≠ q.val) := by
          intro l' hl' q hq
          have hq' : s - 1 + 1 < q.lo ∨ (s - 1 + 1 = q.lo ∧ r.val ≠ q.val) := hl' q hq
          rwa [sub_add_cancel] at hq'
        apply canonical_leftOf
        · apply hbefore
          split
          · refine head_placed hleft fun q hq => ?_
            cases hq
            exact .inl (by show s - 1 + 1 < e + 1; omega)
          · refine head_write h.2.2 (fun q hq => ?_) hleft
            have hlt := (h.2.1 q hq).lt
            exact .inl (by show s - 1 + 1 < q.lo; omega)
        · split
          · rename_i hright
            refine canonical_placed hse ⟨by show e + 1 ≤ r.hi; omega, h.2.1, h.2.2⟩ fun q hq v hv => ?_
            cases hq
            exact .inr ⟨rfl, (hne v hv).symm⟩
          · exact ih h.2.2 hse

/-- What `write` leaves of the ranges, and the one it makes, lie between bounds that hold them all. -/
theorem forall_write (h : Canonical l) {lo hi : Int} (hse : s ≤ e) (hs : lo ≤ s) (he : e ≤ hi) {P : V → Prop}
    (hv : ∀ v ∈ o, P v) (hl : ∀ r ∈ l, lo ≤ r.lo ∧ r.hi ≤ hi ∧ P r.val) :
    ∀ r ∈ write o s e l, lo ≤ r.lo ∧ r.hi ≤ hi ∧ P r.val := by
  have hnew : ∀ s' e' : Int, lo ≤ s' → e' ≤ hi → ∀ q ∈ placed o s' e', lo ≤ q.lo ∧ q.hi ≤ hi ∧ P q.val := by
    intro s' e' hs' he' q hq
    obtain ⟨v, hvo, rfl⟩ := mem_map.mp hq
    exact ⟨hs', he', hv v (Option.mem_toList.mp hvo)⟩
  induction l generalizing s e with
  | nil =>
    rw [write_nil]
    exact hnew s e hs he
  | cons r l ih =>
    have hr := hl r mem_cons_self
    have hrest := fun q hq => hl q (mem_cons_of_mem _ hq)
    have hle := h.1
    by_cases hval : some r.val = o
    · rw [write_same hval]
      split
      · exact forall_mem_cons.mpr ⟨hr, ih h.2.2 hse hs he hrest⟩
      split
      · exact forall_mem_append.mpr ⟨hnew s e hs he, hl⟩
      · exact ih h.2.2 (by omega) (by omega) (by omega) hrest
    · rw [write_other hval]
      split
      · exact forall_mem_cons.mpr ⟨hr, ih h.2.2 hse hs he hrest⟩
      split
      · exact forall_mem_append.mpr ⟨hnew s e hs he, hl⟩
      · refine forall_mem_append.mpr ⟨fun q hq => ?_, ?_⟩
        · unfold leftOf at hq
          split at hq
          · rw [mem_singleton.mp hq]
            exact ⟨hr.1, by show s - 1 ≤ hi; omega, hr.2.2⟩
          · cases hq
        · split
          · refine forall_mem_append.mpr ⟨hnew s e hs he, forall_mem_cons.mpr ⟨?_, hrest⟩⟩
            exact ⟨by show lo ≤ e + 1; omega, hr.2.1, hr.2.2⟩
          · exact ih h.2.2 hse hs he hrest

end Write

theorem cut_eq_self (h : ∀ r ∈ l, r.hi < s ∨ e < r.lo) : cut s e l = l := by
  induction l with
  | nil => rfl
  | cons r l ih =>
    rw [cut]
    split
    · rw [ih fun q hq => h q (mem_cons_of_mem _ hq)]
    · rename_i hlow
      rw [if_pos ((h r mem_cons_self).resolve_left hlow)]

end Ranges
