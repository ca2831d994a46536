/-
# MipsOnQemu.Lib.Search -- following a partial function

`search` follows a partial function from an element on, until it comes to a target or the function has
no value. If the function has values on finitely many elements only, more rounds than there are such
elements are enough: a search that is not over then never ends. Where following the function never
leads back, every search ends, and it says whether the target can be reached. Adding an edge to a
relation without cycles makes one only if its source could be reached from its end.
-/

import Mathlib

namespace Search

open Relation Nat

universe u

variable {α : Type u}

/-- One step along a partial function. -/
def Edge (next : α → Option α) (x y : α) : Prop := next x = some y

/-- No way leads back. -/
def Acyclic (R : α → α → Prop) : Prop := ∀ x, ¬ Relation.TransGen R x x

theorem transGen_path {R : α → α → Prop} {path : Nat → α} {n i j : Nat}
    (hpath : ∀ i < n, R (path i) (path (i + 1))) (hij : i < j) (hj : j ≤ n) : TransGen R (path i) (path j) :=
  TransGen.lift path (fun _ _ h => h) _ _
    (transGen_of_succ_of_lt (fun i k => R (path i) (path k)) (fun k hk => hpath k (hk.2.trans_le hj)) hij)

/-- A sequence that stays in a finite set repeats. -/
theorem exists_repeat {S : Finset α} {f : Nat → α} (hf : ∀ i ≤ S.card, f i ∈ S) :
    ∃ i j, i < j ∧ j ≤ S.card ∧ f i = f j := by
  obtain ⟨i, hi, j, hj, hne, heq⟩ := Finset.exists_ne_map_eq_of_card_lt_of_maps_to
    (s := Finset.range (S.card + 1)) (t := S) (by simp) fun i hi => hf i (by simpa [Nat.lt_succ_iff] using hi)
  rw [Finset.mem_range, Nat.lt_succ_iff] at hi hj
  rcases lt_or_gt_of_ne hne with hlt | hgt
  · exact ⟨i, j, hlt, hj, heq⟩
  · exact ⟨j, i, hgt, hi, heq.symm⟩

variable {rounds : Nat} {x : α} {S : Finset α} {R R' : α → α → Prop}

section Follow

variable [DecidableEq α] (next : α → Option α) (target : α)

/-- Follow the function, in a number of rounds. -/
def search : Nat → α → Option Bool
  | 0, _ => none
  | rounds + 1, x =>
    if x = target then some true
    else match next x with
      | none => some false
      | some y => search rounds y

variable {next target}

theorem search_succ_some {y : α} (hx : x ≠ target) (hy : next x = some y) :
    search next target (rounds + 1) x = search next target rounds y := by
  rw [search, if_neg hx, hy]

theorem not_reach_of_search (h : search next target rounds x = some false) :
    ¬ ReflTransGen (Edge next) x target := by
  induction rounds generalizing x with
  | zero => cases h
  | succ rounds ih =>
    have hx : x ≠ target := by
      rintro rfl
      rw [search, if_pos rfl] at h
      cases h
    intro hreach
    rcases ReflTransGen.cases_head hreach with heq | ⟨y, hy, hrest⟩
    · exact hx heq
    · rw [search_succ_some hx hy] at h
      exact ih h hrest

/-- A search that is not over has gone as many steps as rounds, and goes on from any of them. -/
theorem steps_of_search_none (h : search next target rounds x = none) :
    ∃ path : Nat → α, path 0 = x ∧ (∀ i < rounds, Edge next (path i) (path (i + 1))) ∧
      ∀ i ≤ rounds, ∀ k, search next target (k + i) x = search next target k (path i) := by
  induction rounds generalizing x with
  | zero =>
    refine ⟨fun _ => x, rfl, fun i hi => absurd hi (not_lt_zero i), fun i hi k => ?_⟩
    rw [le_zero.mp hi, add_zero]
  | succ rounds ih =>
    have hx : x ≠ target := by
      rintro rfl
      rw [search, if_pos rfl] at h
      cases h
    cases hy : next x with
    | none =>
      rw [search, if_neg hx, hy] at h
      cases h
    | some y =>
      rw [search_succ_some hx hy] at h
      obtain ⟨path, hstart, hpath, hgo⟩ := ih h
      refine ⟨fun i => casesOn i x path, rfl, fun i hi => ?_, fun i hi k => ?_⟩
      · cases i with
        | zero =>
          show next x = some (path 0)
          rw [hstart]
          exact hy
        | succ i => exact hpath i (by omega)
      · cases i with
        | zero => rfl
        | succ i =>
          rw [← add_assoc, search_succ_some hx hy]
          exact hgo i (by omega) k

/-- After more rounds than there are elements with a value, some element has come twice. -/
theorem repeats_of_search_none (hS : ∀ x y, next x = some y → x ∈ S)
    (h : search next target (S.card + 1) x = none) :
    ∃ (path : Nat → α) (i j : Nat), i < j ∧ j ≤ S.card ∧ path i = path j ∧
      (∀ i < S.card + 1, Edge next (path i) (path (i + 1))) ∧
      ∀ i ≤ S.card + 1, ∀ k, search next target (k + i) x = search next target k (path i) := by
  obtain ⟨path, -, hpath, hgo⟩ := steps_of_search_none h
  obtain ⟨i, j, hij, hj, heq⟩ := exists_repeat fun i hi => hS _ _ (hpath i (lt_succ_of_le hi))
  exact ⟨path, i, j, hij, hj, heq, hpath, hgo⟩

/-- **A search without cycles ends.** -/
theorem search_isSome_of_acyclic (hacyclic : Acyclic (Edge next)) (hS : ∀ x y, next x = some y → x ∈ S)
    (x : α) : (search next target (S.card + 1) x).isSome := by
  cases h : search next target (S.card + 1) x with
  | some b => rfl
  | none =>
    obtain ⟨path, i, j, hij, hj, heq, hpath, -⟩ := repeats_of_search_none hS h
    have hcycle := transGen_path hpath hij (by omega)
    rw [← heq] at hcycle
    exact absurd hcycle (hacyclic _)

theorem search_mono {n m : Nat} (hnm : n ≤ m) {b : Bool} (h : search next target n x = some b) :
    search next target m x = some b := by
  induction n generalizing m x with
  | zero => cases h
  | succ n ih =>
    obtain ⟨m, rfl⟩ := Nat.exists_eq_add_of_le' (Nat.le_trans (Nat.le_add_left 1 n) hnm)
    rw [search] at h ⊢
    split at h
    · rename_i hx
      rw [if_pos hx]
      exact h
    · rename_i hx
      rw [if_neg hx]
      cases hy : next x with
      | none =>
        rw [hy] at h
        exact h
      | some y =>
        rw [hy] at h
        exact ih (by omega) h

/-- **Enough rounds:** a search that ends at all ends within one round more than there are elements
with a value. -/
theorem search_of_search (hS : ∀ x y, next x = some y → x ∈ S) {n : Nat} {b : Bool}
    (h : search next target n x = some b) : search next target (S.card + 1) x = some b := by
  induction n using Nat.strong_induction_on with
  | _ n ih =>
    rcases lt_or_ge (S.card + 1) n with hlt | hge
    · cases hend : search next target (S.card + 1) x with
      | some b' =>
        rw [search_mono hlt.le hend] at h
        exact h
      | none =>
        -- the rounds between the two visits can be left out
        obtain ⟨path, i, j, hij, hj, heq, -, hgo⟩ := repeats_of_search_none hS hend
        have hj' := hgo j (by omega) (n - j)
        have hi' := hgo i (by omega) (n - j)
        rw [Nat.sub_add_cancel (by omega), ← heq, ← hi', h] at hj'
        have hshort := ih (n - j + i) (by omega) hj'.symm
        rw [hend] at hshort
        exact hshort
    · exact search_mono hge h

end Follow

/-- A way that may use a new edge from `c` to `p`. -/
theorem transGen_add {c p : α} (hR : ∀ x y, R' x y → R x y ∨ (x = c ∧ y = p)) {y : α} (h : TransGen R' x y) :
    TransGen R x y ∨ (ReflTransGen R x c ∧ ReflTransGen R p y) := by
  induction h with
  | single hstep =>
    rcases hR _ _ hstep with hold | ⟨rfl, rfl⟩
    · exact .inl (.single hold)
    · exact .inr ⟨.refl, .refl⟩
  | tail _ hstep ih =>
    rcases hR _ _ hstep with hold | ⟨rfl, rfl⟩
    · rcases ih with ih | ⟨hx, hp⟩
      · exact .inl (ih.tail hold)
      · exact .inr ⟨hx, hp.tail hold⟩
    · rcases ih with ih | ⟨hx, -⟩
      · exact .inr ⟨ih.to_reflTransGen, .refl⟩
      · exact .inr ⟨hx, .refl⟩

/-- **A new edge closes no cycle** if its source cannot be reached from its end. -/
theorem Acyclic.add (h : Acyclic R) {c p : α} (hR : ∀ x y, R' x y → R x y ∨ (x = c ∧ y = p))
    (hreach : ¬ ReflTransGen R p c) : Acyclic R' := by
  intro x hx
  rcases transGen_add hR hx with hold | ⟨hxc, hpx⟩
  · exact h x hold
  · exact hreach (hpx.trans hxc)

theorem Acyclic.mono (h : Acyclic R) (hR : ∀ x y, R' x y → R x y) : Acyclic R' :=
  fun x hx => h x (TransGen.mono hR x x hx)

end Search
