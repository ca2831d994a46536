/-
# MipsOnQemu.Lib.Loop -- loops with a bound on their rounds

A round of a loop goes on with a new state, ends with a result, or fails. `run` makes at most as
many rounds as it is given. A loop whose invariant carries a bound that every round lowers ends,
for every number of rounds above the bound (`run_of_measure`). A loop that gets from one state to
another ends from the one exactly if it ends from the other (`run_reach`, `run_of_reach`).
-/

import Mathlib

namespace Loop

open Relation

universe u v

variable {σ : Type u} {β : Type v}

/-- Rounds of a loop. -/
def run (step : σ → Option (σ ⊕ β)) : Nat → σ → Option β
  | 0, _ => none
  | fuel + 1, s =>
    match step s with
    | none => none
    | some (.inr b) => some b
    | some (.inl s') => run step fuel s'

/-- **Total correctness of a loop.** -/
theorem run_of_measure {step : σ → Option (σ ⊕ β)} {I : Nat → σ → Prop} {Q : β → Prop}
    (hstep : ∀ n s, I n s → (∃ b, step s = some (.inr b) ∧ Q b) ∨
      ∃ s' n', step s = some (.inl s') ∧ n' < n ∧ I n' s')
    {n : Nat} {s : σ} (h : I n s) {fuel : Nat} (hfuel : n < fuel) :
    ∃ b, run step fuel s = some b ∧ Q b := by
  induction fuel generalizing n s with
  | zero => omega
  | succ fuel ih =>
    rcases hstep n s h with ⟨b, hb, hQ⟩ | ⟨s', n', hs', hlt, h'⟩
    · exact ⟨b, by rw [run, hb], hQ⟩
    · obtain ⟨b, hb, hQ⟩ := ih h' (by omega)
      exact ⟨b, by rw [run, hs']; exact hb, hQ⟩

/-! ## From round to round -/

/-- A round that goes on. -/
def Edge (step : σ → Option (σ ⊕ β)) (s s' : σ) : Prop := step s = some (.inl s')

section Rounds

variable {step : σ → Option (σ ⊕ β)} {s s' : σ} {b : β} {rounds : Nat}

theorem run_edge (h : Edge step s s') (rounds : Nat) : run step (rounds + 1) s = run step rounds s' := by
  rw [run, h]

theorem run_result (h : step s = some (.inr b)) (rounds : Nat) : run step (rounds + 1) s = some b := by
  rw [run, h]

theorem run_mono (h : run step rounds s = some b) {rounds' : Nat} (hle : rounds ≤ rounds') :
    run step rounds' s = some b := by
  induction rounds generalizing s rounds' with
  | zero => cases h
  | succ rounds ih =>
    obtain ⟨m, rfl⟩ := Nat.exists_eq_succ_of_ne_zero (by omega : rounds' ≠ 0)
    rw [run] at h ⊢
    split at h
    · cases h
    · exact h
    · exact ih h (by omega)

theorem run_reach (h : ReflTransGen (Edge step) s s') (hrun : run step rounds s = some b) :
    ∃ rounds', run step rounds' s' = some b := by
  induction h with
  | refl => exact ⟨rounds, hrun⟩
  | tail _ hedge ih =>
    obtain ⟨rounds', hrun'⟩ := ih
    cases rounds' with
    | zero => cases hrun'
    | succ rounds' =>
      rw [run_edge hedge] at hrun'
      exact ⟨rounds', hrun'⟩

theorem run_map {τ γ : Type*} {step' : τ → Option (τ ⊕ γ)} {f : σ → τ} {g : β → γ}
    (h : ∀ s, step' (f s) = (step s).map (Sum.map f g)) (rounds : Nat) (s : σ) :
    run step' rounds (f s) = (run step rounds s).map g := by
  induction rounds generalizing s with
  | zero => rfl
  | succ rounds ih =>
    rw [run, run, h s]
    cases step s with
    | none => rfl
    | some r =>
      cases r with
      | inl s' => exact ih s'
      | inr b => rfl

theorem run_of_reach (h : ReflTransGen (Edge step) s s') (hrun : run step rounds s' = some b) :
    ∃ rounds', run step rounds' s = some b := by
  induction h using ReflTransGen.head_induction_on with
  | refl => exact ⟨rounds, hrun⟩
  | head hedge _ ih =>
    obtain ⟨rounds', hrun'⟩ := ih
    exact ⟨rounds' + 1, (run_edge hedge rounds').trans hrun'⟩

end Rounds

end Loop
