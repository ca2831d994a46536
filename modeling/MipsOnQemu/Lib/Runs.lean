/-
# MipsOnQemu.Lib.Runs -- runs of a machine whose operations may fail

A machine takes operations one after another; each returns a result and a new state, or fails. A
run is compared with a specification that says what an operation may return and do in an abstract
state. If every operation that meets a condition does what the specification allows, so does every
run whose operations all meet it (`run_refines`); if the others fail, there are no other runs
(`along_of_run`).
-/

import Mathlib

namespace Runs

open List Option

universe u v w x

variable {σ : Type u} {ο : Type v} {ρ : Type w} {τ : Type x}

/-- A run: the results in order, and the state it ends in. -/
def run (step : σ → ο → Option (ρ × σ)) : σ → List ο → Option (List ρ × σ)
  | s, [] => some ([], s)
  | s, op :: ops =>
    (step s op).bind fun p => (run step p.2 ops).map fun q => (p.1 :: q.1, q.2)

/-- Every operation of a run meets a condition, in the state it is made in. -/
def Along (step : σ → ο → Option (ρ × σ)) (ok : σ → ο → Prop) : σ → List ο → Prop
  | _, [] => True
  | s, op :: ops => ok s op ∧ ∀ p, step s op = some p → Along step ok p.2 ops

/-- The results and the last state that a specification allows for a list of operations. -/
inductive Allows (spec : τ → ο → ρ → τ → Prop) : τ → List ο → List ρ → τ → Prop
  | nil {t : τ} : Allows spec t [] [] t
  | cons {t t' t'' : τ} {op : ο} {ops : List ο} {r : ρ} {rs : List ρ} :
      spec t op r t' → Allows spec t' ops rs t'' → Allows spec t (op :: ops) (r :: rs) t''

variable {step : σ → ο → Option (ρ × σ)} {ok : σ → ο → Prop} {S : τ → ο → ρ → τ → Prop}
  {R : σ → τ → Prop}

variable {s : σ} {ops : List ο} {q : List ρ × σ} {P : ο → Prop}

theorem run_cons {op : ο} {r : ρ} {s' : σ} (h : step s op = some (r, s')) (ops : List ο) :
    run step s (op :: ops) = (run step s' ops).map fun q => (r :: q.1, q.2) := by
  rw [run, h, bind_some]

theorem exists_of_run_cons {op : ο} (h : run step s (op :: ops) = some q) :
    ∃ p q', step s op = some p ∧ run step p.2 ops = some q' ∧ q = (p.1 :: q'.1, q'.2) := by
  rw [run, bind_eq_some_iff] at h
  obtain ⟨p, hp, hrest⟩ := h
  obtain ⟨q', hq', rfl⟩ := map_eq_some_iff.mp hrest
  exact ⟨p, q', hp, hq', rfl⟩

theorem exists_of_run_append {ops₁ ops₂ : List ο} (h : run step s (ops₁ ++ ops₂) = some q) :
    ∃ q₁ q₂, run step s ops₁ = some q₁ ∧ run step q₁.2 ops₂ = some q₂ ∧ q = (q₁.1 ++ q₂.1, q₂.2) := by
  induction ops₁ generalizing s q with
  | nil => exact ⟨([], s), q, rfl, h, rfl⟩
  | cons op ops₁ ih =>
    obtain ⟨p, q', hp, hq', rfl⟩ := exists_of_run_cons h
    obtain ⟨q₁, q₂, hq₁, hq₂, rfl⟩ := ih hq'
    refine ⟨(p.1 :: q₁.1, q₁.2), q₂, ?_, hq₂, rfl⟩
    rw [run_cons (show step s op = some (p.1, p.2) from hp), hq₁, map_some]

/-- **Simulation, over a whole run.** -/
theorem run_refines (hstep : ∀ s t op, R s t → ok s op →
      ∃ r s' t', step s op = some (r, s') ∧ S t op r t' ∧ R s' t') {t : τ} (hR : R s t)
    (hok : Along step ok s ops) :
    ∃ rs s' t', run step s ops = some (rs, s') ∧ Allows S t ops rs t' ∧ R s' t' := by
  induction ops generalizing s t with
  | nil => exact ⟨[], s, t, rfl, .nil, hR⟩
  | cons op ops ih =>
    obtain ⟨r, s', t', hr, hspec, hR'⟩ := hstep s t op hR hok.1
    obtain ⟨rs, s'', t'', hrs, hspecs, hR''⟩ := ih hR' (hok.2 (r, s') hr)
    refine ⟨r :: rs, s'', t'', ?_, .cons hspec hspecs, hR''⟩
    rw [run_cons hr, hrs, map_some]

theorem along_of_forall (hops : ∀ op ∈ ops, P op) (s : σ) : Along step (fun _ => P) s ops := by
  induction ops generalizing s with
  | nil => trivial
  | cons op ops ih =>
    exact ⟨hops op mem_cons_self, fun p _ => ih (fun op hop => hops op (mem_cons_of_mem _ hop)) p.2⟩

theorem along_congr {ok' : σ → ο → Prop} (h : ∀ s op, P op → (ok s op ↔ ok' s op)) (hops : ∀ op ∈ ops, P op)
    (s : σ) : Along step ok s ops ↔ Along step ok' s ops := by
  induction ops generalizing s with
  | nil => exact Iff.rfl
  | cons op ops ih =>
    refine and_congr (h s op (hops op mem_cons_self)) (forall₂_congr fun p _ => ?_)
    exact ih (fun op hop => hops op (mem_cons_of_mem _ hop)) p.2

/-- A run that does not fail meets the condition, if an operation that does not meet it fails. -/
theorem along_of_run (hfail : ∀ s op p, step s op = some p → ok s op) (h : run step s ops = some q) :
    Along step ok s ops := by
  induction ops generalizing s q with
  | nil => trivial
  | cons op ops ih =>
    obtain ⟨p, q', hp, hq', -⟩ := exists_of_run_cons h
    refine ⟨hfail s op p hp, fun p' hp' => ?_⟩
    rw [hp] at hp'
    cases hp'
    exact ih hq'

variable {I : σ → Prop}

theorem run_invariant_along (hstep : ∀ s op p, I s → ok s op → step s op = some p → I p.2) (hs : I s)
    (hok : Along step ok s ops) (h : run step s ops = some q) : I q.2 := by
  induction ops generalizing s q with
  | nil =>
    cases h
    exact hs
  | cons op ops ih =>
    obtain ⟨p, q', hp, hq', rfl⟩ := exists_of_run_cons h
    have hlast := ih (hstep s op p hs hok.1 hp) (hok.2 p hp) hq'
    exact hlast

/-- An invariant that every operation of a kind keeps holds after every run of such operations. -/
theorem run_invariant (hstep : ∀ s op p, I s → P op → step s op = some p → I p.2) (hs : I s)
    (hops : ∀ op ∈ ops, P op) (h : run step s ops = some q) : I q.2 :=
  run_invariant_along hstep hs (along_of_forall hops s) h

/-- A run whose operations meet a condition does what a specification of the machine's own states
allows, if an invariant makes every operation do so. -/
theorem allows_of_run {S : σ → ο → ρ → σ → Prop}
    (hstep : ∀ s op p, I s → P op → ok s op → step s op = some p → S s op p.1 p.2 ∧ I p.2) (hs : I s)
    (hops : ∀ op ∈ ops, P op) (hok : Along step ok s ops) (h : run step s ops = some q) :
    Allows S s ops q.1 q.2 := by
  induction ops generalizing s q with
  | nil =>
    cases h
    exact .nil
  | cons op ops ih =>
    obtain ⟨p, q', hp, hq', rfl⟩ := exists_of_run_cons h
    obtain ⟨hspec, hs'⟩ := hstep s op p hs (hops op mem_cons_self) hok.1 hp
    have hrest := ih hs' (fun op hop => hops op (mem_cons_of_mem _ hop)) (hok.2 p hp) hq'
    exact .cons hspec hrest

/-- An invariant that speaks of the operations of a kind, and of the results, so far. -/
theorem run_trace {I : List ο → List ρ → σ → Prop}
    (hstep : ∀ os rs s op p, I os rs s → P op → step s op = some p → I (os ++ [op]) (rs ++ [p.1]) p.2)
    (hs : I [] [] s) (hops : ∀ op ∈ ops, P op) (h : run step s ops = some q) : I ops q.1 q.2 := by
  -- the operations and results before those that are left
  have hfrom : ∀ os rs, I os rs s → I (os ++ ops) (rs ++ q.1) q.2 := by
    clear hs
    induction ops generalizing s q with
    | nil =>
      cases h
      intro os rs hrs
      rw [append_nil, append_nil]
      exact hrs
    | cons op ops ih =>
      obtain ⟨p, q', hp, hq', rfl⟩ := exists_of_run_cons h
      intro os rs hrs
      have hlast := ih (fun op hop => hops op (mem_cons_of_mem _ hop)) hq' (os ++ [op]) (rs ++ [p.1])
        (hstep os rs s op p hrs (hops op mem_cons_self) hp)
      rwa [append_assoc, append_assoc, singleton_append, singleton_append] at hlast
  exact hfrom [] [] hs

theorem run_history {I : List ρ → σ → Prop}
    (hstep : ∀ rs s op p, I rs s → step s op = some p → I (rs ++ [p.1]) p.2) (hs : I [] s)
    (h : run step s ops = some q) : I q.1 q.2 := by
  have hlast := run_trace (I := fun _ => I) (P := fun _ => True) (fun _ rs s op p hrs _ => hstep rs s op p hrs) hs
    (fun _ _ => trivial) h
  exact hlast

theorem Allows.eq_foldl {f : τ → ο → τ} {t t' : τ} {rs : List ρ}
    (h : Allows (fun t op _ t' => t' = f t op) t ops rs t') : t' = ops.foldl f t := by
  induction h with
  | nil => rfl
  | cons hstep _ ih =>
    rw [foldl_cons, ← hstep]
    exact ih

end Runs
