/-
# MipsOnQemu.Lib.Footprint -- assertions about parts of a memory

An assertion carries the list of the locations it speaks about, its footprint, and holds of two
memories alike when they agree there. A list of assertions is satisfied when each holds and no
location occurs in two footprints, so a write inside one footprint leaves the others standing
(`Sats.write`). Nothing is asked of the memory but that locations can be read.
-/

import Mathlib

namespace Footprint

open List

universe u v w

variable {M : Type u} {L : Type v} {V : Type w} {read : M → L → V}

/-- An assertion with its footprint. -/
structure Assn (read : M → L → V) where
  foot : List L
  holds : M → Prop
  frame : ∀ {m m' : M}, (∀ l ∈ foot, read m' l = read m l) → holds m → holds m'

/-- The assertions hold side by side. -/
def Sats (m : M) (as : List (Assn read)) : Prop :=
  (∀ a ∈ as, a.holds m) ∧ (as.flatMap Assn.foot).Nodup

namespace Sats

variable {m m' : M} {a b : Assn read} {as bs : List (Assn read)}

theorem perm (h : Sats m as) (hp : as.Perm bs) : Sats m bs :=
  ⟨fun b hb => h.1 b (hp.mem_iff.mpr hb), (hp.flatMap_right _).nodup_iff.mp h.2⟩

theorem pull (h : Sats m as) (i : Nat) (hi : i < as.length) : Sats m (as[i] :: as.eraseIdx i) :=
  h.perm (getElem_cons_eraseIdx_perm hi).symm

section Pull

variable {c d e f g : Assn read}

theorem pull₁ (h : Sats m (a :: b :: as)) : Sats m (b :: a :: as) := h.pull 1 (by simp)

theorem pull₂ (h : Sats m (a :: b :: c :: as)) : Sats m (c :: a :: b :: as) := h.pull 2 (by simp)

theorem pull₃ (h : Sats m (a :: b :: c :: d :: as)) : Sats m (d :: a :: b :: c :: as) :=
  h.pull 3 (by simp)

theorem pull₄ (h : Sats m (a :: b :: c :: d :: e :: as)) : Sats m (e :: a :: b :: c :: d :: as) :=
  h.pull 4 (by simp)

theorem pull₅ (h : Sats m (a :: b :: c :: d :: e :: f :: as)) : Sats m (f :: a :: b :: c :: d :: e :: as) :=
  h.pull 5 (by simp)

end Pull

theorem head (h : Sats m (a :: as)) : a.holds m := h.1 a mem_cons_self

theorem tail (h : Sats m (a :: as)) : Sats m as := by
  refine ⟨(forall_mem_cons.mp h.1).2, ?_⟩
  have hnodup := h.2
  rw [flatMap_cons, nodup_append] at hnodup
  exact hnodup.2.1

theorem not_mem (h : Sats m (a :: as)) {l : L} (hl : l ∈ a.foot) (hb : b ∈ as) : l ∉ b.foot := by
  have hnodup := h.2
  rw [flatMap_cons, nodup_append] at hnodup
  intro hlb
  exact hnodup.2.2 l hl l (mem_flatMap.mpr ⟨b, hb, hlb⟩) rfl

/-- **The frame rule.** A change inside the first footprint concerns the first assertion only. -/
theorem write (h : Sats m (a :: as)) (hfoot : b.foot.Perm a.foot) (hb : b.holds m')
    (hsame : ∀ l, l ∉ a.foot → read m' l = read m l) : Sats m' (b :: as) := by
  refine ⟨forall_mem_cons.mpr ⟨hb, fun c hc => ?_⟩, ?_⟩
  · refine c.frame (fun l hl => hsame l fun hla => ?_) (h.1 c (mem_cons_of_mem _ hc))
    exact h.not_mem hla hc hl
  · have hperm : ((b :: as).flatMap Assn.foot).Perm ((a :: as).flatMap Assn.foot) :=
      hfoot.append_right _
    exact hperm.nodup_iff.mpr h.2

theorem replace (as bs : List (Assn read)) {cs : List (Assn read)} (h : Sats m (as ++ cs))
    (hfoot : (as.flatMap Assn.foot).Perm (bs.flatMap Assn.foot)) (hholds : ∀ b ∈ bs, b.holds m) :
    Sats m (bs ++ cs) := by
  refine ⟨forall_mem_append.mpr ⟨hholds, (forall_mem_append.mp h.1).2⟩, ?_⟩
  have hnodup := h.2
  rw [flatMap_append] at hnodup ⊢
  exact (hfoot.append_right _).nodup_iff.mp hnodup

end Sats

end Footprint
