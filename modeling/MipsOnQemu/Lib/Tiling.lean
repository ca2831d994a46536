/-
# MipsOnQemu.Lib.Tiling -- pieces of a line, in order

A list of pieces, each with a first place and a place after its last. Pieces in order do not overlap. If they
lie in a stretch and their lengths add up to its length, they tile it: each begins where the one before it
ends (`tiles_of_total`).
-/

import Mathlib

namespace Tiling

open List

variable {ι : Type*} (start stop : ι → Nat)

/-- Each piece ends before the later ones begin. -/
def InOrder (l : List ι) : Prop := l.Pairwise fun a b => stop a ≤ start b

def total (l : List ι) : Nat := (l.map fun a => stop a - start a).sum

/-- The pieces follow each other without a gap, from `s` to `e`. -/
def Tiles : Nat → List ι → Nat → Prop
  | s, [], e => s = e
  | s, a :: l, e => start a = s ∧ Tiles (stop a) l e

variable {start stop}

theorem total_cons (a : ι) (l : List ι) : total start stop (a :: l) = stop a - start a + total start stop l := by
  rw [total, map_cons, sum_cons]
  rfl

theorem total_append (l l' : List ι) :
    total start stop (l ++ l') = total start stop l + total start stop l' := by
  rw [total, map_append, sum_append]
  rfl

theorem total_le {l : List ι} (hl : InOrder start stop l) {s e : Nat} (hse : s ≤ e) (hlow : ∀ a ∈ l, s ≤ start a)
    (hpiece : ∀ a ∈ l, start a ≤ stop a) (hhigh : ∀ a ∈ l, stop a ≤ e) : s + total start stop l ≤ e := by
  induction l generalizing s with
  | nil => exact hse
  | cons a l ih =>
    obtain ⟨ha, hl⟩ := pairwise_cons.mp hl
    have hrest := ih hl (hhigh a mem_cons_self) ha (fun b hb => hpiece b (mem_cons_of_mem a hb))
      (fun b hb => hhigh b (mem_cons_of_mem a hb))
    have hs := hlow a mem_cons_self
    have hle := hpiece a mem_cons_self
    rw [total_cons]
    omega

theorem tiles_of_total {l : List ι} (hl : InOrder start stop l) {s e : Nat} (hlow : ∀ a ∈ l, s ≤ start a)
    (hpiece : ∀ a ∈ l, start a ≤ stop a) (hhigh : ∀ a ∈ l, stop a ≤ e) (htotal : s + total start stop l = e) :
    Tiles start stop s l e := by
  induction l generalizing s with
  | nil => exact htotal
  | cons a l ih =>
    obtain ⟨ha, hl⟩ := pairwise_cons.mp hl
    have hpiece' : ∀ b ∈ l, start b ≤ stop b := fun b hb => hpiece b (mem_cons_of_mem a hb)
    have hhigh' : ∀ b ∈ l, stop b ≤ e := fun b hb => hhigh b (mem_cons_of_mem a hb)
    have hrest := total_le hl (hhigh a mem_cons_self) ha hpiece' hhigh'
    have hs := hlow a mem_cons_self
    have hle := hpiece a mem_cons_self
    rw [total_cons] at htotal
    exact ⟨by omega, ih hl ha hpiece' hhigh' (by omega)⟩

end Tiling
