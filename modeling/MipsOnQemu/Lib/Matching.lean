/-
# MipsOnQemu.Lib.Matching -- occurrences of a word in a text

Where a word occurs in a text, and how far a window may be moved without missing an occurrence. The window is
given by its last place, as in searches that compare from the right. Two rules are stated for any numbers that
meet their condition, so that a table of shifts need only be shown to meet it: by the character at which the
comparison failed (`le_of_badCharacter`), and by what had matched before that (`le_of_goodSuffix`).
-/

import Mathlib

namespace Matching

variable {α : Type*}

/-- The word `w` occurs in the text `t` at place `p`. -/
def OccursAt (w t : List α) (p : Nat) : Prop :=
  p + w.length ≤ t.length ∧ ∀ k < w.length, t[p + k]? = w[k]?

instance [DecidableEq α] (w t : List α) (p : Nat) : Decidable (OccursAt w t p) :=
  inferInstanceAs (Decidable (_ ∧ _))

/-- The character `k` places before the last one of the word. -/
def fromEnd (w : List α) (k : Nat) : Option α := w[w.length - 1 - k]?

variable {w t : List α} {p : Nat}

/-- An occurrence read from its last place `e` on, backwards. -/
theorem OccursAt.fromEnd (h : OccursAt w t p) {k : Nat} (hk : k < w.length) :
    t[p + w.length - 1 - k]? = Matching.fromEnd w k := by
  have hlast := h.2 (w.length - 1 - k) (by omega)
  have hplace : p + (w.length - 1 - k) = p + w.length - 1 - k := by omega
  rw [hplace] at hlast
  exact hlast

/-- The window that ends at place `e` holds the word if it does so character by character. -/
theorem occursAt_of_fromEnd {e : Nat} (hlow : w.length ≤ e + 1) (hhigh : e < t.length)
    (h : ∀ k < w.length, t[e - k]? = fromEnd w k) : OccursAt w t (e + 1 - w.length) := by
  refine ⟨by omega, ?_⟩
  intro k hk
  have hk' := h (w.length - 1 - k) (by omega)
  have htext : e - (w.length - 1 - k) = e + 1 - w.length + k := by omega
  have hword : w.length - 1 - (w.length - 1 - k) = k := by omega
  rw [htext, fromEnd, hword] at hk'
  exact hk'

/-- The comparison of a window fails at the character `c`, which stands `i` places before the end of the window.
If `c` does not stand closer than `b` to the last place of the word, the end of the word cannot come closer than
`b` after `c`. -/
theorem le_of_badCharacter {s i b : Nat} {c : α} (hc : t[s - i]? = some c)
    (hb : b ≤ w.length) (hlast : ∀ d, 1 ≤ d → d < w.length → fromEnd w d = some c → b ≤ d)
    (hp : OccursAt w t p) (hafter : s < p + w.length - 1) : s - i + b ≤ p + w.length - 1 := by
  by_cases hfar : w.length ≤ p + w.length - 1 - (s - i)
  · omega
  · have hin := hp.fromEnd (not_le.mp hfar)
    have hplace : p + w.length - 1 - (p + w.length - 1 - (s - i)) = s - i := by omega
    rw [hplace, hc] at hin
    have := hlast (p + w.length - 1 - (s - i)) (by omega) (not_le.mp hfar) hin.symm
    omega

/-- The last `g` characters of a word, moved by `d` places to the left, stand on the same characters as far as
they stand on the word, and the character before them stands on another one. -/
def Recurs (w : List α) (g d : Nat) : Prop :=
  (∀ k < g, k + d < w.length → fromEnd w (k + d) = fromEnd w k) ∧
    (g + d < w.length → fromEnd w (g + d) ≠ fromEnd w g)

/-- The last `g` characters of a window match and the one before them does not. If the matching part does not
recur less than `b` places to the left, the word does not occur less than `b` places to the right. -/
theorem le_of_goodSuffix {s g b : Nat} (hg : g < w.length)
    (hmatch : ∀ k < g, t[s - k]? = fromEnd w k) (hfail : t[s - g]? ≠ fromEnd w g) (hs : w.length ≤ s + 1)
    (hrecurs : ∀ d, 1 ≤ d → d < b → ¬ Recurs w g d) (hp : OccursAt w t p) (hafter : s < p + w.length - 1) :
    s + b ≤ p + w.length - 1 := by
  by_contra hclose
  refine hrecurs (p + w.length - 1 - s) (by omega) (by omega) ⟨?_, ?_⟩
  · intro k hk hin
    have hk' := hp.fromEnd hin
    have hplace : p + w.length - 1 - (k + (p + w.length - 1 - s)) = s - k := by omega
    rw [hplace, hmatch k hk] at hk'
    exact hk'.symm
  · intro hin heq
    have hg' := hp.fromEnd hin
    have hplace : p + w.length - 1 - (g + (p + w.length - 1 - s)) = s - g := by omega
    rw [hplace, heq] at hg'
    exact hfail hg'

end Matching
