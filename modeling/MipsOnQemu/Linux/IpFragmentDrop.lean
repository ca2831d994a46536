/-
# MipsOnQemu.Linux.IpFragmentDrop -- fragments that are not taken

A fragment that contradicts what is known is refused before the queue changes. But the length of the datagram and
the flag that its end is known are noted before the later tests, and the stored fragments that the new one covers
are freed before the front of the next one is cut off, which can fail. So a fragment that is dropped late may leave
traces (`DropLeavesTrace`): if it said something new about the end of the datagram, or if fragments had been freed.
In all other cases a fragment that is dropped leaves the queue as it was (`ipFragQueue_drop`).
-/

import MipsOnQemu.Linux.IpFragment

namespace Linux

open Tiling List IpFrag

/-! ## When a fragment is dropped late -/

variable (q : Ipq) (skb : FragSkb)

/-- The fragment agrees with what is known about the end of the datagram. -/
def Ipq.Agrees : Prop :=
  if skb.mf then ¬ (q.len < skb.stop ∧ q.lastIn = true)
  else q.len ≤ skb.stop ∧ (q.lastIn = true → skb.stop = q.len)

/-- The fragment says something new about the end of the datagram. -/
def Ipq.IsNews : Prop := if skb.mf then q.len < skb.stop else q.lastIn = false

/-- A fragment that agrees is dropped before any stored fragment is touched: it is empty, memory runs out, or a
stored fragment that begins before it covers it. -/
def DropsUntouched (env : FragEnv) : Prop :=
  skb.stop = skb.offset ∨ env.pullHeader = false ∨ env.trim = false ∨
    (∃ f ∈ q.fragments, f.offset < skb.offset ∧ skb.stop ≤ f.stop) ∨
    (env.pullFront = false ∧ ∃ f ∈ q.fragments, f.offset < skb.offset ∧ skb.offset < f.stop)

/-- Memory runs out when the front of a stored fragment is to be cut off, in which the new one ends. -/
def DropsAtNext (env : FragEnv) : Prop :=
  env.pullNext = false ∧ ∃ f ∈ q.fragments, skb.offset ≤ f.offset ∧ f.offset < skb.stop ∧ skb.stop < f.stop

/-- The new fragment covers a stored one. -/
def Covers : Prop := ∃ f ∈ q.fragments, skb.offset ≤ f.offset ∧ f.stop ≤ skb.stop

/-- A fragment that is dropped leaves traces: it agrees with what is known, and it is dropped after the end of the
datagram has been noted anew, or after stored fragments have been freed. -/
def DropLeavesTrace (env : FragEnv) : Prop :=
  q.complete = false ∧ ¬ (skb.fragComplete = false ∧ q.fragments ≠ [] ∧ env.tooFar = true) ∧ q.Agrees skb ∧
    ((q.IsNews skb ∧ (DropsUntouched q skb env ∨ DropsAtNext q skb env)) ∨
      (¬ DropsUntouched q skb env ∧ DropsAtNext q skb env ∧ Covers q skb))

/-! ## The loop over the later fragments -/

section EatNext

variable {stop : Nat} {pullNext : Bool} {after : List IpFrag} {meat : Nat}

theorem eatNext_fails_iff (horder : InOrder IpFrag.offset IpFrag.stop after) :
    (eatNext stop pullNext after meat).1 = false ↔
      pullNext = false ∧ ∃ f ∈ after, f.offset < stop ∧ stop < f.stop := by
  induction after generalizing meat with
  | nil => simp [eatNext]
  | cons f fs ih =>
    obtain ⟨hf, hfs⟩ := pairwise_cons.mp horder
    have hlater : stop ≤ f.stop → ¬ ∃ g ∈ fs, g.offset < stop ∧ stop < g.stop := by
      rintro hle ⟨g, hg, hlt, _⟩
      have := hf g hg
      omega
    rw [eatNext]
    by_cases hoff : f.offset < stop
    · rw [if_pos hoff]
      by_cases hpart : stop - f.offset < f.data.length
      · have hin : f.offset < stop ∧ stop < f.stop := by
          rw [IpFrag.stop]
          omega
        rw [if_pos hpart]
        cases pullNext
        · exact ⟨fun _ => ⟨rfl, f, mem_cons_self, hin⟩, fun _ => rfl⟩
        · simp
      · have hnot : ¬ stop < f.stop := by
          rw [IpFrag.stop]
          omega
        rw [if_neg hpart, ih hfs]
        refine and_congr_right fun _ => ?_
        rw [exists_mem_cons_iff]
        exact ⟨.inr, fun h => h.resolve_left fun h => hnot h.2⟩
    · rw [if_neg hoff]
      refine ⟨by simp, ?_⟩
      rintro ⟨_, g, hg, hlt, hgt⟩
      rcases mem_cons.mp hg with rfl | hg
      · exact absurd hlt hoff
      · exact absurd ⟨g, hg, hlt, hgt⟩ (hlater (by rw [IpFrag.stop]; omega))

/-- Where it fails, the fragments are the old ones unless one has been freed, and then the count is less. -/
theorem eatNext_failed (horder : InOrder IpFrag.offset IpFrag.stop after) (hne : ∀ f ∈ after, f.offset < f.stop)
    (hmeat : total IpFrag.offset IpFrag.stop after ≤ meat) (hfail : (eatNext stop pullNext after meat).1 = false) :
    ((∀ f ∈ after, ¬ f.stop ≤ stop) → (eatNext stop pullNext after meat).2 = (after, meat)) ∧
      ((∃ f ∈ after, f.stop ≤ stop) → (eatNext stop pullNext after meat).2.2 < meat) := by
  induction after generalizing meat with
  | nil => exact ⟨fun _ => rfl, fun ⟨f, hf, _⟩ => absurd hf (by simp)⟩
  | cons f fs ih =>
    obtain ⟨hf, hfs⟩ := pairwise_cons.mp horder
    have hpos := hne f mem_cons_self
    rw [total_cons_frag] at hmeat
    rw [eatNext] at hfail ⊢
    by_cases hoff : f.offset < stop
    swap
    · rw [if_neg hoff] at hfail
      exact absurd hfail (by simp)
    rw [if_pos hoff] at hfail ⊢
    by_cases hpart : stop - f.offset < f.data.length
    · rw [if_pos hpart] at hfail ⊢
      cases pullNext
      · refine ⟨fun _ => rfl, ?_⟩
        rintro ⟨g, hg, hle⟩
        rcases mem_cons.mp hg with rfl | hg'
        · rw [IpFrag.stop] at hle
          omega
        · have h1 := hf g hg'
          have h2 := hne g hg
          rw [IpFrag.stop] at h1
          omega
      · exact absurd hfail (by simp)
    · rw [if_neg hpart] at hfail ⊢
      have hle : f.stop ≤ stop := by
        rw [IpFrag.stop]
        omega
      rw [IpFrag.stop] at hpos
      refine ⟨fun h => absurd hle (h f mem_cons_self), fun _ => ?_⟩
      have hne' : ∀ g ∈ fs, g.offset < g.stop := fun g hg => hne g (mem_cons_of_mem f hg)
      obtain ⟨hsame, hless⟩ := ih hfs hne' (by omega) hfail
      by_cases hmore : ∃ g ∈ fs, g.stop ≤ stop
      · have := hless hmore
        omega
      · have hnone : ∀ g ∈ fs, ¬ g.stop ≤ stop := fun g hg hle => hmore ⟨g, hg, hle⟩
        rw [hsame hnone]
        dsimp only
        omega

end EatNext

/-! ## The place of a fragment -/

section Place

variable {received : List FragSkb} {q : Ipq} {skb : FragSkb} {env : FragEnv} {l : List IpFrag} {o : Nat}

section

variable (horder : InOrder offset stop l)
include horder

theorem le_of_mem_dropWhile {f : IpFrag} (hf : f ∈ l.dropWhile fun f => f.offset < o) : o ≤ f.offset := by
  induction l with
  | nil => cases hf
  | cons g l ih =>
    obtain ⟨hg, hl⟩ := pairwise_cons.mp horder
    rw [dropWhile_cons] at hf
    split at hf
    · exact ih hl hf
    · next hlt =>
      have hle : o ≤ g.offset := by simpa using hlt
      rcases mem_cons.mp hf with rfl | hf
      · exact hle
      · exact hle.trans ((Nat.le_add_right _ _).trans (hg f hf))

/-- The fragments before the new one, and those after it. -/
theorem mem_split_iff {f : IpFrag} : (f ∈ l.takeWhile (fun f => f.offset < o) ↔ f ∈ l ∧ f.offset < o) ∧
      (f ∈ l.dropWhile (fun f => f.offset < o) ↔ f ∈ l ∧ o ≤ f.offset) := by
  have hsplit : f ∈ l ↔ f ∈ l.takeWhile (fun f => f.offset < o) ∨ f ∈ l.dropWhile fun f => f.offset < o := by
    rw [← mem_append, takeWhile_append_dropWhile]
  have hbefore : f ∈ l.takeWhile (fun f => f.offset < o) → f.offset < o := fun hf => by
    simpa using mem_takeWhile_imp hf
  have hafter : f ∈ l.dropWhile (fun f => f.offset < o) → o ≤ f.offset := le_of_mem_dropWhile horder
  grind

end

theorem le_prevEnd_iff (hq : q.Good received) {x : Nat} (hx : 0 < x) :
    x ≤ prevEnd (q.fragments.takeWhile fun f => f.offset < o) ↔ ∃ f ∈ q.fragments, f.offset < o ∧ x ≤ f.stop := by
  have horder : InOrder offset stop (q.fragments.takeWhile fun f => f.offset < o) :=
    hq.inOrder.sublist (takeWhile_sublist _)
  have hne : ∀ f ∈ q.fragments.takeWhile (fun f => f.offset < o), f.offset < f.stop :=
    fun f hf => hq.nonempty f ((takeWhile_sublist _).subset hf)
  constructor
  · intro hle
    rw [prevEnd] at hle
    cases hlast : (q.fragments.takeWhile fun f => decide (f.offset < o)).getLast? with
    | none =>
      rw [hlast, Option.map_none, Option.getD_none] at hle
      omega
    | some f =>
      rw [hlast, Option.map_some, Option.getD_some] at hle
      obtain ⟨hmem, hlt⟩ := (mem_split_iff hq.inOrder).1.mp (List.mem_of_getLast? hlast)
      exact ⟨f, hmem, hlt, hle⟩
  · rintro ⟨f, hmem, hlt, hle⟩
    exact hle.trans (stop_le_prevEnd horder hne f ((mem_split_iff hq.inOrder).1.mpr ⟨hmem, hlt⟩))

/-- A fragment is put in, or it is dropped because the loop over the later ones fails. -/
theorem linkFrag_cases (hq : q.Good received) (env : FragEnv) {frag : IpFrag} (hstop : frag.stop = skb.stop) :
    let r := linkFrag q (q.fragments.takeWhile fun f => f.offset < skb.offset)
      (q.fragments.dropWhile fun f => f.offset < skb.offset) frag env.pullNext
    (DropsAtNext q skb env ∧ r.1 = .dropped ∧ (Covers q skb → r.2.meat < q.meat) ∧ (¬ Covers q skb → r.2 = q)) ∨
      (¬ DropsAtNext q skb env ∧ r.1 = .stored) := by
  have hsplit := takeWhile_append_dropWhile (p := fun f : IpFrag => decide (f.offset < skb.offset))
    (l := q.fragments)
  have hmem : ∀ f, f ∈ q.fragments.dropWhile (fun f => f.offset < skb.offset) ↔ _ :=
    fun _ => (mem_split_iff hq.inOrder).2
  have horder : InOrder IpFrag.offset IpFrag.stop (q.fragments.dropWhile fun f => f.offset < skb.offset) :=
    hq.inOrder.sublist (dropWhile_sublist _)
  generalize q.fragments.takeWhile (fun f => decide (f.offset < skb.offset)) = before at hsplit ⊢
  generalize q.fragments.dropWhile (fun f => decide (f.offset < skb.offset)) = after at hsplit hmem horder ⊢
  have hne : ∀ f ∈ after, f.offset < f.stop := fun f hf => hq.nonempty f ((hmem f).mp hf).1
  have hmeat : total IpFrag.offset IpFrag.stop after ≤ q.meat := by
    rw [hq.meat, ← hsplit, total_append]
    exact Nat.le_add_left _ _
  have hnext : (eatNext frag.stop env.pullNext after q.meat).1 = false ↔ DropsAtNext q skb env := by
    rw [eatNext_fails_iff horder, hstop, DropsAtNext]
    refine and_congr_right fun _ => exists_congr fun f => ?_
    rw [hmem, and_assoc]
  have hcovers : (∃ f ∈ after, f.stop ≤ frag.stop) ↔ Covers q skb := by
    rw [hstop, Covers]
    refine exists_congr fun f => ?_
    rw [hmem, and_assoc]
  dsimp only
  rw [linkFrag]
  by_cases hfail : (eatNext frag.stop env.pullNext after q.meat).1 = false
  · obtain ⟨hsame, hless⟩ := eatNext_failed horder hne hmeat hfail
    rw [hfail]
    refine .inl ⟨hnext.mp hfail, rfl, fun h => hless (hcovers.mpr h), ?_⟩
    intro hno
    have heaten := hsame fun f hf hle => hno (hcovers.mp ⟨f, hf, hle⟩)
    rw [if_neg Bool.false_ne_true, heaten]
    dsimp only
    rw [hsplit]
  · rw [Bool.not_eq_false] at hfail
    rw [hfail]
    exact .inr ⟨fun h => by rw [hnext.mpr h] at hfail; exact absurd hfail (by decide), rfl⟩

/-- The three ways in which the second part of `ip_frag_queue` ends. -/
theorem placeFrag_cases (hq : q.Good received) (skb : FragSkb) (env : FragEnv) :
    (DropsUntouched q skb env ∧ placeFrag q skb env = (.dropped, q)) ∨
    (¬ DropsUntouched q skb env ∧ DropsAtNext q skb env ∧ (placeFrag q skb env).1 = .dropped ∧
      (Covers q skb → (placeFrag q skb env).2.meat < q.meat) ∧ (¬ Covers q skb → (placeFrag q skb env).2 = q)) ∨
    (¬ DropsUntouched q skb env ∧ ¬ DropsAtNext q skb env ∧ (placeFrag q skb env).1 = .stored) := by
  have hle := skb.offset_le_stop
  by_cases hzero : skb.stop = skb.offset
  · exact .inl ⟨.inl hzero, by rw [placeFrag, if_pos hzero]⟩
  by_cases hheader : env.pullHeader = false
  · exact .inl ⟨.inr (.inl hheader), by rw [placeFrag, if_neg hzero, if_pos hheader]⟩
  by_cases htrim : env.trim = false
  · exact .inl ⟨.inr (.inr (.inl htrim)), by rw [placeFrag, if_neg hzero, if_neg hheader, if_pos htrim]⟩
  rw [placeFrag, if_neg hzero, if_neg hheader, if_neg htrim]
  dsimp only
  have hcover := le_prevEnd_iff (o := skb.offset) hq (by omega : 0 < skb.stop)
  have hover := le_prevEnd_iff (o := skb.offset) hq (Nat.succ_pos skb.offset)
  generalize prevEnd (q.fragments.takeWhile fun f => decide (f.offset < skb.offset)) = prev at hcover hover ⊢
  -- what is left of the reasons to drop the fragment untouched
  have huntouched : DropsUntouched q skb env ↔ skb.stop ≤ prev ∨ (env.pullFront = false ∧ skb.offset < prev) := by
    rw [DropsUntouched, hcover, ← Nat.succ_le_iff, hover, or_iff_right hzero, or_iff_right hheader, or_iff_right htrim]
    rfl
  by_cases hlt : skb.offset < prev
  · rw [if_pos hlt]
    by_cases hcov : skb.stop ≤ prev
    · rw [if_pos hcov]
      exact .inl ⟨huntouched.mpr (.inl hcov), rfl⟩
    · rw [if_neg hcov]
      by_cases hfront : env.pullFront = false
      · rw [if_pos hfront]
        exact .inl ⟨huntouched.mpr (.inr ⟨hfront, hlt⟩), rfl⟩
      · rw [if_neg hfront]
        have hno : ¬ DropsUntouched q skb env := by
          rw [huntouched]
          exact fun h => h.elim hcov fun h => hfront h.1
        have hstop : (skb.trimmed.pull (prev - skb.offset)).stop = skb.stop := by
          rw [stop_pull (by rw [skb.length_trimmed]; omega), skb.stop_trimmed]
        exact .inr ((linkFrag_cases hq env hstop).imp (.intro hno) (.intro hno))
  · rw [if_neg hlt]
    have hno : ¬ DropsUntouched q skb env := by
      rw [huntouched]
      exact fun h => h.elim (by omega) fun h => hlt h.2
    exact .inr ((linkFrag_cases hq env skb.stop_trimmed).imp (.intro hno) (.intro hno))

end Place

/-! ## Fragments that are dropped -/

/-- A fragment that is dropped, but not with the queue, leaves everything as it was. -/
def DropKeeps (q : Ipq) (skb : FragSkb) (env : FragEnv) : Prop :=
  (ipFragQueue q skb env).1 = .dropped →
    (ipFragQueue q skb env).2.len = q.len ∧ (ipFragQueue q skb env).2.meat = q.meat ∧
    (ipFragQueue q skb env).2.complete = q.complete ∧ (ipFragQueue q skb env).2.firstIn = q.firstIn ∧
    (ipFragQueue q skb env).2.lastIn = q.lastIn ∧ (ipFragQueue q skb env).2.fragments = q.fragments

theorem linkFrag_noted (q : Ipq) (before after : List IpFrag) (frag : IpFrag) (pullNext : Bool) :
    (linkFrag q before after frag pullNext).2.len = q.len ∧
      (linkFrag q before after frag pullNext).2.lastIn = q.lastIn := by
  rw [linkFrag]
  split_ifs <;> exact ⟨rfl, rfl⟩

/-- The second part of `ip_frag_queue` does not touch what has been noted about the end. -/
theorem placeFrag_noted (q : Ipq) (skb : FragSkb) (env : FragEnv) :
    (placeFrag q skb env).2.len = q.len ∧ (placeFrag q skb env).2.lastIn = q.lastIn := by
  rw [placeFrag]
  dsimp only
  split_ifs
  all_goals first
    | exact ⟨rfl, rfl⟩
    | exact linkFrag_noted q _ _ _ _

section Drop

variable {received : List FragSkb} {q : Ipq} {skb : FragSkb} {env : FragEnv}

/-- The second part, from a queue in which the end has been noted: when the fragment is dropped, and what then differs
from before. -/
theorem placeFrag_keeps_iff (hq : q.Good received) (len : Nat) (lastIn : Bool) (hlen : q.len ≤ len) :
    ((placeFrag { q with lastIn := lastIn, len := len } skb env).1 = .dropped →
      (placeFrag { q with lastIn := lastIn, len := len } skb env).2 = q) ↔
    ¬ (((lastIn ≠ q.lastIn ∨ len ≠ q.len) ∧ (DropsUntouched q skb env ∨ DropsAtNext q skb env)) ∨
      (¬ DropsUntouched q skb env ∧ DropsAtNext q skb env ∧ Covers q skb)) := by
  have hcases := placeFrag_cases (hq.mono_len hlen lastIn) skb env
  obtain ⟨hlen', hlast'⟩ := placeFrag_noted { q with lastIn := lastIn, len := len } skb env
  have hsame : ({ q with lastIn := lastIn, len := len } : Ipq) = q ↔ ¬ (lastIn ≠ q.lastIn ∨ len ≠ q.len) := by
    rw [not_or, not_not, not_not]
    constructor
    · intro h
      exact ⟨congrArg Ipq.lastIn h, congrArg Ipq.len h⟩
    · rintro ⟨rfl, rfl⟩
      rfl
  generalize hout : placeFrag { q with lastIn := lastIn, len := len } skb env = out at *
  change (DropsUntouched q skb env ∧ _) ∨ (¬ DropsUntouched q skb env ∧ DropsAtNext q skb env ∧ _ ∧
    (Covers q skb → out.2.meat < q.meat) ∧ _) ∨ (¬ DropsUntouched q skb env ∧ ¬ DropsAtNext q skb env ∧ _) at hcases
  rcases hcases with ⟨hun, rfl⟩ | ⟨hun, hnext, hdrop, hless, heq⟩ | ⟨hun, hnext, hstored⟩
  · constructor
    · rintro hkeep (⟨hnews, _⟩ | ⟨hno, _⟩)
      · exact hsame.mp (hkeep rfl) hnews
      · exact hno hun
    · intro h _
      exact hsame.mpr fun hnews => h (.inl ⟨hnews, .inl hun⟩)
  · constructor
    · rintro hkeep (⟨hnews, _⟩ | ⟨_, _, hcov⟩)
      · rw [hkeep hdrop] at hlen' hlast'
        exact hnews.elim (fun h => h hlast'.symm) fun h => h hlen'.symm
      · have := hless hcov
        rw [hkeep hdrop] at this
        exact absurd this (lt_irrefl _)
    · intro h _
      have hno : ¬ Covers q skb := fun hcov => h (.inr ⟨hun, hnext, hcov⟩)
      rw [heq hno]
      exact hsame.mpr fun hnews => h (.inl ⟨hnews, .inr hnext⟩)
  · refine ⟨?_, fun _ hdrop => ?_⟩
    · rintro _ (⟨_, h⟩ | ⟨_, h, _⟩)
      · exact h.elim hun hnext
      · exact hnext h
    · rw [hstored] at hdrop
      exact absurd hdrop (by decide)

theorem queueFrag_refused (h : ¬ q.Agrees skb) : queueFrag q skb env = (.dropped, q) := by
  rw [Ipq.Agrees] at h
  rw [queueFrag]
  cases hmf : skb.mf
  · rw [hmf, if_neg Bool.false_ne_true] at h
    have hbad : skb.stop < q.len ∨ (q.lastIn = true ∧ skb.stop ≠ q.len) := by
      by_contra hno
      refine h ⟨not_lt.mp fun hlt => hno (.inl hlt), fun hlast => ?_⟩
      by_contra hne
      exact hno (.inr ⟨hlast, hne⟩)
    rw [if_pos rfl, if_pos hbad]
  · rw [hmf, if_pos rfl, not_not] at h
    rw [if_neg (by decide), if_pos h.1, if_pos h.2]

/-- A fragment that agrees with what is known: the end is noted, and it goes on to its place. -/
theorem queueFrag_agrees (h : q.Agrees skb) (env : FragEnv) :
    ∃ len lastIn, q.len ≤ len ∧ (lastIn ≠ q.lastIn ∨ len ≠ q.len ↔ q.IsNews skb) ∧
      queueFrag q skb env = placeFrag { q with lastIn := lastIn, len := len } skb env := by
  rw [Ipq.Agrees] at h
  rw [queueFrag, Ipq.IsNews]
  cases hmf : skb.mf
  · rw [hmf, if_neg Bool.false_ne_true] at h
    have hok : ¬ (skb.stop < q.len ∨ (q.lastIn = true ∧ skb.stop ≠ q.len)) := by
      rintro (hlt | ⟨hlast, hne⟩)
      · exact absurd h.1 (not_le.mpr hlt)
      · exact hne (h.2 hlast)
    rw [if_pos rfl, if_neg hok, if_neg Bool.false_ne_true]
    refine ⟨skb.stop, true, h.1, ?_, rfl⟩
    cases hlast : q.lastIn
    · exact ⟨fun _ => rfl, fun _ => .inl (by decide)⟩
    · refine ⟨fun hnews => ?_, fun hnews => absurd hnews (by decide)⟩
      exact hnews.elim (fun hne => absurd rfl hne) fun hne => absurd (h.2 hlast) hne
  · rw [hmf, if_pos rfl] at h
    rw [if_pos rfl, if_neg (by decide : ¬ true = false)]
    by_cases hmore : q.len < skb.stop
    · rw [if_pos hmore, if_neg fun hlast => h ⟨hmore, hlast⟩]
      exact ⟨skb.stop, q.lastIn, hmore.le, ⟨fun _ => hmore, fun _ => .inr hmore.ne'⟩, rfl⟩
    · rw [if_neg hmore]
      refine ⟨q.len, q.lastIn, le_refl _, ⟨fun hnews => ?_, fun hnews => absurd hnews hmore⟩, rfl⟩
      exact hnews.elim (fun hne => absurd rfl hne) fun hne => absurd rfl hne

/-- In a queue that is as it should be, a fragment that is dropped leaves everything as it was, unless it leaves a
trace in one of the ways of `DropLeavesTrace`. -/
theorem dropKeeps_iff (hq : q.Good received) : DropKeeps q skb env ↔ ¬ DropLeavesTrace q skb env := by
  have hkeeps : DropKeeps q skb env ↔ ((ipFragQueue q skb env).1 = .dropped → (ipFragQueue q skb env).2 = q) := by
    refine imp_congr_right fun _ => ?_
    generalize (ipFragQueue q skb env).2 = q'
    constructor
    · rintro ⟨hlen, hmeat, hcomplete, hfirst, hlast, hfrags⟩
      obtain ⟨c, fi, la, fr, le, me⟩ := q'
      subst hlen hmeat hcomplete hfirst hlast hfrags
      rfl
    · rintro rfl
      exact ⟨rfl, rfl, rfl, rfl, rfl, rfl⟩
  rw [hkeeps, ipFragQueue, DropLeavesTrace]
  by_cases hcomplete : q.complete = true
  · rw [if_pos hcomplete]
    refine ⟨fun _ h => ?_, fun _ _ => rfl⟩
    rw [h.1] at hcomplete
    exact absurd hcomplete (by decide)
  rw [if_neg hcomplete]
  by_cases hfar : skb.fragComplete = false ∧ q.fragments ≠ [] ∧ env.tooFar = true
  · rw [if_pos hfar]
    refine ⟨fun _ h => h.2.1 hfar, fun _ hdrop => ?_⟩
    split_ifs at hdrop
  rw [if_neg hfar]
  by_cases hagrees : q.Agrees skb
  · obtain ⟨len, lastIn, hlen, hnews, heq⟩ := queueFrag_agrees hagrees env
    rw [heq, placeFrag_keeps_iff hq len lastIn hlen, hnews]
    refine not_congr ⟨fun h => ⟨eq_false_of_ne_true hcomplete, hfar, hagrees, h⟩, fun h => h.2.2.2⟩
  · rw [queueFrag_refused hagrees]
    exact ⟨fun _ h => hagrees h.2.2.1, fun _ _ => rfl⟩

end Drop

/-- In every queue that fragments lead to, a fragment that is dropped, but not by killing or emptying the queue, leaves
the length, the count, the flags and the stored fragments as they were, exactly if it is not one that leaves a trace. -/
theorem ipFragQueue_drop (frags : List (FragSkb × FragEnv)) (outs : List FragOutcome) (q : Ipq)
    (hrun : Runs.run ipFragStep ipFragCreate frags = some (outs, q)) (skb : FragSkb) (env : FragEnv) :
    DropKeeps q skb env ↔ ¬ DropLeavesTrace q skb env :=
  dropKeeps_iff (run_ipFragStep_good hrun)

/-- The end of the datagram is known, and a fragment beyond it is refused. -/
theorem ipFragQueue_drop_beyond : ∃ outs q, Runs.run ipFragStep ipFragCreate twoFrags = some (outs, q) ∧
      DropKeeps q ⟨0x2002#16, 5, List.replicate 8 67#8, false⟩ ⟨false, true, true, true, true, true⟩ := by
  have hrun : ∃ outs q, Runs.run ipFragStep ipFragCreate twoFrags = some (outs, q) ∧
      ¬ q.Agrees ⟨0x2002#16, 5, replicate 8 67#8, false⟩ :=
    ⟨_, _, rfl, fun h => h ⟨by decide, rfl⟩⟩
  obtain ⟨outs, q, hrun, hno⟩ := hrun
  exact ⟨outs, q, hrun, (ipFragQueue_drop twoFrags outs q hrun _ _).mpr fun h => hno h.2.2.1⟩

/-- A last fragment without data is dropped, but the flag that the last one has come in stays set, and so does a
length. -/
theorem ipFragQueue_drop_empty :
    ipFragQueue ipFragCreate ⟨1#16, 5, [], false⟩ ⟨false, true, true, true, true, true⟩ =
      (.dropped, { ipFragCreate with lastIn := true, len := 8 }) ∧
    ¬ DropKeeps ipFragCreate ⟨1#16, 5, [], false⟩ ⟨false, true, true, true, true, true⟩ := by
  have hout : ipFragQueue ipFragCreate ⟨1#16, 5, [], false⟩ ⟨false, true, true, true, true, true⟩ =
      (.dropped, { ipFragCreate with lastIn := true, len := 8 }) := by decide
  refine ⟨hout, fun h => ?_⟩
  rw [DropKeeps, hout] at h
  exact absurd (h rfl).1 (by decide)

end Linux
