/-
# MipsOnQemu.Linux.IpFragment -- reassembly of IP datagrams

`net/ipv4/ip_fragment.c`: one queue of fragments of a datagram. `ip_frag_queue` puts a fragment into its place:
the front of the fragment is cut off as far as the one before it reaches, and of the ones after it, those that it
covers are freed and the next one loses its front. `ip_defrag` glues the fragments together when the first and
the last have been seen and the bytes that are stored are as many as the datagram is long.

What can go wrong outside this file is given by a `FragEnv`: whether the fragment is too far ahead, whether the
timer of the queue is still pending, and which operations on buffers find memory.

The fragments of a queue are always in order and inside the length, and `meat` is the number of their bytes
(`ipFragQueue_good`), so a datagram that is complete by the count is complete (`ipFragQueue_sound`).
-/

import MipsOnQemu.Lib.Runs
import MipsOnQemu.Lib.Tiling

namespace Linux

open Tiling List Nat Prod

/-! ## Fragments and queues -/

/-- A fragment as it comes in: `frag_off` and `ihl` of its header, the bytes after the header, and whether
`IPSKB_FRAG_COMPLETE` is set. -/
structure FragSkb where
  fragOff : BitVec 16
  ihl : Nat
  data : List (BitVec 8)
  fragComplete : Bool
  deriving DecidableEq

/-- `offset & IP_OFFSET`, in bytes. -/
def FragSkb.offset (skb : FragSkb) : Nat := (skb.fragOff &&& 0x1fff#16).toNat <<< 3

def FragSkb.mf (skb : FragSkb) : Bool := skb.fragOff &&& 0x2000#16 ≠ 0#16

/-- `end`: a fragment that is not the last one is cut off at a multiple of eight. -/
def FragSkb.stop (skb : FragSkb) : Nat :=
  if skb.mf then (skb.offset + skb.data.length) - (skb.offset + skb.data.length) % 8
  else skb.offset + skb.data.length

/-- A fragment in the queue. -/
structure IpFrag where
  offset : Nat
  data : List (BitVec 8)
  ihl : Nat
  deriving DecidableEq

def IpFrag.stop (f : IpFrag) : Nat := f.offset + f.data.length

/-- `pskb_pull` of `i` bytes. -/
def IpFrag.pull (f : IpFrag) (i : Nat) : IpFrag := { f with offset := f.offset + i, data := f.data.drop i }

/-- `struct ipq`, with the bits of `last_in`. -/
structure Ipq where
  complete : Bool
  firstIn : Bool
  lastIn : Bool
  fragments : List IpFrag
  len : Nat
  meat : Nat
  deriving DecidableEq

def ipFragCreate : Ipq where
  complete := false
  firstIn := false
  lastIn := false
  fragments := []
  len := 0
  meat := 0

structure FragEnv where
  tooFar : Bool
  timerPending : Bool
  pullHeader : Bool
  trim : Bool
  pullFront : Bool
  pullNext : Bool
  deriving DecidableEq

/-- What becomes of a fragment. After a new start of the queue, it is stored in the new one or not. -/
inductive FragOutcome where
  | stored
  | dropped
  | killed
  | reinit (stored : Bool)
  deriving DecidableEq

/-! ## `ip_frag_queue` -/

/-- The loop over the fragments after the new one, which ends at `stop`: whether it goes through, the fragments
that are left, and `meat`. -/
def eatNext (stop : Nat) (pullNext : Bool) : List IpFrag → Nat → Bool × List IpFrag × Nat
  | [], meat => (true, [], meat)
  | f :: fs, meat =>
    if f.offset < stop then
      if stop - f.offset < f.data.length then
        if pullNext then (true, f.pull (stop - f.offset) :: fs, meat - (stop - f.offset))
        else (false, f :: fs, meat)
      else eatNext stop pullNext fs (meat - f.data.length)
    else (true, f :: fs, meat)

/-- The fragment is put between those before it and those after it. -/
def linkFrag (q : Ipq) (before after : List IpFrag) (frag : IpFrag) (pullNext : Bool) : FragOutcome × Ipq :=
  let eaten := eatNext frag.stop pullNext after q.meat
  if eaten.1 then
    (.stored, { q with
      fragments := before ++ frag :: eaten.2.1
      meat := eaten.2.2 + frag.data.length
      firstIn := q.firstIn || frag.offset = 0 })
  else (.dropped, { q with fragments := before ++ eaten.2.1, meat := eaten.2.2 })

/-- Where the last of the fragments before the new one ends. -/
def prevEnd (before : List IpFrag) : Nat := (before.getLast?.map IpFrag.stop).getD 0

/-- The fragment as far as it counts. -/
def FragSkb.trimmed (skb : FragSkb) : IpFrag where
  offset := skb.offset
  data := skb.data.take (skb.stop - skb.offset)
  ihl := skb.ihl

/-- The part of `ip_frag_queue` after the length of the datagram has been noted. -/
def placeFrag (q : Ipq) (skb : FragSkb) (env : FragEnv) : FragOutcome × Ipq :=
  if skb.stop = skb.offset then (.dropped, q)
  else if env.pullHeader = false then (.dropped, q)
  else if env.trim = false then (.dropped, q)
  else
    let before := q.fragments.takeWhile fun f => f.offset < skb.offset
    let after := q.fragments.dropWhile fun f => f.offset < skb.offset
    if skb.offset < prevEnd before then
      if skb.stop ≤ prevEnd before then (.dropped, q)
      else if env.pullFront = false then (.dropped, q)
      else linkFrag q before after (skb.trimmed.pull (prevEnd before - skb.offset)) env.pullNext
    else linkFrag q before after skb.trimmed env.pullNext

/-- `ip_frag_queue` after the tests whether the queue is alive. -/
def queueFrag (q : Ipq) (skb : FragSkb) (env : FragEnv) : FragOutcome × Ipq :=
  if skb.mf = false then
    if skb.stop < q.len ∨ (q.lastIn = true ∧ skb.stop ≠ q.len) then (.dropped, q)
    else placeFrag { q with lastIn := true, len := skb.stop } skb env
  else if q.len < skb.stop then
    if q.lastIn then (.dropped, q) else placeFrag { q with len := skb.stop } skb env
  else placeFrag q skb env

/-- `ip_frag_reinit`, where it does not fail. -/
def ipFragReinit (q : Ipq) : Ipq :=
  { q with firstIn := false, lastIn := false, fragments := [], len := 0, meat := 0 }

def ipFragQueue (q : Ipq) (skb : FragSkb) (env : FragEnv) : FragOutcome × Ipq :=
  if q.complete then (.dropped, q)
  else if skb.fragComplete = false ∧ q.fragments ≠ [] ∧ env.tooFar = true then
    if env.timerPending then
      let r := queueFrag (ipFragReinit q) skb env
      (.reinit (r.1 = .stored), r.2)
    else (.killed, { q with complete := true })
  else queueFrag q skb env

/-! ## `ip_defrag` -/

/-- The length of the header, and the bytes after it. -/
structure Datagram where
  ihlen : Nat
  payload : List (BitVec 8)
  deriving DecidableEq

/-- `ip_frag_reasm`; `nomem` if memory runs out. -/
def ipFragReasm (q : Ipq) (nomem : Bool) : Option Datagram × Ipq :=
  match q.fragments with
  | [] => (none, { q with complete := true })
  | head :: _ =>
    if 65535 < head.ihl * 4 + q.len then (none, { q with complete := true })
    else if nomem then (none, { q with complete := true })
    else (some { ihlen := head.ihl * 4, payload := (q.fragments.map IpFrag.data).flatten },
      { q with complete := true, fragments := [] })

/-- The test of `ip_defrag`: the datagram is complete. -/
def Ipq.Ready (q : Ipq) : Prop :=
  q.complete = false ∧ q.firstIn = true ∧ q.lastIn = true ∧ q.meat = q.len

instance (q : Ipq) : Decidable q.Ready := inferInstanceAs (Decidable (_ ∧ _ ∧ _ ∧ _))

/-- `ip_defrag`, for the queue of the fragment. -/
def ipDefrag (q : Ipq) (skb : FragSkb) (env : FragEnv) (nomem : Bool) : Option Datagram × Ipq :=
  if (ipFragQueue q skb env).2.Ready then ipFragReasm (ipFragQueue q skb env).2 nomem
  else (none, (ipFragQueue q skb env).2)

/-! ## What every queue has -/

/-- The bytes of a stored fragment stand at their places in a fragment that has come in. -/
def CameIn (received : List FragSkb) (f : IpFrag) : Prop :=
  ∃ skb ∈ received, skb.offset ≤ f.offset ∧ f.data <+: skb.data.drop (f.offset - skb.offset)

structure Ipq.Good (received : List FragSkb) (q : Ipq) : Prop where
  inOrder : InOrder IpFrag.offset IpFrag.stop q.fragments
  nonempty : ∀ f ∈ q.fragments, f.offset < f.stop
  inside : ∀ f ∈ q.fragments, f.stop ≤ q.len
  meat : q.meat = total IpFrag.offset IpFrag.stop q.fragments
  cameIn : ∀ f ∈ q.fragments, CameIn received f

theorem IpFrag.stop_sub (f : IpFrag) : f.stop - f.offset = f.data.length := Nat.add_sub_cancel_left _ _

theorem total_cons_frag (f : IpFrag) (l : List IpFrag) :
    total IpFrag.offset IpFrag.stop (f :: l) = f.data.length + total IpFrag.offset IpFrag.stop l := by
  rw [total_cons, f.stop_sub]

theorem IpFrag.offset_pull (f : IpFrag) (i : Nat) : (f.pull i).offset = f.offset + i := rfl

theorem IpFrag.length_pull (f : IpFrag) (i : Nat) : (f.pull i).data.length = f.data.length - i := length_drop

variable {f : IpFrag} {received : List FragSkb} {q : Ipq}

theorem IpFrag.stop_pull {i : Nat} (h : i ≤ f.data.length) : (f.pull i).stop = f.stop := by
  rw [IpFrag.stop, f.offset_pull, f.length_pull, IpFrag.stop]
  omega

theorem CameIn.pull (h : CameIn received f) (i : Nat) : CameIn received (f.pull i) := by
  obtain ⟨skb, hmem, hle, hpre⟩ := h
  refine ⟨skb, hmem, hle.trans (le_add_right _ _), ?_⟩
  have hplace : (f.pull i).offset - skb.offset = f.offset - skb.offset + i := by
    rw [f.offset_pull]
    omega
  rw [hplace, ← drop_drop]
  exact hpre.drop i

theorem FragSkb.eight_dvd_offset (skb : FragSkb) : 8 ∣ skb.offset := by
  rw [FragSkb.offset, shiftLeft_eq]
  exact Dvd.intro_left _ rfl

theorem FragSkb.offset_le_stop (skb : FragSkb) : skb.offset ≤ skb.stop := by
  have hdvd := skb.eight_dvd_offset
  rw [FragSkb.stop]
  split_ifs
  · omega
  · exact le_add_right _ _

theorem FragSkb.stop_le (skb : FragSkb) : skb.stop ≤ skb.offset + skb.data.length := by
  rw [FragSkb.stop]
  split_ifs
  · exact sub_le _ _
  · exact le_refl _

theorem FragSkb.length_trimmed (skb : FragSkb) : skb.trimmed.data.length = skb.stop - skb.offset := by
  have := skb.stop_le
  rw [FragSkb.trimmed, length_take]
  omega

theorem FragSkb.stop_trimmed (skb : FragSkb) : skb.trimmed.stop = skb.stop := by
  have := skb.offset_le_stop
  rw [IpFrag.stop, skb.length_trimmed]
  exact add_sub_of_le this

theorem cameIn_trimmed {skb : FragSkb} (h : skb ∈ received) : CameIn received skb.trimmed := by
  refine ⟨skb, h, le_refl _, ?_⟩
  rw [FragSkb.trimmed, Nat.sub_self, drop_zero]
  exact take_prefix _ _

/-! ## One fragment -/

section OneFragment

variable {received : List FragSkb} {q : Ipq} {skb : FragSkb} {env : FragEnv} {before after : List IpFrag}

/-- What the loop over the later fragments leaves: they stay in order, each is the rest of one that was there, and
`meat` goes down by what they lose. If it goes through, they begin after the new fragment. -/
theorem eatNext_spec (stop : Nat) (pullNext : Bool) (meat : Nat) (horder : InOrder IpFrag.offset IpFrag.stop after)
    (hne : ∀ f ∈ after, 0 < f.data.length) (hmeat : total IpFrag.offset IpFrag.stop after ≤ meat) :
    InOrder IpFrag.offset IpFrag.stop (eatNext stop pullNext after meat).2.1 ∧
    (∀ g ∈ (eatNext stop pullNext after meat).2.1, ∃ f ∈ after, ∃ i < f.data.length, g = f.pull i) ∧
    (eatNext stop pullNext after meat).2.2 + total IpFrag.offset IpFrag.stop after =
      meat + total IpFrag.offset IpFrag.stop (eatNext stop pullNext after meat).2.1 ∧
    ((eatNext stop pullNext after meat).1 = true →
      ∀ g ∈ (eatNext stop pullNext after meat).2.1, stop ≤ g.offset) := by
  induction after generalizing meat with
  | nil => exact ⟨horder, by simp [eatNext], rfl, by simp [eatNext]⟩
  | cons f fs ih =>
    obtain ⟨hf, hfs⟩ := pairwise_cons.mp horder
    have hpos := hne f mem_cons_self
    have hsame : ∀ g ∈ f :: fs, ∃ f' ∈ f :: fs, ∃ i < f'.data.length, g = f'.pull i :=
      fun g hg => ⟨g, hg, 0, hne g hg, rfl⟩
    rw [total_cons_frag] at hmeat
    rw [eatNext]
    split_ifs with hoff hpart hpull
    · -- the fragment loses its front
      have hstop : (f.pull (stop - f.offset)).stop = f.stop := IpFrag.stop_pull hpart.le
      refine ⟨pairwise_cons.mpr ⟨fun g hg => hstop ▸ hf g hg, hfs⟩, ?_, ?_, ?_⟩
      · exact forall_mem_cons.mpr ⟨⟨f, mem_cons_self, _, hpart, rfl⟩, (forall_mem_cons.mp hsame).2⟩
      · dsimp only
        rw [total_cons_frag, total_cons_frag, f.length_pull]
        omega
      · refine fun _ => forall_mem_cons.mpr ⟨?_, fun g hg => ?_⟩
        · rw [f.offset_pull]
          omega
        · have := hf g hg
          rw [IpFrag.stop] at this
          omega
    · exact ⟨horder, hsame, rfl, fun h => absurd h (by simp)⟩
    · -- it is covered and freed
      obtain ⟨horder', hfrom, hmeat', hbeyond⟩ :=
        ih (meat - f.data.length) hfs (fun g hg => hne g (mem_cons_of_mem f hg)) (by omega)
      refine ⟨horder', ?_, ?_, hbeyond⟩
      · intro g hg
        obtain ⟨f', hf', hg'⟩ := hfrom g hg
        exact ⟨f', mem_cons_of_mem f hf', hg'⟩
      · rw [total_cons_frag]
        omega
    · refine ⟨horder, hsame, rfl, fun _ => forall_mem_cons.mpr ⟨not_lt.mp hoff, fun g hg => ?_⟩⟩
      have := hf g hg
      rw [IpFrag.stop] at this
      omega

theorem linkFrag_good (hq : q.Good received) (hsplit : before ++ after = q.fragments) {frag : IpFrag}
    (hbefore : ∀ f ∈ before, f.stop ≤ frag.offset) (hne : frag.offset < frag.stop) (hin : frag.stop ≤ q.len)
    (hcame : CameIn received frag) (pullNext : Bool) :
    (linkFrag q before after frag pullNext).2.Good received := by
  have hmem : ∀ f, f ∈ before ∨ f ∈ after → f ∈ q.fragments := by
    intro f hf
    rw [← hsplit]
    exact mem_append.mpr hf
  have horder := hq.inOrder
  rw [← hsplit] at horder
  obtain ⟨horderB, horderA, hcross⟩ := pairwise_append.mp horder
  have hpos : ∀ f ∈ q.fragments, 0 < f.data.length := by
    intro f hf
    have := hq.nonempty f hf
    rw [IpFrag.stop] at this
    omega
  have hmeat := hq.meat
  rw [← hsplit, total_append] at hmeat
  obtain ⟨horder', hfrom, hmeat', hbeyond⟩ := eatNext_spec frag.stop pullNext q.meat horderA
    (fun f hf => hpos f (hmem f (.inr hf))) (by omega)
  -- what is left of the later fragments
  have hcross' : ∀ f ∈ before, ∀ g ∈ (eatNext frag.stop pullNext after q.meat).2.1, f.stop ≤ g.offset := by
    intro f hf g hg
    obtain ⟨f', hf', i, _, rfl⟩ := hfrom g hg
    rw [f'.offset_pull]
    exact (hcross f hf f' hf').trans (le_add_right _ _)
  have hrest : ∀ g ∈ (eatNext frag.stop pullNext after q.meat).2.1,
      g.offset < g.stop ∧ g.stop ≤ q.len ∧ CameIn received g := by
    intro g hg
    obtain ⟨f', hf', i, hi, rfl⟩ := hfrom g hg
    have hf'q := hmem f' (.inr hf')
    rw [IpFrag.stop_pull hi.le, f'.offset_pull]
    refine ⟨?_, hq.inside f' hf'q, (hq.cameIn f' hf'q).pull i⟩
    rw [IpFrag.stop]
    omega
  have hold : ∀ f ∈ before, f.offset < f.stop ∧ f.stop ≤ q.len ∧ CameIn received f := by
    intro f hf
    have hfq := hmem f (.inl hf)
    exact ⟨hq.nonempty f hfq, hq.inside f hfq, hq.cameIn f hfq⟩
  rw [linkFrag]
  split_ifs with hok
  · have hall : ∀ g ∈ before ++ frag :: (eatNext frag.stop pullNext after q.meat).2.1,
        g.offset < g.stop ∧ g.stop ≤ q.len ∧ CameIn received g :=
      forall_mem_append.mpr ⟨hold, forall_mem_cons.mpr ⟨⟨hne, hin, hcame⟩, hrest⟩⟩
    refine ⟨?_, fun g hg => (hall g hg).1, fun g hg => (hall g hg).2.1, ?_, fun g hg => (hall g hg).2.2⟩
    · refine pairwise_append.mpr ⟨horderB, pairwise_cons.mpr ⟨hbeyond hok, horder'⟩, ?_⟩
      exact fun f hf => forall_mem_cons.mpr ⟨hbefore f hf, hcross' f hf⟩
    · dsimp only
      rw [total_append, total_cons_frag]
      omega
  · have hall : ∀ g ∈ before ++ (eatNext frag.stop pullNext after q.meat).2.1,
        g.offset < g.stop ∧ g.stop ≤ q.len ∧ CameIn received g :=
      forall_mem_append.mpr ⟨hold, hrest⟩
    refine ⟨pairwise_append.mpr ⟨horderB, horder', hcross'⟩, fun g hg => (hall g hg).1,
      fun g hg => (hall g hg).2.1, ?_, fun g hg => (hall g hg).2.2⟩
    dsimp only
    rw [total_append]
    omega

theorem stop_le_prevEnd (horder : InOrder IpFrag.offset IpFrag.stop before)
    (hne : ∀ f ∈ before, f.offset < f.stop) : ∀ f ∈ before, f.stop ≤ prevEnd before := by
  rcases eq_nil_or_concat before with rfl | ⟨init, last, rfl⟩
  · simp
  · rw [concat_eq_append] at *
    have hlast : prevEnd (init ++ [last]) = last.stop := by
      rw [prevEnd, getLast?_concat]
      rfl
    rw [hlast]
    refine forall_mem_append.mpr ⟨fun f hf => ?_, forall_mem_singleton.mpr le_rfl⟩
    have hle := (pairwise_append.mp horder).2.2 f hf last mem_cons_self
    have := hne last (mem_append.mpr (.inr mem_cons_self))
    omega

theorem placeFrag_good (hq : q.Good received) (hskb : skb ∈ received) (hlen : skb.stop ≤ q.len) (env : FragEnv) :
    (placeFrag q skb env).2.Good received := by
  rw [placeFrag]
  dsimp only
  have hle := skb.offset_le_stop
  have hsplit := takeWhile_append_dropWhile (p := fun f : IpFrag => decide (f.offset < skb.offset))
    (l := q.fragments)
  have hprev := stop_le_prevEnd (hq.inOrder.sublist (takeWhile_sublist fun f => decide (f.offset < skb.offset)))
    fun f hf => hq.nonempty f ((takeWhile_sublist _).subset hf)
  generalize q.fragments.takeWhile (fun f => decide (f.offset < skb.offset)) = before at *
  generalize q.fragments.dropWhile (fun f => decide (f.offset < skb.offset)) = after at *
  split_ifs with hzero hheader htrim hover hcovered hfront
  · exact hq
  · exact hq
  · exact hq
  · exact hq
  · exact hq
  · have hcut : prevEnd before - skb.offset < skb.trimmed.data.length := by
      rw [skb.length_trimmed]
      omega
    have hoffset : (skb.trimmed.pull (prevEnd before - skb.offset)).offset = prevEnd before := by
      rw [IpFrag.offset_pull]
      exact add_sub_of_le hover.le
    have hstop : (skb.trimmed.pull (prevEnd before - skb.offset)).stop = skb.stop := by
      rw [IpFrag.stop_pull hcut.le, skb.stop_trimmed]
    refine linkFrag_good hq hsplit ?_ ?_ ?_ ((cameIn_trimmed hskb).pull _) env.pullNext
    · rw [hoffset]
      exact hprev
    · rw [hoffset, hstop]
      omega
    · rw [hstop]
      exact hlen
  · refine linkFrag_good hq hsplit ?_ ?_ ?_ (cameIn_trimmed hskb) env.pullNext
    · intro f hf
      exact (hprev f hf).trans (not_lt.mp hover)
    · rw [skb.stop_trimmed]
      change skb.offset < skb.stop
      omega
    · rw [skb.stop_trimmed]
      exact hlen

theorem Ipq.Good.mono_len (hq : q.Good received) {len : Nat} (hlen : q.len ≤ len) (lastIn : Bool) :
    ({ q with lastIn := lastIn, len := len } : Ipq).Good received where
  inOrder := hq.inOrder
  nonempty := hq.nonempty
  inside := fun f hf => (hq.inside f hf).trans hlen
  meat := hq.meat
  cameIn := hq.cameIn

theorem queueFrag_good (hq : q.Good received) (hskb : skb ∈ received) (env : FragEnv) :
    (queueFrag q skb env).2.Good received := by
  rw [queueFrag]
  split_ifs with hmf hbad hmore hlast
  · exact hq
  · have hlen : q.len ≤ skb.stop := not_lt.mp fun h => hbad (.inl h)
    exact placeFrag_good (hq.mono_len hlen true) hskb (le_refl _) env
  · exact hq
  · exact placeFrag_good (hq.mono_len hmore.le q.lastIn) hskb (le_refl _) env
  · exact placeFrag_good hq hskb (not_lt.mp hmore) env

theorem Ipq.good_of_empty (hfragments : q.fragments = []) (hmeat : q.meat = 0) : q.Good received := by
  refine ⟨?_, ?_, ?_, ?_, ?_⟩ <;> rw [hfragments]
  · exact .nil
  · nofun
  · nofun
  · exact hmeat
  · nofun

theorem ipFragQueue_good (hq : q.Good received) (hskb : skb ∈ received) (env : FragEnv) :
    (ipFragQueue q skb env).2.Good received := by
  rw [ipFragQueue]
  split_ifs with hcomplete hfar htimer
  · exact hq
  · exact queueFrag_good (Ipq.good_of_empty rfl rfl) hskb env
  · exact ⟨hq.inOrder, hq.nonempty, hq.inside, hq.meat, hq.cameIn⟩
  · exact queueFrag_good hq hskb env

end OneFragment

/-! ## All fragments -/

def ipFragStep (q : Ipq) (op : FragSkb × FragEnv) : Option (FragOutcome × Ipq) := some (ipFragQueue q op.1 op.2)

theorem CameIn.mono {received' : List FragSkb} (hsub : ∀ skb ∈ received, skb ∈ received')
    (h : CameIn received f) : CameIn received' f := by
  obtain ⟨skb, hmem, hrest⟩ := h
  exact ⟨skb, hsub skb hmem, hrest⟩

theorem Ipq.Good.mono {received' : List FragSkb} (hsub : ∀ skb ∈ received, skb ∈ received')
    (h : q.Good received) : q.Good received' :=
  ⟨h.inOrder, h.nonempty, h.inside, h.meat, fun f hf => (h.cameIn f hf).mono hsub⟩

theorem run_ipFragStep_good {frags : List (FragSkb × FragEnv)} {outs : List FragOutcome}
    (hrun : Runs.run ipFragStep ipFragCreate frags = some (outs, q)) : q.Good (frags.map fst) := by
  have htrace := Runs.run_trace (I := fun frags (_ : List FragOutcome) (q : Ipq) => q.Good (frags.map fst))
    (P := fun _ => True) (fun frags _ q op out hq _ hstep => ?_) (Ipq.good_of_empty rfl rfl) (fun _ _ => trivial) hrun
  · exact htrace
  · obtain rfl := Option.some.inj hstep
    rw [map_append]
    have hq' : q.Good (frags.map fst ++ [op].map fst) :=
      hq.mono fun skb hskb => mem_append.mpr (.inl hskb)
    exact ipFragQueue_good hq' (mem_append.mpr (.inr mem_cons_self)) op.2

theorem Ipq.Good.tiles (hq : q.Good received) (hmeat : q.meat = q.len) :
    Tiles IpFrag.offset IpFrag.stop 0 q.fragments q.len := by
  refine tiles_of_total hq.inOrder (fun f _ => zero_le _) (fun f hf => (hq.nonempty f hf).le) hq.inside ?_
  rw [zero_add, ← hq.meat, hmeat]

theorem tiles_payload {l : List IpFrag} {s e : Nat} (hl : Tiles IpFrag.offset IpFrag.stop s l e) :
    s + (l.map IpFrag.data).flatten.length = e ∧ ∀ o, s ≤ o → o < e → ∃ f ∈ l, f.offset ≤ o ∧ o < f.stop ∧
        (l.map IpFrag.data).flatten[o - s]? = f.data[o - f.offset]? := by
  induction l generalizing s with
  | nil => exact ⟨hl, fun o hs he => by rw [Tiles] at hl; omega⟩
  | cons f l ih =>
    obtain ⟨rfl, hl⟩ := hl
    obtain ⟨hlen, hbytes⟩ := ih hl
    rw [map_cons, flatten_cons]
    refine ⟨?_, ?_⟩
    · rw [length_append, ← hlen, IpFrag.stop, add_assoc]
    · intro o hs he
      by_cases hin : o < f.stop
      · refine ⟨f, mem_cons_self, hs, hin, ?_⟩
        rw [IpFrag.stop] at hin
        exact getElem?_append_left (by omega)
      · obtain ⟨g, hg, hgs, hge, hbyte⟩ := hbytes o (not_lt.mp hin) he
        refine ⟨g, mem_cons_of_mem f hg, hgs, hge, ?_⟩
        rw [IpFrag.stop] at hin hbyte
        rw [getElem?_append_right (by omega), ← hbyte]
        congr 1
        omega

/-- What a datagram is that `ip_frag_reasm` delivers. -/
theorem ipFragReasm_spec (hq : q.Good received) (hmeat : q.meat = q.len)
    {nomem : Bool} {d : Datagram} (hd : (ipFragReasm q nomem).1 = some d) :
    d.ihlen + d.payload.length ≤ 65535 ∧ d.payload.length = q.len ∧
      ∀ o < q.len, ∃ skb ∈ received, skb.offset ≤ o ∧ o < skb.offset + skb.data.length ∧
        d.payload[o]? = skb.data[o - skb.offset]? := by
  obtain ⟨hlen, hbytes⟩ := tiles_payload (hq.tiles hmeat)
  rw [zero_add] at hlen
  have hpayload : d.payload = (q.fragments.map IpFrag.data).flatten ∧ d.ihlen + q.len ≤ 65535 := by
    rw [ipFragReasm] at hd
    cases hfrags : q.fragments with
    | nil =>
      rw [hfrags] at hd
      exact absurd hd (by simp)
    | cons head rest =>
      rw [hfrags] at hd
      dsimp only at hd
      split_ifs at hd with hbig hmem
      obtain rfl := Option.some.inj hd
      exact ⟨rfl, not_lt.mp hbig⟩
  rw [hpayload.1, hlen]
  refine ⟨hpayload.2, rfl, ?_⟩
  intro o ho
  obtain ⟨f, hf, hfo, hof, hbyte⟩ := hbytes o (zero_le o) ho
  obtain ⟨skb, hskb, hle, tail, htail⟩ := hq.cameIn f hf
  have hin : o - f.offset < f.data.length := by
    rw [IpFrag.stop] at hof
    omega
  have hplace : f.offset - skb.offset + (o - f.offset) = o - skb.offset := by omega
  have hsource : skb.data[o - skb.offset]? = f.data[o - f.offset]? := by
    rw [← hplace, ← getElem?_drop, ← htail, getElem?_append_left hin]
  refine ⟨skb, hskb, hle.trans hfo, ?_, ?_⟩
  · by_contra hout
    rw [getElem?_eq_none (by omega), getElem?_eq_getElem hin] at hsource
    exact absurd hsource (by simp)
  · rw [hsource, ← hbyte, Nat.sub_zero]

/-- For every sequence of fragments: the stored ones are in order, do not overlap and lie inside the length, `meat`
is the number of their bytes; when `ip_defrag` decides to reassemble they tile the datagram; and what it delivers is
not too long, and has each byte from a fragment that came in with that byte at that place. -/
theorem ipFragQueue_sound (frags : List (FragSkb × FragEnv)) (outs : List FragOutcome) (q : Ipq)
    (hrun : Runs.run ipFragStep ipFragCreate frags = some (outs, q)) :
    (q.fragments.Pairwise fun f g => f.offset < g.offset ∧ f.stop ≤ g.offset) ∧ (∀ f ∈ q.fragments, f.stop ≤ q.len) ∧
    q.meat = (q.fragments.map fun f => f.data.length).sum ∧
    (q.Ready → Tiles IpFrag.offset IpFrag.stop 0 q.fragments q.len) ∧
    ∀ skb env nomem d, (ipDefrag q skb env nomem).1 = some d →
      (ipFragQueue q skb env).2.Ready ∧ d.ihlen + d.payload.length ≤ 65535 ∧
      d.payload.length = (ipFragQueue q skb env).2.len ∧
      ∀ o < d.payload.length, ∃ skb' ∈ frags.map fst ++ [skb], skb'.offset ≤ o ∧
        o < skb'.offset + skb'.data.length ∧ d.payload[o]? = skb'.data[o - skb'.offset]? := by
  have hq := run_ipFragStep_good hrun
  refine ⟨?_, hq.inside, ?_, fun hready => hq.tiles hready.2.2.2, ?_⟩
  · refine List.Pairwise.imp_of_mem (fun {f g} hf _ hle => ⟨?_, hle⟩) hq.inOrder
    exact lt_of_lt_of_le (hq.nonempty f hf) hle
  · rw [hq.meat, total]
    simp only [IpFrag.stop_sub]
  · intro skb env nomem d hd
    have hnext : (ipFragQueue q skb env).2.Good (frags.map fst ++ [skb]) :=
      ipFragQueue_good (hq.mono fun skb' hskb' => mem_append.mpr (.inl hskb'))
        (mem_append.mpr (.inr mem_cons_self)) env
    rw [ipDefrag] at hd
    split_ifs at hd with hready
    obtain ⟨hsize, hlen, hbytes⟩ := ipFragReasm_spec hnext hready.2.2.2 hd
    exact ⟨hready, hsize, hlen, fun o ho => hbytes o (hlen ▸ ho)⟩

/-- Two fragments of eight bytes, the last one first. -/
def twoFrags : List (FragSkb × FragEnv) :=
  [(⟨1#16, 5, replicate 8 66#8, false⟩, ⟨false, true, true, true, true, true⟩),
    (⟨0x2000#16, 5, replicate 8 65#8, false⟩, ⟨false, true, true, true, true, true⟩)]

theorem ipFragQueue_sound_two : ∃ outs q, Runs.run ipFragStep ipFragCreate twoFrags = some (outs, q) ∧ q.Ready ∧
    Tiles IpFrag.offset IpFrag.stop 0 q.fragments q.len := by
  have hrun : ∃ outs q, Runs.run ipFragStep ipFragCreate twoFrags = some (outs, q) ∧ q.Ready :=
    ⟨_, _, rfl, by decide⟩
  obtain ⟨outs, q, hrun, hready⟩ := hrun
  exact ⟨outs, q, hrun, hready, (ipFragQueue_sound twoFrags outs q hrun).2.2.2.1 hready⟩

end Linux
