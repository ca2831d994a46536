/-
# MipsOnQemu.Linux.TcpSegments -- splitting and merging sent segments

`tcp_fragment` and `tcp_retrans_try_collapse` of `net/ipv4/tcp_output.c`. A segment counts as several packets,
so a split changes the packet counters by a difference of either sign. `tcp_fragment` carries it over to
`left_out` for a segment that is marked lost, but not for one that is marked as acknowledged by SACK
(`segments_kept_iff`).
-/

import Mathlib

namespace Linux

open List

/-- `TCP_SKB_CB(skb)->flags`. -/
structure TcpFlags where
  fin : Bool
  psh : Bool
  others : BitVec 8

/-- `TCP_SKB_CB(skb)->sacked`. -/
structure TcpSacked where
  acked : Bool
  retrans : Bool
  lost : Bool
  everRetrans : Bool
  atTail : Bool

/-- A segment of the write queue. It is `sent` if it stands before `sk_send_head`. -/
structure SkBuff where
  seq : BitVec 32
  endSeq : BitVec 32
  data : List (BitVec 8)
  flags : TcpFlags
  sacked : TcpSacked
  gsoSegs : BitVec 16
  sent : Bool

/-- The fields of `struct tcp_sock` that the two functions use. -/
structure TcpCounters where
  sndNxt : BitVec 32
  sndUna : BitVec 32
  sndWnd : BitVec 32
  packetsOut : BitVec 32
  sackedOut : BitVec 32
  lostOut : BitVec 32
  retransOut : BitVec 32
  leftOut : BitVec 32
  facketsOut : BitVec 32
  sackOk : Bool
  canGso : Bool

/-- `before`: earlier modulo 2^32. -/
def seqBefore (a b : BitVec 32) : Bool := (a - b).slt 0#32

def tcpSkbPcount (skb : SkBuff) : BitVec 32 := skb.gsoSegs.setWidth 32

variable (tp : TcpCounters)

def tcpSetSkbTsoSegs (mss : Nat) (skb : SkBuff) : SkBuff :=
  { skb with gsoSegs :=
      if skb.data.length ≤ mss ∨ tp.canGso = false then 1#16
      else BitVec.ofNat 16 ((skb.data.length + (mss - 1)) / mss) }

/-- `count -= n; if ((int)count < 0) count = 0;` -/
def subOrZero (count n : BitVec 32) : BitVec 32 := if (count - n).slt 0#32 then 0#32 else count - n

def tcpDecPcountApprox (count n : BitVec 32) : BitVec 32 := if count ≠ 0#32 then subOrZero count n else count

def tcpSyncLeftOut : TcpCounters :=
  let sackedOut := if tp.sackOk ∧ tp.packetsOut - tp.lostOut ≤ tp.sackedOut then tp.packetsOut - tp.lostOut
    else tp.sackedOut
  { tp with sackedOut := sackedOut, leftOut := sackedOut + tp.lostOut }

/-- The counters after a segment that has been sent is split. -/
def adjustCounters (sacked : TcpSacked) (diff : BitVec 32) : TcpCounters :=
  let tp := { tp with
    packetsOut := tp.packetsOut - diff
    sackedOut := tp.sackedOut - if sacked.acked then diff else 0
    retransOut := tp.retransOut - if sacked.retrans then diff else 0
    lostOut := tp.lostOut - if sacked.lost then diff else 0
    leftOut := tp.leftOut - if sacked.lost then diff else 0 }
  if (0#32).slt diff then
    let tp := if tp.sackOk then tp else tcpSyncLeftOut { tp with sackedOut := subOrZero tp.sackedOut diff }
    { tp with facketsOut := subOrZero tp.facketsOut diff }
  else tp

/-- The two parts of a segment. -/
def splitSkb (skb : SkBuff) (len mss : Nat) : List SkBuff :=
  let seq := skb.seq + BitVec.ofNat 32 len
  [tcpSetSkbTsoSegs tp mss { skb with
      endSeq := seq
      data := skb.data.take len
      flags := { skb.flags with fin := false, psh := false }
      sacked := { skb.sacked with atTail := false } },
    tcpSetSkbTsoSegs tp mss { skb with seq := seq, data := skb.data.drop len }]

/-- `old_factor - tcp_skb_pcount(skb) - tcp_skb_pcount(buff)`. -/
def splitDiff (skb : SkBuff) (len mss : Nat) : BitVec 32 :=
  tcpSkbPcount skb - ((splitSkb tp skb len mss).map tcpSkbPcount).sum

/-- `tcp_fragment`: whether it succeeds, the counters, and what stands in the place of the segment. It fails
if there is no memory. The second part ends where the segment did. -/
def tcpFragment (skb : SkBuff) (len mss : Nat) (nomem : Bool) : Bool × TcpCounters × List SkBuff :=
  if nomem then (false, tp, [skb])
  else (true, if seqBefore tp.sndNxt skb.endSeq then tp
    else adjustCounters tp skb.sacked (splitDiff tp skb len mss), splitSkb tp skb len mss)

/-- The tests of `tcp_retrans_try_collapse`, given `skb_cloned` of either and `skb_tailroom` of the first. -/
def canCollapse (skb next : SkBuff) (mss : Int) (cloned : Bool) (tailroom : Nat) : Bool :=
  !cloned && !next.sacked.acked && !seqBefore (tp.sndUna + tp.sndWnd) next.endSeq &&
    decide (next.data.length ≤ tailroom) && decide ((skb.data.length : Int) + next.data.length ≤ mss)

/-- The counters after a segment is merged into the one before it. -/
def collapseCounters (next : SkBuff) : TcpCounters :=
  let n := tcpSkbPcount next
  let reno := !tp.sackOk && tp.sackedOut != 0#32
  { tp with
    retransOut := tp.retransOut - if next.sacked.retrans then n else 0
    lostOut := tp.lostOut - if next.sacked.lost then n else 0
    sackedOut := if reno then tcpDecPcountApprox tp.sackedOut n else tp.sackedOut
    leftOut := tp.leftOut - (if next.sacked.lost then n else 0) - if reno then n else 0
    facketsOut := tcpDecPcountApprox tp.facketsOut n
    packetsOut := tp.packetsOut - n }

def mergeSkb (skb next : SkBuff) : SkBuff :=
  { skb with
    endSeq := next.endSeq
    data := skb.data ++ next.data
    flags := ⟨skb.flags.fin || next.flags.fin, skb.flags.psh || next.flags.psh,
      skb.flags.others ||| next.flags.others⟩
    sacked := { skb.sacked with
      everRetrans := skb.sacked.everRetrans || next.sacked.everRetrans
      atTail := skb.sacked.atTail || next.sacked.atTail } }

/-- `tcp_retrans_try_collapse`, or nothing at its `BUG_ON`. -/
def tcpRetransTryCollapse (skb next : SkBuff) (mss : Int) (cloned : Bool) (tailroom : Nat) :
    Option (TcpCounters × List SkBuff) :=
  if canCollapse tp skb next mss cloned tailroom = false then some (tp, [skb, next])
  else if tcpSkbPcount skb ≠ 1#32 ∨ tcpSkbPcount next ≠ 1#32 then none
  else some (collapseCounters tp next, [mergeSkb skb next])

/-! ## The queue and its counters -/

/-- The bytes, and the FIN at its place. -/
def streamOf (q : List SkBuff) : List (Option (BitVec 8)) :=
  q.flatMap fun skb => skb.data.map some ++ if skb.flags.fin then [none] else []

/-- Each segment begins where the one before it ends. A FIN takes one number. -/
def Contiguous : BitVec 32 → List SkBuff → Prop
  | _, [] => True
  | start, skb :: q => skb.seq = start ∧
      skb.endSeq = start + BitVec.ofNat 32 (streamOf [skb]).length ∧ Contiguous skb.endSeq q

/-- The counters that add up packets: of all sent segments, and of those with a mark. -/
inductive TcpMark where
  | out
  | acked
  | lost
  | retrans

def TcpSacked.has (sacked : TcpSacked) : TcpMark → Bool
  | .out => true
  | .acked => sacked.acked
  | .lost => sacked.lost
  | .retrans => sacked.retrans

def TcpCounters.count : TcpMark → BitVec 32
  | .out => tp.packetsOut
  | .acked => tp.sackedOut
  | .lost => tp.lostOut
  | .retrans => tp.retransOut

/-- The packets of the sent segments with a mark. -/
def packetsOf (m : TcpMark) : List SkBuff → BitVec 32
  | [] => 0
  | skb :: q => (if skb.sent && skb.sacked.has m then tcpSkbPcount skb else 0) + packetsOf m q

/-- Without SACK, `sacked_out` is an estimate. -/
structure CountersAgree (q : List SkBuff) : Prop where
  count : ∀ m, (m = .acked → tp.sackOk) → tp.count m = packetsOf m q
  left : tp.leftOut = tp.sackedOut + tp.lostOut

variable {tp} {tp' : TcpCounters} {skb next : SkBuff} {pre mid mid' post : List SkBuff} {start diff : BitVec 32}
  {len : Nat}

theorem streamOf_append (p q : List SkBuff) : streamOf (p ++ q) = streamOf p ++ streamOf q := by
  simp [streamOf]

theorem streamOf_cons (skb : SkBuff) (q : List SkBuff) : streamOf (skb :: q) = streamOf [skb] ++ streamOf q :=
  streamOf_append [skb] q

theorem contiguous_append (start : BitVec 32) (p q : List SkBuff) : Contiguous start (p ++ q) ↔
      Contiguous start p ∧ Contiguous (start + BitVec.ofNat 32 (streamOf p).length) q := by
  induction p generalizing start with
  | nil => simp [Contiguous, streamOf]
  | cons skb p ih =>
    rw [cons_append, Contiguous, Contiguous, ih, streamOf_cons skb p, length_append, BitVec.ofNat_add, and_assoc,
      and_assoc]
    refine and_congr_right fun _ => and_congr_right fun hend => ?_
    rw [hend, add_assoc]

theorem packetsOf_append (m : TcpMark) (p q : List SkBuff) :
    packetsOf m (p ++ q) = packetsOf m p + packetsOf m q := by
  induction p with
  | nil => simp [packetsOf]
  | cons skb p ih => rw [cons_append, packetsOf, packetsOf, ih, add_assoc]

/-- A part of the queue may be replaced by one with the same stream. -/
theorem Contiguous.replace (h : Contiguous start (pre ++ (mid ++ post))) (hstream : streamOf mid' = streamOf mid)
    (hmid : ∀ n, Contiguous n mid → Contiguous n mid') : Contiguous start (pre ++ (mid' ++ post)) ∧
      streamOf (pre ++ (mid' ++ post)) = streamOf (pre ++ (mid ++ post)) := by
  simp only [contiguous_append, streamOf_append, hstream, and_true] at h ⊢
  exact ⟨h.1, hmid _ h.2.1, h.2.2⟩

/-- If the counters go down by what a part of the queue loses, all that remains to see is `left_out`. -/
theorem CountersAgree.replace {d : TcpMark → BitVec 32} (h : CountersAgree tp (pre ++ (mid ++ post)))
    (hok : tp'.sackOk = tp.sackOk) (hd : ∀ m, (m = .acked → tp.sackOk) → tp'.count m = tp.count m - d m)
    (hmid : ∀ m, packetsOf m mid' = packetsOf m mid - d m) :
    CountersAgree tp' (pre ++ (mid' ++ post)) ↔ tp'.leftOut = tp'.sackedOut + tp'.lostOut := by
  refine ⟨CountersAgree.left, fun hleft => ⟨fun m hm => ?_, hleft⟩⟩
  rw [hok] at hm
  rw [hd m hm, h.count m hm]
  simp only [packetsOf_append, hmid]
  ring

/-! ## Splitting -/

theorem splitSkb_stream (tp : TcpCounters) (skb : SkBuff) (len mss : Nat) :
    streamOf (splitSkb tp skb len mss) = streamOf [skb] := by
  simp [streamOf, splitSkb, tcpSetSkbTsoSegs, ← append_assoc]

theorem splitSkb_contiguous (mss : Nat) (hlen : len < skb.data.length) (h : Contiguous start [skb]) :
    Contiguous start (splitSkb tp skb len mss) := by
  obtain ⟨rfl, hend, -⟩ := h
  rw [← splitSkb_stream tp skb len mss, splitSkb, streamOf_cons, length_append, BitVec.ofNat_add, ← add_assoc] at hend
  have hfirst : min len skb.data.length = len := min_eq_left hlen.le
  simp [streamOf, tcpSetSkbTsoSegs, hfirst] at hend
  simp [splitSkb, Contiguous, streamOf, tcpSetSkbTsoSegs, hfirst, hend]

/-- The two parts have the marks of the segment, and are sent if it is. -/
theorem packetsOf_split (tp : TcpCounters) (skb : SkBuff) (len mss : Nat) (m : TcpMark) :
    packetsOf m (splitSkb tp skb len mss) =
      packetsOf m [skb] - if skb.sent && skb.sacked.has m then splitDiff tp skb len mss else 0 := by
  have hfirst : TcpSacked.has { skb.sacked with atTail := false } m = skb.sacked.has m := by cases m <;> rfl
  simp only [packetsOf, splitDiff, splitSkb, tcpSetSkbTsoSegs, hfirst, map_cons, map_nil, sum_cons, sum_nil]
  split <;> ring

/-- `left_out` is not the sum after a segment with a SACK mark is split, unless its packets stay as many or
the sum is taken anew. -/
def MissesLeftOut (tp : TcpCounters) (skb : SkBuff) (diff : BitVec 32) : Prop :=
  skb.sacked.acked ∧ diff ≠ 0#32 ∧ ((0#32).slt diff → tp.sackOk)

theorem adjustCounters_count (sacked : TcpSacked) (diff : BitVec 32) :
    (adjustCounters tp sacked diff).sackOk = tp.sackOk ∧ ∀ m, (m = .acked → tp.sackOk) →
      (adjustCounters tp sacked diff).count m = tp.count m - if sacked.has m then diff else 0 := by
  refine ⟨?_, fun m hm => ?_⟩
  · by_cases hd : (0#32).slt diff <;> by_cases hok : tp.sackOk <;> simp [adjustCounters, tcpSyncLeftOut, hd, hok]
  · by_cases hd : (0#32).slt diff <;> by_cases hok : tp.sackOk <;> cases m <;>
      simp_all [adjustCounters, tcpSyncLeftOut, TcpCounters.count, TcpSacked.has] <;> rfl

theorem adjustCounters_left (h : tp.leftOut = tp.sackedOut + tp.lostOut) :
    (adjustCounters tp skb.sacked diff).leftOut =
        (adjustCounters tp skb.sacked diff).sackedOut + (adjustCounters tp skb.sacked diff).lostOut ↔
      ¬MissesLeftOut tp skb diff := by
  have key : tp.leftOut - (if skb.sacked.lost then diff else 0#32) =
      (tp.sackedOut - if skb.sacked.acked then diff else 0#32) +
        (tp.lostOut - if skb.sacked.lost then diff else 0#32) ↔ ¬(skb.sacked.acked ∧ diff ≠ 0#32) := by
    rw [h]
    split <;> split <;> grind
  by_cases hd : (0#32).slt diff
  · by_cases hok : tp.sackOk <;> simp [adjustCounters, tcpSyncLeftOut, MissesLeftOut, hd, hok, key]
  · simp [adjustCounters, MissesLeftOut, hd, key]

theorem tcpFragment_agree_iff (h : CountersAgree tp (pre ++ ([skb] ++ post)))
    (hsent : skb.sent = !seqBefore tp.sndNxt skb.endSeq) (len mss : Nat) (nomem : Bool) :
    CountersAgree (tcpFragment tp skb len mss nomem).2.1 (pre ++ ((tcpFragment tp skb len mss nomem).2.2 ++ post)) ↔
      ¬(nomem = false ∧ skb.sent ∧ MissesLeftOut tp skb (splitDiff tp skb len mss)) := by
  have hmid := packetsOf_split tp skb len mss
  cases nomem with
  | true => simpa [tcpFragment] using h
  | false =>
    cases hnxt : seqBefore tp.sndNxt skb.endSeq with
    | false =>
      simp only [hsent, hnxt, Bool.not_false, Bool.true_and] at hmid
      have hagree := h.replace (adjustCounters_count skb.sacked _).1 (adjustCounters_count skb.sacked _).2 hmid
      simpa [tcpFragment, hsent, hnxt] using hagree.trans (adjustCounters_left h.left)
    | true =>
      simp only [hsent, hnxt, Bool.not_true, Bool.false_and, Bool.false_eq_true, if_false] at hmid
      simpa [tcpFragment, hsent, hnxt] using (h.replace rfl (fun m _ => (sub_zero _).symm) hmid).mpr h.left

/-! ## Merging -/

theorem mergeSkb_stream (hfin : skb.flags.fin = false) : streamOf [mergeSkb skb next] = streamOf [skb, next] := by
  simp [streamOf, mergeSkb, hfin]

theorem mergeSkb_contiguous (hfin : skb.flags.fin = false) (h : Contiguous start [skb, next]) :
    Contiguous start [mergeSkb skb next] := by
  obtain ⟨hseq, hend, -, hend', -⟩ := h
  refine ⟨hseq, ?_, trivial⟩
  rw [mergeSkb_stream hfin, streamOf_cons, length_append, BitVec.ofNat_add, ← add_assoc, ← hend]
  exact hend'

theorem packetsOf_merge (hs : skb.sent) (hn : next.sent) (m : TcpMark) : packetsOf m [mergeSkb skb next] =
      packetsOf m [skb, next] - if next.sacked.has m then tcpSkbPcount next else 0 := by
  have hmarks : (mergeSkb skb next).sacked.has m = skb.sacked.has m := by cases m <;> rfl
  have hrest : (mergeSkb skb next).sent = skb.sent ∧ tcpSkbPcount (mergeSkb skb next) = tcpSkbPcount skb :=
    ⟨rfl, rfl⟩
  simp only [packetsOf, hmarks, hrest, hs, hn, Bool.true_and]
  ring

/-- The Reno estimate is cut off at zero. -/
def CutsEstimate (tp : TcpCounters) (n : BitVec 32) : Prop :=
  (!tp.sackOk && tp.sackedOut != 0#32) ∧ (tp.sackedOut - n).slt 0#32

theorem collapseCounters_count (hnext : next.sacked.acked = false) (m : TcpMark) (hm : m = .acked → tp.sackOk) :
    (collapseCounters tp next).count m = tp.count m - if next.sacked.has m then tcpSkbPcount next else 0 := by
  cases m <;> simp_all [collapseCounters, TcpCounters.count, TcpSacked.has] <;> rfl

theorem collapseCounters_left (h : tp.leftOut = tp.sackedOut + tp.lostOut) :
    (collapseCounters tp next).leftOut = (collapseCounters tp next).sackedOut + (collapseCounters tp next).lostOut ↔
      ¬CutsEstimate tp (tcpSkbPcount next) := by
  have hcut : (tp.sackedOut - tcpSkbPcount next).slt 0#32 → tp.sackedOut - tcpSkbPcount next ≠ 0#32 := by
    intro hlt h0
    simp [h0] at hlt
  simp only [collapseCounters, CutsEstimate, h]
  by_cases hreno : (!tp.sackOk && tp.sackedOut != 0#32)
  · simp only [hreno, tcpDecPcountApprox, subOrZero]
    split <;> grind
  · simp only [hreno]
    split <;> grind

/-! ## Either -/

/-- The queue is contiguous, with the stream that `q` has. -/
def SameStream (start : BitVec 32) (q q' : List SkBuff) : Prop := Contiguous start q' ∧ streamOf q' = streamOf q

/-- **Splitting and merging keep the stream, and the counters up to two exceptions.** A split miscounts if
`left_out` misses it. A merge goes wrong at the `BUG_ON`, for segments of more than one packet that fit in one,
and if the estimate of Reno is cut off. -/
theorem segments_kept_iff (hq : Contiguous start (pre ++ skb :: post)) (h : CountersAgree tp (pre ++ skb :: post))
    (hsent : skb.sent = !seqBefore tp.sndNxt skb.endSeq) :
    (∀ len mss nomem, 0 < len → len < skb.data.length → 0 < mss →
      let r := tcpFragment tp skb len mss nomem
      SameStream start (pre ++ skb :: post) (pre ++ (r.2.2 ++ post)) ∧
        (CountersAgree r.2.1 (pre ++ (r.2.2 ++ post)) ↔
          ¬(nomem = false ∧ skb.sent ∧ MissesLeftOut tp skb (splitDiff tp skb len mss))) ∧
        (r.1 = false → r.2 = (tp, [skb]))) ∧
    ∀ next rest mss cloned tailroom, post = next :: rest → skb.sent → next.sent → skb.sacked.acked = false →
      skb.flags.fin = false →
      ((∃ r, tcpRetransTryCollapse tp skb next mss cloned tailroom = some r ∧
          SameStream start (pre ++ skb :: post) (pre ++ (r.2 ++ rest)) ∧ CountersAgree r.1 (pre ++ (r.2 ++ rest))) ↔
        (canCollapse tp skb next mss cloned tailroom →
          tcpSkbPcount skb = 1#32 ∧ tcpSkbPcount next = 1#32 ∧ ¬CutsEstimate tp 1#32)) := by
  refine ⟨fun len mss nomem _ hlen _ => ⟨?_, tcpFragment_agree_iff h hsent len mss nomem, ?_⟩, ?_⟩
  · cases nomem with
    | true => exact ⟨hq, rfl⟩
    | false => exact Contiguous.replace hq (splitSkb_stream tp skb len mss) fun _ => splitSkb_contiguous mss hlen
  · cases nomem <;> simp [tcpFragment]
  · rintro next rest mss cloned tailroom rfl hs hn - hfin
    by_cases hcan : canCollapse tp skb next mss cloned tailroom
    · by_cases hone : tcpSkbPcount skb = 1#32 ∧ tcpSkbPcount next = 1#32
      · have hnext : next.sacked.acked = false := by simp_all [canCollapse]
        have hok : (collapseCounters tp next).sackOk = tp.sackOk := rfl
        have hagree := (h.replace hok (collapseCounters_count hnext) (packetsOf_merge hs hn)).trans
          (collapseCounters_left h.left)
        have hkeep : SameStream start _ _ :=
          Contiguous.replace hq (mergeSkb_stream hfin) fun _ => mergeSkb_contiguous hfin
        rw [hone.2] at hagree
        simpa [tcpRetransTryCollapse, hcan, hone] using (and_iff_right hkeep).trans hagree
      · have hbug : tcpSkbPcount skb ≠ 1#32 ∨ tcpSkbPcount next ≠ 1#32 := not_and_or.mp hone
        simp only [tcpRetransTryCollapse, hcan, hbug]
        simpa using fun h1 h2 => absurd ⟨h1, h2⟩ hone
    · simpa [tcpRetransTryCollapse, hcan, SameStream] using And.intro hq h

/-- A segment that was sent as one packet. -/
def sentSkb (seq : BitVec 32) (data : List (BitVec 8)) (acked lost : Bool) : SkBuff :=
  ⟨seq, seq + .ofNat 32 data.length, data, ⟨false, true, 0x10#8⟩, ⟨acked, false, lost, false, false⟩, 1#16, true⟩

/-- Three of them: the first is acknowledged, the last is lost. -/
def threeOut : TcpCounters := ⟨5#32, 0#32, 100#32, 3#32, 1#32, 1#32, 0#32, 2#32, 3#32, true, true⟩

/-- The second of the three may be split, and merged with the last. -/
theorem segments_kept_middle :
    let first := sentSkb 0#32 [1#8, 2#8] true false
    let skb := sentSkb 2#32 [3#8, 4#8] false false
    let next := sentSkb 4#32 [5#8] false true
    CountersAgree (tcpFragment threeOut skb 1 1 false).2.1
        ([first] ++ ((tcpFragment threeOut skb 1 1 false).2.2 ++ [next])) ∧
      ∃ r, tcpRetransTryCollapse threeOut skb next 10 false 10 = some r ∧ r.2.length = 1 ∧
        SameStream 0#32 ([first] ++ skb :: [next]) ([first] ++ (r.2 ++ [])) ∧
        CountersAgree r.1 ([first] ++ (r.2 ++ [])) := by
  intro first skb next
  have hq : Contiguous 0#32 ([first] ++ skb :: [next]) := ⟨rfl, rfl, rfl, rfl, rfl, rfl, trivial⟩
  have hagree : CountersAgree threeOut ([first] ++ skb :: [next]) := ⟨fun m _ => by cases m <;> rfl, rfl⟩
  obtain ⟨hsplit, hmerge⟩ := segments_kept_iff hq hagree (by decide)
  refine ⟨(hsplit 1 1 false (by decide) (by decide) (by decide)).2.1.mpr fun hmiss => ?_, ?_⟩
  · exact absurd hmiss.2.2.1 (by decide)
  · obtain ⟨r, hr, hstream, hcount⟩ := (hmerge next [] 10 false 10 rfl rfl rfl rfl rfl).mpr fun _ =>
      ⟨rfl, rfl, fun hcut => absurd hcut.1 (by decide)⟩
    have hone : (tcpRetransTryCollapse threeOut skb next 10 false 10).map (fun r => r.2.length) = some 1 := by
      decide
    rw [hr] at hone
    exact ⟨r, hr, Option.some.inj hone, hstream, hcount⟩

def twoBytes (acked : Bool) : SkBuff := sentSkb 0#32 [1#8, 2#8] acked false

def twoBytesOut (acked : Bool) : TcpCounters :=
  let out := if acked then 1#32 else 0#32
  ⟨2#32, 0#32, 100#32, 1#32, out, 0#32, 0#32, out, out, true, true⟩

/-- Two packets in the place of one make `sacked_out` two, and leave `left_out` at one. -/
theorem split_misses_left_out :
    Contiguous 0#32 [twoBytes true] ∧ CountersAgree (twoBytesOut true) [twoBytes true] ∧
      ¬CountersAgree (tcpFragment (twoBytesOut true) (twoBytes true) 1 1 false).2.1
        (tcpFragment (twoBytesOut true) (twoBytes true) 1 1 false).2.2 :=
  ⟨⟨rfl, rfl, trivial⟩, ⟨fun m _ => by cases m <;> rfl, rfl⟩, fun h => absurd h.left (by decide)⟩

end Linux
