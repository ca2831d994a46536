/-
# MipsOnQemu.Linux.MsgRuns -- runs of a message queue

Any number of processes send and receive, the limits are changed, and signals arrive, in any order; each
stretch of code under the lock of the queue is one step. A process that has been woken goes on at any time
later.

A message that has been sent is in the queue, or in the entry of one receiver that has not gone on yet, or
has been returned by a call (`msgQueue_conserves`). A process that sleeps and has not been woken has nothing
to be woken for: a receiver is linked, so a message that it could take would have been handed to it, and the
room for a sender only grows in steps that wake all senders.
-/

import MipsOnQemu.Lib.Runs
import MipsOnQemu.Linux.Msg

namespace Linux

open Multiset hiding filterMap_cons filterMap_map

open List Option MsgResult MsgQueue

/-! ## Steps -/

inductive MsgOp where
  | snd (mtype : BitVec 32) (text : List (BitVec 8)) (flags : MsgFlags) (granted : Bool)
  | rcv (msgsz : Nat) (msgtyp : BitVec 32) (flags : MsgFlags) (granted : Bool)
  | senderResumes (i : Nat) (granted : Bool)
  | receiverAccepts (i : Nat)
  | receiverResumes (i : Nat) (granted : Bool)
  | set (qbytes : Nat)
  | signalReceiver (i : Nat)
  | signalSender (i : Nat)
  deriving DecidableEq

def msgStep (msgCtlmax : Nat) (q : MsgQueue) : MsgOp → Option (MsgResult × MsgQueue)
  | .snd mtype text flags granted => some (sysMsgsnd msgCtlmax q mtype text flags granted)
  | .rcv msgsz msgtyp flags granted => some (sysMsgrcv q msgsz msgtyp flags granted)
  | .senderResumes i granted => resumeSender q i granted
  | .receiverAccepts i => acceptLockless q i
  | .receiverResumes i granted => resumeReceiver q i granted
  | .set qbytes => some (.done, ipcSet q qbytes)
  | .signalReceiver i => some (.done, signalReceiver q i)
  | .signalSender i => some (.done, signalSender q i)

/-! ## Where the messages are -/

def RMsg.message? : RMsg → Option Msg
  | .msg m => some m
  | .again => none
  | .tooBig => none

/-- The messages that have been handed to receivers which have not gone on yet. -/
def handed (receivers : List MsgReceiver) : Multiset Msg := receivers.filterMap fun r => r.rmsg.message?

def MsgResult.sentMessage? : MsgResult → Option Msg
  | .sent m => some m
  | _ => none

def MsgResult.gotMessage? : MsgResult → Option Msg
  | .received m _ => some m
  | _ => none

/-- The messages that the calls of a run have sent. -/
def sentOf (results : List MsgResult) : Multiset Msg := results.filterMap sentMessage?

/-- The messages that the calls of a run have returned. -/
def gotOf (results : List MsgResult) : Multiset Msg := results.filterMap gotMessage?

/-- The messages that have been sent and not returned. -/
def MsgQueue.inTransit (q : MsgQueue) : Multiset Msg := (q.messages : Multiset Msg) + handed q.receivers

structure MsgQueue.Good (q : MsgQueue) : Prop where
  cbytes : q.cbytes = (q.messages.map Msg.ts).sum
  qnum : q.qnum = q.messages.length
  /-- Nothing has been handed to a receiver that is still on the list. -/
  linked : ∀ r ∈ q.receivers, r.linked = true → r.rmsg = .again
  asleep : ∀ r ∈ q.receivers, r.woken = false →
    r.linked = true ∧ ∀ m ∈ q.messages, testmsg m r.msgtype r.mode = false
  full : ∀ s ∈ q.senders, s.woken = false → ¬ q.Fits s.msg

/-- What a step does to a good queue. -/
structure StepKeeps (q : MsgQueue) (out : MsgResult × MsgQueue) : Prop where
  good : out.2.Good
  conserves : out.2.inTransit + gotOf [out.1] = q.inTransit + sentOf [out.1]

theorem newque_good (msgCtlmnb : Nat) : (newque msgCtlmnb).Good where
  cbytes := rfl
  qnum := rfl
  linked := by simp [newque]
  asleep := by simp [newque]
  full := by simp [newque]

variable {q : MsgQueue} {i : Nat}

theorem StepKeeps.refl (hq : q.Good) {res : MsgResult} (hsent : res.sentMessage? = none)
    (hgot : res.gotMessage? = none) : StepKeeps q (res, q) where
  good := hq
  conserves := by simp [gotOf, sentOf, hsent, hgot]

/-! ## Sending -/

section Sending

variable {m : Msg} {receivers : List MsgReceiver}

/-- A receiver that has not been woken was there before, and could not take the message if nobody has. -/
theorem mem_pipelinedSend {r : MsgReceiver} (hr : r ∈ (pipelinedSend m receivers).2)
    (hlinked : r.linked = true) :
    r ∈ receivers ∧ ((pipelinedSend m receivers).1 = false → testmsg m r.msgtype r.mode = false) := by
  induction receivers with
  | nil => exact absurd hr (by simp [pipelinedSend])
  | cons a rs ih =>
    rw [pipelinedSend] at hr ⊢
    by_cases htake : (a.linked && testmsg m a.msgtype a.mode) = true
    · rw [if_pos htake] at hr ⊢
      by_cases hbig : a.maxsize < m.ts
      · rw [if_pos hbig] at hr ⊢
        rcases mem_cons.mp hr with rfl | hr
        · exact absurd hlinked (by simp)
        · obtain ⟨hmem, htest⟩ := ih hr
          exact ⟨mem_cons_of_mem a hmem, htest⟩
      · rw [if_neg hbig] at hr ⊢
        rcases mem_cons.mp hr with rfl | hr
        · exact absurd hlinked (by simp)
        · exact ⟨mem_cons_of_mem a hr, fun h => absurd h (by simp)⟩
    · rw [if_neg htake] at hr ⊢
      rcases mem_cons.mp hr with rfl | hr
      · refine ⟨mem_cons_self, fun _ => ?_⟩
        simpa [hlinked] using htake
      · obtain ⟨hmem, htest⟩ := ih hr
        exact ⟨mem_cons_of_mem a hmem, htest⟩

theorem pipelinedSend_woken (hrs : ∀ r ∈ receivers, r.woken = false → r.linked = true) :
    ∀ r ∈ (pipelinedSend m receivers).2, r.woken = false → r.linked = true := by
  induction receivers with
  | nil => simp [pipelinedSend]
  | cons a rs ih =>
    have ih := ih fun r hr => hrs r (mem_cons_of_mem a hr)
    intro r hr hwoken
    rw [pipelinedSend] at hr
    split_ifs at hr with htake hbig <;> rcases mem_cons.mp hr with rfl | hr
    · exact absurd hwoken (by simp)
    · exact ih r hr hwoken
    · exact absurd hwoken (by simp)
    · exact hrs r (mem_cons_of_mem a hr) hwoken
    · exact hrs r mem_cons_self hwoken
    · exact ih r hr hwoken

theorem handed_cons (r : MsgReceiver) (rs : List MsgReceiver) :
    handed (r :: rs) = (r.rmsg.message?.toList : Multiset Msg) + handed rs := by
  cases h : r.rmsg.message? <;> simp [handed, h]

theorem handed_pipelinedSend (hrs : ∀ r ∈ receivers, r.linked = true → r.rmsg = .again) :
    handed (pipelinedSend m receivers).2 =
      handed receivers + if (pipelinedSend m receivers).1 then {m} else 0 := by
  induction receivers with
  | nil => simp [pipelinedSend, handed]
  | cons a rs ih =>
    have ih := ih fun r hr => hrs r (mem_cons_of_mem a hr)
    rw [pipelinedSend]
    by_cases htake : (a.linked && testmsg m a.msgtype a.mode) = true
    · have hlinked : a.linked = true := by
        rw [Bool.and_eq_true] at htake
        exact htake.1
      have hagain := hrs a mem_cons_self hlinked
      rw [if_pos htake, handed_cons a rs, hagain]
      by_cases hbig : a.maxsize < m.ts
      · rw [if_pos hbig, handed_cons, ih, add_assoc]
        rfl
      · rw [if_neg hbig, handed_cons, add_comm]
        simp [RMsg.message?]
    · rw [if_neg htake, handed_cons, handed_cons, ih, add_assoc]

end Sending

theorem send_keeps (hq : q.Good) (m : Msg) : StepKeeps q (.sent m, q.send m) := by
  have hwoken := pipelinedSend_woken (m := m) fun r hr h => (hq.asleep r hr h).1
  have hhanded := handed_pipelinedSend (m := m) hq.linked
  have hlinked : ∀ r ∈ (pipelinedSend m q.receivers).2, r.linked = true → r.rmsg = .again :=
    fun r hr h => hq.linked r (mem_pipelinedSend hr h).1 h
  by_cases hsent : (pipelinedSend m q.receivers).1 = true
  · have heq : q.send m = { q with receivers := (pipelinedSend m q.receivers).2 } := by
      rw [send, if_pos hsent]
    rw [heq]
    refine ⟨⟨hq.cbytes, hq.qnum, hlinked, ?_, hq.full⟩, ?_⟩
    · intro r hr hr'
      have hl := hwoken r hr hr'
      exact ⟨hl, (hq.asleep r (mem_pipelinedSend hr hl).1 hr').2⟩
    · simp [inTransit, hhanded, if_pos hsent, gotOf, sentOf, gotMessage?,
        sentMessage?, filterMap_cons, coe_nil, coe_singleton, add_assoc]
  · have heq : q.send m = { q with
        receivers := (pipelinedSend m q.receivers).2
        messages := q.messages ++ [m]
        cbytes := q.cbytes + m.ts
        qnum := q.qnum + 1 } := by
      rw [send, if_neg hsent]
    rw [heq]
    refine ⟨⟨?_, ?_, hlinked, ?_, ?_⟩, ?_⟩
    · simp [hq.cbytes]
    · simp [hq.qnum]
    · intro r hr hr'
      have hl := hwoken r hr hr'
      obtain ⟨hmem, htest⟩ := mem_pipelinedSend hr hl
      refine ⟨hl, forall_mem_append.mpr ⟨(hq.asleep r hmem hr').2, forall_mem_singleton.mpr ?_⟩⟩
      exact htest (eq_false_of_ne_true hsent)
    · intro s hs hs' hfits
      refine hq.full s hs hs' ⟨?_, ?_⟩
      · have := hfits.1
        dsimp only at this
        omega
      · have := hfits.2
        dsimp only at this
        omega
    · simp only [inTransit, hhanded, if_neg hsent, gotOf, sentOf, gotMessage?,
        sentMessage?, filterMap_cons, filterMap_nil, coe_nil, add_zero,
        coe_singleton, ← coe_add]
      exact add_right_comm _ _ _

theorem msgsndRound_keeps (hq : q.Good) (m : Msg) (nowait granted : Bool) :
    StepKeeps q (msgsndRound q m nowait granted) := by
  rw [msgsndRound]
  split_ifs with hgranted hfits hnowait
  · exact .refl hq rfl rfl
  · exact send_keeps hq m
  · exact .refl hq rfl rfl
  · refine ⟨⟨hq.cbytes, hq.qnum, hq.linked, hq.asleep, ?_⟩, rfl⟩
    exact forall_mem_append.mpr ⟨hq.full, forall_mem_singleton.mpr fun _ => hfits⟩

theorem sysMsgsnd_keeps (hq : q.Good) (msgCtlmax : Nat) (mtype : BitVec 32) (text : List (BitVec 8))
    (flags : MsgFlags) (granted : Bool) : StepKeeps q (sysMsgsnd msgCtlmax q mtype text flags granted) := by
  rw [sysMsgsnd]
  split_ifs with hmax hpos
  · exact .refl hq rfl rfl
  · exact msgsndRound_keeps hq _ _ _
  · exact .refl hq rfl rfl

variable {out : MsgResult × MsgQueue} {α : Type*} {l : List α}

theorem resumeSender_keeps (hq : q.Good) {granted : Bool}
    (hout : resumeSender q i granted = some out) : StepKeeps q out := by
  obtain ⟨s, _, hout⟩ := bind_eq_some_iff.mp hout
  have hq' : ({ q with senders := q.senders.eraseIdx i } : MsgQueue).Good :=
    ⟨hq.cbytes, hq.qnum, hq.linked, hq.asleep, fun s hs => hq.full s (mem_of_mem_eraseIdx hs)⟩
  split_ifs at hout with hwoken hsignal
  · obtain rfl := some.inj hout
    exact ⟨hq', rfl⟩
  · obtain rfl := some.inj hout
    obtain ⟨hgood, hcons⟩ := msgsndRound_keeps hq' s.msg false granted
    exact ⟨hgood, hcons⟩

/-! ## Receiving -/

theorem mem_ssWakeup {senders : List MsgSender} {s : MsgSender} (hs : s ∈ ssWakeup senders) : s.woken = true := by
  obtain ⟨s', _, rfl⟩ := mem_map.mp hs
  rfl

theorem coe_eraseIdx {a : α} (h : l[i]? = some a) :
    ((l.eraseIdx i : List α) : Multiset α) + {a} = (l : Multiset α) := by
  obtain ⟨hi, rfl⟩ := List.getElem?_eq_some_iff.mp h
  have hperm := coe_eq_coe.mpr (getElem_cons_eraseIdx_perm hi)
  rw [← hperm, ← cons_coe, ← singleton_add, add_comm]

theorem sum_map_eraseIdx {l : List Msg} {m : Msg} (h : l[i]? = some m) :
    ((l.eraseIdx i).map Msg.ts).sum = (l.map Msg.ts).sum - m.ts := by
  have hsum := congrArg (fun s => (s.map Msg.ts).sum) (coe_eraseIdx h)
  simp only [Multiset.map_add, Multiset.sum_add, Multiset.map_coe, Multiset.sum_coe, Multiset.map_singleton,
    Multiset.sum_singleton] at hsum
  omega

theorem msgrcvRound_keeps (hq : q.Good) (msgtyp : BitVec 32) (mode : SearchMode) (msgsz : Nat)
    (noerror nowait granted : Bool) : StepKeeps q (msgrcvRound q msgtyp mode msgsz noerror nowait granted) := by
  cases granted
  · exact .refl hq rfl rfl
  · rcases walkMessages_none_or mode q.messages msgtyp with ⟨hwalk, hnone⟩ | ⟨i, m, type', hwalk, hm⟩
    · rw [msgrcvRound, if_neg (by decide), hwalk]
      cases nowait
      · refine ⟨⟨hq.cbytes, hq.qnum, ?_, ?_, hq.full⟩, ?_⟩
        · exact forall_mem_append.mpr ⟨hq.linked, forall_mem_singleton.mpr fun _ => rfl⟩
        · exact forall_mem_append.mpr ⟨hq.asleep, forall_mem_singleton.mpr fun _ => ⟨rfl, hnone⟩⟩
        · have hsame : handed (q.receivers ++ [⟨msgtyp, mode, msgsz, noerror, .again, true, false, false⟩]) =
              handed q.receivers := by
            rw [handed, filterMap_append]
            exact congrArg _ (append_nil _)
          exact congrArg (fun s => (q.messages : Multiset Msg) + s + 0) hsame
      · exact .refl hq rfl rfl
    · rw [msgrcvRound_found hwalk]
      split_ifs with hbig
      · exact .refl hq rfl rfl
      · have hlen : i < q.messages.length := (List.getElem?_eq_some_iff.mp hm).1
        refine ⟨⟨?_, ?_, hq.linked, ?_, ?_⟩, ?_⟩
        · dsimp only
          rw [sum_map_eraseIdx hm, hq.cbytes]
        · dsimp only
          rw [length_eraseIdx_of_lt hlen, hq.qnum]
        · intro r hr hr'
          obtain ⟨hl, htest⟩ := hq.asleep r hr hr'
          exact ⟨hl, fun m' hm' => htest m' (mem_of_mem_eraseIdx hm')⟩
        · intro s hs hs'
          rw [mem_ssWakeup hs] at hs'
          exact absurd hs' (by decide)
        · have hcoe := coe_eraseIdx hm
          simp only [inTransit, ← hcoe, gotOf, sentOf, gotMessage?, sentMessage?,
            filterMap_cons, filterMap_nil, coe_nil, add_zero, coe_singleton]
          exact add_right_comm _ _ _

theorem sysMsgrcv_keeps (hq : q.Good) (msgsz : Nat) (msgtyp : BitVec 32) (flags : MsgFlags)
    (granted : Bool) : StepKeeps q (sysMsgrcv q msgsz msgtyp flags granted) := by
  rw [sysMsgrcv]
  split_ifs with hsz
  · exact .refl hq rfl rfl
  · exact msgrcvRound_keeps hq _ _ _ _ _ _

section Leaving

variable {q : MsgQueue} {i : Nat} {r : MsgReceiver}

theorem good_eraseIdx (hq : q.Good) (i : Nat) : ({ q with receivers := q.receivers.eraseIdx i } : MsgQueue).Good :=
  ⟨hq.cbytes, hq.qnum, fun r hr => hq.linked r (mem_of_mem_eraseIdx hr),
    fun r hr => hq.asleep r (mem_of_mem_eraseIdx hr), hq.full⟩

theorem inTransit_eraseIdx (hr : q.receivers[i]? = some r) :
    ({ q with receivers := q.receivers.eraseIdx i } : MsgQueue).inTransit + (r.rmsg.message?.toList : Multiset Msg) =
      q.inTransit := by
  obtain ⟨hi, rfl⟩ := List.getElem?_eq_some_iff.mp hr
  have hperm := (getElem_cons_eraseIdx_perm hi).filterMap fun r => r.rmsg.message?
  have hhanded : handed (q.receivers[i] :: q.receivers.eraseIdx i) = handed q.receivers :=
    coe_eq_coe.mpr hperm
  rw [handed_cons] at hhanded
  rw [inTransit, inTransit, ← hhanded, add_assoc]
  exact congrArg _ (add_comm _ _)

theorem leave_keeps (hq : q.Good) (hr : q.receivers[i]? = some r) {res : MsgResult}
    (hsent : res.sentMessage? = none) (hgot : res.gotMessage? = r.rmsg.message?) :
    StepKeeps q (res, { q with receivers := q.receivers.eraseIdx i }) := by
  refine ⟨good_eraseIdx hq i, ?_⟩
  rw [← inTransit_eraseIdx hr, ← hgot]
  cases hres : res.gotMessage? <;> simp [gotOf, sentOf, hsent, hres]

theorem acceptLockless_keeps (hq : q.Good) (hout : acceptLockless q i = some out) : StepKeeps q out := by
  obtain ⟨r, hr, hout⟩ := bind_eq_some_iff.mp hout
  split_ifs at hout with hwoken
  cases hm : r.rmsg with
  | msg | tooBig =>
    rw [hm] at hout
    obtain rfl := some.inj hout
    exact leave_keeps hq hr rfl (by rw [hm]; rfl)
  | again =>
    rw [hm] at hout
    exact absurd hout (by simp)

theorem resumeReceiver_keeps (hq : q.Good) {granted : Bool} (hout : resumeReceiver q i granted = some out) :
    StepKeeps q out := by
  obtain ⟨r, hr, hout⟩ := bind_eq_some_iff.mp hout
  by_cases hwoken : r.woken = true
  swap
  · rw [if_neg hwoken] at hout
    exact absurd hout (by simp)
  rw [if_pos hwoken] at hout
  cases hm : r.rmsg with
  | msg | tooBig =>
    rw [hm] at hout
    obtain rfl := some.inj hout
    exact leave_keeps hq hr rfl (by rw [hm]; rfl)
  | again =>
    rw [hm] at hout
    dsimp only at hout
    split_ifs at hout with hsignal
    · obtain rfl := some.inj hout
      exact leave_keeps hq hr rfl (by rw [hm]; rfl)
    · obtain rfl := some.inj hout
      obtain ⟨hgood, hcons⟩ :=
        msgrcvRound_keeps (good_eraseIdx hq i) r.msgtype r.mode r.msgsz r.noerror false granted
      refine ⟨hgood, ?_⟩
      have htransit := inTransit_eraseIdx hr
      rw [hm] at htransit
      rw [hcons, ← htransit]
      simp [RMsg.message?]

end Leaving

/-! ## Limits and signals -/

theorem handed_map {receivers : List MsgReceiver} {f : MsgReceiver → MsgReceiver}
    (hf : ∀ r ∈ receivers, (f r).rmsg.message? = r.rmsg.message?) :
    handed (receivers.map f) = handed receivers := by
  rw [handed, handed, filterMap_map]
  exact congrArg _ (filterMap_congr hf)

theorem ipcSet_keeps (hq : q.Good) (qbytes : Nat) : StepKeeps q (.done, ipcSet q qbytes) := by
  refine ⟨⟨hq.cbytes, hq.qnum, ?_, ?_, ?_⟩, ?_⟩
  · intro r hr hr'
    obtain ⟨r, hmem, rfl⟩ := mem_map.mp hr
    split_ifs at hr' ⊢ with hl
    · rfl
    · exact absurd hr' hl
  · intro r hr hr'
    obtain ⟨r, hmem, rfl⟩ := mem_map.mp hr
    split_ifs at hr' with hl
    exact absurd (hq.asleep r hmem hr').1 hl
  · intro s hs hs'
    rw [mem_ssWakeup hs] at hs'
    exact absurd hs' (by decide)
  · have hsame : handed (expungeAll q.receivers) = handed q.receivers := by
      refine handed_map fun r hr => ?_
      split_ifs with hl
      · rw [hq.linked r hr hl]
      · rfl
    exact congrArg (fun s => (q.messages : Multiset Msg) + s + 0) hsame

theorem mem_modify {f : α → α} {a : α} (h : a ∈ l.modify i f) : a ∈ l ∨ ∃ b ∈ l, a = f b := by
  obtain ⟨j, hj⟩ := mem_iff_getElem?.mp h
  rw [List.getElem?_modify] at hj
  obtain ⟨b, hb, rfl⟩ := map_eq_some_iff.mp hj
  have hmem := mem_of_getElem? hb
  split_ifs
  · exact .inr ⟨b, hmem, rfl⟩
  · exact .inl hmem

theorem filterMap_modify {β : Type*} {f : α → α} {g : α → Option β} (hf : ∀ a, g (f a) = g a) :
    (l.modify i f).filterMap g = l.filterMap g := by
  induction l generalizing i with
  | nil => cases i <;> rfl
  | cons a l ih =>
    cases i with
    | zero => rw [modify_zero_cons, filterMap_cons, filterMap_cons, hf]
    | succ i => rw [modify_succ_cons, filterMap_cons, filterMap_cons, ih]

theorem signalReceiver_keeps (hq : q.Good) (i : Nat) : StepKeeps q (.done, signalReceiver q i) := by
  refine ⟨⟨hq.cbytes, hq.qnum, ?_, ?_, hq.full⟩, ?_⟩
  · intro r hr hr'
    rcases mem_modify hr with hmem | ⟨r, hmem, rfl⟩
    · exact hq.linked r hmem hr'
    · exact hq.linked r hmem hr'
  · intro r hr hr'
    rcases mem_modify hr with hmem | ⟨r, hmem, rfl⟩
    · exact hq.asleep r hmem hr'
    · exact absurd hr' (by simp)
  · have hsame : handed (signalReceiver q i).receivers = handed q.receivers := by
      rw [handed, signalReceiver, filterMap_modify]
      · rfl
      · intro r
        rfl
    exact congrArg (fun s => (q.messages : Multiset Msg) + s + 0) hsame

theorem signalSender_keeps (hq : q.Good) (i : Nat) : StepKeeps q (.done, signalSender q i) := by
  refine ⟨⟨hq.cbytes, hq.qnum, hq.linked, hq.asleep, ?_⟩, rfl⟩
  intro s hs hs'
  rcases mem_modify hs with hmem | ⟨s, hmem, rfl⟩
  · exact hq.full s hmem hs'
  · exact absurd hs' (by simp)

/-! ## Runs -/

theorem msgStep_keeps {msgCtlmax : Nat} (hq : q.Good) {op : MsgOp}
    (hstep : msgStep msgCtlmax q op = some out) : StepKeeps q out := by
  cases op with
  | snd mtype text flags granted =>
    obtain rfl := some.inj hstep
    exact sysMsgsnd_keeps hq msgCtlmax mtype text flags granted
  | rcv msgsz msgtyp flags granted =>
    obtain rfl := some.inj hstep
    exact sysMsgrcv_keeps hq msgsz msgtyp flags granted
  | senderResumes i granted => exact resumeSender_keeps hq hstep
  | receiverAccepts i => exact acceptLockless_keeps hq hstep
  | receiverResumes i granted => exact resumeReceiver_keeps hq hstep
  | set qbytes =>
    obtain rfl := some.inj hstep
    exact ipcSet_keeps hq qbytes
  | signalReceiver i =>
    obtain rfl := some.inj hstep
    exact signalReceiver_keeps hq i
  | signalSender i =>
    obtain rfl := some.inj hstep
    exact signalSender_keeps hq i

theorem sentOf_append (rs : List MsgResult) (res : MsgResult) : sentOf (rs ++ [res]) = sentOf rs + sentOf [res] := by
  rw [sentOf, filterMap_append, ← coe_add]
  rfl

theorem gotOf_append (rs : List MsgResult) (res : MsgResult) : gotOf (rs ++ [res]) = gotOf rs + gotOf [res] := by
  rw [gotOf, filterMap_append, ← coe_add]
  rfl

/-- After every run: what has been sent is what has been returned, what is queued and what has been handed to
a receiver; the counters are right; and nobody who sleeps should have been woken. -/
theorem msgQueue_conserves (msgCtlmax msgCtlmnb : Nat) (ops : List MsgOp) (results : List MsgResult) (q : MsgQueue)
    (hrun : Runs.run (msgStep msgCtlmax) (newque msgCtlmnb) ops = some (results, q)) :
    sentOf results = (q.messages : Multiset Msg) + handed q.receivers + gotOf results ∧
    q.cbytes = (q.messages.map Msg.ts).sum ∧ q.qnum = q.messages.length ∧
    (∀ r ∈ q.receivers, r.woken = false → ∀ m ∈ q.messages, testmsg m r.msgtype r.mode = false) ∧
    ∀ s ∈ q.senders, s.woken = false → ¬ q.Fits s.msg := by
  have hstart : (newque msgCtlmnb).Good ∧ sentOf [] = (newque msgCtlmnb).inTransit + gotOf [] :=
    ⟨newque_good msgCtlmnb, rfl⟩
  obtain ⟨hgood, hsent⟩ := Runs.run_history
    (I := fun rs (q : MsgQueue) => q.Good ∧ sentOf rs = q.inTransit + gotOf rs) (fun rs q op out hinv hstep => by
      obtain ⟨hq, hsent⟩ := hinv
      obtain ⟨hgood, hcons⟩ := msgStep_keeps hq hstep
      refine ⟨hgood, ?_⟩
      rw [sentOf_append, gotOf_append, hsent, add_right_comm, ← hcons, add_right_comm, add_assoc]) hstart hrun
  exact ⟨hsent, hgood.cbytes, hgood.qnum, fun r hr hr' => (hgood.asleep r hr hr').2, hgood.full⟩

/-- Two receivers wait; the buffer of the first is too small, so the second gets the message. -/
def twoWait : List MsgOp :=
  [.rcv 0 0#32 ⟨false, false, false⟩ true, .rcv 8 7#32 ⟨false, false, false⟩ true,
    .snd 7#32 [65#8, 66#8] ⟨false, false, false⟩ true, .signalReceiver 1, .receiverAccepts 1]

theorem msgQueue_conserves_twoWait : ∃ results q,
    Runs.run (msgStep 8192) (newque 16384) twoWait = some (results, q) ∧
    gotOf results = {⟨7#32, [65#8, 66#8], by decide⟩} ∧
    sentOf results = (q.messages : Multiset Msg) + handed q.receivers + gotOf results := by
  have hrun : ∃ results q, Runs.run (msgStep 8192) (newque 16384) twoWait = some (results, q) ∧
      gotOf results = {⟨7#32, [65#8, 66#8], by decide⟩} := ⟨_, _, rfl, by decide⟩
  obtain ⟨results, q, hrun, hgot⟩ := hrun
  exact ⟨results, q, hrun, hgot, (msgQueue_conserves 8192 16384 twoWait results q hrun).1⟩

end Linux
