/-
# MipsOnQemu.Linux.Msg -- message queues of System V IPC

`ipc/msg.c`: `sys_msgsnd`, `sys_msgrcv` and the part of `sys_msgctl` that changes the limits of a queue.
Each stretch of code between taking and releasing the lock of the queue is one function here. A process
that sleeps in one of the calls is an entry of a list, with the fields of its `struct msg_receiver` or
`struct msg_sender`, and whether it has been woken. A receiver's entry is `linked` as long as it is on the
list `q_receivers`; the order of the entries is the order of that list.

At the end, which message `sys_msgrcv` takes. For a negative type the search goes on with a lower bound
after each message that it finds, and so ends with the first one of the lowest type. The negation of the
type is done in a `long`, in which the smallest number has no negative (`msgrcv_picks`).
-/

import Mathlib

namespace Linux

open BitVec Nat

/-- `SEARCH_ANY` and so on. -/
inductive SearchMode where
  | any
  | equal
  | notequal
  | lessequal
  deriving DecidableEq

/-- `struct msg_msg`. `sys_msgsnd` takes only types from 1 on. -/
structure Msg where
  mtype : BitVec 32
  text : List (BitVec 8)
  mtype_pos : 0 < mtype.toInt
  deriving DecidableEq

def Msg.ts (m : Msg) : Nat := m.text.length

/-- The bits of `msgflg` that the calls look at. -/
structure MsgFlags where
  nowait : Bool
  noerror : Bool
  except : Bool
  deriving DecidableEq

/-! ## Searching -/

def testmsg (m : Msg) (type : BitVec 32) : SearchMode → Bool
  | .any => true
  | .lessequal => m.mtype.sle type
  | .equal => m.mtype = type
  | .notequal => m.mtype ≠ type

/-- `convert_mode`: the type to search for, and how. -/
def convertMode (msgtyp : BitVec 32) (flags : MsgFlags) : BitVec 32 × SearchMode :=
  if msgtyp = 0#32 then (msgtyp, .any)
  else if msgtyp.slt 0#32 then (-msgtyp, .lessequal)
  else if flags.except then (msgtyp, .notequal)
  else (msgtyp, .equal)

/-- The loop over the messages of the queue, from the one with number `i` on: the message to take with its
number, and what is left of the type. -/
def walkMessages (mode : SearchMode) :
    List Msg → Nat → BitVec 32 → Option (Nat × Msg) → Option (Nat × Msg) × BitVec 32
  | [], _, type, found => (found, type)
  | m :: ms, i, type, found =>
    if testmsg m type mode then
      if mode = .lessequal ∧ m.mtype ≠ 1#32 then walkMessages mode ms (i + 1) (m.mtype - 1#32) (some (i, m))
      else (some (i, m), type)
    else walkMessages mode ms (i + 1) type found

/-! ## The queue -/

/-- `r_msg`: `-EAGAIN`, `-E2BIG`, or a message. -/
inductive RMsg where
  | again
  | tooBig
  | msg (m : Msg)
  deriving DecidableEq

/-- A process that sleeps in `sys_msgrcv`. -/
structure MsgReceiver where
  msgtype : BitVec 32
  mode : SearchMode
  msgsz : Nat
  noerror : Bool
  rmsg : RMsg
  linked : Bool
  woken : Bool
  signal : Bool
  deriving DecidableEq

def MsgReceiver.maxsize (r : MsgReceiver) : Nat := if r.noerror then 2 ^ 31 - 1 else r.msgsz

/-- A process that sleeps in `sys_msgsnd`. -/
structure MsgSender where
  msg : Msg
  woken : Bool
  signal : Bool
  deriving DecidableEq

structure MsgQueue where
  messages : List Msg
  cbytes : Nat
  qnum : Nat
  qbytes : Nat
  receivers : List MsgReceiver
  senders : List MsgSender
  deriving DecidableEq

def newque (msgCtlmnb : Nat) : MsgQueue where
  messages := []
  cbytes := 0
  qnum := 0
  qbytes := msgCtlmnb
  receivers := []
  senders := []

/-- What a call returns, or that it sleeps. -/
inductive MsgResult where
  | sent (m : Msg)
  | received (m : Msg) (n : Nat)
  | eagain
  | enomsg
  | e2big
  | eacces
  | einval
  | restart
  | sleeps
  | done
  deriving DecidableEq

def ssWakeup (senders : List MsgSender) : List MsgSender := senders.map fun s => { s with woken := true }

/-- `expunge_all`, with `-EAGAIN`. -/
def expungeAll (receivers : List MsgReceiver) : List MsgReceiver :=
  receivers.map fun r => if r.linked then { r with rmsg := .again, woken := true } else r

/-! ## Sending -/

/-- `pipelined_send`: whether a receiver has got the message. -/
def pipelinedSend (m : Msg) : List MsgReceiver → Bool × List MsgReceiver
  | [] => (false, [])
  | r :: rs =>
    if r.linked && testmsg m r.msgtype r.mode then
      if r.maxsize < m.ts then
        ((pipelinedSend m rs).1, { r with rmsg := .tooBig, linked := false, woken := true } :: (pipelinedSend m rs).2)
      else (true, { r with rmsg := .msg m, linked := false, woken := true } :: rs)
    else ((pipelinedSend m rs).1, r :: (pipelinedSend m rs).2)

def MsgQueue.Fits (q : MsgQueue) (m : Msg) : Prop := m.ts + q.cbytes ≤ q.qbytes ∧ 1 + q.qnum ≤ q.qbytes

instance (q : MsgQueue) (m : Msg) : Decidable (q.Fits m) := inferInstanceAs (Decidable (_ ∧ _))

/-- A message is handed to a receiver, or put into the queue. -/
def MsgQueue.send (q : MsgQueue) (m : Msg) : MsgQueue :=
  if (pipelinedSend m q.receivers).1 then { q with receivers := (pipelinedSend m q.receivers).2 }
  else { q with
    receivers := (pipelinedSend m q.receivers).2
    messages := q.messages ++ [m]
    cbytes := q.cbytes + m.ts
    qnum := q.qnum + 1 }

/-- One round of the loop of `sys_msgsnd`; `granted` is what `ipcperms` says. -/
def msgsndRound (q : MsgQueue) (m : Msg) (nowait granted : Bool) : MsgResult × MsgQueue :=
  if granted = false then (.eacces, q)
  else if q.Fits m then (.sent m, q.send m)
  else if nowait then (.eagain, q)
  else (.sleeps, { q with senders := q.senders ++ [{ msg := m, woken := false, signal := false }] })

/-- `sys_msgsnd`, until it returns or sleeps. -/
def sysMsgsnd (msgCtlmax : Nat) (q : MsgQueue) (mtype : BitVec 32) (text : List (BitVec 8)) (flags : MsgFlags)
    (granted : Bool) : MsgResult × MsgQueue :=
  if msgCtlmax < text.length then (.einval, q)
  else if h : 0 < mtype.toInt then msgsndRound q ⟨mtype, text, h⟩ flags.nowait granted
  else (.einval, q)

/-- A sender that has been woken, or has got a signal, goes on. -/
def resumeSender (q : MsgQueue) (i : Nat) (granted : Bool) : Option (MsgResult × MsgQueue) :=
  (q.senders[i]?).bind fun s =>
    if s.woken then
      let q := { q with senders := q.senders.eraseIdx i }
      if s.signal then some (.restart, q) else some (msgsndRound q s.msg false granted)
    else none

/-! ## Receiving -/

/-- One round of the loop of `sys_msgrcv`. -/
def msgrcvRound (q : MsgQueue) (msgtyp : BitVec 32) (mode : SearchMode) (msgsz : Nat) (noerror nowait granted : Bool) :
    MsgResult × MsgQueue :=
  if granted = false then (.eacces, q)
  else
    match walkMessages mode q.messages 0 msgtyp none with
    | (some (i, m), _) =>
      if msgsz < m.ts ∧ noerror = false then (.e2big, q)
      else (.received m (min msgsz m.ts), { q with
        messages := q.messages.eraseIdx i
        qnum := q.qnum - 1
        cbytes := q.cbytes - m.ts
        senders := ssWakeup q.senders })
    | (none, msgtyp) =>
      if nowait then (.enomsg, q)
      else (.sleeps, { q with receivers := q.receivers ++ [{
        msgtype := msgtyp
        mode := mode
        msgsz := msgsz
        noerror := noerror
        rmsg := .again
        linked := true
        woken := false
        signal := false }] })

/-- `sys_msgrcv`, until it returns or sleeps. -/
def sysMsgrcv (q : MsgQueue) (msgsz : Nat) (msgtyp : BitVec 32) (flags : MsgFlags) (granted : Bool) :
    MsgResult × MsgQueue :=
  if 2 ^ 31 ≤ msgsz then (.einval, q)
  else msgrcvRound q (convertMode msgtyp flags).1 (convertMode msgtyp flags).2 msgsz flags.noerror flags.nowait granted

/-- What a receiver returns that has found a message or an error in its entry. -/
def acceptRMsg (msgsz : Nat) (m : Msg) : MsgResult := .received m (min msgsz m.ts)

/-- A woken receiver takes what it finds in its entry, without the lock. -/
def acceptLockless (q : MsgQueue) (i : Nat) : Option (MsgResult × MsgQueue) :=
  (q.receivers[i]?).bind fun r =>
    if r.woken then
      let q := { q with receivers := q.receivers.eraseIdx i }
      match r.rmsg with
      | .msg m => some (acceptRMsg r.msgsz m, q)
      | .tooBig => some (.e2big, q)
      | .again => none
    else none

/-- A woken receiver has taken the lock. What is in its entry may have changed since it looked. -/
def resumeReceiver (q : MsgQueue) (i : Nat) (granted : Bool) : Option (MsgResult × MsgQueue) :=
  (q.receivers[i]?).bind fun r =>
    if r.woken then
      let q := { q with receivers := q.receivers.eraseIdx i }
      match r.rmsg with
      | .msg m => some (acceptRMsg r.msgsz m, q)
      | .tooBig => some (.e2big, q)
      | .again =>
        if r.signal then some (.restart, q)
        else some (msgrcvRound q r.msgtype r.mode r.msgsz r.noerror false granted)
    else none

/-! ## Limits and signals -/

def ipcSet (q : MsgQueue) (qbytes : Nat) : MsgQueue :=
  { q with qbytes := qbytes, receivers := expungeAll q.receivers, senders := ssWakeup q.senders }

def signalReceiver (q : MsgQueue) (i : Nat) : MsgQueue :=
  { q with receivers := q.receivers.modify i fun r => { r with woken := true, signal := true } }

def signalSender (q : MsgQueue) (i : Nat) : MsgQueue :=
  { q with senders := q.senders.modify i fun s => { s with woken := true, signal := true } }

/-! ## Which message is taken -/

/-- What `msgrcv` promises: a message qualifies for a type and flags. -/
def Qualifies (msgtyp : BitVec 32) (flags : MsgFlags) (m : Msg) : Prop :=
  if msgtyp.toInt = 0 then True
  else if msgtyp.toInt < 0 then m.mtype.toInt ≤ |msgtyp.toInt|
  else if flags.except then m.mtype ≠ msgtyp
  else m.mtype = msgtyp

/-- Message number `i` is the one to take: the first that qualifies, or for a negative type the first one of
the lowest type. -/
def ToTake (messages : List Msg) (msgtyp : BitVec 32) (flags : MsgFlags) (i : Nat) (m : Msg) : Prop :=
  messages[i]? = some m ∧ Qualifies msgtyp flags m ∧
    ∀ j m', messages[j]? = some m' → Qualifies msgtyp flags m' →
      if msgtyp.toInt < 0 then
        m.mtype.toInt < m'.mtype.toInt ∨ (m.mtype.toInt = m'.mtype.toInt ∧ i ≤ j)
      else i ≤ j

/-- The call has taken the right message and left the others as they were, or no message qualifies, and the
call says so or sleeps. -/
def TookRight (q : MsgQueue) (msgtyp : BitVec 32) (flags : MsgFlags) (out : MsgResult × MsgQueue) : Prop :=
  (∃ i m n, ToTake q.messages msgtyp flags i m ∧ out.1 = .received m n ∧
    out.2.messages = q.messages.eraseIdx i) ∨
  ((∀ m ∈ q.messages, ¬ Qualifies msgtyp flags m) ∧ (out.1 = .enomsg ∨ out.1 = .sleeps) ∧
    out.2.messages = q.messages)

variable {q : MsgQueue} {type' : BitVec 32} (flags : MsgFlags) (ms : List Msg) (m : Msg)

theorem Msg.toInt_pred : (m.mtype - 1#32).toInt = m.mtype.toInt - 1 := by
  have hpos := m.mtype_pos
  have hlt : m.mtype.toInt < 2 ^ 31 := toInt_lt
  have hone : (1#32).toInt = 1 := rfl
  rw [toInt_sub, hone, Int.bmod_def]
  omega

theorem Msg.toInt_of_one (h : m.mtype = 1#32) : m.mtype.toInt = 1 := by
  rw [h]
  rfl

@[simp] theorem testmsg_lessequal (type : BitVec 32) :
    testmsg m type .lessequal = true ↔ m.mtype.toInt ≤ type.toInt := by
  simp [testmsg, BitVec.sle]

variable {mode : SearchMode} {msgtyp : BitVec 32}

theorem walkMessages_first (hmode : mode ≠ .lessequal) (type : BitVec 32)
    (found : Option (Nat × Msg)) (ms : List Msg) (i : Nat) :
    (walkMessages mode ms i type found = (found, type) ∧ ∀ m ∈ ms, testmsg m type mode = false) ∨
    ∃ k m, walkMessages mode ms i type found = (some (i + k, m), type) ∧ ms[k]? = some m ∧
      testmsg m type mode = true ∧ ∀ j m', ms[j]? = some m' → testmsg m' type mode = true → k ≤ j := by
  induction ms generalizing i with
  | nil => exact .inl ⟨rfl, by simp⟩
  | cons m ms ih =>
    by_cases htest : testmsg m type mode = true
    · refine .inr ⟨0, m, ?_, rfl, htest, fun j m' _ _ => zero_le j⟩
      rw [walkMessages, if_pos htest, if_neg (fun h => hmode h.1)]
      rfl
    · have hstep : walkMessages mode (m :: ms) i type found = walkMessages mode ms (i + 1) type found := by
        rw [walkMessages, if_neg htest]
      rw [hstep]
      rcases ih (i + 1) with ⟨heq, hnone⟩ | ⟨k, m', heq, hk, htest', hfirst⟩
      · exact .inl ⟨heq, List.forall_mem_cons.mpr ⟨eq_false_of_ne_true htest, hnone⟩⟩
      · refine .inr ⟨k + 1, m', ?_, hk, htest', ?_⟩
        · rw [heq, add_assoc, add_comm 1 k]
        · intro j m'' hj hj'
          cases j with
          | zero =>
            obtain rfl : m = m'' := Option.some.inj hj
            exact absurd hj' htest
          | succ j => exact succ_le_succ (hfirst j m'' hj hj')

/-- A message is the first one of the lowest type. -/
def FirstLowest (ms : List Msg) (k : Nat) (m : Msg) : Prop :=
  ∀ j m', ms[j]? = some m' → m.mtype.toInt < m'.mtype.toInt ∨ (m.mtype.toInt = m'.mtype.toInt ∧ k ≤ j)

theorem FirstLowest.cons {ms : List Msg} {k : Nat} {m m₀ : Msg} (h : FirstLowest ms k m)
    (hlt : m.mtype.toInt < m₀.mtype.toInt) : FirstLowest (m₀ :: ms) (k + 1) m := by
  intro j m' hj
  cases j with
  | zero =>
    obtain rfl : m₀ = m' := Option.some.inj hj
    exact .inl hlt
  | succ j =>
    rcases h j m' hj with h | ⟨h, h'⟩
    · exact .inl h
    · exact .inr ⟨h, succ_le_succ h'⟩

/-- With a bound on the type, the bound stays below the type of what has been found: the search ends with the
first message of the lowest type. -/
theorem walkMessages_lowest (i : Nat) (type : BitVec 32) (found : Option (Nat × Msg)) :
    (walkMessages .lessequal ms i type found = (found, type) ∧ ∀ m ∈ ms, type.toInt < m.mtype.toInt) ∨
    ∃ k m type', walkMessages .lessequal ms i type found = (some (i + k, m), type') ∧ ms[k]? = some m ∧
      m.mtype.toInt ≤ type.toInt ∧ FirstLowest ms k m := by
  induction ms generalizing i type found with
  | nil => exact .inl ⟨rfl, by simp⟩
  | cons m ms ih =>
    by_cases htest : testmsg m type .lessequal = true
    · have hle := (testmsg_lessequal m type).mp htest
      by_cases hone : m.mtype = 1#32
      · refine .inr ⟨0, m, type, ?_, rfl, hle, ?_⟩
        · rw [walkMessages, if_pos htest, if_neg (fun h => h.2 hone)]
          rfl
        · intro j m' _
          have := m.toInt_of_one hone
          have := m'.mtype_pos
          omega
      · have hstep : walkMessages .lessequal (m :: ms) i type found =
            walkMessages .lessequal ms (i + 1) (m.mtype - 1#32) (some (i, m)) := by
          rw [walkMessages, if_pos htest, if_pos ⟨rfl, hone⟩]
        rw [hstep]
        rcases ih (i + 1) (m.mtype - 1#32) (some (i, m)) with ⟨heq, hnone⟩ | ⟨k, m', type', heq, hk, hlow, hmin⟩
        · refine .inr ⟨0, m, m.mtype - 1#32, heq, rfl, hle, ?_⟩
          intro j m' hj
          cases j with
          | zero =>
            obtain rfl : m = m' := Option.some.inj hj
            exact .inr ⟨rfl, le_refl _⟩
          | succ j =>
            have hlt := hnone m' (List.mem_of_getElem? hj)
            rw [m.toInt_pred] at hlt
            omega
        · rw [m.toInt_pred] at hlow
          refine .inr ⟨k + 1, m', type', ?_, hk, by omega, ?_⟩
          · rw [heq, add_assoc, add_comm 1 k]
          · exact hmin.cons (by omega)
    · have hlt : type.toInt < m.mtype.toInt := by
        rw [testmsg_lessequal] at htest
        omega
      have hstep : walkMessages .lessequal (m :: ms) i type found =
          walkMessages .lessequal ms (i + 1) type found := by
        rw [walkMessages, if_neg htest]
      rw [hstep]
      rcases ih (i + 1) type found with ⟨heq, hnone⟩ | ⟨k, m', type', heq, hk, hlow, hmin⟩
      · exact .inl ⟨heq, List.forall_mem_cons.mpr ⟨hlt, hnone⟩⟩
      · refine .inr ⟨k + 1, m', type', ?_, hk, hlow, ?_⟩
        · rw [heq, add_assoc, add_comm 1 k]
        · exact hmin.cons (by omega)

/-- Both in one: the search finds nothing, and keeps its type, if no message passes the test; otherwise it
finds one that does. -/
theorem walkMessages_none_or (mode : SearchMode) (ms : List Msg) (type : BitVec 32) :
    (walkMessages mode ms 0 type none = (none, type) ∧ ∀ m ∈ ms, testmsg m type mode = false) ∨
    ∃ k m type', walkMessages mode ms 0 type none = (some (k, m), type') ∧ ms[k]? = some m := by
  by_cases hmode : mode = .lessequal
  · subst hmode
    rcases walkMessages_lowest ms 0 type none with ⟨heq, hnone⟩ | ⟨k, m, type', heq, hk, _⟩
    · refine .inl ⟨heq, ?_⟩
      intro m hm
      refine eq_false_of_ne_true fun htest => ?_
      exact absurd ((testmsg_lessequal m type).mp htest) (not_le.mpr (hnone m hm))
    · exact .inr ⟨k, m, type', by rw [heq, zero_add], hk⟩
  · rcases walkMessages_first hmode type none ms 0 with h | ⟨k, m, heq, hk, _⟩
    · exact .inl h
    · exact .inr ⟨k, m, type, by rw [heq, zero_add], hk⟩

theorem convertMode_negative (hneg : msgtyp.toInt < 0) (flags : MsgFlags) :
    convertMode msgtyp flags = (-msgtyp, .lessequal) := by
  have hne : msgtyp ≠ 0#32 := by
    rintro rfl
    exact absurd hneg (by decide)
  have hslt : msgtyp.slt 0#32 = true := by
    simp only [BitVec.slt, decide_eq_true_eq]
    exact hneg
  rw [convertMode, if_neg hne, if_pos hslt]

theorem convertMode_not_negative (hneg : ¬ msgtyp.toInt < 0) (flags : MsgFlags) :
    (convertMode msgtyp flags).2 ≠ .lessequal ∧ ∀ m, Qualifies msgtyp flags m ↔
        testmsg m (convertMode msgtyp flags).1 (convertMode msgtyp flags).2 = true := by
  by_cases hzero : msgtyp = 0#32
  · subst hzero
    exact ⟨by simp [convertMode], fun m => by simp [Qualifies, convertMode, testmsg]⟩
  · have hne : msgtyp.toInt ≠ 0 := fun h => hzero (toInt_inj.mp h)
    have hslt : ¬ msgtyp.slt 0#32 = true := by
      simp only [BitVec.slt, decide_eq_true_eq]
      exact hneg
    cases hexc : flags.except <;>
      simp [Qualifies, convertMode, testmsg, hzero, hslt, hne, hneg, hexc]

theorem walkMessages_toTake (hmin : msgtyp ≠ intMin 32) (flags : MsgFlags) (ms : List Msg) :
    ((walkMessages (convertMode msgtyp flags).2 ms 0 (convertMode msgtyp flags).1 none).1 = none ∧
      ∀ m ∈ ms, ¬ Qualifies msgtyp flags m) ∨
    ∃ i m, (walkMessages (convertMode msgtyp flags).2 ms 0 (convertMode msgtyp flags).1 none).1 = some (i, m) ∧
      ToTake ms msgtyp flags i m := by
  by_cases hneg : msgtyp.toInt < 0
  · have habs : |msgtyp.toInt| = (-msgtyp).toInt := by
      rw [toInt_neg_of_ne_intMin hmin, abs_of_neg hneg]
    have hqual : ∀ m, Qualifies msgtyp flags m ↔ m.mtype.toInt ≤ (-msgtyp).toInt := by
      intro m
      rw [Qualifies, if_neg hneg.ne, if_pos hneg, habs]
    rw [convertMode_negative hneg]
    rcases walkMessages_lowest ms 0 (-msgtyp) none with ⟨heq, hnone⟩ | ⟨k, m, type', heq, hk, hle, hlow⟩
    · refine .inl ⟨by rw [heq], ?_⟩
      intro m hm
      rw [hqual, not_le]
      exact hnone m hm
    · refine .inr ⟨k, m, by rw [heq, zero_add], hk, (hqual m).mpr hle, ?_⟩
      intro j m' hj _
      rw [if_pos hneg]
      exact hlow j m' hj
  · obtain ⟨hmode, hqual⟩ := convertMode_not_negative hneg flags
    rcases walkMessages_first hmode (convertMode msgtyp flags).1 none ms 0 with
      ⟨heq, hnone⟩ | ⟨k, m, heq, hk, htest, hfirst⟩
    · refine .inl ⟨by rw [heq], ?_⟩
      intro m hm
      rw [hqual, hnone m hm]
      exact Bool.false_ne_true
    · refine .inr ⟨k, m, by rw [heq, zero_add], hk, (hqual m).mpr htest, ?_⟩
      intro j m' hj hj'
      rw [if_neg hneg]
      exact hfirst j m' hj ((hqual m').mp hj')

theorem walkMessages_intMin :
    walkMessages (convertMode (intMin 32) flags).2 ms 0 (convertMode (intMin 32) flags).1 none =
      (none, intMin 32) := by
  have hneg : (intMin 32).toInt < 0 := by decide
  rw [convertMode_negative hneg, neg_intMin]
  rcases walkMessages_lowest ms 0 (intMin 32) none with ⟨heq, _⟩ | ⟨_, m, _, _, _, hle, _⟩
  · exact heq
  · exact absurd m.mtype_pos (not_lt.mpr (hle.trans hneg.le))

theorem qualifies_intMin : Qualifies (intMin 32) flags m := by
  have hlt : m.mtype.toInt < 2 ^ 31 := toInt_lt
  have habs : |(intMin 32).toInt| = 2 ^ 31 := by decide
  rw [Qualifies, if_neg (by decide), if_pos (by decide), habs]
  exact hlt.le

theorem msgrcvRound_found {i : Nat} {m : Msg}
    (hwalk : walkMessages mode q.messages 0 msgtyp none = (some (i, m), type')) (msgsz : Nat) (noerror nowait : Bool) :
    msgrcvRound q msgtyp mode msgsz noerror nowait true =
      if msgsz < m.ts ∧ noerror = false then (.e2big, q)
      else (.received m (min msgsz m.ts), { q with
        messages := q.messages.eraseIdx i
        qnum := q.qnum - 1
        cbytes := q.cbytes - m.ts
        senders := ssWakeup q.senders }) := by
  rw [msgrcvRound, if_neg (by decide), hwalk]

theorem msgrcvRound_notFound
    (hwalk : walkMessages mode q.messages 0 msgtyp none = (none, type')) (msgsz : Nat) (noerror nowait : Bool) :
    ((msgrcvRound q msgtyp mode msgsz noerror nowait true).1 = .enomsg ∨
      (msgrcvRound q msgtyp mode msgsz noerror nowait true).1 = .sleeps) ∧
    (msgrcvRound q msgtyp mode msgsz noerror nowait true).2.messages = q.messages := by
  rw [msgrcvRound, if_neg (by decide), hwalk]
  cases nowait
  · exact ⟨.inr rfl, rfl⟩
  · exact ⟨.inl rfl, rfl⟩

/-- `sys_msgrcv` takes the message that it should, or rightly says that there is none, for every type but the
smallest number; with that one it finds no message, although every one qualifies. -/
theorem msgrcv_picks (q : MsgQueue) (msgsz : Nat) (msgtyp : BitVec 32) (flags : MsgFlags) (hsz : msgsz < 2 ^ 31)
    (hfit : flags.noerror = true ∨ ∀ i m, ToTake q.messages msgtyp flags i m → m.ts ≤ msgsz) :
    TookRight q msgtyp flags (sysMsgrcv q msgsz msgtyp flags true) ↔
      ¬ (msgtyp = intMin 32 ∧ q.messages ≠ []) := by
  rw [sysMsgrcv, if_neg (not_le.mpr hsz)]
  constructor
  · rintro hright ⟨rfl, hne⟩
    obtain ⟨hout, _⟩ := msgrcvRound_notFound (walkMessages_intMin flags q.messages) msgsz flags.noerror flags.nowait
    rcases hright with ⟨i, m, n, _, hrec, _⟩ | ⟨hnone, _⟩
    · rw [hrec] at hout
      rcases hout with h | h <;> exact absurd h (by simp)
    · obtain ⟨m, hm⟩ := List.exists_mem_of_ne_nil _ hne
      exact hnone m hm (qualifies_intMin flags m)
  · intro hcond
    by_cases hmin : msgtyp = intMin 32
    · subst hmin
      have hnil : q.messages = [] := by
        by_contra hne
        exact hcond ⟨rfl, hne⟩
      obtain ⟨hout, hms⟩ :=
        msgrcvRound_notFound (walkMessages_intMin flags q.messages) msgsz flags.noerror flags.nowait
      exact .inr ⟨by simp [hnil], hout, hms⟩
    · rcases walkMessages_toTake hmin flags q.messages with ⟨hwalk, hnone⟩ | ⟨i, m, hwalk, htake⟩
      · obtain ⟨hout, hms⟩ := msgrcvRound_notFound (Prod.ext hwalk rfl) msgsz flags.noerror flags.nowait
        exact .inr ⟨hnone, hout, hms⟩
      · have hsmall : ¬ (msgsz < m.ts ∧ flags.noerror = false) := by
          rintro ⟨hlt, hno⟩
          rcases hfit with h | h
          · rw [h] at hno
            exact absurd hno (by decide)
          · exact absurd (h i m htake) (not_le.mpr hlt)
        rw [msgrcvRound_found (Prod.ext hwalk rfl), if_neg hsmall]
        exact .inl ⟨i, m, min msgsz m.ts, htake, rfl, rfl⟩

/-- A queue with messages of the types 7, 5, 3 and 4. -/
def fourMessages : MsgQueue :=
  { newque 16384 with
    messages := [⟨7#32, [65#8], by decide⟩, ⟨5#32, [66#8], by decide⟩, ⟨3#32, [67#8], by decide⟩,
      ⟨4#32, [68#8], by decide⟩]
    cbytes := 4
    qnum := 4 }

/-- Asked for a type up to 5, the call takes the lowest, not the first that qualifies. -/
theorem msgrcv_picks_lowest :
    (sysMsgrcv fourMessages 10 (-5#32) ⟨true, true, false⟩ true).1 =
        .received ⟨3#32, [67#8], by decide⟩ 1 ∧
      TookRight fourMessages (-5#32) ⟨true, true, false⟩
        (sysMsgrcv fourMessages 10 (-5#32) ⟨true, true, false⟩ true) :=
  ⟨rfl, (msgrcv_picks fourMessages 10 (-5#32) ⟨true, true, false⟩ (by decide) (.inl rfl)).mpr (by decide)⟩

def oneMessage : MsgQueue :=
  { newque 16384 with messages := [⟨3#32, [65#8], by decide⟩], cbytes := 1, qnum := 1 }

/-- A message of type 3 is in the queue, and the call with the smallest type says that there is none. -/
theorem msgrcv_smallest_type :
    sysMsgrcv oneMessage 10 (intMin 32) ⟨true, true, false⟩ true = (.enomsg, oneMessage) ∧
      ¬ TookRight oneMessage (intMin 32) ⟨true, true, false⟩
        (sysMsgrcv oneMessage 10 (intMin 32) ⟨true, true, false⟩ true) := by
  have hout : sysMsgrcv oneMessage 10 (intMin 32) ⟨true, true, false⟩ true = (.enomsg, oneMessage) := by
    decide
  refine ⟨hout, ?_⟩
  rw [hout]
  rintro (⟨i, m, n, _, hrec, _⟩ | ⟨hnone, _⟩)
  · exact absurd hrec (by simp)
  · exact hnone ⟨3#32, [65#8], by decide⟩ (by simp [oneMessage]) (qualifies_intMin _ _)

end Linux
