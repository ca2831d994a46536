/-
# MipsOnQemu.Linux.PipeRuns -- pipes are queues of bytes

The sections of all calls on a pipe, in the order in which they hold the mutex: what the writers count as
moved is, byte for byte, what the readers have got followed by what is unread in the ring, and what a call
returns is the number of bytes it has moved (`pipe_fifo`). This needs that an atomic copy that faults does
so in the first segment that has bytes: a later fault comes after the segments before it have been used
up, and they are skipped, or their bytes come twice, when the copy is made once more
(`fault_repeats_bytes`).
-/

import MipsOnQemu.Linux.PipeCopy

namespace Linux

open RingBuffer List Function Nat Runs

variable {α : Type}

/-! ## What is seen of a run -/

namespace PipeEvent

/-- The call, the bytes it counts as moved, and what it returns. -/
def call : PipeEvent α → Option (Nat × List α × Option (Except PipeError Nat))
  | .wrote id moved status => some (id, moved, status)
  | .got id moved status => some (id, moved, status)
  | .ends => none

/-- The bytes that a call moves. -/
def movedBy (id : Nat) (e : PipeEvent α) : List α :=
  match e.call with
  | some (id', moved, _) => if id' = id then moved else []
  | none => []

def written : PipeEvent α → List α
  | .wrote _ moved _ => moved
  | _ => []

def read : PipeEvent α → List α
  | .got _ moved _ => moved
  | _ => []

end PipeEvent

def writtenStream (es : List (PipeEvent α)) : List α := es.flatMap PipeEvent.written

def readStream (es : List (PipeEvent α)) : List α := es.flatMap PipeEvent.read

/-- The bytes that a call has moved, in order. -/
def movedBy (id : Nat) (es : List (PipeEvent α)) : List α := es.flatMap (PipeEvent.movedBy id)

/-- The number of a writer that enters, and the bytes it was given. -/
def PipeOp.writes : PipeOp α → Option (Nat × List α)
  | .write id iov _ _ _ _ => some (id, iov.flatten)
  | _ => none

/-- Every fault comes in the first segment that has bytes. -/
def EarlyFaults : PipeOp α → Prop
  | .write _ _ _ merge env _ => EarlyFault merge ∧ ∀ i, EarlyFault (env i).fault
  | .read _ _ _ env _ => ∀ i, EarlyFault (env i)
  | .wakeWriter _ env _ => ∀ i, EarlyFault (env i).fault
  | .wakeReader _ env _ => ∀ i, EarlyFault (env i)
  | .setEnds _ _ => True

/-- A call that enters has a number of its own, and one that is woken sleeps. -/
def Enabled (s : PipeSystem α) : PipeOp α → Prop
  | .write id _ _ _ _ _ => s.next ≤ id
  | .read id _ _ _ _ => s.next ≤ id
  | .wakeWriter id _ _ => ∃ data c, s.calls id = some (.writing data c)
  | .wakeReader id _ _ => ∃ c, s.calls id = some (.reading c)
  | .setEnds _ _ => True

/-- A pipe before its first call. -/
structure Idle (s : PipeSystem α) : Prop where
  curbuf_lt : s.pipe.curbuf < pipeBuffers
  nrbufs : s.pipe.nrbufs = 0
  calls : ∀ id, s.calls id = none

/-! ## The invariant -/

/-- What is known of a call that sleeps and has moved some bytes. -/
def Sleeping (ops : List (PipeOp α)) (moved : List α) (id : Nat) : PipeCall α → Prop
  | .writing data c =>
    WritePending data c ∧ moved = data.take c.ret ∧ ∀ op ∈ ops, ∀ data', op.writes = some (id, data') → data' = data
  | .reading c => ReadPending c ∧ moved = c.arrived ∧ ∀ op ∈ ops, ∀ data', op.writes ≠ some (id, data')

structure FifoInv (ops : List (PipeOp α)) (es : List (PipeEvent α)) (s : PipeSystem α) : Prop where
  ok : PipeOk s.pipe
  stream : writtenStream es = readStream es ++ s.pipe.unread
  call : ∀ id c, s.calls id = some c → id < s.next ∧ Sleeping ops (movedBy id es) id c
  returned : ∀ e ∈ es, ∀ id moved v, e.call = some (id, moved, some v) →
    s.calls id = none ∧ id < s.next ∧ (movedBy id es).length = movedOf v
  fresh : ∀ id, s.next ≤ id → movedBy id es = []
  supplied : ∀ op ∈ ops, ∀ id data, op.writes = some (id, data) → id < s.next ∧ movedBy id es <+: data

theorem movedBy_append (id : Nat) (es : List (PipeEvent α)) (e : PipeEvent α) :
    movedBy id (es ++ [e]) = movedBy id es ++ e.movedBy id := by
  rw [movedBy, flatMap_append, flatMap_singleton, movedBy]

theorem Sleeping.append {ops : List (PipeOp α)} {moved : List α} {id : Nat} {c : PipeCall α}
    (h : Sleeping ops moved id c) {op : PipeOp α} (hop : ∀ data, op.writes ≠ some (id, data)) :
    Sleeping (ops ++ [op]) moved id c := by
  cases c with
  | writing data c =>
    obtain ⟨hpending, hmoved, hops⟩ := h
    exact ⟨hpending, hmoved, forall_mem_append.mpr ⟨hops, forall_mem_singleton.mpr fun data' hdata =>
      absurd hdata (hop data')⟩⟩
  | reading c =>
    obtain ⟨hpending, hmoved, hops⟩ := h
    exact ⟨hpending, hmoved, forall_mem_append.mpr ⟨hops, forall_mem_singleton.mpr hop⟩⟩

theorem FifoInv.step {ops : List (PipeOp α)} {es : List (PipeEvent α)} {s s' : PipeSystem α} (h : FifoInv ops es s)
    {op : PipeOp α} {e : PipeEvent α} {id : Nat} {moved : List α} {status : Option (Except PipeError Nat)}
    {c : PipeCall α} (he : e.call = some (id, moved, status)) (hlive : s.next ≤ id ∨ ∃ c, s.calls id = some c)
    (hnext : s.next ≤ s'.next) (hid : id < s'.next)
    (hcalls : s'.calls = Function.update s.calls id (if status.isSome then none else some c)) (hok : PipeOk s'.pipe)
    (hflow : s.pipe.unread ++ e.written = e.read ++ s'.pipe.unread)
    (hasleep : status = none → Sleeping (ops ++ [op]) (movedBy id es ++ moved) id c)
    (hreturned : ∀ v, status = some v → (movedBy id es ++ moved).length = movedOf v)
    (hsupplied : ∀ op' ∈ ops ++ [op], ∀ data, op'.writes = some (id, data) → movedBy id es ++ moved <+: data)
    (hop : ∀ id' data, op.writes = some (id', data) → id' = id) : FifoInv (ops ++ [op]) (es ++ [e]) s' := by
  have hself : movedBy id (es ++ [e]) = movedBy id es ++ moved := by
    rw [movedBy_append, PipeEvent.movedBy, he]
    simp
  have hother : ∀ id', id' ≠ id → movedBy id' (es ++ [e]) = movedBy id' es := by
    intro id' hne
    rw [movedBy_append, PipeEvent.movedBy, he]
    simp [if_neg hne.symm]
  refine ⟨hok, ?_, ?_, ?_, ?_, ?_⟩
  · rw [writtenStream, flatMap_append, flatMap_singleton, readStream, flatMap_append,
      flatMap_singleton, append_assoc, ← hflow, ← append_assoc]
    exact congrArg (· ++ e.written) h.stream
  · intro id' c' hc'
    rw [hcalls] at hc'
    by_cases heq : id' = id
    · subst heq
      rw [update_self] at hc'
      split at hc'
      · cases hc'
      · rename_i hnone
        cases hc'
        rw [hself]
        exact ⟨hid, hasleep (Option.not_isSome_iff_eq_none.mp hnone)⟩
    · rw [update_of_ne heq] at hc'
      obtain ⟨hlt, hsleep⟩ := h.call id' c' hc'
      refine ⟨hlt.trans_le hnext, ?_⟩
      rw [hother id' heq]
      exact hsleep.append fun data hdata => heq (hop id' data hdata)
  · intro e' he' id' moved' v hv
    rcases mem_append.mp he' with hold | hnew
    · obtain ⟨hnone, hlt, hlength⟩ := h.returned e' hold id' moved' v hv
      have hne : id' ≠ id := by
        rintro rfl
        rcases hlive with hge | ⟨c', hc'⟩
        · omega
        · rw [hnone] at hc'
          cases hc'
      rw [hcalls, update_of_ne hne, hother id' hne]
      exact ⟨hnone, hlt.trans_le hnext, hlength⟩
    · rw [mem_singleton.mp hnew, he] at hv
      cases hv
      rw [hcalls, update_self, hself]
      exact ⟨rfl, hid, hreturned v rfl⟩
  · intro id' hge
    rw [hother id' (by omega)]
    exact h.fresh id' (hnext.trans hge)
  · intro op' hop' id' data hdata
    by_cases heq : id' = id
    · subst heq
      rw [hself]
      exact ⟨hid, hsupplied op' hop' data hdata⟩
    · rw [hother id' heq]
      rcases mem_append.mp hop' with hold | hnew
      · obtain ⟨hlt, hprefix⟩ := h.supplied op' hold id' data hdata
        exact ⟨hlt.trans_le hnext, hprefix⟩
      · rw [mem_singleton.mp hnew] at hdata
        exact absurd (hop id' data hdata) heq

section Sections

variable {ops : List (PipeOp α)} {es : List (PipeEvent α)} {s : PipeSystem α} (h : FifoInv ops es s) {op : PipeOp α}
  {id next : Nat} (hlive : s.next ≤ id ∨ ∃ c, s.calls id = some c) (hnext : s.next ≤ next) (hid : id < next)
include h hlive hnext hid

theorem FifoInv.wrote {data : List α} {ret : Nat} {r : Ran (WriteCall α) α} (hr : WroteOk data ret s.pipe r)
    (hmoved : movedBy id es = data.take ret)
    (hops : ∀ op' ∈ ops, ∀ data', op'.writes = some (id, data') → data' = data)
    (hop : ∀ id' data', op.writes = some (id', data') → id' = id ∧ data' = data) :
    FifoInv (ops ++ [op]) (es ++ [(wroteSection { s with next := next } id data ret r).1])
      (wroteSection { s with next := next } id data ret r).2 := by
  have hall : movedBy id es ++ between ret r.call.ret data = data.take r.call.ret := by
    rw [hmoved, ← between_zero, ← between_zero, between_append (zero_le _) hr.le]
  have hops' : ∀ op' ∈ ops ++ [op], ∀ data', op'.writes = some (id, data') → data' = data :=
    forall_mem_append.mpr ⟨hops, forall_mem_singleton.mpr fun data' hdata' => (hop id data' hdata').2⟩
  refine h.step rfl hlive hnext hid rfl hr.ok hr.unread.symm ?_ ?_ ?_ fun id' data' hdata' => (hop id' data' hdata').1
  · exact fun hnone => ⟨hr.asleep hnone, hall, hops'⟩
  · intro v hv
    rw [hall, length_take, min_eq_left hr.le_data, hr.returned v hv]
  · intro op' hop' data' hdata'
    rw [hops' op' hop' data' hdata', hall]
    exact take_prefix _ _

theorem FifoInv.got {before : List α} {r : Ran (ReadCall α) α} (hr : ReadOk before s.pipe r)
    (hmoved : movedBy id es = before) (hops : ∀ op' ∈ ops, ∀ data, op'.writes ≠ some (id, data))
    (hop : op.writes = none) :
    FifoInv (ops ++ [op]) (es ++ [(readSection { s with next := next } id before.length r).1])
      (readSection { s with next := next } id before.length r).2 := by
  obtain ⟨moved, harrived, hunread⟩ := hr.flow
  have hbetween : between before.length r.call.ret r.call.arrived = moved := by
    rw [between, ← hr.arrived, harrived, drop_left, length_append, Nat.add_sub_cancel_left, take_length]
  have hall : movedBy id es ++ between before.length r.call.ret r.call.arrived = r.call.arrived := by
    rw [hbetween, hmoved, harrived]
  have hops' : ∀ op' ∈ ops ++ [op], ∀ data, op'.writes ≠ some (id, data) :=
    forall_mem_append.mpr ⟨hops, forall_mem_singleton.mpr fun data => by simp [hop]⟩
  refine h.step rfl hlive hnext hid rfl hr.ok ?_ ?_ ?_ ?_ ?_
  · change s.pipe.unread ++ [] = between before.length r.call.ret r.call.arrived ++ r.pipe.unread
    rw [append_nil, hbetween, hunread]
  · exact fun hnone => ⟨hr.asleep hnone, hall, hops'⟩
  · intro v hv
    rw [hall, hr.arrived, hr.returned v hv]
  · intro op' hop' data hdata
    exact absurd hdata (hops' op' hop' data)
  · intro id' data hdata
    rw [hop] at hdata
    cases hdata

end Sections

/-- One section keeps the invariant, and there is one for every operation that has a meaning. -/
theorem FifoInv.pipeStep {ops : List (PipeOp α)} {es : List (PipeEvent α)} {s : PipeSystem α} (h : FifoInv ops es s)
    {op : PipeOp α} (hfaults : EarlyFaults op) (henabled : Enabled s op) :
    ∃ p, pipeStep s op = some p ∧ FifoInv (ops ++ [op]) (es ++ [p.1]) p.2 := by
  -- a call that enters has done nothing before
  have hnew : ∀ {id}, s.next ≤ id → ∀ op' ∈ ops, ∀ data, op'.writes ≠ some (id, data) := by
    intro id hge op' hop' data hdata
    have hlt := (h.supplied op' hop' id data hdata).1
    omega
  cases op with
  | write id iov nonblock merge env signal =>
    have hge : s.next ≤ id := henabled
    obtain ⟨r, hr, hok⟩ := @pipeWrite_spec α s.pipe signal iov nonblock merge env hfaults.1 hfaults.2 h.ok
    refine ⟨_, ?_, h.wrote (.inl hge) (hge.trans (le_succ id)) (lt_succ_self id) hok ?_ ?_ ?_⟩
    · rw [Linux.pipeStep, if_neg (not_lt.mpr hge), hr, Option.map_some]
    · rw [h.fresh id hge, take_zero]
    · exact fun op' hop' data hdata => absurd hdata (hnew hge op' hop' data)
    · rintro id' data' ⟨⟩
      exact ⟨rfl, rfl⟩
  | read id iov nonblock env signal =>
    have hge : s.next ≤ id := henabled
    obtain ⟨r, hr, hok⟩ := @pipeRead_spec α s.pipe signal env iov nonblock hfaults h.ok
    refine ⟨_, ?_, h.got (.inl hge) (hge.trans (le_succ id)) (lt_succ_self id) hok (h.fresh id hge)
      (hnew hge) rfl⟩
    rw [Linux.pipeStep, if_neg (not_lt.mpr hge), hr, Option.map_some, length_nil]
  | wakeWriter id env signal =>
    obtain ⟨data, c, hc⟩ := henabled
    obtain ⟨hlt, hpending, hmoved, hops⟩ := h.call id _ hc
    obtain ⟨r, hr, hok⟩ := @pipeWriteWoken_spec α s.pipe data c signal env hfaults h.ok hpending
    refine ⟨_, ?_, h.wrote (.inr ⟨_, hc⟩) le_rfl hlt hok hmoved hops ?_⟩
    · simp [Linux.pipeStep, hc, hr]
    · rintro id' data' ⟨⟩
  | wakeReader id env signal =>
    obtain ⟨c, hc⟩ := henabled
    obtain ⟨hlt, hpending, hmoved, hops⟩ := h.call id _ hc
    obtain ⟨r, hr, hok⟩ := @pipeReadWoken_spec α s.pipe signal c env hfaults h.ok hpending
    refine ⟨_, ?_, h.got (.inr ⟨_, hc⟩) le_rfl hlt hok hmoved hops rfl⟩
    simp [Linux.pipeStep, hc, hr, hpending.arrived]
  | setEnds readers writers =>
    have hsame : ∀ id, movedBy id (es ++ [.ends]) = movedBy id es := fun id => by
      rw [movedBy_append]
      exact append_nil _
    refine ⟨_, rfl, ⟨h.ok.curbuf_lt, h.ok.nrbufs_le, h.ok.buffer⟩, ?_, ?_, ?_, ?_, ?_⟩
    · rw [writtenStream, flatMap_append, readStream, flatMap_append, append_assoc]
      exact (append_nil _).trans h.stream
    · intro id c hc
      obtain ⟨hlt, hsleep⟩ := h.call id c hc
      rw [hsame]
      refine ⟨hlt, hsleep.append fun data hdata => ?_⟩
      cases hdata
    · simp only [hsame]
      exact forall_mem_append.mpr ⟨h.returned, forall_mem_singleton.mpr nofun⟩
    · intro id hge
      rw [hsame]
      exact h.fresh id hge
    · simp only [hsame]
      exact forall_mem_append.mpr ⟨h.supplied, forall_mem_singleton.mpr nofun⟩

theorem enabled_of_pipeStep {s : PipeSystem α} {op : PipeOp α} {p : PipeEvent α × PipeSystem α}
    (h : pipeStep s op = some p) : Enabled s op := by
  cases op with
  | write id iov nonblock merge env signal =>
    rw [pipeStep] at h
    split at h
    · cases h
    · rename_i hge
      exact not_lt.mp hge
  | read id iov nonblock env signal =>
    rw [pipeStep] at h
    split at h
    · cases h
    · rename_i hge
      exact not_lt.mp hge
  | wakeWriter id env signal =>
    rw [pipeStep] at h
    split at h
    · rename_i data c hc
      exact ⟨data, c, hc⟩
    · cases h
  | wakeReader id env signal =>
    rw [pipeStep] at h
    split at h
    · rename_i c hc
      exact ⟨c, hc⟩
    · cases h
  | setEnds readers writers => trivial

theorem Idle.fifoInv {s : PipeSystem α} (h : Idle s) : FifoInv [] [] s := by
  have hbuffers : s.pipe.buffers = [] := by
    rw [Pipe.buffers, h.nrbufs]
    rfl
  refine ⟨⟨h.curbuf_lt, by rw [h.nrbufs]; exact zero_le _, ?_⟩, ?_, ?_, ?_, fun _ _ => rfl, ?_⟩
  · intro buf hbuf
    rw [hbuffers] at hbuf
    exact absurd hbuf not_mem_nil
  · rw [Pipe.unread, hbuffers]
    rfl
  · intro id c hc
    rw [h.calls id] at hc
    cases hc
  · simp
  · simp

theorem fifoInv_of_run {s₀ s : PipeSystem α} {ops : List (PipeOp α)} {es : List (PipeEvent α)} (h : Idle s₀)
    (hfaults : ∀ op ∈ ops, EarlyFaults op) (hrun : run pipeStep s₀ ops = some (es, s)) : FifoInv ops es s := by
  refine run_trace (fun os rs s op p hinv hop hstep => ?_) h.fifoInv hfaults hrun
  obtain ⟨p', hp', hinv'⟩ := hinv.pipeStep hop (enabled_of_pipeStep hstep)
  rw [hstep] at hp'
  cases hp'
  exact hinv'

/-! ## Queues of bytes -/

/-- **A pipe is a queue of bytes.** However calls with any segments take turns, if every fault comes in
the first segment that has bytes: the ring describes the unread bytes, the bytes that were written are
those that were read followed by the unread ones, every call returns the number of bytes that it has moved,
which for a writer are the first ones that it was given, and no call comes to the end of its segments too
early. -/
theorem pipe_fifo {s₀ s : PipeSystem α} {ops : List (PipeOp α)} {es : List (PipeEvent α)} (h : Idle s₀)
    (hfaults : ∀ op ∈ ops, EarlyFaults op) (hrun : run pipeStep s₀ ops = some (es, s)) :
    PipeOk s.pipe ∧ writtenStream es = readStream es ++ s.pipe.unread ∧
      (∀ e ∈ es, ∀ id moved v, e.call = some (id, moved, some v) → (movedBy id es).length = movedOf v) ∧
      (∀ op ∈ ops, ∀ id data, op.writes = some (id, data) → movedBy id es <+: data) ∧
      ∀ op, EarlyFaults op → Enabled s op → ∃ p, pipeStep s op = some p := by
  have hinv := fifoInv_of_run h hfaults hrun
  refine ⟨hinv.ok, hinv.stream, ?_, ?_, ?_⟩
  · intro e he id moved v hv
    exact (hinv.returned e he id moved v hv).2.2
  · intro op hop id data hdata
    exact (hinv.supplied op hop id data hdata).2
  · intro op hop henabled
    obtain ⟨p, hp, -⟩ := hinv.pipeStep hop henabled
    exact ⟨p, hp⟩

/-- An empty pipe with a reader and a writer, of numbers. -/
def emptyPipe : PipeSystem Nat where
  pipe := ⟨fun _ => ⟨fun _ => 0, 0, 0⟩, 0, 0, none, 1, 1, 0⟩
  calls := fun _ => none
  next := 0

/-- `alloc_page` succeeds, and there are no faults. -/
def plainEnv (_ : Nat) : CopyEnv Nat := ⟨some fun _ => 0, none⟩

/-- A write of three segments whose copy faults in the first one that has bytes, and two reads. -/
def earlyOps : List (PipeOp Nat) :=
  [.write 0 [[], [1, 2], [3]] false none (fun _ => ⟨some fun _ => 0, some ⟨0, [9]⟩⟩) false,
    .read 1 [1, 1] true (fun _ => none) false, .read 2 [5] true (fun _ => some ⟨0, []⟩) false]

/-- The hypotheses are met by these calls. -/
theorem pipe_fifo_early : ∃ es s, run pipeStep emptyPipe earlyOps = some (es, s) ∧ readStream es = [1, 2, 3] ∧
      writtenStream es = readStream es ++ s.pipe.unread := by
  have hidle : Idle emptyPipe := ⟨by decide, rfl, fun _ => rfl⟩
  have hfaults : ∀ op ∈ earlyOps, EarlyFaults op := by
    intro op hop
    simp only [earlyOps, mem_cons, not_mem_nil, or_false] at hop
    rcases hop with rfl | rfl | rfl
    · constructor
      · intro f hf
        cases hf
      · intro i f hf
        cases hf
        rfl
    · intro i f hf
      cases hf
    · intro i f hf
      cases hf
      rfl
  have hrun : ∃ es s, run pipeStep emptyPipe earlyOps = some (es, s) ∧ readStream es = [1, 2, 3] :=
    ⟨_, _, rfl, rfl⟩
  obtain ⟨es, s, hrun, hread⟩ := hrun
  exact ⟨es, s, hrun, hread, (pipe_fifo hidle hfaults hrun).2.1⟩

/-- A read of the bytes 1 and 2 into segments of one, one and five bytes, whose copy faults in the second
one: the reader gets the byte 1 twice. -/
theorem fault_repeats_bytes : ∃ es s, run pipeStep emptyPipe
        [.write 0 [[1, 2]] false none plainEnv false, .read 1 [1, 1, 5] true (fun _ => some ⟨1, []⟩) false] =
          some (es, s) ∧
      writtenStream es = [1, 2] ∧ readStream es = [1, 1] ∧ s.pipe.unread = [] := by
  exact ⟨_, _, rfl, rfl, rfl, rfl⟩

end Linux
