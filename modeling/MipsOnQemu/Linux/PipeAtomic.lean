/-
# MipsOnQemu.Linux.PipeAtomic -- small writes to a pipe are not split

A write of less than a page is its own odd part, and goes behind the last buffer's bytes as a whole or into
a buffer of its own; a write of a whole page has no odd part and goes into a buffer of its own. So one
section moves all of it, and a writer that sleeps with at most a page to write has moved nothing
(`writeLoop_small`, `pipeWrite_small`). However the calls take turns, its bytes stay together, and if it
must not sleep, they go in all at once or not at all (`small_writes_atomic`).
-/

import MipsOnQemu.Linux.PipeRuns

namespace Linux

open List Nat

variable {α : Type}

/-! ## One section -/

/-- A section moves all the bytes and returns, or it moves nothing. -/
def MovesWhole (data : List α) (nonblock : Bool) (r : Ran (WriteCall α) α) : Prop :=
  (r.call.ret = data.length ∧ r.status = some (.ok data.length)) ∨
    (r.call.ret = 0 ∧ (∀ v, r.status = some v → ∃ e, v = .error e) ∧
      (r.status = none → r.call.totalLen = data.length ∧ r.call.nonblock = nonblock ∧ nonblock = false))

/-- The variables of a writer that has moved nothing. -/
structure NotBegun (data : List α) (c : WriteCall α) : Prop where
  ret : c.ret = 0
  totalLen : c.totalLen = data.length
  small : data.length ≤ pageSize

variable {data : List α} {c : WriteCall α} {signal : Bool} {pipe : Pipe α} {r : Ran (WriteCall α) α}
  {id : Nat} {es : List (PipeEvent α)} {ops : List (PipeOp α)} {s : PipeSystem α} {op : PipeOp α}

theorem NotBegun.refused (h : NotBegun data c) (pipe : Pipe α) (e : PipeError) :
    MovesWhole data c.nonblock ⟨some (retOr e c.ret), c, pipe⟩ := by
  refine .inr ⟨h.ret, ?_, ?_⟩
  · rintro v ⟨⟩
    exact ⟨e, by rw [retOr, if_pos h.ret]⟩
  · intro hnone
    cases hnone

theorem writeWait_small (h : NotBegun data c) : MovesWhole data c.nonblock (writeWait signal pipe c) := by
  rw [writeWait]
  split
  · exact h.refused pipe _
  split
  · exact h.refused pipe _
  · rename_i hblock _
    refine .inr ⟨h.ret, ?_, fun _ => ⟨h.totalLen, rfl, Bool.eq_false_of_not_eq_true hblock⟩⟩
    rintro v ⟨⟩

theorem writeLoop_small {env : Nat → CopyEnv α} {rounds i : Nat} (h : NotBegun data c)
    (hr : writeLoop env signal rounds i pipe c = some r) : MovesWhole data c.nonblock r := by
  cases rounds with
  | zero => cases hr
  | succ rounds =>
    rw [writeLoop] at hr
    split at hr
    · cases hr
      exact h.refused pipe _
    split at hr
    · split at hr
      · cases hr
        exact h.refused pipe _
      · obtain ⟨copied, -, hr⟩ := Option.bind_eq_some_iff.mp hr
        -- all of it is one buffer
        have hall : min pageSize c.totalLen = c.totalLen := min_eq_right (h.totalLen.le.trans h.small)
        rw [hall] at hr
        dsimp only at hr
        rw [if_pos (Nat.sub_self _)] at hr
        cases hr
        rw [h.ret, zero_add, h.totalLen]
        exact .inl ⟨rfl, rfl⟩
    · cases hr
      exact writeWait_small h

theorem pipeWrite_small {iov : List (List α)} {nonblock : Bool} {merge : Option (Fault α)}
    {env : Nat → CopyEnv α} (hsmall : iov.flatten.length ≤ pageSize)
    (hr : pipeWrite merge env signal pipe ⟨iov, iov.flatten.length, 0, nonblock⟩ = some r) :
    MovesWhole iov.flatten nonblock r := by
  have h : NotBegun iov.flatten ⟨iov, iov.flatten.length, 0, nonblock⟩ := ⟨rfl, rfl, hsmall⟩
  rw [pipeWrite] at hr
  split at hr
  · rename_i hzero
    cases hr
    have hzero' : iov.flatten.length = 0 := hzero
    exact .inl ⟨hzero'.symm, by rw [hzero']⟩
  split at hr
  · cases hr
    exact h.refused pipe .epipe
  dsimp only at hr
  split at hr
  · rename_i hmerge
    obtain ⟨copied, -, hr⟩ := Option.bind_eq_some_iff.mp hr
    -- a write of a page has no odd part, and one of less is nothing else
    have hodd : iov.flatten.length &&& (pageSize - 1) = iov.flatten.length % pageSize :=
      and_two_pow_sub_one_eq_mod _ 12
    have hlt : iov.flatten.length < pageSize := by
      refine lt_of_le_of_ne hsmall fun heq => hmerge.2.1 ?_
      rw [hodd, heq, mod_self]
    rw [hodd, mod_eq_of_lt hlt] at hr
    rw [if_pos (Nat.sub_self _)] at hr
    cases hr
    exact .inl ⟨rfl, rfl⟩
  · exact writeLoop_small h hr

/-! ## Runs -/

/-- The bytes that a section of a writer moves, with the number of the call. -/
def PipeEvent.tagged : PipeEvent α → List (Nat × α)
  | .wrote id moved _ => moved.map fun b => (id, b)
  | _ => []

/-- The bytes that were written, in order, each with the number of the call that wrote it. -/
def taggedStream (es : List (PipeEvent α)) : List (Nat × α) := es.flatMap PipeEvent.tagged

/-- All bytes of a call are in one piece of the stream, or none are in it. -/
def Together (id : Nat) (data : List α) (stream : List (Nat × α)) : Prop :=
  (∀ x ∈ stream, x.1 ≠ id) ∨
    ∃ pre post, stream = pre ++ data.map (fun b => (id, b)) ++ post ∧ ∀ x ∈ pre ++ post, x.1 ≠ id

theorem Together.append {stream more : List (Nat × α)} (h : Together id data stream)
    (hmore : ∀ x ∈ more, x.1 ≠ id) : Together id data (stream ++ more) := by
  rcases h with hnone | ⟨pre, post, rfl, hothers⟩
  · exact .inl (forall_mem_append.mpr ⟨hnone, hmore⟩)
  · refine .inr ⟨pre, post ++ more, by rw [append_assoc], ?_⟩
    rw [← append_assoc]
    exact forall_mem_append.mpr ⟨hothers, hmore⟩

/-- A writer that must not sleep. -/
def PipeOp.nonblocking : PipeOp α → Bool
  | .write _ _ nonblock _ _ _ => nonblock
  | _ => false

/-- The call has returned, with all its bytes or with an error. -/
def AllOrNone (id : Nat) (data : List α) (es : List (PipeEvent α)) : Prop :=
  ∃ moved v, .wrote id moved (some v) ∈ es ∧
    ((moved = data ∧ v = .ok data.length) ∨ (moved = [] ∧ ∃ e, v = .error e))

structure AtomicInv (ops : List (PipeOp α)) (es : List (PipeEvent α)) (s : PipeSystem α) : Prop where
  call_lt : ∀ id c, s.calls id = some c → id < s.next
  fresh : ∀ x ∈ taggedStream es, x.1 < s.next
  asleep : ∀ id data c, s.calls id = some (.writing data c) → data.length ≤ pageSize →
    NotBegun data c ∧ c.nonblock = false ∧ ∀ x ∈ taggedStream es, x.1 ≠ id
  entered : ∀ op ∈ ops, ∀ id data, op.writes = some (id, data) →
    id < s.next ∧ ∀ data' c, s.calls id = some (.writing data' c) → data' = data
  together : ∀ op ∈ ops, ∀ id data, op.writes = some (id, data) → data.length ≤ pageSize →
    Together id data (taggedStream es) ∧ (op.nonblocking = true → AllOrNone id data es)

theorem AllOrNone.append (h : AllOrNone id data es) (e : PipeEvent α) : AllOrNone id data (es ++ [e]) := by
  obtain ⟨moved, v, hmem, hv⟩ := h
  exact ⟨moved, v, mem_append_left _ hmem, hv⟩

theorem taggedStream_append (es : List (PipeEvent α)) (e : PipeEvent α) :
    taggedStream (es ++ [e]) = taggedStream es ++ e.tagged := by
  rw [taggedStream, flatMap_append, flatMap_singleton, taggedStream]

theorem calls_update {calls : Nat → Option (PipeCall α)} {x : Option (PipeCall α)} {id' : Nat} {c : PipeCall α}
    (h : Function.update calls id x id' = some c) : id' = id ∧ x = some c ∨ id' ≠ id ∧ calls id' = some c := by
  rw [Function.update_apply] at h
  split at h
  · exact .inl ⟨‹_›, h⟩
  · exact .inr ⟨‹_›, h⟩

theorem AtomicInv.other {s' : PipeSystem α} (h : AtomicInv ops es s) {e : PipeEvent α}
    (hop : op.writes = none) (he : e.tagged = []) (hnext : s.next ≤ s'.next)
    (hlt : ∀ id c, s'.calls id = some c → id < s'.next)
    (hcalls : ∀ id data c, s'.calls id = some (.writing data c) → s.calls id = some (.writing data c)) :
    AtomicInv (ops ++ [op]) (es ++ [e]) s' := by
  have hsame : taggedStream (es ++ [e]) = taggedStream es := by
    rw [taggedStream_append, he, append_nil]
  have hold : ∀ {op' id data}, op' ∈ ops ++ [op] → op'.writes = some (id, data) → op' ∈ ops := by
    intro op' id data hmem hdata
    rcases mem_append.mp hmem with hold | hnew
    · exact hold
    · rw [mem_singleton.mp hnew, hop] at hdata
      cases hdata
  refine ⟨hlt, ?_, ?_, ?_, ?_⟩
  · intro x hx
    rw [hsame] at hx
    exact (h.fresh x hx).trans_le hnext
  · intro id data c hc hsmall
    rw [hsame]
    exact h.asleep id data c (hcalls id data c hc) hsmall
  · intro op' hop' id data hdata
    obtain ⟨hid, hsleep⟩ := h.entered op' (hold hop' hdata) id data hdata
    exact ⟨hid.trans_le hnext, fun data' c hc => hsleep data' c (hcalls id data' c hc)⟩
  · intro op' hop' id data hdata hsmall
    rw [hsame]
    obtain ⟨htogether, hnonblock⟩ := h.together op' (hold hop' hdata) id data hdata hsmall
    exact ⟨htogether, fun hb => (hnonblock hb).append e⟩

/-! ### A section of a writer -/

theorem wroteSection_tagged (s : PipeSystem α) (id : Nat) (data : List α) (ret : Nat) (r : Ran (WriteCall α) α) :
    ∀ x ∈ (wroteSection s id data ret r).1.tagged, x.1 = id := by
  intro x hx
  obtain ⟨b, -, rfl⟩ := mem_map.mp hx
  rfl

theorem wroteSection_calls {ret id' : Nat} {c : PipeCall α}
    (hc : (wroteSection s id data ret r).2.calls id' = some c) :
    (id' = id ∧ r.status = none ∧ c = .writing data r.call) ∨ (id' ≠ id ∧ s.calls id' = some c) := by
  rcases calls_update hc with ⟨rfl, hx⟩ | hc
  · split at hx
    · cases hx
    · rename_i hstatus
      cases hx
      exact .inl ⟨rfl, Option.not_isSome_iff_eq_none.mp hstatus, rfl⟩
  · exact .inr hc

theorem wroteSection_zero_tagged : (wroteSection s id data 0 r).1.tagged =
    (data.take r.call.ret).map fun b => (id, b) := by
  change (between 0 r.call.ret data).map _ = _
  rw [between_zero]

/-- What has nothing in the stream yet gets there as a whole. -/
theorem MovesWhole.together {nonblock : Bool} {stream : List (Nat × α)} (h : MovesWhole data nonblock r)
    (hnone : ∀ x ∈ stream, x.1 ≠ id) : Together id data (stream ++ (wroteSection s id data 0 r).1.tagged) := by
  rw [wroteSection_zero_tagged]
  rcases h with ⟨hall, -⟩ | ⟨hzero, -⟩
  · refine .inr ⟨stream, [], by rw [hall, take_length, append_nil], ?_⟩
    rwa [append_nil]
  · left
    rwa [hzero, take_zero, map_nil, append_nil]

/-- If it must not sleep it returns at once. -/
theorem MovesWhole.allOrNone (h : MovesWhole data true r) :
    AllOrNone id data (es ++ [(wroteSection s id data 0 r).1]) := by
  have hmem : ∀ v, r.status = some v →
      PipeEvent.wrote id (data.take r.call.ret) (some v) ∈ es ++ [(wroteSection s id data 0 r).1] := by
    intro v hv
    refine mem_append_right _ (mem_singleton.mpr ?_)
    rw [wroteSection, hv, between_zero]
  rcases h with ⟨hall, hdone⟩ | ⟨hzero, herror, hasleep⟩
  · refine ⟨_, _, hmem _ hdone, .inl ⟨?_, rfl⟩⟩
    rw [hall, take_length]
  · cases hstatus : r.status with
    | none => exact Bool.noConfusion (hasleep hstatus).2.2
    | some v =>
      refine ⟨_, v, hmem v hstatus, .inr ⟨?_, herror v hstatus⟩⟩
      rw [hzero, take_zero]

/-- A small write that is new or asleep has nothing in the stream. -/
theorem AtomicInv.absent (h : AtomicInv ops es s)
    (hlive : s.next ≤ id ∨ ∃ c, s.calls id = some (.writing data c)) (hsmall : data.length ≤ pageSize) :
    ∀ x ∈ taggedStream es, x.1 ≠ id := by
  intro x hx
  rcases hlive with hge | ⟨c, hc⟩
  · have hlt := h.fresh x hx
    omega
  · exact (h.asleep id data c hc hsmall).2.2 x hx

theorem AtomicInv.wrote (h : AtomicInv ops es s) {next ret : Nat} {nonblock : Bool}
    (hlive : s.next ≤ id ∨ ∃ c, s.calls id = some (.writing data c)) (hnext : s.next ≤ next) (hid : id < next)
    (hret : data.length ≤ pageSize → ret = 0) (hwhole : data.length ≤ pageSize → MovesWhole data nonblock r)
    (hop : ∀ id' data', op.writes = some (id', data') → s.next ≤ id ∧ id' = id ∧ data' = data ∧ op.nonblocking = nonblock)
    : AtomicInv (ops ++ [op]) (es ++ [(wroteSection { s with next := next } id data ret r).1])
      (wroteSection { s with next := next } id data ret r).2 := by
  have htag := wroteSection_tagged { s with next := next } id data ret r
  refine ⟨?_, ?_, ?_, ?_, ?_⟩
  · intro id' c hc
    rcases wroteSection_calls hc with ⟨rfl, -, -⟩ | ⟨-, hc⟩
    · exact hid
    · exact (h.call_lt id' c hc).trans_le hnext
  · rw [taggedStream_append]
    refine forall_mem_append.mpr ⟨fun x hx => (h.fresh x hx).trans_le hnext, fun x hx => ?_⟩
    rw [htag x hx]
    exact hid
  · intro id' data' c hc hsmall
    rw [taggedStream_append]
    rcases wroteSection_calls hc with ⟨rfl, hstatus, heq⟩ | ⟨hne, hc⟩
    · cases heq
      obtain rfl := hret hsmall
      rcases hwhole hsmall with ⟨-, hdone⟩ | ⟨hzero, -, hasleep⟩
      · rw [hdone] at hstatus
        cases hstatus
      · obtain ⟨htotal, hblock, hfalse⟩ := hasleep hstatus
        refine ⟨⟨hzero, htotal, hsmall⟩, hblock.trans hfalse, ?_⟩
        rw [wroteSection_zero_tagged, hzero, take_zero, map_nil, append_nil]
        exact h.absent hlive hsmall
    · obtain ⟨hnotBegun, hblock, hothers⟩ := h.asleep id' data' c hc hsmall
      refine ⟨hnotBegun, hblock, forall_mem_append.mpr ⟨hothers, fun x hx => ?_⟩⟩
      rw [htag x hx]
      exact hne.symm
  · intro op' hop' id' data' hdata
    rcases mem_append.mp hop' with hold | hnew
    · obtain ⟨hlt, hsleep⟩ := h.entered op' hold id' data' hdata
      refine ⟨hlt.trans_le hnext, fun data'' c hc => ?_⟩
      rcases wroteSection_calls hc with ⟨rfl, -, heq⟩ | ⟨-, hc⟩
      · cases heq
        rcases hlive with hge | ⟨c', hc'⟩
        · omega
        · exact hsleep data c' hc'
      · exact hsleep data'' c hc
    · rw [mem_singleton.mp hnew] at hdata
      obtain ⟨hge, rfl, rfl, -⟩ := hop id' data' hdata
      refine ⟨hid, fun data'' c hc => ?_⟩
      rcases wroteSection_calls hc with ⟨-, -, heq⟩ | ⟨hne, -⟩
      · cases heq
        rfl
      · exact absurd rfl hne
  · intro op' hop' id' data' hdata hsmall
    rw [taggedStream_append]
    rcases mem_append.mp hop' with hold | hnew
    · obtain ⟨htogether, hnonblock⟩ := h.together op' hold id' data' hdata hsmall
      refine ⟨?_, fun hb => (hnonblock hb).append _⟩
      by_cases heq : id' = id
      · subst heq
        obtain ⟨hlt, hsleep⟩ := h.entered op' hold id' data' hdata
        rcases hlive with hge | ⟨c, hc⟩
        · omega
        · obtain rfl := hsleep data c hc
          obtain rfl := hret hsmall
          exact (hwhole hsmall).together (h.absent (.inr ⟨c, hc⟩) hsmall)
      · refine htogether.append fun x hx => ?_
        rw [htag x hx]
        exact Ne.symm heq
    · rw [mem_singleton.mp hnew] at hdata
      obtain ⟨hge, rfl, rfl, hblock⟩ := hop id' data' hdata
      obtain rfl := hret hsmall
      refine ⟨(hwhole hsmall).together (h.absent hlive hsmall), fun hb => ?_⟩
      rw [mem_singleton.mp hnew, hblock] at hb
      subst hb
      exact (hwhole hsmall).allOrNone

theorem AtomicInv.pipeStep (h : AtomicInv ops es s) {p : PipeEvent α × PipeSystem α}
    (hstep : pipeStep s op = some p) : AtomicInv (ops ++ [op]) (es ++ [p.1]) p.2 := by
  -- the calls after a section of a reader
  have hreader : ∀ {id next : Nat} {ret : Nat} {r : Ran (ReadCall α) α} {op : PipeOp α}, op.writes = none →
      s.next ≤ next → id < next → AtomicInv (ops ++ [op])
        (es ++ [(readSection { s with next := next } id ret r).1]) (readSection { s with next := next } id ret r).2 := by
    intro id next ret r op hop hnext hid
    refine h.other hop rfl hnext ?_ ?_
    · intro id' c hc
      rcases calls_update hc with ⟨rfl, -⟩ | ⟨-, hc⟩
      · exact hid
      · exact (h.call_lt id' c hc).trans_le hnext
    · intro id' data c hc
      rcases calls_update hc with ⟨rfl, hx⟩ | ⟨-, hc⟩
      · split at hx
        · cases hx
        · cases hx
      · exact hc
  have henabled := enabled_of_pipeStep hstep
  cases op with
  | write id iov nonblock merge env signal =>
    have hge : s.next ≤ id := henabled
    rw [Linux.pipeStep, if_neg (not_lt.mpr hge)] at hstep
    obtain ⟨r, hr, rfl⟩ := Option.map_eq_some_iff.mp hstep
    refine h.wrote (.inl hge) (hge.trans (le_succ id)) (lt_succ_self id) (fun _ => rfl)
      (fun hsmall => pipeWrite_small hsmall hr) ?_
    rintro id' data' ⟨⟩
    exact ⟨hge, rfl, rfl, rfl⟩
  | read id iov nonblock env signal =>
    have hge : s.next ≤ id := henabled
    rw [Linux.pipeStep, if_neg (not_lt.mpr hge)] at hstep
    obtain ⟨r, -, rfl⟩ := Option.map_eq_some_iff.mp hstep
    exact hreader rfl (hge.trans (le_succ id)) (lt_succ_self id)
  | wakeWriter id env signal =>
    obtain ⟨data, c, hc⟩ := henabled
    simp only [Linux.pipeStep, hc] at hstep
    obtain ⟨r, hr, rfl⟩ := Option.map_eq_some_iff.mp hstep
    refine h.wrote (.inr ⟨c, hc⟩) le_rfl (h.call_lt id _ hc) (fun hsmall => (h.asleep id data c hc hsmall).1.ret)
      (fun hsmall => writeLoop_small (h.asleep id data c hc hsmall).1 hr) ?_
    rintro id' data' ⟨⟩
  | wakeReader id env signal =>
    obtain ⟨c, hc⟩ := henabled
    simp only [Linux.pipeStep, hc] at hstep
    obtain ⟨r, -, rfl⟩ := Option.map_eq_some_iff.mp hstep
    exact hreader rfl le_rfl (h.call_lt id _ hc)
  | setEnds readers writers =>
    cases hstep
    exact h.other rfl rfl le_rfl h.call_lt fun _ _ _ hc => hc

/-- No copy faults, and there are pages. -/
def NoFaults : PipeOp α → Prop
  | .write _ _ _ merge env _ => merge = none ∧ ∀ i, (env i).fault = none ∧ (env i).alloc.isSome = true
  | .read _ _ _ env _ => ∀ i, env i = none
  | .wakeWriter _ env _ => ∀ i, (env i).fault = none ∧ (env i).alloc.isSome = true
  | .wakeReader _ env _ => ∀ i, env i = none
  | .setEnds _ _ => True

theorem earlyFault_of_eq_none {fault : Option (Fault α)} (h : fault = none) : EarlyFault fault := by
  intro f hf
  rw [h] at hf
  cases hf

theorem NoFaults.early (h : NoFaults op) : EarlyFaults op := by
  cases op with
  | write id iov nonblock merge env signal =>
    exact ⟨earlyFault_of_eq_none h.1, fun i => earlyFault_of_eq_none (h.2 i).1⟩
  | read id iov nonblock env signal => exact fun i => earlyFault_of_eq_none (h i)
  | wakeWriter id env signal => exact fun i => earlyFault_of_eq_none (h i).1
  | wakeReader id env signal => exact fun i => earlyFault_of_eq_none (h i)
  | setEnds readers writers => trivial

theorem map_taggedStream (es : List (PipeEvent α)) : (taggedStream es).map Prod.snd = writtenStream es := by
  rw [taggedStream, map_flatMap, writtenStream]
  congr 1
  funext e
  cases e with
  | wrote id moved status => exact (map_map).trans (map_id moved)
  | got id moved status => rfl
  | ends => rfl

/-- **Small writes are atomic.** However calls take turns, without faults and with pages: the bytes of a
write of at most a page are in one piece of the stream that the readers get, or none of them are in it; and
if the write must not sleep, it has returned with all its bytes moved or with none. -/
theorem small_writes_atomic {s₀ s : PipeSystem α} {ops : List (PipeOp α)} {es : List (PipeEvent α)} (h : Idle s₀)
    (hfaults : ∀ op ∈ ops, NoFaults op) (hrun : Runs.run pipeStep s₀ ops = some (es, s)) :
    (taggedStream es).map Prod.snd = readStream es ++ s.pipe.unread ∧
      ∀ op ∈ ops, ∀ id data, op.writes = some (id, data) → data.length ≤ pageSize →
        Together id data (taggedStream es) ∧ (op.nonblocking = true → AllOrNone id data es) := by
  have hfifo := fifoInv_of_run h (fun op hop => (hfaults op hop).early) hrun
  have hempty : AtomicInv [] [] s₀ := by
    refine ⟨?_, nofun, ?_, nofun, nofun⟩
    · intro id c hc
      rw [h.calls id] at hc
      cases hc
    · intro id data c hc
      rw [h.calls id] at hc
      cases hc
  have hatomic : AtomicInv ops es s :=
    Runs.run_trace (fun os rs s op p hinv _ hstep => hinv.pipeStep hstep) hempty hfaults hrun
  exact ⟨(map_taggedStream es).trans hfifo.stream, hatomic.together⟩

/-- A write of two bytes, one of one byte that is merged with it, one that must not sleep, and a read. -/
def mergedOps : List (PipeOp Nat) :=
  [.write 0 [[1], [2]] false none plainEnv false, .write 1 [[3]] false none plainEnv false,
    .write 2 [[4, 5]] true none plainEnv false, .read 3 [4] false (fun _ => none) false]

/-- The hypotheses are met by these calls. -/
theorem small_writes_atomic_merged :
    ∃ es s, Runs.run pipeStep emptyPipe mergedOps = some (es, s) ∧ readStream es = [1, 2, 3, 4] ∧
      s.pipe.unread = [5] ∧ AllOrNone 2 [4, 5] es := by
  have hidle : Idle emptyPipe := ⟨by decide, rfl, fun _ => rfl⟩
  have hfaults : ∀ op ∈ mergedOps, NoFaults op := by
    intro op hop
    simp only [mergedOps, mem_cons, not_mem_nil, or_false] at hop
    rcases hop with rfl | rfl | rfl | rfl
    · exact ⟨rfl, fun i => ⟨rfl, rfl⟩⟩
    · exact ⟨rfl, fun i => ⟨rfl, rfl⟩⟩
    · exact ⟨rfl, fun i => ⟨rfl, rfl⟩⟩
    · exact fun i => rfl
  have hrun : ∃ es s, Runs.run pipeStep emptyPipe mergedOps = some (es, s) ∧ readStream es = [1, 2, 3, 4] ∧
      s.pipe.unread = [5] := ⟨_, _, rfl, rfl, rfl⟩
  obtain ⟨es, s, hrun, hread, hunread⟩ := hrun
  have hatomic := (small_writes_atomic hidle hfaults hrun).2 (.write 2 [[4, 5]] true none plainEnv false)
    (by simp [mergedOps]) 2 [4, 5] rfl (by decide)
  exact ⟨es, s, hrun, hread, hunread, hatomic.2 rfl⟩

end Linux
