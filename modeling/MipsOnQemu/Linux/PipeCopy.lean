/-
# MipsOnQemu.Linux.PipeCopy -- what one section of a pipe call does

If a fault comes in the first segment that has bytes, the second copy does what the first one should have
done (`copyIn_spec`, `copyOut_spec`): nothing has been used up. Then a section of a writer puts the next
bytes it was given behind the unread ones (`pipeWrite_spec`), and a section of a reader takes the first of
the unread bytes (`pipeRead_spec`).
-/

import MipsOnQemu.Linux.Pipe

namespace Linux

open RingBuffer List Option Nat Pipe

variable {α : Type}

/-! ## Copies -/

/-- If there is a fault, it comes in the first segment that has bytes. -/
def EarlyFault (fault : Option (Fault α)) : Prop := ∀ f ∈ fault, f.after = 0

variable {fault : Option (Fault α)}

theorem EarlyFault.cases (h : EarlyFault fault) : fault = none ∨ ∃ left, faultNow fault = some left := by
  cases fault with
  | none => exact .inl rfl
  | some f => exact .inr ⟨f.left, by rw [faultNow, bind_some, if_pos (h f rfl)]⟩

theorem pipeIovCopyFromUser_ok {page : Nat → α} {dst len : Nat} {iov : List (List α)}
    (hlen : len ≤ iov.flatten.length) :
    ∃ iov', pipeIovCopyFromUser none page dst len iov = some ⟨true, store page dst (iov.flatten.take len), iov'⟩ ∧
      iov'.flatten = iov.flatten.drop len := by
  induction iov generalizing page dst len with
  | nil =>
    obtain rfl := le_zero.mp hlen
    exact ⟨[], by simp [pipeIovCopyFromUser], rfl⟩
  | cons seg iov ih =>
    rw [pipeIovCopyFromUser]
    by_cases hzero : len = 0
    · exact ⟨seg :: iov, by simp [hzero], by simp [hzero]⟩
    · rw [if_neg hzero]
      by_cases hempty : seg.length = 0
      · obtain ⟨iov', hcopy, hrest⟩ := @ih page dst len (by simpa [hempty] using hlen)
        obtain rfl := length_eq_zero_iff.mp hempty
        exact ⟨[] :: iov', by simp [hcopy], by simpa using hrest⟩
      · have htake : seg.take (min len seg.length) = seg.take len := by
          rw [← take_take, take_length]
        have hcount : (seg.take len).length = min len seg.length := length_take
        have hleft : len - min len seg.length = len - seg.length := by omega
        obtain ⟨iov', hcopy, hrest⟩ := @ih (store page dst (seg.take len)) (dst + min len seg.length)
          (len - seg.length) (by rw [flatten_cons, length_append] at hlen; omega)
        refine ⟨seg.drop len :: iov', ?_, ?_⟩
        · rw [if_neg hempty]
          have hdrop : seg.drop (min len seg.length) = seg.drop len := by
            rcases le_total len seg.length with hle | hge
            · rw [min_eq_left hle]
            · rw [min_eq_right hge, drop_length, drop_of_length_le hge]
          have hstore : store (store page dst (seg.take len)) (dst + min len seg.length)
              (iov.flatten.take (len - seg.length)) = store page dst ((seg :: iov).flatten.take len) := by
            rw [← hcount, store_append, flatten_cons, take_append]
          simp [faultNow, faultLater, htake, hleft, hcopy, hdrop, hstore]
        · rw [flatten_cons, hrest, flatten_cons, drop_append]

theorem pipeIovCopyFromUser_fault {left : List α} (hnow : faultNow fault = some left)
    {page : Nat → α} {dst len : Nat} {iov : List (List α)} (hpos : len ≠ 0) (hlen : len ≤ iov.flatten.length) :
    ∃ bytes, bytes.length ≤ len ∧
      pipeIovCopyFromUser fault page dst len iov = some ⟨false, store page dst bytes, iov⟩ := by
  induction iov with
  | nil => exact absurd (le_zero.mp hlen) hpos
  | cons seg iov ih =>
    rw [pipeIovCopyFromUser, if_neg hpos]
    by_cases hempty : seg.length = 0
    · obtain ⟨bytes, hbytes, hcopy⟩ := ih (by simpa [hempty] using hlen)
      exact ⟨bytes, hbytes, by rw [if_pos hempty, hcopy]; rfl⟩
    · refine ⟨left.take (min len seg.length), ?_, ?_⟩
      · rw [length_take]
        omega
      · rw [if_neg hempty]
        simp only [hnow]

theorem copyIn_spec (hfault : EarlyFault fault) {page : Nat → α} {dst len : Nat}
    {iov : List (List α)} (hpos : len ≠ 0) (hlen : len ≤ iov.flatten.length) :
    ∃ iov', copyIn fault page dst len iov = some (store page dst (iov.flatten.take len), iov') ∧
      iov'.flatten = iov.flatten.drop len := by
  rcases hfault.cases with rfl | ⟨left, hnow⟩
  · obtain ⟨iov', hcopy, hrest⟩ := @pipeIovCopyFromUser_ok α page dst len iov hlen
    exact ⟨iov', by rw [copyIn, hcopy]; rfl, hrest⟩
  · obtain ⟨bytes, hbytes, hcopy⟩ := @pipeIovCopyFromUser_fault α fault left hnow page dst len iov hpos hlen
    obtain ⟨iov', hagain, hrest⟩ := @pipeIovCopyFromUser_ok α (store page dst bytes) dst len iov hlen
    refine ⟨iov', ?_, hrest⟩
    -- what the fault has left is overwritten
    have hover : store (store page dst bytes) dst (iov.flatten.take len) = store page dst (iov.flatten.take len) :=
      store_store (by rwa [length_take, min_eq_left hlen])
    rw [copyIn, hcopy, bind_some, if_neg Bool.false_ne_true, hagain, map_some, hover]

theorem pipeIovCopyToUser_ok {bytes : List α} {iov : List Nat} (hlen : bytes.length ≤ iov.sum) :
    ∃ iov', pipeIovCopyToUser none bytes iov = some ⟨true, bytes, iov'⟩ ∧ iov'.sum = iov.sum - bytes.length := by
  induction iov generalizing bytes with
  | nil =>
    obtain rfl := length_eq_zero_iff.mp (le_zero.mp hlen)
    exact ⟨[], rfl, rfl⟩
  | cons size iov ih =>
    rw [pipeIovCopyToUser]
    rw [sum_cons] at hlen
    by_cases hzero : bytes.length = 0
    · obtain rfl := length_eq_zero_iff.mp hzero
      exact ⟨size :: iov, rfl, rfl⟩
    · rw [if_neg hzero]
      by_cases hempty : size = 0
      · obtain ⟨iov', hcopy, hrest⟩ := @ih bytes (by omega)
        refine ⟨size :: iov', by rw [if_pos hempty, hcopy]; rfl, ?_⟩
        rw [sum_cons, sum_cons, hrest]
        omega
      · have hdrop := length_drop (i := min bytes.length size) (l := bytes)
        obtain ⟨iov', hcopy, hrest⟩ := @ih (bytes.drop (min bytes.length size)) (by omega)
        refine ⟨(size - min bytes.length size) :: iov', ?_, ?_⟩
        · rw [if_neg hempty]
          simp [faultNow, faultLater, hcopy, take_append_drop]
        · rw [sum_cons, sum_cons, hrest]
          omega

theorem pipeIovCopyToUser_fault {left : List α} (hnow : faultNow fault = some left)
    {bytes : List α} {iov : List Nat} (hpos : bytes.length ≠ 0) (hlen : bytes.length ≤ iov.sum) :
    pipeIovCopyToUser fault bytes iov = some ⟨false, [], iov⟩ := by
  induction iov with
  | nil => exact absurd (le_zero.mp hlen) hpos
  | cons size iov ih =>
    rw [sum_cons] at hlen
    rw [pipeIovCopyToUser, if_neg hpos]
    by_cases hempty : size = 0
    · rw [if_pos hempty, ih (by omega)]
      rfl
    · rw [if_neg hempty]
      simp only [hnow]

theorem copyOut_spec (hfault : EarlyFault fault) {bytes : List α} {iov : List Nat}
    (hpos : bytes.length ≠ 0) (hlen : bytes.length ≤ iov.sum) :
    ∃ iov', copyOut fault bytes iov = some (bytes, iov') ∧ iov'.sum = iov.sum - bytes.length := by
  obtain ⟨iov', hcopy, hrest⟩ := pipeIovCopyToUser_ok hlen
  refine ⟨iov', ?_, hrest⟩
  rcases hfault.cases with rfl | ⟨left, hnow⟩
  · rw [copyOut, hcopy]
    rfl
  · rw [copyOut, pipeIovCopyToUser_fault hnow hpos hlen, bind_some, if_neg Bool.false_ne_true, hcopy]
    rfl

/-! ## The ring -/

def Pipe.buffers (pipe : Pipe α) : List (PipeBuffer α) := inUse pipeBuffers pipe.bufs pipe.curbuf pipe.nrbufs

def PipeBuffer.unread (buf : PipeBuffer α) : List α := slice buf.page buf.offset buf.len

def Pipe.unread (pipe : Pipe α) : List α := pipe.buffers.flatMap PipeBuffer.unread

/-- The ring is as it should be: the first buffer and the number of buffers are in range, and every buffer
in use has unread bytes, all within its page. -/
structure PipeOk (pipe : Pipe α) : Prop where
  curbuf_lt : pipe.curbuf < pipeBuffers
  nrbufs_le : pipe.nrbufs ≤ pipeBuffers
  buffer : ∀ buf ∈ pipe.buffers, 0 < buf.len ∧ buf.offset + buf.len ≤ pageSize

theorem and_pipeBuffers (x : Nat) : x &&& (pipeBuffers - 1) = x % pipeBuffers :=
  and_two_pow_sub_one_eq_mod x 4

variable {pipe pipe' : Pipe α} {ret : Nat} {data : List α} {c : WriteCall α} {signal : Bool}

theorem insertBuffer_spec (h : PipeOk pipe) (page : Nat → α) {chars : Nat} (hroom : pipe.nrbufs < pipeBuffers)
    (hpos : 0 < chars) (hle : chars ≤ pageSize) : PipeOk (insertBuffer pipe page chars) ∧
      (insertBuffer pipe page chars).unread = pipe.unread ++ slice page 0 chars := by
  have hbuffers : (insertBuffer pipe page chars).buffers = pipe.buffers ++ [⟨page, 0, chars⟩] := by
    rw [buffers, insertBuffer, and_pipeBuffers]
    exact inUse_update hroom _
  refine ⟨⟨h.curbuf_lt, hroom, ?_⟩, ?_⟩
  · intro buf hbuf
    rw [hbuffers, mem_append, mem_singleton] at hbuf
    rcases hbuf with hbuf | rfl
    · exact h.buffer buf hbuf
    · exact ⟨hpos, by simpa using hle⟩
  · rw [unread, hbuffers, flatMap_append, flatMap_singleton]
    rfl

theorem mergeBuffer_spec (h : PipeOk pipe) {bytes : List α} {buf : PipeBuffer α}
    (hused : pipe.nrbufs ≠ 0) (hbuf : pipe.bufs ((pipe.curbuf + pipe.nrbufs - 1) &&& (pipeBuffers - 1)) = buf)
    (hle : buf.offset + buf.len + bytes.length ≤ pageSize) :
    PipeOk (mergeBuffer pipe (store buf.page (buf.offset + buf.len) bytes) bytes.length) ∧
      (mergeBuffer pipe (store buf.page (buf.offset + buf.len) bytes) bytes.length).unread =
        pipe.unread ++ bytes := by
  obtain ⟨count, hcount⟩ := exists_eq_succ_of_ne_zero hused
  have hlast : (pipe.curbuf + pipe.nrbufs - 1) &&& (pipeBuffers - 1) = (pipe.curbuf + count) % pipeBuffers := by
    rw [and_pipeBuffers, hcount]
    rfl
  rw [hlast] at hbuf
  have hlt : count < pipeBuffers := by
    have hle := h.nrbufs_le
    omega
  have hold : pipe.buffers = inUse pipeBuffers pipe.bufs pipe.curbuf count ++ [buf] := by
    rw [buffers, hcount, inUse_last, hbuf]
  have hnew : (mergeBuffer pipe (store buf.page (buf.offset + buf.len) bytes) bytes.length).buffers =
      inUse pipeBuffers pipe.bufs pipe.curbuf count ++
        [{ buf with page := store buf.page (buf.offset + buf.len) bytes, len := buf.len + bytes.length }] := by
    rw [buffers, mergeBuffer, hlast, hbuf]
    change inUse pipeBuffers _ pipe.curbuf pipe.nrbufs = _
    rw [hcount]
    exact inUse_update hlt _
  have hunread : slice (store buf.page (buf.offset + buf.len) bytes) buf.offset (buf.len + bytes.length) =
      buf.unread ++ bytes := by
    rw [slice_add, slice_store, slice_store_before le_rfl]
    rfl
  refine ⟨⟨h.curbuf_lt, h.nrbufs_le, ?_⟩, ?_⟩
  · intro other hother
    rw [hnew, mem_append, mem_singleton] at hother
    rcases hother with hother | rfl
    · exact h.buffer other (hold ▸ mem_append_left _ hother)
    · have hpos := (h.buffer buf (hold ▸ mem_append_right _ (mem_singleton_self buf))).1
      exact ⟨Nat.add_pos_left hpos _, by rwa [← Nat.add_assoc]⟩
  · rw [unread, hnew, flatMap_append, flatMap_singleton, PipeBuffer.unread, hunread, unread,
      hold, flatMap_append, flatMap_singleton, append_assoc]

theorem consumeBuffer_spec (h : PipeOk pipe) {buf : PipeBuffer α} {chars : Nat}
    (hused : pipe.nrbufs ≠ 0) (hbuf : pipe.bufs pipe.curbuf = buf) (hle : chars ≤ buf.len) :
    PipeOk (consumeBuffer pipe chars) ∧
      pipe.unread = slice buf.page buf.offset chars ++ (consumeBuffer pipe chars).unread ∧
      (chars = buf.len → (consumeBuffer pipe chars).nrbufs + 1 = pipe.nrbufs) := by
  obtain ⟨count, hcount⟩ := exists_eq_succ_of_ne_zero hused
  have hlt : count < pipeBuffers := by
    have hle := h.nrbufs_le
    omega
  have hcur : pipe.curbuf % pipeBuffers = pipe.curbuf := mod_eq_of_lt h.curbuf_lt
  have hold : pipe.buffers = buf :: inUse pipeBuffers pipe.bufs ((pipe.curbuf + 1) % pipeBuffers) count := by
    rw [buffers, hcount, inUse_succ, hcur, hbuf]
  have hbufOk := h.buffer buf (hold ▸ mem_cons_self)
  have hsplit : buf.unread = slice buf.page buf.offset chars ++ slice buf.page (buf.offset + chars) (buf.len - chars) := by
    rw [← slice_add, Nat.add_sub_cancel' hle]
    rfl
  rw [consumeBuffer, hbuf]
  dsimp only
  split
  · rename_i hempty
    have hnew : (inUse pipeBuffers (Function.update pipe.bufs pipe.curbuf
        { buf with offset := buf.offset + chars, len := buf.len - chars })
        ((pipe.curbuf + 1) % pipeBuffers) count) =
          inUse pipeBuffers pipe.bufs ((pipe.curbuf + 1) % pipeBuffers) count :=
      inUse_update_head hlt h.curbuf_lt _
    rw [and_pipeBuffers, hcount, succ_sub_one]
    refine ⟨⟨mod_lt _ (by decide), hlt.le, ?_⟩, ?_, fun _ => rfl⟩
    · intro other hother
      rw [buffers, hnew] at hother
      exact h.buffer other (hold ▸ mem_cons_of_mem _ hother)
    · have hall : buf.unread = slice buf.page buf.offset chars := by
        rw [hsplit, hempty]
        exact append_nil _
      rw [unread, hold, flatMap_cons, hall, unread, buffers, hnew]
  · rename_i hrest
    have hnew : (inUse pipeBuffers (Function.update pipe.bufs pipe.curbuf
        { buf with offset := buf.offset + chars, len := buf.len - chars }) pipe.curbuf pipe.nrbufs) =
          { buf with offset := buf.offset + chars, len := buf.len - chars } ::
            inUse pipeBuffers pipe.bufs ((pipe.curbuf + 1) % pipeBuffers) count := by
      rw [hcount, inUse_succ, hcur, Function.update_self, inUse_update_head hlt h.curbuf_lt]
    refine ⟨⟨h.curbuf_lt, h.nrbufs_le, ?_⟩, ?_, fun heq => by omega⟩
    · intro other hother
      rw [buffers, hnew, mem_cons] at hother
      rcases hother with rfl | hother
      · dsimp only
        omega
      · exact h.buffer other (hold ▸ mem_cons_of_mem _ hother)
    · rw [unread, hold, flatMap_cons, hsplit, unread, buffers, hnew, flatMap_cons, append_assoc]
      rfl

/-! ## Writers -/

/-- The bytes that a call has moved, as its caller is told. -/
def movedOf : Except PipeError Nat → Nat
  | .ok n => n
  | .error _ => 0

theorem movedOf_retOr (e : PipeError) (ret : Nat) : movedOf (retOr e ret) = ret := by
  rw [retOr]
  split
  · rename_i hzero
    exact hzero.symm
  · rfl

theorem movedOf_of_retOr {e : PipeError} {v : Except PipeError Nat} (h : some (retOr e ret) = some v) :
    movedOf v = ret := by
  rw [← some.inj h, movedOf_retOr]

/-- The variables of a writer that has moved `ret` bytes of `data`. -/
structure WritePending (data : List α) (c : WriteCall α) : Prop where
  flatten : c.iov.flatten = data.drop c.ret
  total : c.totalLen + c.ret = data.length
  pos : 0 < c.totalLen

/-- What a section of a writer does. -/
structure WroteOk (data : List α) (ret : Nat) (pipe : Pipe α) (r : Ran (WriteCall α) α) : Prop where
  ok : PipeOk r.pipe
  le : ret ≤ r.call.ret
  le_data : r.call.ret ≤ data.length
  unread : r.pipe.unread = pipe.unread ++ between ret r.call.ret data
  asleep : r.status = none → WritePending data r.call
  returned : ∀ v, r.status = some v → movedOf v = r.call.ret

theorem between_self (n : Nat) (bytes : List α) : between n n bytes = [] := by
  rw [between, Nat.sub_self, take_zero]

theorem between_append {a b c : Nat} (hab : a ≤ b) (hbc : b ≤ c) (bytes : List α) :
    between a b bytes ++ between b c bytes = between a c bytes := by
  have hsplit : c - a = (b - a) + (c - b) := by omega
  rw [between, between, between, hsplit, take_add, drop_drop, Nat.add_sub_cancel' hab]

theorem between_zero (n : Nat) (bytes : List α) : between 0 n bytes = bytes.take n := rfl

theorem WroteOk.idle {status : Option (Except PipeError Nat)} (hpipe : PipeOk pipe')
    (hunread : pipe'.unread = pipe.unread) (hc : WritePending data c)
    (hstatus : ∀ v, status = some v → movedOf v = c.ret) : WroteOk data c.ret pipe ⟨status, c, pipe'⟩ where
  ok := hpipe
  le := le_rfl
  le_data := by
    have htotal := hc.total
    dsimp only
    omega
  unread := by rw [hunread, between_self, append_nil]
  asleep := fun _ => hc
  returned := hstatus

theorem WroteOk.trans {r : Ran (WriteCall α) α} (hle : ret ≤ c.ret)
    (hunread : pipe'.unread = pipe.unread ++ between ret c.ret data) (h : WroteOk data c.ret pipe' r) :
    WroteOk data ret pipe r where
  ok := h.ok
  le := hle.trans h.le
  le_data := h.le_data
  unread := by rw [h.unread, hunread, append_assoc, between_append hle h.le]
  asleep := h.asleep
  returned := h.returned

theorem writeWait_spec (hpipe : PipeOk pipe) (hc : WritePending data c) :
    WroteOk data c.ret pipe (writeWait signal pipe c) := by
  rw [writeWait]
  split
  · exact .idle hpipe rfl hc (fun _ => movedOf_of_retOr)
  · split
    · exact .idle hpipe rfl hc (fun _ => movedOf_of_retOr)
    · exact .idle ⟨hpipe.curbuf_lt, hpipe.nrbufs_le, hpipe.buffer⟩ rfl hc nofun

theorem WritePending.advance (hc : WritePending data c) {chars : Nat} {iov : List (List α)}
    (hiov : iov.flatten = c.iov.flatten.drop chars) (hle : chars ≤ c.totalLen) :
    c.iov.flatten.take chars = between c.ret (c.ret + chars) data ∧ (c.totalLen - chars ≠ 0 →
        WritePending data { c with iov := iov, ret := c.ret + chars, totalLen := c.totalLen - chars }) := by
  obtain ⟨hflatten, htotal, hpos⟩ := hc
  constructor
  · rw [hflatten, between, Nat.add_sub_cancel_left]
  · intro hrest
    refine ⟨?_, ?_, pos_of_ne_zero hrest⟩
    · rw [hiov, hflatten, drop_drop]
    · dsimp only
      omega

theorem WritePending.length_iov (hc : WritePending data c) : c.iov.flatten.length = c.totalLen := by
  have htotal := hc.total
  rw [hc.flatten, length_drop]
  omega

theorem WroteOk.done {n : Nat} (hpipe : PipeOk pipe') (hn : c.ret = n) (hle : ret ≤ n)
    (hdata : n = data.length) (hunread : pipe'.unread = pipe.unread ++ between ret n data) :
    WroteOk data ret pipe ⟨some (.ok n), c, pipe'⟩ := by
  subst hn
  refine ⟨hpipe, hle, hdata.le, hunread, ?_, ?_⟩
  · intro hnone
    cases hnone
  · rintro v ⟨⟩
    rfl

theorem writeLoop_spec {data : List α} {env : Nat → CopyEnv α} {signal : Bool}
    (henv : ∀ i, EarlyFault (env i).fault) {rounds i : Nat} {pipe : Pipe α} {c : WriteCall α} (hpipe : PipeOk pipe)
    (hc : WritePending data c) (hrounds : pipeBuffers - pipe.nrbufs < rounds) :
    ∃ r, writeLoop env signal rounds i pipe c = some r ∧ WroteOk data c.ret pipe r := by
  -- each round but the last fills a buffer
  induction rounds generalizing i pipe c with
  | zero => omega
  | succ rounds ih =>
    rw [writeLoop]
    split
    · exact ⟨_, rfl, .idle hpipe rfl hc (fun _ => movedOf_of_retOr)⟩
    split
    · rename_i hroom
      cases pipe.tmpPage.or (env i).alloc with
      | none => exact ⟨_, rfl, .idle hpipe rfl hc (fun _ => movedOf_of_retOr)⟩
      | some page =>
        have hpos := hc.pos
        have hchars : min pageSize c.totalLen ≠ 0 := by
          have hpage : 0 < pageSize := by decide
          omega
        have hlen : min pageSize c.totalLen ≤ c.iov.flatten.length := by
          rw [hc.length_iov]
          exact min_le_right _ _
        obtain ⟨iov, hcopy, hiov⟩ := @copyIn_spec α _ (henv i) page 0 _ c.iov hchars hlen
        obtain ⟨hmoved, hadvance⟩ := hc.advance hiov (min_le_right _ _)
        generalize hn : min pageSize c.totalLen = chars at *
        have hsize : (c.iov.flatten.take chars).length = chars := by
          rw [length_take, min_eq_left hlen]
        obtain ⟨hpipe', hunread⟩ := insertBuffer_spec hpipe (store page 0 (c.iov.flatten.take chars)) hroom
          (pos_of_ne_zero hchars) (by omega)
        have hslice : slice (store page 0 (c.iov.flatten.take chars)) 0 chars = between c.ret (c.ret + chars) data := by
          have hread := slice_store page 0 (c.iov.flatten.take chars)
          rw [hsize] at hread
          exact hread.trans hmoved
        rw [hslice] at hunread
        dsimp only
        rw [hcopy, bind_some]
        dsimp only
        have htotal := hc.total
        split
        · have hall : c.ret + chars = data.length := by omega
          exact ⟨_, rfl, .done hpipe' rfl (le_add_right _ _) hall hunread⟩
        rename_i hrest
        have hc' := hadvance hrest
        split
        · obtain ⟨r, hr, hok⟩ := @ih (i + 1) _ _ hpipe' hc' (by dsimp only [insertBuffer]; omega)
          exact ⟨r, hr, hok.trans (le_add_right _ _) hunread⟩
        · exact ⟨_, rfl, (writeWait_spec hpipe' hc').trans (le_add_right _ _) hunread⟩
    · exact ⟨_, rfl, writeWait_spec hpipe hc⟩

theorem pipeWrite_spec {iov : List (List α)} {nonblock : Bool} {merge : Option (Fault α)} {env : Nat → CopyEnv α}
    (hmerge : EarlyFault merge) (henv : ∀ i, EarlyFault (env i).fault) (hpipe : PipeOk pipe) :
    ∃ r, pipeWrite merge env signal pipe ⟨iov, iov.flatten.length, 0, nonblock⟩ = some r ∧
      WroteOk iov.flatten 0 pipe r := by
  rw [pipeWrite]
  by_cases hzero : iov.flatten.length = 0
  · refine ⟨_, if_pos hzero, .done hpipe rfl le_rfl hzero.symm ?_⟩
    rw [between_self, append_nil]
  rw [if_neg hzero]
  have hc : WritePending iov.flatten ⟨iov, iov.flatten.length, 0, nonblock⟩ :=
    ⟨rfl, rfl, pos_of_ne_zero hzero⟩
  split
  · refine ⟨_, rfl, .idle hpipe rfl hc ?_⟩
    rintro v ⟨⟩
    rfl
  dsimp only
  generalize hbuf : pipe.bufs ((pipe.curbuf + pipe.nrbufs - 1) &&& (pipeBuffers - 1)) = buf
  have hchars : iov.flatten.length &&& (pageSize - 1) ≤ iov.flatten.length := and_le_left
  generalize iov.flatten.length &&& (pageSize - 1) = chars at *
  have hrounds : ∀ p : Pipe α, pipeBuffers - p.nrbufs < pipeBuffers + 1 := fun p => by omega
  split
  · rename_i hmergeable
    obtain ⟨hused, hpos, hfits⟩ := hmergeable
    obtain ⟨iov', hcopy, hiov'⟩ := @copyIn_spec α _ hmerge buf.page (buf.offset + buf.len) _ iov hpos hchars
    obtain ⟨hmoved, hadvance⟩ := hc.advance hiov' hchars
    rw [zero_add] at hmoved hadvance
    have hsize : (iov.flatten.take chars).length = chars := by
      rw [length_take, min_eq_left hchars]
    obtain ⟨hpipe', hunread⟩ := @mergeBuffer_spec α pipe hpipe (iov.flatten.take chars) buf hused hbuf
      (by rwa [hsize])
    rw [hsize] at hpipe' hunread
    rw [show iov.flatten.take chars = between 0 chars iov.flatten from hmoved] at hunread
    rw [hcopy, bind_some]
    dsimp only
    rw [show iov.flatten.take chars = between 0 chars iov.flatten from hmoved] at hpipe' ⊢
    split
    · rename_i hempty
      have hall : chars = iov.flatten.length := Nat.le_antisymm hchars (Nat.sub_eq_zero_iff_le.mp hempty)
      exact ⟨_, rfl, .done hpipe' rfl (zero_le _) hall hunread⟩
    · rename_i hrest
      obtain ⟨r, hr, hok⟩ := writeLoop_spec henv hpipe' (hadvance hrest) (hrounds _)
      exact ⟨r, hr, hok.trans (zero_le _) hunread⟩
  · exact writeLoop_spec henv hpipe hc (hrounds _)

theorem pipeWriteWoken_spec {env : Nat → CopyEnv α} (henv : ∀ i, EarlyFault (env i).fault) (hpipe : PipeOk pipe)
    (hc : WritePending data c) :
    ∃ r, pipeWriteWoken env signal pipe c = some r ∧ WroteOk data c.ret pipe r := by
  have hpipe' : PipeOk { pipe with waitingWriters := pipe.waitingWriters - 1 } :=
    ⟨hpipe.curbuf_lt, hpipe.nrbufs_le, hpipe.buffer⟩
  obtain ⟨r, hr, hok⟩ := @writeLoop_spec α data env signal henv (pipeBuffers + 1) 0 _ c hpipe' hc (by omega)
  exact ⟨r, hr, hok.ok, hok.le, hok.le_data, hok.unread, hok.asleep, hok.returned⟩

/-! ## Readers -/

/-- The variables of a reader. -/
structure ReadPending (c : ReadCall α) : Prop where
  sum : c.iov.sum = c.totalLen
  pos : 0 < c.totalLen
  arrived : c.arrived.length = c.ret

/-- What a section of a reader does, which had got `before`. -/
structure ReadOk (before : List α) (pipe : Pipe α) (r : Ran (ReadCall α) α) : Prop where
  ok : PipeOk r.pipe
  arrived : r.call.arrived.length = r.call.ret
  flow : ∃ moved, r.call.arrived = before ++ moved ∧ pipe.unread = moved ++ r.pipe.unread
  asleep : r.status = none → ReadPending r.call
  returned : ∀ v, r.status = some v → movedOf v = r.call.ret

variable {c : ReadCall α}

theorem readWait_spec (hpipe : PipeOk pipe) (hc : ReadPending c) :
    ReadOk c.arrived pipe (readWait signal pipe c) := by
  have hidle : ∀ status, (∀ v, status = some v → movedOf v = c.ret) → ReadOk c.arrived pipe ⟨status, c, pipe⟩ :=
    fun status hstatus => ⟨hpipe, hc.arrived, ⟨[], (append_nil _).symm, rfl⟩, fun _ => hc, hstatus⟩
  rw [readWait]
  split
  · exact hidle _ (by rintro v ⟨⟩; rfl)
  split
  · exact hidle _ (by rintro v ⟨⟩; rfl)
  split
  · rename_i hret hblock
    refine hidle _ ?_
    rintro v ⟨⟩
    -- without a sleeping writer the call does not get here with some bytes
    by_contra hne
    exact hret ⟨hblock.1, fun h0 => hne h0.symm⟩
  split
  · exact hidle _ fun _ => movedOf_of_retOr
  · exact hidle _ (by rintro v ⟨⟩)

variable {env : Nat → Option (Fault α)}

theorem readLoop_spec (henv : ∀ i, EarlyFault (env i)) {rounds i : Nat}
    (hpipe : PipeOk pipe) (hc : ReadPending c) (hrounds : pipe.nrbufs < rounds) :
    ∃ r, readLoop env signal rounds i pipe c = some r ∧ ReadOk c.arrived pipe r := by
  -- each round but the last empties a buffer
  induction rounds generalizing i pipe c with
  | zero => omega
  | succ rounds ih =>
    rw [readLoop]
    split
    · rename_i hused
      dsimp only
      generalize hbuf : pipe.bufs pipe.curbuf = buf
      have hlen : 0 < buf.len := by
        obtain ⟨count, hcount⟩ := exists_eq_succ_of_ne_zero hused
        refine (hpipe.buffer buf ?_).1
        rw [buffers, hcount, inUse_succ, mod_eq_of_lt hpipe.curbuf_lt, hbuf]
        exact mem_cons_self
      have hpos := hc.pos
      have hsum := hc.sum
      generalize hn : min buf.len c.totalLen = chars
      obtain ⟨hpipe', hunread, hnext⟩ := @consumeBuffer_spec α pipe hpipe buf chars hused hbuf (by omega)
      obtain ⟨iov, hcopy, hiov⟩ := @copyOut_spec α _ (henv i) (slice buf.page buf.offset chars) c.iov
        (by rw [length_slice]; omega) (by rw [length_slice]; omega)
      rw [length_slice] at hiov
      rw [hcopy, bind_some]
      dsimp only
      have harrived : (c.arrived ++ slice buf.page buf.offset chars).length = c.ret + chars := by
        rw [length_append, length_slice, hc.arrived]
      split
      · refine ⟨_, rfl, hpipe', harrived, ⟨_, rfl, hunread⟩, ?_, ?_⟩
        · intro hnone
          cases hnone
        · rintro v ⟨⟩
          rfl
      rename_i hrest
      have hc' : ReadPending { c with
          iov := iov, arrived := c.arrived ++ slice buf.page buf.offset chars, ret := c.ret + chars,
          totalLen := c.totalLen - chars } := ⟨by dsimp only; omega, pos_of_ne_zero hrest, harrived⟩
      -- the bytes of this round, and those of the others
      have hflow : ∀ r, ReadOk (c.arrived ++ slice buf.page buf.offset chars) (consumeBuffer pipe chars) r →
          ReadOk c.arrived pipe r := by
        rintro r ⟨hok, hlength, ⟨moved, hmoved, hleft⟩, hasleep, hreturned⟩
        refine ⟨hok, hlength, ⟨slice buf.page buf.offset chars ++ moved, ?_, ?_⟩, hasleep, hreturned⟩
        · rw [hmoved, append_assoc]
        · rw [hunread, hleft, append_assoc]
      split
      · have hless := hnext (by omega)
        obtain ⟨r, hr, hok⟩ := ih (i := i + 1) hpipe' hc' (by omega)
        exact ⟨r, hr, hflow r hok⟩
      · exact ⟨_, rfl, hflow _ (readWait_spec hpipe' hc')⟩
    · exact ⟨_, rfl, readWait_spec hpipe hc⟩

theorem pipeReadWoken_spec (henv : ∀ i, EarlyFault (env i)) (hpipe : PipeOk pipe) (hc : ReadPending c) :
    ∃ r, pipeReadWoken env signal pipe c = some r ∧ ReadOk c.arrived pipe r :=
  readLoop_spec henv hpipe hc (lt_succ_of_le hpipe.nrbufs_le)

theorem pipeRead_spec {iov : List Nat} {nonblock : Bool} (henv : ∀ i, EarlyFault (env i)) (hpipe : PipeOk pipe) :
    ∃ r, pipeRead env signal pipe ⟨iov, [], iov.sum, 0, nonblock⟩ = some r ∧ ReadOk [] pipe r := by
  rw [pipeRead]
  split
  · refine ⟨_, rfl, hpipe, rfl, ⟨[], rfl, rfl⟩, ?_, ?_⟩
    · intro hnone
      cases hnone
    · rintro v ⟨⟩
      rfl
  · rename_i hpos
    exact pipeReadWoken_spec henv hpipe ⟨rfl, pos_of_ne_zero hpos, rfl⟩

end Linux
