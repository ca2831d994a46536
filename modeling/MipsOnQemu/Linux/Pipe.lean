/-
# MipsOnQemu.Linux.Pipe -- pipes

`fs/pipe.c`. A pipe is a ring of buffers of one page each. A writer first tries to put the odd part of what
it has behind the last buffer's bytes, then fills one buffer after another, and sleeps when the ring is
full; a reader empties the buffers from the first one on, and sleeps when there are none. Both hold the
pipe's mutex but for the time they sleep, so a call is a sequence of sections under the mutex, and the
sections of several calls may follow each other in any order (`pipeStep`).

User memory is reached through a list of segments, which the copy functions use up as they go. An atomic
copy may stop with a fault; it is then made once more with the same length, not atomically. What it has
used up before it stopped is not given back.
-/

import MipsOnQemu.Lib.RingBuffer
import MipsOnQemu.Lib.Runs
import MipsOnQemu.Linux.Bootmem

namespace Linux

open RingBuffer Function

/-! ## Copying -/

/-- A fault in an atomic copy: after how many segments it comes, and what it leaves in memory where the
next one should have gone. -/
structure Fault (α : Type) where
  after : Nat
  left : List α

section Copy

variable {α : Type}

/-- Does the fault come now? Then what it leaves. -/
def faultNow (fault : Option (Fault α)) : Option (List α) :=
  fault.bind fun f => if f.after = 0 then some f.left else none

/-- The fault, seen from the next segment. -/
def faultLater (fault : Option (Fault α)) : Option (Fault α) :=
  fault.map fun f => { f with after := f.after - 1 }

/-- What a copy function returns: 0 or `-EFAULT`, what it has written, and what is left of the segments. -/
structure Copied (β γ : Type) where
  ok : Bool
  dest : β
  iov : γ

/-- `pipe_iov_copy_from_user`: the page from `dst` on, and the segments, after copying `len` bytes. There is
no result if the segments come to an end before that. -/
def pipeIovCopyFromUser :
    Option (Fault α) → (Nat → α) → Nat → Nat → List (List α) → Option (Copied (Nat → α) (List (List α)))
  | _, page, _, len, [] => if len = 0 then some ⟨true, page, []⟩ else none
  | fault, page, dst, len, seg :: iov =>
    if len = 0 then some ⟨true, page, seg :: iov⟩
    else if seg.length = 0 then
      -- `while (!iov->iov_len) iov++`
      (pipeIovCopyFromUser fault page dst len iov).map fun r => { r with iov := seg :: r.iov }
    else
      let copy := min len seg.length
      match faultNow fault with
      | some left => some ⟨false, store page dst (left.take copy), seg :: iov⟩
      | none =>
        (pipeIovCopyFromUser (faultLater fault) (store page dst (seg.take copy)) (dst + copy) (len - copy) iov).map
          fun r => { r with iov := seg.drop copy :: r.iov }

/-- `pipe_iov_copy_to_user`: the bytes that have arrived in the segments, one after another, and the sizes
of what is left of them. What a fault leaves in user memory is not counted. -/
def pipeIovCopyToUser : Option (Fault α) → List α → List Nat → Option (Copied (List α) (List Nat))
  | _, bytes, [] => if bytes.length = 0 then some ⟨true, [], []⟩ else none
  | fault, bytes, size :: iov =>
    if bytes.length = 0 then some ⟨true, [], size :: iov⟩
    else if size = 0 then
      (pipeIovCopyToUser fault bytes iov).map fun r => { r with iov := size :: r.iov }
    else
      let copy := min bytes.length size
      match faultNow fault with
      | some _ => some ⟨false, [], size :: iov⟩
      | none =>
        (pipeIovCopyToUser (faultLater fault) (bytes.drop copy) iov).map fun r =>
          { r with dest := bytes.take copy ++ r.dest, iov := (size - copy) :: r.iov }

/-- The labels `redo1` and `redo2` of `pipe_write`: an atomic copy, and if it fails another one with the
same length, which does not fail. -/
def copyIn (fault : Option (Fault α)) (page : Nat → α) (dst len : Nat) (iov : List (List α)) :
    Option ((Nat → α) × List (List α)) :=
  (pipeIovCopyFromUser fault page dst len iov).bind fun r =>
    if r.ok then some (r.dest, r.iov)
    else (pipeIovCopyFromUser none r.dest dst len r.iov).map fun r => (r.dest, r.iov)

/-- The label `redo` of `pipe_read`. -/
def copyOut (fault : Option (Fault α)) (bytes : List α) (iov : List Nat) : Option (List α × List Nat) :=
  (pipeIovCopyToUser fault bytes iov).bind fun r =>
    if r.ok then some (r.dest, r.iov)
    else (pipeIovCopyToUser none bytes r.iov).map fun r' => (r.dest ++ r'.dest, r'.iov)

end Copy

/-! ## A pipe -/

def pipeBuffers : Nat := 16

/-- `struct pipe_buffer`: a page, and the part of it that has not been read. -/
structure PipeBuffer (α : Type) where
  page : Nat → α
  offset : Nat
  len : Nat

structure Pipe (α : Type) where
  bufs : Nat → PipeBuffer α
  curbuf : Nat
  nrbufs : Nat
  tmpPage : Option (Nat → α)
  readers : Nat
  writers : Nat
  waitingWriters : Nat

/-- The errors of `pipe_read` and `pipe_write`. -/
inductive PipeError where
  | epipe
  | enomem
  | eagain
  | erestartsys
  deriving DecidableEq

/-- What a copy meets in `pipe_write`: the page that `alloc_page` returns, and a fault. -/
structure CopyEnv (α : Type) where
  alloc : Option (Nat → α)
  fault : Option (Fault α)

/-- A section under the mutex: the call returns, or sleeps (`none`); its variables and the pipe. -/
structure Ran (κ : Type) (α : Type) where
  status : Option (Except PipeError Nat)
  call : κ
  pipe : Pipe α

/-- `if (!ret) ret = -E`. -/
def retOr (error : PipeError) (ret : Nat) : Except PipeError Nat := if ret = 0 then .error error else .ok ret

section Calls

variable {α : Type}

/-! ### `pipe_write` -/

/-- The variables of `pipe_write` that are kept while it sleeps. -/
structure WriteCall (α : Type) where
  iov : List (List α)
  totalLen : Nat
  ret : Nat
  nonblock : Bool

/-- The ring is full. -/
def writeWait (signal : Bool) (pipe : Pipe α) (c : WriteCall α) : Ran (WriteCall α) α :=
  if c.nonblock then ⟨some (retOr .eagain c.ret), c, pipe⟩
  else if signal then ⟨some (retOr .erestartsys c.ret), c, pipe⟩
  else ⟨none, c, { pipe with waitingWriters := pipe.waitingWriters + 1 }⟩

/-- A page with `chars` bytes goes into the ring. -/
def insertBuffer (pipe : Pipe α) (page : Nat → α) (chars : Nat) : Pipe α :=
  { pipe with
    bufs := update pipe.bufs ((pipe.curbuf + pipe.nrbufs) &&& (pipeBuffers - 1)) ⟨page, 0, chars⟩
    nrbufs := pipe.nrbufs + 1
    tmpPage := none }

/-- The loop of `pipe_write`, up to where it sleeps; `env` is what the copies meet. -/
def writeLoop (env : Nat → CopyEnv α) (signal : Bool) :
    Nat → Nat → Pipe α → WriteCall α → Option (Ran (WriteCall α) α)
  | 0, _, _, _ => none
  | rounds + 1, i, pipe, c =>
    if pipe.readers = 0 then some ⟨some (retOr .epipe c.ret), c, pipe⟩
    else if pipe.nrbufs < pipeBuffers then
      match pipe.tmpPage.or (env i).alloc with
      | none => some ⟨some (retOr .enomem c.ret), c, pipe⟩
      | some page =>
        let chars := min pageSize c.totalLen
        (copyIn (env i).fault page 0 chars c.iov).bind fun r =>
          let pipe := insertBuffer pipe r.1 chars
          let c := { c with iov := r.2, ret := c.ret + chars, totalLen := c.totalLen - chars }
          if c.totalLen = 0 then some ⟨some (.ok c.ret), c, pipe⟩
          else if pipe.nrbufs < pipeBuffers then writeLoop env signal rounds (i + 1) pipe c
          else some (writeWait signal pipe c)
    else some (writeWait signal pipe c)

/-- The last buffer, with `chars` more bytes. -/
def mergeBuffer (pipe : Pipe α) (page : Nat → α) (chars : Nat) : Pipe α :=
  let lastbuf := (pipe.curbuf + pipe.nrbufs - 1) &&& (pipeBuffers - 1)
  let buf := pipe.bufs lastbuf
  { pipe with bufs := update pipe.bufs lastbuf { buf with page := page, len := buf.len + chars } }

/-- `pipe_write`, up to where it sleeps for the first time. -/
def pipeWrite (merge : Option (Fault α)) (env : Nat → CopyEnv α) (signal : Bool) (pipe : Pipe α)
    (c : WriteCall α) : Option (Ran (WriteCall α) α) :=
  if c.totalLen = 0 then some ⟨some (.ok 0), c, pipe⟩
  else if pipe.readers = 0 then some ⟨some (.error .epipe), c, pipe⟩
  else
    -- the size of the last buffer
    let chars := c.totalLen &&& (pageSize - 1)
    let buf := pipe.bufs ((pipe.curbuf + pipe.nrbufs - 1) &&& (pipeBuffers - 1))
    if pipe.nrbufs ≠ 0 ∧ chars ≠ 0 ∧ buf.offset + buf.len + chars ≤ pageSize then
      (copyIn merge buf.page (buf.offset + buf.len) chars c.iov).bind fun r =>
        let pipe := mergeBuffer pipe r.1 chars
        let c := { c with iov := r.2, ret := chars, totalLen := c.totalLen - chars }
        if c.totalLen = 0 then some ⟨some (.ok c.ret), c, pipe⟩
        else writeLoop env signal (pipeBuffers + 1) 0 pipe c
    else writeLoop env signal (pipeBuffers + 1) 0 pipe c

/-- `pipe_write`, from where it has slept up to where it sleeps again. -/
def pipeWriteWoken (env : Nat → CopyEnv α) (signal : Bool) (pipe : Pipe α) (c : WriteCall α) :
    Option (Ran (WriteCall α) α) :=
  writeLoop env signal (pipeBuffers + 1) 0 { pipe with waitingWriters := pipe.waitingWriters - 1 } c

/-! ### `pipe_read` -/

/-- The variables of `pipe_read` that are kept while it sleeps, and the bytes that have arrived. -/
structure ReadCall (α : Type) where
  iov : List Nat
  arrived : List α
  totalLen : Nat
  ret : Nat
  nonblock : Bool

/-- There is nothing more to read. -/
def readWait (signal : Bool) (pipe : Pipe α) (c : ReadCall α) : Ran (ReadCall α) α :=
  if pipe.writers = 0 then ⟨some (.ok c.ret), c, pipe⟩
  else if pipe.waitingWriters = 0 ∧ c.ret ≠ 0 then ⟨some (.ok c.ret), c, pipe⟩
  else if pipe.waitingWriters = 0 ∧ c.nonblock then ⟨some (.error .eagain), c, pipe⟩
  else if signal then ⟨some (retOr .erestartsys c.ret), c, pipe⟩
  else ⟨none, c, pipe⟩

/-- The first buffer, without its first `chars` bytes; if there is nothing left, its page is kept for the
next writer. -/
def consumeBuffer (pipe : Pipe α) (chars : Nat) : Pipe α :=
  let buf := pipe.bufs pipe.curbuf
  let pipe := { pipe with
    bufs := update pipe.bufs pipe.curbuf
      { buf with offset := buf.offset + chars, len := buf.len - chars } }
  if buf.len - chars = 0 then
    { pipe with
      tmpPage := pipe.tmpPage.or (some buf.page)
      curbuf := (pipe.curbuf + 1) &&& (pipeBuffers - 1)
      nrbufs := pipe.nrbufs - 1 }
  else pipe

variable (env : Nat → Option (Fault α)) (signal : Bool)

/-- The loop of `pipe_read`, up to where it sleeps. -/
def readLoop : Nat → Nat → Pipe α → ReadCall α → Option (Ran (ReadCall α) α)
  | 0, _, _, _ => none
  | rounds + 1, i, pipe, c =>
    if pipe.nrbufs ≠ 0 then
      let buf := pipe.bufs pipe.curbuf
      let chars := min buf.len c.totalLen
      (copyOut (env i) (slice buf.page buf.offset chars) c.iov).bind fun r =>
        let pipe := consumeBuffer pipe chars
        let c := { c with
          iov := r.2, arrived := c.arrived ++ r.1, ret := c.ret + chars, totalLen := c.totalLen - chars }
        if c.totalLen = 0 then some ⟨some (.ok c.ret), c, pipe⟩
        else if pipe.nrbufs ≠ 0 then readLoop rounds (i + 1) pipe c
        else some (readWait signal pipe c)
    else some (readWait signal pipe c)

/-- `pipe_read`, up to where it sleeps for the first time. -/
def pipeRead (pipe : Pipe α) (c : ReadCall α) : Option (Ran (ReadCall α) α) :=
  if c.totalLen = 0 then some ⟨some (.ok 0), c, pipe⟩
  else readLoop env signal (pipeBuffers + 1) 0 pipe c

/-- `pipe_read`, from where it has slept up to where it sleeps again. -/
def pipeReadWoken (pipe : Pipe α) (c : ReadCall α) : Option (Ran (ReadCall α) α) :=
  readLoop env signal (pipeBuffers + 1) 0 pipe c

end Calls

/-! ## Calls that take turns -/

section System

variable {α : Type}

/-- A call that sleeps; for a writer also the bytes that it was given. -/
inductive PipeCall (α : Type) where
  | writing (data : List α) (c : WriteCall α)
  | reading (c : ReadCall α)

/-- A pipe, the calls that sleep, and the number from which on no call has been made. -/
structure PipeSystem (α : Type) where
  pipe : Pipe α
  calls : Nat → Option (PipeCall α)
  next : Nat

/-- What happens: a call enters, a call that sleeps is woken, or the ends of the pipe are opened and
closed. -/
inductive PipeOp (α : Type) where
  | write (id : Nat) (iov : List (List α)) (nonblock : Bool) (merge : Option (Fault α)) (env : Nat → CopyEnv α)
    (signal : Bool)
  | read (id : Nat) (iov : List Nat) (nonblock : Bool) (env : Nat → Option (Fault α)) (signal : Bool)
  | wakeWriter (id : Nat) (env : Nat → CopyEnv α) (signal : Bool)
  | wakeReader (id : Nat) (env : Nat → Option (Fault α)) (signal : Bool)
  | setEnds (readers writers : Nat)

/-- What is seen of a section: the call, the bytes that it counts as moved, and what it returns, if it does
not sleep. For a writer these are the next bytes of what it was given, as many as it counts; for a reader
the next bytes of its memory. -/
inductive PipeEvent (α : Type) where
  | wrote (id : Nat) (moved : List α) (status : Option (Except PipeError Nat))
  | got (id : Nat) (moved : List α) (status : Option (Except PipeError Nat))
  | ends

/-- The next bytes of a list, from one count to another. -/
def between (first last : Nat) (bytes : List α) : List α := (bytes.drop first).take (last - first)

def wroteSection (s : PipeSystem α) (id : Nat) (data : List α) (ret : Nat) (r : Ran (WriteCall α) α) :
    PipeEvent α × PipeSystem α :=
  (.wrote id (between ret r.call.ret data) r.status, { s with
      pipe := r.pipe
      calls := update s.calls id (if r.status.isSome then none else some (.writing data r.call)) })

def readSection (s : PipeSystem α) (id : Nat) (ret : Nat) (r : Ran (ReadCall α) α) :
    PipeEvent α × PipeSystem α :=
  (.got id (between ret r.call.ret r.call.arrived) r.status, { s with
      pipe := r.pipe
      calls := update s.calls id (if r.status.isSome then none else some (.reading r.call)) })

/-- One section. A call has a number that no other has. -/
def pipeStep (s : PipeSystem α) : PipeOp α → Option (PipeEvent α × PipeSystem α)
  | .write id iov nonblock merge env signal =>
    if id < s.next then none
    else
      (pipeWrite merge env signal s.pipe ⟨iov, iov.flatten.length, 0, nonblock⟩).map
        (wroteSection { s with next := id + 1 } id iov.flatten 0)
  | .read id iov nonblock env signal =>
    if id < s.next then none
    else
      (pipeRead env signal s.pipe ⟨iov, [], iov.sum, 0, nonblock⟩).map (readSection { s with next := id + 1 } id 0)
  | .wakeWriter id env signal =>
    match s.calls id with
    | some (.writing data c) => (pipeWriteWoken env signal s.pipe c).map (wroteSection s id data c.ret)
    | _ => none
  | .wakeReader id env signal =>
    match s.calls id with
    | some (.reading c) => (pipeReadWoken env signal s.pipe c).map (readSection s id c.ret)
    | _ => none
  | .setEnds readers writers => some (.ends, { s with pipe := { s.pipe with readers := readers, writers := writers } })

end System

end Linux
