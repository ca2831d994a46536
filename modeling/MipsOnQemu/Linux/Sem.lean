/-
# MipsOnQemu.Linux.Sem -- semaphore sets

`ipc/sem.c` on one semaphore set. A call of `semop` brings a list of operations that are done all or
not at all: `try_atomic_semop` does them one by one in place and takes them back when one of them
cannot be done. A list that has to wait is put into the pending queue of the set, and whoever changes
the set goes through that queue (`update_queue`). An operation with `SEM_UNDO` is also recorded, with
the opposite sign, in a 16-bit adjustment of the process, which `exit_sem` adds when the process ends.
-/

import Mathlib

namespace Linux

open Function

def semvmx : Int := 32767

def semaem : Int := semvmx

/-- `struct sembuf`, with the two flags that are read. -/
structure Sembuf where
  semNum : Nat
  semOp : Int
  semUndo : Bool
  ipcNowait : Bool

/-- `struct sem_undo` of the set; the owner is the undo list of a process (or of the tasks that share
it), which has one such structure for the set. -/
structure SemUndo where
  owner : Nat
  semadj : Nat → BitVec 16

/-- Does a list alter the set? -/
def alters (sops : List Sembuf) : Bool := sops.any fun sop => sop.semOp != 0

/-- Does a list need an undo structure? -/
def undos (sops : List Sembuf) : Bool := sops.any fun sop => sop.semUndo

/-- The undo structure that a list of an owner uses. -/
def undoOf (sops : List Sembuf) (owner : Nat) : Option Nat := if undos sops then some owner else none

theorem undoOf_isSome (sops : List Sembuf) (owner : Nat) : (undoOf sops owner).isSome = undos sops := by
  unfold undoOf
  cases undos sops
  · rfl
  · rfl

/-- `struct sem_queue`: a list that waits. -/
structure SemQueue where
  sleeper : Nat
  sops : List Sembuf
  undo : Option Nat
  alter : Bool
  alter_eq : alter = alters sops
  undo_isSome : undo.isSome = undos sops

structure SemArray where
  nsems : Nat
  semval : Nat → Int
  undo : List SemUndo
  pending : List SemQueue

inductive SemError where
  | einval | e2big | enomem | efbig | eacces | eagain | erange | eintr
  deriving DecidableEq

/-- What a call returns, or what `try_atomic_semop` does: 0, 1, or an error. -/
inductive SemResult where
  | done
  | sleep
  | failed (error : SemError)
  deriving DecidableEq

/-! ## `try_atomic_semop` -/

/-- The loop at `undo:`, from the last operation that was done to the first. -/
def rollback (semval : Nat → Int) : List Sembuf → Nat → Int
  | [] => semval
  | sop :: before =>
    rollback (update semval sop.semNum (semval sop.semNum - sop.semOp)) before

/-- `would_block:` -/
def wouldBlock (sop : Sembuf) : SemResult := if sop.ipcNowait then .failed .eagain else .sleep

/-- The first loop, with the operations that are done, the last one first. -/
def tryOps (semadj : Nat → BitVec 16) (semval : Nat → Int) (before : List Sembuf) :
    List Sembuf → SemResult × (Nat → Int)
  | [] => (.done, semval)
  | sop :: rest =>
    let result := semval sop.semNum + sop.semOp
    if sop.semOp = 0 ∧ semval sop.semNum ≠ 0 then (wouldBlock sop, rollback semval before)
    else if result < 0 then (wouldBlock sop, rollback semval before)
    else if semvmx < result then (.failed .erange, rollback semval before)
    else if sop.semUndo ∧ ((semadj sop.semNum).toInt - sop.semOp < -semaem - 1 ∨
        semaem < (semadj sop.semNum).toInt - sop.semOp) then
      (.failed .erange, rollback semval before)
    else tryOps semadj (update semval sop.semNum result) (sop :: before) rest

/-- The second loop, from the last operation to the first. -/
def adjust (semadj : Nat → BitVec 16) : List Sembuf → Nat → BitVec 16
  | [] => semadj
  | sop :: before =>
    adjust (if sop.semUndo then
      update semadj sop.semNum (semadj sop.semNum - BitVec.ofInt 16 sop.semOp)
      else semadj) before

namespace SemArray

/-- The adjustments in the undo structure of an owner. -/
def semadj (sma : SemArray) (un : Option Nat) : Nat → BitVec 16 :=
  match sma.undo.find? fun u => some u.owner == un with
  | some u => u.semadj
  | none => fun _ => 0

/-- A change of the undo structure of an owner. -/
def withUndo (sma : SemArray) (un : Option Nat) (f : (Nat → BitVec 16) → Nat → BitVec 16) : List SemUndo :=
  sma.undo.map fun u => if some u.owner = un then { u with semadj := f u.semadj } else u

end SemArray

def tryAtomicSemop (sma : SemArray) (sops : List Sembuf) (un : Option Nat) : SemResult × SemArray :=
  let r := tryOps (sma.semadj un) sma.semval [] sops
  if r.1 = .done then
    (.done, { sma with semval := r.2, undo := sma.withUndo un fun adj => adjust adj sops.reverse })
  else (r.1, { sma with semval := r.2 })

/-! ## `update_queue` -/

/-- A request that got an answer, and the set it was tried on. -/
structure SemTry where
  sma : SemArray
  sops : List Sembuf
  undo : Option Nat
  result : SemResult

/-- The loop from the request behind `before` on; an altering request that got an answer starts it
anew. -/
def scanQueue (restart : SemArray → SemArray × List SemTry) (sma : SemArray) (before : List SemQueue) :
    List SemQueue → SemArray × List SemTry
  | [] => (sma, [])
  | q :: rest =>
    let r := tryAtomicSemop sma q.sops q.undo
    if r.1 = .sleep then scanQueue restart r.2 (before ++ [q]) rest
    else
      let sma' := { r.2 with pending := before ++ rest }
      let next := if q.alter then restart sma' else scanQueue restart sma' before rest
      (next.1, ⟨sma, q.sops, q.undo, r.1⟩ :: next.2)

/-- The loop, started anew a number of times at most. -/
def updateRounds : Nat → SemArray → SemArray × List SemTry
  | 0, sma => (sma, [])
  | rounds + 1, sma => scanQueue (updateRounds rounds) sma [] sma.pending

/-- `update_queue`; every new start has one request less to go through. -/
def updateQueue (sma : SemArray) : SemArray × List SemTry := updateRounds (sma.pending.length + 1) sma

/-! ## The calls -/

/-- `find_undo`: the undo structure of an owner, made if there is none and memory for it. -/
def findUndo (sma : SemArray) (owner : Nat) (alloc : Bool) : Option SemArray :=
  if owner ∈ sma.undo.map SemUndo.owner then some sma
  else if alloc then some { sma with undo := ⟨owner, fun _ => 0⟩ :: sma.undo }
  else none

/-- The number of the last semaphore that a list names. -/
def maxNum (sops : List Sembuf) : Nat := sops.foldl (fun m sop => max m sop.semNum) 0

/-- `append_to_queue` and `prepend_to_queue`. -/
def enqueue (sma : SemArray) (q : SemQueue) : SemArray :=
  { sma with pending := if q.alter then sma.pending ++ [q] else q :: sma.pending }

/-- `sys_semtimedop` from `sem_lock` on, until it returns or goes to sleep. -/
def semop (sma : SemArray) (task owner : Nat) (sops : List Sembuf) (permitted : Bool) :
    SemResult × SemArray × List SemTry :=
  let un := undoOf sops owner
  if sma.nsems ≤ maxNum sops then (.failed .efbig, sma, [])
  else if permitted = false then (.failed .eacces, sma, [])
  else
    let r := tryAtomicSemop sma sops un
    if r.1 = .sleep then
      (.sleep, enqueue r.2 ⟨task, sops, un, alters sops, rfl, undoOf_isSome sops owner⟩, [])
    else
      let next := if alters sops ∧ r.1 = .done then updateQueue r.2 else (r.2, [])
      (r.1, next.1, ⟨sma, sops, un, r.1⟩ :: next.2)

def semtimedop (semopm : Nat) (sma : SemArray) (task owner : Nat) (sops : List Sembuf)
    (alloc permitted : Bool) : SemResult × SemArray × List SemTry :=
  if sops = [] then (.failed .einval, sma, [])
  else if semopm < sops.length then (.failed .e2big, sma, [])
  else if undos sops then
    match findUndo sma owner alloc with
    | none => (.failed .enomem, sma, [])
    | some sma => semop sma task owner sops permitted
  else semop sma task owner sops permitted

/-- The end of `sys_semtimedop` for a task that nobody has answered: its time is over, or it got a
signal. -/
def wake (sma : SemArray) (task : Nat) (timedOut : Bool) : SemResult × SemArray × List SemTry :=
  (.failed (if timedOut then .eagain else .eintr),
    { sma with pending := sma.pending.eraseP fun q => q.sleeper == task }, [])

def setval (sma : SemArray) (semnum val : Int) (permitted : Bool) : SemResult × SemArray × List SemTry :=
  if permitted = false then (.failed .eacces, sma, [])
  else if semnum < 0 ∨ (sma.nsems : Int) ≤ semnum then (.failed .einval, sma, [])
  else if semvmx < val ∨ val < 0 then (.failed .erange, sma, [])
  else
    let next := updateQueue { sma with
      semval := update sma.semval semnum.toNat val
      undo := sma.undo.map fun u => { u with semadj := update u.semadj semnum.toNat 0 } }
    (.done, next)

def setall (sma : SemArray) (vals : Nat → Nat) (permitted : Bool) : SemResult × SemArray × List SemTry :=
  if permitted = false then (.failed .eacces, sma, [])
  else if ∃ i < sma.nsems, semvmx < vals i then (.failed .erange, sma, [])
  else
    let next := updateQueue { sma with
      semval := fun i => if i < sma.nsems then vals i else sma.semval i
      undo := sma.undo.map fun u => { u with semadj := fun i => if i < sma.nsems then 0 else u.semadj i } }
    (.done, next)

/-- A value with an adjustment, within its limits. -/
def clamp (val : Int) : Int :=
  let val := if val < 0 then 0 else val
  if semvmx < val then semvmx else val

/-- `exit_sem` for the last task of an undo list. -/
def exitSem (sma : SemArray) (owner : Nat) : SemResult × SemArray × List SemTry :=
  match sma.undo.find? fun u => u.owner == owner with
  | none => (.done, sma, [])
  | some u =>
    let next := updateQueue { sma with
      semval := fun i => if i < sma.nsems ∧ u.semadj i ≠ 0 then
        clamp (sma.semval i + (u.semadj i).toInt) else sma.semval i
      undo := sma.undo.eraseP fun u => u.owner == owner }
    (.done, next)

def newary (nsems : Nat) : SemArray := ⟨nsems, fun _ => 0, [], []⟩

inductive SemCall where
  | semtimedop (task owner : Nat) (sops : List Sembuf) (alloc permitted : Bool)
  | wake (task : Nat) (timedOut : Bool)
  | setval (semnum val : Int) (permitted : Bool)
  | setall (vals : Nat → Nat) (permitted : Bool)
  | exit (owner : Nat)

/-- A call on the set: what it returns, the set after it, and the answers it gives to requests. -/
def SemCall.perform (semopm : Nat) (sma : SemArray) : SemCall → SemResult × SemArray × List SemTry
  | .semtimedop task owner sops alloc permitted =>
    Linux.semtimedop semopm sma task owner sops alloc permitted
  | .wake task timedOut => Linux.wake sma task timedOut
  | .setval semnum val permitted => Linux.setval sma semnum val permitted
  | .setall vals permitted => Linux.setall sma vals permitted
  | .exit owner => exitSem sma owner

def SemCall.exec (semopm : Nat) (sma : SemArray) (call : SemCall) :
    Option ((SemResult × List SemTry) × SemArray) :=
  let r := call.perform semopm sma
  some ((r.1, r.2.2), r.2.1)

end Linux
