/-
# MipsOnQemu.Linux.PosixLock -- record locks of a file

`__posix_lock_file_conf` of `fs/locks.c`, on the lock lists of all files and the list of the requests
that wait. A request is compared with the locks of other owners; one that must wait is checked by
`posix_locks_deadlock` first. Otherwise one pass over the records of the owner merges, shrinks, splits,
replaces and deletes them.

Records are known by their addresses. A waiting request points to the record it waits for; the model
keeps the owner of that record with it, since no record changes its owner and a record that is deleted
wakes all who wait for it.
-/

import MipsOnQemu.Lib.Search

namespace Linux

inductive FlType where
  | rdlck | wrlck | unlck
  deriving DecidableEq

def offsetMax : Int := 2 ^ 63 - 1

/-- A lock in the list of a file; besides POSIX locks there are `flock` locks and leases. -/
structure FileLock where
  addr : Nat
  owner : Nat
  posix : Bool
  type : FlType
  start : Int
  stop : Int

/-- What a caller asks for. -/
structure LockRequest where
  addr : Nat
  owner : Nat
  type : FlType
  start : Int
  stop : Int
  flAccess : Bool
  flSleep : Bool
  flExists : Bool

/-- A request that waits for a record. -/
structure Waiter where
  addr : Nat
  owner : Nat
  blocker : Nat
  blockerOwner : Nat

structure LockState where
  /-- the next address that an allocation gives -/
  next : Nat
  /-- `i_flock` of each inode -/
  flock : Nat → List FileLock
  /-- `blocked_list` -/
  blocked : List Waiter

/-- What `__posix_lock_file_conf` returns. -/
inductive LockResult where
  | ok | eagain | edeadlk | enolck | enoent
  deriving DecidableEq

/-! ## Conflicts and deadlocks -/

def locksOverlap (request : LockRequest) (fl : FileLock) : Bool :=
  decide (fl.start ≤ request.stop) && decide (request.start ≤ fl.stop)

def locksConflict (caller sys : FlType) : Bool :=
  if sys = .wrlck then true else if caller = .wrlck then true else false

def posixLocksConflict (request : LockRequest) (fl : FileLock) : Bool :=
  if !fl.posix || request.owner = fl.owner then false
  else if !locksOverlap request fl then false
  else locksConflict request.type fl.type

/-- The owner of the record that the first waiting request of an owner waits for. -/
def waitsFor (blocked : List Waiter) (owner : Nat) : Option Nat :=
  (blocked.find? fun w => w.owner == owner).map Waiter.blockerOwner

/-- `posix_locks_deadlock`, from the owner of the record that is in the way; no result if it does not
return. -/
def posixLocksDeadlock (blocked : List Waiter) (caller block : Nat) : Option Bool :=
  Search.search (waitsFor blocked) caller (blocked.length + 1) block

/-! ## The records of the owner -/

/-- What the pass over the records of the owner has found. -/
structure LockScan where
  /-- the records that are behind `before` -/
  passed : List FileLock
  /-- the range of `request` -/
  start : Int
  stop : Int
  added : Bool
  /-- the record that `request` has become -/
  merged : Option Nat
  left : Option Nat
  right : Option Nat
  /-- the records whose waiters are woken -/
  woken : List Nat

/-- The second `while` loop: what it has found, and the records from `before` on. -/
def scanLocks (owner : Nat) (type : FlType) (st : LockScan) : List FileLock → LockScan × List FileLock
  | [] => (st, [])
  | fl :: rest =>
    if fl.owner ≠ owner then (st, fl :: rest)
    else if type = fl.type then
      if fl.stop < st.start - 1 then scanLocks owner type { st with passed := st.passed ++ [fl] } rest
      else if st.stop < fl.start - 1 then (st, fl :: rest)
      else
        let start := if st.start < fl.start then st.start else fl.start
        let stop := if fl.stop < st.stop then st.stop else fl.stop
        if st.added then
          -- `locks_delete_lock`
          scanLocks owner type
            { st with start := start, stop := stop, woken := st.woken ++ [fl.addr] } rest
        else
          scanLocks owner type
            { st with passed := st.passed ++ [fl], start := start, stop := stop, added := true,
                      merged := some fl.addr } rest
    else
      if fl.stop < st.start then scanLocks owner type { st with passed := st.passed ++ [fl] } rest
      else if st.stop < fl.start then (st, fl :: rest)
      else
        let added := st.added || decide (type = .unlck)
        let left := if fl.start < st.start then some fl.addr else st.left
        if st.stop < fl.stop then
          ({ st with added := added, left := left, right := some fl.addr }, fl :: rest)
        else if st.start ≤ fl.start then
          if added then
            -- `locks_delete_lock`
            scanLocks owner type
              { st with added := added, left := left, woken := st.woken ++ [fl.addr] } rest
          else
            -- the old lock is replaced by the new one
            scanLocks owner type
              { st with passed := st.passed ++ [{ fl with type := type }], added := true, left := left,
                        merged := some fl.addr, woken := st.woken ++ [fl.addr] } rest
        else
          scanLocks owner type
            { st with passed := st.passed ++ [fl], added := added, left := left } rest

/-- A change of the record at an address. -/
def modifyLock (addr : Option Nat) (f : FileLock → FileLock) (l : List FileLock) : List FileLock :=
  l.map fun fl => if some fl.addr = addr then f fl else fl

/-- The records as they are now; if `request` has become one of them, that has its range. -/
def LockScan.records (st : LockScan) : List FileLock :=
  modifyLock st.merged (fun fl => { fl with start := st.start, stop := st.stop }) st.passed

/-- Does the lock break an old one in two pieces? -/
def LockScan.splits (st : LockScan) : Bool := st.right.isSome && decide (st.left = st.right)

/-- The record `right` without what the request covers. -/
def trimRight (st : LockScan) (rest : List FileLock) : List FileLock :=
  if st.right.isSome then
    match rest with
    | [] => []
    | fl :: rest => { fl with start := st.stop + 1 } :: rest
  else rest

/-- `new_fl2`: the left piece of a record that is split. -/
def leftPiece (st : LockScan) (newFl2 : Option Nat) (rest : List FileLock) : List FileLock :=
  match newFl2, rest with
  | some addr, fl :: _ => [{ fl with addr := addr, stop := st.start - 1 }]
  | _, _ => []

/-- `new_fl`: the request, if it has become no record. -/
def newLock (request : LockRequest) (st : LockScan) (newFl : Option Nat) : List FileLock :=
  if st.added then []
  else newFl.toList.map fun addr => ⟨addr, request.owner, true, request.type, st.start, st.stop⟩

/-- The end of `__posix_lock_file_conf`, with the addresses of `new_fl` and `new_fl2`: the result, the
records of the list behind those that are skipped, and the records whose waiters are woken. -/
def finishLock (request : LockRequest) (newFl newFl2 : Option Nat) (st : LockScan)
    (rest : List FileLock) : LockResult × List FileLock × List Nat :=
  if st.splits = true ∧ newFl2 = none then (.enolck, st.records ++ rest, st.woken)
  else if st.added = false ∧ request.type = .unlck then
    (if request.flExists then .enoent else .ok, st.records ++ rest, st.woken)
  else if st.added = false ∧ newFl = none then (.enolck, st.records ++ rest, st.woken)
  else if st.splits then
    (.ok, st.records ++ leftPiece st newFl2 rest ++ newLock request st newFl ++ trimRight st rest,
      st.woken ++ st.right.toList ++ newFl2.toList)
  else
    (.ok, modifyLock st.left (fun fl => { fl with stop := st.start - 1 }) st.records ++
        newLock request st newFl ++ trimRight st rest,
      st.woken ++ st.right.toList ++ st.left.toList)

/-- Is a lock skipped by the first `while` loop? -/
def skips (owner : Nat) (fl : FileLock) : Bool := !fl.posix || fl.owner != owner

variable (request : LockRequest)

/-- The pass over a lock list, from the first record of the owner on. -/
def lockRecords (newFl newFl2 : Option Nat) (l : List FileLock) : LockResult × List FileLock × List Nat :=
  let r := scanLocks request.owner request.type
    ⟨[], request.start, request.stop, false, none, none, none, []⟩ (l.dropWhile (skips request.owner))
  let f := finishLock request newFl newFl2 r.1 r.2
  (f.1, l.takeWhile (skips request.owner) ++ f.2.1, f.2.2)

/-- The first lock of another owner that is in the way. -/
def conflictOf (l : List FileLock) : Option FileLock :=
  if request.type = .unlck then none
  else l.find? fun fl => fl.posix && posixLocksConflict request fl

/-- Are records allocated? Not for the unlock of a whole file, which is to succeed without memory. -/
def LockRequest.allocates : Bool :=
  !request.flAccess && (decide (request.type ≠ .unlck) || decide (request.start ≠ 0) ||
    decide (request.stop ≠ offsetMax))

/-- `locks_alloc_lock`, if records are allocated and this one can be. -/
def LockRequest.alloc (addr : Nat) (ok : Bool) : Option Nat :=
  if request.allocates && ok then some addr else none

/-- `__posix_lock_file_conf`: the result, the lock that is copied to `conflock`, and the new state; no
result if it does not return. Addresses are given out in order, and `alloc1` and `alloc2` say whether
the two allocations succeed. -/
def posixLockFileConf (s : LockState) (inode : Nat) (request : LockRequest) (alloc1 alloc2 : Bool) :
    Option ((LockResult × Option FileLock) × LockState) :=
  match conflictOf request (s.flock inode) with
  | some fl =>
    if request.flSleep = false then some ((.eagain, some fl), s)
    else match posixLocksDeadlock s.blocked request.owner fl.owner with
      | none => none
      | some true => some ((.edeadlk, some fl), s)
      | some false =>
        -- `locks_insert_block`
        some ((.eagain, some fl), { s with
          blocked := ⟨request.addr, request.owner, fl.addr, fl.owner⟩ :: s.blocked })
  | none =>
    if request.flAccess then some ((.ok, none), s)
    else
      let r := lockRecords request (request.alloc s.next alloc1) (request.alloc (s.next + 1) alloc2)
        (s.flock inode)
      some ((r.1, none), {
        next := s.next + 2
        flock := Function.update s.flock inode r.2.1
        blocked := s.blocked.filter fun w => !r.2.2.contains w.blocker })

/-! ## Runs -/

inductive LockOp where
  | lock (inode : Nat) (request : LockRequest) (alloc1 alloc2 : Bool)
  /-- a signal ends the wait of a request (`locks_delete_block`) -/
  | interrupt (addr : Nat)
  /-- `flock` locks and leases, which stand before all POSIX locks, come and go -/
  | others (inode : Nat) (front : List FileLock)

def LockOp.exec (s : LockState) : LockOp → Option ((LockResult × Option FileLock) × LockState)
  | .lock inode request alloc1 alloc2 => posixLockFileConf s inode request alloc1 alloc2
  | .interrupt addr => some ((.ok, none), { s with blocked := s.blocked.filter fun w => w.addr != addr })
  | .others inode front =>
    let l := front.map (fun fl => { fl with posix := false }) ++ (s.flock inode).filter FileLock.posix
    some ((.ok, none), { s with flock := Function.update s.flock inode l })

end Linux
