/-
# MipsOnQemu.Linux.LockWait -- deadlock detection of record locks

`posix_locks_deadlock` follows, from owner to owner, the first waiting request that it finds for each.
That is enough as long as an owner waits for one record at a time: then what it follows is the whole
graph of waiting owners, the search ends, and no request that is put to sleep closes a cycle. Threads
that share a files table are one owner and can wait for several records; the search then follows one
of them only, misses cycles through the others, and does not return once it comes into one.
-/

import MipsOnQemu.Linux.PosixLock
import MipsOnQemu.Lib.Runs

namespace Linux

open List Search Option LockOp

/-- An owner has a request that waits for a record of another. -/
def WaitEdge (blocked : List Waiter) (owner blocker : Nat) : Prop :=
  ∃ w ∈ blocked, w.owner = owner ∧ w.blockerOwner = blocker

/-- **At most one:** a request that has to wait is of an owner of which no other request waits. -/
def LockOp.WaitsOnce (s : LockState) : LockOp → Prop
  | .lock inode request _ _ => request.flSleep = true →
      (conflictOf request (s.flock inode)).isSome → ∀ w ∈ s.blocked, w.owner ≠ request.owner
  | _ => True

/-- What is to hold of a step: it returns, the graph after it has no cycle, and no search in it would
fail to return. -/
def LockOp.NoDeadlock (s : LockState) (op : LockOp) (r : LockResult × Option FileLock)
    (s' : LockState) : Prop :=
  op.exec s = some (r, s') ∧ Search.Acyclic (WaitEdge s'.blocked) ∧
    ∀ caller block, (posixLocksDeadlock s'.blocked caller block).isSome

/-- What holds between the steps. -/
structure WaitInv (blocked : List Waiter) : Prop where
  single : (blocked.map Waiter.owner).Nodup
  acyclic : Search.Acyclic (WaitEdge blocked)

section Search

variable {blocked : List Waiter}

theorem waitEdge_of_waitsFor {x y : Nat} (h : waitsFor blocked x = some y) : WaitEdge blocked x y := by
  obtain ⟨w, hw, rfl⟩ := map_eq_some_iff.mp h
  have howner := List.find?_some hw
  exact ⟨w, List.mem_of_find?_eq_some hw, by simpa using howner, rfl⟩

theorem waitsFor_mem_owners (x y : Nat) (h : waitsFor blocked x = some y) :
    x ∈ (blocked.map Waiter.owner).toFinset := by
  obtain ⟨w, hw, rfl, -⟩ := waitEdge_of_waitsFor h
  exact mem_toFinset.mpr (mem_map_of_mem hw)

theorem waitsFor_of_waitEdge (h : (blocked.map Waiter.owner).Nodup) {x y : Nat}
    (hedge : WaitEdge blocked x y) : waitsFor blocked x = some y := by
  obtain ⟨w, hw, rfl, rfl⟩ := hedge
  obtain ⟨v, hv⟩ := isSome_iff_exists.mp
    (List.find?_isSome (p := fun v : Waiter => v.owner == w.owner).mpr ⟨w, hw, beq_self_eq_true _⟩)
  have howner : v.owner = w.owner := by simpa using List.find?_some hv
  rw [waitsFor, hv, inj_on_of_nodup_map h (List.mem_of_find?_eq_some hv) hw howner]
  rfl

theorem posixLocksDeadlock_of_search {caller block n : Nat} {b : Bool}
    (h : search (waitsFor blocked) caller n block = some b) :
    posixLocksDeadlock blocked caller block = some b := by
  have hcard : (blocked.map Waiter.owner).toFinset.card ≤ blocked.length := by
    refine (toFinset_card_le _).trans ?_
    rw [length_map]
  exact search_mono (Nat.succ_le_succ hcard) (search_of_search waitsFor_mem_owners h)

/-- **The search returns.** -/
theorem WaitInv.terminates (h : WaitInv blocked) (caller block : Nat) :
    (posixLocksDeadlock blocked caller block).isSome := by
  have hacyclic : Search.Acyclic (Search.Edge (waitsFor blocked)) :=
    h.acyclic.mono fun _ _ => waitEdge_of_waitsFor
  have hends : (search (waitsFor blocked) caller _ block).isSome :=
    search_isSome_of_acyclic hacyclic waitsFor_mem_owners block
  obtain ⟨b, hb⟩ := isSome_iff_exists.mp hends
  rw [posixLocksDeadlock_of_search hb]
  rfl

/-- **A request that is put to sleep** closes no cycle. -/
theorem WaitInv.insert (h : WaitInv blocked) {w : Waiter} (hw : ∀ v ∈ blocked, v.owner ≠ w.owner)
    (hsearch : posixLocksDeadlock blocked w.owner w.blockerOwner = some false) : WaitInv (w :: blocked) := by
  refine ⟨?_, h.acyclic.add (c := w.owner) (p := w.blockerOwner) ?_ ?_⟩
  · rw [map_cons, nodup_cons]
    refine ⟨fun hmem => ?_, h.single⟩
    obtain ⟨v, hv, howner⟩ := mem_map.mp hmem
    exact hw v hv howner
  · rintro x y ⟨v, hv, rfl, rfl⟩
    rcases mem_cons.mp hv with rfl | hv
    · exact .inr ⟨rfl, rfl⟩
    · exact .inl ⟨v, hv, rfl, rfl⟩
  · intro hreach
    refine not_reach_of_search hsearch (Relation.ReflTransGen.mono ?_ _ _ hreach)
    exact fun x y => waitsFor_of_waitEdge h.single

theorem WaitInv.sublist {blocked' : List Waiter} (h : WaitInv blocked)
    (hsub : blocked'.Sublist blocked) : WaitInv blocked' := by
  refine ⟨h.single.sublist (hsub.map _), h.acyclic.mono ?_⟩
  rintro x y ⟨w, hw, hedge⟩
  exact ⟨w, hsub.subset hw, hedge⟩

end Search

theorem LockOp.noDeadlock {s : LockState} (h : WaitInv s.blocked) {op : LockOp} (hop : op.WaitsOnce s) :
    ∃ r s', op.NoDeadlock s r s' ∧ WaitInv s'.blocked := by
  have hstep : ∃ r s', op.exec s = some (r, s') ∧ WaitInv s'.blocked := by
    cases op with
    | lock inode request alloc1 alloc2 =>
      unfold exec posixLockFileConf
      dsimp only
      cases hconflict : conflictOf request (s.flock inode) with
      | none =>
        dsimp only
        split
        · exact ⟨_, _, rfl, h⟩
        · exact ⟨_, _, rfl, h.sublist filter_sublist⟩
      | some fl =>
        dsimp only
        split
        · exact ⟨_, _, rfl, h⟩
        · rename_i hsleep
          obtain ⟨b, hb⟩ := isSome_iff_exists.mp (h.terminates request.owner fl.owner)
          rw [hb]
          cases b with
          | true => exact ⟨_, _, rfl, h⟩
          | false =>
            have honce := hop (Bool.not_eq_false _ ▸ hsleep) (by rw [hconflict]; rfl)
            exact ⟨_, _, rfl, h.insert (w := ⟨request.addr, request.owner, fl.addr, fl.owner⟩) honce hb⟩
    | interrupt addr => exact ⟨_, _, rfl, h.sublist filter_sublist⟩
    | others inode front => exact ⟨_, _, rfl, h⟩
  obtain ⟨r, s', hexec, hinv⟩ := hstep
  exact ⟨r, s', ⟨hexec, hinv.acyclic, hinv.terminates⟩, hinv⟩

def noLocks : LockState := ⟨0, fun _ => [], []⟩

/-- **Deadlock detection is complete and returns** in every run in which no owner waits twice at a
time. -/
theorem posix_deadlock_detection {ops : List LockOp}
    (hops : Runs.Along exec (fun s op => op.WaitsOnce s) noLocks ops) :
    ∃ rs s', Runs.run exec noLocks ops = some (rs, s') ∧
      Runs.Allows LockOp.NoDeadlock noLocks ops rs s' := by
  have hstep : ∀ (s t : LockState) (op : LockOp), (t = s ∧ WaitInv s.blocked) → op.WaitsOnce s →
      ∃ r s' t', op.exec s = some (r, s') ∧ op.NoDeadlock t r t' ∧ t' = s' ∧ WaitInv s'.blocked := by
    rintro _ s op ⟨rfl, hinv⟩ hop
    obtain ⟨r, s', hno, hinv'⟩ := noDeadlock hinv hop
    exact ⟨r, s', s', hno.1, hno, rfl, hinv'⟩
  have hinit : WaitInv noLocks.blocked := by
    refine ⟨nodup_nil, fun x hx => ?_⟩
    obtain ⟨y, ⟨w, hw, -⟩, -⟩ := Relation.TransGen.head'_iff.mp hx
    cases hw
  obtain ⟨rs, s', t', hrun, hallows, heq, -⟩ :=
    Runs.run_refines (R := fun s t => t = s ∧ WaitInv s.blocked) hstep ⟨rfl, hinit⟩ hops
  exact ⟨rs, s', hrun, heq ▸ hallows⟩

/-- A request for the first byte of a file, by a thread that is willing to sleep. -/
def byteRequest (addr owner : Nat) (type : FlType) : LockRequest :=
  ⟨addr, owner, type, 0, 0, false, true, false⟩

/-- Three owners with a file each. Two threads of the first wait for the files of the other two, the
third waits for the file of the first, and the second gives its file up. -/
def twoThreads : List LockOp :=
  [.lock 1 (byteRequest 101 1 .wrlck) true true, .lock 2 (byteRequest 102 2 .wrlck) true true,
    .lock 3 (byteRequest 103 3 .wrlck) true true, .lock 3 (byteRequest 104 1 .wrlck) true true,
    .lock 2 (byteRequest 105 1 .wrlck) true true, .lock 1 (byteRequest 106 3 .wrlck) true true,
    .lock 2 (byteRequest 107 2 .unlck) true true]

/-- **A cycle that is not found, and a search that does not return:** after these requests the first
owner and the third wait for each other, and the search for a fourth owner never ends. -/
theorem posix_deadlock_missed : ∃ rs s, Runs.run exec noLocks twoThreads = some (rs, s) ∧
    ¬ Search.Acyclic (WaitEdge s.blocked) ∧ (∀ n, search (waitsFor s.blocked) 4 n 1 = none) ∧
    (lock 1 (byteRequest 108 4 .wrlck) true true).exec s = none := by
  have hrun : ∃ rs s, Runs.run exec noLocks twoThreads = some (rs, s) ∧
      s.blocked = [⟨106, 3, 0, 1⟩, ⟨104, 1, 4, 3⟩] ∧
      (lock 1 (byteRequest 108 4 .wrlck) true true).exec s = none := ⟨_, _, rfl, rfl, rfl⟩
  obtain ⟨rs, s, hrun, hblocked, hnone⟩ := hrun
  refine ⟨rs, s, hrun, fun h => h 1 ?_, fun n => ?_, hnone⟩
  · rw [hblocked]
    exact .head ⟨_, mem_cons_of_mem _ mem_cons_self, rfl, rfl⟩
      (.single ⟨_, mem_cons_self, rfl, rfl⟩)
  · rw [hblocked]
    -- it goes to and fro between the two
    have hboth : ∀ n, search (waitsFor [⟨106, 3, 0, 1⟩, ⟨104, 1, 4, 3⟩]) 4 n 1 = none ∧
        search (waitsFor [⟨106, 3, 0, 1⟩, ⟨104, 1, 4, 3⟩]) 4 n 3 = none := by
      intro n
      induction n with
      | zero => exact ⟨rfl, rfl⟩
      | succ n ih => exact ⟨ih.2, ih.1⟩
    exact (hboth n).1

/-- Two owners, one of which waits for the other. -/
theorem posix_deadlock_detection_pair :
    ∃ rs s', Runs.run exec noLocks [.lock 1 (byteRequest 101 1 .wrlck) true true,
        .lock 1 (byteRequest 102 2 .wrlck) true true] = some (rs, s') ∧
      Runs.Allows LockOp.NoDeadlock noLocks [.lock 1 (byteRequest 101 1 .wrlck) true true,
        .lock 1 (byteRequest 102 2 .wrlck) true true] rs s' := by
  apply posix_deadlock_detection
  refine ⟨nofun, fun p hp => ⟨fun _ _ w hw => ?_, fun _ _ => trivial⟩⟩
  obtain rfl := some.inj hp
  exact absurd hw not_mem_nil

end Linux
