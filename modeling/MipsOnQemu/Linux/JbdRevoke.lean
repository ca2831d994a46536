/-
# MipsOnQemu.Linux.JbdRevoke -- revoke records of the journal

`fs/jbd/revoke.c`, up to recovery. A block that a transaction frees is revoked: a record for it is kept
in a hash table, and the commit writes the records of the transaction into the log. Writing to the block
again takes the record back. Whether a block is revoked is also kept in two flags of its buffer, if it is
in the cache, and these outlive the transaction: there are two tables, and the commit switches from one to
the other without touching a buffer. So a flag can be left over from an earlier transaction, and a buffer
that has left the cache has lost its flags. Apart from the two cases in which `journal_revoke` believes a
flag that is wrong, the records written are the blocks that the transaction revoked last
(`revoke_records_match`).
-/

import MipsOnQemu.Lib.Buckets
import MipsOnQemu.Lib.Runs

namespace Linux

open List Function Option Buckets Set

structure RevokeRecord where
  sequence : BitVec 32
  blocknr : Nat
  deriving DecidableEq

/-- The lists of `struct jbd_revoke_table_s`. -/
abbrev RevokeTable := Nat → List RevokeRecord

structure BufferFlags where
  revoked : Bool
  revokeValid : Bool
  deriving DecidableEq

/-- The two tables, which of them is the current one, and the buffers in the cache. -/
structure RevokeState where
  table : Bool → RevokeTable
  current : Bool
  buffers : Nat → Option BufferFlags

/-- `sizeof(journal_revoke_header_t)`. -/
def revokeHeaderSize : Nat := 16

structure RevokeBlock where
  sequence : BitVec 32
  rCount : Nat
  records : List Nat
  deriving DecidableEq

/-! ## The functions

The hash of a block is a parameter: for tables of 256 lists the source shifts by a negative number,
which C leaves open. Nothing depends on the values, as long as they are below the number of lists. -/

section Functions

variable (hash : Nat → Nat)

def insertRevokeHash (table : RevokeTable) (blocknr : Nat) (seq : BitVec 32) : RevokeTable :=
  push RevokeRecord.blocknr hash table { sequence := seq, blocknr := blocknr }

def findRevokeRecord (table : RevokeTable) (blocknr : Nat) : Option RevokeRecord :=
  find RevokeRecord.blocknr hash table blocknr

inductive RevokeError where
  | eio
  deriving DecidableEq

/-- Another current table. -/
def RevokeState.setCurrent (s : RevokeState) (table : RevokeTable) : RevokeState :=
  { s with table := update s.table s.current table }

/-- Other flags for the buffer of a block. -/
def RevokeState.setFlags (s : RevokeState) (blocknr : Nat) (flags : BufferFlags) : RevokeState :=
  { s with buffers := update s.buffers blocknr (some flags) }

theorem setFlags_self (s : RevokeState) (blocknr : Nat) (flags : BufferFlags) :
    (s.setFlags blocknr flags).buffers blocknr = some flags :=
  update_self _ _ _

/-- The buffer of a block, which is read in if it is not in the cache, and then has no flags. -/
def RevokeState.bufferOf (s : RevokeState) (blocknr : Nat) : BufferFlags :=
  (s.buffers blocknr).getD { revoked := false, revokeValid := false }

/-- `journal_revoke`. The buffer is the one in the cache, whether the caller brings it or not. -/
def journalRevoke (tid : BitVec 32) (s : RevokeState) (blocknr : Nat) : Option RevokeError × RevokeState :=
  match s.buffers blocknr with
  | some bh =>
    if bh.revoked then (some .eio, s)
    else
      (none, (s.setFlags blocknr { revoked := true, revokeValid := true }).setCurrent
        (insertRevokeHash hash (s.table s.current) blocknr tid))
  | none => (none, s.setCurrent (insertRevokeHash hash (s.table s.current) blocknr tid))

/-- Does `journal_cancel_revoke` look for a record? -/
def BufferFlags.needCancel (bh : BufferFlags) : Bool := if bh.revokeValid then bh.revoked else true

/-- `journal_cancel_revoke`. Returns whether a record was taken back. -/
def journalCancelRevoke (s : RevokeState) (blocknr : Nat) : Bool × RevokeState :=
  let needCancel := (s.bufferOf blocknr).needCancel
  let s := s.setFlags blocknr { revoked := false, revokeValid := true }
  if needCancel then
    match findRevokeRecord hash (s.table s.current) blocknr with
    | some _ => (true, s.setCurrent (remove RevokeRecord.blocknr hash (s.table s.current) blocknr))
    | none => (false, s)
  else (false, s)

end Functions

def journalSwitchRevokeTable (hashSize : Nat) (s : RevokeState) : RevokeState :=
  let s := { s with current := !s.current }
  s.setCurrent fun i => if i < hashSize then [] else s.table s.current i

/-! ### Writing the records -/

/-- The descriptor that is being filled, the offset in it, and the blocks that have been written. -/
structure RevokeWriter where
  descriptor : Option (List Nat)
  offset : Nat
  flushed : List RevokeBlock

def flushDescriptor (tid : BitVec 32) (w : RevokeWriter) : RevokeWriter :=
  match w.descriptor with
  | some records =>
    { w with
      descriptor := none
      flushed := w.flushed ++ [{ sequence := tid, rCount := w.offset, records := records }] }
  | none => w

def writeOneRevokeRecord (blocksize : Nat) (tid : BitVec 32) (w : RevokeWriter) (record : RevokeRecord) :
    RevokeWriter :=
  let w := if w.offset = blocksize then flushDescriptor tid w else w
  match w.descriptor with
  | some records =>
    { w with descriptor := some (records ++ [record.blocknr]), offset := w.offset + 4 }
  | none => { w with descriptor := some [record.blocknr], offset := revokeHeaderSize + 4 }

/-- The loops of `journal_write_revoke_records` over the lists and their records. -/
def writeRevokeLists (blocksize : Nat) (tid : BitVec 32) (table : RevokeTable) (hashSize : Nat) :
    RevokeWriter :=
  (List.range hashSize).foldl (fun w i => (table i).foldl (writeOneRevokeRecord blocksize tid) w)
    { descriptor := none, offset := 0, flushed := [] }

/-- `journal_write_revoke_records`: the blocks that are written; the records are freed. -/
def journalWriteRevokeRecords (hashSize blocksize : Nat) (tid : BitVec 32) (s : RevokeState) :
    List RevokeBlock × RevokeState :=
  let revoke := s.table (!s.current)
  ((flushDescriptor tid (writeRevokeLists blocksize tid revoke hashSize)).flushed, { s with
      table := update s.table (!s.current) fun i => if i < hashSize then [] else revoke i })

/-! ## What is written -/

/-- The blocks whose records have been written, in order. -/
def RevokeWriter.contents (w : RevokeWriter) : List Nat :=
  w.flushed.flatMap RevokeBlock.records ++ w.descriptor.getD []

/-- The block is one of the transaction, and its count is that of its records. -/
structure RevokeBlock.Formed (blocksize : Nat) (tid : BitVec 32) (block : RevokeBlock) : Prop where
  sequence_eq : block.sequence = tid
  rCount_eq : block.rCount = revokeHeaderSize + 4 * block.records.length
  rCount_le : block.rCount ≤ blocksize

/-- What holds between two records. -/
structure RevokeWriter.Formed (blocksize : Nat) (tid : BitVec 32) (w : RevokeWriter) : Prop where
  flushed : ∀ block ∈ w.flushed, block.Formed blocksize tid
  offset : ∀ records, w.descriptor = some records →
    w.offset = revokeHeaderSize + 4 * records.length ∧ w.offset ≤ blocksize

section Writing

variable {blocksize : Nat} {tid : BitVec 32}

theorem flushDescriptor_contents (tid : BitVec 32) (w : RevokeWriter) : (flushDescriptor tid w).contents = w.contents := by
  rw [flushDescriptor]
  split
  · rename_i records hrecords
    simp [RevokeWriter.contents, hrecords]
  · rfl

variable {w : RevokeWriter}

theorem flushDescriptor_formed (h : w.Formed blocksize tid) :
    (flushDescriptor tid w).Formed blocksize tid ∧ (flushDescriptor tid w).descriptor = none := by
  rw [flushDescriptor]
  split
  · rename_i records hrecords
    obtain ⟨hoffset, hle⟩ := h.offset records hrecords
    refine ⟨⟨forall_mem_append.mpr ⟨h.flushed, ?_⟩, fun _ hnone => absurd hnone (by simp)⟩, rfl⟩
    exact forall_mem_singleton.mpr ⟨rfl, hoffset, hle⟩
  · rename_i hnone
    exact ⟨h, hnone⟩

section

variable (hsize : 4 ∣ blocksize) (hroom : revokeHeaderSize < blocksize)
include hsize hroom

/-- **One record** is written once, into a block that has room for it. -/
theorem writeOneRevokeRecord_spec (h : w.Formed blocksize tid) (record : RevokeRecord) :
    (writeOneRevokeRecord blocksize tid w record).contents = w.contents ++ [record.blocknr] ∧
      (writeOneRevokeRecord blocksize tid w record).Formed blocksize tid := by
  have hheader : revokeHeaderSize = 16 := rfl
  -- a full descriptor has been flushed
  have hflush : ∃ w', (if w.offset = blocksize then flushDescriptor tid w else w) = w' ∧
      w'.contents = w.contents ∧ w'.Formed blocksize tid ∧ ∀ records, w'.descriptor = some records →
        w'.offset ≠ blocksize := by
    by_cases hfull : w.offset = blocksize
    · obtain ⟨hformed, hnone⟩ := flushDescriptor_formed h
      refine ⟨_, if_pos hfull, flushDescriptor_contents tid w, hformed, fun records hsome => ?_⟩
      rw [hnone] at hsome
      cases hsome
    · exact ⟨_, if_neg hfull, rfl, h, fun _ _ => hfull⟩
  obtain ⟨w', hw', hcontents, hformed, hnotfull⟩ := hflush
  rw [writeOneRevokeRecord, hw', ← hcontents]
  cases hdescriptor : w'.descriptor with
  | some records =>
    obtain ⟨hoffset, hle⟩ := hformed.offset records hdescriptor
    have hne := hnotfull records hdescriptor
    refine ⟨?_, hformed.flushed, fun records' hrecords' => ?_⟩
    · simp [RevokeWriter.contents, hdescriptor]
    · obtain rfl := some.inj hrecords'
      show w'.offset + 4 = _ ∧ w'.offset + 4 ≤ blocksize
      rw [length_append, length_singleton]
      omega
  | none =>
    refine ⟨?_, hformed.flushed, fun records' hrecords' => ?_⟩
    · simp [RevokeWriter.contents, hdescriptor]
    · obtain rfl := some.inj hrecords'
      show revokeHeaderSize + 4 = _ ∧ revokeHeaderSize + 4 ≤ blocksize
      rw [length_singleton]
      omega

theorem foldl_writeOne_spec (records : List RevokeRecord) (h : w.Formed blocksize tid) :
    (records.foldl (writeOneRevokeRecord blocksize tid) w).contents =
        w.contents ++ records.map RevokeRecord.blocknr ∧
      (records.foldl (writeOneRevokeRecord blocksize tid) w).Formed blocksize tid := by
  induction records generalizing w with
  | nil => exact ⟨(append_nil _).symm, h⟩
  | cons record records ih =>
    obtain ⟨hone, hformed⟩ := writeOneRevokeRecord_spec hsize hroom h record
    obtain ⟨hrest, hformed'⟩ := ih hformed
    refine ⟨?_, hformed'⟩
    rw [foldl_cons, hrest, hone, append_assoc, map_cons, singleton_append]

/-- **The records of a table** are written in the order of the lists, each once. -/
theorem writeRevokeLists_spec (table : RevokeTable) (hashSize : Nat) :
    (flushDescriptor tid (writeRevokeLists blocksize tid table hashSize)).flushed.flatMap
        RevokeBlock.records = Buckets.keys RevokeRecord.blocknr hashSize table ∧
      ∀ block ∈ (flushDescriptor tid (writeRevokeLists blocksize tid table hashSize)).flushed,
        block.Formed blocksize tid := by
  have hstart : RevokeWriter.Formed blocksize tid { descriptor := none, offset := 0, flushed := [] } :=
    ⟨nofun, fun _ h => absurd h (by simp)⟩
  obtain ⟨hcontents, hformed⟩ := foldl_writeOne_spec hsize hroom ((range hashSize).flatMap table) hstart
  rw [foldl_flatMap] at hcontents hformed
  obtain ⟨hflushed, hnone⟩ := flushDescriptor_formed hformed
  refine ⟨?_, hflushed.flushed⟩
  have hall := (flushDescriptor_contents tid _).trans hcontents
  rw [RevokeWriter.contents, hnone, getD_none, append_nil] at hall
  rw [writeRevokeLists, hall, Buckets.keys, map_flatMap]
  rfl

end

end Writing

/-! ## Runs -/

/-- A step of a run: the buffer of a block may leave the cache or come back between any two calls. -/
inductive RevokeOp where
  | revoke (tid : BitVec 32) (blocknr : Nat)
  | cancel (blocknr : Nat)
  | drop (blocknr : Nat)
  | load (blocknr : Nat)
  | commit (tid : BitVec 32)

inductive RevokeResult where
  | revoked (error : Option RevokeError)
  | cancelled (didRevoke : Bool)
  | done
  | written (blocks : List RevokeBlock)
  deriving DecidableEq

/-- The journal: the hash of its tables, their size, and the size of its blocks. -/
structure RevokeJournal where
  hash : Nat → Nat
  hashSize : Nat
  blocksize : Nat
  hash_lt : ∀ blocknr, hash blocknr < hashSize
  blocksize_dvd : 4 ∣ blocksize
  blocksize_room : revokeHeaderSize < blocksize

/-- A buffer that is read in has no flags; one that is in the cache keeps its own. -/
def loadBuffer (s : RevokeState) (blocknr : Nat) : RevokeState :=
  s.setFlags blocknr (s.bufferOf blocknr)

def dropBuffer (s : RevokeState) (blocknr : Nat) : RevokeState :=
  { s with buffers := update s.buffers blocknr none }

def revokeStep (j : RevokeJournal) (s : RevokeState) : RevokeOp → Option (RevokeResult × RevokeState)
  | .revoke tid blocknr =>
    some (.revoked (journalRevoke j.hash tid s blocknr).1, (journalRevoke j.hash tid s blocknr).2)
  | .cancel blocknr =>
    some (.cancelled (journalCancelRevoke j.hash s blocknr).1, (journalCancelRevoke j.hash s blocknr).2)
  | .drop blocknr => some (.done, dropBuffer s blocknr)
  | .load blocknr => some (.done, loadBuffer s blocknr)
  | .commit tid =>
    let r := journalWriteRevokeRecords j.hashSize j.blocksize tid (journalSwitchRevokeTable j.hashSize s)
    some (.written r.1, r.2)

/-- What a step may return, and what it does to the set of blocks whose last step in the transaction was a
revoke: an error only for a block that is in it, and at the commit exactly its blocks, each once, in blocks
of the transaction. -/
def RevokeSpec (j : RevokeJournal) (pending : Set Nat) (op : RevokeOp) (r : RevokeResult)
    (pending' : Set Nat) : Prop :=
  match op with
  | .revoke _ blocknr =>
    pending' = insert blocknr pending ∧ ∃ error, r = .revoked error ∧ (error ≠ none → blocknr ∈ pending)
  | .cancel blocknr =>
    pending' = pending \ {blocknr} ∧ ∃ did, r = .cancelled did ∧ (did = true ↔ blocknr ∈ pending)
  | .drop _ => pending' = pending
  | .load _ => pending' = pending
  | .commit tid =>
    pending' = ∅ ∧ ∃ blocks, r = .written blocks ∧ (blocks.flatMap RevokeBlock.records).Nodup ∧
      (∀ blocknr, blocknr ∈ blocks.flatMap RevokeBlock.records ↔ blocknr ∈ pending) ∧
      ∀ block ∈ blocks, block.Formed j.blocksize tid

/-- The flag of a block's buffer that `journal_revoke` looks at. -/
def FlaggedRevoked (s : RevokeState) (blocknr : Nat) : Prop :=
  ∃ bh, s.buffers blocknr = some bh ∧ bh.revoked = true

/-- The current table has a record of the block. -/
def HasRecord (j : RevokeJournal) (s : RevokeState) (blocknr : Nat) : Prop :=
  Buckets.Has RevokeRecord.blocknr j.hash (s.table s.current) blocknr

/-- A block is revoked only while the flag of its buffer tells the truth: it is set, in a buffer that is in
the cache, if and only if there is a record of the block in this transaction. -/
def RevokeFits (j : RevokeJournal) (s : RevokeState) : RevokeOp → Prop
  | .revoke _ blocknr => FlaggedRevoked s blocknr ↔ HasRecord j s blocknr
  | _ => True

/-- The tables hold what is pending, and a buffer that says that its block is not revoked is right. -/
structure RevokePending (j : RevokeJournal) (s : RevokeState) (pending : Set Nat) : Prop where
  sound : Buckets.Sound RevokeRecord.blocknr j.hash (s.table s.current)
  hasRecord : ∀ blocknr, HasRecord j s blocknr ↔ blocknr ∈ pending
  other : ∀ i, s.table (!s.current) i = []
  valid : ∀ blocknr bh, s.buffers blocknr = some bh → bh.revokeValid = true → bh.revoked = false →
    blocknr ∉ pending

section Steps

variable {j : RevokeJournal} {s : RevokeState} {pending : Set Nat}

section

variable (h : RevokePending j s pending)
include h

theorem RevokePending.setCurrent {table : RevokeTable} {pending' : Set Nat}
    (hsound : Buckets.Sound RevokeRecord.blocknr j.hash table)
    (hhas : ∀ b, Buckets.Has RevokeRecord.blocknr j.hash table b ↔ b ∈ pending')
    (hvalid : ∀ b bh, s.buffers b = some bh → bh.revokeValid = true → bh.revoked = false → b ∉ pending') :
    RevokePending j (s.setCurrent table) pending' := by
  have hcurrent : (s.setCurrent table).table s.current = table := update_self _ _ _
  rw [← hcurrent] at hsound hhas
  refine ⟨hsound, hhas, fun i => ?_, hvalid⟩
  show update s.table s.current table (!s.current) i = []
  rw [update_of_ne (Bool.not_ne_self _)]
  exact h.other i

variable {blocknr : Nat}

theorem RevokePending.setBuffer {flags : Option BufferFlags}
    (hflags : ∀ bh, flags = some bh → bh.revokeValid = true → bh.revoked = false → blocknr ∉ pending) :
    RevokePending j { s with buffers := update s.buffers blocknr flags } pending := by
  refine ⟨h.sound, h.hasRecord, h.other, (forall_update_iff s.buffers fun b flags => ∀ bh, flags = some bh →
    bh.revokeValid = true → bh.revoked = false → b ∉ pending).mpr ⟨hflags, fun b _ => h.valid b⟩⟩

theorem RevokePending.insert (tid : BitVec 32) (hnew : blocknr ∉ pending)
    (hflags : ∀ bh, s.buffers blocknr = some bh → bh.revokeValid = true → bh.revoked = true) :
    RevokePending j (s.setCurrent (insertRevokeHash j.hash (s.table s.current) blocknr tid))
      (insert blocknr pending) := by
  refine h.setCurrent (sound_push h.sound fun hhas => hnew ((h.hasRecord _).mp hhas)) ?_ ?_
  · intro b
    rw [insertRevokeHash, has_push, mem_insert_iff]
    exact or_congr Iff.rfl (h.hasRecord b)
  · intro b bh hbh hvalid hrevoked hmem
    rcases mem_insert_iff.mp hmem with rfl | hold
    · rw [hflags bh hbh hvalid] at hrevoked
      cases hrevoked
    · exact h.valid b bh hbh hvalid hrevoked hold

theorem journalRevoke_spec {tid : BitVec 32} (hfits : RevokeFits j s (.revoke tid blocknr)) :
    ((journalRevoke j.hash tid s blocknr).1 ≠ none → blocknr ∈ pending) ∧
      RevokePending j (journalRevoke j.hash tid s blocknr).2 (Insert.insert blocknr pending) := by
  have hnew : ¬ FlaggedRevoked s blocknr → blocknr ∉ pending := fun hflag hmem =>
    hflag (hfits.mpr ((h.hasRecord _).mpr hmem))
  rw [journalRevoke]
  cases hbh : s.buffers blocknr with
  | none =>
    refine ⟨fun hne => absurd rfl hne, h.insert tid (hnew ?_) fun bh hsome => ?_⟩
    · rintro ⟨bh, hsome, -⟩
      cases hbh.symm.trans hsome
    · cases hbh.symm.trans hsome
  | some bh =>
    by_cases hrevoked : bh.revoked = true
    · have hmem := (h.hasRecord _).mp (hfits.mp ⟨bh, hbh, hrevoked⟩)
      simp only [if_pos hrevoked]
      refine ⟨fun _ => hmem, ?_⟩
      rw [insert_eq_of_mem hmem]
      exact h
    · simp only [if_neg hrevoked]
      refine ⟨fun hne => absurd rfl hne, ?_⟩
      have hflagged : ¬ FlaggedRevoked s blocknr := by
        rintro ⟨bh', hsome, hset⟩
        obtain rfl := some.inj (hbh.symm.trans hsome)
        exact hrevoked hset
      have hset : RevokePending j (s.setFlags blocknr { revoked := true, revokeValid := true }) pending :=
        h.setBuffer fun bh' hbh' _ hclear => by
          obtain rfl := some.inj hbh'
          cases hclear
      refine hset.insert tid (hnew hflagged) fun bh' hbh' _ => ?_
      rw [setFlags_self] at hbh'
      obtain rfl := some.inj hbh'
      rfl

theorem RevokePending.remove (blocknr : Nat) : RevokePending j
      (s.setCurrent (remove RevokeRecord.blocknr j.hash (s.table s.current) blocknr))
      (pending \ {blocknr}) := by
  refine h.setCurrent (sound_remove h.sound blocknr) (fun b => ?_) ?_
  · rw [h.sound.has_remove, mem_sdiff, mem_singleton_iff, and_comm]
    exact and_congr (h.hasRecord b) Iff.rfl
  · exact fun b bh hbh hvalid hrevoked hmem => h.valid b bh hbh hvalid hrevoked hmem.1

theorem journalCancelRevoke_spec (blocknr : Nat) :
    ((journalCancelRevoke j.hash s blocknr).1 = true ↔ blocknr ∈ pending) ∧
      RevokePending j (journalCancelRevoke j.hash s blocknr).2 (pending \ {blocknr}) := by
  -- without a record, only the flags change
  have hnone : blocknr ∉ pending →
      RevokePending j (s.setFlags blocknr { revoked := false, revokeValid := true }) (pending \ {blocknr}) := by
    intro hmem
    rw [sdiff_singleton_eq_self hmem]
    exact h.setBuffer fun _ _ _ _ => hmem
  rw [journalCancelRevoke]
  by_cases hneed : (s.bufferOf blocknr).needCancel = true
  · rw [if_pos hneed]
    have htable : ((s.setFlags blocknr { revoked := false, revokeValid := true }).table
        (s.setFlags blocknr { revoked := false, revokeValid := true }).current) = s.table s.current := rfl
    rw [htable]
    cases hfind : findRevokeRecord j.hash (s.table s.current) blocknr with
    | none =>
      have hmem : blocknr ∉ pending := fun hmem =>
        find_eq_none_iff.mp hfind ((h.hasRecord _).mpr hmem)
      exact ⟨iff_of_false Bool.false_ne_true hmem, hnone hmem⟩
    | some record =>
      have hmem : blocknr ∈ pending := by
        refine (h.hasRecord _).mp (find_isSome_iff.mp ?_)
        exact isSome_iff_exists.mpr ⟨record, hfind⟩
      refine ⟨iff_of_true rfl hmem, ?_⟩
      exact (h.remove blocknr).setBuffer fun _ _ _ _ hin => hin.2 rfl
  · rw [if_neg hneed]
    -- the flags are valid, and say that the block is not revoked
    have hmem : blocknr ∉ pending := by
      rw [BufferFlags.needCancel] at hneed
      cases hbh : s.buffers blocknr with
      | none =>
        rw [RevokeState.bufferOf, hbh] at hneed
        exact absurd rfl hneed
      | some bh =>
        rw [RevokeState.bufferOf, hbh, getD_some] at hneed
        split at hneed
        · rename_i hvalid
          exact h.valid blocknr bh hbh hvalid (Bool.eq_false_of_not_eq_true hneed)
        · exact absurd rfl hneed
    exact ⟨iff_of_false Bool.false_ne_true hmem, hnone hmem⟩

end

/-- After the switch, the table of the transaction is the other one, and the current one is empty. -/
theorem switch_tables (h : RevokePending j s pending) :
    (journalSwitchRevokeTable j.hashSize s).table (!!s.current) = s.table s.current ∧
      (journalSwitchRevokeTable j.hashSize s).table (!s.current) = fun _ => [] := by
  constructor
  · rw [Bool.not_not]
    exact update_of_ne (Bool.not_ne_self s.current).symm _ _
  · refine (update_self _ _ _).trans (funext fun i => ?_)
    show (if i < j.hashSize then [] else s.table (!s.current) i) = []
    rw [h.other i, ite_self]

theorem revokePending_empty (hcurrent : s.table s.current = fun _ => [])
    (hother : ∀ i, s.table (!s.current) i = []) : RevokePending j s ∅ := by
  refine ⟨?_, fun b => ?_, hother, fun _ _ _ _ _ => notMem_empty _⟩
  · rw [hcurrent]
    exact sound_empty
  · rw [HasRecord, hcurrent]
    refine iff_of_false ?_ (notMem_empty b)
    rintro ⟨a, ha, -⟩
    exact not_mem_nil ha

theorem commit_pending (h : RevokePending j s pending) (tid : BitVec 32) :
    RevokePending j (journalWriteRevokeRecords j.hashSize j.blocksize tid
      (journalSwitchRevokeTable j.hashSize s)).2 ∅ := by
  obtain ⟨hold, hnew⟩ := switch_tables h
  refine revokePending_empty ?_ fun i => ?_
  · exact (update_of_ne (Bool.not_ne_self (!s.current)).symm _ _).trans hnew
  · -- no record is in a list behind the last one
    show update (journalSwitchRevokeTable j.hashSize s).table (!!s.current) (fun i => if i < j.hashSize then [] else
      (journalSwitchRevokeTable j.hashSize s).table (!!s.current) i) (!!s.current) i = []
    rw [update_self, hold]
    split
    · rfl
    · rename_i hi
      refine eq_nil_iff_forall_not_mem.mpr fun a ha => hi ?_
      rw [← h.sound.placed i a ha]
      exact j.hash_lt _

theorem commit_written (h : RevokePending j s pending) (tid : BitVec 32) :
    (journalWriteRevokeRecords j.hashSize j.blocksize tid
        (journalSwitchRevokeTable j.hashSize s)).1.flatMap RevokeBlock.records =
      keys RevokeRecord.blocknr j.hashSize (s.table s.current) ∧
    ∀ block ∈ (journalWriteRevokeRecords j.hashSize j.blocksize tid
        (journalSwitchRevokeTable j.hashSize s)).1, block.Formed j.blocksize tid := by
  have hold : (journalSwitchRevokeTable j.hashSize s).table (!(journalSwitchRevokeTable j.hashSize s).current) =
      s.table s.current := (switch_tables h).1
  rw [journalWriteRevokeRecords, hold]
  exact writeRevokeLists_spec j.blocksize_dvd j.blocksize_room (s.table s.current) j.hashSize

end Steps

theorem revokeStep_refines {j : RevokeJournal} (s : RevokeState) (pending : Set Nat) (op : RevokeOp)
    (h : RevokePending j s pending) (hfits : RevokeFits j s op) :
    ∃ r s' pending', revokeStep j s op = some (r, s') ∧ RevokeSpec j pending op r pending' ∧
      RevokePending j s' pending' := by
  cases op with
  | revoke tid blocknr =>
    obtain ⟨herror, h'⟩ := journalRevoke_spec h hfits
    exact ⟨_, _, _, rfl, ⟨rfl, _, rfl, herror⟩, h'⟩
  | cancel blocknr =>
    obtain ⟨hdid, h'⟩ := journalCancelRevoke_spec h blocknr
    exact ⟨_, _, _, rfl, ⟨rfl, _, rfl, hdid⟩, h'⟩
  | drop blocknr => exact ⟨_, _, _, rfl, rfl, h.setBuffer fun _ hnone => absurd hnone (by simp)⟩
  | load blocknr =>
    refine ⟨_, _, _, rfl, rfl, h.setBuffer fun bh hbh hvalid hrevoked => ?_⟩
    cases hold : s.buffers blocknr with
    | none =>
      rw [RevokeState.bufferOf, hold] at hbh
      obtain rfl := some.inj hbh
      cases hvalid
    | some bh' =>
      rw [RevokeState.bufferOf, hold] at hbh
      obtain rfl := some.inj hbh
      exact h.valid blocknr _ hold hvalid hrevoked
  | commit tid =>
    obtain ⟨hwritten, hformed⟩ := commit_written h tid
    refine ⟨_, _, _, rfl, ⟨rfl, _, rfl, ?_, fun blocknr => ?_, hformed⟩, commit_pending h tid⟩
    · rw [hwritten]
      exact h.sound.nodup_keys j.hashSize
    · rw [hwritten, h.sound.mem_keys j.hash_lt]
      exact h.hasRecord blocknr

/-- The state of a new journal, with any buffers in the cache. -/
def initRevoke (buffers : Nat → Option BufferFlags) : RevokeState where
  table _ _ := []
  current := true
  buffers := buffers

theorem revokePending_init (j : RevokeJournal) (buffers : Nat → Option BufferFlags) :
    RevokePending j (initRevoke buffers) ∅ :=
  revokePending_empty rfl fun _ => rfl

/-- **The records written are what happened.** In every run of transactions from a new journal, whatever
leaves the cache in between, in which every revoke meets a flag that tells the truth: the records written
for a transaction are the blocks whose last step in it was a revoke, each written once, and a revoke fails
only for a block that has been revoked in the transaction already. -/
theorem revoke_records_match (j : RevokeJournal) (buffers : Nat → Option BufferFlags) {ops : List RevokeOp}
    {rs : List RevokeResult} {s : RevokeState}
    (hfits : Runs.Along (revokeStep j) (RevokeFits j) (initRevoke buffers) ops)
    (hrun : Runs.run (revokeStep j) (initRevoke buffers) ops = some (rs, s)) :
    ∃ pending, Runs.Allows (RevokeSpec j) ∅ ops rs pending := by
  obtain ⟨rs', s', pending, hrun', hallows, -⟩ :=
    Runs.run_refines revokeStep_refines (revokePending_init j buffers) hfits
  rw [hrun] at hrun'
  obtain ⟨rfl, rfl⟩ := Prod.mk.inj (some.inj hrun')
  exact ⟨pending, hallows⟩

/-- A journal with two lists and blocks of 1024 bytes. -/
def smallJournal : RevokeJournal where
  hash blocknr := blocknr % 2
  hashSize := 2
  blocksize := 1024
  hash_lt blocknr := Nat.mod_lt blocknr (by decide)
  blocksize_dvd := by decide
  blocksize_room := by decide

/-- Two blocks are revoked, and one of them is written to again before the commit. -/
theorem revoke_records_match_cancel : ∃ rs s, Runs.run (revokeStep smallJournal) (initRevoke fun _ => none)
        [.revoke 1 5, .revoke 1 7, .cancel 5, .commit 1] = some (rs, s) ∧
      rs = [.revoked none, .revoked none, .cancelled true, .written [⟨1, 20, [7]⟩]] ∧
      ∃ pending, Runs.Allows (RevokeSpec smallJournal) ∅
        [.revoke 1 5, .revoke 1 7, .cancel 5, .commit 1] rs pending := by
  have hfits : Runs.Along (revokeStep smallJournal) (RevokeFits smallJournal) (initRevoke fun _ => none)
      [.revoke 1 5, .revoke 1 7, .cancel 5, .commit 1] := by
    refine ⟨iff_of_false ?_ ?_, fun p hp => ?_⟩
    · rintro ⟨bh, hbh, -⟩
      cases hbh
    · rintro ⟨a, ha, -⟩
      exact not_mem_nil ha
    obtain rfl := some.inj hp
    refine ⟨iff_of_false ?_ ?_, fun _ _ => ⟨trivial, fun _ _ => ⟨trivial, fun _ _ => trivial⟩⟩⟩
    · rintro ⟨bh, hbh, -⟩
      cases hbh
    · rintro ⟨a, ha, hkey⟩
      obtain rfl := mem_singleton.mp ha
      cases hkey
  exact ⟨_, _, rfl, rfl, revoke_records_match smallJournal _ hfits rfl⟩

/-- **Flags that do not tell the truth.** A block whose buffer still has the flag of the last transaction
cannot be revoked in the next one; and a block whose buffer has lost the flag is revoked twice in one, and
its record is written twice. -/
theorem revoke_flag_wrong : (Runs.run (revokeStep smallJournal) (initRevoke fun _ => none)
        [.load 5, .revoke 1 5, .commit 1, .revoke 2 5, .commit 2]).map Prod.fst =
      some [.done, .revoked none, .written [⟨1, 20, [5]⟩], .revoked (some .eio), .written []] ∧
    (Runs.run (revokeStep smallJournal) (initRevoke fun _ => none)
        [.load 5, .revoke 1 5, .drop 5, .revoke 1 5, .commit 1]).map Prod.fst =
      some [.done, .revoked none, .done, .revoked none, .written [⟨1, 24, [5, 5]⟩]] :=
  ⟨rfl, rfl⟩

end Linux
