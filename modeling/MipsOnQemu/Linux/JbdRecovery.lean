/-
# MipsOnQemu.Linux.JbdRecovery -- recovery from a journal

`fs/jbd/recovery.c`, with the part of `fs/jbd/revoke.c` that it uses. The log is a ring of blocks. A
transaction in it is a sequence of descriptor blocks, each followed by copies of the blocks that its tags
name, and of revoke blocks; it ends with a commit block. `do_one_pass` walks through the log, as long as
the blocks have the journal's magic number and the sequence number of the next commit: once to find the
end, once to collect the revoke records, and once to write the copies back.

The log and the file system are kept apart here: a tag that names a block of the log itself is not looked
at. A block is a sequence of 32-bit words, in the order of the machine; what lies behind its end in memory
counts as further words.
-/

import MipsOnQemu.Lib.Loop
import MipsOnQemu.Linux.JbdRevoke

namespace Linux

/-- The words of a block, and of what follows it in memory. -/
abbrev LogBlock := Nat → BitVec 32

def jfsMagicNumber : BitVec 32 := 0xc03b3998#32

def jfsDescriptorBlock : BitVec 32 := 1#32

def jfsCommitBlock : BitVec 32 := 2#32

def jfsRevokeBlock : BitVec 32 := 5#32

/-- The first and the last block of the log (`j_last`, which is also `j_maxlen`), the size of a block in
words, and the fields `s_start` and `s_sequence` of the superblock. -/
structure JournalSuper where
  first : BitVec 32
  last : BitVec 32
  words : Nat
  start : BitVec 32
  sequence : BitVec 32

/-! ## Blocks of the log -/

/-- The field `h_magic` of a header. -/
def LogBlock.magic (b : LogBlock) : BitVec 32 := b 0

def LogBlock.blocktype (b : LogBlock) : BitVec 32 := b 1

def LogBlock.sequence (b : LogBlock) : BitVec 32 := b 2

/-- `r_count` of a revoke header. -/
def LogBlock.rCount (b : LogBlock) : BitVec 32 := b 3

structure BlockTag where
  blocknr : BitVec 32
  flags : BitVec 32
  deriving DecidableEq

def BlockTag.escape (tag : BlockTag) : Bool := tag.flags &&& 1#32 ≠ 0#32

def BlockTag.sameUuid (tag : BlockTag) : Bool := tag.flags &&& 2#32 ≠ 0#32

def BlockTag.lastTag (tag : BlockTag) : Bool := tag.flags &&& 8#32 ≠ 0#32

/-- The loop over the tags of a descriptor block, from an offset in words on. A tag may be followed by a
uuid. -/
def tagsFrom (words : Nat) (b : LogBlock) : Nat → Nat → List BlockTag
  | 0, _ => []
  | rounds + 1, offset =>
    if offset + 2 ≤ words then
      let tag : BlockTag := ⟨b offset, b (offset + 1)⟩
      tag :: if tag.lastTag then [] else tagsFrom words b rounds (offset + 2 + if tag.sameUuid then 0 else 4)
    else []

/-- The tags of a descriptor block, behind the header of three words. -/
def blockTags (words : Nat) (b : LogBlock) : List BlockTag := tagsFrom words b words 3

def countTags (words : Nat) (b : LogBlock) : Nat := (blockTags words b).length

def JournalSuper.wrap (j : JournalSuper) (pos : BitVec 32) : BitVec 32 :=
  if pos ≥ j.last then pos - (j.last - j.first) else pos

/-! ## Revoke records -/

def tidGt (x y : BitVec 32) : Bool := decide (0 < (x - y).toInt)

def tidGeq (x y : BitVec 32) : Bool := decide (0 ≤ (x - y).toInt)

section Revoke

variable (hash : Nat → Nat)

def journalSetRevoke (table : RevokeTable) (blocknr : Nat) (sequence : BitVec 32) : RevokeTable :=
  match findRevokeRecord hash table blocknr with
  | some record =>
    if tidGt sequence record.sequence then
      Buckets.adjust RevokeRecord.blocknr hash table blocknr fun r => { r with sequence := sequence }
    else table
  | none => insertRevokeHash hash table blocknr sequence

def journalTestRevoke (table : RevokeTable) (blocknr : Nat) (sequence : BitVec 32) : Bool :=
  match findRevokeRecord hash table blocknr with
  | some record => !tidGt sequence record.sequence
  | none => false

end Revoke

/-! ## A pass -/

inductive PassType where
  | scan
  | revoke
  | replay
  deriving DecidableEq

/-- What recovery works on: the log, the blocks of the file system, the revoke table, the variables of
`do_one_pass`, whether there was no error so far, and the revoke block and the offset in it while
`scan_revoke_records` is at work. -/
structure Recovery where
  log : BitVec 32 → LogBlock
  fs : Nat → LogBlock
  table : RevokeTable
  nextCommitId : BitVec 32
  nextLogBlock : BitVec 32
  success : Bool
  records : Option (LogBlock × BitVec 32)

def copyBlock (words : Nat) (src dst : LogBlock) : LogBlock := fun i => if i < words then src i else dst i

/-- What a pass returns (whether there was no error), and what it leaves. -/
structure PassResult where
  ok : Bool
  state : Recovery

/-- The end of `do_one_pass`. It is an error if the later passes end at another place than the first. -/
def passDone (pass : PassType) (endTransaction : BitVec 32) (s : Recovery) : PassResult :=
  ⟨s.success && (pass = .scan || endTransaction = s.nextCommitId), s⟩

section Pass

variable (hash : Nat → Nat) (j : JournalSuper)

/-- A tag of a descriptor block, in the last pass. The word that an escaped copy has lost is written to the
buffer of the descriptor block, at `desc`. -/
def replayTag (desc : BitVec 32) (s : Recovery) (tag : BlockTag) : Recovery :=
  let ioBlock := s.nextLogBlock
  let s := { s with nextLogBlock := j.wrap (s.nextLogBlock + 1#32) }
  if ioBlock < j.last then
    if journalTestRevoke hash s.table tag.blocknr.toNat s.nextCommitId then s
    else
      let nbh := copyBlock j.words (s.log ioBlock) (s.fs tag.blocknr.toNat)
      let s := { s with fs := Function.update s.fs tag.blocknr.toNat nbh }
      if tag.escape then
        { s with log := Function.update s.log desc (Function.update (s.log desc) 0 jfsMagicNumber) }
      else s
  else { s with success := false }

/-- One round of a pass: a block of the log, or a record of a revoke block. `endTransaction` is what the
first pass has found. -/
def passStep (pass : PassType) (endTransaction : BitVec 32) (s : Recovery) : Recovery ⊕ PassResult :=
  match s.records with
  | some (b, offset) =>
    -- `scan_revoke_records`, with offsets of type `int`
    if offset.slt b.rCount then
      .inl { s with
        table := journalSetRevoke hash s.table (b (offset.toNat / 4)).toNat s.nextCommitId
        records := some (b, offset + 4#32) }
    else .inl { s with records := none }
  | none =>
    if pass ≠ .scan ∧ tidGeq s.nextCommitId endTransaction then .inr (passDone pass endTransaction s)
    else if s.nextLogBlock < j.last then
      let pos := s.nextLogBlock
      let b := s.log pos
      let s := { s with nextLogBlock := j.wrap (pos + 1#32) }
      if b.magic ≠ jfsMagicNumber then .inr (passDone pass endTransaction s)
      else if b.sequence ≠ s.nextCommitId then .inr (passDone pass endTransaction s)
      else if b.blocktype = jfsDescriptorBlock then
        if pass ≠ .replay then
          .inl { s with nextLogBlock := j.wrap (s.nextLogBlock + BitVec.ofNat 32 (countTags j.words b)) }
        else .inl ((blockTags j.words b).foldl (replayTag hash j pos) s)
      else if b.blocktype = jfsCommitBlock then .inl { s with nextCommitId := s.nextCommitId + 1#32 }
      else if b.blocktype = jfsRevokeBlock then
        if pass ≠ .revoke then .inl s else .inl { s with records := some (b, 16#32) }
      else .inr (passDone pass endTransaction s)
    else .inr ⟨false, s⟩

/-- `do_one_pass`, in a number of rounds. -/
def doOnePass (pass : PassType) (endTransaction : BitVec 32) (rounds : Nat) (s : Recovery) : Option PassResult :=
  Loop.run (fun s => some (passStep hash j pass endTransaction s)) rounds
    { s with nextCommitId := j.sequence, nextLogBlock := j.start, success := true, records := none }

/-- The three passes of `journal_recover`. -/
def threePasses (rounds : Nat) (s : Recovery) : Option PassResult :=
  (doOnePass hash j .scan 0#32 rounds s).bind fun scan =>
    if scan.ok then
      (doOnePass hash j .revoke scan.state.nextCommitId rounds scan.state).bind fun revoke =>
        if revoke.ok then doOnePass hash j .replay scan.state.nextCommitId rounds revoke.state else some revoke
    else some scan

def journalRecover (rounds : Nat) (s : Recovery) : Option PassResult :=
  if j.start = 0#32 then some ⟨true, s⟩
  else (threePasses hash j rounds s).map fun r => { r with state := { r.state with table := fun _ => [] } }

end Pass

end Linux
