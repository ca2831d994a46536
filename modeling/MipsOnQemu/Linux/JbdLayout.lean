/-
# MipsOnQemu.Linux.JbdLayout -- the log as the commit code writes it

`journal_commit_transaction` writes revoke blocks and descriptor blocks with copies of the blocks that
they name, one after another round the log, and a commit block behind them. A copy that begins with the
magic number is stored with a zero instead, and its tag says so. What follows the last commit block may
be the beginning of a transaction, but has no commit block (`Incomplete`). The tags of a descriptor block
read back as they were written (`blockTags_blocknr`), and the walk through such a log ends behind its
last commit block (`walk_written`).
-/

import MipsOnQemu.Linux.JbdPasses

namespace Linux

open List BlockTag Loop

/-! ## Transactions -/

/-- A block as a transaction has it. -/
structure BlockCopy where
  blocknr : BitVec 32
  contents : LogBlock

/-- Does the copy begin with the magic number? -/
def BlockCopy.escaped (c : BlockCopy) : Bool := c.contents.magic = jfsMagicNumber

/-- What `journal_write_metadata_buffer` puts into the log. -/
def LogBlock.stored (b : LogBlock) : LogBlock := if b.magic = jfsMagicNumber then Function.update b 0 0#32 else b

/-- A revoke block with its records, or a descriptor block with its copies. -/
inductive LogItem where
  | revoke (blocks : List (BitVec 32))
  | copies (blocks : List BlockCopy)

/-- The blocks that an item takes. -/
def LogItem.size : LogItem → Nat
  | .revoke _ => 1
  | .copies blocks => blocks.length + 1

def LogItem.revokes (b : Nat) : LogItem → Bool
  | .revoke blocks => blocks.any fun r => r.toNat = b
  | .copies _ => false

def LogItem.blocks : LogItem → List BlockCopy
  | .revoke _ => []
  | .copies blocks => blocks

/-- What a transaction writes before its commit block. -/
abbrev Transaction := List LogItem

def Transaction.size (t : Transaction) : Nat := (t.map LogItem.size).sum

def Transaction.revokes (t : Transaction) (b : Nat) : Bool := t.any (LogItem.revokes b)

/-- The last copy of a block in a list. -/
def lastCopy (b : Nat) : List BlockCopy → Option LogBlock
  | [] => none
  | c :: cs => (lastCopy b cs).or (if c.blocknr.toNat = b then some c.contents else none)

/-- The last copy of a block in a transaction. -/
def Transaction.lastCopy (t : Transaction) (b : Nat) : Option LogBlock := Linux.lastCopy b (t.flatMap LogItem.blocks)

/-! ## Blocks of a transaction -/

/-- Where `journal_commit_transaction` puts a tag: the first one is followed by the uuid. -/
def tagOffset (i : Nat) : Nat := if i = 0 then 3 else 2 * i + 7

def tagFlags (c : BlockCopy) (isFirst isLast : Bool) : BitVec 32 :=
  (if c.escaped then 1#32 else 0#32) ||| (if isFirst then 0#32 else 2#32) ||| (if isLast then 8#32 else 0#32)

/-- A descriptor block for some copies. There is always room for one more uuid. -/
structure LogBlock.IsDescriptor (b : LogBlock) (words : Nat) (id : BitVec 32) (blocks : List BlockCopy) : Prop where
  magic : b.magic = jfsMagicNumber
  blocktype : b.blocktype = jfsDescriptorBlock
  sequence : b.sequence = id
  nonempty : blocks ≠ []
  space : 2 * blocks.length + 7 ≤ words
  tags : ∀ i c, blocks[i]? = some c → b (tagOffset i) = c.blocknr ∧
    b (tagOffset i + 1) = tagFlags c (i = 0) (i + 1 = blocks.length)

/-- A revoke block for some records, as `flush_descriptor` leaves it. -/
structure LogBlock.IsRevoke (b : LogBlock) (words : Nat) (id : BitVec 32) (blocks : List (BitVec 32)) : Prop where
  magic : b.magic = jfsMagicNumber
  blocktype : b.blocktype = jfsRevokeBlock
  sequence : b.sequence = id
  count : b.rCount = BitVec.ofNat 32 (revokeHeaderSize + 4 * blocks.length)
  space : blocks.length + 4 ≤ words
  records : ∀ i r, blocks[i]? = some r → b (4 + i) = r

structure LogBlock.IsCommit (b : LogBlock) (id : BitVec 32) : Prop where
  magic : b.magic = jfsMagicNumber
  blocktype : b.blocktype = jfsCommitBlock
  sequence : b.sequence = id

/-! ## The log -/

/-- `journal_next_log_block`, a number of times. -/
def JournalSuper.after (j : JournalSuper) (pos : BitVec 32) (n : Nat) : BitVec 32 := (fun p => j.wrap (p + 1#32))^[n] pos

section Written

variable (j : JournalSuper) (log : BitVec 32 → LogBlock)

def LogItem.Written (id pos : BitVec 32) : LogItem → Prop
  | .revoke blocks => (log pos).IsRevoke j.words id blocks
  | .copies blocks => (log pos).IsDescriptor j.words id blocks ∧
      ∀ i c, blocks[i]? = some c → ∀ w < j.words, log (j.after pos (i + 1)) w = c.contents.stored w

/-- Items one after another. -/
def ItemsWritten (id : BitVec 32) : BitVec 32 → List LogItem → Prop
  | _, [] => True
  | pos, item :: items => item.Written j log id pos ∧ ItemsWritten id (j.after pos item.size) items

/-- No complete transaction: descriptor blocks, with anything behind them, and revoke blocks, and then a
block that is not part of the log. -/
inductive Incomplete (id : BitVec 32) : BitVec 32 → Prop
  | stop {pos : BitVec 32} : pos < j.last → logEntryOf (log pos) id = .stop → Incomplete id pos
  | revoke {pos : BitVec 32} : pos < j.last → logEntryOf (log pos) id = .revoke →
      Incomplete id (j.wrap (pos + 1#32)) → Incomplete id pos
  | descriptor {pos : BitVec 32} : pos < j.last → logEntryOf (log pos) id = .descriptor →
      Incomplete id (j.wrap (j.wrap (pos + 1#32) + BitVec.ofNat 32 (countTags j.words (log pos)))) → Incomplete id pos

/-- Transactions one after another, and what follows them. -/
def LogWritten : BitVec 32 → BitVec 32 → List Transaction → Prop
  | id, pos, [] => Incomplete j log id pos
  | id, pos, t :: ts => ItemsWritten j log id pos t ∧ (log (j.after pos t.size)).IsCommit id ∧
      LogWritten (id + 1#32) (j.after pos (t.size + 1)) ts

end Written

/-- **A journal as it is found after a crash:** some transactions in the log, without overwriting each
other, and no revoke records in memory. -/
structure Committed (j : JournalSuper) (s : Recovery) (txs : List Transaction) : Prop where
  valid : j.Valid
  words_pos : 0 < j.words
  first_pos : 0#32 < j.first
  start_ge : j.first ≤ j.start
  start_lt : j.start < j.last
  fits : (txs.map fun t => t.size + 1).sum ≤ j.last.toNat - j.first.toNat
  written : LogWritten j s.log j.sequence j.start txs
  table : s.table = fun _ => []

/-! ## Reading blocks -/

theorem lastTag_tagFlags (nr : BitVec 32) (c : BlockCopy) (isFirst isLast : Bool) :
    lastTag ⟨nr, tagFlags c isFirst isLast⟩ = isLast := by
  have hbits : ∀ e f l : Bool, decide (((if e then 1#32 else 0#32) ||| (if f then 0#32 else 2#32) |||
      (if l then 8#32 else 0#32)) &&& 8#32 ≠ 0#32) = l := by decide
  exact hbits c.escaped isFirst isLast

theorem sameUuid_tagFlags (nr : BitVec 32) (c : BlockCopy) (isFirst isLast : Bool) :
    sameUuid ⟨nr, tagFlags c isFirst isLast⟩ = !isFirst := by
  have hbits : ∀ e f l : Bool, decide (((if e then 1#32 else 0#32) ||| (if f then 0#32 else 2#32) |||
      (if l then 8#32 else 0#32)) &&& 2#32 ≠ 0#32) = !f := by decide
  exact hbits c.escaped isFirst isLast

section Blocks

variable {b : LogBlock} {words : Nat} {id : BitVec 32}

variable {blocks : List BlockCopy}

theorem tagsFrom_blocknr (h : b.IsDescriptor words id blocks) {rounds i : Nat}
    (hi : i < blocks.length) (hrounds : blocks.length - i ≤ rounds) :
    (tagsFrom words b rounds (tagOffset i)).map blocknr = (blocks.drop i).map BlockCopy.blocknr := by
  induction rounds generalizing i with
  | zero => omega
  | succ rounds ih =>
    obtain ⟨hnr, hflags⟩ := h.tags i blocks[i] (List.getElem?_eq_getElem hi)
    have hspace : tagOffset i + 2 ≤ words := by
      have hspace := h.space
      rw [tagOffset]
      split <;> omega
    rw [tagsFrom, if_pos hspace, drop_eq_getElem_cons hi]
    dsimp only
    rw [map_cons, map_cons, hnr, hflags, lastTag_tagFlags, sameUuid_tagFlags]
    refine congrArg _ ?_
    by_cases hlast : i + 1 = blocks.length
    · rw [if_pos (by simpa using hlast), drop_of_length_le (by omega)]
      rfl
    · rw [if_neg (by simpa using hlast)]
      have hnext : tagOffset i + 2 + (if (!decide (i = 0)) = true then 0 else 4) = tagOffset (i + 1) := by
        rw [tagOffset, tagOffset]
        by_cases hzero : i = 0
        · subst hzero
          rfl
        · have hsame : (!decide (i = 0)) = true := by simpa using hzero
          rw [if_pos hsame, if_neg hzero, if_neg (by omega)]
          omega
      rw [hnext]
      exact ih (by omega) (by omega)

theorem blockTags_blocknr (h : b.IsDescriptor words id blocks) :
    (blockTags words b).map blocknr = blocks.map BlockCopy.blocknr := by
  have hpos : 0 < blocks.length := length_pos_iff.mpr h.nonempty
  have hspace := h.space
  exact tagsFrom_blocknr h hpos (by omega)

theorem countTags_written (h : b.IsDescriptor words id blocks) : countTags words b = blocks.length := by
  have hlength := congrArg length (blockTags_blocknr h)
  rwa [length_map, length_map] at hlength

theorem logEntryOf_descriptor (h : b.IsDescriptor words id blocks) : logEntryOf b id = .descriptor := by
  rw [logEntryOf, if_neg (not_not.mpr h.magic), if_neg (not_not.mpr h.sequence), if_pos h.blocktype]

theorem logEntryOf_commit (h : b.IsCommit id) : logEntryOf b id = .commit := by
  rw [logEntryOf, if_neg (not_not.mpr h.magic), if_neg (not_not.mpr h.sequence), h.blocktype]
  rfl

theorem logEntryOf_revoke {blocks : List (BitVec 32)} (h : b.IsRevoke words id blocks) : logEntryOf b id = .revoke := by
  rw [logEntryOf, if_neg (not_not.mpr h.magic), if_neg (not_not.mpr h.sequence), h.blocktype]
  rfl

end Blocks

/-! ## The walk -/

section Walk

variable {j : JournalSuper} {log : BitVec 32 → LogBlock} {id pos : BitVec 32}

theorem after_succ (pos : BitVec 32) (n : Nat) : j.after pos (n + 1) = j.after (j.wrap (pos + 1#32)) n := rfl

theorem after_add (pos : BitVec 32) (m n : Nat) : j.after pos (m + n) = j.after (j.after pos m) n := by
  rw [JournalSuper.after, Nat.add_comm, Function.iterate_add_apply]
  rfl

section

variable (hj : j.Valid) (hpos : pos < j.last)
include hj hpos

theorem after_lt (n : Nat) : j.after pos n < j.last := by
  induction n generalizing pos with
  | zero => exact hpos
  | succ n ih => exact ih (wrap_succ_lt hj hpos)

theorem after_copies {n : Nat} (hn : n ≤ j.last.toNat - j.first.toNat)
    (hwords : n < j.words) : j.wrap (j.wrap (pos + 1#32) + BitVec.ofNat 32 n) = j.after pos (n + 1) := by
  have hlt : (j.wrap (pos + 1#32)).toNat < j.last.toNat := wrap_succ_lt hj hpos
  have hfirst : j.first.toNat < j.last.toNat := hj.first_lt
  have hlast := hj.last_lt
  have hw := hj.words_lt
  rw [after_succ]
  refine (iterate_wrap hj (wrap_succ_lt hj hpos) (by omega) ?_).symm
  have hadd : (j.wrap (pos + 1#32) + BitVec.ofNat 32 n).toNat = (j.wrap (pos + 1#32)).toNat + n := by
    rw [BitVec.toNat_add, BitVec.toNat_ofNat, Nat.mod_eq_of_lt (by omega : n < 2 ^ 32)]
    exact Nat.mod_eq_of_lt (by omega)
  rw [BitVec.lt_def, wrap_toNat hj, hadd]
  split <;> omega

theorem edge_item {item : LogItem} (h : item.Written j log id pos)
    (hsize : item.size ≤ j.last.toNat - j.first.toNat) : LogEdge j log ⟨pos, id⟩ ⟨j.after pos item.size, id⟩ := by
  cases item with
  | revoke blocks =>
    refine congrArg some ?_
    rw [logStep, if_pos hpos, logEntryOf_revoke h]
    rfl
  | copies blocks =>
    have hspace := h.1.space
    refine congrArg some ?_
    rw [logStep, if_pos hpos, logEntryOf_descriptor h.1]
    dsimp only
    rw [countTags_written h.1, after_copies hj hpos (Nat.le_of_succ_le hsize) (by omega)]
    rfl

theorem reach_items {items : List LogItem} (h : ItemsWritten j log id pos items)
    (hsize : Transaction.size items ≤ j.last.toNat - j.first.toNat) :
    Relation.ReflTransGen (LogEdge j log) ⟨pos, id⟩ ⟨j.after pos (Transaction.size items), id⟩ := by
  induction items generalizing pos with
  | nil => exact .refl
  | cons item items ih =>
    rw [Transaction.size, map_cons, sum_cons] at hsize ⊢
    rw [after_add]
    exact .head (edge_item hj hpos h.1 (by omega)) (ih (after_lt hj hpos _) h.2 (by rw [Transaction.size]; omega))

end

theorem edge_commit (hpos : pos < j.last) (h : (log pos).IsCommit id) :
    LogEdge j log ⟨pos, id⟩ ⟨j.after pos 1, id + 1#32⟩ := by
  refine congrArg some ?_
  rw [logStep, if_pos hpos, logEntryOf_commit h]
  rfl

theorem run_incomplete (h : Incomplete j log id pos) :
    ∃ rounds p, run (logWalk j log) rounds ⟨pos, id⟩ = some (true, ⟨p, id⟩) := by
  induction h with
  | @stop pos hpos hentry =>
    refine ⟨1, pos, run_result (congrArg some ?_) 0⟩
    rw [logStep, if_pos hpos, hentry]
  | @revoke pos hpos hentry _ ih =>
    obtain ⟨rounds, p, hrun⟩ := ih
    have hedge : LogEdge j log ⟨pos, id⟩ ⟨j.wrap (pos + 1#32), id⟩ := by
      refine congrArg some ?_
      rw [logStep, if_pos hpos, hentry]
    exact ⟨rounds + 1, p, (run_edge hedge rounds).trans hrun⟩
  | @descriptor pos hpos hentry _ ih =>
    obtain ⟨rounds, p, hrun⟩ := ih
    have hedge : LogEdge j log ⟨pos, id⟩
        ⟨j.wrap (j.wrap (pos + 1#32) + BitVec.ofNat 32 (countTags j.words (log pos))), id⟩ := by
      refine congrArg some ?_
      rw [logStep, if_pos hpos, hentry]
    exact ⟨rounds + 1, p, (run_edge hedge rounds).trans hrun⟩

/-- **The walk through a written log** ends behind its last commit block. -/
theorem walk_written (hj : j.Valid) (hpos : pos < j.last) {txs : List Transaction} (h : LogWritten j log id pos txs)
    (hsize : (txs.map fun t => t.size + 1).sum ≤ j.last.toNat - j.first.toNat) :
    ∃ rounds p, run (logWalk j log) rounds ⟨pos, id⟩ =
      some (true, ⟨p, id + BitVec.ofNat 32 txs.length⟩) := by
  induction txs generalizing id pos with
  | nil =>
    obtain ⟨rounds, p, hrun⟩ := run_incomplete h
    refine ⟨rounds, p, ?_⟩
    rw [length_nil, BitVec.add_zero]
    exact hrun
  | cons t ts ih =>
    obtain ⟨hitems, hcommit, hrest⟩ := h
    rw [map_cons, sum_cons] at hsize
    obtain ⟨rounds, p, hrun⟩ := ih (after_lt hj hpos _) hrest (by omega)
    have hreach := (reach_items hj hpos hitems (by omega)).tail (edge_commit (after_lt hj hpos _) hcommit)
    rw [← after_add] at hreach
    obtain ⟨rounds', hrun'⟩ := run_of_reach hreach hrun
    refine ⟨rounds', p, hrun'.trans ?_⟩
    rw [length_cons, Nat.add_comm, BitVec.ofNat_add, BitVec.add_assoc]

end Walk

end Linux
