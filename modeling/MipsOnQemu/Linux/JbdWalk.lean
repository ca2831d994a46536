/-
# MipsOnQemu.Linux.JbdWalk -- the walk through a log

All passes of recovery walk through the log in the same way, which depends only on the headers and on the
tags of descriptor blocks (`logStep`). A block is taken for a part of the log only if it has the sequence
number of the next commit. Going on one block after another is the same as going on at once, as long as
that stays within the log (`iterate_wrap`).
-/

import MipsOnQemu.Linux.JbdRecovery

namespace Linux

open BitVec Nat Finset

/-! ## Steps of a pass -/

/-- What a block of the log is, if commit `id` is the next. -/
inductive LogEntry where
  | descriptor
  | commit
  | revoke
  | stop
  deriving DecidableEq

def logEntryOf (b : LogBlock) (id : BitVec 32) : LogEntry :=
  if b.magic ≠ jfsMagicNumber then .stop
  else if b.sequence ≠ id then .stop
  else if b.blocktype = jfsDescriptorBlock then .descriptor
  else if b.blocktype = jfsCommitBlock then .commit
  else if b.blocktype = jfsRevokeBlock then .revoke
  else .stop

section Steps

variable {hash : Nat → Nat} {j : JournalSuper} {pass : PassType} {e : BitVec 32} {s : Recovery}

theorem passStep_end (hrec : s.records = none) (hpass : pass ≠ .scan) (hge : tidGeq s.nextCommitId e = true) :
    passStep hash j pass e s = .inr (passDone pass e s) := by
  rw [passStep, hrec]
  exact if_pos ⟨hpass, hge⟩

theorem not_ended (hgo : pass = .scan ∨ tidGeq s.nextCommitId e = false) :
    ¬ (pass ≠ .scan ∧ tidGeq s.nextCommitId e = true) := by
  rintro ⟨hpass, hge⟩
  rcases hgo with hscan | hless
  · exact hpass hscan
  · rw [hless] at hge
    cases hge

variable (hrec : s.records = none) (hgo : pass = .scan ∨ tidGeq s.nextCommitId e = false)
include hrec hgo

theorem passStep_bounds (hlt : ¬ s.nextLogBlock < j.last) : passStep hash j pass e s = .inr ⟨false, s⟩ := by
  rw [passStep, hrec]
  dsimp only
  rw [if_neg (not_ended hgo), if_neg hlt]

variable (hlt : s.nextLogBlock < j.last)
include hlt

theorem passStep_entry :
    (logEntryOf (s.log s.nextLogBlock) s.nextCommitId = .stop → passStep hash j pass e s =
      .inr (passDone pass e { s with nextLogBlock := j.wrap (s.nextLogBlock + 1#32) })) ∧
    (logEntryOf (s.log s.nextLogBlock) s.nextCommitId = .descriptor → passStep hash j pass e s =
      .inl (if pass ≠ .replay then
        { s with nextLogBlock :=
            j.wrap (j.wrap (s.nextLogBlock + 1#32) + BitVec.ofNat 32 (countTags j.words (s.log s.nextLogBlock))) }
      else (blockTags j.words (s.log s.nextLogBlock)).foldl (replayTag hash j s.nextLogBlock)
        { s with nextLogBlock := j.wrap (s.nextLogBlock + 1#32) })) ∧
    (logEntryOf (s.log s.nextLogBlock) s.nextCommitId = .commit → passStep hash j pass e s =
      .inl { s with nextLogBlock := j.wrap (s.nextLogBlock + 1#32), nextCommitId := s.nextCommitId + 1#32 }) ∧
    (logEntryOf (s.log s.nextLogBlock) s.nextCommitId = .revoke → passStep hash j pass e s =
      .inl (if pass ≠ .revoke then { s with nextLogBlock := j.wrap (s.nextLogBlock + 1#32) }
      else { s with
        nextLogBlock := j.wrap (s.nextLogBlock + 1#32)
        records := some (s.log s.nextLogBlock, 16#32) })) := by
  rw [passStep, hrec]
  dsimp only
  rw [if_neg (not_ended hgo), if_pos hlt, logEntryOf]
  split_ifs
  all_goals simp_all

end Steps

/-! ## The walk -/

/-- A place in the log, and the next commit. -/
@[ext]
structure LogPos where
  block : BitVec 32
  id : BitVec 32
  deriving DecidableEq

variable (j : JournalSuper) (log : BitVec 32 → LogBlock)

/-- One step of the walk; at its end, whether that is within the log. -/
def logStep (x : LogPos) : LogPos ⊕ (Bool × LogPos) :=
  if x.block < j.last then
    match logEntryOf (log x.block) x.id with
    | .descriptor =>
      .inl ⟨j.wrap (j.wrap (x.block + 1#32) + BitVec.ofNat 32 (countTags j.words (log x.block))), x.id⟩
    | .commit => .inl ⟨j.wrap (x.block + 1#32), x.id + 1#32⟩
    | .revoke => .inl ⟨j.wrap (x.block + 1#32), x.id⟩
    | .stop => .inr (true, x)
  else .inr (false, x)

def logWalk (x : LogPos) : Option (LogPos ⊕ (Bool × LogPos)) :=
  some (logStep j log x)

/-- From one place of the walk to the next. -/
abbrev LogEdge : LogPos → LogPos → Prop := Loop.Edge (logWalk j log)

def JournalSuper.begin (j : JournalSuper) : LogPos := ⟨j.start, j.sequence⟩

/-! ## Places and numbers -/

/-- A log as `journal_init_dev` and `journal_init_inode` set it up: its length is an `int`, or comes from the
size of a file, and the size of a block is an `int`. -/
structure JournalSuper.Valid (j : JournalSuper) : Prop where
  first_lt : j.first < j.last
  last_lt : j.last.toNat < 2 ^ 31
  words_lt : j.words < 2 ^ 29

theorem tidGeq_add (x : BitVec 32) {d : Nat} (hd : d < 2 ^ 31) :
    tidGeq x (x + BitVec.ofNat 32 d) = true ↔ d = 0 := by
  have hsub : (x - (x + BitVec.ofNat 32 d)).toNat = (2 ^ 32 - d) % 2 ^ 32 := by
    rw [toNat_sub, toNat_add, toNat_ofNat]
    have hx := x.isLt
    omega
  rw [tidGeq, decide_eq_true_eq, toInt_eq_toNat_cond, hsub]
  split
  · omega
  · omega

section Places

variable {j : JournalSuper} (hj : j.Valid)
include hj

theorem wrap_toNat (v : BitVec 32) :
    (j.wrap v).toNat = if v.toNat < j.last.toNat then v.toNat else v.toNat - (j.last.toNat - j.first.toNat) := by
  have hfirst : j.first.toNat < j.last.toNat := hj.first_lt
  rw [JournalSuper.wrap]
  by_cases hlt : v.toNat < j.last.toNat
  · have hnot : ¬v ≥ j.last := not_le.mpr hlt
    rw [if_neg hnot, if_pos hlt]
  · have hge : v ≥ j.last := not_lt.mp hlt
    have hge' : j.last.toNat ≤ v.toNat := hge
    rw [if_pos hge, if_neg hlt]
    have hsize : (j.last - j.first).toNat = j.last.toNat - j.first.toNat := toNat_sub_of_le hfirst.le
    rw [toNat_sub_of_le (le_def.mpr (by omega)), hsize]

variable {pos : BitVec 32}

theorem wrap_succ (h : pos < j.last) :
    (j.wrap (pos + 1#32)).toNat = if pos.toNat + 1 < j.last.toNat then pos.toNat + 1 else j.first.toNat := by
  have hpos : pos.toNat < j.last.toNat := h
  have hfirst : j.first.toNat < j.last.toNat := hj.first_lt
  have hlt := j.last.isLt
  have hsucc : (pos + 1#32).toNat = pos.toNat + 1 := by
    rw [toNat_add]
    exact mod_eq_of_lt (by change pos.toNat + 1 < _; omega)
  rw [wrap_toNat hj, hsucc]
  split
  · rfl
  · omega

theorem wrap_succ_lt (h : pos < j.last) : j.wrap (pos + 1#32) < j.last := by
  have hfirst : j.first.toNat < j.last.toNat := hj.first_lt
  rw [lt_def, wrap_succ hj h]
  split <;> omega

/-- Going on one block after another is the same as going on at once, if that stays within the log. -/
theorem iterate_wrap {n : Nat} (hpos : pos < j.last) (hn : n < 2 ^ 30)
    (hwithin : j.wrap (pos + BitVec.ofNat 32 n) < j.last) :
    (fun p => j.wrap (p + 1#32))^[n] pos = j.wrap (pos + BitVec.ofNat 32 n) := by
  have hpos' : pos.toNat < j.last.toNat := hpos
  have hfirst : j.first.toNat < j.last.toNat := hj.first_lt
  have hlast := hj.last_lt
  have hadd : ∀ m ≤ n, (pos + BitVec.ofNat 32 m).toNat = pos.toNat + m := by
    intro m hm
    rw [toNat_add, toNat_ofNat, mod_eq_of_lt (by omega : m < 2 ^ 32)]
    exact mod_eq_of_lt (by omega)
  have hle : (j.wrap (pos + BitVec.ofNat 32 n)).toNat < j.last.toNat := hwithin
  rw [wrap_toNat hj, hadd n le_rfl] at hle
  -- the same for every number of blocks up to this one
  suffices hall : ∀ m ≤ n, (fun p => j.wrap (p + 1#32))^[m] pos = j.wrap (pos + BitVec.ofNat 32 m) from hall n le_rfl
  intro m
  induction m with
  | zero =>
    intro _
    refine eq_of_toNat_eq ?_
    rw [wrap_toNat hj, hadd 0 (zero_le n), if_pos (by omega)]
    rfl
  | succ m ih =>
    intro hm
    have hih := ih (by omega)
    have hbefore : (j.wrap (pos + BitVec.ofNat 32 m)).toNat < j.last.toNat := by
      rw [wrap_toNat hj, hadd m (by omega)]
      split <;> split at hle <;> omega
    refine eq_of_toNat_eq ?_
    rw [Function.iterate_succ_apply', hih, wrap_succ hj hbefore, wrap_toNat hj, wrap_toNat hj, hadd m (by omega),
      hadd (m + 1) hm]
    split_ifs at hle ⊢ <;> omega

end Places

end Linux
