/-
# MipsOnQemu.Linux.JbdPasses -- the passes of recovery

The first pass is the walk through the log (`doOnePass_scan`). The later ones end at the commit at which it
has ended (`doOnePass_of_reach`): the second one takes the records of revoke blocks on its way
(`records_reach`), the third one goes through the copies behind a descriptor block one by one (`replayTag_eq`).
-/

import MipsOnQemu.Linux.JbdWalk

namespace Linux

open BitVec Option Relation Loop Function

/-- A pass is at a place of the log, and there was no error. -/
structure Recovery.At (s : Recovery) (log : BitVec 32 → LogBlock) (x : LogPos) : Prop where
  log : s.log = log
  block : s.nextLogBlock = x.block
  id : s.nextCommitId = x.id
  success : s.success = true
  records : s.records = none

def passLoop (hash : Nat → Nat) (j : JournalSuper) (pass : PassType) (e : BitVec 32) (s : Recovery) :
    Option (Recovery ⊕ PassResult) :=
  some (passStep hash j pass e s)

/-- A pass gets from one state to another. -/
abbrev PassReach (hash : Nat → Nat) (j : JournalSuper) (pass : PassType) (e : BitVec 32) :
    Recovery → Recovery → Prop :=
  Relation.ReflTransGen (Loop.Edge (passLoop hash j pass e))

section Passes

variable {hash : Nat → Nat} {j : JournalSuper} {log : BitVec 32 → LogBlock} {x y : LogPos} {s : Recovery}

/-! ## The first pass -/

/-- The state of the first pass at a place of the log. -/
def Recovery.moved (s : Recovery) (x : LogPos) : Recovery :=
  { s with nextLogBlock := x.block, nextCommitId := x.id, success := true, records := none }

/-- What the first pass returns, from the end of the walk. -/
def scanResult (j : JournalSuper) (s : Recovery) (r : Bool × LogPos) : PassResult :=
  if r.1 then passDone .scan 0#32 (s.moved ⟨j.wrap (r.2.block + 1#32), r.2.id⟩) else ⟨false, s.moved r.2⟩

theorem passLoop_scan (s : Recovery) (x : LogPos) :
    passLoop hash j .scan 0#32 (s.moved x) = (logWalk j s.log x).map (Sum.map s.moved (scanResult j s)) := by
  have hgo : PassType.scan = .scan ∨ tidGeq (s.moved x).nextCommitId 0#32 = false := .inl rfl
  have hrec : (s.moved x).records = none := rfl
  rw [passLoop, logWalk, logStep, map_some]
  refine congrArg some ?_
  by_cases hlt : x.block < j.last
  · obtain ⟨hstop, hdescriptor, hcommit, hrevoke⟩ := @passStep_entry hash j .scan 0#32 (s.moved x) hrec hgo hlt
    rw [if_pos hlt]
    cases hentry : logEntryOf (s.log x.block) x.id with
    | descriptor =>
      rw [hdescriptor hentry]
      rfl
    | commit =>
      rw [hcommit hentry]
      rfl
    | revoke =>
      rw [hrevoke hentry]
      rfl
    | stop =>
      rw [hstop hentry]
      rfl
  · rw [if_neg hlt, passStep_bounds hrec hgo hlt]
    rfl

theorem doOnePass_scan (rounds : Nat) (s : Recovery) : doOnePass hash j .scan 0#32 rounds s =
      (run (logWalk j s.log) rounds j.begin).map (scanResult j s) :=
  run_map (f := s.moved) (g := scanResult j s) (passLoop_scan s) rounds j.begin

/-! ## Revoke records -/

variable {pass : PassType} {e : BitVec 32} {b : LogBlock}

theorem slt_ofNat_iff {off : Nat} (hoff : off < 2 ^ 31) (v : BitVec 32) :
    (BitVec.ofNat 32 off).slt v = true ↔ (off : Int) < v.toInt := by
  have htoInt : (BitVec.ofNat 32 off).toInt = off := by
    rw [toInt_eq_toNat_cond, toNat_ofNat, Nat.mod_eq_of_lt (by omega : off < 2 ^ 32), if_pos (by omega)]
  rw [slt_eq_decide, decide_eq_true_eq, htoInt]

/-- The table after the records in some words of a revoke block. -/
def revokeWords (hash : Nat → Nat) (b : LogBlock) (id : BitVec 32) (words : List Nat) (table : RevokeTable) :
    RevokeTable :=
  words.foldl (fun t i => journalSetRevoke hash t (b i).toNat id) table

theorem passStep_record {m : Nat} (hrec : s.records = some (b, BitVec.ofNat 32 (4 * m)))
    (hlt : (BitVec.ofNat 32 (4 * m)).slt b.rCount = true) : passStep hash j pass e s = .inl { s with
      table := journalSetRevoke hash s.table (b ((BitVec.ofNat 32 (4 * m)).toNat / 4)).toNat s.nextCommitId
      records := some (b, BitVec.ofNat 32 (4 * (m + 1))) } := by
  have hnext : BitVec.ofNat 32 (4 * m) + 4#32 = BitVec.ofNat 32 (4 * (m + 1)) := by
    rw [← ofNat_add]
    rfl
  rw [passStep, hrec]
  dsimp only
  rw [if_pos hlt, hnext]

/-- `scan_revoke_records`, if the count of the block is not too large. -/
theorem records_reach {m n : Nat} (hrec : s.records = some (b, BitVec.ofNat 32 (4 * m)))
    (hall : ∀ i < n, (4 * (m + i) : Int) < b.rCount.toInt) (hend : b.rCount.toInt ≤ 4 * (m + n))
    (hsmall : 4 * (m + n) < 2 ^ 31) : PassReach hash j pass e s
      { s with table := revokeWords hash b s.nextCommitId (List.range' m n) s.table, records := none } := by
  induction n generalizing m s with
  | zero =>
    refine .single (congrArg some ?_)
    have hdone : ¬ (BitVec.ofNat 32 (4 * m)).slt b.rCount = true := by
      rw [slt_ofNat_iff (by omega)]
      push_cast
      omega
    rw [passStep, hrec]
    dsimp only
    rw [if_neg hdone]
    rfl
  | succ n ih =>
    have hlt : (BitVec.ofNat 32 (4 * m)).slt b.rCount = true := by
      rw [slt_ofNat_iff (by omega)]
      have h0 := hall 0 (Nat.succ_pos n)
      push_cast at h0 ⊢
      omega
    have hedge := @passStep_record hash j s pass e b m hrec hlt
    rw [toNat_ofNat, Nat.mod_eq_of_lt (by omega : 4 * m < 2 ^ 32), Nat.mul_div_cancel_left m four_pos] at hedge
    refine .head (congrArg some hedge) (ih rfl (fun i hi => ?_) ?_ (by omega))
    · have hi' := hall (i + 1) (Nat.succ_lt_succ hi)
      push_cast at hi' ⊢
      omega
    · push_cast at hend ⊢
      omega

/-! ## Copies -/

theorem update_magic {desc : BitVec 32} (h : (log desc).magic = jfsMagicNumber) :
    update log desc (update (log desc) 0 jfsMagicNumber) = log := by
  have hsame : update (log desc) 0 jfsMagicNumber = log desc := by
    rw [← h]
    exact update_eq_self 0 (log desc)
  rw [hsame]
  exact update_eq_self desc log

/-- The file system after a tag, from the copy in the log. -/
def replayedFs (hash : Nat → Nat) (words : Nat) (s : Recovery) (nr : Nat) (copy : LogBlock) : Nat → LogBlock :=
  if journalTestRevoke hash s.table nr s.nextCommitId then s.fs
  else update s.fs nr (copyBlock words copy (s.fs nr))

/-- A tag within the log changes the file system only, and goes one block on. The magic number of an escaped
block is written where it is already. -/
theorem replayTag_eq {desc : BitVec 32} (hdesc : (s.log desc).magic = jfsMagicNumber)
    (hlt : s.nextLogBlock < j.last) (tag : BlockTag) : replayTag hash j desc s tag = { s with
      fs := replayedFs hash j.words s tag.blocknr.toNat (s.log s.nextLogBlock)
      nextLogBlock := j.wrap (s.nextLogBlock + 1#32) } := by
  rw [replayTag, replayedFs]
  dsimp only
  rw [if_pos hlt]
  split
  · rfl
  · split
    · rw [update_magic hdesc]
    · rfl

/-! ## The end of a later pass -/

variable {rounds : Nat}

theorem passLoop_end (hpass : pass ≠ .scan) {p : BitVec 32} (hat : s.At log ⟨p, e⟩) :
    passLoop hash j pass e s = some (.inr ⟨true, s⟩) := by
  have hge : tidGeq s.nextCommitId e = true := by
    have hzero : (e - e).toInt = 0 := by
      rw [BitVec.sub_self]
      rfl
    rw [hat.id, tidGeq, hzero]
    rfl
  rw [passLoop, passStep_end hat.records hpass hge, passDone, hat.success, hat.id]
  simp

/-! ## All three passes -/

theorem doOnePass_mono {rounds' : Nat} {r : PassResult} (h : doOnePass hash j pass e rounds s = some r)
    (hle : rounds ≤ rounds') : doOnePass hash j pass e rounds' s = some r :=
  run_mono h hle

theorem doOnePass_of_reach (hpass : pass ≠ .scan) {s' : Recovery} {p : BitVec 32}
    (hreach : PassReach hash j pass e (s.moved j.begin) s') (hat : s'.At log ⟨p, e⟩) :
    ∃ rounds, doOnePass hash j pass e rounds s = some ⟨true, s'⟩ :=
  run_of_reach hreach (run_result (passLoop_end hpass hat) 0)

theorem threePasses_of_passes {scan r : PassResult} {s₁ : Recovery} {n n₁ n₂ : Nat}
    (hscan : doOnePass hash j .scan 0#32 n s = some scan) (hok : scan.ok = true)
    (h₁ : doOnePass hash j .revoke scan.state.nextCommitId n₁ scan.state = some ⟨true, s₁⟩)
    (h₂ : doOnePass hash j .replay scan.state.nextCommitId n₂ s₁ = some r) :
    threePasses hash j (n + n₁ + n₂) s = some r := by
  rw [threePasses, doOnePass_mono hscan (by omega), bind_some, if_pos hok, doOnePass_mono h₁ (by omega), bind_some,
    if_pos rfl]
  exact doOnePass_mono h₂ (by omega)

end Passes

/-- A log given by the words of its blocks, and an empty file system. -/
def sampleRecovery (blocks : List (List (BitVec 32))) : Recovery where
  log pos i := (blocks.getD pos.toNat []).getD i 0#32
  fs _ _ := 0#32
  table _ := []
  nextCommitId := 0#32
  nextLogBlock := 0#32
  success := true
  records := none

/-- A log of three blocks. -/
def smallSuper : JournalSuper := ⟨1#32, 4#32, 256, 1#32, 1#32⟩

theorem smallSuper_valid : smallSuper.Valid := ⟨by decide, by decide, by decide⟩

end Linux
