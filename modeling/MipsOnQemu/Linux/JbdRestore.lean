/-
# MipsOnQemu.Linux.JbdRestore -- what recovery writes back

A copy of a block in the log is live if its transaction and the later ones have no revoke record for the
block; the last live copy is what recovery has to write back (`LastLive`). The second pass leaves, for
every block, the last transaction that revokes it (`revokedIn_transactions`); so the third one writes
exactly the live copies, one over the other (`fs_transactions`). What it writes is what the log has: a
copy that began with the magic number comes back with a zero, for the magic number is written to the
buffer of the descriptor instead. Apart from such blocks recovery restores everything
(`recovery_restores`).
-/

import MipsOnQemu.Linux.JbdLayout

namespace Linux

open Option hiding any_eq_false

open List Function BitVec Nat Bool Transaction Recovery

/-! ## The copies that count -/

/-- A transaction has a last copy of the block, and neither it nor a later one revokes the block. -/
def Live (txs : List Transaction) (b k : Nat) (c : LogBlock) : Prop :=
  ∃ t, txs[k]? = some t ∧ t.lastCopy b = some c ∧ ∀ k' t', k ≤ k' → txs[k']? = some t' → t'.revokes b = false

/-- The last committed copy that is not revoked. -/
def LastLive (txs : List Transaction) (b : Nat) (c : LogBlock) : Prop :=
  ∃ k, Live txs b k c ∧ ∀ k' c', k < k' → ¬ Live txs b k' c'

/-- The same copy, computed from the last transaction to the first. -/
def restored (b : Nat) : List Transaction → Option LogBlock
  | [] => none
  | t :: ts => (restored b ts).or (if (t :: ts).any (fun t => t.revokes b) then none else t.lastCopy b)

section Live

variable {t : Transaction} {ts txs : List Transaction} {b k : Nat} {c c' : LogBlock}

theorem live_succ : Live (t :: ts) b (k + 1) c ↔ Live ts b k c := by
  constructor
  · rintro ⟨u, hu, hcopy, hnot⟩
    refine ⟨u, hu, hcopy, fun k' t' hk ht => ?_⟩
    exact hnot (k' + 1) t' (succ_le_succ hk) ht
  · rintro ⟨u, hu, hcopy, hnot⟩
    refine ⟨u, hu, hcopy, fun k' t' hk ht => ?_⟩
    obtain ⟨m, rfl⟩ := exists_eq_succ_of_ne_zero (by omega : k' ≠ 0)
    exact hnot m t' (le_of_succ_le_succ hk) ht

theorem live_zero :
    Live (t :: ts) b 0 c ↔ (t :: ts).any (fun t => t.revokes b) = false ∧ t.lastCopy b = some c := by
  constructor
  · rintro ⟨u, hu, hcopy, hnot⟩
    obtain rfl : t = u := some.inj hu
    refine ⟨?_, hcopy⟩
    rw [any_eq_false]
    intro u hu
    obtain ⟨i, hi, rfl⟩ := mem_iff_getElem.mp hu
    rw [hnot i _ (zero_le i) (getElem?_eq_getElem hi)]
    exact Bool.false_ne_true
  · rintro ⟨hnot, hcopy⟩
    refine ⟨t, rfl, hcopy, fun k' t' _ ht => ?_⟩
    rw [any_eq_false] at hnot
    exact eq_false_iff.mpr (hnot t' (mem_of_getElem? ht))

theorem restored_spec (b : Nat) (txs : List Transaction) :
    (∀ c, restored b txs = some c → LastLive txs b c) ∧ (restored b txs = none → ∀ k c, ¬ Live txs b k c) := by
  induction txs with
  | nil =>
    constructor
    · intro c h
      cases h
    · rintro - k c ⟨u, hu, -⟩
      rw [getElem?_nil] at hu
      cases hu
  | cons t ts ih =>
    rw [restored]
    cases hrest : restored b ts with
    | some d =>
      rw [some_or]
      constructor
      · intro c h
        obtain rfl : d = c := some.inj h
        obtain ⟨k, hlive, hlast⟩ := ih.1 d hrest
        refine ⟨k + 1, live_succ.mpr hlive, fun k' c' hk hlive' => ?_⟩
        obtain ⟨m, rfl⟩ := exists_eq_succ_of_ne_zero (by omega : k' ≠ 0)
        exact hlast m c' (lt_of_succ_lt_succ hk) (live_succ.mp hlive')
      · intro h
        cases h
    | none =>
      have hnone := ih.2 hrest
      rw [none_or]
      constructor
      · intro c h
        split at h
        · cases h
        · rename_i hany
          refine ⟨0, live_zero.mpr ⟨eq_false_iff.mpr hany, h⟩, fun k' c' hk hlive' => ?_⟩
          obtain ⟨m, rfl⟩ := exists_eq_succ_of_ne_zero (by omega : k' ≠ 0)
          exact hnone m c' (live_succ.mp hlive')
      · intro h k c hlive
        cases k with
        | zero =>
          obtain ⟨hany, hcopy⟩ := live_zero.mp hlive
          rw [hany, if_neg Bool.false_ne_true, hcopy] at h
          cases h
        | succ k => exact hnone k c (live_succ.mp hlive)

theorem LastLive.unique (h : LastLive txs b c) (h' : LastLive txs b c') : c = c' := by
  obtain ⟨k, hlive, hlast⟩ := h
  obtain ⟨k', hlive', hlast'⟩ := h'
  have hk : k = k' := by
    rcases Nat.lt_trichotomy k k' with hlt | heq | hgt
    · exact absurd hlive' (hlast k' c' hlt)
    · exact heq
    · exact absurd hlive (hlast' k c hgt)
  subst hk
  obtain ⟨u, hu, hcopy, -⟩ := hlive
  obtain ⟨u', hu', hcopy', -⟩ := hlive'
  rw [hu] at hu'
  cases hu'
  exact some.inj (hcopy.symm.trans hcopy')

theorem lastLive_iff : LastLive txs b c ↔ restored b txs = some c := by
  refine ⟨fun h => ?_, (restored_spec b txs).1 c⟩
  cases hrest : restored b txs with
  | none =>
    obtain ⟨k, hlive, -⟩ := h
    exact absurd hlive ((restored_spec b txs).2 hrest k c)
  | some d => rw [((restored_spec b txs).1 d hrest).unique h]

end Live

/-! ## Sequence numbers -/

variable {k n words : Nat}

theorem tidGt_add (x : BitVec 32) (hk : k < 2 ^ 31) (hn : n < 2 ^ 31) :
    tidGt (x + BitVec.ofNat 32 n) (x + BitVec.ofNat 32 k) = true ↔ k < n := by
  have hsub : (x + BitVec.ofNat 32 n - (x + BitVec.ofNat 32 k)).toNat = (2 ^ 32 + n - k) % 2 ^ 32 := by
    rw [toNat_sub, toNat_add, toNat_add, toNat_ofNat, toNat_ofNat]
    have hx := x.isLt
    omega
  rw [tidGt, decide_eq_true_eq, toInt_eq_toNat_cond, hsub]
  split <;> omega

theorem tidGeq_lt (x : BitVec 32) (hk : k < n) (hn : n < 2 ^ 31) :
    tidGeq (x + BitVec.ofNat 32 k) (x + BitVec.ofNat 32 n) = false := by
  obtain ⟨d, rfl⟩ := Nat.exists_eq_add_of_lt hk
  rw [eq_false_iff, add_assoc, ofNat_add, ← BitVec.add_assoc]
  intro h
  have hzero := (tidGeq_add (x + BitVec.ofNat 32 k) (by omega : d + 1 < 2 ^ 31)).mp h
  omega

/-! ## The table of the second pass -/

section Table

variable {hash : Nat → Nat} {table : RevokeTable} {first : BitVec 32} {f : Nat → Option Nat} {n : Nat}

/-- The table has for each block the transaction that `f` gives, counted from the first one. -/
def RevokedIn (hash : Nat → Nat) (table : RevokeTable) (first : BitVec 32) (f : Nat → Option Nat) : Prop :=
  ∀ b, (findRevokeRecord hash table b).map RevokeRecord.sequence = (f b).map fun k => first + BitVec.ofNat 32 k

theorem revokedIn_empty : RevokedIn hash (fun _ => []) first fun _ => none := fun _ => rfl

section

variable (h : RevokedIn hash table first f) (hn : n < 2 ^ 31)
include h hn

theorem revokedIn_set (hf : ∀ b k, f b = some k → k ≤ n) (b : Nat) :
    RevokedIn hash (journalSetRevoke hash table b (first + BitVec.ofNat 32 n)) first (Function.update f b (some n)) := by
  intro b'
  have hb := h b
  rw [journalSetRevoke]
  cases hfind : findRevokeRecord hash table b with
  | none =>
    dsimp only
    rw [findRevokeRecord, insertRevokeHash, Buckets.find_push, update_apply]
    by_cases heq : b' = b
    · rw [if_pos heq.symm, if_pos heq]
      rfl
    · rw [if_neg (fun hh => heq hh.symm), if_neg heq]
      exact h b'
  | some record =>
    dsimp only
    rw [hfind, map_some] at hb
    obtain ⟨k, hk, hseq⟩ := map_eq_some_iff.mp hb.symm
    have hkn := hf b k hk
    have hgt := tidGt_add first (lt_of_le_of_lt hkn hn) hn
    rw [hseq] at hgt
    split
    · have hadjust := @Buckets.find_adjust _ _ RevokeRecord.blocknr hash table _ b
        (fun r => { r with sequence := first + BitVec.ofNat 32 n }) (fun _ => rfl) b'
      rw [findRevokeRecord, hadjust, update_apply]
      by_cases heq : b' = b
      · rw [if_pos heq, if_pos heq, heq]
        change Option.map _ (Option.map _ (findRevokeRecord hash table b)) = _
        rw [hfind]
        rfl
      · rw [if_neg heq, if_neg heq]
        exact h b'
    · rename_i hnot
      rw [hgt] at hnot
      obtain rfl : k = n := by omega
      rw [← hk, update_eq_self]
      exact h b'

theorem revokedIn_records (hf : ∀ b k, f b = some k → k ≤ n) (blocks : List (BitVec 32)) :
    RevokedIn hash (blocks.foldl (fun t r => journalSetRevoke hash t r.toNat (first + BitVec.ofNat 32 n)) table) first
      fun b => if blocks.any (fun r => r.toNat = b) then some n else f b := by
  induction blocks generalizing table f with
  | nil => exact h
  | cons r rs ih =>
    have hset := revokedIn_set h hn hf r.toNat
    have hf' : ∀ b k, update f r.toNat (some n) b = some k → k ≤ n := by
      intro b k hk
      rw [update_apply] at hk
      split at hk
      · cases hk
        exact le_rfl
      · exact hf b k hk
    have hrest := ih hset hf'
    intro b
    rw [foldl_cons, hrest b]
    dsimp only
    rw [update_apply]
    by_cases heq : b = r.toNat
    · subst heq
      simp
    · have hne : decide (r.toNat = b) = false := by simpa using fun hh => heq hh.symm
      rw [if_neg heq, any_cons, hne, Bool.false_or]

theorem journalTestRevoke_iff (hf : ∀ b k, f b = some k → k < 2 ^ 31)
    (b : Nat) : journalTestRevoke hash table b (first + BitVec.ofNat 32 n) = true ↔ ∃ k, f b = some k ∧ n ≤ k := by
  have hb := h b
  rw [journalTestRevoke]
  cases hfind : findRevokeRecord hash table b with
  | none =>
    rw [hfind, map_none] at hb
    have hnone := map_eq_none_iff.mp hb.symm
    rw [hnone]
    simp
  | some record =>
    rw [hfind, map_some] at hb
    obtain ⟨k, hk, hseq⟩ := map_eq_some_iff.mp hb.symm
    dsimp only
    rw [← hseq, hk, not_eq_true', eq_false_iff, Ne, tidGt_add first (hf b k hk) hn]
    simp

end

end Table

/-! ## The second pass -/

def LogItem.tableAfter (hash : Nat → Nat) (id : BitVec 32) (table : RevokeTable) : LogItem → RevokeTable
  | .revoke blocks => blocks.foldl (fun t r => journalSetRevoke hash t r.toNat id) table
  | .copies _ => table

/-- The last transaction that revokes each block, if the first one of the list has the number `n`. -/
def revokeIndex : List Transaction → Nat → (Nat → Option Nat) → Nat → Option Nat
  | [], _, f => f
  | t :: ts, n, f => revokeIndex ts (n + 1) fun b => if t.revokes b then some n else f b

section Index

variable {ts : List Transaction} {n : Nat} {f : Nat → Option Nat} {b : Nat}

theorem revokeIndex_of_not (h : ts.any (fun t => t.revokes b) = false) : revokeIndex ts n f b = f b := by
  induction ts generalizing n f with
  | nil => rfl
  | cons t ts ih =>
    rw [any_cons, or_eq_false_iff] at h
    rw [revokeIndex, ih h.2, h.1]
    rfl

theorem revokeIndex_of_any (h : ts.any (fun t => t.revokes b) = true) :
    ∃ k, revokeIndex ts n f b = some k ∧ n ≤ k ∧ k < n + ts.length := by
  induction ts generalizing n f with
  | nil => cases h
  | cons t ts ih =>
    rw [revokeIndex, length_cons]
    by_cases hrest : ts.any (fun t => t.revokes b) = true
    · obtain ⟨k, hk, hle, hlt⟩ := @ih (n + 1) (fun b => if t.revokes b then some n else f b) hrest
      exact ⟨k, hk, by omega, by omega⟩
    · rw [any_cons, eq_false_iff.mpr hrest, Bool.or_false] at h
      have hsame := @revokeIndex_of_not ts (n + 1) (fun b => if t.revokes b then some n else f b) b
        (eq_false_iff.mpr hrest)
      exact ⟨n, hsame.trans (if_pos h), le_rfl, by omega⟩

theorem revokeIndex_ge_iff (hf : ∀ b k, f b = some k → k < n) :
    (∃ k, revokeIndex ts n f b = some k ∧ n ≤ k) ↔ ts.any (fun t => t.revokes b) = true := by
  constructor
  · rintro ⟨k, hk, hle⟩
    by_contra hnot
    rw [revokeIndex_of_not (eq_false_iff.mpr hnot)] at hk
    have hlt := hf b k hk
    omega
  · intro h
    obtain ⟨k, hk, hle, -⟩ := @revokeIndex_of_any ts n f b h
    exact ⟨k, hk, hle⟩

theorem revokeIndex_lt (hf : ∀ b k, f b = some k → k < n + ts.length) (hk : revokeIndex ts n f b = some k) :
    k < n + ts.length := by
  by_cases h : ts.any (fun t => t.revokes b) = true
  · obtain ⟨k', hk', -, hlt⟩ := @revokeIndex_of_any ts n f b h
    rw [hk] at hk'
    cases hk'
    exact hlt
  · rw [revokeIndex_of_not (eq_false_iff.mpr h)] at hk
    exact hf b k hk

end Index

theorem revokeWords_written {b : LogBlock} {id : BitVec 32} {blocks : List (BitVec 32)}
    (h : b.IsRevoke words id blocks) (hash : Nat → Nat) (table : RevokeTable) :
    revokeWords hash b id (range' 4 blocks.length) table =
      blocks.foldl (fun t r => journalSetRevoke hash t r.toNat id) table := by
  have hmap : (range' 4 blocks.length).map b = blocks := by
    refine ext_getElem (by simp) fun i hi hi' => ?_
    rw [getElem_map, getElem_range', one_mul]
    exact h.records i _ (getElem?_eq_getElem hi')
  conv_rhs => rw [← hmap]
  rw [foldl_map, revokeWords]

theorem revoked_lt (revoked : Nat → Bool) {f : Nat → Option Nat} {m : Nat} (hn : n < m)
    (hf : ∀ b k, f b = some k → k < m) (b k : Nat) (hk : (if revoked b then some n else f b) = some k) : k < m := by
  split at hk
  · cases hk
    exact hn
  · exact hf b k hk

section Revoke

variable {hash : Nat → Nat} {j : JournalSuper} {s : Recovery} {e first : BitVec 32} {f : Nat → Option Nat} {n : Nat}

theorem revoke_item (hj : j.Valid) (hrec : s.records = none) (hpos : s.nextLogBlock < j.last)
    (hgo : tidGeq s.nextCommitId e = false) {item : LogItem} (h : item.Written j s.log s.nextCommitId s.nextLogBlock)
    (hsize : item.size ≤ j.last.toNat - j.first.toNat) : PassReach hash j .revoke e s { s with
      table := item.tableAfter hash s.nextCommitId s.table
      nextLogBlock := j.after s.nextLogBlock item.size } := by
  obtain ⟨-, hdescriptor, -, hrevoke⟩ := @passStep_entry hash j .revoke e s hrec (.inr hgo) hpos
  cases item with
  | revoke blocks =>
    have hspace := h.space
    have hwords := hj.words_lt
    have hcount : (s.log s.nextLogBlock).rCount.toInt = 16 + 4 * blocks.length := by
      rw [h.count, toInt_eq_toNat_cond, toNat_ofNat, revokeHeaderSize,
        mod_eq_of_lt (by omega : 16 + 4 * blocks.length < 2 ^ 32), if_pos (by omega)]
      push_cast
      rfl
    have hrecords := @records_reach hash j { s with
      nextLogBlock := j.wrap (s.nextLogBlock + 1#32)
      records := some (s.log s.nextLogBlock, 16#32) } .revoke e (s.log s.nextLogBlock) 4 blocks.length rfl
      (fun i hi => by rw [hcount]; push_cast; omega) (by rw [hcount]; push_cast; omega) (by omega)
    dsimp only at hrecords
    rw [revokeWords_written h, ← hrec] at hrecords
    exact .head (congrArg some (hrevoke (logEntryOf_revoke h))) hrecords
  | copies blocks =>
    have hspace := h.1.space
    have hnext := after_copies hj hpos (le_of_succ_le hsize) (by omega : blocks.length < j.words)
    refine .single (congrArg some ((hdescriptor (logEntryOf_descriptor h.1)).trans ?_))
    rw [if_pos (by decide), countTags_written h.1, hnext]
    rfl

theorem revokedIn_item {table : RevokeTable} (h : RevokedIn hash table first f) (hn : n < 2 ^ 31)
    (hf : ∀ b k, f b = some k → k ≤ n) (item : LogItem) :
    RevokedIn hash (item.tableAfter hash (first + BitVec.ofNat 32 n) table) first
      fun b => if item.revokes b then some n else f b := by
  cases item with
  | revoke blocks => exact revokedIn_records h hn hf blocks
  | copies blocks => exact h

section

variable (hj : j.Valid) (hrec : s.records = none) (hpos : s.nextLogBlock < j.last)
  (hid : s.nextCommitId = first + BitVec.ofNat 32 n)
include hj hrec hpos hid

theorem revoke_items (hgo : tidGeq s.nextCommitId e = false) (hn : n < 2 ^ 31)
    {items : List LogItem} (h : ItemsWritten j s.log s.nextCommitId s.nextLogBlock items)
    (hsize : size items ≤ j.last.toNat - j.first.toNat) (htable : RevokedIn hash s.table first f)
    (hf : ∀ b k, f b = some k → k ≤ n) : ∃ table, PassReach hash j .revoke e s { s with
        table := table, nextLogBlock := j.after s.nextLogBlock (size items) } ∧
      RevokedIn hash table first fun b => if revokes items b then some n else f b := by
  induction items generalizing s f with
  | nil => exact ⟨s.table, .refl, htable⟩
  | cons item items ih =>
    rw [Transaction.size, map_cons, sum_cons] at hsize
    have hreach := @revoke_item hash j s e hj hrec hpos hgo item h.1 (by omega)
    have htable' := revokedIn_item htable hn hf item
    rw [← hid] at htable'
    have hf' := revoked_lt item.revokes (lt_succ_self n) fun b k hk => lt_succ_of_le (hf b k hk)
    obtain ⟨table, hreach', hrest⟩ := @ih { s with
      table := item.tableAfter hash s.nextCommitId s.table
      nextLogBlock := j.after s.nextLogBlock item.size } _ hrec (after_lt hj hpos _) hid hgo h.2
      (by rw [Transaction.size]; omega) htable' fun b k hk => le_of_lt_succ (hf' b k hk)
    refine ⟨table, ?_, fun b => (hrest b).trans ?_⟩
    · rw [Transaction.size, map_cons, sum_cons, after_add]
      exact hreach.trans hreach'
    · have hcons : revokes (item :: items) b = (item.revokes b || revokes items b) :=
        any_cons
      dsimp only
      rw [hcons]
      cases revokes items b <;> cases item.revokes b <;> rfl

/-- **The second pass:** every block with the last transaction that revokes it. -/
theorem revokedIn_transactions {txs : List Transaction} (hn : n + txs.length < 2 ^ 31)
    (he : e = first + BitVec.ofNat 32 (n + txs.length)) (h : LogWritten j s.log s.nextCommitId s.nextLogBlock txs)
    (hsize : (txs.map fun t => t.size + 1).sum ≤ j.last.toNat - j.first.toNat) (htable : RevokedIn hash s.table first f)
    (hf : ∀ b k, f b = some k → k < n) :
    ∃ table p, PassReach hash j .revoke e s { s with table := table, nextLogBlock := p, nextCommitId := e } ∧
      RevokedIn hash table first (revokeIndex txs n f) := by
  induction txs generalizing s n f with
  | nil =>
    rw [length_nil, add_zero, ← hid] at he
    rw [he]
    exact ⟨s.table, s.nextLogBlock, .refl, htable⟩
  | cons t ts ih =>
    rw [length_cons] at hn he
    rw [map_cons, sum_cons] at hsize
    obtain ⟨hitems, hcommit, hrest⟩ := h
    have hgo : tidGeq s.nextCommitId e = false := by
      rw [hid, he]
      exact tidGeq_lt first (by omega) hn
    obtain ⟨table, hreach, htable'⟩ := revoke_items hj hrec hpos hid hgo (by omega) hitems (by omega) htable
      fun b k hk => (hf b k hk).le
    -- the commit block
    obtain ⟨-, -, hstep, -⟩ := @passStep_entry hash j .revoke e
      { s with table := table, nextLogBlock := j.after s.nextLogBlock t.size } hrec (.inr hgo) (after_lt hj hpos _)
    have hreach' := hreach.tail (congrArg some (hstep (logEntryOf_commit hcommit)))
    have hid' : s.nextCommitId + 1#32 = first + BitVec.ofNat 32 (n + 1) := by
      rw [hid, BitVec.add_assoc, ofNat_add]
    have hf' := revoked_lt t.revokes (lt_succ_self n) fun b k hk => lt_succ_of_lt (hf b k hk)
    rw [after_add] at hrest
    obtain ⟨table', p, hreach'', hfinal⟩ := @ih { s with
      table := table
      nextLogBlock := j.wrap (j.after s.nextLogBlock t.size + 1#32)
      nextCommitId := s.nextCommitId + 1#32 } _ (n + 1) hrec (wrap_succ_lt hj (after_lt hj hpos _)) hid' (by omega)
      (by rw [he]; congr 2; omega) hrest (by omega) htable' hf'
    exact ⟨table', p, hreach'.trans hreach'', hfinal⟩

end

end Revoke

/-! ## The third pass -/

/-- The file system after a copy, unless its block is revoked. -/
def replayCopy (words : Nat) (revoked : Nat → Bool) (fs : Nat → LogBlock) (c : BlockCopy) : Nat → LogBlock :=
  if revoked c.blocknr.toNat then fs
  else Function.update fs c.blocknr.toNat (copyBlock words c.contents.stored (fs c.blocknr.toNat))

def replayCopies (words : Nat) (revoked : Nat → Bool) (fs : Nat → LogBlock) (blocks : List BlockCopy) : Nat → LogBlock :=
  blocks.foldl (replayCopy words revoked) fs

/-- The file system after copies, with the revoke table of the second pass. -/
abbrev Recovery.replayed (hash : Nat → Nat) (j : JournalSuper) (s : Recovery) : List BlockCopy → Nat → LogBlock :=
  replayCopies j.words (fun b => journalTestRevoke hash s.table b s.nextCommitId) s.fs

/-- A block with a copy from the log written over it, if there is one. -/
def overlay (words : Nat) (copy : Option LogBlock) (b : LogBlock) : LogBlock :=
  match copy with
  | some c => copyBlock words c.stored b
  | none => b

theorem overlay_or (words : Nat) (copy copy' : Option LogBlock) (b : LogBlock) :
    overlay words (copy.or copy') b = overlay words copy (overlay words copy' b) := by
  cases copy with
  | none => rfl
  | some c =>
    cases copy' with
    | none => rfl
    | some c' =>
      funext i
      change copyBlock words c.stored b i = copyBlock words c.stored (copyBlock words c'.stored b) i
      rw [copyBlock, copyBlock, copyBlock]
      split <;> rfl

theorem copyBlock_congr {src src' : LogBlock} (h : ∀ w < words, src w = src' w) (dst : LogBlock) :
    copyBlock words src dst = copyBlock words src' dst := by
  funext i
  rw [copyBlock, copyBlock]
  split
  · rename_i hi
    exact h i hi
  · rfl

theorem replayCopy_apply (words : Nat) (revoked : Nat → Bool) (fs : Nat → LogBlock) (c : BlockCopy) (b : Nat) :
    replayCopy words revoked fs c b =
      overlay words (if revoked b then none else if c.blocknr.toNat = b then some c.contents else none) (fs b) := by
  rw [replayCopy]
  by_cases heq : c.blocknr.toNat = b
  · rw [heq, if_pos rfl]
    split
    · rfl
    · rw [update_self]
      rfl
  · have hother : overlay words (if revoked b then none else if c.blocknr.toNat = b then some c.contents else none) (fs b) =
        fs b := by
      rw [if_neg heq, ite_self]
      rfl
    rw [hother]
    split
    · rfl
    · exact update_of_ne (fun hh => heq hh.symm) _ _

theorem replayCopies_apply (words : Nat) (revoked : Nat → Bool) (fs : Nat → LogBlock) (blocks : List BlockCopy) (b : Nat) :
    replayCopies words revoked fs blocks b =
      overlay words (if revoked b then none else lastCopy b blocks) (fs b) := by
  induction blocks generalizing fs with
  | nil =>
    rw [lastCopy, ite_self]
    rfl
  | cons c cs ih =>
    rw [replayCopies, foldl_cons]
    refine (ih _).trans ?_
    rw [replayCopy_apply, ← overlay_or, lastCopy]
    cases revoked b <;> rfl

section Replay

variable {hash : Nat → Nat} {j : JournalSuper} {s : Recovery} {e first : BitVec 32} {f : Nat → Option Nat} {n : Nat}

theorem replay_tags (hj : j.Valid) {desc : BitVec 32} (hdesc : (s.log desc).magic = jfsMagicNumber)
    (hpos : s.nextLogBlock < j.last) {tags : List BlockTag} {blocks : List BlockCopy}
    (htags : tags.map BlockTag.blocknr = blocks.map BlockCopy.blocknr)
    (hcopies : ∀ i c, blocks[i]? = some c → ∀ w < j.words, s.log (j.after s.nextLogBlock i) w = c.contents.stored w) :
    tags.foldl (replayTag hash j desc) s = { s with
      fs := s.replayed hash j blocks
      nextLogBlock := j.after s.nextLogBlock blocks.length } := by
  induction blocks generalizing tags s with
  | nil =>
    rw [map_eq_nil_iff.mp htags]
    rfl
  | cons c cs ih =>
    obtain ⟨tag, tags, rfl, htag, hrest⟩ := map_eq_cons_iff.mp htags
    rw [foldl_cons, replayTag_eq hdesc hpos]
    refine (@ih { s with
      fs := replayedFs hash j.words s tag.blocknr.toNat (s.log s.nextLogBlock)
      nextLogBlock := j.wrap (s.nextLogBlock + 1#32) } hdesc (wrap_succ_lt hj hpos) tags hrest
      fun i c' hc w hw => hcopies (i + 1) c' hc w hw).trans ?_
    have hcopy : replayedFs hash j.words s tag.blocknr.toNat (s.log s.nextLogBlock) =
        replayCopy j.words (fun b => journalTestRevoke hash s.table b s.nextCommitId) s.fs c := by
      have hsame : ∀ w < j.words, s.log s.nextLogBlock w = c.contents.stored w := hcopies 0 c rfl
      rw [replayedFs, htag, copyBlock_congr hsame, replayCopy]
    rw [hcopy]
    rfl

section

variable (hj : j.Valid) (hrec : s.records = none) (hpos : s.nextLogBlock < j.last)
include hj hrec hpos

theorem replay_item (hgo : tidGeq s.nextCommitId e = false) {item : LogItem} (h : item.Written j s.log s.nextCommitId s.nextLogBlock) :
    PassReach hash j .replay e s { s with
      fs := s.replayed hash j item.blocks
      nextLogBlock := j.after s.nextLogBlock item.size } := by
  obtain ⟨-, hdescriptor, -, hrevoke⟩ := @passStep_entry hash j .replay e s hrec (.inr hgo) hpos
  cases item with
  | revoke blocks => exact .single (congrArg some (hrevoke (logEntryOf_revoke h)))
  | copies blocks =>
    have htags := @replay_tags hash j { s with nextLogBlock := j.wrap (s.nextLogBlock + 1#32) } hj s.nextLogBlock
      h.1.magic (wrap_succ_lt hj hpos) _ blocks (blockTags_blocknr h.1) h.2
    exact .single (congrArg some ((hdescriptor (logEntryOf_descriptor h.1)).trans (congrArg Sum.inl htags)))

theorem replay_items (hgo : tidGeq s.nextCommitId e = false) {items : List LogItem}
    (h : ItemsWritten j s.log s.nextCommitId s.nextLogBlock items) : PassReach hash j .replay e s { s with
      fs := s.replayed hash j (items.flatMap LogItem.blocks)
      nextLogBlock := j.after s.nextLogBlock (size items) } := by
  induction items generalizing s with
  | nil => exact .refl
  | cons item items ih =>
    have hreach := @replay_item hash j s e hj hrec hpos hgo item h.1
    have hreach' := @ih { s with
      fs := s.replayed hash j item.blocks
      nextLogBlock := j.after s.nextLogBlock item.size } hrec (after_lt hj hpos _) hgo h.2
    rw [Transaction.size, map_cons, sum_cons, after_add, flatMap_cons, replayed, replayCopies, foldl_append]
    exact hreach.trans hreach'

/-- **The third pass:** every block gets its last live copy, as it is in the log. -/
theorem fs_transactions (hid : s.nextCommitId = first + BitVec.ofNat 32 n) {txs : List Transaction} (hn : n + txs.length < 2 ^ 31)
    (he : e = first + BitVec.ofNat 32 (n + txs.length)) (h : LogWritten j s.log s.nextCommitId s.nextLogBlock txs)
    (htable : RevokedIn hash s.table first (revokeIndex txs n f)) (hf : ∀ b k, f b = some k → k < n) :
    ∃ fs p, PassReach hash j .replay e s { s with fs := fs, nextLogBlock := p, nextCommitId := e } ∧
      ∀ b, fs b = overlay j.words (restored b txs) (s.fs b) := by
  induction txs generalizing s n f with
  | nil =>
    rw [length_nil, add_zero, ← hid] at he
    rw [he]
    exact ⟨s.fs, s.nextLogBlock, .refl, fun _ => rfl⟩
  | cons t ts ih =>
    rw [length_cons] at hn he
    obtain ⟨hitems, hcommit, hrest⟩ := h
    have hgo : tidGeq s.nextCommitId e = false := by
      rw [hid, he]
      exact tidGeq_lt first (by omega) hn
    have hbound : ∀ b k, revokeIndex (t :: ts) n f b = some k → k < 2 ^ 31 := by
      intro b k hk
      have hlt := revokeIndex_lt (fun b k hk => Nat.lt_add_right _ (hf b k hk)) hk
      rw [length_cons] at hlt
      omega
    have hreach := @replay_items hash j s e hj hrec hpos hgo t hitems
    -- the commit block
    obtain ⟨-, -, hstep, -⟩ := @passStep_entry hash j .replay e { s with
      fs := s.replayed hash j (t.flatMap LogItem.blocks)
      nextLogBlock := j.after s.nextLogBlock t.size } hrec (.inr hgo) (after_lt hj hpos _)
    have hreach' := hreach.tail (congrArg some (hstep (logEntryOf_commit hcommit)))
    have hid' : s.nextCommitId + 1#32 = first + BitVec.ofNat 32 (n + 1) := by
      rw [hid, BitVec.add_assoc, ofNat_add]
    have hf' := revoked_lt t.revokes (lt_succ_self n) fun b k hk => lt_succ_of_lt (hf b k hk)
    rw [after_add] at hrest
    obtain ⟨fs, p, hreach'', hfs⟩ := @ih { s with
      fs := s.replayed hash j (t.flatMap LogItem.blocks)
      nextLogBlock := j.wrap (j.after s.nextLogBlock t.size + 1#32)
      nextCommitId := s.nextCommitId + 1#32 } _ (n + 1) hrec (wrap_succ_lt hj (after_lt hj hpos _)) hid' (by omega)
      (by rw [he]; congr 2; omega) hrest htable hf'
    refine ⟨fs, p, hreach'.trans hreach'', fun b => (hfs b).trans ?_⟩
    -- a block is revoked for this transaction if it or a later one revokes it
    have hrevoked : journalTestRevoke hash s.table b s.nextCommitId = (t :: ts).any (fun t => t.revokes b) := by
      rw [hid, Bool.eq_iff_iff, journalTestRevoke_iff htable (by omega) hbound]
      exact revokeIndex_ge_iff hf
    dsimp only
    rw [replayed, replayCopies_apply, hrevoked, restored, overlay_or]
    rfl

end

end Replay

/-! ## Recovery -/

section Recover

variable {hash : Nat → Nat} {j : JournalSuper} {s : Recovery} {txs : List Transaction}

theorem Committed.length_lt (h : Committed j s txs) : txs.length < 2 ^ 31 := by
  have hfits := h.fits
  have hlast := h.valid.last_lt
  have hone : ∀ n ∈ txs.map (fun t => t.size + 1), 1 ≤ n := forall_mem_map.mpr fun t _ => le_add_left 1 _
  have hle := length_le_sum_of_one_le _ hone
  rw [length_map] at hle
  omega

theorem threePasses_fs (h : Committed j s txs) : ∃ rounds s', threePasses hash j rounds s = some ⟨true, s'⟩ ∧
      ∀ b, s'.fs b = overlay j.words (restored b txs) (s.fs b) := by
  obtain ⟨rounds, p, hrun⟩ := walk_written h.valid h.start_lt h.written h.fits
  have hlength := h.length_lt
  have hscan : doOnePass hash j .scan 0#32 rounds s =
      some (scanResult j s (true, ⟨p, j.sequence + BitVec.ofNat 32 txs.length⟩)) := by
    rw [doOnePass_scan]
    exact congrArg (Option.map (scanResult j s)) hrun
  generalize hscanned : scanResult j s (true, ⟨p, j.sequence + BitVec.ofNat 32 txs.length⟩) = scanned at hscan
  have hok : scanned.ok = true := by
    rw [← hscanned]
    rfl
  have hend : scanned.state.nextCommitId = j.sequence + BitVec.ofNat 32 (0 + txs.length) := by
    rw [← hscanned, zero_add]
    rfl
  have hstate : scanned.state.log = s.log ∧ scanned.state.fs = s.fs ∧ scanned.state.table = s.table := by
    rw [← hscanned]
    exact ⟨rfl, rfl, rfl⟩
  obtain ⟨hlog, hfs, htable⟩ := hstate
  have hid : j.sequence = j.sequence + BitVec.ofNat 32 0 := (BitVec.add_zero _).symm
  -- the second pass
  obtain ⟨table, q, hreach₁, hrevoked⟩ := @revokedIn_transactions hash j (scanned.state.moved j.begin)
    scanned.state.nextCommitId j.sequence (fun _ => none) 0 h.valid rfl h.start_lt hid txs (by omega) hend
    (by rw [moved, hlog]; exact h.written) h.fits (by rw [moved, htable, h.table]; exact revokedIn_empty)
    nofun
  obtain ⟨rounds₁, hrun₁⟩ := @doOnePass_of_reach hash j _ scanned.state .revoke _ (by decide) _ _ hreach₁
    ⟨rfl, rfl, rfl, rfl, rfl⟩
  -- the third one
  generalize hrevoke : ({ scanned.state.moved j.begin with
    table := table, nextLogBlock := q, nextCommitId := scanned.state.nextCommitId } : Recovery) = s₁ at hrun₁
  obtain ⟨fs, q', hreach₂, hfinal⟩ := @fs_transactions hash j (s₁.moved j.begin)
    scanned.state.nextCommitId j.sequence (fun _ => none) 0 h.valid rfl h.start_lt hid txs (by omega) hend
    (by rw [← hrevoke, moved, moved, hlog]; exact h.written)
    (by rw [← hrevoke]; exact hrevoked) nofun
  obtain ⟨rounds₂, hrun₂⟩ := @doOnePass_of_reach hash j _ s₁ .replay _ (by decide) _ _ hreach₂
    ⟨rfl, rfl, rfl, rfl, rfl⟩
  refine ⟨_, _, threePasses_of_passes hscan hok hrun₁ hrun₂, fun b => (hfinal b).trans ?_⟩
  rw [← hrevoke, moved, moved, hfs]

theorem threePasses_mono {rounds rounds' : Nat} {r : PassResult} (h : threePasses hash j rounds s = some r)
    (hle : rounds ≤ rounds') : threePasses hash j rounds' s = some r := by
  obtain ⟨scan, hscan, hrest⟩ := bind_eq_some_iff.mp h
  rw [threePasses, doOnePass_mono hscan hle, bind_some]
  split
  · rename_i hok
    rw [if_pos hok] at hrest
    obtain ⟨revoke, hrevoke, hrest⟩ := bind_eq_some_iff.mp hrest
    rw [doOnePass_mono hrevoke hle, bind_some]
    split
    · rename_i hok'
      rw [if_pos hok'] at hrest
      exact doOnePass_mono hrest hle
    · rename_i hok'
      rwa [if_neg hok'] at hrest
  · rename_i hok
    rwa [if_neg hok] at hrest

/-- Every block has the contents of its last live copy, and the others are as they were. -/
def Restores (words : Nat) (txs : List Transaction) (fs fs' : Nat → LogBlock) : Prop :=
  ∀ b, (∀ c, LastLive txs b c → ∀ i < words, fs' b i = c i) ∧ ((∀ c, ¬ LastLive txs b c) → fs' b = fs b)

theorem restores_iff (hwords : 0 < words) {fs fs' : Nat → LogBlock}
    (h : ∀ b, fs' b = overlay words (restored b txs) (fs b)) :
    Restores words txs fs fs' ↔ ∀ b c, LastLive txs b c → c.magic ≠ jfsMagicNumber := by
  constructor
  · intro hrestores b c hlast hmagic
    have hfirst := (hrestores b).1 c hlast 0 hwords
    have hzero : fs' b 0 = 0#32 := by
      rw [h b, lastLive_iff.mp hlast, overlay, copyBlock, if_pos hwords, LogBlock.stored, if_pos hmagic,
        update_self]
    rw [hzero, show c 0 = jfsMagicNumber from hmagic] at hfirst
    exact absurd hfirst (by decide)
  · intro hplain b
    constructor
    · intro c hlast i hi
      rw [h b, lastLive_iff.mp hlast, overlay, copyBlock, if_pos hi, LogBlock.stored, if_neg (hplain b c hlast)]
    · intro hnone
      have hrestored : restored b txs = none := by
        cases hrest : restored b txs with
        | none => rfl
        | some c => exact absurd (lastLive_iff.mpr hrest) (hnone c)
      rw [h b, hrestored]
      rfl

/-- **Recovery** of a journal as the commit code leaves it succeeds, and restores every block, if and only
if none of the copies to be written back begins with the magic number. -/
theorem recovery_restores (h : Committed j s txs) :
    ∃ rounds s', (∀ rounds' ≥ rounds, journalRecover hash j rounds' s = some ⟨true, s'⟩) ∧
      (Restores j.words txs s.fs s'.fs ↔ ∀ b c, LastLive txs b c → c.magic ≠ jfsMagicNumber) := by
  obtain ⟨rounds, s', hrun, hfs⟩ := @threePasses_fs hash j s txs h
  have hstart : ¬ j.start = 0#32 := by
    have hfirst : 0 < j.first.toNat := h.first_pos
    have hge : j.first.toNat ≤ j.start.toNat := h.start_ge
    intro hzero
    rw [hzero] at hge
    exact absurd (lt_of_lt_of_le hfirst hge) (lt_irrefl 0)
  refine ⟨rounds, { s' with table := fun _ => [] }, fun rounds' hle => ?_, restores_iff h.words_pos hfs⟩
  rw [journalRecover, if_neg hstart, threePasses_mono hrun hle]
  rfl

end Recover

/-- One transaction with one block, in a log of three. -/
def oneBlockLog (c : BlockCopy) : Recovery :=
  let s := sampleRecovery [[], [jfsMagicNumber, jfsDescriptorBlock, 1#32, c.blocknr, tagFlags c true true], [],
    [jfsMagicNumber, jfsCommitBlock, 1#32]]
  { s with log := Function.update s.log 2#32 c.contents.stored }

theorem committed_oneBlock (c : BlockCopy) : Committed smallSuper (oneBlockLog c) [[.copies [c]]] where
  valid := smallSuper_valid
  words_pos := by decide
  first_pos := by decide
  start_ge := by decide
  start_lt := by decide
  fits := le_refl 3
  table := rfl
  written := by
    have hdescriptor : ((oneBlockLog c).log 1#32).IsDescriptor 256 1#32 [c] := by
      refine ⟨rfl, rfl, rfl, cons_ne_nil _ _, (by decide : 9 ≤ 256), fun i c' hc => ?_⟩
      obtain ⟨hi, rfl⟩ := List.getElem?_eq_some_iff.mp hc
      obtain rfl : i = 0 := by simpa using hi
      exact ⟨rfl, rfl⟩
    refine ⟨⟨⟨hdescriptor, fun i c' hc w _ => ?_⟩, trivial⟩, ⟨rfl, rfl, rfl⟩, ?_⟩
    · obtain ⟨hi, rfl⟩ := List.getElem?_eq_some_iff.mp hc
      obtain rfl : i = 0 := by simpa using hi
      rfl
    · -- round the log, the descriptor block has the number of a commit that is already done
      exact Incomplete.stop (by decide : 1#32 < 4#32) rfl

/-- A block that does not begin with the magic number. -/
def plainCopy : BlockCopy := ⟨7#32, fun _ => 42#32⟩

theorem recovery_restores_plain : ∃ s', (∃ rounds, ∀ rounds' ≥ rounds,
        journalRecover (· % 4) smallSuper rounds' (oneBlockLog plainCopy) = some ⟨true, s'⟩) ∧
      Restores smallSuper.words [[.copies [plainCopy]]] (oneBlockLog plainCopy).fs s'.fs := by
  obtain ⟨rounds, s', hrun, hiff⟩ := @recovery_restores (· % 4) _ _ _ (committed_oneBlock plainCopy)
  refine ⟨s', ⟨rounds, hrun⟩, hiff.mpr fun b c hlast => ?_⟩
  have hrestored := lastLive_iff.mp hlast
  have hcopy : restored b [[.copies [plainCopy]]] = if 7 = b then some plainCopy.contents else none := rfl
  rw [hcopy] at hrestored
  split at hrestored
  · cases hrestored
    decide
  · cases hrestored

/-- A block that begins with it. -/
def magicCopy : BlockCopy := ⟨7#32, fun _ => jfsMagicNumber⟩

theorem escaped_block_damaged : Committed smallSuper (oneBlockLog magicCopy) [[.copies [magicCopy]]] ∧
      LastLive [[.copies [magicCopy]]] 7 magicCopy.contents ∧ magicCopy.contents 0 = jfsMagicNumber ∧
      ((journalRecover (· % 4) smallSuper 5 (oneBlockLog magicCopy)).map fun r => (r.ok, r.state.fs 7 0)) =
        some (true, 0#32) := by
  refine ⟨committed_oneBlock magicCopy, lastLive_iff.mpr rfl, rfl, rfl⟩

/-! ## Interrupted recoveries -/

/-- What an interrupted recovery may leave: only blocks that it writes back have changed. -/
def Interrupted (words : Nat) (txs : List Transaction) (fs fs' : Nat → LogBlock) : Prop :=
  ∀ b i, fs' b i ≠ fs b i → i < words ∧ ∃ c, LastLive txs b c

variable {j : JournalSuper} {s : Recovery} {txs : List Transaction}

theorem Interrupted.overlay {words : Nat} {fs fs' : Nat → LogBlock} (h : Interrupted words txs fs fs') (b : Nat) :
    overlay words (restored b txs) (fs' b) = Linux.overlay words (restored b txs) (fs b) := by
  funext i
  by_cases hsame : fs' b i = fs b i
  · cases restored b txs with
    | none => exact hsame
    | some c =>
      show (if i < words then _ else fs' b i) = if i < words then _ else fs b i
      rw [hsame]
  · obtain ⟨hi, c, hlast⟩ := h b i hsame
    rw [lastLive_iff.mp hlast]
    exact (if_pos hi).trans (if_pos hi).symm

theorem Committed.journalRecover (h : Committed j s txs) (hash : Nat → Nat) :
    ∃ rounds s', (∀ rounds' ≥ rounds, Linux.journalRecover hash j rounds' s = some ⟨true, s'⟩) ∧
      ∀ b, s'.fs b = overlay j.words (restored b txs) (s.fs b) := by
  obtain ⟨rounds, s', hrun, hfs⟩ := @threePasses_fs hash j s txs h
  have hstart : j.start ≠ 0#32 := by
    have hpos : 0 < j.start.toNat := Nat.lt_of_lt_of_le h.first_pos h.start_ge
    intro hzero
    rw [hzero] at hpos
    exact absurd hpos (lt_irrefl 0)
  refine ⟨rounds, { s' with table := fun _ => [] }, fun rounds' hle => ?_, hfs⟩
  rw [Linux.journalRecover, if_neg hstart, threePasses_mono hrun hle]
  rfl

/-- **An interrupted recovery can be started again**, and ends in the same file system. -/
theorem recovery_restartable {hash : Nat → Nat} (h : Committed j s txs) {fs : Nat → LogBlock}
    (hfs : Interrupted j.words txs s.fs fs) :
    ∃ rounds s' s'', (∀ rounds' ≥ rounds, journalRecover hash j rounds' s = some ⟨true, s'⟩ ∧
      journalRecover hash j rounds' { s with fs } = some ⟨true, s''⟩) ∧ s''.fs = s'.fs := by
  have hagain : Committed j { s with fs } txs := { h with }
  obtain ⟨rounds, s', hrun, hs'⟩ := h.journalRecover hash
  obtain ⟨rounds', s'', hrun', hs''⟩ := hagain.journalRecover hash
  refine ⟨max rounds rounds', s', s'', fun n hn => ?_, funext fun b => ?_⟩
  · exact ⟨hrun n (le_of_max_le_left hn), hrun' n (le_of_max_le_right hn)⟩
  · rw [hs', hs'']
    exact hfs.overlay b

/-- Only the first word of the block has been written back. -/
theorem recovery_restartable_torn : ∃ rounds s' s'', (∀ rounds' ≥ rounds,
    journalRecover (· % 4) smallSuper rounds' (oneBlockLog plainCopy) = some ⟨true, s'⟩ ∧
    journalRecover (· % 4) smallSuper rounds' { oneBlockLog plainCopy with
      fs := fun b i => if b = 7 ∧ i = 0 then 42#32 else (oneBlockLog plainCopy).fs b i } = some ⟨true, s''⟩) ∧
    s''.fs = s'.fs := by
  refine recovery_restartable (committed_oneBlock plainCopy) fun b i hne => ?_
  obtain ⟨⟨rfl, rfl⟩, -⟩ := ite_ne_right_iff.mp hne
  exact ⟨by decide, _, lastLive_iff.mpr rfl⟩

end Linux
