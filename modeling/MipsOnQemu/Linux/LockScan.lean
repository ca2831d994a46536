/-
# MipsOnQemu.Linux.LockScan -- the pass over the records of an owner

What `scanLocks` leaves, as parts of the list: the records before the request, one that sticks out of it
to the left, the record that it has become, one that sticks out to the right, and the rest. Put together
again they are the ranges that `Ranges.put` makes (for an unlock, `Ranges.cut`). By induction on the
records, in two phases: as long as nothing has been changed (`scanLocks_scan`), and after the request has
become a record, or has met one to unlock (`scanLocks_added`).
-/

import MipsOnQemu.Linux.PosixLock
import MipsOnQemu.Lib.Ranges

namespace Linux

open Ranges List Option FileLock Sublist

def FileLock.range (fl : FileLock) : Range FlType := ⟨fl.start, fl.stop, fl.type⟩

def ranges (l : List FileLock) : List (Range FlType) := l.map range

/-- A record that the request is put into, or that it replaces; for an unlock, one that it meets. -/
def Reuses (type : FlType) (start stop : Int) (fl : FileLock) : Prop :=
  if type = .unlck then start ≤ fl.stop ∧ fl.start ≤ stop
  else (fl.type = type ∧ start - 1 ≤ fl.stop ∧ fl.start - 1 ≤ stop) ∨
    (fl.type ≠ type ∧ start ≤ fl.start ∧ fl.stop ≤ stop)

/-- A record that the request breaks in two. -/
def Splits (type : FlType) (start stop : Int) (fl : FileLock) : Prop :=
  fl.type ≠ type ∧ fl.start < start ∧ stop < fl.stop

/-- The parts of a list that has been passed over. -/
structure ScanParts where
  before : List FileLock
  left : Option FileLock
  merged : Option FileLock
  right : Option FileLock
  rest : List FileLock
  split : Bool

namespace ScanParts

/-- The record that sticks out to the left. -/
def leftLock (p : ScanParts) : Option FileLock := if p.split then p.right else p.left

def all (p : ScanParts) : List FileLock :=
  p.before ++ p.left.toList ++ p.merged.toList ++ p.right.toList ++ p.rest

/-- The ranges that come out of the parts. -/
def result (p : ScanParts) (type : FlType) (start stop : Int) : List (Range FlType) :=
  ranges p.before ++ (p.leftLock.toList.map fun fl => ⟨fl.start, start - 1, fl.type⟩) ++
    (if type = .unlck then [] else [⟨start, stop, type⟩]) ++
    (p.right.toList.map fun fl => ⟨stop + 1, fl.stop, fl.type⟩) ++ ranges p.rest

end ScanParts

/-- What the request is to do to the ranges of its owner. -/
def target (type : FlType) (start stop : Int) (l : List (Range FlType)) : List (Range FlType) :=
  if type = .unlck then cut start stop l else put type start stop l

/-- **The parts that the pass leaves** of the records `pre ++ mine`, if those in `pre` are before the
request. -/
structure ScanOf (type : FlType) (start stop : Int) (pre mine post : List FileLock)
    (r : LockScan × List FileLock) (p : ScanParts) : Prop where
  passed : r.1.passed = p.before ++ p.left.toList ++ p.merged.toList
  merged : r.1.merged = p.merged.map addr
  left : r.1.left = p.leftLock.map addr
  right : r.1.right = p.right.map addr
  rest : r.2 = p.right.toList ++ p.rest ++ post
  split : p.split = true → p.left = none ∧ p.right.isSome
  merged_type : ∀ fl ∈ p.merged, fl.type = type
  merged_iff : p.merged.isSome ↔ type ≠ .unlck ∧ r.1.added = true
  added_iff : r.1.added = true ↔ ∃ fl ∈ mine, Reuses type start stop fl
  split_iff : p.split = true ↔ ∃ fl ∈ mine, Splits type start stop fl
  /-- nothing has been changed before it is known that no new record is missing -/
  same : r.1.added = false ∨ p.split = true → p.merged = none ∧ p.all = pre ++ mine
  addrs : (p.all.map addr).Sublist ((pre ++ mine).map addr)
  owners : ∀ fl ∈ p.all, ∃ fl' ∈ pre ++ mine, fl.owner = fl'.owner ∧ fl.posix = fl'.posix
  value : p.result type r.1.start r.1.stop = ranges pre ++ target type start stop (ranges mine)

section Scan

variable {owner : Nat} {type : FlType} {start stop : Int} {pre mine post : List FileLock}

theorem scanLocks_post (hpost : ∀ fl ∈ post.head?, fl.owner ≠ owner) (st : LockScan) :
    scanLocks owner type st post = (st, post) := by
  cases post with
  | nil => rfl
  | cons fl post => rw [scanLocks, if_pos (hpost fl rfl)]

variable {fl : FileLock}

theorem start_of_canonical (h : Canonical (ranges (fl :: mine))) :
    ∀ x ∈ mine, fl.stop < x.start ∧ x.start ≤ x.stop :=
  fun x hx => lt_of_canonical h x.range (mem_map_of_mem hx)

/-! ### The range of the request -/

/-- The value that the range of the request gets. -/
def FlType.value (type : FlType) : Option FlType := if type = .unlck then none else some type

theorem target_eq_write (l : List (Range FlType)) : target type start stop l = write type.value start stop l := by
  unfold target FlType.value write
  split <;> rfl

theorem placed_value : placed type.value start stop = if type = .unlck then [] else [⟨start, stop, type⟩] := by
  unfold FlType.value
  split <;> rfl

/-- What sticks out to the left, and to the right. -/
def leftPieces (start : Int) (fl : Option FileLock) : List (Range FlType) :=
  fl.toList.map fun fl => ⟨fl.start, start - 1, fl.type⟩

def rightPieces (stop : Int) (fl : Option FileLock) : List (Range FlType) :=
  fl.toList.map fun fl => ⟨stop + 1, fl.stop, fl.type⟩

theorem target_nil : target type start stop (ranges []) = placed type.value start stop := by
  rw [target_eq_write]
  exact write_nil _ _ _

theorem target_same (hne : type ≠ .unlck) (heq : type = fl.type) :
    target type start stop (ranges (fl :: mine)) =
      if fl.stop < start - 1 then fl.range :: target type start stop (ranges mine)
      else if stop < fl.start - 1 then placed type.value start stop ++ ranges (fl :: mine)
      else target type (min start fl.start) (max stop fl.stop) (ranges mine) := by
  simp only [target_eq_write]
  exact write_same ((congrArg some heq.symm).trans (if_neg hne).symm) _ _ _

theorem target_other (hne : type ≠ fl.type) : target type start stop (ranges (fl :: mine)) =
      if fl.stop < start then fl.range :: target type start stop (ranges mine)
      else if stop < fl.start then placed type.value start stop ++ ranges (fl :: mine)
      else (if fl.start < start then [⟨fl.start, start - 1, fl.type⟩] else []) ++
        if stop < fl.stop then placed type.value start stop ++ ⟨stop + 1, fl.stop, fl.type⟩ :: ranges mine
        else target type start stop (ranges mine) := by
  simp only [target_eq_write]
  refine write_other (r := fl.range) (fun h => ?_) _ _ _
  unfold FlType.value at h
  split at h
  · cases h
  · exact hne (some.inj h).symm

/-! ### Records that the request does not meet -/

theorem reuses_same (hne : type ≠ .unlck) (heq : type = fl.type) :
    Reuses type start stop fl ↔ start - 1 ≤ fl.stop ∧ fl.start - 1 ≤ stop := by
  rw [Reuses, if_neg hne]
  exact ⟨fun h => h.elim (fun h => h.2) fun h => absurd heq.symm h.1, fun h => .inl ⟨heq.symm, h⟩⟩

theorem reuses_other (hne : type ≠ .unlck) (hother : type ≠ fl.type) :
    Reuses type start stop fl ↔ start ≤ fl.start ∧ fl.stop ≤ stop := by
  rw [Reuses, if_neg hne]
  exact ⟨fun h => h.elim (fun h => absurd h.1.symm hother) fun h => h.2, fun h => .inr ⟨hother.symm, h⟩⟩

theorem reuses_unlck (htype : type = .unlck) :
    Reuses type start stop fl ↔ start ≤ fl.stop ∧ fl.start ≤ stop := by
  rw [Reuses, if_pos htype]

theorem untouched_behind (hle : start ≤ stop) (h : stop + 1 < fl.start)
    (hfl : fl.start ≤ fl.stop) : ¬ Reuses type start stop fl ∧ ¬ Splits type start stop fl := by
  refine ⟨fun hr => ?_, fun hs => ?_⟩
  · unfold Reuses at hr
    split at hr <;> omega
  · have hs' := hs.2
    omega

/-! ### Ends of the pass -/

/-- What the pass over `mine` leaves once the request has become a record, or has met one to unlock. -/
def EndsAdded (type : FlType) (st : LockScan) (mine post : List FileLock)
    (r : LockScan × List FileLock) : Prop :=
  ∃ (stop' : Int) (right : Option FileLock) (rest : List FileLock) (woken : List Nat),
    r = ({ st with stop := stop', right := right.map addr, woken := woken },
      right.toList ++ rest ++ post) ∧
    (right.toList ++ rest).Sublist mine ∧
    target type st.start st.stop (ranges mine) =
      placed type.value st.start stop' ++ rightPieces stop' right ++ ranges rest

/-- **After that**, when all that follows starts behind its start. -/
theorem scanLocks_added (hpost : ∀ fl ∈ post.head?, fl.owner ≠ owner)
    (hmine : ∀ fl ∈ mine, fl.owner = owner ∧ fl.type ≠ .unlck) (st : LockScan) (hadded : st.added = true)
    (hright : st.right = none) (hstart : ∀ fl ∈ mine, st.start ≤ fl.start ∧ fl.start ≤ fl.stop) :
    EndsAdded type st mine post (scanLocks owner type st (mine ++ post)) := by
  induction mine generalizing st with
  | nil =>
    refine ⟨st.stop, none, [], st.woken, ?_, refl _, ?_⟩
    · rw [nil_append, scanLocks_post hpost, map_none, ← hright]
      rfl
    · rw [target_nil]
      simp [rightPieces, ranges]
  | cons fl mine ih =>
    obtain ⟨hfl, hle⟩ := hstart fl mem_cons_self
    obtain ⟨howner, htype⟩ := hmine fl mem_cons_self
    have ih := ih (fun x hx => hmine x (mem_cons_of_mem fl hx))
    have hrest := fun x hx => hstart x (mem_cons_of_mem fl hx)
    rw [cons_append, scanLocks, if_neg (not_not.mpr howner)]
    -- the pass ends before this record
    have hbreak : target type st.start st.stop (ranges (fl :: mine)) =
        placed type.value st.start st.stop ++ ranges (fl :: mine) →
        EndsAdded type st (fl :: mine) post (st, fl :: (mine ++ post)) := by
      intro htarget
      refine ⟨st.stop, none, fl :: mine, st.woken, ?_, refl _, ?_⟩
      · rw [map_none, ← hright]
        rfl
      · rw [htarget, rightPieces, toList_none, map_nil, append_nil]
    by_cases heq : type = fl.type
    · have hne : type ≠ .unlck := heq ▸ htype
      rw [if_pos heq, if_neg (by omega)]
      by_cases hfar : st.stop < fl.start - 1
      · rw [if_pos hfar]
        exact hbreak (by rw [target_same hne heq, if_neg (by omega), if_pos hfar])
      · -- joined with the request and deleted
        have hmin : (if st.start < fl.start then st.start else fl.start) = st.start := by
          split <;> omega
        have hmax : (if fl.stop < st.stop then st.stop else fl.stop) = max st.stop fl.stop := by
          split <;> omega
        rw [if_neg hfar, if_pos hadded, hmin, hmax]
        obtain ⟨stop', right, rest, woken, hscan, hsub, hval⟩ :=
          ih { st with stop := max st.stop fl.stop, woken := st.woken ++ [fl.addr] } hadded hright hrest
        refine ⟨stop', right, rest, woken, hscan, hsub.trans (sublist_cons_self _ _), ?_⟩
        rw [target_same hne heq, if_neg (by omega), if_neg hfar, min_eq_left hfl]
        exact hval
    · rw [if_neg heq, if_neg (by omega)]
      by_cases hfar : st.stop < fl.start
      · rw [if_pos hfar]
        exact hbreak (by rw [target_other heq, if_neg (by omega), if_pos hfar])
      have hin : ¬ fl.start < st.start := not_lt.mpr hfl
      rw [if_neg hfar, if_neg hin, hadded, Bool.true_or]
      by_cases hout : st.stop < fl.stop
      · rw [if_pos hout]
        refine ⟨st.stop, some fl, mine, st.woken, ?_, refl _, ?_⟩
        · rw [← hadded]
          rfl
        · rw [target_other heq, if_neg (by omega), if_neg hfar, if_neg hin, if_pos hout, append_assoc]
          rfl
      · rw [if_neg hout, if_pos hfl, if_pos rfl]
        obtain ⟨stop', right, rest, woken, hscan, hsub, hval⟩ :=
          ih { st with added := true, woken := st.woken ++ [fl.addr] } rfl hright hrest
        refine ⟨stop', right, rest, woken, ?_, hsub.trans (sublist_cons_self _ _), ?_⟩
        · rw [hscan, hadded]
        · rw [target_other heq, if_neg (by omega), if_neg hfar, if_neg hin, if_neg hout]
          exact hval

theorem ScanOf.kept (left right : Option FileLock) (rest : List FileLock) (split added : Bool) (woken : List Nat)
    (hlist : left.toList ++ (right.toList ++ rest) = mine)
    (hsplit : split = true → left = none ∧ right.isSome) (hunlock : added = true → type = .unlck)
    (hadded : added = true ↔ ∃ fl ∈ mine, Reuses type start stop fl)
    (hsplits : split = true ↔ ∃ fl ∈ mine, Splits type start stop fl)
    (hvalue : target type start stop (ranges mine) = leftPieces start (if split then right else left) ++
      placed type.value start stop ++ rightPieces stop right ++ ranges rest) :
    ∃ p, ScanOf type start stop pre mine post
      (⟨pre ++ left.toList, start, stop, added, none, (if split then right else left).map addr,
        right.map addr, woken⟩, right.toList ++ rest ++ post) p := by
  have hall : (⟨pre, left, none, right, rest, split⟩ : ScanParts).all = pre ++ mine := by
    rw [← hlist]
    simp [ScanParts.all]
  refine ⟨⟨pre, left, none, right, rest, split⟩, (append_nil _).symm, rfl, rfl, rfl, rfl, hsplit,
    nofun, ⟨nofun, fun h => absurd (hunlock h.2) h.1⟩, hadded, hsplits,
    fun _ => ⟨rfl, hall⟩, by rw [hall], fun fl hfl => ⟨fl, hall ▸ hfl, rfl, rfl⟩, ?_⟩
  rw [hvalue]
  simp [ScanParts.result, ScanParts.leftLock, leftPieces, rightPieces, placed_value]

/-- The request has become the record `merged`, or has unlocked one, in place of the records `gone`. -/
theorem ScanOf.of_added {r : LockScan × List FileLock} {st : LockScan} {m : List FileLock}
    (left merged : Option FileLock) (gone : List FileLock) (hends : EndsAdded type st m post r)
    (hlist : mine = left.toList ++ gone ++ m) (hpassed : st.passed = pre ++ left.toList ++ merged.toList)
    (hadded : st.added = true) (hmerged : st.merged = merged.map addr) (hleft : st.left = left.map addr)
    (haddr : (merged.toList.map addr).Sublist (gone.map addr))
    (ha : ∀ a ∈ merged, a.type = type ∧ ∃ fl ∈ gone, a.owner = fl.owner ∧ a.posix = fl.posix)
    (hsome : merged.isSome ↔ type ≠ .unlck) (hreuses : ∃ fl ∈ mine, Reuses type start stop fl)
    (hsplits : ¬ ∃ fl ∈ mine, Splits type start stop fl)
    (hvalue : leftPieces st.start left ++ target type st.start st.stop (ranges m) =
      target type start stop (ranges mine)) :
    ∃ p, ScanOf type start stop pre mine post r p := by
  obtain ⟨stop', right, rest, woken, rfl, hsub, htarget⟩ := hends
  refine ⟨⟨pre, left, merged, right, rest, false⟩, hpassed, hmerged, hleft, rfl, rfl, nofun,
    fun x hx => (ha x hx).1, ⟨fun h => ⟨hsome.mp h, hadded⟩, fun h => hsome.mpr h.1⟩,
    ⟨fun _ => hreuses, fun _ => hadded⟩, ⟨nofun, fun h => absurd h hsplits⟩, ?_, ?_, ?_, ?_⟩
  · rintro (h | h)
    · exact absurd (hadded.symm.trans h) (by decide)
    · cases h
  · -- the addresses are those of the list, without the ones that were deleted
    rw [hlist]
    simp only [ScanParts.all, map_append, append_assoc]
    refine (refl _).append ((refl _).append (haddr.append ?_))
    rw [← map_append]
    exact hsub.map _
  · intro x hx
    simp only [ScanParts.all, append_assoc, mem_append, mem_toList] at hx
    rw [hlist]
    rcases hx with hx | hx | hx | hx
    · exact ⟨x, mem_append_left _ hx, rfl, rfl⟩
    · exact ⟨x, by simp [hx], rfl, rfl⟩
    · obtain ⟨fl, hfl, hsame⟩ := (ha x hx).2
      exact ⟨fl, by simp [hfl], hsame⟩
    · have hm : x ∈ m := hsub.subset (by simpa using hx)
      exact ⟨x, by simp [hm], rfl, rfl⟩
  · rw [← hvalue, htarget]
    simp [ScanParts.result, ScanParts.leftLock, leftPieces, rightPieces, placed_value]

theorem ScanOf.pass {r : LockScan × List FileLock} {p : ScanParts}
    (h : ScanOf type start stop (pre ++ [fl]) mine post r p)
    (hfl : ¬ Reuses type start stop fl ∧ ¬ Splits type start stop fl)
    (htarget : target type start stop (ranges (fl :: mine)) =
      fl.range :: target type start stop (ranges mine)) :
    ScanOf type start stop pre (fl :: mine) post r p := by
  have hlist : pre ++ [fl] ++ mine = pre ++ fl :: mine := by
    rw [append_assoc]
    rfl
  have hcons : ∀ P : FileLock → Prop, ¬ P fl → ((∃ x ∈ fl :: mine, P x) ↔ ∃ x ∈ mine, P x) := by
    intro P hP
    rw [exists_mem_cons_iff]
    exact or_iff_right hP
  refine ⟨h.passed, h.merged, h.left, h.right, h.rest, h.split, h.merged_type, h.merged_iff,
    h.added_iff.trans (hcons _ hfl.1).symm, h.split_iff.trans (hcons _ hfl.2).symm, hlist ▸ h.same, hlist ▸ h.addrs,
    hlist ▸ h.owners, ?_⟩
  rw [h.value, htarget]
  unfold ranges
  rw [map_append, append_assoc]
  rfl

/-- A record of another type that sticks out to the left of a lock, with all later ones behind it. -/
def SticksOut (type : FlType) (start stop : Int) (mine : List FileLock) (l : FileLock) : Prop :=
  type ≠ .unlck ∧ type ≠ l.type ∧ l.start < start ∧ start ≤ l.stop ∧ l.stop ≤ stop ∧ ∀ x ∈ mine, l.stop < x.start

theorem sticksOut_spec {left : Option FileLock} (hleft : ∀ l ∈ left, SticksOut type start stop mine l) :
    (∀ P : FileLock → Prop, P = Reuses type start stop ∨ P = Splits type start stop →
      ((∃ x ∈ left.toList ++ mine, P x) ↔ ∃ x ∈ mine, P x)) ∧
    target type start stop (ranges (left.toList ++ mine)) =
      leftPieces start left ++ target type start stop (ranges mine) := by
  cases left with
  | none => exact ⟨fun P _ => Iff.rfl, rfl⟩
  | some l =>
    obtain ⟨hne, hother, hbefore, hmeets, hends, -⟩ := hleft l rfl
    refine ⟨?_, ?_⟩
    · intro P hP
      rw [toList_some, singleton_append, exists_mem_cons_iff]
      refine or_iff_right fun hl => ?_
      rcases hP with rfl | rfl
      · have := (reuses_other hne hother).mp hl
        omega
      · have := hl.2
        omega
    · rw [toList_some, singleton_append, target_other hother, if_neg (by omega), if_neg (by omega),
        if_pos hbefore, if_neg (by omega)]
      rfl

/-- The pass is at the record `fl`, has changed nothing, and may be behind a record that sticks out. -/
structure ScanAt (owner : Nat) (type : FlType) (start stop : Int) (left : Option FileLock) (fl : FileLock)
    (m post : List FileLock) : Prop where
  post : ∀ x ∈ post.head?, x.owner ≠ owner
  mine : ∀ x ∈ fl :: m, x.owner = owner ∧ x.type ≠ .unlck
  le : start ≤ stop
  left : ∀ l ∈ left, SticksOut type start stop (fl :: m) l
  canonical : Canonical (ranges (fl :: m))

section ScanAt

variable {left : Option FileLock} {fl : FileLock} {m : List FileLock}
  (h : ScanAt owner type start stop left fl m post)
include h

theorem ScanAt.left_none (hlt : fl.start < start) : left = none := by
  cases left with
  | none => rfl
  | some l =>
    have hout := (h.left l rfl).2.2.2
    have hbehind := hout.2.2 fl mem_cons_self
    omega

theorem ScanAt.splits_iff (hreach : start ≤ fl.stop + 1) :
    (∃ x ∈ left.toList ++ fl :: m, Splits type start stop x) ↔ Splits type start stop fl := by
  rw [(sticksOut_spec h.left).1 _ (.inr rfl), exists_mem_cons_iff]
  refine or_iff_left fun ⟨x, hx, hs⟩ => ?_
  have hbehind := start_of_canonical h.canonical x hx
  have hout := hs.2
  omega

theorem ScanAt.kept (right : Option FileLock)
    (rest : List FileLock) (split added : Bool) (hlist : right.toList ++ rest = fl :: m) (hout : stop < fl.stop)
    (hreach : start ≤ fl.stop + 1) (hsplit : split = true → left = none ∧ right.isSome)
    (hunlock : added = true → type = .unlck) (hadded : added = true ↔ Reuses type start stop fl)
    (hsplits : split = true ↔ Splits type start stop fl)
    (htarget : target type start stop (ranges (fl :: m)) = leftPieces start (if split then right else none) ++
      placed type.value start stop ++ rightPieces stop right ++ ranges rest) {woken : List Nat} :
    ∃ p, ScanOf type start stop pre (left.toList ++ fl :: m) post
      (⟨pre ++ left.toList, start, stop, added, none, (if split then right else left).map addr,
        right.map addr, woken⟩, right.toList ++ rest ++ post) p := by
  obtain ⟨hexists, hvalue⟩ := sticksOut_spec h.left
  refine ScanOf.kept left right rest split added woken (by rw [hlist]) hsplit hunlock ?_ ?_ ?_
  · rw [hexists _ (.inl rfl), exists_mem_cons_iff, hadded]
    refine (or_iff_left fun ⟨x, hx, hr⟩ => ?_).symm
    have hbehind := start_of_canonical h.canonical x hx
    exact (untouched_behind h.le (by omega) hbehind.2).1 hr
  · rw [h.splits_iff hreach]
    exact hsplits
  · rw [hvalue, htarget]
    cases split
    · simp [leftPieces]
    · rw [(hsplit rfl).1]
      simp [leftPieces]

/-- The request becomes the record `merged`, or unlocks `fl`. -/
theorem ScanAt.becomes (out merged : Option FileLock)
    (gone : List FileLock) (st : LockScan) (hlist : left.toList ++ fl :: m = out.toList ++ gone ++ m)
    (hpassed : st.passed = pre ++ out.toList ++ merged.toList) (hadded : st.added = true)
    (hmerged : st.merged = merged.map addr) (hleft : st.left = out.map addr)
    (hright : st.right = none) (hstart : st.start ≤ fl.stop + 1) (hreach : start ≤ fl.stop + 1)
    (haddr : (merged.toList.map addr).Sublist (gone.map addr))
    (ha : ∀ a ∈ merged, a.type = type ∧ ∃ x ∈ gone, a.owner = x.owner ∧ a.posix = x.posix)
    (hsome : merged.isSome ↔ type ≠ .unlck) (hr : Reuses type start stop fl) (hs : ¬ Splits type start stop fl)
    (hvalue : leftPieces st.start out ++ target type st.start st.stop (ranges m) =
      leftPieces start left ++ target type start stop (ranges (fl :: m))) :
    ∃ p, ScanOf type start stop pre (left.toList ++ fl :: m) post (scanLocks owner type st (m ++ post)) p := by
  have hends : EndsAdded type st m post (scanLocks owner type st (m ++ post)) := by
    refine scanLocks_added h.post (fun x hx => h.mine x (mem_cons_of_mem _ hx)) st hadded hright fun x hx => ?_
    have hbehind := start_of_canonical h.canonical x hx
    exact ⟨by omega, hbehind.2⟩
  refine ScanOf.of_added out merged gone hends hlist hpassed hadded hmerged hleft haddr ha hsome ?_ ?_ ?_
  · exact ⟨fl, mem_append_right _ mem_cons_self, hr⟩
  · rw [h.splits_iff hreach]
    exact hs
  · rw [hvalue, (sticksOut_spec h.left).2]

/-- What the pass does behind this record. -/
def ScansOn (owner : Nat) (type : FlType) (start stop : Int) (m post : List FileLock) : Prop :=
  ∀ (pre : List FileLock) (left : Option FileLock), (∀ l ∈ left, SticksOut type start stop m l) → ∀ woken : List Nat,
    ∃ p, ScanOf type start stop pre (left.toList ++ m) post (scanLocks owner type
      ⟨pre ++ left.toList, start, stop, false, none, left.map addr, none, woken⟩ (m ++ post)) p

section

variable (ih : ScansOn owner type start stop m post)
include ih

theorem ScanAt.pass (hbefore : fl.stop < start) (hr : ¬ Reuses type start stop fl)
    (htarget : target type start stop (ranges (fl :: m)) = fl.range :: target type start stop (ranges m))
    {woken : List Nat} : ∃ p, ScanOf type start stop pre (left.toList ++ fl :: m) post (scanLocks owner type
      ⟨pre ++ left.toList ++ [fl], start, stop, false, none, left.map addr, none, woken⟩ (m ++ post)) p := by
  have hfle : fl.start ≤ fl.stop := h.canonical.1
  have hle := h.le
  obtain rfl := h.left_none (by omega)
  obtain ⟨p, hp⟩ := ih (pre ++ [fl]) none nofun woken
  simp only [toList_none, append_nil, nil_append] at hp ⊢
  refine ⟨p, hp.pass ⟨hr, fun hs => ?_⟩ htarget⟩
  have hout := hs.2
  omega

/-- **A record of the type of the request.** -/
theorem ScanAt.same (heq : type = fl.type) (woken : List Nat) :
    ∃ p, ScanOf type start stop pre (left.toList ++ fl :: m) post (scanLocks owner type
      ⟨pre ++ left.toList, start, stop, false, none, left.map addr, none, woken⟩
      (fl :: (m ++ post))) p := by
  have hfle : fl.start ≤ fl.stop := h.canonical.1
  have hle := h.le
  rw [scanLocks, if_neg (not_not.mpr (h.mine fl mem_cons_self).1)]
  dsimp only
  have hne : type ≠ .unlck := heq ▸ (h.mine fl mem_cons_self).2
  have hr : Reuses type start stop fl ↔ _ := reuses_same hne heq
  have hs : ¬ Splits type start stop fl := fun hs => hs.1 heq.symm
  have htarget : target type start stop (ranges (fl :: m)) = _ := target_same hne heq
  rw [if_pos heq]
  by_cases hbefore : fl.stop < start - 1
  · rw [if_pos hbefore] at htarget ⊢
    exact h.pass ih (by omega) (by rw [hr]; omega) htarget
  rw [if_neg hbefore] at htarget ⊢
  by_cases hafter : stop < fl.start - 1
  · rw [if_pos hafter] at htarget ⊢
    refine h.kept none (fl :: m) false false rfl (by omega) (by omega) nofun nofun
      ?_ (by simpa using hs) ?_
    · rw [hr]
      simp only [Bool.false_eq_true, false_iff]
      omega
    · rw [htarget]
      simp [leftPieces, rightPieces]
  -- `fl` is joined with the request
  rw [if_neg hafter] at htarget ⊢
  have hmin : (if start < fl.start then start else fl.start) = min start fl.start := by
    split <;> omega
  have hmax : (if fl.stop < stop then stop else fl.stop) = max stop fl.stop := by
    split <;> omega
  rw [if_neg Bool.false_ne_true, hmin, hmax]
  refine h.becomes left (some fl) [fl] _ (by simp) rfl rfl rfl rfl rfl ?_ (by omega) (refl _) ?_
    (by simpa using hne) (hr.mpr (by omega)) hs ?_
  · show min start fl.start ≤ fl.stop + 1
    omega
  · rintro a ⟨⟩
    exact ⟨heq.symm, fl, mem_singleton_self _, rfl, rfl⟩
  · rw [htarget]
    by_cases hlt : fl.start < start
    · rw [h.left_none hlt]
      rfl
    · simp only [min_eq_left (not_lt.mp hlt)]

/-- **A record of another type.** -/
theorem ScanAt.other (heq : type ≠ fl.type) (woken : List Nat) :
    ∃ p, ScanOf type start stop pre (left.toList ++ fl :: m) post (scanLocks owner type
      ⟨pre ++ left.toList, start, stop, false, none, left.map addr, none, woken⟩
      (fl :: (m ++ post))) p := by
  have hfle : fl.start ≤ fl.stop := h.canonical.1
  have hle := h.le
  rw [scanLocks, if_neg (not_not.mpr (h.mine fl mem_cons_self).1)]
  dsimp only
  have hs : Splits type start stop fl ↔ fl.start < start ∧ stop < fl.stop := and_iff_right (Ne.symm heq)
  have htarget : target type start stop (ranges (fl :: m)) = _ := target_other heq
  have hreach : Reuses type start stop fl → start ≤ fl.stop ∧ fl.start ≤ stop := by
    intro hr
    unfold Reuses at hr
    split at hr
    · exact hr
    · rcases hr with hr | hr
      · exact absurd hr.1.symm heq
      · omega
  rw [if_neg heq]
  by_cases hbefore : fl.stop < start
  · rw [if_pos hbefore] at htarget ⊢
    exact h.pass ih hbefore (fun hr => by have := hreach hr; omega) htarget
  rw [if_neg hbefore] at htarget ⊢
  by_cases hafter : stop < fl.start
  · rw [if_pos hafter] at htarget ⊢
    refine h.kept none (fl :: m) false false rfl (by omega) (by omega) nofun nofun
      ⟨nofun, fun hr => ?_⟩ ?_ ?_
    · have := hreach hr
      omega
    · rw [hs]
      simp only [Bool.false_eq_true, false_iff]
      omega
    · rw [htarget]
      simp [leftPieces, rightPieces]
  rw [if_neg hafter] at htarget
  rw [if_neg hafter, Bool.false_or]
  have hunlock : decide (type = .unlck) = true → type = .unlck := of_decide_eq_true
  by_cases hout : stop < fl.stop
  · -- it sticks out to the right, and may be split
    rw [if_pos hout] at htarget ⊢
    have hadd : decide (type = .unlck) = true ↔ Reuses type start stop fl := by
      rw [decide_eq_true_eq]
      refine ⟨fun h => (reuses_unlck h).mpr (by omega), fun hr => ?_⟩
      by_contra h
      have := (reuses_other h heq).mp hr
      omega
    by_cases hlt : fl.start < start
    · obtain rfl := h.left_none hlt
      rw [if_pos hlt] at htarget ⊢
      refine h.kept (some fl) m true _ rfl hout (by omega) (fun _ => ⟨rfl, rfl⟩) hunlock hadd ?_ ?_
      · simpa using hs.mpr ⟨hlt, hout⟩
      · rw [htarget]
        simp [leftPieces, rightPieces]
    · rw [if_neg hlt] at htarget ⊢
      refine h.kept (some fl) m false _ rfl hout (by omega) nofun hunlock hadd ?_ ?_
      · rw [hs]
        simp [hlt]
      · rw [htarget]
        simp [leftPieces, rightPieces]
  rw [if_neg hout] at htarget ⊢
  have hs' : ¬ Splits type start stop fl := fun h => hout (hs.mp h).2
  by_cases hlt : fl.start < start
  · -- it sticks out to the left
    obtain rfl := h.left_none hlt
    rw [if_neg (by omega), if_pos hlt]
    rw [if_pos hlt] at htarget
    by_cases htype : type = .unlck
    · rw [decide_eq_true htype]
      refine h.becomes (some fl) none [] _ rfl (by simp) rfl rfl rfl rfl ?_ (by omega) (refl _)
        nofun (by simpa using htype) ((reuses_unlck htype).mpr (by omega)) hs' htarget.symm
      show start ≤ fl.stop + 1
      omega
    · rw [decide_eq_false htype]
      have hleft' : ∀ l ∈ some fl, SticksOut type start stop m l := by
        rintro l ⟨⟩
        exact ⟨htype, heq, hlt, by omega, by omega, fun x hx => (start_of_canonical h.canonical x hx).1⟩
      simpa using ih pre (some fl) hleft' woken
  · -- it is covered, and gives its place to the request or is deleted
    rw [if_pos (by omega), if_neg hlt]
    rw [if_neg hlt] at htarget
    by_cases htype : type = .unlck
    · rw [decide_eq_true htype, if_pos rfl]
      refine h.becomes left none [fl] _ (by simp) (by simp) rfl rfl rfl rfl ?_ (by omega) (nil_sublist _)
        nofun (by simpa using htype) ((reuses_unlck htype).mpr (by omega)) hs' ?_
      · show start ≤ fl.stop + 1
        omega
      · rw [htarget]
        rfl
    · rw [decide_eq_false htype, if_neg Bool.false_ne_true]
      refine h.becomes left (some { fl with type := type }) [fl] _ (by simp) rfl rfl rfl rfl rfl ?_ (by omega)
        (refl _) ?_ (by simpa using htype) ((reuses_other htype heq).mpr (by omega)) hs' ?_
      · show start ≤ fl.stop + 1
        omega
      · rintro a ⟨⟩
        exact ⟨rfl, fl, mem_singleton_self _, rfl, rfl⟩
      · rw [htarget]
        rfl

end

end ScanAt

/-- **The pass**, as long as it has changed nothing. -/
theorem scanLocks_scan (hpost : ∀ fl ∈ post.head?, fl.owner ≠ owner)
    (hmine : ∀ fl ∈ mine, fl.owner = owner ∧ fl.type ≠ .unlck) (hle : start ≤ stop)
    (hcanonical : Canonical (ranges mine)) : ScansOn owner type start stop mine post := by
  induction mine with
  | nil =>
    intro pre left hleft woken
    obtain ⟨hexists, hvalue⟩ := sticksOut_spec hleft
    rw [nil_append, scanLocks_post hpost]
    refine ScanOf.kept left none [] false false woken rfl nofun nofun ?_ ?_ ?_
    · rw [hexists _ (.inl rfl)]
      simp
    · rw [hexists _ (.inr rfl)]
      simp
    · rw [hvalue, target_nil]
      simp [rightPieces, ranges]
  | cons fl m ih =>
    intro pre left hleft woken
    have hat : ScanAt owner type start stop left fl m post := ⟨hpost, hmine, hle, hleft, hcanonical⟩
    have hrest := ih (fun x hx => hmine x (mem_cons_of_mem _ hx)) hcanonical.2.2
    by_cases heq : type = fl.type
    · exact hat.same hrest heq woken
    · exact hat.other hrest heq woken

end Scan

end Linux
