/-
# MipsOnQemu.Linux.LockRecords -- a request on the records of its owner

The end of `__posix_lock_file_conf`: what the pass has left, with the new records put in and the old
ones made smaller. Seen as ranges the records of the owner are then what the request asks for
(`OwnerRecords.finish`), or, if a record could not be allocated, still the same.
-/

import MipsOnQemu.Linux.LockScan

namespace Linux

open Option hiding forall_mem_map map_id map_map

open Ranges List ScanParts FileLock

/-! ## The end of the pass -/

/-- The records that the parts become. -/
def ScanParts.records (p : ScanParts) (st : LockScan) (request : LockRequest) (next : Nat) : List FileLock :=
  p.before ++ (p.left.toList.map fun fl => { fl with stop := st.start - 1 }) ++
    (p.merged.toList.map fun fl => { fl with start := st.start, stop := st.stop }) ++
    (if p.split then p.right.toList.map fun fl => { fl with addr := next + 1, stop := st.start - 1 }
      else []) ++
    (if st.added then [] else [⟨next, request.owner, true, request.type, st.start, st.stop⟩]) ++
    (p.right.toList.map fun fl => { fl with start := st.stop + 1 }) ++ p.rest

theorem modifyLock_none (f : FileLock → FileLock) (l : List FileLock) : modifyLock none f l = l := by
  unfold modifyLock
  rw [map_congr_left (g := id), map_id]
  exact fun fl _ => if_neg (some_ne_none _)

theorem modifyLock_mid {l l' : List FileLock} {x : FileLock} (f : FileLock → FileLock)
    (h : ((l ++ x :: l').map addr).Nodup) : modifyLock (some x.addr) f (l ++ x :: l') = l ++ f x :: l' := by
  have hsame : ∀ m : List FileLock, (∀ y ∈ m, y.addr ≠ x.addr) →
      m.map (fun fl => if some fl.addr = some x.addr then f fl else fl) = m := by
    intro m hm
    rw [map_congr_left (g := id), map_id]
    exact fun y hy => if_neg fun heq => hm y hy (some.inj heq)
  rw [map_append, map_cons, nodup_middle, nodup_cons, ← map_append] at h
  have hne : ∀ y ∈ l ++ l', y.addr ≠ x.addr := fun y hy heq => h.1 (heq ▸ mem_map_of_mem hy)
  rw [forall_mem_append] at hne
  rw [modifyLock, map_append, map_cons, if_pos rfl, hsame l hne.1, hsame l' hne.2]

section Finish

variable {type : FlType} {start stop : Int} {mine post : List FileLock} {r : LockScan × List FileLock}
  {p : ScanParts}
  (h : ScanOf type start stop [] mine post r p)
include h

theorem ScanOf.records_same (hsame : r.1.added = false ∨ p.split = true) : r.1.records ++ r.2 = mine ++ post := by
  obtain ⟨hmerged, hall⟩ := h.same hsame
  unfold LockScan.records
  rw [h.merged, hmerged, map_none, modifyLock_none, h.passed, h.rest, hmerged]
  unfold ScanParts.all at hall
  rw [hmerged] at hall
  rw [← append_assoc, ← append_assoc, hall, nil_append]

variable {request : LockRequest}

section Addrs

variable (haddrs : (mine.map addr).Nodup)
include haddrs

theorem ScanOf.nodup : (p.all.map addr).Nodup :=
  haddrs.sublist h.addrs

theorem ScanOf.splits_eq : r.1.splits = p.split := by
  have hnodup := h.nodup haddrs
  unfold LockScan.splits
  rw [h.left, h.right]
  unfold leftLock
  cases hsplit : p.split with
  | true =>
    rw [if_pos rfl]
    obtain ⟨-, hright⟩ := h.split hsplit
    rw [isSome_map, hright, decide_eq_true rfl]
    rfl
  | false =>
    rw [if_neg Bool.false_ne_true]
    rw [Bool.and_eq_false_imp]
    intro hsome
    rw [decide_eq_false_iff_not]
    intro heq
    -- the two records are different ones
    obtain ⟨x, hx⟩ := isSome_iff_exists.mp hsome
    obtain ⟨fr, hfr, hfraddr⟩ := map_eq_some_iff.mp hx
    obtain ⟨fl, hfl, hfladdr⟩ := map_eq_some_iff.mp (heq.trans hx)
    have hall : p.all = p.before ++ p.left.toList ++ p.merged.toList ++ (p.right.toList ++ p.rest) := by
      rw [ScanParts.all, append_assoc (p.before ++ p.left.toList ++ p.merged.toList)]
    rw [hall, map_append, nodup_append] at hnodup
    refine hnodup.2.2 fl.addr (mem_map_of_mem ?_) fr.addr (mem_map_of_mem ?_)
      (hfladdr.trans hfraddr.symm)
    · rw [hfl]
      exact mem_append_left _ (mem_append_right _ mem_cons_self)
    · rw [hfr]
      exact mem_append_left _ mem_cons_self

theorem ScanOf.nodup_passed : ((p.before ++ p.left.toList ++ p.merged.toList).map addr).Nodup := by
  refine (h.nodup haddrs).sublist (Sublist.map _ ?_)
  unfold ScanParts.all
  rw [append_assoc (p.before ++ p.left.toList ++ p.merged.toList)]
  exact sublist_append_left _ _

/-- The records that have been passed, with the range of the request in the one it has become. -/
theorem ScanOf.records_eq : r.1.records = p.before ++ p.left.toList ++
      p.merged.toList.map fun fl => { fl with start := r.1.start, stop := r.1.stop } := by
  have hnodup := h.nodup_passed haddrs
  unfold LockScan.records
  rw [h.merged, h.passed]
  cases hmerged : p.merged with
  | none => rw [map_none, modifyLock_none]; rfl
  | some a =>
    rw [hmerged] at hnodup
    exact modifyLock_mid _ hnodup

theorem ScanOf.finish {next : Nat} {newFl newFl2 : Option Nat} (hnew : newFl = none ∨ newFl = some next)
    (hnew2 : newFl2 = none ∨ newFl2 = some (next + 1)) (hsplit : ¬ (p.split = true ∧ newFl2 = none))
    (hunlock : ¬ (r.1.added = false ∧ request.type = .unlck)) (hadd : ¬ (r.1.added = false ∧ newFl = none)) :
    (finishLock request newFl newFl2 r.1 r.2).1 = .ok ∧
      (finishLock request newFl newFl2 r.1 r.2).2.1 = p.records r.1 request next ++ post := by
  have htrim : trimRight r.1 r.2 =
      (p.right.toList.map fun fl => { fl with start := r.1.stop + 1 }) ++ p.rest ++ post := by
    unfold trimRight
    rw [h.right, h.rest]
    cases p.right with
    | none => rfl
    | some fl => rfl
  have hnewlock : newLock request r.1 newFl =
      if r.1.added then [] else [⟨next, request.owner, true, request.type, r.1.start, r.1.stop⟩] := by
    unfold newLock
    split
    · rfl
    · rename_i hadded
      rcases hnew with hnew | hnew
      · exact absurd ⟨Bool.eq_false_of_not_eq_true hadded, hnew⟩ hadd
      · rw [hnew]
        rfl
  unfold finishLock
  rw [h.splits_eq haddrs, if_neg hsplit, if_neg hunlock, if_neg hadd, hnewlock, htrim,
    h.records_eq haddrs]
  unfold records
  by_cases hsp : p.split = true
  · -- the left piece is a new record
    obtain ⟨hleft, hright⟩ := h.split hsp
    obtain ⟨fr, hfr⟩ := isSome_iff_exists.mp hright
    have hnew2' : newFl2 = some (next + 1) := hnew2.resolve_left fun hnone => hsplit ⟨hsp, hnone⟩
    have hpiece : leftPiece r.1 newFl2 r.2 = [{ fr with addr := next + 1, stop := r.1.start - 1 }] := by
      rw [hnew2', h.rest, hfr]
      rfl
    rw [if_pos hsp, if_pos hsp, hpiece, hleft, hfr]
    refine ⟨rfl, ?_⟩
    simp
  · rw [if_neg hsp, if_neg hsp]
    have hleft : r.1.left = p.left.map addr := by
      rw [h.left]
      unfold leftLock
      rw [if_neg hsp]
    refine ⟨rfl, ?_⟩
    rw [hleft]
    cases hl : p.left with
    | none =>
      rw [map_none, modifyLock_none]
      simp
    | some l =>
      have hnodup := h.nodup_passed haddrs
      rw [hl] at hnodup
      have hmod : modifyLock (some l.addr) (fun fl => { fl with stop := r.1.start - 1 })
          (p.before ++ l :: (p.merged.toList.map fun fl =>
            { fl with start := r.1.start, stop := r.1.stop })) =
          p.before ++ { l with stop := r.1.start - 1 } :: (p.merged.toList.map fun fl =>
            { fl with start := r.1.start, stop := r.1.stop }) := by
        apply modifyLock_mid
        rw [map_append, map_cons, map_map]
        rw [map_append, map_append, append_assoc] at hnodup
        exact hnodup
      simp [hmod]

end Addrs

omit h in
theorem ScanOf.ranges_records (h : ScanOf request.type start stop [] mine post r p)
    (hunlock : ¬ (r.1.added = false ∧ request.type = .unlck)) (next : Nat) :
    ranges (p.records r.1 request next) = p.result request.type r.1.start r.1.stop := by
  -- the request itself, in a record that it has become or in a new one
  have hrequest : ranges (p.merged.toList.map fun fl => { fl with start := r.1.start, stop := r.1.stop }) ++
      ranges (if r.1.added then [] else
        [⟨next, request.owner, true, request.type, r.1.start, r.1.stop⟩]) =
      if request.type = .unlck then [] else [⟨r.1.start, r.1.stop, request.type⟩] := by
    cases hmerged : p.merged with
    | none =>
      have hadded : request.type ≠ .unlck → r.1.added = false := fun htype =>
        Bool.eq_false_of_not_eq_true fun htrue => by
          have hsome := h.merged_iff.mpr ⟨htype, htrue⟩
          rw [hmerged] at hsome
          cases hsome
      by_cases htype : request.type = .unlck
      · rw [if_pos htype, if_pos (Bool.not_eq_false _ ▸ fun hadded => hunlock ⟨hadded, htype⟩)]
        rfl
      · rw [if_neg htype, hadded htype]
        rfl
    | some fl =>
      obtain ⟨htype, hadded⟩ := h.merged_iff.mp (by rw [hmerged]; rfl)
      have hfl := h.merged_type fl hmerged
      rw [if_neg htype, if_pos hadded, ← hfl]
      rfl
  unfold records result leftLock
  rw [← hrequest]
  by_cases hsp : p.split = true
  · obtain ⟨hleft, -⟩ := h.split hsp
    obtain ⟨hmerged, -⟩ := h.same (.inr hsp)
    rw [if_pos hsp, if_pos hsp, hleft, hmerged]
    simp only [ranges, map_append, map_map, toList_none, map_nil, append_nil, nil_append, append_assoc]
    rfl
  · rw [if_neg hsp, if_neg hsp]
    simp only [ranges, map_append, map_map, append_nil, append_assoc]
    rfl

theorem ScanOf.addrs_records (request : LockRequest) (next : Nat) :
    ((p.records r.1 request next).map addr).Perm
      ((if p.split then [next + 1] else []) ++ (if r.1.added then [] else [next]) ++
        p.all.map addr) := by
  have hpiece : (if p.split then p.right.toList.map fun fl =>
      ({ fl with addr := next + 1, stop := r.1.start - 1 } : FileLock) else []).map addr =
      if p.split then [next + 1] else [] := by
    by_cases hsp : p.split = true
    · obtain ⟨fr, hfr⟩ := isSome_iff_exists.mp (h.split hsp).2
      rw [if_pos hsp, if_pos hsp, hfr]
      rfl
    · rw [if_neg hsp, if_neg hsp]
      rfl
  have hnew : (if r.1.added then [] else
      [(⟨next, request.owner, true, request.type, r.1.start, r.1.stop⟩ : FileLock)]).map addr =
      if r.1.added then [] else [next] := by
    split
    · rfl
    · rfl
  unfold ScanParts.records ScanParts.all
  simp only [map_append, map_map, hpiece, hnew, append_assoc]
  -- the new addresses are moved to the front
  generalize (if p.split then [next + 1] else []) = x
  generalize (if r.1.added then [] else [next]) = y
  have hmove : ∀ a b c d : List Nat, (a ++ (b ++ (c ++ (x ++ (y ++ d))))).Perm
      (x ++ (y ++ (a ++ (b ++ (c ++ d))))) := by
    intro a b c d
    rw [perm_iff_count]
    intro addr
    simp only [count_append]
    omega
  exact hmove _ _ _ _

theorem ScanOf.addrs_sublist (next : Nat) :
    ((if p.split then [next + 1] else []) ++ (if r.1.added then [] else [next]) ++
      p.all.map addr).Sublist ([next + 1, next] ++ mine.map addr) := by
  have hsplit : (if p.split then [next + 1] else []).Sublist [next + 1] := by
    split
    · exact Sublist.refl _
    · exact nil_sublist _
  have hadded : (if r.1.added then [] else [next]).Sublist [next] := by
    split
    · exact nil_sublist _
    · exact Sublist.refl _
  exact (hsplit.append hadded).append h.addrs

theorem ScanOf.owners_records (howner : ∀ fl ∈ mine, fl.posix = true ∧ fl.owner = request.owner) (next : Nat) :
    ∀ fl ∈ p.records r.1 request next, fl.posix = true ∧ fl.owner = request.owner := by
  have hall : ∀ fl ∈ p.all, fl.posix = true ∧ fl.owner = request.owner := by
    intro fl hfl
    obtain ⟨fl', hfl', heq, hposix⟩ := h.owners fl hfl
    rw [heq, hposix]
    exact howner fl' hfl'
  unfold ScanParts.all at hall
  simp only [forall_mem_append] at hall
  obtain ⟨⟨⟨⟨hbefore, hleft⟩, hmerged⟩, hright⟩, hrest⟩ := hall
  unfold records
  simp only [forall_mem_append, forall_mem_map]
  refine ⟨⟨⟨⟨⟨⟨hbefore, hleft⟩, hmerged⟩, ?_⟩, ?_⟩, hright⟩, hrest⟩
  · split
    · simpa only [forall_mem_map] using hright
    · exact nofun
  · split
    · exact nofun
    · exact forall_mem_singleton.mpr ⟨rfl, rfl⟩

end Finish

/-! ## The records of an owner -/

/-- **What holds of the records of an owner** between the requests. -/
structure OwnerRecords (next owner : Nat) (l : List FileLock) : Prop where
  owners : ∀ fl ∈ l, fl.posix = true ∧ fl.owner = owner
  nodup : (l.map addr).Nodup
  addrs : ∀ addr ∈ l.map FileLock.addr, addr < next
  canonical : Canonical (ranges l)
  bounds : ∀ r ∈ ranges l, 0 ≤ r.lo ∧ r.hi ≤ offsetMax ∧ r.val ≠ .unlck

variable (request : LockRequest)

/-- A range of a file. -/
def LockRequest.Valid : Prop :=
  0 ≤ request.start ∧ request.start ≤ request.stop ∧ request.stop ≤ offsetMax

/-- No record of the owner can hold the lock. -/
def NeedsNew (mine : List FileLock) : Prop :=
  request.type ≠ .unlck ∧ ¬ ∃ fl ∈ mine, Reuses request.type request.start request.stop fl

/-- A record of the owner is broken in two. -/
def NeedsSplit (mine : List FileLock) : Prop :=
  ∃ fl ∈ mine, Splits request.type request.start request.stop fl

/-- Nothing that could be unlocked. -/
def NothingHeld (mine : List FileLock) : Prop :=
  request.type = .unlck ∧ ¬ ∃ fl ∈ mine, Reuses request.type request.start request.stop fl

section Records

variable {next : Nat} {request : LockRequest} {mine post : List FileLock}

theorem OwnerRecords.mono {owner next' : Nat} (h : OwnerRecords next owner mine) (hle : next ≤ next') :
    OwnerRecords next' owner mine :=
  ⟨h.owners, h.nodup, fun addr haddr => (h.addrs addr haddr).trans_le hle, h.canonical, h.bounds⟩

theorem canonical_target (h : OwnerRecords next request.owner mine) (hvalid : request.Valid) :
    Canonical (target request.type request.start request.stop (ranges mine)) ∧
      ∀ r ∈ target request.type request.start request.stop (ranges mine),
        0 ≤ r.lo ∧ r.hi ≤ offsetMax ∧ r.val ≠ .unlck := by
  obtain ⟨hstart, hle, hstop⟩ := hvalid
  rw [target_eq_write]
  refine ⟨canonical_write h.canonical hle, forall_write (P := (· ≠ FlType.unlck)) h.canonical hle hstart hstop
    (fun v hv => ?_) h.bounds⟩
  unfold FlType.value at hv
  split at hv
  · cases hv
  · rename_i htype
    exact some.inj hv ▸ htype

theorem target_of_nothingHeld (h : NothingHeld request mine) :
    target request.type request.start request.stop (ranges mine) = ranges mine := by
  obtain ⟨htype, hnone⟩ := h
  unfold target
  rw [if_pos htype]
  apply cut_eq_self
  intro r hr
  obtain ⟨fl, hfl, rfl⟩ := mem_map.mp hr
  by_contra hmeets
  refine hnone ⟨fl, hfl, ?_⟩
  unfold Reuses
  rw [if_pos htype]
  change ¬ (fl.stop < request.start ∨ request.stop < fl.start) at hmeets
  omega

theorem not_needsSplit_of_whole {owner : Nat} (h : OwnerRecords next owner mine)
    (hstart : request.start = 0) : ¬ NeedsSplit request mine := by
  rintro ⟨fl, hfl, hsplit⟩
  have hlo : 0 ≤ fl.start := (h.bounds fl.range (mem_map_of_mem hfl)).1
  have hlt := hsplit.2.1
  omega

section

variable (h : OwnerRecords next request.owner mine) (hvalid : request.Valid)
  (hpost : ∀ fl ∈ post, fl.owner ≠ request.owner)
include h hvalid hpost

theorem OwnerRecords.scan : ∃ p, ScanOf request.type request.start request.stop [] mine post
      (scanLocks request.owner request.type
        ⟨[], request.start, request.stop, false, none, none, none, []⟩ (mine ++ post)) p := by
  have hmine : ∀ fl ∈ mine, fl.owner = request.owner ∧ fl.type ≠ .unlck :=
    fun fl hfl => ⟨(h.owners fl hfl).2, (h.bounds fl.range (mem_map_of_mem hfl)).2.2⟩
  have hhead : ∀ fl ∈ post.head?, fl.owner ≠ request.owner :=
    fun fl hfl => hpost fl (List.mem_of_mem_head? hfl)
  exact scanLocks_scan hhead hmine hvalid.2.1 h.canonical [] none nofun []

/-- **The request on the records of its owner.** It succeeds if the records that it needs could be
allocated, and an unlock that must find something does; the records are then what they should be, and
otherwise the same as before. -/
theorem OwnerRecords.finish {newFl newFl2 : Option Nat}
    (hnew : newFl = none ∨ newFl = some next) (hnew2 : newFl2 = none ∨ newFl2 = some (next + 1))
    {r : LockScan × List FileLock} (hr : r = scanLocks request.owner request.type
      ⟨[], request.start, request.stop, false, none, none, none, []⟩ (mine ++ post)) :
    ∃ mine', (finishLock request newFl newFl2 r.1 r.2).2.1 = mine' ++ post ∧
      OwnerRecords (next + 2) request.owner mine' ∧
      ((finishLock request newFl newFl2 r.1 r.2).1 = .ok ↔
        (NeedsSplit request mine → newFl2 ≠ none) ∧ (NeedsNew request mine → newFl ≠ none) ∧
          ¬ (NothingHeld request mine ∧ request.flExists = true)) ∧
      ((finishLock request newFl newFl2 r.1 r.2).1 = .ok →
        ranges mine' = target request.type request.start request.stop (ranges mine)) ∧
      ((finishLock request newFl newFl2 r.1 r.2).1 ≠ .ok → mine' = mine) := by
  obtain ⟨p, hp⟩ := h.scan hvalid hpost
  rw [← hr] at hp
  have hadded : r.1.added = false ↔ ¬ ∃ fl ∈ mine, Reuses request.type request.start request.stop fl := by
    rw [← hp.added_iff, Bool.not_eq_true]
  have hmono : OwnerRecords (next + 2) request.owner mine := h.mono (Nat.le_add_right _ _)
  by_cases hsplit : p.split = true ∧ newFl2 = none
  · -- no record for the left piece
    have hfinish : finishLock request newFl newFl2 r.1 r.2 = (.enolck, mine ++ post, r.1.woken) := by
      unfold finishLock
      rw [hp.splits_eq h.nodup, if_pos hsplit, hp.records_same (.inr hsplit.1)]
    rw [hfinish]
    refine ⟨mine, rfl, hmono, ⟨nofun, fun hcan => ?_⟩, nofun, fun _ => rfl⟩
    exact absurd hsplit.2 (hcan.1 (hp.split_iff.mp hsplit.1))
  have hcan : NeedsSplit request mine → newFl2 ≠ none := fun hneeds hnone =>
    hsplit ⟨hp.split_iff.mpr hneeds, hnone⟩
  by_cases hunlock : r.1.added = false ∧ request.type = .unlck
  · have hnothing : NothingHeld request mine := ⟨hunlock.2, hadded.mp hunlock.1⟩
    have hfinish : finishLock request newFl newFl2 r.1 r.2 =
        (if request.flExists then .enoent else .ok, mine ++ post, r.1.woken) := by
      unfold finishLock
      rw [hp.splits_eq h.nodup, if_neg hsplit, if_pos hunlock, hp.records_same (.inl hunlock.1)]
    rw [hfinish]
    refine ⟨mine, rfl, hmono, ?_, fun _ => (target_of_nothingHeld hnothing).symm, fun _ => rfl⟩
    cases hexists : request.flExists with
    | true => exact ⟨nofun, fun hcan => absurd ⟨hnothing, rfl⟩ hcan.2.2⟩
    | false =>
      refine ⟨fun _ => ⟨hcan, fun hneeds => absurd hunlock.2 hneeds.1, fun hboth => ?_⟩, fun _ => rfl⟩
      cases hboth.2
  have hheld : ¬ NothingHeld request mine := fun hnothing =>
    hunlock ⟨hadded.mpr hnothing.2, hnothing.1⟩
  by_cases hadd : r.1.added = false ∧ newFl = none
  · -- no record for the lock
    have hfinish : finishLock request newFl newFl2 r.1 r.2 = (.enolck, mine ++ post, r.1.woken) := by
      unfold finishLock
      rw [hp.splits_eq h.nodup, if_neg hsplit, if_neg hunlock, if_pos hadd, hp.records_same (.inl hadd.1)]
    rw [hfinish]
    refine ⟨mine, rfl, hmono, ⟨nofun, fun hcan => ?_⟩, nofun, fun _ => rfl⟩
    have htype : request.type ≠ .unlck := fun htype => hunlock ⟨hadd.1, htype⟩
    exact absurd hadd.2 (hcan.2.1 ⟨htype, hadded.mp hadd.1⟩)
  · obtain ⟨hok, hrecords⟩ := hp.finish h.nodup hnew hnew2 hsplit hunlock hadd
    have hranges : ranges (p.records r.1 request next) =
        target request.type request.start request.stop (ranges mine) := by
      rw [hp.ranges_records hunlock, hp.value]
      rfl
    have htarget := canonical_target h hvalid
    refine ⟨p.records r.1 request next, hrecords, ⟨hp.owners_records h.owners next, ?_, ?_, ?_, ?_⟩,
      ⟨fun _ => ⟨hcan, fun hneeds hnone => hadd ⟨hadded.mpr hneeds.2, hnone⟩, fun hboth => hheld hboth.1⟩,
        fun _ => hok⟩, fun _ => hranges, fun hne => absurd hok hne⟩
    · rw [(hp.addrs_records request next).nodup_iff]
      refine Nodup.sublist (hp.addrs_sublist next) ?_
      -- the new addresses are different from the others and from each other
      rw [cons_append, cons_append, nil_append, nodup_cons, nodup_cons, mem_cons, not_or]
      refine ⟨⟨Nat.succ_ne_self next, fun hmem => ?_⟩, fun hmem => ?_, h.nodup⟩
      · exact absurd (h.addrs _ hmem) (by omega)
      · exact absurd (h.addrs _ hmem) (by omega)
    · intro addr haddr
      rw [(hp.addrs_records request next).mem_iff] at haddr
      rcases mem_append.mp ((hp.addrs_sublist next).subset haddr) with haddr | haddr
      · simp only [mem_cons, not_mem_nil, or_false] at haddr
        omega
      · have hlt := h.addrs addr haddr
        omega
    · rw [hranges]
      exact htarget.1
    · rw [hranges]
      exact htarget.2

end

end Records

end Linux
