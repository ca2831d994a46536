/-
# MipsOnQemu.Linux.LockMap -- record locks as maps from offsets to types

What `__posix_lock_file_conf` does to the lock list of a file, seen from outside: each owner holds, at
each offset, a read lock, a write lock or nothing. The records of an owner stand together in the list,
sorted, disjoint and with nothing left to join, behind all `flock` locks and leases (`LockListOk`), and a
request that succeeds gives its type to its range and changes nothing else; one that fails changes
nothing at all.
-/

import MipsOnQemu.Linux.LockRecords
import MipsOnQemu.Linux.LockWait

namespace Linux

open Ranges List Function Option Prod LockRequest

/-! ## Lock lists -/

def recordsOf (l : List FileLock) (owner : Nat) : List FileLock :=
  l.filter fun fl => !skips owner fl

/-- The type that an owner holds at an offset. -/
def typeAt (l : List FileLock) (owner : Nat) (x : Int) : Option FlType :=
  valueAt (ranges (recordsOf l owner)) x

/-- **What holds of a lock list** between the requests: behind the other locks stand the records of one
owner after those of another. -/
def LockListOk (next : Nat) (l : List FileLock) : Prop :=
  ∃ (front : List FileLock) (groups : List (Nat × List FileLock)),
    l = front ++ groups.flatMap snd ∧ (∀ fl ∈ front, fl.posix = false) ∧
      (groups.map fst).Nodup ∧ ∀ g ∈ groups, g.2 ≠ [] ∧ OwnerRecords next g.1 g.2

/-- A list around the records of an owner. -/
structure AroundOwner (owner : Nat) (pre mine post : List FileLock) : Prop where
  skipped : ∀ fl ∈ pre, skips owner fl = true
  others : ∀ fl ∈ post, fl.owner ≠ owner
  last : mine = [] → post = []

variable {fl : FileLock}

section Lists

variable {next owner : Nat} {l pre mine post : List FileLock}

theorem skips_of_ne (h : fl.owner ≠ owner) : skips owner fl = true := by
  unfold skips
  rw [bne_iff_ne.mpr h, Bool.or_true]

theorem not_skips (h : fl.posix = true ∧ fl.owner = owner) : skips owner fl = false := by
  unfold skips
  rw [h.1, h.2, bne_self_eq_false]
  rfl

theorem AroundOwner.recordsOf {mine' : List FileLock} (h : AroundOwner owner pre mine' post)
    (hmine : ∀ fl ∈ mine, fl.posix = true ∧ fl.owner = owner) :
    Linux.recordsOf (pre ++ mine ++ post) owner = mine := by
  unfold Linux.recordsOf
  rw [filter_append, filter_append, filter_eq_nil_iff.mpr, filter_eq_self.mpr,
    filter_eq_nil_iff.mpr, nil_append, append_nil]
  · intro fl hfl
    rw [skips_of_ne (h.others fl hfl)]
    exact Bool.false_ne_true
  · intro fl hfl
    rw [not_skips (hmine fl hfl)]
    rfl
  · intro fl hfl
    rw [h.skipped fl hfl]
    exact Bool.false_ne_true

theorem recordsOf_other {other : Nat} (hne : other ≠ owner)
    (hmine : ∀ fl ∈ mine, fl.posix = true ∧ fl.owner = owner) :
    recordsOf (pre ++ mine ++ post) other = recordsOf pre other ++ recordsOf post other := by
  unfold recordsOf
  have hnone : mine.filter (fun fl => !skips other fl) = [] := by
    rw [filter_eq_nil_iff]
    intro fl hfl
    rw [skips_of_ne (fun heq => hne (heq.symm.trans (hmine fl hfl).2))]
    exact Bool.false_ne_true
  rw [filter_append, filter_append, hnone, append_nil]

/-- Where the first `while` loop stops. -/
theorem AroundOwner.takeWhile_dropWhile (h : AroundOwner owner pre mine post)
    (hmine : ∀ fl ∈ mine, fl.posix = true ∧ fl.owner = owner) :
    (pre ++ mine ++ post).takeWhile (skips owner) = pre ∧
      (pre ++ mine ++ post).dropWhile (skips owner) = mine ++ post := by
  rw [append_assoc, takeWhile_append_of_pos h.skipped, dropWhile_append_of_pos h.skipped]
  cases mine with
  | nil =>
    rw [h.last rfl]
    exact ⟨append_nil _, rfl⟩
  | cons fl mine =>
    have hfl := not_skips (hmine fl mem_cons_self)
    have hstop : ¬ skips owner fl = true := by
      rw [hfl]
      exact Bool.false_ne_true
    rw [cons_append, takeWhile_cons_of_neg hstop, dropWhile_cons_of_neg hstop, append_nil]
    exact ⟨rfl, rfl⟩

theorem LockListOk.mono {next' : Nat} (h : LockListOk next l) (hle : next ≤ next') : LockListOk next' l := by
  obtain ⟨front, groups, hl, hfront, hnodup, hgroups⟩ := h
  exact ⟨front, groups, hl, hfront, hnodup, fun g hg => ⟨(hgroups g hg).1, (hgroups g hg).2.mono hle⟩⟩

/-- The group of an owner, who has none without records. -/
def ownerGroup (owner : Nat) (mine : List FileLock) : List (Nat × List FileLock) :=
  if mine = [] then [] else [(owner, mine)]

theorem ownerGroup_cases (owner : Nat) (mine : List FileLock) :
    (mine = [] ∧ ownerGroup owner mine = []) ∨ (mine ≠ [] ∧ ownerGroup owner mine = [(owner, mine)]) := by
  by_cases hnil : mine = []
  · exact .inl ⟨hnil, if_pos hnil⟩
  · exact .inr ⟨hnil, if_neg hnil⟩

theorem flatMap_ownerGroup (before behind : List (Nat × List FileLock)) :
    (before ++ (ownerGroup owner mine ++ behind)).flatMap snd =
      before.flatMap snd ++ (mine ++ behind.flatMap snd) := by
  rcases ownerGroup_cases owner mine with ⟨rfl, heq⟩ | ⟨-, heq⟩
  · rw [heq, flatMap_append]
    rfl
  · rw [heq, flatMap_append, flatMap_append, flatMap_singleton]

/-- **A list taken apart at an owner**, and put together again with other records of that owner. -/
theorem LockListOk.split (h : LockListOk next l) (owner : Nat) :
    ∃ pre mine post, l = pre ++ mine ++ post ∧ AroundOwner owner pre mine post ∧
      OwnerRecords next owner mine ∧
      ∀ next' mine', next ≤ next' → OwnerRecords next' owner mine' →
        LockListOk next' (pre ++ mine' ++ post) := by
  obtain ⟨front, groups, rfl, hfront, hnodup, hgroups⟩ := h
  -- the first records of an owner are put at the end
  have hsplit : ∃ before mine behind, groups = before ++ (ownerGroup owner mine ++ behind) ∧
      owner ∉ (before ++ behind).map fst ∧ (mine = [] → behind = []) ∧ OwnerRecords next owner mine := by
    by_cases hmem : owner ∈ groups.map fst
    · obtain ⟨⟨owner, mine⟩, hg, rfl⟩ := mem_map.mp hmem
      obtain ⟨hne, hmine⟩ := hgroups _ hg
      obtain ⟨before, behind, rfl⟩ := append_of_mem hg
      rw [map_append, map_cons, nodup_middle, nodup_cons, ← map_append] at hnodup
      exact ⟨before, mine, behind, by rw [ownerGroup, if_neg hne]; rfl, hnodup.1, fun hnil => absurd hnil hne, hmine⟩
    · refine ⟨groups, [], [], (append_nil groups).symm, (append_nil groups).symm ▸ hmem, fun _ => rfl, ?_⟩
      exact ⟨nofun, nodup_nil, nofun, trivial, nofun⟩
  obtain ⟨before, mine, behind, rfl, hne, hlast, hmine⟩ := hsplit
  have hsub : (before ++ behind).Sublist (before ++ (ownerGroup owner mine ++ behind)) :=
    (sublist_append_right _ _).append_left before
  have howners : ∀ g ∈ before ++ behind, ∀ fl ∈ g.2, fl.owner ≠ owner := by
    rintro g hg fl hfl rfl
    rw [((hgroups g (hsub.subset hg)).2.owners fl hfl).2] at hne
    exact hne (mem_map_of_mem hg)
  refine ⟨front ++ before.flatMap snd, mine, behind.flatMap snd, ?_, ⟨fun fl hfl => ?_, fun fl hfl => ?_,
    fun hnil => by rw [hlast hnil]; rfl⟩, hmine, fun next' mine' hle hmine' => ?_⟩
  · rw [flatMap_ownerGroup, append_assoc, append_assoc]
  · rcases mem_append.mp hfl with hfl | hfl
    · rw [skips, hfront fl hfl]
      rfl
    · obtain ⟨g, hg, hfl⟩ := mem_flatMap.mp hfl
      exact skips_of_ne (howners g (mem_append_left _ hg) fl hfl)
  · obtain ⟨g, hg, hfl⟩ := mem_flatMap.mp hfl
    exact howners g (mem_append_right _ hg) fl hfl
  · have hold : ∀ g ∈ before ++ behind, g.2 ≠ [] ∧ OwnerRecords next' g.1 g.2 := fun g hg =>
      (hgroups g (hsub.subset hg)).imp_right fun hg => hg.mono hle
    have hnodup' := hnodup.sublist (hsub.map fst)
    refine ⟨front, before ++ (ownerGroup owner mine' ++ behind), ?_, hfront, ?_⟩
    · rw [flatMap_ownerGroup, append_assoc, append_assoc]
    · rcases ownerGroup_cases owner mine' with ⟨-, heq⟩ | ⟨hnil, heq⟩
      · rw [heq]
        exact ⟨hnodup', hold⟩
      · rw [heq, singleton_append, map_append, map_cons, nodup_middle, nodup_cons, ← map_append]
        refine ⟨⟨hne, hnodup'⟩, fun g hg => ?_⟩
        exact forall_mem_cons.mpr ⟨⟨hnil, hmine'⟩, hold⟩ g (perm_middle.mem_iff.mp hg)

theorem LockListOk.records (h : LockListOk next l) (owner : Nat) :
    OwnerRecords next owner (recordsOf l owner) := by
  obtain ⟨pre, mine, post, rfl, haround, hmine, -⟩ := h.split owner
  rw [haround.recordsOf hmine.owners]
  exact hmine

theorem LockListOk.typeAt_eq_some_iff (h : LockListOk next l) {x : Int} {t : FlType} :
    typeAt l owner x = some t ↔ ∃ fl ∈ recordsOf l owner, fl.start ≤ x ∧ x ≤ fl.stop ∧ fl.type = t := by
  unfold typeAt
  rw [valueAt_eq_some_iff (h.records owner).canonical]
  constructor
  · rintro ⟨r, hr, hlo, hhi, hval⟩
    obtain ⟨fl, hfl, rfl⟩ := mem_map.mp hr
    exact ⟨fl, hfl, hlo, hhi, hval⟩
  · rintro ⟨fl, hfl, hlo, hhi, hval⟩
    exact ⟨fl.range, mem_map_of_mem hfl, hlo, hhi, hval⟩

end Lists

/-! ## Requests -/

variable (request : LockRequest)

/-- No other owner holds, at an offset of the request, a lock that conflicts with it. -/
def NoConflict (l : List FileLock) : Prop :=
  request.type = .unlck ∨ ∀ owner x t, owner ≠ request.owner → request.start ≤ x → x ≤ request.stop →
    typeAt l owner x = some t → request.type ≠ .wrlck ∧ t ≠ .wrlck

/-- The owner of the request holds nothing at its offsets. -/
def HoldsNothing (l : List FileLock) : Prop :=
  ∀ x, request.start ≤ x → x ≤ request.stop → typeAt l request.owner x = none

/-- What the owner holds where a request has been granted. -/
def LockRequest.held : Option FlType :=
  if request.type = .unlck then none else some request.type

/-- **The request has been granted:** its type is held in its range, nothing else has changed, and the
records of the owner are as before one behind the other, sorted, disjoint and joined. -/
structure Granted (l l' : List FileLock) : Prop where
  inside : ∀ x, request.start ≤ x → x ≤ request.stop → typeAt l' request.owner x = request.held
  outside : ∀ x, x < request.start ∨ request.stop < x →
    typeAt l' request.owner x = typeAt l request.owner x
  others : ∀ owner, owner ≠ request.owner → ∀ x, typeAt l' owner x = typeAt l owner x
  together : ∃ pre post, l' = pre ++ recordsOf l' request.owner ++ post
  canonical : Canonical (ranges (recordsOf l' request.owner))

section Requests

variable {next : Nat} {request : LockRequest} {l : List FileLock}

theorem locksConflict_eq_false_iff (a b : FlType) : locksConflict a b = false ↔ a ≠ .wrlck ∧ b ≠ .wrlck := by
  cases a <;> cases b <;> decide

theorem conflictOf_eq_none_iff (h : LockListOk next l) (hvalid : request.Valid) :
    conflictOf request l = none ↔ NoConflict request l := by
  unfold conflictOf NoConflict
  by_cases htype : request.type = .unlck
  · rw [if_pos htype]
    exact iff_of_true rfl (.inl htype)
  rw [if_neg htype, List.find?_eq_none, or_iff_right htype]
  constructor
  · intro hnone owner x t howner hstart hstop htypeAt
    obtain ⟨fl, hfl, hlo, hhi, rfl⟩ := h.typeAt_eq_some_iff.mp htypeAt
    have hof := (h.records owner).owners fl hfl
    have hno := hnone fl (mem_of_mem_filter hfl)
    rw [hof.1, Bool.true_and, Bool.not_eq_true] at hno
    unfold posixLocksConflict locksOverlap at hno
    rw [hof.1, hof.2, if_neg (by simpa using howner.symm), if_neg (by simp; omega)] at hno
    exact (locksConflict_eq_false_iff _ _).mp hno
  · intro hmap fl hfl hconflict
    obtain ⟨hposix, hconflict⟩ := (Bool.and_eq_true _ _).mp hconflict
    unfold posixLocksConflict locksOverlap at hconflict
    split at hconflict
    · cases hconflict
    · rename_i howner
      split at hconflict
      · cases hconflict
      · rename_i hoverlap
        have hne : fl.owner ≠ request.owner := fun heq => howner (by simp [heq])
        have hmem : fl ∈ recordsOf l fl.owner := mem_filter.mpr ⟨hfl, by
          rw [not_skips ⟨hposix, rfl⟩]
          rfl⟩
        have hle : fl.start ≤ request.stop ∧ request.start ≤ fl.stop := by simpa using hoverlap
        have hfle : fl.start ≤ fl.stop :=
          le_of_canonical (h.records fl.owner).canonical fl.range (mem_map_of_mem hmem)
        have hvle := hvalid.2.1
        -- the first offset that both cover
        have hboth := hmap fl.owner (max fl.start request.start) fl.type hne (le_max_right _ _)
          (max_le hle.1 hvle) (h.typeAt_eq_some_iff.mpr
            ⟨fl, hmem, le_max_left _ _, max_le hfle hle.2, rfl⟩)
        rw [(locksConflict_eq_false_iff _ _).mpr hboth] at hconflict
        cases hconflict

/-- What `put` and `cut` do to the map. -/
theorem valueAt_target {mine : List FileLock} (hcanonical : Canonical (ranges mine))
    (hvalid : request.Valid) (x : Int) :
    valueAt (target request.type request.start request.stop (ranges mine)) x =
      if request.start ≤ x ∧ x ≤ request.stop then request.held else valueAt (ranges mine) x := by
  rw [target_eq_write]
  exact valueAt_write hcanonical hvalid.2.1 x

theorem nothingHeld_iff (h : LockListOk next l) (hvalid : request.Valid) :
    NothingHeld request (recordsOf l request.owner) ↔ request.type = .unlck ∧ HoldsNothing request l := by
  unfold NothingHeld HoldsNothing
  refine and_congr_right fun htype => ?_
  unfold Reuses
  simp only [htype, if_true]
  constructor
  · intro hnone x hstart hstop
    rw [eq_none_iff_forall_ne_some]
    intro t ht
    obtain ⟨fl, hfl, hlo, hhi, -⟩ := h.typeAt_eq_some_iff.mp ht
    exact hnone ⟨fl, hfl, by omega, by omega⟩
  · rintro hnone ⟨fl, hfl, hstop, hstart⟩
    have hfle : fl.start ≤ fl.stop :=
      le_of_canonical (h.records request.owner).canonical fl.range (mem_map_of_mem hfl)
    have hle := hvalid.2.1
    have hsome := h.typeAt_eq_some_iff.mpr
      ⟨fl, hfl, le_max_left fl.start request.start, max_le hfle hstop, rfl⟩
    rw [hnone _ (le_max_right _ _) (max_le hstart hle)] at hsome
    cases hsome

theorem lockRecords_spec (h : LockListOk next l) (hvalid : request.Valid) {newFl newFl2 : Option Nat}
    (hnew : newFl = none ∨ newFl = some next) (hnew2 : newFl2 = none ∨ newFl2 = some (next + 1)) :
    LockListOk (next + 2) (lockRecords request newFl newFl2 l).2.1 ∧
      ((lockRecords request newFl newFl2 l).1 = .ok ↔
        (NeedsSplit request (recordsOf l request.owner) → newFl2 ≠ none) ∧
        (NeedsNew request (recordsOf l request.owner) → newFl ≠ none) ∧
        ¬ (NothingHeld request (recordsOf l request.owner) ∧ request.flExists = true)) ∧
      ((lockRecords request newFl newFl2 l).1 = .ok →
        Granted request l (lockRecords request newFl newFl2 l).2.1) ∧
      ((lockRecords request newFl newFl2 l).1 ≠ .ok → (lockRecords request newFl newFl2 l).2.1 = l) := by
  obtain ⟨pre, mine, post, rfl, haround, hmine, hrebuild⟩ := h.split request.owner
  obtain ⟨htake, hdrop⟩ := haround.takeWhile_dropWhile hmine.owners
  unfold lockRecords
  dsimp only
  rw [htake, hdrop, haround.recordsOf hmine.owners]
  obtain ⟨mine', hlist, hmine', hok, hgranted, hsame⟩ :=
    hmine.finish hvalid haround.others hnew hnew2 rfl
  rw [hlist, ← append_assoc]
  refine ⟨hrebuild _ mine' (Nat.le_add_right _ _) hmine', hok, fun heq => ?_, fun hne => ?_⟩
  · have hranges := hgranted heq
    have htype : ∀ x, typeAt (pre ++ mine' ++ post) request.owner x =
        if request.start ≤ x ∧ x ≤ request.stop then request.held
        else typeAt (pre ++ mine ++ post) request.owner x := by
      intro x
      unfold typeAt
      rw [haround.recordsOf hmine'.owners, haround.recordsOf hmine.owners, hranges,
        valueAt_target hmine.canonical hvalid]
    refine ⟨fun x hstart hstop => ?_, fun x hx => ?_, fun owner howner x => ?_, ⟨pre, post, ?_⟩, ?_⟩
    · rw [htype, if_pos ⟨hstart, hstop⟩]
    · rw [htype, if_neg (by omega)]
    · unfold typeAt
      rw [recordsOf_other howner hmine'.owners, recordsOf_other howner hmine.owners]
    · rw [haround.recordsOf hmine'.owners]
    · rw [haround.recordsOf hmine'.owners]
      exact hmine'.canonical
  · rw [hsame hne]

end Requests

/-! ## Runs -/

/-- All lock lists are as they should be. -/
def LocksOk (s : LockState) : Prop := ∀ inode, LockListOk s.next (s.flock inode)

/-- Requests are for ranges of a file. -/
def LockOp.Valid : LockOp → Prop
  | .lock _ request _ _ => request.Valid
  | _ => True

section Requests

variable {s s' : LockState} {inode : Nat} {request : LockRequest} {alloc1 alloc2 : Bool}

theorem posixLockFileConf_eq (hnone : conflictOf request (s.flock inode) = none)
    (haccess : request.flAccess = false) (alloc1 alloc2 : Bool) :
    ∃ blocked, posixLockFileConf s inode request alloc1 alloc2 =
      some (((lockRecords request (request.alloc s.next alloc1) (request.alloc (s.next + 1) alloc2)
          (s.flock inode)).1, none),
        ⟨s.next + 2, Function.update s.flock inode (lockRecords request (request.alloc s.next alloc1)
          (request.alloc (s.next + 1) alloc2) (s.flock inode)).2.1, blocked⟩) := by
  unfold posixLockFileConf
  rw [hnone, haccess]
  exact ⟨_, rfl⟩

theorem posixLockFileConf_conflict
    (hsome : conflictOf request (s.flock inode) = some fl) {r : LockResult × Option FileLock}
    (h : posixLockFileConf s inode request alloc1 alloc2 = some (r, s')) :
    r.1 ≠ .ok ∧ s'.next = s.next ∧ s'.flock = s.flock := by
  unfold posixLockFileConf at h
  rw [hsome] at h
  dsimp only at h
  split at h
  · cases h
    exact ⟨nofun, rfl, rfl⟩
  · split at h
    · cases h
    · cases h
      exact ⟨nofun, rfl, rfl⟩
    · cases h
      exact ⟨nofun, rfl, rfl⟩

theorem posixLockFileConf_access (hnone : conflictOf request (s.flock inode) = none)
    (haccess : request.flAccess = true) :
    posixLockFileConf s inode request alloc1 alloc2 = some ((.ok, none), s) := by
  unfold posixLockFileConf
  rw [hnone, haccess]
  rfl

theorem LockRequest.alloc_eq_or (request : LockRequest) (addr : Nat) (ok : Bool) :
    request.alloc addr ok = none ∨ request.alloc addr ok = some addr := by
  unfold alloc
  split
  · exact .inr rfl
  · exact .inl rfl

theorem alloc_ne_none_iff {addr : Nat} {ok : Bool} (hallocates : request.allocates = true) :
    request.alloc addr ok ≠ none ↔ ok = true := by
  unfold alloc
  rw [hallocates, Bool.true_and]
  cases ok with
  | true => exact iff_of_true (some_ne_none _) rfl
  | false => exact iff_of_false (fun h => h rfl) Bool.false_ne_true

theorem needs_of_not_allocates {next : Nat} {mine : List FileLock} {owner : Nat}
    (hmine : OwnerRecords next owner mine) (haccess : request.flAccess = false)
    (hallocates : request.allocates = false) : ¬ NeedsSplit request mine ∧ ¬ NeedsNew request mine := by
  unfold allocates at hallocates
  rw [haccess] at hallocates
  simp only [Bool.not_false, Bool.true_and, Bool.or_eq_false_iff, decide_eq_false_iff_not,
    not_not] at hallocates
  exact ⟨not_needsSplit_of_whole hmine hallocates.1.2, fun hneeds => hneeds.1 hallocates.1.1⟩

theorem posixLockFileConf_ok_iff (h : LocksOk s) (hvalid : request.Valid)
    (haccess : request.flAccess = false) :
    (∃ c s', posixLockFileConf s inode request alloc1 alloc2 = some ((.ok, c), s')) ↔
      NoConflict request (s.flock inode) ∧
      (NeedsNew request (recordsOf (s.flock inode) request.owner) → alloc1 = true) ∧
      (NeedsSplit request (recordsOf (s.flock inode) request.owner) → alloc2 = true) ∧
      ¬ (request.type = .unlck ∧ request.flExists = true ∧ HoldsNothing request (s.flock inode)) := by
  rw [← conflictOf_eq_none_iff (h inode) hvalid]
  cases hconflict : conflictOf request (s.flock inode) with
  | some fl =>
    refine iff_of_false ?_ fun hno => some_ne_none _ hno.1
    rintro ⟨c, s', hexec⟩
    exact (posixLockFileConf_conflict hconflict hexec).1 rfl
  | none =>
    have hmine := (h inode).records request.owner
    obtain ⟨-, hok, -, -⟩ := lockRecords_spec (h inode) hvalid (request.alloc_eq_or s.next alloc1)
      (request.alloc_eq_or (s.next + 1) alloc2)
    obtain ⟨blocked, hexec⟩ := posixLockFileConf_eq hconflict haccess alloc1 alloc2
    have hreturns : (∃ c s', posixLockFileConf s inode request alloc1 alloc2 = some ((.ok, c), s')) ↔
        (lockRecords request (request.alloc s.next alloc1) (request.alloc (s.next + 1) alloc2)
          (s.flock inode)).1 = .ok := by
      rw [hexec]
      constructor
      · rintro ⟨c, s', heq⟩
        exact congrArg (fun p => p.1.1) (some.inj heq)
      · intro heq
        rw [heq]
        exact ⟨_, _, rfl⟩
    -- what is allocated is enough where it is needed
    have halloc : ∀ (P : Prop) (addr : Nat) (ok : Bool), (request.allocates = false → ¬ P) →
        ((P → request.alloc addr ok ≠ none) ↔ (P → ok = true)) := by
      intro P addr ok hP
      cases hallocates : request.allocates with
      | true => rw [alloc_ne_none_iff hallocates]
      | false => exact iff_of_true (fun h => absurd h (hP hallocates)) (fun h => absurd h (hP hallocates))
    rw [hreturns, hok, halloc _ _ _ fun hnone => (needs_of_not_allocates hmine haccess hnone).1,
      halloc _ _ _ fun hnone => (needs_of_not_allocates hmine haccess hnone).2,
      nothingHeld_iff (h inode) hvalid]
    constructor
    · rintro ⟨hsplit, hnew, hholds⟩
      exact ⟨rfl, hnew, hsplit, fun hboth => hholds ⟨⟨hboth.1, hboth.2.2⟩, hboth.2.1⟩⟩
    · rintro ⟨-, hnew, hsplit, hholds⟩
      exact ⟨hsplit, hnew, fun hboth => hholds ⟨hboth.1.1, hboth.2, hboth.1.2⟩⟩

theorem posixLockFileConf_spec (h : LocksOk s) (hvalid : request.Valid)
    (haccess : request.flAccess = false) {r : LockResult × Option FileLock}
    (hexec : posixLockFileConf s inode request alloc1 alloc2 = some (r, s')) :
    LocksOk s' ∧ (r.1 = .ok → Granted request (s.flock inode) (s'.flock inode) ∧
        ∀ other, other ≠ inode → s'.flock other = s.flock other) ∧
      (r.1 ≠ .ok → s'.flock = s.flock) := by
  cases hconflict : conflictOf request (s.flock inode) with
  | some fl =>
    obtain ⟨hne, hnext, hflock⟩ := posixLockFileConf_conflict hconflict hexec
    refine ⟨fun other => ?_, fun hok => absurd hok hne, fun _ => hflock⟩
    rw [hnext, hflock]
    exact h other
  | none =>
    obtain ⟨blocked, heq⟩ := posixLockFileConf_eq hconflict haccess alloc1 alloc2
    obtain ⟨hlist, -, hgranted, hsame⟩ := lockRecords_spec (h inode) hvalid
      (request.alloc_eq_or s.next alloc1) (request.alloc_eq_or (s.next + 1) alloc2)
    rw [heq] at hexec
    obtain ⟨rfl, rfl⟩ := mk.inj (some.inj hexec)
    dsimp only
    refine ⟨?_, fun hok => ⟨?_, fun other hne => ?_⟩, fun hne => ?_⟩
    · exact (forall_update_iff _ fun _ => LockListOk _).mpr
        ⟨hlist, fun other _ => (h other).mono (Nat.le_add_right _ _)⟩
    · rw [update_self]
      exact hgranted hok
    · exact update_of_ne hne _ _
    · rw [hsame hne, update_eq_self]

end Requests

theorem LockListOk.others {next : Nat} {l : List FileLock} (h : LockListOk next l) (front : List FileLock) :
    LockListOk next (front.map (fun fl => { fl with posix := false }) ++ l.filter FileLock.posix) := by
  obtain ⟨before, groups, rfl, hbefore, hnodup, hgroups⟩ := h
  refine ⟨front.map fun fl => { fl with posix := false }, groups, ?_, ?_, hnodup, hgroups⟩
  · rw [filter_append, filter_eq_nil_iff.mpr, nil_append, filter_eq_self.mpr]
    · intro fl hfl
      obtain ⟨g, hg, hflg⟩ := mem_flatMap.mp hfl
      exact ((hgroups g hg).2.owners fl hflg).1
    · intro fl hfl
      rw [hbefore fl hfl]
      exact Bool.false_ne_true
  · exact forall_mem_map.mpr fun _ _ => rfl

theorem LockOp.locksOk (s : LockState) (op : LockOp) (p : (LockResult × Option FileLock) × LockState)
    (h : LocksOk s) (hvalid : op.Valid) (hexec : op.exec s = some p) : LocksOk p.2 := by
  cases op with
  | lock inode request alloc1 alloc2 =>
    cases haccess : request.flAccess with
    | false => exact (posixLockFileConf_spec h hvalid haccess hexec).1
    | true =>
      cases hconflict : conflictOf request (s.flock inode) with
      | none =>
        have heq := hexec.symm.trans (posixLockFileConf_access hconflict haccess)
        obtain rfl := some.inj heq
        exact h
      | some fl =>
        obtain ⟨-, hnext, hflock⟩ := posixLockFileConf_conflict hconflict hexec
        intro other
        rw [hnext, hflock]
        exact h other
  | interrupt addr =>
    obtain rfl := some.inj hexec
    exact h
  | others inode front =>
    obtain rfl := some.inj hexec
    exact (forall_update_iff _ fun _ => LockListOk _).mpr ⟨(h inode).others front, fun other _ => h other⟩

theorem locksOk_noLocks : LocksOk noLocks := fun _ =>
  ⟨[], [], rfl, nofun, nodup_nil, nofun⟩

/-- **Record locks refine a map** from offsets to types for each owner. In every state that requests can
lead to, a request succeeds exactly if no other owner holds a conflicting lock in its range, the records
that it needs could be allocated, and it is not an unlock that was to find something (`FL_EXISTS`) and
does not. It then gives its type to its range and changes nothing else; one that fails changes
nothing. -/
theorem posix_locks_refine_map {ops : List LockOp} (hops : ∀ op ∈ ops, op.Valid)
    {rs : List (LockResult × Option FileLock)} {s : LockState}
    (hrun : Runs.run LockOp.exec noLocks ops = some (rs, s)) (inode : Nat) {request : LockRequest}
    (hvalid : request.Valid) (haccess : request.flAccess = false) (alloc1 alloc2 : Bool) :
    ((∃ c s', posixLockFileConf s inode request alloc1 alloc2 = some ((.ok, c), s')) ↔
      NoConflict request (s.flock inode) ∧
      (NeedsNew request (recordsOf (s.flock inode) request.owner) → alloc1 = true) ∧
      (NeedsSplit request (recordsOf (s.flock inode) request.owner) → alloc2 = true) ∧
      ¬ (request.type = .unlck ∧ request.flExists = true ∧ HoldsNothing request (s.flock inode))) ∧
    ∀ result c s', posixLockFileConf s inode request alloc1 alloc2 = some ((result, c), s') →
      (result = .ok → Granted request (s.flock inode) (s'.flock inode) ∧
        ∀ other, other ≠ inode → s'.flock other = s.flock other) ∧
      (result ≠ .ok → s'.flock = s.flock) := by
  have hinv : LocksOk s := Runs.run_invariant LockOp.locksOk locksOk_noLocks hops hrun
  refine ⟨posixLockFileConf_ok_iff hinv hvalid haccess, fun result c s' hexec => ?_⟩
  exact (posixLockFileConf_spec hinv hvalid haccess hexec).2

/-- An unlock of the first byte of a file that must find a lock. -/
def unlockExisting : LockRequest := ⟨101, 1, .unlck, 0, 0, false, false, true⟩

/-- **An unlock that finds nothing fails** if it was to find something, though no lock of another owner is
in its way and no record is needed. -/
theorem posix_unlock_finds_nothing : unlockExisting.Valid ∧ unlockExisting.flAccess = false ∧
      NoConflict unlockExisting (noLocks.flock 1) ∧
      posixLockFileConf noLocks 1 unlockExisting true true =
        some ((.enoent, none), ⟨2, Function.update noLocks.flock 1 [], []⟩) := by
  refine ⟨⟨le_refl 0, le_refl 0, by decide⟩, rfl, .inl rfl, rfl⟩

/-- An owner reads the first bytes of a file and then unlocks some in the middle. -/
theorem posix_locks_refine_map_pair : ∃ rs s c s', Runs.run LockOp.exec noLocks
        [.lock 1 ⟨101, 1, .rdlck, 0, 9, false, false, false⟩ true true] = some (rs, s) ∧
      posixLockFileConf s 1 ⟨102, 1, .unlck, 3, 5, false, false, true⟩ true true = some ((.ok, c), s') ∧
      Granted ⟨102, 1, .unlck, 3, 5, false, false, true⟩ (s.flock 1) (s'.flock 1) := by
  have hops : ∀ op ∈ [LockOp.lock 1 ⟨101, 1, .rdlck, 0, 9, false, false, false⟩ true true], op.Valid := by
    intro op hop
    rw [mem_singleton.mp hop]
    exact ⟨by decide, by decide, by decide⟩
  refine ⟨_, _, _, _, rfl, rfl, ?_⟩
  exact (((posix_locks_refine_map hops rfl 1 ⟨by decide, by decide, by decide⟩ rfl true true).2
    .ok _ _ rfl).1 rfl).1

/-! ## Exclusion -/

/-- Where an owner holds a write lock, no other holds anything. -/
def Exclusive (l : List FileLock) : Prop :=
  ∀ a b x, a ≠ b → typeAt l a x = some .wrlck → typeAt l b x = none

theorem Granted.exclusive {request : LockRequest} {l l' : List FileLock} (h : Granted request l l')
    (hno : NoConflict request l) (hl : Exclusive l) : Exclusive l' := by
  intro a b x hne hwrite
  by_cases hx : (a = request.owner ∨ b = request.owner) ∧ request.start ≤ x ∧ x ≤ request.stop
  · obtain ⟨rfl | rfl, hlo, hhi⟩ := hx
    · rw [h.inside x hlo hhi, held] at hwrite
      split at hwrite
      · cases hwrite
      · rename_i hlock
        rw [h.others b hne.symm]
        refine eq_none_iff_forall_ne_some.mpr fun t hother => ?_
        exact (hno.resolve_left hlock b x t hne.symm hlo hhi hother).1 (some.inj hwrite)
    · rw [h.others a hne] at hwrite
      rw [h.inside x hlo hhi, held, if_pos]
      by_contra hlock
      exact (hno.resolve_left hlock a x _ hne hlo hhi hwrite).2 rfl
  · have hsame : ∀ c, (c = a ∨ c = b) → typeAt l' c x = typeAt l c x := by
      intro c hc
      by_cases howner : c = request.owner
      · subst howner
        exact h.outside x (by grind)
      · exact h.others c howner x
    rw [hsame a (.inl rfl)] at hwrite
    rw [hsame b (.inr rfl)]
    exact hl a b x hne hwrite

theorem recordsOf_others (front l : List FileLock) (owner : Nat) :
    recordsOf (front.map (fun fl => { fl with posix := false }) ++ l.filter FileLock.posix) owner =
      recordsOf l owner := by
  unfold recordsOf
  rw [filter_append, filter_eq_nil_iff.mpr, List.filter_filter, nil_append]
  · refine filter_congr fun fl _ => ?_
    cases hposix : fl.posix <;> simp [skips, hposix]
  · exact forall_mem_map.mpr fun fl _ => by simp [skips]

theorem LockOp.exclusive (s : LockState) (op : LockOp) (p : (LockResult × Option FileLock) × LockState)
    (h : LocksOk s ∧ ∀ inode, Exclusive (s.flock inode)) (hvalid : op.Valid) (hexec : op.exec s = some p) :
    LocksOk p.2 ∧ ∀ inode, Exclusive (p.2.flock inode) := by
  refine ⟨op.locksOk s p h.1 hvalid hexec, ?_⟩
  cases op with
  | lock inode request alloc1 alloc2 =>
    cases hconflict : conflictOf request (s.flock inode) with
    | some fl =>
      rw [(posixLockFileConf_conflict hconflict hexec).2.2]
      exact h.2
    | none =>
      cases haccess : request.flAccess with
      | true =>
        obtain rfl := some.inj (hexec.symm.trans (posixLockFileConf_access hconflict haccess))
        exact h.2
      | false =>
        obtain ⟨-, hok, hfail⟩ := posixLockFileConf_spec h.1 hvalid haccess hexec
        by_cases hresult : p.1.1 = .ok
        · obtain ⟨hgranted, hother⟩ := hok hresult
          intro other
          rcases eq_or_ne other inode with rfl | hne
          · exact hgranted.exclusive ((conflictOf_eq_none_iff (h.1 other) hvalid).mp hconflict) (h.2 other)
          · rw [hother other hne]
            exact h.2 other
        · rw [hfail hresult]
          exact h.2
  | interrupt addr =>
    obtain rfl := some.inj hexec
    exact h.2
  | others inode front =>
    obtain rfl := some.inj hexec
    refine (forall_update_iff _ fun _ => Exclusive).mpr ⟨?_, fun other _ => h.2 other⟩
    intro a b x
    simp only [typeAt, recordsOf_others]
    exact h.2 inode a b x

/-- **Write locks exclude** other owners, in every state that requests can lead to. -/
theorem posix_write_locks_exclude {ops : List LockOp} (hops : ∀ op ∈ ops, op.Valid)
    {rs : List (LockResult × Option FileLock)} {s : LockState}
    (hrun : Runs.run LockOp.exec noLocks ops = some (rs, s)) (inode : Nat) : Exclusive (s.flock inode) :=
  (Runs.run_invariant LockOp.exclusive ⟨locksOk_noLocks, fun _ _ _ _ _ h => nomatch h⟩ hops hrun).2 inode

/-- Three requests: one owner reads the first bytes of a file and then writes some of them, and
another that then asks for one of these is refused. -/
def upgradeOps : List LockOp :=
  [.lock 1 ⟨101, 1, .rdlck, 0, 9, false, false, false⟩ true true,
    .lock 1 ⟨102, 1, .wrlck, 4, 6, false, false, false⟩ true true,
    .lock 1 ⟨103, 2, .wrlck, 5, 20, false, false, false⟩ true true]

theorem posix_write_locks_exclude_two : ∃ rs s, Runs.run LockOp.exec noLocks upgradeOps = some (rs, s) ∧
    rs.map Prod.fst = [.ok, .ok, .eagain] ∧ typeAt (s.flock 1) 1 5 = some .wrlck ∧
      ∀ owner ≠ 1, typeAt (s.flock 1) owner 5 = none := by
  have hops : ∀ op ∈ upgradeOps, op.Valid := by
    simp only [upgradeOps, forall_mem_cons, not_mem_nil, false_imp_iff, implies_true, and_true]
    exact ⟨⟨by decide, by decide, by decide⟩, ⟨by decide, by decide, by decide⟩,
      ⟨by decide, by decide, by decide⟩⟩
  exact ⟨_, _, rfl, rfl, rfl, fun owner hne => posix_write_locks_exclude hops rfl 1 1 owner 5 hne.symm rfl⟩

end Linux
