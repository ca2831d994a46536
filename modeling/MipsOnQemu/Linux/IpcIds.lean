/-
# MipsOnQemu.Linux.IpcIds -- identifiers of System V IPC objects

`ipc/util.c`: an array of slots for the objects of one kind. `ipc_addid` takes the first free slot below
a limit, growing the array if the limit allows it, and gives the object the next value of a sequence
counter of 16 bits that all slots share. The identifier that users see is the value times the largest
number of slots, plus the slot. `ipc_lock` and `ipc_checkid` accept an identifier if its slot is taken by
an object with the same value, so an old identifier is refused until the counter has come round
(`ipc_ids_sound`).
-/

import MipsOnQemu.Lib.Runs

namespace Linux

open List Option Nat Runs

def ipcmni : Nat := 32768

def seqMultiplier : Nat := ipcmni

def ushrtMax : Nat := 0xffff

def intMax : Nat := 2 ^ 31 - 1

/-- `struct kern_ipc_perm`, without the owner and the mode. -/
structure KernIpcPerm where
  key : Int
  seq : Nat
  deleted : Bool
  deriving DecidableEq

/-- `struct ipc_ids`: `entries` is the array of slots, whose length is its size. -/
structure IpcIds where
  inUse : Int
  maxId : Int
  seq : Nat
  seqMax : Nat
  entries : List (Option KernIpcPerm)

def IpcIds.Holds (ids : IpcIds) (slot : Nat) (p : KernIpcPerm) : Prop := ids.entries[slot]? = some (some p)

/-! ## The functions -/

/-- `ipc_init_ids`; `alloc` says whether the array can be allocated. -/
def ipcInitIds (size : Nat) (alloc : Bool) : IpcIds :=
  let size := if size > ipcmni then ipcmni else size
  let seqLimit := intMax / seqMultiplier
  { inUse := 0
    maxId := -1
    seq := 0
    seqMax := if seqLimit > ushrtMax then ushrtMax else seqLimit
    entries := replicate (if alloc then size else 0) none }

/-- Does the slot hold an object with this key? -/
def keyAt (ids : IpcIds) (key : Int) (id : Nat) : Bool :=
  match ids.entries[id]? with
  | some (some p) => key == p.key
  | _ => false

def ipcFindkey (ids : IpcIds) (key : Int) : Int :=
  match (range (ids.maxId + 1).toNat).find? (keyAt ids key) with
  | some id => id
  | none => -1

/-- The limit that `grow_ary` starts with. -/
def clipSize (newsize : Int) : Int := if newsize > ipcmni then ipcmni else newsize

/-- `grow_ary`: the limit for the search, and the array. -/
def growAry (entries : List (Option KernIpcPerm)) (newsize : Int) (alloc : Bool) :
    Int × List (Option KernIpcPerm) :=
  if clipSize newsize ≤ entries.length then (clipSize newsize, entries)
  else if alloc then
    (clipSize newsize, entries ++ replicate ((clipSize newsize).toNat - entries.length) none)
  else (entries.length, entries)

variable {slot k : Nat} (entries : List (Option KernIpcPerm)) (newsize : Int)

theorem clipSize_le : clipSize newsize ≤ ipcmni := by
  rw [clipSize]
  split
  · exact le_refl _
  · omega

/-- The counter after `ids->seq++` and the test against its limit. -/
def nextSeq (ids : IpcIds) : Nat :=
  let seq := (ids.seq + 1) % (ushrtMax + 1)
  if seq > ids.seqMax then 0 else seq

/-- `ipc_addid`: the slot of the new object, or -1. -/
def ipcAddid (ids : IpcIds) (key size : Int) (alloc : Bool) : Int × IpcIds :=
  let grown := growAry ids.entries size alloc
  match (grown.2.take grown.1.toNat).findIdx? Option.isNone with
  | none => (-1, { ids with entries := grown.2 })
  | some id =>
    (id, { inUse := ids.inUse + 1
           maxId := if id > ids.maxId then id else ids.maxId
           seq := nextSeq ids
           seqMax := ids.seqMax
           entries := grown.2.set id (some { key := key, seq := ids.seq, deleted := false }) })

/-- The highest slot below `lid` that is taken, or -1. -/
def highestBelow (entries : List (Option KernIpcPerm)) : Nat → Int
  | 0 => -1
  | lid + 1 => if entries[lid]? = some none then highestBelow entries lid else lid

/-- `ipc_rmid`. The kernel panics if the slot is empty. -/
def ipcRmid (ids : IpcIds) (id : Nat) : Option (KernIpcPerm × IpcIds) :=
  let lid := id % seqMultiplier
  match ids.entries[lid]? with
  | some (some p) =>
    let entries := ids.entries.set lid none
    some ({ p with deleted := true }, { ids with
        inUse := ids.inUse - 1
        maxId := if (lid : Int) = ids.maxId then highestBelow entries lid else ids.maxId
        entries := entries })
  | _ => none

def ipcLock (ids : IpcIds) (id : Nat) : Option KernIpcPerm :=
  match ids.entries[id % seqMultiplier]? with
  | some (some out) => if out.deleted then none else some out
  | _ => none

def ipcBuildid (id seq : Nat) : Nat := seqMultiplier * seq + id

def ipcCheckid (ipcp : KernIpcPerm) (uid : Nat) : Nat :=
  if uid / seqMultiplier ≠ ipcp.seq then 1 else 0

/-! ## What a call does to the slots -/

/-- The array with some free slots behind it. -/
def padded (entries : List (Option KernIpcPerm)) (n : Nat) : List (Option KernIpcPerm) :=
  entries ++ replicate n none

theorem growAry_padded (alloc : Bool) (hsize : entries.length ≤ ipcmni) :
    ∃ n, (growAry entries newsize alloc).2 = padded entries n ∧ (padded entries n).length ≤ ipcmni := by
  have hnone : entries = padded entries 0 := by
    rw [padded, replicate_zero, append_nil]
  rw [growAry]
  split
  · exact ⟨0, hnone, hnone ▸ hsize⟩
  · cases alloc with
    | false => exact ⟨0, hnone, hnone ▸ hsize⟩
    | true =>
      refine ⟨_, rfl, ?_⟩
      have hclip := clipSize_le newsize
      rw [padded, length_append, length_replicate]
      omega

variable {n i id lid seq : Nat} {p : KernIpcPerm} {ids ids' : IpcIds} {key : Int} {op : IpcOp} {r : IpcResult}
  {ops : List IpcOp} {q : List IpcResult × IpcIds}

theorem holds_padded {entries : List (Option KernIpcPerm)} :
    (padded entries n)[i]? = some (some p) ↔ entries[i]? = some (some p) := by
  rw [padded, getElem?_append]
  split
  · exact Iff.rfl
  · rename_i hge
    rw [getElem?_eq_none (not_lt.mp hge)]
    simp [getElem?_replicate]

theorem countP_padded (n : Nat) : (padded entries n).countP isSome = entries.countP isSome := by
  simp [padded, countP_replicate]

/-- The object that `ipc_addid` puts into its slot. -/
def newPerm (ids : IpcIds) (key : Int) : KernIpcPerm := { key := key, seq := ids.seq, deleted := false }

/-- The set after `ipc_addid` has found a slot. -/
def added (ids : IpcIds) (key : Int) (n id : Nat) : IpcIds :=
  { inUse := ids.inUse + 1
    maxId := if id > ids.maxId then id else ids.maxId
    seq := nextSeq ids
    seqMax := ids.seqMax
    entries := (padded ids.entries n).set id (some (newPerm ids key)) }

/-- **`ipc_addid`** fails, or takes a slot that is free. -/
theorem ipcAddid_cases (hsize : ids.entries.length ≤ ipcmni) (key size : Int) (alloc : Bool) :
    ∃ n, (padded ids.entries n).length ≤ ipcmni ∧
      (ipcAddid ids key size alloc = (-1, { ids with entries := padded ids.entries n }) ∨
        ∃ id : Nat, (padded ids.entries n)[id]? = some none ∧
          ipcAddid ids key size alloc = ((id : Int), added ids key n id)) := by
  obtain ⟨n, hgrown, hlen⟩ := growAry_padded ids.entries size alloc hsize
  refine ⟨n, hlen, ?_⟩
  rw [ipcAddid]
  simp only [hgrown]
  cases hfind : ((padded ids.entries n).take (growAry ids.entries size alloc).1.toNat).findIdx?
      isNone with
  | none => exact .inl rfl
  | some id =>
    refine .inr ⟨id, ?_, rfl⟩
    obtain ⟨hlt, hfree, -⟩ := findIdx?_eq_some_iff_getElem.mp hfind
    rw [getElem_take, isNone_iff_eq_none] at hfree
    rw [getElem?_eq_getElem (hlt.trans_le (length_take_le' _ _)), hfree]

def removed (ids : IpcIds) (lid : Nat) : IpcIds :=
  { ids with
    inUse := ids.inUse - 1
    maxId := if (lid : Int) = ids.maxId then highestBelow (ids.entries.set lid none) lid else ids.maxId
    entries := ids.entries.set lid none }

theorem ipcRmid_eq_some {q : KernIpcPerm × IpcIds} (h : ipcRmid ids id = some q) :
    ∃ p, ids.Holds (id % seqMultiplier) p ∧ q = ({ p with deleted := true }, removed ids (id % seqMultiplier)) := by
  rw [ipcRmid] at h
  split at h
  · rename_i p hp
    exact ⟨p, hp, (some.inj h).symm⟩
  · cases h

/-! ## The invariant -/

/-- What every call keeps. -/
structure IdsOk (ids : IpcIds) : Prop where
  inUse_eq : ids.inUse = (ids.entries.countP Option.isSome : Nat)
  le_maxId : ∀ i p, ids.Holds i p → (i : Int) ≤ ids.maxId
  maxId_held : ids.maxId = -1 ∨ ∃ (i : Nat) (p : KernIpcPerm), ids.maxId = i ∧ ids.Holds i p
  size_le : ids.entries.length ≤ ipcmni
  seqMax_eq : ids.seqMax = ushrtMax
  seq_le : ids.seq ≤ ushrtMax

theorem idsOk_init (size : Nat) (alloc : Bool) : IdsOk (ipcInitIds size alloc) := by
  have hfree : ∀ i p, ¬ (ipcInitIds size alloc).Holds i p := by
    intro i p h
    have hmem := mem_of_getElem? h
    exact absurd (eq_of_mem_replicate hmem) (some_ne_none p)
  refine ⟨?_, fun i p h => absurd h (hfree i p), .inl rfl, ?_, rfl, zero_le _⟩
  · show (0 : Int) = _
    simp [ipcInitIds, countP_replicate]
  · rw [ipcInitIds, length_replicate]
    split
    · split
      · exact le_refl _
      · omega
    · exact zero_le _

theorem holds_added (hfree : (padded ids.entries n)[id]? = some none) :
    (added ids key n id).Holds i p ↔ (i = id ∧ p = newPerm ids key) ∨ (i ≠ id ∧ ids.Holds i p) := by
  have hlt : id < (padded ids.entries n).length := (List.getElem?_eq_some_iff.mp hfree).1
  rw [IpcIds.Holds, added, getElem?_set]
  by_cases hi : id = i
  · subst hi
    rw [if_pos rfl, if_pos hlt]
    simp [eq_comm]
  · rw [if_neg hi, holds_padded]
    simp [Ne.symm hi, IpcIds.Holds]

theorem nextSeq_eq (hmax : ids.seqMax = ushrtMax) : nextSeq ids = (ids.seq + 1) % (ushrtMax + 1) := by
  have hlt := mod_lt (ids.seq + 1) (show ushrtMax + 1 > 0 from succ_pos _)
  rw [nextSeq, hmax, if_neg (by omega)]

theorem idsOk_padded (h : IdsOk ids) (hlen : (padded ids.entries n).length ≤ ipcmni) :
    IdsOk { ids with entries := padded ids.entries n } where
  inUse_eq := by
    rw [countP_padded]
    exact h.inUse_eq
  le_maxId i p hp := h.le_maxId i p (holds_padded.mp hp)
  maxId_held := by
    rcases h.maxId_held with hnone | ⟨i, p, hi, hp⟩
    · exact .inl hnone
    · exact .inr ⟨i, p, hi, holds_padded.mpr hp⟩
  size_le := hlen
  seqMax_eq := h.seqMax_eq
  seq_le := h.seq_le

theorem idsOk_added (h : IdsOk ids) (hlen : (padded ids.entries n).length ≤ ipcmni)
    (hfree : (padded ids.entries n)[id]? = some none) : IdsOk (added ids key n id) where
  inUse_eq := by
    obtain ⟨hlt, hget⟩ := List.getElem?_eq_some_iff.mp hfree
    show ids.inUse + 1 = _
    rw [added, countP_set hlt, hget, countP_padded, h.inUse_eq]
    rfl
  le_maxId i p hp := by
    show (i : Int) ≤ if (id : Int) > ids.maxId then (id : Int) else ids.maxId
    rcases (holds_added hfree).mp hp with ⟨rfl, -⟩ | ⟨-, hold⟩
    · split
      · exact le_refl _
      · omega
    · have hle := h.le_maxId i p hold
      split
      · omega
      · exact hle
  maxId_held := by
    refine .inr ?_
    show ∃ (i : Nat) (p : KernIpcPerm), (if (id : Int) > ids.maxId then (id : Int) else ids.maxId) = i ∧ _
    by_cases hgt : (id : Int) > ids.maxId
    · rw [if_pos hgt]
      exact ⟨id, _, rfl, (holds_added hfree).mpr (.inl ⟨rfl, rfl⟩)⟩
    · rw [if_neg hgt]
      rcases h.maxId_held with hnone | ⟨i, p, hi, hp⟩
      · omega
      · refine ⟨i, p, hi, (holds_added hfree).mpr (.inr ⟨?_, hp⟩)⟩
        rintro rfl
        rw [holds_padded.mpr hp] at hfree
        cases hfree
  size_le := by
    show ((padded ids.entries n).set id _).length ≤ ipcmni
    rw [length_set]
    exact hlen
  seqMax_eq := h.seqMax_eq
  seq_le := by
    show nextSeq ids ≤ ushrtMax
    rw [nextSeq_eq h.seqMax_eq]
    exact le_of_lt_succ (mod_lt _ (succ_pos _))

theorem holds_set_none {entries : List (Option KernIpcPerm)} :
    (entries.set lid none)[i]? = some (some p) ↔ i ≠ lid ∧ entries[i]? = some (some p) := by
  rw [getElem?_set]
  by_cases hi : lid = i
  · subst hi
    rw [if_pos rfl]
    split
    · simp
    · simp
  · rw [if_neg hi]
    simp [Ne.symm hi]

/-- The loop at the end of `ipc_rmid`. -/
theorem highestBelow_spec (hlid : lid ≤ entries.length) :
    (∀ i p, i < lid → entries[i]? = some (some p) → (i : Int) ≤ highestBelow entries lid) ∧
      (highestBelow entries lid = -1 ∨
        ∃ (i : Nat) (p : KernIpcPerm), highestBelow entries lid = i ∧ i < lid ∧
          entries[i]? = some (some p)) := by
  induction lid with
  | zero => exact ⟨fun i p hi => absurd hi (not_lt_zero i), .inl rfl⟩
  | succ lid ih =>
    obtain ⟨hle, hheld⟩ := ih (by omega)
    rw [highestBelow]
    by_cases hnone : entries[lid]? = some none
    · rw [if_pos hnone]
      constructor
      · intro i p hi hp
        rcases Nat.lt_succ_iff_lt_or_eq.mp hi with hlt | rfl
        · exact hle i p hlt hp
        · rw [hnone] at hp
          cases hp
      · rcases hheld with hempty | ⟨i, p, hi, hlt, hp⟩
        · exact .inl hempty
        · exact .inr ⟨i, p, hi, by omega, hp⟩
    · rw [if_neg hnone]
      refine ⟨fun i p hi _ => by omega, .inr ⟨lid, ?_⟩⟩
      cases hget : entries[lid]? with
      | none => exact absurd (getElem?_eq_none_iff.mp hget) (by omega)
      | some slot =>
        cases slot with
        | none => exact absurd hget hnone
        | some p => exact ⟨p, rfl, lt_succ_self lid, rfl⟩

theorem maxId_removed (h : IdsOk ids) (hp : ids.Holds lid p) :
    (∀ i q, (removed ids lid).Holds i q → (i : Int) ≤ (removed ids lid).maxId) ∧
      ((removed ids lid).maxId = -1 ∨
        ∃ (i : Nat) (q : KernIpcPerm), (removed ids lid).maxId = i ∧ (removed ids lid).Holds i q) := by
  have hmaxId : (removed ids lid).maxId =
      if (lid : Int) = ids.maxId then highestBelow (ids.entries.set lid none) lid else ids.maxId := rfl
  rw [hmaxId]
  by_cases hmax : (lid : Int) = ids.maxId
  · have hlen : lid ≤ (ids.entries.set lid none).length := by
      rw [length_set]
      exact (List.getElem?_eq_some_iff.mp hp).1.le
    obtain ⟨hle, hheld⟩ := highestBelow_spec _ hlen
    rw [if_pos hmax]
    refine ⟨fun i q hq => hle i q ?_ hq, hheld.imp_right fun ⟨i, q, hi, _, hq⟩ => ⟨i, q, hi, hq⟩⟩
    obtain ⟨hne, hold⟩ := holds_set_none.mp hq
    have hbelow := h.le_maxId i q hold
    omega
  · rw [if_neg hmax]
    refine ⟨fun i q hq => h.le_maxId i q (holds_set_none.mp hq).2, h.maxId_held.imp_right ?_⟩
    rintro ⟨i, q, hi, hq⟩
    refine ⟨i, q, hi, holds_set_none.mpr ⟨?_, hq⟩⟩
    rintro rfl
    exact hmax hi.symm

theorem idsOk_removed (h : IdsOk ids) (hp : ids.Holds lid p) : IdsOk (removed ids lid) where
  inUse_eq := by
    obtain ⟨hlt, hget⟩ := List.getElem?_eq_some_iff.mp hp
    have hone : 0 < ids.entries.countP isSome :=
      countP_pos_iff.mpr ⟨some p, mem_of_getElem? hp, rfl⟩
    show ids.inUse - 1 = _
    rw [removed, countP_set hlt, hget, h.inUse_eq]
    simp only [isSome_some, if_true, isSome_none, Bool.false_eq_true, if_false]
    omega
  le_maxId := (maxId_removed h hp).1
  maxId_held := (maxId_removed h hp).2
  size_le := by
    show (ids.entries.set lid none).length ≤ ipcmni
    rw [length_set]
    exact h.size_le
  seqMax_eq := h.seqMax_eq
  seq_le := h.seq_le

/-! ## What the invariant gives -/

/-- **`ipc_findkey`** finds a key if and only if an object has it. -/
theorem ipcFindkey_spec (h : IdsOk ids) (key : Int) :
    (∃ (i : Nat) (p : KernIpcPerm), ipcFindkey ids key = i ∧ ids.Holds i p ∧ p.key = key) ∨
      (ipcFindkey ids key = -1 ∧ ∀ i p, ids.Holds i p → p.key ≠ key) := by
  rw [ipcFindkey]
  cases hfind : (range (ids.maxId + 1).toNat).find? (keyAt ids key) with
  | some id =>
    have hkey := find?_some hfind
    rw [keyAt] at hkey
    split at hkey
    · rename_i p hp
      exact .inl ⟨id, p, rfl, hp, (beq_iff_eq.mp hkey).symm⟩
    · cases hkey
  | none =>
    refine .inr ⟨rfl, fun i p hp hkey => ?_⟩
    have hle := h.le_maxId i p hp
    have hnone := find?_eq_none.mp hfind i (mem_range.mpr (by omega))
    have hat : keyAt ids key i = (key == p.key) := by
      rw [keyAt, hp]
    rw [hat, hkey] at hnone
    exact hnone (beq_self_eq_true key)

theorem IdsOk.slot_lt (h : IdsOk ids) (hp : ids.Holds i p) : i < seqMultiplier :=
  (List.getElem?_eq_some_iff.mp hp).1.trans_le h.size_le

theorem ipcBuildid_mod (h : id < seqMultiplier) : ipcBuildid id seq % seqMultiplier = id := by
  rw [ipcBuildid, mul_add_mod, mod_eq_of_lt h]

theorem ipcBuildid_div (h : id < seqMultiplier) : ipcBuildid id seq / seqMultiplier = seq := by
  rw [ipcBuildid, mul_add_div (by decide), div_eq_of_lt h, add_zero]

/-! ## Runs -/

inductive IpcOp where
  | add (key size : Int) (alloc : Bool)
  | rm (id : Nat)
  deriving DecidableEq

inductive IpcResult where
  | added (id : Int)
  | removed (p : KernIpcPerm)
  deriving DecidableEq

def ipcStep (ids : IpcIds) : IpcOp → Option (IpcResult × IpcIds)
  | .add key size alloc => some (.added (ipcAddid ids key size alloc).1, (ipcAddid ids key size alloc).2)
  | .rm id => (ipcRmid ids id).map fun q => (.removed q.1, q.2)

/-- Has a new object got a slot, and a value of the counter? -/
def IpcResult.numbers : IpcResult → Bool
  | .added id => 0 ≤ id
  | .removed _ => false

/-- How many values of the counter have been given out. -/
def numbered (rs : List IpcResult) : Nat := rs.countP IpcResult.numbers

/-- **What a call can do:** nothing but grow the array, take a free slot, or empty one. -/
inductive IpcChange (ids : IpcIds) : IpcOp → IpcResult → IpcIds → Prop
  | full {key size : Int} {alloc : Bool} {n : Nat} : (padded ids.entries n).length ≤ ipcmni →
      IpcChange ids (.add key size alloc) (.added (-1)) { ids with entries := padded ids.entries n }
  | took {key size : Int} {alloc : Bool} {n id : Nat} : (padded ids.entries n).length ≤ ipcmni →
      (padded ids.entries n)[id]? = some none →
      IpcChange ids (.add key size alloc) (.added id) (added ids key n id)
  | left {id : Nat} {p : KernIpcPerm} : ids.Holds (id % seqMultiplier) p →
      IpcChange ids (.rm id) (.removed { p with deleted := true }) (removed ids (id % seqMultiplier))

theorem ipcStep_change (h : IdsOk ids) {q : IpcResult × IpcIds} (hstep : ipcStep ids op = some q) :
    IpcChange ids op q.1 q.2 := by
  cases op with
  | add key size alloc =>
    obtain rfl := some.inj hstep
    obtain ⟨n, hlen, heq | ⟨id, hfree, heq⟩⟩ := ipcAddid_cases h.size_le key size alloc
    · rw [heq]
      exact .full hlen
    · rw [heq]
      exact .took hlen hfree
  | rm id =>
    obtain ⟨q', hq', rfl⟩ := map_eq_some_iff.mp hstep
    obtain ⟨p, hp, rfl⟩ := ipcRmid_eq_some hq'
    exact .left hp

theorem IpcChange.ok (h : IdsOk ids) (hchange : IpcChange ids op r ids') : IdsOk ids' := by
  cases hchange with
  | full hlen => exact idsOk_padded h hlen
  | took hlen hfree => exact idsOk_added h hlen hfree
  | left hp => exact idsOk_removed h hp

theorem numbered_added (id : Nat) : numbered [.added id] = 1 := by
  simp [numbered, IpcResult.numbers]

theorem IpcChange.seq_eq (h : IdsOk ids) (hchange : IpcChange ids op r ids') :
    ids'.seq = (ids.seq + numbered [r]) % (ushrtMax + 1) := by
  have hsame : ids.seq = (ids.seq + 0) % (ushrtMax + 1) :=
    (mod_eq_of_lt (lt_succ_of_le h.seq_le)).symm
  cases hchange with
  | full hlen => exact hsame
  | left hp => exact hsame
  | @took key size alloc n id hlen hfree =>
    rw [numbered_added]
    exact nextSeq_eq h.seqMax_eq

theorem ipc_run_ok (h : IdsOk ids) (hrun : run ipcStep ids ops = some q) : IdsOk q.2 :=
  run_invariant (P := fun _ => True)
    (fun _ _ _ hok _ hstep => IpcChange.ok hok (ipcStep_change hok hstep)) h (fun _ _ => trivial) hrun

theorem numbered_append (rs rs' : List IpcResult) : numbered (rs ++ rs') = numbered rs + numbered rs' :=
  countP_append

theorem seq_of_run (h : IdsOk ids) (hrun : run ipcStep ids ops = some q) :
    q.2.seq = (ids.seq + numbered q.1) % (ushrtMax + 1) := by
  have hlast := run_history
    (I := fun rs ids' => IdsOk ids' ∧ ids'.seq = (ids.seq + numbered rs) % (ushrtMax + 1)) ?_
    ⟨h, (mod_eq_of_lt (lt_succ_of_le h.seq_le)).symm⟩ hrun
  · exact hlast.2
  · rintro rs s op p ⟨hok, hseq⟩ hstep
    have hchange := ipcStep_change hok hstep
    refine ⟨hchange.ok hok, ?_⟩
    rw [hchange.seq_eq hok, hseq, mod_add_mod, numbered_append, add_assoc]

/-- The slot is empty, or its object is one of the `k` that came after the counter had the value `seq`. -/
structure CameLater (seq slot k : Nat) (ids : IpcIds) : Prop where
  seq_eq : ids.seq = (seq + 1 + k) % (ushrtMax + 1)
  object : ∀ p, ids.Holds slot p → ∃ j, 1 ≤ j ∧ j ≤ k ∧ p.seq = (seq + j) % (ushrtMax + 1)

theorem CameLater.step (hok : IdsOk ids) (h : CameLater seq slot k ids) (hchange : IpcChange ids op r ids') :
    CameLater seq slot (k + numbered [r]) ids' where
  seq_eq := by
    rw [hchange.seq_eq hok, h.seq_eq, mod_add_mod, add_assoc]
  object := by
    intro p hp
    cases hchange with
    | full hlen => exact h.object p (holds_padded.mp hp)
    | left _ => exact h.object p (holds_set_none.mp hp).2
    | @took key size alloc n id hlen hfree =>
      rw [numbered_added]
      rcases (holds_added hfree).mp hp with ⟨-, rfl⟩ | ⟨-, hold⟩
      · refine ⟨k + 1, by omega, le_refl _, ?_⟩
        rw [newPerm, h.seq_eq, add_assoc, add_comm 1 k]
      · obtain ⟨j, hpos, hle, hseq⟩ := h.object p hold
        exact ⟨j, hpos, by omega, hseq⟩

theorem CameLater.run (hok : IdsOk ids) (h : CameLater seq slot k ids)
    (hrun : run ipcStep ids ops = some q) : CameLater seq slot (k + numbered q.1) q.2 := by
  have hlast := run_history
    (I := fun rs ids' => IdsOk ids' ∧ CameLater seq slot (k + numbered rs) ids') ?_ ⟨hok, h⟩ hrun
  · exact hlast.2
  · rintro rs s op p ⟨hok, hlater⟩ hstep
    have hchange := ipcStep_change hok hstep
    refine ⟨hchange.ok hok, ?_⟩
    rw [numbered_append, ← add_assoc]
    exact hlater.step hok hchange

/-- An identifier is accepted: `ipc_lock` succeeds and `ipc_checkid` passes. -/
def Accepts (ids : IpcIds) (uid : Nat) : Prop := ∃ p, ipcLock ids uid = some p ∧ ipcCheckid p uid = 0

theorem Accepts.holds (hid : id < seqMultiplier) (h : Accepts ids (ipcBuildid id seq)) :
    ∃ p, ids.Holds id p ∧ p.seq = seq := by
  obtain ⟨p, hlock, hcheck⟩ := h
  rw [ipcLock, ipcBuildid_mod hid] at hlock
  rw [ipcCheckid, ipcBuildid_div hid] at hcheck
  have hseq : p.seq = seq := by
    by_contra hne
    rw [if_pos (Ne.symm hne)] at hcheck
    cases hcheck
  split at hlock
  · rename_i out hout
    split at hlock
    · cases hlock
    · cases hlock
      exact ⟨p, hout, hseq⟩
  · cases hlock

/-- The counter takes every one of its values before an old identifier is accepted again: from the
call that adds an object on, in every run in which its slot is emptied. -/
def StaleRefused (ids : IpcIds) : Prop :=
  ∀ (key size : Int) (alloc : Bool) (id : Nat) (ids' : IpcIds) (p : KernIpcPerm),
    ipcStep ids (.add key size alloc) = some (.added id, ids') → ids'.Holds id p →
    ∀ (ops : List IpcOp) (rs : List IpcResult) (ids'' : IpcIds),
      run ipcStep ids' ops = some (rs, ids'') → (∃ uid, .rm uid ∈ ops ∧ uid % seqMultiplier = id) →
      Accepts ids'' (ipcBuildid id p.seq) → ids.seqMax + 1 ≤ numbered rs

theorem IpcChange.of_added {size : Int} {alloc : Bool}
    (h : IpcChange ids (.add key size alloc) (.added id) ids') :
    ∃ n, (padded ids.entries n)[id]? = some none ∧ ids' = added ids key n id := by
  generalize hr : IpcResult.added (id : Int) = r at h
  cases h with
  | full _ =>
    have heq := IpcResult.added.inj hr
    omega
  | took _ hfree =>
    obtain rfl := Int.ofNat_inj.mp (IpcResult.added.inj hr)
    exact ⟨_, hfree, rfl⟩

theorem IdsOk.staleRefused (h : IdsOk ids) : StaleRefused ids := by
  intro key size alloc id ids' p hadd hp ops rs ids'' hrun hrm haccepts
  obtain ⟨uid, hmem, huid⟩ := hrm
  have hchange := ipcStep_change h hadd
  have hok' := hchange.ok h
  -- the object has the value that the counter had
  obtain ⟨n, hfree, rfl⟩ := hchange.of_added
  have hseq : p.seq = ids.seq := by
    rcases (holds_added hfree).mp hp with ⟨-, rfl⟩ | ⟨hne, -⟩
    · rfl
    · exact absurd rfl hne
  -- up to its removal, and from there on
  obtain ⟨ops₁, ops₂, rfl⟩ := append_of_mem hmem
  obtain ⟨q₁, q₂, hq₁, hq₂, hq⟩ := exists_of_run_append hrun
  obtain ⟨⟨r₃, ids₃⟩, q₄, hq₃, hq₄, rfl⟩ := exists_of_run_cons hq₂
  obtain ⟨rfl, rfl⟩ := Prod.mk.inj hq
  have hok₁ := ipc_run_ok hok' hq₁
  have hremove := ipcStep_change hok₁ hq₃
  have hok₃ := hremove.ok hok₁
  have hseq₁ : q₁.2.seq = (ids.seq + 1 + numbered q₁.1) % (ushrtMax + 1) := by
    rw [seq_of_run hok' hq₁]
    show (nextSeq ids + _) % _ = _
    rw [nextSeq_eq h.seqMax_eq, mod_add_mod]
  have hlater : CameLater ids.seq id (numbered q₁.1) ids₃ := by
    refine ⟨?_, fun p' hp' => ?_⟩
    · cases hremove with
      | left _ => exact hseq₁
    · cases hremove with
      | left _ => exact absurd huid.symm (holds_set_none.mp hp').1
  obtain ⟨p', hp', hseq'⟩ := haccepts.holds (hok'.slot_lt hp)
  obtain ⟨j, hpos, hle, hj⟩ := (hlater.run hok₃ hq₄).object p' hp'
  rw [hseq', hseq] at hj
  have hround : ushrtMax + 1 ≤ j := by
    have hlt := h.seq_le
    rw [show ushrtMax = 65535 from rfl] at hj hlt ⊢
    omega
  have hrest : numbered (r₃ :: q₄.1) = numbered [r₃] + numbered q₄.1 := numbered_append [r₃] q₄.1
  rw [h.seqMax_eq, numbered_append, hrest]
  omega

/-! ## The theorem -/

/-- What holds of the identifiers in a state. -/
structure IdsSound (ids : IpcIds) : Prop where
  inUse_eq : ids.inUse = (ids.entries.countP Option.isSome : Nat)
  le_maxId : ∀ i p, ids.Holds i p → (i : Int) ≤ ids.maxId
  maxId_held : ids.maxId = -1 ∨ ∃ (i : Nat) (p : KernIpcPerm), ids.maxId = i ∧ ids.Holds i p
  findkey : ∀ key, (ipcFindkey ids key ≠ -1 ↔ ∃ i p, ids.Holds i p ∧ p.key = key) ∧
    ∀ id : Nat, ipcFindkey ids key = id → ∃ p, ids.Holds id p ∧ p.key = key
  distinct : ∀ i j p q, ids.Holds i p → ids.Holds j q → ipcBuildid i p.seq = ipcBuildid j q.seq → i = j
  stale : StaleRefused ids

/-- **Identifiers do not go stale silently.** In every state that calls of `ipc_addid`, with any limits,
and of `ipc_rmid` reach: `in_use` counts the slots that are taken and `max_id` is the highest of them or
-1; a key is found if and only if an object has it; no two objects have the same identifier; and after
an object has been removed, its identifier is not accepted again before as many objects have been added
as the counter has values. -/
theorem ipc_ids_sound (size : Nat) (alloc : Bool) {ops : List IpcOp} {rs : List IpcResult} {ids : IpcIds}
    (h : run ipcStep (ipcInitIds size alloc) ops = some (rs, ids)) : IdsSound ids := by
  have hok : IdsOk ids := ipc_run_ok (idsOk_init size alloc) h
  refine ⟨hok.inUse_eq, hok.le_maxId, hok.maxId_held, fun key => ?_, fun i j p q hp hq heq => ?_,
    hok.staleRefused⟩
  · rcases ipcFindkey_spec hok key with ⟨i, p, hfind, hp, hkey⟩ | ⟨hfind, hnone⟩
    · refine ⟨iff_of_true ?_ ⟨i, p, hp, hkey⟩, fun id hid => ?_⟩
      · rw [hfind]
        omega
      · rw [hfind] at hid
        obtain rfl := Int.ofNat_inj.mp hid
        exact ⟨p, hp, hkey⟩
    · refine ⟨iff_of_false (not_not.mpr hfind) ?_, fun id hid => ?_⟩
      · rintro ⟨i, p, hp, hkey⟩
        exact hnone i p hp hkey
      · rw [hfind] at hid
        omega
  · rw [← ipcBuildid_mod (hok.slot_lt hp), heq, ipcBuildid_mod (hok.slot_lt hq)]

/-- Two objects, of which the first is removed and its slot taken again under a lower limit. -/
theorem ipc_ids_sound_reuse : ∃ rs ids, run ipcStep (ipcInitIds 2 true)
      [.add 7 2 true, .add 8 4 true, .rm 0, .add 9 1 true] = some (rs, ids) ∧
      rs = [.added 0, .added 1, .removed ⟨7, 0, true⟩, .added 0] ∧ IdsSound ids :=
  ⟨_, _, rfl, rfl, @ipc_ids_sound 2 true [.add 7 2 true, .add 8 4 true, .rm 0, .add 9 1 true] _ _ rfl⟩

end Linux
