/-
# MipsOnQemu.Linux.PidMap -- allocation of process identifiers

`alloc_pidmap` and `free_pidmap` of `kernel/pid.c`. The identifiers in use are the bits of pages that
are allocated when they are first needed. The search begins after the identifier it gave out last, goes
through the pages up to `pid_max`, begins again at `RESERVED_PIDS`, and ends in the page it began in,
before the last identifier. So the last identifier itself is not tried again, unless a page begins or
ends with it or the search began at `RESERVED_PIDS`; if it has been freed and every other one is in use,
the search fails (`pid_refused`). Apart from this, what is found is fresh, and a failure means that
nothing is left (`pidmap_fresh_exhaustive`).
-/

import MipsOnQemu.Lib.Runs
import MipsOnQemu.Linux.BootmemScan

namespace Linux

open Function Nat Finset

def reservedPids : Nat := 300

def bitsPerPage : Nat := 4096 * 8

/-- `struct pidmap`: the number of clear bits, and the page, if it has been allocated. -/
structure Pidmap where
  nrFree : Int
  page : Option (Nat → Bool)

structure Pspace where
  pidmap : Nat → Pidmap
  lastPid : Nat

def mkPid (map off : Nat) : Nat := map * bitsPerPage + off

/-- A bit of a page; a page that has not been allocated has none. -/
def Pidmap.bit (map : Pidmap) (offset : Nat) : Bool := map.page.elim false fun page => page offset

def InUse (ps : Pspace) (pid : Nat) : Prop := (ps.pidmap (pid / bitsPerPage)).bit (pid % bitsPerPage) = true

instance (ps : Pspace) (pid : Nat) : Decidable (InUse ps pid) := instDecidableEqBool _ _

/-- Another entry for one page. -/
def setMap (ps : Pspace) (map : Nat) (entry : Pidmap) : Pspace :=
  { ps with pidmap := Function.update ps.pidmap map entry }

/-! ## The functions -/

/-- The loop over one page: the offset and the identifier of the bit that is taken. The offset grows, so
there are at most as many rounds as bits. -/
def scanPage (page : Nat → Bool) (map pidMax last : Nat) (final : Bool) : Nat → Nat → Nat → Option (Nat × Nat)
  | 0, _, _ => none
  | rounds + 1, offset, pid =>
    if page offset = false then some (offset, pid)
    else
      let offset := findNextZeroBit page (bitsPerPage - offset) offset
      let pid := mkPid map offset
      if offset < bitsPerPage ∧ pid < pidMax ∧
          (final = false ∨ pid < last ∨ (last + 1) % bitsPerPage = 0) then
        scanPage page map pidMax last final rounds offset pid
      else none

/-- The page is allocated if there is none. -/
def withPage (kzalloc : Nat → Bool) (ps : Pspace) (map : Nat) : Pspace :=
  match (ps.pidmap map).page with
  | some _ => ps
  | none =>
    if kzalloc map then setMap ps map { nrFree := (ps.pidmap map).nrFree, page := some fun _ => false }
    else ps

/-- The bit is set, the count goes down, and the identifier is the last one. -/
def takePid (ps : Pspace) (map : Nat) (page : Nat → Bool) (offset pid : Nat) : Pspace :=
  { setMap ps map { nrFree := (ps.pidmap map).nrFree - 1, page := some (Function.update page offset true) }
    with lastPid := pid }

/-- A page without a clear bit is not searched. -/
def searchMap (ps : Pspace) (map : Nat) (page : Nat → Bool) (pidMax last : Nat) (final : Bool)
    (offset pid : Nat) : Option (Nat × Nat) :=
  if (ps.pidmap map).nrFree ≠ 0 then scanPage page map pidMax last final bitsPerPage offset pid else none

/-- The loop of `alloc_pidmap`, with the number of rounds that are left. -/
def scanMaps (kzalloc : Nat → Bool) (pidMax last : Nat) : Nat → Pspace → Nat → Nat → Nat → Int × Pspace
  | 0, ps, _, _, _ => (-1, ps)
  | left + 1, ps, map, offset, pid =>
    let ps := withPage kzalloc ps map
    match (ps.pidmap map).page with
    | none => (-1, ps)
    | some page =>
      match searchMap ps map page pidMax last (left == 0) offset pid with
      | some (offset, pid) => (pid, takePid ps map page offset pid)
      | none =>
        if map < (pidMax - 1) / bitsPerPage then
          scanMaps kzalloc pidMax last left ps (map + 1) 0 (mkPid (map + 1) 0)
        else if last = reservedPids then (-1, ps)
        else scanMaps kzalloc pidMax last left ps 0 reservedPids (mkPid 0 reservedPids)

/-- `alloc_pidmap`; `kzalloc` says which pages can be allocated. -/
def allocPidmap (kzalloc : Nat → Bool) (pidMax : Nat) (ps : Pspace) : Int × Pspace :=
  let last := ps.lastPid
  let pid := if last + 1 ≥ pidMax then reservedPids else last + 1
  let offset := pid % bitsPerPage
  let maxScan := (pidMax + bitsPerPage - 1) / bitsPerPage - (if offset = 0 then 1 else 0)
  scanMaps kzalloc pidMax last (maxScan + 1) ps (pid / bitsPerPage) offset pid

/-- `free_pidmap`, of an identifier whose page is there. -/
def freePidmap (ps : Pspace) (pid : Nat) : Option Pspace :=
  let map := pid / bitsPerPage
  (ps.pidmap map).page.map fun page =>
    setMap ps map
      { nrFree := (ps.pidmap map).nrFree + 1
        page := some (Function.update page (pid % bitsPerPage) false) }

/-- The state after `pidmap_init`. -/
def initPspace : Pspace where
  pidmap map :=
    if map = 0 then { nrFree := bitsPerPage - 1, page := some fun offset => offset == 0 }
    else { nrFree := bitsPerPage, page := none }
  lastPid := 0

/-! ## One page -/

variable {left offset map pidMax last pid k : Nat} {page : Nat → Bool} {ps ps₁ : Pspace} {Tried : Prop}

/-- A bit that the loop over a page tries, from an offset on. -/
def Tries (map pidMax last : Nat) (final : Bool) (o : Nat) : Prop :=
  o < bitsPerPage ∧ mkPid map o < pidMax ∧
    (final = false ∨ mkPid map o < last ∨ (last + 1) % bitsPerPage = 0)

/-- How the loop over a page ends: with a clear bit, or every bit that it tries is set. -/
def PageEnd (page : Nat → Bool) (map pidMax last : Nat) (final : Bool) (offset : Nat)
    (r : Option (Nat × Nat)) : Prop :=
  (∃ o, o < bitsPerPage ∧ mkPid map o < pidMax ∧ page o = false ∧ r = some (o, mkPid map o)) ∨
    (r = none ∧ page offset = true ∧ ∀ o, offset ≤ o → Tries map pidMax last final o → page o = true)

theorem scanPage_spec {final : Bool} (rounds : Nat) (hoffset : offset < bitsPerPage)
    (hpid : mkPid map offset < pidMax) : PageEnd page map pidMax last final offset
      (scanPage page map pidMax last final (rounds + 2) offset (mkPid map offset)) := by
  obtain ⟨hge, -, hset⟩ := findNextZeroBit_spec page (bitsPerPage - offset) offset
  have hclear : findNextZeroBit page (bitsPerPage - offset) offset < bitsPerPage →
      page (findNextZeroBit page (bitsPerPage - offset) offset) = false :=
    fun h => findNextZeroBit_clear page (by omega)
  rw [scanPage]
  by_cases hbit : page offset = false
  · rw [if_pos hbit]
    exact .inl ⟨offset, hoffset, hpid, hbit, rfl⟩
  · rw [if_neg hbit]
    simp only
    generalize findNextZeroBit page (bitsPerPage - offset) offset = next at hge hset hclear
    by_cases hgo : next < bitsPerPage ∧ mkPid map next < pidMax ∧
        (final = false ∨ mkPid map next < last ∨ (last + 1) % bitsPerPage = 0)
    · -- the second round takes the bit that was found
      rw [if_pos hgo, scanPage, if_pos (hclear hgo.1)]
      exact .inl ⟨next, hgo.1, hgo.2.1, hclear hgo.1, rfl⟩
    · rw [if_neg hgo]
      refine .inr ⟨rfl, Bool.eq_true_of_not_eq_false hbit, fun o hle htries => ?_⟩
      obtain ⟨hlt, hmax, hlast⟩ := htries
      refine hset o hle (not_le.mp fun hnext => hgo ?_)
      have hmono : mkPid map next ≤ mkPid map o := Nat.add_le_add_left hnext _
      exact ⟨by omega, by omega, hlast.imp_right (Or.imp_left fun h => by omega)⟩

/-! ## Counts -/

def clearBits (map : Pidmap) : Nat := ((Finset.range bitsPerPage).filter fun o => map.bit o = false).card

/-- Every page counts its clear bits. -/
def CountsExact (ps : Pspace) : Prop := ∀ map, (ps.pidmap map).nrFree = (clearBits (ps.pidmap map) : Nat)

/-- The same identifiers are in use, the counts are right, and the last identifier is the same. -/
structure SameUse (ps ps' : Pspace) : Prop where
  inUse : ∀ q, InUse ps' q ↔ InUse ps q
  counts : CountsExact ps'

theorem mkPid_div (h : offset < bitsPerPage) : mkPid map offset / bitsPerPage = map := by
  rw [mkPid, mul_comm, mul_add_div (by decide), div_eq_of_lt h, add_zero]

theorem mkPid_mod (h : offset < bitsPerPage) : mkPid map offset % bitsPerPage = offset := by
  rw [mkPid, mul_comm, mul_add_mod, mod_eq_of_lt h]

theorem mkPid_div_mod (pid : Nat) : mkPid (pid / bitsPerPage) (pid % bitsPerPage) = pid := by
  rw [mkPid, mul_comm]
  exact div_add_mod pid bitsPerPage

theorem inUse_mkPid (h : offset < bitsPerPage) :
    InUse ps (mkPid map offset) ↔ (ps.pidmap map).bit offset = true := by
  rw [InUse, mkPid_div h, mkPid_mod h]

theorem setMap_pidmap (ps : Pspace) (map : Nat) (entry : Pidmap) (m : Nat) :
    (setMap ps map entry).pidmap m = if m = map then entry else ps.pidmap m :=
  update_apply ps.pidmap map entry m

theorem inUse_setMap (ps : Pspace) (map : Nat) (entry : Pidmap) (q : Nat) : InUse (setMap ps map entry) q ↔
      if q / bitsPerPage = map then entry.bit (q % bitsPerPage) = true else InUse ps q := by
  rw [InUse, setMap_pidmap]
  split
  · exact Iff.rfl
  · exact Iff.rfl

theorem countsExact_setMap (h : CountsExact ps) {entry : Pidmap}
    (hentry : entry.nrFree = (clearBits entry : Nat)) : CountsExact (setMap ps map entry) := by
  intro m
  rw [setMap_pidmap]
  split
  · exact hentry
  · exact h m

theorem withPage_sameUse (h : CountsExact ps) (map : Nat) : SameUse ps (withPage (fun _ => true) ps map) ∧
      ∃ page, ((withPage (fun _ => true) ps map).pidmap map).page = some page := by
  rw [withPage]
  split
  · rename_i page hpage
    exact ⟨⟨fun q => Iff.rfl, h⟩, page, hpage⟩
  · rename_i hnone
    -- a page that is not there has no bit set
    have hbit : ∀ o, (ps.pidmap map).bit o = false := by
      intro o
      rw [Pidmap.bit, hnone]
      rfl
    rw [if_pos rfl]
    refine ⟨⟨fun q => ?_, countsExact_setMap h ?_⟩, fun _ => false, ?_⟩
    · rw [inUse_setMap]
      split
      · rename_i hq
        rw [InUse, hq, hbit]
        exact Iff.rfl
      · exact Iff.rfl
    · rw [h map]
      simp only [clearBits, hbit]
      rfl
    · rw [setMap_pidmap, if_pos rfl]

theorem clearBits_update (n n' : Int) (page : Nat → Bool) (hoffset : offset < bitsPerPage) (b : Bool) :
    clearBits ⟨n', some (update page offset b)⟩ + (if page offset = false then 1 else 0) =
      clearBits ⟨n, some page⟩ + if b = false then 1 else 0 := by
  have hmem := mem_range.mpr hoffset
  have hrest : ∀ o ∈ (range bitsPerPage).erase offset,
      (if update page offset b o = false then 1 else 0) = if page o = false then 1 else 0 :=
    fun o ho => by rw [update_of_ne (ne_of_mem_erase ho)]
  show ((range bitsPerPage).filter fun o => update page offset b o = false).card + _ =
    ((range bitsPerPage).filter fun o => page o = false).card + _
  rw [card_filter, card_filter, ← add_sum_erase _ _ hmem, sum_congr rfl hrest, update_self,
    ← add_sum_erase _ (fun o => if page o = false then 1 else 0) hmem]
  omega

theorem inUse_setBit (hpage : (ps.pidmap map).page = some page) (hoffset : offset < bitsPerPage) (n : Int)
    (b : Bool) (q : Nat) : InUse (setMap ps map ⟨n, some (update page offset b)⟩) q ↔
      if q = mkPid map offset then b = true else InUse ps q := by
  rw [inUse_setMap]
  by_cases hq : q / bitsPerPage = map
  · subst hq
    rw [if_pos rfl]
    have hnew : Pidmap.bit ⟨n, some (update page offset b)⟩ (q % bitsPerPage) =
        update page offset b (q % bitsPerPage) := rfl
    rw [hnew, update_apply]
    by_cases ho : q % bitsPerPage = offset
    · rw [if_pos ho, if_pos (by rw [← ho, mkPid_div_mod])]
    · have hne : q ≠ mkPid (q / bitsPerPage) offset := by
        intro heq
        rw [heq, mkPid_mod hoffset] at ho
        exact ho rfl
      rw [if_neg ho, if_neg hne, InUse, Pidmap.bit, hpage]
      exact Iff.rfl
  · have hne : q ≠ mkPid map offset := by
      rintro rfl
      exact hq (mkPid_div hoffset)
    rw [if_neg hq, if_neg hne]

theorem bit_of_page (hpage : (ps.pidmap map).page = some page) (o : Nat) :
    (ps.pidmap map).bit o = page o := by
  rw [Pidmap.bit, hpage]
  rfl

section

variable (h : CountsExact ps) (hpage : (ps.pidmap map).page = some page) (hoffset : offset < bitsPerPage)
include h hpage hoffset

theorem countsExact_setBit {n : Int} {b : Bool} (hn : n + (if page offset = false then 1 else 0) =
      (ps.pidmap map).nrFree + if b = false then 1 else 0) :
    CountsExact (setMap ps map ⟨n, some (update page offset b)⟩) := by
  refine countsExact_setMap h ?_
  have hcount := clearBits_update (ps.pidmap map).nrFree n page hoffset b
  have hold : clearBits (ps.pidmap map) = clearBits ⟨(ps.pidmap map).nrFree, some page⟩ := by
    rw [← hpage]
  have hfree := h map
  show n = _
  split_ifs at hn hcount <;> omega

theorem takePid_spec (hclear : page offset = false) :
    (∀ q, InUse (takePid ps map page offset (mkPid map offset)) q ↔ q = mkPid map offset ∨ InUse ps q) ∧
      CountsExact (takePid ps map page offset (mkPid map offset)) := by
  constructor
  · intro q
    refine (inUse_setBit hpage hoffset _ true q).trans ?_
    split
    · rename_i hq
      exact iff_of_true rfl (.inl hq)
    · rename_i hq
      exact (or_iff_right hq).symm
  · refine countsExact_setBit h hpage hoffset ?_
    simp [hclear]

end

theorem freePidmap_spec {ps' : Pspace} (h : CountsExact ps) (huse : InUse ps pid)
    (hfree : freePidmap ps pid = some ps') : (∀ q, InUse ps' q ↔ q ≠ pid ∧ InUse ps q) ∧ CountsExact ps' := by
  obtain ⟨page, hpage, rfl⟩ := Option.map_eq_some_iff.mp hfree
  have hoffset : pid % bitsPerPage < bitsPerPage := mod_lt _ (by decide)
  constructor
  · intro q
    rw [inUse_setBit hpage hoffset, mkPid_div_mod]
    split
    · rename_i hq
      exact iff_of_false Bool.false_ne_true fun h => h.1 hq
    · rename_i hq
      exact (and_iff_right hq).symm
  · have hset : page (pid % bitsPerPage) = true := by
      rw [← bit_of_page hpage]
      exact huse
    refine countsExact_setBit h hpage hoffset ?_
    simp [hset]

/-! ## The search -/

theorem SameUse.refl (h : CountsExact ps) : SameUse ps ps := ⟨fun _ => Iff.rfl, h⟩

theorem SameUse.trans {ps₂ ps₃ : Pspace} (h : SameUse ps₁ ps₂) (h' : SameUse ps₂ ps₃) : SameUse ps₁ ps₃ :=
  ⟨fun q => (h'.inUse q).trans (h.inUse q), h'.counts⟩

/-- How a search ends: with a fresh identifier, or with none, and then what it has tried is in use. -/
inductive SearchEnd (ps : Pspace) (pidMax : Nat) (Tried : Prop) : Int × Pspace → Prop
  | fresh {pid : Nat} {ps' : Pspace} : ¬ InUse ps pid → pid < pidMax →
      (∀ q, InUse ps' q ↔ q = pid ∨ InUse ps q) → CountsExact ps' → SearchEnd ps pidMax Tried (pid, ps')
  | none {ps' : Pspace} : SameUse ps ps' → Tried → SearchEnd ps pidMax Tried (-1, ps')

theorem SearchEnd.mono {Tried' : Prop} (himp : Tried → Tried') {r : Int × Pspace}
    (h : SearchEnd ps pidMax Tried r) : SearchEnd ps pidMax Tried' r := by
  cases h with
  | fresh hfresh hlt huse hcounts => exact .fresh hfresh hlt huse hcounts
  | none hsame htried => exact .none hsame (himp htried)

theorem SearchEnd.of_same (hsame : SameUse ps ps₁) {r : Int × Pspace} (h : SearchEnd ps₁ pidMax Tried r) :
    SearchEnd ps pidMax Tried r := by
  cases h with
  | fresh hfresh hlt huse hcounts =>
    refine .fresh (fun h => hfresh ((hsame.inUse _).mpr h)) hlt (fun q => ?_) hcounts
    rw [huse, hsame.inUse]
  | none hsame' htried => exact .none (hsame.trans hsame') htried

/-- What a round does after a page in which nothing was found. -/
def scanNext (kzalloc : Nat → Bool) (pidMax last left : Nat) (ps : Pspace) (map : Nat) : Int × Pspace :=
  if map < (pidMax - 1) / bitsPerPage then
    scanMaps kzalloc pidMax last left ps (map + 1) 0 (mkPid (map + 1) 0)
  else if last = reservedPids then (-1, ps)
  else scanMaps kzalloc pidMax last left ps 0 reservedPids (mkPid 0 reservedPids)

/-- The identifiers that a round tries: those of the page from the first one on, up to `pid_max`, and in
the last round those below the last identifier, or the first one alone. -/
def TriesPid (pidMax last left : Nat) (map offset q : Nat) : Prop :=
  q / bitsPerPage = map ∧ mkPid map offset ≤ q ∧ q < pidMax ∧
    (left ≠ 0 ∨ q < last ∨ (last + 1) % bitsPerPage = 0 ∨ q = mkPid map offset)

theorem searchMap_spec (hcounts : CountsExact ps) (hpage : (ps.pidmap map).page = some page)
    (hoffset : offset < bitsPerPage) (hpid : mkPid map offset < pidMax) (final : Bool) (last : Nat) :
    PageEnd page map pidMax last final offset
      (searchMap ps map page pidMax last final offset (mkPid map offset)) := by
  rw [searchMap]
  split
  · exact scanPage_spec (bitsPerPage - 2) hoffset hpid
  · rename_i hnone
    -- no bit of the page is clear
    have hset : ∀ o, o < bitsPerPage → page o = true := by
      intro o ho
      by_contra hbit
      have hpos : 0 < clearBits (ps.pidmap map) := by
        refine card_pos.mpr ⟨o, mem_filter.mpr ⟨mem_range.mpr ho, ?_⟩⟩
        rw [bit_of_page hpage]
        exact Bool.eq_false_of_not_eq_true hbit
      have hnr := hcounts map
      omega
    exact .inr ⟨rfl, hset offset hoffset, fun o _ htries => hset o htries.1⟩

theorem scanNext_zero (pidMax last : Nat) (ps : Pspace) (map : Nat) :
    scanNext (fun _ => true) pidMax last 0 ps map = (-1, ps) := by
  rw [scanNext, scanMaps, scanMaps]
  split
  · rfl
  · split
    · rfl
    · rfl

theorem le_div_of_mkPid_le {q : Nat} (h : mkPid map offset ≤ q) : map ≤ q / bitsPerPage := by
  rw [le_div_iff_mul_le (by decide)]
  exact (le_add_right _ _).trans h

theorem mkPid_zero_le_iff {q : Nat} : mkPid map 0 ≤ q ↔ map ≤ q / bitsPerPage := by
  rw [mkPid, add_zero, le_div_iff_mul_le (by decide)]

/-- The first identifier of a page up to that of `pid_max - 1`. -/
theorem mkPid_zero_lt (hmax : 0 < pidMax) (h : map ≤ (pidMax - 1) / bitsPerPage) : mkPid map 0 < pidMax := by
  have hle := mkPid_zero_le_iff.mpr h
  omega

section Rounds

variable (hcounts : CountsExact ps) (hoffset : offset < bitsPerPage) (hpid : mkPid map offset < pidMax)
include hcounts hoffset hpid

theorem scanMaps_round (hnext : ∀ ps₁, SameUse ps ps₁ → (∀ q, TriesPid pidMax last left map offset q → InUse ps q) →
      SearchEnd ps₁ pidMax Tried (scanNext (fun _ => true) pidMax last left ps₁ map)) :
    SearchEnd ps pidMax Tried
      (scanMaps (fun _ => true) pidMax last (left + 1) ps map offset (mkPid map offset)) := by
  obtain ⟨hsame, page, hpage⟩ := withPage_sameUse hcounts map
  rw [scanMaps]
  generalize withPage (fun _ => true) ps map = ps₁ at hsame hpage
  simp only [hpage]
  rcases searchMap_spec hsame.counts hpage hoffset hpid (left == 0) last with
    ⟨o, ho, hmax, hclear, heq⟩ | ⟨heq, hset⟩
  · rw [heq]
    obtain ⟨huse, hcounts'⟩ := takePid_spec hsame.counts hpage ho hclear
    refine SearchEnd.of_same hsame (.fresh ?_ hmax huse hcounts')
    rw [inUse_mkPid ho, bit_of_page hpage, hclear]
    exact Bool.false_ne_true
  · rw [heq]
    refine SearchEnd.of_same hsame (hnext ps₁ hsame fun q hq => ?_)
    obtain ⟨rfl, hge, hlt, hlast⟩ := hq
    have hq : mkPid (q / bitsPerPage) (q % bitsPerPage) = q := mkPid_div_mod q
    rw [← hsame.inUse, InUse, bit_of_page hpage]
    by_cases hfirst : q = mkPid (q / bitsPerPage) offset
    · rw [hfirst, mkPid_mod hoffset]
      exact hset.1
    · refine hset.2 (q % bitsPerPage) ?_ ⟨mod_lt _ (by decide), by omega, ?_⟩
      · exact le_of_add_le_add_left (hge.trans_eq hq.symm)
      · rw [hq]
        rcases hlast with hleft | hbelow | hpage | hsame
        · exact .inl (beq_eq_false_iff_ne.mpr hleft)
        · exact .inr (.inl hbelow)
        · exact .inr (.inr hpage)
        · exact absurd hsame hfirst

/-- **The rounds after the search has begun again:** the pages from `map` on, `k` of them and one more,
in the last of which only what is below the last identifier is tried. -/
theorem scanMaps_again (hk : map + k ≤ (pidMax - 1) / bitsPerPage) : SearchEnd ps pidMax
      (∀ q, mkPid map offset ≤ q → q < pidMax → (q / bitsPerPage < map + k ∨ q / bitsPerPage = map + k ∧
          (q < last ∨ (last + 1) % bitsPerPage = 0 ∨ q % bitsPerPage = 0)) → InUse ps q)
      (scanMaps (fun _ => true) pidMax last (k + 1) ps map offset (mkPid map offset)) := by
  induction k generalizing ps map offset with
  | zero =>
    refine scanMaps_round hcounts hoffset hpid fun ps₁ hsame htried => ?_
    rw [scanNext_zero]
    refine .none (.refl hsame.counts) fun q hge hlt hq => htried q ?_
    have hpage := le_div_of_mkPid_le hge
    rcases hq with hbelow | ⟨heq, hlast⟩
    · omega
    · refine ⟨heq, hge, hlt, .inr ?_⟩
      rcases hlast with hlast | hlast | hfirst
      · exact .inl hlast
      · exact .inr (.inl hlast)
      · -- the first identifier of the page
        have hq := mkPid_div_mod q
        rw [hfirst, heq, add_zero] at hq
        rw [mkPid] at hq hge
        exact .inr (.inr (by rw [mkPid]; omega))
  | succ k ih =>
    refine scanMaps_round hcounts hoffset hpid fun ps₁ hsame htried => ?_
    rw [scanNext, if_pos (by omega)]
    refine (ih hsame.counts (by decide) (mkPid_zero_lt (by omega) (by omega)) (by omega)).mono
      fun hrest q hge hlt hq => ?_
    by_cases hpage : q / bitsPerPage = map
    · exact htried q ⟨hpage, hge, hlt, .inl (succ_ne_zero k)⟩
    · have hnext := le_div_of_mkPid_le hge
      rw [← hsame.inUse]
      refine hrest q (mkPid_zero_le_iff.mpr (by omega)) hlt ?_
      rwa [add_assoc, add_comm 1 k]

/-- **The rounds up to `pid_max`:** everything from the first identifier on is tried, and then the
search begins again, if the last identifier is not the one it would begin with. -/
theorem scanMaps_up (hk : map + k = (pidMax - 1) / bitsPerPage) (hleft : 0 < left)
    (hagain : last ≠ reservedPids → ∀ ps₁, SameUse ps ps₁ → SearchEnd ps₁ pidMax Tried
      (scanMaps (fun _ => true) pidMax last left ps₁ 0 reservedPids (mkPid 0 reservedPids))) :
    SearchEnd ps pidMax
      ((∀ q, mkPid map offset ≤ q → q < pidMax → InUse ps q) ∧ (last = reservedPids ∨ Tried))
      (scanMaps (fun _ => true) pidMax last (k + left + 1) ps map offset (mkPid map offset)) := by
  induction k generalizing ps map offset with
  | zero =>
    refine scanMaps_round hcounts hoffset hpid fun ps₁ hsame htried => ?_
    have hall : ∀ q, mkPid map offset ≤ q → q < pidMax → InUse ps q := by
      intro q hge hlt
      have hpage := le_div_of_mkPid_le hge
      have hlast : q / bitsPerPage ≤ (pidMax - 1) / bitsPerPage := Nat.div_le_div_right (by omega)
      exact htried q ⟨by omega, hge, hlt, .inl (by omega)⟩
    rw [scanNext, if_neg (by omega)]
    split
    · rename_i hlast
      exact .none (.refl hsame.counts) ⟨hall, .inl hlast⟩
    · rename_i hlast
      rw [zero_add]
      exact (hagain hlast ps₁ hsame).mono fun htried => ⟨hall, .inr htried⟩
  | succ k ih =>
    rw [show k + 1 + left + 1 = k + left + 1 + 1 by omega]
    refine scanMaps_round hcounts hoffset hpid fun ps₁ hsame htried => ?_
    rw [scanNext, if_pos (by omega)]
    refine (ih hsame.counts (by decide) (mkPid_zero_lt (by omega) (by omega)) (by omega)
      fun hlast ps₂ hsame' => hagain hlast ps₂ (hsame.trans hsame')).mono fun hrest => ?_
    refine ⟨fun q hge hlt => ?_, hrest.2⟩
    by_cases hpage : q / bitsPerPage = map
    · exact htried q ⟨hpage, hge, hlt, .inl (by omega)⟩
    · have hnext := le_div_of_mkPid_le hge
      rw [← hsame.inUse]
      exact hrest.1 q (mkPid_zero_le_iff.mpr (by omega)) hlt

end Rounds

/-- The last identifier is one that the search does not try again. -/
def LastSkipped (pidMax last : Nat) : Prop :=
  reservedPids ≤ last ∧ last + 1 < pidMax ∧ last % bitsPerPage ≠ 0 ∧ (last + 1) % bitsPerPage ≠ 0

/-- The identifiers that are tried after the search has begun again, in `k` pages and the one after them. -/
def TriesAgain (pidMax last k q : Nat) : Prop :=
  reservedPids ≤ q ∧ q < pidMax ∧ (q / bitsPerPage < k ∨ q / bitsPerPage = k ∧
      (q < last ∨ (last + 1) % bitsPerPage = 0 ∨ q % bitsPerPage = 0))

theorem scanMaps_wrapped (hsame : SameUse ps ps₁) (hmax : reservedPids < pidMax)
    (hk : k ≤ (pidMax - 1) / bitsPerPage) :
    SearchEnd ps₁ pidMax (∀ q, TriesAgain pidMax last k q → InUse ps q)
      (scanMaps (fun _ => true) pidMax last (k + 1) ps₁ 0 reservedPids (mkPid 0 reservedPids)) := by
  have hfirst : mkPid 0 reservedPids = reservedPids := by decide
  refine (scanMaps_again hsame.counts (by decide) (hfirst.trans_lt hmax)
    ((zero_add k).trans_le hk)).mono fun hall q htries => ?_
  obtain ⟨hge, hlt, hpage⟩ := htries
  rw [← hsame.inUse]
  refine hall q (hfirst.trans_le hge) hlt ?_
  rwa [zero_add]

/-- The search from an identifier on, with the number of rounds that `alloc_pidmap` computes. -/
theorem scanMaps_from (left : Nat) (Tried : Prop) (hcounts : CountsExact ps) (hpid : pid < pidMax)
    (hleft : 0 < left) (hrounds : left + (pidMax - 1) / bitsPerPage =
      (pidMax + bitsPerPage - 1) / bitsPerPage - (if pid % bitsPerPage = 0 then 1 else 0) + pid / bitsPerPage)
    (hagain : last ≠ reservedPids → ∀ ps₁, SameUse ps ps₁ → SearchEnd ps₁ pidMax Tried
      (scanMaps (fun _ => true) pidMax last left ps₁ 0 reservedPids (mkPid 0 reservedPids))) :
    SearchEnd ps pidMax ((∀ q, pid ≤ q → q < pidMax → InUse ps q) ∧ (last = reservedPids ∨ Tried))
      (scanMaps (fun _ => true) pidMax last
        ((pidMax + bitsPerPage - 1) / bitsPerPage - (if pid % bitsPerPage = 0 then 1 else 0) + 1)
        ps (pid / bitsPerPage) (pid % bitsPerPage) pid) := by
  have hle : pid / bitsPerPage ≤ (pidMax - 1) / bitsPerPage := Nat.div_le_div_right (by omega)
  have hup := scanMaps_up (k := (pidMax - 1) / bitsPerPage - pid / bitsPerPage)
    hcounts (mod_lt pid (by decide)) ((mkPid_div_mod pid).trans_lt hpid) (by omega) hleft hagain
  rw [mkPid_div_mod] at hup
  convert hup using 2
  omega

theorem pages_eq (hmax : 0 < pidMax) :
    (pidMax + bitsPerPage - 1) / bitsPerPage = (pidMax - 1) / bitsPerPage + 1 := by
  rw [← add_div_right _ (by decide)]
  congr 1
  omega

/-- **`alloc_pidmap`** finds a fresh identifier, or all of them are in use, except perhaps the last one,
if it is skipped. -/
theorem allocPidmap_end (hmax : reservedPids < pidMax) (hcounts : CountsExact ps) : SearchEnd ps pidMax
      (∀ q, reservedPids ≤ q → q < pidMax → InUse ps q ∨ (q = ps.lastPid ∧ LastSkipped pidMax q))
      (allocPidmap (fun _ => true) pidMax ps) := by
  have hpages := pages_eq (zero_lt_of_lt hmax)
  have hreserved : reservedPids < bitsPerPage := by decide
  rw [allocPidmap]
  by_cases hlast : ps.lastPid + 1 ≥ pidMax
  · -- the search begins at `RESERVED_PIDS`
    rw [if_pos hlast]
    refine (scanMaps_from 1 True hcounts hmax (by decide) ?_ ?_).mono ?_
    · rw [hpages, mod_eq_of_lt hreserved, if_neg (by decide), div_eq_of_lt hreserved,
        Nat.add_comm 1, Nat.sub_zero, Nat.add_zero]
    · intro _ ps₁ hsame
      exact (scanMaps_wrapped hsame hmax (zero_le _)).mono fun _ => trivial
    · exact fun hall q hge hlt => .inl (hall.1 q hge hlt)
  · rw [if_neg hlast]
    have hpid : ps.lastPid + 1 < pidMax := not_le.mp hlast
    have hle : (ps.lastPid + 1) / bitsPerPage ≤ (pidMax - 1) / bitsPerPage := Nat.div_le_div_right (by omega)
    by_cases hoffset : (ps.lastPid + 1) % bitsPerPage = 0
    · -- the last page is the one before the first
      have hpage : 0 < (ps.lastPid + 1) / bitsPerPage := div_pos
        (le_of_dvd (succ_pos _) (dvd_of_mod_eq_zero hoffset)) (by decide)
      obtain ⟨k, hk⟩ := Nat.exists_eq_add_of_le' hpage
      rw [hk] at hle
      refine (scanMaps_from (k + 1) _ hcounts hpid (succ_pos k) ?_ fun _ ps₁ hsame =>
        scanMaps_wrapped hsame hmax ((le_succ k).trans hle)).mono ?_
      · rw [hpages, if_pos hoffset, hk, Nat.add_sub_cancel, Nat.add_comm]
      · rintro ⟨hup, hagain⟩ q hge hlt
        rcases lt_or_ge ps.lastPid q with hgt | hqlast
        · exact .inl (hup q hgt hlt)
        · rcases hagain with hreserved | hagain
          · exact absurd hoffset (by rw [hreserved]; decide)
          · refine .inl (hagain q ⟨hge, hlt, ?_⟩)
            rw [bitsPerPage] at hoffset hk ⊢
            omega
    · -- the last page is the first one again
      refine (scanMaps_from ((ps.lastPid + 1) / bitsPerPage + 1) _ hcounts hpid (succ_pos _) ?_
        fun _ ps₁ hsame => scanMaps_wrapped hsame hmax hle).mono ?_
      · rw [hpages, if_neg hoffset, Nat.sub_zero]
        ac_rfl
      · rintro ⟨hup, hagain⟩ q hge hlt
        rcases lt_or_ge ps.lastPid q with hgt | hqlast
        · exact .inl (hup q hgt hlt)
        · rcases hagain with hreserved | hagain
          · obtain rfl : q = ps.lastPid := by omega
            exact .inr ⟨rfl, hge, hpid, by rw [hreserved]; decide, hoffset⟩
          · by_cases hskip : q = ps.lastPid ∧ q % bitsPerPage ≠ 0
            · obtain ⟨rfl, hmod⟩ := hskip
              exact .inr ⟨rfl, hge, hpid, hmod, hoffset⟩
            · refine .inl (hagain q ⟨hge, hlt, ?_⟩)
              rw [bitsPerPage] at hoffset hskip ⊢
              omega

/-! ## Histories -/

/-- The calls of a history; `pid_max` may be another one at each allocation. -/
inductive PidOp where
  | alloc (pidMax : Nat)
  | free (pid : Nat)
  deriving DecidableEq

/-- A value that `pid_max` can be set to. -/
def PidOp.Legal : PidOp → Prop
  | .alloc pidMax => reservedPids < pidMax
  | .free _ => True

/-- Page allocations succeed, and only identifiers in use are freed. -/
def pidStep (ps : Pspace) : PidOp → Option (Int × Pspace)
  | .alloc pidMax => some (allocPidmap (fun _ => true) pidMax ps)
  | .free pid => if InUse ps pid then (freePidmap ps pid).map fun ps' => (0, ps') else none

/-- What a call may return and do: an allocation gives out an identifier that was not in use and is below
`pid_max`, and marks it and no other, or it fails, and then nothing from `RESERVED_PIDS` up to `pid_max`
is left. The counts are right after every call. -/
def PidSpec (ps : Pspace) (op : PidOp) (r : Int) (ps' : Pspace) : Prop :=
  CountsExact ps' ∧
  match op with
  | .alloc pidMax =>
    (∃ pid : Nat, r = pid ∧ ¬ InUse ps pid ∧ pid < pidMax ∧ ∀ q, InUse ps' q ↔ q = pid ∨ InUse ps q) ∨
      (r = -1 ∧ (∀ q, reservedPids ≤ q → q < pidMax → InUse ps q) ∧ ∀ q, InUse ps' q ↔ InUse ps q)
  | .free pid => r = 0 ∧ ∀ q, InUse ps' q ↔ q ≠ pid ∧ InUse ps q

/-- An allocation is not made when the last identifier is skipped and is the only one left. -/
def PidFits (ps : Pspace) : PidOp → Prop
  | .alloc pidMax => LastSkipped pidMax ps.lastPid → ¬ InUse ps ps.lastPid →
      ∃ q, reservedPids ≤ q ∧ q < pidMax ∧ q ≠ ps.lastPid ∧ ¬ InUse ps q
  | .free _ => True

theorem countsExact_init : CountsExact initPspace := by
  intro map
  have hbits : ∀ o, (initPspace.pidmap map).bit o = (decide (map = 0) && o == 0) := by
    intro o
    by_cases hmap : map = 0
    · simp [initPspace, Pidmap.bit, hmap]
    · simp [initPspace, Pidmap.bit, hmap]
  simp only [clearBits, hbits]
  by_cases hmap : map = 0
  · have hfilter : ((range bitsPerPage).filter fun o => (decide (map = 0) && o == 0) = false) =
        (range bitsPerPage).erase 0 := by
      ext o
      simp [hmap, and_comm]
    rw [hfilter, card_erase_of_mem (mem_range.mpr (by decide)), card_range]
    simp [initPspace, hmap]
    decide
  · have hfilter : ((range bitsPerPage).filter fun o => (decide (map = 0) && o == 0) = false) =
        range bitsPerPage := by
      ext o
      simp [hmap]
    rw [hfilter, card_range]
    simp [initPspace, hmap]

theorem pidStep_spec (hcounts : CountsExact ps) {op : PidOp} (hlegal : op.Legal) (hfits : PidFits ps op)
    {p : Int × Pspace} (hstep : pidStep ps op = some p) : PidSpec ps op p.1 p.2 := by
  cases op with
  | alloc pidMax =>
    obtain rfl := Option.some.inj hstep
    have hend := allocPidmap_end hlegal hcounts
    generalize allocPidmap (fun _ => true) pidMax ps = r at hend
    cases hend with
    | fresh hfresh hlt huse hcounts' => exact ⟨hcounts', .inl ⟨_, rfl, hfresh, hlt, huse⟩⟩
    | none hsame htried =>
      refine ⟨hsame.counts, .inr ⟨rfl, fun q hge hlt => ?_, hsame.inUse⟩⟩
      rcases htried q hge hlt with huse | ⟨rfl, hskip⟩
      · exact huse
      · -- the search has tried every other one
        by_contra hfree
        obtain ⟨q, hge', hlt', hne, hfree'⟩ := hfits hskip hfree
        rcases htried q hge' hlt' with huse | ⟨heq, -⟩
        · exact hfree' huse
        · exact hne heq
  | free pid =>
    rw [pidStep] at hstep
    split at hstep
    · rename_i huse
      obtain ⟨ps', hps', rfl⟩ := Option.map_eq_some_iff.mp hstep
      obtain ⟨hfree, hcounts'⟩ := freePidmap_spec hcounts huse hps'
      exact ⟨hcounts', rfl, hfree⟩
    · cases hstep

/-- **Allocation is fresh and exhaustive.** In every history from the start, with any legal values of
`pid_max`, in which no allocation is made when the last identifier is skipped and is the only one left,
every call returns and does what it may. -/
theorem pidmap_fresh_exhaustive {ops : List PidOp} {rs : List Int} {ps : Pspace}
    (hlegal : ∀ op ∈ ops, op.Legal) (hfits : Runs.Along pidStep PidFits initPspace ops)
    (hrun : Runs.run pidStep initPspace ops = some (rs, ps)) : Runs.Allows PidSpec initPspace ops rs ps :=
  Runs.allows_of_run (I := CountsExact) (P := PidOp.Legal)
    (fun _ _ _ hcounts hop hfits hstep => ⟨pidStep_spec hcounts hop hfits hstep,
      (pidStep_spec hcounts hop hfits hstep).1⟩) countsExact_init hlegal hfits hrun

/-- The first identifier is given out, and freed. -/
theorem pidmap_fresh_exhaustive_pair :
    ∃ rs ps, Runs.run pidStep initPspace [.alloc 303, .free 1] = some (rs, ps) ∧ rs = [1, 0] ∧
      Runs.Allows PidSpec initPspace [.alloc 303, .free 1] rs ps :=
  ⟨_, _, rfl, rfl, pidmap_fresh_exhaustive (by
      intro op hop
      rcases List.mem_cons.mp hop with rfl | hop
      · exact (by decide : reservedPids < 303)
      · obtain rfl := List.mem_singleton.mp hop
        exact trivial)
    ⟨fun hskip => absurd hskip.1 (by decide), fun _ _ => ⟨trivial, fun _ _ => trivial⟩⟩ rfl⟩

/-! ## The identifier that is skipped -/

/-- **A free identifier that is not found.** With a `pid_max` of 303 all identifiers are given out; 300
is freed, given out again, and freed again. It is free, but the next allocation fails. -/
theorem pid_refused : ∃ rs ps, Runs.run pidStep initPspace
        (List.replicate 302 (.alloc 303) ++ [.free 300, .alloc 303, .free 300]) = some (rs, ps) ∧
      ¬ InUse ps 300 ∧ (allocPidmap (fun _ => true) 303 ps).1 = -1 := by
  have hrun : (Runs.run pidStep initPspace
      (List.replicate 302 (.alloc 303) ++ [.free 300, .alloc 303, .free 300])).any (fun q =>
        decide (¬ InUse q.2 300 ∧ (allocPidmap (fun _ => true) 303 q.2).1 = -1)) = true := by
    decide +kernel
  obtain ⟨q, hq, hend⟩ := (Option.any_eq_true _ _).mp hrun
  exact ⟨q.1, q.2, hq, of_decide_eq_true hend⟩

end Linux
