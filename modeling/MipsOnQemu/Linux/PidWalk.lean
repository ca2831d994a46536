/-
# MipsOnQemu.Linux.PidWalk -- the walk over live identifiers

`next_pidmap` and `find_ge_pid` of `kernel/pid.c`, with which `/proc` lists the processes from a
directory offset on. `BITS_PER_PAGE` is an `unsigned long`, so `last + 1` is divided without its sign:
a number below -1 gives an index behind the array, the loop over the pages ends before it begins, and
nothing is found (`findGePid_misses`). From 0 on the walk is exact, and for no number is an entry read
that the array does not have (`findGePid_exact_iff`).
-/

import MipsOnQemu.Linux.PidMap

namespace Linux

open Nat Option

structure Pid where
  nr : Int
  deriving DecidableEq

/-- What the walk reads: the array of `PIDMAP_ENTRIES` pages, whose numbers are `int`s, and the hash
table. The bits that are set are the numbers of the hashed identifiers. -/
structure PidTable where
  ps : Pspace
  entries : Nat
  pidHash : Nat → List Pid
  pidHashfn : Int → Nat
  int : entries * bitsPerPage ≤ 2 ^ 31
  exact : ∀ nr : Int, (∃ pid ∈ pidHash (pidHashfn nr), pid.nr = nr) ↔
    ∃ p : Nat, nr = p ∧ p < entries * bitsPerPage ∧ InUse ps p

variable (t : PidTable)

def findPid (nr : Int) : Option Pid := (t.pidHash (t.pidHashfn nr)).find? fun pid => pid.nr = nr

/-- An entry of the array; a read outside is `none`. -/
def PidTable.entry (map : Nat) : Option Pidmap :=
  if map < t.entries then some (t.ps.pidmap map) else none

/-- The loop of `next_pidmap`, with the number of rounds that are left. -/
def nextMaps : Nat → Nat → Nat → Option Int
  | 0, _, _ => some (-1)
  | rounds + 1, map, offset =>
    if map < t.entries then do
      match (← t.entry map).page with
      | none => nextMaps rounds (map + 1) 0
      | some page =>
        let offset := findNextBit page (bitsPerPage - offset) offset
        if offset < bitsPerPage then some (mkPid map offset) else nextMaps rounds (map + 1) 0
    else some (-1)

def nextPidmap (last : Int) : Option Int :=
  let next := ((last + 1) % 2 ^ 32).toNat
  nextMaps t t.entries (next / bitsPerPage) (next % bitsPerPage)

/-- `find_ge_pid`, with a bound on the number of rounds. -/
def findGePid : Nat → Int → Option (Option Pid)
  | 0, _ => none
  | rounds + 1, nr =>
    match findPid t nr with
    | some pid => some (some pid)
    | none => do
      let nr ← nextPidmap t nr
      if 0 < nr then findGePid rounds nr else some none

/-! ## The bitmap -/

variable {t} {map offset p : Nat}

/-- The number of an identifier in use, in one of the pages of the array. -/
def PidTable.Used (t : PidTable) (p : Nat) : Prop := p < t.entries * bitsPerPage ∧ InUse t.ps p

/-- The first number in use from `start` on, or -1. -/
def IsNext (t : PidTable) (start : Nat) (r : Int) : Prop :=
  (∃ q : Nat, r = q ∧ IsLeast {p | t.Used p ∧ start ≤ p} q) ∨ (r = -1 ∧ ∀ p, t.Used p → p < start)

/-- A number in use lies behind the page, or its bit is one of the page. -/
theorem PidTable.Used.page (hp : t.Used p) (hge : mkPid map offset ≤ p) : mkPid (map + 1) 0 ≤ p ∨
      ∃ o, offset ≤ o ∧ o < bitsPerPage ∧ p = mkPid map o ∧ (t.ps.pidmap map).bit o = true := by
  by_cases hmap : p / bitsPerPage = map
  · subst hmap
    have hp' := mkPid_div_mod p
    refine .inr ⟨p % bitsPerPage, ?_, mod_lt p (by decide), hp'.symm, hp.2⟩
    exact le_of_add_le_add_left (hge.trans_eq hp'.symm)
  · have hle := le_div_of_mkPid_le hge
    exact .inl (mkPid_zero_le_iff.mpr (by omega))

theorem mkPid_lt_next (hoffset : offset < bitsPerPage) : mkPid map offset < mkPid (map + 1) 0 := by
  unfold mkPid
  rw [succ_mul]
  omega

/-- A page without a bit in use from `offset` on. -/
theorem IsNext.skip {r : Int} (h : IsNext t (mkPid (map + 1) 0) r) (hoffset : offset < bitsPerPage)
    (hclear : ∀ o, offset ≤ o → o < bitsPerPage → (t.ps.pidmap map).bit o = false) :
    IsNext t (mkPid map offset) r := by
  have hset : {p | t.Used p ∧ mkPid map offset ≤ p} = {p | t.Used p ∧ mkPid (map + 1) 0 ≤ p} := by
    ext p
    refine and_congr_right fun hp => ⟨fun hge => ?_, (mkPid_lt_next hoffset).le.trans⟩
    refine (hp.page hge).resolve_right ?_
    rintro ⟨o, ho, hlt, -, hbit⟩
    rw [hclear o ho hlt] at hbit
    cases hbit
  refine h.imp (fun ⟨q, hr, hq⟩ => ⟨q, hr, by rwa [hset]⟩) fun ⟨hr, hnone⟩ => ⟨hr, fun p hp => ?_⟩
  by_contra hge
  have hmem : p ∈ {p | t.Used p ∧ mkPid map offset ≤ p} := ⟨hp, not_lt.mp hge⟩
  rw [hset] at hmem
  exact not_lt.mpr hmem.2 (hnone p hp)

theorem nextMaps_spec (rounds : Nat) (hoffset : offset < bitsPerPage) (hrounds : t.entries ≤ map + rounds) :
    ∃ r, nextMaps t rounds map offset = some r ∧ IsNext t (mkPid map offset) r := by
  have hend : ∀ {map offset}, t.entries ≤ map → IsNext t (mkPid map offset) (-1) := by
    intro map offset hle
    refine .inr ⟨rfl, fun p hp => hp.1.trans_le ?_⟩
    exact (mul_le_mul_right _ hle).trans (le_add_right _ _)
  induction rounds generalizing map offset with
  | zero => exact ⟨-1, rfl, hend hrounds⟩
  | succ rounds ih =>
    obtain ⟨r, hr, hnext⟩ := @ih (map + 1) 0 (by decide) (by omega)
    rw [nextMaps]
    by_cases hmap : map < t.entries
    · simp only [if_pos hmap, PidTable.entry, bind_eq_bind, bind_some]
      cases hpage : (t.ps.pidmap map).page with
      | none =>
        refine ⟨r, hr, hnext.skip hoffset fun o _ _ => ?_⟩
        rw [Pidmap.bit, hpage]
        rfl
      | some page =>
        obtain ⟨hge, -, hclear, hset⟩ := findNextBit_spec page (bitsPerPage - offset) offset
        simp only [← bit_of_page hpage] at hclear hset
        dsimp only
        generalize findNextBit page (bitsPerPage - offset) offset = next at hge hset hclear
        split
        · rename_i hlt
          have hbelow : mkPid (map + 1) 0 ≤ t.entries * bitsPerPage := by
            rw [mkPid, add_zero]
            exact mul_le_mul_right _ hmap
          refine ⟨_, rfl, .inl ⟨_, rfl, ⟨⟨(mkPid_lt_next hlt).trans_le hbelow, ?_⟩,
            Nat.add_le_add_left hge _⟩, fun p hp => ?_⟩⟩
          · exact (inUse_mkPid hlt).mpr (hset (by omega))
          · rcases hp.1.page hp.2 with hbehind | ⟨o, ho, -, rfl, hbit⟩
            · exact (mkPid_lt_next hlt).le.trans hbehind
            · refine Nat.add_le_add_left (Nat.not_lt.mp fun hlt => ?_) _
              rw [hclear o ho hlt] at hbit
              cases hbit
        · exact ⟨r, hr, hnext.skip hoffset fun o ho hlt => hclear o ho (by omega)⟩
    · rw [if_neg hmap]
      exact ⟨-1, rfl, hend (not_lt.mp hmap)⟩

/-! ## The walk -/

theorem live_iff {m : Int} : findPid t m ≠ none ↔ ∃ p : Nat, m = p ∧ t.Used p := by
  refine Iff.trans ?_ (t.exact m)
  rw [findPid, ne_none_iff_isSome, List.find?_isSome]
  simp

/-- What the walk should return: the live identifier with the smallest number from `nr` on. -/
def ExactGe (t : PidTable) (nr : Int) : Option Pid → Prop
  | some pid => findPid t pid.nr = some pid ∧ IsLeast {m | findPid t m ≠ none ∧ nr ≤ m} pid.nr
  | none => ∀ m, findPid t m ≠ none → m < nr

theorem exactGe_some {nr m : Int} {pid : Pid} (h : findPid t m = some pid) (hle : nr ≤ m)
    (hleast : ∀ p : Nat, t.Used p → nr ≤ p → m ≤ p) : ExactGe t nr (some pid) := by
  obtain rfl : pid.nr = m := by simpa using List.find?_some h
  refine ⟨h, ⟨by rw [h]; exact some_ne_none pid, hle⟩, fun m' ⟨hlive, hm'⟩ => ?_⟩
  obtain ⟨p, rfl, hp⟩ := live_iff.mp hlive
  exact hleast p hp hm'

theorem exactGe_none {nr : Int} (h : ∀ p : Nat, t.Used p → p < nr) : ExactGe t nr none := by
  intro m hlive
  obtain ⟨p, rfl, hp⟩ := live_iff.mp hlive
  exact h p hp

theorem ExactGe.lt_of_used {nr : Int} (h : ExactGe t nr none) (hp : t.Used p) : p < nr :=
  h p (live_iff.mpr ⟨p, rfl, hp⟩)

/-- **When the walk is exact:** from 0 on, from -1 on if the number 0 is not in use, and from any number if
none is. For every number two rounds are enough, and no read is outside the array. -/
theorem findGePid_exact_iff (t : PidTable) (nr : BitVec 32) (rounds : Nat) :
    (nextPidmap t nr.toInt).isSome ∧ ∃ r, findGePid t (rounds + 2) nr.toInt = some r ∧
      (ExactGe t nr.toInt r ↔ 0 ≤ nr.toInt ∨ (nr.toInt = -1 ∧ ¬ t.Used 0) ∨ ∀ p, ¬ t.Used p) := by
  have hhigh : nr.toInt < 2 ^ 31 := nr.toInt_lt
  have hlow : -2 ^ 31 ≤ nr.toInt := nr.le_toInt
  generalize nr.toInt = n at hhigh hlow
  obtain ⟨next, hnext, hspec⟩ := @nextMaps_spec t (((n + 1) % 2 ^ 32).toNat / bitsPerPage) _
    t.entries (mod_lt ((n + 1) % 2 ^ 32).toNat (by decide)) (le_add_left _ _)
  rw [← nextPidmap] at hnext
  rw [mkPid_div_mod] at hspec
  refine ⟨by rw [hnext]; rfl, ?_⟩
  rw [findGePid]
  cases hfind : findPid t n with
  | some pid =>
    obtain ⟨p, hp, -⟩ := live_iff.mp (by rw [hfind]; exact some_ne_none pid)
    exact ⟨some pid, rfl, iff_of_true (exactGe_some hfind le_rfl fun _ _ h => h) (.inl (by omega))⟩
  | none =>
    have hnot : ∀ p : Nat, t.Used p → n ≠ p := fun p hp h => live_iff.mpr ⟨p, h, hp⟩ hfind
    have hbound : ∀ p, t.Used p → p < 2 ^ 31 := fun p hp => hp.1.trans_le t.int
    simp only [hnext, bind_eq_bind, bind_some]
    rcases hspec with ⟨q, rfl, ⟨hq, hstart⟩, hleast⟩ | ⟨rfl, hnone⟩
    · -- a number below -1 is taken for one behind the array
      have hge : -1 ≤ n := by
        have hlt := hbound q hq
        omega
      by_cases hpos : (0 : Int) < q
      · -- the second round finds it
        obtain ⟨pid, hpid⟩ := ne_none_iff_exists'.mp (live_iff.mpr ⟨q, rfl, hq⟩)
        refine ⟨some pid, by rw [if_pos hpos, findGePid, hpid], iff_of_true ?_ ?_⟩
        · refine exactGe_some hpid (by omega) fun p hp hle => ?_
          have hne := hnot p hp
          exact Int.ofNat_le.mpr (hleast ⟨hp, by omega⟩)
        · rcases hge.lt_or_eq with hlt | rfl
          · exact .inl (by omega)
          · refine .inr (.inl ⟨rfl, fun hzero => ?_⟩)
            have hle := hleast ⟨hzero, Nat.zero_le _⟩
            omega
      · -- the number 0 ends the walk
        obtain rfl : q = 0 := by omega
        refine ⟨none, if_neg hpos, iff_of_false (fun h => ?_) ?_⟩
        · have hlt := h.lt_of_used hq
          omega
        · rintro (hn | ⟨-, hzero⟩ | hno)
          · omega
          · exact hzero hq
          · exact hno 0 hq
    · refine ⟨none, rfl, ?_⟩
      by_cases hn : -1 ≤ n
      · have hused : ∀ p, t.Used p → (p : Int) < n := fun p hp => by
          have hne := hnot p hp
          have hlt := hnone p hp
          omega
        refine iff_of_true (exactGe_none hused) ?_
        by_cases hzero : 0 ≤ n
        · exact .inl hzero
        · exact .inr (.inr fun p hp => absurd (hused p hp) (by omega))
      · constructor
        · intro h
          refine .inr (.inr fun p hp => ?_)
          have hlt := h.lt_of_used hp
          omega
        · rintro (hn' | ⟨hn', -⟩ | hno)
          · omega
          · omega
          · exact exactGe_none fun p hp => absurd hp (hno p)

/-- One page with one identifier, the number 1. -/
def oneLive : PidTable where
  ps := ⟨fun _ => ⟨bitsPerPage - 1, some (· == 1)⟩, 1⟩
  entries := 1
  pidHash bucket := if bucket = 1 then [⟨1⟩] else []
  pidHashfn := Int.toNat
  int := by decide
  exact nr := by
    constructor
    · rintro ⟨pid, hpid, rfl⟩
      split at hpid
      · rw [List.mem_singleton.mp hpid]
        exact ⟨1, rfl, by decide, rfl⟩
      · cases hpid
    · rintro ⟨q, rfl, hlt, huse⟩
      rw [InUse, mod_eq_of_lt (by simpa using hlt)] at huse
      rw [show q = 1 by simpa [Pidmap.bit] using huse]
      exact ⟨⟨1⟩, List.mem_singleton.mpr rfl, rfl⟩

/-- **From -2 it is not found**, although it is live. -/
theorem findGePid_misses : findPid oneLive 1 = some ⟨1⟩ ∧ findGePid oneLive 2 (-2) = some none := by
  decide +kernel

end Linux
