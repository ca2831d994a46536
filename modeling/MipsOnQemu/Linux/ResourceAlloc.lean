/-
# MipsOnQemu.Linux.ResourceAlloc -- when `allocate_resource` finds a slot

`find_resource` goes through the gaps between the children of a resource, clips each one to what the
caller wants, rounds its start up to the alignment and takes the first gap that is large enough. The gap
has to be larger than one address, since its start is compared strictly with its end; and rounding up may
run over the top of the address space to 0, as may the address behind the last child. So what the search
looks for is room for `max size 2` addresses (`allocateResource_room`); if there is none, it can still stop at 0
after rounding up (`allocateResource_zero`), or at the first aligned address of the caller's range behind a
child that ends at the top (`allocateResource_min`). `allocate_finds_slot` says for which requests the result is right
all the same; `allocate_misses` has requests for which it is not.
-/

import MipsOnQemu.Linux.ResourceRuns

namespace Linux

open List Nat Chain SlotRequest

/-! ## Slots -/

/-- The addresses from `x` to `x + n - 1` are a slot for a request, from `lo` on and below `hi`. -/
structure Slot (q : SlotRequest) (lo hi : Nat) (t : Chain) (n x : Nat) : Prop where
  aligned : q.align.toNat ∣ x
  min_le : q.min.toNat ≤ x
  le_max : x + n ≤ q.max.toNat + 1
  lo_le : lo ≤ x
  le_hi : x + n ≤ hi
  apart : ∀ k ∈ t.kids, k.stop.toNat < x ∨ x + n ≤ k.start.toNat

/-- A request as a caller without an alignment callback makes it. -/
structure SlotRequest.Plain (q : SlotRequest) : Prop where
  size_pos : 1 ≤ q.size.toNat
  align_pow : ∃ k, q.align.toNat = 2 ^ k
  min_le_max : q.min ≤ q.max
  no_alignf : q.alignf = none

variable {q : SlotRequest} {root new : Resource}

theorem Slot.shrink {lo hi n n' x : Nat} {t : Chain} (h : Slot q lo hi t n x) (hn : n' ≤ n) :
    Slot q lo hi t n' x where
  aligned := h.aligned
  min_le := h.min_le
  le_max := by
    have hmax := h.le_max
    omega
  lo_le := h.lo_le
  le_hi := by
    have hhi := h.le_hi
    omega
  apart := by
    intro k hk
    rcases h.apart k hk with hbelow | habove
    · exact .inl hbelow
    · exact .inr (by omega)

theorem slot_node_iff {p lo hi n x : Nat} {r : Resource} {c s : Chain} (h : Ranged p lo hi (.node r c s)) :
    Slot q lo (hi + 1) (.node r c s) n x ↔
      Slot q lo r.start.toNat .nil n x ∨ Slot q (r.stop.toNat + 1) (hi + 1) s n x := by
  obtain ⟨-, hlo, hle, hhi, -, hs⟩ := h
  constructor
  · rintro ⟨haligned, hmin, hmax, hlo', hhi', hapart⟩
    rcases hapart r mem_cons_self with hbehind | hbefore
    · exact .inr ⟨haligned, hmin, hmax, hbehind, hhi', fun k hk => hapart k (mem_cons_of_mem _ hk)⟩
    · exact .inl ⟨haligned, hmin, hmax, hlo', hbefore, nofun⟩
  · rintro (⟨haligned, hmin, hmax, hlo', hhi', -⟩ | ⟨haligned, hmin, hmax, hlo', hhi', hapart⟩)
    · refine ⟨haligned, hmin, hmax, hlo', by omega, forall_mem_cons.mpr ⟨.inr hhi', fun k hk => .inr ?_⟩⟩
      have hafter := ((ranged_iff.mp hs).1 k hk).2.1
      omega
    · exact ⟨haligned, hmin, hmax, by omega, hhi', forall_mem_cons.mpr ⟨.inl hlo', hapart⟩⟩

/-! ## One gap -/

/-- The number of addresses for which the search looks: more than one. -/
def SlotRequest.room (q : SlotRequest) : Nat := Max.max q.size.toNat 2

/-- Where the search comes to in a gap, given with its first address and the word of its last one. Behind a
child that ends at the top it begins at 0. -/
def SlotRequest.first (q : SlotRequest) (g : Nat × ResourceSize) : Nat :=
  roundUp q.align.toNat (Max.max (g.1 % 2 ^ 32) q.min.toNat) % 2 ^ 32

/-- The search stops at a gap. -/
def SlotRequest.Takes (q : SlotRequest) (g : Nat × ResourceSize) : Prop :=
  q.first g + q.room ≤ Min.min g.2.toNat q.max.toNat + 1

section Gap

variable {q : SlotRequest} (hq : q.Plain)
include hq

theorem SlotRequest.Plain.align_pos : 0 < q.align.toNat := by
  obtain ⟨k, hk⟩ := hq.align_pow
  rw [hk]
  exact Nat.two_pow_pos k

theorem SlotRequest.Plain.align_dvd : q.align.toNat ∣ 2 ^ 32 := by
  obtain ⟨k, hk⟩ := hq.align_pow
  have hlt := q.align.isLt
  rw [hk] at hlt ⊢
  exact Nat.pow_dvd_pow 2 ((Nat.pow_lt_pow_iff_right (by omega)).mp hlt).le

theorem SlotRequest.Plain.align_le : q.align.toNat ≤ 2 ^ 31 := by
  have hstep := add_le_of_dvd_of_lt dvd_rfl hq.align_dvd q.align.isLt
  omega

section Clip

variable {lo : Nat} {start : ResourceSize} (hstart : start.toNat = lo % 2 ^ 32) (stop : ResourceSize)

theorem clip_stop : (q.clip start stop).2.toNat = min stop.toNat q.max.toNat := by
  rw [clip, hq.no_alignf]
  dsimp only
  split
  · rename_i hgt
    exact (min_eq_right (le_of_lt hgt)).symm
  · rename_i hle
    exact (min_eq_left (not_lt.mp hle)).symm

include hstart

theorem clip_start : (q.clip start stop).1.toNat = q.first (lo, stop) := by
  obtain ⟨k, hk⟩ := hq.align_pow
  rw [clip, hq.no_alignf, first, ← hstart]
  dsimp only
  rw [alignTo_toNat hk, hk]
  congr 2
  split
  · rename_i hlt
    exact (max_eq_right (le_of_lt hlt)).symm
  · rename_i hle
    exact (max_eq_left (not_lt.mp hle)).symm

theorem fits_clip_iff : q.fits (q.clip start stop) = true ↔ q.Takes (lo, stop) := by
  have hsize := hq.size_pos
  have hsub : (q.size - 1#32).toNat = q.size.toNat - 1 := BitVec.toNat_sub_of_le hsize
  rw [SlotRequest.Takes, ← clip_stop hq stop, ← clip_start hq hstart stop, fits, room,
    Bool.and_eq_true, decide_eq_true_eq, decide_eq_true_eq]
  generalize q.clip start stop = gap
  constructor
  · rintro ⟨hlt, hge⟩
    have hgap : (gap.2 - gap.1).toNat = gap.2.toNat - gap.1.toNat := BitVec.toNat_sub_of_le (BitVec.le_of_lt hlt)
    have hge' : (q.size - 1#32).toNat ≤ (gap.2 - gap.1).toNat := hge
    have hlt' : gap.1.toNat < gap.2.toNat := hlt
    omega
  · intro hroom
    have hlt : gap.1 < gap.2 := BitVec.lt_def.mpr (by omega)
    have hgap : (gap.2 - gap.1).toNat = gap.2.toNat - gap.1.toNat := BitVec.toNat_sub_of_le (BitVec.le_of_lt hlt)
    refine ⟨hlt, BitVec.le_def.mpr ?_⟩
    omega

end Clip

variable {g : Nat × ResourceSize}

theorem first_cases : (2 ^ 32 < max (g.1 % 2 ^ 32) q.min.toNat + q.align.toNat ∧ q.first g = 0) ∨
      (max (g.1 % 2 ^ 32) q.min.toNat + q.align.toNat ≤ 2 ^ 32 ∧
        q.first g = roundUp q.align.toNat (max (g.1 % 2 ^ 32) q.min.toNat)) := by
  have hlt : max (g.1 % 2 ^ 32) q.min.toNat < 2 ^ 32 := max_lt (mod_lt _ (by omega)) q.min.isLt
  have hpos := hq.align_pos
  rcases roundUp_top hq.align_pos hq.align_dvd hlt with ⟨hwrap, htop⟩ | ⟨hle, hbelow⟩
  · left
    exact ⟨hwrap, by rw [first, htop, mod_self]⟩
  · right
    exact ⟨hle, mod_eq_of_lt (by omega)⟩

/-- A gap below the top is taken at its first slot, if rounding up stays below the top. -/
theorem slot_of_takes (htakes : q.Takes g) (hunder : max g.1 q.min.toNat + q.align.toNat ≤ 2 ^ 32) :
    Slot q g.1 (g.2.toNat + 1) .nil q.room (q.first g) := by
  have hpos := hq.align_pos
  have hmod : g.1 % 2 ^ 32 = g.1 := mod_eq_of_lt (by omega)
  have hcases := first_cases hq (g := g)
  rw [hmod] at hcases
  rcases hcases with ⟨hover, -⟩ | ⟨-, heq⟩
  · omega
  · have hge : max g.1 q.min.toNat ≤ q.first g := heq ▸ le_roundUp hpos
    rw [SlotRequest.Takes] at htakes
    exact ⟨heq ▸ dvd_roundUp, by omega, by omega, by omega, by omega, nofun⟩

theorem takes_of_slot {x : Nat} (h : Slot q g.1 (g.2.toNat + 1) .nil q.room x) :
    q.Takes g ∧ ∀ lo ≤ g.1, max lo q.min.toNat + q.align.toNat ≤ 2 ^ 32 := by
  have hroom : 2 ≤ q.room := le_max_right _ _
  obtain ⟨haligned, hmin, hmax, hlo, hhi, -⟩ := h
  have hstop := g.2.isLt
  have hstep := add_le_of_dvd_of_lt haligned hq.align_dvd (by omega)
  refine ⟨?_, fun lo hle => by omega⟩
  have hmod : g.1 % 2 ^ 32 = g.1 := mod_eq_of_lt (by omega)
  have hfirst : q.first g ≤ x := by
    refine (mod_le _ _).trans ((roundUp_le_iff hq.align_pos haligned).mpr ?_)
    omega
  rw [SlotRequest.Takes]
  omega

end Gap

/-! ## The gaps -/

/-- Where the gaps begin: at `lo` and behind each child. -/
def gapStarts (lo : Nat) (t : Chain) : List Nat := lo :: t.kids.map fun k => k.stop.toNat + 1

/-- Rounding up the lower bound of the caller, or the start of a gap, runs over the top. -/
def RoundsOver (q : SlotRequest) (lo : Nat) (t : Chain) : Prop :=
  2 ^ 32 < q.min.toNat + q.align.toNat ∨ ∃ g ∈ gapStarts lo t, g < 2 ^ 32 ∧ 2 ^ 32 < g + q.align.toNat

/-- A child ends at the top. -/
def EndsAtTop (lo : Nat) (t : Chain) : Prop := 2 ^ 32 ∈ gapStarts lo t

/-- The gaps before and behind the children. -/
def gaps (root : Resource) (lo : Nat) : Chain → List (Nat × ResourceSize)
  | .nil => [(lo, root.stop)]
  | .node r _ s => (lo, r.start - 1#32) :: gaps root (r.stop.toNat + 1) s

/-- The gaps before and behind some children, but for an empty one at 0. -/
structure Gaps (root : Resource) (lo : Nat) (t : Chain) (gs : List (Nat × ResourceSize)) : Prop where
  start_iff : ∀ {x}, 0 < x → (x ∈ gapStarts lo t ↔ ∃ g ∈ gs, g.1 = x)
  start : ∀ g ∈ gs, lo ≤ g.1 ∧ g.1 ≤ 2 ^ 32
  stop : ∀ g ∈ gs, g.2 = root.stop ∨ ∃ k ∈ t.kids, g.2.toNat + 1 = k.start.toNat ∧ g.1 ≤ k.start.toNat ∧
    k.start ≤ root.stop
  last : ∃ g ∈ gs, g.2 = root.stop
  slot_iff : ∀ {q n x}, 0 < n → (Slot q lo (root.stop.toNat + 1) t n x ↔
    ∃ g ∈ gs, Slot q g.1 (g.2.toNat + 1) .nil n x)

/-- What a search through some gaps returns: the first address of the lowest gap that it takes. -/
def SlotRequest.Finds (q : SlotRequest) (gs : List (Nat × ResourceSize))
    (found : Option (ResourceSize × ResourceSize)) : Prop :=
  (found = none ∧ ∀ g ∈ gs, ¬ q.Takes g) ∨ ∃ v, found = some (v, v + q.size - 1#32) ∧
      ∃ g ∈ gs, q.Takes g ∧ v.toNat = q.first g ∧ ∀ g' ∈ gs, q.Takes g' → g.1 ≤ g'.1

theorem toNat_sub_one {x : ResourceSize} (hx : 0 < x.toNat) : (x - 1#32).toNat + 1 = x.toNat := by
  have hsub : (x - 1#32).toNat = x.toNat - 1 := BitVec.toNat_sub_of_le hx
  omega

section Loop

variable {root : Resource} {q : SlotRequest} {p lo : Nat} {start : ResourceSize} {t : Chain}
  {gs : List (Nat × ResourceSize)}

theorem Gaps.skip {r : Resource} {c s : Chain} (h : Ranged p lo root.stop.toNat (.node r c s))
    (hzero : r.start.toNat = 0) (hgs : Gaps root (r.stop.toNat + 1) s gs) : Gaps root lo (.node r c s) gs := by
  obtain ⟨-, hlo, -, -, -, -⟩ := id h
  refine ⟨fun {x} hx => ?_, fun g hg => ⟨by omega, (hgs.start g hg).2⟩, fun g hg => ?_, hgs.last,
    fun {q n x} hn => ?_⟩
  · rw [← hgs.start_iff hx]
    exact mem_cons.trans (or_iff_right (by omega))
  · exact (hgs.stop g hg).imp_right fun hkid => hkid.imp fun k hk => ⟨mem_cons_of_mem _ hk.1, hk.2⟩
  · rw [slot_node_iff h, ← hgs.slot_iff hn]
    refine or_iff_right fun hgap => ?_
    have hempty := hgap.le_hi
    omega

theorem gaps_spec (h : Ranged p lo root.stop.toNat t) (hpos : ∀ k ∈ t.kids, 0 < k.start.toNat)
    (hlo : lo ≤ 2 ^ 32) : Gaps root lo t (gaps root lo t) := by
  induction t generalizing lo with
  | nil =>
    refine ⟨fun {x} _ => ?_, ?_, ?_, ⟨_, mem_singleton_self _, rfl⟩, fun {q n x} _ => ?_⟩
    · simp [gapStarts, gaps, kids, eq_comm]
    · exact forall_mem_singleton.mpr ⟨le_rfl, hlo⟩
    · simp [gaps]
    · simp [gaps]
  | node r c s _ ihs =>
    obtain ⟨-, hle, hrle, hrhi, -, hs⟩ := id h
    have hrest := ihs hs (fun k hk => hpos k (mem_cons_of_mem _ hk)) r.stop.isLt
    have hstop := toNat_sub_one (hpos r mem_cons_self)
    refine ⟨fun {x} hx => ?_, forall_mem_cons.mpr ⟨⟨le_rfl, hlo⟩, fun g hg => ?_⟩,
      forall_mem_cons.mpr ⟨.inr ⟨r, mem_cons_self, hstop, hle, hrle.trans hrhi⟩, fun g hg => ?_⟩, ?_, fun {q n x} hn => ?_⟩
    · rw [gaps, exists_mem_cons_iff, ← hrest.start_iff hx, eq_comm]
      exact mem_cons
    · have hg := hrest.start g hg
      exact ⟨by omega, hg.2⟩
    · exact (hrest.stop g hg).imp_right fun hkid => hkid.imp fun k hk => ⟨mem_cons_of_mem _ hk.1, hk.2⟩
    · obtain ⟨g, hg, hlast⟩ := hrest.last
      exact ⟨g, mem_cons_of_mem _ hg, hlast⟩
    · rw [gaps, exists_mem_cons_iff, ← hrest.slot_iff hn, slot_node_iff h, hstop]

variable (hq : q.Plain)
include hq

theorem findLoop_finds (h : Ranged p lo root.stop.toNat t) (hpos : ∀ k ∈ t.kids, 0 < k.start.toNat)
    (hlo : lo ≤ 2 ^ 32) (hstart : start.toNat = lo % 2 ^ 32) :
    q.Finds (gaps root lo t) (findLoop root q start t) := by
  have hgs := gaps_spec h hpos hlo
  induction t generalizing lo start with
  | nil =>
    have hiff := fits_clip_iff hq hstart root.stop
    by_cases htakes : q.Takes (lo, root.stop)
    · exact .inr ⟨_, if_pos (hiff.mpr htakes), _, mem_singleton_self _, htakes, clip_start hq hstart _,
        fun g hg _ => (hgs.start g hg).1⟩
    · exact .inl ⟨if_neg fun hfits => htakes (hiff.mp hfits), forall_mem_singleton.mpr htakes⟩
  | node r c s _ ihs =>
    have hiff := fits_clip_iff hq hstart (r.start - 1#32)
    by_cases htakes : q.Takes (lo, r.start - 1#32)
    · exact .inr ⟨_, if_pos (hiff.mpr htakes), _, mem_cons_self, htakes, clip_start hq hstart _,
        fun g hg _ => (hgs.start g hg).1⟩
    · have hskip : findLoop root q start (.node r c s) = findLoop root q (r.stop + 1#32) s :=
        if_neg fun hfits => htakes (hiff.mp hfits)
      have hpos' : ∀ k ∈ s.kids, 0 < k.start.toNat := fun k hk => hpos k (mem_cons_of_mem _ hk)
      rw [hskip]
      rcases ihs h.2.2.2.2.2 hpos' r.stop.isLt (BitVec.toNat_add r.stop 1#32)
          (gaps_spec h.2.2.2.2.2 hpos' r.stop.isLt) with ⟨hnone, hall⟩ | ⟨v, hv, g, hg, hfound, hfirst, hleast⟩
      · exact .inl ⟨hnone, forall_mem_cons.mpr ⟨htakes, hall⟩⟩
      · exact .inr ⟨v, hv, g, mem_cons_of_mem _ hg, hfound, hfirst,
          forall_mem_cons.mpr ⟨fun h => absurd h htakes, hleast⟩⟩

theorem findResource_finds (h : Ranged p root.start.toNat root.stop.toNat t) :
    ∃ gs, Gaps root root.start.toNat t gs ∧ q.Finds gs (findResource root q t) := by
  have hword : root.start.toNat = root.start.toNat % 2 ^ 32 := (mod_eq_of_lt root.start.isLt).symm
  have hroot := root.start.isLt.le
  cases t with
  | nil =>
    have hpos : ∀ k ∈ nil.kids, 0 < k.start.toNat := nofun
    exact ⟨_, gaps_spec h hpos hroot, findLoop_finds hq h hpos hroot hword⟩
  | node r c s =>
    obtain ⟨-, -, hle, -, -, hs⟩ := id h
    have hrest : ∀ k ∈ s.kids, 0 < k.start.toNat := by
      intro k hk
      have hbehind := ((ranged_iff.mp hs).1 k hk).2.1
      omega
    by_cases hzero : r.start = 0#32
    · refine ⟨_, (gaps_spec hs hrest r.stop.isLt).skip h (by rw [hzero]; rfl), ?_⟩
      rw [show findResource root q (.node r c s) = _ from if_pos hzero]
      exact findLoop_finds hq hs hrest r.stop.isLt (BitVec.toNat_add r.stop 1#32)
    · have hpos : ∀ k ∈ (node r c s).kids, 0 < k.start.toNat :=
        forall_mem_cons.mpr ⟨pos_of_ne_zero fun h0 => hzero (BitVec.eq_of_toNat_eq h0), hrest⟩
      refine ⟨_, gaps_spec h hpos hroot, ?_⟩
      rw [show findResource root q (.node r c s) = _ from if_neg hzero]
      exact findLoop_finds hq h hpos hroot hword

variable {g : Nat × ResourceSize}

/-- If there is no room in a gap below the top, it is taken only after rounding up over the top, at 0. -/
theorem Gaps.over (hgs : Gaps root lo t gs) (hno : ∀ x, ¬ Slot q lo (root.stop.toNat + 1) t q.room x)
    (hg : g ∈ gs) (htakes : q.Takes g) (hlt : g.1 < 2 ^ 32) : q.first g = 0 ∧ RoundsOver q lo t := by
  have hpos : 0 < q.room := (le_max_right q.size.toNat 2).trans' (by omega)
  have halign := hq.align_le
  have hcases := first_cases hq (g := g)
  rw [mod_eq_of_lt hlt] at hcases
  rcases hcases with ⟨hover, hzero⟩ | ⟨hunder, -⟩
  · refine ⟨hzero, ?_⟩
    rcases max_choice g.1 q.min.toNat with hmax | hmax
    · exact .inr ⟨g.1, (hgs.start_iff (by omega)).mpr ⟨g, hg, rfl⟩, hlt, hmax ▸ hover⟩
    · exact .inl (hmax ▸ hover)
  · exact absurd ((hgs.slot_iff hpos).mpr ⟨g, hg, slot_of_takes hq htakes hunder⟩) (hno _)

/-- A gap from which rounding up runs over the top is taken if the first addresses are free. -/
theorem Gaps.takes (hgs : Gaps root lo t gs) (hg : g ∈ gs) (hlt : g.1 < 2 ^ 32)
    (hover : 2 ^ 32 < g.1 + q.align.toNat) (hroom : q.room ≤ min root.stop.toNat q.max.toNat + 1)
    (hfree : ∀ k ∈ t.kids, 2 ≤ k.start.toNat → q.size.toNat ≤ k.start.toNat) : q.Takes g := by
  have halign := hq.align_le
  have hcases := first_cases hq (g := g)
  rw [mod_eq_of_lt hlt] at hcases
  rw [SlotRequest.Takes, (hcases.resolve_right (by omega)).2]
  rcases hgs.stop g hg with heq | ⟨k, hk, heq, hle, -⟩
  · rw [heq]
    omega
  · have hroom' : q.room ≤ k.start.toNat := max_le (hfree k hk (by omega)) (by omega)
    omega

omit hq in
theorem SlotRequest.Finds.found {found : Option (ResourceSize × ResourceSize)} (h : q.Finds gs found)
    (hg : g ∈ gs) (htakes : q.Takes g) : ∃ v, found = some (v, v + q.size - 1#32) ∧
      ∃ g ∈ gs, q.Takes g ∧ v.toNat = q.first g ∧ ∀ g' ∈ gs, q.Takes g' → g.1 ≤ g'.1 :=
  h.resolve_left fun hnone => hnone.2 g hg htakes

end Loop

/-! ## `allocate_resource` -/

/-- The new resource is linked between the children, with the `n` addresses from `x` on. -/
def Placed (root new : Resource) (child child' : Chain) (n : Nat) (x : ResourceSize) : Prop :=
  ∃ stop before rest, stop.toNat + 1 = x.toNat + n ∧ child = .behind before rest ∧
    child' = .behind before (.node { new with start := x, stop := stop, parent := some root.addr } .nil rest)

theorem kids_behind (before : List (Resource × Chain)) (t : Chain) :
    (behind before t).kids = before.map Prod.fst ++ t.kids := by
  induction before with
  | nil => rfl
  | cons n before ih => rw [behind, kids, ih, map_cons, cons_append]

theorem Placed.start_eq {child child' : Chain} {n : Nat} {x y : ResourceSize}
    (hx : Placed root new child child' n x) (hy : Placed root new child child' n y) : x = y := by
  obtain ⟨stop, before, rest, -, hchild, hchild'⟩ := hx
  obtain ⟨stop', before', rest', -, hother, hother'⟩ := hy
  -- both new resources are what the children have besides the old ones
  have hbag : ∀ {b s r}, child = .behind b s → child' = .behind b (.node r .nil s) →
      (child'.kids : Multiset Resource) = r ::ₘ (child.kids : Multiset Resource) := by
    rintro b s r rfl rfl
    rw [kids_behind, kids_behind]
    exact Multiset.coe_eq_coe.mpr perm_middle
  have heq := (hbag hchild hchild').symm.trans (hbag hother hother')
  have hnode := (Multiset.cons_inj_left _).mp heq
  exact congrArg Resource.start hnode

/-- `request_resource` succeeds if the addresses are free. -/
theorem requestWalk_free {t : Chain}
    (hfree : ∀ k ∈ t.kids, k.stop.toNat < new.start.toNat ∨ new.stop.toNat < k.start.toNat) :
    ∃ before rest, t = .behind before rest ∧
      requestWalk root new t = .linked (.behind before (.node { new with parent := some root.addr } .nil rest)) := by
  induction t with
  | nil => exact ⟨[], .nil, rfl, rfl⟩
  | node r c s _ ihs =>
    by_cases habove : r.start > new.stop
    · exact ⟨[], .node r c s, rfl, if_pos habove⟩
    · have hbelow : r.stop < new.start := by
        rcases hfree r mem_cons_self with hlt | hgt
        · exact hlt
        · exact absurd hgt habove
      obtain ⟨before, rest, rfl, hwalk⟩ := ihs fun k hk => hfree k (mem_cons_of_mem _ hk)
      refine ⟨(r, c) :: before, rest, rfl, ?_⟩
      rw [requestWalk, if_neg habove, if_pos hbelow, hwalk]
      rfl

theorem free_of_requestWalk {t t' : Chain} (h : requestWalk root new t = .linked t')
    {p lo hi : Nat} (hranged : Ranged p lo hi t) :
    ∀ k ∈ t.kids, k.stop.toNat < new.start.toNat ∨ new.stop.toNat < k.start.toNat := by
  induction t generalizing lo t' with
  | nil => exact nofun
  | node r c s _ ihs =>
    obtain ⟨-, -, hrle, -, -, hs⟩ := hranged
    rw [requestWalk] at h
    intro k hk
    split at h
    · rename_i habove
      have habove' : new.stop.toNat < r.start.toNat := habove
      rcases mem_cons.mp hk with rfl | hk
      · exact .inr habove'
      · have hbehind := ((ranged_iff.mp hs).1 k hk).2.1
        exact .inr (by omega)
    · split at h
      · rename_i hbelow
        rcases mem_cons.mp hk with rfl | hk
        · exact .inl hbelow
        · cases hwalk : requestWalk root new s with
          | linked t'' => exact ihs hwalk hs k hk
          | root | conflict =>
            rw [hwalk] at h
            cases h
      · cases h

theorem toNat_range {v n : ResourceSize} (hn : 1 ≤ n.toNat) (htop : v.toNat + n.toNat ≤ 2 ^ 32) :
    (v + n - 1#32).toNat + 1 = v.toNat + n.toNat := by
  bv_omega

/-- The `n` addresses from `x` on are in the root and meet none of its children. -/
structure FreeRange (root : Resource) (child : Chain) (n x : Nat) : Prop where
  start_le : root.start.toNat ≤ x
  le_stop : x + n ≤ root.stop.toNat + 1
  apart : ∀ k ∈ child.kids, k.stop.toNat < x ∨ x + n ≤ k.start.toNat

/-- After rounding up over the top the search stops at 0, and the addresses from there on are free. -/
def StopsAtZero (root : Resource) (q : SlotRequest) (child : Chain) : Prop :=
  RoundsOver q root.start.toNat child ∧ q.room ≤ min root.stop.toNat q.max.toNat + 1 ∧
    FreeRange root child q.size.toNat 0

/-- Behind a child that ends at the top the search begins once more with the caller's range, and the
addresses from the first aligned one on are free. -/
def StopsAtMin (root : Resource) (q : SlotRequest) (child : Chain) : Prop :=
  ¬ RoundsOver q root.start.toNat child ∧ EndsAtTop root.start.toNat child ∧
    roundUp q.align.toNat q.min.toNat + q.room ≤ q.max.toNat + 1 ∧
    FreeRange root child q.size.toNat (roundUp q.align.toNat q.min.toNat)

/-- A slot in a resource. -/
abbrev SlotIn (root : Resource) (q : SlotRequest) (child : Chain) (n x : Nat) : Prop :=
  Slot q root.start.toNat (root.stop.toNat + 1) child n x

theorem SlotRequest.size_le_room (q : SlotRequest) : q.size.toNat ≤ q.room := le_max_left _ _

theorem FreeRange.slot {child : Chain} {n x : Nat}
    (h : FreeRange root child n x) (haligned : q.align.toNat ∣ x) (hmin : q.min.toNat ≤ x)
    (hmax : x + n ≤ q.max.toNat + 1) : SlotIn root q child n x :=
  ⟨haligned, hmin, hmax, h.start_le, h.le_stop, h.apart⟩

theorem Slot.freeRange {child : Chain} {n x : Nat} (h : SlotIn root q child n x) : FreeRange root child n x :=
  ⟨h.lo_le, h.le_hi, h.apart⟩

section Allocate

variable {root : Resource} (new : Resource) {q : SlotRequest} (hq : q.Plain) {child : Chain}
  (h : Ranged root.addr root.start.toNat root.stop.toNat child)
include hq

theorem allocateResource_placed {v : ResourceSize}
    (hfind : findResource root q child = some (v, v + q.size - 1#32))
    (hfree : FreeRange root child q.size.toNat v.toNat) :
    ∃ child', allocateResource root new q child = some child' ∧ Placed root new child child' q.size.toNat v := by
  have hsize := hq.size_pos
  obtain ⟨hlo, hhi, hapart⟩ := hfree
  have hstop : (v + q.size - 1#32).toNat + 1 = v.toNat + q.size.toNat := by
    have hlt := root.stop.isLt
    exact toNat_range hsize (by omega)
  obtain ⟨before, rest, hchild, hwalk⟩ := @requestWalk_free root
    { new with start := v, stop := v + q.size - 1#32 } child (fun k hk => by
      have hk := hapart k hk
      dsimp only
      omega)
  refine ⟨_, ?_, _, before, rest, hstop, hchild, rfl⟩
  have hle : ¬ v + q.size - 1#32 < v := fun hlt => by
    have hlt' : (v + q.size - 1#32).toNat < v.toNat := hlt
    omega
  have hroot : ¬ v < root.start := not_lt.mpr hlo
  have hroot' : ¬ v + q.size - 1#32 > root.stop := fun hgt => by
    have hgt' : root.stop.toNat < (v + q.size - 1#32).toNat := hgt
    omega
  rw [allocateResource, hfind]
  dsimp only
  rw [requestResource, rawRequestResource, if_neg hle, if_neg hroot, if_neg hroot', hwalk]

include h

theorem free_of_allocateResource {w : ResourceSize × ResourceSize} {child' : Chain}
    (hfind : findResource root q child = some w) (hw : w.2 = w.1 + q.size - 1#32)
    (htop : w.1.toNat + q.size.toNat ≤ 2 ^ 32) (hallocate : allocateResource root new q child = some child') :
    FreeRange root child q.size.toNat w.1.toNat := by
  have hstop : w.2.toNat + 1 = w.1.toNat + q.size.toNat := by
    rw [hw]
    exact toNat_range hq.size_pos htop
  rw [allocateResource, hfind] at hallocate
  dsimp only at hallocate
  rw [requestResource, rawRequestResource] at hallocate
  split_ifs at hallocate with hle hroot hroot'
  have hroot : ¬ w.1.toNat < root.start.toNat := hroot
  have hroot' : ¬ root.stop.toNat < w.2.toNat := hroot'
  cases hwalk : requestWalk root { new with start := w.1, stop := w.2 } child with
  | linked t =>
    have hapart := free_of_requestWalk hwalk h
    refine ⟨by omega, by omega, fun k hk => ?_⟩
    have hk := hapart k hk
    dsimp only at hk
    omega
  | root | conflict =>
    rw [hwalk] at hallocate
    cases hallocate

theorem allocateResource_room {x : Nat} (hx : SlotIn root q child q.room x) :
    ∃ child' v, allocateResource root new q child = some child' ∧ Placed root new child child' q.size.toNat v ∧
      SlotIn root q child q.size.toNat v.toNat := by
  have hpos : 0 < q.room := hq.size_pos.trans q.size_le_room
  obtain ⟨gs, hgs, hfind⟩ := findResource_finds hq h
  obtain ⟨gap, hgap, hslot⟩ := (hgs.slot_iff hpos).mp hx
  obtain ⟨htakes, hunder⟩ := takes_of_slot hq hslot
  obtain ⟨v, hv, g, hg, hfound, hfirst, hleast⟩ := hfind.found hgap htakes
  have hroom := slot_of_takes hq hfound (hunder g.1 (hleast gap hgap htakes))
  have hslot' := ((hgs.slot_iff hpos).mpr ⟨g, hg, hfirst ▸ hroom⟩).shrink q.size_le_room
  obtain ⟨child', hallocate, hplaced⟩ := allocateResource_placed new hq hv hslot'.freeRange
  exact ⟨child', v, hallocate, hplaced, hslot'⟩

variable (hno : ∀ x, ¬ SlotIn root q child q.room x)
include hno

theorem allocateResource_zero (hzero : StopsAtZero root q child) :
    ∃ child' v, allocateResource root new q child = some child' ∧ Placed root new child child' q.size.toNat v ∧
      v.toNat = 0 := by
  obtain ⟨hover, hroom, hfree⟩ := hzero
  obtain ⟨gs, hgs, hfind⟩ := findResource_finds hq h
  have hfound : ∃ v, findResource root q child = some (v, v + q.size - 1#32) ∧ v.toNat = 0 := by
    rcases hover with hmin | ⟨x, hx, hlt, hlast⟩
    · have hfirst : ∀ g, q.first g = 0 := fun g => ((first_cases hq).resolve_right (by omega)).2
      obtain ⟨g, hg, hlast⟩ := hgs.last
      have htakes : q.Takes g := by
        rw [SlotRequest.Takes, hfirst, hlast]
        omega
      obtain ⟨v, hv, g', -, -, hv0, -⟩ := hfind.found hg htakes
      exact ⟨v, hv, hv0.trans (hfirst g')⟩
    · have halign := hq.align_le
      obtain ⟨g, hg, rfl⟩ := (hgs.start_iff (by omega)).mp hx
      have htakes := hgs.takes hq hg hlt hlast hroom fun k hk _ => by
        have hk := hfree.apart k hk
        omega
      obtain ⟨v, hv, g', hg', htakes', hv0, hleast⟩ := hfind.found hg htakes
      exact ⟨v, hv, hv0.trans (hgs.over hq hno hg' htakes' ((hleast g hg htakes).trans_lt hlt)).1⟩
  obtain ⟨v, hv, hv0⟩ := hfound
  obtain ⟨child', hallocate, hplaced⟩ := allocateResource_placed new hq hv (hv0 ▸ hfree)
  exact ⟨child', v, hallocate, hplaced, hv0⟩

theorem allocateResource_min (hmin : StopsAtMin root q child) :
    ∃ child' v, allocateResource root new q child = some child' ∧ Placed root new child child' q.size.toNat v ∧
      v.toNat = roundUp q.align.toNat q.min.toNat := by
  obtain ⟨hunder, htop, hroom, hfree⟩ := hmin
  obtain ⟨gs, hgs, hfind⟩ := findResource_finds hq h
  have hfirst : ∀ g : Nat × ResourceSize, g.1 = 2 ^ 32 → q.first g = roundUp q.align.toNat q.min.toNat := by
    intro g hg
    have hcases := first_cases hq (g := g)
    rw [hg, mod_self, zero_max] at hcases
    exact (hcases.resolve_left fun hover => hunder (.inl hover.1)).2
  have hstop : root.stop.toNat + 1 = 2 ^ 32 := by
    have hlt := root.stop.isLt
    rcases mem_cons.mp htop with heq | hmem
    · have hroot := root.start.isLt
      omega
    · obtain ⟨k, hk, hend⟩ := mem_map.mp hmem
      have hinside := ((ranged_iff.mp h).1 k hk).2.2
      omega
  obtain ⟨g, hg, htop⟩ := (hgs.start_iff (by omega)).mp htop
  have htakes : q.Takes g := by
    have hmax := q.max.isLt
    rw [SlotRequest.Takes, hfirst g htop]
    rcases hgs.stop g hg with heq | ⟨k, -, -, hle, -⟩
    · rw [heq]
      omega
    · have hk := k.start.isLt
      omega
  obtain ⟨v, hv, g', hg', htakes', hveq, -⟩ := hfind.found hg htakes
  have htop' : g'.1 = 2 ^ 32 := by
    by_contra hne
    exact hunder (hgs.over hq hno hg' htakes' (lt_of_le_of_ne (hgs.start g' hg').2 hne)).2
  rw [hfirst g' htop'] at hveq
  obtain ⟨child', hallocate, hplaced⟩ := allocateResource_placed new hq hv (hveq ▸ hfree)
  exact ⟨child', v, hallocate, hplaced, hveq⟩

theorem allocateResource_none (hzero : ¬ StopsAtZero root q child) (hmin : ¬ StopsAtMin root q child) :
    allocateResource root new q child = none := by
  obtain ⟨gs, hgs, hfind⟩ := findResource_finds hq h
  cases hallocate : allocateResource root new q child with
  | none => rfl
  | some child' =>
    exfalso
    rcases hfind with ⟨hnone, -⟩ | ⟨v, hv, g, hg, htakes, hfirst, hleast⟩
    · rw [allocateResource, hnone] at hallocate
      cases hallocate
    have hroom : v.toNat + q.room ≤ min root.stop.toNat q.max.toNat + 1 := by
      rw [SlotRequest.Takes, ← hfirst] at htakes
      rcases hgs.stop g hg with heq | ⟨k, -, heq, -, hle⟩
      · rwa [heq] at htakes
      · have hle' : k.start.toNat ≤ root.stop.toNat := hle
        omega
    have hmax := q.max.isLt
    have hle := q.size_le_room
    have hfree := free_of_allocateResource new hq h hv rfl (by dsimp only; omega) hallocate
    have hstops : v.toNat = 0 → ¬ RoundsOver q root.start.toNat child := fun hv0 hover =>
      hzero ⟨hover, by omega, hv0 ▸ hfree⟩
    rcases (hgs.start g hg).2.lt_or_eq with hlt | htop
    · obtain ⟨hv0, hover⟩ := hgs.over hq hno hg htakes hlt
      exact hstops (hfirst.trans hv0) hover
    have hcases := first_cases hq (g := g)
    rw [htop, mod_self, zero_max, ← hfirst] at hcases
    rcases hcases with ⟨hover, hv0⟩ | ⟨hunder, heq⟩
    · exact hstops hv0 (.inl hover)
    refine hmin ⟨?_, (hgs.start_iff (by omega)).mpr ⟨g, hg, htop⟩, by omega, heq ▸ hfree⟩
    rintro (hover | ⟨x, hx, hlt, hlast⟩)
    · omega
    · have halign := hq.align_le
      obtain ⟨g', hg', rfl⟩ := (hgs.start_iff (by omega)).mp hx
      have hsize : q.size.toNat < 2 := by
        by_contra hbig
        -- a range of two addresses or more that was free would have been a slot
        have hroom' : q.room = q.size.toNat := max_eq_left (by omega)
        refine hno v.toNat (hroom' ▸ hfree.slot ?_ ?_ (by dsimp only; omega))
        · exact heq ▸ dvd_roundUp
        · exact heq ▸ le_roundUp hq.align_pos
      -- the gap holds two addresses from 0 on, so that it would have been taken
      have hleast' := hleast g' hg' (hgs.takes hq hg' hlt hlast (by omega) fun k _ _ => by omega)
      omega

end Allocate

/-! ## When the result is right -/

/-- **What `allocate_resource` is to do:** it succeeds if and only if the root has a slot, and then the new
resource covers one and becomes a child of the root. -/
def AllocatesSlot (root new : Resource) (q : SlotRequest) (child : Chain) : Prop :=
  ((allocateResource root new q child).isSome = true ↔ ∃ x, SlotIn root q child q.size.toNat x) ∧
    ∀ child', allocateResource root new q child = some child' →
      ∃ x, SlotIn root q child q.size.toNat x.toNat ∧ Placed root new child child' q.size.toNat x

/-- The only slots are single addresses without room for a second one, and the search does not come to one
of them by running over the top. -/
def LoneAddress (root : Resource) (q : SlotRequest) (child : Chain) : Prop :=
  (∃ x, SlotIn root q child q.size.toNat x) ∧ (∀ x, ¬ SlotIn root q child q.room x) ∧
    ¬ StopsAtZero root q child ∧ ¬ StopsAtMin root q child

/-- There is no room, and the search runs over the top to 0, below what the caller wants. -/
def RoundsBelowMin (root : Resource) (q : SlotRequest) (child : Chain) : Prop :=
  (∀ x, ¬ SlotIn root q child q.room x) ∧ StopsAtZero root q child ∧ 0 < q.min.toNat

theorem allocatesSlot_of_placed {child child' : Chain} {v : ResourceSize}
    (hallocate : allocateResource root new q child = some child')
    (hplaced : Placed root new child child' q.size.toNat v) (hslot : SlotIn root q child q.size.toNat v.toNat) :
    AllocatesSlot root new q child := by
  refine ⟨⟨fun _ => ⟨_, hslot⟩, fun _ => by rw [hallocate]; rfl⟩, fun child'' hsome => ?_⟩
  rw [hallocate] at hsome
  cases hsome
  exact ⟨v, hslot, hplaced⟩

theorem ranged_of_mem_nodes {p lo hi : Nat} {t : Chain} (h : Ranged p lo hi t) {n : Resource × Chain}
    (hn : n ∈ t.nodes) : Ranged n.1.addr n.1.start.toNat n.1.stop.toNat n.2 := by
  induction t generalizing p lo hi with
  | nil => exact absurd hn not_mem_nil
  | node r c s ihc ihs =>
    obtain ⟨-, -, -, -, hc, hs⟩ := h
    rcases mem_cons.mp hn with rfl | hn
    · exact hc
    · rcases mem_append.mp hn with hn | hn
      · exact ihc hc hn
      · exact ihs hs hn

/-- **`allocate_resource` finds a slot in any resource of a well-formed tree,** but for requests of one
address where only single addresses are free, and for those where rounding up runs over the top of the
address space to free addresses below what the caller wants. -/
theorem allocate_finds_slot {t : ResourceTree} {root : Resource} {child : Chain} (h : WellFormed t)
    (hroot : (root, child) ∈ (t.root, t.child) :: t.child.nodes) {q : SlotRequest} (hq : q.Plain) (new : Resource) :
    AllocatesSlot root new q child ↔ ¬ LoneAddress root q child ∧ ¬ RoundsBelowMin root q child := by
  have hranged : Ranged root.addr root.start.toNat root.stop.toNat child := by
    have htree := (wellFormed_iff.mp h).2.2.1
    rcases mem_cons.mp hroot with heq | hmem
    · cases heq
      exact htree
    · exact ranged_of_mem_nodes htree hmem
  have hpos := hq.align_pos
  have hle := q.size_le_room
  by_cases hroom : ∃ x, SlotIn root q child q.room x
  · obtain ⟨x, hx⟩ := hroom
    obtain ⟨child', v, hallocate, hplaced, hslot⟩ := allocateResource_room new hq hranged hx
    refine iff_of_true (allocatesSlot_of_placed hallocate hplaced hslot) ⟨fun hlone => ?_, fun hbelow => ?_⟩
    · exact hlone.2.1 x hx
    · exact hbelow.1 x hx
  have hno : ∀ x, ¬ SlotIn root q child q.room x := fun x hx => hroom ⟨x, hx⟩
  by_cases hzero : StopsAtZero root q child
  · obtain ⟨child', v, hallocate, hplaced, hv0⟩ := allocateResource_zero new hq hranged hno hzero
    rcases Nat.eq_zero_or_pos q.min.toNat with hmin | hmin
    · have hslot : SlotIn root q child q.size.toNat v.toNat := by
        have hmax := hzero.2.1
        rw [hv0]
        exact hzero.2.2.slot (dvd_zero _) (by omega) (by omega)
      refine iff_of_true (allocatesSlot_of_placed hallocate hplaced hslot) ⟨fun hlone => ?_, fun hbelow => ?_⟩
      · exact hlone.2.2.1 hzero
      · exact absurd hmin hbelow.2.2.ne'
    · refine iff_of_false (fun hright => ?_) fun hcond => hcond.2 ⟨hno, hzero, hmin⟩
      obtain ⟨x, hslot, hplaced'⟩ := hright.2 child' hallocate
      have hge := hslot.min_le
      rw [hplaced'.start_eq hplaced] at hge
      omega
  by_cases hmin : StopsAtMin root q child
  · obtain ⟨child', v, hallocate, hplaced, hveq⟩ := allocateResource_min new hq hranged hno hmin
    have hslot : SlotIn root q child q.size.toNat v.toNat := by
      have hmax := hmin.2.2.1
      rw [hveq]
      exact hmin.2.2.2.slot dvd_roundUp (le_roundUp hpos) (by omega)
    refine iff_of_true (allocatesSlot_of_placed hallocate hplaced hslot) ⟨fun hlone => ?_, fun hbelow => ?_⟩
    · exact hlone.2.2.2 hmin
    · exact hzero hbelow.2.1
  have hnone := allocateResource_none new hq hranged hno hzero hmin
  constructor
  · rintro ⟨hiff, -⟩
    refine ⟨fun hlone => ?_, fun hbelow => hzero hbelow.2.1⟩
    have hsome := hiff.mpr hlone.1
    rw [hnone] at hsome
    cases hsome
  · rintro ⟨hlone, -⟩
    constructor
    · rw [hnone]
      exact iff_of_false Bool.false_ne_true fun hslot => hlone ⟨hslot, hno, hzero, hmin⟩
    · intro child' hsome
      rw [hnone] at hsome
      cases hsome

def plainRequest (size min max align : ResourceSize) : SlotRequest := ⟨size, min, max, align, none⟩

/-- The hypotheses and the condition are met by a request of 8 aligned addresses from 20 on, with a child in
the way. -/
theorem allocate_finds_slot_aligned :
    ∃ t : ResourceTree, t.child.kids.map (fun k => (k.start, k.stop)) = [(24, 30)] ∧
      AllocatesSlot t.root ⟨2, 0, 0, false, none⟩ (plainRequest 8 20 90 8) t.child := by
  refine ⟨⟨⟨0, 0, 100, false, none⟩, .node ⟨1, 24, 30, false, some 0⟩ .nil .nil⟩, rfl, ?_⟩
  refine (allocate_finds_slot ?_ mem_cons_self ⟨by decide, ⟨3, rfl⟩, by decide, rfl⟩ _).mpr ?_
  · refine ⟨rfl, ⟨by decide, by decide, by decide, by decide⟩, fun n hn => ?_, by decide⟩
    rw [mem_singleton.mp hn]
    exact ⟨by decide, by decide, by decide, by decide⟩
  · have hslot : SlotIn ⟨0, 0, 100, false, none⟩ (plainRequest 8 20 90 8)
        (.node ⟨1, 24, 30, false, some 0⟩ .nil .nil) (plainRequest 8 20 90 8).room 32 :=
      ⟨by decide, by decide, by decide, by decide, by decide, by decide⟩
    exact ⟨fun hlone => hlone.2.1 32 hslot, fun hbelow => hbelow.1 32 hslot⟩

/-- Two children with the address 50 between them. -/
def loneGap : Chain := .node ⟨1, 0, 49, false, some 0⟩ .nil (.node ⟨2, 51, 100, false, some 0⟩ .nil .nil)

/-- A request of one address where only the address 50 is free fails; a request of 16 addresses above the
last multiple of the alignment is answered with the addresses from 0 to 15. -/
theorem allocate_misses :
    (allocateResource ⟨0, 0, 100, false, none⟩ ⟨3, 0, 0, false, none⟩ (plainRequest 1 0 100 1) loneGap = none ∧
        ¬ AllocatesSlot ⟨0, 0, 100, false, none⟩ ⟨3, 0, 0, false, none⟩ (plainRequest 1 0 100 1) loneGap) ∧
      allocateResource ⟨0, 0, 0xFFFFFFFF, false, none⟩ ⟨3, 0, 0, false, none⟩
          (plainRequest 16 0x80000001 0xFFFFFFFF 0x80000000) .nil =
        some (.node ⟨3, 0, 15, false, some 0⟩ .nil .nil) ∧
      ¬ AllocatesSlot ⟨0, 0, 0xFFFFFFFF, false, none⟩ ⟨3, 0, 0, false, none⟩
          (plainRequest 16 0x80000001 0xFFFFFFFF 0x80000000) .nil := by
  refine ⟨⟨by decide, fun hright => ?_⟩, by decide, fun hright => ?_⟩
  · have hslot : SlotIn ⟨0, 0, 100, false, none⟩ (plainRequest 1 0 100 1) loneGap 1 50 :=
      ⟨by decide, by decide, by decide, by decide, by decide, by decide⟩
    exact absurd (hright.1.mpr ⟨50, hslot⟩) (by decide)
  · obtain ⟨x, hslot, hplaced⟩ := hright.2 (.node ⟨3, 0, 15, false, some 0⟩ .nil .nil) (by decide)
    have hzero : Placed ⟨0, 0, 0xFFFFFFFF, false, none⟩ ⟨3, 0, 0, false, none⟩ .nil
        (.node ⟨3, 0, 15, false, some 0⟩ .nil .nil) 16 0 := ⟨15, [], .nil, rfl, rfl, rfl⟩
    have hmin := hslot.min_le
    rw [hplaced.start_eq hzero] at hmin
    exact absurd hmin (by decide)

end Linux
