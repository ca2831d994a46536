/-
# MipsOnQemu.Linux.ResourceRuns -- what the calls keep of a tree of resources

A chain of children is described by the address of the parent and the bounds that are left for it
(`Ranged`); this goes down the links as the functions do, and says the same as `WellFormed`
(`wellFormed_iff`). Every function keeps it, but for `adjust_resource`, which computes the end of the new
range as `start + size - 1` and checks it only against the neighbours: if that wraps around, the node is
left with an end below its start (`adjust_wraps`). Without such calls every tree that is reached is well
formed, and a call that fails leaves it as it was (`resource_tree_well_formed`).
-/

import MipsOnQemu.Lib.Runs
import MipsOnQemu.Linux.Resource

namespace Linux

open List Option Chain

open Multiset hiding forall_mem_cons mem_cons

/-! ## Chains within bounds -/

/-- The resources of a chain have this parent, follow each other from `lo` on and end by `hi`, and so do
their children within each of them. -/
def Ranged (parent : Nat) : Nat → Nat → Chain → Prop
  | _, _, .nil => True
  | lo, hi, .node r c s =>
    r.parent = some parent ∧ lo ≤ r.start.toNat ∧ r.start.toNat ≤ r.stop.toNat ∧ r.stop.toNat ≤ hi ∧
      Ranged r.addr r.start.toNat r.stop.toNat c ∧ Ranged parent (r.stop.toNat + 1) hi s

/-- The children of a resource are within its range. -/
abbrev RangedBelow (r : Resource) (c : Chain) : Prop := Ranged r.addr r.start.toNat r.stop.toNat c

variable {p lo hi : Nat} {root new r parent : Resource} {c s : Chain} {start : ResourceSize}

variable {t t' : Chain} {extra : Multiset Nat}

theorem Ranged.mono {lo' : Nat} (h : Ranged p lo hi t) (hlo : lo' ≤ lo) : Ranged p lo' hi t := by
  cases t with
  | nil => trivial
  | node r c s =>
    obtain ⟨hparent, hstart, hrest⟩ := h
    exact ⟨hparent, hlo.trans hstart, hrest⟩

theorem ranged_iff : Ranged p lo hi t ↔
      (∀ k ∈ t.kids, k.parent = some p ∧ lo ≤ k.start.toNat ∧ k.stop.toNat ≤ hi) ∧
        (t.kids.Pairwise fun a b => a.stop < b.start) ∧ ∀ n ∈ t.nodes, NodeOk n.1 n.2 := by
  induction t generalizing p lo hi with
  | nil => simp [Ranged, kids, nodes]
  | node r c s ihc ihs =>
    have hnode : NodeOk r c ∧ (∀ n ∈ c.nodes, NodeOk n.1 n.2) ↔
        r.start.toNat ≤ r.stop.toNat ∧ Ranged r.addr r.start.toNat r.stop.toNat c := by
      rw [ihc]
      constructor
      · rintro ⟨hok, hbelow⟩
        exact ⟨hok.start_le_stop, fun k hk => ⟨hok.parent_eq k hk, hok.inside k hk⟩, hok.ascending, hbelow⟩
      · rintro ⟨hle, hkids, hasc, hbelow⟩
        exact ⟨⟨hle, fun k hk => (hkids k hk).1, fun k hk => (hkids k hk).2, hasc⟩, hbelow⟩
    rw [Ranged, kids, nodes, pairwise_cons, forall_mem_cons, forall_mem_cons, forall_mem_append]
    constructor
    · rintro ⟨hparent, hlo, hle, hhi, hc, hs⟩
      obtain ⟨hok, hbelow⟩ := hnode.mpr ⟨hle, hc⟩
      obtain ⟨hkids, hasc, hnodes⟩ := ihs.mp hs
      refine ⟨⟨⟨hparent, hlo, hhi⟩, fun k hk => ?_⟩, ⟨fun k hk => (hkids k hk).2.1, hasc⟩, hok, hbelow, hnodes⟩
      obtain ⟨hkparent, hklo, hkhi⟩ := hkids k hk
      exact ⟨hkparent, by omega, hkhi⟩
    · rintro ⟨⟨⟨hparent, hlo, hhi⟩, hkids⟩, ⟨hfirst, hasc⟩, hok, hbelow, hnodes⟩
      obtain ⟨hle, hc⟩ := hnode.mp ⟨hok, hbelow⟩
      refine ⟨hparent, hlo, hle, hhi, hc, ihs.mpr ⟨fun k hk => ?_, hasc, hnodes⟩⟩
      obtain ⟨hkparent, -, hkhi⟩ := hkids k hk
      exact ⟨hkparent, hfirst k hk, hkhi⟩

theorem Ranged.rebound {lo' hi' : Nat} (h : Ranged p lo hi t)
    (hkids : ∀ k ∈ t.kids, lo' ≤ k.start.toNat ∧ k.stop.toNat ≤ hi') : Ranged p lo' hi' t := by
  obtain ⟨hold, hasc, hnodes⟩ := ranged_iff.mp h
  exact ranged_iff.mpr ⟨fun k hk => ⟨(hold k hk).1, hkids k hk⟩, hasc, hnodes⟩

/-- **The tree, in terms of bounds.** -/
theorem wellFormed_iff {t : ResourceTree} :
    WellFormed t ↔ t.root.parent = none ∧ t.root.start.toNat ≤ t.root.stop.toNat ∧
      Ranged t.root.addr t.root.start.toNat t.root.stop.toNat t.child ∧ t.addrs.Nodup := by
  rw [ranged_iff]
  constructor
  · rintro ⟨hparent, hroot, hbelow, hnodup⟩
    exact ⟨hparent, hroot.start_le_stop, ⟨fun k hk => ⟨hroot.parent_eq k hk, hroot.inside k hk⟩,
      hroot.ascending, hbelow⟩, hnodup⟩
  · rintro ⟨hparent, hle, ⟨hkids, hasc, hbelow⟩, hnodup⟩
    exact ⟨hparent, ⟨hle, fun k hk => (hkids k hk).1, fun k hk => (hkids k hk).2, hasc⟩, hbelow, hnodup⟩

/-! ## Addresses -/

/-- The addresses of a chain, without their order. -/
def addrBag (t : Chain) : Multiset Nat := (t.addrs : List Nat)

theorem addrBag_node (r : Resource) (c s : Chain) :
    addrBag (.node r c s) = r.addr ::ₘ (addrBag c + addrBag s) := by
  simp [addrBag, Chain.addrs, Chain.nodes]

theorem addrBag_reparent (q : Nat) (t : Chain) : addrBag (t.reparent q) = addrBag t := by
  induction t with
  | nil => rfl
  | node r c s _ ihs => rw [reparent, addrBag_node, addrBag_node, ihs]

/-- The addresses of the resources before a chain. -/
def bagOf (before : List (Resource × Chain)) : Multiset Nat :=
  (before.map fun n => n.1.addr ::ₘ addrBag n.2).sum

theorem addrBag_behind (before : List (Resource × Chain)) (t : Chain) :
    addrBag (.behind before t) = bagOf before + addrBag t := by
  induction before with
  | nil => simp [behind, bagOf]
  | cons n before ih =>
    obtain ⟨r, c⟩ := n
    have hcons : bagOf ((r, c) :: before) = (r.addr ::ₘ addrBag c) + bagOf before := by
      simp [bagOf]
    rw [behind, addrBag_node, ih, hcons, cons_add, cons_add, add_assoc]

/-! ## Each function -/

/-- A new resource fits into the bounds. -/
structure FitsIn (lo hi : Nat) (new : Resource) : Prop where
  start_le_stop : new.start.toNat ≤ new.stop.toNat
  lo_le : lo ≤ new.start.toNat
  le_hi : new.stop.toNat ≤ hi

/-- What the walk of `__request_resource` can find in a chain within bounds. -/
inductive WalkEnd (p lo hi : Nat) (new : Resource) (t : Chain) : Requested → Prop
  | linked {t' : Chain} : Ranged p lo hi t' → addrBag t' = new.addr ::ₘ addrBag t →
      WalkEnd p lo hi new t (.linked t')
  | conflict {before : List (Resource × Chain)} {r : Resource} {c s : Chain} :
      t = .behind before (.node r c s) → (∀ n ∈ before, n.1.stop.toNat < new.start.toNat) →
      r.start.toNat ≤ new.stop.toNat → new.start.toNat ≤ r.stop.toNat →
      WalkEnd p lo hi new t (.conflict before r c s)

theorem requestWalk_end (h : Ranged root.addr lo hi t) (hfits : FitsIn lo hi new) :
    WalkEnd root.addr lo hi new t (requestWalk root new t) := by
  induction t generalizing lo with
  | nil =>
    exact .linked ⟨rfl, hfits.lo_le, hfits.start_le_stop, hfits.le_hi, trivial, trivial⟩
      (addrBag_node _ _ _)
  | node tmp c s _ ihs =>
    obtain ⟨hparent, hlo, hle, hhi, hc, hs⟩ := h
    rw [requestWalk]
    by_cases hbefore : tmp.start > new.stop
    · rw [if_pos hbefore]
      have hlt : new.stop.toNat < tmp.start.toNat := hbefore
      refine .linked ⟨rfl, hfits.lo_le, hfits.start_le_stop, hfits.le_hi, trivial, hparent, ?_, hle, hhi, hc, hs⟩
        ?_
      · exact hlt
      · rw [addrBag_node _ .nil]
        exact congrArg _ (zero_add _)
    · rw [if_neg hbefore]
      by_cases hbehind : tmp.stop < new.start
      · rw [if_pos hbehind]
        have hlt : tmp.stop.toNat < new.start.toNat := hbehind
        have hend := ihs hs ⟨hfits.start_le_stop, hlt, hfits.le_hi⟩
        generalize requestWalk root new s = result at hend
        cases hend with
        | linked ht' hbag =>
          refine .linked ⟨hparent, hlo, hle, hhi, hc, ht'⟩ ?_
          rw [addrBag_node, addrBag_node, hbag, add_cons, cons_swap]
        | conflict heq hpre hstart hstop =>
          exact .conflict (by rw [heq]; rfl) (forall_mem_cons.mpr ⟨hlt, hpre⟩) hstart hstop
      · rw [if_neg hbehind]
        refine .conflict rfl nofun ?_ ?_
        · exact Nat.not_lt.mp hbefore
        · exact Nat.not_lt.mp hbehind

/-- **`__request_resource`** in the children of a resource: it links the new one, or finds one in the way
that its range overlaps, or the new one does not fit at all. -/
theorem rawRequestResource_end (new : Resource) (h : RangedBelow root t) :
    rawRequestResource root new t = .root ∨ (FitsIn root.start.toNat root.stop.toNat new ∧
        WalkEnd root.addr root.start.toNat root.stop.toNat new t (rawRequestResource root new t)) := by
  rw [rawRequestResource]
  by_cases hempty : new.stop < new.start
  · exact .inl (if_pos hempty)
  rw [if_neg hempty]
  by_cases hlow : new.start < root.start
  · exact .inl (if_pos hlow)
  rw [if_neg hlow]
  by_cases hhigh : new.stop > root.stop
  · exact .inl (if_pos hhigh)
  rw [if_neg hhigh]
  have hfits : FitsIn root.start.toNat root.stop.toNat new :=
    ⟨Nat.not_lt.mp hempty, Nat.not_lt.mp hlow, Nat.not_lt.mp hhigh⟩
  exact .inr ⟨hfits, requestWalk_end h hfits⟩

variable {res : Nat} {stop : ResourceSize} {next : Resource} {x : Option (Option Chain)} {before : List (Resource × Chain)} {c' : Chain}

/-- A chain behind some resources has its own lower bound, and can be exchanged for any other that keeps
to it. -/
theorem ranged_behind (h : Ranged p lo hi (.behind before t)) :
    ∃ m, (m = lo ∨ ∃ n ∈ before, m = n.1.stop.toNat + 1) ∧ Ranged p m hi t ∧
      ∀ t', Ranged p m hi t' → Ranged p lo hi (.behind before t') := by
  induction before generalizing lo with
  | nil => exact ⟨lo, .inl rfl, h, fun _ h' => h'⟩
  | cons n before ih =>
    obtain ⟨r, c⟩ := n
    obtain ⟨hparent, hlo, hle, hhi, hc, hs⟩ := h
    obtain ⟨m, hm, ht, hexchange⟩ := ih hs
    refine ⟨m, .inr ?_, ht, fun t' ht' => ⟨hparent, hlo, hle, hhi, hc, hexchange t' ht'⟩⟩
    rcases hm with rfl | ⟨n, hn, hm⟩
    · exact ⟨(r, c), mem_cons_self, rfl⟩
    · exact ⟨n, mem_cons_of_mem _ hn, hm⟩

/-- A change of the children of a resource that keeps them within its range, and brings in no address but
those of `extra`. -/
structure KeptBelow (r : Resource) (extra : Multiset Nat) (c c' : Chain) : Prop where
  ranged : Ranged r.addr r.start.toNat r.stop.toNat c'
  bag : addrBag c' ≤ extra + addrBag c

/-- A change of the children of one of the resources. -/
theorem Ranged.within (h : Ranged p lo hi (.node r c s)) (hkept : RangedBelow r c → KeptBelow r extra c c') :
    Ranged p lo hi (.node r c' s) ∧ addrBag (.node r c' s) ≤ extra + addrBag (.node r c s) := by
  obtain ⟨hparent, hlo, hle, hhi, hc, hs⟩ := h
  obtain ⟨hranged, hbag⟩ := hkept hc
  refine ⟨⟨hparent, hlo, hle, hhi, hranged, hs⟩, ?_⟩
  rw [addrBag_node, addrBag_node, add_cons, ← add_assoc]
  exact cons_le_cons _ (add_le_add_left hbag _)

/-- A change of the resources behind the first one. -/
theorem Ranged.behind {s' : Chain} (h : Ranged p lo hi (.node r c s))
    (hkept : Ranged p (r.stop.toNat + 1) hi s →
      Ranged p (r.stop.toNat + 1) hi s' ∧ addrBag s' ≤ extra + addrBag s) :
    Ranged p lo hi (.node r c s') ∧ addrBag (.node r c s') ≤ extra + addrBag (.node r c s) := by
  obtain ⟨hparent, hlo, hle, hhi, hc, hs⟩ := h
  obtain ⟨hranged, hbag⟩ := hkept hs
  refine ⟨⟨hparent, hlo, hle, hhi, hc, hranged⟩, ?_⟩
  rw [addrBag_node, addrBag_node, add_cons, add_left_comm]
  exact cons_le_cons _ (add_le_add_right hbag _)

theorem KeptBelow.below
    (h : RangedBelow root (.behind before (.node r c s))) (hkept : RangedBelow r c → KeptBelow r extra c c') :
    KeptBelow root extra (.behind before (.node r c s)) (.behind before (.node r c' s)) := by
  obtain ⟨m, -, hnode, hexchange⟩ := ranged_behind h
  obtain ⟨hranged, hbag⟩ := hnode.within hkept
  refine ⟨hexchange _ hranged, ?_⟩
  rw [addrBag_behind, addrBag_behind, add_left_comm]
  exact add_le_add_right hbag _

theorem requestResource_kept (new : Resource) (h : RangedBelow root t)
    (hrequest : requestResource root new t = some t') : KeptBelow root {new.addr} t t' := by
  rw [requestResource] at hrequest
  rcases rawRequestResource_end new h with hroot | ⟨-, hend⟩
  · rw [hroot] at hrequest
    cases hrequest
  · generalize rawRequestResource root new t = result at hrequest hend
    cases hend with
    | linked hranged hbag =>
      obtain rfl := some.inj hrequest
      exact ⟨hranged, hbag.le⟩
    | conflict _ _ _ _ => cases hrequest

/-! ### `insert_resource` -/

theorem le_of_coveredRun {p : Chain × Chain} (h : coveredRun new next c s = some p) :
    new.start.toNat ≤ next.start.toNat ∧ next.stop.toNat ≤ new.stop.toNat := by
  have hcover : ¬ (next.start < new.start ∨ next.stop > new.stop) := by
    intro hover
    cases s with
    | nil =>
      rw [coveredRun, if_pos hover] at h
      cases h
    | node r c' s =>
      rw [coveredRun, if_pos hover] at h
      cases h
  exact ⟨Nat.not_lt.mp fun hlt => hcover (.inl hlt), Nat.not_lt.mp fun hgt => hcover (.inr hgt)⟩

theorem coveredRun_spec {m l : Nat} {run rest : Chain} (h : Ranged p m hi (.node next c s))
    (hl : l ≤ next.start.toNat) (q : Nat) (hrun : coveredRun new next c s = some (run, rest)) :
    Ranged q l new.stop.toNat (run.reparent q) ∧ Ranged p (new.stop.toNat + 1) hi rest ∧
      addrBag (.node next c s) = addrBag run + addrBag rest := by
  induction s generalizing next c m l run rest with
  | nil =>
    obtain ⟨-, -, hle, -, hc, -⟩ := h
    have hstop := (le_of_coveredRun hrun).2
    rw [coveredRun] at hrun
    split at hrun
    · cases hrun
    · obtain ⟨rfl, rfl⟩ := Prod.mk.inj (some.inj hrun)
      exact ⟨⟨rfl, hl, hle, hstop, hc, trivial⟩, trivial, (add_zero _).symm⟩
  | node r c' s _ ihs =>
    obtain ⟨-, -, hle, -, hc, hs⟩ := h
    have hstop := (le_of_coveredRun hrun).2
    rw [coveredRun] at hrun
    split at hrun
    · cases hrun
    · split at hrun
      · rename_i hgap
        obtain ⟨rfl, rfl⟩ := Prod.mk.inj (some.inj hrun)
        obtain ⟨hparent, -, hrest⟩ := hs
        refine ⟨⟨rfl, hl, hle, hstop, hc, trivial⟩, ⟨hparent, hgap, hrest⟩, ?_⟩
        rw [addrBag_node next, addrBag_node next, cons_add]
        exact congrArg _ (congrArg₂ _ (add_zero _).symm rfl)
      · obtain ⟨⟨run', rest'⟩, hrun', heq⟩ := map_eq_some_iff.mp hrun
        obtain ⟨rfl, rfl⟩ := Prod.mk.inj heq
        obtain ⟨hranged, hrest, hbag⟩ := ihs (l := next.stop.toNat + 1) hs hs.2.1 hrun'
        refine ⟨⟨rfl, hl, hle, hstop, hc, hranged⟩, hrest, ?_⟩
        rw [addrBag_node next, addrBag_node next, hbag, cons_add, add_assoc]

theorem insertResource_kept {rounds : Nat} (h : RangedBelow parent t)
    (hinsert : insertResource new rounds parent t = some t') : KeptBelow parent {new.addr} t t' := by
  induction rounds generalizing parent t t' with
  | zero => cases hinsert
  | succ rounds ih =>
    rw [insertResource] at hinsert
    rcases rawRequestResource_end new h with hroot | ⟨hfits, hend⟩
    · rw [hroot] at hinsert
      cases hinsert
    · generalize rawRequestResource parent new t = result at hinsert hend
      cases hend with
      | linked hranged hbag =>
        obtain rfl := some.inj hinsert
        exact ⟨hranged, hbag.le⟩
      | @conflict before first c s heq hbefore hstart hstop =>
        subst heq
        simp only at hinsert
        split at hinsert
        · obtain ⟨⟨run, rest⟩, hrun, rfl⟩ := map_eq_some_iff.mp hinsert
          obtain ⟨m, hm, hfirst, hexchange⟩ := ranged_behind h
          obtain ⟨hranged, hrest, hbag⟩ := coveredRun_spec hfirst (le_of_coveredRun hrun).1 new.addr hrun
          have hlow : m ≤ new.start.toNat := by
            rcases hm with rfl | ⟨n, hn, rfl⟩
            · exact hfits.lo_le
            · exact hbefore n hn
          refine ⟨hexchange _ ⟨rfl, hlow, hfits.start_le_stop, hfits.le_hi, hranged, hrest⟩, ?_⟩
          rw [addrBag_behind, addrBag_behind, addrBag_node, addrBag_reparent, hbag, singleton_add]
          exact (add_cons _ _ _).le
        · obtain ⟨c', hc', rfl⟩ := map_eq_some_iff.mp hinsert
          exact KeptBelow.below h fun hc => ih hc hc'

/-! ### The other functions -/

theorem allocateResource_kept {q : SlotRequest} (h : RangedBelow root t)
    (hallocate : allocateResource root new q t = some t') : KeptBelow root {new.addr} t t' := by
  rw [allocateResource] at hallocate
  cases hfind : findResource root q t with
  | none =>
    rw [hfind] at hallocate
    cases hallocate
  | some range =>
    rw [hfind] at hallocate
    exact requestResource_kept { new with start := range.1, stop := range.2 } h hallocate

theorem requestRegion_kept {res : Resource} {rounds : Nat} (h : RangedBelow parent t)
    (hrequest : requestRegion res rounds parent t = some t') : KeptBelow parent {res.addr} t t' := by
  induction rounds generalizing parent t t' with
  | zero => cases hrequest
  | succ rounds ih =>
    rw [requestRegion] at hrequest
    rcases rawRequestResource_end res h with hroot | ⟨-, hend⟩
    · rw [hroot] at hrequest
      cases hrequest
    · generalize rawRequestResource parent res t = result at hrequest hend
      cases hend with
      | linked hranged hbag =>
        obtain rfl := some.inj hrequest
        exact ⟨hranged, hbag.le⟩
      | conflict heq _ _ _ =>
        subst heq
        simp only at hrequest
        split at hrequest
        · obtain ⟨c', hc', rfl⟩ := map_eq_some_iff.mp hrequest
          exact KeptBelow.below h fun hc => ih hc hc'
        · cases hrequest

theorem Ranged.drop (h : Ranged p lo hi (.node r c s)) : Ranged p lo hi s := by
  obtain ⟨-, hlo, hle, -, -, hs⟩ := h
  exact hs.mono (by omega)

theorem addrBag_le_node (r : Resource) (c s : Chain) : addrBag s ≤ 0 + addrBag (.node r c s) := by
  rw [addrBag_node, zero_add]
  exact (le_add_left _ _).trans (le_cons_self _ _)

theorem unlink_ranged {old : Nat} (h : Ranged p lo hi t) (hunlink : unlink old t = some t') :
    Ranged p lo hi t' ∧ addrBag t' ≤ 0 + addrBag t := by
  induction t generalizing lo t' with
  | nil => cases hunlink
  | node tmp c s _ ihs =>
    rw [unlink] at hunlink
    split at hunlink
    · obtain rfl := some.inj hunlink
      exact ⟨h.drop, addrBag_le_node _ _ _⟩
    · obtain ⟨s', hs', rfl⟩ := map_eq_some_iff.mp hunlink
      exact h.behind fun hs => ihs hs hs'

theorem releaseRegion_ranged (h : Ranged p lo hi t)
    (hrelease : releaseRegion start stop t = some t') : Ranged p lo hi t' ∧ addrBag t' ≤ 0 + addrBag t := by
  induction t generalizing p lo hi t' with
  | nil => cases hrelease
  | node res c s ihc ihs =>
    rw [releaseRegion] at hrelease
    split at hrelease
    · split at hrelease
      · obtain ⟨c', hc', rfl⟩ := map_eq_some_iff.mp hrelease
        exact h.within fun hc => ⟨(ihc hc hc').1, (ihc hc hc').2⟩
      · split at hrelease
        · cases hrelease
        · obtain rfl := some.inj hrelease
          exact ⟨h.drop, addrBag_le_node _ _ _⟩
    · obtain ⟨s', hs', rfl⟩ := map_eq_some_iff.mp hrelease
      exact h.behind fun hs => ihs hs hs'

/-- The walk of `adjust_resource`: `lo` is the parent's start, or is behind the resource before. -/
theorem adjustWalk_ranged {prev : Option ResourceSize}
    (h : Ranged p lo hi t) (hle : start.toNat ≤ stop.toNat) (hhi : stop.toNat ≤ hi)
    (hlo : (∀ e, prev = some e → e.toNat < start.toNat) → lo ≤ start.toNat)
    (hadjust : adjustWalk res start stop prev t = some (some t')) :
    Ranged p lo hi t' ∧ addrBag t' = addrBag t := by
  induction t generalizing lo prev t' with
  | nil => cases hadjust
  | node tmp c s _ ihs =>
    obtain ⟨hparent, hlow, hrange, hhigh, hc, hs⟩ := h
    rw [adjustWalk] at hadjust
    split at hadjust
    · have hresult := some.inj hadjust
      split at hresult
      · rename_i hchecks
        obtain rfl := some.inj hresult
        rw [Bool.and_eq_true, Bool.and_eq_true] at hchecks
        obtain ⟨⟨hkids, hnext⟩, hprev⟩ := hchecks
        refine ⟨⟨hparent, hlo fun e he => ?_, hle, hhi, hc.rebound fun k hk => ?_, ?_⟩, rfl⟩
        · subst he
          have hlt : ¬ start ≤ e := by simpa using hprev
          exact Nat.not_le.mp hlt
        · have hk := all_eq_true.mp hkids k hk
          rw [Bool.not_eq_true', Bool.or_eq_false_iff, decide_eq_false_iff_not, decide_eq_false_iff_not] at hk
          exact ⟨Nat.not_lt.mp hk.1, Nat.not_lt.mp hk.2⟩
        · cases s with
          | nil => trivial
          | node r c' s' =>
            have hlt : ¬ r.start ≤ stop := by simpa [clearsNext] using hnext
            exact ⟨hs.1, Nat.not_le.mp hlt, hs.2.2⟩
      · cases hresult
    · obtain ⟨r, hr, hmap⟩ := map_eq_some_iff.mp hadjust
      obtain ⟨s', rfl, rfl⟩ := map_eq_some_iff.mp hmap
      obtain ⟨hranged, hbag⟩ := ihs hs (fun hprev => hprev _ rfl) hr
      refine ⟨⟨hparent, hlow, hrange, hhigh, hc, hranged⟩, ?_⟩
      rw [addrBag_node, addrBag_node, hbag]

theorem adjustResource_kept {size : ResourceSize}
    (h : RangedBelow parent t) (hfits : start ≤ start + size - 1#32)
    (hadjust : adjustResource parent res start size t = some (some t')) : KeptBelow parent 0 t t' := by
  rw [adjustResource] at hadjust
  split at hadjust
  · cases some.inj hadjust
  · rename_i hinside
    have hlow : ¬ start < parent.start := fun hlt => hinside (.inl hlt)
    have hhigh : ¬ start + size - 1#32 > parent.stop := fun hgt => hinside (.inr hgt)
    obtain ⟨hranged, hbag⟩ := adjustWalk_ranged h hfits (Nat.not_lt.mp hhigh)
      (fun _ => Nat.not_lt.mp hlow) hadjust
    exact ⟨hranged, by rw [hbag, zero_add]⟩

/-! ## A change somewhere in the tree -/

section Modify

variable {β : Type} {a : Nat} {f : Resource → Chain → β × Chain} {extra : Multiset Nat}

theorem modifyAt_ranged (hf : ∀ r c, RangedBelow r c → KeptBelow r extra c (f r c).2)
    {b : β × Chain} (h : Ranged p lo hi t) (hmodify : modifyAt a f t = some b) :
    Ranged p lo hi b.2 ∧ addrBag b.2 ≤ extra + addrBag t := by
  induction t generalizing p lo hi b with
  | nil => cases hmodify
  | node r c s ihc ihs =>
    rw [modifyAt] at hmodify
    split at hmodify
    · obtain rfl := some.inj hmodify
      exact h.within (hf r c)
    · split at hmodify
      · rename_i b' hb'
        obtain rfl := some.inj hmodify
        exact h.within fun hc => ⟨(ihc hc hb').1, (ihc hc hb').2⟩
      · obtain ⟨b', hb', rfl⟩ := map_eq_some_iff.mp hmodify
        exact h.behind fun hs => ihs hs hb'

theorem modifyAt_same {b : β × Chain} {x : β} (hf : ∀ r c, (f r c).1 = x → (f r c).2 = c)
    (hmodify : modifyAt a f t = some b) (hx : b.1 = x) : b.2 = t := by
  induction t generalizing b with
  | nil => cases hmodify
  | node r c s ihc ihs =>
    rw [modifyAt] at hmodify
    split at hmodify
    · obtain rfl := some.inj hmodify
      rw [hf r c hx]
    · split at hmodify
      · rename_i b' hb'
        obtain rfl := some.inj hmodify
        rw [ihc hb' hx]
      · obtain ⟨b', hb', rfl⟩ := map_eq_some_iff.mp hmodify
        rw [ihs hb' hx]

theorem modify_same {t : ResourceTree} {b : β × ResourceTree} (hf : ∀ r c, (f r c).1 = b.1 → (f r c).2 = c)
    (hmodify : t.modify a f = some b) : b.2 = t := by
  rw [ResourceTree.modify] at hmodify
  split at hmodify
  · obtain rfl := some.inj hmodify
    rw [hf t.root t.child rfl]
  · obtain ⟨b', hb', rfl⟩ := map_eq_some_iff.mp hmodify
    rw [modifyAt_same hf hb' rfl]

theorem modify_wellFormed {t : ResourceTree} {b : β × ResourceTree} (h : WellFormed t)
    (hf : ∀ r c, RangedBelow r c → KeptBelow r extra c (f r c).2)
    (hextra : ∀ x ∈ extra, x ∉ t.addrs) (hnodup : extra.Nodup) (hmodify : t.modify a f = some b) :
    WellFormed b.2 := by
  obtain ⟨hparent, hle, hranged, haddrs⟩ := wellFormed_iff.mp h
  -- the addresses after the change are those before it and the new ones
  have hnew : ∀ c', addrBag c' ≤ extra + addrBag t.child →
      ({ t with child := c' } : ResourceTree).addrs.Nodup := by
    intro c' hbag
    have hall : (extra + (t.addrs : Multiset Nat)).Nodup := by
      rw [nodup_add]
      exact ⟨hnodup, coe_nodup.mpr haddrs, disjoint_left.mpr fun hx hmem => hextra _ hx hmem⟩
    refine coe_nodup.mp (nodup_of_le ?_ hall)
    have hcons : ∀ c, (({ t with child := c } : ResourceTree).addrs : Multiset Nat) = t.root.addr ::ₘ addrBag c :=
      fun c => rfl
    rw [hcons c', show (t.addrs : Multiset Nat) = t.root.addr ::ₘ addrBag t.child from rfl, add_cons]
    exact cons_le_cons _ hbag
  rw [ResourceTree.modify] at hmodify
  split at hmodify
  · obtain rfl := some.inj hmodify
    obtain ⟨hranged', hbag⟩ := hf t.root t.child hranged
    exact wellFormed_iff.mpr ⟨hparent, hle, hranged', hnew _ hbag⟩
  · obtain ⟨b', hb', rfl⟩ := map_eq_some_iff.mp hmodify
    obtain ⟨hranged', hbag⟩ := modifyAt_ranged hf hranged hb'
    exact wellFormed_iff.mpr ⟨hparent, hle, hranged', hnew _ hbag⟩

end Modify

/-! ## Calls -/

theorem changeOr_kept {error : ResourceResult} {x : Option Chain}
    (hc : RangedBelow r c) (hx : ∀ c', x = some c' → KeptBelow r extra c c') :
    KeptBelow r extra c (changeOr error c x).2 := by
  cases x with
  | none => exact ⟨hc, le_add_left _ _⟩
  | some c' => exact hx c' rfl

theorem changeOr_same {error : ResourceResult} {x : Option Chain} (h : (changeOr error c x).1 ≠ .done) :
    (changeOr error c x).2 = c := by
  cases x with
  | none => rfl
  | some c' => exact absurd rfl h

theorem changeIfFound_kept (hc : RangedBelow r c) (hx : ∀ c', x = some (some c') → KeptBelow r extra c c') :
    KeptBelow r extra c (changeIfFound c x).2 := by
  cases x with
  | none => exact ⟨hc, le_add_left _ _⟩
  | some x => exact changeOr_kept hc fun c' hc' => hx c' (congrArg some hc')

theorem changeIfFound_same {result : ResourceResult}
    (h : (changeIfFound c x).1 = some result) (hresult : result ≠ .done) : (changeIfFound c x).2 = c := by
  cases x with
  | none => rfl
  | some x =>
    refine changeOr_same ?_
    rw [some.inj h]
    exact hresult

/-- A call of `adjust_resource` whose new range does not wrap around. -/
def AdjustFits : ResourceOp → Prop
  | .adjust _ start size => start ≤ start + size - 1#32
  | _ => True

/-- A call changes the children of one resource, and nothing unless it succeeds. If `ok`, it keeps them. -/
def Changes (ok : Prop) (t : ResourceTree) (result : ResourceResult) (t' : ResourceTree) : Prop :=
  ∃ (β : Type) (a : Nat) (f : Resource → Chain → β × Chain) (b : β) (extra : Multiset Nat),
    t.modify a f = some (b, t') ∧ (∀ x ∈ extra, x ∉ t.addrs) ∧ extra.Nodup ∧
    (ok → ∀ r c, Ranged r.addr r.start.toNat r.stop.toNat c → KeptBelow r extra c (f r c).2) ∧
    (result ≠ .done → ∀ r c, (f r c).1 = b → (f r c).2 = c)

section Change

variable {t t' : ResourceTree} {a : Nat} {error result : ResourceResult} {g : Resource → Chain → Option Chain}
  {ok : Prop} {op : ResourceOp}

theorem changes_changeOr (extra : Multiset Nat) (hextra : ∀ x ∈ extra, x ∉ t.addrs) (hnodup : extra.Nodup)
    (hstep : t.modify a (fun r c => changeOr error c (g r c)) = some (result, t'))
    (hg : ∀ r c c', RangedBelow r c → g r c = some c' → KeptBelow r extra c c') : Changes ok t result t' :=
  ⟨_, a, _, result, extra, hstep, hextra, hnodup, fun _ r c hc => changeOr_kept hc fun c' => hg r c c' hc,
    fun hresult _ _ hrc => changeOr_same (hrc.trans_ne hresult)⟩

theorem changes_new {new : Nat}
    (hstep : (if new ∈ t.addrs then none else t.modify a fun r c => changeOr error c (g r c)) = some (result, t'))
    (hg : ∀ r c c', RangedBelow r c → g r c = some c' → KeptBelow r {new} c c') : Changes ok t result t' := by
  split at hstep
  · cases hstep
  · rename_i hnot
    refine changes_changeOr {new} (fun x hx => ?_) (Multiset.nodup_singleton _) hstep hg
    rwa [Multiset.mem_singleton.mp hx]

theorem changes_old (hstep : t.modify a (fun r c => changeOr error c (g r c)) = some (result, t'))
    (hg : ∀ r c c', RangedBelow r c → g r c = some c' → RangedBelow r c' ∧ addrBag c' ≤ 0 + addrBag c) :
    Changes ok t result t' := by
  refine changes_changeOr 0 (fun x hx => absurd hx (notMem_zero x)) nodup_zero hstep ?_
  intro r c c' hc hgc
  obtain ⟨hranged, hbag⟩ := hg r c c' hc hgc
  exact ⟨hranged, hbag⟩

theorem resourceStep_changes (hstep : resourceStep t op = some (result, t')) :
    t' = t ∨ Changes (AdjustFits op) t result t' := by
  cases op with
  | request root new => exact .inr (changes_new hstep fun r c c' hc => requestResource_kept new hc)
  | release old =>
    obtain ⟨n, -, hstep⟩ := bind_eq_some_iff.mp hstep
    obtain ⟨parent, -, hstep⟩ := bind_eq_some_iff.mp hstep
    split at hstep
    · exact .inr (changes_old hstep fun r c c' hc => unlink_ranged hc)
    · cases hstep
  | allocate root new q => exact .inr (changes_new hstep fun r c c' hc => allocateResource_kept hc)
  | insert parent new => exact .inr (changes_new hstep fun r c c' hc => insertResource_kept hc)
  | adjust res start size =>
    obtain ⟨n, -, hstep⟩ := bind_eq_some_iff.mp hstep
    obtain ⟨parent, -, hstep⟩ := bind_eq_some_iff.mp hstep
    obtain ⟨p, hp, hstep⟩ := bind_eq_some_iff.mp hstep
    obtain ⟨r, hr, hpair⟩ := map_eq_some_iff.mp hstep
    cases hpair
    refine .inr ⟨_, parent, _, p.1, 0, hp, fun x hx => absurd hx (notMem_zero x), nodup_zero,
      fun hok r c hc => changeIfFound_kept hc fun c' => adjustResource_kept hc hok, fun hresult r c hrc => ?_⟩
    exact changeIfFound_same (hrc.trans hr) hresult
  | requestRegion parent kzalloc start n =>
    cases kzalloc with
    | none =>
      cases hstep
      exact .inl rfl
    | some addr => exact .inr (changes_new hstep fun r c c' hc => requestRegion_kept hc)
  | releaseRegion parent start n => exact .inr (changes_old hstep fun r c c' hc => releaseRegion_ranged hc)

theorem resourceStep_wellFormed (h : WellFormed t) (hok : AdjustFits op)
    (hstep : resourceStep t op = some (result, t')) : WellFormed t' := by
  rcases resourceStep_changes hstep with rfl | ⟨β, a, f, b, extra, hmodify, hextra, hnodup, hkept, -⟩
  · exact h
  · exact modify_wellFormed h (hkept hok) hextra hnodup hmodify

theorem resourceStep_same (hstep : resourceStep t op = some (result, t')) (hresult : result ≠ .done) : t' = t := by
  rcases resourceStep_changes hstep with rfl | ⟨β, a, f, b, extra, hmodify, -, -, -, hsame⟩
  · rfl
  · exact modify_same (hsame hresult) hmodify

end Change

/-! ## Runs -/

/-- **Every tree that is reached by calls is well formed, and a call that returns an error leaves the whole
tree unchanged,** as long as no call of `adjust_resource` asks for a range that wraps around. -/
theorem resource_tree_well_formed {t₀ t : ResourceTree} {ops : List ResourceOp} {results : List ResourceResult}
    (h : WellFormed t₀) (hok : ∀ op ∈ ops, AdjustFits op)
    (hrun : Runs.run resourceStep t₀ ops = some (results, t)) :
    WellFormed t ∧ ∀ op result t', resourceStep t op = some (result, t') → result ≠ .done → t' = t := by
  constructor
  · exact Runs.run_invariant (fun s op p hs hop hstep => resourceStep_wellFormed hs hop hstep) h hok hrun
  · intro op result t' hstep hresult
    exact resourceStep_same hstep hresult

/-- The addresses from 0 to 100, with nothing below them. -/
def ioports : ResourceTree := ⟨⟨0, 0, 100, false, none⟩, .nil⟩

def ioportCalls : List ResourceOp :=
  [.request 0 ⟨1, 10, 20, false, none⟩, .request 0 ⟨2, 30, 40, false, none⟩,
    .insert 0 ⟨3, 5, 60, false, none⟩, .adjust 2 25 20, .requestRegion 0 (some 4) 30 5,
    .request 3 ⟨5, 15, 16, false, none⟩]

/-- The hypotheses are met by a run that requests two ranges, inserts one over both, moves the second and
asks for a busy region in it. -/
theorem resource_tree_well_formed_ioports :
    ∃ t, Runs.run resourceStep ioports ioportCalls = some ([.done, .done, .done, .done, .done, .failed], t) ∧
        t.addrs = [0, 3, 1, 2, 4] ∧ WellFormed t := by
  have h : WellFormed ioports :=
    ⟨rfl, ⟨by decide, by decide, by decide, by decide⟩, nofun, by decide⟩
  have hok : ∀ op ∈ ioportCalls, AdjustFits op := by
    intro op hop
    simp only [ioportCalls, mem_cons, not_mem_nil, or_false] at hop
    rcases hop with rfl | rfl | rfl | rfl | rfl | rfl
    all_goals first | trivial | exact (by decide : (25#32 ≤ 25#32 + 20#32 - 1#32))
  have hrun : ∃ t, Runs.run resourceStep ioports ioportCalls =
      some ([.done, .done, .done, .done, .done, .failed], t) ∧ t.addrs = [0, 3, 1, 2, 4] := ⟨_, rfl, rfl⟩
  obtain ⟨t, hrun, haddrs⟩ := hrun
  exact ⟨t, hrun, haddrs, (resource_tree_well_formed h hok hrun).1⟩

/-- A resource without children that is adjusted to 10 with size 0 ends at 9. -/
theorem adjust_wraps :
    ∃ t, Runs.run resourceStep ioports [.request 0 ⟨1, 10, 20, false, none⟩, .adjust 1 10 0] =
        some ([.done, .done], t) ∧ t.child.kids.map (fun r => (r.start, r.stop)) = [(10, 9)] ∧ ¬ WellFormed t := by
  refine ⟨_, rfl, rfl, ?_⟩
  intro h
  have hle := (h.below _ mem_cons_self).start_le_stop
  exact absurd hle (by decide)

end Linux
