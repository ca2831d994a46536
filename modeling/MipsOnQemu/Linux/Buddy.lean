/-
# MipsOnQemu.Linux.Buddy -- the buddy allocator conserves the pages of a zone

The free lists and the blocks in use tile the pages of a zone (`ZoneTiling`); the flag and the order
word of a page say exactly of which free block it is the first page. Putting a block on its list and
taking it off move one block from one side of the tiling to the other, and splitting and joining
exchange a block for its halves. `__free_one_page` and `__rmqueue` are sequences of these four, so
what holds of each of them holds of the two functions in the middle of their loops too.
-/

import MipsOnQemu.Linux.Zone
import MipsOnQemu.Lib.Blocks
import MipsOnQemu.Lib.Runs

namespace Linux

open Blocks List Function Nat

/-! ## Counted zones -/

/-- The pages in free blocks of the orders below `k`. -/
def Zone.pagesBelow (z : Zone) (k : Nat) : Nat :=
  ∑ o ∈ Finset.range k, (z.freeArea o).nrFree * 2 ^ o

/-- **The counters of a zone are right.** -/
structure Zone.Counted (z : Zone) : Prop where
  nrFree : ∀ o < maxOrder, (z.freeArea o).nrFree = (z.freeArea o).freeList.length
  freePages : z.freePages = z.pagesBelow maxOrder

/-- There is a free block of at least an order. -/
def Zone.HasBlock (z : Zone) (order : Nat) : Prop :=
  ∃ o, order ≤ o ∧ o < maxOrder ∧ (z.freeArea o).freeList ≠ []

theorem Zone.pagesBelow_succ (z : Zone) (k : Nat) :
    z.pagesBelow (k + 1) = z.pagesBelow k + (z.freeArea k).nrFree * 2 ^ k :=
  Finset.sum_range_succ _ _

variable {k p id : Nat} {z : Zone}

theorem Zone.pagesBelow_mono (z : Zone) {k' : Nat} (h : k ≤ k') : z.pagesBelow k ≤ z.pagesBelow k' :=
  Finset.sum_le_sum_of_subset (Finset.range_mono h)

theorem Zone.two_pow_le_of_hasBlock (hz : z.Counted) {order : Nat}
    (h : z.HasBlock order) : z.pagesBelow order + 2 ^ order ≤ z.freePages := by
  obtain ⟨o, hle, hlt, hne⟩ := h
  have hone : 1 ≤ (z.freeArea o).nrFree := by
    rw [hz.nrFree o hlt]
    exact length_pos_iff.mpr hne
  have hpow : 2 ^ order ≤ 2 ^ o := Nat.pow_le_pow_right (by omega) hle
  calc z.pagesBelow order + 2 ^ order
      ≤ z.pagesBelow o + (z.freeArea o).nrFree * 2 ^ o := by
        apply Nat.add_le_add (z.pagesBelow_mono hle)
        exact hpow.trans (Nat.le_mul_of_pos_left _ hone)
    _ = z.pagesBelow (o + 1) := (z.pagesBelow_succ o).symm
    _ ≤ z.pagesBelow maxOrder := z.pagesBelow_mono hlt
    _ = z.freePages := hz.freePages.symm

/-- `__rmqueue` finds a block whenever there is one. -/
theorem rmqueue_isSome_iff (z : Zone) (order : Nat) :
    (rmqueue z order).1.isSome = true ↔ z.HasBlock order := by
  have hloop : ∀ rounds k, k + rounds = maxOrder → ((rmqueueFrom z order rounds k).1.isSome = true ↔
        ∃ o, k ≤ o ∧ o < maxOrder ∧ (z.freeArea o).freeList ≠ []) := by
    intro rounds
    induction rounds with
    | zero =>
      intro k hk
      exact iff_of_false Bool.false_ne_true fun ⟨o, hle, hlt, _⟩ => by omega
    | succ rounds ih =>
      intro k hk
      unfold rmqueueFrom
      cases hlist : (z.freeArea k).freeList with
      | nil =>
        rw [ih (k + 1) (by omega)]
        constructor
        · rintro ⟨o, hle, h⟩
          exact ⟨o, by omega, h⟩
        · rintro ⟨o, hle, hlt, hne⟩
          refine ⟨o, lt_of_le_of_ne hle fun heq => hne ?_, hlt, hne⟩
          rw [← heq, hlist]
      | cons page rest =>
        refine ⟨fun _ => ⟨k, le_rfl, by omega, ?_⟩, fun _ => rfl⟩
        rw [hlist]
        exact cons_ne_nil _ _
  unfold rmqueue Zone.HasBlock
  rcases Nat.lt_or_ge order maxOrder with hlt | hge
  · exact hloop _ _ (by omega)
  · rw [Nat.sub_eq_zero_of_le hge]
    exact iff_of_false Bool.false_ne_true fun ⟨o, hle, hlt, _⟩ => by omega

/-! ## Free blocks -/

def freeBlocks (z : Zone) : List Block :=
  (List.range maxOrder).flatMap fun k => (z.freeArea k).freeList.map fun p => ⟨p, k⟩

theorem mem_freeBlocks : (⟨p, k⟩ : Block) ∈ freeBlocks z ↔ k < maxOrder ∧ p ∈ (z.freeArea k).freeList := by
  unfold freeBlocks
  simp [Block.mk.injEq]

theorem flatMap_perm_cons {β : Type} {ks : List Nat} (hks : ks.Nodup) (hk : k ∈ ks)
    {f g : Nat → List β} {x : β} (hother : ∀ j, j ≠ k → g j = f j) (hat : (g k).Perm (x :: f k)) :
    (ks.flatMap g).Perm (x :: ks.flatMap f) := by
  induction ks with
  | nil => cases hk
  | cons j ks ih =>
    obtain ⟨hj, hks'⟩ := nodup_cons.mp hks
    rw [flatMap_cons, flatMap_cons]
    rcases mem_cons.mp hk with rfl | hmem
    · have hrest : ks.flatMap g = ks.flatMap f :=
        flatMap_congr fun i hi => hother i fun h => hj (h ▸ hi)
      rw [hrest]
      exact hat.append_right _
    · rw [hother j fun h => hj (h ▸ hmem)]
      exact ((ih hks' hmem).append_left _).trans perm_middle

theorem freeBlocks_addBlock (z : Zone) (hk : k < maxOrder) :
    (freeBlocks (z.addBlock p k)).Perm (⟨p, k⟩ :: freeBlocks z) := by
  refine flatMap_perm_cons nodup_range (mem_range.mpr hk) (fun j hj => ?_) ?_
  · show ((update z.freeArea k _ j).freeList.map _) = _
    rw [update_of_ne hj]
  · show ((update z.freeArea k _ k).freeList.map _).Perm _
    rw [update_self]
    exact List.Perm.refl _

theorem freeBlocks_delBlock (z : Zone) (hk : k < maxOrder) (hp : p ∈ (z.freeArea k).freeList) :
    (freeBlocks z).Perm (⟨p, k⟩ :: freeBlocks (z.delBlock p k)) := by
  refine flatMap_perm_cons nodup_range (mem_range.mpr hk) (fun j hj => ?_) ?_
  · show _ = ((update z.freeArea k _ j).freeList.map _)
    rw [update_of_ne hj]
  · show List.Perm _ (_ :: (update z.freeArea k _ k).freeList.map _)
    rw [update_self]
    exact (perm_cons_erase hp).map _

/-! ## Tilings of a zone -/

/-- **What holds of a zone at every moment:** the free blocks and those in use tile its pages, and
the flags, order words and counters are those of the free lists. -/
structure ZoneTiling (z : Zone) (used : List Block) (pages : Finset Nat) (id : Nat) : Prop where
  tiles : Tiles (freeBlocks z ++ used) pages
  aligned : ∀ b ∈ freeBlocks z ++ used, b.Aligned
  small : ∀ b ∈ used, b.order < maxOrder
  zone : ∀ p ∈ pages, z.zoneId p = id
  marked : ∀ k < maxOrder, ∀ p ∈ (z.freeArea k).freeList, z.page p = ⟨true, k⟩
  listed : ∀ p, z.zoneId p = id → (z.page p).buddy = true →
    (z.page p).order < maxOrder ∧ p ∈ (z.freeArea (z.page p).order).freeList
  nrFree : ∀ k < maxOrder, (z.freeArea k).nrFree = (z.freeArea k).freeList.length

/-- No two free blocks could be joined. -/
def Coalesced (z : Zone) : Prop :=
  ∀ k < maxOrder - 1, ∀ p ∈ (z.freeArea k).freeList, p ^^^ 2 ^ k ∉ (z.freeArea k).freeList

section Moves

variable {z : Zone} {used used' : List Block} {pages : Finset Nat} {id p k : Nat}

theorem ZoneTiling.exchange (l l' : List Block) (h : ZoneTiling z (l ++ used) pages id)
    (hp : (l.flatMap Block.pages).Perm (l'.flatMap Block.pages)) (ha : ∀ b ∈ l', b.Aligned)
    (hs : ∀ b ∈ l', b.order < maxOrder) : ZoneTiling z (l' ++ used) pages id := by
  refine ⟨?_, ?_, ?_, h.zone, h.marked, h.listed, h.nrFree⟩
  · exact ((h.tiles.perm (perm_append_comm_assoc ..)).exchange hp).perm (perm_append_comm_assoc ..)
  · obtain ⟨hfree, hrest⟩ := forall_mem_append.mp h.aligned
    exact forall_mem_append.mpr ⟨hfree, forall_mem_append.mpr ⟨ha, (forall_mem_append.mp hrest).2⟩⟩
  · exact forall_mem_append.mpr ⟨hs, (forall_mem_append.mp h.small).2⟩

theorem ZoneTiling.perm (h : ZoneTiling z used pages id) (hp : used.Perm used') :
    ZoneTiling z used' pages id :=
  ⟨h.tiles.perm (hp.append_left _), fun b hb => h.aligned b ((hp.append_left _).symm.subset hb),
    fun b hb => h.small b (hp.symm.subset hb), h.zone, h.marked, h.listed, h.nrFree⟩

theorem ZoneTiling.not_listed (h : ZoneTiling z (⟨p, k⟩ :: used) pages id) {j : Nat}
    (hj : j < maxOrder) : p ∉ (z.freeArea j).freeList := by
  intro hmem
  have htiles := h.tiles.perm (perm_middle)
  have hfree : (⟨p, j⟩ : Block) ∈ freeBlocks z ++ used :=
    mem_append_left _ (mem_freeBlocks.mpr ⟨hj, hmem⟩)
  exact htiles.not_mem hfree (start_mem_pages _) (start_mem_pages _)

theorem mem_of_mem_delBlock {j q : Nat} (hq : q ∈ ((z.delBlock p k).freeArea j).freeList) :
    q ∈ (z.freeArea j).freeList := by
  change q ∈ (update z.freeArea k _ j).freeList at hq
  by_cases hj : j = k
  · subst hj
    rw [update_self] at hq
    exact mem_of_mem_erase hq
  · rwa [update_of_ne hj] at hq

theorem mem_delBlock_of_ne {j q : Nat} (hne : q ≠ p) (hq : q ∈ (z.freeArea j).freeList) :
    q ∈ ((z.delBlock p k).freeArea j).freeList := by
  show q ∈ (update z.freeArea k _ j).freeList
  by_cases hj : j = k
  · subst hj
    rw [update_self]
    exact (mem_erase_of_ne hne).mpr hq
  · rwa [update_of_ne hj]

theorem mem_addBlock {j q : Nat} :
    q ∈ ((z.addBlock p k).freeArea j).freeList ↔ (j = k ∧ q = p) ∨ q ∈ (z.freeArea j).freeList := by
  show q ∈ (update z.freeArea k _ j).freeList ↔ _
  by_cases hj : j = k
  · subst hj
    simp
  · simp [hj]

theorem ZoneTiling.delBlock (h : ZoneTiling z used pages id) (hk : k < maxOrder)
    (hp : p ∈ (z.freeArea k).freeList) : ZoneTiling (z.delBlock p k) (⟨p, k⟩ :: used) pages id := by
  have hperm := freeBlocks_delBlock z hk hp
  have hmove : (freeBlocks z ++ used).Perm (freeBlocks (z.delBlock p k) ++ ⟨p, k⟩ :: used) :=
    (hperm.append_right used).trans perm_middle.symm
  have htiles := h.tiles.perm hmove
  have hpage : ∀ q, q ≠ p → (z.delBlock p k).page q = z.page q :=
    fun q hq => update_of_ne hq _ _
  -- its first page is the first page of no other free block
  have hnot : ∀ j < maxOrder, p ∉ ((z.delBlock p k).freeArea j).freeList := by
    intro j hj hmem
    refine (htiles.perm perm_middle).not_mem (c := ⟨p, j⟩) ?_ (start_mem_pages _)
      (start_mem_pages _)
    exact mem_append_left _ (mem_freeBlocks.mpr ⟨hj, hmem⟩)
  refine ⟨htiles, fun b hb => h.aligned b (hmove.symm.subset hb), forall_mem_cons.mpr ⟨hk, h.small⟩,
    h.zone, ?_, ?_, ?_⟩
  · intro j hj q hq
    have hne : q ≠ p := fun heq => hnot j hj (heq ▸ hq)
    rw [hpage q hne]
    exact h.marked j hj q (mem_of_mem_delBlock hq)
  · intro q hid hbuddy
    have hne : q ≠ p := by
      rintro rfl
      rw [show (z.delBlock q k).page q = ⟨false, 0⟩ from update_self ..] at hbuddy
      cases hbuddy
    rw [hpage q hne] at hbuddy ⊢
    exact (h.listed q hid hbuddy).imp_right (mem_delBlock_of_ne hne)
  · refine (forall_update_iff z.freeArea fun j area => j < maxOrder → area.nrFree = area.freeList.length).mpr
      ⟨fun _ => ?_, fun j _ => h.nrFree j⟩
    show (z.freeArea k).nrFree - 1 = _
    rw [h.nrFree k hk, length_erase_of_mem hp]

theorem ZoneTiling.addBlock (h : ZoneTiling z (⟨p, k⟩ :: used) pages id) :
    ZoneTiling (z.addBlock p k) used pages id := by
  have hk : k < maxOrder := h.small ⟨p, k⟩ mem_cons_self
  have hmove : (freeBlocks z ++ ⟨p, k⟩ :: used).Perm (freeBlocks (z.addBlock p k) ++ used) :=
    perm_middle.trans ((freeBlocks_addBlock z hk).symm.append_right used)
  have hpage : ∀ q, q ≠ p → (z.addBlock p k).page q = z.page q :=
    fun q hq => update_of_ne hq _ _
  have hself : (z.addBlock p k).page p = ⟨true, k⟩ := update_self ..
  refine ⟨h.tiles.perm hmove, fun b hb => h.aligned b (hmove.symm.subset hb),
    fun b hb => h.small b (mem_cons_of_mem _ hb), h.zone, ?_, ?_, ?_⟩
  · intro j hj q hq
    rcases mem_addBlock.mp hq with ⟨rfl, rfl⟩ | hq
    · exact hself
    · rw [hpage q fun heq => h.not_listed hj (heq ▸ hq)]
      exact h.marked j hj q hq
  · intro q hid hbuddy
    by_cases hq : q = p
    · rw [hq, hself]
      exact ⟨hk, mem_addBlock.mpr (.inl ⟨rfl, rfl⟩)⟩
    · rw [hpage q hq] at hbuddy ⊢
      exact (h.listed q hid hbuddy).imp_right fun hmem => mem_addBlock.mpr (.inr hmem)
  · refine (forall_update_iff z.freeArea fun j area => j < maxOrder → area.nrFree = area.freeList.length).mpr
      ⟨fun _ => ?_, fun j _ => h.nrFree j⟩
    show (z.freeArea k).nrFree + 1 = _
    rw [h.nrFree k hk, length_cons]

theorem Coalesced.delBlock (h : Coalesced z) : Coalesced (z.delBlock p k) :=
  fun j hj q hq hbuddy => h j hj q (mem_of_mem_delBlock hq) (mem_of_mem_delBlock hbuddy)

theorem Coalesced.addBlock (h : Coalesced z)
    (hbuddy : k < maxOrder - 1 → p ^^^ 2 ^ k ∉ (z.freeArea k).freeList) : Coalesced (z.addBlock p k) := by
  intro j hj q hq hfree
  rcases mem_addBlock.mp hq with ⟨rfl, rfl⟩ | hold
  · rcases mem_addBlock.mp hfree with ⟨-, heq⟩ | hmem
    · simp at heq
    · exact hbuddy hj hmem
  · rcases mem_addBlock.mp hfree with ⟨rfl, heq⟩ | hmem
    · apply hbuddy hj
      rw [← heq, xor_xor_cancel_right]
      exact hold
    · exact h j hj q hold hmem

theorem ZoneTiling.join (h : ZoneTiling z (⟨p ^^^ 2 ^ k, k⟩ :: ⟨p, k⟩ :: used) pages id)
    (hk : k + 1 < maxOrder) : ZoneTiling z (⟨ldiff p (2 ^ k), k + 1⟩ :: used) pages id := by
  have hmem : (⟨p, k⟩ : Block) ∈ freeBlocks z ++ (⟨p ^^^ 2 ^ k, k⟩ :: ⟨p, k⟩ :: used) :=
    mem_append_right _ (mem_cons_of_mem _ mem_cons_self)
  obtain ⟨haligned, hpages⟩ := pages_buddy (h.aligned _ hmem)
  refine ZoneTiling.exchange [⟨p ^^^ 2 ^ k, k⟩, ⟨p, k⟩] [⟨ldiff p (2 ^ k), k + 1⟩] h ?_ ?_ ?_
  · rw [flatMap_cons, flatMap_singleton, flatMap_singleton]
    exact perm_append_comm.trans hpages.symm
  · exact forall_mem_singleton.mpr haligned
  · exact forall_mem_singleton.mpr hk

theorem ZoneTiling.split (h : ZoneTiling z (⟨p, k + 1⟩ :: used) pages id) :
    ZoneTiling z (⟨p + 2 ^ k, k⟩ :: ⟨p, k⟩ :: used) pages id := by
  have hmem : (⟨p, k + 1⟩ : Block) ∈ freeBlocks z ++ (⟨p, k + 1⟩ :: used) :=
    mem_append_right _ mem_cons_self
  have hk : k + 1 < maxOrder := h.small ⟨p, k + 1⟩ mem_cons_self
  obtain ⟨hleft, hright, -⟩ := aligned_right (h.aligned _ hmem)
  refine ZoneTiling.exchange [⟨p, k + 1⟩] [⟨p + 2 ^ k, k⟩, ⟨p, k⟩] h ?_ ?_ ?_
  · rw [flatMap_singleton, flatMap_cons, flatMap_singleton, pages_succ]
    exact perm_append_comm
  · exact forall_mem_cons.mpr ⟨hright, forall_mem_singleton.mpr hleft⟩
  · exact forall_mem_cons.mpr ⟨lt_of_succ_lt hk, forall_mem_singleton.mpr (lt_of_succ_lt hk)⟩

end Moves

/-! ## Freeing -/

section Free

variable {z : Zone} {used : List Block} {pages : Finset Nat} {id p k : Nat}

theorem pageFindBuddy_eq (hk : k < maxOrder) : pageFindBuddy p (p % 2 ^ maxOrder) k = p ^^^ 2 ^ k := by
  have hpow : 2 ^ k < 2 ^ maxOrder := Nat.pow_lt_pow_right (by omega) hk
  have hlow := Nat.mod_lt p (Nat.two_pow_pos maxOrder)
  have hxor : p ^^^ 2 ^ k = 2 ^ maxOrder * (p / 2 ^ maxOrder) + ((p % 2 ^ maxOrder) ^^^ 2 ^ k) := by
    rw [← div_add_mod (p ^^^ 2 ^ k) (2 ^ maxOrder), xor_div_two_pow, xor_mod_two_pow,
      div_eq_of_lt hpow, xor_zero, mod_eq_of_lt hpow]
  have hsplit := div_add_mod p (2 ^ maxOrder)
  show p + ((p % 2 ^ maxOrder) ^^^ 1 <<< k) - p % 2 ^ maxOrder = p ^^^ 2 ^ k
  rw [one_shiftLeft, hxor]
  omega

theorem findCombinedIndex_eq (hk : k < maxOrder) :
    p + findCombinedIndex (p % 2 ^ maxOrder) k - p % 2 ^ maxOrder = ldiff p (2 ^ k) ∧
      findCombinedIndex (p % 2 ^ maxOrder) k = ldiff p (2 ^ k) % 2 ^ maxOrder := by
  have hmod : ldiff p (2 ^ k) % 2 ^ maxOrder = ldiff (p % 2 ^ maxOrder) (2 ^ k) := by
    refine eq_of_testBit_eq fun i => ?_
    rw [testBit_mod_two_pow, testBit_ldiff, testBit_ldiff, testBit_mod_two_pow, Bool.and_assoc]
  have hdiv : ldiff p (2 ^ k) / 2 ^ maxOrder = p / 2 ^ maxOrder := by
    refine eq_of_testBit_eq fun i => ?_
    have hne : k ≠ i + maxOrder := by omega
    rw [testBit_div_two_pow, testBit_ldiff, testBit_div_two_pow, testBit_two_pow,
      decide_eq_false hne, Bool.not_false, Bool.and_true]
  have hsplit := div_add_mod p (2 ^ maxOrder)
  have hsplit' := div_add_mod (ldiff p (2 ^ k)) (2 ^ maxOrder)
  rw [hdiv, hmod] at hsplit'
  unfold findCombinedIndex
  rw [one_shiftLeft, hmod]
  refine ⟨?_, rfl⟩
  omega

/-- The flag and the order word of the buddy tell whether it is a free block of the order. -/
theorem ZoneTiling.pageIsBuddy_iff (h : ZoneTiling z (⟨p, k⟩ :: used) pages id) :
    pageIsBuddy z p (p ^^^ 2 ^ k) k = true ↔ p ^^^ 2 ^ k ∈ (z.freeArea k).freeList := by
  have hk : k < maxOrder := h.small ⟨p, k⟩ mem_cons_self
  have hpage : z.zoneId p = id := by
    apply h.zone
    rw [h.tiles.mem_iff]
    exact ⟨⟨p, k⟩, mem_append_right _ mem_cons_self, start_mem_pages _⟩
  unfold pageIsBuddy
  constructor
  · intro hbuddy
    split at hbuddy
    · cases hbuddy
    · rename_i hid
      rw [Bool.and_eq_true, beq_iff_eq] at hbuddy
      rw [Ne, not_not, hpage] at hid
      obtain ⟨-, hmem⟩ := h.listed _ hid.symm hbuddy.1
      rwa [hbuddy.2] at hmem
  · intro hmem
    have hid : z.zoneId (p ^^^ 2 ^ k) = id := by
      apply h.zone
      rw [h.tiles.mem_iff]
      exact ⟨⟨p ^^^ 2 ^ k, k⟩, mem_append_left _ (mem_freeBlocks.mpr ⟨hk, hmem⟩), start_mem_pages _⟩
    rw [if_neg (not_not.mpr (hpage.trans hid.symm)), h.marked k hk _ hmem]
    simp

/-- **The loop of `__free_one_page`.** The block that is being freed counts as used until it is put on
a list; in every round it is joined with its buddy. -/
theorem coalesce_spec (rounds : Nat) (hrounds : k + rounds = maxOrder - 1)
    (h : ZoneTiling z (⟨p, k⟩ :: used) pages id) (hc : Coalesced z) :
    ZoneTiling (coalesce rounds z p (p % 2 ^ maxOrder) k) used pages id ∧
      Coalesced (coalesce rounds z p (p % 2 ^ maxOrder) k) ∧
      (coalesce rounds z p (p % 2 ^ maxOrder) k).freePages = z.freePages := by
  induction rounds generalizing z p k with
  | zero =>
    refine ⟨h.addBlock, hc.addBlock fun hlt => ?_, rfl⟩
    omega
  | succ rounds ih =>
    have hk : k + 1 < maxOrder := by
      unfold maxOrder at hrounds ⊢
      omega
    simp only [coalesce, pageFindBuddy_eq (lt_of_succ_lt hk)]
    by_cases hfree : pageIsBuddy z p (p ^^^ 2 ^ k) k = true
    · rw [if_pos hfree]
      have hmem := h.pageIsBuddy_iff.mp hfree
      obtain ⟨hcombined, hindex⟩ := findCombinedIndex_eq (p := p) (lt_of_succ_lt hk)
      rw [hcombined, hindex]
      have hjoined := (h.delBlock (lt_of_succ_lt hk) hmem).join hk
      obtain ⟨htiling, hcoalesced, hpages⟩ := ih (by omega) hjoined hc.delBlock
      exact ⟨htiling, hcoalesced, hpages⟩
    · rw [if_neg hfree]
      refine ⟨h.addBlock, hc.addBlock fun _ hmem => ?_, rfl⟩
      exact hfree (h.pageIsBuddy_iff.mpr hmem)

theorem freeOnePage_spec (h : ZoneTiling z (⟨p, k⟩ :: used) pages id) (hc : Coalesced z) :
    ZoneTiling (freeOnePage z p k) used pages id ∧ Coalesced (freeOnePage z p k) ∧
      (freeOnePage z p k).freePages = z.freePages + 2 ^ k := by
  have hk : k < maxOrder := h.small ⟨p, k⟩ mem_cons_self
  have hindex : p &&& ((1 <<< maxOrder) - 1) = p % 2 ^ maxOrder := by
    rw [one_shiftLeft, and_two_pow_sub_one_eq_mod]
  unfold freeOnePage
  rw [hindex, one_shiftLeft]
  refine coalesce_spec _ (by omega) ?_ hc
  exact ⟨h.tiles, h.aligned, h.small, h.zone, h.marked, h.listed, h.nrFree⟩

end Free

/-! ## Allocation -/

section Alloc

variable {z : Zone} {used : List Block} {pages : Finset Nat} {id p : Nat}

/-- **`expand`:** the right halves are put on the lists, the block that is left stays in use. -/
theorem expand_spec (low rounds : Nat) (h : ZoneTiling z (⟨p, low + rounds⟩ :: used) pages id)
    (hc : Coalesced z) : ZoneTiling (expand z p low rounds) (⟨p, low⟩ :: used) pages id ∧
      Coalesced (expand z p low rounds) ∧ (expand z p low rounds).freePages = z.freePages := by
  induction rounds generalizing z with
  | zero => exact ⟨h, hc, rfl⟩
  | succ rounds ih =>
    have hmem : (⟨p, low + rounds + 1⟩ : Block) ∈ freeBlocks z ++ (⟨p, low + rounds + 1⟩ :: used) :=
      mem_append_right _ mem_cons_self
    obtain ⟨-, -, hxor⟩ := aligned_right (h.aligned _ hmem)
    have hsplit : ZoneTiling z (⟨p + 2 ^ (low + rounds), low + rounds⟩ :: ⟨p, low + rounds⟩ :: used)
        pages id := h.split
    -- the buddy of the right half is in use
    have hbuddy : p ∉ (z.freeArea (low + rounds)).freeList :=
      (hsplit.perm (List.Perm.swap _ _ _)).not_listed (hsplit.small _ mem_cons_self)
    show ZoneTiling (expand (z.addBlock (p + 1 <<< (low + rounds)) (low + rounds)) p low rounds) _ _ _ ∧ _
    rw [expand, one_shiftLeft]
    apply ih hsplit.addBlock
    apply hc.addBlock
    intro _
    rw [hxor]
    exact hbuddy

/-- What `__rmqueue` returns and does. -/
def RmqueueSpec (z : Zone) (used : List Block) (pages : Finset Nat) (id order : Nat)
    (r : Option Nat × Zone) : Prop :=
  (r.1 = none ∧ r.2 = z) ∨ ∃ page, r.1 = some page ∧
    ZoneTiling r.2 (⟨page, order⟩ :: used) pages id ∧ Coalesced r.2 ∧
    r.2.freePages = z.freePages - 2 ^ order

/-- **`__rmqueue`:** a page that is returned starts a block that was free, and now is in use. -/
theorem rmqueue_spec (order : Nat) (h : ZoneTiling z used pages id) (hc : Coalesced z) :
    RmqueueSpec z used pages id order (rmqueue z order) := by
  have hloop : ∀ rounds k, k + rounds = maxOrder → order ≤ k →
      RmqueueSpec z used pages id order (rmqueueFrom z order rounds k) := by
    intro rounds
    induction rounds with
    | zero => exact fun k _ _ => .inl ⟨rfl, rfl⟩
    | succ rounds ih =>
      intro k hk hle
      rw [rmqueueFrom]
      cases hlist : (z.freeArea k).freeList with
      | nil => exact ih (k + 1) (by omega) (by omega)
      | cons page rest =>
        have hmem : page ∈ (z.freeArea k).freeList := by
          rw [hlist]
          exact mem_cons_self
        have hdel := h.delBlock (by omega) hmem
        have hcount : ZoneTiling { z.delBlock page k with
            freePages := (z.delBlock page k).freePages - 1 <<< order }
            (⟨page, order + (k - order)⟩ :: used) pages id := by
          rw [Nat.add_sub_cancel' hle]
          exact ⟨hdel.tiles, hdel.aligned, hdel.small, hdel.zone, hdel.marked, hdel.listed, hdel.nrFree⟩
        obtain ⟨htiling, hcoalesced, hpages⟩ :=
          expand_spec order (k - order) hcount (hc.delBlock (p := page) (k := k))
        refine .inr ⟨page, rfl, htiling, hcoalesced, hpages.trans ?_⟩
        show z.freePages - 1 <<< order = _
        rw [one_shiftLeft]
  unfold rmqueue
  rcases Nat.lt_or_ge order maxOrder with hlt | hge
  · exact hloop _ _ (by omega) le_rfl
  · rw [Nat.sub_eq_zero_of_le hge]
    exact .inl ⟨rfl, rfl⟩

end Alloc

/-! ## Runs -/

/-- A zone between two operations: `free_pages` is what the blocks in use leave. -/
structure ZoneInv (z : Zone) (used : List Block) (pages : Finset Nat) (id : Nat) : Prop where
  tiling : ZoneTiling z used pages id
  coalesced : Coalesced z
  freePages : z.freePages + (used.map fun b => 2 ^ b.order).sum = pages.card

section Inv

variable {z : Zone} {used : List Block} {pages : Finset Nat} {id p k : Nat}

theorem ZoneTiling.pagesBelow (h : ZoneTiling z used pages id) :
    z.pagesBelow maxOrder = ((freeBlocks z).map fun b => 2 ^ b.order).sum := by
  have hsum : ∀ n ≤ maxOrder, z.pagesBelow n = (((range n).flatMap fun k =>
      (z.freeArea k).freeList.map fun p => (⟨p, k⟩ : Block)).map fun b => 2 ^ b.order).sum := by
    intro n hn
    induction n with
    | zero => rfl
    | succ n ih =>
      rw [z.pagesBelow_succ, ih (by omega), range_succ, flatMap_append, map_append,
        List.sum_append, flatMap_singleton, map_map, h.nrFree n hn]
      congr 1
      show _ = ((z.freeArea n).freeList.map fun _ => 2 ^ n).sum
      rw [map_const', sum_replicate, smul_eq_mul]
  exact hsum maxOrder le_rfl

theorem ZoneInv.counted (h : ZoneInv z used pages id) : z.Counted := by
  refine ⟨h.tiling.nrFree, ?_⟩
  have hcard := h.tiling.tiles.card
  rw [map_append, List.sum_append] at hcard
  have hpages := h.freePages
  rw [h.tiling.pagesBelow]
  omega

theorem ZoneInv.free (h : ZoneInv z (⟨p, k⟩ :: used) pages id) :
    ZoneInv (freeOnePage z p k) used pages id := by
  obtain ⟨htiling, hcoalesced, hpages⟩ := freeOnePage_spec h.tiling h.coalesced
  refine ⟨htiling, hcoalesced, ?_⟩
  have hold := h.freePages
  simp only [map_cons, sum_cons] at hold
  rw [hpages]
  omega

theorem ZoneInv.perm {used' : List Block} (h : ZoneInv z used pages id) (hp : used.Perm used') :
    ZoneInv z used' pages id :=
  ⟨h.tiling.perm hp, h.coalesced, by rw [← (hp.map _).sum_eq]; exact h.freePages⟩

end Inv

inductive ZoneOp where
  | rmqueue (order : Nat)
  | free (page order : Nat)

def ZoneOp.exec (s : Zone × List Block) : ZoneOp → Option (Option Nat × Zone × List Block)
  | .rmqueue order =>
    let r := Linux.rmqueue s.1 order
    some (r.1, r.2, (r.1.map fun page => ⟨page, order⟩).toList ++ s.2)
  | .free page order => some (none, freeOnePage s.1 page order, s.2.erase ⟨page, order⟩)

/-- A block is freed that was handed out with that order. -/
def ZoneOp.Legal (s : Zone × List Block) : ZoneOp → Prop
  | .rmqueue _ => True
  | .free page order => (⟨page, order⟩ : Block) ∈ s.2

/-- A zone without free blocks, before any of its pages is given to it. -/
structure Zone.Fresh (z : Zone) (id : Nat) : Prop where
  freeArea : ∀ k < maxOrder, z.freeArea k = ⟨[], 0⟩
  freePages : z.freePages = 0
  page : ∀ p, z.zoneId p = id → (z.page p).buddy = false

/-- The blocks that are free initially are given to the zone one after another. -/
def populate (z : Zone) (blocks : List Block) : Zone :=
  blocks.foldl (fun z b => freeOnePage z b.start b.order) z

/-- Blocks that a zone can be given. -/
structure Initial (z : Zone) (blocks : List Block) (id : Nat) : Prop where
  disjoint : blocks.Pairwise fun a b => List.Disjoint a.pages b.pages
  aligned : ∀ b ∈ blocks, b.Aligned
  small : ∀ b ∈ blocks, b.order < maxOrder
  zone : ∀ b ∈ blocks, ∀ p ∈ b.pages, z.zoneId p = id

/-- **What a zone is to be at every moment.** -/
structure ZoneOk (z : Zone) (used blocks : List Block) : Prop where
  disjoint : (freeBlocks z ++ used).Pairwise fun a b => List.Disjoint a.pages b.pages
  cover : ∀ x, (∃ b ∈ freeBlocks z ++ used, x ∈ b.pages) ↔ ∃ b ∈ blocks, x ∈ b.pages
  aligned : ∀ b ∈ freeBlocks z ++ used, b.Aligned
  counted : z.Counted
  coalesced : Coalesced z
  exhausted : ∀ order, (rmqueue z order).1 = none → ¬ z.HasBlock order

theorem Initial.zoneInv {blocks : List Block} (hz : z.Fresh id) (h : Initial z blocks id) :
    ZoneInv z blocks (blocks.flatMap Block.pages).toFinset id := by
  have hnone : freeBlocks z = [] := by
    refine flatMap_eq_nil_iff.mpr fun k hk => ?_
    rw [hz.freeArea k (mem_range.mp hk)]
    rfl
  have htiles := tiles_of_pairwise h.disjoint
  refine ⟨⟨?_, ?_, h.small, ?_, ?_, ?_, ?_⟩, ?_, ?_⟩
  · rw [hnone]
    exact htiles
  · rw [hnone]
    exact h.aligned
  · intro p hp
    obtain ⟨b, hb, hpb⟩ := htiles.mem_iff.mp hp
    exact h.zone b hb p hpb
  · intro k hk p hp
    rw [hz.freeArea k hk] at hp
    cases hp
  · intro p hid hbuddy
    rw [hz.page p hid] at hbuddy
    cases hbuddy
  · intro k hk
    rw [hz.freeArea k hk]
    rfl
  · intro k hk p hp
    rw [hz.freeArea k (by omega)] at hp
    cases hp
  · rw [hz.freePages, Nat.zero_add]
    exact htiles.card

theorem ZoneInv.populate {blocks used : List Block} {pages : Finset Nat}
    (h : ZoneInv z (blocks ++ used) pages id) : ZoneInv (populate z blocks) used pages id := by
  induction blocks generalizing z with
  | nil => exact h
  | cons b blocks ih => exact ih h.free

theorem ZoneOp.exec_spec {pages : Finset Nat} (s : Zone × List Block) (op : ZoneOp)
    (h : ZoneInv s.1 s.2 pages id) (hop : op.Legal s) :
    ∃ r s', op.exec s = some (r, s') ∧ ZoneInv s'.1 s'.2 pages id := by
  cases op with
  | free page order =>
    refine ⟨none, (freeOnePage s.1 page order, s.2.erase ⟨page, order⟩), rfl, ?_⟩
    exact (h.perm (perm_cons_erase hop)).free
  | rmqueue order =>
    refine ⟨_, _, rfl, ?_⟩
    rcases rmqueue_spec order h.tiling h.coalesced with
      ⟨hnone, hsame⟩ | ⟨page, hpage, htiling, hcoalesced, hpages⟩
    · show ZoneInv (Linux.rmqueue s.1 order).2
        (((Linux.rmqueue s.1 order).1.map fun page => (⟨page, order⟩ : Block)).toList ++ s.2) pages id
      rw [hnone, hsame]
      exact h
    · show ZoneInv (Linux.rmqueue s.1 order).2
        (((Linux.rmqueue s.1 order).1.map fun page => (⟨page, order⟩ : Block)).toList ++ s.2) pages id
      rw [hpage]
      refine ⟨htiling, hcoalesced, ?_⟩
      -- the block that is handed out was among the free pages
      have hcard := htiling.tiles.card
      have hold := h.freePages
      have hblock : 2 ^ order + (s.2.map fun b => 2 ^ b.order).sum ≤ pages.card := by
        simp only [map_append, List.sum_append, map_cons, sum_cons] at hcard
        omega
      show (Linux.rmqueue s.1 order).2.freePages +
        ((⟨page, order⟩ :: s.2).map fun b => 2 ^ b.order).sum = pages.card
      simp only [hpages, map_cons, sum_cons]
      omega

/-- **The buddy allocator conserves memory and coalesces fully**, in every run from any blocks. -/
theorem buddy_conserves {z : Zone} {blocks : List Block} {id : Nat} (hz : z.Fresh id)
    (hblocks : Initial z blocks id) (ops : List ZoneOp)
    (hops : Runs.Along ZoneOp.exec ZoneOp.Legal (populate z blocks, []) ops) :
    ∃ results s, Runs.run ZoneOp.exec (populate z blocks, []) ops = some (results, s) ∧
      ZoneOk s.1 s.2 blocks := by
  have hinit := hblocks.zoneInv hz
  have hstart : ZoneInv (populate z blocks) [] (blocks.flatMap Block.pages).toFinset id := by
    apply ZoneInv.populate
    rw [append_nil]
    exact hinit
  obtain ⟨results, s, -, hrun, -, h⟩ := Runs.run_refines (S := fun (_ : Unit) _ _ _ => True)
    (R := fun s _ => ZoneInv s.1 s.2 (blocks.flatMap Block.pages).toFinset id)
    (fun s _ op h hop => by
      obtain ⟨r, s', hr, h'⟩ := ZoneOp.exec_spec s op h hop
      exact ⟨r, s', (), hr, trivial, h'⟩) (s := (populate z blocks, [])) (t := ()) hstart hops
  refine ⟨results, s, hrun, h.tiling.tiles.pairwise, fun x => ?_, h.tiling.aligned, h.counted,
    h.coalesced, fun order hnone hblock => ?_⟩
  · rw [← h.tiling.tiles.mem_iff, mem_toFinset, mem_flatMap]
  · have hsome := (rmqueue_isSome_iff s.1 order).mpr hblock
    rw [hnone] at hsome
    cases hsome

def freshZone : Zone where
  freePages := 0
  freeArea := fun _ => ⟨[], 0⟩
  lowmemReserve := fun _ => 0#32
  page := fun _ => ⟨false, 0⟩
  zoneId := fun _ => 0

/-- A page is taken from a block of two, and given back. -/
theorem buddy_conserves_sample : ∃ results s, Runs.run ZoneOp.exec (populate freshZone [⟨0, 1⟩], [])
        [.rmqueue 0, .free 0 0] = some (results, s) ∧ ZoneOk s.1 s.2 [⟨0, 1⟩] := by
  have hfresh : freshZone.Fresh 0 := ⟨fun _ _ => rfl, rfl, fun _ _ => rfl⟩
  refine buddy_conserves hfresh ⟨?_, ?_, ?_, ?_⟩
    [.rmqueue 0, .free 0 0] ⟨trivial, fun p hp => ⟨?_, fun _ _ => trivial⟩⟩
  · exact pairwise_singleton _ _
  · intro b hb
    rw [mem_singleton.mp hb]
    exact Nat.dvd_zero _
  · intro b hb
    rw [mem_singleton.mp hb]
    decide
  · exact fun _ _ _ _ => rfl
  · cases hp
    exact mem_cons_self

end Linux
