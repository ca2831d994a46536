/-
# MipsOnQemu.MyLaunch.Converge -- what the sync achieves

The results about whole merges that `bmMergeAction_merged` makes available: the fast path
for an unchanged server is the full path against the snapshot, and the merge treats the two
replicas alike.
-/

import MipsOnQemu.Lib.Reconcile
import MipsOnQemu.MyLaunch.MergeRefine

namespace MyLaunch

open KeyedForest Env List

variable {σ : Type} (env : Env σ) (browserType : Browser) (doit : Bool)

/-! ## The fast path for an unchanged server -/

theorem bmItemInList_of_mem {l : BmList} (h : Searchable env.debugmerge l) {t : BmTree}
    (ht : t ∈ l) : 0 ≤ bmItemInList env.debugmerge t.val (some l) := by
  rw [bmItemInList_nonneg_iff, Option.getD_some, (agrees_bmLook h).look_eq, child_isSome]
  have hroot := mem_roots_of_mem (mem_keyForest.mpr ⟨t, ht, rfl⟩)
  rw [keyTree_val] at hroot
  exact decide_eq_true hroot

variable {last : BmList}

/-- The second loop over a part of the snapshot does not need to search the snapshot. -/
theorem mergeServerLoop_modes (localList : BmList)
    (h : Searchable env.debugmerge last) (place : Place) {l : BmList} (hl : ∀ t ∈ l, t ∈ last)
    (resultList : BmList) (s : BmMerge σ) :
    mergeServerLoop env false browserType doit localList (some last) place l resultList s =
      mergeServerLoop env true browserType doit localList (some last) place l resultList s := by
  induction l generalizing resultList s with
  | nil => rfl
  | cons item l ih =>
    have hin := bmItemInList_of_mem env h (hl item mem_cons_self)
    have htail := ih fun t ht => hl t (mem_cons_of_mem item ht)
    have hstatus : ∀ inLocal : Int, bmItemMergeStatus inLocal 1 1 =
        bmItemMergeStatus inLocal (bmItemInList env.debugmerge item.val (some last)) 1 := by
      intro inLocal
      simp [bmItemMergeStatus, hin]
    rw [mergeServerLoop, mergeServerLoop]
    simp [hstatus, htail]

theorem mergeLocalLoop_modes (l : BmList) (h : Searchable env.debugmerge last)
    (place : Place) (resultList : BmList) (s : BmMerge σ) :
    mergeLocalLoop env false browserType doit l (some last) (some last) place resultList s =
      mergeLocalLoop env true browserType doit l (some last) (some last) place resultList s := by
  induction l using forest_induction generalizing last place resultList s with
  | nil => rfl
  | cons item children rest ihc ihr =>
    have hitem : ∀ resultList (s : BmMerge σ),
        mergeLocalItem env false browserType doit (.node item children) (some last) (some last)
          place resultList s =
        mergeLocalItem env true browserType doit (.node item children) (some last) (some last)
          place resultList s := by
      intro resultList s
      rw [mergeLocalItem, mergeLocalItem]
      simp only [if_true, Bool.false_eq_true, if_false]
      rcases bmItemInList_cases env.debugmerge item (some last) with ⟨-, hpos⟩ | ⟨hpos, hfirst, -⟩
      · -- not in the snapshot: the children are not merged
        simp [hpos, bmItemMergeStatus]
      · have hsub := h.of_mem (mem_of_firstEntry hfirst)
        simp only [ge_iff_le, hpos, if_true, walkedList, Bool.false_eq_true, if_false, mergeServerPart]
        rw [ihc hsub, mergeServerLoop_modes env browserType doit children hsub _ fun _ ht => ht]
    rw [mergeLocalLoop, mergeLocalLoop]
    simp only [hitem, ihr h]

/-- Against an unchanged server the list given for the server does not matter, and the merge is
the one against a server that still holds the snapshot. -/
theorem bmMergeAction_modes (localList : BmList)
    (h : Searchable env.debugmerge last) (serverList : Option BmList) (resultList : BmList)
    (place : Place) (s : BmMerge σ) :
    bmMergeAction env false browserType doit localList (some last) serverList resultList place s =
      bmMergeAction env true browserType doit localList (some last) (some last) resultList place
        s := by
  have hloop := mergeLocalLoop_modes env browserType doit localList h place resultList s
  have hserver := mergeServerLoop_modes env browserType doit localList h place (fun _ ht => ht)
  show mergeServerPart env false browserType doit localList (some last) (some last) place
      (mergeLocalLoop env false browserType doit localList (some last) (some last) place resultList
        s) = _
  rw [hloop]
  exact hserver _ _

/-- **The `do_nothing` fast path is the full path.** With `serverList` `NULL` and the server
unchanged, the merge makes the same requests in the same order with the same ids as against a
server list equal to the snapshot, builds the same result list and leaves the same state. -/
theorem bmMergeAction_unmodified_eq (localList last : BmList)
    (h : Searchable env.debugmerge last) (resultList : BmList) (place : Place) (s : BmMerge σ) :
    bmMergeAction env false browserType doit localList (some last) none resultList place s =
      bmMergeAction env true browserType doit localList (some last) (some last) resultList place
        s :=
  bmMergeAction_modes env browserType doit localList h none resultList place s

/-! ### A small world for concrete runs -/

/-- A world in which every request succeeds; the state counts the requests. -/
def Env.succeeding : Env Nat where
  post n _ := (n + 1, ⟨false, true, ['1'], 8000 + UInt32.ofNat n, 1 + UInt32.ofNat n⟩)
  access n _ := (n + 1, ⟨true, 1⟩)
  currentDateTime _ := none
  productFFId _ := []

/-- The place a sync starts from, with the favourites path. -/
def rootPlace (path : QString) : Place := ⟨0, path, 0, []⟩

def bookmark (name link : QString) (bmid : UInt32) : BmTree :=
  .node { name, link, flag := .item, bmid } []

def directory (name : QString) (groupId : UInt32) (list : BmList) : BmTree :=
  .node { name, link := [], flag := .catagory, groupId } list

/-- A local tree: one shared directory with a new bookmark, and one new bookmark. -/
def sampleLocal : BmList :=
  [directory ['d'] 7 [bookmark ['x'] ['u'] 1], bookmark ['n'] ['v'] 2]

/-- A snapshot: the shared directory and a bookmark since deleted locally. -/
def sampleLast : BmList := [directory ['d'] 8001 [], bookmark ['o'] ['w'] 3]

/-- A server tree: the shared directory, the bookmark deleted locally, and a new directory. -/
def sampleServer : BmList :=
  [directory ['d'] 8001 [], bookmark ['o'] ['w'] 3, directory ['e'] 8002 [bookmark ['y'] ['z'] 4]]

/-- The state a sync starts from, in the small world. -/
def sampleState : BmMerge Nat := { world := 0 }

/-- The two paths on a snapshot with a directory and a deleted bookmark. -/
theorem bmMergeAction_unmodified_eq_sample : Searchable succeeding.debugmerge sampleLast ∧
      bmMergeAction succeeding false .netbookmark true sampleLocal (some sampleLast) none []
          (rootPlace []) sampleState =
        bmMergeAction succeeding true .netbookmark true sampleLocal (some sampleLast)
          (some sampleLast) [] (rootPlace []) sampleState :=
  have h : Searchable succeeding.debugmerge sampleLast := .inl rfl
  ⟨h, bmMergeAction_unmodified_eq succeeding .netbookmark true sampleLocal sampleLast h [] _ _⟩

/-! ## Symmetry -/

theorem keyForest_bmMergeAction {doit : Bool} {localList server : BmList} {place : Place} {s : BmMerge σ}
    (hl : Searchable env.debugmerge localList) (hb : Searchable env.debugmerge last)
    (hs : Searchable env.debugmerge server) (ht : (bmMergeAction env true browserType doit localList
      (some last) (some server) [] place s).2.terminatedFlag = false) :
    keyForest (bmMergeAction env true browserType doit localList (some last) (some server) [] place s).1 =
      merge child (keyForest localList) (keyForest last) (keyForest server) := by
  have hm := (bmMergeAction_merged _ _ _ _ _ _ ht).keys
  rw [keyForest_nil, nil_append] at hm
  exact hm.trans (merge_congr_look (agrees_bmLook_nil _) (agrees_bmLook hl) (agrees_bmLook hb)
    (agrees_bmLook hs))

theorem edits_look_eq {localList server : BmList} (hl : Searchable env.debugmerge localList)
    (hb : Searchable env.debugmerge last) (hs : Searchable env.debugmerge server) :
    edits (bmLook env.debugmerge) (keyForest localList) (keyForest last) (keyForest server) =
      edits child (keyForest localList) (keyForest last) (keyForest server) :=
  edits_congr_look (agrees_bmLook_nil _) (agrees_bmLook hl) (agrees_bmLook hb) (agrees_bmLook hs)

def sampleRun : BmList × BmMerge Nat :=
  bmMergeAction succeeding true .netbookmark true sampleLocal (some sampleLast)
    (some sampleServer) [] (rootPlace []) sampleState

/-- **The merge is symmetric in the two replicas.** The tree of the result list is, up to sibling
order, the same when the local and the server list are exchanged. In a directory that both sides
have, an entry is kept exactly when both sides have it there, or one side has it and the snapshot
does not have it there. When the three trees are equal, the merge leaves its state as it was: it
makes no request and its status stands. -/
theorem bmMergeAction_symmetric (doit' : Bool) (localList last server : BmList)
    (hl : NoEqualSiblings localList) (hs : NoEqualSiblings server)
    (hsl : Searchable env.debugmerge localList) (hsb : Searchable env.debugmerge last)
    (hss : Searchable env.debugmerge server) (place place' : Place) (s s' : BmMerge σ) :
    let run := bmMergeAction env true browserType doit localList (some last) (some server) [] place s
    let exchanged :=
      bmMergeAction env true browserType doit' server (some last) (some localList) [] place' s'
    (run.2.terminatedFlag = false → exchanged.2.terminatedFlag = false →
      SameUpToOrder (keyForest run.1) (keyForest exchanged.1)) ∧
    (run.2.terminatedFlag = false →
      ∀ p l d, dirAt p (keyForest localList) = some l → dirAt p (keyForest server) = some d →
        ∃ kept, dirAt p (keyForest run.1) = some kept ∧
          ∀ k, k ∈ roots kept ↔ (k ∈ roots l ∧ k ∈ roots d) ∨
            ((k ∈ roots l ↔ k ∉ roots d) ∧ k ∉ roots (baseAt p (keyForest last)))) ∧
    (SameUpToOrder (keyForest localList) (keyForest last) →
      SameUpToOrder (keyForest last) (keyForest server) → run.2 = s) := by
  intro run exchanged
  have hrun : run.2.terminatedFlag = false →
      keyForest run.1 = merge child (keyForest localList) (keyForest last) (keyForest server) :=
    keyForest_bmMergeAction env browserType hsl hsb hss
  refine ⟨fun ht ht' => ?_, fun ht p l d hpl hpd => ?_, fun hlb hbs => ?_⟩
  · rw [hrun ht, keyForest_bmMergeAction env browserType hss hsb hsl ht']
    exact reconciles_merge.sameUpToOrder reconciles_merge.swap _ hl hs
  · refine ⟨_, by rw [hrun ht]; exact reconciles_merge.dirAt_eq _ hl hs hpl hpd, fun k => ?_⟩
    rw [reconciles_merge.mem_roots_iff _ (Distinct.dirAt hl hpl) (Distinct.dirAt hs hpd)]
    by_cases hkl : k ∈ roots l <;> by_cases hkd : k ∈ roots d <;> simp [hkl, hkd]
  · refine bmMergeAction_noop ?_ [] place s
    rw [Option.getD_some, edits_look_eq env hsl hsb hss]
    exact (edits_eq_nil_iff _ hl hs).mpr (hlb.trans hbs)

/-- The sample trees, merged both ways. -/
theorem bmMergeAction_symmetric_sample : sampleRun.2.terminatedFlag = false ∧
      SameUpToOrder (keyForest sampleRun.1)
        (keyForest (bmMergeAction succeeding true .netbookmark false sampleServer
          (some sampleLast) (some sampleLocal) [] (rootPlace []) sampleState).1) :=
  ⟨by decide, (bmMergeAction_symmetric succeeding .netbookmark true false sampleLocal sampleLast
      sampleServer (by decide) (by decide) (.inl rfl) (.inl rfl) (.inl rfl)
      (rootPlace []) (rootPlace []) sampleState sampleState).1 (by decide) (by decide)⟩

end MyLaunch
