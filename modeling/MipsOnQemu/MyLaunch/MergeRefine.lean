/-
# MipsOnQemu.MyLaunch.MergeRefine -- `bmMergeAction` refines the three-way merge

A run of `bmMergeAction` against a changed server that is not stopped pushes exactly the
trees of the abstract `merge` and makes exactly the calls of the abstract `edits`
(`bmMergeAction_merged`). The induction follows the first loop into the children of each
local entry; a stopped loop leaves a stopped state behind, so a run that ends unstopped
was never stopped in between.
-/

import MipsOnQemu.MyLaunch.MergeRun

namespace MyLaunch

open MergeStatus hiding none

open KeyedForest Edit Call

variable {σ : Type}

/-! ## Calls as edits -/

/-- The edit of a tree of keys that a call asks for. -/
def Call.edit (c : Call) : Edit BmKey where
  side := c.side
  dir := c.place.dir
  act :=
    match c.action with
    | .add => .add (keyTree c.item)
    | .delete => .del c.item.val.key

theorem edit_eq_prepend (c : Call) : c.edit = .prepend c.place.dir { c.edit with dir := [] } := by
  simp [edit, prepend]

/-- The operation `handleItem` picks for a status. -/
def MergeStatus.operation : MergeStatus → Option (Side × ItemAction)
  | .local0Last0Server1 => some (.left, .add)
  | .local0Last1Server1 => some (.right, .delete)
  | .local1Last0Server0 => some (.right, .add)
  | .local1Last1Server0 => some (.left, .delete)
  | .none | .local0Last1Server0 | .local1Last0Server1 | .local1Last1Server1 => .none

/-- What an operation leaves in the result list: the entry it adds. -/
def ItemAction.pushed (action : ItemAction) (item : BmTree) : Forest BmKey :=
  match action with
  | .add => [keyTree item]
  | .delete => []

/-- From `a` to `b` the result list grew by `keys`, the operations of `es` were called when
`doit` is set, the status says whether there were any, and only an answer of the server has
changed the update time. -/
structure Merged (env : Env σ) (doit : Bool) (a b : BmList × BmMerge σ) (keys : Forest BmKey)
    (es : List (Edit BmKey)) : Prop where
  keys : keyForest b.1 = keyForest a.1 ++ keys
  calls : b.2.calls.map edit = a.2.calls.map edit ++ (if doit then es else [])
  status : b.2.mergestatus = if es = [] then a.2.mergestatus else .successWithModify
  updatetime : Restamped env a.2 b.2

variable {b : BmList × BmMerge σ} {keys : Forest BmKey} {s : BmMerge σ} {list localList l resultList : BmList}
  {place : Place} {lastupdateList : Option BmList}

namespace Merged

variable {env : Env σ}

theorem refl (doit : Bool) (a : BmList × BmMerge σ) : Merged env doit a a [] [] :=
  ⟨by simp, by simp, rfl, .inl rfl⟩

theorem trans {doit : Bool} {a c : BmList × BmMerge σ} {keys' : Forest BmKey} {es es' : List (Edit BmKey)}
    (h : Merged env doit a b keys es) (h' : Merged env doit b c keys' es') :
    Merged env doit a c (keys ++ keys') (es ++ es') := by
  refine ⟨?_, ?_, ?_, h.updatetime.trans h'.updatetime⟩
  · rw [h'.keys, h.keys, List.append_assoc]
  · rw [h'.calls, h.calls]
    cases doit <;> simp
  · rw [h'.status, h.status]
    by_cases he : es = [] <;> by_cases he' : es' = [] <;> simp [he, he']

end Merged

/-! ## One entry -/

section

variable (env : Env σ) (browserType : Browser) (doit : Bool)

variable (action : ItemAction) (item : BmTree)

theorem quiet_callPost (place : Place) (s : BmMerge σ) : Quiet env (s.record ⟨.right, action, item, place⟩)
      (callPost env browserType action item place s).2 :=
  (postKeeps env browserType action item place.parentId _).1

theorem keyTree_callPost (place : Place) (s : BmMerge σ) :
    keyTree (callPost env browserType action item place s).1 = keyTree item :=
  (postKeeps env browserType action item place.parentId _).2

theorem quiet_callDownload (place : Place) (s : BmMerge σ) : Quiet env (s.record ⟨.left, action, item, place⟩)
      (callDownload env browserType action item place s) :=
  quiet_downloadToLocal env browserType action item place.path place.localParentId _

theorem keyTree_stampFirefox (s : BmMerge σ) :
    keyTree (stampFirefox env browserType item s).1 = keyTree item := by
  unfold stampFirefox
  split
  · cases item; rfl
  · rfl

theorem stampFirefox_keeps (s : BmMerge σ) : (stampFirefox env browserType item s).2.calls = s.calls ∧
      (stampFirefox env browserType item s).2.mergestatus = s.mergestatus ∧
      (stampFirefox env browserType item s).2.updatetime = s.updatetime := by
  unfold stampFirefox
  split <;> exact ⟨rfl, rfl, rfl⟩

theorem Quiet.mergestatus_eq {env : Env σ} {s' : BmMerge σ} (h : Quiet env s s')
    (ht : s'.terminatedFlag = false) : s'.mergestatus = s.mergestatus := by
  rcases h.status with h | ⟨-, h⟩
  · rw [ht] at h; cases h
  · exact h

theorem Merged.of_call {env : Env σ} (s₁ : BmMerge σ) {c : Call} {e : Edit BmKey}
    (hcalls : s₁.calls = s.calls) (hm : s₁.mergestatus = .successWithModify)
    (htime : s₁.updatetime = s.updatetime) (hq : Quiet env (s₁.record c) b.2)
    (ht : b.2.terminatedFlag = false) (he : c.edit = e) (hkeys : keyForest b.1 = keyForest list ++ keys) :
    Merged env true (list, s) b keys [e] := by
  refine ⟨hkeys, ?_, ?_, Restamped.trans (.inl htime) hq.updatetime⟩
  · rw [hq.calls, ← he]
    simp [BmMerge.record, hcalls]
  · rw [hq.mergestatus_eq ht]
    exact hm

theorem Merged.of_dry {env : Env σ} (e : Edit BmKey) (hcalls : b.2.calls = s.calls)
    (hm : b.2.mergestatus = .successWithModify) (htime : b.2.updatetime = s.updatetime)
    (hkeys : keyForest b.1 = keyForest list ++ keys) : Merged env false (list, s) b keys [e] :=
  ⟨hkeys, by rw [hcalls]; simp, hm, .inl htime⟩

variable {env browserType doit} in
/-- **`handleItem` does what its status asks for.** -/
theorem handleItem_merged {item : BmTree} {status : MergeStatus} {side : Side} {action : ItemAction}
    (hop : status.operation = some (side, action))
    (ht : (handleItem env browserType doit item list place status s).2.terminatedFlag = false) :
    Merged env doit (list, s) (handleItem env browserType doit item list place status s)
      (action.pushed item) [prepend place.dir { edit ⟨side, action, item, place⟩ with dir := [] }] := by
  rw [← edit_eq_prepend ⟨side, action, item, place⟩]
  have hkeep : keyForest list = keyForest list ++ [] := (List.append_nil _).symm
  cases status with
  | none | local0Last1Server0 | local1Last0Server1 | local1Last1Server1 => cases hop
  | local0Last0Server1 =>
    cases hop
    -- the entry pushed is the stamped one; stamping keeps its keys
    obtain ⟨hc, hm, hu⟩ :=
      stampFirefox_keeps env browserType item { s with mergestatus := .successWithModify }
    have hk := keyTree_stampFirefox env browserType item
      { s with mergestatus := .successWithModify }
    have hpush : keyForest (handleItem env browserType doit item list place .local0Last0Server1 s).1 =
        keyForest list ++ [keyTree item] := by
      rw [← hk]
      exact keyForest_append _ _
    cases doit with
    | false => exact .of_dry _ hc hm hu hpush
    | true =>
      have hedit : edit ⟨.left, .add, (stampFirefox env browserType item
          { s with mergestatus := .successWithModify }).1, place⟩ = edit ⟨.left, .add, item, place⟩ := by
        simp only [edit, hk]
      exact .of_call _ hc hm hu (quiet_callDownload env browserType .add _ place _) ht hedit hpush
  | local0Last1Server1 =>
    cases hop
    cases doit with
    | false => exact .of_dry _ rfl rfl rfl hkeep
    | true =>
      exact .of_call { s with mergestatus := .successWithModify } rfl rfl rfl
        (quiet_callPost env browserType .delete item place _) ht rfl hkeep
  | local1Last0Server0 =>
    cases hop
    cases doit with
    | false => exact .of_dry _ rfl rfl rfl (keyForest_append _ _)
    | true =>
      refine .of_call { s with mergestatus := .successWithModify } rfl rfl rfl
        (quiet_callPost env browserType .add item place _) ht rfl ?_
      have hk := keyTree_callPost env browserType .add item place
        { s with mergestatus := .successWithModify }
      rw [ItemAction.pushed, ← hk]
      exact keyForest_append _ _
  | local1Last1Server0 =>
    cases hop
    cases doit with
    | false => exact .of_dry _ rfl rfl rfl hkeep
    | true =>
      exact .of_call { s with mergestatus := .successWithModify } rfl rfl rfl
        (quiet_callDownload env browserType .delete item place _) ht rfl hkeep

end

/-! ## The loops -/

section Loops

variable {env : Env σ} {browserType : Browser} {doit : Bool}

theorem bmItemMergeStatus_of_not_local {inLocal inLast : Int} (h : ¬0 ≤ inLocal) :
    bmItemMergeStatus inLocal inLast 1 =
      if 0 ≤ inLast then .local0Last1Server1 else .local0Last0Server1 := by
  by_cases hl : 0 ≤ inLast <;> simp [bmItemMergeStatus, h, hl]

theorem bmItemMergeStatus_of_local (inLast inServer : Int) : bmItemMergeStatus 1 inLast inServer =
      if 0 ≤ inServer then (if 0 ≤ inLast then .local1Last1Server1 else .local1Last0Server1)
      else (if 0 ≤ inLast then .local1Last1Server0 else .local1Last0Server0) := by
  by_cases hs : 0 ≤ inServer <;> by_cases hl : 0 ≤ inLast <;> simp [bmItemMergeStatus, hs, hl]

theorem not_terminated_of_serverLoop {m : Bool}
    (ht : (mergeServerLoop env m browserType doit localList lastupdateList place l resultList
      s).2.terminatedFlag = false) : s.terminatedFlag = false := by
  cases l with
  | nil => exact ht
  | cons item l =>
    rw [mergeServerLoop] at ht
    split at ht
    · exact ht
    · next hs => exact Bool.eq_false_iff.mpr hs

theorem not_terminated_of_localLoop {m : Bool} {list : Option BmList}
    (ht : (mergeLocalLoop env m browserType doit l lastupdateList list place resultList
      s).2.terminatedFlag = false) : s.terminatedFlag = false := by
  cases l with
  | nil => exact ht
  | cons item l =>
    rw [mergeLocalLoop] at ht
    split at ht
    · exact ht
    · next hs => exact Bool.eq_false_iff.mpr hs

/-- **The second loop** adds what is new on the right and deletes what was deleted locally. -/
theorem mergeServerLoop_merged (localList : BmList) (lastupdateList : Option BmList) (place : Place)
    (ht : (mergeServerLoop env true browserType doit localList lastupdateList place l resultList
      s).2.terminatedFlag = false) :
    Merged env doit (resultList, s)
      (mergeServerLoop env true browserType doit localList lastupdateList place l resultList s)
      (newRight (bmLook env.debugmerge) (keyForest localList) (keyForest (lastupdateList.getD []))
        (keyForest l))
      ((editsOfRight (bmLook env.debugmerge) (keyForest localList)
        (keyForest (lastupdateList.getD [])) (keyForest l)).map (prepend place.dir)) := by
  induction l generalizing resultList s with
  | nil => exact .refl doit _
  | cons item l ih =>
    have hs : s.terminatedFlag = false := not_terminated_of_serverLoop ht
    have hlocal := bmItemInList_nonneg_iff env.debugmerge item.val (some localList)
    have hlast := bmItemInList_nonneg_iff env.debugmerge item.val lastupdateList
    rw [Option.getD_some] at hlocal
    rw [mergeServerLoop, if_neg (by simp [hs])] at ht ⊢
    rw [keyForest_cons, newRight_cons, editsOfRight_cons, List.map_append, editsOfRightTree, keyTree_val]
    by_cases hin : 0 ≤ bmItemInList env.debugmerge item.val (some localList)
    · -- already local: the first loop took care of it
      simp only [ge_iff_le, hin, if_true] at ht ⊢
      rw [if_pos (hlocal.mp hin), if_pos (hlocal.mp hin)]
      exact ih ht
    · simp only [ge_iff_le, hin, if_false, if_true, bmItemMergeStatus_of_not_local hin] at ht ⊢
      rw [if_neg (mt hlocal.mpr hin), if_neg (mt hlocal.mpr hin)]
      by_cases hinLast : 0 ≤ bmItemInList env.debugmerge item.val lastupdateList
      · simp only [hinLast, if_true, ne_eq, reduceCtorEq, not_false_eq_true] at ht ⊢
        rw [if_pos (hlast.mp hinLast), if_pos (hlast.mp hinLast)]
        have hstep := handleItem_merged
          (show operation .local0Last1Server1 = some (.right, .delete) from rfl)
          (not_terminated_of_serverLoop ht)
        exact hstep.trans (ih ht)
      · simp only [hinLast, if_false, if_true, ne_eq, reduceCtorEq, not_false_eq_true] at ht ⊢
        rw [if_neg (mt hlast.mpr hinLast), if_neg (mt hlast.mpr hinLast)]
        have hstep := handleItem_merged
          (show operation .local0Last0Server1 = some (.left, .add) from rfl)
          (not_terminated_of_serverLoop ht)
        exact hstep.trans (ih ht)

variable (env browserType doit)

/-- An unstopped first loop over a list merges what is on both sides, adds what is new here and
deletes what was deleted on the server. -/
def LocalLoopMerged (l : BmList) : Prop :=
  ∀ (last server : Option BmList) (place : Place) (resultList : BmList) (s : BmMerge σ),
    (mergeLocalLoop env true browserType doit l last server place resultList
      s).2.terminatedFlag = false →
    Merged env doit (resultList, s)
      (mergeLocalLoop env true browserType doit l last server place resultList s)
      (mergeLeft (bmLook env.debugmerge) (keyForest l) (keyForest (last.getD []))
        (keyForest (server.getD [])))
      ((editsOfLeft (bmLook env.debugmerge) (keyForest l) (keyForest (last.getD []))
        (keyForest (server.getD []))).map (prepend place.dir))

/-- An unstopped merge of a list pushes the abstract merge and calls the abstract edits. -/
def ActionMerged (l : BmList) : Prop :=
  ∀ (last server : Option BmList) (resultList : BmList) (place : Place) (s : BmMerge σ),
    (bmMergeAction env true browserType doit l last server resultList place
      s).2.terminatedFlag = false →
    Merged env doit (resultList, s)
      (bmMergeAction env true browserType doit l last server resultList place s)
      (merge (bmLook env.debugmerge) (keyForest l) (keyForest (last.getD []))
        (keyForest (server.getD [])))
      ((edits (bmLook env.debugmerge) (keyForest l) (keyForest (last.getD []))
        (keyForest (server.getD []))).map (prepend place.dir))

variable {env browserType doit}

theorem actionMerged_of_loop (hloop : LocalLoopMerged env browserType doit l) :
    ActionMerged env browserType doit l := by
  intro last server resultList place s ht
  rw [merge, edits, List.map_append]
  cases server with
  | none => exact (hloop last none place resultList s ht).trans (.refl doit _)
  | some r =>
    have hmid := not_terminated_of_serverLoop ht
    exact (hloop last (some r) place resultList s hmid).trans
      (mergeServerLoop_merged _ _ place ht)

variable (env) in
/-- The snapshot below an entry: its children there, `NULL` when it is not there. -/
def lastBelow (item : BmEntry) (lastupdateList : Option BmList) : Option BmList :=
  if bmItemInList env.debugmerge item lastupdateList ≥ 0 then
    some (entryAt lastupdateList (bmItemInList env.debugmerge item lastupdateList)).children
  else none

theorem keyForest_lastBelow (item : BmEntry) (lastupdateList : Option BmList) :
    keyForest ((lastBelow env item lastupdateList).getD []) =
      baseBelow (bmLook env.debugmerge) item.key (keyForest (lastupdateList.getD [])) := by
  rw [lastBelow]
  rcases bmItemInList_cases env.debugmerge item lastupdateList with ⟨hn, hp⟩ | ⟨hp, -, hs⟩
  · rw [baseBelow, hn, hp]
    rfl
  · rw [baseBelow, hs, if_pos hp]
    rfl

/-- An entry the server has too is kept under the server's fields, and its children are merged. -/
theorem mergeLocalItem_of_server {item : BmEntry} {list : Option BmList}
    (hpos : 0 ≤ bmItemInList env.debugmerge item list) (children : BmList)
    (lastupdateList : Option BmList) (place : Place) (resultList : BmList) (s : BmMerge σ) :
    mergeLocalItem env true browserType doit (.node item children) lastupdateList list place
        resultList s =
      let server := entryAt list (bmItemInList env.debugmerge item list)
      let r := bmMergeAction env true browserType doit children
        (lastBelow env item lastupdateList) (some server.children) []
        (place.below server.val item) s
      (resultList ++ [.node server.val r.1], r.2) := by
  have hbranch : ¬((if (0 : Int) ≤ bmItemInList env.debugmerge item lastupdateList then
        local1Last1Server1 else .local1Last0Server1) ≠ .local1Last1Server1 ∧
      (if (0 : Int) ≤ bmItemInList env.debugmerge item lastupdateList then
        local1Last1Server1 else .local1Last0Server1) ≠ .local1Last0Server1) := by
    split <;> simp
  rw [mergeLocalItem_node]
  simp only [if_true, bmItemMergeStatus_of_local, hpos, hbranch, if_false, copyBmCatagory]
  rfl

/-- What the first loop does for one entry, given what it does for the entry's children. -/
theorem mergeLocalItem_merged {item : BmEntry} {children : BmList}
    (hchildren : LocalLoopMerged env browserType doit children)
    (lastupdateList list : Option BmList) (place : Place) (resultList : BmList) (s : BmMerge σ)
    (ht : (mergeLocalItem env true browserType doit (.node item children) lastupdateList list place
      resultList s).2.terminatedFlag = false) :
    Merged env doit (resultList, s)
      (mergeLocalItem env true browserType doit (.node item children) lastupdateList list place
        resultList s)
      (mergeTree (bmLook env.debugmerge) (keyTree (.node item children))
        (keyForest (lastupdateList.getD [])) (keyForest (list.getD [])))
      ((editsOfTree (bmLook env.debugmerge) (keyTree (.node item children))
        (keyForest (lastupdateList.getD [])) (keyForest (list.getD []))).map
          (prepend place.dir)) := by
  rw [keyTree_node, mergeTree_node, editsOfTree_node]
  rcases bmItemInList_cases env.debugmerge item list with ⟨hnone, hpos⟩ | ⟨hpos, hfirst, hsome⟩
  · -- not on the server: new here, or deleted there
    rw [mergeLocalItem_node] at ht ⊢
    simp only [if_true, bmItemMergeStatus_of_local] at ht ⊢
    have hneg : ¬(0 : Int) ≤ bmItemInList env.debugmerge item list := by rw [hpos]; decide
    have hlast := bmItemInList_nonneg_iff env.debugmerge item lastupdateList
    rw [hnone]
    simp only [hneg, if_false] at ht ⊢
    by_cases hin : 0 ≤ bmItemInList env.debugmerge item lastupdateList
    · simp only [hin, if_true, ne_eq, reduceCtorEq, not_false_eq_true, and_self] at ht ⊢
      have hstep := handleItem_merged
        (show operation .local1Last1Server0 = some (.left, .delete) from rfl) ht
      rw [if_pos (hlast.mp hin), if_pos (hlast.mp hin)]
      exact hstep
    · simp only [hin, if_false, ne_eq, reduceCtorEq, not_false_eq_true, and_self, if_true] at ht ⊢
      have hstep := handleItem_merged
        (show operation .local1Last0Server0 = some (.right, .add) from rfl) ht
      rw [if_neg (mt hlast.mpr hin), if_neg (mt hlast.mpr hin)]
      exact hstep
  · -- on both sides: merge the children
    rw [mergeLocalItem_of_server hpos] at ht ⊢
    have hsub := actionMerged_of_loop hchildren _
      (some (entryAt list (bmItemInList env.debugmerge item list)).children) [] _ s ht
    rw [keyForest_lastBelow] at hsub
    rw [hsome]
    refine ⟨?_, ?_, ?_, hsub.updatetime⟩
    · rw [keyForest_append, keyForest_cons, keyTree_node, hsub.keys, key_of_firstEntry hfirst]
      rfl
    · rw [hsub.calls, map_prepend_under]
      rfl
    · rw [hsub.status, map_prepend_under]
      rfl

/-- **The first loop**, by induction into the children of each local entry. -/
theorem localLoopMerged (l : BmList) : LocalLoopMerged env browserType doit l := by
  induction l using forest_induction with
  | nil => exact fun _ _ _ _ _ _ => .refl doit _
  | cons item children rest ihc ihr =>
    intro last server place resultList s ht
    have hs := not_terminated_of_localLoop ht
    rw [mergeLocalLoop, if_neg (by simp [hs])] at ht ⊢
    rw [keyForest_cons, mergeLeft, editsOfLeft, List.map_append]
    have hmid := not_terminated_of_localLoop ht
    exact (mergeLocalItem_merged ihc last server place resultList s
      hmid).trans (ihr last server place _ _ ht)

/-- **The merge against a changed server.** -/
theorem bmMergeAction_merged (l : BmList) : ActionMerged env browserType doit l :=
  actionMerged_of_loop (localLoopMerged l)

/-! ### A merge with nothing to do -/

theorem mergeServerLoop_noop (localList : BmList) (lastupdateList : Option BmList) (place : Place)
    (resultList : BmList) (s : BmMerge σ) (h : editsOfRight (bmLook env.debugmerge) (keyForest localList)
      (keyForest (lastupdateList.getD [])) (keyForest l) = []) :
    mergeServerLoop env true browserType doit localList lastupdateList place l resultList s =
      (resultList, s) := by
  induction l with
  | nil => rfl
  | cons item l ih =>
    rw [keyForest_cons, editsOfRight_cons, List.append_eq_nil_iff] at h
    have hin : 0 ≤ bmItemInList env.debugmerge item.val (some localList) := by
      rw [bmItemInList_nonneg_iff, Option.getD_some, ← keyTree_val]
      have hone : editsOfRight (bmLook env.debugmerge) (keyForest localList)
          (keyForest (lastupdateList.getD [])) [keyTree item] = [] := by
        rw [editsOfRight_cons, h.1]
        rfl
      exact (editsOfRight_eq_nil_iff _).mp hone _ List.mem_cons_self
    rw [mergeServerLoop]
    simp [ge_iff_le, hin, ih h.2, ite_self]

theorem bmMergeAction_noop_of_loop {server : BmList}
    (h : edits (bmLook env.debugmerge) (keyForest localList) (keyForest (lastupdateList.getD []))
      (keyForest server) = []) (hloop : editsOfLeft (bmLook env.debugmerge) (keyForest localList)
        (keyForest (lastupdateList.getD [])) (keyForest server) = [] →
      (mergeLocalLoop env true browserType doit localList lastupdateList (some server) place
        resultList s).2 = s) :
    (bmMergeAction env true browserType doit localList lastupdateList (some server) resultList place
      s).2 = s := by
  rw [edits, List.append_eq_nil_iff] at h
  show (mergeServerLoop env true browserType doit localList lastupdateList place server _ _).2 = s
  rw [mergeServerLoop_noop _ _ _ _ _ h.2]
  exact hloop h.1

theorem mergeLocalLoop_noop (l : BmList) (lastupdateList : Option BmList) (server : BmList)
    (place : Place) (resultList : BmList) (s : BmMerge σ)
    (h : editsOfLeft (bmLook env.debugmerge) (keyForest l) (keyForest (lastupdateList.getD []))
      (keyForest server) = []) :
    (mergeLocalLoop env true browserType doit l lastupdateList (some server) place resultList
      s).2 = s := by
  induction l using forest_induction generalizing lastupdateList server place resultList s with
  | nil => rfl
  | cons item children rest ihc ihr =>
    rw [keyForest_cons, editsOfLeft, List.append_eq_nil_iff, editsOfTree_eq_nil_iff] at h
    obtain ⟨⟨ds, hds, hsub⟩, hrest⟩ := h
    have hitem : (mergeLocalItem env true browserType doit (.node item children) lastupdateList
        (some server) place resultList s).2 = s := by
      rcases bmItemInList_cases env.debugmerge item (some server) with ⟨hn, -⟩ | ⟨hp, -, hl⟩
      · have hcontra : some ds = none := hds.symm.trans hn
        cases hcontra
      · have hmatch : some ds = some _ := hds.symm.trans hl
        rw [Option.some.inj hmatch] at hsub
        rw [mergeLocalItem_of_server hp]
        rw [keyTree_children, keyTree_val, Rose.val_node, ← keyForest_lastBelow] at hsub
        exact bmMergeAction_noop_of_loop hsub
          (fun h => ihc _ _ _ [] s h)
    rw [mergeLocalLoop]
    split
    · rfl
    · rw [ihr _ _ _ _ _ hrest]
      exact hitem

/-- **A merge without edits changes nothing**: no request, no call, no status. -/
theorem bmMergeAction_noop {server : BmList}
    (h : edits (bmLook env.debugmerge) (keyForest localList) (keyForest (lastupdateList.getD []))
      (keyForest server) = []) (resultList : BmList) (place : Place) (s : BmMerge σ) :
    (bmMergeAction env true browserType doit localList lastupdateList (some server) resultList place
      s).2 = s :=
  bmMergeAction_noop_of_loop h
    (mergeLocalLoop_noop _ _ _ _ _ _)

end Loops

end MyLaunch
