/-
# MipsOnQemu.MyLaunch.HandleBmData -- one sync run

`bmMerge::handleBmData` reads the answer of the server, the snapshot of the last run and the
local bookmarks, merges every enabled browser twice, first without and then with operations,
and rewrites the snapshot. The dry run is checked against the limits of each browser before
anything is sent.

What a run finds when it starts is a `Sync`; what it leaves is an `Outcome`. The server and
the local stores stay behind the requests of `Env`.
-/

import MipsOnQemu.MyLaunch.Converge
import MipsOnQemu.MyLaunch.Limits
import MipsOnQemu.MyLaunch.Read
import MipsOnQemu.MyLaunch.Snapshot

namespace MyLaunch

open KeyedForest List

variable {σ : Type}

/-! ## What a run finds -/

/-- The local stores. `urlScheme` stands for `QUrl`, `queryFails` for the queries of the table that
fail; `firefox` is what the Firefox database yields, `none` when it cannot be read. -/
structure LocalStores where
  urlScheme : QString → Option QString
  rows : List MyBookmarkRow
  queryFails : List UInt32 → ReadQuery → Bool := fun _ _ => false
  favourites : FavTree
  firefox : Option Bookmarks

/-- The local list of a browser, `none` when its reader fails. Opera has no reader. -/
def LocalStores.current (stores : LocalStores) (b : Browser) : Option BmList :=
  let accepted := fun r : Bool × BmList => if r.1 then some r.2 else none
  match b with
  | .netbookmark =>
    accepted (readMyBookmark stores.urlScheme (browserInfo b) stores.rows stores.queryFails true
      ((browserInfo b).maxlev + 2) 0 [] 0)
  | .ie => accepted (readDirectory stores.urlScheme (browserInfo b) true 0 stores.favourites)
  | .firefox => stores.firefox.map (·.list)
  | .opera => none

/-- A snapshot file: a bookmark file, not a digg file. -/
structure SnapshotFile where
  text : QString
  bookmarks : ∀ b, (readStream b text).digg = false

/-- What one run of `handleBmData` finds: the file the server sent, the snapshot of the last
run and whether it can be opened for writing, the enabled browsers and the local stores. -/
structure Sync where
  fromServer : Option QString
  fromServerReadable : Bool := true
  snapshot : Option SnapshotFile
  localfileOpens : Bool := true
  enable : Browser → Bool
  stores : LocalStores
  iefavPath : QString
  username : QString

/-- `bmMerge::loadLastupdateData` for one browser: a snapshot file that is not there counts as an
empty one. -/
def loadLastupdateData (file : Option QString) (b : Browser) : BmXml :=
  match file with
  | some text => readStream b text
  | none => {}

namespace Sync

variable (f : Sync)

/-- The snapshot of the last run. -/
def lastUpdate (b : Browser) : BmXml := loadLastupdateData (f.snapshot.map (·.text)) b

/-- What `readStream` makes of the file the server sent. -/
def server (b : Browser) : BmXml := readStream b (f.fromServer.getD [])

/-- The browsers that are enabled, in table order. -/
def enabled : List Browser := browsers.filter f.enable

/-- The first line of the file the server sent. -/
def firstLine : QString := (f.fromServer.getD []).takeWhile (· ≠ '\n')

/-- `modifiedInServer` as `checkXmlfileFromServer` leaves it. -/
def modifiedInServer : Bool := !decide ("do_nothing".toList <:+: f.firstLine)

/-- The status with which `checkXmlfileFromServer` gives up, if it does. A failed login does
not set the terminated flag. -/
def checkXmlfileFromServer : Option SyncStatus :=
  if f.fromServer = none then some .failGetXmlFromServer
  else if !f.fromServerReadable then some .failReadXmlFromServer
  else if f.modifiedInServer && decide ("login_failure_please_re_login".toList <:+: f.firstLine) then
    some .failLogin
  else none

/-- The browser is merged: it is enabled, and its local list could be read. The snapshot and the
server's list are there for every browser at this point. -/
def Merges (b : Browser) (l : BmList) : Prop := b ∈ f.enabled ∧ f.stores.current b = some l

end Sync

open Sync

/-! ## The two passes -/

section Passes

variable (env : Env σ) (f : Sync)

/-- `bmMergeAction` for one browser, or the snapshot kept when the local list is missing. -/
def mergeBrowser (doit : Bool) (b : Browser) (s : BmMerge σ) : BmList × BmMerge σ :=
  match f.stores.current b with
  | some current =>
    bmMergeAction env f.modifiedInServer b doit current (some (f.lastUpdate b).bmList)
      (if f.modifiedInServer then some (f.server b).bmList else none) [] (rootPlace f.iefavPath) s
  | none => ((f.lastUpdate b).bmList, s)

/-- The first pass, `doit` = 0: it ends at the first result that is not valid. -/
def dryPass (debug : Bool) : List Browser → BmMerge σ → Bool × List (Browser × BmList) × BmMerge σ
  | [], s => (true, [], s)
  | b :: bs, s =>
    let (result, s) := mergeBrowser env f false b s
    match checkValidBmlist debug (browserInfo b) result with
    | .error status => (false, [(b, result)], s.setMergeStatus status)
    | .ok _ =>
      let (valid, results, s) := dryPass debug bs s
      (valid, (b, result) :: results, s)

/-- The second pass, `doit` = 1. -/
def commitPass : List Browser → BmMerge σ → List (Browser × BmList) × BmMerge σ
  | [], s => ([], s)
  | b :: bs, s =>
    let (result, s) := mergeBrowser env f true b s
    let (results, s) := commitPass bs s
    ((b, result) :: results, s)

end Passes

/-- The entry of a browser in `result_bc`; empty where no pass has filled it. -/
def resultOf (results : List (Browser × BmList)) (b : Browser) : BmList :=
  ((results.find? (·.1 = b)).map (·.2)).getD []

def snapshotText (f : Sync) (results : List (Browser × BmList)) (time : QString) : QString :=
  browsers.flatMap fun b =>
    bmListToXml (b = .netbookmark) (b = .opera)
      (if f.enable b then resultOf results b else (f.lastUpdate b).bmList) b time
      (if f.enable b then 1 else 0) (UInt32.ofBitVec (qhashEx f.username))

/-- `bmMerge::storeLocalbmData`: the snapshot file after it. A file that cannot be opened stays as it is. -/
def storeLocalbmData (f : Sync) (results : List (Browser × BmList)) (time : QString) : Option QString :=
  if f.localfileOpens then some (snapshotText f results time) else f.snapshot.map (·.text)

/-- `bmMerge::bmMerge`: the members of a fresh object. The update time and the ids of the last post
are globals that outlive it. -/
def BmMerge.start (world : σ) (updatetime : QString) (postBmid postMaxGroupid : UInt32) : BmMerge σ where
  world := world
  updatetime := updatetime
  postBmid := postBmid
  postMaxGroupid := postMaxGroupid

/-- What a run leaves: the merge state, the results of both passes, the snapshot file and the
`updateTime` setting. A run that ends in `checkXmlfileFromServer` leaves the last two as they
were. -/
structure Outcome (σ : Type) where
  merge : BmMerge σ
  dry : List (Browser × BmList) := []
  result : List (Browser × BmList) := []
  snapshot : Option QString
  updateTime : Option QString := none

/-- Every enabled browser reads the server's file and sets the update time from it. -/
def Sync.setUpdatetimes (f : Sync) (s : BmMerge σ) : BmMerge σ :=
  if f.modifiedInServer then
    f.enabled.foldl (fun s b => { s with updatetime := (f.server b).updateTime }) s
  else s

/-- The two passes: the results of the first, those of the second, and the state. A first pass
that is not valid skips the second. -/
def bothPasses (env : Env σ) (debug : Bool) (f : Sync) (s : BmMerge σ) :
    List (Browser × BmList) × List (Browser × BmList) × BmMerge σ :=
  let (valid, dry, s) := dryPass env f debug f.enabled s
  if valid then
    let (result, s) := commitPass env f f.enabled s
    (dry, result, s)
  else (dry, dry, s)

/-- The end of `handleBmData`, from `CLEAR` on. -/
def clear (f : Sync) (dry result : List (Browser × BmList)) (s : BmMerge σ) : Outcome σ :=
  if s.terminatedFlag then
    { merge := s, dry, result, snapshot := f.snapshot.map (·.text), updateTime := some ['0'] }
  else
    { merge := { s with updatetime := [] }
      dry, result
      snapshot := if f.snapshot.isNone ∨ s.mergestatus = .successWithModify then
          storeLocalbmData f result s.updatetime
        else f.snapshot.map (·.text)
      updateTime := some s.updatetime }

def handleBmData (env : Env σ) (debug : Bool) (f : Sync) (s : BmMerge σ) : Outcome σ :=
  let s := { s with postError := false }
  match f.checkXmlfileFromServer with
  | some .failLogin =>
    { merge := { s with mergestatus := .failLogin }, snapshot := f.snapshot.map (·.text) }
  | some status => { merge := s.setMergeStatus status, snapshot := f.snapshot.map (·.text) }
  | none =>
    let (dry, result, s) := bothPasses env debug f (f.setUpdatetimes s)
    clear f dry result s

section Clear

variable (f : Sync) (dry result : List (Browser × BmList)) (s : BmMerge σ)

@[simp] theorem clear_dry : (clear f dry result s).dry = dry := by
  unfold clear
  split <;> rfl

@[simp] theorem clear_result : (clear f dry result s).result = result := by
  unfold clear
  split <;> rfl

@[simp] theorem clear_world : (clear f dry result s).merge.world = s.world := by
  unfold clear
  split <;> rfl

@[simp] theorem clear_calls : (clear f dry result s).merge.calls = s.calls := by
  unfold clear
  split <;> rfl

@[simp] theorem clear_terminatedFlag :
    (clear f dry result s).merge.terminatedFlag = s.terminatedFlag := by
  unfold clear
  split <;> rfl

end Clear

/-! ## A dry run does nothing -/

/-- From `s` to `s'` at most the status and the number of stamps changed: no request was made. -/
def Idle (s s' : BmMerge σ) : Prop := ∃ status ticks, s' = { s with mergestatus := status, ticks }

variable {s' : BmMerge σ} {b : Browser} {bs : List Browser}

variable {s : BmMerge σ} {debug : Bool}

namespace Idle

theorem refl (s : BmMerge σ) : Idle s s := ⟨s.mergestatus, s.ticks, rfl⟩

theorem trans {s'' : BmMerge σ} (h : Idle s s') (h' : Idle s' s'') : Idle s s'' := by
  obtain ⟨_, _, rfl⟩ := h
  obtain ⟨status, ticks, rfl⟩ := h'
  exact ⟨status, ticks, rfl⟩

theorem world (h : Idle s s') : s'.world = s.world := by
  obtain ⟨_, _, rfl⟩ := h
  rfl

theorem calls (h : Idle s s') : s'.calls = s.calls := by
  obtain ⟨_, _, rfl⟩ := h
  rfl

theorem terminatedFlag (h : Idle s s') : s'.terminatedFlag = s.terminatedFlag := by
  obtain ⟨_, _, rfl⟩ := h
  rfl

theorem updatetime (h : Idle s s') : s'.updatetime = s.updatetime := by
  obtain ⟨_, _, rfl⟩ := h
  rfl

end Idle

section DryRun

variable (env : Env σ) (m : Bool) (browserType : Browser)

theorem idle_handleItem (item : BmTree) (list : BmList) (place : Place) (status : MergeStatus)
    (s : BmMerge σ) : Idle s (handleItem env browserType false item list place status s).2 := by
  cases status with
  | local0Last0Server1 =>
    show Idle s (stampFirefox env browserType item { s with mergestatus := .successWithModify }).2
    unfold stampFirefox
    split <;> exact ⟨_, _, rfl⟩
  | none | local0Last1Server0 | local0Last1Server1 | local1Last0Server0 | local1Last0Server1
    | local1Last1Server0 | local1Last1Server1 => exact ⟨.successWithModify, s.ticks, rfl⟩

theorem idle_mergeServerLoop (localList : BmList) (last : Option BmList) (place : Place)
    (l resultList : BmList) (s : BmMerge σ) :
    Idle s (mergeServerLoop env m browserType false localList last place l resultList s).2 := by
  refine mergeServerLoop_rel Idle.refl Idle.trans ?_ m localList last resultList s
  exact fun item _ list status s => idle_handleItem env browserType item list place status s

theorem idle_bmMergeAction_of_loop {localList : BmList} {last server : Option BmList}
    {resultList : BmList} {place : Place}
    (hloop : Idle s (mergeLocalLoop env m browserType false localList last
      (walkedList m last server) place resultList s).2) :
    Idle s (bmMergeAction env m browserType false localList last server resultList place s).2 := by
  rw [bmMergeAction]
  generalize walkedList m last server = list at hloop ⊢
  cases list with
  | none => exact hloop
  | some l => exact hloop.trans (idle_mergeServerLoop env m browserType localList last place l _ _)

theorem idle_mergeLocalLoop (l : BmList) (last list : Option BmList) (place : Place)
    (resultList : BmList) (s : BmMerge σ) :
    Idle s (mergeLocalLoop env m browserType false l last list place resultList s).2 := by
  induction l using forest_induction generalizing last list place resultList s with
  | nil => exact Idle.refl s
  | cons item children rest ihc ihr =>
    have hitem : Idle s (mergeLocalItem env m browserType false (.node item children) last list
        place resultList s).2 := by
      rw [mergeLocalItem_node]
      dsimp only
      generalize (if m = true then bmItemInList env.debugmerge item list
        else bmItemInList env.debugmerge item last) = inServer
      split
      · exact idle_handleItem env browserType _ resultList place _ s
      · apply idle_bmMergeAction_of_loop
        exact ihc _ _ _ _ _
    rw [mergeLocalLoop]
    split
    · exact Idle.refl s
    · exact hitem.trans (ihr last list place _ _)

/-- **The dry run of a merge makes no request.** -/
theorem idle_bmMergeAction (localList : BmList) (last server : Option BmList)
    (resultList : BmList) (place : Place) (s : BmMerge σ) :
    Idle s (bmMergeAction env m browserType false localList last server resultList place s).2 :=
  idle_bmMergeAction_of_loop env m browserType
    (idle_mergeLocalLoop env m browserType _ _ _ _ _ _)

end DryRun

/-! ## What the passes do, in keys -/

section Passes

variable (env : Env σ) (f : Sync)

/-- The list on the server's side of the merge: the server's own, or the snapshot when the server
is unchanged. -/
def Sync.serverSide (b : Browser) : BmList :=
  if f.modifiedInServer then (f.server b).bmList else (f.lastUpdate b).bmList

/-- The tree the merge of a browser builds. -/
def Sync.mergedKeys (b : Browser) : Forest BmKey :=
  match f.stores.current b with
  | some current =>
    merge (bmLook env.debugmerge) (keyForest current) (keyForest (f.lastUpdate b).bmList)
      (keyForest (f.serverSide b))
  | none => keyForest (f.lastUpdate b).bmList

/-- The operations of the merge of a browser. -/
def Sync.mergedEdits (b : Browser) : List (Edit BmKey) :=
  match f.stores.current b with
  | some current =>
    edits (bmLook env.debugmerge) (keyForest current) (keyForest (f.lastUpdate b).bmList)
      (keyForest (f.serverSide b))
  | none => []

theorem Sync.searchable_lastUpdate (b : Browser) (debugmerge : UInt32) :
    Searchable debugmerge (f.lastUpdate b).bmList := by
  refine .inr ?_
  rw [lastUpdate]
  cases f.snapshot with
  | none => exact sorted_nil
  | some file => exact (readStream_ok b file.text).sorted (file.bookmarks b)

/-- Both modes of the merge are the merge against `serverSide`. -/
theorem mergeBrowser_some {current : BmList} (h : f.stores.current b = some current) (doit : Bool)
    (s : BmMerge σ) : mergeBrowser env f doit b s =
      bmMergeAction env true b doit current (some (f.lastUpdate b).bmList) (some (f.serverSide b))
        [] (rootPlace f.iefavPath) s := by
  simp only [mergeBrowser, h, serverSide]
  cases f.modifiedInServer with
  | true => rfl
  | false => exact bmMergeAction_modes env b doit current (f.searchable_lastUpdate b _) _ _ _ s

/-- **One browser, either pass.** Unless it is stopped, the pass leaves the tree `mergedKeys`. -/
theorem mergeBrowser_merged {doit : Bool} (ht : (mergeBrowser env f doit b s).2.terminatedFlag = false) :
    Merged env doit ([], s) (mergeBrowser env f doit b s) (f.mergedKeys env b)
      (f.mergedEdits env b) := by
  cases h : f.stores.current b with
  | none =>
    simp only [mergeBrowser, mergedKeys, mergedEdits, h]
    exact ⟨by simp, by simp, rfl, .inl rfl⟩
  | some current =>
    rw [mergeBrowser_some env f h] at ht ⊢
    have hm := bmMergeAction_merged _ _ _ _ _ _ ht
    rw [show (rootPlace f.iefavPath).dir = [] from rfl, Edit.map_prepend_nil] at hm
    simp only [mergedKeys, mergedEdits, h]
    exact hm

theorem idle_mergeBrowser (b : Browser) (s : BmMerge σ) : Idle s (mergeBrowser env f false b s).2 := by
  rw [mergeBrowser]
  split
  · exact idle_bmMergeAction env f.modifiedInServer b _ _ _ _ _ s
  · exact Idle.refl s

theorem not_terminated_of_mergeBrowser {doit : Bool}
    (ht : (mergeBrowser env f doit b s).2.terminatedFlag = false) : s.terminatedFlag = false := by
  cases h : f.stores.current b with
  | none =>
    rw [mergeBrowser, h] at ht
    exact ht
  | some current =>
    rw [mergeBrowser_some env f h] at ht
    exact not_terminated_of_localLoop (not_terminated_of_serverLoop ht)

/-- Results with their trees of keys. -/
def keysOf (results : List (Browser × BmList)) : List (Browser × Forest BmKey) :=
  results.map fun p => (p.1, keyForest p.2)

/-- What the merges of `bs` build. -/
def Sync.mergedAll (bs : List Browser) : List (Browser × Forest BmKey) :=
  bs.map fun b => (b, f.mergedKeys env b)

/-- The status that the merges of `bs` leave. -/
def Sync.statusAfter (bs : List Browser) (status : SyncStatus) : SyncStatus :=
  if ∀ b ∈ bs, f.mergedEdits env b = [] then status else .successWithModify

theorem Sync.statusAfter_cons (b : Browser) (bs : List Browser) (status : SyncStatus) :
    f.statusAfter env (b :: bs) status =
      f.statusAfter env bs (if f.mergedEdits env b = [] then status else .successWithModify) := by
  simp only [statusAfter, forall_mem_cons]
  by_cases hb : f.mergedEdits env b = [] <;> simp [hb]

theorem not_terminated_of_commitPass (ht : (commitPass env f bs s).2.terminatedFlag = false) :
    s.terminatedFlag = false := by
  induction bs generalizing s with
  | nil => exact ht
  | cons b bs ih => exact not_terminated_of_mergeBrowser env f (ih ht)

/-- **The second pass**, unless it is stopped, builds `mergedKeys` for every browser. -/
theorem commitPass_merged (ht : (commitPass env f bs s).2.terminatedFlag = false) :
    keysOf (commitPass env f bs s).1 = f.mergedAll env bs ∧
      (commitPass env f bs s).2.mergestatus = f.statusAfter env bs s.mergestatus ∧
      Restamped env s (commitPass env f bs s).2 := by
  induction bs generalizing s with
  | nil => exact ⟨rfl, by simp [commitPass, statusAfter], .inl rfl⟩
  | cons b bs ih =>
    have hm := mergeBrowser_merged env f (not_terminated_of_commitPass env f ht)
    obtain ⟨hkeys, hstatus, htime⟩ := ih (s := (mergeBrowser env f true b s).2) ht
    refine ⟨?_, ?_, hm.updatetime.trans htime⟩
    · show (b, keyForest (mergeBrowser env f true b s).1) ::
          keysOf (commitPass env f bs (mergeBrowser env f true b s).2).1 = _
      rw [hkeys, hm.keys, keyForest_nil, nil_append]
      rfl
    · show (commitPass env f bs (mergeBrowser env f true b s).2).2.mergestatus = _
      rw [hstatus, hm.status, statusAfter_cons]

theorem dryPass_cons_error {e : SyncStatus}
    (h : checkValidBmlist debug (browserInfo b) (mergeBrowser env f false b s).1 = .error e) :
    dryPass env f debug (b :: bs) s = (false, [(b, (mergeBrowser env f false b s).1)],
        (mergeBrowser env f false b s).2.setMergeStatus e) := by
  rw [dryPass]
  simp only [h]

theorem dryPass_cons_ok {n : Nat}
    (h : checkValidBmlist debug (browserInfo b) (mergeBrowser env f false b s).1 = .ok n) :
    dryPass env f debug (b :: bs) s = let rest := dryPass env f debug bs (mergeBrowser env f false b s).2
      (rest.1, (b, (mergeBrowser env f false b s).1) :: rest.2.1, rest.2.2) := by
  rw [dryPass]
  simp only [h]

/-- **The first pass, when every result is valid**: nothing happened, and the results are those
the second pass will build. -/
theorem dryPass_valid (hvalid : (dryPass env f debug bs s).1 = true) : Idle s (dryPass env f debug bs s).2.2 ∧
      (∀ p ∈ (dryPass env f debug bs s).2.1, Accepted debug (browserInfo p.1) p.2) ∧
      (s.terminatedFlag = false → keysOf (dryPass env f debug bs s).2.1 = f.mergedAll env bs ∧
          (dryPass env f debug bs s).2.2.mergestatus = f.statusAfter env bs s.mergestatus) := by
  induction bs generalizing s with
  | nil => exact ⟨Idle.refl s, nofun, fun _ => ⟨rfl, by simp [dryPass, statusAfter]⟩⟩
  | cons b bs ih =>
    have hidle := idle_mergeBrowser env f b s
    cases hcheck : checkValidBmlist debug (browserInfo b) (mergeBrowser env f false b s).1 with
    | error e =>
      rw [dryPass_cons_error env f hcheck] at hvalid
      cases hvalid
    | ok n =>
      rw [dryPass_cons_ok env f hcheck] at hvalid ⊢
      obtain ⟨hrest, haccepted, hmerged⟩ := ih hvalid
      refine ⟨hidle.trans hrest, forall_mem_cons.2 ⟨⟨n, hcheck⟩, haccepted⟩, fun hs => ?_⟩
      have ht : (mergeBrowser env f false b s).2.terminatedFlag = false :=
        hidle.terminatedFlag.trans hs
      have hm := mergeBrowser_merged env f ht
      obtain ⟨hkeys, hstatus⟩ := hmerged ht
      refine ⟨?_, ?_⟩
      · show (b, keyForest (mergeBrowser env f false b s).1) :: keysOf _ = _
        rw [hkeys, hm.keys, keyForest_nil, nil_append]
        rfl
      · rw [hstatus, hm.status, statusAfter_cons]

/-- **The first pass, when a result is not valid**: nothing happened, and the run is stopped. -/
theorem dryPass_invalid (hvalid : (dryPass env f debug bs s).1 = false) :
    (dryPass env f debug bs s).2.2.world = s.world ∧ (dryPass env f debug bs s).2.2.calls = s.calls ∧
      (dryPass env f debug bs s).2.2.terminatedFlag = true := by
  induction bs generalizing s with
  | nil => cases hvalid
  | cons b bs ih =>
    have hidle := idle_mergeBrowser env f b s
    cases hcheck : checkValidBmlist debug (browserInfo b) (mergeBrowser env f false b s).1 with
    | error e =>
      rw [dryPass_cons_error env f hcheck]
      exact ⟨hidle.world, hidle.calls, if_pos (checkValidBmlist_error hcheck)⟩
    | ok n =>
      rw [dryPass_cons_ok env f hcheck] at hvalid ⊢
      obtain ⟨hworld, hcalls, hterminated⟩ := ih hvalid
      exact ⟨hworld.trans hidle.world, hcalls.trans hidle.calls, hterminated⟩

end Passes

/-! ## The whole run -/

section Run

variable (env : Env σ) (debug : Bool) (f : Sync)

/-- Before the passes at most the update time changes, and only to one the server's file has. -/
theorem Sync.setUpdatetimes_eq (s : BmMerge σ) : ∃ time, f.setUpdatetimes s = { s with updatetime := time } ∧
      (time = s.updatetime ∨ ∃ b, time = (f.server b).updateTime) := by
  have hfold : ∀ (bs : List Browser) (s : BmMerge σ), ∃ time,
      bs.foldl (fun s b => { s with updatetime := (f.server b).updateTime }) s =
          { s with updatetime := time } ∧
        (time = s.updatetime ∨ ∃ b, time = (f.server b).updateTime) := by
    intro bs
    induction bs with
    | nil => exact fun s => ⟨s.updatetime, rfl, .inl rfl⟩
    | cons b bs ih =>
      intro s
      obtain ⟨time, h, htime⟩ := ih { s with updatetime := (f.server b).updateTime }
      refine ⟨time, h, .inr ?_⟩
      rcases htime with htime | htime
      · exact ⟨b, htime⟩
      · exact htime
  rw [setUpdatetimes]
  split
  · exact hfold f.enabled s
  · exact ⟨s.updatetime, rfl, .inl rfl⟩

theorem bothPasses_spec (s : BmMerge σ) :
    ((∃ p ∈ (bothPasses env debug f s).1, ¬Accepted debug (browserInfo p.1) p.2) →
      (bothPasses env debug f s).2.2.world = s.world ∧ (bothPasses env debug f s).2.2.calls = s.calls) ∧
    ((bothPasses env debug f s).2.2.terminatedFlag = false →
      keysOf (bothPasses env debug f s).1 = f.mergedAll env f.enabled ∧
        keysOf (bothPasses env debug f s).2.1 = f.mergedAll env f.enabled ∧
        (bothPasses env debug f s).2.2.mergestatus = f.statusAfter env f.enabled s.mergestatus ∧
        Restamped env s (bothPasses env debug f s).2.2 ∧
        ∀ p ∈ (bothPasses env debug f s).1, Accepted debug (browserInfo p.1) p.2) := by
  rw [bothPasses]
  cases hvalid : (dryPass env f debug f.enabled s).1 with
  | false =>
    obtain ⟨hworld, hcalls, hterminated⟩ := dryPass_invalid env f hvalid
    simp only [hvalid, Bool.false_eq_true, if_false]
    refine ⟨fun _ => ⟨hworld, hcalls⟩, fun ht => ?_⟩
    rw [hterminated] at ht
    cases ht
  | true =>
    obtain ⟨hidle, haccepted, hdry⟩ := dryPass_valid env f hvalid
    simp only [hvalid, if_true]
    refine ⟨fun ⟨p, hp, hreject⟩ => absurd (haccepted p hp) hreject, fun ht => ?_⟩
    have hs := not_terminated_of_commitPass env f ht
    rw [hidle.terminatedFlag] at hs
    obtain ⟨hkeys, hstatus, htime⟩ := commitPass_merged env f ht
    obtain ⟨hkeys', hstatus'⟩ := hdry hs
    refine ⟨hkeys', hkeys, ?_, Restamped.trans (.inl hidle.updatetime) htime, haccepted⟩
    rw [hstatus, hstatus', statusAfter, statusAfter]
    split <;> rfl

/-- A run that gives up over the server's file has merged nothing and asked for nothing. -/
theorem handleBmData_of_refused {f : Sync} (h : f.checkXmlfileFromServer ≠ none) (s : BmMerge σ) :
    (handleBmData env debug f s).dry = [] ∧ (handleBmData env debug f s).result = [] ∧
      (handleBmData env debug f s).merge.world = s.world ∧
      (handleBmData env debug f s).merge.calls = s.calls := by
  unfold handleBmData
  dsimp only
  split
  · exact ⟨rfl, rfl, rfl, rfl⟩
  · exact ⟨rfl, rfl, rfl, rfl⟩
  · next hnone => exact absurd hnone h

theorem handleBmData_of_check {f : Sync} (h : f.checkXmlfileFromServer = none) (s : BmMerge σ) :
    ∃ time, (time = s.updatetime ∨ ∃ b, time = (f.server b).updateTime) ∧ handleBmData env debug f s =
        let passes := bothPasses env debug f { s with postError := false, updatetime := time }
        clear f passes.1 passes.2.1 passes.2.2 := by
  obtain ⟨time, hset, htime⟩ := f.setUpdatetimes_eq { s with postError := false }
  refine ⟨time, htime, ?_⟩
  rw [handleBmData, h]
  simp only [hset]

end Run

theorem accepted_keyForest {info : BrowserInfo} {l : BmList} :
    Accepted debug info (keyForest l) ↔ Accepted debug info l := by
  rw [Accepted, Accepted, keyForest, checkValidBmlist_mapForest]

theorem accepted_of_keysOf_eq {results results' : List (Browser × BmList)}
    (hkeys : keysOf results' = keysOf results) (h : ∀ p ∈ results, Accepted debug (browserInfo p.1) p.2) :
    ∀ p ∈ results', Accepted debug (browserInfo p.1) p.2 := by
  intro p hp
  have hmem : (p.1, keyForest p.2) ∈ keysOf results := by
    rw [← hkeys]
    exact mem_map.2 ⟨p, hp, rfl⟩
  obtain ⟨q, hq, heq⟩ := mem_map.1 hmem
  obtain ⟨hfst, hsnd⟩ := Prod.mk.inj heq
  rw [← accepted_keyForest, ← hfst, ← hsnd, accepted_keyForest]
  exact h q hq

/-- The results of a run, tree by tree. -/
theorem forall_result_iff {env : Env σ} {f : Sync} {results : List (Browser × BmList)} {bs : List Browser}
    (h : keysOf results = f.mergedAll env bs) (p : Forest BmKey → Prop) :
    (∀ r ∈ results, p (keyForest r.2)) ↔ ∀ b ∈ bs, p (f.mergedKeys env b) := by
  have hkeys : (∀ q ∈ keysOf results, p q.2) ↔ ∀ q ∈ f.mergedAll env bs, p q.2 := by rw [h]
  simpa only [keysOf, mergedAll, forall_mem_map] using hkeys

/-- **The dry run predicts the commit and guards it.** Whatever the world answers, the first pass
over a browser leaves the world alone and calls no operation; when one of its results is not
valid, so does the whole run; and when the run was not stopped, the second pass has built for
every enabled browser the tree of the first, which stays within the limits of the browser. A debug
build leaves the outermost list out of its count, so that there are at most 512 entries exactly if
none of the merged trees gets through by that. -/
theorem handleBmData_dry_run (env : Env σ) (debug : Bool) (f : Sync) (s : BmMerge σ) :
    (∀ (b : Browser) (t : BmMerge σ), (mergeBrowser env f false b t).2.world = t.world ∧
        (mergeBrowser env f false b t).2.calls = t.calls) ∧
    ((∃ p ∈ (handleBmData env debug f s).dry, ¬Accepted debug (browserInfo p.1) p.2) →
      (handleBmData env debug f s).merge.world = s.world ∧
        (handleBmData env debug f s).merge.calls = s.calls) ∧
    ((handleBmData env debug f s).merge.terminatedFlag = false → f.checkXmlfileFromServer = none →
      (handleBmData env debug f s).result.map Prod.fst = f.enabled ∧
        keysOf (handleBmData env debug f s).result = keysOf (handleBmData env debug f s).dry ∧
        (∀ p ∈ (handleBmData env debug f s).result,
          WidthAtMost (browserInfo p.1).maxchild p.2 ∧ depth p.2 ≤ (browserInfo p.1).maxlev ∧
            countEntries p.2 ≤ browserBmMaxTotalCount + if debug then p.2.length else 0) ∧
        ((∀ p ∈ (handleBmData env debug f s).result, countEntries p.2 ≤ browserBmMaxTotalCount) ↔
          (debug = true → ∀ b ∈ f.enabled, ¬ Uncounted (f.mergedKeys env b)))) := by
  refine ⟨fun b t => ?_, fun hreject => ?_, fun ht hcheck => ?_⟩
  · have hidle := idle_mergeBrowser env f b t
    exact ⟨hidle.world, hidle.calls⟩
  · by_cases hcheck : f.checkXmlfileFromServer = none
    · obtain ⟨time, -, hrun⟩ := handleBmData_of_check env debug hcheck s
      rw [hrun] at hreject ⊢
      simp only [clear_dry, clear_world, clear_calls] at hreject ⊢
      exact (bothPasses_spec env debug f _).1 hreject
    · exact (handleBmData_of_refused env debug hcheck s).2.2
  · obtain ⟨time, -, hrun⟩ := handleBmData_of_check env debug hcheck s
    rw [hrun] at ht ⊢
    simp only [clear_dry, clear_result, clear_terminatedFlag] at ht ⊢
    obtain ⟨hdry, hresult, -, -, haccepted⟩ := (bothPasses_spec env debug f _).2 ht
    have hwithin := fun p hp =>
      (accepted_of_keysOf_eq (hresult.trans hdry.symm) haccepted p hp).within
    refine ⟨?_, hresult.trans hdry.symm, fun p hp => ?_, ?_⟩
    · have hfst := congrArg (map Prod.fst) hresult
      simpa [keysOf, mergedAll, Function.comp_def] using hfst
    · obtain ⟨htotal, hwidth, hdepth⟩ := hwithin p hp
      exact ⟨hwidth, hdepth, htotal⟩
    · have huncounted := forall_result_iff hresult fun l => ¬ Uncounted l
      rw [← huncounted]
      simp only [Uncounted, keyForest, countEntries_mapForest, length_mapForest]
      cases debug with
      | false => exact ⟨fun _ h => Bool.noConfusion h, fun _ p hp => (hwithin p hp).1⟩
      | true =>
        refine ⟨fun h _ p hp hun => absurd (h p hp) (Nat.not_le.2 hun.1), fun h p hp => ?_⟩
        exact Nat.not_lt.1 fun hmany => h rfl p hp ⟨hmany, (hwithin p hp).1⟩

/-! ### A run with one local bookmark -/

/-- The file a server sends for its network bookmarks. -/
def serverFile (list : BmList) : QString := bmListToXml true true list .netbookmark ['9'] 1 7

/-- A client whose network bookmarks are enabled and hold one bookmark, `b`. -/
def sampleSync (server : BmList) (snapshot : Option SnapshotFile) : Sync where
  fromServer := some (serverFile server)
  snapshot
  enable b := b = .netbookmark
  stores :=
    { urlScheme := schemeBeforeColon
      rows := [⟨7, 0, 0, 0, 6, ['b'], "http:x".toList⟩]
      favourites := .node (.dir []) []
      firefox := none }
  iefavPath := []
  username := ['u']

/-- A first sync with a server that has a bookmark of its own: it is downloaded, the local one is
posted, and the two passes agree. -/
theorem handleBmData_dry_run_sample :
    let run := handleBmData Env.succeeding false (sampleSync [bookmark ['c'] ['v'] 3] none) sampleState
    run.merge.terminatedFlag = false ∧ run.merge.calls.length = 2 ∧ run.result.map Prod.fst = [.netbookmark] ∧
      keysOf run.result = keysOf run.dry := by
  have ht : (handleBmData Env.succeeding false (sampleSync [bookmark ['c'] ['v'] 3] none)
      sampleState).merge.terminatedFlag = false := by decide +kernel
  have hcheck : (sampleSync [bookmark ['c'] ['v'] 3] none).checkXmlfileFromServer = none := by
    decide +kernel
  obtain ⟨hbrowsers, hkeys, -, -⟩ := (handleBmData_dry_run Env.succeeding false
    (sampleSync [bookmark ['c'] ['v'] 3] none) sampleState).2.2 ht hcheck
  exact ⟨ht, by decide +kernel, hbrowsers, hkeys⟩

/-- Four directories with 128 bookmarks each. -/
def wideRows : List MyBookmarkRow :=
  (range 4).flatMap fun i =>
    ⟨.ofNat (129 * i), .ofNat (i + 1), 0, 1, 6, [Char.ofNat (228 - i)], []⟩ :: (range 128).map fun j =>
      ⟨.ofNat (129 * i + j + 1), 0, .ofNat (i + 1), 0, 6, [Char.ofNat (228 - j)], "http:x".toList⟩

/-- A client that has them and syncs for the first time. -/
def wideSync : Sync :=
  { sampleSync [] none with stores := { (sampleSync [] none).stores with rows := wideRows } }

/-- A debug build accepts them, and posts all 516 entries. -/
theorem handleBmData_debug_exceeds :
    let run := handleBmData Env.succeeding true wideSync sampleState
    run.merge.terminatedFlag = false ∧ run.merge.calls.length = 4 ∧
      run.result.map (fun p => countEntries p.2) = [browserBmMaxTotalCount + 4] := by
  decide +kernel

end MyLaunch
