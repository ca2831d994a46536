/-
# MipsOnQemu.MyLaunch.Freshness -- the snapshot the next run will load

`handleBmData` rewrites the snapshot when there is none yet or when its status says that
something was modified. The status is set by `handleItem` only, so a run that finds the same
entries here and on the server leaves the old snapshot in place, whatever is in it. So does a run
that cannot open the file.

The first part follows the entries themselves through a merge: whatever the two sides' entries
have in common and the merge's own changes keep, the entries of the result have too.
-/

import MipsOnQemu.MyLaunch.HandleBmData

namespace MyLaunch

open KeyedForest List Sync Xml

variable {σ : Type}

/-! ## The entries of a result list -/

/-- What the merge changes in an entry keeps `P`: the ids the server answers with, and the stamp
of an entry on its way to Firefox. -/
structure Stable (env : Env σ) (P : BmEntry → Prop) : Prop where
  ids : ∀ bm parentId groupId bmid, P bm →
    P { bm with parentId := parentId, groupId := groupId, bmid := bmid }
  stamp : ∀ bm n, P bm → P { bm with
        id := bm.id ++ "rdf:#$".toList ++ env.productFFId n
        addDate := env.currentDateTime n }

/-- Every entry of the list satisfies `P`. -/
def AllEntries (P : BmEntry → Prop) (l : BmList) : Prop := Everywhere (fun bm _ => P bm) l

instance (P : BmEntry → Prop) [DecidablePred P] (l : BmList) : Decidable (AllEntries P l) :=
  inferInstanceAs (Decidable (Everywhere (fun bm _ => P bm) l))

theorem allEntries_nil {P : BmEntry → Prop} : AllEntries P [] := trivial

variable {l resultList server : BmList} {s : BmMerge σ} {b : Browser} {time : QString} {p : Browser × BmList}

section Entries

variable {env : Env σ} {P : BmEntry → Prop} (hP : Stable env P) (browserType : Browser) (doit : Bool)

include hP

variable {localList : BmList} (action : ItemAction) {t : BmTree}

theorem post_entries_node {bc : BmEntry} {list : BmList} (hbc : P bc) (hlist : ∀ parentId (s : BmMerge σ),
      AllEntries P (postListToHttpServer env browserType action list parentId s).1)
    (hkeep : AllEntries P list) (parentId : UInt32) (s : BmMerge σ) :
    (postItemToHttpServer env browserType action (.node bc list) parentId s).1.Everywhere
      fun bm _ => P bm := by
  have hids := fun parentId groupId bmid => hP.ids bc parentId groupId bmid hbc
  cases hflag : bc.flag <;> cases action <;> simp only [postItemToHttpServer, hflag] at hids ⊢
  · split <;> exact ⟨hbc, hkeep⟩
  · -- a directory that is added: the parent id first, then the ids of the answer
    split
    · exact ⟨hids parentId bc.groupId bc.bmid, hkeep⟩
    · split
      · exact ⟨hids parentId _ bc.bmid, hkeep⟩
      · exact ⟨hids parentId _ _, hlist _ _⟩
  · split <;> exact ⟨hids bc.parentId _ _, hkeep⟩
  · split <;> exact ⟨hids parentId _ _, hkeep⟩

theorem postList_entries (hl : AllEntries P l) (parentId : UInt32) (s : BmMerge σ) :
    AllEntries P (postListToHttpServer env browserType action l parentId s).1 := by
  induction l using forest_induction generalizing parentId s with
  | nil => trivial
  | cons bc list rest ihlist ihrest =>
    obtain ⟨⟨hbc, hlist⟩, hrest⟩ := hl
    exact ⟨post_entries_node hP browserType action hbc (ihlist hlist) hlist parentId s,
      ihrest hrest parentId _⟩

theorem post_entries (ht : t.Everywhere fun bm _ => P bm) (parentId : UInt32) (s : BmMerge σ) :
    (postItemToHttpServer env browserType action t parentId s).1.Everywhere fun bm _ => P bm := by
  obtain ⟨bc, list⟩ := t
  exact post_entries_node hP browserType action ht.1 (postList_entries hP browserType action ht.2)
    ht.2 parentId s

theorem stampFirefox_entries (ht : t.Everywhere fun bm _ => P bm) (s : BmMerge σ) :
    (stampFirefox env browserType t s).1.Everywhere fun bm _ => P bm := by
  obtain ⟨bc, list⟩ := t
  unfold stampFirefox
  split
  · exact ⟨hP.stamp bc s.ticks ht.1, ht.2⟩
  · exact ht

/-- What `handleItem` pushes is the entry it was given, changed by the merge. -/
theorem handleItem_entries {item : BmTree} (hitem : item.Everywhere fun bm _ => P bm)
    {list : BmList} (hlist : AllEntries P list) (place : Place) (status : MergeStatus) (s : BmMerge σ) :
    AllEntries P (handleItem env browserType doit item list place status s).1 := by
  have hpush : ∀ {t : BmTree}, (t.Everywhere fun bm _ => P bm) → AllEntries P (list ++ [t]) := by
    intro t ht
    exact (everywhere_append list [t]).mpr ⟨hlist, ht, trivial⟩
  cases status with
  | local0Last0Server1 => exact hpush (stampFirefox_entries hP browserType hitem _)
  | local1Last0Server0 =>
    cases doit with
    | false => exact hpush hitem
    | true => exact hpush (post_entries hP browserType .add hitem place.parentId _)
  | none | local0Last1Server0 | local0Last1Server1 | local1Last0Server1 | local1Last1Server0
    | local1Last1Server1 => exact hlist

theorem mergeServerLoop_entries (m : Bool) (localList : BmList) (last : Option BmList) (place : Place)
    (hl : AllEntries P l) (hresult : AllEntries P resultList) (s : BmMerge σ) : AllEntries P
      (mergeServerLoop env m browserType doit localList last place l resultList s).1 := by
  induction l generalizing resultList s with
  | nil => exact hresult
  | cons item l ih =>
    obtain ⟨hitem, hl⟩ := hl
    have hstep : ∀ status : MergeStatus, AllEntries P
        (if status ≠ .local1Last1Server1 then
          handleItem env browserType doit item resultList place status s
        else (resultList, s)).1 := by
      intro status
      split
      · exact handleItem_entries hP browserType doit hitem hresult place status s
      · exact hresult
    rw [mergeServerLoop]
    split
    · exact hresult
    · dsimp only
      split
      · exact ih hl hresult s
      · exact ih hl (hstep _) _

theorem bmMergeAction_entries_of_loop {last : Option BmList} {place : Place} (hserver : AllEntries P server)
    (hloop : AllEntries P (mergeLocalLoop env true browserType doit localList last (some server)
      place resultList s).1) :
    AllEntries P
      (bmMergeAction env true browserType doit localList last (some server) resultList place s).1 :=
  mergeServerLoop_entries hP browserType doit true localList last place hserver hloop _

theorem mergeLocalLoop_entries (hl : AllEntries P l) (hserver : AllEntries P server) (last : Option BmList)
    (place : Place) (hresult : AllEntries P resultList) (s : BmMerge σ) : AllEntries P
      (mergeLocalLoop env true browserType doit l last (some server) place resultList s).1 := by
  induction l using forest_induction generalizing server last place resultList s with
  | nil => exact hresult
  | cons item children rest ihc ihr =>
    obtain ⟨hnode, hrest⟩ := hl
    obtain ⟨-, hchildren⟩ := id hnode
    have hstep : AllEntries P (mergeLocalItem env true browserType doit (.node item children) last
        (some server) place resultList s).1 := by
      rcases bmItemInList_cases env.debugmerge item (some server) with ⟨-, hpos⟩ | ⟨hpos, hfirst, -⟩
      · -- the server does not have it
        have hneg : ¬(0 : Int) ≤ bmItemInList env.debugmerge item (some server) := by
          rw [hpos]
          decide
        have hstatus : ∀ inLast : Int, bmItemMergeStatus 1 inLast
            (bmItemInList env.debugmerge item (some server)) ≠ .local1Last1Server1 ∧
            bmItemMergeStatus 1 inLast
              (bmItemInList env.debugmerge item (some server)) ≠ .local1Last0Server1 := by
          intro inLast
          rw [bmItemMergeStatus_of_local, if_neg hneg]
          split <;> exact ⟨by decide, by decide⟩
        rw [mergeLocalItem_node]
        simp only [if_true, hstatus, and_self, not_false_eq_true, ne_eq]
        exact handleItem_entries hP browserType doit hnode hresult place _ s
      · have hfound := hserver.of_mem (mem_of_firstEntry hfirst)
        rw [mergeLocalItem_of_server hpos]
        refine (everywhere_append _ _).mpr ⟨hresult, ⟨?_, ?_⟩, trivial⟩
        · rw [← Rose.eta (entryAt (some server) _)] at hfound
          exact hfound.1
        · rw [← Rose.eta (entryAt (some server) _)] at hfound
          exact bmMergeAction_entries_of_loop hP browserType doit hfound.2
            (ihc hchildren hfound.2 _ _ allEntries_nil s)
    rw [mergeLocalLoop]
    split
    · exact hresult
    · exact ihr hrest hserver last place hstep _

/-- **The entries of a result list** come from the two sides. -/
theorem bmMergeAction_entries (hl : AllEntries P localList)
    (hserver : AllEntries P server) (last : Option BmList) (place : Place) (s : BmMerge σ) : AllEntries P
      (bmMergeAction env true browserType doit localList last (some server) [] place s).1 :=
  bmMergeAction_entries_of_loop hP browserType doit hserver
    (mergeLocalLoop_entries hP browserType doit hl hserver last place allEntries_nil s)

end Entries

/-! ## The shape of a result list -/

theorem exists_mem_of_bmLook {debugmerge : UInt32} (k : BmKey) (f ds : Forest BmKey)
    (h : bmLook debugmerge k f = some ds) : ∃ t ∈ f, t.val = k ∧ t.children = ds := by
  induction f with
  | nil => cases h
  | cons x f ih =>
    have hrest : bmLook debugmerge k f = some ds → ∃ t ∈ x :: f, t.val = k ∧ t.children = ds := by
      intro h
      obtain ⟨t, ht, hval⟩ := ih h
      exact ⟨t, mem_cons_of_mem _ ht, hval⟩
    rw [bmLook] at h
    split_ifs at h with hlt hgt heq
    · exact hrest h
    · exact ⟨x, mem_cons_self, heq.symm, Option.some.inj h⟩
    · exact hrest h

theorem LocalStores.wellFormed (stores : LocalStores) (h : stores.current b = some l) : WellFormed l := by
  cases b with
  | netbookmark =>
    have hok := readMyBookmark_ok stores.urlScheme (browserInfo .netbookmark) stores.rows stores.queryFails
      ((browserInfo .netbookmark).maxlev + 2) 0 [] 0
    simp only [LocalStores.current] at h
    split at h
    · cases h
      exact hok.2
    · cases h
  | ie =>
    have hok := readDirectory_ok stores.urlScheme (browserInfo .ie) stores.favourites.children
      stores.favourites.val 0
    rw [Rose.eta] at hok
    simp only [LocalStores.current] at h
    split at h
    · cases h
      exact hok.2
    · cases h
  | firefox =>
    obtain ⟨list, -, rfl⟩ := Option.map_eq_some_iff.mp h
    exact list.wellFormed
  | opera => cases h

section Shape

variable (env : Env σ) (f : Sync)

theorem Sync.wellFormed_lastUpdate (b : Browser) : WellFormed (f.lastUpdate b).bmList := by
  rw [lastUpdate]
  cases f.snapshot with
  | none => trivial
  | some file => exact (readStream_ok b file.text).wellFormed

theorem Sync.wellFormed_serverSide (b : Browser) : WellFormed (f.serverSide b) := by
  rw [serverSide]
  split
  · exact (readStream_ok b _).wellFormed
  · exact f.wellFormed_lastUpdate b

theorem Sync.wellFormed_of_mergedKeys (h : keyForest l = f.mergedKeys env b) : WellFormed l := by
  rw [wellFormed_iff_everywhere, h, mergedKeys]
  cases hcur : f.stores.current b with
  | none => exact wellFormed_iff_everywhere.mp (f.wellFormed_lastUpdate b)
  | some current =>
    refine Everywhere.merge exists_mem_of_bmLook ?_
      (wellFormed_iff_everywhere.mp (f.stores.wellFormed hcur)) _
      (wellFormed_iff_everywhere.mp (f.wellFormed_serverSide b))
    -- a bookmark on both sides has no children on either, so none in the merge
    rintro k cs base ds ⟨hcs, hlink⟩ ⟨hds, -⟩
    refine ⟨fun hitem => ?_, hlink⟩
    rw [hcs hitem, hds hitem]
    rfl

end Shape

/-! ## Texts that survive -/

/-- An entry that survives being written to the snapshot and read back. -/
def Storable (bm : BmEntry) : Prop := TextSafe bm ∧ Normalised bm ∧ NoReturn bm

instance : DecidablePred Storable := fun bm =>
  inferInstanceAs (Decidable (TextSafe bm ∧ Normalised bm ∧ NoReturn bm))

theorem textSafe_ids {bm : BmEntry} (h : TextSafe bm) (parentId groupId bmid : UInt32) :
    TextSafe { bm with parentId := parentId, groupId := groupId, bmid := bmid } := by
  rintro ⟨field, tag⟩ hp text htext
  cases field with
  | bmid =>
    cases htext
    exact cdataSafe_uintText bmid
  | name | desciption | link | addDate | modifyDate | id | icon | feedurl | lastCharset
    | personalToolbarFolder | hr | lastVisit => exact h _ hp text htext

theorem textSafe_stamp {bm : BmEntry} (h : TextSafe bm) {ffid : QString} (hff : Xml.CDataSafe ffid)
    {date : QDateTime} (hdate : ∀ text ∈ date, Xml.CDataSafe text) :
    TextSafe { bm with id := bm.id ++ "rdf:#$".toList ++ ffid, addDate := date } := by
  have hid : Xml.CDataSafe bm.id := by
    by_cases hnil : bm.id = []
    · rw [hnil]
      decide
    · exact h (.id, "ID".toList) (by decide) bm.id (by rw [fieldText, nonEmpty, if_neg hnil]; rfl)
  rintro ⟨field, tag⟩ hp text htext
  cases field with
  | id =>
    have htext : text = bm.id ++ "rdf:#$".toList ++ ffid := by
      rw [fieldText, nonEmpty, if_neg (by simp)] at htext
      exact (Option.mem_some.mp htext).symm
    rw [htext, append_assoc]
    refine hid.append_cons ?_ (by decide) (by decide)
    exact Xml.CDataSafe.append_cons (a := "df:#".toList) (by decide) hff (by decide) (by decide)
  | addDate => exact hdate text htext
  | name | desciption | link | bmid | modifyDate | icon | feedurl | lastCharset
    | personalToolbarFolder | hr | lastVisit => exact h _ hp text htext

/-- The outside world writes texts that can be stored: the random ids, the dates, and the times the
server answers with. -/
structure Env.Plain (env : Env σ) : Prop where
  ffid : ∀ n, Xml.CDataSafe (env.productFFId n)
  date : ∀ n, ∀ text ∈ env.currentDateTime n, Xml.CDataSafe text
  lastmodified : ∀ w r, (env.post w r).2.lastmodified.all isValueChar

theorem stable_storable {env : Env σ} (h : env.Plain) : Stable env Storable where
  ids _ parentId groupId bmid hbm := ⟨textSafe_ids hbm.1 parentId groupId bmid, hbm.2⟩
  stamp _ n hbm := ⟨textSafe_stamp hbm.1 (h.ffid n) (h.date n), hbm.2⟩

/-! ## The file that is stored -/

theorem mem_browsers (b : Browser) : b ∈ browsers := by
  cases b <;> decide

theorem Sync.mem_enabled {f : Sync} : b ∈ f.enabled ↔ f.enable b = true := by
  rw [enabled, mem_filter, and_iff_right (mem_browsers b)]

section Stored

variable (f : Sync) (results : List (Browser × BmList))

/-- The list `storeLocalbmData` writes for a browser. -/
def Sync.storedList (b : Browser) : BmList :=
  if f.enable b then resultOf results b else (f.lastUpdate b).bmList

/-- The blocks of the file, one for each browser. -/
def Sync.blocks : List (Browser × UInt32 × BmList) :=
  browsers.map fun b => (b, (if f.enable b then 1 else 0), f.storedList results b)

theorem snapshotText_eq (time : QString) :
    snapshotText f results time = fileText time (UInt32.ofBitVec (qhashEx f.username)) (f.blocks results) := by
  simp [snapshotText, fileText, browsers, blocks, storedList, bmListToXml]

/-- **What the next run loads** is what was stored, up to the order of siblings. -/
theorem loadLastupdateData_stored (htime : time.all isValueChar)
    (hsafe : ∀ b, AllEntries TextSafe (f.storedList results b)) (hform : WellFormed (f.storedList results b))
    (hnorm : AllEntries Storable (f.storedList results b)) : SameUpToOrder
      (keyForest (loadLastupdateData (some (snapshotText f results time)) b).bmList)
      (keyForest (f.storedList results b)) := by
  have hmem : (b, _, f.storedList results b) ∈ f.blocks results := mem_map.2 ⟨b, mem_browsers b, rfl⟩
  have hblocks : ∀ p ∈ f.blocks results, Everywhere (fun bm _ => TextSafe bm) p.2.2 :=
    forall_mem_map.2 fun b' _ => hsafe b'
  have hnodup : ((f.blocks results).map (·.1)).Nodup := by
    rw [blocks, map_map]
    show browsers.Nodup
    decide
  have hread := readStream_fileText htime (UInt32.ofBitVec (qhashEx f.username)) hblocks hnodup hmem
  have hsame := readBackList_sameUpToOrder ⟨hform, hnorm.imp fun _ _ h => h.2.1⟩ (hnorm.imp fun _ _ h => h.2.2) 0 []
  rw [mapForest_nil, append_nil] at hsame
  have hkeys : ∀ l : BmList, keyForest l =
      mapForest (fun e : StoredEntry => (⟨e.name, e.link, e.flag⟩ : BmKey))
        (mapForest BmEntry.stored l) := by
    intro l
    rw [mapForest_mapForest]
    rfl
  rw [loadLastupdateData, snapshotText_eq, hread, hkeys, hkeys (f.storedList results b)]
  exact hsame.map _

end Stored

/-! ## When the snapshot is fresh -/

/-- Every text the run may have to store can be stored. -/
structure Sync.TextsOk (f : Sync) (time : QString) : Prop where
  lastUpdate : ∀ b, AllEntries TextSafe (f.lastUpdate b).bmList
  sides : ∀ b ∈ f.enabled, ∀ l ∈ f.stores.current b,
    AllEntries Storable l ∧ AllEntries Storable (f.serverSide b)
  updatetime : time.all isValueChar
  serverTime : ∀ b, (f.server b).updateTime.all isValueChar

section Fresh

variable {env : Env σ} {debug : Bool} {f : Sync}

/-- The results of either pass are results of `mergeBrowser`. -/
def IsResult (env : Env σ) (f : Sync) (bs : List Browser) (p : Browser × BmList) : Prop :=
  p.1 ∈ bs ∧ ∃ doit t, p.2 = (mergeBrowser env f doit p.1 t).1

variable {bs : List Browser} {results : List (Browser × BmList)}

theorem IsResult.cons (h : IsResult env f bs p)
    (b : Browser) : IsResult env f (b :: bs) p := ⟨mem_cons_of_mem b h.1, h.2⟩

theorem isResult_commitPass (hp : p ∈ (commitPass env f bs s).1) : IsResult env f bs p := by
  induction bs generalizing s with
  | nil => cases hp
  | cons b bs ih =>
    rcases mem_cons.mp hp with rfl | hp
    · exact ⟨mem_cons_self, true, s, rfl⟩
    · exact (ih hp).cons b

theorem isResult_dryPass (hp : p ∈ (dryPass env f debug bs s).2.1) : IsResult env f bs p := by
  induction bs generalizing s with
  | nil => cases hp
  | cons b bs ih =>
    cases hcheck : checkValidBmlist debug (browserInfo b) (mergeBrowser env f false b s).1 with
    | error e =>
      rw [dryPass_cons_error env f hcheck] at hp
      rw [mem_singleton.mp hp]
      exact ⟨mem_cons_self, false, s, rfl⟩
    | ok n =>
      rw [dryPass_cons_ok env f hcheck] at hp
      rcases mem_cons.mp hp with rfl | hp
      · exact ⟨mem_cons_self, false, s, rfl⟩
      · exact (ih hp).cons b

theorem isResult_bothPasses (hp : p ∈ (bothPasses env debug f s).2.1) : IsResult env f f.enabled p := by
  rw [bothPasses] at hp
  dsimp only at hp
  split at hp
  · exact isResult_commitPass hp
  · exact isResult_dryPass hp

theorem exists_mem_resultOf (h : b ∈ results.map Prod.fst) :
    ∃ p ∈ results, p.1 = b ∧ resultOf results b = p.2 := by
  rw [resultOf]
  cases hfind : results.find? (·.1 = b) with
  | none =>
    obtain ⟨p, hp, rfl⟩ := mem_map.mp h
    exact absurd (by simp) (List.find?_eq_none.mp hfind p hp)
  | some p =>
    exact ⟨p, List.mem_of_find?_eq_some hfind, by simpa using List.find?_some hfind, rfl⟩

theorem mergeBrowser_storable (henv : env.Plain) (htexts : f.TextsOk time) (hb : f.Merges b l) (doit : Bool)
    (t : BmMerge σ) : AllEntries Storable (mergeBrowser env f doit b t).1 := by
  obtain ⟨hlocal, hserver⟩ := htexts.sides b hb.1 l hb.2
  rw [mergeBrowser_some env f hb.2]
  exact bmMergeAction_entries (stable_storable henv) b doit hlocal hserver _ _ t

theorem mergeBrowser_textSafe (henv : env.Plain) (htexts : f.TextsOk time) (hb : b ∈ f.enabled) (doit : Bool)
    (t : BmMerge σ) : AllEntries TextSafe (mergeBrowser env f doit b t).1 := by
  cases hcur : f.stores.current b with
  | some l => exact (mergeBrowser_storable henv htexts ⟨hb, hcur⟩ doit t).imp fun _ _ h => h.1
  | none =>
    simp only [mergeBrowser, hcur]
    exact htexts.lastUpdate b

theorem keyForest_resultOf (hkeys : keysOf results = f.mergedAll env f.enabled) (hb : b ∈ f.enabled) :
    (∃ p ∈ results, p.1 = b ∧ resultOf results b = p.2) ∧
      keyForest (resultOf results b) = f.mergedKeys env b := by
  have hfst : results.map Prod.fst = f.enabled := by
    have h := congrArg (map Prod.fst) hkeys
    simpa [keysOf, mergedAll, Function.comp_def] using h
  obtain ⟨p, hp, rfl, hresult⟩ := exists_mem_resultOf (hfst ▸ hb)
  refine ⟨⟨p, hp, rfl, hresult⟩, ?_⟩
  have hmem : (p.1, keyForest p.2) ∈ f.mergedAll env f.enabled := by
    rw [← hkeys]
    exact mem_map.2 ⟨p, hp, rfl⟩
  obtain ⟨b', -, heq⟩ := mem_map.mp hmem
  obtain ⟨rfl, hkey⟩ := Prod.mk.inj heq
  rw [hresult, hkey]

theorem loadLastupdateData_result (henv : env.Plain) (htexts : f.TextsOk time)
    (hresults : ∀ p ∈ results, IsResult env f f.enabled p)
    (hkeys : keysOf results = f.mergedAll env f.enabled) {stamp : QString}
    (hstamp : stamp.all isValueChar) (hb : f.Merges b l) : SameUpToOrder
      (keyForest (loadLastupdateData (some (snapshotText f results stamp)) b).bmList)
      (keyForest (resultOf results b)) := by
  have hstored : ∀ b', f.enable b' = true → f.storedList results b' = resultOf results b' := by
    intro b' hb'
    rw [storedList, if_pos hb']
  have hlist := hstored b (mem_enabled.mp hb.1)
  obtain ⟨⟨p, hp, rfl, hresult⟩, hkey⟩ := keyForest_resultOf hkeys hb.1
  obtain ⟨-, doit, t, hmerge⟩ := hresults p hp
  have hsafe : ∀ b', AllEntries TextSafe (f.storedList results b') := by
    intro b'
    by_cases hb' : f.enable b' = true
    · obtain ⟨⟨q, hq, rfl, hresult'⟩, -⟩ := keyForest_resultOf hkeys (mem_enabled.mpr hb')
      obtain ⟨hmem, doit', t', hmerge'⟩ := hresults q hq
      rw [hstored _ hb', hresult', hmerge']
      exact mergeBrowser_textSafe henv htexts hmem doit' t'
    · rw [storedList, if_neg hb']
      exact htexts.lastUpdate b'
  have hform : WellFormed (f.storedList results p.1) := by
    rw [hlist]
    exact f.wellFormed_of_mergedKeys env hkey
  have hnorm : AllEntries Storable (f.storedList results p.1) := by
    rw [hlist, hresult, hmerge]
    exact mergeBrowser_storable henv htexts hb doit t
  have hload := loadLastupdateData_stored f results hstamp hsafe hform hnorm
  rwa [hlist] at hload

/-- The status of a run that started fresh says whether some browser had something to do. -/
theorem statusAfter_start_iff : f.statusAfter env bs .successNoModify = .successWithModify ↔
      ∃ b ∈ bs, ∃ l, f.stores.current b = some l ∧
        ¬InSync (bmLook env.debugmerge) (keyForest l) (keyForest (f.serverSide b)) := by
  have hedits : ∀ b, f.mergedEdits env b ≠ [] ↔ ∃ l, f.stores.current b = some l ∧
      ¬InSync (bmLook env.debugmerge) (keyForest l) (keyForest (f.serverSide b)) := by
    intro b
    rw [mergedEdits]
    cases f.stores.current b with
    | none => simp
    | some l => simp [edits_eq_nil_iff_inSync]
  rw [statusAfter]
  split
  · next hnil =>
    constructor
    · intro hmod
      cases hmod
    · rintro ⟨b, hb, h⟩
      exact absurd (hnil b hb) ((hedits b).mpr h)
  · next hnot =>
    simp only [not_forall] at hnot
    obtain ⟨b, hb, hne⟩ := hnot
    exact ⟨fun _ => ⟨b, hb, (hedits b).mp hne⟩, fun _ => rfl⟩

end Fresh

/-- The run rewrites the snapshot: the file can be opened, and there was none before or some merged
browser had something to do. -/
def Sync.Writes (f : Sync) (env : Env σ) : Prop :=
  f.localfileOpens = true ∧ (f.snapshot = none ∨ ∃ b l, f.Merges b l ∧
    ¬InSync (bmLook env.debugmerge) (keyForest l) (keyForest (f.serverSide b)))

/-- The local bookmark of `sampleSync`, as the server has it. -/
def sharedBookmark : BmTree := bookmark ['b'] "http:x".toList 7

def emptySnapshot : SnapshotFile where
  text := bmListToXml true true [] .netbookmark ['8'] 1 7
  bookmarks b := by cases b <;> decide +kernel

/-- The run of `sampleSync` with a server that has the bookmark and an empty old snapshot. -/
def staleRun : Outcome Nat :=
  handleBmData Env.succeeding false (sampleSync [sharedBookmark] (some emptySnapshot))
    (.start 0 ['8'] 0 0)

theorem plain_succeeding : Env.succeeding.Plain where
  ffid _ := by
    show Xml.CDataSafe []
    decide
  date _ text h := by cases h
  lastmodified _ _ := by
    show all ['1'] isValueChar = true
    rfl

theorem textsOk_sampleSync : (sampleSync [sharedBookmark] none).TextsOk ['8'] where
  lastUpdate _ := trivial
  sides := by decide +kernel
  updatetime := by decide
  serverTime b := by cases b <;> decide +kernel

end MyLaunch
