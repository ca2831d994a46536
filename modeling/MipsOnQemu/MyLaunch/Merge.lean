/-
# MipsOnQemu.MyLaunch.Merge -- the three-way bookmark merge of `bmmerge.cpp`

The model of `bmMerge::bmMergeAction` and of what it calls: `handleItem` picks the
operation for one entry, `postItemToHttpServer` sends an entry and its children to
the server, `downloadToLocal` writes them to the local store.

The state `BmMerge` holds the members and run parameters these functions share. The
server and the local store are reached through the request functions of `Env`, over
an arbitrary world type, so that every answer they can give is covered. The field
`calls` records, for the proofs only, each call of the two operations that
`handleItem` makes.
-/

import MipsOnQemu.MyLaunch.Bookmark
import MipsOnQemu.Lib.ThreeWayMerge

namespace MyLaunch

open KeyedForest (Rose Forest Side)

/-! ## State and environment -/

/-- The values of `mergestatus` that the merge can leave. -/
inductive SyncStatus where
  | successNoModify | successWithModify
  | failLogin | failPostHttp
  | failDownlocalWriteFile | failDownlocalDeleteFile | failDownlocalDbQuery
  | failExceedTotalNum | failExceedDirCount | failExceedLevel
  | failGetXmlFromServer | failReadXmlFromServer
  deriving DecidableEq, Repr

/-- `POST_HTTP_ACTION_*`. -/
inductive PostAction where
  | deleteItem | deleteDir | addItem | addDir
  deriving DecidableEq, Repr

/-- One post of the `DoNetThread`: its action, ids and form fields. -/
structure PostRequest where
  action : PostAction
  parentid : UInt32
  browserid : Browser
  bmid : UInt32 := 0
  address : QString := []
  subject : QString := []
  deriving DecidableEq

/-- The answer to a post: the transport error flag, whether `result` reads
`do_success`, and the attributes of the `status` element. -/
structure PostReply where
  error : Bool
  success : Bool
  lastmodified : QString
  groupid : UInt32
  bmid : UInt32
  deriving DecidableEq

/-- One access of `downloadToLocal` to a local store: the launcher's table, the
favourites directory or the Firefox database. -/
inductive LocalRequest where
  | getNetBookmarkMaxGroupid
  | addCatitemToDb (fullPath shortName : QString) (parentId : UInt32) (isDir : Bool)
      (groupId : UInt32)
  | deleteNetworkBookmark (groupId : UInt32)
  | deleteCatitemFromDb (fullPath shortName : QString) (index : UInt32)
  | createDirectory (path : QString)
  | createFile (path : QString)
  | writeFile (path content : QString) (count : Nat)
  | deleteDirectory (path : QString)
  | removeFile (path : QString)
  | firefoxExec (sql : QString) (binds : List (QString × QString))
  | defaultDbExec (sql : QString)
  | deleteIdFromFirefoxDb (id : UInt32)
  deriving DecidableEq

/-- The outcome of a local access, with the first number it yields. -/
structure LocalReply where
  ok : Bool
  value : UInt32

/-- What the merge runs in: the two stores behind their requests, the clock and the
random ids, and the settings it reads. -/
structure Env (σ : Type) where
  post : σ → PostRequest → σ × PostReply
  access : σ → LocalRequest → σ × LocalReply
  currentDateTime : Nat → QDateTime
  productFFId : Nat → QString
  debugmerge : UInt32 := 1
  firefoxVersion : UInt32 := 3

/-- `ACTION_ITEM_DELETE` and `ACTION_ITEM_ADD`. -/
inductive ItemAction where
  | delete | add
  deriving DecidableEq, Repr

/-- Where a merge stands: the server directory's group id, the local path, the local
directory's group id, and the keys of the directories above. The last is not in the
source; it names the directory the other three address. -/
structure Place where
  parentId : UInt32
  path : QString
  localParentId : UInt32
  dir : List BmKey
  deriving DecidableEq

/-- One call of an operation by `handleItem`: a download changes the local side, a
post the server side. -/
structure Call where
  side : Side
  action : ItemAction
  item : BmTree
  place : Place
  deriving DecidableEq

/-- The members of `bmMerge` and the run parameters the merge reads and writes. -/
structure BmMerge (σ : Type) where
  world : σ
  mergestatus : SyncStatus := .successNoModify
  terminatedFlag : Bool := false
  postError : Bool := false
  postBmid : UInt32 := 0
  postMaxGroupid : UInt32 := 0
  updatetime : QString := []
  ticks : Nat := 0
  calls : List Call := []

variable {σ : Type}

namespace BmMerge

/-- `bmMerge::setMergeStatus`: every failure also stops the merge. -/
def setMergeStatus (s : BmMerge σ) (status : SyncStatus) : BmMerge σ :=
  { s with
    mergestatus := status
    terminatedFlag :=
      if status ≠ .successNoModify ∧ status ≠ .successWithModify then true else s.terminatedFlag }

/-- One access to a local store. -/
def access (s : BmMerge σ) (env : Env σ) (r : LocalRequest) : LocalReply × BmMerge σ :=
  let (world, reply) := env.access s.world r
  (reply, { s with world })

/-- One post, answered: the thread runs and `doPostItemDone` reads the answer. -/
def doPost (s : BmMerge σ) (env : Env σ) (r : PostRequest) : BmMerge σ :=
  let (world, reply) := env.post s.world r
  let s := { s with world }
  if reply.error then { s with postError := true }
  else
    -- the attributes are read only from a `do_success` answer
    let lastModified := if reply.success then reply.lastmodified else []
    let newgroupid := if reply.success then reply.groupid else 0
    let bmid := if reply.success then reply.bmid else 0
    let s := if lastModified ≠ [] then { s with updatetime := lastModified } else s
    let error := lastModified == []
    match r.action with
    | .deleteItem | .deleteDir => { s with postError := error }
    | .addItem =>
      if bmid ≠ 0 then { s with postBmid := bmid, postError := error }
      else { s with postError := true }
    | .addDir =>
      if newgroupid ≠ 0 ∧ bmid ≠ 0 then
        { s with postMaxGroupid := newgroupid, postBmid := bmid, postError := error }
      else { s with postError := true }

end BmMerge

/-! ## `postItemToHttpServer` -/

section Post

variable (env : Env σ) (browserType : Browser)

mutual
/-- `bmMerge::postItemToHttpServer`. The entry is changed in place: it gets the ids
the server answers with. -/
def postItemToHttpServer (action : ItemAction) : BmTree → UInt32 → BmMerge σ → BmTree × BmMerge σ
  | .node bc list, parentId, s =>
    match bc.flag, action with
    | .catagory, .add =>
      let bc := { bc with parentId := parentId }
      let s := s.doPost env ⟨.addDir, parentId, browserType, 0, [], bc.name⟩
      if s.postError then (.node bc list, s.setMergeStatus .failPostHttp)
      else
        let bc := { bc with groupId := s.postMaxGroupid }
        if bc.groupId = 0 then (.node bc list, s.setMergeStatus .failPostHttp)
        else
          let bc := { bc with bmid := s.postBmid }
          let (list, s) := postListToHttpServer action list bc.groupId s
          (.node bc list, s)
    | .catagory, .delete =>
      let s := s.doPost env ⟨.deleteDir, parentId, browserType, bc.groupId, [], []⟩
      if s.postError then (.node bc list, s.setMergeStatus .failPostHttp) else (.node bc list, s)
    | .item, .add =>
      let bc := { bc with parentId := parentId, groupId := 0 }
      let s := s.doPost env ⟨.addItem, parentId, browserType, bc.bmid, bc.link, bc.name⟩
      let bc := { bc with groupId := 0, bmid := s.postBmid }
      if s.postError then (.node bc list, s.setMergeStatus .failPostHttp) else (.node bc list, s)
    | .item, .delete =>
      let s := s.doPost env ⟨.deleteItem, parentId, browserType, bc.bmid, [], []⟩
      let bc := { bc with groupId := 0, bmid := s.postBmid }
      if s.postError then (.node bc list, s.setMergeStatus .failPostHttp) else (.node bc list, s)

/-- The loop over the children of a directory just added; it does not stop at a failure. -/
def postListToHttpServer (action : ItemAction) : BmList → UInt32 → BmMerge σ → BmList × BmMerge σ
  | [], _, s => ([], s)
  | bc :: list, parentId, s =>
    let (bc, s) := postItemToHttpServer action bc parentId s
    let (list, s) := postListToHttpServer action list parentId s
    (bc :: list, s)
end

end Post

/-! ## `downloadToLocal` -/

section Download

variable (env : Env σ)

/-- A bookmark into the favourites directory: `CREATE_ALWAYS`, then one unchecked write
whose byte count is the length of the text in UTF-16 units. -/
def writeUrlFile (filePath link : QString) (s : BmMerge σ) : BmMerge σ :=
  let (file, s) := s.access env (.createFile filePath)
  if !file.ok then s.setMergeStatus .failDownlocalWriteFile
  else
    let urlContent := "[InternetShortcut]\nURL=".toList ++ link ++ ['\n']
    (s.access env (.writeFile filePath urlContent (urlContent.flatMap utf16).length)).2

/-- A bookmark into the Firefox database. The place holders stand inside quotes. -/
def insertFirefoxItem (bc : BmEntry) (localParentId : UInt32) (s : BmMerge σ) : BmMerge σ :=
  let url := [(":url".toList, bc.link)]
  let (_, s) := s.access env (.firefoxExec "INSERT INTO moz_places(url) VALUES(':url')".toList url)
  let (rows, s) := s.access env
    (.firefoxExec "SELECT id FROM moz_places WHERE url=':url' ORDER BY id DESC".toList url)
  if !rows.ok then s.setMergeStatus .failDownlocalDbQuery
  else if rows.value = 0 then s
  else
    let (done, s) := s.access env
      (.firefoxExec
        "INSERT INTO moz_bookmarks(type,fk,parent,title) VALUES(1,:type,:fk,':title');".toList
        [(":type".toList, uintText rows.value), (":fk".toList, uintText localParentId),
          (":title".toList, bc.name)])
    if !done.ok then s.setMergeStatus .failDownlocalDbQuery else s

/-- A bookmark out of the Firefox database. The second statement is built by assigning a
string to the query, which runs it on the default connection, and the first statement is
then run again there. -/
def deleteFirefoxItem (bc : BmEntry) (localParentId : UInt32) (s : BmMerge σ) : BmMerge σ :=
  let place := " parent=".toList ++ uintText localParentId ++ " AND title='".toList ++ bc.name
  let sql := "DELETE FROM moz_places WHERE id=(SELECT fk FROM moz_bookmarks WHERE".toList ++
    place ++ "')".toList
  let (done, s) := s.access env (.firefoxExec sql [])
  if !done.ok then s.setMergeStatus .failDownlocalDbQuery
  else
    let (_, s) := s.access env
      (.defaultDbExec ("DELETE FROM moz_bookmarks WHERE".toList ++ place ++ "' AND type=1".toList))
    let (again, s) := s.access env (.defaultDbExec sql)
    if !again.ok then s.setMergeStatus .failDownlocalDbQuery else s

section Store

variable (browserType : Browser) (bc : BmEntry) (path : QString) (localParentId : UInt32) (s : BmMerge σ)

def deleteLocalDir : BmMerge σ :=
  match browserType with
  | .netbookmark =>
    let (done, s) := s.access env (.deleteNetworkBookmark bc.groupId)
    if !done.ok then s.setMergeStatus .failDownlocalDbQuery else s
  | .ie =>
    let (done, s) := s.access env (.deleteDirectory (path ++ "\\".toList ++ bc.name))
    if !done.ok then s.setMergeStatus .failDownlocalDeleteFile else s
  | .firefox =>
    let (rows, s) := s.access env
      (.firefoxExec ("select id from moz_bookmarks where parent=".toList ++ uintText localParentId ++
        " and title='".toList ++ bc.name ++ "'".toList) [])
    if !rows.ok then s.setMergeStatus .failDownlocalDbQuery
    else (s.access env (.deleteIdFromFirefoxDb rows.value)).2
  | .opera => s

def addLocalItem : BmMerge σ :=
  match browserType with
  | .netbookmark =>
    let (done, s) := s.access env (.addCatitemToDb bc.link bc.name localParentId false 0)
    if !done.ok then s.setMergeStatus .failDownlocalDbQuery else s
  | .ie => writeUrlFile env (path ++ "\\".toList ++ bc.name ++ ".url".toList) bc.link s
  | .firefox => insertFirefoxItem env bc localParentId s
  | .opera => s

def deleteLocalItem : BmMerge σ :=
  match browserType with
  | .netbookmark =>
    let (done, s) := s.access env (.deleteCatitemFromDb bc.link bc.name bc.bmid)
    if !done.ok then s.setMergeStatus .failDownlocalDbQuery else s
  | .ie =>
    let (done, s) := s.access env (.removeFile (path ++ ['/'] ++ bc.name ++ ".url".toList))
    if !done.ok then s.setMergeStatus .failDownlocalDeleteFile else s
  | .firefox => deleteFirefoxItem env bc localParentId s
  | .opera => s

/-- The directory itself into a local store: the path and group id its children go under,
or the status of the failure. -/
def addLocalDir : Option (QString × UInt32) × BmMerge σ :=
  match browserType with
  | .netbookmark =>
    let (max, s) := s.access env .getNetBookmarkMaxGroupid
    let (done, s) := s.access env (.addCatitemToDb [] bc.name localParentId true max.value)
    if !done.ok then (none, s.setMergeStatus .failDownlocalDbQuery) else (some ([], max.value), s)
  | .ie =>
    let dirPath := path ++ "\\".toList ++ bc.name
    let (done, s) := s.access env (.createDirectory dirPath)
    if !done.ok then (none, s.setMergeStatus .failDownlocalWriteFile)
    else (some (dirPath, localParentId), s)
  | .firefox =>
    let (done, s) := s.access env
      (.firefoxExec ("INSERT INTO moz_bookmarks(type,parent,title) VALUES(2,".toList ++
        uintText localParentId ++ ",'".toList ++ bc.name ++ "');".toList) [])
    if !done.ok then (none, s.setMergeStatus .failDownlocalDbQuery)
    else
      -- the statement has a second place holder that is never filled
      let (rows, s) := s.access env
        (.firefoxExec ("select id from moz_bookmarks where title='".toList ++ bc.name ++
          "' and parent=%2 and type=2 order by id desc".toList) [])
      if !rows.ok then (none, s.setMergeStatus .failDownlocalDbQuery) else (some ([], rows.value), s)
  | .opera => (none, s)

end Store

mutual
def downloadToLocal (browserType : Browser) (action : ItemAction) :
    BmTree → QString → UInt32 → BmMerge σ → BmMerge σ
  | .node bc list, path, localParentId, s =>
    if browserType = .firefox ∧ env.firefoxVersion = 2 then s
    else
      match bc.flag, action with
      | .catagory, .add =>
        match addLocalDir env browserType bc path localParentId s with
        | (none, s) => s
        | (some (dirPath, owner), s) => downloadListToLocal browserType action list dirPath owner s
      | .catagory, .delete => deleteLocalDir env browserType bc path localParentId s
      | .item, .add => addLocalItem env browserType bc path localParentId s
      | .item, .delete => deleteLocalItem env browserType bc path localParentId s

/-- The loop over the children of a directory just added; it does not stop at a failure. -/
def downloadListToLocal (browserType : Browser) (action : ItemAction) :
    BmList → QString → UInt32 → BmMerge σ → BmMerge σ
  | [], _, _, s => s
  | bm :: list, path, localParentId, s =>
    downloadListToLocal browserType action list path localParentId
      (downloadToLocal browserType action bm path localParentId s)
end

end Download

/-! ## `handleItem` -/

/-- `BM_MERGE_STATUS`, by presence in the local, lastupdate and server lists. -/
inductive MergeStatus where
  | none
  | local0Last0Server1
  | local0Last1Server0
  | local0Last1Server1
  | local1Last0Server0
  | local1Last0Server1
  | local1Last1Server0
  | local1Last1Server1
  deriving DecidableEq, Repr

/-- `BM_ITEM_MERGE_STATUS`: a position that is not negative means present. -/
def bmItemMergeStatus (inLocal inLast inServer : Int) : MergeStatus :=
  match decide (inLocal ≥ 0), decide (inLast ≥ 0), decide (inServer ≥ 0) with
  | false, false, false => .none
  | false, false, true => .local0Last0Server1
  | false, true, false => .local0Last1Server0
  | false, true, true => .local0Last1Server1
  | true, false, false => .local1Last0Server0
  | true, false, true => .local1Last0Server1
  | true, true, false => .local1Last1Server0
  | true, true, true => .local1Last1Server1

section HandleItem

variable (env : Env σ) (browserType : Browser) (doit : Bool)

/-- Record a call of an operation. -/
def BmMerge.record (s : BmMerge σ) (c : Call) : BmMerge σ := { s with calls := s.calls ++ [c] }

def callPost (action : ItemAction) (item : BmTree) (place : Place) (s : BmMerge σ) : BmTree × BmMerge σ :=
  postItemToHttpServer env browserType action item place.parentId
    (s.record ⟨.right, action, item, place⟩)

def callDownload (action : ItemAction) (item : BmTree) (place : Place) (s : BmMerge σ) : BmMerge σ :=
  downloadToLocal env browserType action item place.path place.localParentId
    (s.record ⟨.left, action, item, place⟩)

/-- An entry on its way to Firefox gets a fresh id and the current time. -/
def stampFirefox (item : BmTree) (s : BmMerge σ) : BmTree × BmMerge σ :=
  if browserType = .firefox then
    (.node
      { item.val with
        id := item.val.id ++ "rdf:#$".toList ++ env.productFFId s.ticks
        addDate := env.currentDateTime s.ticks }
      item.children, { s with ticks := s.ticks + 1 })
  else (item, s)

/-- `bmMerge::handleItem`: carry out what the status asks for, and push the entry when it
stays. -/
def handleItem (item : BmTree) (list : BmList) (place : Place) (status : MergeStatus)
    (s : BmMerge σ) : BmList × BmMerge σ :=
  let s := { s with mergestatus := .successWithModify }
  match status with
  | .local0Last0Server1 =>
    let (item, s) := stampFirefox env browserType item s
    let s := if doit then callDownload env browserType .add item place s else s
    (list ++ [item], s)
  | .local0Last1Server1 =>
    (list, if doit then (callPost env browserType .delete item place s).2 else s)
  | .local1Last0Server0 =>
    let (item, s) := if doit then callPost env browserType .add item place s else (item, s)
    (list ++ [item], s)
  | .local1Last1Server0 =>
    (list, if doit then callDownload env browserType .delete item place s else s)
  | .none | .local0Last1Server0 | .local1Last0Server1 | .local1Last1Server1 => (list, s)

end HandleItem

/-! ## `bmMergeAction` -/

/-- The scan of `bmItemInList`, at position `i`. With an even `debugmerge` it relies on the
list being sorted by `name_hash`. -/
def bmItemInListFrom (debugmerge : UInt32) (item : BmEntry) : Int → BmList → Int
  | _, [] => -1
  | i, x :: list =>
    if debugmerge &&& 1 ≠ 1 ∧ x.val.nameHash < item.nameHash then
      bmItemInListFrom debugmerge item (i + 1) list
    else if debugmerge &&& 1 ≠ 1 ∧ x.val.nameHash > item.nameHash then -1
    else if isBmEntryEqual item x.val then i
    else bmItemInListFrom debugmerge item (i + 1) list

/-- `bmMerge::bmItemInList`: the position of the first equal entry, -1 without one. -/
def bmItemInList (debugmerge : UInt32) (item : BmEntry) : Option BmList → Int
  | none => -1
  | some list => bmItemInListFrom debugmerge item 0 list

/-- `(*list)[i]`. -/
def entryAt (list : Option BmList) (i : Int) : BmTree := (list.getD []).getD i.toNat default

/-- `bmMerge::copyBmCatagory` into a fresh record: every field of the entry, no children. -/
def copyBmCatagory (src : BmEntry) : BmEntry := src

section MergeAction

variable (env : Env σ) (modifiedInServer : Bool) (browserType : Browser) (doit : Bool)

/-- The second loop of `bmMergeAction`: the entries of `list` that are not local. -/
def mergeServerLoop (localList : BmList) (lastupdateList : Option BmList) (place : Place) :
    BmList → BmList → BmMerge σ → BmList × BmMerge σ
  | [], resultList, s => (resultList, s)
  | item :: list, resultList, s =>
    if s.terminatedFlag then (resultList, s)
    else
      let inLocal := bmItemInList env.debugmerge item.val (some localList)
      if inLocal ≥ 0 then mergeServerLoop localList lastupdateList place list resultList s
      else
        let inLast :=
          if modifiedInServer then bmItemInList env.debugmerge item.val lastupdateList else 1
        let status := bmItemMergeStatus inLocal inLast 1
        let (resultList, s) :=
          if status ≠ .local1Last1Server1 then
            handleItem env browserType doit item resultList place status s
          else (resultList, s)
        mergeServerLoop localList lastupdateList place list resultList s

/-- The second loop over a list that may be `NULL`. -/
def mergeServerPart (localList : BmList) (lastupdateList list : Option BmList) (place : Place)
    (r : BmList × BmMerge σ) : BmList × BmMerge σ :=
  match list with
  | none => r
  | some l =>
    mergeServerLoop env modifiedInServer browserType doit localList lastupdateList place l r.1 r.2

/-- The list the merge walks: the server's, or the snapshot when the server is unchanged. -/
def walkedList (lastupdateList serverList : Option BmList) : Option BmList :=
  if modifiedInServer then serverList else lastupdateList

/-- Where the merge of the children of a shared entry stands. -/
def Place.below (place : Place) (server item : BmEntry) : Place where
  parentId := server.groupId
  path := place.path ++ ['/'] ++ item.name
  localParentId := item.groupId
  dir := place.dir ++ [item.key]

mutual
/-- The body of the first loop of `bmMergeAction`, for one local entry. The merge of the
children is `bmMergeAction` itself on `item.list`, written out: first loop, second loop. -/
def mergeLocalItem : BmTree → Option BmList → Option BmList → Place → BmList → BmMerge σ → BmList × BmMerge σ
  | .node item children, lastupdateList, list, place, resultList, s =>
    let inLast := bmItemInList env.debugmerge item lastupdateList
    let inServer :=
      if modifiedInServer then bmItemInList env.debugmerge item list else inLast
    let status := bmItemMergeStatus 1 inLast inServer
    if status ≠ .local1Last1Server1 ∧ status ≠ .local1Last0Server1 then
      handleItem env browserType doit (.node item children) resultList place status s
    else
      let server := entryAt list inServer
      let last := if inLast ≥ 0 then some (entryAt lastupdateList inLast).children else none
      let walked := walkedList modifiedInServer last (some server.children)
      let below := place.below server.val item
      let (sub, s) :=
        mergeServerPart env modifiedInServer browserType doit children last walked below
          (mergeLocalLoop children last walked below [] s)
      (resultList ++ [.node (copyBmCatagory server.val) sub], s)

/-- The first loop of `bmMergeAction`. -/
def mergeLocalLoop : BmList → Option BmList → Option BmList → Place → BmList → BmMerge σ → BmList × BmMerge σ
  | [], _, _, _, resultList, s => (resultList, s)
  | item :: localList, lastupdateList, list, place, resultList, s =>
    if s.terminatedFlag then (resultList, s)
    else
      let (resultList, s) := mergeLocalItem item lastupdateList list place resultList s
      mergeLocalLoop localList lastupdateList list place resultList s
end

def bmMergeAction (localList : BmList) (lastupdateList serverList : Option BmList)
    (resultList : BmList) (place : Place) (s : BmMerge σ) : BmList × BmMerge σ :=
  let list := walkedList modifiedInServer lastupdateList serverList
  mergeServerPart env modifiedInServer browserType doit localList lastupdateList list place
    (mergeLocalLoop env modifiedInServer browserType doit localList lastupdateList list place
      resultList s)

/-- The children of a shared entry are merged by `bmMergeAction`. -/
theorem mergeLocalItem_node (item : BmEntry) (children : BmList)
    (lastupdateList list : Option BmList) (place : Place) (resultList : BmList) (s : BmMerge σ) :
    mergeLocalItem env modifiedInServer browserType doit (.node item children) lastupdateList list
        place resultList s =
      let inLast := bmItemInList env.debugmerge item lastupdateList
      let inServer := if modifiedInServer then bmItemInList env.debugmerge item list else inLast
      let status := bmItemMergeStatus 1 inLast inServer
      if status ≠ .local1Last1Server1 ∧ status ≠ .local1Last0Server1 then
        handleItem env browserType doit (.node item children) resultList place status s
      else
        let server := entryAt list inServer
        let r := bmMergeAction env modifiedInServer browserType doit children
          (if inLast ≥ 0 then some (entryAt lastupdateList inLast).children else none)
          (some server.children) [] (place.below server.val item) s
        (resultList ++ [.node (copyBmCatagory server.val) r.1], r.2) := by
  rw [mergeLocalItem]
  rfl

end MergeAction

end MyLaunch
