/-
# MipsOnQemu.Home.Tables -- the bookmark tables and the requests that change them

`function_bookmark.php` keeps the bookmark trees of all users in the flat table `bookmark`: a
directory has a `groupid`, and its children carry that number as their `parentid`. The URL of a
bookmark stands in the table `link`, or in `site` when the address is one of the site catalogue;
both count in `storenum` how many bookmarks use them. `space` holds the counters and the
modification stamp of a user.

`bookmarkPost`, `deletebookmark`, `deletebookmarkdir` and `clearbookmark` are the functions of
the source, `cpBmdir` and `cpBookmark` the two scripts that call them. A query that MySQL cannot
parse ends the request where it stands; nothing is rolled back.

The tags of a bookmark do not meet any of this. What `bookmark_tag_batch` does to the tag tables
is a parameter of `Php`, and so are the word filter, `md5` and the hash of the lookup columns.
-/

import MipsOnQemu.Home.Text

namespace Home

open MyLaunch (QString Browser)

/-! ## Tables -/

/-- `bookmark_type_site` and `bookmark_type_dir`. -/
inductive BookmarkType where
  | site | dir
  deriving DecidableEq, Repr

/-- A row of `bookmark`, without the columns that only the web pages show. A `groupid` and a `parentid`
are as large as they come here, and so are the counters of `space`; `Room` of the module `Tree` says when the
columns hold them. -/
structure BookmarkRow where
  bmid : Nat
  uid : Nat
  groupid : Nat := 0
  parentid : Nat
  linkid : Nat := 0
  level : Nat
  subject : QString
  type : BookmarkType
  lastvisit : Nat
  browserid : Browser
  deriving DecidableEq

structure LinkRow where
  linkid : Nat
  siteid : Nat
  url : QString
  hashurl : Nat
  md5url : QString
  storenum : Int
  deriving DecidableEq

structure SiteRow where
  id : Nat
  url : QString
  hashurl : Nat
  storenum : Int
  deriving DecidableEq

/-- The columns of `space` that the bookmark code writes. -/
structure Space where
  lastmodified : QString := []
  linknum : Int := 0
  bmdirnum : Int := 0
  deriving DecidableEq

/-- The tables, the next values of their AUTO_INCREMENT columns, and the tag tables `τ`. -/
structure Database (τ : Type) where
  bookmark : List BookmarkRow := []
  link : List LinkRow := []
  site : List SiteRow := []
  space : Nat → Space := fun _ => {}
  tags : τ
  nextBmid : Nat := 1
  nextLinkid : Nat := 1

/-- What the code takes from outside: hashes, the date text, the word filter and the handling of
tags. -/
structure Php (τ : Type) where
  qhash : QString → Nat
  md5 : QString → QString
  sgmdate : Nat → QString
  banned : QString → Bool
  filter : QString → QString
  tagBatch : Nat → QString → τ → τ
  tagDelete : Nat → τ → τ

/-- The value of `$_GET['ac']`, which also selects the script. -/
inductive Ac where
  | bmdir | bookmark
  deriving DecidableEq, Repr

/-- What a request carries besides its form: the user, the browser, whether the desktop client
sent it, and the time at which `common.php` started, in seconds and in ten-millionths. -/
structure Request where
  uid : Nat
  browserid : Browser
  client : Bool
  timestamp : Nat
  fraction : Nat

/-- The form fields, as they were before slashes were added. A missing category is `none`. -/
structure Post where
  category : Option BookmarkType
  subject : QString
  address : QString := []
  description : QString := []
  tag : QString := []

/-- `supe_timestamp`: the two parts of the time written one after the other. -/
def Request.supeTimestamp (rq : Request) : QString :=
  Nat.toDigits 10 rq.timestamp ++ Nat.toDigits 10 rq.fraction

/-- The columns of `data_browser.php` that limit a post. -/
structure BrowserLimits where
  maxlev : Nat
  maxchild : Nat
  titlelen : Nat
  dirlen : Nat
  urllen : Nat
  taglen : Nat
  deslen : Nat

/-- `data_browser.php`. -/
def browser : Browser → BrowserLimits
  | .netbookmark => ⟨5, 128, 512, 256, 512, 128, 512⟩
  | .ie => ⟨5, 128, 210, 202, 512, 128, 512⟩
  | .firefox => ⟨6, 128, 512, 256, 512, 128, 512⟩
  | .opera => ⟨5, 128, 512, 256, 512, 128, 512⟩

variable {τ : Type}

namespace Database

variable (db : Database τ)

/-- `UPDATE link SET storenum=storenum+n WHERE linkid`. -/
@[simps -fullyApplied bookmark site space tags nextBmid nextLinkid]
def addStorenum (linkid : Nat) (n : Int) : Database τ :=
  { db with link := db.link.map fun r =>
      if r.linkid = linkid then { r with storenum := r.storenum + n } else r }

@[simps -fullyApplied bookmark link space tags nextBmid nextLinkid]
def updatesitestorenum (siteid : Nat) (n : Int) : Database τ :=
  { db with site := db.site.map fun r =>
      if r.id = siteid then { r with storenum := r.storenum + n } else r }

/-- `setbookmarkmodified`, which also drops the cached export. -/
@[simps -fullyApplied bookmark link site nextBmid nextLinkid]
def setbookmarkmodified (uid : Nat) (supeTimestamp : QString) : Database τ :=
  { db with space := Function.update db.space uid
              { db.space uid with lastmodified := supeTimestamp } }

/-- `setbookmarknum('linknum', …)`. -/
@[simps -fullyApplied bookmark link site nextBmid nextLinkid]
def setLinknum (uid : Nat) (n : Int) : Database τ :=
  { db with space := Function.update db.space uid
              { db.space uid with linknum := (db.space uid).linknum + n } }

/-- `setbookmarknum('bmdirnum', …)`. -/
@[simps -fullyApplied bookmark link site nextBmid nextLinkid]
def setBmdirnum (uid : Nat) (n : Int) : Database τ :=
  { db with space := Function.update db.space uid
              { db.space uid with bmdirnum := (db.space uid).bmdirnum + n } }

/-- `inserttable('bookmark', …)`: the row gets the next `bmid`. -/
@[simps -fullyApplied bookmark link site space nextBmid nextLinkid]
def insertBookmark (row : BookmarkRow) : Database τ :=
  { db with bookmark := db.bookmark ++ [{ row with bmid := db.nextBmid }]
            nextBmid := db.nextBmid + 1 }

/-- `inserttable('link', …)`: the row gets the next `linkid`. -/
@[simps -fullyApplied bookmark site space tags nextBmid]
def insertLink (row : LinkRow) : Database τ :=
  { db with link := db.link ++ [{ row with linkid := db.nextLinkid }]
            nextLinkid := db.nextLinkid + 1 }

/-- `DELETE FROM bookmark WHERE bmid`. -/
@[simps -fullyApplied bookmark link site space nextBmid nextLinkid]
def deleteRow (bmid : Nat) : Database τ :=
  { db with bookmark := db.bookmark.filter fun r => r.bmid ≠ bmid }

/-- `UPDATE bookmark … WHERE …`. -/
@[simps -fullyApplied bookmark link site space nextBmid nextLinkid]
def updateBookmark (p : BookmarkRow → Bool) (f : BookmarkRow → BookmarkRow) : Database τ :=
  { db with bookmark := db.bookmark.map fun r => if p r then f r else r }

def row (bmid : Nat) : Option BookmarkRow :=
  db.bookmark.find? fun r => r.bmid = bmid

/-- The directory of a user and browser with a `groupid`, as `cp_bmdir.php` selects it. -/
def bmdir (uid : Nat) (browserid : Browser) (bmdirid : Nat) : Option BookmarkRow :=
  db.bookmark.find? fun r =>
    r.uid = uid ∧ r.type = .dir ∧ r.groupid = bmdirid ∧ r.browserid = browserid

/-- The rows of a user and browser with a `parentid`. -/
def children (uid : Nat) (browserid : Browser) (parentid : Nat) : List BookmarkRow :=
  db.bookmark.filter fun r => r.uid = uid ∧ r.browserid = browserid ∧ r.parentid = parentid

def linkOf (linkid : Nat) : Option LinkRow :=
  db.link.find? fun r => r.linkid = linkid

/-- `getlink`: no link has the number 0. -/
def getlink (linkid : Nat) : Option LinkRow :=
  if linkid = 0 then none else db.linkOf linkid

def siteOf (id : Nat) : Option SiteRow := db.site.find? fun r => r.id = id

/-- The `groupid`s of the directories of a user. -/
def groupids (uid : Nat) : List Nat :=
  (db.bookmark.filter fun r => r.uid = uid ∧ r.type = .dir).map (·.groupid)

def getMaxGroupid (uid : Nat) : Nat :=
  if (db.groupids uid).isEmpty then 8000 - 1 else (db.groupids uid).foldr max 0

end Database

/-- What the column `linkid`, a `smallint`, keeps of a number: MySQL cuts it off at the largest. The
numbers of `link` go further. -/
def smallint (n : Nat) : Nat := min n 32767

theorem smallint_eq {n : Nat} (h : n ≤ 32767) : smallint n = n := Nat.min_eq_left h

/-! ## `bookmark_link_process` -/

/-- The first half of `bookmark_link_process`: a bookmark that is edited gives its old link back,
unless the URL stands. `none` when MySQL refuses the query for a site that is not there. -/
def releaseLink (php : Php τ) (linkid : Nat) (url : QString) (db : Database τ) :
    Option (Option Nat × Database τ) :=
  match db.getlink linkid with
  | none => some (none, db)
  | some link =>
    if link.siteid = 0 then
      if link.hashurl = php.qhash url ∧ link.url = url then some (some link.linkid, db)
      else some (none, db.addStorenum link.linkid (-1))
    else
      match db.siteOf link.siteid with
      | none => if url = [] then some (some linkid, db) else none
      | some site =>
        if site.hashurl = php.qhash url ∧ site.url = url then some (some linkid, db)
        else some (none, db.updatesitestorenum site.id (-1))

/-- The link that is known under the hashes of a URL. -/
def knownLink (php : Php τ) (url : QString) (db : Database τ) : Option LinkRow :=
  db.link.find? fun r => r.hashurl = php.qhash url ∧ r.md5url = php.md5 url

/-- The second half: the link of the URL, counted once more or inserted. The text `url` has its
slashes, which the SQL literal takes out. -/
def acquireLink (php : Php τ) (url : QString) (db : Database τ) : Nat × Database τ :=
  match knownLink php url db with
  | some link =>
    if link.siteid ≠ 0 then (link.linkid, db.updatesitestorenum link.siteid 1)
    else (link.linkid, db.addStorenum link.linkid 1)
  | none =>
    match db.site.find? fun r => r.hashurl = php.qhash url ∧ r.url = stripslashes url with
    | some site =>
      if site.id ≠ 0 then
        (db.nextLinkid, (db.updatesitestorenum site.id 1).insertLink
          ⟨0, site.id, [], php.qhash url, php.md5 url, 0⟩)
      else
        (db.nextLinkid, db.insertLink ⟨0, 0, stripslashes url, php.qhash url, php.md5 url, 1⟩)
    | none =>
      (db.nextLinkid, db.insertLink ⟨0, 0, stripslashes url, php.qhash url, php.md5 url, 1⟩)

def bookmarkLinkProcess (php : Php τ) (linkid : Nat) (url : QString) (db : Database τ) :
    Option (Nat × Database τ) :=
  match releaseLink php linkid url db with
  | none => none
  | some (some linkid, db) => some (linkid, db)
  | some (none, db) => some (acquireLink php url db)

/-- Counting links leaves every other table alone. -/
structure OnlyLinks (db db' : Database τ) : Prop where
  bookmark : db'.bookmark = db.bookmark
  space : db'.space = db.space
  tags : db'.tags = db.tags
  nextBmid : db'.nextBmid = db.nextBmid

/-- What a property of the tables must survive to survive the counting of links. -/
structure LinkKept (P : Database τ → Prop) : Prop where
  site : ∀ {db : Database τ} (i : Nat) (n : Int), P db → P (db.updatesitestorenum i n)
  own : ∀ {db : Database τ} (i : Nat) (n : Int), P db → P (db.addStorenum i n)
  insert : ∀ {db : Database τ} (row : LinkRow), P db → P (db.insertLink row)

section LinkKept

variable {P : Database τ → Prop} {db : Database τ} (h : LinkKept P) (hP : P db)
include h hP

theorem LinkKept.acquireLink (php : Php τ) (url : QString) : P (acquireLink php url db).2 := by
  unfold Home.acquireLink
  split
  · split
    · exact h.site _ _ hP
    · exact h.own _ _ hP
  · split
    · split
      · exact h.insert _ (h.site _ _ hP)
      · exact h.insert _ hP
    · exact h.insert _ hP

variable {php : Php τ} {linkid linkid' : Nat} {url : QString} {db' : Database τ}

theorem LinkKept.releaseLink {r : Option Nat} (hres : releaseLink php linkid url db = some (r, db')) : P db' := by
  unfold Home.releaseLink at hres
  split at hres
  · cases hres
    exact hP
  · split at hres
    · split at hres <;> cases hres
      · exact hP
      · exact h.own _ _ hP
    · split at hres
      · split at hres <;> cases hres
        exact hP
      · split at hres <;> cases hres
        · exact hP
        · exact h.site _ _ hP

theorem LinkKept.bookmarkLinkProcess (hres : bookmarkLinkProcess php linkid url db = some (linkid', db')) :
    P db' := by
  unfold Home.bookmarkLinkProcess at hres
  split at hres
  · cases hres
  · next hrel =>
    cases hres
    exact h.releaseLink hP hrel
  · next db₁ hrel =>
    have hnew := h.acquireLink (h.releaseLink hP hrel) php url
    rw [Option.some.inj hres] at hnew
    exact hnew

end LinkKept

theorem linkKept_onlyLinks (db₀ : Database τ) : LinkKept (OnlyLinks db₀) :=
  ⟨fun _ _ ⟨hb, hs, ht, hn⟩ => ⟨hb, hs, ht, hn⟩, fun _ _ ⟨hb, hs, ht, hn⟩ => ⟨hb, hs, ht, hn⟩,
    fun _ ⟨hb, hs, ht, hn⟩ => ⟨hb, hs, ht, hn⟩⟩

theorem onlyLinks_acquireLink (php : Php τ) (url : QString) (db : Database τ) :
    OnlyLinks db (acquireLink php url db).2 :=
  (linkKept_onlyLinks db).acquireLink ⟨rfl, rfl, rfl, rfl⟩ php url

variable {php : Php τ} {db : Database τ}

theorem onlyLinks_bookmarkLinkProcess {linkid linkid' : Nat} {url : QString}
    {db' : Database τ} (h : bookmarkLinkProcess php linkid url db = some (linkid', db')) : OnlyLinks db db' :=
  (linkKept_onlyLinks db).bookmarkLinkProcess ⟨rfl, rfl, rfl, rfl⟩ h

theorem OnlyLinks.insertBookmark {db' : Database τ} (h : OnlyLinks db db') (row : BookmarkRow) :
    (db'.insertBookmark row).bookmark = db.bookmark ++ [{ row with bmid := db.nextBmid }] := by
  rw [Database.insertBookmark, h.bookmark, h.nextBmid]

theorem linkOf_eq_none {i : Nat} (h : ∀ l ∈ db.link, l.linkid ≠ i) : db.linkOf i = none :=
  List.find?_eq_none.mpr fun l hl heq => h l hl (of_decide_eq_true heq)

/-! ## `bookmark_post` -/

/-- How a post can fail. The last is a query that MySQL refuses. -/
inductive PostError where
  | shieldingText | errorOperation | errBookmarkAddOverflow | errBmdirAddOverflow | queryError
  deriving DecidableEq, Repr

/-- What a successful post returns of `$bookmarkarr`. -/
structure Posted where
  groupid : Nat
  bmid : Nat
  deriving DecidableEq

/-- `getstr($string, 0, 1, 1, 1)`; `none` when the text has a banned word. -/
def getstr (php : Php τ) (client : Bool) (string : QString) : Option QString :=
  let string := if client then string else trim string
  let string := shtmlspecialchars (stripslashes string)
  if php.banned string then none
  else
    let string := addslashes (php.filter string)
    some (if client then string else trim string)

/-- The texts of a post after all that `bookmark_post` does to them; they keep their slashes. -/
structure PostTexts where
  subject : QString
  address : QString
  tag : QString

/-- The texts of a post, or `none` when one has a banned word. -/
def postTexts (php : Php τ) (rq : Request) (post : Post) : Option PostTexts := do
  let limits := browser rq.browserid
  let subjectLen := match post.category with
    | some .site => limits.titlelen
    | some .dir | none => limits.dirlen
  let subject := mbSubstr (addslashes post.subject) subjectLen
  let address := mbSubstr (trim (addslashes post.address)) limits.urllen
  let description := mbSubstr (trim (addslashes post.description)) limits.deslen
  let tag := mbSubstr (trim (addslashes post.tag)) limits.taglen
  let subject ← getstr php rq.client (if rq.client then subject else trim subject)
  let subject := if subject.length < 1 then php.sgmdate rq.timestamp else subject
  let _ ← getstr php rq.client description
  let tag ← getstr php rq.client (shtmlspecialchars (trim tag))
  let address ← getstr php rq.client (shtmlspecialchars (trim (handleUrlString address)))
  pure ⟨subject, address, tag⟩

/-- The texts of an edited directory: its tag and address are not looked at. -/
def dirTexts (php : Php τ) (rq : Request) (post : Post) : Option QString := do
  let limits := browser rq.browserid
  let subject := mbSubstr (addslashes post.subject) limits.dirlen
  let description := mbSubstr (trim (addslashes post.description)) limits.deslen
  let subject ← getstr php rq.client (if rq.client then subject else trim subject)
  let _ ← getstr php rq.client description
  pure (if subject.length < 1 then php.sgmdate rq.timestamp else subject)

/-- `bookmark_post` without a category: the directory `olds` gets a new name. -/
def editBmdir (php : Php τ) (rq : Request) (post : Post) (olds : Option BookmarkRow)
    (db : Database τ) : Except PostError Posted × Database τ :=
  match dirTexts php rq post with
  | none => (.error .shieldingText, db)
  | some subject =>
    match olds with
    | none => (.error .errorOperation, db)
    | some olds =>
      let db := db.updateBookmark (fun r => r.bmid = olds.bmid ∧ r.type = .dir) fun r =>
        { r with subject := stripslashes subject, lastvisit := rq.timestamp, uid := olds.uid,
                 groupid := olds.groupid }
      (.ok ⟨olds.groupid, olds.bmid⟩, db.setbookmarkmodified rq.uid rq.supeTimestamp)

/-- The row a new bookmark or directory under `olds` starts from. -/
def newRow (rq : Request) (olds : Option BookmarkRow) (type : BookmarkType) (subject : QString) :
    BookmarkRow where
  bmid := 0
  uid := rq.uid
  parentid := olds.elim 0 (·.groupid)
  level := olds.elim 1 (·.level + 1)
  subject := stripslashes subject
  type := type
  lastvisit := rq.timestamp
  browserid := olds.elim rq.browserid (·.browserid)

/-- `bookmark_post` with `ac=bmdir` and the category of a bookmark: add it under `olds`. The link
is counted before the number of entries is checked. -/
def addBookmark (php : Php τ) (rq : Request) (texts : PostTexts) (olds : Option BookmarkRow)
    (db : Database τ) : Except PostError Posted × Database τ :=
  match bookmarkLinkProcess php 0 texts.address db with
  | none => (.error .queryError, db)
  | some (linkid, db) =>
    let row := { newRow rq olds .site texts.subject with linkid := smallint linkid }
    if (browser rq.browserid).maxchild ≤ (db.children rq.uid rq.browserid row.parentid).length then
      (.error .errBookmarkAddOverflow, db)
    else
      let bmid := db.nextBmid
      let db := db.insertBookmark row
      let db := (db.setbookmarkmodified rq.uid rq.supeTimestamp).setLinknum rq.uid 1
      (.ok ⟨row.parentid, bmid⟩, { db with tags := php.tagBatch bmid texts.tag db.tags })

/-- What an edit of the bookmark `olds` writes into its row. -/
def editedRow (rq : Request) (olds : Option BookmarkRow) (subject : QString) (linkid : Nat)
    (r : BookmarkRow) : BookmarkRow :=
  { r with
    subject := stripslashes subject
    lastvisit := rq.timestamp
    uid := rq.uid
    type := .site
    browserid := olds.elim rq.browserid (·.browserid)
    linkid := smallint linkid
    parentid := olds.elim 0 (·.parentid) }

/-- `bookmark_post` with another `ac` and the category of a bookmark: edit the bookmark `olds`. Without
one the query of `bookmark_tag_batch` ends in `bmid=`, and the request stops there. -/
def editBookmark (php : Php τ) (rq : Request) (texts : PostTexts) (olds : Option BookmarkRow)
    (db : Database τ) : Except PostError Posted × Database τ :=
  match bookmarkLinkProcess php (olds.elim 0 (·.linkid)) texts.address db with
  | none => (.error .queryError, db)
  | some (linkid, db) =>
    let bmid := olds.elim 0 (·.bmid)
    let db := db.updateBookmark (fun r => r.bmid = bmid) (editedRow rq olds texts.subject linkid)
    let db := db.setbookmarkmodified rq.uid rq.supeTimestamp
    match olds with
    | none => (.error .queryError, db)
    | some olds => (.ok ⟨olds.groupid, bmid⟩, { db with tags := php.tagBatch bmid texts.tag db.tags })

/-- `bookmark_post` with the category of a directory: add it under `olds`. -/
def addBmdir (rq : Request) (texts : PostTexts) (olds : Option BookmarkRow) (db : Database τ) :
    Except PostError Posted × Database τ :=
  let row := { newRow rq olds .dir texts.subject with groupid := db.getMaxGroupid rq.uid + 1 }
  if (browser rq.browserid).maxlev ≤ row.level then (.error .errBmdirAddOverflow, db)
  else
    let bmid := db.nextBmid
    let db := db.insertBookmark row
    let db := (db.setbookmarkmodified rq.uid rq.supeTimestamp).setBmdirnum rq.uid 1
    (.ok ⟨row.groupid, bmid⟩, db)

/-- The `switch` of `bookmark_post` over the category. -/
def postCategory (php : Php τ) (rq : Request) (texts : PostTexts) (olds : Option BookmarkRow)
    (db : Database τ) : BookmarkType → Ac → Except PostError Posted × Database τ
  | .site, .bmdir => addBookmark php rq texts olds db
  | .site, .bookmark => editBookmark php rq texts olds db
  | .dir, _ => addBmdir rq texts olds db

/-- `bookmark_post`. A request about the row of somebody else is carried out as that user. -/
def bookmarkPost (php : Php τ) (ac : Ac) (rq : Request) (post : Post) (olds : Option BookmarkRow)
    (db : Database τ) : Except PostError Posted × Database τ :=
  let rq := { rq with uid := olds.elim rq.uid (·.uid) }
  match post.category with
  | none => editBmdir php rq post olds db
  | some category =>
    match postTexts php rq post with
    | none => (.error .shieldingText, db)
    | some texts => postCategory php rq texts olds db category ac

theorem bookmarkPost_own {ac : Ac} {rq : Request} {post : Post}
    {olds : Option BookmarkRow} (huid : olds.elim rq.uid (·.uid) = rq.uid)
    {category : BookmarkType} (hcat : post.category = some category) :
    bookmarkPost php ac rq post olds db = match postTexts php rq post with
      | none => (.error .shieldingText, db)
      | some texts => postCategory php rq texts olds db category ac := by
  have hrq : { rq with uid := olds.elim rq.uid (·.uid) } = rq := by rw [huid]
  simp only [bookmarkPost, hrq, hcat]

/-! ## Deleting -/

/-- How a deletion ends: the row is gone, there was none, or MySQL refused a query. -/
inductive Deleted where
  | done | missing | queryError
  deriving DecidableEq, Repr

section Deletion

variable (php : Php τ) (rq : Request)

/-- `deletebookmark`. A row without a link, as every directory is, makes a query that ends in
`linkid=`, and the request stops there. -/
def deletebookmark (bmid : Nat) (db : Database τ) : Deleted × Database τ :=
  match db.row bmid with
  | none => (.missing, db)
  | some row =>
    match db.linkOf row.linkid with
    | none => (.queryError, db)
    | some link =>
      let db := if link.siteid ≠ 0 then db.updatesitestorenum link.siteid (-1)
        else db.addStorenum link.linkid (-1)
      let db := { db with tags := php.tagDelete bmid db.tags }
      let db := (db.deleteRow bmid).setbookmarkmodified rq.uid rq.supeTimestamp
      (.done, db.setLinknum rq.uid (-1))

/-- The `switch` over the type of a fetched row. -/
def deleteFetched (deleteDir : Nat → Database τ → Deleted × Database τ) (r : BookmarkRow) (db : Database τ) :
    Deleted × Database τ :=
  match r.type with
  | .dir => deleteDir r.bmid db
  | .site => deletebookmark php rq r.bmid db

/-- The loop over fetched rows in `deletebookmarkdir` and `clearbookmark`. -/
def deleteEach (deleteDir : Nat → Database τ → Deleted × Database τ) :
    List BookmarkRow → Database τ → Deleted × Database τ
  | [], db => (.done, db)
  | r :: rows, db =>
    let (res, db) := deleteFetched php rq deleteDir r db
    if res = .queryError then (.queryError, db) else deleteEach deleteDir rows db

/-- `deletebookmarkdir`, with a bound on the depth of the recursion. -/
def deletebookmarkdirFuel : Nat → Nat → Database τ → Deleted × Database τ
  | 0, _, db => (.queryError, db)
  | fuel + 1, bmid, db =>
    match db.row bmid with
    | none => (.queryError, db)
    | some dir =>
      let rows := db.children rq.uid dir.browserid dir.groupid
      let (res, db) := deleteEach php rq (deletebookmarkdirFuel fuel) rows db
      if res = .queryError then (.queryError, db)
      else
        let db := (db.deleteRow bmid).setbookmarkmodified rq.uid rq.supeTimestamp
        (.done, db.setBmdirnum rq.uid (-1))

/-- `deletebookmarkdir`. Directories in a directory have distinct rows, so the recursion is never
deeper than the table is long unless a directory lies in itself. -/
def deletebookmarkdir (bmid : Nat) (db : Database τ) : Deleted × Database τ :=
  deletebookmarkdirFuel php rq (db.bookmark.length + 1) bmid db

def clearbookmark (db : Database τ) : Deleted × Database τ :=
  deleteEach php rq (deletebookmarkdirFuel php rq (db.bookmark.length + 1))
    (db.children rq.uid rq.browserid 0) db

end Deletion

/-! ## The scripts -/

/-- `$_GET['op']` as far as the scripts act on it. -/
inductive Op where
  | add | edit | delete | get
  deriving DecidableEq, Repr

inductive Submit where
  | addsubmit | editsubmit | deletesubmit
  deriving DecidableEq, Repr

/-- The answer of a script: done with the ids of the row, or refused. -/
inductive Answer where
  | posted (p : Posted)
  | deleted
  | refused (e : PostError)
  | errorParameter
  | failedToDelete
  deriving DecidableEq

/-- The answer to a post, by what `bookmark_post` returns. The pages for a browser show
`do_success` after an `editsubmit` whatever it returned. -/
def answerPost {τ : Type} : Except PostError Posted × Database τ → Answer × Database τ
  | (.ok p, db) => (.posted p, db)
  | (.error e, db) => (.refused e, db)

def answerDelete {τ : Type} : Deleted × Database τ → Answer × Database τ
  | (.done, db) => (.deleted, db)
  | (.missing, db) => (.failedToDelete, db)
  | (.queryError, db) => (.refused .queryError, db)

/-- `cp_bmdir.php`. A `bmdirid` of 0 is the root, and so is one that no directory has; `edit` and
`delete` need a directory, and every other `op` than these and `add` is refused. -/
def cpBmdir (php : Php τ) (rq : Request) (op : Op) (submit : Submit) (bmdirid : Nat) (post : Post)
    (db : Database τ) : Answer × Database τ :=
  let bmdiritem := if bmdirid = 0 then none else db.bmdir rq.uid rq.browserid bmdirid
  if op = .get ∨ (op ≠ .add ∧ bmdiritem = none) then (.errorParameter, db)
  else
    match submit with
    | .editsubmit | .addsubmit => answerPost (bookmarkPost php .bmdir rq post bmdiritem db)
    | .deletesubmit =>
      match op, bmdiritem with
      | .delete, some dir => answerDelete (deletebookmarkdir php rq dir.bmid db)
      | _, _ => (.errorParameter, db)

/-- `cp_bookmark.php`, for the operations that want the user's own row. -/
def cpBookmark (php : Php τ) (rq : Request) (op : Op) (submit : Submit) (bmid : Nat) (post : Post)
    (db : Database τ) : Answer × Database τ :=
  let op := if op = .add then .get else op
  match db.row bmid with
  | none => (.errorParameter, db)
  | some item =>
    if item.uid ≠ rq.uid then (.errorParameter, db)
    else
      match submit with
      | .editsubmit => answerPost (bookmarkPost php .bookmark rq post (some item) db)
      | .addsubmit => answerPost (bookmarkPost php .bookmark rq post none db)
      | .deletesubmit =>
        if op = .delete then answerDelete (deletebookmark php rq bmid db) else (.errorParameter, db)

/-! ## Runs of requests -/

/-- What a request asks for. `clear` calls `clearbookmark`, which `cp_bmdir.php` has a branch for
but never reaches: `delete` without a directory is refused first. -/
inductive Action where
  | bmdir (op : Op) (submit : Submit) (bmdirid : Nat) (post : Post)
  | bookmark (op : Op) (submit : Submit) (bmid : Nat) (post : Post)
  | clear

/-- One request, carried out. -/
def execute (php : Php τ) (rq : Request) (db : Database τ) : Action → Answer × Database τ
  | .bmdir op submit bmdirid post => cpBmdir php rq op submit bmdirid post db
  | .bookmark op submit bmid post => cpBookmark php rq op submit bmid post db
  | .clear => answerDelete (clearbookmark php rq db)

/-- The answer says that the request was carried out. -/
def Answer.Success : Answer → Prop
  | .posted _ | .deleted => True
  | _ => False

instance : DecidablePred Answer.Success
  | .posted _ | .deleted => isTrue trivial
  | .refused _ | .errorParameter | .failedToDelete => isFalse id

/-- **What `cp_bmdir.php` can do**: refuse, post under the directory it found, or delete it. -/
theorem cpBmdir_cases (php : Php τ) (rq : Request) (op : Op) (submit : Submit) (bmdirid : Nat)
    (post : Post) (db : Database τ) :
    (∃ a : Answer, cpBmdir php rq op submit bmdirid post db = (a, db) ∧ ¬ a.Success) ∨
      ∃ item : Option BookmarkRow,
        (if bmdirid = 0 then none else db.bmdir rq.uid rq.browserid bmdirid) = item ∧
        ((submit ≠ .deletesubmit ∧ cpBmdir php rq op submit bmdirid post db
            = answerPost (bookmarkPost php .bmdir rq post item db)) ∨
          ∃ dir, item = some dir ∧ cpBmdir php rq op submit bmdirid post db
            = answerDelete (deletebookmarkdir php rq dir.bmid db)) := by
  unfold cpBmdir
  dsimp only
  generalize (if bmdirid = 0 then none else db.bmdir rq.uid rq.browserid bmdirid) = item
  by_cases hvalid : op = .get ∨ (op ≠ .add ∧ item = none)
  · rw [if_pos hvalid]
    exact .inl ⟨_, rfl, id⟩
  · rw [if_neg hvalid]
    cases submit with
    | addsubmit | editsubmit => exact .inr ⟨item, rfl, .inl ⟨Submit.noConfusion, rfl⟩⟩
    | deletesubmit =>
      dsimp only
      split
      · next dir => exact .inr ⟨some dir, rfl, .inr ⟨dir, rfl, rfl⟩⟩
      · exact .inl ⟨_, rfl, id⟩

/-- **What `cp_bookmark.php` can do** with a row of the user: refuse, edit it, post something
else, or delete it. -/
theorem cpBookmark_cases (php : Php τ) (rq : Request) (op : Op) (submit : Submit) (bmid : Nat)
    (post : Post) (db : Database τ) :
    (∃ a : Answer, cpBookmark php rq op submit bmid post db = (a, db) ∧ ¬ a.Success) ∨
      ∃ item, db.row bmid = some item ∧ item.uid = rq.uid ∧
        ((submit = .editsubmit ∧ cpBookmark php rq op submit bmid post db
            = answerPost (bookmarkPost php .bookmark rq post (some item) db)) ∨
          (submit = .addsubmit ∧ cpBookmark php rq op submit bmid post db
            = answerPost (bookmarkPost php .bookmark rq post none db)) ∨
          cpBookmark php rq op submit bmid post db
            = answerDelete (deletebookmark php rq bmid db)) := by
  unfold cpBookmark
  dsimp only
  generalize (if op = .add then Op.get else op) = op
  cases hrow : db.row bmid with
  | none => exact .inl ⟨_, rfl, id⟩
  | some item =>
    dsimp only
    by_cases huid : item.uid ≠ rq.uid
    · rw [if_pos huid]
      exact .inl ⟨_, rfl, id⟩
    · rw [if_neg huid]
      cases submit with
      | addsubmit => exact .inr ⟨item, rfl, not_not.mp huid, .inr (.inl ⟨rfl, rfl⟩)⟩
      | editsubmit => exact .inr ⟨item, rfl, not_not.mp huid, .inl ⟨rfl, rfl⟩⟩
      | deletesubmit =>
        dsimp only
        split
        · exact .inr ⟨item, rfl, not_not.mp huid, .inr (.inr rfl)⟩
        · exact .inl ⟨_, rfl, id⟩

theorem answerPost_success {res : Except PostError Posted × Database τ}
    (h : (answerPost res).1.Success) : ∃ p db', res = (.ok p, db') ∧ (answerPost res).2 = db' := by
  obtain ⟨r, db'⟩ := res
  cases r with
  | ok p => exact ⟨p, db', rfl, rfl⟩
  | error e => exact absurd h id

theorem answerPost_snd (res : Except PostError Posted × Database τ) : (answerPost res).2 = res.2 := by
  obtain ⟨r, db'⟩ := res
  cases r <;> rfl

theorem answerDelete_snd (res : Deleted × Database τ) : (answerDelete res).2 = res.2 := by
  obtain ⟨d, db'⟩ := res
  cases d <;> rfl

section Directory

variable {uid bmdirid : Nat} {b : Browser} {dir : BookmarkRow}

/-- The row `cp_bmdir.php` has found is a directory of the user, of that number and browser. -/
theorem bmdir_eq_some (h : db.bmdir uid b bmdirid = some dir) :
    dir ∈ db.bookmark ∧ dir.uid = uid ∧ dir.type = .dir ∧ dir.groupid = bmdirid ∧ dir.browserid = b := by
  refine ⟨List.mem_of_find?_eq_some h, ?_⟩
  simpa using List.find?_some h

theorem mem_of_bmdiritem (h : (if bmdirid = 0 then none else db.bmdir uid b bmdirid) = some dir) :
    dir ∈ db.bookmark ∧ dir.uid = uid ∧ dir.type = .dir ∧ dir.groupid = bmdirid ∧ dir.browserid = b := by
  split at h
  · cases h
  · exact bmdir_eq_some h

theorem le_getMaxGroupid_of_mem {g : Nat} (h : g ∈ db.groupids uid) : g ≤ db.getMaxGroupid uid := by
  rw [Database.getMaxGroupid, if_neg (by simp [List.ne_nil_of_mem h])]
  exact List.le_max_of_le h le_rfl

end Directory

end Home
