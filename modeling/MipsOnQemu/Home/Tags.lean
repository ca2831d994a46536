/-
# MipsOnQemu.Home.Tags -- the tags of a bookmark

`bookmark_tag_batch` gets the tags of a bookmark as one string, compares them with the old ones, which the
column `tag` has as a serialized array, and changes the rows of `sitetagsite`. The test for apostrophes is
the wrong way round: it keeps a word that has one, and no such word passes the pattern. So no tag is ever
added, and every call takes all old tags away (`bookmarkTagBatch_eq`).

The pattern counts bytes, so the characters of a text are its bytes here.
-/

import MipsOnQemu.Home.Text

namespace Home

open List
open MyLaunch (QString)

/-- An array of tag names under their `tagid`. -/
abbrev TagArray := List (Nat × QString)

/-- The columns of `bookmark` that the tags need. -/
structure TaggedRow where
  bmid : Nat
  uid : Nat
  tag : QString

structure SitetagRow where
  tagid : Nat
  tagname : QString
  close : Bool

structure SitetagsiteRow where
  tagid : Nat
  bmid : Nat
  uid : Nat

/-- The tables, and the next value of the AUTO_INCREMENT column of `sitetag`. -/
structure TagTables where
  bookmark : List TaggedRow
  sitetag : List SitetagRow := []
  sitetagsite : List SitetagsiteRow := []
  nextTagid : Nat := 1

/-- What the code takes from outside; `sameName` is how MySQL compares names. -/
structure TagPhp where
  unserialize : QString → TagArray
  md5 : QString → QString
  sameName : QString → QString → Bool

/-- PHP's `empty`. -/
def isEmptyText (s : QString) : Bool := s == [] || s == ['0']

/-- The pattern `/^([\x7f-\xff_-]|\w){3,20}$/`, whose `$` may stand before a last newline. -/
def isTagname (s : QString) : Bool :=
  let body := if s.getLast? = some (Char.ofNat 10) then s.dropLast else s
  3 ≤ body.length && body.length ≤ 20 &&
    body.all fun c => (Char.ofNat 127 ≤ c && c ≤ Char.ofNat 255) || c == '_' || c == '-' || isDigit c || isLetter c

/-- `now_tag`: the distinct words that pass both tests. -/
def nowTag (tags : QString) : List QString :=
  (if isEmptyText tags then [] else (tags.splitOn ' ').eraseDups).filter fun tagname =>
    isTagname tagname && tagname.contains apostrophe

/-- The pattern `/^a\:\d+\:{\S+/i`. -/
def isSerialized : QString → Bool
  | c :: ':' :: s => (c == 'a' || c == 'A') && s.head?.any isDigit &&
    match s.dropWhile isDigit with
    | ':' :: '{' :: d :: _ => !([9, 10, 12, 13, 32] : List Nat).contains d.toNat
    | _ => false
  | _ => false

def oldTags (php : TagPhp) (tag : QString) : TagArray :=
  if isEmptyText tag || !isSerialized tag then [] else php.unserialize tag

/-- `$tagarr[$tagid] = $tagname`. -/
def TagArray.assign (tagarr : TagArray) (tagid : Nat) (tagname : QString) : TagArray :=
  if tagarr.any fun e => e.1 == tagid then
    tagarr.map fun e => if e.1 = tagid then (tagid, tagname) else e
  else tagarr ++ [(tagid, tagname)]

/-- A round of the loop over `need_add_tags`; the last of the rows with a hash counts. -/
def addTag (php : TagPhp) (vtags : List SitetagRow) (p : TagArray × TagTables) (tagname : QString) :
    TagArray × TagTables :=
  if !isTagname tagname then p
  else
    match vtags.reverse.find? fun rt => php.md5 (addslashes rt.tagname) = php.md5 tagname with
    | none => (p.1.assign p.2.nextTagid tagname,
        { p.2 with sitetag := p.2.sitetag ++ [⟨p.2.nextTagid, tagname, false⟩], nextTagid := p.2.nextTagid + 1 })
    | some rt => if rt.close then p else (p.1.assign rt.tagid tagname, p.2)

/-- `DELETE FROM sitetagsite` for each of the tags. -/
def deleteTags (id : Nat) (tags : TagArray) (db : TagTables) : TagTables :=
  { db with sitetagsite := db.sitetagsite.filter fun r => !(r.bmid == id && tags.any fun e => e.1 == r.tagid) }

/-- The row of a bookmark that the user owns. -/
def TagTables.row (db : TagTables) (uid id : Nat) : Option TaggedRow :=
  db.bookmark.find? fun r => r.bmid = id ∧ r.uid = uid

/-- `bookmark_tag_batch`. The table `sitetagsite` has no key: REPLACE inserts. -/
def bookmarkTagBatch (php : TagPhp) (uid id : Nat) (tags : QString) (db : TagTables) : TagArray × TagTables :=
  match db.row uid id with
  | none => ([], db)
  | some result =>
    let intersect := (oldTags php result.tag).filter fun e => (nowTag tags).contains e.2
    let new := fun tagname => !(intersect.any fun e => e.2 == tagname)
    let db := deleteTags id ((oldTags php result.tag).filter fun e => new e.2) db
    let needAdd := (nowTag tags).filter new
    if needAdd.isEmpty then (intersect, db)
    else
      let vtags := db.sitetag.filter fun rt => needAdd.any (php.sameName rt.tagname)
      let p := needAdd.foldl (addTag php vtags) (intersect, db)
      (p.1, { p.2 with sitetagsite := p.2.sitetagsite ++ p.1.map fun e => ⟨e.1, id, uid⟩ })

/-- A word that the string asks for. -/
def Wanted (db : TagTables) (tags tagname : QString) : Prop :=
  tagname ∈ tags.splitOn ' ' ∧ isTagname tagname = true ∧
    ∀ rt ∈ db.sitetag, rt.tagname = tagname → rt.close = false

/-- What a call returns and leaves in the tables is what the string asks for. -/
structure TagsAsked (db : TagTables) (id : Nat) (tags : QString) (old : TagArray) (p : TagArray × TagTables) :
    Prop where
  array : ∀ w, (∃ k, (k, w) ∈ p.1) ↔ Wanted db tags w
  rows : ∀ k, (∃ r ∈ p.2.sitetagsite, r.bmid = id ∧ r.tagid = k) ↔ ∃ w, (k, w) ∈ p.1
  lost : ∀ e ∈ old, ¬ Wanted db tags e.2 → ∀ r ∈ p.2.sitetagsite, r.bmid = id → r.tagid ≠ e.1

theorem not_mem_of_isTagname {s : QString} (h : isTagname s = true) : apostrophe ∉ s := by
  intro hmem
  simp only [isTagname, Bool.and_eq_true, all_eq_true] at h
  have hbody : apostrophe ∈ if s.getLast? = some (Char.ofNat 10) then s.dropLast else s := by
    split
    · rename_i hlast
      rw [← dropLast_append_getLast? _ hlast, mem_append, mem_singleton] at hmem
      exact hmem.resolve_right (by decide)
    · exact hmem
  exact absurd (h.2 _ hbody) (by decide)

theorem nowTag_eq_nil (tags : QString) : nowTag tags = [] := by
  refine filter_eq_nil_iff.mpr fun tagname _ h => ?_
  rw [Bool.and_eq_true, contains_iff_mem] at h
  exact not_mem_of_isTagname h.1 h.2

variable {php : TagPhp} {uid id : Nat} {tags : QString} {db : TagTables} {result : TaggedRow}

theorem bookmarkTagBatch_eq (hresult : db.row uid id = some result) :
    bookmarkTagBatch php uid id tags db = ([], deleteTags id (oldTags php result.tag) db) := by
  simp [bookmarkTagBatch, hresult, nowTag_eq_nil]

theorem mem_deleteTags {old : TagArray} {r : SitetagsiteRow} (hid : r.bmid = id) :
    r ∈ (deleteTags id old db).sitetagsite ↔ r ∈ db.sitetagsite ∧ ∀ e ∈ old, e.1 ≠ r.tagid := by
  simp [deleteTags, hid]

/-- **The tags are what was asked for exactly if nothing was**, and the bookmark has no rows but those of its
old tags. -/
theorem tags_asked_iff (hresult : db.row uid id = some result) :
    TagsAsked db id tags (oldTags php result.tag) (bookmarkTagBatch php uid id tags db) ↔
      (∀ w, ¬ Wanted db tags w) ∧
        ∀ r ∈ db.sitetagsite, r.bmid = id → ∃ e ∈ oldTags php result.tag, e.1 = r.tagid := by
  rw [bookmarkTagBatch_eq hresult]
  constructor
  · intro h
    refine ⟨fun w hw => ?_, fun r hr hid => ?_⟩
    · obtain ⟨k, hk⟩ := (h.array w).mpr hw
      cases hk
    · by_contra! hno
      obtain ⟨w, hw⟩ := (h.rows r.tagid).mp ⟨r, (mem_deleteTags hid).mpr ⟨hr, hno⟩, hid, rfl⟩
      cases hw
  · rintro ⟨hnone, hold⟩
    -- no row is left
    have hleft : ∀ r ∈ (deleteTags id (oldTags php result.tag) db).sitetagsite, r.bmid ≠ id := by
      intro r hr hid
      rw [mem_deleteTags hid] at hr
      obtain ⟨e, he, heq⟩ := hold r hr.1 hid
      exact hr.2 e he heq
    refine ⟨fun w => ?_, fun k => ?_, fun e _ _ r hr hid => absurd hid (hleft r hr)⟩
    · simp [hnone w]
    · simp only [not_mem_nil, exists_false, iff_false]
      rintro ⟨r, hr, hid, -⟩
      exact hleft r hr hid

def oneTag : TagTables where
  bookmark := [⟨1, 2, ['a', ':', '1', ':', '\x7b', 'i']⟩]
  sitetagsite := [⟨7, 1, 2⟩]

def oneTagPhp : TagPhp := ⟨fun _ => [(7, ['o', 'l', 'd'])], fun s => s, (· == ·)⟩

/-- Its tag is taken away. -/
theorem tags_asked_none : oldTags oneTagPhp ['a', ':', '1', ':', '\x7b', 'i'] = [(7, ['o', 'l', 'd'])] ∧
    TagsAsked oneTag 1 [] (oldTags oneTagPhp ['a', ':', '1', ':', '\x7b', 'i'])
      (bookmarkTagBatch oneTagPhp 2 1 [] oneTag) := by
  have hrow : oneTag.row 2 1 = some ⟨1, 2, ['a', ':', '1', ':', '\x7b', 'i']⟩ := rfl
  refine ⟨rfl, (tags_asked_iff hrow).mpr ⟨?_, ?_⟩⟩
  · rintro w ⟨hw, hname, -⟩
    obtain rfl := mem_singleton.mp hw
    cases hname
  · intro r hr _
    obtain rfl := mem_singleton.mp hr
    exact ⟨_, mem_singleton_self _, rfl⟩

/-- A tag is asked for, and not added. -/
theorem tag_not_added : ¬ TagsAsked oneTag 1 ['n', 'e', 'w'] [(7, ['o', 'l', 'd'])]
    (bookmarkTagBatch oneTagPhp 2 1 ['n', 'e', 'w'] oneTag) := by
  intro h
  obtain ⟨k, hk⟩ := (h.array ['n', 'e', 'w']).mpr ⟨by decide, by decide, nofun⟩
  rw [bookmarkTagBatch_eq rfl] at hk
  cases hk

end Home
