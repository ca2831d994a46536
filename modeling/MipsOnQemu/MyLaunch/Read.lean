/-
# MipsOnQemu.MyLaunch.Read -- reading the local bookmarks

`readMyBookmark` walks the rows of the MYBOOKMARK table from a group id down,
`readDirectory` a favourites directory. Both refuse a directory that lies too deep or has
too many entries by returning `false` with nothing read, and both call themselves for a
subdirectory without looking at what comes back. A query of the table may fail; and a
directory with `.lnk` in its name is taken for a shell link.

Both are readers of a store of directories (`reads_tableRead`, `reads_readDirectory`), so a list is
complete exactly if nothing is lost; the answer of the outermost call does not say which.
-/

import MipsOnQemu.Lib.TreeReader
import MipsOnQemu.MyLaunch.Bookmark

namespace MyLaunch

open KeyedForest List BmFlag Rose TreeReader

variable {items : List BmTree}

theorem mem_addItems {list : BmList} {t : BmTree} : t ∈ addItems items list ↔ t ∈ items ∨ t ∈ list := by
  rw [(addItems_perm items list).mem_iff, mem_append]

theorem ok_addItems {list : BmList} (hlist : Sorted list ∧ WellFormed list)
    (h : ∀ t ∈ items, Sorted t.children ∧ WellFormedTree t) :
    Sorted (addItems items list) ∧ WellFormed (addItems items list) := by
  induction items generalizing list with
  | nil => exact hlist
  | cons t items ih =>
    obtain ⟨ht, hitems⟩ := forall_mem_cons.1 h
    exact ih ⟨hlist.1.addItemToSortlist ht.1, hlist.2.addItemToSortlist ht.2⟩ hitems

/-! ## URLs -/

section Readers

/- `urlScheme` stands for `QUrl`: the scheme of a valid URL, `none` for any other text. -/
variable (urlScheme : QString → Option QString) (info : BrowserInfo)

/-- The test both readers make before they take a bookmark. -/
def isHttpUrl (link : QString) : Bool :=
  !link.isEmpty &&
    match urlScheme link with
    | some scheme =>
      scheme.map Char.toLower == "http".toList || scheme.map Char.toLower == "https".toList
    | none => false

/-! ## The MYBOOKMARK table -/

/-- A row of the MYBOOKMARK table. -/
structure MyBookmarkRow where
  id : UInt32
  groupid : UInt32
  parentid : UInt32
  type : UInt32
  comeFrom : UInt32
  shortName : QString
  fullPath : QString
  deriving DecidableEq

def comeFromMyBookmark : UInt32 := 6

/-- The rows `WHERE comeFrom=COME_FROM_MYBOOKMARK AND parentid=groupid`. -/
def rowsIn (rows : List MyBookmarkRow) (groupid : UInt32) : List MyBookmarkRow :=
  rows.filter fun r => r.comeFrom = comeFromMyBookmark ∧ r.parentid = groupid

/-- The directories among them, `type=1`. -/
def dirRows (rows : List MyBookmarkRow) (groupid : UInt32) : List MyBookmarkRow :=
  (rowsIn rows groupid).filter (·.type = 1)

/-- The bookmarks among them, `type=0`. -/
def itemRows (rows : List MyBookmarkRow) (groupid : UInt32) : List MyBookmarkRow :=
  (rowsIn rows groupid).filter (·.type = 0)

def MyBookmarkRow.dirEntry (level : Nat) (r : MyBookmarkRow) : BmEntry where
  name := r.shortName
  link := []
  flag := .catagory
  level := UInt32.ofNat level
  bmid := r.id
  groupId := r.groupid
  parentId := r.parentid

def MyBookmarkRow.itemEntry (level : Nat) (r : MyBookmarkRow) : BmEntry where
  name := r.shortName
  link := handleUrlString r.fullPath
  flag := .item
  level := UInt32.ofNat level
  bmid := r.id
  groupId := r.groupid
  parentId := r.parentid

/-- The queries `readMyBookmark` makes for a directory. -/
inductive ReadQuery where
  | count | dirs | items
  deriving DecidableEq

/-- `tz::readMyBookmark`: whether the directory was read, and the list. `queryFails` says which queries
fail, for the directory that the ids of the rows in `path` lead to. `fuel` bounds the depth of the calls;
with `flag` set the level check stops them first. -/
def readMyBookmark (rows : List MyBookmarkRow) (queryFails : List UInt32 → ReadQuery → Bool) (flag : Bool) :
    (fuel level : Nat) → (path : List UInt32) → (groupid : UInt32) → Bool × BmList
  | 0, _, _, _ => (false, [])
  | fuel + 1, level, path, groupid =>
    if flag ∧ level > info.maxlev then (false, [])
    else if flag ∧ (queryFails path .count ∨ (rowsIn rows groupid).length > info.maxchild) then (false, [])
    else if queryFails path .dirs then (false, [])
    else
      -- what the inner call returns is not looked at
      let dirs := (dirRows rows groupid).map fun r => node (r.dirEntry level)
        (readMyBookmark rows queryFails flag fuel (level + 1) (path ++ [r.id]) r.groupid).2
      let list := addItems dirs []
      if queryFails path .items then (false, list)
      else
        let items := ((itemRows rows groupid).filter fun r => isHttpUrl urlScheme r.fullPath).map
          fun r => node (r.itemEntry level) []
        (true, addItems items list)

/-! ## A favourites directory -/

/-- An entry of a directory: a subdirectory, a shell link to a directory, which Windows lists among the
directories, or a file with the URL an ini reader finds in it under `InternetShortcut/URL`. -/
inductive FavEntry where
  | dir (name : QString)
  | link (name : QString)
  | file (name url : QString)
  deriving DecidableEq

def FavEntry.name : FavEntry → QString
  | .dir name | .link name => name
  | .file name _ => name

/-- A directory with what is below it. -/
abbrev FavTree := Rose FavEntry

/-- The test by which shell links are to be left out. -/
def isShellLink (name : QString) : Bool := decide (".lnk".toList <:+: name)

/-- The filter `*.url`. -/
def isUrlFile (name : QString) : Bool := decide (".url".toList <:+ name.map Char.toLower)

/-- What `entryList(QDir::AllDirs)` lists. -/
def favDirs (entries : List FavTree) : List FavTree :=
  entries.filter fun t => match t.val with
    | .dir _ | .link _ => true
    | .file _ _ => false

/-- What `entryList("*.url", QDir::Files)` lists. -/
def favFiles (entries : List FavTree) : List FavTree :=
  entries.filter fun t => match t.val with
    | .dir _ | .link _ => false
    | .file name _ => isUrlFile name

/-- The file name up to its last dot. -/
def withoutSuffix (name : QString) : QString := (name.reverse.dropWhile (· ≠ '.')).tail.reverse

def favDirEntry (level : Nat) (name : QString) : BmEntry where
  name := name
  link := []
  flag := .catagory
  level := UInt32.ofNat level

def favFileEntry (level : Nat) (name url : QString) : BmEntry where
  name := withoutSuffix name
  link := handleUrlString url
  flag := .item
  level := UInt32.ofNat level

/-- The bookmark files with a URL that is taken. -/
def httpFiles (entries : List FavTree) : List (QString × QString) :=
  (favFiles entries).filterMap fun t => match t.val with
    | .file name url => if isHttpUrl urlScheme url then some (name, url) else none
    | .dir _ | .link _ => none

mutual
/-- `tz::readDirectory`: whether the directory was accepted, and the list. -/
def readDirectory (flag : Bool) (level : Nat) : FavTree → Bool × BmList
  | .node _ entries =>
    if flag ∧ level > info.maxlev then (false, [])
    else if flag ∧ (favDirs entries).length + (favFiles entries).length > info.maxchild then
      (false, [])
    else
      (true, addItems ((httpFiles urlScheme entries).map fun f => .node (favFileEntry level f.1 f.2) [])
        (addItems (readSubdirs flag level entries) []))

/-- The loop over the subdirectories. What the inner call returns is not looked at. -/
def readSubdirs (flag : Bool) (level : Nat) : List FavTree → List BmTree
  | [] => []
  | t :: entries =>
    (match t.val with
      | .dir name | .link name =>
        if isShellLink name then []
        else [.node (favDirEntry level name) (readDirectory flag (level + 1) t).2]
      | .file _ _ => []) ++ readSubdirs flag level entries
end

/-! ## The table -/

/-- A directory of the table, with the place where it is read. -/
structure TableDir where
  level : Nat
  path : List UInt32
  groupid : UInt32

def TableDir.below (n : TableDir) (r : MyBookmarkRow) : TableDir := ⟨n.level + 1, n.path ++ [r.id], r.groupid⟩

/-- The directories of the table, and its bookmarks with an http or https URL. -/
def tableStore (rows : List MyBookmarkRow) : Store TableDir MyBookmarkRow MyBookmarkRow BmEntry where
  dirs n := (dirRows rows n.groupid).map fun r => (r, n.below r)
  items n := (itemRows rows n.groupid).filter fun r => isHttpUrl urlScheme r.fullPath
  isDir r t := t.val.name = r.shortName ∧ t.val.flag = .catagory ∧ t.val.bmid = r.id ∧ t.val.groupId = r.groupid
  isItem r t := t.val.name = r.shortName ∧ t.val.link = handleUrlString r.fullPath ∧ t.val.flag = .item ∧
    t.val.bmid = r.id

/-- The directory lies too deep, has too many rows, or one of the first two queries for it fails. -/
def Refused (rows : List MyBookmarkRow) (queryFails : List UInt32 → ReadQuery → Bool) (n : TableDir) : Prop :=
  n.level > info.maxlev ∨ (queryFails n.path .count ∨ (rowsIn rows n.groupid).length > info.maxchild) ∨
    queryFails n.path .dirs

instance (rows : List MyBookmarkRow) (queryFails : List UInt32 → ReadQuery → Bool) (n : TableDir) :
    Decidable (Refused info rows queryFails n) := inferInstanceAs (Decidable (_ ∨ _ ∨ _))

/-- A directory that is not refused is read, and its bookmarks if the query for them does not fail. -/
def tableReader (rows : List MyBookmarkRow) (queryFails : List UInt32 → ReadQuery → Bool) :
    Reader TableDir MyBookmarkRow MyBookmarkRow where
  takesDir n _ := ¬ Refused info rows queryFails n
  takesItem n _ := ¬ Refused info rows queryFails n ∧ queryFails n.path .items = false

section Table

variable {urlScheme info} {rows : List MyBookmarkRow} {queryFails : List UInt32 → ReadQuery → Bool} {n : TableDir}

/-- What a call for a directory reads; the fuel is what the level leaves. -/
def tableRead (urlScheme : QString → Option QString) (info : BrowserInfo) (rows : List MyBookmarkRow)
    (queryFails : List UInt32 → ReadQuery → Bool) (n : TableDir) : Bool × BmList :=
  readMyBookmark urlScheme info rows queryFails true (info.maxlev + 2 - n.level) n.level n.path n.groupid

theorem tableRead_refused (h : Refused info rows queryFails n) :
    tableRead urlScheme info rows queryFails n = (false, []) := by
  rw [tableRead]
  cases info.maxlev + 2 - n.level with
  | zero => rfl
  | succ fuel =>
    rw [readMyBookmark]
    by_cases hlevel : n.level > info.maxlev
    · rw [if_pos ⟨rfl, hlevel⟩]
    rw [if_neg fun hl => hlevel hl.2]
    by_cases hcount : queryFails n.path .count ∨ (rowsIn rows n.groupid).length > info.maxchild
    · rw [if_pos ⟨rfl, hcount⟩]
    · rw [if_neg fun hc => hcount hc.2, if_pos ((h.resolve_left hlevel).resolve_left hcount)]

theorem tableRead_accepted (h : ¬ Refused info rows queryFails n) :
    tableRead urlScheme info rows queryFails n =
      let list := addItems ((dirRows rows n.groupid).map fun r =>
        node (r.dirEntry n.level) (tableRead urlScheme info rows queryFails (n.below r)).2) []
      if queryFails n.path .items then (false, list)
      else (true, addItems (((itemRows rows n.groupid).filter fun r => isHttpUrl urlScheme r.fullPath).map
        fun r => node (r.itemEntry n.level) []) list) := by
  obtain ⟨hlevel, hcount, hdirs⟩ : ¬ n.level > info.maxlev ∧
      ¬ (queryFails n.path .count ∨ (rowsIn rows n.groupid).length > info.maxchild) ∧
        ¬ queryFails n.path .dirs = true := by
    simpa only [Refused, not_or] using h
  have hfuel : info.maxlev + 2 - n.level = info.maxlev + 2 - (n.level + 1) + 1 := by omega
  rw [tableRead, hfuel, readMyBookmark, if_neg fun hl => hlevel hl.2, if_neg fun hc => hcount hc.2, if_neg hdirs]
  rfl

theorem mem_tableRead {t : BmTree} (h : ¬ Refused info rows queryFails n) :
    t ∈ (tableRead urlScheme info rows queryFails n).2 ↔ (∃ r ∈ dirRows rows n.groupid,
        t = .node (r.dirEntry n.level) (tableRead urlScheme info rows queryFails (n.below r)).2) ∨
      (queryFails n.path .items = false ∧ ∃ r ∈ (tableStore urlScheme rows).items n,
        t = .node (r.itemEntry n.level) []) := by
  rw [tableRead_accepted h]
  dsimp only
  cases hitems : queryFails n.path .items
  · rw [if_neg Bool.false_ne_true, mem_addItems, mem_addItems, or_comm]
    simp only [mem_map, not_mem_nil, or_false, true_and, tableStore, eq_comm (a := t)]
  · rw [if_pos rfl, mem_addItems]
    simp only [mem_map, not_mem_nil, or_false, eq_comm (a := t), Bool.true_eq_false, false_and]

theorem reads_tableRead : Reads (tableStore urlScheme rows) (tableReader info rows queryFails) (fun _ => True)
    fun n => (tableRead urlScheme info rows queryFails n).2 where
  rank := by
    refine ⟨fun n => info.maxlev + 1 - n.level, fun n d hd htaken => ?_⟩
    obtain ⟨r, -, rfl⟩ := mem_map.1 hd
    have hlevel : ¬ n.level > info.maxlev := fun hl => htaken (.inl hl)
    show info.maxlev + 1 - (n.level + 1) < info.maxlev + 1 - n.level
    omega
  ok_below := fun _ _ _ _ => trivial
  dir := by
    intro n d hd htaken
    obtain ⟨r, hr, rfl⟩ := mem_map.1 hd
    exact ⟨_, (mem_tableRead htaken).2 (.inl ⟨r, hr, rfl⟩), ⟨rfl, rfl, rfl, rfl⟩, rfl⟩
  item := fun n r hr htaken =>
    ⟨_, (mem_tableRead htaken.1).2 (.inr ⟨htaken.2, r, hr, rfl⟩), rfl, rfl, rfl, rfl⟩
  only_dir := by
    rintro n - d hd t ht ⟨-, hflag, hid, hgroup⟩
    obtain ⟨r, -, rfl⟩ := mem_map.1 hd
    by_cases href : Refused info rows queryFails n
    · rw [tableRead_refused href] at ht
      exact absurd ht not_mem_nil
    refine ⟨href, ?_⟩
    -- the id and the group id say which directory of the table it is
    rcases (mem_tableRead href).1 ht with ⟨r', -, rfl⟩ | ⟨-, r', -, rfl⟩
    · have hid : r'.id = r.id := hid
      have hgroup : r'.groupid = r.groupid := hgroup
      rw [children_node, TableDir.below, hid, hgroup]
      rfl
    · exact noConfusion hflag
  only_item := by
    rintro n r hr t ht ⟨-, -, hflag, -⟩
    by_cases href : Refused info rows queryFails n
    · rw [tableRead_refused href] at ht
      exact absurd ht not_mem_nil
    rcases (mem_tableRead href).1 ht with ⟨r', -, rfl⟩ | ⟨hitems, -⟩
    · exact noConfusion hflag
    · exact ⟨href, hitems⟩

theorem lost_below {r : MyBookmarkRow} (hr : r ∈ dirRows rows n.groupid) (href : ¬ Refused info rows queryFails n)
    (hlost : Lost (tableStore urlScheme rows) (tableReader info rows queryFails) (n.below r)) :
    Lost (tableStore urlScheme rows) (tableReader info rows queryFails) n :=
  .inside (d := (r, n.below r)) (mem_map_of_mem hr) href hlost

end Table

/-! ## A directory -/

/-- The directory lies too deep or has too many entries. -/
def FavRefused (level : Nat) (entries : List FavTree) : Prop :=
  level > info.maxlev ∨ (favDirs entries).length + (favFiles entries).length > info.maxchild

/-- The subdirectories of a favourites directory, and its bookmark files with an http or https URL. -/
def favStore : Store (Nat × FavTree) QString (QString × QString) BmEntry where
  dirs n := n.2.children.filterMap fun t => match t.val with
    | .dir name => some (name, n.1 + 1, t)
    | .link _ | .file _ _ => none
  items n := httpFiles urlScheme n.2.children
  isDir name t := t.val.name = name ∧ t.val.flag = .catagory
  isItem f t := t.val.name = withoutSuffix f.1 ∧ t.val.link = handleUrlString f.2 ∧ t.val.flag = .item

/-- A directory that is not refused is read, but for the subdirectories that look like shell links. -/
def favReader : Reader (Nat × FavTree) QString (QString × QString) where
  takesDir n name := ¬ FavRefused info n.1 n.2.children ∧ isShellLink name = false
  takesItem n _ := ¬ FavRefused info n.1 n.2.children

/-- No two entries of a directory have the same name. -/
def DistinctNames (t : FavTree) : Prop :=
  t.Everywhere fun _ entries => (entries.map (·.val.name)).Nodup

/-- A favourites directory as a file system holds it. -/
structure Favourites where
  root : FavTree
  distinct : DistinctNames root

section Directory

variable {urlScheme info} {level : Nat} {e : FavEntry} {entries : List FavTree}

theorem readDirectory_refused (h : FavRefused info level entries) :
    readDirectory urlScheme info true level (.node e entries) = (false, []) := by
  rw [readDirectory]
  by_cases hlevel : level > info.maxlev
  · rw [if_pos ⟨rfl, hlevel⟩]
  · rw [if_neg fun hl => hlevel hl.2, if_pos ⟨rfl, h.resolve_left hlevel⟩]

theorem readDirectory_accepted (h : ¬ FavRefused info level entries) :
    readDirectory urlScheme info true level (.node e entries) =
      (true, addItems ((httpFiles urlScheme entries).map fun f => .node (favFileEntry level f.1 f.2) [])
        (addItems (readSubdirs urlScheme info true level entries) [])) := by
  rw [readDirectory, if_neg fun hl => h (.inl hl.2), if_neg fun hc => h (.inr hc.2)]

theorem mem_readSubdirs {u : BmTree} : u ∈ readSubdirs urlScheme info true level entries ↔
    ∃ t ∈ favDirs entries, isShellLink t.val.name = false ∧
      u = .node (favDirEntry level t.val.name) (readDirectory urlScheme info true (level + 1) t).2 := by
  induction entries with
  | nil => simp [readSubdirs, favDirs]
  | cons t entries ih =>
    rw [readSubdirs, mem_append, ih]
    cases hval : t.val with
    | dir name | link name => cases hlink : isShellLink name <;> simp [favDirs, hval, hlink, FavEntry.name]
    | file name url => simp [favDirs, hval]

theorem mem_readDirectory {u : BmTree} (h : ¬ FavRefused info level entries) :
    u ∈ (readDirectory urlScheme info true level (.node e entries)).2 ↔
      (∃ t ∈ favDirs entries, isShellLink t.val.name = false ∧
        u = .node (favDirEntry level t.val.name) (readDirectory urlScheme info true (level + 1) t).2) ∨
      ∃ f ∈ httpFiles urlScheme entries, u = .node (favFileEntry level f.1 f.2) [] := by
  rw [readDirectory_accepted h, mem_addItems, mem_addItems, mem_readSubdirs, or_comm]
  simp only [mem_map, not_mem_nil, or_false, eq_comm (a := u)]

theorem mem_favStore_dirs {n : Nat × FavTree} {d : QString × Nat × FavTree} :
    d ∈ (favStore urlScheme).dirs n ↔ d.2.2 ∈ n.2.children ∧ d.2.2.val = .dir d.1 ∧ d.2.1 = n.1 + 1 := by
  obtain ⟨name, l, u⟩ := d
  simp only [favStore, mem_filterMap]
  constructor
  · rintro ⟨t, ht, heq⟩
    cases hval : t.val with
    | dir name' =>
      rw [hval] at heq
      cases heq
      exact ⟨ht, hval, rfl⟩
    | link name' | file name' url =>
      rw [hval] at heq
      cases heq
  · rintro ⟨hu, hval, rfl⟩
    exact ⟨u, hu, by rw [hval]⟩

theorem reads_readDirectory : Reads (favStore urlScheme) (favReader info) (fun n => DistinctNames n.2)
    fun n => (readDirectory urlScheme info true n.1 n.2).2 where
  rank := by
    refine ⟨fun n => sizeOf n.2, ?_⟩
    rintro ⟨level, e, entries⟩ ⟨name, l, u⟩ hd -
    have hmem : u ∈ entries := (mem_favStore_dirs.1 hd).1
    have hlt := List.sizeOf_lt_of_mem hmem
    show sizeOf u < sizeOf (node e entries)
    rw [node.sizeOf_spec]
    omega
  ok_below := by
    rintro ⟨level, e, entries⟩ hok d hd
    exact hok.2.of_mem (mem_favStore_dirs.1 hd).1
  dir := by
    rintro ⟨level, e, entries⟩ ⟨name, l, u⟩ hd ⟨href, hlink⟩
    obtain ⟨hu, hval, rfl⟩ := mem_favStore_dirs.1 hd
    have hname : u.val.name = name := by rw [hval]; rfl
    refine ⟨_, (mem_readDirectory href).2 (.inl ⟨u, ?_, by rwa [hname], rfl⟩), ⟨hname, rfl⟩, rfl⟩
    exact mem_filter.2 ⟨hu, by rw [hval]⟩
  item := by
    rintro ⟨level, e, entries⟩ f hf href
    exact ⟨_, (mem_readDirectory href).2 (.inr ⟨f, hf, rfl⟩), rfl, rfl, rfl⟩
  only_dir := by
    rintro ⟨level, e, entries⟩ ⟨hnodup, -⟩ ⟨name, l, u⟩ hd t ht ⟨hname, hflag⟩
    obtain ⟨hu, hval, rfl⟩ := mem_favStore_dirs.1 hd
    by_cases href : FavRefused info level entries
    · rw [readDirectory_refused href] at ht
      exact absurd ht not_mem_nil
    -- the name says which subdirectory it is
    rcases (mem_readDirectory href).1 ht with ⟨u', hu', hlink, rfl⟩ | ⟨f, -, rfl⟩
    · have hsame : u' = u := by
        refine inj_on_of_nodup_map hnodup (mem_filter.1 hu').1 hu ?_
        rw [hval]
        exact hname
      subst hsame
      refine ⟨⟨href, ?_⟩, rfl⟩
      rwa [hval] at hlink
    · exact noConfusion hflag
  only_item := by
    rintro ⟨level, e, entries⟩ f - t ht - href
    have href : FavRefused info level entries := href
    rw [readDirectory_refused href] at ht
    exact absurd ht not_mem_nil

end Directory

/-! ## What both readers build -/

theorem readMyBookmark_ok (rows : List MyBookmarkRow) (queryFails : List UInt32 → ReadQuery → Bool) :
    ∀ (fuel level : Nat) (path : List UInt32) (groupid : UInt32),
    Sorted (readMyBookmark urlScheme info rows queryFails true fuel level path groupid).2 ∧
      WellFormed (readMyBookmark urlScheme info rows queryFails true fuel level path groupid).2 := by
  intro fuel
  induction fuel with
  | zero => exact fun _ _ _ => ⟨sorted_nil, trivial⟩
  | succ fuel ih =>
    intro level path groupid
    have hdirs : ∀ dirs, dirs = (dirRows rows groupid).map (fun r => node (r.dirEntry level)
        (readMyBookmark urlScheme info rows queryFails true fuel (level + 1) (path ++ [r.id]) r.groupid).2) →
        Sorted (addItems dirs []) ∧ WellFormed (addItems dirs []) := by
      rintro _ rfl
      refine ok_addItems ⟨sorted_nil, trivial⟩ fun t ht => ?_
      obtain ⟨r, -, rfl⟩ := mem_map.1 ht
      exact ⟨(ih _ _ _).1, fun h => noConfusion h, fun _ => rfl, (ih _ _ _).2⟩
    rw [readMyBookmark]
    split_ifs with _ _ _ hitems
    · exact ⟨sorted_nil, trivial⟩
    · exact ⟨sorted_nil, trivial⟩
    · exact ⟨sorted_nil, trivial⟩
    · exact hdirs _ rfl
    · refine ok_addItems (hdirs _ rfl) fun t ht => ?_
      obtain ⟨r, -, rfl⟩ := mem_map.1 ht
      exact ⟨sorted_nil, fun _ => rfl, fun h => noConfusion h, trivial⟩

theorem readDirectory_ok (entries : List FavTree) : ∀ (e : FavEntry) (level : Nat),
    Sorted (readDirectory urlScheme info true level (.node e entries)).2 ∧
      WellFormed (readDirectory urlScheme info true level (.node e entries)).2 := by
  induction entries using children_induction with
  | step entries ih =>
    intro e level
    by_cases href : FavRefused info level entries
    · rw [readDirectory_refused href]
      exact ⟨sorted_nil, trivial⟩
    · rw [readDirectory_accepted href]
      refine ok_addItems (ok_addItems ⟨sorted_nil, trivial⟩ fun u hu => ?_) fun u hu => ?_
      · obtain ⟨t, ht, -, rfl⟩ := mem_readSubdirs.1 hu
        have hbelow := ih t (mem_filter.1 ht).1 t.val (level + 1)
        rw [eta] at hbelow
        exact ⟨hbelow.1, fun h => noConfusion h, fun _ => rfl, hbelow.2⟩
      · obtain ⟨f, -, rfl⟩ := mem_map.1 hu
        exact ⟨sorted_nil, fun _ => rfl, fun h => noConfusion h, trivial⟩

/-- The outermost directory of the table. -/
def tableRoot : TableDir := ⟨0, [], 0⟩

end Readers

/-- The scheme of a text with a colon in it, enough of `QUrl` for plain URLs. -/
def schemeBeforeColon (url : QString) : Option QString :=
  if ':' ∈ url then some (url.takeWhile (· ≠ ':')) else none

/-- A directory named `d` with one group id inside another. -/
def dirRow (groupid parentid : UInt32) : MyBookmarkRow := ⟨groupid, groupid, parentid, 1, 6, ['d'], []⟩

/-- Six directories, one in the other, and a bookmark in the innermost. -/
def deepRows : List MyBookmarkRow :=
  [dirRow 1 0, dirRow 2 1, dirRow 3 2, dirRow 4 3, dirRow 5 4, dirRow 6 5,
   ⟨7, 0, 6, 0, 6, ['b'], ['h', 't', 't', 'p', ':', 'x']⟩]

end MyLaunch
