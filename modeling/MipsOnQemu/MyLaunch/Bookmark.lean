/-
# MipsOnQemu.MyLaunch.Bookmark -- the bookmark record, its text helpers and its limits

`bmapi.h` keeps a bookmark tree as `QList<bookmark_catagory>`, each entry with its
own list of children; here it is a `Forest BmEntry`. The two hash fields are never
set to anything but `qhashEx` of the name and of the link, so they are functions of
the entry rather than fields. `bmapi.cpp` supplies the helpers every reader uses:
`handleUrlString`, `qhashEx`, `addItemToSortlist`, and the per-browser limits.
-/

import Mathlib
import MipsOnQemu.Lib.Forest

namespace MyLaunch

open List

open KeyedForest (Rose Forest mapForest Distinct)

/-! ## Text -/

/-- A `QString`, as its Unicode characters. -/
abbrev QString := List Char

/-- `QChar::isSpace`: the five ASCII controls and the separator categories Zs, Zl, Zp. -/
def isSpace (c : Char) : Bool :=
  let n := c.toNat
  (9 ≤ n && n ≤ 13) || n == 0x20 || n == 0xA0 || n == 0x1680 || n == 0x180E ||
    (0x2000 ≤ n && n ≤ 0x200A) || n == 0x2028 || n == 0x2029 || n == 0x202F || n == 0x205F ||
    n == 0x3000

/-- Drop the longest suffix whose characters satisfy `p`. -/
def dropTrailing (p : Char → Bool) (s : QString) : QString := (s.reverse.dropWhile p).reverse

theorem dropTrailing_dropWhile {q : Char → Bool} {s : QString} (hhead : ∀ c ∈ s.head?, q c = false)
    (hlast : ∀ c ∈ s.getLast?, q c = false) : dropTrailing q (s.dropWhile q) = s := by
  have hkeep : ∀ t : QString, (∀ c ∈ t.head?, q c = false) → t.dropWhile q = t := by
    intro t ht
    cases t with
    | nil => rfl
    | cons c t => rw [dropWhile_cons_of_neg (by simp [ht c rfl])]
  rw [hkeep s hhead, dropTrailing, hkeep s.reverse (by rwa [head?_reverse]), reverse_reverse]

def trimmed (s : QString) : QString := dropTrailing isSpace (s.dropWhile isSpace)

/-- `handleUrlString`: trim, then cut every trailing slash. -/
def handleUrlString (url : QString) : QString := dropTrailing (· == '/') (trimmed url)

/-- `QString::number` and `%1` of a `uint`. -/
def uintText (n : UInt32) : QString := Nat.toDigits 10 n.toNat

/-- The UTF-16 code units of a character. -/
def utf16 (c : Char) : List (BitVec 32) :=
  let n := c.toNat
  if n < 0x10000 then [BitVec.ofNat 32 n]
  else
    [BitVec.ofNat 32 (0xD800 + (n - 0x10000) / 0x400), BitVec.ofNat 32 (0xDC00 + (n - 0x10000) % 0x400)]

/-- One round of `qhashEx`. `g` is an `int`, so its right shift copies the sign. -/
def qhashStep (h c : BitVec 32) : BitVec 32 :=
  let h := (h <<< 4) + c
  let g := h &&& 0xf0000000#32
  let h := if g ≠ 0 then h ^^^ g.sshiftRight 23 else h
  h &&& ~~~g

def qhashEx (str : QString) : BitVec 32 := (str.flatMap utf16).foldl qhashStep 0

/-! ## The record -/

/-- `BOOKMARK_CATAGORY_FLAG` and `BOOKMARK_ITEM_FLAG`. -/
inductive BmFlag where
  | catagory | item
  deriving DecidableEq, Repr

/-- A `QDateTime` as its printed text, `none` when it is not valid. -/
abbrev QDateTime := Option QString

/-- `struct bookmark_catagory` without its list of children. -/
structure BmEntry where
  name : QString
  link : QString
  flag : BmFlag
  desciption : QString := []
  icon : QString := []
  feedurl : QString := []
  lastCharset : QString := []
  personalToolbarFolder : QString := []
  id : QString := []
  addDate : QDateTime := none
  modifyDate : QDateTime := none
  lastVisit : QString := []
  groupId : UInt32 := 0
  parentId : UInt32 := 0
  bmid : UInt32 := 0
  level : UInt32 := 0
  hr : UInt32 := 0
  deriving DecidableEq

instance : Inhabited BmEntry := ⟨{ name := [], link := [], flag := .item }⟩

/-- A `bookmark_catagory`: an entry with its children. -/
abbrev BmTree := Rose BmEntry

/-- A `QList<bookmark_catagory>`. -/
abbrev BmList := Forest BmEntry

instance : Inhabited BmTree := ⟨.node default []⟩

namespace BmEntry

/-- The `name_hash` field, as every reader fills it. -/
def nameHash (b : BmEntry) : BitVec 32 := qhashEx b.name

/-- The `link_hash` field, as every reader fills it. -/
def linkHash (b : BmEntry) : BitVec 32 := qhashEx b.link

end BmEntry

/-- What `isBmEntryEqual` compares of an entry. -/
structure BmKey where
  name : QString
  link : QString
  flag : BmFlag
  deriving DecidableEq

/-- The identity of an entry. -/
def BmEntry.key (b : BmEntry) : BmKey := ⟨b.name, b.link, b.flag⟩

/-- A tree of bookmarks as a tree of (name, link, flag). -/
def keyTree (t : BmTree) : Rose BmKey := t.map BmEntry.key

/-- A list of bookmarks as a forest of (name, link, flag). -/
def keyForest (l : BmList) : Forest BmKey := mapForest BmEntry.key l

@[simp] theorem keyTree_node (b : BmEntry) (l : BmList) :
    keyTree (.node b l) = .node b.key (keyForest l) := rfl

variable (t : BmTree) {l : BmList}

@[simp] theorem keyTree_val : (keyTree t).val = t.val.key := by cases t; rfl

@[simp] theorem keyTree_children : (keyTree t).children = keyForest t.children := by
  cases t; rfl

@[simp] theorem keyForest_nil : keyForest [] = [] := rfl

@[simp] theorem keyForest_cons (l : BmList) : keyForest (t :: l) = keyTree t :: keyForest l := rfl

@[simp] theorem keyForest_append (l l' : BmList) :
    keyForest (l ++ l') = keyForest l ++ keyForest l' := KeyedForest.mapForest_append _ _ _

theorem mem_keyForest {x : Rose BmKey} : x ∈ keyForest l ↔ ∃ t ∈ l, keyTree t = x := by
  rw [keyForest, KeyedForest.mapForest_eq_map, mem_map]
  rfl

def isBmEntryEqual (b bm : BmEntry) : Bool :=
  !(b.nameHash ≠ bm.nameHash || b.linkHash ≠ bm.linkHash || b.flag ≠ bm.flag ||
    b.name ≠ bm.name || b.link ≠ bm.link)

theorem isBmEntryEqual_iff (b bm : BmEntry) : isBmEntryEqual b bm = true ↔ b.key = bm.key := by
  constructor
  · intro h
    simp only [isBmEntryEqual, Bool.not_eq_true', Bool.or_eq_false_iff, decide_eq_false_iff_not,
      ne_eq, not_not] at h
    obtain ⟨⟨⟨⟨-, -⟩, hflag⟩, hname⟩, hlink⟩ := h
    simp only [BmEntry.key, BmKey.mk.injEq]
    exact ⟨hname, hlink, hflag⟩
  · intro h
    simp only [BmEntry.key, BmKey.mk.injEq] at h
    obtain ⟨hname, hlink, hflag⟩ := h
    simp [isBmEntryEqual, BmEntry.nameHash, BmEntry.linkHash, hname, hlink, hflag]

/-! ## Lists sorted by `name_hash` -/

/-- `tz::addItemToSortlist`: before the first entry whose hash is not smaller. -/
def addItemToSortlist (bc : BmTree) : BmList → BmList
  | [] => [bc]
  | x :: list =>
    if x.val.nameHash < bc.val.nameHash then x :: addItemToSortlist bc list else bc :: x :: list

/-- The level is in ascending order of `name_hash`. -/
def NameHashSorted (l : BmList) : Prop := l.Pairwise fun s t => s.val.nameHash ≤ t.val.nameHash

instance (l : BmList) : Decidable (NameHashSorted l) :=
  inferInstanceAs (Decidable (l.Pairwise fun s t => s.val.nameHash ≤ t.val.nameHash))

theorem addItemToSortlist_perm (bc : BmTree) (l : BmList) : (addItemToSortlist bc l).Perm (bc :: l) := by
  induction l with
  | nil => exact .refl _
  | cons x l ih =>
    rw [addItemToSortlist]
    split
    · exact (ih.cons x).trans (.swap bc x l)
    · exact .refl _

theorem NameHashSorted.addItemToSortlist {l : BmList} (h : NameHashSorted l) (bc : BmTree) :
    NameHashSorted (addItemToSortlist bc l) := by
  induction l with
  | nil => exact pairwise_singleton _ _
  | cons x l ih =>
    obtain ⟨hx, hl⟩ := pairwise_cons.mp h
    rw [MyLaunch.addItemToSortlist]
    split
    · next hlt =>
      refine pairwise_cons.mpr ⟨fun y hy => ?_, ih hl⟩
      rcases mem_cons.mp ((addItemToSortlist_perm bc l).mem_iff.mp hy) with rfl | hy
      · exact BitVec.le_of_lt hlt
      · exact hx y hy
    · next hge =>
      have hle : bc.val.nameHash ≤ x.val.nameHash := BitVec.not_lt.mp hge
      refine pairwise_cons.mpr ⟨fun y hy => ?_, h⟩
      rcases mem_cons.mp hy with rfl | hy
      · exact hle
      · exact BitVec.le_trans hle (hx y hy)

/-- A loop that adds entries one by one. -/
def addItems (items : List BmTree) (list : BmList) : BmList :=
  items.foldl (fun list bc => addItemToSortlist bc list) list

theorem addItems_perm (items : List BmTree) (list : BmList) : (addItems items list).Perm (items ++ list) := by
  induction items generalizing list with
  | nil => exact .refl _
  | cons x items ih => exact (ih _).trans (((addItemToSortlist_perm x list).append_left items).trans perm_middle)

theorem NameHashSorted.addItems {l : BmList} (h : NameHashSorted l) (items : List BmTree) :
    NameHashSorted (addItems items l) := by
  induction items generalizing l with
  | nil => exact h
  | cons x items ih => exact ih (h.addItemToSortlist x)

mutual
/-- Every list below the root is sorted. -/
def SortedBelow : BmTree → Prop
  | .node _ cs => NameHashSorted cs ∧ AllSortedBelow cs

/-- Every list below a top-level entry is sorted. -/
def AllSortedBelow : BmList → Prop
  | [] => True
  | t :: l => SortedBelow t ∧ AllSortedBelow l
end

/-- Every list of the tree, at every depth, is sorted by `name_hash`. -/
def Sorted (l : BmList) : Prop := NameHashSorted l ∧ AllSortedBelow l

theorem sorted_nil : Sorted [] := ⟨List.Pairwise.nil, trivial⟩

theorem allSortedBelow_iff : AllSortedBelow l ↔ ∀ t ∈ l, Sorted t.children := by
  induction l with
  | nil => simp [AllSortedBelow]
  | cons t l ih =>
    obtain ⟨e, cs⟩ := t
    rw [AllSortedBelow, ih, forall_mem_cons]
    rfl

theorem sorted_iff : Sorted l ↔ NameHashSorted l ∧ ∀ t ∈ l, Sorted t.children := by
  rw [Sorted, allSortedBelow_iff]

/-! ## Well-formed trees -/

mutual
/-- A bookmark has no children, a directory no link. -/
def WellFormedTree : BmTree → Prop
  | .node b cs => (b.flag = .item → cs = []) ∧ (b.flag = .catagory → b.link = []) ∧ WellFormed cs

/-- Every tree of the list is well formed. -/
def WellFormed : BmList → Prop
  | [] => True
  | t :: l => WellFormedTree t ∧ WellFormed l
end

mutual
def decideWellFormedTree : (t : BmTree) → Decidable (WellFormedTree t)
  | .node b cs =>
    @instDecidableAnd _ _ (inferInstance : Decidable (b.flag = .item → cs = []))
      (@instDecidableAnd _ _ (inferInstance : Decidable (b.flag = .catagory → b.link = []))
        (decideWellFormed cs))

def decideWellFormed : (l : BmList) → Decidable (WellFormed l)
  | [] => isTrue trivial
  | t :: l => @instDecidableAnd _ _ (decideWellFormedTree t) (decideWellFormed l)
end

instance (l : BmList) : Decidable (WellFormed l) := decideWellFormed l

theorem wellFormed_iff : WellFormed l ↔ ∀ t ∈ l, WellFormedTree t := by
  induction l with
  | nil => simp [WellFormed]
  | cons t l ih => rw [WellFormed, ih, forall_mem_cons]

theorem forall_mem_addItemToSortlist {P : BmTree → Prop} {t : BmTree} {l : BmList} :
    (∀ u ∈ addItemToSortlist t l, P u) ↔ P t ∧ ∀ u ∈ l, P u := by
  simp only [(addItemToSortlist_perm t l).mem_iff, forall_mem_cons]

theorem Sorted.addItemToSortlist {l : BmList} (hl : Sorted l) {t : BmTree} (ht : Sorted t.children) :
    Sorted (addItemToSortlist t l) := by
  obtain ⟨hhash, hbelow⟩ := sorted_iff.1 hl
  exact sorted_iff.2 ⟨hhash.addItemToSortlist t, forall_mem_addItemToSortlist.2 ⟨ht, hbelow⟩⟩

theorem WellFormed.addItemToSortlist (hl : WellFormed l) {t : BmTree} (ht : WellFormedTree t) :
    WellFormed (addItemToSortlist t l) := by
  rw [wellFormed_iff] at hl ⊢
  exact forall_mem_addItemToSortlist.2 ⟨ht, hl⟩

theorem wellFormed_iff_everywhere : WellFormed l ↔ KeyedForest.Everywhere
      (fun k cs => (k.flag = .item → cs = []) ∧ (k.flag = .catagory → k.link = [])) (keyForest l) := by
  induction l using KeyedForest.forest_induction with
  | nil => exact Iff.rfl
  | cons b cs l ihc ihl =>
    have hnil : keyForest cs = [] ↔ cs = [] := by
      rw [keyForest, KeyedForest.mapForest_eq_map, map_eq_nil_iff]
    rw [WellFormed, WellFormedTree, keyForest_cons, keyTree_node, KeyedForest.everywhere_cons,
      KeyedForest.Rose.everywhere_node, ← ihc, ← ihl, hnil]
    exact and_congr_left fun _ => and_assoc.symm

/-- A bookmark tree as every reader builds it. -/
structure Bookmarks where
  list : BmList
  wellFormed : WellFormed list

/-- No two siblings are equal under `isBmEntryEqual`. -/
def NoEqualSiblings (l : BmList) : Prop := Distinct (keyForest l)

instance (l : BmList) : Decidable (NoEqualSiblings l) :=
  inferInstanceAs (Decidable (Distinct (keyForest l)))

/-! ## Browsers and their limits -/

/-- `BROWSE_TYPE_NETBOOKMARK` to `BROWSE_TYPE_OPERA`. -/
inductive Browser where
  | netbookmark | ie | firefox | opera
  deriving DecidableEq, Repr

/-- The columns of a `browserInfo` row that the sync reads. -/
structure BrowserInfo where
  name : QString
  maxlev : Nat
  maxchild : Nat
  titlelen : Nat
  dirlen : Nat
  urllen : Nat

def browserInfo : Browser → BrowserInfo
  | .netbookmark => ⟨"network".toList, 5, 128, 512, 256, 512⟩
  | .ie => ⟨"Ie".toList, 5, 128, 210, 202, 512⟩
  | .firefox => ⟨"Firefox".toList, 6, 128, 512, 256, 512⟩
  | .opera => ⟨"Opera".toList, 5, 128, 512, 256, 512⟩

/-- The browsers in table order. -/
def browsers : List Browser := [.netbookmark, .ie, .firefox, .opera]

end MyLaunch
