/-
# MipsOnQemu.MyLaunch.BmXml -- the bookmark file: `bmListToXml` and `readStream`

`bmxml.cpp` writes a list of bookmarks as XML text and reads it back from a
`QXmlStreamReader`. The reader is four nested loops (`readStream`, `readBrowserType`,
`readBookmarkElement`, `CreateCatagory`/`CreateItem`/`importItem`) that pull tokens from
one shared stream until it is at its end. At every moment the innermost running loop takes
the next token, so the reader is a machine whose state is the stack of running calls:
`BmXml.step` takes one token and `readStream` folds it over the tokens of the document.
A call that is still running when the stream ends never reaches its `addItemToSortlist`.
-/

import MipsOnQemu.Lib.Xml
import MipsOnQemu.MyLaunch.Bookmark

namespace MyLaunch

open KeyedForest (Rose Forest)
open Xml (Token Attrs WrittenAttr startTag endTag cdata)

/-! ## Texts of numbers and dates -/

def dropPlus : QString → QString
  | '+' :: s => s
  | s => s

/-- `QString::toUInt`: surrounding blanks and a plus sign are accepted, anything that is not
a 32-bit number is 0. -/
def toUInt (s : QString) : UInt32 :=
  let digits := dropPlus (trimmed s)
  if digits ≠ [] ∧ digits.all Char.isDigit ∧ Nat.ofDigitChars 10 digits 0 < 2 ^ 32 then
    UInt32.ofNat (Nat.ofDigitChars 10 digits 0)
  else 0

def daysInMonth (year month : Nat) : Nat :=
  if month = 2 then if year % 4 = 0 ∧ (year % 100 ≠ 0 ∨ year % 400 = 0) then 29 else 28
  else if month = 4 ∨ month = 6 ∨ month = 9 ∨ month = 11 then 30 else 31

/-- `QDateTime::fromString` with `TIME_FORMAT`, that is `yyyy-MM-dd hh:mm:ss`. -/
def dateTimeFromString (s : QString) : QDateTime :=
  match s with
  | [y₁, y₂, y₃, y₄, '-', m₁, m₂, '-', d₁, d₂, ' ', h₁, h₂, ':', n₁, n₂, ':', s₁, s₂] =>
    let num := fun ds => Nat.ofDigitChars 10 ds 0
    let year := num [y₁, y₂, y₃, y₄]
    let month := num [m₁, m₂]
    let day := num [d₁, d₂]
    if [y₁, y₂, y₃, y₄, m₁, m₂, d₁, d₂, h₁, h₂, n₁, n₂, s₁, s₂].all Char.isDigit ∧
        year ≠ 0 ∧ 1 ≤ month ∧ month ≤ 12 ∧ 1 ≤ day ∧ day ≤ daysInMonth year month ∧
        num [h₁, h₂] < 24 ∧ num [n₁, n₂] < 60 ∧ num [s₁, s₂] < 60 then some s else none
  | _ => none

/-! ## The fields of an entry -/

/-- The rows of `importlist` as an enumeration. -/
inductive BmField where
  | name | desciption | link | bmid | addDate | modifyDate | id | icon | feedurl | lastCharset
  | personalToolbarFolder | hr | lastVisit
  deriving DecidableEq, Repr

/-- `importlist`: the fields in the order they are written, each with its tag. -/
def importlist : List (BmField × QString) :=
  [(.name, "name".toList), (.desciption, "DD".toList), (.link, "link".toList),
   (.bmid, "bmid".toList), (.addDate, "ADD_DATE".toList), (.modifyDate, "LAST_MODIFIED".toList),
   (.id, "ID".toList), (.icon, "ICON".toList), (.feedurl, "FEEDURL".toList),
   (.lastCharset, "LAST_CHARSET".toList),
   (.personalToolbarFolder, "PERSONAL_TOOLBAR_FOLDER".toList), (.hr, "HR".toList),
   (.lastVisit, "LAST_VISITE".toList)]

/-- The row of `importlist` with a tag. -/
def importField (tag : QString) : Option BmField :=
  (importlist.find? (·.2 == tag)).map (·.1)

/-- A text that is written only when it is not empty. -/
def nonEmpty (s : QString) : Option QString := if s = [] then none else some s

/-- What `bmItemToFile` writes for a field, `none` when it leaves the field out. -/
def fieldText (bm : BmEntry) : BmField → Option QString
  | .name => nonEmpty bm.name
  | .desciption => nonEmpty bm.desciption
  | .link => nonEmpty bm.link
  | .bmid => some (uintText bm.bmid)
  | .addDate => bm.addDate
  | .modifyDate => bm.modifyDate
  | .id => nonEmpty bm.id
  | .icon => nonEmpty bm.icon
  | .feedurl => nonEmpty bm.feedurl
  | .lastCharset => nonEmpty bm.lastCharset
  | .personalToolbarFolder => nonEmpty bm.personalToolbarFolder
  | .hr => if bm.hr = 1 then some (uintText bm.hr) else none
  | .lastVisit => nonEmpty bm.lastVisit

/-- The assignment `importItem` makes for one run of text. -/
def setField (bc : BmEntry) (field : BmField) (text : QString) : BmEntry :=
  match field with
  | .name => { bc with name := text }
  | .link => { bc with link := handleUrlString (trimmed text) }
  | .desciption => { bc with desciption := trimmed text }
  | .icon => { bc with icon := trimmed text }
  | .feedurl => { bc with feedurl := trimmed text }
  | .lastCharset => { bc with lastCharset := trimmed text }
  | .personalToolbarFolder => { bc with personalToolbarFolder := trimmed text }
  | .id => { bc with id := text }
  | .addDate => { bc with addDate := dateTimeFromString (trimmed text) }
  | .modifyDate => { bc with modifyDate := dateTimeFromString (trimmed text) }
  | .lastVisit => { bc with lastVisit := trimmed text }
  | .bmid => { bc with bmid := toUInt text }
  | .hr => { bc with hr := toUInt text }

/-! ## The writer -/

namespace Tag

def bookmark : QString := "bookmark".toList
def digg : QString := "digg".toList
def browserType : QString := "browserType".toList
def category : QString := "category".toList
def item : QString := "item".toList
def comeFrom : QString := "comeFrom".toList

end Tag

open Tag

/-- One line: an element whose content is a CDATA section. The text is not escaped. -/
def fieldLine (tag text : QString) : QString := startTag tag [] ++ cdata text ++ endTag tag ++ ['\n']

def bmItemToFile (bm : BmEntry) : QString :=
  importlist.flatMap fun p => ((fieldText bm p.1).map (fieldLine p.2)).getD []

/-- The numeric `BROWSE_TYPE_*`. -/
def Browser.id : Browser → UInt32
  | .netbookmark => 0
  | .ie => 1
  | .firefox => 2
  | .opera => 3

/-- `tz::getBrowserName(id).toLower()`. -/
def Browser.lowerName (b : Browser) : QString := (browserInfo b).name.map Char.toLower

mutual
/-- One entry of the loop of `bmXml::bmListToXml`. Children of a bookmark are not written. -/
def bmTreeToXml (browserType : Browser) : BmTree → QString
  | .node bm list =>
    match bm.flag with
    | .catagory =>
      startTag category [⟨"groupId".toList, uintText bm.groupId, [' ']⟩,
          ⟨"parentId".toList, uintText bm.parentId, [' ']⟩] ++ ['\n'] ++
        (bmItemToFile bm ++ bmEntriesToXml browserType list) ++ endTag category ++ ['\n']
    | .item =>
      startTag item [⟨"parentId".toList, uintText bm.parentId, [' ']⟩] ++ ['\n'] ++
        (bmItemToFile bm ++ fieldLine comeFrom (uintText browserType.id)) ++
        endTag item ++ ['\n']

/-- The loop of `bmXml::bmListToXml`. -/
def bmEntriesToXml (browserType : Browser) : BmList → QString
  | [] => []
  | t :: l => bmTreeToXml browserType t ++ bmEntriesToXml browserType l
end

/-- The declaration line of `BM_WRITE_HEADER`. -/
def xmlDeclaration : QString := "<?xml version=\"1.0\" encoding=\"utf-8\"?>\n".toList

/-- The attributes of the root; there are two blanks before the last one. -/
def rootAttrs (updateTime : QString) (userid : UInt32) : List WrittenAttr :=
  [⟨"version".toList, "1.0".toList, [' ']⟩, ⟨"updateTime".toList, updateTime, [' ']⟩,
   ⟨"userId".toList, uintText userid, [' ', ' ']⟩]

/-- The block of one browser, `bmListToXml` with `start` set. -/
def browserBlock (browserType : Browser) (browserenable : UInt32) (list : BmList) : QString :=
  startTag Tag.browserType [⟨"name".toList, browserType.lowerName, [' ']⟩,
      ⟨"browserenable".toList, uintText browserenable, [' ']⟩] ++ ['\n'] ++
    bmEntriesToXml browserType list ++ endTag Tag.browserType ++ ['\n']

/-- `bmXml::bmListToXml` with `start` set; `header` and `last` are the bits
`BM_WRITE_HEADER` and `BM_WRITE_END` of `flag`. -/
def bmListToXml (header last : Bool) (list : BmList) (browserType : Browser) (updateTime : QString)
    (browserenable userid : UInt32) : QString :=
  (if header then xmlDeclaration ++ (startTag bookmark (rootAttrs updateTime userid) ++ ['\n'])
    else []) ++
  browserBlock browserType browserenable list ++
  (if last then endTag bookmark ++ ['\n'] else [])

/-! ## The reader -/

/-- The entry `CreateCatagory` starts from; what the source leaves unset is empty or 0. -/
def newCatagory (level groupId parentId : UInt32) : BmEntry where
  name := []
  link := []
  flag := .catagory
  level := level
  groupId := groupId
  parentId := parentId

/-- The entry `CreateItem` starts from. -/
def newItem (level parentId : UInt32) : BmEntry where
  name := []
  link := []
  flag := .item
  level := level
  parentId := parentId

/-- A running call of the reader. `CreateCatagory` and `CreateItem` hold the entry they
fill, and `CreateCatagory` the list of children it has read. -/
inductive Frame where
  | readDiggElement
  | readBrowserType
  | readBookmarkElement
  | createCatagory (bc : BmEntry) (list : BmList)
  | createItem (bc : BmEntry)
  | importItem (field : BmField)

/-- The reader: what a `bmXml` has read so far and the calls that run, innermost first.
With no call running it is in the loop of `readStream`. -/
structure BmXml where
  bmList : BmList := []
  updateTime : QString := []
  userId : UInt32 := 0
  browserenable : UInt32 := 0
  digg : Bool := false
  calls : List Frame := []

namespace BmXml

variable (r : BmXml)

/-- The reader with other calls running. -/
def setCalls (calls : List Frame) : BmXml := { r with calls := calls }

def call (f : Frame) : BmXml := r.setCalls (f :: r.calls)

/-- Call `CreateCatagory` with the ids of the current element. -/
def callCreateCatagory (level : UInt32) (attrs : Attrs) : BmXml :=
  r.call (.createCatagory (newCatagory level (toUInt (attrs.value "groupId".toList))
    (toUInt (attrs.value "parentId".toList))) [])

/-- Call `CreateItem` with the parent id of the current element. -/
def callCreateItem (level : UInt32) (attrs : Attrs) : BmXml :=
  r.call (.createItem (newItem level (toUInt (attrs.value "parentId".toList))))

/-- Return from a call that adds an entry to the list its caller passed: the children of a
running `CreateCatagory`, else `bm_list`. In a digg file bookmarks keep their order. -/
def returnWith (callers : List Frame) (bc : BmTree) : BmXml :=
  match callers with
  | .createCatagory parent list :: rest =>
    r.setCalls (.createCatagory parent (addItemToSortlist bc list) :: rest)
  | _ =>
    { r with
      calls := callers
      bmList := if r.digg ∧ bc.val.flag = .item then r.bmList ++ [bc]
        else addItemToSortlist bc r.bmList }

/-- The test for a child element in `CreateCatagory`. It is also made with the element that
has just ended `importItem`, which has no attributes. -/
def childElement (level : UInt32) (name : QString) (attrs : Attrs) : BmXml :=
  if name = item then r.callCreateItem (level + 1) attrs
  else if name = category then r.callCreateCatagory (level + 1) attrs
  else r

/-- One turn of the loop of `importItem`, with the entry of the caller below it. -/
def stepImportItem (field : BmField) (callers : List Frame) : Token → BmXml
  | .characters text =>
    if text.all Xml.isWhite then r
    else match callers with
      | .createCatagory bc list :: rest =>
        r.setCalls (.importItem field :: .createCatagory (setField bc field text) list :: rest)
      | .createItem bc :: rest =>
        r.setCalls (.importItem field :: .createItem (setField bc field text) :: rest)
      | _ => r
  | .endElement name =>
    match callers with
    | .createCatagory bc _ :: _ => (r.setCalls callers).childElement bc.level name []
    | _ => r.setCalls callers
  | _ => r

def stepCreateCatagory (bc : BmEntry) (list : BmList) (callers : List Frame) : Token → BmXml
  | .startElement name attrs =>
    match importField name with
    | some field => r.call (.importItem field)
    | none => r.childElement bc.level name attrs
  | .endElement name =>
    if name = category then r.returnWith callers (.node { bc with link := [] } list) else r
  | _ => r

def stepCreateItem (bc : BmEntry) (callers : List Frame) : Token → BmXml
  | .startElement name _ =>
    match importField name with
    | some field => r.call (.importItem field)
    | none => r
  | .endElement name => if name = item then r.returnWith callers (.node bc []) else r
  | _ => r

/-- One turn of the loop of `readBookmarkElement`. -/
def stepReadBookmarkElement (callers : List Frame) : Token → BmXml
  | .startElement name attrs =>
    if name = category then r.callCreateCatagory 0 attrs
    else if name = item then r.callCreateItem 0 attrs
    else r
  | .endElement name => if name = browserType then r.setCalls callers else r
  | _ => r

/-- One turn of the loop of `readBrowserType`, which never returns before the stream ends. -/
def stepReadBrowserType (browserType : Browser) : Token → BmXml
  | .startElement name attrs =>
    if name = Tag.browserType ∧ attrs.value "name".toList = browserType.lowerName then
      { r with browserenable := toUInt (attrs.value "browserenable".toList) }.call
        .readBookmarkElement
    else r
  | _ => r

def stepReadStream : Token → BmXml
  | .startElement name attrs =>
    if name = bookmark ∧ attrs.value "version".toList = "1.0".toList then
      { r with
        updateTime := attrs.value "updateTime".toList
        userId := toUInt (attrs.value "userId".toList) }.call .readBrowserType
    else if name = Tag.digg ∧ attrs.value "version".toList = "1.0".toList then
      { r with digg := true }.call .readDiggElement
    else r
  | _ => r

/-- One token, taken by the innermost running call. -/
def step (browserType : Browser) (r : BmXml) (tok : Token) : BmXml :=
  match r.calls with
  | [] => r.stepReadStream tok
  | .readDiggElement :: _ =>
    match tok with
    | .startElement name _ => if name = item then r.call (.createItem (newItem 0 0)) else r
    | _ => r
  | .readBrowserType :: _ => r.stepReadBrowserType browserType tok
  | .readBookmarkElement :: callers => r.stepReadBookmarkElement callers tok
  | .createCatagory bc list :: callers => r.stepCreateCatagory bc list callers tok
  | .createItem bc :: callers => r.stepCreateItem bc callers tok
  | .importItem field :: callers => r.stepImportItem field callers tok

/-- The calls running over a stretch of the stream. -/
def run (browserType : Browser) (r : BmXml) (tokens : List Token) : BmXml :=
  tokens.foldl (step browserType) r

end BmXml

def readStream (browserType : Browser) (document : QString) : BmXml :=
  BmXml.run browserType {} (Xml.lex document)

end MyLaunch
