/-
# MipsOnQemu.MyLaunch.Snapshot -- what a written bookmark file is read back as

The two halves of the file format meet at a list of tokens. `entriesTokens` is what the
XML reader reports for the lines `bmListToXml` prints (`prints_entries`, by the rules of
the XML library), provided every text can stand in a CDATA section. `readBackList` is
what the calls of `readStream` make of these tokens (`run_entriesTokens`). What is left is
a fact about lists: `readBackList` keeps flag, bmid and ids, it keeps names and links up to their
line ends, and otherwise it only sorts.
-/

import MipsOnQemu.MyLaunch.BmXml

namespace MyLaunch

open KeyedForest List BmEntry BmXml Tag Xml SameUpToOrder
open Xml (Token Attrs WrittenAttr startTag endTag cdata CDataSafe Prints newline normalizeLineEnds)

/-! ## Numbers -/

variable {c : Char} {s : QString} {l : BmList} {bm : BmEntry} {b : Browser}

theorem isDigit_of_mem_uintText {n : UInt32} (h : c ∈ uintText n) : c.isDigit :=
  Nat.isDigit_of_mem_toDigits (by decide) (by decide) h

theorem toNat_of_isDigit (h : c.isDigit) : 48 ≤ c.toNat ∧ c.toNat ≤ 57 := by
  simpa [Char.isDigit, UInt32.le_iff_toNat_le] using h

theorem isSpace_of_isDigit (h : c.isDigit) : isSpace c = false := by
  have := toNat_of_isDigit h
  simp only [isSpace, Bool.or_eq_false_iff, Bool.and_eq_false_iff, decide_eq_false_iff_not,
    beq_eq_false_iff_ne]
  omega

theorem trimmed_eq_of_head_last (h : ∀ c ∈ s, isSpace c = false) : trimmed s = s :=
  dropTrailing_dropWhile (fun c hc => h c (mem_of_mem_head? hc))
    fun c hc => h c (mem_of_mem_getLast? hc)

variable {updateTime : QString} (get : BmEntry → α) (n : UInt32)

theorem toUInt_uintText : toUInt (uintText n) = n := by
  have hdigits : ∀ c ∈ uintText n, c.isDigit := fun c hc => isDigit_of_mem_uintText hc
  have htrim : trimmed (uintText n) = uintText n :=
    trimmed_eq_of_head_last fun c hc => isSpace_of_isDigit (hdigits c hc)
  have hvalue : Nat.ofDigitChars 10 (uintText n) 0 = n.toNat :=
    Nat.ofDigitChars_toDigits (by decide) (by decide)
  have hplus : dropPlus (uintText n) = uintText n := by
    rw [dropPlus.eq_def]
    split
    · next ds heq =>
      -- a plus sign is not a digit
      have := hdigits '+' (by rw [heq]; exact mem_cons_self)
      simp at this
    · rfl
  simp only [toUInt, htrim, hplus]
  rw [if_pos ⟨Nat.toDigits_ne_nil, all_eq_true.2 hdigits, by rw [hvalue]; exact n.toNat_lt⟩,
    hvalue, UInt32.ofNat_toNat]

theorem isValueChar_of_isDigit (h : c.isDigit) : isValueChar c := by
  have hn := toNat_of_isDigit h
  have hne : ∀ d : Char, d.toNat < 48 ∨ 57 < d.toNat → c ≠ d := by
    rintro d hd rfl
    omega
  have hchar : isChar c := by
    simp only [isChar, Bool.or_eq_true, Bool.and_eq_true, decide_eq_true_eq, beq_iff_eq]
    omega
  have hwhite : isWhite c = false := by
    simp [isWhite, hne ' ' (by decide), hne '\t' (by decide), hne '\n' (by decide), hne '\r' (by decide)]
  simp [isValueChar, hchar, hwhite, hne '"' (by decide), hne '<' (by decide), hne '&' (by decide)]

theorem uintText_all_isValueChar : (uintText n).all isValueChar :=
  all_eq_true.2 fun _ hc => isValueChar_of_isDigit (isDigit_of_mem_uintText hc)

theorem normalizeLineEnds_uintText : normalizeLineEnds (uintText n) = uintText n := by
  refine Xml.normalizeLineEnds_eq fun hmem => ?_
  have := isDigit_of_mem_uintText hmem
  simp at this

theorem cdataSafe_uintText : CDataSafe (uintText n) := by
  rw [CDataSafe, normalizeLineEnds_uintText]
  refine ⟨fun c hc => ?_, fun hin => ?_⟩
  · have hd := isValueChar_of_isDigit (isDigit_of_mem_uintText hc)
    simp only [isValueChar, Bool.and_eq_true] at hd
    exact hd.1.1.1.1
  · have := isDigit_of_mem_uintText (hin.subset (show ']' ∈ cdataClose by decide))
    simp at this

/-! ## What every document is read as -/

/-- A running call fills an entry of its own kind, and the children read so far are in order. -/
def Frame.Ok : Frame → Prop
  | .createCatagory bc list => bc.flag = .catagory ∧ Sorted list ∧ WellFormed list
  | .createItem bc => bc.flag = .item
  | _ => True

/-- What holds of the reader at every token. Only a digg file is not sorted. -/
structure BmXml.Ok (r : BmXml) : Prop where
  sorted : r.digg = false → Sorted r.bmList
  wellFormed : WellFormed r.bmList
  calls : ∀ f ∈ r.calls, f.Ok

namespace BmXml

variable {r : BmXml}

theorem Ok.setCalls (h : r.Ok) {calls : List Frame} (hcalls : ∀ f ∈ calls, f.Ok) :
    (r.setCalls calls).Ok := ⟨h.sorted, h.wellFormed, hcalls⟩

theorem Ok.call (h : r.Ok) {f : Frame} (hf : f.Ok) : (r.call f).Ok :=
  h.setCalls (forall_mem_cons.2 ⟨hf, h.calls⟩)

theorem Ok.callCreateCatagory (h : r.Ok) (level : UInt32) (attrs : Attrs) :
    (r.callCreateCatagory level attrs).Ok :=
  h.call ⟨rfl, sorted_nil, trivial⟩

theorem Ok.callCreateItem (h : r.Ok) (level : UInt32) (attrs : Attrs) :
    (r.callCreateItem level attrs).Ok := h.call rfl

theorem Ok.childElement (h : r.Ok) (level : UInt32) (name : QString) (attrs : Attrs) :
    (r.childElement level name attrs).Ok := by
  rw [BmXml.childElement]
  split
  · exact h.callCreateItem _ _
  · split
    · exact h.callCreateCatagory _ _
    · exact h

theorem Ok.returnWith (h : r.Ok) {callers : List Frame} (hcallers : ∀ f ∈ callers, f.Ok)
    {bc : BmTree} (hform : WellFormedTree bc) (hsorted : Sorted bc.children) :
    (r.returnWith callers bc).Ok := by
  unfold BmXml.returnWith
  split
  · next parent list rest =>
    obtain ⟨⟨hflag, hlist, hwf⟩, hrest⟩ := forall_mem_cons.1 hcallers
    exact h.setCalls (forall_mem_cons.2
      ⟨⟨hflag, hlist.addItemToSortlist hsorted, hwf.addItemToSortlist hform⟩, hrest⟩)
  · refine ⟨fun hdigg => ?_, ?_, hcallers⟩
    · have hdigg : r.digg = false := hdigg
      rw [hdigg]
      exact (h.sorted hdigg).addItemToSortlist hsorted
    · show WellFormed (if _ then _ else _)
      split
      · refine wellFormed_iff.2 (forall_mem_append.2 ⟨wellFormed_iff.1 h.wellFormed, ?_⟩)
        exact forall_mem_singleton.2 hform
      · exact h.wellFormed.addItemToSortlist hform

@[simp] theorem setField_flag (bc : BmEntry) (field : BmField) (text : QString) :
    (setField bc field text).flag = bc.flag := by cases field <;> rfl

/-- What a call leaves in `updateTime` and the like does not matter. -/
theorem Ok.congr {r' : BmXml} (h : r.Ok) (hlist : r'.bmList = r.bmList)
    (hdigg : r'.digg = false → r.digg = false) (hcalls : r'.calls = r.calls) : r'.Ok :=
  ⟨fun hd => hlist ▸ h.sorted (hdigg hd), hlist ▸ h.wellFormed, hcalls ▸ h.calls⟩

theorem Ok.stepImportItem (h : r.Ok) (field : BmField) {callers : List Frame}
    (hcallers : ∀ f ∈ callers, f.Ok) (tok : Token) : (r.stepImportItem field callers tok).Ok := by
  unfold BmXml.stepImportItem
  split
  · split
    · exact h
    · split
      · next bc list rest =>
        obtain ⟨hbc, hrest⟩ := forall_mem_cons.1 hcallers
        refine h.setCalls (forall_mem_cons.2 ⟨trivial, forall_mem_cons.2 ⟨?_, hrest⟩⟩)
        exact ⟨(setField_flag _ _ _).trans hbc.1, hbc.2⟩
      · next bc rest =>
        obtain ⟨hbc, hrest⟩ := forall_mem_cons.1 hcallers
        refine h.setCalls (forall_mem_cons.2 ⟨trivial, forall_mem_cons.2 ⟨?_, hrest⟩⟩)
        exact (setField_flag _ _ _).trans hbc
      · exact h
  · split
    · exact (h.setCalls hcallers).childElement _ _ _
    · exact h.setCalls hcallers
  · exact h

theorem Ok.step (h : r.Ok) (browserType : Browser) (tok : Token) : (r.step browserType tok).Ok := by
  unfold BmXml.step
  split
  · unfold stepReadStream
    split
    · split
      · apply Ok.call
        · exact h.congr rfl id rfl
        · trivial
      · split
        · apply Ok.call
          · exact h.congr rfl (fun hdigg => Bool.noConfusion hdigg) rfl
          · trivial
        · exact h
    · exact h
  · split
    · split
      · exact h.call rfl
      · exact h
    · exact h
  · unfold stepReadBrowserType
    split
    · split
      · apply Ok.call
        · exact h.congr rfl id rfl
        · trivial
      · exact h
    · exact h
  · next callers hcalls =>
    have hcallers := (forall_mem_cons.1 (hcalls ▸ h.calls)).2
    unfold stepReadBookmarkElement
    split
    · split
      · exact h.callCreateCatagory _ _
      · split
        · exact h.callCreateItem _ _
        · exact h
    · split
      · exact h.setCalls hcallers
      · exact h
    · exact h
  · next bc list callers hcalls =>
    obtain ⟨hbc, hcallers⟩ := forall_mem_cons.1 (hcalls ▸ h.calls)
    unfold stepCreateCatagory
    split
    · split
      · exact h.call trivial
      · exact h.childElement _ _ _
    · split
      · refine h.returnWith hcallers ⟨fun hitem => ?_, fun _ => rfl, hbc.2.2⟩ hbc.2.1
        rw [hbc.1] at hitem
        exact BmFlag.noConfusion hitem
      · exact h
    · exact h
  · next bc callers hcalls =>
    obtain ⟨hbc, hcallers⟩ := forall_mem_cons.1 (hcalls ▸ h.calls)
    unfold stepCreateItem
    split
    · split
      · exact h.call trivial
      · exact h
    · split
      · refine h.returnWith hcallers ⟨fun _ => rfl, fun hdir => ?_, trivial⟩
          sorted_nil
        have hbc : bc.flag = .item := hbc
        rw [hbc] at hdir
        exact BmFlag.noConfusion hdir
      · exact h
    · exact h
  · next field callers hcalls =>
    exact h.stepImportItem field (forall_mem_cons.1 (hcalls ▸ h.calls)).2 tok

theorem Ok.run (h : r.Ok) (browserType : Browser) (toks : List Token) : (r.run browserType toks).Ok := by
  induction toks generalizing r with
  | nil => exact h
  | cons tok toks ih => exact ih (h.step browserType tok)

end BmXml

/-- **Whatever the document, what is read is well formed, and sorted unless it is a digg file.** -/
theorem readStream_ok (browserType : Browser) (document : QString) :
    (readStream browserType document).Ok := by
  have hstart : BmXml.Ok {} := ⟨fun _ => sorted_nil, trivial, by simp⟩
  exact hstart.run browserType _

/-! ## The tokens of a written list -/

def fieldTokens (tag text : QString) : List Token :=
  [newline, .startElement tag [], .characters (normalizeLineEnds text), .endElement tag]

def entryTokens (bm : BmEntry) : List Token :=
  importlist.flatMap fun p => ((fieldText bm p.1).map (fieldTokens p.2)).getD []

mutual
def treeTokens (browserType : Browser) : BmTree → List Token
  | .node bm list =>
    match bm.flag with
    | .catagory =>
      [newline, .startElement category [("groupId".toList, uintText bm.groupId),
        ("parentId".toList, uintText bm.parentId)]] ++
      (entryTokens bm ++ entriesTokens browserType list) ++ [newline, .endElement category]
    | .item =>
      [newline, .startElement item [("parentId".toList, uintText bm.parentId)]] ++
      (entryTokens bm ++ fieldTokens comeFrom (uintText browserType.id)) ++
      [newline, .endElement item]

def entriesTokens (browserType : Browser) : BmList → List Token
  | [] => []
  | t :: l => treeTokens browserType t ++ entriesTokens browserType l
end

/-- Every text `bmItemToFile` writes for the entry can stand in a CDATA section. -/
def TextSafe (bm : BmEntry) : Prop := ∀ p ∈ importlist, ∀ text ∈ fieldText bm p.1, CDataSafe text

instance (bm : BmEntry) : Decidable (TextSafe bm) :=
  inferInstanceAs (Decidable (∀ p ∈ importlist, ∀ text ∈ fieldText bm p.1, CDataSafe text))

theorem prints_entry {stack : List QString} {parent : QString} (h : TextSafe bm) :
    Prints (parent :: stack) (bmItemToFile bm) (entryTokens bm) := by
  refine Prints.flatMap fun p hp => ?_
  have hname : Xml.IsName p.2 := by
    have : ∀ q ∈ importlist, Xml.IsName q.2 := by decide
    exact this p hp
  cases htext : fieldText bm p.1 with
  | none => exact Prints.nil
  | some text => exact Prints.cdataLine hname (h p hp text htext)

theorem attr_ok {key value gap : QString} (hkey : Xml.IsName key)
    (hvalue : value.all isValueChar) (hgap : gap = [' '] ∨ gap = [' ', ' ']) :
    (WrittenAttr.mk key value gap).Ok ∧ '\r' ∉ gap := by
  rcases hgap with rfl | rfl
  · exact ⟨⟨hkey, hvalue, by simp, by simp [isWhite]⟩, by decide⟩
  · exact ⟨⟨hkey, hvalue, by simp, by simp [isWhite]⟩, by decide⟩

theorem idAttr_ok {key : QString} (hkey : Xml.IsName key) (n : UInt32) :
    (WrittenAttr.mk key (uintText n) [' ']).Ok ∧ '\r' ∉ [' '] :=
  attr_ok hkey (uintText_all_isValueChar n) (.inl rfl)

/-- **The lines of a list are read as its tokens**, if every text is safe. -/
theorem prints_entries {browserType : Browser} (h : Everywhere (fun bm _ => TextSafe bm) l) :
    ∀ (parent : QString) (stack : List QString),
      Prints (parent :: stack) (bmEntriesToXml browserType l) (entriesTokens browserType l) := by
  induction l using forest_induction with
  | nil => exact fun _ _ => Prints.nil
  | cons bm list rest ihlist ihrest =>
    intro parent stack
    obtain ⟨⟨hbm, hlist⟩, hrest⟩ := h
    rw [bmEntriesToXml, entriesTokens]
    refine Prints.append ?_ (ihrest hrest parent stack)
    rw [bmTreeToXml, treeTokens]
    cases bm.flag with
    | catagory =>
      refine Prints.element (by decide) ?_ (by simp) ?_
      · exact forall_mem_cons.2 ⟨idAttr_ok (by decide) _, forall_mem_singleton.2 (idAttr_ok (by decide) _)⟩
      · exact (prints_entry hbm).append (ihlist hlist _ _)
    | item =>
      refine Prints.element (by decide) ?_ (by simp) ?_
      · exact forall_mem_singleton.2 (idAttr_ok (by decide) _)
      · exact (prints_entry hbm).append (Prints.cdataLine (by decide) (cdataSafe_uintText _))

/-! ## What the calls make of the tokens -/

namespace BmXml

variable {browserType : Browser}

@[simp] theorem run_nil (r : BmXml) : run browserType r [] = r := rfl

@[simp] theorem run_cons (r : BmXml) (tok : Token) (toks : List Token) :
    run browserType r (tok :: toks) = run browserType (step browserType r tok) toks := rfl

@[simp] theorem run_append (r : BmXml) (toks toks' : List Token) :
    run browserType r (toks ++ toks') = run browserType (run browserType r toks) toks' :=
  foldl_append

@[simp] theorem step_newline (r : BmXml) : step browserType r newline = r := by
  unfold step
  split <;> rfl

/-- The calls that fill an entry: `CreateItem`, or `CreateCatagory` with some children. -/
def FillsEntry (call : BmEntry → Frame) : Prop :=
  call = .createItem ∨ ∃ list, call = fun bc => .createCatagory bc list

/-- What `importItem` leaves of one run of text. Blank text is ignored. -/
def readField (bc : BmEntry) (field : BmField) (text : QString) : BmEntry :=
  if text.all isWhite then bc else setField bc field text

theorem childElement_of_ne (r : BmXml) (level : UInt32) {name : QString} (attrs : Attrs)
    (h : name ≠ item ∧ name ≠ category) : r.childElement level name attrs = r := by
  rw [childElement, if_neg h.1, if_neg h.2]

section Field

variable {call : BmEntry → Frame} {tag : QString} {field : BmField} (r : BmXml) (bc : BmEntry)
  (callers : List Frame)

theorem step_field_start (hcall : FillsEntry call) (hfield : importField tag = some field) :
    step browserType (r.setCalls (call bc :: callers)) (.startElement tag [])
      = r.setCalls (.importItem field :: call bc :: callers) := by
  rcases hcall with rfl | ⟨list, rfl⟩
  · simp [step, setCalls, stepCreateItem, hfield, call]
  · simp [step, setCalls, stepCreateCatagory, hfield, call]

theorem step_field_text (hcall : FillsEntry call) (text : QString) :
    step browserType (r.setCalls (.importItem field :: call bc :: callers)) (.characters text)
      = r.setCalls (.importItem field :: call (readField bc field text) :: callers) := by
  by_cases hwhite : text.all isWhite
  · simp only [step, setCalls, stepImportItem, readField, if_pos hwhite]
  · rcases hcall with rfl | ⟨list, rfl⟩
    · simp only [step, setCalls, stepImportItem, readField, if_neg hwhite]
    · simp only [step, setCalls, stepImportItem, readField, if_neg hwhite]

theorem step_field_end (hcall : FillsEntry call) (htag : tag ≠ item ∧ tag ≠ category) :
    step browserType (r.setCalls (.importItem field :: call bc :: callers)) (.endElement tag)
      = r.setCalls (call bc :: callers) := by
  rcases hcall with rfl | ⟨list, rfl⟩
  · rfl
  · exact childElement_of_ne _ _ _ htag

/-- One field of an entry: `importItem` is called, takes the text and returns. -/
theorem run_fieldTokens (hcall : FillsEntry call) (hfield : importField tag = some field)
    (htag : tag ≠ item ∧ tag ≠ category) (text : QString) :
    run browserType (r.setCalls (call bc :: callers)) (fieldTokens tag text)
      = r.setCalls (call (readField bc field (normalizeLineEnds text)) :: callers) := by
  rw [fieldTokens, run_cons, step_newline, run_cons, step_field_start r bc callers hcall hfield,
    run_cons, step_field_text r bc callers hcall, run_cons, step_field_end r _ callers hcall htag,
    run_nil]

end Field

/-- The entry after one row of `importlist` has been read. -/
def readRow (bm bc : BmEntry) (p : BmField × QString) : BmEntry :=
  match fieldText bm p.1 with
  | some text => readField bc p.1 (normalizeLineEnds text)
  | none => bc

/-- The entry after all rows have been read. -/
def readEntry (bm bc : BmEntry) : BmEntry := importlist.foldl (readRow bm) bc

theorem importlist_tags : ∀ p ∈ importlist, importField p.2 = some p.1 ∧ p.2 ≠ item ∧ p.2 ≠ category := by
  decide

theorem run_entryTokens {call : BmEntry → Frame} (hcall : FillsEntry call) (r : BmXml)
    (bm bc : BmEntry) (callers : List Frame) :
    run browserType (r.setCalls (call bc :: callers)) (entryTokens bm)
      = r.setCalls (call (readEntry bm bc) :: callers) := by
  have hrows : ∀ (rows : List (BmField × QString)) (bc : BmEntry), (∀ p ∈ rows, p ∈ importlist) →
      run browserType (r.setCalls (call bc :: callers))
        (rows.flatMap fun p => ((fieldText bm p.1).map (fieldTokens p.2)).getD [])
        = r.setCalls (call (rows.foldl (readRow bm) bc) :: callers) := by
    intro rows
    induction rows with
    | nil => exact fun _ _ => rfl
    | cons p rows ih =>
      intro bc hrows
      obtain ⟨hfield, htag⟩ := importlist_tags p (hrows p mem_cons_self)
      have hrest := fun q hq => hrows q (mem_cons_of_mem _ hq)
      rw [flatMap_cons, run_append, foldl_cons]
      cases htext : fieldText bm p.1 with
      | none =>
        have hrow : readRow bm bc p = bc := by rw [readRow, htext]
        rw [hrow]
        exact ih bc hrest
      | some text =>
        have hrow : readRow bm bc p = readField bc p.1 (normalizeLineEnds text) := by rw [readRow, htext]
        rw [hrow, Option.map_some, Option.getD_some, run_fieldTokens r bc callers hcall hfield htag]
        exact ih _ hrest
  exact hrows importlist bc fun _ h => h

variable {α : Type} {callers : List Frame}

theorem readRows_keep {rows : List (BmField × QString)}
    (hget : ∀ q ∈ rows, ∀ bc text, get (setField bc q.1 text) = get bc) (bm bc : BmEntry) :
    get (rows.foldl (readRow bm) bc) = get bc := by
  induction rows generalizing bc with
  | nil => rfl
  | cons q rows ih =>
    rw [foldl_cons, ih fun q hq => hget q (mem_cons_of_mem _ hq), readRow]
    split
    · rw [readField]
      split
      · rfl
      · exact hget q mem_cons_self _ _
    · rfl

theorem readEntry_keeps (hget : ∀ bc field text, get (setField bc field text) = get bc) (bm bc : BmEntry) :
    get (readEntry bm bc) = get bc :=
  readRows_keep get (fun q _ bc text => hget bc q.1 text) bm bc

theorem readEntry_level (bm bc : BmEntry) : (readEntry bm bc).level = bc.level :=
  readEntry_keeps level (fun _ field _ => by cases field <;> rfl) bm bc

/-- The calls whose list an element of the stream goes to. -/
def TakesEntries (callers : List Frame) : Prop :=
  (∃ rest, callers = .readBookmarkElement :: rest) ∨
    ∃ bc list rest, callers = .createCatagory bc list :: rest

/-- The level of the entries these calls add. -/
def childLevel : List Frame → UInt32
  | .createCatagory bc _ :: _ => bc.level + 1
  | _ => 0

theorem step_startItem (h : TakesEntries callers) (r : BmXml) (n : UInt32) :
    step browserType (r.setCalls callers)
        (.startElement item [("parentId".toList, uintText n)])
      = r.setCalls (.createItem (newItem (childLevel callers) n) :: callers) := by
  have hcall : ∀ level, (r.setCalls callers).callCreateItem level [("parentId".toList, uintText n)]
      = r.setCalls (.createItem (newItem level n) :: callers) := fun level =>
    congrArg (fun n => r.setCalls (.createItem (newItem level n) :: callers)) (toUInt_uintText n)
  rcases h with ⟨rest, rfl⟩ | ⟨bc, list, rest, rfl⟩
  · exact hcall 0
  · exact hcall (bc.level + 1)

theorem step_startCategory (h : TakesEntries callers) (r : BmXml) (g n : UInt32) :
    step browserType (r.setCalls callers) (.startElement category
        [("groupId".toList, uintText g), ("parentId".toList, uintText n)])
      = r.setCalls (.createCatagory (newCatagory (childLevel callers) g n) [] :: callers) := by
  have hcall : ∀ level, (r.setCalls callers).callCreateCatagory level
        [("groupId".toList, uintText g), ("parentId".toList, uintText n)]
      = r.setCalls (.createCatagory (newCatagory level g n) [] :: callers) := fun level =>
    congrArg₂ (fun g n => r.setCalls (.createCatagory (newCatagory level g n) [] :: callers))
      (toUInt_uintText g) (toUInt_uintText n)
  rcases h with ⟨rest, rfl⟩ | ⟨bc, list, rest, rfl⟩
  · exact hcall 0
  · exact hcall (bc.level + 1)

/-- `CreateItem` does not look at `comeFrom`. -/
theorem run_comeFrom (r : BmXml) (bc : BmEntry) (callers : List Frame) (text : QString) :
    run browserType (r.setCalls (.createItem bc :: callers)) (fieldTokens comeFrom text)
      = r.setCalls (.createItem bc :: callers) := rfl

end BmXml

/-! ## The list that is read back -/

open BmXml (readEntry)

mutual
/-- The entry a written entry is read back as. -/
def readBackTree (level : UInt32) : BmTree → BmTree
  | .node bm list =>
    match bm.flag with
    | .catagory =>
      .node { readEntry bm (newCatagory level bm.groupId bm.parentId) with link := [] }
        (readBackList (level + 1) list [])
    | .item => .node (readEntry bm (newItem level bm.parentId)) []

/-- The list a written list is read back as, on top of what has been read before it. -/
def readBackList (level : UInt32) : BmList → BmList → BmList
  | [], acc => acc
  | t :: l, acc => readBackList level l (addItemToSortlist (readBackTree level t) acc)
end

namespace BmXml

variable {browserType : Browser}

/-- One element: its call is made, reads the fields and the children, and adds the entry. -/
theorem run_treeTokens {list : BmList} (hlist : ∀ (r : BmXml) bc children rest,
      run browserType (r.setCalls (.createCatagory bc children :: rest))
          (entriesTokens browserType list)
        = r.setCalls (.createCatagory bc (readBackList (bc.level + 1) list children) :: rest))
    {callers : List Frame} (h : TakesEntries callers) (r : BmXml) :
    run browserType (r.setCalls callers) (treeTokens browserType (.node bm list))
      = (r.setCalls callers).returnWith callers
          (readBackTree (childLevel callers) (.node bm list)) := by
  rw [treeTokens, readBackTree]
  cases bm.flag with
  | catagory =>
    have hfill : FillsEntry (fun bc => .createCatagory bc []) := .inr ⟨[], rfl⟩
    have hlevel : (readEntry bm (newCatagory (childLevel callers) bm.groupId bm.parentId)).level + 1
        = childLevel callers + 1 := by
      rw [readEntry_level]
      rfl
    simp only [run_append, run_cons, run_nil, step_newline, step_startCategory h,
      run_entryTokens hfill, hlist, hlevel]
    rfl
  | item =>
    have hfill : FillsEntry .createItem := .inl rfl
    simp only [run_append, run_cons, run_nil, step_newline, step_startItem h,
      run_entryTokens hfill, run_comeFrom]
    rfl

theorem run_children (l : BmList) : ∀ (r : BmXml) (bc : BmEntry) (list : BmList) (rest : List Frame),
    run browserType (r.setCalls (.createCatagory bc list :: rest)) (entriesTokens browserType l)
      = r.setCalls (.createCatagory bc (readBackList (bc.level + 1) l list) :: rest) := by
  induction l using forest_induction with
  | nil => exact fun _ _ _ _ => rfl
  | cons bm children l ihchildren ihl =>
    intro r bc list rest
    rw [entriesTokens, run_append, run_treeTokens ihchildren (.inr ⟨bc, list, rest, rfl⟩), readBackList]
    exact ihl r bc _ rest

/-- **The tokens of a list add the entries it is read back as** to `bm_list`. -/
theorem run_entriesTokens (l : BmList) : ∀ (r : BmXml) (rest : List Frame), r.digg = false →
    run browserType (r.setCalls (.readBookmarkElement :: rest)) (entriesTokens browserType l)
      = { r with bmList := readBackList 0 l r.bmList }.setCalls (.readBookmarkElement :: rest) := by
  induction l with
  | nil => exact fun _ _ _ => rfl
  | cons t l ih =>
    intro r rest hdigg
    obtain ⟨bm, children⟩ := t
    have hadd : (r.setCalls (.readBookmarkElement :: rest)).returnWith (.readBookmarkElement :: rest)
          (readBackTree 0 (.node bm children))
        = { r with bmList := addItemToSortlist (readBackTree 0 (.node bm children)) r.bmList }.setCalls
            (.readBookmarkElement :: rest) := by
      simp [returnWith, setCalls, hdigg]
    rw [entriesTokens, run_append, run_treeTokens (run_children children) (.inl ⟨rest, rfl⟩),
      show childLevel (.readBookmarkElement :: rest) = 0 from rfl, hadd, readBackList]
    exact ih { r with bmList := addItemToSortlist _ r.bmList } rest hdigg

end BmXml

/-! ## Whole files -/

def blockTokens (browserType : Browser) (browserenable : UInt32) (list : BmList) : List Token :=
  [newline, .startElement Tag.browserType [("name".toList, browserType.lowerName),
    ("browserenable".toList, uintText browserenable)]] ++ entriesTokens browserType list ++
  [newline, .endElement Tag.browserType]

theorem lowerName_ok (b : Browser) : b.lowerName.all isValueChar := by
  cases b <;> decide

theorem lowerName_injective {b' : Browser} (h : b.lowerName = b'.lowerName) : b = b' := by
  revert h
  cases b <;> cases b' <;> decide

theorem prints_block {enable : UInt32} (h : Everywhere (fun bm _ => TextSafe bm) l) :
    Prints [Tag.bookmark] (browserBlock b enable l) (blockTokens b enable l) := by
  refine Prints.element (by decide) ?_ (by simp) (prints_entries h _ _)
  refine forall_mem_cons.2 ⟨attr_ok (by decide) (lowerName_ok b) (.inl rfl), ?_⟩
  exact forall_mem_singleton.2 (idAttr_ok (by decide) _)

/-- The text of a file with one block for each browser of a list. -/
def fileText (updateTime : QString) (userid : UInt32) (blocks : List (Browser × UInt32 × BmList)) : QString :=
  xmlDeclaration ++ (startTag Tag.bookmark (rootAttrs updateTime userid) ++ ['\n'] ++
    blocks.flatMap (fun p => browserBlock p.1 p.2.1 p.2.2) ++ endTag Tag.bookmark ++ ['\n'])

theorem bmListToXml_eq_fileText (l : BmList) (b : Browser) (updateTime : QString) (enable userid : UInt32) :
    bmListToXml true true l b updateTime enable userid = fileText updateTime userid [(b, enable, l)] := by
  simp [bmListToXml, fileText]

theorem lex_fileText (htime : updateTime.all isValueChar)
    (userid : UInt32) {blocks : List (Browser × UInt32 × BmList)}
    (h : ∀ p ∈ blocks, Everywhere (fun bm _ => TextSafe bm) p.2.2) :
    Xml.lex (fileText updateTime userid blocks)
      = .startElement Tag.bookmark [("version".toList, "1.0".toList),
          ("updateTime".toList, updateTime), ("userId".toList, uintText userid)] ::
        blocks.flatMap (fun p => blockTokens p.1 p.2.1 p.2.2) ++
        [newline, .endElement Tag.bookmark, .endDocument] := by
  have hdecl : ∀ t, skipDeclaration (xmlDeclaration ++ t) = '\n' :: t := fun t => rfl
  refine Xml.lex_document hdecl (by decide) (by decide) ?_ (by simp [rootAttrs])
    (Prints.flatMap fun p hp => prints_block (h p hp))
  intro a ha
  simp only [rootAttrs, mem_cons, not_mem_nil, or_false] at ha
  rcases ha with rfl | rfl | rfl
  · exact attr_ok (by decide) (by decide) (.inl rfl)
  · exact attr_ok (by decide) htime (.inl rfl)
  · exact attr_ok (by decide) (uintText_all_isValueChar _) (.inr rfl)

namespace BmXml

variable {browserType : Browser}

theorem step_readBrowserType (r : BmXml) (rest : List Frame) (tok : Token) :
    step browserType (r.setCalls (.readBrowserType :: rest)) tok
      = (r.setCalls (.readBrowserType :: rest)).stepReadBrowserType browserType tok := rfl

/-- Outside the block of its browser the reader looks at nothing but `browserType` tags. -/
theorem run_skip (r : BmXml) (rest : List Frame) {toks : List Token}
    (h : ∀ attrs, Token.startElement Tag.browserType attrs ∉ toks) :
    run browserType (r.setCalls (.readBrowserType :: rest)) toks
      = r.setCalls (.readBrowserType :: rest) := by
  induction toks with
  | nil => rfl
  | cons tok toks ih =>
    have hstep : step browserType (r.setCalls (.readBrowserType :: rest)) tok
        = r.setCalls (.readBrowserType :: rest) := by
      cases tok with
      | startElement name attrs =>
        have hname : name ≠ Tag.browserType := by
          rintro rfl
          exact h attrs mem_cons_self
        rw [step_readBrowserType, stepReadBrowserType, if_neg fun hn => hname hn.1]
      | _ => rfl
    rw [run_cons, hstep, ih fun attrs hmem => h attrs (mem_cons_of_mem _ hmem)]

theorem browserType_not_mem_fieldTokens {tag : QString} (htag : tag ≠ Tag.browserType)
    (text : QString) (attrs : Attrs) : Token.startElement Tag.browserType attrs ∉ fieldTokens tag text := by
  simp [fieldTokens, newline, htag.symm]

theorem browserType_not_mem_entryTokens (bm : BmEntry) (attrs : Attrs) :
    Token.startElement Tag.browserType attrs ∉ entryTokens bm := by
  intro hmem
  obtain ⟨p, hp, hmem⟩ := mem_flatMap.1 hmem
  have htag : ∀ q ∈ importlist, q.2 ≠ browserType := by decide
  cases htext : fieldText bm p.1 with
  | none => simp [htext] at hmem
  | some text =>
    rw [htext] at hmem
    exact browserType_not_mem_fieldTokens (htag p hp) text attrs hmem

theorem browserType_not_mem_entriesTokens (b : Browser) (l : BmList) (attrs : Attrs) :
    Token.startElement Tag.browserType attrs ∉ entriesTokens b l := by
  have hcategory : browserType ≠ category := by decide
  have hitem : browserType ≠ item := by decide
  have hfrom := browserType_not_mem_fieldTokens (show comeFrom ≠ browserType by decide)
    (uintText b.id) attrs
  induction l using forest_induction with
  | nil => simp [entriesTokens]
  | cons bm list rest ihlist ihrest =>
    have hentry := browserType_not_mem_entryTokens bm attrs
    rw [entriesTokens, treeTokens]
    cases bm.flag with
    | catagory => simp [newline, hentry, ihlist, ihrest, hcategory]
    | item => simp [newline, hentry, ihrest, hitem, hfrom]

theorem run_block_of_ne (h : b ≠ browserType) (r : BmXml) (rest : List Frame) (enable : UInt32) (l : BmList) :
    run browserType (r.setCalls (.readBrowserType :: rest)) (blockTokens b enable l)
      = r.setCalls (.readBrowserType :: rest) := by
  have hopen : step browserType (r.setCalls (.readBrowserType :: rest)) (.startElement Tag.browserType
      [("name".toList, b.lowerName), ("browserenable".toList, uintText enable)])
      = r.setCalls (.readBrowserType :: rest) := by
    rw [step_readBrowserType, stepReadBrowserType, if_neg fun hn => h (lowerName_injective hn.2)]
  simp only [blockTokens, run_append, run_cons, run_nil, step_newline, hopen,
    run_skip r rest (browserType_not_mem_entriesTokens b l)]
  rfl

theorem run_block (r : BmXml) (rest : List Frame) (hdigg : r.digg = false) (enable : UInt32) (l : BmList) :
    run browserType (r.setCalls (.readBrowserType :: rest)) (blockTokens browserType enable l)
      = { r with browserenable := enable, bmList := readBackList 0 l r.bmList }.setCalls
          (.readBrowserType :: rest) := by
  have hopen : step browserType (r.setCalls (.readBrowserType :: rest)) (.startElement Tag.browserType
        [("name".toList, browserType.lowerName), ("browserenable".toList, uintText enable)])
      = { r with browserenable := enable }.setCalls (.readBookmarkElement :: .readBrowserType :: rest) := by
    rw [step_readBrowserType, stepReadBrowserType, if_pos ⟨rfl, rfl⟩]
    exact congrArg (fun n => ({ r with browserenable := n } : BmXml).setCalls
      (.readBookmarkElement :: .readBrowserType :: rest)) (toUInt_uintText enable)
  simp only [blockTokens, run_append, run_cons, run_nil, step_newline, hopen]
  rw [run_entriesTokens l { r with browserenable := enable } _ hdigg]
  rfl

end BmXml

theorem BmXml.step_start (b : Browser) (tok : Token) : step b {} tok = stepReadStream {} tok := rfl

theorem ne_of_nodup {l l' : List α} {x : α} {f : α → β} (h : ((l ++ x :: l').map f).Nodup) :
    (∀ y ∈ l, f y ≠ f x) ∧ ∀ y ∈ l', f y ≠ f x := by
  rw [map_append, map_cons, nodup_middle, nodup_cons, ← map_append] at h
  exact forall_mem_append.1 fun y hy heq => h.1 (heq ▸ mem_map_of_mem hy)

/-- **What a file is read as**: the list of the browser's block, sorted, and the values of
the attributes. -/
theorem readStream_fileText (htime : updateTime.all isValueChar) (userid : UInt32)
    {blocks : List (Browser × UInt32 × BmList)}
    (hsafe : ∀ p ∈ blocks, Everywhere (fun bm _ => TextSafe bm) p.2.2) (hnodup : (blocks.map (·.1)).Nodup)
    {enable : UInt32} (hmem : (b, enable, l) ∈ blocks) : readStream b (fileText updateTime userid blocks)
      = { bmList := readBackList 0 l [], updateTime := updateTime, userId := userid,
          browserenable := enable, calls := [.readBrowserType] } := by
  have hskip : ∀ (r : BmXml) (others : List (Browser × UInt32 × BmList)), (∀ p ∈ others, p.1 ≠ b) →
      run b (r.setCalls [.readBrowserType])
        (others.flatMap fun p => blockTokens p.1 p.2.1 p.2.2) = r.setCalls [.readBrowserType] := by
    intro r others hne
    induction others with
    | nil => rfl
    | cons p others ih =>
      rw [flatMap_cons, run_append, run_block_of_ne (hne p mem_cons_self),
        ih fun q hq => hne q (mem_cons_of_mem _ hq)]
  obtain ⟨before, after, rfl⟩ := append_of_mem hmem
  obtain ⟨hne, hne'⟩ := ne_of_nodup hnodup
  have hroot : step b {} (.startElement Tag.bookmark [("version".toList, "1.0".toList),
        ("updateTime".toList, updateTime), ("userId".toList, uintText userid)])
      = setCalls { updateTime := updateTime, userId := userid } [.readBrowserType] := by
    rw [step_start, stepReadStream, if_pos ⟨rfl, rfl⟩]
    exact congrArg (fun n => setCalls { updateTime := updateTime, userId := n } _)
      (toUInt_uintText userid)
  rw [readStream, lex_fileText htime userid hsafe, flatMap_append, flatMap_cons]
  simp only [run_append, cons_append, run_cons, hroot, hskip _ _ hne]
  rw [run_block _ _ rfl, hskip _ _ hne']
  rfl

/-! ## What survives -/

/-- What the snapshot keeps of an entry. Only a directory has a group id. -/
structure StoredEntry where
  name : QString
  link : QString
  flag : BmFlag
  bmid : UInt32
  parentId : UInt32
  groupId : UInt32
  deriving DecidableEq

/-- The stored part of an entry. -/
def BmEntry.stored (bm : BmEntry) : StoredEntry :=
  ⟨bm.name, bm.link, bm.flag, bm.bmid, bm.parentId, if bm.flag = .catagory then bm.groupId else 0⟩

/-- The name is not blank and the link is normalised by `handleUrlString`. -/
def Normalised (bm : BmEntry) : Prop :=
  ¬ bm.name.all isWhite ∧ handleUrlString bm.link = bm.link

instance (bm : BmEntry) : Decidable (Normalised bm) := inferInstanceAs (Decidable (_ ∧ _))

/-- Neither the name nor the link has a carriage return, which a reader would normalise. -/
def NoReturn (bm : BmEntry) : Prop := '\r' ∉ bm.name ∧ '\r' ∉ bm.link

instance (bm : BmEntry) : Decidable (NoReturn bm) := inferInstanceAs (Decidable (_ ∧ _))

theorem dropTrailing_sublist (p : Char → Bool) (s : QString) : (dropTrailing p s).Sublist s := by
  have h := (dropWhile_sublist p (l := s.reverse)).reverse
  rwa [reverse_reverse] at h

theorem trimmed_sublist (s : QString) : (trimmed s).Sublist s :=
  (dropTrailing_sublist isSpace _).trans (dropWhile_sublist isSpace)

/-- A normalised link has no blanks around it, for `handleUrlString` only removes. -/
theorem trimmed_of_handleUrlString (h : handleUrlString s = s) : trimmed s = s := by
  have hle : s.length ≤ (trimmed s).length := by
    calc s.length = (handleUrlString s).length := by rw [h]
      _ ≤ (trimmed s).length := (dropTrailing_sublist _ _).length_le
  exact (trimmed_sublist s).eq_of_length (Nat.le_antisymm (trimmed_sublist s).length_le hle)

theorem isSpace_of_isWhite (h : isWhite c) : isSpace c := by
  simp only [isWhite, Bool.or_eq_true, beq_iff_eq] at h
  rcases h with ((rfl | rfl) | rfl) | rfl <;> rfl

theorem not_white_of_handleUrlString (h : handleUrlString s = s) (hne : s ≠ []) : s.all isWhite = false := by
  rw [Bool.eq_false_iff]
  intro hall
  have hdrop : s.dropWhile isSpace = [] :=
    dropWhile_eq_nil_iff.2 fun c hc => isSpace_of_isWhite (all_eq_true.1 hall c hc)
  have : trimmed s = [] := by rw [trimmed, hdrop]; rfl
  exact hne ((trimmed_of_handleUrlString h).symm.trans this)

namespace BmXml

theorem readEntry_get {α : Type} (get : BmEntry → α) {p : BmField × QString} (hp : p ∈ importlist)
    (hget : ∀ bc f text, f ≠ p.1 → get (setField bc f text) = get bc) (bm bc : BmEntry) :
    ∃ bc', get bc' = get bc ∧ get (readEntry bm bc) = get (readRow bm bc' p) := by
  have hkeep : ∀ (rows : List (BmField × QString)) bc, (∀ q ∈ rows, q.1 ≠ p.1) →
      get (rows.foldl (readRow bm) bc) = get bc :=
    fun rows bc hne => readRows_keep get (fun q hq bc text => hget bc q.1 text (hne q hq)) bm bc
  obtain ⟨before, after, hsplit⟩ := append_of_mem hp
  have hnodup : (importlist.map (·.1)).Nodup := by decide
  rw [hsplit] at hnodup
  obtain ⟨hbefore, hafter⟩ := ne_of_nodup hnodup
  refine ⟨before.foldl (readRow bm) bc, hkeep before bc hbefore, ?_⟩
  rw [readEntry, hsplit, foldl_append, foldl_cons]
  exact hkeep after _ hafter

theorem readEntry_name (h : Normalised bm) (hret : NoReturn bm) (bc : BmEntry) :
    (readEntry bm bc).name = bm.name := by
  have hne : bm.name ≠ [] := by
    intro hnil
    rw [Normalised, hnil] at h
    exact h.1 rfl
  obtain ⟨bc', -, hread⟩ := readEntry_get name
    (show (BmField.name, "name".toList) ∈ importlist by decide)
    (fun _ f _ hf => by cases f <;> first | rfl | exact absurd rfl hf) bm bc
  rw [hread, readRow, fieldText, nonEmpty, if_neg hne]
  show (readField bc' .name (normalizeLineEnds bm.name)).name = bm.name
  rw [Xml.normalizeLineEnds_eq hret.1, readField, if_neg h.1]
  rfl

theorem readEntry_link (h : Normalised bm) (hret : NoReturn bm) {bc : BmEntry} (hbc : bc.link = []) :
    (readEntry bm bc).link = bm.link := by
  obtain ⟨bc', hbc', hread⟩ := readEntry_get link
    (show (BmField.link, "link".toList) ∈ importlist by decide)
    (fun _ f _ hf => by cases f <;> first | rfl | exact absurd rfl hf) bm bc
  rw [hread, readRow, fieldText, nonEmpty]
  by_cases hne : bm.link = []
  · rw [if_pos hne]
    exact (hbc'.trans hbc).trans hne.symm
  · rw [if_neg hne]
    show (readField bc' .link (normalizeLineEnds bm.link)).link = bm.link
    rw [Xml.normalizeLineEnds_eq hret.2, readField, not_white_of_handleUrlString h.2 hne]
    show handleUrlString (trimmed bm.link) = bm.link
    rw [trimmed_of_handleUrlString h.2, h.2]

theorem readEntry_bmid (bm bc : BmEntry) : (readEntry bm bc).bmid = bm.bmid := by
  obtain ⟨bc', -, hread⟩ := readEntry_get bmid
    (show (BmField.bmid, "bmid".toList) ∈ importlist by decide)
    (fun _ f _ hf => by cases f <;> first | rfl | exact absurd rfl hf) bm bc
  have hwhite : (uintText bm.bmid).all isWhite = false := by
    obtain ⟨c, cs, hcons⟩ := exists_cons_of_ne_nil (l := uintText bm.bmid) Nat.toDigits_ne_nil
    have hc : c.isDigit := isDigit_of_mem_uintText (n := bm.bmid) (by rw [hcons]; exact mem_cons_self)
    have hspace := isSpace_of_isDigit hc
    rw [hcons, all_cons, Bool.and_eq_false_iff]
    refine .inl (Bool.eq_false_iff.2 fun hw => ?_)
    rw [isSpace_of_isWhite hw] at hspace
    exact Bool.noConfusion hspace
  rw [hread, readRow, fieldText]
  show (readField bc' .bmid (normalizeLineEnds (uintText bm.bmid))).bmid = bm.bmid
  rw [normalizeLineEnds_uintText, readField, hwhite]
  exact toUInt_uintText bm.bmid

theorem noReturn_readEntry {bc : BmEntry} (hbc : NoReturn bc) : NoReturn (readEntry bm bc) := by
  have hfield : ∀ (bc : BmEntry) f text, NoReturn bc → NoReturn (setField bc f (normalizeLineEnds text)) := by
    intro bc f text h
    have htext := Xml.not_mem_normalizeLineEnds text
    cases f with
    | name => exact ⟨htext, h.2⟩
    | link =>
      refine ⟨h.1, fun hmem => htext ?_⟩
      exact (trimmed_sublist _).subset ((trimmed_sublist _).subset ((dropTrailing_sublist _ _).subset hmem))
    | desciption | bmid | addDate | modifyDate | id | icon | feedurl | lastCharset | personalToolbarFolder
      | hr | lastVisit => exact h
  have hrow : ∀ (bc : BmEntry) p, NoReturn bc → NoReturn (readRow bm bc p) := by
    intro bc p h
    unfold readRow readField
    split
    · split
      · exact h
      · exact hfield bc p.1 _ h
    · exact h
  rw [readEntry]
  induction importlist generalizing bc with
  | nil => exact hbc
  | cons p rows ih => exact ih (hrow bc p hbc)

theorem readEntry_ids (bm bc : BmEntry) : (readEntry bm bc).flag = bc.flag ∧
    (readEntry bm bc).parentId = bc.parentId ∧ (readEntry bm bc).groupId = bc.groupId :=
  ⟨readEntry_keeps flag (fun _ field _ => by cases field <;> rfl) bm bc,
    readEntry_keeps parentId (fun _ field _ => by cases field <;> rfl) bm bc,
    readEntry_keeps groupId (fun _ field _ => by cases field <;> rfl) bm bc⟩

end BmXml

/-- The list is as every reader builds it, and its texts are normalised. -/
def Snapshotable (l : BmList) : Prop := WellFormed l ∧ Everywhere (fun bm _ => Normalised bm) l

instance (l : BmList) : Decidable (Snapshotable l) := inferInstanceAs (Decidable (_ ∧ _))

theorem readBackTree_stored (level : UInt32) {list : BmList} (hform : WellFormedTree (.node bm list))
    (hnorm : Normalised bm) (hret : NoReturn bm) : (readBackTree level (.node bm list)).val.stored = bm.stored ∧
      (readBackTree level (.node bm list)).children
        = if bm.flag = .catagory then readBackList (level + 1) list [] else list := by
  obtain ⟨hitem, hdir, -⟩ := hform
  rw [readBackTree]
  cases hflag : bm.flag with
  | catagory =>
    obtain ⟨hf, hp, hg⟩ := readEntry_ids bm (newCatagory level bm.groupId bm.parentId)
    refine ⟨?_, by simp⟩
    simp only [Rose.val_node, stored, hf, hp, hg, readEntry_name hnorm hret,
      readEntry_bmid, hdir hflag, hflag]
    rfl
  | item =>
    obtain ⟨hf, hp, hg⟩ := readEntry_ids bm (newItem level bm.parentId)
    have hlink := readEntry_link hnorm hret
      (show (newItem level bm.parentId).link = [] from rfl)
    refine ⟨?_, by simp [hitem hflag]⟩
    simp only [Rose.val_node, stored, hf, hp, hg, readEntry_name hnorm hret, readEntry_bmid, hlink, hflag]
    rfl

theorem noReturn_readBackList (l : BmList) : ∀ (level : UInt32) (acc : BmList),
    Everywhere (fun bm _ => NoReturn bm) acc → Everywhere (fun bm _ => NoReturn bm) (readBackList level l acc) := by
  induction l using forest_induction with
  | nil => exact fun _ _ h => h
  | cons bm list rest ihlist ihrest =>
    intro level acc hacc
    refine ihrest level _ (everywhere_iff.2 fun t ht => ?_)
    rcases mem_cons.1 ((addItemToSortlist_perm _ _).mem_iff.1 ht) with rfl | ht
    · rw [readBackTree]
      cases bm.flag with
      | catagory =>
        have hentry : NoReturn (readEntry bm (newCatagory level bm.groupId bm.parentId)) :=
          noReturn_readEntry ⟨not_mem_nil, not_mem_nil⟩
        exact ⟨⟨hentry.1, not_mem_nil⟩, ihlist (level + 1) [] trivial⟩
      | item => exact ⟨noReturn_readEntry ⟨not_mem_nil, not_mem_nil⟩, trivial⟩
    · exact hacc.of_mem ht

/-- **Reading back only sorts**: the stored parts are the same, level by level, up to the
order of siblings. -/
theorem readBackList_sameUpToOrder (h : Snapshotable l) (hret : Everywhere (fun bm _ => NoReturn bm) l) :
    ∀ (level : UInt32) (acc : BmList), SameUpToOrder (mapForest stored (readBackList level l acc))
        (mapForest stored l ++ mapForest stored acc) := by
  induction l using forest_induction with
  | nil => exact fun _ _ => refl _
  | cons bm list rest ihlist ihrest =>
    intro level acc
    obtain ⟨⟨hform, hforms⟩, ⟨hnorm, hnormlist⟩, hnorms⟩ := h
    obtain ⟨⟨hbm, hlist⟩, hrest⟩ := hret
    obtain ⟨hval, hchildren⟩ := readBackTree_stored level hform hnorm hbm
    -- the children, which are read back only below a directory
    have hbelow : SameUpToOrder
        (mapForest stored (readBackTree level (.node bm list)).children)
        (mapForest stored list) := by
      rw [hchildren]
      split
      · simpa using ihlist ⟨hform.2.2, hnormlist⟩ hlist (level + 1) []
      · exact refl _
    have hperm : (mapForest stored rest ++
        mapForest stored (addItemToSortlist (readBackTree level (.node bm list)) acc)).Perm
        ((readBackTree level (.node bm list)).map stored ::
          (mapForest stored rest ++ mapForest stored acc)) := by
      rw [mapForest_eq_map stored (addItemToSortlist _ _), mapForest_eq_map stored acc]
      exact (((addItemToSortlist_perm _ _).map _).append_left _).trans perm_middle
    rw [readBackList, mapForest_cons, cons_append]
    refine (ihrest ⟨hforms, hnorms⟩ hrest level _).trans ((of_perm hperm).trans ?_)
    rw [← Rose.eta (readBackTree level (.node bm list)), Rose.map_node, Rose.map_node, hval]
    exact .cons _ hbelow (refl _)

/-- **Snapshot round trip.** A list whose names are not blank and whose links are normalised, and
whose texts can stand in CDATA sections, is read back sorted. It has the same names, links, flags and
ids up to the order of siblings exactly if there is no carriage return in a name or a link. -/
theorem readStream_bmListToXml_iff {l : BmList} (hl : Snapshotable l)
    (hsafe : Everywhere (fun bm _ => TextSafe bm) l) (b : Browser) {updateTime : QString}
    (htime : updateTime.all isValueChar) (enable userid : UInt32) : (SameUpToOrder
        (mapForest stored
          (readStream b (bmListToXml true true l b updateTime enable userid)).bmList)
        (mapForest stored l) ∧
      Sorted (readStream b (bmListToXml true true l b updateTime enable userid)).bmList) ↔
      Everywhere (fun bm _ => NoReturn bm) l := by
  have hread := readStream_fileText htime userid (by simpa using hsafe) (by simp)
    (mem_singleton.2 (rfl : (b, enable, l) = _))
  have hok := readStream_ok b (bmListToXml true true l b updateTime enable userid)
  rw [bmListToXml_eq_fileText] at hok ⊢
  rw [hread] at hok ⊢
  refine ⟨fun h => ?_, fun h => ⟨by simpa using readBackList_sameUpToOrder hl h 0 [], hok.sorted rfl⟩⟩
  -- nothing that is read has a carriage return
  have hret := noReturn_readBackList l 0 [] trivial
  have hstored := h.1.everywhere (p := fun e : StoredEntry => '\r' ∉ e.name ∧ '\r' ∉ e.link)
    (everywhere_mapForest.2 hret)
  exact (everywhere_mapForest (h := stored)).1 hstored

/-- A directory with a bookmark in it, read back; the description has a carriage return. -/
theorem readStream_bmListToXml_sample :
    let l : BmList := [.node { name := ['d'], link := [], flag := .catagory, groupId := 8001 }
      [.node { name := ['n'], link := ['u'], flag := .item, bmid := 3, parentId := 8001,
               desciption := ['a', '\r', 'b'] } []]]
    Snapshotable l ∧ SameUpToOrder
      (mapForest stored (readStream .ie (bmListToXml true true l .ie ['1'] 1 7)).bmList)
      (mapForest stored l) :=
  ⟨by decide, ((readStream_bmListToXml_iff (by decide) (by decide) .ie (by decide) 1 7).2 (by decide)).1⟩

/-- A bookmark whose name holds the end of a CDATA section. -/
def markedBookmark : BmList := [.node { name := "a]]>".toList, link := ['h'], flag := .item } []]

/-- Written and read back, that bookmark is gone. -/
theorem readStream_markedBookmark_lost : Snapshotable markedBookmark ∧
      (readStream .ie (bmListToXml true true markedBookmark .ie ['1'] 1 7)).bmList = [] ∧
      ¬SameUpToOrder
        (mapForest stored
          (readStream .ie (bmListToXml true true markedBookmark .ie ['1'] 1 7)).bmList)
        (mapForest stored markedBookmark) := by
  have hread : (readStream .ie (bmListToXml true true markedBookmark .ie ['1'] 1 7)).bmList = [] := by
    decide +kernel
  refine ⟨by decide, hread, fun hsame => ?_⟩
  rw [hread] at hsame
  have hmem := (hsame.mem_roots_iff ⟨"a]]>".toList, ['h'], .item, 0, 0, 0⟩).2 (by decide)
  cases hmem

end MyLaunch
