/-
# MipsOnQemu.Lib.Xml -- a pull reader for XML 1.0 documents

The reader is a machine that takes one character at a time: `Lexer.step` is its
transition, `feed` runs it over a text, and `lex` turns a document into the tokens a
streaming reader reports, ending in `endDocument` or, at the first character that breaks
well-formedness, in `invalid`. Documents have no DTD; namespaces are not resolved.

Because a run over `s ++ t` is a run over `s` followed by a run over `t`, what a writer
prints is lexed piece by piece: the second half of the file has one rule for each piece
(start tag, attribute, end tag, CDATA section).
-/

import Mathlib

namespace Xml

open Bool hiding not_and not_or

open List

/-! ## Characters -/

/-- Production `Char`. -/
def isChar (c : Char) : Bool :=
  let n := c.toNat
  n == 0x9 || n == 0xA || n == 0xD || (0x20 ≤ n && n ≤ 0xD7FF) || (0xE000 ≤ n && n ≤ 0xFFFD) ||
    0x10000 ≤ n

/-- Production `S`. -/
def isWhite (c : Char) : Bool := c == ' ' || c == '\t' || c == '\n' || c == '\r'

/-- Production `NameStartChar`. -/
def isNameStart (c : Char) : Bool :=
  let n := c.toNat
  c.isAlpha || c == ':' || c == '_' || (0xC0 ≤ n && n ≤ 0xD6) || (0xD8 ≤ n && n ≤ 0xF6) ||
    (0xF8 ≤ n && n ≤ 0x2FF) || (0x370 ≤ n && n ≤ 0x37D) || (0x37F ≤ n && n ≤ 0x1FFF) ||
    (0x200C ≤ n && n ≤ 0x200D) || (0x2070 ≤ n && n ≤ 0x218F) || (0x2C00 ≤ n && n ≤ 0x2FEF) ||
    (0x3001 ≤ n && n ≤ 0xD7FF) || (0xF900 ≤ n && n ≤ 0xFDCF) || (0xFDF0 ≤ n && n ≤ 0xFFFD) ||
    (0x10000 ≤ n && n ≤ 0xEFFFF)

/-- Production `NameChar`. -/
def isNameChar (c : Char) : Bool :=
  let n := c.toNat
  isNameStart c || c.isDigit || c == '-' || c == '.' || n == 0xB7 ||
    (0x300 ≤ n && n ≤ 0x36F) || (0x203F ≤ n && n ≤ 0x2040)

/-- The two characters that may enclose an attribute value. -/
def quotes : List Char := ['"', Char.ofNat 39]

/-- The value of a run of digits in base `b`, `none` if one of them is not a digit. -/
def digitsValue (b : Nat) : List Char → Option Nat
  | [] => none
  | cs => cs.foldl (fun acc c => do
      let n ← acc
      let d ← if c.isDigit then some (c.toNat - 48)
        else if 'a' ≤ c ∧ c ≤ 'f' then some (c.toNat - 87)
        else if 'A' ≤ c ∧ c ≤ 'F' then some (c.toNat - 55) else none
      if d < b then some (b * n + d) else none) (some 0)

/-- The character a reference stands for, from the text between its ampersand and its
semicolon: one of the five predefined entities, or a character reference. -/
def resolve (ref : List Char) : Option Char :=
  let code := fun v : Option Nat => (v.map Char.ofNat).filter isChar
  if ref = "amp".toList then some '&'
  else if ref = "lt".toList then some '<'
  else if ref = "gt".toList then some '>'
  else if ref = "quot".toList then some '"'
  else if ref = "apos".toList then quotes.getLast?
  else match ref with
    | '#' :: 'x' :: ds => code (digitsValue 16 ds)
    | '#' :: ds => code (digitsValue 10 ds)
    | _ => none

/-! ## The machine -/

/-- The attributes of a start tag, in document order. -/
abbrev Attrs := List (List Char × List Char)

/-- The value of an attribute, empty when the tag does not have it. -/
def Attrs.value (attrs : Attrs) (name : List Char) : List Char :=
  ((attrs.find? (·.1 == name)).map (·.2)).getD []

/-- What a streaming reader reports. Comments and processing instructions are `other`. -/
inductive Token where
  | startElement (name : List Char) (attrs : Attrs)
  | endElement (name : List Char)
  | characters (text : List Char)
  | other
  | endDocument
  | invalid
  deriving DecidableEq

/-- Where in the grammar the machine stands. `text` counts the literal closing brackets
just read, for a bare `]]>` is not allowed in character data. -/
inductive Mode where
  | text (acc : List Char) (brackets : Nat)
  | textRef (acc ref : List Char)
  | markup
  | bang (acc : List Char)
  | comment (dashes : Nat)
  | cdata (acc : List Char) (brackets : Nat)
  | instruction (acc : List Char)
  | startName (name : List Char)
  | inTag (name : List Char) (attrs : Attrs)
  | attrName (name : List Char) (attrs : Attrs) (key : List Char)
  | attrGap (name : List Char) (attrs : Attrs) (key : List Char)
  | attrEq (name : List Char) (attrs : Attrs) (key : List Char)
  | attrValue (name : List Char) (attrs : Attrs) (key : List Char) (quote : Char)
      (acc : List Char)
  | attrRef (name : List Char) (attrs : Attrs) (key : List Char) (quote : Char)
      (acc ref : List Char)
  | afterValue (name : List Char) (attrs : Attrs)
  | emptyTag (name : List Char) (attrs : Attrs)
  | endName (name : List Char)
  | endGap (name : List Char)
  | failed
  deriving DecidableEq

/-- The machine: its mode, the open elements from the innermost one, whether the root
element has been opened, and the tokens reported so far. -/
structure Lexer where
  mode : Mode := .text [] 0
  stack : List (List Char) := []
  rooted : Bool := false
  tokens : List Token := []
  deriving DecidableEq

namespace Lexer

variable (l : Lexer)

def goto (m : Mode) : Lexer := { l with mode := m }

/-- A violation of well-formedness: report it and stop. -/
def fail : Lexer := { l with mode := .failed, tokens := l.tokens ++ [.invalid] }

/-- Report a token and return to character data. -/
def emit (t : Token) : Lexer := { l with mode := .text [] 0, tokens := l.tokens ++ [t] }

/-- The token of the character data read so far, none if there is none. -/
def pending (acc : List Char) : List Token := if acc = [] then [] else [.characters acc]

/-- Character data ends at a `<`. -/
def flush (acc : List Char) : Lexer :=
  { l with mode := .markup, tokens := l.tokens ++ pending acc }

/-- A start tag is complete: a document has one root. -/
def openElement (name : List Char) (attrs : Attrs) : Lexer :=
  if l.stack = [] ∧ l.rooted then l.fail
  else { mode := .text [] 0, stack := name :: l.stack, rooted := true,
         tokens := l.tokens ++ [.startElement name attrs] }

/-- An end tag is complete: it closes the innermost open element. -/
def closeElement (name : List Char) : Lexer :=
  match l.stack with
  | [] => l.fail
  | n :: rest =>
    if n = name then
      { l with mode := .text [] 0, stack := rest, tokens := l.tokens ++ [.endElement name] }
    else l.fail

/-- A character of character data. Outside the root only white space is allowed. -/
def textStep (acc : List Char) (brackets : Nat) (c : Char) : Lexer :=
  if c = '<' then l.flush acc
  else if l.stack = [] then if isWhite c then l else l.fail
  else if c = '&' then l.goto (.textRef acc [])
  else if c = '>' ∧ brackets = 2 then l.fail
  else if c = ']' then l.goto (.text (acc ++ [c]) (min 2 (brackets + 1)))
  else l.goto (.text (acc ++ [c]) 0)

/-- The mark of a CDATA section after `<!`. -/
def cdataMark : List Char := ['[', 'C', 'D', 'A', 'T', 'A', '[']

/-- The characters after `<!`: a comment or a CDATA section. -/
def bangStep (acc : List Char) : Lexer :=
  if acc = ['-', '-'] then l.goto (.comment 0)
  else if acc = cdataMark then if l.stack = [] then l.fail else l.goto (.cdata [] 0)
  else if acc.isPrefixOf ['-', '-'] || acc.isPrefixOf cdataMark then l.goto (.bang acc)
  else l.fail

/-- A character of a comment, which may not contain two hyphens. -/
def commentStep (dashes : Nat) (c : Char) : Lexer :=
  if dashes = 2 then if c = '>' then l.emit .other else l.fail
  else if c = '-' then l.goto (.comment (dashes + 1))
  else l.goto (.comment 0)

/-- A character of a CDATA section; `brackets` closing brackets are held back. -/
def cdataStep (acc : List Char) (brackets : Nat) (c : Char) : Lexer :=
  if c = '>' ∧ brackets = 2 then l.emit (.characters acc)
  else if c = ']' then
    if brackets = 2 then l.goto (.cdata (acc ++ [c]) 2) else l.goto (.cdata acc (brackets + 1))
  else l.goto (.cdata (acc ++ List.replicate brackets ']' ++ [c]) 0)

/-- A character of a processing instruction, whose target is not `xml`. -/
def instructionStep (acc : List Char) (c : Char) : Lexer :=
  if acc = [] ∧ ¬ isNameStart c then l.fail
  else if c = '>' ∧ acc.getLast? = some '?' then
    if (acc.takeWhile isNameChar).map Char.toLower = ['x', 'm', 'l'] then l.fail else l.emit .other
  else l.goto (.instruction (acc ++ [c]))

variable (name : List Char) (attrs : Attrs)

/-- A character after the name or after an attribute of a start tag, where `gap` says
that white space has been seen. -/
def tagStep (gap : Bool) (c : Char) : Lexer :=
  if isWhite c then l.goto (.inTag name attrs)
  else if c = '>' then l.openElement name attrs
  else if c = '/' then l.goto (.emptyTag name attrs)
  else if gap && isNameStart c then l.goto (.attrName name attrs [c])
  else l.fail

/-- The equals sign of an attribute, which may have white space before it. -/
def equalsStep (key : List Char) (c : Char) : Lexer :=
  if c = '=' then l.goto (.attrEq name attrs key)
  else if isWhite c then l.goto (.attrGap name attrs key)
  else l.fail

/-- The opening quote of a value. A key occurs once in a tag. -/
def quoteStep (key : List Char) (c : Char) : Lexer :=
  if isWhite c then l
  else if quotes.contains c ∧ key ∉ attrs.map (·.1) then l.goto (.attrValue name attrs key c [])
  else l.fail

/-- A character of an attribute value; white space is normalised to a blank. -/
def valueStep (key : List Char) (quote : Char) (acc : List Char) (c : Char) : Lexer :=
  if c = quote then l.goto (.afterValue name (attrs ++ [(key, acc)]))
  else if c = '<' then l.fail
  else if c = '&' then l.goto (.attrRef name attrs key quote acc [])
  else l.goto (.attrValue name attrs key quote (acc ++ [if isWhite c then ' ' else c]))

def endTagStep (name : List Char) (gap : Bool) (c : Char) : Lexer :=
  if c = '>' ∧ name ≠ [] then l.closeElement name
  else if isWhite c ∧ name ≠ [] then l.goto (.endGap name)
  else if !gap && (if name = [] then isNameStart c else isNameChar c) then
    l.goto (.endName (name ++ [c]))
  else l.fail

def charStep (c : Char) : Lexer :=
  match l.mode with
    | .failed => l
    | .text acc brackets => l.textStep acc brackets c
    | .textRef acc ref =>
      if c = ';' then
        match resolve ref with
        | some d => l.goto (.text (acc ++ [d]) 0)
        | none => l.fail
      else l.goto (.textRef acc (ref ++ [c]))
    | .markup =>
      if c = '!' then l.goto (.bang [])
      else if c = '?' then l.goto (.instruction [])
      else if c = '/' then l.goto (.endName [])
      else if isNameStart c then l.goto (.startName [c])
      else l.fail
    | .bang acc => l.bangStep (acc ++ [c])
    | .comment dashes => l.commentStep dashes c
    | .cdata acc brackets => l.cdataStep acc brackets c
    | .instruction acc => l.instructionStep acc c
    | .startName name =>
      if isNameChar c then l.goto (.startName (name ++ [c])) else l.tagStep name [] false c
    | .inTag name attrs => l.tagStep name attrs true c
    | .attrName name attrs key =>
      if isNameChar c then l.goto (.attrName name attrs (key ++ [c]))
      else l.equalsStep name attrs key c
    | .attrGap name attrs key => l.equalsStep name attrs key c
    | .attrEq name attrs key => l.quoteStep name attrs key c
    | .attrValue name attrs key quote acc => l.valueStep name attrs key quote acc c
    | .attrRef name attrs key quote acc ref =>
      if c = ';' then
        match resolve ref with
        | some d => l.goto (.attrValue name attrs key quote (acc ++ [d]))
        | none => l.fail
      else l.goto (.attrRef name attrs key quote acc (ref ++ [c]))
    | .afterValue name attrs => l.tagStep name attrs false c
    | .emptyTag name attrs =>
      if c = '>' then (l.openElement name attrs).closeElement name else l.fail
    | .endName name => l.endTagStep name false c
    | .endGap name => l.endTagStep name true c

def step (c : Char) : Lexer :=
  if isChar c then l.charStep c
  else match l.mode with
    | .failed => l
    | _ => l.fail

/-- The end of the document: the root is closed and no markup is left open. -/
def finish : List Token :=
  match l.mode with
  | .failed => l.tokens
  | .text _ _ => l.tokens ++ [if l.stack = [] ∧ l.rooted then .endDocument else .invalid]
  | _ => l.tokens ++ [.invalid]

end Lexer

open Lexer

def feed (l : Lexer) (s : List Char) : Lexer := s.foldl step l

/-- Line ends are normalised before anything else. -/
def normalizeLineEnds : List Char → List Char
  | [] => []
  | '\r' :: '\n' :: cs => '\n' :: normalizeLineEnds cs
  | c :: cs => (if c = '\r' then '\n' else c) :: normalizeLineEnds cs

/-- Skip past the first `?>`. -/
def skipInstruction : List Char → List Char
  | [] => []
  | '?' :: '>' :: cs => cs
  | _ :: cs => skipInstruction cs

/-- The XML declaration, allowed only at the very start. -/
def skipDeclaration (s : List Char) : List Char :=
  if "<?xml ".toList.isPrefixOf s then skipInstruction s else s

def lex (s : List Char) : List Token := (feed {} (skipDeclaration (normalizeLineEnds s))).finish

/-! ## Runs -/

section

variable (l : Lexer)
include l

@[simp] theorem feed_nil : feed l [] = l := rfl

@[simp] theorem feed_cons (c : Char) (s : List Char) :
    feed l (c :: s) = feed (l.step c) s := rfl

@[simp] theorem feed_append (s t : List Char) :
    feed l (s ++ t) = feed (feed l s) t := foldl_append

@[simp] theorem goto_goto (m m' : Mode) : (l.goto m).goto m' = l.goto m' := rfl

@[simp] theorem goto_stack (m : Mode) : (l.goto m).stack = l.stack := rfl

@[simp] theorem flush_goto (m : Mode) (acc : List Char) :
    (l.goto m).flush acc = l.flush acc := rfl

@[simp] theorem flush_stack (acc : List Char) : (l.flush acc).stack = l.stack := rfl

@[simp] theorem emit_goto (m : Mode) (t : Token) : (l.goto m).emit t = l.emit t := rfl

end

theorem feed_collect {l : Lexer} {m : List Char → Mode} {p : Char → Bool}
    (hstep : ∀ acc c, p c → (l.goto (m acc)).step c = l.goto (m (acc ++ [c]))) :
    ∀ (s acc : List Char), s.all p → feed (l.goto (m acc)) s = l.goto (m (acc ++ s)) := by
  intro s
  induction s with
  | nil => intro acc _; simp
  | cons c s ih =>
    intro acc h
    rw [all_cons, and_eq_true] at h
    rw [feed_cons, hstep acc c h.1, ih _ h.2, append_assoc, singleton_append]

/-! ## Names -/

variable {c : Char} {brackets : Nat} {attrs : Attrs} {s : List Char} {m : Mode} {written : List WrittenAttr}

theorem isChar_of_isNameChar (h : isNameChar c) : isChar c := by
  have hv : c.toNat < 0xD800 ∨ 0xDFFF < c.toNat ∧ c.toNat < 0x110000 := c.valid
  simp only [isNameChar, isNameStart, Char.isAlpha, Char.isUpper, Char.isLower, Char.isDigit,
    isChar, or_eq_true, and_eq_true, decide_eq_true_eq, beq_iff_eq, Char.ext_iff,
    UInt32.le_iff_toNat_le, ge_iff_le, ← UInt32.toNat_inj, Char.toNat_val, Char.reduceVal,
    UInt32.reduceToNat] at h ⊢
  omega

theorem isNameChar_of_isNameStart (h : isNameStart c) : isNameChar c := by
  simp [isNameChar, h]

theorem not_delimiter_of_isNameChar (h : isNameChar c) :
    c ≠ '>' ∧ c ≠ '!' ∧ c ≠ '?' ∧ c ≠ '/' ∧ isWhite c = false := by
  have hne : ∀ d : Char, isNameChar d = false → c ≠ d := by
    rintro d hd rfl
    simp [h] at hd
  refine ⟨hne _ (by decide), hne _ (by decide), hne _ (by decide), hne _ (by decide), ?_⟩
  simp only [isWhite, or_eq_false_iff, beq_eq_false_iff_ne]
  exact ⟨⟨⟨hne _ (by decide), hne _ (by decide)⟩, hne _ (by decide)⟩, hne _ (by decide)⟩

/-- Production `Name`. -/
def IsName : List Char → Bool
  | [] => false
  | c :: cs => isNameStart c && cs.all isNameChar

theorem IsName.cons {n : List Char} (h : IsName n) :
    ∃ c cs, n = c :: cs ∧ isNameStart c ∧ cs.all isNameChar := by
  cases n with
  | nil => simp [IsName] at h
  | cons c cs =>
    simp only [IsName, and_eq_true] at h
    exact ⟨c, cs, rfl, h.1, h.2⟩

/-! ## What a writer prints -/

/-- The white space before an attribute, its key and its quoted value. -/
structure WrittenAttr where
  key : List Char
  value : List Char
  gap : List Char := [' ']

def WrittenAttr.text (a : WrittenAttr) : List Char :=
  a.gap ++ a.key ++ "=\"".toList ++ a.value ++ "\"".toList

def startTag (name : List Char) (attrs : List WrittenAttr) : List Char :=
  '<' :: name ++ attrs.flatMap WrittenAttr.text ++ ">".toList

def endTag (name : List Char) : List Char := "</".toList ++ name ++ ">".toList

def cdataOpen : List Char := '<' :: '!' :: cdataMark

def cdataClose : List Char := [']', ']', '>']

def cdata (text : List Char) : List Char := cdataOpen ++ text ++ cdataClose

/-- A character an attribute value may hold as it is. -/
def isValueChar (c : Char) : Bool :=
  isChar c && c != '"' && c != '<' && c != '&' && (c == ' ' || !isWhite c)

/-- The attribute is read back as it was written. -/
def WrittenAttr.Ok (a : WrittenAttr) : Prop :=
  IsName a.key ∧ a.value.all isValueChar ∧ a.gap ≠ [] ∧ a.gap.all isWhite

instance (a : WrittenAttr) : Decidable a.Ok := inferInstanceAs (Decidable (_ ∧ _))

/-! ## Line ends -/

theorem not_mem_normalizeLineEnds (s : List Char) : '\r' ∉ normalizeLineEnds s := by
  fun_induction normalizeLineEnds s with
  | case1 => exact not_mem_nil
  | case2 cs ih => simpa using ih
  | case3 c cs _ ih =>
    rw [mem_cons, not_or]
    refine ⟨?_, ih⟩
    split
    · decide
    · next hc => exact fun heq => hc heq.symm

/-- The text is normalised to `s'`, whatever comes after it. -/
def NormalTo (s s' : List Char) : Prop := ∀ t, normalizeLineEnds (s ++ t) = s' ++ normalizeLineEnds t

theorem NormalTo.append {s s' t t' : List Char} (hs : NormalTo s s') (ht : NormalTo t t') :
    NormalTo (s ++ t) (s' ++ t') := fun u => by rw [append_assoc, hs, ht, append_assoc]

theorem normalTo_self (h : '\r' ∉ s) : NormalTo s s := by
  intro t
  induction s with
  | nil => rfl
  | cons c s ih =>
    have hc : c ≠ '\r' := fun hc => h (by simp [hc])
    have hs : '\r' ∉ s := fun hs => h (mem_cons_of_mem _ hs)
    rw [cons_append, normalizeLineEnds.eq_3 c _ (by rintro _ rfl _; exact hc rfl), ih hs, if_neg hc]
    rfl

theorem normalizeLineEnds_eq (h : '\r' ∉ s) : normalizeLineEnds s = s := by
  simpa [normalizeLineEnds] using normalTo_self h []

/-- A line end does not reach over another character. -/
theorem normalizeLineEnds_append_cons {x : Char} (hx : x ≠ '\n') (t : List Char) :
    normalizeLineEnds (s ++ x :: t) = normalizeLineEnds s ++ normalizeLineEnds (x :: t) := by
  fun_induction normalizeLineEnds s with
  | case1 => rfl
  | case2 cs ih =>
    rw [cons_append, cons_append, normalizeLineEnds, ih]
    rfl
  | case3 d cs hnot ih =>
    rw [cons_append, normalizeLineEnds.eq_3, ih]
    · rfl
    · rintro u rfl hu
      cases cs with
      | nil => exact hx (cons.inj hu).1
      | cons e cs => exact hnot cs rfl (by rw [(cons.inj hu).1])

/-! ## Texts of CDATA sections -/

theorem normalTo_cdata (s : List Char) : NormalTo (cdata s) (cdata (normalizeLineEnds s)) := by
  intro t
  have hopen : NormalTo cdataOpen cdataOpen := normalTo_self (by decide)
  have hclose : NormalTo cdataClose cdataClose := normalTo_self (by decide)
  rw [cdata, append_assoc, append_assoc, hopen]
  show cdataOpen ++ Xml.normalizeLineEnds (s ++ ']' :: ([']', '>'] ++ t)) = _
  rw [normalizeLineEnds_append_cons (by decide)]
  show cdataOpen ++ (Xml.normalizeLineEnds s ++ Xml.normalizeLineEnds (cdataClose ++ t)) = _
  rw [hclose, cdata, append_assoc, append_assoc]

/-- The text can stand in a CDATA section: its line ends normalised, it has only XML characters and
no `]]>`. -/
def CDataSafe (s : List Char) : Prop :=
  (∀ c ∈ normalizeLineEnds s, isChar c) ∧ ¬ cdataClose <:+: normalizeLineEnds s

instance (s : List Char) : Decidable (CDataSafe s) :=
  -- the search goes through the text, not through all characters
  have : Decidable (∀ c ∈ normalizeLineEnds s, isChar c) := decidableBAll (fun c => isChar c) _
  inferInstanceAs (Decidable ((∀ c ∈ normalizeLineEnds s, isChar c) ∧ ¬ cdataClose <:+: normalizeLineEnds s))

/-- A letter that `w` does not have separates its occurrences. -/
theorem infix_of_infix_append {w a b : List Char} {x : Char} (hx : x ∉ w)
    (h : w <:+: a ++ x :: b) : w <:+: a ∨ w <:+: b := by
  obtain ⟨pre, suf, h⟩ := h
  rw [append_assoc] at h
  rcases append_eq_append_iff.mp h with ⟨c, hpre, hrest⟩ | ⟨c, hpre, hrest⟩
  · -- `w` starts inside `a`
    rcases append_eq_append_iff.mp hrest with ⟨e, hc, hsuf⟩ | ⟨e, hw, hsuf⟩
    · exact .inl ⟨pre, e, by rw [hpre, hc, append_assoc]⟩
    · cases e with
      | nil => exact .inl ⟨pre, [], by simpa [hpre] using hw⟩
      | cons y e =>
        obtain ⟨rfl, -⟩ := cons.inj hsuf
        exact absurd (by rw [hw]; simp) hx
  · -- it starts at `x` or after it
    cases c with
    | nil =>
      cases w with
      | nil => exact .inl ⟨[], a, rfl⟩
      | cons y w =>
        obtain ⟨rfl, -⟩ := cons.inj hrest
        exact absurd mem_cons_self hx
    | cons y c =>
      obtain ⟨-, hb⟩ := cons.inj hrest
      exact .inr ⟨c, suf, by rw [append_assoc]; exact hb.symm⟩

theorem CDataSafe.append_cons {a b : List Char} {x : Char} (ha : CDataSafe a)
    (hb : CDataSafe b) (hx : isChar x ∧ x ≠ '\r' ∧ x ≠ '\n') (hclose : x ∉ cdataClose) :
    CDataSafe (a ++ x :: b) := by
  obtain ⟨hchar, hret, hline⟩ := hx
  have hnormal : normalizeLineEnds (a ++ x :: b) = normalizeLineEnds a ++ x :: normalizeLineEnds b := by
    rw [normalizeLineEnds_append_cons hline]
    exact congrArg _ (normalTo_self (s := [x]) (by simpa using hret.symm) b)
  rw [CDataSafe, hnormal]
  refine ⟨forall_mem_append.mpr ⟨ha.1, forall_mem_cons.mpr ⟨hchar, hb.1⟩⟩, fun h => ?_⟩
  rcases infix_of_infix_append hclose h with h | h
  · exact ha.2 h
  · exact hb.2 h

/-! ## The rules: one for each piece -/

section Rules

variable {l : Lexer} {name : List Char}

/-- A name is collected character by character, from a mode that waits for one. -/
theorem feed_collect_name {m' : List Char → Mode} (hn : IsName name)
    (hfirst : ∀ c, isNameStart c → isNameChar c → (l.goto m).step c = l.goto (m' [c]))
    (hnext : ∀ s c, s ≠ [] → isNameChar c → (l.goto (m' s)).step c = l.goto (m' (s ++ [c]))) :
    feed (l.goto m) name = l.goto (m' name) := by
  obtain ⟨c, cs, rfl, hc, hcs⟩ := IsName.cons hn
  rw [feed_cons, hfirst c hc (isNameChar_of_isNameStart hc)]
  exact feed_collect (m := fun s => m' (c :: s)) (fun s d hd => hnext (c :: s) d (cons_ne_nil c s) hd) cs []
    hcs

theorem feed_name (hn : IsName name) : feed (l.goto .markup) name = l.goto (.startName name) := by
  refine feed_collect_name hn (fun c hc hc' => ?_) fun s c _ hc => ?_
  · have hd := not_delimiter_of_isNameChar hc'
    simp [step, charStep, goto, isChar_of_isNameChar hc', hc, hd]
  · simp [step, charStep, goto, isChar_of_isNameChar hc, hc]

variable {acc : List Char}

theorem feed_endTag (hn : IsName name) :
    feed (l.goto (.text acc brackets)) (endTag name) = (l.flush acc).closeElement name := by
  have hopen : feed (l.goto (.text acc brackets)) "</".toList = (l.flush acc).goto (.endName []) := rfl
  have hname : feed ((l.flush acc).goto (.endName [])) name = (l.flush acc).goto (.endName name) := by
    refine feed_collect_name hn (fun c hc hc' => ?_) fun s c hs hc => ?_
    · have hd := not_delimiter_of_isNameChar hc'
      simp [step, charStep, goto, endTagStep, isChar_of_isNameChar hc', hc, hd]
    · have hd := not_delimiter_of_isNameChar hc
      simp [step, charStep, goto, endTagStep, isChar_of_isNameChar hc, hs, hc, hd]
  rw [endTag, feed_append, feed_append, hopen, hname]
  obtain ⟨c, cs, rfl, -, -⟩ := IsName.cons hn
  rfl

theorem feed_value {key : List Char} (hs : s.all isValueChar) :
    feed (l.goto (.attrValue name attrs key '"' acc)) s
      = l.goto (.attrValue name attrs key '"' (acc ++ s)) := by
  refine feed_collect (m := Mode.attrValue name attrs key '"') (p := isValueChar)
    (fun acc c hc => ?_) s acc hs
  simp only [isValueChar, and_eq_true, or_eq_true, bne_iff_ne, beq_iff_eq, not_eq_true'] at hc
  obtain ⟨⟨⟨⟨hchar, hquote⟩, hlt⟩, hamp⟩, hwhite⟩ := hc
  have hkeep : (if isWhite c then ' ' else c) = c := by
    rcases hwhite with rfl | hw
    · rfl
    · simp [hw]
  simp [step, charStep, goto, valueStep, hchar, hquote, hlt, hamp, hkeep]

theorem feed_gap {gap : List Char} (hgap : gap.all isWhite) :
    feed (l.goto (.inTag name attrs)) gap = l.goto (.inTag name attrs) := by
  induction gap with
  | nil => rfl
  | cons c gap ih =>
    simp only [all_cons, and_eq_true] at hgap
    have hchar : isChar c := by
      have h := hgap.1
      simp only [isWhite, or_eq_true, beq_iff_eq] at h
      rcases h with ((rfl | rfl) | rfl) | rfl <;> rfl
    have hstep : (l.goto (.inTag name attrs)).step c = l.goto (.inTag name attrs) := by
      simp [step, charStep, goto, tagStep, hchar, hgap.1]
    rw [feed_cons, hstep, ih hgap.2]

/-- The modes from which a tag goes on: right after its name, or right after a value. -/
def Mode.InStartTag (m : Mode) (name : List Char) (attrs : Attrs) : Prop :=
  m = .startName name ∧ attrs = [] ∨ m = .afterValue name attrs

theorem Mode.InStartTag.step_gap (hm : m.InStartTag name attrs) (hc : isWhite c) :
    (l.goto m).step c = l.goto (.inTag name attrs) := by
  simp only [isWhite, or_eq_true, beq_iff_eq] at hc
  rcases hm with ⟨rfl, rfl⟩ | rfl <;> rcases hc with ((rfl | rfl) | rfl) | rfl <;> rfl

theorem Mode.InStartTag.step_close (hm : m.InStartTag name attrs) :
    (l.goto m).step '>' = l.openElement name attrs := by
  rcases hm with ⟨rfl, rfl⟩ | rfl <;> rfl

theorem feed_key {key : List Char} (hk : IsName key) :
    feed (l.goto (.inTag name attrs)) key = l.goto (.attrName name attrs key) := by
  refine feed_collect_name hk (fun c hc hc' => ?_) fun s c _ hc => ?_
  · have hd := not_delimiter_of_isNameChar hc'
    simp [step, charStep, goto, tagStep, isChar_of_isNameChar hc', hc, hd]
  · simp [step, charStep, goto, isChar_of_isNameChar hc, hc]

theorem feed_attr {a : WrittenAttr} (hm : m.InStartTag name attrs) (ha : a.Ok)
    (hfresh : a.key ∉ attrs.map (·.1)) :
    feed (l.goto m) a.text = l.goto (.afterValue name (attrs ++ [(a.key, a.value)])) := by
  obtain ⟨hkey, hvalue, hne, hgap⟩ := ha
  obtain ⟨c, gap, hcg⟩ := exists_cons_of_ne_nil hne
  rw [hcg, all_cons, and_eq_true] at hgap
  have hquote : feed (l.goto (.attrName name attrs a.key)) "=\"".toList
      = l.goto (.attrValue name attrs a.key '"' []) := by
    show (l.goto (.attrEq name attrs a.key)).quoteStep name attrs a.key '"' = _
    rw [quoteStep, if_neg (by decide), if_pos ⟨by decide, hfresh⟩]
    rfl
  rw [WrittenAttr.text, hcg]
  simp only [feed_append, feed_cons, hm.step_gap hgap.1, feed_gap hgap.2, feed_key hkey, hquote,
    feed_value hvalue, nil_append]
  rfl

theorem feed_attrs : ∀ {m : Mode} {attrs : Attrs}, m.InStartTag name attrs → (∀ a ∈ written, a.Ok) →
      (attrs.map (·.1) ++ written.map (·.key)).Nodup →
      ∃ m' : Mode, m'.InStartTag name (attrs ++ written.map fun a => (a.key, a.value)) ∧
        feed (l.goto m) (written.flatMap WrittenAttr.text) = l.goto m' := by
  induction written with
  | nil =>
    intro m attrs hm _ _
    exact ⟨m, by simpa using hm, rfl⟩
  | cons a written ih =>
    intro m attrs hm hok hnd
    have hfresh : a.key ∉ attrs.map (·.1) := by
      intro hmem
      exact (nodup_append.1 hnd).2.2 _ hmem _ (by simp) rfl
    obtain ⟨m', hm', hrun⟩ := ih (m := .afterValue name (attrs ++ [(a.key, a.value)])) (.inr rfl)
      (fun b hb => hok b (mem_cons_of_mem _ hb)) (by simpa using hnd)
    refine ⟨m', by simpa using hm', ?_⟩
    rw [flatMap_cons, feed_append, feed_attr hm (hok a mem_cons_self) hfresh, hrun]

theorem feed_startTag (hn : IsName name) (hok : ∀ a ∈ written, a.Ok) (hnd : (written.map (·.key)).Nodup) :
    feed (l.goto (.text acc brackets)) (startTag name written)
      = (l.flush acc).openElement name (written.map fun a => (a.key, a.value)) := by
  have hlt : (l.goto (.text acc brackets)).step '<' = (l.flush acc).goto .markup := rfl
  have hstart : (Mode.startName name).InStartTag name [] := .inl ⟨rfl, rfl⟩
  obtain ⟨m, hm, hrun⟩ := feed_attrs (l := l.flush acc) hstart hok (by simpa using hnd)
  rw [startTag, cons_append, cons_append, feed_cons, hlt, feed_append, feed_append, feed_name hn, hrun]
  exact hm.step_close

/-! ### CDATA sections -/

/-- Inside a CDATA section the collected text and the brackets held back are, together,
what has been read. -/
theorem feed_cdata_text : ∀ (acc : List Char) (brackets : Nat), brackets ≤ 2 → (∀ c ∈ s, isChar c) →
      ¬ cdataClose <:+: List.replicate brackets ']' ++ s →
      ∃ acc' brackets', brackets' ≤ 2 ∧
        acc' ++ List.replicate brackets' ']' = acc ++ List.replicate brackets ']' ++ s ∧
        feed (l.goto (.cdata acc brackets)) s = l.goto (.cdata acc' brackets') := by
  induction s with
  | nil =>
    intro acc brackets hb _ _
    exact ⟨acc, brackets, hb, by simp, rfl⟩
  | cons c s ih =>
    intro acc brackets hb hchars hclean
    have hc : isChar c := hchars c mem_cons_self
    have hcs : ∀ d ∈ s, isChar d := fun d hd => hchars d (mem_cons_of_mem _ hd)
    -- the held-back brackets and `c` cannot complete the terminator
    have hnot : ¬ (c = '>' ∧ brackets = 2) := by
      rintro ⟨rfl, rfl⟩
      exact hclean ⟨[], s, rfl⟩
    have hstep : (l.goto (.cdata acc brackets)).step c = l.cdataStep acc brackets c := by
      simp [step, charStep, goto, hc, cdataStep, emit]
    rw [feed_cons, hstep, cdataStep, if_neg hnot]
    by_cases hbr : c = ']'
    · subst hbr
      rw [if_pos rfl]
      by_cases h2 : brackets = 2
      · subst h2
        rw [if_pos rfl]
        obtain ⟨acc', b', hb', heq, hrun⟩ := ih (acc ++ [']']) 2 (Nat.le_refl 2) hcs
          (fun hin => hclean (hin.trans ⟨[']'], [], by simp [replicate]⟩))
        exact ⟨acc', b', hb', by rw [heq]; simp [replicate], hrun⟩
      · rw [if_neg h2]
        obtain ⟨acc', b', hb', heq, hrun⟩ := ih acc (brackets + 1) (by omega) hcs
           (by simpa [replicate_succ'] using hclean)
        exact ⟨acc', b', hb', by rw [heq]; simp [replicate_succ'], hrun⟩
    · rw [if_neg hbr]
      obtain ⟨acc', b', hb', heq, hrun⟩ := ih (acc ++ replicate brackets ']' ++ [c]) 0
        (by omega) hcs
        (fun hin => hclean (hin.trans ⟨replicate brackets ']' ++ [c], [], by simp⟩))
      exact ⟨acc', b', hb', by rw [heq]; simp, hrun⟩

/-- **A CDATA section yields its text**, whatever markup the text looks like, as long as
it does not contain the section's terminator. -/
theorem feed_cdata (hs : CDataSafe s) (hin : l.stack ≠ []) :
    feed (l.goto (.text acc brackets)) (cdata (normalizeLineEnds s)) =
      (l.flush acc).emit (.characters (normalizeLineEnds s)) := by
  have hopen : feed (l.goto (.text acc brackets)) cdataOpen
      = (l.flush acc).goto (.cdata [] 0) := by
    have hlt : (l.goto (.text acc brackets)).step '<' = (l.flush acc).goto .markup := rfl
    have hbang : ((l.flush acc).goto .markup).step '!' = (l.flush acc).goto (.bang []) := rfl
    have hstep : ∀ (a : List Char) (c : Char), isChar c →
        ((l.flush acc).goto (.bang a)).step c = (l.flush acc).bangStep (a ++ [c]) := by
      intro a c hc
      simp only [step, charStep, goto, hc, if_true]
      rfl
    simp [hlt, hbang, hstep, bangStep, hin, cdataOpen, cdataMark, isChar]
  obtain ⟨acc', b, hb, heq, hrun⟩ := feed_cdata_text (l := l.flush acc) [] 0
    (Nat.zero_le 2) hs.1 (by simpa using hs.2)
  -- the three characters of the terminator release the text and the brackets held back
  have hclose : feed ((l.flush acc).goto (.cdata acc' b)) cdataClose
      = (l.flush acc).emit (.characters (acc' ++ replicate b ']')) := by
    have : b = 0 ∨ b = 1 ∨ b = 2 := by omega
    rcases this with rfl | rfl | rfl <;>
      simp [cdataClose, step, charStep, goto, cdataStep, emit, isChar, replicate]
  have htext : acc' ++ replicate b ']' = normalizeLineEnds s := by simpa using heq
  rw [htext] at hclose
  simp only [cdata, feed_append, hopen, hrun, hclose]

end Rules

/-! ## Documents printed line by line -/

/-- The machine in the content of the open elements `stack`, with `acc` read of the
current run of character data. -/
def inside (stack : List (List Char)) (tokens : List Token) (acc : List Char) : Lexer :=
  { mode := .text acc 0, stack := stack, rooted := true, tokens := tokens }

section Inside

variable {name parent : List Char} {stack : List (List Char)} {tokens : List Token}
  {acc : List Char}

theorem inside_startTag (hn : IsName name) (hok : ∀ a ∈ written, a.Ok) (hnd : (written.map (·.key)).Nodup) :
    feed (inside (parent :: stack) tokens acc) (startTag name written)
      = inside (name :: parent :: stack) (tokens ++ pending acc ++
          [.startElement name (written.map fun a => (a.key, a.value))]) [] := by
  show feed ((inside (parent :: stack) tokens acc).goto (.text acc 0)) _ = _
  rw [feed_startTag hn hok hnd, openElement, if_neg (by simp [inside, flush])]
  rfl

theorem inside_endTag (hn : IsName name) : feed (inside (name :: stack) tokens acc) (endTag name)
      = inside stack (tokens ++ pending acc ++ [.endElement name]) [] := by
  show feed ((inside (name :: stack) tokens acc).goto (.text acc 0)) _ = _
  rw [feed_endTag hn]
  simp [closeElement, flush, inside]

theorem inside_cdata (hs : CDataSafe s) : feed (inside (name :: stack) tokens acc) (cdata (normalizeLineEnds s))
      = inside (name :: stack) (tokens ++ pending acc ++ [.characters (normalizeLineEnds s)]) [] := by
  show feed ((inside (name :: stack) tokens acc).goto (.text acc 0)) _ = _
  rw [feed_cdata hs (by simp [inside])]
  rfl

theorem inside_newline :
    feed (inside (name :: stack) tokens []) ['\n'] = inside (name :: stack) tokens ['\n'] := rfl

end Inside

/-- At the start of a line inside the open elements `stack`, the lines `s` are read as
`toks`. The line end before them comes out with the first of them, and the line end
they finish with is still to come. -/
def Prints (stack : List (List Char)) (s : List Char) (toks : List Token) : Prop :=
  ∃ s', NormalTo s s' ∧ ∀ tokens, feed (inside stack tokens ['\n']) s' = inside stack (tokens ++ toks) ['\n']

/-- The line end a printed line starts with. -/
def newline : Token := .characters ['\n']

variable {name : List Char}

theorem noReturn_name (hn : IsName name) : '\r' ∉ name := by
  intro hmem
  obtain ⟨c, cs, rfl, hc, hcs⟩ := IsName.cons hn
  rcases mem_cons.1 hmem with rfl | hmem
  · exact absurd hc (by decide)
  · exact absurd (all_eq_true.1 hcs _ hmem) (by decide)

theorem noReturn_startTag (hn : IsName name) (hok : ∀ a ∈ written, a.Ok ∧ '\r' ∉ a.gap) :
    '\r' ∉ startTag name written := by
  have hattr : ∀ a ∈ written, '\r' ∉ a.text := by
    intro a ha hmem
    obtain ⟨⟨hkey, hvalue, -, -⟩, hgap⟩ := hok a ha
    have hval : '\r' ∉ a.value := fun h => absurd (all_eq_true.1 hvalue _ h) (by decide)
    simp [WrittenAttr.text, hgap, hval, noReturn_name hkey] at hmem
  simp only [startTag, mem_append, mem_cons, mem_flatMap, not_or, not_exists, not_and]
  exact ⟨⟨⟨by decide, noReturn_name hn⟩, hattr⟩, by decide⟩

theorem noReturn_endTag (hn : IsName name) : '\r' ∉ endTag name := by
  simp [endTag, noReturn_name hn]

namespace Prints

variable {stack : List (List Char)} {name parent : List Char}

theorem nil : Prints stack [] [] := ⟨[], normalTo_self not_mem_nil, fun tokens => by simp⟩

theorem append {t : List Char} {ts us : List Token} (hs : Prints stack s ts) (ht : Prints stack t us) :
    Prints stack (s ++ t) (ts ++ us) := by
  obtain ⟨s', hs', hrun⟩ := hs
  obtain ⟨t', ht', hrun'⟩ := ht
  exact ⟨s' ++ t', hs'.append ht', fun tokens => by rw [feed_append, hrun, hrun', append_assoc]⟩

theorem flatMap {α : Type*} {f : α → List Char} {g : α → List Token} {l : List α}
    (h : ∀ x ∈ l, Prints stack (f x) (g x)) : Prints stack (l.flatMap f) (l.flatMap g) := by
  induction l with
  | nil => exact nil
  | cons x l ih =>
    rw [flatMap_cons, flatMap_cons]
    exact (h x mem_cons_self).append (ih fun y hy => h y (mem_cons_of_mem _ hy))

theorem cdataLine (hn : IsName name) (hs : CDataSafe s) :
    Prints (parent :: stack) (startTag name [] ++ cdata s ++ endTag name ++ ['\n'])
      [newline, .startElement name [], .characters (normalizeLineEnds s), .endElement name] := by
  have hstart : '\r' ∉ startTag name [] := noReturn_startTag hn (by simp)
  refine ⟨_, (((normalTo_self hstart).append (normalTo_cdata s)).append
    (normalTo_self (noReturn_endTag hn))).append (normalTo_self (by decide)), fun tokens => ?_⟩
  rw [feed_append, feed_append, feed_append, inside_startTag hn (by simp) (by simp),
    inside_cdata hs, inside_endTag hn, inside_newline]
  simp [pending, newline]

theorem normalTo_element (hn : IsName name) (hok : ∀ a ∈ written, a.Ok ∧ '\r' ∉ a.gap) {s' : List Char}
    (hs : NormalTo s s') : NormalTo (startTag name written ++ ['\n'] ++ s ++ endTag name ++ ['\n'])
      (startTag name written ++ ['\n'] ++ s' ++ endTag name ++ ['\n']) := by
  have hline : NormalTo ['\n'] ['\n'] := normalTo_self (by decide)
  exact ((((normalTo_self (noReturn_startTag hn hok)).append hline).append hs).append
    (normalTo_self (noReturn_endTag hn))).append hline

theorem element {toks : List Token} (hn : IsName name) (hok : ∀ a ∈ written, a.Ok ∧ '\r' ∉ a.gap)
    (hnd : (written.map (·.key)).Nodup) (hs : Prints (name :: parent :: stack) s toks) :
    Prints (parent :: stack) (startTag name written ++ ['\n'] ++ s ++ endTag name ++ ['\n'])
      ([newline, .startElement name (written.map fun a => (a.key, a.value))] ++ toks ++
        [newline, .endElement name]) := by
  obtain ⟨s', hs', hrun⟩ := hs
  refine ⟨_, normalTo_element hn hok hs', fun tokens => ?_⟩
  rw [feed_append, feed_append, feed_append, feed_append,
    inside_startTag hn (fun a ha => (hok a ha).1) hnd, inside_newline, hrun, inside_endTag hn, inside_newline]
  simp [pending, newline]

end Prints

/-- **A document printed line by line is read to its end**: a declaration, then the root
element with its tags on lines of their own. -/
theorem lex_document {decl : List Char} {toks : List Token}
    (hdecl : ∀ t, skipDeclaration (decl ++ t) = '\n' :: t) (hret : '\r' ∉ decl) (hn : IsName name)
    (hok : ∀ a ∈ written, a.Ok ∧ '\r' ∉ a.gap) (hnd : (written.map (·.key)).Nodup) (hs : Prints [name] s toks)
    : lex (decl ++ (startTag name written ++ ['\n'] ++ s ++ endTag name ++ ['\n']))
      = .startElement name (written.map fun a => (a.key, a.value)) :: toks ++
          [newline, .endElement name, .endDocument] := by
  obtain ⟨s', hs', hrun⟩ := hs
  have hclean := ((normalTo_self hret).append (Prints.normalTo_element hn hok hs')) []
  rw [append_nil, normalizeLineEnds, append_nil] at hclean
  have hroot : feed (step {} '\n') (startTag name written)
      = inside [name] [.startElement name (written.map fun a => (a.key, a.value))] [] :=
    feed_startTag (l := {}) hn (fun a ha => (hok a ha).1) hnd
  rw [lex, hclean, hdecl, feed_cons, feed_append, feed_append, feed_append,
    feed_append, hroot, inside_newline, hrun, inside_endTag hn]
  simp [pending, newline, inside, step, charStep, textStep, isChar, isWhite, finish]

end Xml
