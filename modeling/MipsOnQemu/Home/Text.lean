/-
# MipsOnQemu.Home.Text -- the texts of the bookmark server

What `function_common.php` does to the texts of a request: slashes are put in and taken out,
`shtmlspecialchars` escapes for HTML, `unshtmlspecialchars` undoes it for the export. Texts are
lists of Unicode characters; the PHP functions work on UTF-8 bytes but look for ASCII only.
-/

import MipsOnQemu.MyLaunch.Bookmark

namespace Home

open MyLaunch (QString dropTrailing)
open Char

/-! ## Characters -/

def apostrophe : Char := ofNat 39

def quotation : Char := ofNat 34

def backslash : Char := ofNat 92

def nul : Char := ofNat 0

/-! ## Definitions -/

/-- The characters PHP's `trim` removes. -/
def isTrimmed (c : Char) : Bool :=
  c == ' ' || c == ofNat 9 || c == ofNat 10 || c == ofNat 13 || c == nul ||
    c == ofNat 11

def trim (s : QString) : QString := dropTrailing isTrimmed (s.dropWhile isTrimmed)

/-- `mb_substr` from the start. -/
def mbSubstr (s : QString) (len : Nat) : QString := s.take len

/-- What `addslashes` makes of one character. -/
def slashedChar (c : Char) : QString :=
  if c = apostrophe ∨ c = quotation ∨ c = backslash then [backslash, c]
  else if c = nul then [backslash, '0']
  else [c]

def addslashes (s : QString) : QString := s.flatMap slashedChar

/-- PHP's `stripslashes`: a last backslash that nothing follows is dropped. -/
def stripslashes : QString → QString
  | [] => []
  | [c] => if c = backslash then [] else [c]
  | c :: d :: s =>
    if c = backslash then (if d = '0' then nul else d) :: stripslashes s
    else c :: stripslashes (d :: s)

/-- Replace the occurrences of `pat`, leftmost first, that `p` allows by what follows them. The number
counts the characters of an occurrence just replaced that are still to be passed over. -/
def replaceFrom (p : QString → Bool) (pat rep : QString) : Nat → QString → QString
  | _, [] => []
  | n + 1, _ :: s => replaceFrom p pat rep n s
  | 0, c :: s =>
    if pat <+: c :: s ∧ p ((c :: s).drop pat.length) = true then
      rep ++ replaceFrom p pat rep (pat.length - 1) s
    else c :: replaceFrom p pat rep 0 s

/-- `preg_replace` of a pattern with a fixed head. -/
def replaceWhen (p : QString → Bool) (pat rep s : QString) : QString := replaceFrom p pat rep 0 s

/-- `str_replace`. -/
def replaceAll (pat rep s : QString) : QString := replaceWhen (fun _ => true) pat rep s

def amp : QString := ['&', 'a', 'm', 'p', ';']

def quot : QString := ['&', 'q', 'u', 'o', 't', ';']

def lt : QString := ['&', 'l', 't', ';']

def gt : QString := ['&', 'g', 't', ';']

/-- `\d`. -/
def isDigit (c : Char) : Bool := '0' ≤ c && c ≤ '9'

/-- `[a-fA-F0-9]`. -/
def isHexDigit (c : Char) : Bool := isDigit c || ('a' ≤ c && c ≤ 'f') || ('A' ≤ c && c ≤ 'F')

/-- `[a-z0-9]`. -/
def isLowerAlnum (c : Char) : Bool := isDigit c || ('a' ≤ c && c ≤ 'z')

/-- `[a-zA-Z]`. -/
def isLetter (c : Char) : Bool := ('a' ≤ c && c ≤ 'z') || ('A' ≤ c && c ≤ 'Z')

/-- The whole of a text matches `x[a-fA-F0-9]{4}`. -/
def isHexBody : QString → Bool
  | [] => false
  | c :: s => c == 'x' && s.length == 4 && s.all isHexDigit

/-- The whole of a text matches `#(\d{3,5}|x[a-fA-F0-9]{4})|[a-zA-Z][a-z0-9]{2,5}`. -/
def isEntityBody : QString → Bool
  | [] => false
  | c :: s =>
    if c = '#' then
      (3 ≤ s.length && s.length ≤ 5 && s.all isDigit) || isHexBody s
    else isLetter c && 2 ≤ s.length && s.length ≤ 5 && s.all isLowerAlnum

/-- The text begins with an entity body and its semicolon. -/
def startsEntity (s : QString) : Bool :=
  isEntityBody (s.takeWhile (· != ';')) && !(s.dropWhile (· != ';')).isEmpty

/-- `shtmlspecialchars`: the four replacements of `str_replace` one after the other, then the
`preg_replace` that takes back the escape in front of an entity. -/
def shtmlspecialchars (string : QString) : QString :=
  replaceWhen startsEntity amp ['&']
    (replaceAll ['>'] gt (replaceAll ['<'] lt (replaceAll [quotation] quot
      (replaceAll ['&'] amp string))))

/-- `unshtmlspecialchars`: four replacements, each over the result of the one before. -/
def unshtmlspecialchars (string : QString) : QString :=
  replaceAll gt ['>'] (replaceAll lt ['<'] (replaceAll quot [quotation]
    (replaceAll amp ['&'] string)))

/-- `handleUrlString` of the server. -/
def handleUrlString (url : QString) : QString := dropTrailing (· == '/') (trim url)

end Home
