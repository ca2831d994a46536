/-
# MipsOnQemu.Home.Credentials -- the obfuscation of user name and password

`tz::encrypt` looks a character up in a square of ten by ten cells and writes its row and its
column as two characters of the key. `tz::decrypt` in the client and `decryptstring` on the server
read the two back. The squares are written out twice, in C++ and in PHP.

A text comes back from both ends exactly when every character of it has a cell of its own on both:
the underscore has none (its place holds a second hyphen), and the quotation mark stands on the
server behind a backslash that PHP does not take for an escape.
-/

import MipsOnQemu.Home.Text

namespace MyLaunch

open Home (apostrophe quotation backslash)

/-! ## The client -/

def encryptKey : List QString := [
  ['1', 'a', 'w', 's', '4', 'r', 't', '5', 'f', 'e'],
  ['2', '5', 't', '7', 'g', '8', 's', 'h', 'b', 'k'],
  ['4', 'a', 'y', 'w', 'e', 'v', '6', '5', '9', 'm'],
  ['2', 'r', 'q', 's', '4', 'w', '3', '5', 'p', 'n'],
  ['t', 'y', 'w', '6', '4', 'l', 'e', '3', 'f', 'c']]

/-- The character of the cell before the exclamation mark. -/
def backquote : Char := Char.ofNat 96

def encryptArr : List QString := [
  ['a', 'b', 'c', 'd', 'e', 'f', 'g', 'h', 'i', 'j'],
  ['l', 'm', 'n', 'o', 'p', 'q', 'r', 's', 't', 'u'],
  ['w', 'x', 'y', 'z', 'A', 'B', 'C', 'D', 'E', 'F'],
  ['H', 'I', 'J', 'K', 'L', 'M', 'N', 'O', 'P', 'Q'],
  ['S', 'T', 'U', 'V', 'W', 'X', 'Y', 'Z', '0', '1'],
  ['3', '4', '5', '6', '7', '8', '9', '~', backquote, '!'],
  ['#', '$', '%', '^', '&', '*', '(', ')', '-', '-'],
  ['=', '|', backslash, '{', '}', '[', ']', ':', ';', quotation],
  ['<', '>', ',', '.', '?', '/', 'k', 'v', 'G', 'R'],
  ['2', '@', '+', apostrophe, ' ', '0', '0', '0', '0', '0']]

def toLatin1 (c : Char) : Char := if c.toNat < 256 then c else Char.ofNat 0

/-- The two nested loops over the square: the first cell that holds `c`. -/
def findCell (c : Char) : List QString → Option (Nat × Nat)
  | [] => none
  | row :: rows =>
    match row.findIdx? (· == c) with
    | some n => some (0, n)
    | none => (findCell c rows).map fun (m, n) => (m + 1, n)

/-- The loop of `tz::encrypt`; `foundV` is the column found last, if any. A character without a
cell still writes that column, and `none` is the read at index -1 when there is none yet. -/
def encryptLoop (key : QString) : Option Nat → QString → Option QString
  | _, [] => some []
  | foundV, c :: para =>
    match findCell (toLatin1 c) encryptArr with
    | some (h, v) => do
      let out ← encryptLoop key (some v) para
      pure ((← key[h]?) :: (← key[v]?) :: out)
    | none => do
      let v ← foundV
      let out ← encryptLoop key (some v) para
      pure ((← key[v]?) :: out)

def encrypt (para : QString) (secindex : UInt32) : Option QString := do
  encryptLoop (← encryptKey[secindex.toNat % 5]?) none (trimmed para)

/-- The search for a character in the row of the key. What was found before stands when it is not
there. -/
def findKey (key : QString) (found : Option Nat) (c : Char) : Option Nat :=
  (key.findIdx? (· == c)).or found

def decryptLoop (key : QString) : Option Nat → Option Nat → QString → Option QString
  | foundH, foundV, a :: b :: para => do
    let foundH := findKey key foundH (toLatin1 a)
    let foundV := findKey key foundV (toLatin1 b)
    let c ← (← encryptArr[← foundH]?)[← foundV]?
    let out ← decryptLoop key foundH foundV para
    pure (c :: out)
  | _, _, _ => some []

/-- `tz::decrypt`. A text of odd length gives the text of the number 1 as a character. -/
def decrypt (para : QString) (secindex : UInt32) : Option QString := do
  let para := trimmed para
  if para.length % 2 = 1 then pure [Char.ofNat 1]
  else decryptLoop (← encryptKey[secindex.toNat % 5]?) none none para

end MyLaunch

namespace Home

open MyLaunch (QString findKey backquote encrypt toLatin1 decrypt findCell isSpace decryptLoop
  dropTrailing_dropWhile trimmed encryptLoop)

/-! ## The server -/

def encryptKey : List QString := [
  ['1', 'a', 'w', 's', '4', 'r', 't', '5', 'f', 'e'],
  ['2', '5', 't', '7', 'g', '8', 's', 'h', 'b', 'k'],
  ['4', 'a', 'y', 'w', 'e', 'v', '6', '5', '9', 'm'],
  ['2', 'r', 'q', 's', '4', 'w', '3', '5', 'p', 'n'],
  ['t', 'y', 'w', '6', '4', 'l', 'e', '3', 'f', 'c']]

/-- `$encrypt_arr`, whose cells are strings. In single quotes a backslash before a quotation mark is
a character of its own. -/
def encryptArr : List (List QString) := [
  [['a'], ['b'], ['c'], ['d'], ['e'], ['f'], ['g'], ['h'], ['i'], ['j']],
  [['l'], ['m'], ['n'], ['o'], ['p'], ['q'], ['r'], ['s'], ['t'], ['u']],
  [['w'], ['x'], ['y'], ['z'], ['A'], ['B'], ['C'], ['D'], ['E'], ['F']],
  [['H'], ['I'], ['J'], ['K'], ['L'], ['M'], ['N'], ['O'], ['P'], ['Q']],
  [['S'], ['T'], ['U'], ['V'], ['W'], ['X'], ['Y'], ['Z'], ['0'], ['1']],
  [['3'], ['4'], ['5'], ['6'], ['7'], ['8'], ['9'], ['~'], [backquote], ['!']],
  [['#'], ['$'], ['%'], ['^'], ['&'], ['*'], ['('], [')'], ['-'], ['-']],
  [['='], ['|'], [backslash], ['{'], ['}'], ['['], [']'], [':'], [';'], [backslash, quotation]],
  [['<'], ['>'], [','], ['.'], ['?'], ['/'], ['k'], ['v'], ['G'], ['R']],
  [['2'], ['@'], ['+'], [apostrophe], [' '], ['0'], ['0'], ['0'], ['0'], ['0']]]

/-- A cell of the square. One that does not exist reads as the empty string. -/
def cell (foundH foundV : Option Nat) : QString :=
  ((foundH.bind (encryptArr[·]?)).bind fun row => foundV.bind (row[·]?)).getD []

def decryptstringLoop (key : QString) : Option Nat → Option Nat → QString → QString
  | foundH, foundV, a :: b :: para =>
    let foundH := findKey key foundH a
    let foundV := findKey key foundV b
    cell foundH foundV ++ decryptstringLoop key foundH foundV para
  | _, _, _ => []

def decryptstring (para : QString) (secindex : Nat) : QString :=
  let para := trim para
  if para.length % 2 = 1 then []
  else decryptstringLoop (encryptKey.getD (secindex % 5) []) none none para

/-! ## The squares -/

/-- What the server has in the cell where the client has `c`. -/
def served (c : Char) : QString := if c = quotation then [backslash, quotation] else [c]

theorem encryptKey_eq : encryptKey = MyLaunch.encryptKey := rfl

theorem encryptArr_eq : encryptArr = MyLaunch.encryptArr.map (·.map served) := by decide

/-- A row of the key has ten characters, all of them different, and none that is trimmed. -/
def IsKey (key : QString) : Prop :=
  key.length = 10 ∧ key.Nodup ∧ ∀ c ∈ key, toLatin1 c = c ∧ isSpace c = false ∧ isTrimmed c = false

variable {key p : QString} {c : Char}

open List Option

theorem isKey_of_mem (h : key ∈ encryptKey) : IsKey key := by
  have hlength : ∀ key ∈ encryptKey, key.length = 10 := by decide
  have hnodup : ∀ key ∈ encryptKey, key.Nodup := by decide
  have hplain : ∀ key ∈ encryptKey, key.all fun c =>
      toLatin1 c == c && !isSpace c && !isTrimmed c := by decide
  refine ⟨hlength key h, hnodup key h, fun c hc => ?_⟩
  have hc := all_eq_true.mp (hplain key h) c hc
  simpa [and_assoc] using hc

theorem exists_key (secindex : Nat) : ∃ key ∈ encryptKey,
    encryptKey[secindex % 5]? = some key ∧ encryptKey.getD (secindex % 5) [] = key := by
  have hlt : secindex % 5 < encryptKey.length := Nat.mod_lt _ (by decide)
  exact ⟨encryptKey[secindex % 5], getElem_mem hlt, getElem?_eq_getElem hlt, by simp [hlt]⟩

theorem findCell_sound {arr : List QString} {h v : Nat} (hfound : findCell c arr = some (h, v)) :
    ∃ row, arr[h]? = some row ∧ row[v]? = some c := by
  induction arr generalizing h v with
  | nil => cases hfound
  | cons row rows ih =>
    rw [findCell] at hfound
    split at hfound
    · next n hn =>
      cases hfound
      obtain ⟨hlt, hc, -⟩ := findIdx?_eq_some_iff_getElem.mp hn
      exact ⟨row, rfl, by rw [getElem?_eq_getElem hlt, beq_iff_eq.mp hc]⟩
    · obtain ⟨⟨m, n⟩, hmn, heq⟩ := map_eq_some_iff.mp hfound
      cases heq
      exact ih hmn

theorem exists_findCell (hprint : 32 ≤ c.toNat ∧ c.toNat ≤ 126) (hc : c ≠ '_') :
    ∃ h v, findCell (toLatin1 c) MyLaunch.encryptArr = some (h, v) := by
  have hall : ∀ n < 95, Char.ofNat (32 + n) = '_' ∨ (findCell
      (toLatin1 (Char.ofNat (32 + n))) MyLaunch.encryptArr).isSome := by
    decide +kernel
  have hn : 32 + (c.toNat - 32) = c.toNat := by omega
  have hcell := hall (c.toNat - 32) (by omega)
  rw [hn, Char.ofNat_toNat] at hcell
  obtain ⟨⟨h, v⟩, hfound⟩ := isSome_iff_exists.mp (hcell.resolve_left hc)
  exact ⟨h, v, hfound⟩

theorem IsKey.findKey_getElem (hkey : IsKey key) {i : Nat} (hi : i < key.length) (found : Option Nat) :
    findKey key found key[i] = some i := by
  have hfirst : key.findIdx? (· == key[i]) = some i := by
    refine findIdx?_eq_some_iff_getElem.mpr ⟨hi, by simp, fun j hj heq => ?_⟩
    have := (List.Nodup.getElem_inj_iff hkey.2.1).mp (beq_iff_eq.mp heq)
    omega
  rw [findKey, hfirst, some_or]

/-! ## There and back -/

/-- The text is one that the square can write. -/
def Writable (p : QString) : Prop :=
  ∀ c ∈ p, ∃ h v, findCell (toLatin1 c) MyLaunch.encryptArr = some (h, v)

/-- One character is written as two characters of the key, and read back by both ends. -/
theorem IsKey.pair (hkey : IsKey key) {h v : Nat}
    (hfound : findCell c MyLaunch.encryptArr = some (h, v)) :
    ∃ a ∈ key, ∃ b ∈ key, key[h]? = some a ∧ key[v]? = some b ∧
      (∀ found, findKey key found a = some h) ∧ (∀ found, findKey key found b = some v) ∧
      (∃ row, MyLaunch.encryptArr[h]? = some row ∧ row[v]? = some c) ∧
      cell (some h) (some v) = served c := by
  obtain ⟨row, hrow, hv⟩ := findCell_sound hfound
  have hh : h < key.length := by
    obtain ⟨hlt, -⟩ := List.getElem?_eq_some_iff.mp hrow
    exact hkey.1 ▸ hlt
  have hvlt : v < key.length := by
    have hten : ∀ row ∈ MyLaunch.encryptArr, row.length = 10 := by decide
    obtain ⟨hlt, -⟩ := List.getElem?_eq_some_iff.mp hv
    rw [hten row (mem_of_getElem? hrow)] at hlt
    exact hkey.1 ▸ hlt
  refine ⟨key[h], getElem_mem hh, key[v], getElem_mem hvlt, getElem?_eq_getElem hh,
    getElem?_eq_getElem hvlt, hkey.findKey_getElem hh, hkey.findKey_getElem hvlt, ⟨row, hrow, hv⟩, ?_⟩
  simp [cell, encryptArr_eq, hrow, hv]

/-- **The loops invert each other.** What the client writes is made of characters of the key, and
the two ends read from it the text and what the server has in the cells of the text. -/
theorem IsKey.loops (hkey : IsKey key) (p : QString) (hp : ∀ c ∈ p, toLatin1 c = c)
    (hwrite : Writable p) (foundV : Option Nat) :
    ∃ out, encryptLoop key foundV p = some out ∧ out.length % 2 = 0 ∧
      (∀ c ∈ out, c ∈ key) ∧ (∀ h v, decryptLoop key h v out = some p) ∧
      ∀ h v, decryptstringLoop key h v out = p.flatMap served := by
  induction p generalizing foundV with
  | nil =>
    exact ⟨[], rfl, rfl, nofun, fun _ _ => rfl, fun _ _ => rfl⟩
  | cons c p ih =>
    obtain ⟨h, v, hfound⟩ := hwrite c mem_cons_self
    obtain ⟨out, henc, heven, hmem, hdec, hserver⟩ := ih
      (fun c hc => hp c (mem_cons_of_mem _ hc))
      (fun c hc => hwrite c (mem_cons_of_mem _ hc)) (some v)
    obtain ⟨a, ha, b, hb, hka, hkb, hfa, hfb, ⟨row, hrow, hv⟩, hcell⟩ := hkey.pair hfound
    refine ⟨a :: b :: out, ?_, ?_, ?_, ?_, ?_⟩
    · simp only [encryptLoop, hfound, henc, hka, hkb]
      rfl
    · simp only [length_cons]
      omega
    · exact forall_mem_cons.mpr ⟨ha, forall_mem_cons.mpr ⟨hb, hmem⟩⟩
    · intro h' v'
      rw [hp c mem_cons_self] at hv
      simp only [decryptLoop, (hkey.2.2 a ha).1, (hkey.2.2 b hb).1, hfa, hfb, hdec]
      show (MyLaunch.encryptArr[h]?.bind fun row => row[v]?.bind fun x => some (x :: p)) = _
      rw [hrow, bind_some, hv, bind_some]
    · intro h' v'
      rw [hp c mem_cons_self] at hcell
      rw [decryptstringLoop, hfa, hfb, hcell, hserver, flatMap_cons]

theorem mem_of_decryptLoop : ∀ (para : QString) {h v : Option Nat} {p : QString},
    decryptLoop key h v para = some p → ∀ c ∈ p, c ∈ MyLaunch.encryptArr.flatten
  | [], _, _, _, hres => by
    cases hres
    exact nofun
  | [_], _, _, _, hres => by
    cases hres
    exact nofun
  | a :: b :: para, h, v, p, hres => by
    rw [decryptLoop] at hres
    obtain ⟨i, -, hres⟩ := bind_eq_some_iff.mp hres
    obtain ⟨row, hrow, hres⟩ := bind_eq_some_iff.mp hres
    obtain ⟨j, -, hres⟩ := bind_eq_some_iff.mp hres
    obtain ⟨x, hx, hres⟩ := bind_eq_some_iff.mp hres
    obtain ⟨out, hout, hres⟩ := bind_eq_some_iff.mp hres
    cases hres
    refine forall_mem_cons.mpr ⟨?_, mem_of_decryptLoop para hout⟩
    exact mem_flatten.mpr ⟨row, mem_of_getElem? hrow, mem_of_getElem? hx⟩

theorem flatMap_served_eq_self_iff : p.flatMap served = p ↔ quotation ∉ p := by
  have hle : ∀ p : QString, p.length ≤ (p.flatMap served).length := by
    intro p
    induction p with
    | nil => exact le_rfl
    | cons c p ih =>
      have hone : 1 ≤ (served c).length := by
        unfold served
        split <;> simp
      rw [flatMap_cons, length_append, length_cons]
      omega
  induction p with
  | nil => simp
  | cons c p ih =>
    rw [flatMap_cons, served, mem_cons, not_or]
    by_cases hc : c = quotation
    · rw [if_pos hc]
      refine iff_of_false (fun heq => ?_) fun h => h.1 hc.symm
      -- the text has become longer
      have hlen := congrArg length heq
      simp only [length_append, length_cons, length_nil] at hlen
      have := hle p
      omega
    · rw [if_neg hc, singleton_append, cons.injEq]
      exact ⟨fun h => ⟨fun heq => hc heq.symm, ih.mp h.2⟩, fun h => ⟨rfl, ih.mpr h.2⟩⟩

/-! ## Trimming -/

theorem IsKey.trim_eq {out : QString} (hkey : IsKey key) (hout : ∀ c ∈ out, c ∈ key) :
    trimmed out = out ∧ trim out = out := by
  have hhead : ∀ c ∈ out.head?, c ∈ key := fun c hc => hout c (mem_of_mem_head? hc)
  have hlast : ∀ c ∈ out.getLast?, c ∈ key := fun c hc => hout c (mem_of_mem_getLast? hc)
  exact ⟨dropTrailing_dropWhile (fun c hc => (hkey.2.2 c (hhead c hc)).2.1)
      fun c hc => (hkey.2.2 c (hlast c hc)).2.1,
    dropTrailing_dropWhile (fun c hc => (hkey.2.2 c (hhead c hc)).2.2)
      fun c hc => (hkey.2.2 c (hlast c hc)).2.2⟩

/-- Printable ASCII without a blank at either end. -/
structure Printable (p : QString) : Prop where
  ascii : ∀ c ∈ p, 32 ≤ c.toNat ∧ c.toNat ≤ 126
  head : p.head? ≠ some ' '
  last : p.getLast? ≠ some ' '

theorem Printable.trimmed_eq (hp : Printable p) : trimmed p = p := by
  have hblank : ∀ c ∈ p, c ≠ ' ' → isSpace c = false := by
    intro c hc hne
    have hrange := hp.ascii c hc
    have hcode : c.toNat ≠ 32 := by
      intro heq
      apply hne
      rw [← Char.ofNat_toNat c, heq]
    simp only [isSpace, Bool.or_eq_false_iff, Bool.and_eq_false_iff,
      decide_eq_false_iff_not, beq_eq_false_iff_ne]
    omega
  refine dropTrailing_dropWhile (fun c hc => ?_) (fun c hc => ?_)
  · exact hblank c (mem_of_mem_head? hc) fun heq => hp.head (heq ▸ hc)
  · exact hblank c (mem_of_mem_getLast? hc) fun heq => hp.last (heq ▸ hc)

/-! ## Both ends -/

theorem underscore_lost (hunder : '_' ∈ p) (out : QString) (secindex : UInt32) :
    decrypt out secindex ≠ some p := by
  intro hres
  unfold decrypt at hres
  dsimp only at hres
  split at hres
  · cases hres
    exact absurd hunder (by decide)
  · obtain ⟨key, -, hres⟩ := bind_eq_some_iff.mp hres
    exact absurd (mem_of_decryptLoop _ hres '_' hunder) (by decide +kernel)

/-- **Both ends give a text back exactly when it has no underscore and no quotation mark**, for
every key index and every text of printable characters without blanks at its ends. -/
theorem decrypt_encrypt_iff (p : QString) (k : UInt32) (hp : Printable p) :
    ((encrypt p k).bind (decrypt · k) = some p ∧ (encrypt p k).map (decryptstring · k.toNat) = some p) ↔
    '_' ∉ p ∧ quotation ∉ p := by
  obtain ⟨key, hmem, hsome, hgetD⟩ := exists_key k.toNat
  have hkey := isKey_of_mem hmem
  by_cases hunder : '_' ∈ p
  · refine iff_of_false ?_ fun h => h.1 hunder
    rintro ⟨hclient, -⟩
    obtain ⟨out, -, hout⟩ := bind_eq_some_iff.mp hclient
    exact underscore_lost hunder out k hout
  · have hlatin : ∀ c ∈ p, toLatin1 c = c := by
      intro c hc
      have := hp.ascii c hc
      exact if_pos (by omega)
    have hwrite : Writable p := fun c hc =>
      exists_findCell (hp.ascii c hc) fun heq => hunder (heq ▸ hc)
    obtain ⟨out, henc, heven, hout, hdec, hserver⟩ := hkey.loops p hlatin hwrite none
    obtain ⟨htrimmed, htrim⟩ := hkey.trim_eq hout
    have hencrypt : encrypt p k = some out := by
      rw [encrypt, ← encryptKey_eq, hsome, hp.trimmed_eq]
      exact henc
    have hclient : decrypt out k = some p := by
      rw [decrypt, htrimmed, if_neg (by omega), ← encryptKey_eq, hsome]
      exact hdec none none
    have hsrv : decryptstring out k.toNat = p.flatMap served := by
      rw [decryptstring, htrim, if_neg (by omega), hgetD]
      exact hserver none none
    have hback : some (p.flatMap served) = some p ↔ quotation ∉ p :=
      some_inj.trans flatMap_served_eq_self_iff
    rw [hencrypt, bind_some, map_some, hclient, hsrv, hback]
    exact ⟨fun h => ⟨hunder, h.2⟩, fun h => ⟨rfl, h.2⟩⟩

/-- A password that both ends give back. -/
theorem decrypt_encrypt_sample :
    (encrypt ['p', '-', '1'] 3).bind (decrypt · 3) = some ['p', '-', '1'] ∧
      (encrypt ['p', '-', '1'] 3).map (decryptstring · (3 : UInt32).toNat)
        = some ['p', '-', '1'] :=
  (decrypt_encrypt_iff ['p', '-', '1'] 3 ⟨by simp, by decide, by decide⟩).mpr
    ⟨by decide, by decide⟩

/-- **Two passwords that lock their users out**: the client itself cannot read back `a_b`, and the
server reads another text for a quotation mark. -/
theorem decrypt_encrypt_lost : Printable ['a', '_', 'b'] ∧ Printable [quotation] ∧
      (encrypt ['a', '_', 'b'] 0).bind (decrypt · 0) ≠ some ['a', '_', 'b'] ∧
      (encrypt [quotation] 0).map (decryptstring · (0 : UInt32).toNat)
        = some [backslash, quotation] := by
  refine ⟨⟨by simp, by decide, by decide⟩, ⟨by simp [quotation], by decide, by decide⟩, ?_, ?_⟩
  · decide +kernel
  · decide +kernel

end Home
