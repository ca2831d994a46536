/-
# MipsOnQemu.Busybox.DhcpOptions -- finding an option of a DHCP packet (`networking/udhcp/options.c`)

`get_option` walks through the option field and, if an overload option says so, through the fields for the
file and the server name. It reads an overload option wrongly: it takes the byte behind its data for the
value, and the second byte of the whole field for the length. As long as the walk stays on the options
(`OnTrack`), the answer is right exactly if the misread value sends it to the field that has the option
(`getOption_right_iff`); before an overload option there is nothing to misread.
-/

import MipsOnQemu.Lib.Loop

namespace Udhcp

open List

/-- `OPTION_FIELD`, `FILE_FIELD`, `SNAME_FIELD`. -/
inductive Field where
  | options | file | sname
  deriving DecidableEq

/-- Where a field begins in `struct dhcpMessage`. -/
def Field.start : Field → Nat
  | .options => 240
  | .file => 108
  | .sname => 44

def Field.length : Field → Nat
  | .options => 308
  | .file => 128
  | .sname => 64

def dhcpPadding : BitVec 8 := 0#8

def dhcpOptionOver : BitVec 8 := 0x34#8

def dhcpEnd : BitVec 8 := 0xff#8

/-- The variables of the loop in `get_option`: `curr`, `i` and `over`. -/
structure Walk where
  curr : Field
  i : Nat
  overVal : BitVec 8
  deriving DecidableEq

/-- The case of `DHCP_END`. -/
def nextField (s : Walk) : Walk ⊕ Option Nat :=
  if s.curr = .options ∧ s.overVal &&& 1#8 ≠ 0#8 then .inl { s with curr := .file, i := 0 }
  else if s.curr = .file ∧ s.overVal &&& 2#8 ≠ 0#8 then .inl { s with curr := .sname, i := 0 }
  else .inr none

variable (packet : Nat → BitVec 8) (code : BitVec 8)

/-- A round of the loop, over the bytes of a packet and what is behind it. The result is the place of the
data, or `NULL`. -/
def getOptionStep (s : Walk) : Walk ⊕ Option Nat :=
  let optionptr := fun k => packet (s.curr.start + k)
  let tooLong := s.i + 1 + (optionptr (s.i + 1)).toNat ≥ s.curr.length
  if s.i ≥ s.curr.length then .inr none
  else if optionptr s.i = code then if tooLong then .inr none else .inr (some (s.curr.start + s.i + 2))
  else if optionptr s.i = dhcpPadding then .inl { s with i := s.i + 1 }
  else if optionptr s.i = dhcpOptionOver then
    if tooLong then .inr none
    else .inl { s with overVal := optionptr (s.i + 3), i := s.i + ((optionptr 1).toNat + 2) }
  else if optionptr s.i = dhcpEnd then nextField s
  else .inl { s with i := s.i + ((optionptr (s.i + 1)).toNat + 2) }

/-- The walk from a place ends and returns `r`. -/
def ReturnsFrom (s : Walk) (r : Option Nat) : Prop :=
  ∃ rounds, Loop.run (some ∘ getOptionStep packet code) rounds s = some r

/-- **`get_option`** ends and returns `r`. -/
def GetOption (r : Option Nat) : Prop :=
  ReturnsFrom packet code ⟨.options, 0, 0#8⟩ r

/-! ## Well-formed fields -/

/-- A padding byte, or an option with its data. -/
inductive DhcpOption where
  | pad
  | opt (code : BitVec 8) (data : List (BitVec 8))
  deriving DecidableEq

namespace DhcpOption

def bytes : DhcpOption → List (BitVec 8)
  | pad => [dhcpPadding]
  | opt code data => code :: BitVec.ofNat 8 data.length :: data

def hasCode (code : BitVec 8) : DhcpOption → Bool
  | pad => false
  | opt c _ => c = code

/-- The length fits into its byte, and an overload option has one byte, for the file, the name or both. -/
def Ok : DhcpOption → Prop
  | pad => True
  | opt code data => code ≠ dhcpPadding ∧ code ≠ dhcpEnd ∧ data.length < 256 ∧
      (code = dhcpOptionOver → data = [1#8] ∨ data = [2#8] ∨ data = [3#8])

/-- The value of an overload option. -/
def overload : DhcpOption → Option (BitVec 8)
  | opt code [v] => if code = dhcpOptionOver then some v else none
  | _ => none

end DhcpOption

open DhcpOption

def text (opts : List DhcpOption) : List (BitVec 8) := opts.flatMap bytes

/-- A field holds options, an end option, and anything after it. -/
structure Holds (packet : Nat → BitVec 8) (field : Field) (opts : List DhcpOption) : Prop where
  ok : ∀ o ∈ opts, o.Ok
  fits : (text opts).length < field.length
  bytes : (List.range ((text opts).length + 1)).map (fun k => packet (field.start + k)) = text opts ++ [dhcpEnd]

/-- The place of the data of the first option with a code, of options that begin at a place. -/
def firstData (code : BitVec 8) (start : Nat) : List DhcpOption → Option Nat
  | [] => none
  | o :: os => if o.hasCode code then some (start + 2) else firstData code (start + o.bytes.length) os

/-- What the overload option of the option field says. -/
def overloadOf (opts : List DhcpOption) : BitVec 8 := (opts.findSome? overload).getD 0#8

/-- A packet: its options, and those in the other fields if they are overloaded. -/
structure PacketOk (packet : Nat → BitVec 8) (opts file sname : List DhcpOption) : Prop where
  options : Holds packet .options opts
  file : overloadOf opts &&& 1#8 ≠ 0#8 → Holds packet .file file
  sname : overloadOf opts &&& 2#8 ≠ 0#8 → Holds packet .sname sname

/-- **Where the data should be found.** -/
def expected (code : BitVec 8) (opts file sname : List DhcpOption) : Option Nat :=
  (firstData code Field.options.start opts).or
    ((if overloadOf opts &&& 1#8 ≠ 0#8 then firstData code Field.file.start file else none).or
      (if overloadOf opts &&& 2#8 ≠ 0#8 then firstData code Field.sname.start sname else none))

/-! ## What the walk makes of a field -/

/-- The byte behind some options of a field: the code of the next one, or the end option. -/
def nextByte (post : List DhcpOption) : BitVec 8 := (text post ++ [dhcpEnd]).headD 0#8

/-- **The value of `over`** after a field: the byte behind the last overload option in it. -/
def misread (overVal : BitVec 8) : List DhcpOption → BitVec 8
  | [] => overVal
  | o :: os => misread (if o.hasCode dhcpOptionOver then nextByte os else overVal) os

/-- An overload option stands before the first option with the code, if there is one. -/
def MeetsOverload (code : BitVec 8) (opts : List DhcpOption) : Prop :=
  ∃ o ∈ opts.takeWhile fun o => !o.hasCode code, o.hasCode dhcpOptionOver

instance (code : BitVec 8) (opts : List DhcpOption) : Decidable (MeetsOverload code opts) :=
  inferInstanceAs (Decidable (∃ o ∈ opts.takeWhile _, _))

/-- An overload option that the walk meets is passed by as it is meant, since the second byte of the field
is the length of its data. -/
def Passes (packet : Nat → BitVec 8) (code : BitVec 8) (field : Field) (opts : List DhcpOption) : Prop :=
  MeetsOverload code opts → packet (field.start + 1) = 1#8

/-- Some option has the code. -/
def Has (code : BitVec 8) (opts : List DhcpOption) : Prop := ∃ o ∈ opts, o.hasCode code

instance (code : BitVec 8) (opts : List DhcpOption) : Decidable (Has code opts) :=
  inferInstanceAs (Decidable (∃ o ∈ opts, _))

/-- **The walk stays on the options**: it passes by every overload option that it meets, and the misread
value sends it to overloaded fields only. -/
structure OnTrack (packet : Nat → BitVec 8) (code : BitVec 8) (opts file sname : List DhcpOption) : Prop where
  inOptions : Passes packet code .options opts
  inFile : ¬ Has code opts → misread 0#8 opts &&& 1#8 ≠ 0#8 →
    overloadOf opts &&& 1#8 ≠ 0#8 ∧ Passes packet code .file file
  inSname : ¬ Has code opts → misread 0#8 opts &&& 1#8 ≠ 0#8 → ¬ Has code file →
    misread (misread 0#8 opts) file &&& 2#8 ≠ 0#8 →
      overloadOf opts &&& 2#8 ≠ 0#8 ∧ Passes packet code .sname sname

/-- **The misread value names the field that has the option**, if the option field does not: the file, or
both for the server name. -/
def NamesField (code : BitVec 8) (opts file sname : List DhcpOption) : Prop :=
  ¬ Has code opts → (overloadOf opts &&& 1#8 ≠ 0#8 → Has code file → misread 0#8 opts &&& 1#8 ≠ 0#8) ∧
    (overloadOf opts &&& 2#8 ≠ 0#8 → ¬ (overloadOf opts &&& 1#8 ≠ 0#8 ∧ Has code file) → Has code sname →
      misread 0#8 opts &&& 1#8 ≠ 0#8 ∧ misread (misread 0#8 opts) file &&& 2#8 ≠ 0#8)

/-! ## The walk through a field -/

variable {packet : Nat → BitVec 8} {code overVal : BitVec 8} {field : Field} {r : Option Nat}
  {opts file sname pre post : List DhcpOption} {o : DhcpOption}

theorem returns_of_step {s s' : Walk} (h : getOptionStep packet code s = .inl s') :
    ReturnsFrom packet code s r ↔ ReturnsFrom packet code s' r := by
  have hreach := Relation.ReflTransGen.single (r := Loop.Edge (some ∘ getOptionStep packet code)) (congrArg some h)
  exact ⟨fun ⟨_, hrun⟩ => Loop.run_reach hreach hrun, fun ⟨_, hrun⟩ => Loop.run_of_reach hreach hrun⟩

theorem returns_iff_of_result {s : Walk} {b : Option Nat} (h : getOptionStep packet code s = .inr b) :
    ReturnsFrom packet code s r ↔ r = b := by
  constructor
  · rintro ⟨rounds, hrun⟩
    cases rounds with
    | zero => cases hrun
    | succ rounds =>
      rw [Loop.run_result (congrArg some h)] at hrun
      exact (Option.some.inj hrun).symm
  · rintro rfl
    exact ⟨1, Loop.run_result (congrArg some h) 0⟩

/-- The place behind some options. -/
def behind (pre : List DhcpOption) : Nat := (text pre).length

theorem behind_append_singleton (pre : List DhcpOption) (o : DhcpOption) :
    behind (pre ++ [o]) = behind pre + o.bytes.length := by
  simp [behind, text]

theorem firstData_eq_none_iff (start : Nat) : firstData code start opts = none ↔ ¬ Has code opts := by
  induction opts generalizing start with
  | nil => simp [firstData, Has]
  | cons o os ih =>
    rw [firstData]
    split <;> simp_all [Has]

theorem has_iff : Has code opts ↔ ∀ start, ∃ p, firstData code start opts = some p := by
  simp only [← Option.ne_none_iff_exists', ne_eq, firstData_eq_none_iff, Classical.not_not, forall_const]

namespace Holds

theorem byte (h : Holds packet field (pre ++ post)) (k : Nat) {b : BitVec 8}
    (hb : (text post ++ [dhcpEnd])[k]? = some b) : packet (field.start + (behind pre + k)) = b := by
  have hk : k < (text post).length + 1 := by simpa using (List.getElem?_eq_some_iff.mp hb).1
  have hbyte := congrArg (·[behind pre + k]?) h.bytes
  simp only [text, flatMap_append, append_assoc, behind, length_append] at hbyte hb hk ⊢
  rw [getElem?_append_right (Nat.le_add_right _ _), Nat.add_sub_cancel_left, hb, getElem?_map,
    getElem?_range (by omega)] at hbyte
  exact Option.some.inj hbyte

theorem room (h : Holds packet field (pre ++ o :: post)) : behind pre + o.bytes.length < field.length := by
  refine lt_of_le_of_lt ?_ h.fits
  simp only [behind, text, flatMap_append, flatMap_cons, length_append]
  omega

theorem opt {c : BitVec 8} {data : List (BitVec 8)} (h : Holds packet field (pre ++ .opt c data :: post)) :
    packet (field.start + behind pre) = c ∧ (packet (field.start + (behind pre + 1))).toNat = data.length := by
  refine ⟨h.byte 0 rfl, ?_⟩
  have hok := (h.ok (.opt c data) (by simp)).2.2.1
  rw [h.byte 1 rfl, BitVec.toNat_ofNat, Nat.mod_eq_of_lt hok]

/-- An option with the code ends the walk. -/
theorem step_found (h : Holds packet field (pre ++ o :: post)) (ho : o.hasCode code) (overVal : BitVec 8) :
    getOptionStep packet code ⟨field, behind pre, overVal⟩ = .inr (some (field.start + behind pre + 2)) := by
  have hroom := h.room
  cases o with
  | pad => exact absurd ho Bool.false_ne_true
  | opt c data =>
    obtain ⟨hc, hlen⟩ := h.opt
    obtain rfl : c = code := by simpa [hasCode] using ho
    simp only [DhcpOption.bytes, length_cons] at hroom
    simp [getOptionStep, hc, hlen, show ¬ field.length ≤ behind pre by omega,
      show ¬ field.length ≤ behind pre + 1 + data.length by omega]

variable (hcode : code ≠ dhcpPadding ∧ code ≠ dhcpEnd ∧ code ≠ dhcpOptionOver)

include hcode

/-- Any other is passed by, an overload option if the second byte of the field is its length. -/
theorem step_passed (h : Holds packet field (pre ++ o :: post)) (ho : o.hasCode code = false)
    (hover : o.hasCode dhcpOptionOver → packet (field.start + 1) = 1#8) :
    getOptionStep packet code ⟨field, behind pre, overVal⟩ =
      .inl ⟨field, behind (pre ++ [o]), if o.hasCode dhcpOptionOver then nextByte post else overVal⟩ := by
  have hroom := h.room
  rw [behind_append_singleton]
  cases o with
  | pad =>
    have hbyte : packet (field.start + behind pre) = dhcpPadding := h.byte 0 rfl
    simp [getOptionStep, hbyte, DhcpOption.bytes, hasCode, hcode.1.symm, (Nat.lt_of_add_right_lt hroom).not_ge]
  | opt c data =>
    obtain ⟨hc, hlen⟩ := h.opt
    have hok := h.ok (.opt c data) (by simp)
    have hne : c ≠ code := by simpa [hasCode] using ho
    simp only [DhcpOption.bytes, length_cons] at hroom ⊢
    by_cases hcover : c = dhcpOptionOver
    · subst hcover
      obtain ⟨v, rfl⟩ : ∃ v, data = [v] := by
        rcases hok.2.2.2 rfl with rfl | rfl | rfl <;> exact ⟨_, rfl⟩
      have hsecond := hover (by simp [hasCode])
      have hnext : packet (field.start + (behind pre + 3)) = nextByte post := by
        refine h.byte 3 ?_
        rw [nextByte]
        cases htext : text post ++ [dhcpEnd] with
        | nil => exact absurd htext (by simp)
        | cons b rest => simp [text, DhcpOption.bytes] at htext ⊢; simp [htext]
      simp [getOptionStep, hc, hlen, hne, hok.1, hasCode, hsecond, hnext,
        show ¬ field.length ≤ behind pre by simp at hroom; omega,
        show ¬ field.length ≤ behind pre + 1 + 1 by simp at hroom; omega]
    · simp [getOptionStep, hc, hlen, hne, hok.1, hok.2.1, hcover, hasCode,
        show ¬ field.length ≤ behind pre by omega]

/-- **The walk through a field** finds the first option with the code, or comes to the end option with the
value that it has misread. -/
theorem returns (overVal : BitVec 8) (h : Holds packet field (pre ++ post)) (hpass : Passes packet code field post) :
    ReturnsFrom packet code ⟨field, behind pre, overVal⟩ r ↔
      if Has code post then r = firstData code (field.start + behind pre) post
      else ReturnsFrom packet code ⟨field, behind (pre ++ post), misread overVal post⟩ r := by
  induction post generalizing pre overVal with
  | nil => simp [Has, misread]
  | cons o post ih =>
    cases ho : o.hasCode code with
    | true =>
      rw [returns_iff_of_result (h.step_found ho overVal), if_pos ⟨o, mem_cons_self, ho⟩, firstData, if_pos ho]
    | false =>
      have hmeets : o.hasCode dhcpOptionOver → packet (field.start + 1) = 1#8 := by
        intro hover
        exact hpass ⟨o, by simp [ho], hover⟩
      have hrest : Passes packet code field post := by
        rintro ⟨o', hmem, hover⟩
        exact hpass ⟨o', by simp [ho, hmem], hover⟩
      have hhas : Has code (o :: post) ↔ Has code post := by simp [Has, ho]
      rw [← singleton_append, ← append_assoc] at h
      rw [returns_of_step (step_passed hcode (by simpa using h) ho hmeets), ih _ h hrest]
      simp [hhas, firstData, ho, misread, behind_append_singleton, Nat.add_assoc]

/-- At the end option the walk goes on with another field, or ends. -/
theorem step_end (h : Holds packet field opts) (overVal : BitVec 8) :
    getOptionStep packet code ⟨field, behind opts, overVal⟩ = nextField ⟨field, behind opts, overVal⟩ := by
  have hend : packet (field.start + behind opts) = dhcpEnd := by
    have h' := h
    rw [← append_nil opts] at h'
    exact h'.byte 0 rfl
  have hroom : behind opts < field.length := h.fits
  have hne : dhcpEnd ≠ dhcpPadding ∧ dhcpEnd ≠ dhcpOptionOver := by decide
  simp [getOptionStep, hend, hroom.not_ge, hcode.2.1.symm, hne]

end Holds

variable (hcode : code ≠ dhcpPadding ∧ code ≠ dhcpEnd ∧ code ≠ dhcpOptionOver)

include hcode

/-- A whole field, from its first byte. -/
theorem returns_field (h : Holds packet field opts) (hpass : Passes packet code field opts) (overVal : BitVec 8) :
    ReturnsFrom packet code ⟨field, 0, overVal⟩ r ↔
      if Has code opts then r = firstData code field.start opts
      else ReturnsFrom packet code ⟨field, behind opts, misread overVal opts⟩ r := by
  rw [← nil_append opts] at h
  exact h.returns hcode overVal hpass

theorem returns_sname (h : Holds packet .sname sname) (hpass : Passes packet code .sname sname) :
    ReturnsFrom packet code ⟨.sname, 0, overVal⟩ r ↔ r = firstData code Field.sname.start sname := by
  rw [returns_field hcode h hpass]
  split
  · rfl
  · rename_i hnone
    rw [returns_iff_of_result (h.step_end hcode _), (firstData_eq_none_iff _).mpr hnone]

omit hcode in
theorem overloaded_eq_none_iff (p : Prop) [Decidable p] (start : Nat) :
    (if p then firstData code start opts else none) = none ↔ (p → ¬ Has code opts) := by
  rw [ite_eq_right_iff, firstData_eq_none_iff]

/-- **When `get_option` is right**, as long as the walk stays on the options. -/
theorem getOption_right_iff (h : PacketOk packet opts file sname) (htrack : OnTrack packet code opts file sname) :
    GetOption packet code (expected code opts file sname) ↔ NamesField code opts file sname := by
  rw [GetOption, returns_field hcode h.options htrack.inOptions, NamesField, expected]
  by_cases hopts : Has code opts
  · -- found before the end of the option field
    rw [if_pos hopts]
    obtain ⟨p, hp⟩ := has_iff.mp hopts Field.options.start
    simp [hp, hopts]
  rw [if_neg hopts, (firstData_eq_none_iff _).mpr hopts, Option.none_or]
  have hfile := htrack.inFile hopts
  have hsname := htrack.inSname hopts
  generalize misread 0#8 opts = overVal at hfile hsname ⊢
  by_cases hone : overVal &&& 1#8 = 0#8
  · -- no other field is looked at
    have hend : getOptionStep packet code ⟨.options, behind opts, overVal⟩ = .inr none := by
      rw [h.options.step_end hcode]
      simp [nextField, hone]
    rw [returns_iff_of_result hend, Option.or_eq_none_iff, overloaded_eq_none_iff, overloaded_eq_none_iff]
    grind
  obtain ⟨hover, hpass⟩ := hfile hone
  have hend : getOptionStep packet code ⟨.options, behind opts, overVal⟩ = .inl ⟨.file, 0, overVal⟩ := by
    rw [h.options.step_end hcode]
    simp [nextField, hone]
  rw [returns_of_step hend, returns_field hcode (h.file hover) hpass, if_pos hover]
  by_cases hhas : Has code file
  · rw [if_pos hhas]
    obtain ⟨p, hp⟩ := has_iff.mp hhas Field.file.start
    simp [hp, hhas, hone, hover]
  rw [if_neg hhas, (firstData_eq_none_iff _).mpr hhas, Option.none_or]
  have hsname := hsname hone hhas
  generalize misread overVal file = overVal' at hsname ⊢
  by_cases htwo : overVal' &&& 2#8 = 0#8
  · have hend : getOptionStep packet code ⟨.file, behind file, overVal'⟩ = .inr none := by
      rw [(h.file hover).step_end hcode]
      simp [nextField, htwo]
    rw [returns_iff_of_result hend, overloaded_eq_none_iff]
    grind
  · obtain ⟨hover', hpass'⟩ := hsname htwo
    have hend : getOptionStep packet code ⟨.file, behind file, overVal'⟩ = .inl ⟨.sname, 0, overVal'⟩ := by
      rw [(h.file hover).step_end hcode]
      simp [nextField, htwo]
    rw [returns_of_step hend, returns_sname hcode (h.sname hover') hpass', if_pos hover']
    simp [hhas, hone, htwo]

omit hcode

/-- Both fields are overloaded, and the code of the lease time that follows names both as well. -/
def bothPacket (k : Nat) : BitVec 8 :=
  if k < 108 then [66#8, 1#8, 97#8, 255#8].getD (k - 44) 0#8
  else if k < 240 then [67#8, 1#8, 102#8, 255#8].getD (k - 108) 0#8
  else [52#8, 1#8, 3#8, 51#8, 4#8, 0#8, 0#8, 14#8, 16#8, 255#8].getD (k - 240) 0#8

/-- The option in the field of the server name is found. -/
theorem getOption_right_serverName : GetOption bothPacket 66#8 (some 46) := by
  have hok : PacketOk bothPacket [.opt 52#8 [3#8], .opt 51#8 [0#8, 0#8, 14#8, 16#8]] [.opt 67#8 [102#8]]
      [.opt 66#8 [97#8]] :=
    ⟨⟨by simp [DhcpOption.Ok]; decide, by decide, by decide⟩,
      fun _ => ⟨by simp [DhcpOption.Ok]; decide, by decide, by decide⟩,
      fun _ => ⟨by simp [DhcpOption.Ok]; decide, by decide, by decide⟩⟩
  have hcode : 66#8 ≠ dhcpPadding ∧ 66#8 ≠ dhcpEnd ∧ 66#8 ≠ dhcpOptionOver := by decide
  refine (getOption_right_iff hcode hok ⟨fun _ => rfl, fun _ _ => ⟨by decide, ?_⟩,
    fun _ _ _ _ => ⟨by decide, ?_⟩⟩).mpr fun _ => ⟨fun _ _ => by decide, fun _ _ _ => by decide⟩
  · exact fun hmeets => absurd hmeets (by decide)
  · exact fun hmeets => absurd hmeets (by decide)

/-- The server name is overloaded with an option, and a host name follows. -/
def namePacket (k : Nat) : BitVec 8 :=
  if k < 108 then [66#8, 1#8, 97#8, 255#8].getD (k - 44) 0#8
  else [52#8, 1#8, 2#8, 12#8, 1#8, 98#8, 255#8].getD (k - 240) 0#8

theorem namePacket_ok : PacketOk namePacket [.opt 52#8 [2#8], .opt 12#8 [98#8]] [] [.opt 66#8 [97#8]] :=
  ⟨⟨by simp [DhcpOption.Ok]; decide, by decide, by decide⟩, fun h => absurd h (by decide),
    fun _ => ⟨by simp [DhcpOption.Ok]; decide, by decide, by decide⟩⟩

/-- **An option that is not found**: the server name alone is overloaded, and `get_option` does not look there. -/
theorem getOption_misses : PacketOk namePacket [.opt 52#8 [2#8], .opt 12#8 [98#8]] [] [.opt 66#8 [97#8]] ∧
    expected 66#8 [.opt 52#8 [2#8], .opt 12#8 [98#8]] [] [.opt 66#8 [97#8]] = some 46 ∧
      GetOption namePacket 66#8 none :=
  ⟨namePacket_ok, rfl, 4, by decide⟩

end Udhcp
