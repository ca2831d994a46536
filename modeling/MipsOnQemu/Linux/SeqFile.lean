/-
# MipsOnQemu.Linux.SeqFile -- sequential files

`fs/seq_file.c`: a list of records is read as one text. `seq_read` shows records into a buffer, one after
another, copies out what is asked for, and keeps the rest of the last record for the next call. The buffer is
doubled until the first record that is needed fits in; a later record that does not fit is undone. `seq_lseek`
shows all records from the start on again, up to the new position.

What a call leaves is a suffix of the text, and what it returns is what stands before it (`seqRead_takes`,
`seqLseek_rest`). But records may be empty. If the first one that a call needs is, and after it and other empty
ones there is one for which the buffer is too small, the call undoes that one and returns nothing, although the
text goes on (`seqRead_right_iff`).
-/

import MipsOnQemu.Lib.Runs
import MipsOnQemu.Linux.Bootmem

namespace Linux

open List

/-! ## The buffer -/

/-- `m->buf`, as far as it has been written, and `m->size`. -/
structure SeqBuf where
  bytes : List (BitVec 8)
  size : Nat
  size_pos : 0 < size
  deriving DecidableEq

/-- The first buffer is a page. -/
def SeqBuf.page : SeqBuf where
  bytes := []
  size := pageSize
  size_pos := by decide

/-- `m->buf = kmalloc(m->size <<= 1, GFP_KERNEL)`. -/
def SeqBuf.double (b : SeqBuf) : SeqBuf where
  bytes := []
  size := b.size <<< 1
  size_pos := by
    have := b.size_pos
    rw [Nat.shiftLeft_eq]
    omega

/-- `seq_printf`: the buffer and `m->count` afterwards. -/
def seqPrintf (b : SeqBuf) (count : Nat) (s : List (BitVec 8)) : SeqBuf × Nat :=
  if count < b.size then
    if count + s.length < b.size then ({ b with bytes := b.bytes.take count ++ s }, count + s.length)
    else ({ b with bytes := b.bytes.take count ++ s.take (b.size - count - 1) }, b.size)
  else (b, b.size)

/-- `struct seq_file`, with the position of the file. -/
structure SeqFile where
  buf : Option SeqBuf
  index : Nat
  fromPos : Nat
  count : Nat
  pos : Nat
  deriving DecidableEq

def seqOpen : SeqFile where
  buf := none
  index := 0
  fromPos := 0
  count := 0
  pos := 0

/-- The buffer that a call works with. -/
def SeqFile.buffer (f : SeqFile) : SeqBuf := f.buf.getD SeqBuf.page

theorem SeqBuf.double_size (b : SeqBuf) : b.double.size = 2 * b.size := by
  have hshift : b.size <<< 1 = b.size * 2 ^ 1 := Nat.shiftLeft_eq b.size 1
  exact hshift.trans (by omega)

theorem seqPrintf_fits {b : SeqBuf} {count : Nat} {s : List (BitVec 8)} (h : count + s.length < b.size) :
    seqPrintf b count s = ({ b with bytes := b.bytes.take count ++ s }, count + s.length) := by
  rw [seqPrintf, if_pos (by omega), if_pos h]

theorem seqPrintf_size (b : SeqBuf) (count : Nat) (s : List (BitVec 8)) : (seqPrintf b count s).1.size = b.size := by
  rw [seqPrintf]
  split_ifs <;> rfl

/-- The buffer is full exactly after a record that does not fit. -/
theorem seqPrintf_full_iff {b : SeqBuf} {count : Nat} {s : List (BitVec 8)} :
    (seqPrintf b count s).2 = (seqPrintf b count s).1.size ↔ ¬ count + s.length < b.size := by
  rw [seqPrintf_size, seqPrintf]
  split_ifs <;> simp <;> omega

/-- What stands before a record stays. -/
theorem take_seqPrintf {b : SeqBuf} {count : Nat} (hcount : count ≤ b.bytes.length) (s : List (BitVec 8)) :
    (seqPrintf b count s).1.bytes.take count = b.bytes.take count := by
  rw [seqPrintf]
  split_ifs <;> simp [hcount]

/-! ## Reading -/

/-- The first loop: a record is shown, with a larger buffer as long as it does not fit. -/
def showFirst (b : SeqBuf) (record : List (BitVec 8)) : SeqBuf × Nat :=
  if (seqPrintf b 0 record).2 < (seqPrintf b 0 record).1.size then seqPrintf b 0 record
  else showFirst b.double record
  termination_by record.length + 1 - b.size
  decreasing_by
    rename_i h
    have hpos := b.size_pos
    have hdouble := b.double_size
    have hfull : ¬ 0 + record.length < b.size := by
      intro hlt
      rw [seqPrintf_fits hlt] at h
      exact h hlt
    omega

/-- The loop at `Fill`, over the records after the one at `pos`: the buffer, `m->count` and `pos` afterwards. -/
def fill (size : Nat) : List (List (BitVec 8)) → SeqBuf → Nat → Nat → SeqBuf × Nat × Nat
  | [], b, count, pos => (b, count, pos)
  | record :: rest, b, count, pos =>
    if count < size then
      if (seqPrintf b count record).2 = (seqPrintf b count record).1.size then ((seqPrintf b count record).1, count, pos)
      else fill size rest (seqPrintf b count record).1 (seqPrintf b count record).2 (pos + 1)
    else (b, count, pos)

variable (records : List (List (BitVec 8)))

/-- `seq_read` after the rest of a record has been copied: more records are shown. -/
def seqReadRecords (f : SeqFile) (b : SeqBuf) (size : Nat) : List (BitVec 8) × SeqFile :=
  match records.drop f.index with
  | [] => ([], { f with buf := some b, count := 0 })
  | record :: rest =>
    let shown := showFirst b record
    let filled := fill size rest shown.1 shown.2 f.index
    let n := min filled.2.1 size
    let f := { f with buf := some filled.1, count := filled.2.1 - n, pos := f.pos + n }
    (filled.1.bytes.take n,
      if filled.2.1 - n ≠ 0 then { f with fromPos := n, index := filled.2.2 }
      else { f with index := filled.2.2 + 1 })

/-- `seq_read`: the bytes that are copied. -/
def seqRead (f : SeqFile) (size : Nat) : List (BitVec 8) × SeqFile :=
  if f.count ≠ 0 then
    let n := min f.count size
    let f' := { f with
      buf := some f.buffer
      count := f.count - n
      fromPos := f.fromPos + n
      pos := f.pos + n
      index := if f.count - n = 0 then f.index + 1 else f.index }
    if size - n = 0 then ((f.buffer.bytes.drop f.fromPos).take n, f')
    else
      let more := seqReadRecords records f' f.buffer (size - n)
      ((f.buffer.bytes.drop f.fromPos).take n ++ more.1, more.2)
  else seqReadRecords records f f.buffer size

/-! ## Seeking -/

/-- How one walk over the records ends: at the new position, or at a record that does not fit. -/
inductive Traversed where
  | found (b : SeqBuf) (index fromPos count : Nat)
  | overflow
  deriving DecidableEq

def traverseLoop (offset : Nat) : List (List (BitVec 8)) → SeqBuf → Nat → Nat → Traversed
  | [], b, index, _ => .found b index 0 0
  | record :: rest, b, index, pos =>
    if (seqPrintf b 0 record).2 = (seqPrintf b 0 record).1.size then .overflow
    else if offset < pos + (seqPrintf b 0 record).2 then
      .found (seqPrintf b 0 record).1 index (offset - pos) ((seqPrintf b 0 record).2 - (offset - pos))
    else if pos + (seqPrintf b 0 record).2 = offset then .found (seqPrintf b 0 record).1 (index + 1) 0 0
    else traverseLoop offset rest (seqPrintf b 0 record).1 (index + 1) (pos + (seqPrintf b 0 record).2)

variable {records}

theorem exists_of_overflow {offset : Nat} {b : SeqBuf} {index pos : Nat}
    (h : traverseLoop offset records b index pos = .overflow) : ∃ record ∈ records, b.size ≤ record.length := by
  induction records generalizing b index pos with
  | nil => exact absurd h (by simp [traverseLoop])
  | cons record rest ih =>
    rw [traverseLoop] at h
    split_ifs at h with hfull hin hat
    · have hlong := seqPrintf_full_iff.mp hfull
      exact ⟨record, mem_cons_self, by omega⟩
    · obtain ⟨r, hr, hsize⟩ := ih h
      rw [seqPrintf_size] at hsize
      exact ⟨r, mem_cons_of_mem record hr, hsize⟩

theorem length_le_flatten {record : List (BitVec 8)} (h : record ∈ records) :
    record.length ≤ records.flatten.length := (sublist_flatten_of_mem h).length_le

variable (records)

/-- `traverse`, as often as it says `-EAGAIN`. -/
def traverse (f : SeqFile) (offset : Nat) (b : SeqBuf) : SeqFile :=
  match _h : traverseLoop offset records b 0 0 with
  | .found b index fromPos count =>
    { f with buf := some b, index := index, fromPos := fromPos, count := count, pos := offset }
  | .overflow => traverse f offset b.double
  termination_by records.flatten.length + 1 - b.size
  decreasing_by
    obtain ⟨record, hmem, hsize⟩ := exists_of_overflow _h
    have hle := length_le_flatten hmem
    have hpos := b.size_pos
    have hdouble := b.double_size
    omega

/-- The position that a call of `lseek` asks for, in a `loff_t`. -/
def seekTo (f : SeqFile) (offset : Int) : Nat → Option Int
  | 0 => some offset
  | 1 => some ((offset + f.pos).bmod (2 ^ 64))
  | _ => none

/-- `seq_lseek`, or nothing if it fails. -/
def seqLseek (f : SeqFile) (offset : Int) (origin : Nat) : Option SeqFile :=
  (seekTo f offset origin).bind fun offset =>
    if offset < 0 then none
    else if offset ≠ f.pos then
      if offset = 0 then some { f with index := 0, fromPos := 0, count := 0, pos := 0 }
      else some (traverse records f offset.toNat f.buffer)
    else some f

/-! ## What is left of the text -/

/-- The rest of a record that is in the buffer. -/
def SeqFile.leftover (f : SeqFile) : List (BitVec 8) := (f.buffer.bytes.drop f.fromPos).take f.count

/-- The text from the position on, as the file has it. -/
def SeqFile.rest (f : SeqFile) : List (BitVec 8) :=
  f.leftover ++ (records.drop (if f.count = 0 then f.index else f.index + 1)).flatten

/-- The file has the text from its position on. -/
structure SeqFile.Good (f : SeqFile) : Prop where
  rest : f.rest records = records.flatten.drop f.pos
  leftover : f.leftover.length = f.count

theorem seqOpen_good : seqOpen.Good records where
  rest := rfl
  leftover := rfl

variable {records}

/-- The bytes that a call copies from the buffer first. -/
theorem take_leftover (f : SeqFile) (size : Nat) :
    (f.buffer.bytes.drop f.fromPos).take (min f.count size) = f.leftover.take (min f.count size) := by
  rw [SeqFile.leftover, take_take, min_eq_left (min_le_left _ _)]

theorem rest_of_count_zero {f : SeqFile} (h : f.count = 0) :
    f.rest records = (records.drop f.index).flatten := by
  rw [SeqFile.rest, SeqFile.leftover, h, take_zero, if_pos rfl, nil_append]

section Reading

variable {rest : List (List (BitVec 8))} {record : List (BitVec 8)} {b : SeqBuf} {f : SeqFile}
  {size count pos : Nat}

theorem showFirst_spec (b : SeqBuf) (record : List (BitVec 8)) :
    (showFirst b record).1.bytes = record ∧ (showFirst b record).2 = record.length ∧
      (record = [] → (showFirst b record).1.size = b.size) := by
  fun_induction showFirst b record with
  | case1 b h =>
    have hfits : 0 + record.length < b.size := not_not.mp fun hno => h.ne (seqPrintf_full_iff.mpr hno)
    rw [seqPrintf_fits hfits]
    exact ⟨by rw [take_zero, nil_append], Nat.zero_add _, fun _ => rfl⟩
  | case2 b h ih =>
    refine ⟨ih.1, ih.2.1, ?_⟩
    rintro rfl
    have hfits : 0 + ([] : List (BitVec 8)).length < b.size := b.size_pos
    rw [seqPrintf_fits hfits] at h
    exact absurd hfits h

/-- What `Fill` has in the buffer: whole records after what was there. -/
theorem fill_spec (size : Nat) (rest : List (List (BitVec 8))) (b : SeqBuf) (count pos : Nat)
    (hcount : b.bytes.take count = b.bytes ∧ b.bytes.length = count) :
    ∃ k ≤ rest.length, (fill size rest b count pos).2.2 = pos + k ∧
      (fill size rest b count pos).1.bytes.take (fill size rest b count pos).2.1 = b.bytes ++ (rest.take k).flatten ∧
      (fill size rest b count pos).2.1 = (b.bytes ++ (rest.take k).flatten).length := by
  induction rest generalizing b count pos with
  | nil => exact ⟨0, le_refl _, rfl, by simp [fill, hcount.1], by simp [fill, hcount.2]⟩
  | cons record rest ih =>
    rw [fill]
    split_ifs with hlt hfull
    · have htake := take_seqPrintf hcount.2.ge record
      exact ⟨0, Nat.zero_le _, rfl, by simp [htake, hcount.1], by simp [hcount.2]⟩
    · rw [seqPrintf_full_iff, not_not] at hfull
      rw [seqPrintf_fits hfull]
      dsimp only
      rw [hcount.1]
      have hcount' : (b.bytes ++ record).take (count + record.length) = b.bytes ++ record ∧
          (b.bytes ++ record).length = count + record.length := by
        have hlen : (b.bytes ++ record).length = count + record.length := by rw [length_append, hcount.2]
        exact ⟨take_of_length_le hlen.le, hlen⟩
      obtain ⟨k, hk, hpos, htake, hlen⟩ := ih { b with bytes := b.bytes ++ record } _ (pos + 1) hcount'
      refine ⟨k + 1, Nat.succ_le_succ hk, by rw [hpos]; omega, ?_, ?_⟩
      · rw [htake, take_succ_cons, flatten_cons, append_assoc]
      · rw [hlen, take_succ_cons, flatten_cons, append_assoc]
    · exact ⟨0, Nat.zero_le _, rfl, by simp [hcount.1], by simp [hcount.2]⟩

/-- The records with the empty ones at the front left out. -/
def skipEmpty (records : List (List (BitVec 8))) : List (List (BitVec 8)) := records.dropWhile fun r => r.isEmpty

theorem flatten_eq_nil_iff_skipEmpty : records.flatten = [] ↔ skipEmpty records = [] := by
  rw [flatten_eq_nil_iff, skipEmpty, dropWhile_eq_nil_iff]
  simp only [List.isEmpty_iff]

/-- Nothing has been shown but empty records: the list is at its end, or the next record is too large. -/
theorem fill_eq_zero_iff (hsize : 0 < size) (rest : List (List (BitVec 8))) (b : SeqBuf) (pos : Nat)
    (hb : b.bytes = []) : (fill size rest b 0 pos).2.1 = 0 ↔
      rest.flatten = [] ∨ ∃ r rs, skipEmpty rest = r :: rs ∧ b.size ≤ r.length := by
  induction rest generalizing b pos with
  | nil => simp [fill]
  | cons record rest ih =>
    rw [fill, if_pos hsize]
    by_cases hempty : record = []
    · subst hempty
      have hfits : 0 + ([] : List (BitVec 8)).length < b.size := b.size_pos
      rw [seqPrintf_fits hfits, if_neg (Nat.ne_of_lt hfits)]
      have hrest := ih { b with bytes := b.bytes.take 0 ++ [] } (pos + 1) (by simp)
      exact hrest
    · have hskip : skipEmpty (record :: rest) = record :: rest := by
        rw [skipEmpty, dropWhile_cons, if_neg (by simpa using hempty)]
      have hflat : (record :: rest).flatten ≠ [] := by
        rw [flatten_cons]
        exact append_ne_nil_of_left_ne_nil hempty _
      by_cases hfits : 0 + record.length < b.size
      · rw [seqPrintf_fits hfits, if_neg (Nat.ne_of_lt hfits)]
        dsimp only
        have hcount : (b.bytes.take 0 ++ record).take (0 + record.length) = b.bytes.take 0 ++ record ∧
            (b.bytes.take 0 ++ record).length = 0 + record.length := by simp
        obtain ⟨k, _, _, _, hlen⟩ := fill_spec size rest
          { b with bytes := b.bytes.take 0 ++ record } _ (pos + 1) hcount
        rw [hlen]
        constructor
        · intro hzero
          rw [length_eq_zero_iff] at hzero
          simp [hempty] at hzero
        · rintro (h | ⟨r, rs, hr, hle⟩)
          · exact absurd h hflat
          · rw [hskip, cons.injEq] at hr
            rw [← hr.1] at hle
            omega
      · rw [if_pos (seqPrintf_full_iff.mpr hfits)]
        exact ⟨fun _ => .inr ⟨record, rest, hskip, by omega⟩, fun _ => rfl⟩

/-- A call copies bytes and leaves a file; together they are what was to be read. -/
structure Delivers (records : List (List (BitVec 8))) (pos : Nat) (before : List (BitVec 8))
    (out : List (BitVec 8) × SeqFile) : Prop where
  append : out.1 ++ out.2.rest records = before
  leftover : out.2.leftover.length = out.2.count
  pos : out.2.pos = pos + out.1.length

/-- The first `n` bytes of what is in the buffer are copied, and the rest stays there. The last of them belong to
record `i`. -/
theorem takes_chunk {chunk : List (BitVec 8)} {n i : Nat} (hn : n ≤ chunk.length) (hcount : f.count = chunk.length - n)
    (hindex : f.index = if f.count = 0 then i + 1 else i) (hleft : f.leftover = chunk.drop n) (hpos : f.pos = pos + n) :
    Delivers records pos (chunk ++ (records.drop (i + 1)).flatten) (chunk.take n, f) := by
  have hnext : (if f.count = 0 then f.index else f.index + 1) = i + 1 := by
    rw [hindex]
    split_ifs <;> rfl
  refine ⟨?_, ?_, ?_⟩
  · rw [SeqFile.rest, hnext, hleft, ← append_assoc, take_append_drop]
  · rw [hleft, length_drop, hcount]
  · rw [hpos, length_take, min_eq_left hn]

/-- The records that a call shows, as one chunk: the first one and some of those after it. -/
theorem fill_showFirst (b : SeqBuf) (size pos : Nat) (record : List (BitVec 8)) (rest : List (List (BitVec 8))) :
    ∃ b' k, let chunk := record ++ (rest.take k).flatten
      fill size rest (showFirst b record).1 (showFirst b record).2 pos = (b', chunk.length, pos + k) ∧
        b'.bytes.take chunk.length = chunk := by
  obtain ⟨hbytes, hlen, _⟩ := showFirst_spec b record
  have hshown : (showFirst b record).1.bytes.take (showFirst b record).2 = (showFirst b record).1.bytes ∧
      (showFirst b record).1.bytes.length = (showFirst b record).2 := by
    rw [hbytes, hlen, take_length]
    exact ⟨rfl, rfl⟩
  obtain ⟨k, _, hpos, htake, hcnt⟩ := fill_spec size rest _ _ pos hshown
  rw [hbytes] at htake hcnt
  refine ⟨_, k, Prod.ext rfl (Prod.ext hcnt hpos), ?_⟩
  rw [← hcnt, htake]

/-- More records are shown: what is copied and what is left make up the records from the index on. -/
theorem seqReadRecords_takes (records : List (List (BitVec 8))) (f : SeqFile) (b : SeqBuf) (size : Nat) :
    Delivers records f.pos (records.drop f.index).flatten (seqReadRecords records f b size) := by
  rw [seqReadRecords]
  cases hdrop : records.drop f.index with
  | nil =>
    refine ⟨?_, rfl, rfl⟩
    rw [nil_append, rest_of_count_zero rfl]
    exact congrArg flatten hdrop
  | cons record rest =>
    obtain ⟨b', k, hfill, htake⟩ := fill_showFirst b size f.index record rest
    dsimp only at hfill htake ⊢
    rw [hfill]
    have hall : (record :: rest).flatten =
        record ++ (rest.take k).flatten ++ (records.drop (f.index + k + 1)).flatten := by
      have hnext : records.drop (f.index + k + 1) = rest.drop k := by
        have hshift : f.index + k + 1 = f.index + (1 + k) := by omega
        rw [hshift, ← drop_drop, hdrop, Nat.add_comm, drop_succ_cons]
      rw [hnext, append_assoc, ← flatten_append, take_append_drop, flatten_cons]
    generalize record ++ (rest.take k).flatten = chunk at htake hall ⊢
    have hn : min chunk.length size ≤ chunk.length := min_le_left _ _
    have hout : b'.bytes.take (min chunk.length size) = chunk.take (min chunk.length size) := by
      have hpre := congrArg (take (min chunk.length size)) htake
      rwa [take_take, min_eq_left hn] at hpre
    have hover : (b'.bytes.drop (min chunk.length size)).take (chunk.length - min chunk.length size) =
        chunk.drop (min chunk.length size) := by
      rw [← drop_take, htake]
    rw [hall]
    dsimp only
    rw [hout]
    by_cases hzero : chunk.length - min chunk.length size = 0
    · rw [if_neg (not_not.mpr hzero)]
      refine takes_chunk hn rfl (if_pos hzero).symm ?_ rfl
      change take (chunk.length - min chunk.length size) _ = _
      rw [← hover, hzero, take_zero, take_zero]
    · rw [if_pos hzero]
      exact takes_chunk hn rfl (if_neg hzero).symm hover rfl

theorem seqRead_takes (records : List (List (BitVec 8))) (hleft : f.leftover.length = f.count) (size : Nat) :
    Delivers records f.pos (f.rest records) (seqRead records f size) := by
  rw [seqRead]
  by_cases hcount : f.count ≠ 0
  swap
  · rw [if_neg hcount, rest_of_count_zero (not_not.mp hcount)]
    exact seqReadRecords_takes records f f.buffer size
  rw [if_pos hcount, SeqFile.rest, if_neg hcount]
  dsimp only
  generalize hf' : ({ f with
    buf := some f.buffer
    count := f.count - min f.count size
    fromPos := f.fromPos + min f.count size
    pos := f.pos + min f.count size
    index := if f.count - min f.count size = 0 then f.index + 1 else f.index } : SeqFile) = f'
  have hflush : Delivers records f.pos (f.leftover ++ (records.drop (f.index + 1)).flatten)
      (f.leftover.take (min f.count size), f') := by
    rw [← hf']
    refine takes_chunk (by omega) (by rw [hleft]) rfl ?_ rfl
    change (f.buffer.bytes.drop (f.fromPos + min f.count size)).take (f.count - min f.count size) = _
    rw [SeqFile.leftover, drop_take, drop_drop]
  rw [take_leftover]
  by_cases hfull : size - min f.count size = 0
  · rw [if_pos hfull]
    exact hflush
  · rw [if_neg hfull]
    have hzero : f'.count = 0 := by
      rw [← hf']
      change f.count - min f.count size = 0
      omega
    obtain ⟨happ, hlen, hpos⟩ := seqReadRecords_takes records f' f.buffer (size - min f.count size)
    rw [← rest_of_count_zero hzero] at happ
    refine ⟨?_, hlen, ?_⟩
    · rw [append_assoc, happ, hflush.append]
    · rw [hpos, hflush.pos, length_append, Nat.add_assoc]

theorem seqRead_good (hf : f.Good records) (size : Nat) : (seqRead records f size).2.Good records := by
  obtain ⟨happ, hleft, hpos⟩ := seqRead_takes records hf.leftover size
  refine ⟨?_, hleft⟩
  rw [hpos, ← drop_drop, ← hf.rest, ← happ, drop_left]

/-! ## Reads that return nothing -/

/-- Nothing is left in the buffer, the next record is empty, and the first one after it that is not empty is too
large for the buffer. -/
def SeqFile.Stuck (records : List (List (BitVec 8))) (f : SeqFile) : Prop :=
  f.count = 0 ∧ records[f.index]? = some [] ∧
    ∃ r rs, skipEmpty (records.drop f.index) = r :: rs ∧ f.buffer.size ≤ r.length

/-- A call with a positive size returns nothing at the end of the text, and when it is stuck. -/
theorem seqRead_eq_nil_iff (records : List (List (BitVec 8))) (hleft : f.leftover.length = f.count) (hsize : 0 < size) :
    (seqRead records f size).1 = [] ↔ f.rest records = [] ∨ f.Stuck records := by
  by_cases hcount : f.count = 0
  swap
  · -- the rest of a record is in the buffer
    have hne : f.leftover ≠ [] := by
      rw [← length_pos_iff, hleft]
      exact Nat.pos_of_ne_zero hcount
    have hrest : f.rest records ≠ [] := append_ne_nil_of_left_ne_nil hne _
    have hout : (seqRead records f size).1 ≠ [] := by
      have hcopied : (f.buffer.bytes.drop f.fromPos).take (min f.count size) ≠ [] := by
        rw [take_leftover, ← length_pos_iff, length_take, hleft]
        omega
      rw [seqRead, if_pos hcount]
      dsimp only
      by_cases hfull : size - min f.count size = 0
      · rw [if_pos hfull]
        exact hcopied
      · rw [if_neg hfull]
        exact append_ne_nil_of_left_ne_nil hcopied _
    exact ⟨fun h => absurd h hout, fun h => h.elim (fun h => absurd h hrest) fun h => absurd h.1 hcount⟩
  rw [seqRead, if_neg (not_not.mpr hcount), rest_of_count_zero hcount, SeqFile.Stuck, ← head?_drop]
  rw [seqReadRecords]
  cases hdrop : records.drop f.index with
  | nil => simp
  | cons record rest =>
    obtain ⟨b', k, hfill, htake⟩ := fill_showFirst f.buffer size f.index record rest
    dsimp only at hfill htake ⊢
    have hnil : b'.bytes.take (min (record ++ (rest.take k).flatten).length size) = [] ↔
        (record ++ (rest.take k).flatten).length = 0 := by
      have hle := congrArg length htake
      rw [length_take] at hle
      rw [← length_eq_zero_iff, length_take]
      omega
    by_cases hempty : record = []
    · subst hempty
      obtain ⟨hbytes, hlen, hsame⟩ := showFirst_spec f.buffer []
      have hzero : (showFirst f.buffer []).2 = 0 := hlen
      have hiff := fill_eq_zero_iff hsize rest (showFirst f.buffer []).1 f.index hbytes
      rw [hzero] at hfill
      rw [hfill, hsame rfl] at hiff
      rw [hzero, hfill, hnil, hiff]
      simp [hcount, skipEmpty]
    · have hpos : 0 < record.length := length_pos_iff.mpr hempty
      rw [hfill, hnil, length_append]
      constructor
      · intro h
        omega
      · rintro (h | ⟨_, h, _⟩)
        · rw [flatten_cons, append_eq_nil_iff] at h
          exact absurd h.1 hempty
        · exact absurd (Option.some.inj h) hempty

end Reading

/-! ## Seeking -/

theorem traverseLoop_spec {rest : List (List (BitVec 8))} {b b' : SeqBuf} {f : SeqFile}
    {offset index pos index' fromPos count : Nat} (hdrop : records.drop index = rest)
    (hpos : records.flatten.drop pos = rest.flatten) (hlt : pos < offset)
    (h : traverseLoop offset rest b index pos = .found b' index' fromPos count) : SeqFile.Good records
      { f with buf := some b', index := index', fromPos := fromPos, count := count, pos := offset } := by
  induction rest generalizing b index pos with
  | nil =>
    rw [traverseLoop, Traversed.found.injEq] at h
    obtain ⟨rfl, rfl, rfl, rfl⟩ := h
    refine ⟨?_, rfl⟩
    rw [rest_of_count_zero rfl]
    change (records.drop index).flatten = records.flatten.drop offset
    have hend : records.flatten.drop offset = [] := by
      rw [drop_eq_nil_iff]
      exact (drop_eq_nil_iff.mp hpos).trans hlt.le
    rw [hdrop, hend]
    rfl
  | cons record rest ih =>
    have hnext : records.drop (index + 1) = rest := by
      rw [← drop_drop, hdrop, drop_one, tail_cons]
    have hposnext : records.flatten.drop (pos + record.length) = rest.flatten := by
      rw [← drop_drop, hpos, flatten_cons, drop_left]
    rw [traverseLoop] at h
    split_ifs at h with hfull hin hat
    all_goals
      have hfits := not_not.mp (mt seqPrintf_full_iff.mpr hfull)
      rw [seqPrintf_fits hfits] at h hin
      dsimp only at h hin
    · rw [Traversed.found.injEq] at h
      obtain ⟨rfl, rfl, rfl, rfl⟩ := h
      have hcount : 0 + record.length - (offset - pos) ≠ 0 := by omega
      have hleft : ((b.bytes.take 0 ++ record).drop (offset - pos)).take (0 + record.length - (offset - pos)) =
          record.drop (offset - pos) := by
        rw [take_zero, nil_append, take_of_length_le (by rw [length_drop]; omega)]
      refine ⟨?_, ?_⟩
      · rw [SeqFile.rest, if_neg hcount]
        change ((b.bytes.take 0 ++ record).drop (offset - pos)).take (0 + record.length - (offset - pos)) ++
          (records.drop (index + 1)).flatten = records.flatten.drop offset
        have hsplit : offset = pos + (offset - pos) := by omega
        rw [hleft, hnext, hsplit, ← drop_drop, hpos, flatten_cons, ← hsplit,
          drop_append_of_le_length (by omega)]
      · change (((b.bytes.take 0 ++ record).drop (offset - pos)).take (0 + record.length - (offset - pos))).length = _
        rw [hleft, length_drop, Nat.zero_add]
    · rw [seqPrintf_fits hfits] at hat
      dsimp only at hat
      rw [Traversed.found.injEq] at h
      obtain ⟨rfl, rfl, rfl, rfl⟩ := h
      refine ⟨?_, rfl⟩
      rw [rest_of_count_zero rfl]
      change (records.drop (index + 1)).flatten = records.flatten.drop offset
      rw [hnext, ← hat, Nat.zero_add, hposnext]
    · rw [seqPrintf_fits hfits] at hat
      dsimp only at hat
      rw [Nat.zero_add] at h hat hin
      exact ih hnext hposnext (by omega) h

theorem traverse_good (records : List (List (BitVec 8))) (f : SeqFile) {offset : Nat} (hoffset : 0 < offset)
    (b : SeqBuf) : (traverse records f offset b).Good records ∧ (traverse records f offset b).pos = offset := by
  fun_induction traverse records f offset b with
  | case1 b b' index fromPos count h =>
    exact ⟨traverseLoop_spec (f := f) (drop_zero) (drop_zero) hoffset h, rfl⟩
  | case2 b h ih => exact ih

theorem seqLseek_good {f f' : SeqFile} (hf : f.Good records) {offset : Int}
    {origin : Nat} (h : seqLseek records f offset origin = some f') :
    f'.Good records ∧ seekTo f offset origin = some (f'.pos : Int) := by
  obtain ⟨target, htarget, h⟩ := Option.bind_eq_some_iff.mp h
  rw [htarget]
  split_ifs at h with hneg hne hzero
  · obtain rfl := Option.some.inj h
    rw [hzero]
    exact ⟨⟨rfl, rfl⟩, rfl⟩
  · obtain rfl := Option.some.inj h
    obtain ⟨hgood, hpos⟩ := traverse_good records f (by omega : 0 < target.toNat) f.buffer
    refine ⟨hgood, ?_⟩
    rw [hpos, Int.toNat_of_nonneg (not_lt.mp hneg)]
  · obtain rfl := Option.some.inj h
    exact ⟨hf, by rw [not_not.mp hne]⟩

/-! ## Runs -/

inductive SeqOp where
  | read (size : Nat)
  | lseek (offset : Int) (origin : Nat)
  deriving DecidableEq

/-- Reads with positive sizes and seeks; a seek that fails ends the run. -/
def seqStep (records : List (List (BitVec 8))) (f : SeqFile) : SeqOp → Option (List (BitVec 8) × SeqFile)
  | .read size => if 0 < size then some (seqRead records f size) else none
  | .lseek offset origin => (seqLseek records f offset origin).map fun f' => ([], f')

theorem seqStep_good {f : SeqFile} {op : SeqOp} {out : List (BitVec 8) × SeqFile}
    (hf : f.Good records) (h : seqStep records f op = some out) : out.2.Good records := by
  cases op with
  | read size =>
    rw [seqStep] at h
    split_ifs at h with hsize
    obtain rfl := Option.some.inj h
    exact seqRead_good hf size
  | lseek offset origin =>
    obtain ⟨f', hf', rfl⟩ := Option.map_eq_some_iff.mp h
    exact (seqLseek_good hf hf').1

/-- What a read should do: return bytes of the text from the position on, move the position by their number, and
return nothing only at the end. -/
def ReadRight (records : List (List (BitVec 8))) (f : SeqFile) (out : List (BitVec 8) × SeqFile) : Prop :=
  out.1 = (records.flatten.drop f.pos).take out.1.length ∧ out.2.pos = f.pos + out.1.length ∧
    (out.1 = [] → records.flatten.length ≤ f.pos)

theorem seqRead_right_iff {f : SeqFile} (hf : f.Good records) {size : Nat}
    (hsize : 0 < size) : ReadRight records f (seqRead records f size) ↔ ¬ f.Stuck records := by
  obtain ⟨happ, _, hpos⟩ := seqRead_takes records hf.leftover size
  have hnil := seqRead_eq_nil_iff records hf.leftover hsize
  have hend : f.rest records = [] ↔ records.flatten.length ≤ f.pos := by rw [hf.rest, drop_eq_nil_iff]
  constructor
  · rintro ⟨_, _, hzero⟩ hstuck
    have hrest := hend.mpr (hzero (hnil.mpr (.inr hstuck)))
    obtain ⟨hcount, _, r, rs, hskip, hle⟩ := hstuck
    rw [rest_of_count_zero hcount, flatten_eq_nil_iff_skipEmpty, hskip] at hrest
    exact absurd hrest (cons_ne_nil r rs)
  · intro hstuck
    refine ⟨?_, hpos, ?_⟩
    · rw [← hf.rest, ← happ, take_left]
    · intro hout
      rcases hnil.mp hout with h | h
      · exact hend.mp h
      · exact absurd h hstuck

/-- In every state that reads and seeks lead to, a read is right unless the file is stuck there. -/
theorem seqFile_reads (records : List (List (BitVec 8))) (ops : List SeqOp) (outs : List (List (BitVec 8)))
    (f : SeqFile) (hrun : Runs.run (seqStep records) seqOpen ops = some (outs, f)) (size : Nat) (hsize : 0 < size) :
    ReadRight records f (seqRead records f size) ↔ ¬ f.Stuck records := by
  have hf : f.Good records := Runs.run_invariant (I := fun f => SeqFile.Good records f) (P := fun _ => True)
    (fun f op out hf _ hstep => seqStep_good hf hstep) (seqOpen_good records) (fun _ _ => trivial) hrun
  exact seqRead_right_iff hf hsize

def threeRecords : List (List (BitVec 8)) := [[65#8, 66#8, 67#8], [], [68#8]]

/-- After two reads with a seek back between them, the next read starts inside a record. -/
theorem seqFile_reads_seek : ∃ f, Runs.run (seqStep threeRecords) seqOpen [.read 2, .lseek 1 0, .read 1] =
        some ([[65#8, 66#8], [], [66#8]], f) ∧
      ReadRight threeRecords f (seqRead threeRecords f 4) := by
  have hrun : (Runs.run (seqStep threeRecords) seqOpen [.read 2, .lseek 1 0, .read 1]).map
      (fun r => (r.1, r.2.count)) = some ([[65#8, 66#8], [], [66#8]], 1) := by decide +kernel
  obtain ⟨⟨outs, f⟩, hf, heq⟩ := Option.map_eq_some_iff.mp hrun
  obtain ⟨rfl, hcount⟩ := Prod.mk.inj heq
  refine ⟨f, hf, (seqFile_reads threeRecords _ _ f hf 4 (by decide)).mpr ?_⟩
  rintro ⟨hzero, -⟩
  rw [hcount] at hzero
  exact absurd hzero (by decide)

theorem stuck_seqOpen {r : List (BitVec 8)} (hr : pageSize ≤ r.length) : seqOpen.Stuck [[], r] := by
  refine ⟨rfl, rfl, r, [], ?_, hr⟩
  have hne : r.isEmpty = false := by
    rw [isEmpty_eq_false_iff, ← length_pos_iff]
    exact lt_of_lt_of_le (by decide) hr
  change skipEmpty [r] = [r]
  rw [skipEmpty, dropWhile_cons, hne]
  rfl

theorem seqRead_stuck : (seqRead [[], List.replicate 4096 65#8] seqOpen 1).1 = [] ∧
      ¬ ReadRight [[], List.replicate 4096 65#8] seqOpen (seqRead [[], List.replicate 4096 65#8] seqOpen 1) := by
  have hstuck := stuck_seqOpen (r := replicate 4096 65#8) length_replicate.ge
  have hgood := seqOpen_good [[], replicate 4096 65#8]
  refine ⟨(seqRead_eq_nil_iff _ hgood.leftover Nat.one_pos).mpr (.inr hstuck), ?_⟩
  rw [seqRead_right_iff hgood Nat.one_pos, not_not]
  exact hstuck

end Linux
