import PMRAccess.Leveldb.Crc32c

/-!
# LevelDB: the log (`db/log_format.h`, `db/log_writer.cc`, `db/log_reader.cc`)

`Writer::AddRecord` cuts a record into fragments that stay within the blocks of the file; a block
whose rest has no room for a header is filled with zeros. `Reader::ReadRecord` puts the fragments
together again. `At r off bs`: the reader has `bs` before it, from offset `off` of a block on.
`At.frame`: then it reads a fragment as it was written; `At.cut`: of a fragment that is cut off it
reads nothing and takes the end of the file for the end of the log.

`read_log`: of a log that is cut off at any byte the reader returns the records that are there in
full, in their order, and reports nothing. It does not matter where the writer was reopened
(`Writer(dest, dest_length)`).
-/

namespace PMRAccess.Leveldb

open Lib

/-! ## Checksums -/

/-- `crc32c::Extend`: it continues the checksum of a string with more data. -/
structure Crc where
  extend : BitVec 32 → Bytes → BitVec 32
  append : ∀ c xs ys, extend (extend c xs) ys = extend c (xs ++ ys)

/-- The portable code, on data at any address. -/
def Crc.portable (addr : Nat) : Crc where
  extend := Crc32c.extend addr
  append c xs ys := by simp only [Crc32c.extend_foldl, BitVec.not_not, List.foldl_append]

def Crc.value (crc : Crc) (data : Bytes) : BitVec 32 := crc.extend 0 data

def kMaskDelta : BitVec 32 := 0xa282ead8

/-- `crc32c::Mask` and `crc32c::Unmask`. -/
def mask (c : BitVec 32) : BitVec 32 := ((c >>> 15) ||| (c <<< 17)) + kMaskDelta

def unmask (m : BitVec 32) : BitVec 32 :=
  let rot := m - kMaskDelta
  (rot >>> 17) ||| (rot <<< 15)

theorem unmask_mask (c : BitVec 32) : unmask (mask c) = c := by
  simp only [unmask, mask, BitVec.add_sub_cancel]
  apply BitVec.eq_of_getLsbD_eq
  intro i hi
  simp only [BitVec.getLsbD_or, BitVec.getLsbD_ushiftRight, BitVec.getLsbD_shiftLeft]
  have hout : c.getLsbD (15 + (17 + i)) = false := BitVec.getLsbD_of_ge _ _ (by omega)
  by_cases h : i < 15
  · have h1 : 17 + i < 32 := by omega
    simp [h, hi, hout, h1]
  · have h1 : ¬ 17 + i < 32 := by omega
    have h2 : i - 15 < 17 := by omega
    have h3 : 15 + (i - 15) = i := by omega
    simp [h, hi, hout, h1, h2, h3]

namespace Log

/-! ## The format -/

def kBlockSize : Nat := 32768

/-- Checksum (4 bytes), length (2 bytes), type (1 byte). -/
def kHeaderSize : Nat := 4 + 2 + 1

inductive RecordType
  | full | first | middle | last
  deriving DecidableEq, Repr

def RecordType.code : RecordType → UInt8
  | .full => 1
  | .first => 2
  | .middle => 3
  | .last => 4

/-! ## The writer -/

section
variable (crc : Crc)

/-- The header that `EmitPhysicalRecord` formats. -/
def header (t : RecordType) (data : Bytes) : Bytes :=
  leBytes 4 (mask (crc.extend (crc.value [t.code]) data)).toNat ++
    [UInt8.ofNat (data.length &&& 0xff), UInt8.ofNat (data.length >>> 8), t.code]

def emitPhysicalRecord (t : RecordType) (data : Bytes) : Bytes := header crc t data ++ data

/-- The zeros that fill a block without room for a header. -/
def trailer (off : Nat) : Bytes :=
  if kBlockSize - off < kHeaderSize then List.replicate (kBlockSize - off) 0 else []

/-- Where in its block the next header is. -/
def headerAt (off : Nat) : Nat := if kBlockSize - off < kHeaderSize then 0 else off

/-- The bytes left for data behind that header. -/
def avail (off : Nat) : Nat := kBlockSize - headerAt off - kHeaderSize

/-- The loop of `AddRecord`: what it appends, and `block_offset_` behind it. Every turn but the first
takes a byte at least from `left`. -/
def addLoop : Nat → Nat → Bool → Bytes → Bytes × Nat
  | 0, off, _, _ => ([], off)
  | fuel + 1, off, begin, left =>
    let fragment := left.take (avail off)
    let rest := left.drop (avail off)
    let type : RecordType :=
      if begin ∧ rest = [] then .full
      else if begin then .first
      else if rest = [] then .last
      else .middle
    let out := trailer off ++ emitPhysicalRecord crc type fragment
    let off' := headerAt off + kHeaderSize + fragment.length
    if rest = [] then (out, off')
    else
      let (bs, off'') := addLoop fuel off' false rest
      (out ++ bs, off'')

def addRecord (off : Nat) (slice : Bytes) : Bytes × Nat := addLoop crc (slice.length + 2) off true slice

/-- The records one behind the other. -/
def addRecords : Nat → List Bytes → Bytes
  | _, [] => []
  | off, slice :: slices =>
    let (bs, off') := addRecord crc off slice
    bs ++ addRecords off' slices

end

/-! ## The reader -/

/-- The reports of the reader. -/
inductive Reason
  | badRecordLength | checksumMismatch | partialRecord1 | partialRecord2 | missingStart1
  | missingStart2 | errorInMiddle
  | unknownType (type : Nat)
  deriving DecidableEq, Repr

def Reason.text : Reason → String
  | .badRecordLength => "bad record length"
  | .checksumMismatch => "checksum mismatch"
  | .partialRecord1 => "partial record without end(1)"
  | .partialRecord2 => "partial record without end(2)"
  | .missingStart1 => "missing start of fragmented record(1)"
  | .missingStart2 => "missing start of fragmented record(2)"
  | .errorInMiddle => "error in middle of record"
  | .unknownType type => "unknown record type " ++ toString type

structure Reader where
  /-- what has not been read of the file -/
  file : Bytes
  buffer : Bytes
  eof : Bool
  /-- the bytes dropped, with the reason -/
  drops : List (Nat × Reason)
  deriving DecidableEq, Repr

/-- A reader from the start of the file on, as `RecoverLogFile` makes it. -/
def Reader.new (file : Bytes) : Reader := ⟨file, [], false, []⟩

def kEof : Nat := 5

def kBadRecord : Nat := 6

/-- A `char` of the header as an `unsigned int`. -/
def typeOf (c : UInt8) : Nat := if c.toNat < 128 then c.toNat else 2 ^ 32 - 256 + c.toNat

namespace Reader

variable (crc : Crc) (r : Reader)

def report (bytes : Nat) (reason : Reason) : Reader := { r with drops := r.drops ++ [(bytes, reason)] }

/-- The next block, which is short only at the end of the file. -/
def refill : Reader :=
  { r with
    buffer := r.file.take kBlockSize
    file := r.file.drop kBlockSize
    eof := (r.file.take kBlockSize).length < kBlockSize }

/-- A rest of the block without room for a header is a trailer. -/
def fill : Reader := if r.buffer.length < kHeaderSize ∧ r.eof = false then r.refill else r

/-- `ReadPhysicalRecord` behind its first turn: behind a refill the buffer has a header or is at the
end of the file. -/
def parse : Nat × Bytes × Reader :=
  if r.buffer.length < kHeaderSize then (kEof, [], { r with buffer := [] })
  else
    let header := r.buffer
    let type := header.getD 6 0
    let length := (header.getD 4 0).toNat ||| ((header.getD 5 0).toNat <<< 8)
    if kHeaderSize + length > r.buffer.length then
      if r.eof then (kEof, [], { r with buffer := [] })
      else (kBadRecord, [], { r.report r.buffer.length .badRecordLength with buffer := [] })
    else if type = 0 ∧ length = 0 then (kBadRecord, [], { r with buffer := [] })
    else if unmask (BitVec.ofNat 32 (ofLe (header.take 4))) ≠
        crc.value ((header.drop 6).take (1 + length)) then
      (kBadRecord, [], { r.report r.buffer.length .checksumMismatch with buffer := [] })
    else (typeOf type, (header.drop kHeaderSize).take length,
      { r with buffer := r.buffer.drop (kHeaderSize + length) })

def readPhysicalRecord : Nat × Bytes × Reader := r.fill.parse crc

end Reader

/-- The loop of `ReadRecord`; every turn takes a byte at least, or is the last. -/
def readLoop (crc : Crc) : Nat → Reader → Bool → Bytes → Option Bytes × Reader
  | 0, r, _, _ => (none, r)
  | fuel + 1, r, inFragmented, scratch =>
    let (type, fragment, r) := r.readPhysicalRecord crc
    let reportPartial (reason : Reason) : Reader :=
      if inFragmented ∧ scratch ≠ [] then r.report scratch.length reason else r
    if type = 1 then (some fragment, reportPartial .partialRecord1)
    else if type = 2 then readLoop crc fuel (reportPartial .partialRecord2) true fragment
    else if type = 3 then
      if inFragmented then readLoop crc fuel r true (scratch ++ fragment)
      else readLoop crc fuel (r.report fragment.length .missingStart1) false scratch
    else if type = 4 then
      if inFragmented then (some (scratch ++ fragment), r)
      else readLoop crc fuel (r.report fragment.length .missingStart2) false scratch
    else if type = kEof then (none, r)
    else if type = kBadRecord then
      if inFragmented then readLoop crc fuel (r.report scratch.length .errorInMiddle) false []
      else readLoop crc fuel r false scratch
    else
      readLoop crc fuel (r.report (fragment.length + if inFragmented then scratch.length else 0)
        (.unknownType type)) false []

def readRecord (crc : Crc) (r : Reader) : Option Bytes × Reader :=
  readLoop crc (r.buffer.length + r.file.length + 1) r false []

/-- The records up to the end of the log. -/
def readAll (crc : Crc) : Nat → Reader → List Bytes × Reader
  | 0, r => ([], r)
  | fuel + 1, r =>
    match readRecord crc r with
    | (some record, r) =>
      let (records, r) := readAll crc fuel r
      (record :: records, r)
    | (none, r) => ([], r)

/-- All records of a log, and what is reported. -/
def readLog (crc : Crc) (file : Bytes) : List Bytes × List (Nat × Reason) :=
  let (records, r) := readAll crc (file.length + 1) (.new file)
  (records, r.drops)

/-! ## Fragments -/

section
variable {crc : Crc} {r : Reader} {off : Nat} {t : RecordType} {data rest bs : Bytes}

theorem headerAt_le (off : Nat) : headerAt off + kHeaderSize ≤ kBlockSize := by
  unfold headerAt
  split <;> simp only [kBlockSize, kHeaderSize] at * <;> omega

@[simp] theorem length_header (crc : Crc) (t : RecordType) (data : Bytes) :
    (header crc t data).length = kHeaderSize := by
  simp [header, kHeaderSize]

@[simp] theorem length_emit (crc : Crc) (t : RecordType) (data : Bytes) :
    (emitPhysicalRecord crc t data).length = kHeaderSize + data.length := by
  simp [emitPhysicalRecord]

/-- The reader has `bs` before it, from offset `off` of a block on. -/
structure At (r : Reader) (off : Nat) (bs : Bytes) : Prop where
  bytes : r.buffer ++ r.file = bs
  place : (r.eof = false ∧ off + r.buffer.length = kBlockSize) ∨
    (r.eof = true ∧ r.file = [] ∧ off + r.buffer.length < kBlockSize)

/-- At the start the reader is behind a block. -/
theorem at_new (file : Bytes) : At (.new file) kBlockSize file := ⟨rfl, .inl ⟨rfl, rfl⟩⟩

theorem At.off_le (h : At r off bs) : off ≤ kBlockSize := by
  rcases h.place with ⟨-, h⟩ | ⟨-, -, h⟩ <;> omega

/-- At the end of the file there is less before the reader than the block has room for. -/
theorem At.eof_of_lt (h : At r off bs) (hlt : bs.length < kBlockSize - off) :
    r.eof = true ∧ r.buffer = bs := by
  have hb := congrArg List.length h.bytes
  rw [List.length_append] at hb
  rcases h.place with ⟨-, hp⟩ | ⟨he, hf, -⟩
  · omega
  · have := h.bytes
    rw [hf, List.append_nil] at this
    exact ⟨he, this⟩

/-- A trailer is passed over. -/
theorem At.fill (h : At r off (trailer off ++ bs)) : At r.fill (headerAt off) bs := by
  have hb := h.bytes
  unfold trailer headerAt at *
  split at hb
  · rename_i hlt
    rw [if_pos hlt]
    rcases h.place with ⟨he, hp⟩ | ⟨-, hf, hp⟩
    · have hbuf : r.buffer.length < kHeaderSize := by omega
      obtain ⟨-, hfile⟩ := List.append_inj hb (by rw [List.length_replicate]; omega)
      rw [Reader.fill, if_pos ⟨hbuf, he⟩]
      refine ⟨by simp [Reader.refill, hfile], ?_⟩
      by_cases hlen : kBlockSize ≤ bs.length
      · refine .inl ⟨by simp [Reader.refill, hfile, hlen], ?_⟩
        simp only [Reader.refill, hfile, List.length_take]
        omega
      · refine .inr ⟨?_, ?_, ?_⟩
        · simp only [Reader.refill, hfile, List.length_take, decide_eq_true_eq]
          omega
        · simp only [Reader.refill, hfile, List.drop_eq_nil_iff]
          omega
        · simp only [Reader.refill, hfile, List.length_take]
          omega
    · -- the trailer is longer than the rest of the file
      have hlen := congrArg List.length hb
      rw [hf, List.append_nil, List.length_append, List.length_replicate] at hlen
      omega
  · rename_i hge
    rw [if_neg hge]
    have hno : ¬ (r.buffer.length < kHeaderSize ∧ r.eof = false) := by
      rintro ⟨hlt, he⟩
      rcases h.place with ⟨-, hp⟩ | ⟨he', -⟩
      · omega
      · rw [he] at he'
        cases he'
    rw [Reader.fill, if_neg hno]
    exact ⟨by simpa using hb, h.place⟩

/-- What the reader finds in the header of a fragment. -/
theorem header_fields (crc : Crc) (t : RecordType) {data : Bytes} (rest : Bytes)
    (hlen : data.length < 2 ^ 16) :
    (header crc t data ++ rest).getD 6 0 = t.code ∧
      ((header crc t data ++ rest).getD 4 0).toNat |||
        (((header crc t data ++ rest).getD 5 0).toNat <<< 8) = data.length := by
  have ha : data.length &&& 0xff = data.length % 256 := Nat.and_two_pow_sub_one_eq_mod _ 8
  have hb : data.length >>> 8 = data.length / 256 := Nat.shiftRight_eq_div_pow _ 8
  refine ⟨by simp [header, leBytes], ?_⟩
  simp only [header, leBytes, List.cons_append, List.nil_append, List.getD_cons_succ,
    List.getD_cons_zero, ha, hb, UInt8.toNat_ofNat']
  rw [Nat.mod_eq_of_lt (by omega : data.length / 256 < 2 ^ 8), Nat.shiftLeft_eq, Nat.or_comm,
    Nat.mul_comm, ← Nat.two_pow_add_eq_or_of_lt (by omega : data.length % 256 % 2 ^ 8 < 2 ^ 8)]
  omega

/-- The checksum in the header is the one of type and data. -/
theorem header_crc (crc : Crc) (t : RecordType) (data rest : Bytes) :
    unmask (BitVec.ofNat 32 (ofLe ((header crc t data ++ rest).take 4))) =
      crc.value (t.code :: data) := by
  have h4 : (header crc t data ++ rest).take 4 =
      leBytes 4 (mask (crc.extend (crc.value [t.code]) data)).toNat := by
    rw [header, List.append_assoc, List.take_left' (by simp)]
  have hlt : _ < 256 ^ 4 := (mask (crc.extend (crc.value [t.code]) data)).isLt
  rw [h4, ofLe_leBytes, Nat.mod_eq_of_lt hlt, BitVec.ofNat_toNat, BitVec.setWidth_eq, unmask_mask,
    Crc.value, crc.append]
  rfl

@[simp] theorem fill_drops (r : Reader) : r.fill.drops = r.drops := by
  unfold Reader.fill
  split <;> rfl

theorem fits_length {n : Nat} (h : headerAt off + kHeaderSize + n ≤ kBlockSize) : n < 2 ^ 16 := by
  simp only [kBlockSize] at h
  omega

/-- **A fragment that is there in full** is read as it was written. -/
theorem At.frame (h : At r off (trailer off ++ (emitPhysicalRecord crc t data ++ rest)))
    (hfit : headerAt off + kHeaderSize + data.length ≤ kBlockSize) :
    ∃ r', r.readPhysicalRecord crc = (typeOf t.code, data, r') ∧
      At r' (headerAt off + kHeaderSize + data.length) rest ∧ r'.drops = r.drops := by
  have h₁ := h.fill
  rw [Reader.readPhysicalRecord, ← fill_drops r]
  generalize r.fill = r₁ at h₁
  -- the fragment is in the buffer
  have hlen := congrArg List.length h₁.bytes
  rw [List.length_append, List.length_append, length_emit] at hlen
  have hle : kHeaderSize + data.length ≤ r₁.buffer.length := by
    rcases h₁.place with ⟨-, hp⟩ | ⟨-, hf, -⟩
    · omega
    · rw [hf, List.length_nil] at hlen
      omega
  obtain ⟨more, hbuf, hrest⟩ : ∃ more, r₁.buffer = emitPhysicalRecord crc t data ++ more ∧
      rest = more ++ r₁.file := by
    rcases List.append_eq_append_iff.1 h₁.bytes with ⟨x, hx, hx'⟩ | h'
    · have hx0 := congrArg List.length hx
      rw [length_emit, List.length_append] at hx0
      obtain rfl : x = [] := List.eq_nil_of_length_eq_zero (by omega)
      exact ⟨[], by simpa using hx.symm, by simpa using hx'.symm⟩
    · exact h'
  have hbuf' : r₁.buffer = header crc t data ++ (data ++ more) := by
    rw [hbuf, emitPhysicalRecord, List.append_assoc]
  obtain ⟨htype, hlength⟩ := header_fields crc t (data ++ more) (fits_length hfit)
  have hcrc := header_crc crc t data (data ++ more)
  have hsum : ((r₁.buffer.drop 6).take (1 + data.length)) = t.code :: data := by
    rw [hbuf', Nat.add_comm]
    simp [header, leBytes]
  have hdata : (r₁.buffer.drop kHeaderSize).take data.length = data := by
    rw [hbuf', List.drop_left' (by simp), List.take_left]
  refine ⟨{ r₁ with buffer := r₁.buffer.drop (kHeaderSize + data.length) }, ?_, ⟨?_, ?_⟩, rfl⟩
  · simp only [Reader.parse]
    rw [← hbuf'] at htype hlength hcrc
    have ht : t.code ≠ 0 := by cases t <;> decide
    rw [if_neg (by omega), htype, hlength, if_neg (by omega), if_neg (fun h => ht h.1), hcrc, hsum,
      if_neg (by simp), hdata]
  · rw [hrest]
    show r₁.buffer.drop (kHeaderSize + data.length) ++ r₁.file = more ++ r₁.file
    rw [hbuf, List.drop_left' (by simp)]
  · simp only [List.length_drop]
    rcases h₁.place with ⟨he, hp⟩ | ⟨he, hf, hp⟩
    · exact .inl ⟨he, by omega⟩
    · exact .inr ⟨he, hf, by omega⟩

/-- A header that asks for more than there is. -/
theorem At.torn {x : Bytes} (h : At r off (trailer off ++ (header crc t data ++ x)))
    (hlt : x.length < data.length) (hfit : headerAt off + kHeaderSize + data.length ≤ kBlockSize) :
    ∃ r', r.readPhysicalRecord crc = (kEof, [], r') ∧ r'.drops = r.drops := by
  have h₁ := h.fill
  rw [Reader.readPhysicalRecord, ← fill_drops r]
  generalize r.fill = r₁ at h₁
  have hlen : (header crc t data ++ x).length = kHeaderSize + x.length := by simp
  obtain ⟨he, hb⟩ := h₁.eof_of_lt (by omega)
  obtain ⟨-, hlength⟩ := header_fields crc t x (fits_length hfit)
  rw [← hb] at hlength hlen
  refine ⟨{ r₁ with buffer := [] }, ?_, rfl⟩
  simp only [Reader.parse]
  rw [if_neg (by omega), hlength, if_pos (by omega), if_pos he]

/-- **A fragment that is cut off** is the end of the log. -/
theorem At.cut (h : At r off bs) (hcut : bs <+: trailer off ++ emitPhysicalRecord crc t data)
    (hlt : bs.length < (trailer off ++ emitPhysicalRecord crc t data).length)
    (hfit : headerAt off + kHeaderSize + data.length ≤ kBlockSize) :
    ∃ r', r.readPhysicalRecord crc = (kEof, [], r') ∧ r'.drops = r.drops := by
  obtain ⟨w, hw⟩ := hcut
  -- it is cut off within the trailer, within the header, or behind it
  by_cases hin : bs.length < (trailer off).length
  · have htr : kBlockSize - off < kHeaderSize ∧ (trailer off).length = kBlockSize - off := by
      unfold trailer at hin ⊢
      split at hin
      · rename_i hlt'
        exact ⟨hlt', by rw [if_pos hlt', List.length_replicate]⟩
      · simp at hin
    obtain ⟨he, hb⟩ := h.eof_of_lt (by omega)
    rw [Reader.readPhysicalRecord, Reader.fill, if_neg (by simp [he])]
    exact ⟨{ r with buffer := [] }, by rw [Reader.parse, if_pos (by rw [hb]; omega)], rfl⟩
  · obtain ⟨q, rfl, hq⟩ : ∃ q, bs = trailer off ++ q ∧ emitPhysicalRecord crc t data = q ++ w := by
      rcases List.append_eq_append_iff.1 hw with ⟨x, hx, hx'⟩ | ⟨x, hx, hx'⟩
      · have hx0 := congrArg List.length hx
        rw [List.length_append] at hx0
        obtain rfl : x = [] := List.eq_nil_of_length_eq_zero (by omega)
        exact ⟨[], by simpa using hx.symm, by simpa using hx'.symm⟩
      · exact ⟨x, hx, hx'⟩
    have hqlt : q.length < kHeaderSize + data.length := by
      rw [List.length_append, List.length_append, length_emit] at hlt
      omega
    by_cases hhead : q.length < kHeaderSize
    · have h₁ := h.fill
      rw [Reader.readPhysicalRecord, ← fill_drops r]
      generalize r.fill = r₁ at h₁
      obtain ⟨he, hb⟩ := h₁.eof_of_lt (by omega)
      exact ⟨{ r₁ with buffer := [] }, by rw [Reader.parse, if_pos (by rw [hb]; exact hhead)], rfl⟩
    · obtain ⟨x, rfl⟩ : ∃ x, q = header crc t data ++ x := by
        rcases List.append_eq_append_iff.1 hq with ⟨x, hx, -⟩ | ⟨x, hx, -⟩
        · exact ⟨x, hx⟩
        · have hx0 := congrArg List.length hx
          rw [length_header, List.length_append] at hx0
          obtain rfl : x = [] := List.eq_nil_of_length_eq_zero (by omega)
          exact ⟨[], by simpa using hx.symm⟩
      rw [List.length_append, length_header] at hqlt
      exact h.torn (by omega) hfit

end

/-! ## Records -/

/-- The turns that `AddRecord` has left are enough: one for each byte, and one more where the block
has no room for data. -/
def Enough (fuel off : Nat) (left : Bytes) : Prop :=
  left.length + 2 ≤ fuel ∨ left.length + 1 ≤ fuel ∧ 0 < avail off

/-- The type of a fragment. -/
def fragmentType (begin : Bool) (rest : Bytes) : RecordType :=
  if begin ∧ rest = [] then .full else if begin then .first else if rest = [] then .last else .middle

section
variable {crc : Crc} {r : Reader} {fuel n off : Nat} {begin : Bool} {left rest scratch bs : Bytes}

theorem headerAt_avail (off : Nat) : headerAt off + kHeaderSize + avail off = kBlockSize := by
  have := headerAt_le off
  simp only [avail]
  omega

/-- A turn of `AddRecord`. -/
theorem addLoop_succ (crc : Crc) (fuel off : Nat) (begin : Bool) (left : Bytes) :
    addLoop crc (fuel + 1) off begin left =
      if left.drop (avail off) = [] then
        (trailer off ++ emitPhysicalRecord crc (fragmentType begin []) left,
          headerAt off + kHeaderSize + left.length)
      else
        (trailer off ++ (emitPhysicalRecord crc (fragmentType begin (left.drop (avail off)))
            (left.take (avail off)) ++
            (addLoop crc fuel kBlockSize false (left.drop (avail off))).1),
          (addLoop crc fuel kBlockSize false (left.drop (avail off))).2) := by
  rw [addLoop]
  by_cases hrest : left.drop (avail off) = []
  · have htake : left.take (avail off) = left := by
      rw [List.drop_eq_nil_iff] at hrest
      exact List.take_of_length_le hrest
    simp [hrest, htake, fragmentType]
  · have hlen : avail off ≤ left.length := by
      rw [List.drop_eq_nil_iff] at hrest
      omega
    have hoff := headerAt_avail off
    simp [hrest, fragmentType, Nat.min_eq_left hlen, hoff]

theorem Enough.next (h : Enough (fuel + 1) off left) (hrest : left.drop (avail off) ≠ []) :
    Enough fuel kBlockSize (left.drop (avail off)) := by
  have havail : 0 < avail kBlockSize := by decide
  rw [Ne, List.drop_eq_nil_iff] at hrest
  refine .inr ⟨?_, havail⟩
  rw [List.length_drop]
  rcases h with h | ⟨h, h'⟩ <;> omega

/-- **The fragments of a record** are put together again. -/
theorem read_loop (begin : Bool) (scratch : Bytes) (n : Nat) (henough : Enough fuel off left)
    (h : At r off ((addLoop crc fuel off begin left).1 ++ rest))
    (hscratch : begin = true → scratch = [])
    (hn : ((addLoop crc fuel off begin left).1 ++ rest).length < n) :
    ∃ r', readLoop crc n r (!begin) scratch = (some (scratch ++ left), r') ∧
      At r' (addLoop crc fuel off begin left).2 rest ∧ r'.drops = r.drops := by
  induction fuel generalizing r off begin left scratch n with
  | zero => rcases henough with h | ⟨h, -⟩ <;> omega
  | succ fuel ih =>
    obtain ⟨n, rfl⟩ : ∃ m, n = m + 1 := ⟨n - 1, by omega⟩
    rw [addLoop_succ] at h hn ⊢
    by_cases hrest : left.drop (avail off) = []
    · rw [if_pos hrest] at h hn ⊢
      have hlen : left.length ≤ avail off := by rwa [List.drop_eq_nil_iff] at hrest
      have hoff := headerAt_avail off
      rw [List.append_assoc] at h
      obtain ⟨r', hr', hat, hdrops⟩ := h.frame (by omega)
      refine ⟨r', ?_, hat, hdrops⟩
      rw [readLoop, hr']
      cases begin with
      | true => simp [fragmentType, RecordType.code, typeOf, hscratch rfl]
      | false => simp [fragmentType, RecordType.code, typeOf]
    · rw [if_neg hrest] at h hn ⊢
      have hlen : avail off ≤ left.length := by
        rw [List.drop_eq_nil_iff] at hrest
        omega
      have hoff := headerAt_avail off
      rw [List.append_assoc, List.append_assoc] at h
      have htake : (left.take (avail off)).length = avail off := by
        rw [List.length_take]
        omega
      obtain ⟨r', hr', hat, hdrops⟩ := h.frame (by rw [htake]; omega)
      rw [htake, hoff] at hat
      have hn' : ((addLoop crc fuel kBlockSize false (left.drop (avail off))).1 ++ rest).length < n := by
        simp only [List.length_append, length_emit, kHeaderSize] at hn ⊢
        omega
      obtain ⟨r'', hr'', hat', hdrops'⟩ := ih false (scratch ++ left.take (avail off)) n
        (henough.next hrest) hat (by simp) hn'
      refine ⟨r'', ?_, hat', hdrops'.trans hdrops⟩
      rw [List.append_assoc, List.take_append_drop] at hr''
      rw [readLoop, hr', ← hr'']
      cases begin with
      | true => simp [fragmentType, hrest, RecordType.code, typeOf, hscratch rfl]
      | false => simp [fragmentType, hrest, RecordType.code, typeOf]

/-- **A record that is cut off** is not read. -/
theorem cut_loop (begin : Bool) (scratch : Bytes) (n : Nat) (henough : Enough fuel off left)
    (h : At r off bs)
    (hcut : bs <+: (addLoop crc fuel off begin left).1)
    (hlt : bs.length < (addLoop crc fuel off begin left).1.length)
    (hscratch : begin = true → scratch = []) (hn : bs.length < n) :
    ∃ r', readLoop crc n r (!begin) scratch = (none, r') ∧ r'.drops = r.drops := by
  -- the fragment that is cut off ends the loop
  have hend : ∀ {r : Reader} {off : Nat} {t : RecordType} {bs data scratch : Bytes} {b : Bool} {n : Nat},
      At r off bs → bs <+: trailer off ++ emitPhysicalRecord crc t data →
      bs.length < (trailer off ++ emitPhysicalRecord crc t data).length →
      headerAt off + kHeaderSize + data.length ≤ kBlockSize →
      ∃ r', readLoop crc (n + 1) r b scratch = (none, r') ∧ r'.drops = r.drops := by
    intro r off t bs data scratch b n h hcut hlt hfit
    obtain ⟨r', hr', hdrops⟩ := h.cut hcut hlt hfit
    exact ⟨r', by rw [readLoop, hr']; simp [kEof], hdrops⟩
  induction fuel generalizing r off begin left scratch n bs with
  | zero => rcases henough with h | ⟨h, -⟩ <;> omega
  | succ fuel ih =>
    obtain ⟨n, rfl⟩ : ∃ m, n = m + 1 := ⟨n - 1, by omega⟩
    rw [addLoop_succ] at hcut hlt
    have hoff := headerAt_avail off
    by_cases hrest : left.drop (avail off) = []
    · rw [if_pos hrest] at hcut hlt
      have hlen : left.length ≤ avail off := by rwa [List.drop_eq_nil_iff] at hrest
      exact hend h hcut hlt (by omega)
    · rw [if_neg hrest] at hcut hlt
      have hlen : avail off ≤ left.length := by
        rw [List.drop_eq_nil_iff] at hrest
        omega
      have htake : (left.take (avail off)).length = avail off := by
        rw [List.length_take]
        omega
      simp only [← List.append_assoc] at hcut hlt
      by_cases hin : bs.length < (trailer off ++ emitPhysicalRecord crc
          (fragmentType begin (left.drop (avail off))) (left.take (avail off))).length
      · exact hend h (List.prefix_of_prefix_length_le hcut (List.prefix_append _ _) hin.le) hin
          (by rw [htake]; omega)
      · -- the first fragment is there
        obtain ⟨q, rfl⟩ := List.prefix_of_prefix_length_le (List.prefix_append _ _) hcut (by omega)
        rw [List.prefix_append_right_inj] at hcut
        rw [List.append_assoc] at h
        obtain ⟨r', hr', hat, hdrops⟩ := h.frame (by rw [htake]; omega)
        rw [htake, hoff] at hat
        obtain ⟨r'', hr'', hdrops'⟩ := ih false (scratch ++ left.take (avail off)) n
          (henough.next hrest) hat hcut (by simp only [List.length_append] at hlt ⊢; omega) (by simp)
          (by simp only [List.length_append, length_emit, kHeaderSize] at hn ⊢; omega)
        refine ⟨r'', ?_, hdrops'.trans hdrops⟩
        rw [readLoop, hr', ← hr'']
        cases begin with
        | true => simp [fragmentType, hrest, RecordType.code, typeOf, hscratch rfl]
        | false => simp [fragmentType, hrest, RecordType.code, typeOf]

end

/-! ## Logs -/

section
variable {crc : Crc} {r : Reader} {n off : Nat} {slice : Bytes} {slices : List Bytes} {bs : Bytes}

theorem enough_addRecord (off : Nat) (slice : Bytes) : Enough (slice.length + 2) off slice :=
  .inl le_rfl

/-- A reopened writer goes on as the old one would: at the end of a block or at its start. -/
theorem addRecord_blockSize (crc : Crc) (slice : Bytes) :
    addRecord crc kBlockSize slice = addRecord crc 0 slice := by
  simp only [addRecord, addLoop_succ]
  rfl

/-- The number of records that are there in full in the first `n` bytes. -/
def complete (crc : Crc) : Nat → List Bytes → Nat → Nat
  | _, [], _ => 0
  | off, slice :: slices, n =>
    let (bs, off') := addRecord crc off slice
    if bs.length ≤ n then complete crc off' slices (n - bs.length) + 1 else 0

theorem At.size (h : At r off bs) : r.buffer.length + r.file.length = bs.length := by
  rw [← h.bytes, List.length_append]

theorem At.record {rest : Bytes} (h : At r off ((addRecord crc off slice).1 ++ rest)) :
    ∃ r', readRecord crc r = (some slice, r') ∧ At r' (addRecord crc off slice).2 rest ∧
      r'.drops = r.drops := by
  have hsize := h.size
  have hr := read_loop true [] (r.buffer.length + r.file.length + 1)
    (enough_addRecord off slice) h (fun _ => rfl) (by rw [hsize]; exact Nat.lt_succ_self _)
  exact hr

theorem At.cutRecord (h : At r off bs) (slice : Bytes) (hcut : bs <+: (addRecord crc off slice).1)
    (hlt : bs.length < (addRecord crc off slice).1.length) :
    ∃ r', readRecord crc r = (none, r') ∧ r'.drops = r.drops := by
  have hsize := h.size
  exact cut_loop true [] (r.buffer.length + r.file.length + 1)
    (enough_addRecord off slice) h hcut hlt (fun _ => rfl) (by rw [hsize]; exact Nat.lt_succ_self _)

theorem addRecord_pos (crc : Crc) (off : Nat) (slice : Bytes) :
    0 < (addRecord crc off slice).1.length := by
  rw [addRecord, addLoop_succ]
  split <;> simp only [List.length_append, length_emit, kHeaderSize] <;> omega

/-- At the end of the log. -/
theorem At.nil (crc : Crc) (h : At r off []) : ∃ r', readRecord crc r = (none, r') ∧ r'.drops = r.drops :=
  h.cutRecord [] (List.nil_prefix) (addRecord_pos crc off [])

theorem read_all (h : At r off ((addRecords crc off slices).take n)) (fuel : Nat)
    (hfuel : ((addRecords crc off slices).take n).length < fuel) :
    ∃ r', readAll crc fuel r = (slices.take (complete crc off slices n), r') ∧
      r'.drops = r.drops := by
  induction slices generalizing r off n fuel with
  | nil =>
    obtain ⟨fuel, rfl⟩ : ∃ m, fuel = m + 1 := ⟨fuel - 1, by omega⟩
    rw [addRecords, List.take_nil] at h
    obtain ⟨r', hr', hdrops⟩ := h.nil crc
    exact ⟨r', by rw [readAll, hr']; rfl, hdrops⟩
  | cons slice slices ih =>
    obtain ⟨fuel, rfl⟩ : ∃ m, fuel = m + 1 := ⟨fuel - 1, by omega⟩
    simp only [addRecords] at h hfuel
    have hpos := addRecord_pos crc off slice
    by_cases hn : (addRecord crc off slice).1.length ≤ n
    · rw [List.take_append, List.take_of_length_le hn] at h hfuel
      obtain ⟨r', hr', hat, hdrops⟩ := h.record
      obtain ⟨r'', hr'', hdrops'⟩ := ih hat fuel (by
        rw [List.length_append] at hfuel
        omega)
      refine ⟨r'', ?_, hdrops'.trans hdrops⟩
      simp only [readAll, hr', hr'', complete, if_pos hn, List.take_succ_cons]
    · rw [List.take_append_of_le_length (by omega)] at h
      obtain ⟨r', hr', hdrops⟩ := h.cutRecord slice (List.take_prefix _ _) (by
        rw [List.length_take]
        omega)
      exact ⟨r', by simp [readAll, hr', complete, hn], hdrops⟩

/-! ### What is there in full -/

theorem complete_le (crc : Crc) (off : Nat) (slices : List Bytes) (n : Nat) :
    complete crc off slices n ≤ slices.length := by
  induction slices generalizing off n with
  | nil => exact le_rfl
  | cons slice slices ih =>
    simp only [complete, List.length_cons]
    split
    · exact Nat.succ_le_succ (ih _ _)
    · exact Nat.zero_le _

theorem complete_fits (crc : Crc) (off : Nat) (slices : List Bytes) (n : Nat) :
    (addRecords crc off (slices.take (complete crc off slices n))).length ≤ n := by
  induction slices generalizing off n with
  | nil => exact Nat.zero_le _
  | cons slice slices ih =>
    simp only [complete]
    split
    · rename_i hn
      have := ih (addRecord crc off slice).2 (n - (addRecord crc off slice).1.length)
      simp only [List.take_succ_cons, addRecords, List.length_append]
      omega
    · exact Nat.zero_le _

theorem complete_max (crc : Crc) (off : Nat) (slices : List Bytes) (n : Nat) :
    ∀ j ≤ slices.length, (addRecords crc off (slices.take j)).length ≤ n →
      j ≤ complete crc off slices n := by
  induction slices generalizing off n with
  | nil => exact fun j hj _ => hj
  | cons slice slices ih =>
    intro j hj hlen
    cases j with
    | zero => exact Nat.zero_le _
    | succ j =>
      simp only [List.take_succ_cons, addRecords, List.length_append] at hlen
      simp only [complete]
      rw [if_pos (by omega)]
      exact Nat.succ_le_succ (ih _ _ j (by simpa using hj) (by omega))

/-! ### Reopened writers -/

/-- The log that writers leave that were opened one behind the other, each where the file ended. -/
def writeLog (crc : Crc) : Bytes → List (List Bytes) → Bytes
  | file, [] => file
  | file, slices :: sessions =>
    writeLog crc (file ++ addRecords crc (file.length % kBlockSize) slices) sessions

theorem trailer_length (off : Nat) (h : off ≤ kBlockSize) :
    headerAt off % kBlockSize = (off + (trailer off).length) % kBlockSize := by
  unfold headerAt trailer
  split
  · rw [List.length_replicate, Nat.add_sub_cancel' h, Nat.mod_self]
    rfl
  · simp

/-- `block_offset_` behind a record is where the file then ends. -/
theorem addLoop_offset (crc : Crc) {fuel : Nat} (begin : Bool) {left : Bytes}
    (henough : Enough fuel off left) (h : off ≤ kBlockSize) :
    (addLoop crc fuel off begin left).2 ≤ kBlockSize ∧
      (addLoop crc fuel off begin left).2 % kBlockSize =
        (off + (addLoop crc fuel off begin left).1.length) % kBlockSize := by
  induction fuel generalizing off begin left with
  | zero => rcases henough with h | ⟨h, -⟩ <;> omega
  | succ fuel ih =>
    have hoff := headerAt_avail off
    have htr := trailer_length off h
    rw [addLoop_succ]
    by_cases hrest : left.drop (avail off) = []
    · have hlen : left.length ≤ avail off := by rwa [List.drop_eq_nil_iff] at hrest
      rw [if_pos hrest]
      refine ⟨by show headerAt off + kHeaderSize + left.length ≤ kBlockSize; omega, ?_⟩
      simp only [List.length_append, length_emit]
      rw [Nat.add_assoc, Nat.add_mod, htr, ← Nat.add_mod]
      congr 1
      omega
    · have hlen : avail off ≤ left.length := by
        rw [List.drop_eq_nil_iff] at hrest
        omega
      have htake : (left.take (avail off)).length = avail off := by
        rw [List.length_take]
        omega
      rw [if_neg hrest]
      obtain ⟨hle, hmod⟩ := ih false (henough.next hrest) le_rfl
      refine ⟨hle, ?_⟩
      -- behind a fragment that is not the last the block is full
      have hfull : (off + (trailer off).length + (kHeaderSize + avail off)) % kBlockSize = 0 := by
        rw [Nat.add_mod, ← htr, ← Nat.add_mod, ← Nat.add_assoc, hoff, Nat.mod_self]
      rw [hmod, Nat.add_mod_left]
      simp only [List.length_append, length_emit, htake]
      generalize (addLoop crc fuel kBlockSize false (left.drop (avail off))).1.length = x
      calc x % kBlockSize = (0 + x % kBlockSize) % kBlockSize := by rw [Nat.zero_add, Nat.mod_mod]
        _ = (off + (trailer off).length + (kHeaderSize + avail off) + x) % kBlockSize := by
          rw [← hfull, ← Nat.add_mod]
        _ = _ := by congr 1; omega

theorem addRecords_mod (crc : Crc) (h : off ≤ kBlockSize) (slices : List Bytes) :
    addRecords crc (off % kBlockSize) slices = addRecords crc off slices := by
  rcases Nat.eq_or_lt_of_le h with rfl | hlt
  · cases slices with
    | nil => rfl
    | cons slice slices => simp only [addRecords, addRecord_blockSize, Nat.mod_self]
  · rw [Nat.mod_eq_of_lt hlt]

theorem addRecords_append (crc : Crc) (h : off ≤ kBlockSize) (slices slices' : List Bytes) :
    addRecords crc off (slices ++ slices') = addRecords crc off slices ++
      addRecords crc ((off + (addRecords crc off slices).length) % kBlockSize) slices' := by
  induction slices generalizing off with
  | nil => simp [addRecords, addRecords_mod crc h]
  | cons slice slices ih =>
    obtain ⟨hle, hmod⟩ := addLoop_offset crc true (enough_addRecord off slice) h
    have ih' := ih hle
    simp only [List.cons_append, addRecords, List.append_assoc, List.length_append]
    congr 1
    rw [show (addRecord crc off slice).2 = _ from rfl] at *
    rw [addRecord] at *
    rw [ih', Nat.add_mod, hmod, ← Nat.add_mod, Nat.add_assoc]

/-- Where the writers were reopened does not show. -/
theorem writeLog_eq (crc : Crc) (sessions : List (List Bytes)) :
    ∀ slices, writeLog crc (addRecords crc 0 slices) sessions =
      addRecords crc 0 (slices ++ sessions.flatten) := by
  induction sessions with
  | nil => simp [writeLog]
  | cons more sessions ih =>
    intro slices
    have happ := addRecords_append crc (Nat.zero_le kBlockSize) slices more
    rw [Nat.zero_add] at happ
    rw [writeLog, ← happ, ih, List.flatten_cons, List.append_assoc]

/-- Of a log that is cut off the reader returns the records that are there in full. -/
theorem readLog_take (crc : Crc) (slices : List Bytes) (n : Nat) :
    ∃ k ≤ slices.length, readLog crc ((addRecords crc 0 slices).take n) = (slices.take k, []) ∧
      (addRecords crc 0 (slices.take k)).length ≤ n ∧
      ∀ j ≤ slices.length, (addRecords crc 0 (slices.take j)).length ≤ n → j ≤ k := by
  refine ⟨complete crc 0 slices n, complete_le _ _ _ _, ?_, complete_fits _ _ _ _,
    complete_max _ _ _ _⟩
  -- the reader starts as behind a block, the writer as at the start of one
  have hstart : addRecords crc 0 slices = addRecords crc kBlockSize slices := by
    rw [← addRecords_mod crc le_rfl, Nat.mod_self]
  have hc : complete crc 0 slices n = complete crc kBlockSize slices n := by
    cases slices <;> simp only [complete, addRecord_blockSize]
  obtain ⟨r', hr', hdrops⟩ := read_all (at_new ((addRecords crc kBlockSize slices).take n))
    _ (Nat.lt_succ_self _)
  rw [readLog, hstart, hc, hr']
  exact congrArg (Prod.mk _) hdrops

/-- **A log that is cut off is read up to the cut.** Writers are opened one behind the other and
append their records; of the first `n` bytes of the file the reader returns, in their order, the
records whose bytes are all there, and it reports nothing. -/
theorem read_log (crc : Crc) (sessions : List (List Bytes)) (n : Nat) :
    ∃ k ≤ sessions.flatten.length,
      readLog crc ((writeLog crc [] sessions).take n) = (sessions.flatten.take k, []) ∧
      (addRecords crc 0 (sessions.flatten.take k)).length ≤ n ∧
      ∀ j ≤ sessions.flatten.length,
        (addRecords crc 0 (sessions.flatten.take j)).length ≤ n → j ≤ k := by
  have heq := writeLog_eq crc sessions []
  rw [addRecords, List.nil_append] at heq
  rw [heq]
  exact readLog_take crc sessions.flatten n

/-! ### Logs reused behind a cut -/

theorem addRecords_offset (crc : Crc) (h : off ≤ kBlockSize) {rest : Bytes}
    (hat : At r off (addRecords crc off slices ++ rest)) :
    ∃ r' off', At r' off' rest ∧ r'.drops = r.drops ∧
      off' % kBlockSize = (off + (addRecords crc off slices).length) % kBlockSize ∧
      ∀ fuel, readAll crc (fuel + slices.length) r =
        (slices ++ (readAll crc fuel r').1, (readAll crc fuel r').2) := by
  induction slices generalizing r off with
  | nil => exact ⟨r, off, by simpa [addRecords] using hat, rfl, rfl, fun _ => rfl⟩
  | cons slice slices ih =>
    obtain ⟨hle, hmod⟩ := addLoop_offset crc true (enough_addRecord off slice) h
    simp only [addRecords, List.append_assoc] at hat
    obtain ⟨r₁, hr₁, hat₁, hd₁⟩ := hat.record
    obtain ⟨r', off', hat', hd', hoff', hall⟩ := ih hle hat₁
    refine ⟨r', off', hat', hd'.trans hd₁, ?_, fun fuel => ?_⟩
    · rw [hoff', addRecords, List.length_append, Nat.add_mod, show (addRecord crc off slice).2 = _ from
        rfl, addRecord, hmod, ← Nat.add_mod, Nat.add_assoc]
    · rw [List.length_cons, ← Nat.add_assoc, readAll, hr₁]
      simp only [hall, List.cons_append]

theorem addRecords_length (crc : Crc) (off : Nat) (slices : List Bytes) :
    slices.length ≤ (addRecords crc off slices).length := by
  induction slices generalizing off with
  | nil => exact le_rfl
  | cons slice slices ih =>
    have hpos := addRecord_pos crc off slice
    have hle := ih (addRecord crc off slice).2
    simp only [addRecords, List.length_cons, List.length_append]
    omega

/-- The header of a record's first fragment, and its data. -/
theorem addRecord_first (crc : Crc) (off : Nat) (slice : Bytes) :
    ∃ t more, (addRecord crc off slice).1 = trailer off ++
      (header crc t (slice.take (avail off)) ++ (slice.take (avail off) ++ more)) := by
  rw [addRecord, addLoop_succ]
  split
  · rename_i hrest
    rw [List.drop_eq_nil_iff] at hrest
    exact ⟨_, [], by rw [List.take_of_length_le hrest, List.append_nil]; rfl⟩
  · exact ⟨_, _, by rw [emitPhysicalRecord, List.append_assoc]⟩

/-- **A log that is reused behind a torn record loses what is then written.** A crash leaves a record
torn behind the header of its first fragment; the log is reopened where the file ends, as
`reuse_logs` has it, and more records are appended, which end before the torn fragment would have
ended. The next reader returns the records before the crash, none of those appended behind it, and
reports nothing. (With the last byte of the fragment there, it would report a wrong checksum.) -/
theorem reuse_loses (crc : Crc) (slices : List Bytes) (torn : Bytes) (m : Nat) (more : List Bytes)
    {off : Nat} (hoff : off = (addRecords crc 0 slices).length % kBlockSize)
    (hhead : (trailer off).length + kHeaderSize ≤ m)
    (hshort : m + (addRecords crc (((addRecords crc 0 slices).length + m) % kBlockSize) more).length <
      (trailer off).length + kHeaderSize + (torn.take (avail off)).length) :
    readLog crc (writeLog crc (addRecords crc 0 slices ++ (addRecord crc off torn).1.take m) [more]) =
      (slices, []) := by
  obtain ⟨t, tail, hrec⟩ := addRecord_first crc off torn
  generalize hdata : torn.take (avail off) = data at hrec hshort
  have hfit : headerAt off + kHeaderSize + data.length ≤ kBlockSize := by
    have := headerAt_avail off
    have hlen := congrArg List.length hdata
    rw [List.length_take] at hlen
    omega
  -- the header and a part of the data are there
  have htake : (addRecord crc off torn).1.take m = trailer off ++ (header crc t data ++
      data.take (m - (trailer off).length - kHeaderSize)) := by
    rw [hrec, List.take_append, List.take_of_length_le (by omega), List.take_append,
      List.take_of_length_le (by rw [length_header]; omega), length_header,
      List.take_append_of_le_length (by omega)]
  have hlen : (addRecords crc 0 slices ++ (addRecord crc off torn).1.take m).length =
      (addRecords crc 0 slices).length + m := by
    simp only [htake, List.length_append, length_header, List.length_take]
    omega
  rw [writeLog, writeLog, hlen, htake]
  generalize addRecords crc (((addRecords crc 0 slices).length + m) % kBlockSize) more = new at hshort
  -- the reader gets to the torn record
  have hstart : addRecords crc 0 slices = addRecords crc kBlockSize slices := by
    rw [← addRecords_mod crc le_rfl, Nat.mod_self]
  have hat := at_new (addRecords crc kBlockSize slices ++ (trailer off ++ (header crc t data ++
    (data.take (m - (trailer off).length - kHeaderSize) ++ new))))
  obtain ⟨r', off', hat', hdrops, hoff', hall⟩ := addRecords_offset crc le_rfl hat
  have hsame : off = off' % kBlockSize := by
    rw [hoff, hoff', ← hstart, Nat.add_mod_left]
  have htorn : trailer off = trailer off' ∧ headerAt off = headerAt off' := by
    rcases Nat.eq_or_lt_of_le hat'.off_le with rfl | hlt
    · rw [hsame]
      exact ⟨rfl, rfl⟩
    · rw [hsame, Nat.mod_eq_of_lt hlt]
      exact ⟨rfl, rfl⟩
  have hshort' : (data.take (m - (trailer off).length - kHeaderSize) ++ new).length < data.length := by
    rw [List.length_append, List.length_take]
    omega
  nth_rewrite 1 [htorn.1] at hat'
  obtain ⟨r'', hr'', hdrops'⟩ := hat'.torn hshort' (htorn.2 ▸ hfit)
  have hnone : readRecord crc r' = (none, r'') := by
    rw [readRecord, readLoop, hr'']
    simp [kEof]
  simp only [readLog, hstart, List.append_assoc]
  obtain ⟨k, hk⟩ := Nat.exists_eq_add_of_le (addRecords_length crc kBlockSize slices)
  have hfuel : ∀ b, slices.length + k + b + 1 = k + b + 1 + slices.length := fun b => by omega
  rw [List.length_append, hk, hfuel, hall, readAll, hnone]
  exact Prod.ext (List.append_nil _) (by simp [hdrops', hdrops, Reader.new])

/-- Of 40 bytes, 12 are written with their header; the next record is lost behind it. -/
theorem reuse_loses_short :
    readLog (.portable 0) (writeLog (.portable 0) (addRecords (.portable 0) 0 [[1]] ++
      (addRecord (.portable 0) 8 (List.replicate 40 7)).1.take 12) [[[9]]]) = ([[1]], []) :=
  reuse_loses (.portable 0) [[1]] (List.replicate 40 7) 12 [[9]] (by decide) (by decide) (by decide)

end

end Log

end PMRAccess.Leveldb
