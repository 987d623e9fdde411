import PMRAccess.Lib.Bytes

/-!
# LevelDB: write batches (`util/coding.cc`, `db/write_batch.cc`)

A write batch is a byte string: a sequence number, a count and the records, each a tag and length
prefixed strings. `iterate` decodes it and calls its handler for each record; the calls made before
an error stay made. `Holds b ops`: the records of the batch are `ops`; it is kept by every operation
that changes a batch, also by `append`, and `iterate` of such a batch calls the handler with exactly
`ops` (`Holds.iterate`).
-/

namespace PMRAccess.Leveldb

open Lib

/-! ## Coding -/

/-- `EncodeVarint32`. -/
def encodeVarint32 (v : Nat) : Bytes :=
  if v < 1 <<< 7 then [UInt8.ofNat v]
  else if v < 1 <<< 14 then [UInt8.ofNat (v ||| 128), UInt8.ofNat (v >>> 7)]
  else if v < 1 <<< 21 then
    [UInt8.ofNat (v ||| 128), UInt8.ofNat (v >>> 7 ||| 128), UInt8.ofNat (v >>> 14)]
  else if v < 1 <<< 28 then
    [UInt8.ofNat (v ||| 128), UInt8.ofNat (v >>> 7 ||| 128), UInt8.ofNat (v >>> 14 ||| 128),
      UInt8.ofNat (v >>> 21)]
  else
    [UInt8.ofNat (v ||| 128), UInt8.ofNat (v >>> 7 ||| 128), UInt8.ofNat (v >>> 14 ||| 128),
      UInt8.ofNat (v >>> 21 ||| 128), UInt8.ofNat (v >>> 28)]

/-- The loop of `GetVarint32PtrFallback` over its shifts. -/
def varint32Loop : List Nat → Nat → Bytes → Option (Nat × Bytes)
  | shift :: shifts, result, byte :: bs =>
    if byte.toNat &&& 128 ≠ 0 then
      varint32Loop shifts (result ||| ((byte.toNat &&& 127) <<< shift) % 2 ^ 32) bs
    else some (result ||| (byte.toNat <<< shift) % 2 ^ 32, bs)
  | _, _, _ => none

/-- `GetVarint32Ptr`: the value and what is behind it. -/
def getVarint32 (bs : Bytes) : Option (Nat × Bytes) :=
  match bs with
  | byte :: rest =>
    if byte.toNat &&& 128 = 0 then some (byte.toNat, rest)
    else varint32Loop [0, 7, 14, 21, 28] 0 bs
  | [] => varint32Loop [0, 7, 14, 21, 28] 0 bs

/-- The length goes through a `uint32_t`. -/
def putLengthPrefixedSlice (value : Bytes) : Bytes := encodeVarint32 (value.length % 2 ^ 32) ++ value

def getLengthPrefixedSlice (input : Bytes) : Option (Bytes × Bytes) :=
  match getVarint32 input with
  | some (len, rest) => if rest.length ≥ len then some (rest.take len, rest.drop len) else none
  | none => none

/-! ### Round trip -/

theorem and_128_eq_zero : ∀ x < 128, x &&& 128 = 0 := by decide

theorem and_128_ne_zero : ∀ x < 128, (x + 128) &&& 128 ≠ 0 := by decide

theorem or_128 : ∀ x < 256, x ||| 128 = x % 128 + 128 := by decide +kernel

/-- A byte with the continuation bit. -/
theorem toNat_more (v : Nat) : (UInt8.ofNat (v ||| 128)).toNat = v % 128 + 128 := by
  rw [UInt8.toNat_ofNat', Nat.or_mod_two_pow]
  have h := or_128 (v % 2 ^ 8) (Nat.mod_lt _ (by decide))
  rw [show 128 % 2 ^ 8 = 128 from rfl, h]
  omega

theorem toNat_byte {v : Nat} (h : v < 256) : (UInt8.ofNat v).toNat = v := by
  rw [UInt8.toNat_ofNat']
  exact Nat.mod_eq_of_lt h

section
variable {shift result v : Nat} {shifts : List Nat} {bs : Bytes}

theorem or_shiftLeft (h : result < 2 ^ shift) (hv : v * 2 ^ shift < 2 ^ 32) :
    result ||| (v <<< shift) % 2 ^ 32 = result + v * 2 ^ shift := by
  rw [Nat.shiftLeft_eq, Nat.mod_eq_of_lt hv, Nat.or_comm, Nat.mul_comm,
    ← Nat.two_pow_add_eq_or_of_lt h]
  omega

theorem varint32Loop_more (h : result < 2 ^ shift) (hs : shift + 7 ≤ 32) :
    varint32Loop (shift :: shifts) result (UInt8.ofNat (v ||| 128) :: bs) =
      varint32Loop shifts (result + v % 128 * 2 ^ shift) bs := by
  have hmod : (v % 128 + 128) &&& 127 = v % 128 := by
    rw [show (127 : Nat) = 2 ^ 7 - 1 from rfl, Nat.and_two_pow_sub_one_eq_mod]
    omega
  have hlt : v % 128 * 2 ^ shift < 2 ^ 32 :=
    calc v % 128 * 2 ^ shift < 2 ^ 7 * 2 ^ shift := by
          have := Nat.mod_lt v (show 0 < 128 by decide)
          exact (Nat.mul_lt_mul_right (Nat.two_pow_pos _)).2 this
      _ = 2 ^ (shift + 7) := by rw [Nat.pow_add, Nat.mul_comm]
      _ ≤ 2 ^ 32 := Nat.pow_le_pow_right (by decide) hs
  rw [varint32Loop, toNat_more, if_pos (and_128_ne_zero _ (Nat.mod_lt _ (by decide))), hmod,
    or_shiftLeft h hlt]

theorem varint32Loop_last (h : result < 2 ^ shift) (hv : v < 128) (hs : v * 2 ^ shift < 2 ^ 32) :
    varint32Loop (shift :: shifts) result (UInt8.ofNat v :: bs) =
      some (result + v * 2 ^ shift, bs) := by
  rw [varint32Loop, toNat_byte (by omega), if_neg (by simp [and_128_eq_zero v hv]),
    or_shiftLeft h hs]

end

theorem getVarint32_more (v : Nat) (bs : Bytes) :
    getVarint32 (UInt8.ofNat (v ||| 128) :: bs) = varint32Loop [7, 14, 21, 28] (v % 128) bs := by
  rw [getVarint32, toNat_more, if_neg (and_128_ne_zero _ (Nat.mod_lt _ (by decide))),
    varint32Loop_more (by decide) (by decide)]
  simp

theorem getVarint32_encode {v : Nat} (hv : v < 2 ^ 32) (bs : Bytes) :
    getVarint32 (encodeVarint32 v ++ bs) = some (v, bs) := by
  have h7 : v >>> 7 = v / 128 := Nat.shiftRight_eq_div_pow v 7
  have h14 : v >>> 14 = v / 16384 := Nat.shiftRight_eq_div_pow v 14
  have h21 : v >>> 21 = v / 2097152 := Nat.shiftRight_eq_div_pow v 21
  have h28 : v >>> 28 = v / 268435456 := Nat.shiftRight_eq_div_pow v 28
  unfold encodeVarint32
  simp only [Nat.one_shiftLeft, h7, h14, h21, h28]
  split
  · simp only [List.singleton_append, getVarint32]
    rw [toNat_byte (by omega), if_pos (and_128_eq_zero v (by omega))]
  split
  · simp only [List.cons_append, List.nil_append, getVarint32_more]
    rw [varint32Loop_last (by omega) (by omega) (by omega)]
    congr 2
    omega
  split
  · simp only [List.cons_append, List.nil_append, getVarint32_more]
    rw [varint32Loop_more (by omega) (by omega), varint32Loop_last (by omega) (by omega) (by omega)]
    congr 2
    omega
  split
  · simp only [List.cons_append, List.nil_append, getVarint32_more]
    rw [varint32Loop_more (by omega) (by omega), varint32Loop_more (by omega) (by omega),
      varint32Loop_last (by omega) (by omega) (by omega)]
    congr 2
    omega
  · simp only [List.cons_append, List.nil_append, getVarint32_more]
    rw [varint32Loop_more (by omega) (by omega), varint32Loop_more (by omega) (by omega),
      varint32Loop_more (by omega) (by omega), varint32Loop_last (by omega) (by omega) (by omega)]
    congr 2
    omega

theorem getLengthPrefixedSlice_put {value : Bytes} (h : value.length < 2 ^ 32) (rest : Bytes) :
    getLengthPrefixedSlice (putLengthPrefixedSlice value ++ rest) = some (value, rest) := by
  rw [getLengthPrefixedSlice, putLengthPrefixedSlice, List.append_assoc, Nat.mod_eq_of_lt h,
    getVarint32_encode h]
  simp

/-! ## Batches -/

/-- What a batch asks for, and what `Iterate` calls its handler with. -/
inductive BatchOp
  | put (key value : Bytes)
  | delete (key : Bytes)
  deriving DecidableEq, Repr

def kTypeDeletion : UInt8 := 0

def kTypeValue : UInt8 := 1

def kHeader : Nat := 12

structure WriteBatch where
  rep : Bytes
  header : kHeader ≤ rep.length

/-- The errors of `Iterate`. -/
inductive Corruption
  | badPut | badDelete | unknownTag | wrongCount
  deriving DecidableEq, Repr

def Corruption.text : Corruption → String
  | .badPut => "bad WriteBatch Put"
  | .badDelete => "bad WriteBatch Delete"
  | .unknownTag => "unknown WriteBatch tag"
  | .wrongCount => "WriteBatch has wrong count"

namespace WriteBatch

def clear : WriteBatch := ⟨List.replicate kHeader 0, by simp⟩

section
variable (b : WriteBatch)

def sequence : Nat := ofLe (b.rep.take 8)

def count : Nat := ofLe ((b.rep.drop 8).take 4)

/-- The records, behind the header. -/
def data : Bytes := b.rep.drop kHeader

def setSequence (seq : Nat) : WriteBatch :=
  ⟨leBytes 8 seq ++ b.rep.drop 8, by have := b.header; simp [kHeader] at *; omega⟩

def setCount (n : Nat) : WriteBatch :=
  ⟨b.rep.take 8 ++ leBytes 4 n ++ b.rep.drop kHeader, by have := b.header; simp [kHeader] at *; omega⟩

/-- Bytes at the end of the representation. -/
def push (bs : Bytes) : WriteBatch := ⟨b.rep ++ bs, b.header.trans (by simp)⟩

def put (key value : Bytes) : WriteBatch :=
  (b.setCount (b.count + 1)).push
    (kTypeValue :: putLengthPrefixedSlice key ++ putLengthPrefixedSlice value)

def delete (key : Bytes) : WriteBatch :=
  (b.setCount (b.count + 1)).push (kTypeDeletion :: putLengthPrefixedSlice key)

def append (source : WriteBatch) : WriteBatch :=
  (b.setCount (b.count + source.count)).push source.data

end

/-- The loop of `Iterate`; every turn takes a byte at least from the input. -/
def iterateLoop : Nat → Bytes → List BatchOp × Option Corruption
  | fuel + 1, tag :: input =>
    if tag = kTypeValue then
      match getLengthPrefixedSlice input with
      | some (key, input) =>
        match getLengthPrefixedSlice input with
        | some (value, input) =>
          let (ops, err) := iterateLoop fuel input
          (.put key value :: ops, err)
        | none => ([], some .badPut)
      | none => ([], some .badPut)
    else if tag = kTypeDeletion then
      match getLengthPrefixedSlice input with
      | some (key, input) =>
        let (ops, err) := iterateLoop fuel input
        (.delete key :: ops, err)
      | none => ([], some .badDelete)
    else ([], some .unknownTag)
  | _, _ => ([], none)

/-- `Iterate`: the calls of the handler, and the error. -/
def iterate (b : WriteBatch) : List BatchOp × Option Corruption :=
  match iterateLoop b.data.length b.data with
  | (ops, some err) => (ops, some err)
  | (ops, none) => if ops.length % 2 ^ 32 = b.count then (ops, none) else (ops, some .wrongCount)

end WriteBatch

/-! ### What a batch holds -/

def BatchOp.encode : BatchOp → Bytes
  | .put key value =>
    kTypeValue :: putLengthPrefixedSlice key ++ putLengthPrefixedSlice value
  | .delete key => kTypeDeletion :: putLengthPrefixedSlice key

/-- The strings are as long as a slice of the database can be. -/
def BatchOp.Fits : BatchOp → Prop
  | .put key value => key.length < 2 ^ 32 ∧ value.length < 2 ^ 32
  | .delete key => key.length < 2 ^ 32

instance : (op : BatchOp) → Decidable op.Fits
  | .put key value => inferInstanceAs (Decidable (key.length < 2 ^ 32 ∧ value.length < 2 ^ 32))
  | .delete key => inferInstanceAs (Decidable (key.length < 2 ^ 32))

/-- The records of a batch (module doc). -/
structure Holds (b : WriteBatch) (ops : List BatchOp) : Prop where
  data : b.data = ops.flatMap BatchOp.encode
  count : b.count = ops.length % 2 ^ 32
  fits : ∀ op ∈ ops, op.Fits

namespace WriteBatch

section
variable (b : WriteBatch) (n : Nat) (bs : Bytes)

@[simp] theorem data_setCount : (b.setCount n).data = b.data := by
  have h : 8 ≤ b.rep.length := le_trans (by decide) b.header
  simp [data, setCount, kHeader, List.drop_append, h]

@[simp] theorem count_setCount : (b.setCount n).count = n % 2 ^ 32 := by
  have h : 8 ≤ b.rep.length := le_trans (by decide) b.header
  simp [count, setCount, h, ofLe_leBytes]

@[simp] theorem sequence_setCount : (b.setCount n).sequence = b.sequence := by
  have h : 8 ≤ b.rep.length := le_trans (by decide) b.header
  simp [sequence, setCount, h]

@[simp] theorem data_push : (b.push bs).data = b.data ++ bs := by
  simp [data, push, List.drop_append_of_le_length b.header]

@[simp] theorem count_push : (b.push bs).count = b.count := by
  have h : 8 ≤ b.rep.length := le_trans (by decide) b.header
  have h' : 4 ≤ (b.rep.drop 8).length := by
    have := b.header
    simp only [kHeader, List.length_drop] at *
    omega
  simp only [count, push]
  rw [List.drop_append_of_le_length h, List.take_append_of_le_length h']

@[simp] theorem sequence_push : (b.push bs).sequence = b.sequence := by
  have h : 8 ≤ b.rep.length := le_trans (by decide) b.header
  simp [sequence, push, List.take_append_of_le_length h]

@[simp] theorem data_setSequence : (b.setSequence n).data = b.data := by
  simp [data, setSequence, kHeader, List.drop_append]

@[simp] theorem count_setSequence : (b.setSequence n).count = b.count := by
  simp [count, setSequence]

@[simp] theorem sequence_setSequence : (b.setSequence n).sequence = n % 2 ^ 64 := by
  simp [sequence, setSequence, ofLe_leBytes]

end

/-- More turns than bytes are not needed. -/
theorem iterateLoop_encode : ∀ (ops : List BatchOp) (fuel : Nat), (∀ op ∈ ops, op.Fits) →
    (ops.flatMap BatchOp.encode).length ≤ fuel →
    iterateLoop fuel (ops.flatMap BatchOp.encode) = (ops, none)
  | [], 0, _, _ | [], _ + 1, _, _ => rfl
  | op :: ops, 0, _, hlen => by
    cases op <;> simp [BatchOp.encode] at hlen
  | .put key value :: ops, fuel + 1, hf, hlen => by
    obtain ⟨⟨hk, hv⟩, hf⟩ := List.forall_mem_cons.1 hf
    have ih := iterateLoop_encode ops fuel hf (by
      simp only [List.flatMap_cons, BatchOp.encode, List.length_append, List.length_cons] at hlen
      omega)
    simp only [List.flatMap_cons, BatchOp.encode, List.cons_append, List.append_assoc, iterateLoop,
      if_true, getLengthPrefixedSlice_put hk, getLengthPrefixedSlice_put hv, ih]
  | .delete key :: ops, fuel + 1, hf, hlen => by
    obtain ⟨hk, hf⟩ := List.forall_mem_cons.1 hf
    have ih := iterateLoop_encode ops fuel hf (by
      simp only [List.flatMap_cons, BatchOp.encode, List.length_append, List.length_cons] at hlen
      omega)
    simp only [List.flatMap_cons, BatchOp.encode, List.cons_append, iterateLoop,
      show kTypeDeletion ≠ kTypeValue by decide, if_false, if_true, getLengthPrefixedSlice_put hk, ih]

end WriteBatch

namespace Holds

variable {b source : WriteBatch} {ops ops' : List BatchOp}

theorem clear : Holds .clear [] := ⟨rfl, rfl, by simp⟩

theorem put (h : Holds b ops) {key value : Bytes} (hf : BatchOp.Fits (.put key value)) :
    Holds (b.put key value) (ops ++ [.put key value]) where
  data := by simp [WriteBatch.put, h.data, BatchOp.encode]
  count := by simp [WriteBatch.put, h.count]
  fits := by
    intro op hop
    rcases List.mem_append.1 hop with hop | hop
    · exact h.fits op hop
    · exact List.mem_singleton.1 hop ▸ hf

theorem delete (h : Holds b ops) {key : Bytes} (hf : BatchOp.Fits (.delete key)) :
    Holds (b.delete key) (ops ++ [.delete key]) where
  data := by simp [WriteBatch.delete, h.data, BatchOp.encode]
  count := by simp [WriteBatch.delete, h.count]
  fits := by
    intro op hop
    rcases List.mem_append.1 hop with hop | hop
    · exact h.fits op hop
    · exact List.mem_singleton.1 hop ▸ hf

theorem append (h : Holds b ops) (h' : Holds source ops') :
    Holds (b.append source) (ops ++ ops') where
  data := by simp [WriteBatch.append, h.data, h'.data]
  count := by simp [WriteBatch.append, h.count, h'.count]
  fits op hop := (List.mem_append.1 hop).elim (h.fits op) (h'.fits op)

theorem setSequence (h : Holds b ops) (seq : Nat) : Holds (b.setSequence seq) ops :=
  ⟨by simp [h.data], by simp [h.count], h.fits⟩

/-- `Iterate` calls the handler with the records in their order, and finds no error. -/
theorem iterate (h : Holds b ops) : b.iterate = (ops, none) := by
  have hloop := WriteBatch.iterateLoop_encode ops b.data.length h.fits (by rw [h.data])
  rw [← h.data] at hloop
  simp only [WriteBatch.iterate, hloop, h.count, if_true]

theorem self (h : Holds b ops) : Holds b b.iterate.1 := by
  rwa [h.iterate]

/-- Every record takes a byte at least. -/
theorem length_le (h : Holds b ops) : ops.length ≤ b.rep.length := by
  have hle : ∀ ops : List BatchOp, ops.length ≤ (ops.flatMap BatchOp.encode).length := by
    intro ops
    induction ops with
    | nil => exact Nat.zero_le _
    | cons op ops ih =>
      have hpos : 0 < op.encode.length := by cases op <;> simp [BatchOp.encode]
      rw [List.flatMap_cons, List.length_append, List.length_cons]
      omega
  have hdata := congrArg List.length h.data
  rw [WriteBatch.data, List.length_drop] at hdata
  have := hle ops
  omega

end Holds

/-- The batches that the interface can build, with the operations they were built from. -/
inductive Built : WriteBatch → List BatchOp → Prop
  | clear : Built .clear []
  | put {b : WriteBatch} {ops : List BatchOp} {key value : Bytes} (h : Built b ops)
      (hf : BatchOp.Fits (.put key value)) : Built (b.put key value) (ops ++ [.put key value])
  | delete {b : WriteBatch} {ops : List BatchOp} {key : Bytes} (h : Built b ops)
      (hf : BatchOp.Fits (.delete key)) : Built (b.delete key) (ops ++ [.delete key])
  | append {b source : WriteBatch} {ops ops' : List BatchOp} (h : Built b ops)
      (h' : Built source ops') : Built (b.append source) (ops ++ ops')
  | setSequence {b : WriteBatch} {ops : List BatchOp} (h : Built b ops) (seq : Nat) :
      Built (b.setSequence seq) ops

theorem Built.holds {b : WriteBatch} {ops : List BatchOp} (h : Built b ops) : Holds b ops := by
  induction h with
  | clear => exact .clear
  | put _ hf ih => exact ih.put hf
  | delete _ hf ih => exact ih.delete hf
  | append _ _ ih ih' => exact ih.append ih'
  | setSequence _ seq ih => exact ih.setSequence seq

/-- **A batch says what it was built from**: however `Put`, `Delete`, `Append` and `SetSequence` are
mixed, `Iterate` calls its handler with the operations in their order and returns no error, and
`Count` is their number. -/
theorem iterate_built {b : WriteBatch} {ops : List BatchOp} (h : Built b ops) :
    b.iterate = (ops, none) ∧ b.count = ops.length % 2 ^ 32 :=
  ⟨h.holds.iterate, h.holds.count⟩

/-- A group: the second batch, with a long value, is appended to the first. -/
theorem iterate_built_group :
    let b := ((WriteBatch.clear.put [1] [10, 11]).delete []).append
      (WriteBatch.clear.put [2] (List.replicate 200 7))
    (b.setSequence 5).iterate =
        ([.put [1] [10, 11], .delete [], .put [2] (List.replicate 200 7)], none) ∧
      (b.setSequence 5).count = 3 :=
  iterate_built (.setSequence (.append (.delete (.put .clear (by decide)) (by decide))
    (.put .clear ⟨by decide, by rw [List.length_replicate]; decide⟩)) 5)

end PMRAccess.Leveldb
