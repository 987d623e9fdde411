import Mathlib.Data.List.TakeWhile
import PMRAccess.Lib.Bytes

/-!
# Requests and replies (`frontend/request.h`, `frontend/cs.h`)

A request is a header (`op : 8`, `key_size : 24` in one little-endian word, then `val_size`),
followed by the key and, in a record, the value. A reply is laid over the same bytes: `status`,
`val_size`, value. Both start `ringHeader` bytes into the message buffer. `Record` is the request of
a `SendWrite`, the unit of a chunk and of the log.
-/

namespace PMRAccess

open Lib

def maxRequest : Nat := 4096
def maxAsyncSize : Nat := 32 * 1024
def ringHeader : Nat := 8

inductive Operation
  | put | get | update | delete | close | alloc
  deriving DecidableEq, Repr

inductive RequestStatus
  | ok | notfound | error
  deriving DecidableEq, Repr

namespace Operation

def code : Operation → Nat
  | put => 0 | get => 1 | update => 2 | delete => 3 | close => 4 | alloc => 5

def ofCode : Nat → Option Operation
  | 0 => some put | 1 => some get | 2 => some update | 3 => some delete | 4 => some close
  | 5 => some alloc | _ => none

theorem ofCode_code (op : Operation) : ofCode op.code = some op := by cases op <;> rfl

theorem code_lt (op : Operation) : op.code < 2 ^ 8 := by cases op <;> decide

end Operation

namespace RequestStatus

def code : RequestStatus → Nat
  | ok => 0 | notfound => 1 | error => 2

end RequestStatus

/-! ## Requests -/

/-- `sizeof(Request)`, also `sizeof(RequestReply)`. -/
def sizeofRequest : Nat := 8

/-- The header bytes with the bit fields `op : 8` and `key_size : 24`. -/
def requestHeader (op : Operation) (keySize valSize : Nat) : Bytes :=
  leBytes 4 (op.code + 2 ^ 8 * (keySize % 2 ^ 24)) ++ leBytes 4 valSize

section
variable (b : Buf)

/-- The fields of the request in a message buffer. -/
def reqOp : Option Operation := Operation.ofCode (ofLe (b.read ringHeader 4) % 2 ^ 8)
def reqKeySize : Nat := ofLe (b.read ringHeader 4) / 2 ^ 8
def reqValSize : Nat := ofLe (b.read (ringHeader + 4) 4)
def reqKey : Bytes := b.read (ringHeader + sizeofRequest) (reqKeySize b)

/-- `Request::Length`. -/
def reqLength : Nat := (sizeofRequest + reqKeySize b + reqValSize b) % 2 ^ 32

/-! ## Replies -/

/-- Whether the reply's `status` word is `OK`. -/
def replyOk : Bool := ofLe (b.read ringHeader 4) = RequestStatus.ok.code
def replyValSize : Nat := ofLe (b.read (ringHeader + 4) 4)
def replyValue : Bytes := b.read (ringHeader + sizeofRequest) (replyValSize b)

/-- The message buffer with the reply's fields and value written. -/
def setReply (status : RequestStatus) (value : Bytes) : Buf :=
  b.write ringHeader (leBytes 4 status.code ++ leBytes 4 value.length ++ value)

end

/-! ## Records -/

/-- The two operations `SendWrite` is called with. -/
inductive WriteOp
  | put | update
  deriving DecidableEq, Repr

def WriteOp.op : WriteOp → Operation
  | put => .put
  | update => .update

/-- `strlen` of a C string. -/
def strlen (s : Bytes) : Nat := (s.takeWhile (· ≠ 0)).length

/-- A string's length in a `uint16_t`. -/
def len16 (s : Bytes) : Nat := strlen s % 2 ^ 16

structure Record where
  op : WriteOp
  key : Bytes
  val : Bytes
  deriving DecidableEq, Repr

namespace Record

variable (r : Record)

/-- `meta_len` and `total_len` of `SendWrite`, both `uint16_t`. -/
def metaLen : Nat := (sizeofRequest + len16 r.key) % 2 ^ 16
def totalLen : Nat := (sizeofRequest + len16 r.key + len16 r.val) % 2 ^ 16

/-- The bytes of the record: header, key, value. -/
def bytes : Bytes := requestHeader r.op.op r.key.length r.val.length ++ (r.key ++ r.val)

/-- The precondition on requests: key and value are C strings, hence without NUL, and the request
fits the client's message buffer. -/
def Fits : Prop :=
  0 ∉ r.key ∧ 0 ∉ r.val ∧ ringHeader + sizeofRequest + r.key.length + r.val.length ≤ maxRequest

instance : Decidable r.Fits :=
  inferInstanceAs (Decidable (0 ∉ r.key ∧ 0 ∉ r.val ∧
    ringHeader + sizeofRequest + r.key.length + r.val.length ≤ maxRequest))

/-- The client's message buffer after `SendWrite` has prepared the record in it. -/
def prepare (b : Buf) : Buf :=
  ((b.write ringHeader (requestHeader r.op.op (len16 r.key) (len16 r.val))).write
    (ringHeader + sizeofRequest) (r.key.take (len16 r.key))).write
    (ringHeader + sizeofRequest + len16 r.key) (r.val.take (len16 r.val))

/-- The number of bytes of a record that fits. -/
def size : Nat := sizeofRequest + r.key.length + r.val.length

end Record

/-- A key of a request without a value that fits the message buffer. -/
def KeyFits (key : Bytes) : Prop := 0 ∉ key ∧ ringHeader + sizeofRequest + key.length ≤ maxRequest

instance (key : Bytes) : Decidable (KeyFits key) :=
  inferInstanceAs (Decidable (0 ∉ key ∧ ringHeader + sizeofRequest + key.length ≤ maxRequest))

/-- The client's message buffer after the request of a `SendGet`, `SendDelete`, `SendAlloc` or
`SendClose` is prepared in it. -/
def prepareKey (op : Operation) (key : Bytes) (b : Buf) : Buf :=
  (b.write ringHeader (requestHeader op (strlen key) 0)).write (ringHeader + sizeofRequest)
    (key.take (strlen key))

/-! ## The bytes of a list of records -/

/-- Records one behind the other, as a chunk and the log hold them. -/
def recordBytes (rs : List Record) : Bytes := rs.flatMap Record.bytes

/-- The length of `recordBytes`. -/
def recordSize (rs : List Record) : Nat := (rs.map Record.size).sum

/-! ## Lemmas -/

@[simp] theorem length_requestHeader (op : Operation) (k v : Nat) :
    (requestHeader op k v).length = sizeofRequest := by simp [requestHeader, sizeofRequest]

theorem Record.length_bytes (r : Record) : r.bytes.length = r.size := by
  simp [Record.bytes, Record.size, Nat.add_assoc]

@[simp] theorem recordSize_nil : recordSize [] = 0 := rfl

@[simp] theorem recordBytes_nil : recordBytes [] = [] := rfl

@[simp] theorem recordSize_append (rs rs' : List Record) :
    recordSize (rs ++ rs') = recordSize rs + recordSize rs' := by simp [recordSize]

@[simp] theorem recordBytes_append (rs rs' : List Record) :
    recordBytes (rs ++ rs') = recordBytes rs ++ recordBytes rs' := by simp [recordBytes]

@[simp] theorem recordSize_cons (r : Record) (rs : List Record) :
    recordSize (r :: rs) = r.size + recordSize rs := by simp [recordSize]

@[simp] theorem recordBytes_cons (r : Record) (rs : List Record) :
    recordBytes (r :: rs) = r.bytes ++ recordBytes rs := by simp [recordBytes]

@[simp] theorem length_recordBytes (rs : List Record) :
    (recordBytes rs).length = recordSize rs := by
  induction rs with
  | nil => rfl
  | cons r rs ih => simp [ih, r.length_bytes]

theorem Record.size_pos (r : Record) : 0 < r.size := by
  unfold Record.size sizeofRequest
  omega

theorem strlen_of_nulFree {s : Bytes} (h : 0 ∉ s) : strlen s = s.length := by
  have : s.takeWhile (· ≠ 0) = s := by
    rw [List.takeWhile_eq_self_iff]
    intro x hx
    simp only [ne_eq, decide_eq_true_eq]
    rintro rfl
    exact h hx
  rw [strlen, this]

theorem take_len16 {s : Bytes} (h : 0 ∉ s) (hl : s.length < 2 ^ 16) :
    len16 s = s.length ∧ s.take (len16 s) = s := by
  have : len16 s = s.length := by rw [len16, strlen_of_nulFree h, Nat.mod_eq_of_lt hl]
  exact ⟨this, by rw [this, List.take_length]⟩

section
variable {r : Record} (h : r.Fits)
include h

theorem Record.Fits.size_le : r.size + ringHeader ≤ maxRequest := by
  obtain ⟨-, -, h⟩ := h
  simp only [Record.size]
  omega

end

/-- Key and value are C strings, and the length of the request fits its `uint16_t`. -/
def Record.Short (r : Record) : Prop := 0 ∉ r.key ∧ 0 ∉ r.val ∧ r.size < 2 ^ 16

theorem Record.Fits.short {r : Record} (h : r.Fits) : r.Short := by
  have hs := h.size_le
  refine ⟨h.1, h.2.1, ?_⟩
  simp only [maxRequest] at hs
  omega

section
variable {r : Record} (h : r.Short)
include h

theorem Record.Short.lens :
    len16 r.key = r.key.length ∧ len16 r.val = r.val.length ∧
      r.metaLen = sizeofRequest + r.key.length ∧ r.totalLen = r.size := by
  have hs := h.2.2
  simp only [Record.size] at hs
  have hk := (take_len16 h.1 (by omega)).1
  have hv := (take_len16 h.2.1 (by omega)).1
  refine ⟨hk, hv, ?_, ?_⟩
  · rw [Record.metaLen, hk, Nat.mod_eq_of_lt (by omega)]
  · rw [Record.totalLen, hk, hv, Nat.mod_eq_of_lt hs, Record.size]

/-- The prepared request: the bytes of the record. -/
theorem Record.Short.read_prepare (b : Buf) :
    (r.prepare b).read ringHeader r.size = r.bytes := by
  obtain ⟨hk, hv, -, -⟩ := h.lens
  have hh : ∀ b', (b.write ringHeader (requestHeader r.op.op r.key.length r.val.length)) = b' →
      b'.read ringHeader sizeofRequest = requestHeader r.op.op r.key.length r.val.length := by
    rintro b' rfl
    simpa using Buf.read_write_self b ringHeader (requestHeader r.op.op r.key.length r.val.length)
  rw [Record.prepare, hk, hv, List.take_length, List.take_length, Record.size, Buf.read_add,
    Buf.read_add, Buf.read_write_of_disjoint (by omega), Buf.read_write_of_disjoint (by omega),
    hh _ rfl, Buf.read_write_of_disjoint (by omega), Buf.read_write_self,
    ← Nat.add_assoc, Buf.read_write_self, Record.bytes, List.append_assoc]

end

section
variable {r : Record} (h : r.Fits)
include h

theorem Record.Fits.lens :
    len16 r.key = r.key.length ∧ len16 r.val = r.val.length ∧
      r.metaLen = sizeofRequest + r.key.length ∧ r.totalLen = r.size := h.short.lens

/-- What `SendWrite` posts to the chunk: the bytes of the record. -/
theorem Record.Fits.read_prepare (b : Buf) :
    (r.prepare b).read ringHeader r.size = r.bytes := h.short.read_prepare b

end

/-- What `SendGet` and `SendDelete` post: the header and the key. -/
theorem read_prepareKey {key : Bytes} (h : 0 ∉ key) (op : Operation) (b : Buf) :
    (prepareKey op key b).read ringHeader (sizeofRequest + key.length) =
      requestHeader op key.length 0 ++ key := by
  have hh := Buf.read_write_self b ringHeader (requestHeader op key.length 0)
  rw [length_requestHeader] at hh
  rw [prepareKey, strlen_of_nulFree h, List.take_length, Buf.read_add,
    Buf.read_write_of_disjoint (by omega), hh, Buf.read_write_self]

/-- The `total_len` of a request without a value. -/
theorem keyLen {key : Bytes} (h0 : 0 ∉ key) (hl : sizeofRequest + key.length < 2 ^ 16) :
    (sizeofRequest + len16 key) % 2 ^ 16 = sizeofRequest + key.length := by
  rw [(take_len16 h0 (by omega)).1, Nat.mod_eq_of_lt hl]

theorem KeyFits.len16 {key : Bytes} (h : KeyFits key) :
    (sizeofRequest + len16 key) % 2 ^ 16 = sizeofRequest + key.length := by
  have hl := h.2
  simp only [maxRequest] at hl
  exact keyLen h.1 (by omega)

/-! ### Decoding -/

section
variable {b : Buf} {op : Operation} {k v : Nat} (hk : k < 2 ^ 24) (hv : v < 2 ^ 32)
  (h : b.read ringHeader sizeofRequest = requestHeader op k v)
include h

theorem header_words :
    ofLe (b.read ringHeader 4) = (op.code + 2 ^ 8 * (k % 2 ^ 24)) % 2 ^ 32 ∧
      ofLe (b.read (ringHeader + 4) 4) = v % 2 ^ 32 := by
  obtain ⟨h1, h2⟩ := Buf.read_eq_append h
  simp only [length_leBytes] at h1 h2
  rw [h1, h2, ofLe_leBytes, ofLe_leBytes]
  exact ⟨rfl, rfl⟩

theorem reqOp_of_header : reqOp b = some op := by
  have := op.code_lt
  rw [reqOp, (header_words h).1, show (op.code + 2 ^ 8 * (k % 2 ^ 24)) % 2 ^ 32 % 2 ^ 8 = op.code by
    omega, Operation.ofCode_code]

include hk in
theorem reqKeySize_of_header : reqKeySize b = k := by
  have := op.code_lt
  rw [reqKeySize, (header_words h).1]
  omega

include hv in
theorem reqValSize_of_header : reqValSize b = v := by
  rw [reqValSize, (header_words h).2, Nat.mod_eq_of_lt hv]

end

/-! ### Message buffers -/

/-- A message buffer holds a request: header and key. -/
def Asks (b : Buf) (op : Operation) (key : Bytes) (valSize : Nat) : Prop :=
  b.read ringHeader (sizeofRequest + key.length) = requestHeader op key.length valSize ++ key

/-- A message buffer holds a reply. -/
def Answers (b : Buf) (status : RequestStatus) (value : Bytes) : Prop :=
  b.read ringHeader (sizeofRequest + value.length) =
    leBytes 4 status.code ++ leBytes 4 value.length ++ value

namespace Asks

variable {b : Buf} {o : Operation} {s : Bytes} {v : Nat} (h : Asks b o s v)
include h

theorem header : b.read ringHeader sizeofRequest = requestHeader o s.length v := by
  have := (Buf.read_eq_append h).1
  rwa [length_requestHeader] at this

theorem op : reqOp b = some o := reqOp_of_header h.header

theorem keySize (hk : s.length < 2 ^ 24) : reqKeySize b = s.length :=
  reqKeySize_of_header hk h.header

theorem valSize (hv : v < 2 ^ 32) : reqValSize b = v := reqValSize_of_header hv h.header

theorem key (hk : s.length < 2 ^ 24) : reqKey b = s := by
  have := (Buf.read_eq_append h).2
  rw [length_requestHeader] at this
  rw [reqKey, h.keySize hk, this]

end Asks

namespace Answers

variable {b : Buf} {st : RequestStatus} {value : Bytes}

theorem setReply (b : Buf) (st : RequestStatus) (value : Bytes) :
    Answers (setReply b st value) st value := by
  have hl : (leBytes 4 st.code ++ leBytes 4 value.length ++ value).length =
      sizeofRequest + value.length := by simp [sizeofRequest]; omega
  rw [Answers, PMRAccess.setReply, ← hl, Buf.read_write_self]

/-- The fields of the reply. -/
theorem reply (h : Answers b st value) (hl : value.length < 2 ^ 32) :
    replyOk b = decide (st = .ok) ∧ replyValSize b = value.length ∧ replyValue b = value := by
  obtain ⟨h1, h2⟩ := Buf.read_eq_append h
  obtain ⟨h3, h4⟩ := Buf.read_eq_append (n := 8) (by simpa using h1)
  simp only [length_leBytes] at h2 h3 h4
  have hv : replyValSize b = value.length := by
    rw [replyValSize, h4, ofLe_leBytes, Nat.mod_eq_of_lt (by simpa using hl)]
  refine ⟨?_, hv, by rw [replyValue, hv]; simpa [sizeofRequest] using h2⟩
  rw [replyOk, h3, ofLe_leBytes]
  cases st <;> decide

/-- The reply posted to another message buffer. -/
theorem post (h : Answers b st value) (hl : value.length < 2 ^ 32) (b' : Buf) :
    Answers (b'.write ringHeader (b.read ringHeader (sizeofRequest + replyValSize b))) st value := by
  rw [(h.reply hl).2.1]
  have := Buf.read_write_self b' ringHeader (b.read ringHeader (sizeofRequest + value.length))
  rw [Buf.length_read] at this
  exact this.trans h

end Answers

/-- The `val_size` of a reply whose value is no longer than `n`. -/
theorem replyValSize_setReply_le {n : Nat} (hn : n < 2 ^ 32) (b : Buf) (st : RequestStatus)
    {value : Bytes} (hl : value.length ≤ n) : replyValSize (setReply b st value) ≤ n := by
  rw [((Answers.setReply b st value).reply (lt_of_le_of_lt hl hn)).2.1]
  exact hl

section
variable {r : Record} (h : r.Fits)
include h

theorem Record.Fits.bounds :
    r.key.length < 2 ^ 24 ∧ r.key.length < 2 ^ 31 ∧ r.val.length < 2 ^ 32 ∧
      r.size < maxAsyncSize := by
  have := h.size_le
  simp only [Record.size, sizeofRequest, ringHeader, maxRequest, maxAsyncSize] at *
  omega

/-- The request of a `SendWrite` in the clerk's message buffer. -/
theorem Record.Fits.asks {b : Buf} (hb : b.read ringHeader r.size = r.bytes) (b' : Buf) :
    Asks (b'.write ringHeader (b.read ringHeader r.metaLen)) r.op.op r.key r.val.length := by
  rw [Record.bytes, ← List.append_assoc] at hb
  have h1 := (Buf.read_eq_append hb).1
  rw [List.length_append, length_requestHeader] at h1
  have h2 := Buf.read_write_self b' ringHeader
    (requestHeader r.op.op r.key.length r.val.length ++ r.key)
  rw [List.length_append, length_requestHeader] at h2
  rw [Asks, h.lens.2.2.1, h1, h2]

theorem Record.Fits.length_of_asks {b : Buf} (hb : Asks b r.op.op r.key r.val.length) :
    reqLength b = r.size := by
  have h1 := h.bounds
  rw [reqLength, hb.keySize h1.1, hb.valSize h1.2.2.1, Nat.mod_eq_of_lt, Record.size]
  have := h1.2.2.2
  simp only [Record.size, maxAsyncSize] at this ⊢
  omega

end

theorem KeyFits.length_lt {key : Bytes} (h : KeyFits key) : key.length < 2 ^ 24 := by
  have := h.2
  simp only [ringHeader, sizeofRequest, maxRequest] at this
  omega

theorem recordSize_eq_zero {rs : List Record} (h : recordSize rs = 0) : rs = [] := by
  cases rs with
  | nil => rfl
  | cons r rs => have := r.size_pos; simp at h; omega

end PMRAccess
