import PMRAccess.Lib.Overlay
import PMRAccess.Group.Step
import PMRAccess.Pmem.Step
import PMRAccess.Pmr.Step

/-!
# The clerks' accesses to the message buffer (`frontend`)

`request` and `reply` of a clerk point to the same bytes of its message buffer. Here the body of
each clerk's loop, from the request to the posting of the reply, is a program over that buffer:
every field it reads or writes is one access, in the order of the source. What the clerk finds in
the state it shares with others is given to the program (`Shared`). `serve_steps` of each front end:
the steps of the model do what the program does.
-/

namespace PMRAccess

open Lib

/-! ## The fields -/

/-- The status for a result of `db_`. -/
def statusOf (ok : Bool) (failed : RequestStatus) : RequestStatus := if ok then .ok else failed

namespace Request

def op : Prog (Option Operation) := do
  let w ← Prog.read .input ringHeader 4
  return Operation.ofCode (ofLe w % 2 ^ 8)

def keySize : Prog Nat := do
  let w ← Prog.read .input ringHeader 4
  return ofLe w / 2 ^ 8

def valSize : Prog Nat := do
  let w ← Prog.read .input (ringHeader + 4) 4
  return ofLe w

/-- `n` bytes at `(char *)request + sizeof(Request) + o`. -/
def keyvalue (o n : Nat) : Prog Bytes := Prog.read .input (ringHeader + sizeofRequest + o) n

def length : Prog Nat := do
  let keySize ← keySize
  let valSize ← valSize
  return (sizeofRequest + keySize + valSize) % 2 ^ 32

end Request

namespace Reply

def setStatus (st : RequestStatus) : Prog Unit := Prog.write ringHeader (leBytes 4 st.code)

def setValSize (n : Nat) : Prog Unit := Prog.write (ringHeader + 4) (leBytes 4 n)

def setValue (bs : Bytes) : Prog Unit := Prog.write (ringHeader + sizeofRequest) bs

def valSize : Prog Nat := do
  let w ← Prog.read .output (ringHeader + 4) 4
  return ofLe w

/-- `OK` with a value of `size` bytes, which `memcpy` is asked to copy as the reply says. -/
def found (size : Nat) (copy : Nat → Bytes) : Prog Unit := do
  setStatus .ok
  setValSize size
  let n ← valSize
  setValue (copy n)

/-- A reply without a value: `status`, then `val_size`. -/
def bare (st : RequestStatus) : Prog Unit := do
  setStatus st
  setValSize 0

/-- The reply to a `GET` that asks `db_`. -/
def ofGet : Option Bytes → Prog Unit
  | some value => found value.length (value.take ·)
  | none => bare .notfound

/-- The bytes that are posted to the client. -/
def post : Prog Bytes := do
  let n ← valSize
  Prog.read .output ringHeader (sizeofRequest + n)

end Reply

section
variable (b : Buf)

@[simp] theorem Request.run_op :
    Request.op.run b = ⟨reqOp b, b, [.load .input ringHeader 4]⟩ := rfl

@[simp] theorem Request.run_keySize :
    Request.keySize.run b = ⟨reqKeySize b, b, [.load .input ringHeader 4]⟩ := rfl

@[simp] theorem Request.run_valSize :
    Request.valSize.run b = ⟨reqValSize b, b, [.load .input (ringHeader + 4) 4]⟩ := rfl

@[simp] theorem Request.run_keyvalue (o n : Nat) : (Request.keyvalue o n).run b =
    ⟨b.read (ringHeader + sizeofRequest + o) n, b,
      [.load .input (ringHeader + sizeofRequest + o) n]⟩ := rfl

theorem Request.read_key :
    b.read (ringHeader + sizeofRequest + 0) (reqKeySize b) = reqKey b := rfl

@[simp] theorem Request.run_length : Request.length.run b =
    ⟨reqLength b, b, [.load .input ringHeader 4, .load .input (ringHeader + 4) 4]⟩ := rfl

@[simp] theorem Reply.run_valSize :
    Reply.valSize.run b = ⟨replyValSize b, b, [.load .output (ringHeader + 4) 4]⟩ := rfl

@[simp] theorem Reply.run_post : Reply.post.run b =
    ⟨b.read ringHeader (sizeofRequest + replyValSize b), b,
      [.load .output (ringHeader + 4) 4,
        .load .output ringHeader (sizeofRequest + replyValSize b)]⟩ := rfl

@[simp] theorem Reply.run_setStatus (st : RequestStatus) : (Reply.setStatus st).run b =
    ⟨(), b.write ringHeader (leBytes 4 st.code), [.store ringHeader 4]⟩ := by
  simp [Reply.setStatus]

@[simp] theorem Reply.run_setValSize (n : Nat) : (Reply.setValSize n).run b =
    ⟨(), b.write (ringHeader + 4) (leBytes 4 n), [.store (ringHeader + 4) 4]⟩ := by
  simp [Reply.setValSize]

@[simp] theorem Reply.run_setValue (bs : Bytes) : (Reply.setValue bs).run b =
    ⟨(), b.write (ringHeader + sizeofRequest) bs,
      [.store (ringHeader + sizeofRequest) bs.length]⟩ := rfl

/-- The fields of a reply, one behind the other. -/
theorem setReply_eq (st : RequestStatus) (value : Bytes) :
    ((b.write ringHeader (leBytes 4 st.code)).write (ringHeader + 4) (leBytes 4 value.length)).write
      (ringHeader + sizeofRequest) value = setReply b st value := by
  have h1 := Buf.write_append b ringHeader (leBytes 4 st.code) (leBytes 4 value.length)
  have h2 := Buf.write_append b ringHeader (leBytes 4 st.code ++ leBytes 4 value.length) value
  simp only [length_leBytes, List.length_append] at h1 h2
  rw [h1]
  exact h2

theorem setReply_nil (st : RequestStatus) :
    (b.write ringHeader (leBytes 4 st.code)).write (ringHeader + 4) (leBytes 4 0) =
      setReply b st [] := by
  have h1 := Buf.write_append b ringHeader (leBytes 4 st.code) (leBytes 4 0)
  rw [length_leBytes] at h1
  rw [h1, setReply]
  simp

theorem replyValSize_write (n : Nat) :
    replyValSize (b.write (ringHeader + 4) (leBytes 4 n)) = n % 2 ^ 32 := by
  have h := Buf.read_write_self b (ringHeader + 4) (leBytes 4 n)
  rw [length_leBytes] at h
  rw [replyValSize, h, ofLe_leBytes, show 256 ^ 4 = 2 ^ 32 by decide]

theorem Reply.buf_bare (st : RequestStatus) : ((Reply.bare st).run b).buf = setReply b st [] := by
  simp [Reply.bare, setReply_nil]

theorem Reply.buf_found {size : Nat} {copy : Nat → Bytes} (h : size < 2 ^ 32)
    (hl : (copy size).length = size) :
    ((Reply.found size copy).run b).buf = setReply b .ok (copy size) := by
  have hs := setReply_eq b .ok (copy size)
  rw [hl] at hs
  simp only [Reply.found, Prog.run_bind, Reply.run_setStatus, Reply.run_setValSize,
    Reply.run_valSize, Reply.run_setValue, replyValSize_write, Nat.mod_eq_of_lt h]
  exact hs

/-- The message buffer with the reply to a `GET` that has found `v`. -/
def setGet (v : Option Bytes) : Buf :=
  match v with
  | some value => setReply b .ok value
  | none => setReply b .notfound []

theorem Reply.buf_value {value : Bytes} (h : value.length < 2 ^ 32) :
    ((Reply.found value.length (value.take ·)).run b).buf = setReply b .ok value := by
  rw [Reply.buf_found b h (by simp), List.take_length]

theorem Reply.buf_ofGet {v : Option Bytes} (h : ∀ value ∈ v, value.length < 2 ^ 32) :
    ((Reply.ofGet v).run b).buf = setGet b v := by
  cases v with
  | some value => exact Reply.buf_value b (h value rfl)
  | none => exact Reply.buf_bare b .notfound

end

/-! ## The PMR clerk -/

namespace Pmr

/-- What the clerk finds where it looks: the index, the chunk memory, the database, the bitmap. -/
structure Shared where
  find : Bytes → Option Meta
  mem : Buf
  get : Bytes → Option Bytes
  delete : Bytes → Bool
  allocChunk : Nat

/-- What the clerk takes out of a request; of a record its key, where the batch and the index say
the value is, and how far the cursor goes. -/
inductive Taken
  | put (key : Bytes) (m memIdx : Meta) (length : Nat)
  | get (key : Bytes)
  | delete (key : Bytes)
  | alloc
  | close
  | bad
  deriving DecidableEq, Repr

def Clerk.run (cl : Clerk) (sh : Shared) : Prog Taken := do
  let keySize ← Request.keySize
  match ← Request.op with
  | some .update | some .put =>
    let key ← Request.keyvalue 0 keySize
    let valSize ← Request.valSize
    let m := Meta.ofFile 0 (cl.bufHead + sizeofRequest) keySize valSize
    let valSize ← Request.valSize
    let memIdx := Meta.ofMem (cl.chunkOffset + cl.bufHead + sizeofRequest) keySize valSize
    let length ← Request.length
    Reply.bare .ok
    return .put key m memIdx length
  | some .get =>
    let key ← Request.keyvalue 0 keySize
    match sh.find key with
    | some memIdx => Reply.found memIdx.valueSize (sh.mem.read (memIdx.memAddr + keySize))
    | none => Reply.ofGet (sh.get key)
    return .get key
  | some .delete =>
    let key ← Request.keyvalue 0 keySize
    Reply.bare (statusOf (sh.delete key) .notfound)
    return .delete key
  | some .alloc =>
    Reply.setStatus .ok
    Reply.setValSize 4
    Reply.setValue (leBytes 4 (maxAsyncSize * sh.allocChunk % 2 ^ 32))
    return .alloc
  | some .close => return .close
  | none => return .bad

/-- What a `GET` finds. -/
def Shared.lookup (sh : Shared) (key : Bytes) : Option Bytes :=
  match sh.find key with
  | some m => some (sh.mem.read (m.memAddr + key.length) m.valueSize)
  | none => sh.get key

namespace Clerk

variable (cl : Clerk) (sh : Shared) {b : Buf}

theorem fresh_run (b : Buf) : Fresh ((cl.run sh).run b).log := by
  unfold Clerk.run
  simp only [Prog.run_bind, Request.run_keySize, Request.run_op]
  split
  · simp [Reply.bare, Fresh, FreshFrom]
  · simp [Reply.bare, Fresh, FreshFrom]
  · simp only [Prog.run_bind, Request.run_keyvalue]
    split
    · simp [Reply.found, Fresh, FreshFrom]
    · cases sh.get (b.read _ _) <;> simp [Reply.ofGet, Reply.found, Reply.bare, Fresh, FreshFrom]
  all_goals simp [Reply.bare, Fresh, FreshFrom]

theorem run_put (ho : reqOp b = some .put ∨ reqOp b = some .update) :
    ((cl.run sh).run b).result = .put (reqKey b)
        (Meta.ofFile 0 (cl.bufHead + sizeofRequest) (reqKeySize b) (reqValSize b))
        (Meta.ofMem (cl.chunkOffset + cl.bufHead + sizeofRequest) (reqKeySize b) (reqValSize b))
        (reqLength b) ∧
      ((cl.run sh).run b).buf = PMRAccess.setReply b .ok [] := by
  rcases ho with ho | ho <;>
    simp [Clerk.run, ho, Reply.buf_bare, reqKey]

theorem run_get (ho : reqOp b = some .get) :
    ((cl.run sh).run b).result = .get (reqKey b) ∧
      ((∀ v ∈ sh.lookup (reqKey b), v.length < 2 ^ 32) →
        ((cl.run sh).run b).buf = setGet b (sh.lookup (reqKey b))) := by
  have hlen : (reqKey b).length = reqKeySize b := by simp [reqKey]
  unfold Clerk.run Shared.lookup
  simp only [Prog.run_bind, Request.run_keySize, Request.run_op, ho, Request.run_keyvalue,
    Request.read_key, hlen]
  cases hf : sh.find (reqKey b) with
  | some m =>
    simp only [Prog.run_bind, Prog.run_pure, true_and]
    intro hv
    have hv' : m.valueSize < 2 ^ 32 := by simpa using hv _ rfl
    exact Reply.buf_found b hv' (Buf.length_read _ _ _)
  | none =>
    simp only [Prog.run_bind, Prog.run_pure, true_and]
    exact Reply.buf_ofGet b

theorem run_delete (ho : reqOp b = some .delete) :
    ((cl.run sh).run b).result = .delete (reqKey b) ∧
      ((cl.run sh).run b).buf =
        PMRAccess.setReply b (statusOf (sh.delete (reqKey b)) .notfound) [] := by
  simp [Clerk.run, ho, reqKey, Reply.buf_bare]

end Clerk

/-- **The steps of the PMR clerk**: what the program takes out of the request is what the clerk goes
on with, and the cursor and the reply of a `PUT` are those of the program. -/
theorem serve_steps (sv : Server) (k : Conn) (sh : Shared) :
    match ((k.clerk.run sh).run k.clerk.sendBuf).result with
    | .put key m memIdx n =>
      readStep sv k = (sv, { k with
        clerk := { k.clerk with
          keyBatch := k.clerk.keyBatch ++ [key], metas := k.clerk.metas ++ [m] },
        pc := .insert key memIdx }) ∧
      k.clerk.advance = { k.clerk with
        bufHead := (k.clerk.bufHead + n) % 2 ^ 32,
        sendBuf := ((k.clerk.run sh).run k.clerk.sendBuf).buf }
    | .get key => readStep sv k = (sv, { k with pc := .find key })
    | .delete key => readStep sv k = (sv, { k with pc := .dbDelete key })
    | .alloc => reqOp k.clerk.sendBuf = some .alloc ∧ ∀ slot, slot = sh.allocChunk →
      (k.clerk.takeChunk slot).sendBuf = ((k.clerk.run sh).run k.clerk.sendBuf).buf
    | .close => reqOp k.clerk.sendBuf = some .close
    | .bad => readStep sv k = ({ sv with aborted := true }, k) := by
  have hput (ho : reqOp k.clerk.sendBuf = some .put ∨ reqOp k.clerk.sendBuf = some .update) :=
    Clerk.run_put k.clerk sh ho
  cases ho : reqOp k.clerk.sendBuf with
  | none => simp [Clerk.run, ho, readStep]
  | some op =>
    cases op with
    | put =>
      obtain ⟨h1, h2⟩ := hput (.inl ho)
      rw [h1, h2]
      exact ⟨by simp only [readStep, ho, Clerk.emplace, Clerk.memIdx], rfl⟩
    | update =>
      obtain ⟨h1, h2⟩ := hput (.inr ho)
      rw [h1, h2]
      exact ⟨by simp only [readStep, ho, Clerk.emplace, Clerk.memIdx], rfl⟩
    | get =>
      rw [(Clerk.run_get k.clerk sh ho).1]
      simp only [readStep, ho]
    | delete =>
      rw [(Clerk.run_delete k.clerk sh ho).1]
      simp only [readStep, ho]
    | alloc =>
      have h := setReply_eq k.clerk.sendBuf .ok (leBytes 4 (maxAsyncSize * sh.allocChunk % 2 ^ 32))
      rw [length_leBytes] at h
      simp only [Clerk.run, Prog.run_bind, Request.run_keySize, Request.run_op, ho, Prog.run_pure,
        Reply.run_setStatus, Reply.run_setValSize, Reply.run_setValue, h]
      exact ⟨trivial, by rintro slot rfl; rfl⟩
    | close => simp [Clerk.run, ho]

end Pmr

/-! ## The PMem clerk -/

namespace Pmem

/-- The results of `db_`. -/
structure Shared where
  put : Bytes → Bytes → Bool
  get : Bytes → Option Bytes
  delete : Bytes → Bool

inductive Taken
  | put (key val : Bytes)
  | get (key : Bytes)
  | delete (key : Bytes)
  | close
  | bad
  deriving DecidableEq, Repr

def clerkRun (sh : Shared) : Prog Taken := do
  let keySize ← Request.keySize
  match ← Request.op with
  | some .update | some .put =>
    let key ← Request.keyvalue 0 keySize
    let valSize ← Request.valSize
    let val ← Request.keyvalue keySize valSize
    Reply.bare (statusOf (sh.put key val) .error)
    return .put key val
  | some .get =>
    let key ← Request.keyvalue 0 keySize
    Reply.ofGet (sh.get key)
    return .get key
  | some .delete =>
    let key ← Request.keyvalue 0 keySize
    Reply.bare (statusOf (sh.delete key) .notfound)
    return .delete key
  | some .close => return .close
  | some .alloc | none => return .bad

section
variable (sh : Shared) {b : Buf}

theorem fresh_clerkRun (b : Buf) : Fresh ((clerkRun sh).run b).log := by
  unfold clerkRun
  simp only [Prog.run_bind, Request.run_keySize, Request.run_op]
  split
  · simp [Reply.bare, Fresh, FreshFrom]
  · simp [Reply.bare, Fresh, FreshFrom]
  · simp only [Prog.run_bind, Request.run_keyvalue]
    cases sh.get (b.read _ _) <;> simp [Reply.ofGet, Reply.found, Reply.bare, Fresh, FreshFrom]
  all_goals simp [Reply.bare, Fresh, FreshFrom]

theorem run_put (ho : reqOp b = some .put ∨ reqOp b = some .update) :
    ((clerkRun sh).run b).result = .put (reqKey b) (reqVal b) ∧
      ((clerkRun sh).run b).buf =
        setReply b (statusOf (sh.put (reqKey b) (reqVal b)) .error) [] := by
  rcases ho with ho | ho <;> simp [clerkRun, ho, reqKey, reqVal, Reply.buf_bare]

theorem run_get (ho : reqOp b = some .get) :
    ((clerkRun sh).run b).result = .get (reqKey b) ∧
      ((∀ v ∈ sh.get (reqKey b), v.length < 2 ^ 32) →
        ((clerkRun sh).run b).buf = setGet b (sh.get (reqKey b))) := by
  unfold clerkRun
  simp only [Prog.run_bind, Request.run_keySize, Request.run_op, ho, Request.run_keyvalue,
    Request.read_key, Prog.run_pure]
  exact ⟨trivial, fun hv => Reply.buf_ofGet b hv⟩

theorem run_delete (ho : reqOp b = some .delete) :
    ((clerkRun sh).run b).result = .delete (reqKey b) ∧
      ((clerkRun sh).run b).buf =
        setReply b (statusOf (sh.delete (reqKey b)) .notfound) [] := by
  simp [clerkRun, ho, reqKey, Reply.buf_bare]

/-- **The steps of the PMem clerk** go on with what the program takes out of the request. -/
theorem serve_steps (sv : Server) (k : Conn) :
    match ((clerkRun sh).run k.clerkBuf).result with
    | .put key val => readStep sv k = (sv, { k with pc := .dbPut key val })
    | .get key => readStep sv k = (sv, { k with pc := .dbGet key })
    | .delete key => readStep sv k = (sv, { k with pc := .dbDelete key })
    | .close => readStep sv k = (sv, { k with pc := .done })
    | .bad => readStep sv k = ({ sv with exited := true }, k) := by
  cases ho : reqOp k.clerkBuf with
  | none => simp [clerkRun, ho, readStep]
  | some op =>
    cases op with
    | put => simp only [(run_put sh (.inl ho)).1, readStep, ho]
    | update => simp only [(run_put sh (.inr ho)).1, readStep, ho]
    | get => simp only [(run_get sh ho).1, readStep, ho]
    | delete => simp only [(run_delete sh ho).1, readStep, ho]
    | alloc | close => simp [clerkRun, ho, readStep]

end

end Pmem

/-! ## The Group clerk -/

namespace Group

/-- What the clerk finds: the value `db_` has for a key; for a logged request how long the batch is
when the request is copied into it, and whether another clerk did that. -/
structure Shared where
  get : Bytes → Option Bytes
  batchLength : Nat
  done : Bool
  room : batchLength < maxAsyncSize

/-- What is taken out of a request; of one that is logged, by `BuildBatchGroup`, its key, its meta
and its bytes. -/
inductive Taken
  | get (key : Bytes)
  | logged (key : Bytes) (m : Meta) (bytes : Bytes)
  | close
  deriving DecidableEq, Repr

/-- The loop of `BuildBatchGroup` at one request. -/
def copyRequest (batchLength : Nat) : Prog Taken := do
  let keySize ← Request.keySize
  let key ← Request.keyvalue 0 keySize
  let valSize ← Request.valSize
  let m := Meta.ofFile 0 (batchLength + sizeofRequest) keySize valSize
  let length ← Request.length
  let bytes ← Prog.read .input ringHeader length
  -- the length once more, for `batch_length`
  let _ ← Request.length
  return .logged key m bytes

def clerkRun (sh : Shared) : Prog Taken := do
  -- `total_len`, which nothing uses
  let _ ← Request.keySize
  let _ ← Request.valSize
  if (← Request.op) = some .close then return .close
  else if (← Request.op) = some .get then
    let keySize ← Request.keySize
    let key ← Request.keyvalue 0 keySize
    match sh.get key with
    | some value => Reply.found value.length (value.take ·)
    | none => Reply.setStatus .notfound
    return .get key
  else
    let taken ← copyRequest sh.batchLength
    -- a leader leaves the request as its reply
    if sh.done then Reply.bare .ok
    return taken

section
variable (sh : Shared) {b : Buf}

theorem fresh_clerkRun (b : Buf) : Fresh ((clerkRun sh).run b).log := by
  unfold clerkRun copyRequest
  by_cases hc : reqOp b = some .close
  · simp [hc, Fresh, FreshFrom]
  by_cases hg : reqOp b = some .get
  · simp only [Prog.run_bind, Request.run_keySize, Request.run_valSize, Request.run_op, hg,
      Option.some.injEq, reduceCtorEq, ↓reduceIte, Request.run_keyvalue]
    split
    · simp [Reply.found, Fresh, FreshFrom]
    · simp [Fresh, FreshFrom]
  · cases hd : sh.done <;> simp [hc, hg, Reply.bare, Fresh, FreshFrom]

theorem run_get (ho : reqOp b = some .get) :
    ((clerkRun sh).run b).result = .get (reqKey b) ∧
      ((∀ v ∈ sh.get (reqKey b), v.length < 2 ^ 32) →
        ((clerkRun sh).run b).buf =
          match sh.get (reqKey b) with
          | some value => setReply b .ok value
          | none => setStatus b .notfound) := by
  unfold clerkRun
  simp only [Prog.run_bind, Request.run_keySize, Request.run_valSize, Request.run_op, ho,
    Option.some.injEq, reduceCtorEq, ↓reduceIte, Request.run_keyvalue, Request.read_key]
  cases hg : sh.get (reqKey b) with
  | some value =>
    simp only [Prog.run_bind, Prog.run_pure, true_and]
    exact fun hv => Reply.buf_value b (hv value rfl)
  | none =>
    simp only [Prog.run_bind, Prog.run_pure, Reply.run_setStatus, true_and]
    exact fun _ => rfl

theorem run_logged (hc : reqOp b ≠ some .close) (hg : reqOp b ≠ some .get) :
    ((clerkRun sh).run b).result = .logged (reqKey b)
        (Meta.ofFile 0 (sh.batchLength + sizeofRequest) (reqKeySize b) (reqValSize b))
        (b.read ringHeader (reqLength b)) ∧
      ((clerkRun sh).run b).buf = if sh.done then setReply b .ok [] else b := by
  cases hd : sh.done <;> simp [clerkRun, copyRequest, hc, hg, hd, reqKey, Reply.buf_bare]

/-- **The steps of the Group clerk** go on with what the program takes out of the request, and
`BuildBatchGroup` puts what it takes out of a logged one into the batch. -/
theorem serve_steps (k : Conn) :
    match ((clerkRun sh).run k.clerkBuf).result with
    | .get key => k.read = { k with pc := .dbGet key }
    | .logged key m bytes =>
      k.read = { k with pc := .lock, done := false } ∧
        ∀ batch : WriteBatch, batch.batchLength = sh.batchLength →
          batch.add k.clerkBuf = ⟨batch.batchLength + bytes.length, batch.keys ++ [key],
            batch.metas ++ [m], batch.buffer.write batch.batchLength bytes⟩
    | .close => k.read = { k with pc := .done } := by
  by_cases hc : reqOp k.clerkBuf = some .close
  · simp [clerkRun, hc, Conn.read]
  by_cases hg : reqOp k.clerkBuf = some .get
  · simp only [(run_get sh hg).1, Conn.read, hg]
  · rw [(run_logged sh hc hg).1]
    refine ⟨?_, fun batch hb => ?_⟩
    · unfold Conn.read
      split
      · exact absurd ‹_› hc
      · exact absurd ‹_› hg
      · rfl
    · rw [← hb, Buf.length_read]
      rfl

end

end Group

end PMRAccess
