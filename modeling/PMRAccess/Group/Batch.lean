import PMRAccess.Database

/-!
# The batch of the Group front end (`frontend/group/group.cc`)

`buildBatchGroup` copies the requests of the writers in the queue, one behind the other, into the
static `batch`, until the batch is full; the cut-off is tested behind the copy. A writer is given by
the message buffer its `request` points into. `taken` are the writers whose requests are in the
batch, and `Holds` says what the batch then holds: the keys, the values its metas stand for, and the
bytes of the requests, each list in the order of the queue.
-/

namespace PMRAccess.Group

open Lib

/-! ## Requests -/

/-- The requests that are logged. -/
inductive Req
  | write (r : Record)
  | delete (key : Bytes)
  deriving DecidableEq, Repr

namespace Req

def op : Req → Operation
  | write r => r.op.op
  | delete _ => .delete

def key : Req → Bytes
  | write r => r.key
  | delete key => key

/-- A `DELETE` has no value. -/
def val : Req → Bytes
  | write r => r.val
  | delete _ => []

variable (q : Req)

/-- The bytes of the request: header, key, value. -/
def bytes : Bytes := requestHeader q.op q.key.length q.val.length ++ (q.key ++ q.val)

def size : Nat := sizeofRequest + q.key.length + q.val.length

/-- Key and value are C strings, and the request fits the client's buffer of
`MAX_REQUEST + RING_HEADER` bytes. -/
def Fits : Prop :=
  0 ∉ q.key ∧ 0 ∉ q.val ∧ ringHeader + q.size ≤ maxRequest + ringHeader

instance : Decidable q.Fits :=
  inferInstanceAs (Decidable (0 ∉ q.key ∧ 0 ∉ q.val ∧ ringHeader + q.size ≤ maxRequest + ringHeader))

theorem length_bytes : q.bytes.length = q.size := by
  simp [bytes, size, Nat.add_assoc]

/-- The value lies behind the header and the key. -/
theorem drop_bytes : q.bytes.drop (sizeofRequest + q.key.length) = q.val := by
  rw [bytes, ← List.append_assoc]
  exact List.drop_left' (by simp)

end Req

/-- A message buffer holds the request. -/
def Bears (b : Buf) (q : Req) : Prop := b.read ringHeader q.size = q.bytes

section
variable {b : Buf} {q : Req}

theorem Bears.asks (h : Bears b q) : Asks b q.op q.key q.val.length := by
  have h' : b.read ringHeader q.size =
      (requestHeader q.op q.key.length q.val.length ++ q.key) ++ q.val := by
    rw [List.append_assoc]
    exact h
  have := (Buf.read_eq_append h').1
  rwa [List.length_append, length_requestHeader] at this

theorem Req.Fits.bounds (hq : q.Fits) :
    q.key.length < 2 ^ 24 ∧ q.val.length < 2 ^ 32 ∧ q.size ≤ maxRequest := by
  have := hq.2.2
  simp only [Req.size, maxRequest] at *
  omega

variable (h : Bears b q) (hq : q.Fits)
include h hq

theorem Bears.key : reqKey b = q.key := h.asks.key hq.bounds.1

theorem Bears.keySize : reqKeySize b = q.key.length := h.asks.keySize hq.bounds.1

theorem Bears.valSize : reqValSize b = q.val.length := h.asks.valSize hq.bounds.2.1

theorem Bears.length : reqLength b = q.size := by
  have hs := hq.bounds.2.2
  rw [reqLength, h.keySize hq, h.valSize hq]
  simp only [Req.size, maxRequest] at *
  omega

end

/-! ## The batch -/

structure WriteBatch where
  batchLength : Nat
  keys : List Bytes
  metas : List Meta
  buffer : Buf

namespace WriteBatch

/-- An empty batch; the buffer keeps its bytes. -/
def clear (b : WriteBatch) : WriteBatch := { b with batchLength := 0, keys := [], metas := [] }

/-- The request in the message buffer `r` goes into the batch. -/
def add (b : WriteBatch) (r : Buf) : WriteBatch where
  batchLength := b.batchLength + reqLength r
  keys := b.keys ++ [reqKey r]
  metas := b.metas ++ [Meta.ofFile 0 (b.batchLength + sizeofRequest) (reqKeySize r) (reqValSize r)]
  buffer := b.buffer.write b.batchLength (r.read ringHeader (reqLength r))

end WriteBatch

/-- What `BuildBatchGroup` leaves: the batch, `last_writer` (unset if the queue is empty), and the
ranges of the buffer, offset and length, that its `memcpy`s wrote. -/
structure Built (ι : Type*) where
  batch : WriteBatch
  lastWriter : Option ι
  copies : List (Nat × Nat)

section
variable {ι : Type*}

/-- The loop of `BuildBatchGroup` over the writers still ahead. -/
def buildLoop (s : Built ι) : List (ι × Buf) → Built ι
  | [] => s
  | (w, r) :: ws =>
    let s' : Built ι :=
      ⟨s.batch.add r, some w, s.copies ++ [(s.batch.batchLength, reqLength r)]⟩
    if s'.batch.batchLength ≥ maxAsyncSize then s' else buildLoop s' ws

def buildBatchGroup (batch : WriteBatch) (writersQueue : List (ι × Buf)) : Built ι :=
  buildLoop ⟨batch.clear, none, []⟩ writersQueue

/-- The writers whose requests the loop copies, `n` bytes into the batch. -/
def taken (n : Nat) : List (ι × Buf) → List (ι × Buf)
  | [] => []
  | w :: ws =>
    if n + reqLength w.2 ≥ maxAsyncSize then [w] else w :: taken (n + reqLength w.2) ws

/-- The bytes of the requests of a queue, together. -/
def queueLength (ws : List (ι × Buf)) : Nat := (ws.map fun w => reqLength w.2).sum

/-- The ranges of requests that are copied one behind the other from offset `n` on. -/
def copiesFrom (n : Nat) : List (ι × Buf) → List (Nat × Nat)
  | [] => []
  | w :: ws => (n, reqLength w.2) :: copiesFrom (n + reqLength w.2) ws

/-! ## What the loop does -/

theorem taken_front (n : Nat) (ws : List (ι × Buf)) : taken n ws <+: ws := by
  induction ws generalizing n with
  | nil => exact List.prefix_rfl
  | cons w ws ih =>
    unfold taken
    split
    · exact ⟨ws, rfl⟩
    · exact (List.prefix_cons_inj w).2 (ih _)

/-- The loop copies the requests of `taken`. -/
theorem buildLoop_eq (s : Built ι) (ws : List (ι × Buf)) :
    buildLoop s ws =
      ⟨((taken s.batch.batchLength ws).map (·.2)).foldl WriteBatch.add s.batch,
        (taken s.batch.batchLength ws).foldl (fun _ w => some w.1) s.lastWriter,
        s.copies ++ copiesFrom s.batch.batchLength (taken s.batch.batchLength ws)⟩ := by
  induction ws generalizing s with
  | nil => simp [buildLoop, taken, copiesFrom]
  | cons w ws ih =>
    simp only [buildLoop, taken]
    split
    · rename_i hfull
      rw [if_pos (by simpa [WriteBatch.add] using hfull)]
      rfl
    · rename_i hfull
      rw [if_neg (by simpa [WriteBatch.add] using hfull), ih]
      simp [WriteBatch.add, copiesFrom]

theorem buildBatchGroup_copies (b : WriteBatch) (ws : List (ι × Buf)) :
    (buildBatchGroup b ws).copies = copiesFrom 0 (taken 0 ws) := by
  rw [buildBatchGroup, buildLoop_eq]
  rfl

theorem foldl_last (ws : List (ι × Buf)) (o : Option ι) (h : ws ≠ []) :
    ws.foldl (fun _ w => some w.1) o = (ws.getLast?).map (·.1) := by
  induction ws generalizing o with
  | nil => exact absurd rfl h
  | cons w ws ih =>
    cases ws with
    | nil => rfl
    | cons w' ws => rw [List.foldl_cons, ih _ (by simp), List.getLast?_cons_cons]

/-- `last_writer` is the last of them. -/
theorem lastWriter_taken (b : WriteBatch) (ws : List (ι × Buf)) :
    (buildBatchGroup b ws).lastWriter = ((taken 0 ws).getLast?).map (·.1) := by
  rw [buildBatchGroup, buildLoop_eq]
  show (taken 0 ws).foldl (fun _ w => some w.1) none = _
  cases hts : taken 0 ws with
  | nil => rfl
  | cons w ts => exact foldl_last _ none (by simp)

theorem lastWriter_eq {b : WriteBatch} {ws : List (ι × Buf)} {last : ι}
    (h : (buildBatchGroup b ws).lastWriter = some last) :
    ((taken 0 ws).getLast?).map (·.1) = some last := by
  rw [← lastWriter_taken b, h]

end

/-! ## What the batch holds -/

/-- The batch holds the requests `qs` (module doc). -/
structure Holds (b : WriteBatch) (qs : List Req) : Prop where
  length : b.batchLength = (qs.map Req.size).sum
  keys : b.keys = qs.map Req.key
  vals : b.metas.map (Store.batchVal b.buffer) = qs.map Req.val
  ranges : ∀ m ∈ b.metas, m.fileOffset + m.keySize + m.valueSize ≤ b.batchLength
  bytes : b.buffer.read 0 b.batchLength = qs.flatMap Req.bytes

theorem holds_clear (b : WriteBatch) : Holds b.clear [] :=
  ⟨rfl, rfl, rfl, by simp [WriteBatch.clear], rfl⟩

/-- A value that lies below the batch's length stays when a request is added. -/
theorem batchVal_write {buf : Buf} {n : Nat} {m : Meta} (bs : Bytes)
    (h : m.fileOffset + m.keySize + m.valueSize ≤ n) :
    Store.batchVal (buf.write n bs) m = Store.batchVal buf m :=
  Buf.read_write_of_disjoint (.inl h)

/-- The meta of a request that is copied to offset `n` of the buffer. -/
theorem ofFile_request {n : Nat} {q : Req} (hn : n < maxAsyncSize) (hq : q.Fits) :
    Meta.ofFile 0 (n + sizeofRequest) q.key.length q.val.length =
      ⟨.fileaddr 0 (n + sizeofRequest), q.key.length, q.val.length⟩ := by
  have hk := hq.bounds.1
  simp only [maxAsyncSize, sizeofRequest] at *
  rw [Meta.ofFile, Nat.mod_eq_of_lt (by omega), Nat.mod_eq_of_lt (by omega)]

/-- Its value lies behind its header and its key. -/
theorem batchVal_request {n : Nat} {q : Req} (hn : n < maxAsyncSize) (hq : q.Fits) (buf : Buf) :
    Store.batchVal (buf.write n q.bytes)
      (Meta.ofFile 0 (n + sizeofRequest) q.key.length q.val.length) = q.val := by
  have hv : (buf.write n q.bytes).read (n + (sizeofRequest + q.key.length)) q.val.length =
      (q.bytes.drop (sizeofRequest + q.key.length)).take q.val.length :=
    Buf.read_write_sub (by rw [q.length_bytes]; exact Nat.le_of_eq rfl)
  rw [q.drop_bytes, List.take_length, ← Nat.add_assoc] at hv
  rw [ofFile_request hn hq]
  exact hv

theorem Holds.add {b : WriteBatch} {qs : List Req} {r : Buf} {q : Req} (h : Holds b qs)
    (hr : Bears r q) (hq : q.Fits) (hroom : b.batchLength < maxAsyncSize) :
    Holds (b.add r) (qs ++ [q]) := by
  have hread : r.read ringHeader (reqLength r) = q.bytes := by rw [hr.length hq]; exact hr
  have hval := batchVal_request hroom hq b.buffer
  rw [ofFile_request hroom hq] at hval
  have hmeta : Meta.ofFile 0 (b.batchLength + sizeofRequest) (reqKeySize r) (reqValSize r) =
      ⟨.fileaddr 0 (b.batchLength + sizeofRequest), q.key.length, q.val.length⟩ := by
    rw [hr.keySize hq, hr.valSize hq, ofFile_request hroom hq]
  have hw := Buf.read_write_self b.buffer b.batchLength q.bytes
  rw [q.length_bytes] at hw
  constructor
  case length => simp [WriteBatch.add, h.length, hr.length hq]
  case keys => simp [WriteBatch.add, h.keys, hr.key hq]
  case vals =>
    simp only [WriteBatch.add, List.map_append, List.map_cons, List.map_nil, hread, hmeta]
    congr 1
    · rw [← h.vals]
      exact List.map_congr_left fun m hm => batchVal_write _ (h.ranges m hm)
    · rw [hval]
  case ranges =>
    intro m hm
    simp only [WriteBatch.add, hmeta, List.mem_append, List.mem_singleton] at hm
    show _ ≤ b.batchLength + reqLength r
    rcases hm with hm | rfl
    · exact Nat.le_trans (h.ranges m hm) (Nat.le_add_right _ _)
    · rw [hr.length hq]
      simp only [Meta.fileOffset, Req.size]
      omega
  case bytes =>
    show (b.buffer.write b.batchLength (r.read ringHeader (reqLength r))).read 0
      (b.batchLength + reqLength r) = _
    rw [hread, hr.length hq, Buf.read_add, Buf.read_write_of_disjoint (by omega), h.bytes,
      Nat.zero_add, hw]
    simp

/-- The requests of a queue, in their writers' message buffers. -/
def BearAll {ι : Type*} (ws : List (ι × Buf)) (qs : List Req) : Prop :=
  List.Forall₂ (fun w q => Bears w.2 q ∧ q.Fits) ws qs

theorem holds_buildLoop {ι : Type*} {ws : List (ι × Buf)} {qs ps : List Req} {s : Built ι}
    (h : Holds s.batch ps) (hroom : s.batch.batchLength < maxAsyncSize) (hw : BearAll ws qs) :
    Holds (buildLoop s ws).batch (ps ++ qs.take (taken s.batch.batchLength ws).length) := by
  induction hw generalizing s ps with
  | nil => simpa [buildLoop, taken] using h
  | @cons w q ws qs hwq hws ih =>
    have hadd := h.add hwq.1 hwq.2 hroom
    simp only [buildLoop, taken]
    split
    · rename_i hfull
      rw [if_pos (by simpa [WriteBatch.add] using hfull)]
      simpa using hadd
    · rename_i hfull
      rw [if_neg (by simpa [WriteBatch.add] using hfull)]
      have := ih (s := ⟨s.batch.add w.2, some w.1,
        s.copies ++ [(s.batch.batchLength, reqLength w.2)]⟩) hadd (Nat.lt_of_not_le hfull)
      simpa [WriteBatch.add] using this

/-- **The batch holds the first requests of the queue**, up to the cut-off. -/
theorem holds_buildBatchGroup {ι : Type*} {ws : List (ι × Buf)} {qs : List Req} (b : WriteBatch)
    (hw : BearAll ws qs) :
    Holds (buildBatchGroup b ws).batch (qs.take (taken 0 ws).length) := by
  have := holds_buildLoop (s := ⟨b.clear, none, []⟩) (holds_clear b)
    (by simp [WriteBatch.clear, maxAsyncSize]) hw
  rwa [List.nil_append] at this

/-- The puts of the batch: each key with the value its meta stands for. -/
def WriteBatch.pairs (b : WriteBatch) : List (Bytes × Bytes) :=
  b.keys.zip (b.metas.map (Store.batchVal b.buffer))

/-- The single puts of a list of pairs. -/
def putPairs (db : Store) (kvs : List (Bytes × Bytes)) : Store :=
  kvs.foldl (fun db p => db.put p.1 p.2) db

theorem putBatch_eq_putPairs (db : Store) (b : WriteBatch) :
    db.putBatch b.keys b.metas b.buffer = putPairs db b.pairs := by
  rw [Store.putBatch, putPairs, WriteBatch.pairs, List.zip_map_right, List.foldl_map]
  rfl

def Req.pair (q : Req) : Bytes × Bytes := (q.key, q.val)

theorem Holds.pairs {b : WriteBatch} {qs : List Req} (h : Holds b qs) :
    b.pairs = qs.map Req.pair := by
  rw [WriteBatch.pairs, h.keys, h.vals, List.zip_map']
  rfl

/-! ## The bound of the buffer -/

section
variable {ι : Type*}

@[simp] theorem queueLength_cons (w : ι × Buf) (ws : List (ι × Buf)) :
    queueLength (w :: ws) = reqLength w.2 + queueLength ws := by simp [queueLength]

/-- `ts` are the shortest front of the queue whose requests are `MAX_ASYNC_SIZE` bytes or more
together, or all of it if there is none. -/
structure Cut (ws ts : List (ι × Buf)) : Prop where
  front : ts <+: ws
  shortest : ∀ ps, ps <+: ws → maxAsyncSize ≤ queueLength ps →
    maxAsyncSize ≤ queueLength ts ∧ ts <+: ps
  whole : (∀ ps, ps <+: ws → queueLength ps < maxAsyncSize) → ts = ws

theorem taken_shortest (ws : List (ι × Buf)) (n : Nat) (hn : n < maxAsyncSize)
    {ps : List (ι × Buf)} (hps : ps <+: ws) (hfull : maxAsyncSize ≤ n + queueLength ps) :
    maxAsyncSize ≤ n + queueLength (taken n ws) ∧ taken n ws <+: ps := by
  induction ws generalizing n ps with
  | nil =>
    rw [List.prefix_nil.1 hps] at hfull
    simp only [queueLength, List.map_nil, List.sum_nil, Nat.add_zero] at hfull
    omega
  | cons w ws ih =>
    cases ps with
    | nil =>
      simp only [queueLength, List.map_nil, List.sum_nil, Nat.add_zero] at hfull
      omega
    | cons w' ps =>
      obtain ⟨rfl, hps'⟩ := List.cons_prefix_cons.1 hps
      rw [queueLength_cons, ← Nat.add_assoc] at hfull
      unfold taken
      split
      · rename_i hcut
        rw [queueLength_cons, ← Nat.add_assoc]
        exact ⟨Nat.le_trans hcut (Nat.le_add_right _ _), ⟨ps, rfl⟩⟩
      · rename_i hcut
        obtain ⟨h1, h2⟩ := ih _ (Nat.lt_of_not_le hcut) hps' hfull
        rw [queueLength_cons, ← Nat.add_assoc]
        exact ⟨h1, (List.prefix_cons_inj w').2 h2⟩

theorem taken_whole (ws : List (ι × Buf)) (n : Nat)
    (h : ∀ ps, ps <+: ws → n + queueLength ps < maxAsyncSize) : taken n ws = ws := by
  induction ws generalizing n with
  | nil => rfl
  | cons w ws ih =>
    have hw := h [w] ⟨ws, rfl⟩
    rw [queueLength_cons] at hw
    simp only [queueLength, List.map_nil, List.sum_nil, Nat.add_zero] at hw
    unfold taken
    rw [if_neg (Nat.not_le_of_lt hw), ih]
    intro ps hps
    have := h (w :: ps) ((List.prefix_cons_inj w).2 hps)
    rwa [queueLength_cons, ← Nat.add_assoc] at this

theorem taken_cut (ws : List (ι × Buf)) : Cut ws (taken 0 ws) where
  front := taken_front 0 ws
  shortest ps hps hfull := by
    have := taken_shortest ws 0 (by decide) hps (by rwa [Nat.zero_add])
    rwa [Nat.zero_add] at this
  whole h := taken_whole ws 0 fun ps hps => by
    rw [Nat.zero_add]
    exact h ps hps

/-- The copies of the loop end below the limit, unless the one that reaches it goes beyond. -/
theorem copies_taken_le (ws : List (ι × Buf)) (n : Nat) (hn : n < maxAsyncSize) :
    (∀ p ∈ copiesFrom n (taken n ws), p.1 + p.2 ≤ maxAsyncSize) ↔
      n + queueLength ws ≤ maxAsyncSize ∨
        ∃ ps, ps <+: ws ∧ n + queueLength ps = maxAsyncSize := by
  induction ws generalizing n with
  | nil => simp [taken, copiesFrom, queueLength]; omega
  | cons w ws ih =>
    unfold taken
    split
    · rename_i hfull
      simp only [copiesFrom, List.mem_singleton, forall_eq, queueLength_cons]
      constructor
      · intro h
        exact .inr ⟨[w], ⟨ws, rfl⟩, by simp [queueLength]; omega⟩
      · rintro (h | ⟨ps, hps, h⟩)
        · omega
        · cases ps with
          | nil => simp [queueLength] at h; omega
          | cons w' ps =>
            obtain rfl := (List.cons_prefix_cons.1 hps).1
            rw [queueLength_cons] at h
            omega
    · rename_i hfull
      simp only [copiesFrom, List.forall_mem_cons, queueLength_cons, ← Nat.add_assoc]
      rw [ih _ (Nat.lt_of_not_le hfull)]
      constructor
      · rintro ⟨-, h | ⟨ps, hps, h⟩⟩
        · exact .inl h
        · exact .inr ⟨w :: ps, (List.prefix_cons_inj w).2 hps, by rw [queueLength_cons]; omega⟩
      · rintro (h | ⟨ps, hps, h⟩)
        · exact ⟨by omega, .inl h⟩
        · cases ps with
          | nil => simp [queueLength] at h; omega
          | cons w' ps =>
            obtain ⟨rfl, hps'⟩ := List.cons_prefix_cons.1 hps
            rw [queueLength_cons] at h
            exact ⟨by omega, .inr ⟨ps, hps', by omega⟩⟩

/-- **The batch buffer is large enough** exactly when the queued requests are no longer than
`MAX_ASYNC_SIZE` together, or some of them from the front on are exactly that long: only then no
copy of `BuildBatchGroup` ends behind the buffer. -/
theorem buildBatchGroup_copies_le (b : WriteBatch) (ws : List (ι × Buf)) :
    (∀ p ∈ (buildBatchGroup b ws).copies, p.1 + p.2 ≤ maxAsyncSize) ↔
      queueLength ws ≤ maxAsyncSize ∨ ∃ ps, ps <+: ws ∧ queueLength ps = maxAsyncSize := by
  have h := copies_taken_le ws 0 (by decide)
  simp only [Nat.zero_add] at h
  rw [buildBatchGroup_copies]
  exact h

/-- A message buffer with a `PUT` of one byte's key and a value of `n` bytes. -/
def putOf (n : Nat) : Buf := Buf.write (fun _ => 97) ringHeader (requestHeader .put 1 n)

/-- Eight requests of 4095 bytes and one of 4096: the last copy ends behind the buffer. -/
theorem buildBatchGroup_overrun :
    let ws := (List.range 8).map (·, putOf 4086) ++ [(8, putOf 4087)]
    (∀ w ∈ ws, reqLength w.2 ≤ maxRequest) ∧
      (32760, 4096) ∈ (buildBatchGroup ⟨0, [], [], fun _ => 0⟩ ws).copies ∧
      maxAsyncSize < 32760 + 4096 := by
  decide +kernel

end

end PMRAccess.Group
