import PMRAccess.Pmr.Proof.Own

/-!
# Client and clerk agree on the cursor

`Sync rs hs k`: with `rs` the records posted to the chunk and `hs` those of them the clerk has
indexed, the connection `k` is in one of the phases of `Phase`. Between two requests (`Settled`)
both cursors stand behind the records and the clerk's batch describes them; inside a request the
phase says how far the two have come and what the message buffers hold. `sync_move`: every move of a
connection keeps `Sync`, with the records its events add.
-/

namespace PMRAccess.Pmr

open Lib

/-! ## Phases -/

/-- The clerk's batch and cursor describe the records. -/
structure Batch (cl : Clerk) (rs : List Record) : Prop where
  keys : cl.keyBatch = rs.map Record.key
  metas : cl.metas = metasFrom 0 rs
  head : cl.bufHead = recordSize rs

/-- The client's cursor stands in the clerk's chunk, `n` bytes in. -/
structure Cursor (k : Conn) (n : Nat) : Prop where
  off : k.client.chunkOffset = k.clerk.chunkOffset
  head : k.client.bufHead = n

/-- Everything posted is indexed and both sides know it. -/
structure Settled (rs hs : List Record) (k : Conn) : Prop where
  all : hs = rs
  batch : Batch k.clerk rs
  cursor : Cursor k (recordSize rs)

/-- The record a `SendAlloc` is sent for. -/
def NextFits (next : Option Record) : Prop := ∀ r ∈ next, r.Fits

/-- The clerk polls: between two calls, before a record is posted, or with the reply delivered. -/
def PollPhase (rs hs : List Record) (k : Conn) : Prop :=
  match k.ctl with
  | .idle | .write _ | .get _ | .delete _ => Settled rs hs k
  | .post r =>
    Settled rs hs k ∧ r.Fits ∧ recordSize rs + r.size < maxAsyncSize ∧
      k.client.localBuf.read ringHeader r.size = r.bytes
  | .alloc next =>
    rs = [] ∧ hs = [] ∧ Batch k.clerk [] ∧
      Answers k.client.localBuf .ok (leBytes 4 k.clerk.chunkOffset) ∧ NextFits next
  | .close => False

/-- A request is in the clerk's message buffer. -/
def ReadPhase (rs hs : List Record) (k : Conn) : Prop :=
  match k.ctl with
  | .write r =>
    rs = hs ++ [r] ∧ Batch k.clerk hs ∧ Cursor k (recordSize rs) ∧
      Asks k.clerk.sendBuf r.op.op r.key r.val.length
  | .get key => Settled rs hs k ∧ KeyFits key ∧ Asks k.clerk.sendBuf .get key 0
  | .delete key => Settled rs hs k ∧ KeyFits key ∧ Asks k.clerk.sendBuf .delete key 0
  | .alloc next =>
    hs = rs ∧ NextFits next ∧ Asks k.clerk.sendBuf .alloc [] 0 ∧
      ((k.clerk.chunkOffset < uint32Max ∧ Batch k.clerk rs) ∨
        (k.clerk.chunkOffset = uint32Max ∧ rs = [] ∧ k.clerk.keyBatch = [] ∧ k.clerk.metas = []))
  | .close => hs = rs ∧ Batch k.clerk rs ∧ Asks k.clerk.sendBuf .close [] 0
  | .idle | .post _ => False

/-- The clerk has the record in its batch and not yet in the index. -/
structure InsertPhase (rs hs : List Record) (k : Conn) (key : Bytes) (m : Meta) (r : Record) :
    Prop where
  ctl : k.ctl = .write r
  last : rs = hs ++ [r]
  keys : k.clerk.keyBatch = rs.map Record.key
  metas : k.clerk.metas = metasFrom 0 rs
  head : k.clerk.bufHead = recordSize hs
  cursor : Cursor k (recordSize rs)
  asks : Asks k.clerk.sendBuf r.op.op r.key r.val.length
  key_eq : key = r.key
  meta_eq : m = Meta.ofMem (k.clerk.chunkOffset + recordSize hs + sizeofRequest) r.key.length
    r.val.length

/-- The reply is in the clerk's message buffer. -/
def ReplyPhase (rs hs : List Record) (k : Conn) : Prop :=
  match k.ctl with
  | .write _ | .get _ | .delete _ => Settled rs hs k
  | .alloc next =>
    rs = [] ∧ hs = [] ∧ Batch k.clerk [] ∧
      Answers k.clerk.sendBuf .ok (leBytes 4 k.clerk.chunkOffset) ∧ NextFits next
  | .idle | .post _ | .close => False

/-- The client waits for the flush of an `ALLOC` or a `CLOSE`. -/
def FlushCtl (closing : Bool) (ctl : Ctl) : Prop :=
  if closing then ctl = .close else ∃ next, ctl = .alloc next ∧ NextFits next

def Phase (rs hs : List Record) (k : Conn) : Prop :=
  match k.pc with
  | .poll => PollPhase rs hs k
  | .read => ReadPhase rs hs k
  | .insert key m => ∃ r, InsertPhase rs hs k key m r
  | .find key | .copy key _ | .dbGet key => k.ctl = .get key ∧ Settled rs hs k
  | .dbDelete key => k.ctl = .delete key ∧ Settled rs hs k
  | .putBatch closing _ | .erase closing _ _ =>
    hs = rs ∧ Batch k.clerk rs ∧ FlushCtl closing k.ctl
  | .scan _ | .trySet _ =>
    rs = [] ∧ hs = [] ∧ k.clerk.keyBatch = [] ∧ k.clerk.metas = [] ∧ FlushCtl false k.ctl
  | .reply => ReplyPhase rs hs k
  | .done => rs = [] ∧ hs = [] ∧ k.clerk.keyBatch = [] ∧ k.ctl = .close

/-- A connection and the records of its chunk (module doc). -/
structure Sync (rs hs : List Record) (k : Conn) : Prop where
  bound : recordSize rs < maxAsyncSize
  fits : ∀ r ∈ rs, r.Fits
  phase : Phase rs hs k

/-! ## Single phases -/

section
variable {rs hs : List Record} {k : Conn}

theorem Phase.of_poll (h : Phase rs hs k) (hp : k.pc = .poll) : PollPhase rs hs k := by
  simpa [Phase, hp] using h

theorem Phase.of_read (h : Phase rs hs k) (hp : k.pc = .read) : ReadPhase rs hs k := by
  simpa [Phase, hp] using h

/-- Between two calls. -/
theorem Sync.settled (h : Sync rs hs k) (hc : k.ctl = .idle) (hp : k.pc = .poll) :
    Settled rs hs k := by
  simpa [PollPhase, hc] using h.phase.of_poll hp

/-- The record the clerk is about to index, and the event of it. -/
theorem Sync.of_insert (h : Sync rs hs k) {key : Bytes} {m : Meta} (hp : k.pc = .insert key m) :
    ∃ r, InsertPhase rs hs k key m r ∧ ∀ c, k.ctl.handled c = [.handled c r] := by
  have hph := h.phase
  simp only [Phase, hp] at hph
  obtain ⟨r, hi⟩ := hph
  exact ⟨r, hi, fun c => by rw [hi.ctl]; rfl⟩

/-- In the flush loop the batch describes the whole chunk. -/
theorem Sync.of_erase (h : Sync rs hs k) {closing : Bool} {tmp : Buf} {j : Nat}
    (hp : k.pc = .erase closing tmp j) : hs = rs ∧ Batch k.clerk rs ∧ FlushCtl closing k.ctl := by
  simpa only [Phase, hp] using h.phase

/-- What the clerk has indexed is in the chunk and in its batch. -/
theorem Sync.indexed (h : Sync rs hs k) :
    hs <+: rs ∧ hs.map Record.key <+: k.clerk.keyBatch := by
  have hall : hs = rs → Batch k.clerk rs → hs <+: rs ∧ hs.map Record.key <+: k.clerk.keyBatch := by
    rintro rfl hb
    rw [hb.keys]
    exact ⟨List.prefix_rfl, List.prefix_rfl⟩
  have hnil : hs = [] → hs <+: rs ∧ hs.map Record.key <+: k.clerk.keyBatch := by
    rintro rfl
    exact ⟨List.nil_prefix, List.nil_prefix⟩
  have hph := h.phase
  unfold Phase at hph
  split at hph
  · unfold PollPhase at hph
    split at hph
    iterate 4 exact hall hph.all hph.batch
    · exact hall hph.1.all hph.1.batch
    · exact hnil hph.2.1
    · exact hph.elim
  · unfold ReadPhase at hph
    split at hph
    · rw [hph.2.1.keys]
      exact ⟨⟨_, hph.1.symm⟩, List.prefix_rfl⟩
    iterate 2 exact hall hph.1.all hph.1.batch
    · rcases hph.2.2.2 with ⟨-, hb⟩ | ⟨-, hr, -⟩
      · exact hall hph.1 hb
      · exact hnil (hph.1.trans hr)
    · exact hall hph.1 hph.2.1
    iterate 2 exact hph.elim
  · -- the batch is one record ahead of the index
    obtain ⟨r, hi⟩ := hph
    rw [hi.keys, hi.last, List.map_append]
    exact ⟨List.prefix_append _ _, List.prefix_append _ _⟩
  iterate 4 exact hall hph.2.all hph.2.batch
  iterate 2 exact hall hph.1 hph.2.1
  iterate 2 exact hnil hph.2.1
  · unfold ReplyPhase at hph
    split at hph
    iterate 3 exact hall hph.all hph.batch
    · exact hnil hph.2.1
    iterate 3 exact hph.elim
  · exact hnil hph.2.1

theorem Sync.mem_keyBatch (h : Sync rs hs k) {key : Bytes} (hkey : key ∈ hs.map Record.key) :
    key ∈ k.clerk.keyBatch :=
  h.indexed.2.subset hkey

/-- The client's operation for each of the requests it can wait for. -/
def Ctl.op : Ctl → Option Operation
  | .write r => some r.op.op
  | .get _ => some .get
  | .delete _ => some .delete
  | .alloc _ => some .alloc
  | .close => some .close
  | .idle | .post _ => none

/-- The call behind an operation. -/
theorem Ctl.of_op {ctl : Ctl} {op : Operation} (h : ctl.op = some op) :
    match op with
    | .put | .update => ∃ r, ctl = .write r
    | .get => ∃ key, ctl = .get key
    | .delete => ∃ key, ctl = .delete key
    | .alloc => ∃ next, ctl = .alloc next
    | .close => ctl = .close := by
  unfold Ctl.op at h
  split at h
  · rename_i r
    cases hr : r.op <;> simp only [hr, WriteOp.op, Option.some.injEq] at h <;> subst h <;>
      exact ⟨r, rfl⟩
  iterate 3 · cases h; exact ⟨_, rfl⟩
  · cases h; rfl
  iterate 2 · cases h

/-- The clerk reads the operation the client sent. -/
theorem ReadPhase.op_eq (h : ReadPhase rs hs k) : reqOp k.clerk.sendBuf = k.ctl.op := by
  unfold ReadPhase at h
  unfold Ctl.op
  split at h
  · exact h.2.2.2.op
  · exact h.2.2.op
  · exact h.2.2.op
  · exact h.2.2.1.op
  · exact h.2.2.op
  iterate 2 exact h.elim

/-- A request without a record leaves the batch alone. -/
theorem Batch.request (h : Batch k.clerk rs) (op : Operation) (key : Bytes) (ctl : Ctl) :
    Batch (k.request op key ctl).clerk rs := ⟨h.keys, h.metas, h.head⟩

theorem Settled.request (h : Settled rs hs k) (op : Operation) (key : Bytes) (ctl : Ctl) :
    Settled rs hs (k.request op key ctl) :=
  ⟨h.all, h.batch.request op key ctl, h.cursor.off, h.cursor.head⟩

/-- An `ALLOC` or a `CLOSE` between two calls. -/
theorem phase_alloc {next : Option Record} (h : Settled rs hs k) (hn : NextFits next)
    (hoff : k.clerk.chunkOffset < uint32Max) :
    Phase rs hs (k.request .alloc [] (.alloc next)) :=
  ⟨h.all, hn, read_request (by decide) k .alloc _, .inl ⟨hoff, h.batch.request _ _ _⟩⟩

/-- The chunk in the reply reaches the client's cursor. -/
theorem takeChunk_eq {cl : Client} {off : Nat} (h : Answers cl.localBuf .ok (leBytes 4 off))
    (hoff : off < 2 ^ 32) : cl.takeChunk = { cl with chunkOffset := off, bufHead := 0 } := by
  obtain ⟨h1, h2, h3⟩ := h.reply (by simp)
  rw [length_leBytes] at h2
  rw [replyValue, h2] at h3
  rw [Client.takeChunk, h1, h3, ofLe_leBytes]
  simp only [decide_true, ↓reduceIte]
  rw [Nat.mod_eq_of_lt (by simpa using hoff)]

end

/-! ## Moves -/

section
variable {h : History} {sv sv' : Server} {c : Nat} {k k' : Conn} {a : Act} {es : List Event}

theorem sync_call {x : Call} (ho : ConnOwn k) (hx : x.Fits)
    (hs : Sync (h.chunk c) (h.indexed c) k) (hm : Move sv c k (.call x) sv' k' es) :
    Sync (h.chunk c) (h.indexed c) k' ∧ es = [] := by
  have hoff : k.pc = .poll → k.clerk.chunkOffset < uint32Max :=
    fun hp => ho.offset_lt (by simp [hp]) (by simp [hp]) (by simp [hp])
  cases hm with
  | @callPost r hc hp hroom =>
    have hset := hs.settled hc hp
    have hx : r.Fits := hx
    refine ⟨⟨hs.bound, hs.fits, ?_⟩, rfl⟩
    have hb := hs.bound
    have hsz := hx.bounds.2.2.2
    rw [hset.cursor.head, hx.lens.2.2.2] at hroom
    simp only [Phase, Conn.prepare, hp, PollPhase]
    refine ⟨⟨hset.all, ⟨hset.batch.keys, hset.batch.metas, hset.batch.head⟩, hset.cursor.off,
      hset.cursor.head⟩, hx, ?_, hx.read_prepare _⟩
    simp only [maxAsyncSize] at *
    omega
  | @callFull r hc hp hfull =>
    have hx : r.Fits := hx
    exact ⟨⟨hs.bound, hs.fits, phase_alloc (hs.settled hc hp) (by simpa [NextFits] using hx)
      (hoff hp)⟩, rfl⟩
  | @callGet key hc hp =>
    exact ⟨⟨hs.bound, hs.fits, (hs.settled hc hp).request _ _ _, hx,
      read_request hx k .get _⟩, rfl⟩
  | @callDelete key hc hp =>
    exact ⟨⟨hs.bound, hs.fits, (hs.settled hc hp).request _ _ _, hx,
      read_request hx k .delete _⟩, rfl⟩
  | callAlloc hc hp =>
    exact ⟨⟨hs.bound, hs.fits, phase_alloc (hs.settled hc hp) (by simp [NextFits]) (hoff hp)⟩, rfl⟩
  | callClose hc hp =>
    have hset := hs.settled hc hp
    exact ⟨⟨hs.bound, hs.fits, hset.all, hset.batch.request _ _ _,
      read_request (by decide) k .close _⟩, rfl⟩

theorem sync_client (ho : ConnOwn k) (hs : Sync (h.chunk c) (h.indexed c) k)
    (hm : Move sv c k .client sv' k' es) :
    Sync ((h.addAll es).chunk c) ((h.addAll es).indexed c) k' := by
  have hoff : k.clerk.chunkOffset < 2 ^ 32 := by
    rcases ho.off with h | ⟨i, hi, h⟩
    · rw [h]; decide
    · have := (chunk_offset hi).1
      simp only [uint32Max] at this
      omega
  cases hm with
  | @post r hc hp =>
    have hph := hs.phase.of_poll hp
    simp only [PollPhase, hc] at hph
    obtain ⟨hset, hr, hroom, hb⟩ := hph
    have hrs : (h.addAll [.wrote c r]).chunk c = h.chunk c ++ [r] := by simp [History.add]
    rw [hrs]
    refine ⟨by simpa using hroom, ?_, ?_⟩
    · intro r' hr'
      rcases List.mem_append.1 hr' with h' | h'
      · exact hs.fits r' h'
      · rw [List.mem_singleton.1 h']; exact hr
    · refine ⟨by simp [History.add, hset.all], ?_, ⟨hset.cursor.off, ?_⟩, hr.asks hb _⟩
      · simp only [History.addAll_single, History.add, hset.all]
        exact ⟨hset.batch.keys, hset.batch.metas, hset.batch.head⟩
      · simp only [Conn.postRecord, hset.cursor.head, hr.lens.2.2.2, recordSize_append,
          recordSize_cons, recordSize_nil, Nat.add_zero]
        apply Nat.mod_eq_of_lt
        simp only [maxAsyncSize] at hroom
        omega
  | allocEnd hc hp =>
    have hph := hs.phase.of_poll hp
    simp only [PollPhase, hc] at hph
    obtain ⟨hr, hh, hb, hans, -⟩ := hph
    refine ⟨hs.bound, hs.fits, ?_⟩
    simp only [History.addAll_nil, Phase, hp, PollPhase, takeChunk_eq hans hoff, hr, hh]
    exact ⟨rfl, hb, rfl, rfl⟩
  | @allocNext r hc hp =>
    have hph := hs.phase.of_poll hp
    simp only [PollPhase, hc] at hph
    obtain ⟨hr, hh, hb, hans, hn⟩ := hph
    have hrf : r.Fits := hn r rfl
    refine ⟨hs.bound, hs.fits, ?_⟩
    simp only [History.addAll_nil, Phase, Conn.prepare, hp, PollPhase, takeChunk_eq hans hoff, hr,
      hh, recordSize_nil, Nat.zero_add]
    exact ⟨⟨rfl, hb, rfl, rfl⟩, hrf, hrf.bounds.2.2.2, hrf.read_prepare _⟩
  | ack hc hp | got hc hp | deleted hc hp =>
    have hph := hs.phase.of_poll hp
    simp only [PollPhase, hc] at hph
    refine ⟨hs.bound, hs.fits, ?_⟩
    simp only [Phase, hp]
    exact ⟨hph.all, hph.batch, hph.cursor.off, hph.cursor.head⟩

/-- The clerk reads a `PUT` or `UPDATE`: the batch grows by the record. -/
theorem sync_readPut (hs : Sync (h.chunk c) (h.indexed c) k) (hp : k.pc = .read)
    (ho : reqOp k.clerk.sendBuf = some .put ∨ reqOp k.clerk.sendBuf = some .update) :
    Sync (h.chunk c) (h.indexed c)
      { k with clerk := k.clerk.emplace, pc := .insert (reqKey k.clerk.sendBuf) k.clerk.memIdx } := by
  have hph := hs.phase.of_read hp
  rw [hph.op_eq] at ho
  obtain ⟨r, hc⟩ : ∃ r, k.ctl = .write r := ho.elim Ctl.of_op Ctl.of_op
  simp only [ReadPhase, hc] at hph
  obtain ⟨hr, hb, hcur, hask⟩ := hph
  have hf : r.Fits := hs.fits r (by simp [hr])
  have hbd := hf.bounds
  refine ⟨hs.bound, hs.fits, r, hc, hr, ?_, ?_, hb.head, ⟨hcur.off, hcur.head⟩, hask, hask.key hbd.1,
    ?_⟩
  · simp [Clerk.emplace, hb.keys, hask.key hbd.1, hr]
  · simp [Clerk.emplace, hb.metas, hb.head, hask.keySize hbd.1, hask.valSize hbd.2.2.1, hr,
      metasFrom_append, metasFrom]
  · simp [Clerk.memIdx, Clerk.emplace, hb.head, hask.keySize hbd.1, hask.valSize hbd.2.2.1]

theorem sync_read {b : Bool} (hs : Sync (h.chunk c) (h.indexed c) k) (hp : k.pc = .read)
    (hm : Move sv c k (.clerk b) sv' k' es) :
    Sync ((h.addAll es).chunk c) ((h.addAll es).indexed c) k' := by
  have hph := hs.phase.of_read hp
  have hop := hph.op_eq
  cases hm
  case readPut ho => exact sync_readPut hs hp ho
  case readGet ho | readDelete ho =>
    obtain ⟨key, hc⟩ := Ctl.of_op (hop.symm.trans ho)
    simp only [ReadPhase, hc] at hph
    obtain ⟨hset, hk, hask⟩ := hph
    refine ⟨hs.bound, hs.fits, ?_⟩
    simp only [Phase, hask.key hk.length_lt]
    exact ⟨hc, hset.all, hset.batch, hset.cursor.off, hset.cursor.head⟩
  case readAlloc ho hoff =>
    obtain ⟨next, hc⟩ := Ctl.of_op (hop.symm.trans ho)
    simp only [ReadPhase, hc] at hph
    obtain ⟨hall, hn, -, ⟨-, hb⟩ | ⟨h', -⟩⟩ := hph
    · exact ⟨hs.bound, hs.fits, hall, hb, next, hc, hn⟩
    · omega
  case readFirst ho hoff =>
    obtain ⟨next, hc⟩ := Ctl.of_op (hop.symm.trans ho)
    simp only [ReadPhase, hc] at hph
    obtain ⟨hall, hn, -, ⟨h', -⟩ | ⟨-, hr, hkb, hms⟩⟩ := hph
    · exact absurd h' hoff
    · exact ⟨hs.bound, hs.fits, hr, hall.trans hr, hkb, hms, next, hc, hn⟩
  case readClose ho hh =>
    have hc : k.ctl = .close := Ctl.of_op (hop.symm.trans ho)
    simp only [ReadPhase, hc] at hph
    exact ⟨hs.bound, hs.fits, hph.1, hph.2.1, hc⟩
  case readCloseEmpty ho hh =>
    have hc : k.ctl = .close := Ctl.of_op (hop.symm.trans ho)
    simp only [ReadPhase, hc] at hph
    have hnil : h.chunk c = [] := recordSize_eq_zero (hph.2.1.head.symm.trans hh)
    exact ⟨hs.bound, hs.fits, hnil, hph.1.trans hnil, rfl, hc⟩
  case readBad ho => exact hs
  all_goals simp_all

/-- The clerk indexes the record. -/
theorem sync_insert {key : Bytes} {m : Meta} (hs : Sync (h.chunk c) (h.indexed c) k)
    (hp : k.pc = .insert key m) :
    ∃ r, k.ctl.handled c = [.handled c r] ∧
      Sync ((h.add (.handled c r)).chunk c) ((h.add (.handled c r)).indexed c)
        { k with clerk := k.clerk.advance, pc := .reply } := by
  obtain ⟨r, hi, hev⟩ := hs.of_insert hp
  refine ⟨r, hev c, hs.bound, hs.fits, ?_⟩
  have hf : r.Fits := hs.fits r (by simp [hi.last])
  have hb := hs.bound
  have hsz : recordSize (h.chunk c) = recordSize (h.indexed c) + r.size := by simp [hi.last]
  simp only [Phase, ReplyPhase, hi.ctl]
  refine ⟨by simp [History.add, hi.last], ⟨hi.keys, hi.metas, ?_⟩, hi.cursor.off, hi.cursor.head⟩
  simp only [Clerk.advance, hi.head, hf.length_of_asks hi.asks, History.add, hsz]
  apply Nat.mod_eq_of_lt
  simp only [maxAsyncSize] at hb
  omega

theorem sync_clerk {b : Bool} (hs : Sync (h.chunk c) (h.indexed c) k) (hp : k.pc ≠ .read)
    (hm : Move sv c k (.clerk b) sv' k' es) :
    Sync ((h.addAll es).chunk c) ((h.addAll es).indexed c) k' := by
  have hph := hs.phase
  cases hm
  case insert key m hp' =>
    obtain ⟨r, hev, hs'⟩ := sync_insert hs hp'
    rw [hev]
    exact hs'
  case findHit hp' _ | findMiss hp' _ =>
    simp only [Phase, hp'] at hph
    obtain ⟨hc, hset⟩ := hph
    exact ⟨hs.bound, hs.fits, hc, hset.all, hset.batch, hset.cursor.off, hset.cursor.head⟩
  case copy hp' | dbHit hp' _ | dbMiss hp' _ | dbDelete hp' =>
    simp only [Phase, hp'] at hph
    obtain ⟨hc, hset⟩ := hph
    refine ⟨hs.bound, hs.fits, ?_⟩
    simp only [Phase, ReplyPhase, hc]
    exact ⟨hset.all, ⟨hset.batch.keys, hset.batch.metas, hset.batch.head⟩, hset.cursor.off,
      hset.cursor.head⟩
  case putBatch hp' | erase hp' _ =>
    simp only [Phase, hp'] at hph
    exact ⟨hs.bound, hs.fits, hph⟩
  case enqueue closing tmp i hp' hk =>
    obtain ⟨-, -, hc⟩ := hs.of_erase hp'
    cases closing with
    | false =>
      refine ⟨by simp [History.add, maxAsyncSize], by simp [History.add], ?_⟩
      simp only [Phase, Bool.false_eq_true, ↓reduceIte]
      exact ⟨by simp [History.add], by simp [History.add], rfl, rfl, hc⟩
    | true =>
      refine ⟨by simp [History.add, maxAsyncSize], by simp [History.add], ?_⟩
      simp only [Phase, ↓reduceIte]
      exact ⟨by simp [History.add], by simp [History.add], rfl, hc⟩
  case scan pc hp' hpc =>
    simp only [Phase, hp'] at hph
    rcases hpc with ⟨j, rfl⟩ | ⟨-, rfl⟩
    · exact ⟨hs.bound, hs.fits, hph⟩
    · exact ⟨hs.bound, hs.fits, hph⟩
  case setAbort => exact hs
  case setTaken hp' _ =>
    simp only [Phase, hp'] at hph
    exact ⟨hs.bound, hs.fits, hph⟩
  case setFree i bm hp' hset =>
    simp only [Phase, hp'] at hph
    obtain ⟨hr, hh, hk, hms, next, hc, hn⟩ := hph
    refine ⟨hs.bound, hs.fits, ?_⟩
    simp only [Phase, ReplyPhase, hc]
    exact ⟨hr, hh, ⟨hk, hms, rfl⟩, Answers.setReply _ _ _, hn⟩
  case reply hp' =>
    simp only [Phase, hp'] at hph
    refine ⟨hs.bound, hs.fits, ?_⟩
    unfold ReplyPhase at hph
    simp only [History.addAll_nil, Phase]
    unfold PollPhase
    cases hc : k.ctl with
    | alloc next =>
      simp only [hc] at hph
      obtain ⟨hr, hh, hb, hans, hn⟩ := hph
      exact ⟨hr, hh, hb, hans.post (by simp) _, hn⟩
    | write _ | get _ | delete _ =>
      simp only [hc] at hph
      exact ⟨hph.all, hph.batch, hph.cursor.off, hph.cursor.head⟩
    | idle | post _ | close => simp only [hc] at hph
  all_goals simp_all

/-- **A move keeps a connection in step with its records.** -/
theorem sync_move (hx : ∀ x, a = .call x → x.Fits) (ho : ConnOwn k)
    (hs : Sync (h.chunk c) (h.indexed c) k) (hm : Move sv c k a sv' k' es) :
    Sync ((h.addAll es).chunk c) ((h.addAll es).indexed c) k' := by
  cases a with
  | call x =>
    obtain ⟨h', rfl⟩ := sync_call ho (hx x rfl) hs hm
    exact h'
  | client => exact sync_client ho hs hm
  | clerk b =>
    by_cases hp : k.pc = .read
    · exact sync_read hs hp hm
    · exact sync_clerk hs hp hm

end

end PMRAccess.Pmr
