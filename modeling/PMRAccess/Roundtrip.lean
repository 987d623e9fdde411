import PMRAccess.Serve
import PMRAccess.Group.Proof.Commit
import PMRAccess.Pmr.Proof.Data
import PMRAccess.Rdma.Post

/-!
# Requests and replies over the wire

A request as the client posts it (`sent`), taken out of the message buffer by the clerk's program,
and the reply, as the clerk posts it (`replied`) and `SendGet` takes it out of the client's buffer
(`sendGet`). `round_trip`: nothing is lost on the way, whatever the buffers held before, and the
clerk has read all it needs of the request when it starts to write the reply (`Undisturbed`).
-/

namespace PMRAccess

open Lib Rdma

/-! ## The two ways -/

/-- The clerk's message buffer with the request of a call in it. -/
def sent (fe : FrontEnd) (x : Rdma.Call) (localBuf clerkBuf : Buf) : Buf :=
  clerkBuf.write ringHeader ((x.prepare localBuf).read ringHeader (fe.msgLen x))

/-- A clerk's program, and the posting of its reply. -/
def replied {τ : Type} (p : Prog τ) : Prog (τ × Bytes) := do
  let taken ← p
  let bytes ← Reply.post
  return (taken, bytes)

/-- What `SendGet` returns for the reply in its message buffer. -/
def sendGet (b : Buf) : Option Bytes := if replyOk b then some (replyValue b) else none

/-- The program reads no field of the request that its reply has overwritten, so that it might as
well have them in different buffers. -/
def Undisturbed {τ : Type} (p : Prog τ) (b : Buf) : Prop :=
  Fresh ((replied p).run b).log ∧
    (replied p).runApart b b = (((replied p).run b).result, ((replied p).run b).buf)

theorem undisturbed_of_fresh {τ : Type} {p : Prog τ} {b : Buf} (h : Fresh (p.run b).log) :
    Undisturbed p b := by
  have hf : Fresh ((replied p).run b).log := by
    simp only [replied, Prog.run_bind, Reply.run_post, Prog.run_pure, List.append_nil]
    exact h.append (by simp)
  exact ⟨hf, Prog.runApart_of_fresh hf⟩

/-- The operations of a `SendWrite`. -/
theorem Asks.op_record {b : Buf} {w : WriteOp} {key : Bytes} {n : Nat} (h : Asks b w.op key n) :
    reqOp b = some .put ∨ reqOp b = some .update := by
  rw [h.op]
  cases w
  · exact .inl rfl
  · exact .inr rfl

theorem asks_sent_record {r : Record} (h : r.Fits) (localBuf clerkBuf : Buf) :
    Asks (sent .pmr (.write r) localBuf clerkBuf) r.op.op r.key r.val.length :=
  h.asks (h.read_prepare localBuf) clerkBuf

/-- The PMem and the Group client post the whole record. -/
theorem bears_sent_record {r : Record} (h : r.Fits) {fe : FrontEnd} (hfe : fe ≠ .pmr)
    (localBuf clerkBuf : Buf) : Group.Bears (sent fe (.write r) localBuf clerkBuf) (.write r) := by
  have hlen : fe.msgLen (.write r) = r.size := by
    cases fe with
    | pmr => exact absurd rfl hfe
    | pmem | group => exact h.lens.2.2.2
  have hw := Buf.read_write_self clerkBuf ringHeader r.bytes
  rw [r.length_bytes] at hw
  rw [sent, hlen]
  exact (congrArg (fun bs => (Buf.write clerkBuf ringHeader bs).read ringHeader r.size)
    (h.read_prepare localBuf)).trans hw

theorem asks_sent_key {key : Bytes} (h : KeyFits key) (fe : FrontEnd) (localBuf clerkBuf : Buf) :
    Asks (sent fe (.get key) localBuf clerkBuf) .get key 0 ∧
      Asks (sent fe (.delete key) localBuf clerkBuf) .delete key 0 := by
  have hask (op : Operation) : Asks (clerkBuf.write ringHeader
      ((prepareKey op key localBuf).read ringHeader ((sizeofRequest + len16 key) % 2 ^ 16)))
      op key 0 := by
    have hw := Buf.read_write_self clerkBuf ringHeader (requestHeader op key.length 0 ++ key)
    rw [List.length_append, length_requestHeader] at hw
    rw [h.len16, read_prepareKey h.1, Asks, hw]
  exact ⟨hask .get, hask .delete⟩

theorem result_replied {τ : Type} (p : Prog τ) (b : Buf) : ((replied p).run b).result =
    ((p.run b).result,
      (p.run b).buf.read ringHeader (sizeofRequest + replyValSize (p.run b).buf)) := by
  simp [replied]

/-- `SendGet` on a reply that was posted to it. -/
theorem sendGet_post {b : Buf} {st : RequestStatus} {value : Bytes} (h : Answers b st value)
    (hl : value.length < 2 ^ 32) (localBuf : Buf) :
    sendGet (localBuf.write ringHeader (b.read ringHeader (sizeofRequest + replyValSize b))) =
      if st = .ok then some value else none := by
  obtain ⟨h1, -, h3⟩ := (h.post hl localBuf).reply hl
  rw [sendGet, h1, h3]
  simp

/-- The values a `GET` of the key may find: a record of both fits. -/
def ValueFits (key : Bytes) (v : Option Bytes) : Prop :=
  ∀ value ∈ v, ringHeader + sizeofRequest + key.length + value.length ≤ maxRequest

theorem ValueFits.length_lt {key : Bytes} {v : Option Bytes} (h : ValueFits key v) :
    ∀ value ∈ v, value.length < 2 ^ 32 := by
  intro value hv
  have := h value hv
  simp only [maxRequest] at this
  omega

/-- A buffer holds the reply to a `GET` that has found `v`. -/
def Tells (b : Buf) : Option Bytes → Prop
  | some value => Answers b .ok value
  | none => Answers b .notfound []

theorem tells_setGet (b : Buf) (v : Option Bytes) : Tells (setGet b v) v := by
  cases v with
  | some value => exact Answers.setReply b .ok value
  | none => exact Answers.setReply b .notfound []

/-- A `GET` of the key whose clerk finds `v`: the clerk's program takes `taken` out of the request,
and `SendGet` what the clerk has found out of the reply. -/
def GetRound (fe : FrontEnd) {τ : Type} (p : Prog τ) (taken : τ) (key : Bytes) (v : Option Bytes)
    (localBuf clerkBuf : Buf) : Prop :=
  ValueFits key v →
    let b := sent fe (.get key) localBuf clerkBuf
    let o := (replied p).run b
    reqOp b = some .get ∧ o.result.1 = taken ∧
      sendGet ((prepareKey .get key localBuf).write ringHeader o.result.2) = v

theorem getRound_of_tells {fe : FrontEnd} {τ : Type} {p : Prog τ} {taken : τ} {key : Bytes}
    {v : Option Bytes} {localBuf clerkBuf : Buf} (h : KeyFits key)
    (hp : ∀ b, Asks b .get key 0 → (p.run b).result = taken ∧
      ((∀ value ∈ v, value.length < 2 ^ 32) → Tells (p.run b).buf v)) :
    GetRound fe p taken key v localBuf clerkBuf := by
  intro hv
  have hask := (asks_sent_key h fe localBuf clerkBuf).1
  obtain ⟨hr, ht⟩ := hp _ hask
  have htells := ht hv.length_lt
  refine ⟨hask.op, ?_⟩
  rw [result_replied]
  refine ⟨hr, ?_⟩
  cases v with
  | some value => exact sendGet_post htells (hv.length_lt value rfl) _
  | none => exact sendGet_post htells (by simp) _

/-! ## The front ends -/

namespace Pmr

/-- The clerk gets operation and key of a record out of the message, and the value is where its
index entry says, the record being posted to where the clerk's cursor stands. -/
def HearsRecord (r : Record) (localBuf clerkBuf : Buf) : Prop :=
  ∀ (cl : Clerk) (sh : Shared) (mem : Buf),
    let b := sent .pmr (.write r) localBuf clerkBuf
    let mem' := mem.write (cl.chunkOffset + cl.bufHead)
      ((r.prepare localBuf).read ringHeader r.totalLen)
    reqOp b = some r.op.op ∧ ∃ m memIdx,
      ((cl.run sh).run b).result = .put r.key m memIdx r.size ∧
        mem'.read (memIdx.memAddr + r.key.length) memIdx.valueSize = r.val

def HearsGet (key : Bytes) (localBuf clerkBuf : Buf) : Prop :=
  ∀ (cl : Clerk) (sh : Shared),
    GetRound .pmr (cl.run sh) (.get key) key (sh.lookup key) localBuf clerkBuf

def HearsDelete (key : Bytes) (localBuf clerkBuf : Buf) : Prop :=
  ∀ (cl : Clerk) (sh : Shared),
    let b := sent .pmr (.delete key) localBuf clerkBuf
    reqOp b = some .delete ∧ ((cl.run sh).run b).result = .delete key

theorem hearsRecord {r : Record} (h : r.Fits) (localBuf clerkBuf : Buf) :
    HearsRecord r localBuf clerkBuf := by
  intro cl sh mem b mem'
  have hask : Asks b r.op.op r.key r.val.length := asks_sent_record h localBuf clerkBuf
  have hrun := (cl.run_put sh hask.op_record).1
  rw [hask.key h.bounds.1, h.length_of_asks hask] at hrun
  refine ⟨hask.op, _, _, hrun, ?_⟩
  -- the value lies behind the header and the key of the record in the chunk
  have hbytes : (r.prepare localBuf).read ringHeader r.totalLen = r.bytes := by
    rw [h.lens.2.2.2]
    exact h.read_prepare localBuf
  have hmem : mem'.read (cl.chunkOffset + cl.bufHead) (recordSize ([] ++ r :: [])) =
      recordBytes ([] ++ r :: []) := by
    have := Buf.read_write_self mem (cl.chunkOffset + cl.bufHead) r.bytes
    rw [r.length_bytes] at this
    simpa [mem', hbytes] using this
  have hval := (read_value hmem).2.1
  simp only [Meta.ofMem, Meta.memAddr, hask.valSize h.bounds.2.2.1]
  simpa using hval

theorem hearsGet {key : Bytes} (h : KeyFits key) (localBuf clerkBuf : Buf) :
    HearsGet key localBuf clerkBuf := by
  intro cl sh
  refine getRound_of_tells h fun b hask => ?_
  obtain ⟨h1, h2⟩ := cl.run_get sh hask.op
  rw [hask.key h.length_lt] at h1 h2
  exact ⟨h1, fun hv => h2 hv ▸ tells_setGet b _⟩

theorem hearsDelete {key : Bytes} (h : KeyFits key) (localBuf clerkBuf : Buf) :
    HearsDelete key localBuf clerkBuf := by
  intro cl sh b
  have hask : Asks b .delete key 0 := (asks_sent_key h .pmr localBuf clerkBuf).2
  have hrun := (cl.run_delete sh hask.op).1
  rw [hask.key h.length_lt] at hrun
  exact ⟨hask.op, hrun⟩

/-- In a run the record is where the clerk's index entry says: the client posts it to where the
clerk's cursor stands. -/
theorem insert_value {m file : Buf} {db : Store} {tr : List Event} {s : State}
    (hr : Run Fit m file db tr s) {c : Nat} {k : Conn} (hk : s.conns[c]? = some k) {r : Record}
    (hc : k.ctl = .write r) {key : Bytes} {memIdx : Meta} (hp : k.pc = .insert key memIdx) :
    key = r.key ∧ s.server.mem.read (memIdx.memAddr + r.key.length) memIdx.valueSize = r.val := by
  have hd := data_run (fun _ _ h => h) hr
  obtain ⟨r', hi, -⟩ := (hd.sync c k hk).of_insert hp
  obtain rfl : r' = r := by
    have := hi.ctl
    rw [hc, Ctl.write.injEq] at this
    exact this.symm
  obtain ⟨i, -, hh, hoff⟩ := (hd.own.conn c k hk).exists_chunk (by simp [hp]) (by simp [hp])
    (by simp [hp]) (by simp [hp])
  have hmem := hd.mem c k i hk hh
  rw [hi.last] at hmem
  have hval := (read_value hmem).2.1
  rw [hi.meta_eq, hoff]
  exact ⟨hi.key_eq, hval⟩

end Pmr

namespace Pmem

def HearsRecord (r : Record) (localBuf clerkBuf : Buf) : Prop :=
  ∀ sh : Shared,
    let b := sent .pmem (.write r) localBuf clerkBuf
    reqOp b = some r.op.op ∧ ((clerkRun sh).run b).result = .put r.key r.val

def HearsGet (key : Bytes) (localBuf clerkBuf : Buf) : Prop :=
  ∀ sh : Shared, GetRound .pmem (clerkRun sh) (.get key) key (sh.get key) localBuf clerkBuf

def HearsDelete (key : Bytes) (localBuf clerkBuf : Buf) : Prop :=
  ∀ sh : Shared,
    let b := sent .pmem (.delete key) localBuf clerkBuf
    reqOp b = some .delete ∧ ((clerkRun sh).run b).result = .delete key

theorem hearsRecord {r : Record} (h : r.Fits) (localBuf clerkBuf : Buf) :
    HearsRecord r localBuf clerkBuf := by
  intro sh
  have hb : Group.Bears (sent .pmem (.write r) localBuf clerkBuf) (.write r) :=
    bears_sent_record h (by decide) localBuf clerkBuf
  have hask : Asks _ r.op.op r.key r.val.length := hb.asks
  have hval : reqVal (sent .pmem (.write r) localBuf clerkBuf) = r.val := by
    have h1 := (Buf.read_eq_append (hb.trans rfl)).2
    rw [length_requestHeader] at h1
    rw [reqVal, hask.keySize h.bounds.1, hask.valSize h.bounds.2.2.1]
    exact (Buf.read_eq_append h1).2
  refine ⟨hask.op, ?_⟩
  have hrun := (run_put sh hask.op_record).1
  rwa [hask.key h.bounds.1, hval] at hrun

theorem hearsGet {key : Bytes} (h : KeyFits key) (localBuf clerkBuf : Buf) :
    HearsGet key localBuf clerkBuf := by
  intro sh
  refine getRound_of_tells h fun b hask => ?_
  obtain ⟨h1, h2⟩ := run_get sh hask.op
  rw [hask.key h.length_lt] at h1 h2
  exact ⟨h1, fun hv => h2 hv ▸ tells_setGet b _⟩

theorem hearsDelete {key : Bytes} (h : KeyFits key) (localBuf clerkBuf : Buf) :
    HearsDelete key localBuf clerkBuf := by
  intro sh
  have hask := (asks_sent_key h .pmem localBuf clerkBuf).2
  have hrun := (run_delete sh hask.op).1
  rw [hask.key h.length_lt] at hrun
  exact ⟨hask.op, hrun⟩

end Pmem

namespace Group

/-- The key of a logged request, and its value in the batch behind the copy. -/
def HearsLogged (q : Req) (b : Buf) : Prop :=
  ∀ (sh : Shared) (buffer : Buf), reqOp b = some q.op ∧
    ∃ m bytes, ((clerkRun sh).run b).result = .logged q.key m bytes ∧ bytes = q.bytes ∧
      Store.batchVal (buffer.write sh.batchLength bytes) m = q.val

def HearsGet (key : Bytes) (localBuf clerkBuf : Buf) : Prop :=
  ∀ sh : Shared, GetRound .group (clerkRun sh) (.get key) key (sh.get key) localBuf clerkBuf

theorem Req.op_logged (q : Req) : q.op ≠ .close ∧ q.op ≠ .get := by
  cases q with
  | write r => cases hr : r.op <;> simp [Req.op, hr, WriteOp.op]
  | delete key => simp [Req.op]

theorem hearsLogged {b : Buf} {q : Req} (h : Bears b q) (hq : q.Fits) : HearsLogged q b := by
  intro sh buffer
  have ho : reqOp b = some q.op := h.asks.op
  have hrun := (run_logged sh (b := b) (by simp [ho, q.op_logged.1])
    (by simp [ho, q.op_logged.2])).1
  have hread : b.read ringHeader (reqLength b) = q.bytes := by
    rw [h.length hq]
    exact h
  rw [h.key hq, h.keySize hq, h.valSize hq, hread] at hrun
  exact ⟨ho, _, _, hrun, rfl, batchVal_request sh.room hq buffer⟩

/-- A `GET` has no value, so the `val_size` that is left of it is that of a reply without one. -/
theorem answers_setStatus {b : Buf} {op : Operation} {key : Bytes} (h : Asks b op key 0)
    (st : RequestStatus) : Answers (setStatus b st) st [] := by
  have hsize : (setStatus b st).read (ringHeader + 4) 4 = leBytes 4 0 := by
    rw [setStatus, Buf.read_write_of_disjoint (.inr (by simp))]
    have := (Buf.read_eq_append h.header).2
    rwa [length_leBytes, length_leBytes] at this
  have hst := Buf.read_write_self b ringHeader (leBytes 4 st.code)
  rw [length_leBytes] at hst
  show (setStatus b st).read ringHeader (4 + 4) = _
  rw [Buf.read_add, hsize, setStatus, hst]
  simp

theorem hearsGet {key : Bytes} (h : KeyFits key) (localBuf clerkBuf : Buf) :
    HearsGet key localBuf clerkBuf := by
  intro sh
  refine getRound_of_tells h fun b hask => ?_
  obtain ⟨h1, h2⟩ := run_get sh hask.op
  rw [hask.key h.length_lt] at h1 h2
  refine ⟨h1, fun hv => ?_⟩
  rw [h2 hv]
  cases sh.get key with
  | some value => exact Answers.setReply b .ok value
  | none => exact answers_setStatus hask .notfound

/-- In a run a request is in its clerk's message buffer as long as its writer is in the queue, where
a leader may read it. -/
theorem queue_hears {batch : WriteBatch} {db : Store} {file : Buf} {tr : List Event} {s : State}
    (hr : Run Fit batch db file tr s) {d : Nat} (hd : d ∈ s.server.queue) :
    ∃ k q, s.conns[d]? = some k ∧ k.ctl.req? = some q ∧ HearsLogged q k.clerkBuf := by
  obtain ⟨hi, hf⟩ := flow_run hr
  rw [hf.queue] at hd
  obtain ⟨p, hp, rfl⟩ := List.mem_map.1 hd
  obtain ⟨k, hk, hb, hfit⟩ := hf.bears hi hp
  obtain ⟨k', hk', hq⟩ := hf.asked p hp
  obtain rfl : k' = k := by simpa [hk'] using hk
  exact ⟨k', p.2, hk, hq, hearsLogged hb hfit⟩

end Group

theorem Record.Fits.logged {r : Record} (h : r.Fits) : (Group.Req.write r).Fits :=
  ⟨h.1, h.2.1, by
    have := h.size_le
    simp only [Group.Req.size, Group.Req.key, Group.Req.val, Record.size] at *
    omega⟩

theorem KeyFits.logged {key : Bytes} (h : KeyFits key) : (Group.Req.delete key).Fits :=
  ⟨h.1, by simp [Group.Req.val], by
    have := h.2
    simp only [Group.Req.size, Group.Req.key, Group.Req.val, List.length_nil]
    omega⟩

/-- **Requests and replies survive the wire.** From any contents of the buffers: the clerk of each
front end takes operation, key and value of a record, and operation and key of a `GET` or `DELETE`,
out of what the client has posted; `SendGet` takes what the clerk has found out of the reply; and no
field of a request is read behind the reply over it. In a run a PMR clerk finds the value in the
chunk, and the requests a Group leader reads are still there. -/
theorem round_trip :
    (∀ (r : Record) (localBuf clerkBuf : Buf), r.Fits →
      Pmr.HearsRecord r localBuf clerkBuf ∧ Pmem.HearsRecord r localBuf clerkBuf ∧
        Group.HearsLogged (.write r) (sent .group (.write r) localBuf clerkBuf)) ∧
    (∀ (key : Bytes) (localBuf clerkBuf : Buf), KeyFits key →
      (Pmr.HearsGet key localBuf clerkBuf ∧ Pmr.HearsDelete key localBuf clerkBuf) ∧
      (Pmem.HearsGet key localBuf clerkBuf ∧ Pmem.HearsDelete key localBuf clerkBuf) ∧
      Group.HearsGet key localBuf clerkBuf ∧
      Group.HearsLogged (.delete key) (sent .group (.delete key) localBuf clerkBuf)) ∧
    (∀ b : Buf, (∀ (cl : Pmr.Clerk) (sh : Pmr.Shared), Undisturbed (cl.run sh) b) ∧
      (∀ sh : Pmem.Shared, Undisturbed (Pmem.clerkRun sh) b) ∧
      ∀ sh : Group.Shared, Undisturbed (Group.clerkRun sh) b) ∧
    (∀ (mem file : Buf) (db : Store) (tr : List Pmr.Event) (s : Pmr.State) (c : Nat) (k : Pmr.Conn)
      (r : Record) (key : Bytes) (memIdx : Meta), Pmr.Run Pmr.Fit mem file db tr s →
      s.conns[c]? = some k → k.ctl = .write r → k.pc = .insert key memIdx → key = r.key ∧
        s.server.mem.read (memIdx.memAddr + r.key.length) memIdx.valueSize = r.val) ∧
    ∀ (batch : Group.WriteBatch) (db : Store) (file : Buf) (tr : List Group.Event) (s : Group.State)
      (d : Nat), Group.Run Group.Fit batch db file tr s → d ∈ s.server.queue →
      ∃ k q, s.conns[d]? = some k ∧ k.ctl.req? = some q ∧ Group.HearsLogged q k.clerkBuf := by
  refine ⟨fun r localBuf clerkBuf h => ?_, fun key localBuf clerkBuf h => ?_, fun b => ?_,
    fun _ _ _ _ _ _ _ _ _ _ hr hk hc hp => Pmr.insert_value hr hk hc hp,
    fun _ _ _ _ _ _ hr hd => Group.queue_hears hr hd⟩
  · exact ⟨Pmr.hearsRecord h localBuf clerkBuf, Pmem.hearsRecord h localBuf clerkBuf,
      Group.hearsLogged (bears_sent_record h (by decide) localBuf clerkBuf) h.logged⟩
  · have hdel := (asks_sent_key h .group localBuf clerkBuf).2
    exact ⟨⟨Pmr.hearsGet h localBuf clerkBuf, Pmr.hearsDelete h localBuf clerkBuf⟩,
      ⟨Pmem.hearsGet h localBuf clerkBuf, Pmem.hearsDelete h localBuf clerkBuf⟩,
      Group.hearsGet h localBuf clerkBuf, Group.hearsLogged (Group.bears_of_asks hdel) h.logged⟩
  · exact ⟨fun cl sh => undisturbed_of_fresh (cl.fresh_run sh b),
      fun sh => undisturbed_of_fresh (Pmem.fresh_clerkRun sh b),
      fun sh => undisturbed_of_fresh (Group.fresh_clerkRun sh b)⟩

/-- A record, a `GET` that finds its value, and the record in a run of each kind. -/
theorem round_trip_short :
    let r : Record := ⟨.update, [1, 2], [10, 11, 12]⟩
    let zeros : Buf := fun _ => 0
    let ones : Buf := fun _ => 255
    let sh : Pmem.Shared := ⟨fun _ _ => true, fun _ => some r.val, fun _ => true⟩
    r.Fits ∧ Pmr.HearsRecord r zeros ones ∧ Pmem.HearsRecord r zeros ones ∧
      Group.HearsLogged (.write r) (sent .group (.write r) zeros ones) ∧
      sendGet ((prepareKey .get r.key zeros).write ringHeader
        ((replied (Pmem.clerkRun sh)).run (sent .pmem (.get r.key) zeros ones)).result.2) =
          some r.val ∧
      (∃ tr s k m, Pmr.Run Pmr.Fit ones zeros (fun _ => none) tr s ∧ s.conns[0]? = some k ∧
        k.pc = .insert r.key m ∧ s.server.mem.read (m.memAddr + 2) m.valueSize = r.val) ∧
      ∃ tr s k q, Group.Sched.Runs Group.Fit tr s ∧ s.server.queue = [0] ∧
        s.conns[0]? = some k ∧ k.ctl.req? = some q ∧ Group.HearsLogged q k.clerkBuf := by
  obtain ⟨tr, s, k, key, m, hr, hk, hc, hp⟩ : ∃ tr s k key m,
      Pmr.Run Pmr.Fit (fun _ => 255) (fun _ => 0) (fun _ => none) tr s ∧ s.conns[0]? = some k ∧
      k.ctl = .write ⟨.update, [1, 2], [10, 11, 12]⟩ ∧ k.pc = .insert key m :=
    ⟨_, _, _, _, _, Steps.of_exec_get (Pmr.Sched.connect 0 0 ++
      [.conn 0 (.call (.write ⟨.update, [1, 2], [10, 11, 12]⟩)), .conn 0 .client,
        .conn 0 (.clerk false)]) (by decide +kernel), rfl, rfl, rfl⟩
  obtain ⟨tr', s', hr', hq⟩ : ∃ tr s, Group.Sched.Runs Group.Fit tr s ∧ s.server.queue = [0] :=
    ⟨_, _, Steps.of_exec_get (Group.Sched.connect 1 ++
      Group.Sched.push 0 (.write ⟨.update, [1, 2], [10, 11, 12]⟩)) (by decide +kernel),
      by decide +kernel⟩
  intro r zeros ones sh
  obtain ⟨h1, h2, -, h4, h5⟩ := round_trip
  have hfit : r.Fits := by decide
  obtain ⟨hr1, hr2, hr3⟩ := h1 r zeros ones hfit
  refine ⟨hfit, hr1, hr2, hr3, ?_, ?_, ?_⟩
  · exact ((h2 r.key zeros ones (by decide)).2.1.1 sh (by rintro _ ⟨⟩; decide)).2.2
  · obtain ⟨rfl, hv⟩ := h4 _ _ _ tr s 0 k r key m hr hk hc hp
    exact ⟨tr, s, k, m, hr, hk, hp, hv⟩
  · obtain ⟨k', q, hk', hc', hh⟩ := h5 _ _ _ tr' s' 0 hr' (by simp [hq])
    exact ⟨tr', s', k', q, hr', hq, hk', hc', hh⟩

end PMRAccess
