import PMRAccess.Group.Proof.Queue

/-!
# What the message buffers hold

`Held`: by where the client and the clerk of a connection are, what the message buffers hold: the
request until the reply is made, then the reply. A follower's reply is `OK` without a value. A leader
makes none: what it posts are the first bytes of the request (`Outcome`).
-/

namespace PMRAccess.Group

open Lib

/-- What the history says of one clerk: its last request, its role, its last read. -/
structure View where
  pushed : Option Req
  led : Bool
  got : Option Bytes

def History.view (h : History) (c : Nat) : View :=
  ⟨(itemsOf c h.pushed).getLast?, h.led c, h.got c⟩

/-- The header of the reply to a logged request. -/
def Outcome (led : Bool) (q : Req) (b : Buf) : Prop :=
  b.read ringHeader sizeofRequest =
    if led then requestHeader q.op q.key.length q.val.length
    else leBytes 4 RequestStatus.ok.code ++ leBytes 4 0

/-- The reply to a `GET` that has read `v`; the value is whole if its length fits `val_size`. -/
def Answered (v : Option Bytes) (b : Buf) : Prop :=
  match v with
  | some value =>
    ofLe (b.read ringHeader 4) = RequestStatus.ok.code ∧
      (value.length < 2 ^ 32 → Answers b .ok value)
  | none => ofLe (b.read ringHeader 4) = RequestStatus.notfound.code

/-- A connection with the logged request `q`. -/
def HeldReq (v : View) (q : Req) (k : Conn) : Prop :=
  match k.pc with
  | .read | .lock | .push => Bears k.clerkBuf q
  | .test | .asleep _ | .relock => Bears k.clerkBuf q ∧ v.pushed = some q
  | .linger | .build | .putDb _ | .putLog _ | .lockPop _ | .pop _ | .notify =>
    Bears k.clerkBuf q ∧ v.pushed = some q ∧ v.led = true
  | .reply => v.pushed = some q ∧ Outcome v.led q k.clerkBuf
  | .poll => v.pushed = some q ∧ Outcome v.led q k.localBuf
  | .dbGet _ | .done => False

/-- A connection with a `GET` of `key`. -/
def HeldGet (v : View) (key : Bytes) (k : Conn) : Prop :=
  match k.pc with
  | .read => Asks k.clerkBuf .get key 0
  | .dbGet key' => key' = key
  | .reply => Answered v.got k.clerkBuf
  | .poll => Answered v.got k.localBuf
  | _ => False

/-- The invariant of a connection (module doc). -/
def Held (v : View) (k : Conn) : Prop :=
  match k.ctl with
  | .idle => k.pc = .poll
  | .write r => (Req.write r).Fits ∧ HeldReq v (.write r) k
  | .delete key => (Req.delete key).Fits ∧ HeldReq v (.delete key) k
  | .get key => key.length < 2 ^ 24 ∧ HeldGet v key k
  | .close => k.pc = .done ∨ k.pc = .read ∧ Asks k.clerkBuf .close [] 0

section
variable {v : View} {k : Conn} {q : Req}

theorem Held.req (h : Held v k) (hq : k.ctl.req? = some q) : q.Fits ∧ HeldReq v q k := by
  cases hc : k.ctl <;> simp only [hc, Ctl.req?, Option.some.injEq, reduceCtorEq] at hq <;>
    subst hq <;> simpa only [Held, hc] using h

theorem Held.of_req (hq : k.ctl.req? = some q) (h : q.Fits ∧ HeldReq v q k) : Held v k := by
  cases hc : k.ctl <;> simp only [hc, Ctl.req?, Option.some.injEq, reduceCtorEq] at hq <;>
    subst hq <;> simpa only [Held, hc] using h

/-- A clerk in the queue has a logged request. -/
theorem Held.req_of_pc (h : Held v k)
    (hp : k.pc.holds = true ∨ k.pc.leading = true ∨ k.pc = .lock ∨ k.pc = .relock ∨
      ∃ b, k.pc = .asleep b) : ∃ q, k.ctl.req? = some q := by
  cases hc : k.ctl <;> simp only [Held, hc, HeldGet] at h
  case write r => exact ⟨_, rfl⟩
  case delete key => exact ⟨_, rfl⟩
  case idle =>
    rw [h] at hp
    simp [Pc.holds, Pc.leading] at hp
  case get key =>
    cases hpc : k.pc <;> simp [hpc, Pc.holds, Pc.leading] at h hp
  case close =>
    rcases h with h | ⟨h, -⟩ <;> rw [h] at hp <;> simp [Pc.holds, Pc.leading] at hp

/-- Only a `GET` asks `db_`. -/
theorem Held.get_of_pc {key : Bytes} (h : Held v k) (hp : k.pc = .dbGet key) :
    ∃ key', k.ctl = .get key' ∧ key'.length < 2 ^ 24 := by
  cases hc : k.ctl <;> simp [Held, hc, hp, HeldReq] at h
  exact ⟨_, rfl, h.1⟩

/-- A wake changes nothing of it. -/
theorem Held.on (h : Held v k) (w : Wake) (d : Nat) : Held v (w.on d k) := by
  rcases w.on_pc k d with hp | ⟨b, hb, hp⟩ <;>
    simp only [Held, HeldReq, HeldGet, Wake.on_ctl, Wake.on_clerkBuf, Wake.on_localBuf, hp] at h ⊢
  · exact h
  · cases hc : k.ctl <;> simp only [hb, hc, reduceCtorEq, false_and, or_self] at h ⊢ <;> exact h

end

/-! ## The words of a reply -/

section
variable {b b' : Buf} {q : Req}

theorem ofLe_code (st : RequestStatus) : ofLe (leBytes 4 st.code) = st.code := by
  cases st <;> decide

/-- The reply is posted with its header. -/
theorem read_header_post (n : Nat) :
    (b'.write ringHeader (b.read ringHeader (sizeofRequest + n))).read ringHeader sizeofRequest =
      b.read ringHeader sizeofRequest := by
  have h : (b'.write ringHeader (b.read ringHeader (sizeofRequest + n))).read (ringHeader + 0)
      sizeofRequest = ((b.read ringHeader (sizeofRequest + n)).drop 0).take sizeofRequest :=
    Buf.read_write_sub (by simp)
  rw [Nat.add_zero] at h
  rw [h, List.drop_zero, Buf.read_add, List.take_left' (by simp)]

theorem Outcome.post {led : Bool} (h : Outcome led q b) (n : Nat) :
    Outcome led q (b'.write ringHeader (b.read ringHeader (sizeofRequest + n))) :=
  (read_header_post n).trans h

theorem read_status (h : b'.read ringHeader sizeofRequest = b.read ringHeader sizeofRequest) :
    b'.read ringHeader 4 = b.read ringHeader 4 := by
  have hs : ∀ x : Buf, x.read ringHeader 4 = (x.read ringHeader sizeofRequest).take 4 := by
    intro x
    rw [show sizeofRequest = 4 + 4 from rfl, Buf.read_add, List.take_left' (by simp)]
  rw [hs, hs, h]

theorem Answered.post {v : Option Bytes} (h : Answered v b) :
    Answered v (b'.write ringHeader (b.read ringHeader (sizeofRequest + replyValSize b))) := by
  have hst : (b'.write ringHeader (b.read ringHeader (sizeofRequest + replyValSize b))).read
      ringHeader 4 = b.read ringHeader 4 := read_status (read_header_post (replyValSize b))
  cases v with
  | none => exact (congrArg ofLe hst).trans h
  | some value => exact ⟨(congrArg ofLe hst).trans h.1, fun hl => (h.2 hl).post hl b'⟩

theorem answered_setReply (b : Buf) (value : Bytes) :
    Answered (some value) (setReply b .ok value) := by
  have ha := Answers.setReply b .ok value
  refine ⟨?_, fun _ => ha⟩
  obtain ⟨h1, -⟩ := Buf.read_eq_append ha
  obtain ⟨h2, -⟩ := Buf.read_eq_append h1
  rw [length_leBytes] at h2
  rw [h2, ofLe_code]

theorem answered_setStatus (b : Buf) : Answered none (setStatus b .notfound) := by
  have h := Buf.read_write_self b ringHeader (leBytes 4 RequestStatus.notfound.code)
  rw [length_leBytes] at h
  show ofLe ((setStatus b .notfound).read ringHeader 4) = _
  rw [setStatus, h, ofLe_code]

theorem outcome_setReply (b : Buf) (q : Req) : Outcome false q (setReply b .ok []) := by
  have h := Answers.setReply b .ok []
  simpa [Answers, Outcome] using h

theorem Bears.outcome (h : Bears b q) : Outcome true q b := by
  simpa [Outcome] using h.asks.header

/-- The status and the size of the reply. -/
theorem Outcome.words {led : Bool} (h : Outcome led q b) (hq : q.Fits) :
    ofLe (b.read ringHeader 4) = (if led then q.op.code + 2 ^ 8 * q.key.length else 0) ∧
      replyValSize b = if led then q.val.length else 0 := by
  obtain ⟨hk, hv, -⟩ := hq.bounds
  cases led with
  | true =>
    obtain ⟨h1, h2⟩ := header_words (by simpa [Outcome] using h)
    have := q.op.code_lt
    simp only [if_true]
    refine ⟨h1.trans ?_, h2.trans (Nat.mod_eq_of_lt hv)⟩
    omega
  | false =>
    obtain ⟨h1, h2⟩ := Buf.read_eq_append (n := 8) (by simpa [Outcome, sizeofRequest] using h)
    simp only [length_leBytes] at h1 h2
    simp only [Bool.false_eq_true, if_false, replyValSize]
    rw [h1, h2]
    exact ⟨by decide, by decide⟩

end

/-! ## Every move keeps it -/

/-- The requests of a client in its clerk's message buffer. -/
theorem bears_post_write {r : Record} (hr : (Req.write r).Fits) (k : Conn) :
    Bears (k.call (.write r)).clerkBuf (.write r) := by
  have hs : r.Short := ⟨hr.1, hr.2.1, by
    have := hr.bounds.2.2
    simp only [Req.size, Req.key, Req.val, maxRequest, Record.size] at *
    omega⟩
  have hw := Buf.read_write_self k.clerkBuf ringHeader r.bytes
  rw [r.length_bytes] at hw
  simp only [Conn.call, Conn.post, hs.lens.2.2.2, hs.read_prepare]
  exact hw

theorem asks_request {key : Bytes} (hkey : (Req.delete key).Fits) (k : Conn) (op : Operation)
    (ctl : Ctl) : Asks (k.request op key ctl).clerkBuf op key 0 := by
  have h0 : 0 ∉ key := hkey.1
  have hl : (sizeofRequest + len16 key) % 2 ^ 16 = sizeofRequest + key.length := by
    have := hkey.bounds.2.2
    simp only [Req.size, Req.key, Req.val, maxRequest] at this
    exact keyLen h0 (by omega)
  have hw := Buf.read_write_self k.clerkBuf ringHeader (requestHeader op key.length 0 ++ key)
  simp only [List.length_append, length_requestHeader] at hw
  simp only [Conn.request, Conn.post, hl, read_prepareKey h0, Asks, hw]

theorem bears_of_asks {b : Buf} {key : Bytes} (h : Asks b .delete key 0) : Bears b (.delete key) := by
  simpa [Bears, Req.size, Req.bytes, Req.val, Req.key, Req.op, Asks] using h

theorem held_call {x : Call} (hx : x.Fits) (v : View) (k : Conn) : Held v (k.call x) := by
  cases x with
  | write r => exact ⟨hx, bears_post_write hx k⟩
  | delete key => exact ⟨hx, bears_of_asks (asks_request hx k .delete _)⟩
  | get key => exact ⟨hx.bounds.1, asks_request hx k .get _⟩
  | close =>
    refine .inr ⟨rfl, asks_request ?_ k .close _⟩
    decide

section
variable {h : History} {s : State} {c d : Nat} {k k' : Conn} {a : Act} {sv' : Server} {w : Wake}
  {es : List Event}

/-- A move of `c` says nothing of the other clerks. -/
theorem Move.view_ne (hm : Move s c k a sv' k' w es) (hdc : d ≠ c) (h : History) :
    (h.addAll es).view d = h.view d := by
  cases hm
  case push hp =>
    cases hr : k.ctl.req? <;>
      simp [Ctl.pushed, hr, History.view, History.add, itemsOf_append, itemsOf_cons_ne d (Ne.symm hdc)]
  all_goals simp [History.view, History.add, hdc]

/-- A clerk that reads a request enters the case of its operation. -/
theorem held_read {v : View} (hh : Held v k) (hp : k.pc = .read) : Held v k.read := by
  have hreq : ∀ q, k.ctl.req? = some q → Held v k.read := by
    intro q hq
    obtain ⟨hf, hb⟩ := hh.req hq
    simp only [HeldReq, hp] at hb
    have hop : reqOp k.clerkBuf = some q.op := hb.asks.op
    have hread : k.read = { k with pc := .lock, done := false } := by
      unfold Conn.read
      rw [hop]
      cases q with
      | write r => cases hr : r.op <;> simp [Req.op, WriteOp.op, hr]
      | delete key => rfl
    rw [hread]
    exact .of_req hq ⟨hf, hb⟩
  cases hc : k.ctl with
  | write r => exact hreq _ (by rw [hc]; rfl)
  | delete key => exact hreq _ (by rw [hc]; rfl)
  | idle => simp [Held, hc, hp] at hh
  | get key =>
    simp only [Held, hc, HeldGet, hp] at hh
    obtain ⟨hl, ha⟩ := hh
    simpa [Conn.read, ha.op, Held, hc, HeldGet, ha.key hl] using hl
  | close =>
    simp only [Held, hc, hp, reduceCtorEq, true_and, false_or] at hh
    simp [Conn.read, hh.op, Held, hc]

theorem Move.held (hm : Move s c k a sv' k' w es) (hh : Held (h.view c) k)
    (hx : ∀ x, a = .call x → x.Fits) : Held ((h.addAll es).view c) k' := by
  -- the clerk's logged request, where it has one by where it is
  have hreq : (k.pc.holds = true ∨ k.pc.leading = true ∨ k.pc = .lock ∨ k.pc = .relock ∨
      ∃ b, k.pc = .asleep b) → ∃ q, k.ctl.req? = some q ∧ q.Fits ∧ HeldReq (h.view c) q k := by
    intro hp
    obtain ⟨q, hq⟩ := hh.req_of_pc hp
    exact ⟨q, hq, hh.req hq⟩
  cases hm
  case call x hc hp => exact held_call (hx x rfl) _ k
  case acked r hc hp => exact hp
  case got key hc hp => exact hp
  case deleted key hc hp => exact hp
  case read hp => exact held_read hh hp
  case dbHit key value hp hv =>
    obtain ⟨key', hc, hl⟩ := hh.get_of_pc hp
    simp only [Held, HeldGet, hc]
    exact ⟨hl, by simpa [History.view, History.add] using answered_setReply k.clerkBuf value⟩
  case dbMiss key hp hv =>
    obtain ⟨key', hc, hl⟩ := hh.get_of_pc hp
    simp only [Held, HeldGet, hc]
    exact ⟨hl, by simpa [History.view, History.add] using answered_setStatus k.clerkBuf⟩
  case reply hp =>
    show Held (h.view c) k.reply
    cases hc : k.ctl <;> simp only [Held, hc, hp, HeldReq, HeldGet, reduceCtorEq, false_and,
      or_self] at hh <;> simp only [Held, Conn.reply, hc, HeldReq, HeldGet]
    case write r => exact ⟨hh.1, hh.2.1, hh.2.2.post _⟩
    case delete key => exact ⟨hh.1, hh.2.1, hh.2.2.post _⟩
    case get key => exact ⟨hh.1, hh.2.post⟩
  case lock hp hm | relock hp hm | enter hp hm | lockPop hp hm | sleep hp hd hq | wake hp |
      putDb hp | putLog hp | build hp hl =>
    obtain ⟨q, hq, hf, hr⟩ := hreq (by simp [hp, Pc.holds, Pc.leading])
    simp only [HeldReq, hp] at hr
    exact .of_req hq ⟨hf, hr⟩
  case push hp =>
    obtain ⟨q, hq, hf, hr⟩ := hreq (by simp [hp, Pc.holds])
    simp only [HeldReq, hp] at hr
    refine .of_req hq ⟨hf, hr, ?_⟩
    simp [Ctl.pushed, hq, History.view, History.add, itemsOf_append, itemsOf_cons_self]
  case follow hp hd =>
    obtain ⟨q, hq, hf, hr⟩ := hreq (by simp [hp, Pc.holds])
    simp only [HeldReq, hp] at hr
    refine .of_req hq ⟨hf, hr.2, ?_⟩
    simpa [History.view, History.add] using outcome_setReply k.clerkBuf q
  case lead hp hd hhead =>
    obtain ⟨q, hq, hf, hr⟩ := hreq (by simp [hp, Pc.holds])
    simp only [HeldReq, hp] at hr
    exact .of_req hq ⟨hf, hr.1, hr.2, by simp [History.view, History.add]⟩
  case pop last e queue hp hq' =>
    obtain ⟨q, hq, hf, hr⟩ := hreq (by simp [hp, Pc.holds])
    simp only [HeldReq, hp] at hr
    refine .of_req hq ⟨hf, ?_⟩
    show HeldReq (h.view c) q _
    by_cases he : e = last <;> simpa [HeldReq, he] using hr
  case notify hp =>
    obtain ⟨q, hq, hf, hr⟩ := hreq (by simp [hp, Pc.holds])
    simp only [HeldReq, hp] at hr
    refine .of_req hq ⟨hf, hr.2.1, ?_⟩
    rw [show ((h.addAll []).view c).led = true from hr.2.2]
    exact hr.1.outcome

end

end PMRAccess.Group
