import PMRAccess.Rdma.Verbs
import PMRAccess.Pmr.Proof.Replies
import PMRAccess.Pmem.Proof.Replies
import PMRAccess.Group.Proof.Replies

/-!
# The work requests of a run (`frontend`)

What a step of a front end posts (`Posting`): a client its request, a clerk its reply, and both a
message at the end of the connection. `FrontEnd.Posts`: some run of requests that fit takes a step
with this posting. `calls_inRange`: the ranges of its work requests lie in the buffers they are meant
for. `posted_valid_iff` is what follows for the keys the requests carry: all are valid but the long
replies of the PMR and PMem clerks.
-/

namespace PMRAccess.Rdma

open Lib

/-- What a step of a front end posts. -/
inductive Posting
  | nothing
  /-- the request of a client, the record of a `SendWrite` to `off` of the clerk's `write_buf` -/
  | request (x : Call) (off : Nat)
  /-- `SendClose`, and the clerk's end of it -/
  | close
  | recv
  /-- the reply of a clerk with a value of `valSize` bytes -/
  | reply (valSize : Nat)
  deriving DecidableEq, Repr

/-- The calls of the `post_*` functions, each with the end that makes it. -/
def Posting.calls (fe : FrontEnd) : Posting → List (Side × WrCall)
  | nothing => []
  | request x off => (fe.posts off x).map fun p => (.client, .write p)
  | close =>
    ((sendKey fe.requestVerb []).map fun p => (.client, .write p)) ++ [(.client, .send maxRequest 0)]
  | recv => [(.clerk, .recv maxRequest 0)]
  | reply n => (message fe.replyVerb (sizeofRequest + n)).map fun p => (.clerk, .write p)

end PMRAccess.Rdma

/-! ## The front ends -/

namespace PMRAccess.Pmr

open Lib Rdma

def Conn.posting (k : Conn) : Act → Posting
  | .call (.write r) =>
    if (k.client.bufHead + r.totalLen) % 2 ^ 32 ≥ maxAsyncSize then .request .alloc 0 else .nothing
  | .call (.get key) => .request (.get key) 0
  | .call (.delete key) => .request (.delete key) 0
  | .call .alloc => .request .alloc 0
  | .call .close => .close
  | .client =>
    match k.ctl with
    | .post r => .request (.write r) k.client.writeAddr
    | _ => .nothing
  | .clerk _ =>
    match k.pc with
    | .reply => .reply (replyValSize k.clerk.sendBuf)
    -- `CLOSE` without and with a batch to flush
    | .read => if reqOp k.clerk.sendBuf = some .close ∧ k.clerk.bufHead = 0 then .recv else .nothing
    | .erase true _ i => if k.clerk.keyBatch.length ≤ i then .recv else .nothing
    | _ => .nothing

def posting (s : State) : Label → Posting
  | .connect _ _ => .request .alloc 0
  | .conn c a => (s.conns[c]?.map fun k => k.posting a).getD .nothing
  | _ => .nothing

end PMRAccess.Pmr

namespace PMRAccess.Pmem

open Lib Rdma

def Conn.posting (k : Conn) : Act → Posting
  | .call (.write r) => .request (.write r) (k.writeAddr r)
  | .call (.get key) => .request (.get key) 0
  | .call (.delete key) => .request (.delete key) 0
  | .call .close => .close
  | .client => .nothing
  | .clerk =>
    match k.pc with
    | .reply => .reply (replyValSize k.clerkBuf)
    | .read => if reqOp k.clerkBuf = some .close then .recv else .nothing
    | _ => .nothing

def posting (s : State) : Label → Posting
  | .connect _ _ _ => .nothing
  | .conn c a => (s.conns[c]?.map fun k => k.posting a).getD .nothing

end PMRAccess.Pmem

namespace PMRAccess.Group

open Lib Rdma

def Conn.posting (k : Conn) : Act → Posting
  | .call (.write r) => .request (.write r) 0
  | .call (.get key) => .request (.get key) 0
  | .call (.delete key) => .request (.delete key) 0
  | .call .close => .close
  | .client => .nothing
  | .clerk =>
    match k.pc with
    | .reply => .reply (replyValSize k.clerkBuf)
    | .read => if reqOp k.clerkBuf = some .close then .recv else .nothing
    | _ => .nothing

def posting (s : State) : Label → Posting
  | .connect _ _ => .nothing
  | .conn c a => (s.conns[c]?.map fun k => k.posting a).getD .nothing

end PMRAccess.Group

namespace PMRAccess.Rdma

open Lib

/-- The longest value of a request, hence of a reply, that fits the client's message buffer. -/
def FrontEnd.maxValue (fe : FrontEnd) : Nat := fe.bufSize .client - ringHeader - sizeofRequest

/-- Some run of requests that fit, on a database of values that fit, takes a step that posts `x`. -/
inductive FrontEnd.Posts : FrontEnd → Posting → Prop
  | pmr {mem file : Buf} {db : Store} {tr es : List Pmr.Event} {s s' : Pmr.State} {l : Pmr.Label}
      (hdb : db.Bounded (maxValue .pmr)) (hr : Pmr.Run Pmr.Fit mem file db tr s) (hf : Pmr.Fit s l)
      (hs : Pmr.step s l = some (s', es)) : Posts .pmr (Pmr.posting s l)
  | pmem {db : Store} {tr es : List Pmem.Event} {s s' : Pmem.State} {l : Pmem.Label}
      (hdb : db.Bounded (maxValue .pmem)) (hr : Pmem.Run Pmem.Fit db tr s) (hf : Pmem.Fit s l)
      (hs : Pmem.step s l = some (s', es)) : Posts .pmem (Pmem.posting s l)
  | group {batch : Group.WriteBatch} {db : Store} {file : Buf} {tr es : List Group.Event}
      {s s' : Group.State} {l : Group.Label} (hdb : db.Bounded (maxValue .group))
      (hr : Group.Run Group.Fit batch db file tr s) (hf : Group.Fit s l)
      (hs : Group.step s l = some (s', es)) : Posts .group (Group.posting s l)

/-! ## Ranges -/

/-- The size of a buffer of an end. -/
def FrontEnd.size (fe : FrontEnd) (i : Side) : BufId → Nat
  | .send => sendBufSize
  | .write => fe.bufSize i

/-- The ranges of a work request lie in the buffers its function takes it from and to, and a PMR
clerk, whose `write_buf` may be a dma-buf, does not take it from there. -/
def WrCall.InRange (fe : FrontEnd) (i : Side) : WrCall → Prop
  | send n o | recv n o => n < 2 ^ 32 ∧ o + n ≤ sendBufSize
  | write p =>
    p.msgLen < 2 ^ 32 ∧ p.localOffset + p.msgLen ≤ fe.size i p.verb.source ∧
      p.remoteOffset + p.msgLen ≤ fe.size i.peer p.verb.target ∧
      (p.verb.source = .write → fe ≠ .pmr ∨ i = .client)

/-- A work request in its ranges is valid, but for a long `post_write1`. -/
theorem Net.valid_iff {fe : FrontEnd} (net : Net fe) {i : Side} {w : WrCall} (h : w.InRange fe i) :
    ((net.context i).post w).Valid (net.context i) ↔
      ∀ p, w = .write p → p.verb = .write1 → p.msgLen ≤ maxInlineSize := by
  cases w with
  | send n o =>
    refine iff_of_true (net.postSend_valid i h.1 h.2) ?_
    intro p hp
    cases hp
  | recv n o =>
    refine iff_of_true (net.postRecv_valid i h.1 h.2) ?_
    intro p hp
    cases hp
  | write p =>
    obtain ⟨hn, hl, hr, hm⟩ := h
    simp only [RDMAContext.post, WrCall.write.injEq, forall_eq']
    cases hv : p.verb <;> simp only [hv, Verb.source, Verb.target, FrontEnd.size] at hl hr hm
    · exact iff_of_true (net.postWrite_valid i hn (net.dmabuf i (hm trivial)) hl hr) (by simp)
    · exact iff_of_true (net.postWrite0_valid i hn (net.dmabuf i (hm trivial)) hl hr) (by simp)
    · simpa using net.postWrite1_valid_iff i hn hl hr

/-- What the invariants of the front ends give for a posting. -/
def Posting.Fits (fe : FrontEnd) : Posting → Prop
  | request (.write r) off =>
    r.Short ∧ ringHeader + r.size ≤ fe.bufSize .client ∧
      (fe ≠ .group → off + r.size ≤ fe.bufSize .clerk)
  | request (.get key) _ | request (.delete key) _ =>
    0 ∉ key ∧ ringHeader + sizeofRequest + key.length ≤ fe.bufSize .client
  | reply n => n ≤ fe.maxValue
  | request .alloc _ | close | recv | nothing => True

section
variable {fe : FrontEnd}

theorem bufSize_client_le (fe : FrontEnd) : fe.bufSize .client ≤ sendBufSize := by
  cases fe <;> decide

theorem message_inRange {i : Side} {v : Verb} {n : Nat} (hl : ringHeader + n ≤ fe.size i v.source)
    (hr : ringHeader + n ≤ fe.size i.peer v.target) (hn : n < 2 ^ 32)
    (hm : v.source = .write → fe ≠ .pmr ∨ i = .client) :
    ∀ p ∈ message v n, WrCall.InRange fe i (.write p) := by
  have h4 : 4 ≤ ringHeader + n := by simp only [ringHeader]; omega
  intro p hp
  rcases List.mem_pair.1 hp with rfl | rfl
  · exact ⟨hn, hl, hr, hm⟩
  · exact ⟨show 4 < 2 ^ 32 by decide, by simpa using h4.trans hl, by simpa using h4.trans hr, hm⟩

/-- A message of the client, and one of the clerk. -/
theorem request_inRange (fe : FrontEnd) {n : Nat} (h : ringHeader + n ≤ fe.bufSize .client) :
    ∀ p ∈ message fe.requestVerb n, WrCall.InRange fe .client (.write p) := by
  have hb := bufSize_client_le fe
  have hn : n < 2 ^ 32 := by simp only [sendBufSize] at hb; omega
  cases fe with
  | pmr | pmem => exact message_inRange h (h.trans hb) hn fun _ => .inr rfl
  | group => exact message_inRange h h hn fun _ => .inr rfl

theorem reply_inRange (fe : FrontEnd) {n : Nat} (h : ringHeader + n ≤ fe.bufSize .client) :
    ∀ p ∈ message fe.replyVerb n, WrCall.InRange fe .clerk (.write p) := by
  have hb := bufSize_client_le fe
  have hn : n < 2 ^ 32 := by simp only [sendBufSize] at hb; omega
  cases fe with
  | pmr | pmem => exact message_inRange (h.trans hb) h hn fun h => by cases h
  | group => exact message_inRange h h hn fun _ => .inl (by decide)

/-- The posts of a `SendWrite`. -/
theorem sendWrite_inRange {r : Record} {off : Nat} (hr : r.Short)
    (hl : ringHeader + r.size ≤ fe.bufSize .client)
    (hoff : fe ≠ .group → off + r.size ≤ fe.bufSize .clerk) :
    ∀ p ∈ fe.posts off (.write r), WrCall.InRange fe .client (.write p) := by
  obtain ⟨-, -, hm, ht⟩ := hr.lens
  have hms : ringHeader + (sizeofRequest + r.key.length) ≤ fe.bufSize .client := by
    simp only [Record.size] at hl
    omega
  have hs : r.size < 2 ^ 32 := by have := hr.2.2; omega
  cases fe with
  | pmr =>
    intro p hp
    simp only [FrontEnd.posts, pmrSendWrite, hm, ht, List.mem_cons, List.not_mem_nil, or_false] at hp
    rcases hp with rfl | rfl | rfl
    · exact request_inRange .pmr hms _ List.mem_cons_self
    · exact ⟨hs, hl, hoff (by decide), fun _ => .inr rfl⟩
    · exact request_inRange .pmr hms _ (by simp [message, FrontEnd.requestVerb])
  | pmem =>
    intro p hp
    simp only [FrontEnd.posts, pmemSendWrite, ht, List.mem_cons, List.not_mem_nil, or_false] at hp
    rcases hp with rfl | rfl | rfl
    · exact request_inRange .pmem hl _ List.mem_cons_self
    · exact ⟨hs, hl, hoff (by decide), fun _ => .inr rfl⟩
    · exact request_inRange .pmem hl _ (by simp [message, FrontEnd.requestVerb])
  | group =>
    simp only [FrontEnd.posts, groupSendWrite, ht]
    exact request_inRange .group hl

theorem sendKey_inRange {key : Bytes} (h0 : 0 ∉ key)
    (hl : ringHeader + sizeofRequest + key.length ≤ fe.bufSize .client) :
    ∀ p ∈ sendKey fe.requestVerb key, WrCall.InRange fe .client (.write p) := by
  have hc : fe.bufSize .client < 2 ^ 16 := by cases fe <;> decide
  unfold sendKey
  rw [keyLen h0 (by omega)]
  exact request_inRange fe (by omega)

theorem calls_inRange {x : Posting} (h : x.Fits fe) : ∀ p ∈ x.calls fe, p.2.InRange fe p.1 := by
  have hempty : ∀ p ∈ sendKey fe.requestVerb [], WrCall.InRange fe .client (.write p) :=
    sendKey_inRange (by simp) (by cases fe <;> decide)
  intro p hp
  cases x with
  | nothing => cases hp
  | request x off =>
    obtain ⟨q, hq, rfl⟩ := List.mem_map.1 hp
    cases x with
    | write r => exact sendWrite_inRange h.1 h.2.1 h.2.2 q hq
    | get key | delete key => exact sendKey_inRange h.1 h.2 q hq
    | alloc => exact hempty q hq
  | close =>
    rcases List.mem_append.1 hp with hp | hp
    · obtain ⟨q, hq, rfl⟩ := List.mem_map.1 hp
      exact hempty q hq
    · obtain rfl := List.mem_singleton.1 hp
      exact ⟨by decide, by decide⟩
  | recv =>
    obtain rfl := List.mem_singleton.1 hp
    exact ⟨by decide, by decide⟩
  | reply n =>
    obtain ⟨q, hq, rfl⟩ := List.mem_map.1 hp
    have hn : n ≤ fe.bufSize .client - ringHeader - sizeofRequest := h
    have hb : ringHeader + sizeofRequest ≤ fe.bufSize .client := by cases fe <;> decide
    exact reply_inRange fe (by omega) q hq

/-- Requests go by `post_write` and `post_write0`. -/
theorem posts_verb (x : Call) (off : Nat) : ∀ p ∈ fe.posts off x, p.verb ≠ .write1 := by
  cases fe <;> cases x <;>
    simp [FrontEnd.posts, pmrSendWrite, pmemSendWrite, groupSendWrite, sendKey, message,
      FrontEnd.requestVerb]

/-- The long messages that go by `post_write1` are replies. -/
theorem calls_write1 {x : Posting} {i : Side} {p : Post} (hp : (i, .write p) ∈ x.calls fe)
    (hv : p.verb = .write1) (hlong : maxInlineSize < p.msgLen) :
    ∃ n, x = .reply n ∧ fe.replyVerb = .write1 ∧ p.msgLen = sizeofRequest + n := by
  cases x with
  | nothing => cases hp
  | request x off =>
    obtain ⟨q, hq, he⟩ := List.mem_map.1 hp
    cases he
    exact absurd hv (posts_verb x off p hq)
  | close =>
    rcases List.mem_append.1 hp with hp | hp
    · obtain ⟨q, hq, he⟩ := List.mem_map.1 hp
      cases he
      exact absurd hv (posts_verb .alloc 0 p hq)
    · cases List.mem_singleton.1 hp
  | recv => cases List.mem_singleton.1 hp
  | reply n =>
    obtain ⟨q, hq, he⟩ := List.mem_map.1 hp
    cases he
    rcases List.mem_pair.1 hq with rfl | rfl
    · exact ⟨n, rfl, hv, rfl⟩
    · exact absurd hlong (show ¬ maxInlineSize < 4 by decide)

end

/-! ## Runs -/

section
variable {mem file : Buf} {db : Store}

theorem pmr_call_fits {x : Pmr.Call} (hx : x.Fits) (k : Pmr.Conn) :
    (k.posting (.call x)).Fits .pmr := by
  cases x with
  | write r =>
    simp only [Pmr.Conn.posting]
    split <;> trivial
  | get key | delete key => exact hx
  | alloc | close => trivial

/-- A record is posted into the client's chunk. -/
theorem pmr_client_fits {h : Pmr.History} {s : Pmr.State} {c : Nat} {k : Pmr.Conn}
    (hd : Pmr.Data h s) (hk : s.conns[c]? = some k) (hp : k.pc = .poll) :
    (k.posting .client).Fits .pmr := by
  simp only [Pmr.Conn.posting]
  split
  · rename_i r hc
    obtain ⟨i, -, hi, -, haddr, hfit, hroom, -⟩ := hd.post_range hk hc hp
    have hi' : i < 256 := hi
    have hsize := hfit.size_le
    refine ⟨hfit.short, by simp only [FrontEnd.bufSize]; omega, fun _ => ?_⟩
    rw [haddr]
    simp only [FrontEnd.bufSize, maxAsyncSize] at hroom ⊢
    omega
  · trivial

theorem pmr_clerk_fits {k : Pmr.Conn} (hs : k.Short) (seen : Bool) :
    (k.posting (.clerk seen)).Fits .pmr := by
  simp only [Pmr.Conn.posting]
  split
  · rename_i hp
    simp only [Pmr.Conn.Short, hp] at hs
    exact hs
  · split <;> trivial
  · split <;> trivial
  · trivial

theorem pmr_fits {tr es : List Pmr.Event} {s s' : Pmr.State} {l : Pmr.Label}
    (hdb : db.Bounded (FrontEnd.maxValue .pmr)) (hr : Pmr.Run Pmr.Fit mem file db tr s)
    (hf : Pmr.Fit s l) (hs : Pmr.step s l = some (s', es)) : (Pmr.posting s l).Fits .pmr := by
  cases Pmr.step_cases hs with
  | connect hl => subst hl; trivial
  | ring hc ht =>
    cases l with
    | connect lb sb => cases hc
    | conn c a => cases hc
    | dequeue | uring | complete | waitFail => trivial
  | @conn c a k k' sv' _ hl hk hm =>
    subst hl
    simp only [Pmr.posting, hk, Option.map_some, Option.getD_some]
    cases a with
    | call x => exact pmr_call_fits (hf (c, x) rfl) k
    | client =>
      have hp : k.pc = .poll := by cases hm <;> assumption
      exact pmr_client_fits (Pmr.data_run (fun _ _ h => h) hr) hk hp
    | clerk b => exact pmr_clerk_fits ((Pmr.small_run hdb hr).short c k hk) b

theorem pmem_fits {tr es : List Pmem.Event} {s s' : Pmem.State} {l : Pmem.Label}
    (hdb : db.Bounded (FrontEnd.maxValue .pmem)) (hr : Pmem.Run Pmem.Fit db tr s)
    (hf : Pmem.Fit s l) (hs : Pmem.step s l = some (s', es)) : (Pmem.posting s l).Fits .pmem := by
  have hsm := Pmem.small_run hdb hr
  cases Pmem.step_cases hs with
  | connect hl => subst hl; trivial
  | @conn c a k k' sv' _ hl hk hm =>
    subst hl
    simp only [Pmem.posting, hk, Option.map_some, Option.getD_some]
    cases a with
    | call x =>
      have hx : x.Fits := hf x rfl
      cases x with
      | write r =>
        have hb := Pmem.writeAddr_le hx (hsm.cursor c k hk)
        rw [hx.short.lens.2.2.2] at hb
        have hsize := hx.2.2
        refine ⟨hx.short, by simp only [FrontEnd.bufSize]; omega, fun _ => Nat.le_of_lt hb⟩
      | get key | delete key =>
        have hl := hx.2
        exact ⟨hx.1, by simp only [FrontEnd.bufSize]; omega⟩
      | close => trivial
    | client => trivial
    | clerk =>
      have hshort := hsm.short c k hk
      simp only [Pmem.Conn.posting]
      split
      · rename_i hp
        simp only [Pmem.Conn.Short, hp] at hshort
        exact hshort
      · split <;> trivial
      · trivial

theorem group_fits {batch : Group.WriteBatch} {tr es : List Group.Event} {s s' : Group.State}
    {l : Group.Label} (hdb : db.Bounded (FrontEnd.maxValue .group))
    (hr : Group.Run Group.Fit batch db file tr s) (hf : Group.Fit s l)
    (hs : Group.step s l = some (s', es)) : (Group.posting s l).Fits .group := by
  have hsm := Group.small_run hdb hr
  cases Group.step_cases hs with
  | connect hl => subst hl; trivial
  | @conn c a k k' sv' w _ hl hk hm =>
    subst hl
    simp only [Group.posting, hk, Option.map_some, Option.getD_some]
    cases a with
    | call x =>
      have hx : x.Fits := hf x rfl
      cases x with
      | write r =>
        have hsize := Group.Req.Fits.bounds hx
        exact ⟨⟨hx.1, hx.2.1, lt_of_le_of_lt hsize.2.2 (by decide)⟩, hx.2.2, fun h => absurd rfl h⟩
      | get key | delete key =>
        have hl := hx.2.2
        simp only [Group.Req.size, Group.Req.key, Group.Req.val, List.length_nil] at hl
        exact ⟨hx.1, by simp only [FrontEnd.bufSize]; omega⟩
      | close => trivial
    | client => trivial
    | clerk =>
      have hshort := hsm.short c k hk
      simp only [Group.Conn.posting]
      split
      · rename_i hp
        simp only [Group.Conn.Short, hp] at hshort
        exact hshort
      · split <;> trivial
      · trivial

end

theorem FrontEnd.Posts.fits {fe : FrontEnd} {x : Posting} (h : fe.Posts x) : x.Fits fe := by
  cases h with
  | pmr hdb hr hf hs => exact pmr_fits hdb hr hf hs
  | pmem hdb hr hf hs => exact pmem_fits hdb hr hf hs
  | group hdb hr hf hs => exact group_fits hdb hr hf hs

/-- **Work requests are valid but for long replies by `post_write1`.** In every run of requests that
fit, the work requests of a step are all valid, exactly if the step does not post a reply of more
than `MAX_INLINE_SIZE` bytes in a front end whose clerks reply by `post_write1`. -/
theorem posted_valid_iff {fe : FrontEnd} (net : Net fe) {x : Posting} (h : fe.Posts x) :
    (∀ p ∈ x.calls fe, ((net.context p.1).post p.2).Valid (net.context p.1)) ↔
      ∀ n, x = .reply n → fe.replyVerb = .write1 → sizeofRequest + n ≤ maxInlineSize := by
  have hin := calls_inRange h.fits
  constructor
  · rintro hv n rfl hw1
    have hmem : (Side.clerk, WrCall.write ⟨fe.replyVerb, sizeofRequest + n, ringHeader, ringHeader,
        false⟩) ∈ (Posting.reply n).calls fe := List.mem_cons_self
    exact (net.valid_iff (hin _ hmem)).1 (hv _ hmem) _ rfl hw1
  · intro hc p hp
    rw [net.valid_iff (hin p hp)]
    intro q hq hw1
    by_contra hlong
    obtain ⟨i, w⟩ := p
    subst hq
    obtain ⟨n, hx, hfe, hlen⟩ := calls_write1 hp hw1 (Nat.lt_of_not_le hlong)
    exact hlong (hlen ▸ hc n hx hfe)

/-- Buffers one behind the other. -/
def Net.adjacent (fe : FrontEnd) : Net fe where
  buffers i :=
    { send := ⟨0, sendBufSize, 1, 1⟩
      write := ⟨sendBufSize, fe.bufSize i, 2, 2⟩
      mapped := none
      send_length := rfl
      write_length := rfl
      apart := .inl (Nat.zero_add sendBufSize).le
      lkeys := show 1 ≠ 2 by decide
      rkeys := show 1 ≠ 2 by decide }
  dmabuf _ _ := rfl

/-- The `GET` of a short value. -/
theorem posted_valid_short :
    FrontEnd.Posts .pmr (.reply 2) ∧ ∀ p ∈ (Posting.reply 2).calls .pmr,
      (((Net.adjacent .pmr).context p.1).post p.2).Valid ((Net.adjacent .pmr).context p.1) := by
  obtain ⟨tr, s, hr, hs, hp⟩ : ∃ tr s,
      Pmr.Run Pmr.Fit Pmr.Sched.zeros Pmr.Sched.zeros (fun _ => none) tr s ∧
      (Pmr.step s (.conn 0 (.clerk false))).isSome ∧
      Pmr.posting s (.conn 0 (.clerk false)) = .reply 2 :=
    ⟨_, _, Steps.of_exec_get (Pmr.Sched.connect 0 0 ++ Pmr.Sched.write 0 ⟨.put, [107], [1, 2]⟩ ++
      .conn 0 (.call (.get [107])) :: Pmr.Sched.clerk 0 3) (by decide +kernel),
      by decide +kernel, by decide +kernel⟩
  obtain ⟨⟨s', es⟩, hs⟩ := Option.isSome_iff_exists.1 hs
  have hf : Pmr.Fit s (.conn 0 (.clerk false)) := by simp [Pmr.Fit, Pmr.Label.Fits, Pmr.Label.call?]
  have h := FrontEnd.Posts.pmr (by simp [Store.Bounded]) hr hf hs
  rw [hp] at h
  refine ⟨h, (posted_valid_iff (Net.adjacent .pmr) h).2 ?_⟩
  rintro n hn -
  cases hn
  decide

/-- **A long `GET` is answered by an invalid work request**: a value of 121 bytes is put and read. -/
theorem long_get_invalid :
    ∃ tr s s' es, Pmr.Run Pmr.Fit Pmr.Sched.zeros Pmr.Sched.zeros (fun _ => none) tr s ∧
      (Pmr.hist tr).acked = [(0, ⟨.put, [107], List.replicate 121 1⟩)] ∧
      Pmr.step s (.conn 0 (.clerk false)) = some (s', es) ∧
      Pmr.posting s (.conn 0 (.clerk false)) = .reply 121 ∧
      ∃ p ∈ (Posting.reply 121).calls .pmr,
        ¬ (((Net.adjacent .pmr).context p.1).post p.2).Valid ((Net.adjacent .pmr).context p.1) := by
  obtain ⟨tr, s, hr, ha, hs, hp⟩ : ∃ tr s,
      Pmr.Run Pmr.Fit Pmr.Sched.zeros Pmr.Sched.zeros (fun _ => none) tr s ∧
      (Pmr.hist tr).acked = [(0, ⟨.put, [107], List.replicate 121 1⟩)] ∧
      (Pmr.step s (.conn 0 (.clerk false))).isSome ∧
      Pmr.posting s (.conn 0 (.clerk false)) = .reply 121 :=
    ⟨_, _, Steps.of_exec_get (Pmr.Sched.connect 0 0 ++
      Pmr.Sched.write 0 ⟨.put, [107], List.replicate 121 1⟩ ++
      .conn 0 (.call (.get [107])) :: Pmr.Sched.clerk 0 3) (by decide +kernel),
      by decide +kernel, by decide +kernel, by decide +kernel⟩
  obtain ⟨⟨s', es⟩, hs⟩ := Option.isSome_iff_exists.1 hs
  refine ⟨tr, s, s', es, hr, ha, hs, hp, (.clerk, .write ⟨.write1, 129, 8, 8, false⟩), by decide, ?_⟩
  intro hv
  have hshort := ((Net.adjacent .pmr).postWrite1_valid_iff .clerk (n := 129) (by decide) (by decide)
    (by decide)).1 hv
  exact absurd hshort (by decide)

end PMRAccess.Rdma
