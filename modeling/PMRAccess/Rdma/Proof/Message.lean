import PMRAccess.Rdma.Handshake

/-!
# Messages

The posts of a request, and those of a reply, are a message (`IsMessage`): the header word comes
last and is the only one signaled, and the others keep off it and off each other. So placing one of
them either leaves the header of the receiver alone or completes the message (`IsMessage.place`).
`received`: once the posts of a request are placed, the clerk's memory holds the request, and the
clerk reads exactly the bytes that were posted. `reply_received` is the same for the reply.
-/

namespace PMRAccess.Rdma

open Lib

/-! ## The header word -/

theorem header_congr {b b' : Buf} (h : b.read 0 4 = b'.read 0 4) : header b = header b' := by
  rw [header, header, h]

theorem header_putHeader (m : Mem BufId) (i : BufId) {v : Nat} (hv : v < 2 ^ 32) :
    header (putHeader m i v i) = v := by
  have h := Buf.read_write_self (m i) 0 (leBytes 4 v)
  rw [length_leBytes] at h
  rw [header, putHeader, Mem.write_self, h, ofLe_leBytes]
  exact Nat.mod_eq_of_lt (by simpa using hv)

theorem header_write {b : Buf} {a : Nat} {bs : Bytes} (ha : 4 ≤ a) :
    header (b.write a bs) = header b :=
  header_congr (Buf.read_write_of_disjoint (by omega))

/-- Preparing a request keeps the header. -/
theorem header_prepare (c : Call) (b : Buf) : header (c.prepare b) = header b := by
  have h4 : 4 ≤ ringHeader := by decide
  have hkey : ∀ op key, header (prepareKey op key b) = header b := by
    intro op key
    rw [prepareKey, header_write (by omega), header_write h4]
  cases c with
  | write r =>
    show header (r.prepare b) = header b
    rw [Record.prepare, header_write (by omega), header_write (by omega), header_write h4]
  | get key => exact hkey .get key
  | delete key => exact hkey .delete key
  | alloc => exact hkey .alloc []

/-! ## Messages -/

/-- The write of the header word. -/
def headerWrite (v : Verb) : Write BufId := Post.toWrite ⟨v, 4, 0, 0, true⟩

/-- The writes of a message (module doc). -/
structure IsMessage (v : Verb) (ws : List (Write BufId)) : Prop where
  last : ∃ body, ws = body ++ [headerWrite v] ∧
    ∀ w ∈ body, w.signal = false ∧ w.Avoids v.target 0 4
  apart : ws.Pairwise Write.Apart

theorem header_of_avoids {m : Mem BufId} {w : Write BufId} {i : BufId} {bs : Bytes}
    (hw : w.Avoids i 0 4) (hl : bs.length = w.len) :
    header (m.write w.target w.dst bs i) = header (m i) := by
  by_cases hi : w.target = i
  · subst hi
    rw [Mem.write_self]
    rcases hw with hne | h | h
    · exact absurd rfl hne
    · -- an empty write in front of the header
      exact header_congr (Buf.read_write_of_disjoint (.inr (by omega)))
    · exact header_congr (Buf.read_write_of_disjoint (.inl h))
  · rw [Mem.write_of_ne (Ne.symm hi)]

/-- **Placing a write of a message**: the last one completes it; the others leave the header. -/
theorem IsMessage.place {v : Verb} {m m' m'' : Mem BufId} {ws placed rest : List (Write BufId)}
    {fs fs' : List (Flight BufId)} {w : Write BufId} (hm : IsMessage v ws)
    (h : InTransit m m' ws placed rest fs) (hp : place m' fs = some (w, m'', fs')) :
    (rest = [] ∧ fs' = [] ∧ w.signal = true ∧ ∀ w ∈ ws, w.Placed m m'') ∨
    ((rest ≠ [] ∨ fs' ≠ []) ∧ w.signal = false ∧ header (m'' v.target) = header (m' v.target) ∧
      InTransit m m'' ws (placed ++ [w]) rest fs') := by
  obtain ⟨hfs, rfl, ht⟩ := h.place hm.apart hp
  obtain ⟨body, hws, hbody⟩ := hm.last
  have horder : ws = placed ++ w :: (fs'.map Flight.write ++ rest) := by simp [ht.order]
  by_cases hl : fs'.map Flight.write ++ rest = []
  · left
    rw [hl, hws] at horder
    obtain ⟨-, hw⟩ := List.append_inj' horder rfl
    obtain ⟨hfs', hrest⟩ := List.append_eq_nil_iff.1 hl
    refine ⟨hrest, List.map_eq_nil_iff.1 hfs', ?_, ?_⟩
    · rw [← (List.cons.inj hw).1]
      rfl
    · intro w' hw'
      apply ht.placed
      have := ht.order
      rw [hfs', hrest] at this
      simpa [this] using hw'
  · right
    -- the write is not the last one, so it is in the body
    have hw : w ∈ body := by
      have hne : w :: (fs'.map Flight.write ++ rest) ≠ [] := by simp
      have hdrop := congrArg List.dropLast (hws.symm.trans horder)
      rw [List.dropLast_concat, List.dropLast_append_of_ne_nil hne,
        List.dropLast_cons_of_ne_nil hl] at hdrop
      rw [hdrop]
      simp
    refine ⟨?_, (hbody w hw).1, header_of_avoids (hbody w hw).2 (by simp), ht⟩
    by_contra hcon
    push Not at hcon
    exact hl (by simp [hcon.1, hcon.2])

/-- A message that is placed has set the header. -/
theorem IsMessage.header {v : Verb} {m m' : Mem BufId} {ws : List (Write BufId)}
    (hm : IsMessage v ws) (h : ∀ w ∈ ws, w.Placed m m') :
    header (m' v.target) = header (m v.source) := by
  obtain ⟨body, rfl, -⟩ := hm.last
  exact header_congr (h (headerWrite v) (by simp))

/-- What the peer has placed keeps off the receiver's header, as long as the message is not
complete. -/
theorem IsMessage.avoids {v : Verb} {m m' : Mem BufId} {ws placed rest : List (Write BufId)}
    {fs : List (Flight BufId)} (hm : IsMessage v ws) (h : InTransit m m' ws placed rest fs)
    (hne : rest ≠ [] ∨ fs ≠ []) : ∀ w ∈ placed, w.Avoids v.target 0 4 := by
  intro w hw
  obtain ⟨body, hws, hbody⟩ := hm.last
  have hl : fs.map Flight.write ++ rest ≠ [] := by
    rcases hne with hne | hne <;> simp [hne]
  have hdrop := congrArg List.dropLast (hws.symm.trans (h.order.trans (List.append_assoc _ _ _)))
  rw [List.dropLast_concat, List.dropLast_append_of_ne_nil hl] at hdrop
  exact (hbody w (by rw [hdrop]; simp [hw])).2

/-- A message of two posts. -/
theorem isMessage_message (v : Verb) (n : Nat) : IsMessage v ((message v n).map Post.toWrite) where
  last := by
    refine ⟨[Post.toWrite ⟨v, n, ringHeader, ringHeader, false⟩], rfl, ?_⟩
    intro w hw
    rw [List.mem_singleton.1 hw]
    exact ⟨rfl, .inr (.inr (by simp [Post.toWrite, ringHeader]))⟩
  apart := by simp [message, Write.Apart, Post.toWrite, ringHeader]

/-- The posts of a `SendWrite` with a record: that goes to another buffer. -/
theorem isMessage_record (n n' off : Nat) : IsMessage .write0
    (([⟨.write0, n, ringHeader, ringHeader, false⟩, ⟨.write, n', ringHeader, off, false⟩,
      ⟨.write0, 4, 0, 0, true⟩] : List Post).map Post.toWrite) where
  last := by
    refine ⟨[Post.toWrite ⟨.write0, n, ringHeader, ringHeader, false⟩,
      Post.toWrite ⟨.write, n', ringHeader, off, false⟩], rfl, ?_⟩
    intro w hw
    rcases List.mem_pair.1 hw with rfl | rfl
    · exact ⟨rfl, .inr (.inr (by simp [Post.toWrite, ringHeader]))⟩
    · exact ⟨rfl, .inl (by simp [Post.toWrite, Verb.target])⟩
  apart := by simp [Write.Apart, Post.toWrite, Verb.target, ringHeader]

theorem isMessage_posts (fe : FrontEnd) (off : Nat) (c : Call) :
    IsMessage fe.requestVerb ((fe.posts off c).map Post.toWrite) := by
  cases c with
  | write r =>
    cases fe with
    | pmr => exact isMessage_record r.metaLen r.totalLen off
    | pmem => exact isMessage_record r.totalLen r.totalLen off
    | group => exact isMessage_message .write r.totalLen
  | get key => exact isMessage_message _ _
  | delete key => exact isMessage_message _ _
  | alloc => exact isMessage_message _ _

/-! ## What the receiver reads -/

/-- The clerk's memory holds what was posted for a request, and the clerk reads just that; a record
is in the buffer that is not the message buffer. -/
structure Asked.Received (fe : FrontEnd) (x : Asked) (m : Mem BufId) : Prop where
  msg : (m fe.clerkBuf).read ringHeader (fe.readLen (m fe.clerkBuf)) = x.msg
  record : ∀ off bs, x.record = some (off, bs) →
    fe.clerkBuf ≠ .write ∧ (m .write).read off bs.length = bs

/-- The header word is no part of a message. -/
theorem read_putHeader (m : Mem BufId) (i : BufId) (v : Nat) {a : Nat} (ha : 4 ≤ a) (n : Nat) :
    (putHeader m i v i).read a n = (m i).read a n := by
  rw [putHeader, Mem.write_self]
  exact Buf.read_write_of_disjoint (.inr (by simpa using ha))

theorem Asked.Received.putHeader {fe : FrontEnd} {x : Asked} {m : Mem BufId}
    (h : x.Received fe m) (v : Nat) : x.Received fe (putHeader m fe.clerkBuf v) where
  msg := by
    have hread := read_putHeader m fe.clerkBuf v (show 4 ≤ ringHeader by decide)
    have hread4 := read_putHeader m fe.clerkBuf v (show 4 ≤ ringHeader + 4 by decide)
    have hlen : fe.readLen (Rdma.putHeader m fe.clerkBuf v fe.clerkBuf) =
        fe.readLen (m fe.clerkBuf) := by
      cases fe <;>
        simp only [FrontEnd.readLen, reqLength, reqKeySize, reqValSize, hread, hread4]
    rw [hlen, hread]
    exact h.msg
  record off bs hx := by
    obtain ⟨hne, hr⟩ := h.record off bs hx
    refine ⟨hne, ?_⟩
    rw [Rdma.putHeader, Mem.write_of_ne (Ne.symm hne)]
    exact hr

/-- A request in the client's message buffer: its header and key, and the length of its message,
with which the value comes in the front ends other than PMR. -/
theorem Call.asks {fe : FrontEnd} {c : Call} (hc : fe.Sends c) (b : Buf) :
    ∃ op v, c.key.length + v < 2 ^ 16 ∧ Asks (c.prepare b) op c.key v ∧
      fe.msgLen c = if fe = .pmr then sizeofRequest + c.key.length
        else sizeofRequest + c.key.length + v := by
  have hkey : ∀ (op : Operation) (key : Bytes), 0 ∉ key → sizeofRequest + key.length < 2 ^ 16 →
      ∃ op' v, key.length + v < 2 ^ 16 ∧ Asks (prepareKey op key b) op' key v ∧
        (sizeofRequest + len16 key) % 2 ^ 16 = if fe = .pmr then sizeofRequest + key.length
          else sizeofRequest + key.length + v := by
    intro op key h0 hl
    refine ⟨op, 0, by omega, read_prepareKey h0 op b, ?_⟩
    rw [keyLen h0 hl, Nat.add_zero, ite_self]
  cases c with
  | write r =>
    have hr : r.Short := hc
    have hs := hr.2.2
    obtain ⟨-, -, hm, ht⟩ := hr.lens
    refine ⟨r.op.op, r.val.length, ?_, ?_, ?_⟩
    · simp only [Record.size] at hs
      simp only [Call.key]
      omega
    · have hb := hr.read_prepare b
      rw [Record.bytes, ← List.append_assoc] at hb
      have h1 := (Buf.read_eq_append hb).1
      rwa [List.length_append, length_requestHeader] at h1
    · cases fe with
      | pmr => exact hm
      | pmem => exact ht
      | group => exact ht
  | get key => exact hkey .get key hc.1 hc.2
  | delete key => exact hkey .delete key hc.1 hc.2
  | alloc => exact hkey .alloc [] (by simp) (by decide)

/-- The message of a request has the length that the clerk reads. -/
theorem readLen_eq {fe : FrontEnd} {c : Call} (hc : fe.Sends c) {b b' : Buf}
    (hb : b'.read ringHeader (fe.msgLen c) = (c.prepare b).read ringHeader (fe.msgLen c)) :
    fe.readLen b' = fe.msgLen c := by
  obtain ⟨op, v, hl, ha, hm⟩ := Call.asks hc b
  have hle : sizeofRequest + c.key.length ≤ fe.msgLen c := by
    rw [hm]
    split <;> omega
  have ha' : Asks b' op c.key v := (Buf.read_eq_of_le hb hle).trans ha
  have hk : reqKeySize b' = c.key.length := ha'.keySize (by omega)
  have hv : reqValSize b' = v := ha'.valSize (by omega)
  cases fe with
  | pmr => rw [FrontEnd.readLen, hk, hm, if_pos rfl]
  | pmem =>
    rw [FrontEnd.readLen, reqLength, hk, hv, hm, if_neg (by decide), Nat.mod_eq_of_lt]
    simp only [sizeofRequest]
    omega
  | group =>
    rw [FrontEnd.readLen, reqLength, hk, hv, hm, if_neg (by decide), Nat.mod_eq_of_lt]
    simp only [sizeofRequest]
    omega

/-- The first post of a request is its message. -/
theorem posts_msg {fe : FrontEnd} (off : Nat) (c : Call) :
    ⟨fe.requestVerb, fe.msgLen c, ringHeader, ringHeader, false⟩ ∈ fe.posts off c := by
  cases c <;> cases fe <;> exact List.mem_cons_self

theorem msgLen_lt (fe : FrontEnd) (c : Call) : fe.msgLen c < 2 ^ 16 := by
  cases c with
  | write r => cases fe <;> exact Nat.mod_lt _ (by decide)
  | get key => exact Nat.mod_lt _ (by decide)
  | delete key => exact Nat.mod_lt _ (by decide)
  | alloc => exact Nat.mod_lt _ (by decide)

/-- **A request that is placed is received.** -/
theorem received {fe : FrontEnd} {c : Call} {off : Nat} {m m' : Mem BufId} {b : Buf}
    (hc : fe.Sends c) (hb : m .write = c.prepare b)
    (h : ∀ w ∈ (fe.posts off c).map Post.toWrite, w.Placed m m') :
    (fe.asked off (m .write) c).Received fe m' where
  msg := by
    have hsrc : fe.requestVerb.source = .write := by cases fe <;> rfl
    have hp := h _ (List.mem_map_of_mem (posts_msg off c))
    have hlt := msgLen_lt fe c
    simp only [Write.Placed, Write.bytes, Post.toWrite, hsrc,
      Nat.mod_eq_of_lt (show fe.msgLen c < 2 ^ 32 by omega)] at hp
    show (m' fe.requestVerb.target).read ringHeader (fe.readLen (m' fe.requestVerb.target)) = _
    rw [readLen_eq hc (hp.trans (by rw [hb]))]
    exact hp
  record := by
    intro o bs hx
    -- only a `SendWrite` of the PMR and PMem front ends has a record
    have hrec : ∀ r : Record, some (off, (m .write).read ringHeader r.totalLen) = some (o, bs) →
        ⟨.write, r.totalLen, ringHeader, off, false⟩ ∈ fe.posts off c →
        (m' .write).read o bs.length = bs := by
      intro r he hmem
      simp only [Option.some.injEq, Prod.mk.injEq] at he
      obtain ⟨rfl, rfl⟩ := he
      have hlt : r.totalLen < 2 ^ 16 := Nat.mod_lt _ (by decide)
      have hp := h _ (List.mem_map_of_mem hmem)
      simp only [Write.Placed, Write.bytes, Post.toWrite, Verb.source, Verb.target,
        Nat.mod_eq_of_lt (show r.totalLen < 2 ^ 32 by omega)] at hp
      rwa [Buf.length_read]
    cases c with
    | write r =>
      cases fe with
      | pmr => exact ⟨by decide, hrec r hx (by simp [FrontEnd.posts, pmrSendWrite])⟩
      | pmem => exact ⟨by decide, hrec r hx (by simp [FrontEnd.posts, pmemSendWrite])⟩
      | group => cases hx
    | get key => cases fe <;> cases hx
    | delete key => cases fe <;> cases hx
    | alloc => cases fe <;> cases hx

/-- **A reply that is placed is received**: the client reads the bytes that the clerk posted. -/
theorem reply_received {fe : FrontEnd} {m m' : Mem BufId} (hl : replyLen (m fe.clerkBuf) < 2 ^ 32)
    (h : ∀ w ∈ (fe.reply (m fe.clerkBuf)).map Post.toWrite, w.Placed m m') :
    (m' .write).read ringHeader (replyLen (m' .write)) =
      (m fe.clerkBuf).read ringHeader (replyLen (m fe.clerkBuf)) := by
  have hsrc : fe.replyVerb.source = fe.clerkBuf := by cases fe <;> rfl
  have htgt : fe.replyVerb.target = .write := by cases fe <;> rfl
  have hp := h _ (List.mem_map_of_mem (List.mem_cons_self))
  simp only [Write.Placed, Write.bytes, Post.toWrite, hsrc, htgt, Nat.mod_eq_of_lt hl] at hp
  -- the length of the reply is part of it
  have hlen : replyLen (m' .write) = replyLen (m fe.clerkBuf) := by
    have h8 := Buf.read_eq_of_le hp (show 4 + 4 ≤ replyLen (m fe.clerkBuf) from
      Nat.le_add_right sizeofRequest _)
    rw [Buf.read_add, Buf.read_add] at h8
    rw [replyLen, replyLen, replyValSize, replyValSize, (List.append_inj h8 (by simp)).2]
  rw [hlen]
  exact hp

end PMRAccess.Rdma
