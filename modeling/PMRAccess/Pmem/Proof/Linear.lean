import PMRAccess.Atomic
import PMRAccess.Pmem.Proof.Replies

/-!
# The PMem front end is linearizable

`seen` is what clients see of a step: a call with its arguments, a return with its result. Each
connection is in a phase of the atomic map (`Linked`): between call and execution its request is in
the clerk's message buffer or in the clerk's hands, between execution and return its result is on
the way back. `linearizable`: every run of any number of clients, with any keys in common, looks
like one of the atomic map.
-/

namespace PMRAccess.Pmem

open Lib

/-! ## What clients see -/

def Call.op? : Call → Option MapOp
  | .write r => some (.put r.key r.val)
  | .get key => some (.get key)
  | .delete key => some (.delete key)
  | .close => none

def Ctl.op? : Ctl → Option MapOp
  | .idle | .close => none
  | .write r => some (.put r.key r.val)
  | .get key => some (.get key)
  | .delete key => some (.delete key)

def Event.ret? : Event → Option (Seen Nat MapOp MapRes)
  | .posted _ _ _ => none
  | .acked c r => some (.ret c (.put r.key r.val) .stored)
  | .got c key val => some (.ret c (.get key) (.got val))
  | .deleted c key ok => some (.ret c (.delete key) (.deleted ok))

def Label.seen : Label → List (Seen Nat MapOp MapRes)
  | .conn c (.call x) => (x.op?.map (.call c)).toList
  | _ => []

/-- The call that a step starts, the calls that return. -/
def seen (l : Label) (es : List Event) : List (Seen Nat MapOp MapRes) :=
  l.seen ++ es.filterMap Event.ret?

/-! ## The phases of a connection -/

/-- The request of a call is in the message buffer. -/
def Poses (b : Buf) : Ctl → Prop
  | .idle => False
  | .write r => (Call.write r).Fits ∧ b.read ringHeader r.size = r.bytes
  | .get key => key.length < 2 ^ 24 ∧ Asks b .get key 0
  | .delete key => key.length < 2 ^ 24 ∧ Asks b .delete key 0
  | .close => Asks b .close [] 0

/-- The result of an operation is in the message buffer; that of a write is not looked at. -/
def Tells (b : Buf) : MapOp → MapRes → Prop
  | .put _ _, .stored => True
  | .get _, .got (some value) => value.length < 2 ^ 32 ∧ Answers b .ok value
  | .get _, .got none => Answers b .notfound []
  | .delete _, .deleted ok => ok = true ∧ Answers b .ok []
  | _, _ => False

/-- The case of an operation in the clerk's loop. -/
def Pc.ofOp : MapOp → Pc
  | .put key val => .dbPut key val
  | .get key => .dbGet key
  | .delete key => .dbDelete key

inductive Linked (k : Conn) : Phase MapOp MapRes → Prop
  | idle (hc : k.ctl = .idle) (hp : k.pc = .poll) : Linked k .idle
  | posed {op : MapOp} (ho : k.ctl.op? = some op) (hp : k.pc = .read) (hb : Poses k.clerkBuf k.ctl) :
      Linked k (.called op)
  | entered {op : MapOp} (ho : k.ctl.op? = some op) (hp : k.pc = .ofOp op)
      (hv : ∀ key val, op = .put key val → val.length < 2 ^ 32) : Linked k (.called op)
  | executed {op : MapOp} {res : MapRes} (ho : k.ctl.op? = some op) (hp : k.pc = .reply)
      (hb : Tells k.clerkBuf op res) : Linked k (.executed op res)
  | replied {op : MapOp} {res : MapRes} (ho : k.ctl.op? = some op) (hp : k.pc = .poll)
      (hb : Tells k.localBuf op res) : Linked k (.executed op res)
  | closing (hc : k.ctl = .close) (hp : k.pc = .read) (hb : Poses k.clerkBuf k.ctl) : Linked k .idle
  | closed (hc : k.ctl = .close) (hp : k.pc = .done) : Linked k .idle

section
variable {k : Conn} {c : Nat} {φ : Phase MapOp MapRes} {op : MapOp} {res : MapRes} {b : Buf}

/-! ## Calls and returns -/

/-- A request that is posted to the clerk. -/
theorem read_post {bs : Bytes} (b' : Buf) (h : b.read ringHeader bs.length = bs) :
    (b'.write ringHeader (b.read ringHeader bs.length)).read ringHeader bs.length = bs := by
  rw [h]
  exact Buf.read_write_self _ _ _

theorem poses_request {key : Bytes} (h0 : 0 ∉ key) (hl : sizeofRequest + key.length ≤ maxRequest)
    (o : Operation) (ctl : Ctl) : Asks (k.request o key ctl).clerkBuf o key 0 := by
  have hn := keyLen h0 (lt_of_le_of_lt hl (by decide))
  have hr := read_prepareKey h0 o k.localBuf
  have hlen : (requestHeader o key.length 0 ++ key).length = sizeofRequest + key.length := by
    rw [List.length_append, length_requestHeader]
  simp only [Conn.request, Conn.post, hn]
  rw [← hlen] at hr
  have hp := read_post k.clerkBuf hr
  rwa [hlen] at hp

theorem poses_sendWrite {r : Record} (h : (Call.write r).Fits) :
    (k.sendWrite r).clerkBuf.read ringHeader r.size = r.bytes := by
  have hr := h.short.read_prepare k.localBuf
  simp only [Conn.sendWrite, Conn.post, h.short.lens.2.2.2]
  rw [← r.length_bytes] at hr ⊢
  exact read_post _ hr

theorem key_short {key : Bytes} (hl : sizeofRequest + key.length ≤ maxRequest) :
    key.length < 2 ^ 24 := by
  simp only [maxRequest] at hl
  omega

theorem linked_call {x : Call} (hx : x.Fits) :
    Linked (k.call c x).1 (x.op?.elim .idle .called) := by
  cases x with
  | write r => exact .posed rfl rfl ⟨hx, poses_sendWrite hx⟩
  | get key => exact .posed rfl rfl ⟨key_short hx.2, poses_request hx.1 hx.2 _ _⟩
  | delete key => exact .posed rfl rfl ⟨key_short hx.2, poses_request hx.1 hx.2 _ _⟩
  | close => exact .closing rfl rfl (poses_request (by simp) (by decide) _ _)

/-- The client returns what the reply tells. -/
theorem clientStep_ret {k' : Conn} {es : List Event} (ho : k.ctl.op? = some op)
    (hb : Tells k.localBuf op res) (h : clientStep c k = some (k', es)) :
    k' = { k with ctl := .idle } ∧ es.filterMap Event.ret? = [.ret c op res] := by
  unfold clientStep at h
  cases hc : k.ctl with
  | idle | close => simp [hc] at h
  | write r =>
    simp only [hc, Option.some.injEq, Prod.mk.injEq] at h
    obtain ⟨rfl, rfl⟩ := h
    obtain rfl : .put r.key r.val = op := by simpa [hc, Ctl.op?] using ho
    cases res with
    | stored => exact ⟨rfl, rfl⟩
    | got v => exact hb.elim
    | deleted ok => exact hb.elim
  | get key =>
    simp only [hc, Option.some.injEq, Prod.mk.injEq] at h
    obtain ⟨rfl, rfl⟩ := h
    obtain rfl : .get key = op := by simpa [hc, Ctl.op?] using ho
    match res, hb with
    | .got (some value), hb =>
      obtain ⟨hok, -, hval⟩ := hb.2.reply hb.1
      simp [hok, hval, Event.ret?]
    | .got none, hb =>
      obtain ⟨hok, -, -⟩ := Answers.reply hb (by decide)
      simp [hok, Event.ret?]
  | delete key =>
    simp only [hc, Option.some.injEq, Prod.mk.injEq] at h
    obtain ⟨rfl, rfl⟩ := h
    obtain rfl : .delete key = op := by simpa [hc, Ctl.op?] using ho
    match res, hb with
    | .deleted ok, hb =>
      obtain ⟨hok, -, -⟩ := Answers.reply hb.2 (by decide)
      simp [hok, hb.1, Event.ret?]

/-! ## The clerk -/

theorem val_of_poses {r : Record} (h : (Call.write r).Fits)
    (hb : b.read ringHeader r.size = r.bytes) :
    reqOp b = some r.op.op ∧ reqKey b = r.key ∧ reqVal b = r.val := by
  have hs := h.2.2
  simp only [Record.size, maxRequest] at hs
  rw [Record.bytes, ← List.append_assoc] at hb
  obtain ⟨h1, h2⟩ := Buf.read_eq_append hb
  rw [List.length_append, length_requestHeader] at h1 h2
  have ha : Asks b r.op.op r.key r.val.length := h1
  have hk : r.key.length < 2 ^ 24 := by omega
  refine ⟨ha.op, ha.key hk, ?_⟩
  rw [reqVal, ha.keySize hk, ha.valSize (by omega), Nat.add_assoc, h2]

/-- The clerk enters the case of the operation. -/
theorem readStep_eq {sv : Server} (ho : k.ctl.op? = some op) (hb : Poses k.clerkBuf k.ctl) :
    readStep sv k = (sv, { k with pc := .ofOp op }) := by
  cases hc : k.ctl with
  | idle | close => simp [hc, Ctl.op?] at ho
  | write r =>
    rw [hc] at hb
    obtain ⟨h1, h2, h3⟩ := val_of_poses hb.1 hb.2
    obtain rfl : .put r.key r.val = op := by simpa [hc, Ctl.op?] using ho
    unfold readStep
    cases hop : r.op <;> simp [h1, h2, h3, hop, hc, WriteOp.op, Pc.ofOp]
  | get key =>
    rw [hc] at hb
    obtain rfl : .get key = op := by simpa [hc, Ctl.op?] using ho
    simp [readStep, hb.2.op, hb.2.key hb.1, hc, Pc.ofOp]
  | delete key =>
    rw [hc] at hb
    obtain rfl : .delete key = op := by simpa [hc, Ctl.op?] using ho
    simp [readStep, hb.2.op, hb.2.key hb.1, hc, Pc.ofOp]

/-- The clerk executes the operation. -/
theorem clerkStep_exec {sv sv' : Server} {k' : Conn} (hd : sv.db.Bounded (2 ^ 32 - 1))
    (hv : ∀ key val, op = .put key val → val.length < 2 ^ 32)
    (ho : k.ctl.op? = some op) (hp : k.pc = .ofOp op) (h : clerkStep sv k = some (sv', k')) :
    ∃ res, sv.db.apply op = (sv'.db, res) ∧ sv'.db.Bounded (2 ^ 32 - 1) ∧
      sv'.exited = sv.exited ∧ Linked k' (.executed op res) := by
  unfold clerkStep at h
  cases op with
  | put key val =>
    simp only [hp, Pc.ofOp, Option.some.injEq, Prod.mk.injEq] at h
    obtain ⟨rfl, rfl⟩ := h
    refine ⟨.stored, rfl, hd.put _ ?_, rfl, .executed ho rfl trivial⟩
    have := hv key val rfl
    omega
  | get key =>
    simp only [hp, Pc.ofOp] at h
    cases hdb : sv.db key with
    | some value =>
      simp only [hdb, Option.some.injEq, Prod.mk.injEq] at h
      obtain ⟨rfl, rfl⟩ := h
      have hlen := hd key value hdb
      exact ⟨.got (some value), by simp [Store.apply, hdb], hd, rfl,
        .executed ho rfl ⟨by omega, .setReply _ _ _⟩⟩
    | none =>
      simp only [hdb, Option.some.injEq, Prod.mk.injEq] at h
      obtain ⟨rfl, rfl⟩ := h
      exact ⟨.got none, by simp [Store.apply, hdb], hd, rfl, .executed ho rfl (Answers.setReply _ _ _)⟩
  | delete key =>
    simp only [hp, Pc.ofOp, Option.some.injEq, Prod.mk.injEq] at h
    obtain ⟨rfl, rfl⟩ := h
    exact ⟨.deleted true, rfl, hd.delete _, rfl, .executed ho rfl ⟨rfl, .setReply _ _ _⟩⟩

/-- The reply is posted. -/
theorem Tells.reply (h : Tells k.clerkBuf op res) : Tells k.reply.localBuf op res := by
  match op, res, h with
  | .put _ _, .stored, _ => trivial
  | .get _, .got (some value), h => exact ⟨h.1, h.2.post h.1 _⟩
  | .get _, .got none, h => exact Answers.post h (by decide) _
  | .delete _, .deleted _, h => exact ⟨h.1, h.2.post (by decide) _⟩

/-! ## The simulation -/

/-- No event of a call is seen but the call. -/
theorem ret_call (c : Nat) (k : Conn) (x : Call) : (k.call c x).2.filterMap Event.ret? = [] := by
  cases x <;> rfl

theorem Ctl.op?_ne {op : MapOp} {x : Ctl} (h : x.op? = some op) : x ≠ .idle ∧ x ≠ .close := by
  cases x <;> simp_all [Ctl.op?]

/-- Values of requests that fit are short. -/
theorem Poses.val {x : Ctl} (h : Poses b x) (ho : x.op? = some op) (key val : Bytes)
    (he : op = .put key val) : val.length < 2 ^ 32 := by
  cases x with
  | write r =>
    obtain ⟨-, rfl⟩ : r.key = key ∧ r.val = val := by simpa [Ctl.op?, he] using ho
    have hs := h.1.2.2
    simp only [Record.size, maxRequest] at hs
    omega
  | idle | get | delete | close => simp [Ctl.op?, he] at ho

/-- The clerk's step, in the phase of its connection. -/
theorem clerkStep_sim {sv sv' : Server} {k' : Conn} {ph : Nat → Phase MapOp MapRes}
    (hd : sv.db.Bounded (2 ^ 32 - 1)) (hk : Linked k (ph c)) (h : clerkStep sv k = some (sv', k')) :
    ∃ φ, AtomicRun Store.apply (sv.db, ph) [] (sv'.db, Function.update ph c φ) ∧
      sv'.db.Bounded (2 ^ 32 - 1) ∧ Linked k' φ := by
  have hstay : AtomicRun Store.apply (sv.db, ph) [] (sv.db, Function.update ph c (ph c)) := by
    rw [Function.update_eq_self]
    exact .refl
  generalize hφ : ph c = φ at hk hstay
  cases hk with
  | idle hc hp => simp [clerkStep, hp] at h
  | posed ho hp hb =>
    simp only [clerkStep, hp, readStep_eq ho hb, Option.some.injEq, Prod.mk.injEq] at h
    obtain ⟨rfl, rfl⟩ := h
    exact ⟨_, hstay, hd, .entered ho rfl (hb.val ho)⟩
  | entered ho hp hv =>
    obtain ⟨res, ha, hd', -, hk'⟩ := clerkStep_exec hd hv ho hp h
    exact ⟨_, AtomicRun.exec hφ ha, hd', hk'⟩
  | executed ho hp hb =>
    simp only [clerkStep, hp, Option.some.injEq, Prod.mk.injEq] at h
    obtain ⟨rfl, rfl⟩ := h
    exact ⟨_, hstay, hd, .replied ho rfl hb.reply⟩
  | replied ho hp hb => simp [clerkStep, hp] at h
  | closing hc hp hb =>
    rw [hc] at hb
    have hop : reqOp k.clerkBuf = some .close := Asks.op hb
    simp only [clerkStep, hp, readStep, hop, Option.some.injEq, Prod.mk.injEq] at h
    obtain ⟨rfl, rfl⟩ := h
    exact ⟨_, hstay, hd, .closed hc rfl⟩
  | closed hc hp => simp [clerkStep, hp] at h

/-- A step of one connection. -/
theorem connStep_sim {sv sv' : Server} {k' : Conn} {a : Act} {es : List Event}
    {ph : Nat → Phase MapOp MapRes} (hd : sv.db.Bounded (2 ^ 32 - 1))
    (hx : ∀ x, a = .call x → x.Fits) (hk : Linked k (ph c))
    (h : connStep sv c k a = some (sv', k', es)) :
    ∃ φ, AtomicRun Store.apply (sv.db, ph) (seen (.conn c a) es) (sv'.db, Function.update ph c φ) ∧
      sv'.db.Bounded (2 ^ 32 - 1) ∧ Linked k' φ := by
  cases a with
  | call x =>
    simp only [connStep] at h
    split at h
    · rename_i hc hp
      simp only [Option.some.injEq, Prod.mk.injEq] at h
      obtain ⟨rfl, he⟩ := h
      obtain rfl : (k.call c x).1 = k' := congrArg Prod.fst he
      obtain rfl : (k.call c x).2 = es := congrArg Prod.snd he
      have hidle : ph c = .idle := by
        generalize ph c = φ at hk
        cases hk with
        | idle => rfl
        | closing hc' | closed hc' => rfl
        | posed ho | entered ho | executed ho | replied ho => exact absurd hc (Ctl.op?_ne ho).1
      refine ⟨_, ?_, hd, linked_call (hx x rfl)⟩
      rw [seen, ret_call, List.append_nil]
      cases hop : x.op? with
      | none =>
        simp only [Label.seen, hop, Option.map_none, Option.toList_none, Option.elim_none]
        rw [← hidle, Function.update_eq_self]
        exact .refl
      | some op =>
        simp only [Label.seen, hop, Option.map_some, Option.toList_some, Option.elim_some]
        exact AtomicRun.call hidle
    · cases h
  | client =>
    simp only [connStep] at h
    split at h
    · rename_i hp
      obtain ⟨⟨k₁, es₁⟩, hs, he⟩ := Option.map_eq_some_iff.1 h
      cases he
      generalize hφ : ph c = φ at hk
      cases hk with
      | idle hc => simp [clientStep, hc] at hs
      | replied ho _ hb =>
        obtain ⟨rfl, hret⟩ := clientStep_ret ho hb hs
        refine ⟨.idle, ?_, hd, .idle rfl hp⟩
        rw [seen, hret]
        exact AtomicRun.ret hφ
      | posed _ hp' | executed _ hp' | closing _ hp' | closed _ hp' => simp [hp'] at hp
      | @entered op _ hp' => cases op <;> simp [hp', Pc.ofOp] at hp
    · cases h
  | clerk =>
    obtain ⟨⟨sv₁, k₁⟩, hs, he⟩ := Option.map_eq_some_iff.1 h
    cases he
    exact clerkStep_sim hd hk hs

/-- The database is the map, and the connections are in the phases of the clients. -/
structure Sim (s : State) (x : Clients Nat Store MapOp MapRes) : Prop where
  db : x.1 = s.server.db
  bounded : s.server.db.Bounded (2 ^ 32 - 1)
  linked : ∀ c k, s.conns[c]? = some k → Linked k (x.2 c)
  idle : ∀ c, s.conns[c]? = none → x.2 c = .idle

variable {s s' : State} {l : Label} {es : List Event} {x : Clients Nat Store MapOp MapRes}

theorem step_sim (h : Sim s x) (hf : Fit s l) (hs : step s l = some (s', es)) :
    ∃ y, AtomicRun Store.apply x (seen l es) y ∧ Sim s' y := by
  obtain ⟨db, ph⟩ := x
  obtain rfl : db = s.server.db := h.db
  rcases step_split hs with ⟨localBuf, clerkBuf, region, rfl, rfl, rfl⟩ |
    ⟨c, a, k, k', sv', rfl, hk, hm, rfl⟩
  · refine ⟨_, .refl, rfl, h.bounded, fun d kd hkd => ?_, fun d hd => ?_⟩
    · rcases append_cases hkd with hkd | ⟨rfl, rfl⟩
      · exact h.linked d kd hkd
      · have hidle := h.idle s.conns.length (by simp)
        exact hidle ▸ Linked.idle rfl rfl
    · rw [List.getElem?_eq_none_iff, List.length_append] at hd
      exact h.idle d (List.getElem?_eq_none (by omega))
  · have hx : ∀ x, a = .call x → x.Fits := by
      rintro x rfl
      exact hf x (by simp [Label.call?])
    obtain ⟨φ, hrun, hd, hk'⟩ := connStep_sim h.bounded hx (h.linked c k hk) hm
    refine ⟨_, hrun, rfl, hd, fun d kd hkd => ?_, fun d hd => ?_⟩
    · rcases set_cases hk hkd with ⟨rfl, rfl⟩ | ⟨hne, hkd⟩
      · simpa using hk'
      · simpa [Function.update_of_ne hne] using h.linked d kd hkd
    · rw [List.getElem?_eq_none_iff, List.length_set] at hd
      have hlt := (List.getElem?_eq_some_iff.1 hk).1
      have hne : d ≠ c := by omega
      simpa [Function.update_of_ne hne] using h.idle d (List.getElem?_eq_none hd)

/-- **PMem is linearizable**: what any number of clients see of a run, in any order of the steps of
clients and clerks and with any keys in common, they may see of the atomic map. The database holds
values at start that a reply has room for. -/
theorem linearizable {db : Store} {h : List (Seen Nat MapOp MapRes)} (hdb : db.Bounded maxValue)
    (hr : Steps (view seen step) Fit (init db) h s) : Linearizable Store.apply db h := by
  have hdb' : db.Bounded (2 ^ 32 - 1) := fun key v hv => (hdb key v hv).trans (by decide)
  refine Linearizable.of_sim (R := Sim) ⟨rfl, hdb', by simp [init], fun _ _ => rfl⟩ ?_ hr
  intro s₁ l s₂ es x hR hp hs
  obtain ⟨es', hs', rfl⟩ := view_cases hs
  exact step_sim hR hp hs'

/-- A `GET` misses a write that has returned before it: both were called before either was
executed. -/
theorem linearizable_overlap :
    ∃ h s, Steps (view seen step) Fit (init fun _ => none) h s ∧
      h = [.call 0 (.put [1] [10]), .call 1 (.get [1]), .ret 0 (.put [1] [10]) .stored,
        .ret 1 (.get [1]) (.got none)] ∧ Linearizable Store.apply (fun _ => none) h := by
  have hr : Steps (view seen step) Fit (init fun _ => none) _ _ := Steps.of_exec_get
    [.connect (fun _ => 0) (fun _ => 0) (fun _ => 0), .connect (fun _ => 0) (fun _ => 0) (fun _ => 0),
      .conn 0 (.call (.write ⟨.put, [1], [10]⟩)), .conn 0 .clerk, .conn 1 (.call (.get [1])),
      .conn 1 .clerk, .conn 1 .clerk, .conn 0 .clerk, .conn 0 .clerk, .conn 0 .client,
      .conn 1 .clerk, .conn 1 .client] (by decide +kernel)
  exact ⟨_, _, hr, by decide +kernel, linearizable (by simp [Store.Bounded]) hr⟩

end

end PMRAccess.Pmem
