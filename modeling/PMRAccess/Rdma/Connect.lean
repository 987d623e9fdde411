import PMRAccess.Pmem.Step
import PMRAccess.Rdma.Certificate

/-!
# Connecting (`RDMAContext::default_connect`, `Connect`, `Listen`)

`default_connect` exchanges the certificates and takes the queue pair through INIT, RTR and RTS. It
returns -1 when the exchange fails and the error of `ibv_modify_qp`, which is positive, when that
fails. The three `Connect` functions and the three `Listen` loops stop on -1 only.

`connectOrExit_sound_iff`: a caller that goes on has an established connection exactly when the
exchange has failed or no `ibv_modify_qp` has; `established_iff` says so for the six callers, of a
`Listen` loop over all connections it gets to.
-/

namespace PMRAccess.Rdma

open Lib

/-! ## `default_connect` -/

inductive QpState
  | reset | init | rtr | rts
  deriving DecidableEq, Repr

/-- What the calls made while connecting return: the byte counts of the socket, with the bytes read,
and for each `ibv_modify_qp` 0 or an `errno`. -/
structure Results where
  written : Int
  readCount : Int
  received : Bytes
  toInit : Nat
  toRtr : Nat
  toRts : Nat
  deriving DecidableEq, Repr

/-- A context while it is connected: the last status of `exchange_certificate`, if it was called. -/
structure Link where
  remote : ConnectionCertificate
  exchanged : Option Status
  qp : QpState
  deriving DecidableEq, Repr

/-- The certificates are exchanged and the queue pair has reached its last state. -/
def Link.Established (x : Link) : Prop := x.exchanged = some .ok ∧ x.qp = .rts

instance (x : Link) : Decidable x.Established :=
  inferInstanceAs (Decidable (x.exchanged = some .ok ∧ x.qp = .rts))

/-- As `open` leaves a context. -/
def Link.opened : Link := ⟨⟨0, 0, 0, 0, 0, 0, 0, 0, .replicate 16 0⟩, none, .reset⟩

def modifyQp (ret : Nat) : Status × Int :=
  if ret = 0 then (.ok, ret) else (.cannotInitQP, ret)

def defaultConnect (e : ByteOrder) (cert : ConnectionCertificate) (x : Link) (r : Results) :
    Int × Link :=
  let (status, remote) := exchangeCertificate e cert x.remote r.written r.readCount r.received
  let x := { x with remote, exchanged := some status }
  if status ≠ .ok then (-1, x)
  else
    let (status, err) := modifyQp r.toInit
    if status ≠ .ok then (err, x)
    else
      let x := { x with qp := .init }
      let (status, err) := modifyQp r.toRtr
      if status ≠ .ok then (err, x)
      else
        let x := { x with qp := .rtr }
        let (status, err) := modifyQp r.toRts
        if status ≠ .ok then (err, x) else (0, { x with qp := .rts })

/-! ## The callers -/

/-- An opened context, with what connecting it returns; `mapped` says whether `mmap` succeeds, which
only the PMem server calls. -/
structure Round where
  order : ByteOrder
  cert : ConnectionCertificate
  mapped : Bool
  results : Results
  deriving DecidableEq, Repr

/-- What a caller makes of `default_connect`: it exits, or goes on. -/
def connectOrExit (r : Round) : Option Link :=
  let (ret, x) := defaultConnect r.order r.cert .opened r.results
  if ret = -1 then none else some x

def PMRClient.connect (r : Round) : Option Link := connectOrExit r
def GroupClient.connect (r : Round) : Option Link := connectOrExit r
def PMemClient.connect (r : Round) : Option Link := connectOrExit r

def FrontEnd.connect : FrontEnd → Round → Option Link
  | .pmr => PMRClient.connect
  | .group => GroupClient.connect
  | .pmem => PMemClient.connect

/-- 32-bit `int` arithmetic. -/
def wrap32 (x : Int) : Int := x.bmod (2 ^ 32)

/-- What a server has done so far: `clerk_num_`, the clerks it has started with their contexts, and
the offsets it has given to `mmap`. -/
structure Listener where
  clerkNum : Int
  clerks : List (Int × Link)
  offsets : List Int
  exited : Bool
  deriving DecidableEq, Repr

/-- A server before its first connection; its constructor leaves `clerk_num_` as it finds it. -/
def Listener.new (clerkNum : Int) : Listener := ⟨clerkNum, [], [], false⟩

/-- The end of a round: a clerk is started. -/
def Listener.startClerk (s : Listener) (r : Round) : Listener :=
  match connectOrExit r with
  | none => { s with exited := true }
  | some x =>
    { s with clerks := s.clerks ++ [(s.clerkNum, x)], clerkNum := wrap32 (s.clerkNum + 1) }

def PMRServer.round (s : Listener) (r : Round) : Listener := s.startClerk r
def GroupServer.round (s : Listener) (r : Round) : Listener := s.startClerk r

/-- The PMem server first maps the connection's region, at an offset that is computed in `int`. -/
def PMemServer.round (s : Listener) (r : Round) : Listener :=
  let s := { s with offsets := s.offsets ++ [wrap32 (s.clerkNum * Pmem.pmemBufSize)] }
  if r.mapped then s.startClerk r else { s with exited := true }

def FrontEnd.round : FrontEnd → Listener → Round → Listener
  | .pmr => PMRServer.round
  | .group => GroupServer.round
  | .pmem => PMemServer.round

/-- `Listen`: one round a connection, until the server exits. -/
def FrontEnd.listen (fe : FrontEnd) : Listener → List Round → Listener
  | s, [] => s
  | s, r :: rs =>
    let s := fe.round s r
    if s.exited then s else fe.listen s rs

/-! ## When a connection is established -/

/-- The socket has moved all of both certificates. -/
def Results.Exchanged (r : Results) : Prop :=
  r.written = sizeofCertificate ∧ r.readCount = sizeofCertificate

/-- No `ibv_modify_qp` has failed. -/
def Results.Modified (r : Results) : Prop := r.toInit = 0 ∧ r.toRtr = 0 ∧ r.toRts = 0

/-- A failure while connecting, if there is one, is one of the exchange. -/
def Round.Sound (r : Round) : Prop := r.results.Exchanged → r.results.Modified

instance (r : Results) : Decidable r.Exchanged :=
  inferInstanceAs (Decidable (r.written = sizeofCertificate ∧ r.readCount = sizeofCertificate))

instance (r : Results) : Decidable r.Modified :=
  inferInstanceAs (Decidable (r.toInit = 0 ∧ r.toRtr = 0 ∧ r.toRts = 0))

instance (r : Round) : Decidable r.Sound :=
  inferInstanceAs (Decidable (r.results.Exchanged → r.results.Modified))

section
variable (e : ByteOrder) (cert : ConnectionCertificate) (x : Link) (r : Results)

theorem exchange_status (c c' : ConnectionCertificate) :
    (exchangeCertificate e c c' r.written r.readCount r.received).1 = .ok ↔ r.Exchanged := by
  unfold exchangeCertificate Results.Exchanged
  by_cases hw : r.written = sizeofCertificate
  · by_cases hr : r.readCount = sizeofCertificate <;> simp [hw, hr]
  · simp [hw]

/-- The two outcomes of the exchange. -/
theorem defaultConnect_cases :
    (¬ r.Exchanged ∧ (defaultConnect e cert x r).1 = -1) ∨
    (r.Exchanged ∧ 0 ≤ (defaultConnect e cert x r).1 ∧
      (defaultConnect e cert x r).2.exchanged = some .ok ∧
      (x.qp ≠ .rts → ((defaultConnect e cert x r).2.qp = .rts ↔ r.Modified))) := by
  have hst := exchange_status e r cert x.remote
  obtain ⟨status, remote, hc⟩ : ∃ status remote,
      exchangeCertificate e cert x.remote r.written r.readCount r.received = (status, remote) :=
    ⟨_, _, rfl⟩
  rw [hc] at hst
  by_cases hok : status = .ok
  · subst hok
    refine .inr ⟨hst.1 rfl, ?_⟩
    unfold defaultConnect Results.Modified
    by_cases h1 : r.toInit = 0 <;> by_cases h2 : r.toRtr = 0 <;> by_cases h3 : r.toRts = 0 <;>
      simp [hc, modifyQp, h1, h2, h3]
  · refine .inl ⟨fun h => hok (hst.2 h), ?_⟩
    simp [defaultConnect, hc, hok]

end

/-- **A caller's test**: going on means that the connection is established exactly where the round
is sound. -/
theorem connectOrExit_sound_iff (r : Round) :
    (∀ x ∈ connectOrExit r, x.Established) ↔ r.Sound := by
  unfold connectOrExit Round.Sound
  rcases defaultConnect_cases r.order r.cert .opened r.results with
    ⟨hex, hret⟩ | ⟨hex, hret, hok, hqp⟩
  · simp [hret, hex]
  · have hne : (defaultConnect r.order r.cert .opened r.results).1 ≠ -1 := by omega
    simp only [hne, if_false, Option.mem_some_iff, forall_eq']
    unfold Link.Established
    rw [hqp (by decide)]
    exact ⟨fun h _ => h.2, fun h => ⟨hok, h hex⟩⟩

/-- An exit, other than for `mmap`, is one for the exchange. -/
theorem connectOrExit_none_iff (r : Round) : connectOrExit r = none ↔ ¬ r.results.Exchanged := by
  unfold connectOrExit
  rcases defaultConnect_cases r.order r.cert .opened r.results with
    ⟨hex, hret⟩ | ⟨hex, hret, -⟩
  · simp [hret, hex]
  · have hne : (defaultConnect r.order r.cert .opened r.results).1 ≠ -1 := by omega
    simp [hne, hex]

/-! ## The loops -/

section
variable (fe : FrontEnd) (s : Listener) (r : Round)

/-- The server exits in this round. -/
def FrontEnd.Stops : Prop := (fe = .pmem ∧ r.mapped = false) ∨ ¬ r.results.Exchanged

/-- The round is sound, or ends with `mmap`. -/
def FrontEnd.Sound : Prop := (fe = .pmem ∧ r.mapped = false) ∨ r.Sound

instance : Decidable (fe.Stops r) :=
  inferInstanceAs (Decidable ((fe = .pmem ∧ r.mapped = false) ∨ ¬ r.results.Exchanged))

instance : Decidable (fe.Sound r) :=
  inferInstanceAs (Decidable ((fe = .pmem ∧ r.mapped = false) ∨ r.Sound))

/-- The connections a server gets to: up to the one it exits on. -/
def FrontEnd.reached (fe : FrontEnd) : List Round → List Round
  | [] => []
  | r :: rs => if fe.Stops r then [r] else r :: fe.reached rs

/-- A round that ends with `mmap` leaves the clerks; any other one starts a clerk or exits. -/
theorem round_cases :
    (fe = .pmem ∧ r.mapped = false ∧ (fe.round s r).exited = true ∧
      (fe.round s r).clerks = s.clerks) ∨
    (¬ (fe = .pmem ∧ r.mapped = false) ∧ (fe.round s r).exited = (s.startClerk r).exited ∧
      (fe.round s r).clerks = (s.startClerk r).clerks) := by
  cases fe with
  | pmr => exact .inr ⟨by simp, rfl, rfl⟩
  | group => exact .inr ⟨by simp, rfl, rfl⟩
  | pmem =>
    cases hm : r.mapped with
    | false => exact .inl ⟨rfl, rfl, by simp [FrontEnd.round, PMemServer.round, hm]⟩
    | true =>
      refine .inr ⟨by simp, ?_⟩
      simp only [FrontEnd.round, PMemServer.round, hm, if_true, Listener.startClerk]
      cases connectOrExit r <;> exact ⟨rfl, rfl⟩

theorem startClerk_cases :
    (¬ r.results.Exchanged ∧ s.startClerk r = { s with exited := true }) ∨
    (r.results.Exchanged ∧ ∃ x, connectOrExit r = some x ∧ (x.Established ↔ r.Sound) ∧
      s.startClerk r = { s with
        clerks := s.clerks ++ [(s.clerkNum, x)]
        clerkNum := wrap32 (s.clerkNum + 1) }) := by
  have hiff := connectOrExit_sound_iff r
  have hnone := connectOrExit_none_iff r
  unfold Listener.startClerk
  cases hc : connectOrExit r with
  | none => exact .inl ⟨hnone.1 hc, rfl⟩
  | some x =>
    refine .inr ⟨?_, x, rfl, ?_, rfl⟩
    · by_contra hex
      rw [hnone.2 hex] at hc
      cases hc
    · rw [hc] at hiff
      simpa using hiff

/-- The clerks of one more round. -/
theorem round_established (hs : s.exited = false) :
    ((fe.round s r).exited = true ↔ fe.Stops r) ∧
    ((∀ c ∈ (fe.round s r).clerks, c.2.Established) ↔
      (∀ c ∈ s.clerks, c.2.Established) ∧ fe.Sound r) := by
  unfold FrontEnd.Stops FrontEnd.Sound
  rcases round_cases fe s r with ⟨hfe, hm, he, hc⟩ | ⟨hno, he, hc⟩
  · rw [he, hc]
    simp [hfe, hm]
  rw [he, hc]
  simp only [hno, false_or]
  rcases startClerk_cases s r with ⟨hex, hst⟩ | ⟨hex, x, -, hx, hst⟩
  · -- the exchange has failed: the round is sound, and the server exits
    have hsound : r.Sound := fun h => absurd h hex
    rw [hst]
    simp [hex, hsound]
  · rw [hst]
    refine ⟨by simp [hs, hex], ?_⟩
    rw [List.forall_mem_append, List.forall_mem_singleton, hx]

theorem listen_established (hs : s.exited = false) (rs : List Round) :
    (∀ c ∈ (fe.listen s rs).clerks, c.2.Established) ↔
      (∀ c ∈ s.clerks, c.2.Established) ∧ ∀ r ∈ fe.reached rs, fe.Sound r := by
  induction rs generalizing s with
  | nil => simp [FrontEnd.listen, FrontEnd.reached]
  | cons r rs ih =>
    obtain ⟨hexit, hround⟩ := round_established fe s r hs
    unfold FrontEnd.listen FrontEnd.reached
    by_cases hstop : fe.Stops r
    · simp only [hexit.2 hstop, hstop, if_true, List.mem_singleton, forall_eq]
      exact hround
    · have hs' : (fe.round s r).exited = false := by
        by_contra h
        exact hstop (hexit.1 (by simpa using h))
      simp only [hs', hstop, if_false, Bool.false_eq_true, List.forall_mem_cons]
      rw [ih _ hs', hround, and_assoc]

end

/-- **Who goes on is connected** exactly where a failure of `ibv_modify_qp` does not follow a
successful exchange: for the `Connect` of each client, and for each `Listen` loop, over all
connections it gets to. -/
theorem established_iff (fe : FrontEnd) :
    (∀ r : Round, (∀ x ∈ fe.connect r, x.Established) ↔ r.Sound) ∧
    ∀ (n : Int) (rs : List Round), (∀ c ∈ (fe.listen (.new n) rs).clerks, c.2.Established) ↔
      ∀ r ∈ fe.reached rs, fe.Sound r := by
  refine ⟨?_, ?_⟩
  · intro r
    cases fe <;> exact connectOrExit_sound_iff r
  · intro n rs
    rw [listen_established fe (.new n) rfl rs]
    simp [Listener.new]

/-- A queue pair that cannot be taken to RTR (`EINVAL`): every caller goes on, with it in INIT. -/
theorem established_rtr_fails : ∃ (r : Round) (x : Link),
    r.results.written = 54 ∧ r.results.readCount = 54 ∧ r.results.toInit = 0 ∧
    r.results.toRtr = 22 ∧ x.qp = .init ∧ ¬ x.Established ∧
    ∀ fe : FrontEnd, fe.connect r = some x ∧ (0, x) ∈ (fe.listen (.new 0) [r]).clerks := by
  refine ⟨⟨.little, ⟨1, 2, 3, 4, 5, 6, 7, 8, .replicate 16 9⟩, true,
    ⟨54, 54, List.replicate 54 0, 0, 22, 0⟩⟩, ⟨⟨0, 0, 0, 0, 0, 0, 0, 0, .replicate 16 0⟩,
    some .ok, .init⟩, rfl, rfl, rfl, rfl, rfl, by decide, ?_⟩
  intro fe
  cases fe <;> exact ⟨by decide +kernel, by decide +kernel⟩

end PMRAccess.Rdma
