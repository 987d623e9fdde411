import PMRAccess.Lib.Endian
import PMRAccess.Lib.Run
import PMRAccess.Rdma.Verbs

/-!
# The exchange of certificates (`RDMAContext::exchange_certificate`)

The two ends of a connection, hosts of either byte order, write their certificates into a stream
socket and read the peer's: nine packed fields, those wider than a byte in network order. A `write`
may take and a `read` may return any number of bytes, or fail.

`ntoh_unpack_wire`: what one host packs, another one unpacks. `Exchange`: the invariant of a run;
before an end has read, the bytes it can read are a front of the peer's certificate. `exchange_run`:
`Ok` means that `remote` is the peer's `local`, and any other status that `remote` is as it was.
-/

namespace PMRAccess.Rdma

open Lib

/-! ## Certificates in memory -/

/-- `connection_certificate`. -/
structure ConnectionCertificate where
  addr0 : UInt64
  rkey0 : UInt32
  length0 : UInt32
  addr : UInt64
  rkey : UInt32
  length : UInt32
  qpNum : UInt32
  lid : UInt16
  gid : Vector UInt8 16
  deriving DecidableEq, Repr

/-- `sizeof(connection_certificate)`, which is packed. -/
def sizeofCertificate : Nat := 54

section
variable (e : ByteOrder)

def htonll (x : UInt64) : UInt64 := .ofNat (e.hton 8 x.toNat)
def htonl (x : UInt32) : UInt32 := .ofNat (e.hton 4 x.toNat)
def htons (x : UInt16) : UInt16 := .ofNat (e.hton 2 x.toNat)

def ntohll (x : UInt64) : UInt64 := .ofNat (e.hton 8 x.toNat)
def ntohl (x : UInt32) : UInt32 := .ofNat (e.hton 4 x.toNat)
def ntohs (x : UInt16) : UInt16 := .ofNat (e.hton 2 x.toNat)

namespace ConnectionCertificate

/-- The bytes of the structure in the memory of a host. -/
def pack (c : ConnectionCertificate) : Bytes :=
  e.store 8 c.addr0.toNat ++ (e.store 4 c.rkey0.toNat ++ (e.store 4 c.length0.toNat ++
    (e.store 8 c.addr.toNat ++ (e.store 4 c.rkey.toNat ++ (e.store 4 c.length.toNat ++
      (e.store 4 c.qpNum.toNat ++ (e.store 2 c.lid.toNat ++ c.gid.toList)))))))

def unpack (bs : Bytes) : ConnectionCertificate where
  addr0 := .ofNat (e.load (bs.take 8))
  rkey0 := .ofNat (e.load ((bs.drop 8).take 4))
  length0 := .ofNat (e.load ((bs.drop 12).take 4))
  addr := .ofNat (e.load ((bs.drop 16).take 8))
  rkey := .ofNat (e.load ((bs.drop 24).take 4))
  length := .ofNat (e.load ((bs.drop 28).take 4))
  qpNum := .ofNat (e.load ((bs.drop 32).take 4))
  lid := .ofNat (e.load ((bs.drop 36).take 2))
  gid := .ofFn fun i => (bs.drop 38).getD i 0

/-- `tmp` as `exchange_certificate` fills it from `local`, and `remote` as it fills it from
`tmp`. -/
def hton (c : ConnectionCertificate) : ConnectionCertificate where
  addr0 := htonll e c.addr0
  rkey0 := htonl e c.rkey0
  length0 := htonl e c.length0
  addr := htonll e c.addr
  rkey := htonl e c.rkey
  length := htonl e c.length
  qpNum := htonl e c.qpNum
  lid := htons e c.lid
  gid := c.gid

def ntoh (tmp : ConnectionCertificate) : ConnectionCertificate where
  addr0 := ntohll e tmp.addr0
  rkey0 := ntohl e tmp.rkey0
  length0 := ntohl e tmp.length0
  addr := ntohll e tmp.addr
  rkey := ntohl e tmp.rkey
  length := ntohl e tmp.length
  qpNum := ntohl e tmp.qpNum
  lid := ntohs e tmp.lid
  gid := tmp.gid

/-- What a host writes into the socket. -/
def wire (c : ConnectionCertificate) : Bytes := (c.hton e).pack e

end ConnectionCertificate

end

/-! ### The round trip -/

section
variable (e e' : ByteOrder)

theorem ntohll_load (x : UInt64) :
    ntohll e' (.ofNat (e'.load (e.store 8 (htonll e x).toNat))) = x := by
  apply UInt64.toNat_inj.1
  unfold ntohll htonll
  rw [UInt64.toNat_ofNat', UInt64.toNat_ofNat', UInt64.toNat_ofNat']
  exact e.load_store_hton e' (n := 8) x.toNat_lt

theorem ntohl_load (x : UInt32) :
    ntohl e' (.ofNat (e'.load (e.store 4 (htonl e x).toNat))) = x := by
  apply UInt32.toNat_inj.1
  unfold ntohl htonl
  rw [UInt32.toNat_ofNat', UInt32.toNat_ofNat', UInt32.toNat_ofNat']
  exact e.load_store_hton e' (n := 4) x.toNat_lt

theorem ntohs_load (x : UInt16) :
    ntohs e' (.ofNat (e'.load (e.store 2 (htons e x).toNat))) = x := by
  apply UInt16.toNat_inj.1
  unfold ntohs htons
  rw [UInt16.toNat_ofNat', UInt16.toNat_ofNat', UInt16.toNat_ofNat']
  exact e.load_store_hton e' (n := 2) x.toNat_lt

namespace ConnectionCertificate

variable (c : ConnectionCertificate)

theorem length_pack : (c.pack e).length = sizeofCertificate := by
  simp [pack, sizeofCertificate]

theorem length_wire : (c.wire e).length = sizeofCertificate := length_pack e _

/-- The fields in the memory of the host that loads them. -/
theorem unpack_pack : unpack e' (c.pack e) =
    { addr0 := .ofNat (e'.load (e.store 8 c.addr0.toNat))
      rkey0 := .ofNat (e'.load (e.store 4 c.rkey0.toNat))
      length0 := .ofNat (e'.load (e.store 4 c.length0.toNat))
      addr := .ofNat (e'.load (e.store 8 c.addr.toNat))
      rkey := .ofNat (e'.load (e.store 4 c.rkey.toNat))
      length := .ofNat (e'.load (e.store 4 c.length.toNat))
      qpNum := .ofNat (e'.load (e.store 4 c.qpNum.toNat))
      lid := .ofNat (e'.load (e.store 2 c.lid.toNat))
      gid := c.gid } := by
  rw [unpack, pack, ConnectionCertificate.mk.injEq]
  refine ⟨?_, ?_, ?_, ?_, ?_, ?_, ?_, ?_, ?hgid⟩
  case hgid =>
    ext i hi
    simp [List.drop_append, List.drop_of_length_le]
  all_goals simp [List.drop_append, List.drop_of_length_le]

/-- What one host packs, another one unpacks. -/
theorem ntoh_unpack_wire : (unpack e' (c.wire e)).ntoh e' = c := by
  unfold wire
  rw [unpack_pack]
  simp only [ntoh, hton, ntohll_load, ntohl_load, ntohs_load]

end ConnectionCertificate

end

/-! ## The exchange -/

/-- The values of `Status` that connecting two ends uses. -/
inductive Status
  | ok | noGID | cannotAllocPD | cannotCreateCQ | cannotRegMR | cannotCreateQP | cannotQueryPort
  | cannotInitQP | readError | writeError
  deriving DecidableEq, Repr

/-- `exchange_certificate`, given what `write` and `read` return and the bytes `read` has stored. -/
def exchangeCertificate (e : ByteOrder) (localCert remote : ConnectionCertificate)
    (written readCount : Int) (received : Bytes) : Status × ConnectionCertificate :=
  let tmp := localCert.wire e
  if written ≠ sizeofCertificate then (.writeError, remote)
  else
    let tmp := received ++ tmp.drop received.length
    if readCount ≠ sizeofCertificate then (.readError, remote)
    else (.ok, (ConnectionCertificate.unpack e tmp).ntoh e)

/-- Where an end is: about to `write`, to `read`, or back with a status. -/
inductive ExchangePc
  | write
  | read
  | done (status : Status)
  deriving DecidableEq, Repr

/-- An end: `remote`, its place in the code and the bytes it can read from the socket. -/
structure Peer where
  remote : ConnectionCertificate
  pc : ExchangePc
  inbox : Bytes

/-- A call of `write` or `read` at one end, with what it returns. -/
inductive ExchangeLabel
  | write (i : Side) (n : Int)
  | read (i : Side) (n : Int)

section
variable (order : Side → ByteOrder) (cert : Side → ConnectionCertificate)

/-- What an end writes. -/
def wireOf (i : Side) : Bytes := (cert i).wire (order i)

/-- An end goes on; its bytes go to the other one. -/
def proceed (s : Side → Peer) (i : Side) (p : Peer) (bs : Bytes) : Side → Peer := fun j =>
  if j = i then p else { s j with inbox := (s j).inbox ++ bs }

/-- An end returns from `exchange_certificate`. -/
def finish (s : Side → Peer) (i : Side) (bs inbox : Bytes) (r : Status × ConnectionCertificate) :
    (Side → Peer) × List (Side × Status) :=
  (proceed s i ⟨r.2, .done r.1, inbox⟩ bs, [(i, r.1)])

/-- A call fails with -1, or moves as many bytes as it says. -/
def exchangeStep (s : Side → Peer) : ExchangeLabel → Option ((Side → Peer) × List (Side × Status))
  | .write i n =>
    let p := s i
    match p.pc with
    | .write =>
      if n < -1 ∨ sizeofCertificate < n then none
      else
        let bs := (wireOf order cert i).take n.toNat
        if n = sizeofCertificate then some (proceed s i { p with pc := .read } bs, [])
        else some (finish s i bs p.inbox
          (exchangeCertificate (order i) (cert i) p.remote n 0 []))
    | _ => none
  | .read i n =>
    let p := s i
    match p.pc with
    | .read =>
      if n < -1 ∨ sizeofCertificate < n ∨ p.inbox.length < n then none
      else
        some (finish s i [] (p.inbox.drop n.toNat)
          (exchangeCertificate (order i) (cert i) p.remote sizeofCertificate n
            (p.inbox.take n.toNat)))
    | _ => none

/-- Two ends with nothing in the socket. -/
def strangers (remote : Side → ConnectionCertificate) : Side → Peer := fun i => ⟨remote i, .write, []⟩

/-- Runs of the exchange; the trace has the statuses returned. -/
def ExchangeRun (remote : Side → ConnectionCertificate) :
    List (Side × Status) → (Side → Peer) → Prop :=
  Steps (exchangeStep order cert) (fun _ _ => True) (strangers remote)

/-- The invariant of an end `i` whose peer is at `peer`: before it has read, the bytes it can read
are a front of the peer's certificate; `remote` changes with `Ok` only. -/
structure EndOk (remote : ConnectionCertificate) (i : Side) (p : Peer) (peer : ExchangePc) : Prop where
  inbox : p.pc = .write ∨ p.pc = .read →
    p.inbox <+: wireOf order cert i.peer ∧ (peer = .write → p.inbox = [])
  ok : p.pc = .done .ok → p.remote = cert i.peer
  kept : p.pc ≠ .done .ok → p.remote = remote

structure Exchange (remote : Side → ConnectionCertificate) (tr : List (Side × Status))
    (s : Side → Peer) : Prop where
  ends : ∀ i, EndOk order cert (remote i) i (s i) (s i.peer).pc
  returned : ∀ i st, (i, st) ∈ tr → (s i).pc = .done st

end

/-! ### What a step can do -/

theorem Side.peer_peer (i : Side) : i.peer.peer = i := by cases i <;> rfl

theorem Side.peer_ne (i : Side) : i.peer ≠ i := by cases i <;> decide

theorem Side.eq_or_peer (i j : Side) : j = i ∨ j = i.peer := by
  cases i <;> cases j <;> simp [Side.peer]

section
variable {order : Side → ByteOrder} {cert : Side → ConnectionCertificate} {s s' : Side → Peer}
  {tr es : List (Side × Status)} {l : ExchangeLabel} {remote : Side → ConnectionCertificate}

theorem proceed_self (s : Side → Peer) (i : Side) (p : Peer) (bs : Bytes) :
    proceed s i p bs i = p := if_pos rfl

theorem proceed_peer (s : Side → Peer) (i : Side) (p : Peer) (bs : Bytes) :
    proceed s i p bs i.peer = { s i.peer with inbox := (s i.peer).inbox ++ bs } :=
  if_neg i.peer_ne

/-- The moves of an end: `write` took all, or not; `read` returned a certificate, or not. -/
inductive ExchangeMove (order : Side → ByteOrder) (cert : Side → ConnectionCertificate)
    (s : Side → Peer) : (Side → Peer) → List (Side × Status) → Prop
  | wrote {i : Side} (hp : (s i).pc = .write) :
      ExchangeMove order cert s (proceed s i { s i with pc := .read } (wireOf order cert i)) []
  | failed {i : Side} {st : Status} {bs inbox : Bytes} (hst : st ≠ .ok)
      (hp : (s i).pc = .write ∧ bs <+: wireOf order cert i ∨ (s i).pc = .read ∧ bs = []) :
      ExchangeMove order cert s (proceed s i ⟨(s i).remote, .done st, inbox⟩ bs) [(i, st)]
  | received {i : Side} {inbox : Bytes} (hp : (s i).pc = .read)
      (hl : sizeofCertificate ≤ (s i).inbox.length) :
      ExchangeMove order cert s (proceed s i ⟨(ConnectionCertificate.unpack (order i)
        ((s i).inbox.take sizeofCertificate)).ntoh (order i), .done .ok, inbox⟩ []) [(i, .ok)]

theorem exchange_writeError {e : ByteOrder} {c c' : ConnectionCertificate} {n m : Int} {bs : Bytes}
    (h : n ≠ sizeofCertificate) : exchangeCertificate e c c' n m bs = (.writeError, c') := if_pos h

theorem exchange_readError {e : ByteOrder} {c c' : ConnectionCertificate} {n : Int} {bs : Bytes}
    (h : n ≠ sizeofCertificate) :
    exchangeCertificate e c c' sizeofCertificate n bs = (.readError, c') := by
  unfold exchangeCertificate
  simp only [ne_eq, not_true, if_false, h, not_false_eq_true, if_true]

theorem exchange_ok {e : ByteOrder} {c c' : ConnectionCertificate} {bs : Bytes}
    (h : bs.length = sizeofCertificate) :
    exchangeCertificate e c c' sizeofCertificate sizeofCertificate bs =
      (.ok, (ConnectionCertificate.unpack e bs).ntoh e) := by
  unfold exchangeCertificate
  simp only [ne_eq, not_true, if_false]
  rw [List.drop_of_length_le (by rw [h, c.length_wire]), List.append_nil]

theorem exchangeStep_cases (h : exchangeStep order cert s l = some (s', es)) :
    ExchangeMove order cert s s' es := by
  cases l with
  | write i n =>
    simp only [exchangeStep] at h
    split at h
    · rename_i hp
      split at h
      · cases h
      split at h
      · rename_i hn
        cases h
        rw [hn, Int.toNat_natCast, List.take_of_length_le (by rw [wireOf, (cert i).length_wire])]
        exact .wrote hp
      · rename_i hn
        rw [exchange_writeError hn] at h
        cases h
        exact .failed (show Status.writeError ≠ .ok by decide) (.inl ⟨hp, List.take_prefix _ _⟩)
    · cases h
  | read i n =>
    simp only [exchangeStep] at h
    split at h
    · rename_i hp
      split at h
      · cases h
      rename_i hbad
      by_cases hn : n = sizeofCertificate
      · subst hn
        have hl : sizeofCertificate ≤ (s i).inbox.length := by omega
        rw [Int.toNat_natCast, exchange_ok (by simp [hl])] at h
        cases h
        exact .received hp hl
      · rw [exchange_readError hn] at h
        cases h
        exact .failed (show Status.readError ≠ .ok by decide) (.inr ⟨hp, rfl⟩)
    · cases h

/-! ### Runs -/

section
variable {c : ConnectionCertificate} {i : Side} {p : Peer} {peer : ExchangePc} {bs : Bytes}

/-- The peer's `write` has put bytes into an empty socket. -/
theorem EndOk.deliver (h : EndOk order cert c i p .write) (hb : bs <+: wireOf order cert i.peer)
    (hpeer : peer ≠ .write) : EndOk order cert c i { p with inbox := p.inbox ++ bs } peer := by
  refine ⟨?_, h.ok, h.kept⟩
  intro hp
  have hempty : p.inbox = [] := (h.inbox hp).2 rfl
  refine ⟨?_, fun hw => absurd hw hpeer⟩
  show p.inbox ++ bs <+: _
  rwa [hempty]

/-- The peer has gone on without writing. -/
theorem EndOk.peer_read {pc : ExchangePc} (h : EndOk order cert c i p pc) (hpeer : peer ≠ .write) :
    EndOk order cert c i { p with inbox := p.inbox ++ [] } peer := by
  rw [List.append_nil]
  exact ⟨fun hp => ⟨(h.inbox hp).1, fun hw => absurd hw hpeer⟩, h.ok, h.kept⟩

/-- A certificate that has arrived is the peer's. -/
theorem EndOk.receive (h : EndOk order cert c i p peer) (hp : p.pc = .read)
    (hl : sizeofCertificate ≤ p.inbox.length) :
    (ConnectionCertificate.unpack (order i) (p.inbox.take sizeofCertificate)).ntoh (order i) =
      cert i.peer := by
  have hlen : (wireOf order cert i.peer).length = sizeofCertificate := (cert i.peer).length_wire _
  have hpre := (h.inbox (.inr hp)).1
  have hfull : p.inbox = wireOf order cert i.peer := hpre.eq_of_length_le (by omega)
  rw [hfull, List.take_of_length_le (by omega)]
  exact ConnectionCertificate.ntoh_unpack_wire _ _ _

end

/-- Both ends, when one of them has moved. -/
theorem ends_proceed {i : Side} {p : Peer} {bs : Bytes}
    (hi : EndOk order cert (remote i) i p (s i.peer).pc)
    (hj : EndOk order cert (remote i.peer) i.peer
      { s i.peer with inbox := (s i.peer).inbox ++ bs } p.pc) (j : Side) :
    EndOk order cert (remote j) j (proceed s i p bs j) (proceed s i p bs j.peer).pc := by
  rcases Side.eq_or_peer i j with rfl | rfl
  · rw [proceed_self, proceed_peer]
    exact hi
  · rw [proceed_peer, Side.peer_peer, proceed_self]
    exact hj

theorem Exchange.ends_move (h : Exchange order cert remote tr s)
    (hm : ExchangeMove order cert s s' es) (j : Side) :
    EndOk order cert (remote j) j (s' j) (s' j.peer).pc := by
  cases hm with
  | @wrote i hp =>
    have hi := h.ends i
    have hj := h.ends i.peer
    rw [Side.peer_peer, hp] at hj
    refine ends_proceed (p := { s i with pc := .read })
      ⟨fun _ => hi.inbox (.inl hp), by simp, fun _ => hi.kept (by simp [hp])⟩ ?_ j
    exact hj.deliver (by simp only [Side.peer_peer, List.prefix_rfl]) (by simp)
  | @failed i st bs inbox hst hp =>
    have hj := h.ends i.peer
    have hkept : (s i).remote = remote i := by
      rcases hp with ⟨hp, -⟩ | ⟨hp, -⟩ <;> exact (h.ends i).kept (by simp [hp])
    refine ends_proceed (p := ⟨(s i).remote, .done st, inbox⟩)
      ⟨by simp, fun hd => absurd (ExchangePc.done.inj hd) hst, fun _ => hkept⟩ ?_ j
    rw [Side.peer_peer] at hj
    rcases hp with ⟨hp, hb⟩ | ⟨hp, rfl⟩
    · rw [hp] at hj
      exact hj.deliver (by rwa [Side.peer_peer]) (by simp)
    · exact hj.peer_read (by simp)
  | @received i inbox hp hl =>
    refine ends_proceed ⟨by simp, fun _ => (h.ends i).receive hp hl, fun hd => absurd rfl hd⟩ ?_ j
    exact (h.ends i.peer).peer_read (by simp)

theorem returned_proceed {i j : Side} {p : Peer} {bs : Bytes} {st : Status}
    (h : (s j).pc = .done st) (hp : (s i).pc = .write ∨ (s i).pc = .read) :
    (proceed s i p bs j).pc = .done st := by
  have hne : j ≠ i := by
    rintro rfl
    rw [h] at hp
    simp at hp
  unfold proceed
  rw [if_neg hne]
  exact h

theorem Exchange.returned_move (h : Exchange order cert remote tr s)
    (hm : ExchangeMove order cert s s' es) (j : Side) (st : Status) (hmem : (j, st) ∈ tr ++ es) :
    (s' j).pc = .done st := by
  rcases List.mem_append.1 hmem with hold | hnew
  · have hj := h.returned j st hold
    cases hm with
    | wrote hp => exact returned_proceed hj (.inl hp)
    | failed hst hp => exact returned_proceed hj (hp.imp And.left And.left)
    | received hp hl => exact returned_proceed hj (.inr hp)
  · cases hm with
    | wrote hp => cases hnew
    | failed hst hp =>
      obtain ⟨rfl, rfl⟩ := Prod.mk.inj (List.mem_singleton.1 hnew)
      rw [proceed_self]
    | received hp hl =>
      obtain ⟨rfl, rfl⟩ := Prod.mk.inj (List.mem_singleton.1 hnew)
      rw [proceed_self]

theorem exchange_inv (h : ExchangeRun order cert remote tr s) : Exchange order cert remote tr s := by
  have h0 : Exchange order cert remote [] (strangers remote) :=
    ⟨fun i => ⟨fun _ => ⟨List.nil_prefix, fun _ => rfl⟩, by simp [strangers], fun _ => rfl⟩, by simp⟩
  refine h.invariant h0 ?_
  intro tr s l s' es _ hi _ hs
  have hm := exchangeStep_cases hs
  exact ⟨hi.ends_move hm, hi.returned_move hm⟩

/-- **The exchange**: where `exchange_certificate` has returned `Ok` at both ends, the `remote` of
each end is the `local` of the other in all fields; where it has returned another status, `remote`
is as it was. -/
theorem exchange_run (h : ExchangeRun order cert remote tr s) :
    ((∀ i, (i, .ok) ∈ tr) → ∀ i, (s i).remote = cert i.peer) ∧
    ∀ i st, (i, st) ∈ tr → st ≠ .ok → (s i).remote = remote i := by
  have hi := exchange_inv h
  refine ⟨?_, ?_⟩
  · intro hok i
    exact (hi.ends i).ok (hi.returned i .ok (hok i))
  · intro i st hst hne
    refine (hi.ends i).kept ?_
    rw [hi.returned i st hst]
    exact fun hd => hne (ExchangePc.done.inj hd)

/-- A little-endian client and a big-endian server. -/
theorem exchange_run_mixed :
    ∃ (cert remote : Side → ConnectionCertificate) (tr : List (Side × Status)) (s : Side → Peer),
      ExchangeRun (fun i => if i = .client then .little else .big) cert remote tr s ∧
        (∀ i, (s i).remote = cert i.peer) ∧ (cert .client).addr0 = 0x0102030405060708 := by
  obtain ⟨cert, remote, tr, s, hr, hok, hc⟩ :
      ∃ (cert remote : Side → ConnectionCertificate) (tr : List (Side × Status)) (s : Side → Peer),
        ExchangeRun (fun i => if i = .client then .little else .big) cert remote tr s ∧
          (∀ i, (i, .ok) ∈ tr) ∧ (cert .client).addr0 = 0x0102030405060708 := by
    refine ⟨fun i => ⟨if i = .client then 0x0102030405060708 else 9, 2, 3, 4, 5, 6, 7, 8,
      .replicate 16 9⟩, fun _ => ⟨0, 0, 0, 0, 0, 0, 0, 0, .replicate 16 0⟩, _, _,
      Steps.of_exec_get [.write .client 54, .write .clerk 54, .read .clerk 54, .read .client 54]
        (by decide +kernel), ?_, rfl⟩
    intro i
    cases i <;> decide +kernel
  exact ⟨cert, remote, tr, s, hr, (exchange_run hr).1 hok, hc⟩

/-! ## The part about memory -/

/-- The fields that describe memory. -/
def ConnectionCertificate.memory (c : ConnectionCertificate) : Certificate :=
  ⟨c.addr0.toNat, c.rkey0.toNat, c.length0.toNat, c.addr.toNat, c.rkey.toNat, c.length.toNat⟩

/-- A context after the exchange has what the other end's context tells. -/
theorem exchange_context {fe : FrontEnd} (net : Net fe) (h : ExchangeRun order cert remote tr s)
    (hc : ∀ i, (cert i).memory = (net.opened i).localCert) {i : Side} (hok : (i, .ok) ∈ tr) :
    (s i).remote.memory = (net.context i).remote := by
  have hi := exchange_inv h
  rw [(hi.ends i).ok (hi.returned i .ok hok), hc]
  rfl

end

end PMRAccess.Rdma
