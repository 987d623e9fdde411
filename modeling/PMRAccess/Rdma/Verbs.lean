import PMRAccess.Rdma.Post

/-!
# Work requests (`rdmautil/rdmautil.cc`, `rdmautil/rdmautil.h`)

An `RDMAContext` has two registered memory regions: `send_mr`, over the `send_buf` that `open`
allocates, and `write_mr`, over what is given to `register_write_buf`: memory, or a dma-buf, whose
region has I/O addresses of its own. Its certificate tells the peer their addresses, lengths and
`rkey`s. The `post_*` functions build a work request from these; `WorkRequest.Valid` is what the
hardware checks: the bytes go with the request, or they lie in the region of its `lkey`, and the
remote range lies in the region of its `rkey`.

`postWrite_valid`, `postWrite0_valid`, `postSend_valid`, `postRecv_valid`: inside the regions these
are valid, the first two unless `write_buf` is the mapping of a dma-buf. `postWrite1_valid_iff`: the
bytes are in `send_buf` but the `lkey` is that of `write_mr`, so it is valid only up to
`MAX_INLINE_SIZE`.
-/

namespace PMRAccess.Rdma

open Lib

def sendBufSize : Nat := 1024 * 1024

/-! ## Contexts -/

/-- `ibv_mr`: a registered region with its keys. -/
structure Mr where
  addr : Nat
  length : Nat
  lkey : Nat
  rkey : Nat
  deriving DecidableEq, Repr

/-- The fields of `connection_certificate` that describe memory. -/
structure Certificate where
  addr0 : Nat
  rkey0 : Nat
  length0 : Nat
  addr : Nat
  rkey : Nat
  length : Nat
  deriving DecidableEq, Repr

structure RDMAContext where
  sendMr : Mr
  sendBuf : Nat
  writeMr : Mr
  writeBuf : Nat
  dmaoff : Nat
  localCert : Certificate
  remote : Certificate
  deriving DecidableEq, Repr

/-- What the allocator and the verbs library choose for an end with `size` bytes to register: two
regions that do not overlap, and different keys for them; for a dma-buf also where it is mapped. -/
structure Buffers (size : Nat) where
  send : Mr
  write : Mr
  mapped : Option Nat
  send_length : send.length = sendBufSize
  write_length : write.length = size
  apart : send.addr + sendBufSize ≤ write.addr ∨ write.addr + size ≤ send.addr
  lkeys : send.lkey ≠ write.lkey
  rkeys : send.rkey ≠ write.rkey

namespace RDMAContext

/-- `RDMADevice::open`: `send_buf` is registered; what `memset` has zeroed stays zero. -/
def openContext (sendMr : Mr) : RDMAContext where
  sendMr := sendMr
  sendBuf := sendMr.addr
  writeMr := ⟨0, 0, 0, 0⟩
  writeBuf := 0
  dmaoff := 0
  localCert := ⟨sendMr.addr, sendMr.rkey, sendBufSize, 0, 0, 0⟩
  remote := ⟨0, 0, 0, 0, 0, 0⟩

/-- `register_write_buf` of memory. -/
def registerWriteBuf (x : RDMAContext) (writeMr : Mr) : RDMAContext :=
  { x with
    writeMr
    writeBuf := writeMr.addr
    dmaoff := 0
    localCert := { x.localCert with
      addr := writeMr.addr
      rkey := writeMr.rkey
      length := writeMr.length } }

/-- `register_write_buf` of the dma-buf of a file, mapped at `mapped`. -/
def registerDmabuf (x : RDMAContext) (writeMr : Mr) (mapped offset : Nat) : RDMAContext :=
  { x with
    writeMr
    writeBuf := mapped
    dmaoff := offset
    localCert := { x.localCert with
      addr := writeMr.addr + offset
      rkey := writeMr.rkey
      length := writeMr.length } }

/-- `exchange_certificate` with the peer. -/
def exchangeCertificate (x : RDMAContext) (cert : Certificate) : RDMAContext :=
  { x with remote := cert }

end RDMAContext

/-! ## Work requests -/

/-- What a `post_*` function hands to the queue pair: the `ibv_sge`, and for a write the remote
address and `rkey`. -/
structure WorkRequest where
  addr : Nat
  length : Nat
  lkey : Nat
  inline : Bool
  remote : Option (Nat × Nat)
  deriving DecidableEq, Repr

/-- The common part of the three writes. -/
def rdmaWrite (address lkey remoteAddr rkey msgLen : Nat) : WorkRequest where
  addr := address
  length := msgLen % 2 ^ 32
  lkey := lkey
  inline := msgLen ≤ maxInlineSize
  remote := some (remoteAddr, rkey)

namespace RDMAContext

variable (x : RDMAContext) (msgLen localOffset remoteOffset : Nat)

def postSend : WorkRequest where
  addr := x.sendBuf + localOffset
  length := msgLen % 2 ^ 32
  lkey := x.sendMr.lkey
  inline := false
  remote := none

def postRecv : WorkRequest where
  addr := x.sendBuf + localOffset
  length := msgLen % 2 ^ 32
  lkey := x.sendMr.lkey
  inline := false
  remote := none

def postWrite : WorkRequest :=
  rdmaWrite (x.writeBuf + x.dmaoff + localOffset) x.writeMr.lkey (x.remote.addr + remoteOffset)
    x.remote.rkey msgLen

def postWrite0 : WorkRequest :=
  rdmaWrite (x.writeBuf + x.dmaoff + localOffset) x.writeMr.lkey (x.remote.addr0 + remoteOffset)
    x.remote.rkey0 msgLen

/-- The address is in `send_buf`, the key is that of `write_mr`. -/
def postWrite1 : WorkRequest :=
  rdmaWrite (x.sendBuf + localOffset) x.writeMr.lkey (x.remote.addr + remoteOffset) x.remote.rkey
    msgLen

end RDMAContext

/-- A call of one of the five functions. -/
inductive WrCall
  | send (msgLen localOffset : Nat)
  | recv (msgLen localOffset : Nat)
  | write (p : Post)
  deriving DecidableEq, Repr

def RDMAContext.post (x : RDMAContext) : WrCall → WorkRequest
  | .send n o => x.postSend n o
  | .recv n o => x.postRecv n o
  | .write p =>
    match p.verb with
    | .write => x.postWrite p.msgLen p.localOffset p.remoteOffset
    | .write0 => x.postWrite0 p.msgLen p.localOffset p.remoteOffset
    | .write1 => x.postWrite1 p.msgLen p.localOffset p.remoteOffset

/-! ## Validity -/

/-- `[addr, addr + length)` lies in a region. -/
def Inside (addr length base size : Nat) : Prop := base ≤ addr ∧ addr + length ≤ base + size

instance (a l b s : Nat) : Decidable (Inside a l b s) :=
  inferInstanceAs (Decidable (b ≤ a ∧ a + l ≤ b + s))

/-- The bytes go with the request, or lie in the region of its `lkey`. -/
def WorkRequest.LocalOk (x : RDMAContext) (w : WorkRequest) : Prop :=
  (w.inline = true ∧ w.length ≤ maxInlineSize) ∨
    ∃ mr ∈ [x.sendMr, x.writeMr], mr.lkey = w.lkey ∧ Inside w.addr w.length mr.addr mr.length

/-- The remote range lies in the region of the peer whose `rkey` the request carries. -/
def WorkRequest.RemoteOk (x : RDMAContext) (w : WorkRequest) : Prop :=
  ∀ p ∈ w.remote,
    (p.2 = x.remote.rkey0 ∧ Inside p.1 w.length x.remote.addr0 x.remote.length0) ∨
    (p.2 = x.remote.rkey ∧ Inside p.1 w.length x.remote.addr x.remote.length)

def WorkRequest.Valid (x : RDMAContext) (w : WorkRequest) : Prop := w.LocalOk x ∧ w.RemoteOk x

/-! ## Pairs -/

/-- The end of a connection. -/
inductive Side
  | client | clerk
  deriving DecidableEq, Repr

/-- The memory an end registers as its write buffer. -/
def FrontEnd.bufSize : FrontEnd → Side → Nat
  | .pmr, .client => maxRequest
  | .pmem, .client | .group, .client => maxRequest + ringHeader
  | .pmr, .clerk => 8 * 1024 * 1024
  | .pmem, .clerk => 16 * 1024 * 1024
  | .group, .clerk => maxRequest + ringHeader

/-- The buffers of both ends; only the PMR server, built with `DMABUF`, registers a dma-buf. -/
structure Net (fe : FrontEnd) where
  buffers : (i : Side) → Buffers (fe.bufSize i)
  dmabuf : ∀ i, fe ≠ .pmr ∨ i = .client → (buffers i).mapped = none

def Side.peer : Side → Side
  | client => clerk
  | clerk => client

namespace Net

variable {fe : FrontEnd} (net : Net fe)

/-- The context of an end before the certificates are exchanged, and behind it. -/
def opened (i : Side) : RDMAContext :=
  let x := RDMAContext.openContext (net.buffers i).send
  match (net.buffers i).mapped with
  | none => x.registerWriteBuf (net.buffers i).write
  | some mapped => x.registerDmabuf (net.buffers i).write mapped 0

def context (i : Side) : RDMAContext :=
  (net.opened i).exchangeCertificate (net.opened i.peer).localCert

/-! ### The fields of a context -/

section
variable (i : Side)

theorem context_remote :
    (net.context i).remote.length0 = sendBufSize ∧
      (net.context i).remote.length = fe.bufSize i.peer := by
  rw [← (net.buffers i.peer).write_length]
  show (net.opened i.peer).localCert.length0 = _ ∧ (net.opened i.peer).localCert.length = _
  unfold opened
  cases (net.buffers i.peer).mapped <;> exact ⟨rfl, rfl⟩

theorem context_local :
    (net.context i).sendMr = (net.buffers i).send ∧
      (net.context i).sendBuf = (net.buffers i).send.addr ∧
      (net.context i).writeMr = (net.buffers i).write := by
  unfold context opened
  cases (net.buffers i).mapped <;> exact ⟨rfl, rfl, rfl⟩

theorem context_writeBuf (h : (net.buffers i).mapped = none) :
    (net.context i).writeBuf + (net.context i).dmaoff = (net.buffers i).write.addr := by
  unfold context opened
  rw [h]
  rfl

end

variable {n lo ro : Nat} (i : Side)

section
variable (hn : n < 2 ^ 32)
include hn

/-- A range of the peer's `write_buf`. -/
theorem remoteOk_write (address lkey : Nat) (hr : ro + n ≤ fe.bufSize i.peer) :
    (rdmaWrite address lkey ((net.context i).remote.addr + ro) (net.context i).remote.rkey
      n).RemoteOk (net.context i) := by
  intro p hp
  obtain rfl := Option.some.inj hp
  refine .inr ⟨rfl, Nat.le_add_right _ _, ?_⟩
  show (net.context i).remote.addr + ro + n % 2 ^ 32 ≤ _
  rw [Nat.mod_eq_of_lt hn, (net.context_remote i).2]
  omega

/-- A range of the peer's `send_buf`. -/
theorem remoteOk_write0 (address lkey : Nat) (hr : ro + n ≤ sendBufSize) :
    (rdmaWrite address lkey ((net.context i).remote.addr0 + ro) (net.context i).remote.rkey0
      n).RemoteOk (net.context i) := by
  intro p hp
  obtain rfl := Option.some.inj hp
  refine .inl ⟨rfl, Nat.le_add_right _ _, ?_⟩
  show (net.context i).remote.addr0 + ro + n % 2 ^ 32 ≤ _
  rw [Nat.mod_eq_of_lt hn, (net.context_remote i).1]
  omega

/-- A range of the own `write_buf`, with the key of `write_mr`. -/
theorem localOk_write (hm : (net.buffers i).mapped = none) (remoteAddr rkey : Nat)
    (hl : lo + n ≤ fe.bufSize i) :
    (rdmaWrite ((net.context i).writeBuf + (net.context i).dmaoff + lo) (net.context i).writeMr.lkey
      remoteAddr rkey n).LocalOk (net.context i) := by
  have hw := (net.context_local i).2.2
  refine .inr ⟨(net.context i).writeMr, by simp, rfl, ?_, ?_⟩
  · show (net.context i).writeMr.addr ≤ (net.context i).writeBuf + (net.context i).dmaoff + lo
    rw [net.context_writeBuf i hm, hw]
    omega
  · show (net.context i).writeBuf + (net.context i).dmaoff + lo + n % 2 ^ 32 ≤ _
    rw [net.context_writeBuf i hm, hw, Nat.mod_eq_of_lt hn, (net.buffers i).write_length]
    omega

theorem postWrite_valid (hm : (net.buffers i).mapped = none) (hl : lo + n ≤ fe.bufSize i)
    (hr : ro + n ≤ fe.bufSize i.peer) :
    ((net.context i).postWrite n lo ro).Valid (net.context i) :=
  ⟨net.localOk_write i hn hm _ _ hl, net.remoteOk_write i hn _ _ hr⟩

theorem postWrite0_valid (hm : (net.buffers i).mapped = none) (hl : lo + n ≤ fe.bufSize i)
    (hr : ro + n ≤ sendBufSize) : ((net.context i).postWrite0 n lo ro).Valid (net.context i) :=
  ⟨net.localOk_write i hn hm _ _ hl, net.remoteOk_write0 i hn _ _ hr⟩

theorem postSend_valid (hl : lo + n ≤ sendBufSize) :
    ((net.context i).postSend n lo).Valid (net.context i) := by
  obtain ⟨hsm, hsb, -⟩ := net.context_local i
  refine ⟨.inr ⟨(net.context i).sendMr, by simp, rfl, ?_, ?_⟩, fun p hp => by cases hp⟩
  · show (net.context i).sendMr.addr ≤ (net.context i).sendBuf + lo
    rw [hsm, hsb]
    omega
  · show (net.context i).sendBuf + lo + n % 2 ^ 32 ≤ _
    rw [hsm, hsb, Nat.mod_eq_of_lt hn, (net.buffers i).send_length]
    omega

theorem postRecv_valid (hl : lo + n ≤ sendBufSize) :
    ((net.context i).postRecv n lo).Valid (net.context i) := net.postSend_valid i hn hl

/-- **`post_write1` is valid only inline**: the region of its key is not the one its bytes are in. -/
theorem postWrite1_valid_iff (hl : lo + n ≤ sendBufSize) (hr : ro + n ≤ fe.bufSize i.peer) :
    ((net.context i).postWrite1 n lo ro).Valid (net.context i) ↔ n ≤ maxInlineSize := by
  obtain ⟨hsm, hsb, hwm⟩ := net.context_local i
  constructor
  · rintro ⟨⟨hin, -⟩ | ⟨mr, hmem, hkey, h1, h2⟩, -⟩
    · exact of_decide_eq_true hin
    · by_contra hlong
      have hmod : ((net.context i).postWrite1 n lo ro).length = n := Nat.mod_eq_of_lt hn
      have hkey' : mr.lkey = (net.context i).writeMr.lkey := hkey
      rw [hmod] at h2
      rw [hsm, hwm] at hmem
      rw [hwm] at hkey'
      rcases List.mem_pair.1 hmem with rfl | rfl
      · -- `send_mr` has another key
        exact (net.buffers i).lkeys hkey'
      · -- `write_mr` lies elsewhere
        have h1' : (net.buffers i).write.addr ≤ (net.context i).sendBuf + lo := h1
        have h2' : (net.context i).sendBuf + lo + n ≤
            (net.buffers i).write.addr + (net.buffers i).write.length := h2
        rw [hsb] at h1' h2'
        rw [(net.buffers i).write_length] at h2'
        rcases (net.buffers i).apart with ha | ha <;> omega
  · intro hshort
    refine ⟨.inl ⟨decide_eq_true hshort, ?_⟩, net.remoteOk_write i hn _ _ hr⟩
    show n % 2 ^ 32 ≤ maxInlineSize
    rw [Nat.mod_eq_of_lt hn]
    exact hshort

end

end Net

end PMRAccess.Rdma
