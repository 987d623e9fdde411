import PMRAccess.Lib.Wire
import PMRAccess.Request

/-!
# The writes the front ends post (`rdmautil/rdmautil.cc`, `frontend`)

Every end of a connection has two registered buffers, `send_buf` and `write_buf` (`BufId`). The verb
of a post says between which of them it copies: `post_write` from `write_buf` to the peer's
`write_buf`, `post_write0` from `write_buf` to the peer's `send_buf`, `post_write1` from `send_buf`
to the peer's `write_buf`.

A request or a reply is posted as a message, the bytes behind `RING_HEADER`, followed by the header
word (`message`). The client's message buffer is its `write_buf`; the clerk's is its `send_buf` in
the PMR and PMem front ends, whose `write_buf` takes the records of a `SendWrite`, and its
`write_buf` in the Group front end.
-/

namespace PMRAccess.Rdma

open Lib

def maxInlineSize : Nat := 128

/-- The values of the header word. -/
def clientDone : Nat := 0x7f7f7f7f
def clerkDone : Nat := 0xf7f7f7f7

/-- The header word of a message buffer. -/
def header (b : Buf) : Nat := ofLe (b.read 0 4)

/-! ## Posts -/

inductive BufId
  | send | write
  deriving DecidableEq, Repr

inductive Verb
  | write | write0 | write1
  deriving DecidableEq, Repr

namespace Verb

def source : Verb → BufId
  | write | write0 => .write
  | write1 => .send

def target : Verb → BufId
  | write | write1 => .write
  | write0 => .send

end Verb

/-- A call of `post_write`, `post_write0` or `post_write1` without a message to copy first. -/
structure Post where
  verb : Verb
  msgLen : Nat
  localOffset : Nat
  remoteOffset : Nat
  signal : Bool
  deriving DecidableEq, Repr

/-- The write a post asks for; the `length` of its `ibv_sge` has 32 bits. -/
def Post.toWrite (p : Post) : Write BufId where
  source := p.verb.source
  src := p.localOffset
  target := p.verb.target
  dst := p.remoteOffset
  len := p.msgLen % 2 ^ 32
  inline := p.msgLen ≤ maxInlineSize
  signal := p.signal

/-- The bytes from `RING_HEADER` on, then the header word, signaled. -/
def message (v : Verb) (msgLen : Nat) : List Post :=
  [⟨v, msgLen, ringHeader, ringHeader, false⟩, ⟨v, 4, 0, 0, true⟩]

/-! ## Requests -/

inductive FrontEnd
  | pmr | pmem | group
  deriving DecidableEq, Repr

/-- The requests a client waits for; `alloc` is the one of `SendAlloc`. -/
inductive Call
  | write (r : Record)
  | get (key : Bytes)
  | delete (key : Bytes)
  | alloc
  deriving DecidableEq, Repr

/-- `PMRClient::SendWrite`, with the record posted to `off` of the clerk's `write_buf`. -/
def pmrSendWrite (r : Record) (off : Nat) : List Post :=
  [⟨.write0, r.metaLen, ringHeader, ringHeader, false⟩,
    ⟨.write, r.totalLen, ringHeader, off, false⟩,
    ⟨.write0, 4, 0, 0, true⟩]

/-- `PMemClient::SendWrite`. -/
def pmemSendWrite (r : Record) (off : Nat) : List Post :=
  [⟨.write0, r.totalLen, ringHeader, ringHeader, false⟩,
    ⟨.write, r.totalLen, ringHeader, off, false⟩,
    ⟨.write0, 4, 0, 0, true⟩]

/-- `GroupClient::SendWrite`. -/
def groupSendWrite (r : Record) : List Post := message .write r.totalLen

/-- `SendGet` and `SendDelete`; `SendAlloc` and `SendClose` up to there with an empty key. -/
def sendKey (v : Verb) (key : Bytes) : List Post :=
  message v ((sizeofRequest + len16 key) % 2 ^ 16)

/-- What a call puts into the client's message buffer. -/
def Call.prepare (b : Buf) : Call → Buf
  | .write r => r.prepare b
  | .get key => prepareKey .get key b
  | .delete key => prepareKey .delete key b
  | .alloc => prepareKey .alloc [] b

/-- The key of a request without a value. -/
def Call.key : Call → Bytes
  | .write r => r.key
  | .get key | .delete key => key
  | .alloc => []

/-- The length of the reply in a message buffer. -/
def replyLen (b : Buf) : Nat := sizeofRequest + replyValSize b

namespace FrontEnd

/-- How the client writes to the clerk's message buffer, and the clerk to the client's. -/
def requestVerb : FrontEnd → Verb
  | pmr | pmem => .write0
  | group => .write

def replyVerb : FrontEnd → Verb
  | pmr | pmem => .write1
  | group => .write

/-- The clerk's message buffer. -/
def clerkBuf (fe : FrontEnd) : BufId := fe.requestVerb.target

/-- The length of the message of a request. -/
def msgLen (fe : FrontEnd) : Call → Nat
  | .write r =>
    match fe with
    | pmr => r.metaLen
    | pmem | group => r.totalLen
  | .get key | .delete key => (sizeofRequest + len16 key) % 2 ^ 16
  | .alloc => (sizeofRequest + len16 []) % 2 ^ 16

/-- What a call posts. -/
def posts (fe : FrontEnd) (off : Nat) : Call → List Post
  | .write r =>
    match fe with
    | pmr => pmrSendWrite r off
    | pmem => pmemSendWrite r off
    | group => groupSendWrite r
  | .get key | .delete key => sendKey fe.requestVerb key
  | .alloc => sendKey fe.requestVerb []

/-- The reply in the clerk's message buffer `b`. -/
def reply (fe : FrontEnd) (b : Buf) : List Post := message fe.replyVerb (replyLen b)

/-- How much of the message buffer the clerk reads: in the PMR front end the value of a `SendWrite`
is not there. -/
def readLen (fe : FrontEnd) (b : Buf) : Nat :=
  match fe with
  | pmr => sizeofRequest + reqKeySize b
  | pmem | group => reqLength b

end FrontEnd

end PMRAccess.Rdma
