import PMRAccess.Pmr.State
import PMRAccess.Lib.Fifo
import PMRAccess.Lib.Run

/-!
# The PMR front end: steps (`frontend/pmr/pmr.cc`)

`step` is one step of one thread: a client enters a call, a client or its clerk moves on, the uring
thread moves on, or the kernel completes a write. Every label names the thread and the choices that
are not the program's (what a relaxed load sees, which producer's item a dequeue finds, the result
of a write).
-/

namespace PMRAccess.Pmr

open Lib

/-! ## The client -/

/-- Posting the request header of a call without a record, and its key, to the clerk. -/
def Conn.request (k : Conn) (op : Operation) (key : Bytes) (ctl : Ctl) : Conn :=
  let localBuf := prepareKey op key k.client.localBuf
  let totalLen := (sizeofRequest + len16 key) % 2 ^ 16
  { k with
    client := { k.client with localBuf }
    clerk := { k.clerk with
      sendBuf := k.clerk.sendBuf.write ringHeader (localBuf.read ringHeader totalLen) }
    ctl
    pc := .read }

/-- `SendWrite` up to the posting: the record is prepared in the message buffer. -/
def Conn.prepare (k : Conn) (r : Record) : Conn :=
  { k with
    client := { k.client with localBuf := r.prepare k.client.localBuf }
    ctl := .post r }

/-- A client between two calls enters one. -/
def Conn.call (k : Conn) : Call → Conn
  | .write r =>
    if (k.client.bufHead + r.totalLen) % 2 ^ 32 ≥ maxAsyncSize then
      k.request .alloc [] (.alloc (some r))
    else k.prepare r
  | .get key => k.request .get key (.get key)
  | .delete key => k.request .delete key (.delete key)
  | .alloc => k.request .alloc [] (.alloc none)
  | .close => k.request .close [] .close

/-- `SendAlloc` takes the chunk out of the reply. -/
def Client.takeChunk (cl : Client) : Client :=
  if replyOk cl.localBuf then
    { cl with
      chunkOffset := ofLe (cl.localBuf.read (ringHeader + sizeofRequest) 4)
      bufHead := 0 }
  else cl

/-- The three writes of `SendWrite`: the request to the message buffer, the record to the chunk, the
header. -/
def Conn.postRecord (k : Conn) (r : Record) : Conn :=
  { k with
    client := { k.client with bufHead := (k.client.bufHead + r.totalLen) % 2 ^ 32 }
    clerk := { k.clerk with
      sendBuf := k.clerk.sendBuf.write ringHeader (k.client.localBuf.read ringHeader r.metaLen) }
    ctl := .write r
    pc := .read }

/-- The address the record of `SendWrite` is written to. -/
def Client.writeAddr (cl : Client) : Nat := (cl.chunkOffset + cl.bufHead) % 2 ^ 32

/-- The client's next step while the clerk polls. -/
def clientStep (sv : Server) (c : Nat) (k : Conn) : Option (Server × Conn × List Event) :=
  match k.ctl with
  | .idle => none
  | .post r =>
    some ({ sv with
      mem := sv.mem.write k.client.writeAddr (k.client.localBuf.read ringHeader r.totalLen) },
      k.postRecord r, [.wrote c r])
  | .alloc next =>
    let k := { k with client := k.client.takeChunk }
    match next with
    | none => some (sv, { k with ctl := .idle }, [])
    | some r => some (sv, k.prepare r, [])
  | .write r => some (sv, { k with ctl := .idle }, [.acked c r])
  | .get key =>
    let b := k.client.localBuf
    let val := if replyOk b then some (replyValue b) else none
    some (sv, { k with ctl := .idle }, [.got c key val])
  | .delete key =>
    some (sv, { k with ctl := .idle }, [.deleted c key (replyOk k.client.localBuf)])
  | .close => none

/-! ## The clerk -/

/-- The `PUT` case up to the index: key and meta go into the batch. -/
def Clerk.emplace (cl : Clerk) : Clerk :=
  { cl with
    keyBatch := cl.keyBatch ++ [reqKey cl.sendBuf]
    metas := cl.metas ++ [Meta.ofFile 0 (cl.bufHead + sizeofRequest) (reqKeySize cl.sendBuf)
      (reqValSize cl.sendBuf)] }

/-- The index entry of the `PUT` case: the address of the key in the chunk. -/
def Clerk.memIdx (cl : Clerk) : Meta :=
  Meta.ofMem (cl.chunkOffset + cl.bufHead + sizeofRequest) (reqKeySize cl.sendBuf)
    (reqValSize cl.sendBuf)

/-- The rest of the `PUT` case: the cursor and the reply. -/
def Clerk.advance (cl : Clerk) : Clerk :=
  { cl with
    bufHead := (cl.bufHead + reqLength cl.sendBuf) % 2 ^ 32
    sendBuf := setReply cl.sendBuf .ok [] }

def Clerk.setReply (cl : Clerk) (status : RequestStatus) (value : Bytes) : Clerk :=
  { cl with sendBuf := PMRAccess.setReply cl.sendBuf status value }

/-- The batch is emptied: by `resize(0)`, or with the thread. -/
def Clerk.dropBatch (cl : Clerk) : Clerk := { cl with keyBatch := [], metas := [] }

/-- `ALLOC` behind `AllocChunk`: the new chunk, in the cursor and in the reply. -/
def Clerk.takeChunk (cl : Clerk) (slot : Nat) : Clerk :=
  let chunkOffset := (maxAsyncSize * slot) % 2 ^ 32
  { cl with
    chunkOffset
    bufHead := 0
    sendBuf := PMRAccess.setReply cl.sendBuf .ok (leBytes 4 chunkOffset) }

/-- The copy of the clerk's chunk in DRAM. -/
def Server.copyChunk (sv : Server) (chunkOffset : Nat) : Buf := fun i => sv.mem (chunkOffset + i)

/-- The record of the client's call is indexed. -/
def Ctl.handled (c : Nat) : Ctl → List Event
  | .write r => [.handled c r]
  | _ => []

/-- The clerk reads the request and enters the case of its operation. -/
def readStep (sv : Server) (k : Conn) : Server × Conn :=
  let cl := k.clerk
  match reqOp cl.sendBuf with
  | some .update | some .put =>
    (sv, { k with clerk := cl.emplace, pc := .insert (reqKey cl.sendBuf) cl.memIdx })
  | some .get => (sv, { k with pc := .find (reqKey cl.sendBuf) })
  | some .delete => (sv, { k with pc := .dbDelete (reqKey cl.sendBuf) })
  | some .alloc =>
    if cl.chunkOffset < uint32Max then
      (sv, { k with pc := .putBatch false (sv.copyChunk cl.chunkOffset) })
    else (sv, { k with pc := .scan 0 })
  | some .close =>
    if cl.bufHead > 0 then (sv, { k with pc := .putBatch true (sv.copyChunk cl.chunkOffset) })
    else (sv, { k with clerk := cl.dropBatch, pc := .done })
  | none => ({ sv with aborted := true }, k)

/-- The clerk's next step. `seen` is what the relaxed load of `blindset` returns, which may be out
of date. -/
def clerkStep (sv : Server) (c : Nat) (k : Conn) (seen : Bool) :
    Option (Server × Conn × List Event) :=
  let cl := k.clerk
  match k.pc with
  | .poll => none
  | .read =>
    let (sv, k) := readStep sv k
    some (sv, k, [])
  | .insert key m =>
    some ({ sv with map := assign sv.map key (some m) },
      { k with clerk := cl.advance, pc := .reply }, k.ctl.handled c)
  | .find key =>
    match sv.map key with
    | some m => some (sv, { k with pc := .copy key m }, [])
    | none => some (sv, { k with pc := .dbGet key }, [])
  | .copy key m =>
    let value := sv.mem.read (m.memAddr + key.length) m.valueSize
    some (sv, { k with clerk := cl.setReply .ok value, pc := .reply }, [.hit c key value])
  | .dbGet key =>
    match sv.db key with
    | some value => some (sv, { k with clerk := cl.setReply .ok value, pc := .reply }, [])
    | none => some (sv, { k with clerk := cl.setReply .notfound [], pc := .reply }, [])
  | .dbDelete key =>
    -- `Delete` of a key that is absent succeeds too
    some ({ sv with db := sv.db.delete key },
      { k with clerk := cl.setReply .ok [], pc := .reply }, [])
  | .putBatch closing tmp =>
    some ({ sv with db := sv.db.putBatch cl.keyBatch cl.metas tmp },
      { k with pc := .erase closing tmp 0 }, [])
  | .erase closing tmp i =>
    match cl.keyBatch[i]? with
    | some key =>
      some ({ sv with map := assign sv.map key none },
        { k with pc := .erase closing tmp (i + 1) }, [])
    | none =>
      let it : Item := ⟨tmp, cl.bufHead, cl.chunkOffset / maxAsyncSize⟩
      some ({ sv with queue := sv.queue ++ [(c, it)] },
        { k with clerk := cl.dropBatch, pc := if closing then .done else .scan 0 },
        [.flushed c it])
  | .scan i =>
    if i < sv.bitmap.size then
      some (sv, { k with pc := if seen then .scan (i + 1) else .trySet i }, [])
    else some (sv, { k with pc := .scan 0 }, [])
  | .trySet i =>
    match sv.bitmap.set i with
    | none => some ({ sv with aborted := true }, k, [])
    | some (true, bitmap) =>
      some ({ sv with bitmap }, { k with pc := .scan (i + 1) }, [])
    | some (false, bitmap) =>
      some ({ sv with bitmap }, { k with clerk := cl.takeChunk i, pc := .reply }, [.alloced c i])
  | .reply =>
    some (sv, { k with
      client := { k.client with
        localBuf := k.client.localBuf.write ringHeader
          (cl.sendBuf.read ringHeader (sizeofRequest + replyValSize cl.sendBuf)) }
      pc := .poll }, [])
  | .done => none

/-! ## The uring thread -/

/-- `UringRun` takes an item of producer `p` from the queue and prepares its write. -/
def dequeueStep (sv : Server) (p : Nat) : Option (Server × List Event) :=
  match sv.uring with
  | .poll =>
    if sv.ring.full then none
    else
      match takeFrom p sv.queue with
      | none => none
      | some (it, queue) =>
        match sv.ring.write it with
        | none => some ({ sv with aborted := true }, [])
        | some (ring, sqe) => some ({ sv with queue, ring }, [.dequeued p sqe])
  | _ => none

/-- The other steps of `UringRun`. A dequeue may fail although the queue is not empty, so the inner
loop may be left at any time. -/
def uringStep (sv : Server) : Option Server :=
  match sv.uring with
  | .poll =>
    if sv.ring.empty then some sv
    else some { sv with ring := sv.ring.submit, uring := .wait }
  | .wait =>
    match sv.ring.wait with
    | none => none
    | some (cqe, ring) => some { sv with ring, uring := .check cqe }
  | .check cqe =>
    if cqe.data < maxDmabufSize / maxAsyncSize ∧ sv.bitmap.get cqe.data = some true then
      some { sv with uring := .clear cqe }
    else some { sv with aborted := true }
  | .clear cqe =>
    match sv.bitmap.clear cqe.data with
    | none => some { sv with aborted := true }
    | some (_, bitmap) => some { sv with bitmap, uring := .seen cqe }
  | .seen _ => some { sv with ring := sv.ring.seen, uring := .poll }

/-! ## The system -/

/-- What a connection does next. -/
inductive Act
  | call (x : Call)
  | client
  | clerk (seen : Bool)

inductive Label
  /-- `Listen` accepts a connection, whose buffers may hold anything, and the client's `Connect`
  sends `ALLOC` -/
  | connect (localBuf sendBuf : Buf)
  | conn (c : Nat) (a : Act)
  | dequeue (p : Nat)
  | uring
  /-- the kernel ends a write -/
  | complete (j : Nat) (res : Int)
  /-- `Wait` fails, against the assertion behind it -/
  | waitFail

def connStep (sv : Server) (c : Nat) (k : Conn) : Act → Option (Server × Conn × List Event)
  | .call x =>
    match k.ctl, k.pc with
    | .idle, .poll => some (sv, k.call x, [])
    | _, _ => none
  | .client =>
    match k.pc with
    | .poll => clientStep sv c k
    | _ => none
  | .clerk seen => clerkStep sv c k seen

/-- A connection behind the client's first `SendAlloc`. -/
def Conn.new (localBuf sendBuf : Buf) : Conn :=
  Conn.request ⟨⟨localBuf, uint32Max, uint32Max⟩, ⟨sendBuf, uint32Max, uint32Max, [], []⟩, .idle,
    .poll⟩ .alloc [] (.alloc none)

def step (s : State) (l : Label) : Option (State × List Event) :=
  if s.server.aborted then none
  else
    match l with
    | .connect localBuf sendBuf =>
      some ({ s with conns := s.conns ++ [Conn.new localBuf sendBuf] }, [])
    | .conn c a =>
      match s.conns[c]? with
      | none => none
      | some k =>
        match connStep s.server c k a with
        | none => none
        | some (server, k', es) => some (⟨server, s.conns.set c k'⟩, es)
    | .dequeue p => (dequeueStep s.server p).map fun r => ({ s with server := r.1 }, r.2)
    | .uring => (uringStep s.server).map fun server => ({ s with server }, [])
    | .complete j res =>
      (s.server.ring.complete j res).map fun ring => ({ s with server := { s.server with ring } }, [])
    | .waitFail =>
      match s.server.uring with
      | .wait => some ({ s with server := { s.server with aborted := true } }, [])
      | _ => none

/-- The server at start, on any memory, log file and database. -/
def init (mem file : Buf) (db : Store) : State :=
  ⟨⟨mem, fun _ => none, db, AtomicBitset.new (maxDmabufSize / maxAsyncSize), [], IOuring.new file 64,
    .poll, false⟩, []⟩

end PMRAccess.Pmr
