import PMRAccess.Group.State
import PMRAccess.Lib.Fifo
import PMRAccess.Lib.Run

/-!
# The Group front end: steps (`frontend/group/group.cc`)

`step` is one step of one thread: a client enters or leaves a call, or a clerk moves on. A clerk's
step is one access to what the clerks share; what it does between taking the mutex and the next
access, and between an access and giving the mutex back, is one step with that access. A clerk in
`cv.Wait` may wake at any time, signalled or not.
-/

namespace PMRAccess.Group

open Lib

/-! ## The client -/

/-- Posting a prepared request of `totalLen` bytes to the clerk. -/
def Conn.post (k : Conn) (localBuf : Buf) (totalLen : Nat) (ctl : Ctl) : Conn :=
  { k with
    localBuf
    clerkBuf := k.clerkBuf.write ringHeader (localBuf.read ringHeader totalLen)
    ctl
    pc := .read }

/-- The request of `SendGet`, `SendDelete` or `SendClose`. -/
def Conn.request (k : Conn) (op : Operation) (key : Bytes) (ctl : Ctl) : Conn :=
  k.post (prepareKey op key k.localBuf) ((sizeofRequest + len16 key) % 2 ^ 16) ctl

/-- A client between two calls enters one. -/
def Conn.call (k : Conn) : Call → Conn
  | .write r => k.post (r.prepare k.localBuf) r.totalLen (.write r)
  | .get key => k.request .get key (.get key)
  | .delete key => k.request .delete key (.delete key)
  | .close => k.request .close [] .close

/-- The client sees the reply and returns; after `SendClose` it does not wait for one. -/
def clientStep (c : Nat) (k : Conn) : Option (Conn × List Event) :=
  let b := k.localBuf
  match k.ctl with
  | .idle | .close => none
  | .write r => some ({ k with ctl := .idle }, [.acked c r])
  | .get key =>
    some ({ k with ctl := .idle }, [.got c key (if replyOk b then some (replyValue b) else none)])
  | .delete key => some ({ k with ctl := .idle }, [.deleted c key (replyOk b)])

/-! ## The clerk -/

/-- The reply's `status` alone, as `GET` of an absent key sets it. -/
def setStatus (b : Buf) (status : RequestStatus) : Buf := b.write ringHeader (leBytes 4 status.code)

/-- `Signal` of the writer's condition variable. -/
def Conn.signal (k : Conn) : Conn :=
  match k.pc with
  | .asleep _ => { k with pc := .asleep true }
  | _ => k

/-- What a clerk does to the writer of another one. -/
inductive Wake
  | none
  | signal (d : Nat)
  /-- `done` is set, then the writer signalled -/
  | done (d : Nat)
  deriving DecidableEq, Repr

def Wake.apply (ks : List Conn) : Wake → List Conn
  | none => ks
  | signal d => ks.modify d Conn.signal
  | done d => ks.modify d fun k => { k with done := true }.signal

/-- The clerk reads the request and enters the case of its operation: what is neither `CLOSE` nor
`GET` is logged. -/
def Conn.read (k : Conn) : Conn :=
  match reqOp k.clerkBuf with
  | some .close => { k with pc := .done }
  | some .get => { k with pc := .dbGet (reqKey k.clerkBuf) }
  | _ => { k with pc := .lock, done := false }

/-- Taking the mutex, if it is free. -/
def Server.lock (sv : Server) (c : Nat) : Option Server :=
  match sv.mutex with
  | none => some { sv with mutex := some c }
  | some _ => none

def Server.unlock (sv : Server) : Server := { sv with mutex := none }

/-- The request of the client's call is in the queue. -/
def Ctl.pushed (c : Nat) (x : Ctl) : List Event := (x.req?.map (.pushed c)).toList

/-- The reply goes to the client's message buffer. -/
def Conn.reply (k : Conn) : Conn :=
  { k with
    localBuf := k.localBuf.write ringHeader
      (k.clerkBuf.read ringHeader (sizeofRequest + replyValSize k.clerkBuf))
    pc := .poll }

/-- The clerk's next step. -/
def clerkStep (s : State) (c : Nat) (k : Conn) : Option (Server × Conn × Wake × List Event) :=
  let sv := s.server
  match k.pc with
  | .poll => none
  | .read => some (sv, k.read, .none, [])
  | .dbGet key =>
    let clerkBuf :=
      match sv.db key with
      | some value => setReply k.clerkBuf .ok value
      | none => setStatus k.clerkBuf .notfound
    some (sv, { k with clerkBuf, pc := .reply }, .none, [.readDb c key (sv.db key)])
  | .lock => (sv.lock c).map (·, { k with pc := .push }, .none, [])
  | .push =>
    some ({ sv with queue := sv.queue ++ [c] }, { k with pc := .test }, .none, k.ctl.pushed c)
  | .test =>
    if !k.done && sv.queue.head? ≠ some c then
      some (sv.unlock, { k with pc := .asleep false }, .none, [])
    else if k.done then
      some (sv.unlock, { k with clerkBuf := setReply k.clerkBuf .ok [], pc := .reply }, .none,
        [.followed c])
    else some (sv.unlock, { k with pc := .linger }, .none, [.led c])
  | .asleep _ => some (sv, { k with pc := .relock }, .none, [])
  | .relock => (sv.lock c).map (·, { k with pc := .test }, .none, [])
  | .linger => (sv.lock c).map (·, { k with pc := .build }, .none, [])
  | .build =>
    let built := buildBatchGroup sv.batch s.writers
    -- `last_writer` would be used unset if the queue were empty
    built.lastWriter.map fun last =>
      ({ sv with batch := built.batch }.unlock, { k with pc := .putDb last }, .none,
        [.built c built.batch.keys.length])
  | .putDb last =>
    some ({ sv with db := sv.db.putBatch sv.batch.keys sv.batch.metas sv.batch.buffer },
      { k with pc := .putLog last }, .none, [.applied sv.batch.pairs])
  | .putLog last =>
    let bytes := sv.batch.buffer.read 0 sv.batch.batchLength
    some ({ sv with log := sv.log.putBatch bytes }, { k with pc := .lockPop last }, .none,
      [.logged bytes])
  | .lockPop last => (sv.lock c).map (·, { k with pc := .pop last }, .none, [])
  | .pop last =>
    match sv.queue with
    | [] => none
    | ready :: queue =>
      some ({ sv with queue }, { k with pc := if ready = last then .notify else .pop last },
        if ready ≠ c then .done ready else .none, [.popped ready])
  | .notify =>
    some (sv.unlock, { k with pc := .reply },
      match sv.queue.head? with
      | some d => .signal d
      | none => .none, [])
  | .reply =>
    some (sv, k.reply, .none,
      [.replied c k.ctl.req? (ofLe (k.clerkBuf.read ringHeader 4)) (replyValSize k.clerkBuf)])
  | .done => none

/-! ## The system -/

/-- What a connection does next. -/
inductive Act
  | call (x : Call)
  | client
  | clerk

inductive Label
  /-- `Listen` accepts a connection, whose buffers may hold anything -/
  | connect (localBuf clerkBuf : Buf)
  | conn (c : Nat) (a : Act)

def connStep (s : State) (c : Nat) (k : Conn) :
    Act → Option (Server × Conn × Wake × List Event)
  | .call x =>
    match k.ctl, k.pc with
    | .idle, .poll => some (s.server, k.call x, .none, [])
    | _, _ => none
  | .client =>
    match k.pc with
    | .poll => (clientStep c k).map fun r => (s.server, r.1, .none, r.2)
    | _ => none
  | .clerk => clerkStep s c k

def step (s : State) : Label → Option (State × List Event)
  | .connect localBuf clerkBuf =>
    some ({ s with conns := s.conns ++ [⟨localBuf, clerkBuf, .idle, .poll, false⟩] }, [])
  | .conn c a =>
    match s.conns[c]? with
    | none => none
    | some k =>
      match connStep s c k a with
      | none => none
      | some (server, k', w, es) => some (⟨server, w.apply (s.conns.set c k')⟩, es)

/-- The server at start, on any database and log file; the static batch holds anything. -/
def init (batch : WriteBatch) (db : Store) (file : Buf) : State :=
  ⟨⟨none, [], batch, db, RingLog.new file⟩, []⟩

end PMRAccess.Group
