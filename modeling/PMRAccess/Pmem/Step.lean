import PMRAccess.Database
import PMRAccess.Lib.Run

/-!
# The PMem front end (`frontend/pmem`)

One server with any number of connections, each a `PMemClient` and the `PMemClerk` that serves it. A
`SendWrite` posts its record twice: to the clerk's message buffer, from which the clerk puts it into
the database, and to the connection's region of persistent memory, a ring over which the client
moves its cursor. As in the other front ends a client and its clerk alternate, so a connection is
described by where the client is (`Ctl`) and where the clerk's loop is (`Pc`).
-/

namespace PMRAccess.Pmem

open Lib

def pmemBufSize : Nat := 16 * 1024 * 1024

/-! ## State -/

/-- The calls a client makes after `Connect`. -/
inductive Call
  | write (r : Record)
  | get (key : Bytes)
  | delete (key : Bytes)
  | close
  deriving DecidableEq, Repr

/-- Where the client is: between two calls, or in one with the request posted. -/
inductive Ctl
  | idle
  | write (r : Record)
  | get (key : Bytes)
  | delete (key : Bytes)
  | close
  deriving DecidableEq, Repr

/-- Where the clerk's loop is. -/
inductive Pc
  /-- spinning on the header -/
  | poll
  /-- the header shows `CLIENT_DONE`: about to read the request -/
  | read
  /-- about to call `db_` -/
  | dbPut (key val : Bytes)
  | dbGet (key : Bytes)
  | dbDelete (key : Bytes)
  /-- about to post the reply -/
  | reply
  /-- the thread has returned -/
  | done
  deriving DecidableEq, Repr

structure Conn where
  /-- the client's and the clerk's message buffer -/
  localBuf : Buf
  clerkBuf : Buf
  /-- the connection's persistent memory, and the client's cursor in it -/
  region : Buf
  bufHead : Nat
  ctl : Ctl
  pc : Pc

/-- What the clerks share. -/
structure Server where
  db : Store
  /-- a clerk has called `exit` -/
  exited : Bool

structure State where
  server : Server
  conns : List Conn

inductive Event
  /-- a record is posted to `off` of the region -/
  | posted (c : Nat) (r : Record) (off : Nat)
  /-- `SendWrite`, `SendGet`, `SendDelete` have returned -/
  | acked (c : Nat) (r : Record)
  | got (c : Nat) (key : Bytes) (val : Option Bytes)
  | deleted (c : Nat) (key : Bytes) (ok : Bool)
  deriving DecidableEq, Repr

/-! ## The client -/

/-- Posting a prepared request of `totalLen` bytes to the clerk. -/
def Conn.post (k : Conn) (localBuf : Buf) (totalLen : Nat) (ctl : Ctl) : Conn :=
  { k with
    localBuf
    clerkBuf := k.clerkBuf.write ringHeader (localBuf.read ringHeader totalLen)
    ctl
    pc := .read }

/-- The request of `SendGet`, `SendDelete` or `SendClose`. -/
def Conn.request (k : Conn) (op : Operation) (key : Bytes) (ctl : Ctl) : Conn :=
  k.post (prepareKey op key k.localBuf) ((sizeofRequest + len16 key) % 2 ^ 16) ctl

/-- Where `SendWrite` puts a record: behind the last one, or at the start of the region. -/
def Conn.writeAddr (k : Conn) (r : Record) : Nat :=
  if (k.bufHead + r.totalLen) % 2 ^ 64 ≥ pmemBufSize then 0 else k.bufHead

/-- `SendWrite` up to the wait for the clerk. -/
def Conn.sendWrite (k : Conn) (r : Record) : Conn :=
  let localBuf := r.prepare k.localBuf
  { k.post localBuf r.totalLen (.write r) with
    region := k.region.write (k.writeAddr r) (localBuf.read ringHeader r.totalLen)
    bufHead := (k.writeAddr r + r.totalLen) % 2 ^ 64 }

/-- A client between two calls enters one. -/
def Conn.call (c : Nat) (k : Conn) : Call → Conn × List Event
  | .write r => (k.sendWrite r, [.posted c r (k.writeAddr r)])
  | .get key => (k.request .get key (.get key), [])
  | .delete key => (k.request .delete key (.delete key), [])
  | .close => (k.request .close [] .close, [])

/-- The client sees the reply and returns; after `SendClose` it does not wait for one. -/
def clientStep (c : Nat) (k : Conn) : Option (Conn × List Event) :=
  let b := k.localBuf
  match k.ctl with
  | .idle | .close => none
  | .write r => some ({ k with ctl := .idle }, [.acked c r])
  | .get key =>
    some ({ k with ctl := .idle }, [.got c key (if replyOk b then some (replyValue b) else none)])
  | .delete key => some ({ k with ctl := .idle }, [.deleted c key (replyOk b)])

/-! ## The clerk -/

/-- The value of a request in the message buffer. -/
def reqVal (b : Buf) : Bytes :=
  b.read (ringHeader + sizeofRequest + reqKeySize b) (reqValSize b)

/-- The clerk reads the request and enters the case of its operation. -/
def readStep (sv : Server) (k : Conn) : Server × Conn :=
  let b := k.clerkBuf
  match reqOp b with
  | some .update | some .put => (sv, { k with pc := .dbPut (reqKey b) (reqVal b) })
  | some .get => (sv, { k with pc := .dbGet (reqKey b) })
  | some .delete => (sv, { k with pc := .dbDelete (reqKey b) })
  | some .close => (sv, { k with pc := .done })
  | some .alloc | none => ({ sv with exited := true }, k)

def Conn.setReply (k : Conn) (status : RequestStatus) (value : Bytes) : Conn :=
  { k with clerkBuf := PMRAccess.setReply k.clerkBuf status value, pc := .reply }

/-- The reply goes to the client's message buffer. -/
def Conn.reply (k : Conn) : Conn :=
  { k with
    localBuf := k.localBuf.write ringHeader
      (k.clerkBuf.read ringHeader (sizeofRequest + replyValSize k.clerkBuf))
    pc := .poll }

/-- The clerk's next step; the database is a map whose `Put` and `Delete` succeed. -/
def clerkStep (sv : Server) (k : Conn) : Option (Server × Conn) :=
  match k.pc with
  | .poll | .done => none
  | .read => some (readStep sv k)
  | .dbPut key val => some ({ sv with db := sv.db.put key val }, k.setReply .ok [])
  | .dbGet key =>
    match sv.db key with
    | some value => some (sv, k.setReply .ok value)
    | none => some (sv, k.setReply .notfound [])
  | .dbDelete key => some ({ sv with db := sv.db.delete key }, k.setReply .ok [])
  | .reply => some (sv, k.reply)

/-! ## The system -/

/-- What a connection does next. -/
inductive Act
  | call (x : Call)
  | client
  | clerk

inductive Label
  /-- `Listen` accepts a connection, whose memory may hold anything -/
  | connect (localBuf clerkBuf region : Buf)
  | conn (c : Nat) (a : Act)

def connStep (sv : Server) (c : Nat) (k : Conn) : Act → Option (Server × Conn × List Event)
  | .call x =>
    match k.ctl, k.pc with
    | .idle, .poll => some (sv, k.call c x)
    | _, _ => none
  | .client =>
    match k.pc with
    | .poll => (clientStep c k).map fun r => (sv, r)
    | _ => none
  | .clerk => (clerkStep sv k).map fun r => (r.1, r.2, [])

def step (s : State) (l : Label) : Option (State × List Event) :=
  if s.server.exited then none
  else
    match l with
    | .connect localBuf clerkBuf region =>
      some ({ s with conns := s.conns ++ [⟨localBuf, clerkBuf, region, 0, .idle, .poll⟩] }, [])
    | .conn c a =>
      match s.conns[c]? with
      | none => none
      | some k =>
        match connStep s.server c k a with
        | none => none
        | some (server, k', es) => some (⟨server, s.conns.set c k'⟩, es)

def init (db : Store) : State := ⟨⟨db, false⟩, []⟩

/-! ## Runs -/

/-- Keys and values are C strings, and a request fits the client's buffer of
`MAX_REQUEST + RING_HEADER` bytes. -/
def Call.Fits : Call → Prop
  | .write r => 0 ∉ r.key ∧ 0 ∉ r.val ∧ r.size ≤ maxRequest
  | .get key | .delete key => 0 ∉ key ∧ sizeofRequest + key.length ≤ maxRequest
  | .close => True

instance : (x : Call) → Decidable x.Fits
  | .write r => inferInstanceAs (Decidable (0 ∉ r.key ∧ 0 ∉ r.val ∧ r.size ≤ maxRequest))
  | .get key | .delete key =>
    inferInstanceAs (Decidable (0 ∉ key ∧ sizeofRequest + key.length ≤ maxRequest))
  | .close => inferInstanceAs (Decidable True)

/-- The call a label starts. -/
def Label.call? : Label → Option Call
  | .conn _ (.call x) => some x
  | _ => none

/-- Every request fits. -/
def Fit (_ : State) (l : Label) : Prop := ∀ x ∈ l.call?, x.Fits

instance (s : State) (l : Label) : Decidable (Fit s l) :=
  inferInstanceAs (Decidable (∀ x ∈ l.call?, x.Fits))

/-- Runs of the server from its start. -/
def Run (P : State → Label → Prop) (db : Store) : List Event → State → Prop :=
  Steps step P (init db)

end PMRAccess.Pmem
