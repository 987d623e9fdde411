import PMRAccess.Group.Batch

/-!
# The Group front end: state (`frontend/group`)

One server with any number of connections, each a `GroupClient` and the `GroupClerk` that serves it.
As in the PMR front end a client and its clerk alternate, so a connection is described by where the
client is (`Ctl`) and where the clerk's loop is (`Pc`). The clerks share the mutex, the queue of
writers, the static batch, the database and the log. A clerk has at most one `Writer` at a time, a
local variable of its loop: a writer is named by its clerk, its `done` flag is a field of the
connection, and its condition variable is the flag of `Pc.asleep`.
-/

namespace PMRAccess.Group

open Lib

/-! ## The log (`ringlog.h`) -/

/-- The file is preallocated; behind it the log starts over. -/
def preallocateSize : Nat := 4 * 1024 * 1024 * 1024

structure RingLog where
  offset : Nat
  file : Buf

namespace RingLog

def new (file : Buf) : RingLog := ⟨0, file⟩

/-- `PutBatch`: takes the range from `offset_` on and writes the bytes there. -/
def putBatch (l : RingLog) (buffer : Bytes) : RingLog where
  offset := if l.offset < preallocateSize then l.offset + buffer.length else buffer.length
  file := l.file.write l.offset buffer

end RingLog

/-! ## Connections -/

/-- The calls a client makes after `Connect`. -/
inductive Call
  | write (r : Record)
  | get (key : Bytes)
  | delete (key : Bytes)
  | close
  deriving DecidableEq, Repr

/-- Where the client is: between two calls, or in one with the request posted. -/
inductive Ctl
  | idle
  | write (r : Record)
  | get (key : Bytes)
  | delete (key : Bytes)
  | close
  deriving DecidableEq, Repr

/-- The request that is to be logged. -/
def Ctl.req? : Ctl → Option Req
  | write r => some (.write r)
  | delete key => some (.delete key)
  | _ => none

/-- Where the clerk's loop is. -/
inductive Pc
  /-- spinning on the header -/
  | poll
  /-- the header shows `CLIENT_DONE`: about to read the request -/
  | read
  /-- `GET`: about to ask `db_` -/
  | dbGet (key : Bytes)
  /-- about to lock the mutex, then to `push_back` the writer -/
  | lock
  | push
  /-- about to test the condition of the wait loop -/
  | test
  /-- in `cv.Wait`, `signalled` or not since it went to sleep; woken, about to lock the mutex -/
  | asleep (signalled : Bool)
  | relock
  /-- leader, waiting for followers; then with the mutex, about to build the batch -/
  | linger
  | build
  /-- about to put the batch into `db_`, into the log -/
  | putDb (lastWriter : Nat)
  | putLog (lastWriter : Nat)
  /-- about to lock the mutex, to pop the next writer of the batch, to signal the new front -/
  | lockPop (lastWriter : Nat)
  | pop (lastWriter : Nat)
  | notify
  /-- about to post the reply -/
  | reply
  /-- the thread has returned -/
  | done
  deriving DecidableEq, Repr

namespace Pc

/-- The clerk has the mutex. -/
def holds : Pc → Bool
  | push | test | build | pop _ | notify => true
  | _ => false

/-- Between taking leadership and popping the batch. -/
def leading : Pc → Bool
  | linger | build | putDb _ | putLog _ | lockPop _ | pop _ => true
  | _ => false

/-- The leader's batch is built and not yet popped. -/
def inUse : Pc → Bool
  | putDb _ | putLog _ | lockPop _ | pop _ => true
  | _ => false

/-- Not asleep in `cv.Wait`, or signalled since it went to sleep. -/
def roused : Pc → Bool
  | asleep signalled => signalled
  | _ => true

/-- Popping the batch, or behind it about to signal the new front. -/
def popping : Pc → Bool
  | pop _ | notify => true
  | _ => false

end Pc

structure Conn where
  /-- the client's and the clerk's message buffer -/
  localBuf : Buf
  clerkBuf : Buf
  ctl : Ctl
  pc : Pc
  /-- `w.done` -/
  done : Bool

/-- What the clerks share. -/
structure Server where
  mutex : Option Nat
  queue : List Nat
  batch : WriteBatch
  db : Store
  log : RingLog

structure State where
  server : Server
  conns : List Conn

/-- The writers in the queue with the message buffers their requests point into. -/
def State.writers (s : State) : List (Nat × Buf) :=
  s.server.queue.map fun d => (d, (s.conns[d]?.map Conn.clerkBuf).getD fun _ => 0)

/-- What a run shows of itself. -/
inductive Event
  /-- the writer of a request is pushed onto the queue -/
  | pushed (c : Nat) (q : Req)
  /-- the clerk leaves the wait loop as leader, or with its request done -/
  | led (c : Nat)
  | followed (c : Nat)
  /-- a batch is built of the first `n` writers -/
  | built (c : Nat) (n : Nat)
  /-- a batch is put into `db_`, into the log -/
  | applied (kvs : List (Bytes × Bytes))
  | logged (bytes : Bytes)
  | popped (d : Nat)
  /-- a `GET` has read `db_` -/
  | readDb (c : Nat) (key : Bytes) (val : Option Bytes)
  /-- a reply is posted, with these words `status` and `val_size` -/
  | replied (c : Nat) (q : Option Req) (status valSize : Nat)
  /-- `SendWrite`, `SendGet`, `SendDelete` have returned -/
  | acked (c : Nat) (r : Record)
  | got (c : Nat) (key : Bytes) (val : Option Bytes)
  | deleted (c : Nat) (key : Bytes) (ok : Bool)
  deriving DecidableEq, Repr

end PMRAccess.Group
