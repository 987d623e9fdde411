import PMRAccess.Database
import PMRAccess.Bitset
import PMRAccess.Uring

/-!
# The PMR front end: state (`frontend/pmr`)

One server with any number of connections; a connection is a `PMRClient` and the `PMRClerk` that
serves it, each with its own copy of the chunk cursor. A client and its clerk alternate (the
stop-and-wait handshake on the two header words), so a connection is described by where the client
is (`Ctl`) and where the clerk's loop is (`Pc`): the clerk's steps are those of `Pc`, and when it
polls, the next step is the client's. The steps of a clerk are its accesses to state that other
threads see: the index `map`, the database, the bitmap, the queue and the chunk memory.
-/

namespace PMRAccess.Pmr

open Lib

def maxDmabufSize : Nat := 8 * 1024 * 1024

/-- The number of chunks. -/
def chunks : Nat := maxDmabufSize / maxAsyncSize

/-- "NAN" in `chunk_offset_` and `buf_head_`. -/
def uint32Max : Nat := 2 ^ 32 - 1

/-- The calls a client makes after `Connect`. -/
inductive Call
  | write (r : Record)
  | get (key : Bytes)
  | delete (key : Bytes)
  | alloc
  | close
  deriving DecidableEq, Repr

/-- Where the client is. -/
inductive Ctl
  /-- between two calls -/
  | idle
  /-- in `SendAlloc`, called by `SendWrite` before it sends `next`, or on its own -/
  | alloc (next : Option Record)
  /-- in `SendWrite` with the record prepared in the message buffer -/
  | post (r : Record)
  /-- in `SendWrite`, `SendGet`, `SendDelete` or `SendClose`, with the request posted -/
  | write (r : Record)
  | get (key : Bytes)
  | delete (key : Bytes)
  | close
  deriving DecidableEq, Repr

/-- Where the clerk's loop is. -/
inductive Pc
  /-- spinning on the header -/
  | poll
  /-- the header shows `CLIENT_DONE`: about to read the request -/
  | read
  /-- `PUT`: the key and meta are in the batch; about to `insert_or_assign` -/
  | insert (key : Bytes) (m : Meta)
  /-- `GET`: about to `find`; with the meta found, about to copy; not found, about to ask `db_` -/
  | find (key : Bytes)
  | copy (key : Bytes) (m : Meta)
  | dbGet (key : Bytes)
  | dbDelete (key : Bytes)
  /-- `ALLOC` and `CLOSE` (`closing`): the chunk is copied to `tmp`; about to `PutBatch` -/
  | putBatch (closing : Bool) (tmp : Buf)
  /-- about to erase the `i`-th key of the batch, or behind the last one to enqueue `tmp` -/
  | erase (closing : Bool) (tmp : Buf) (i : Nat)
  /-- `blindset`: about to load bit `i`; having seen it clear, about to `fetch_or` it -/
  | scan (i : Nat)
  | trySet (i : Nat)
  /-- the reply is in the message buffer: about to post it -/
  | reply
  /-- the thread has returned -/
  | done

structure Client where
  localBuf : Buf
  chunkOffset : Nat
  bufHead : Nat

structure Clerk where
  sendBuf : Buf
  chunkOffset : Nat
  bufHead : Nat
  keyBatch : List Bytes
  metas : List Meta

structure Conn where
  client : Client
  clerk : Clerk
  ctl : Ctl
  pc : Pc

/-- Where the uring thread is. -/
inductive UringPc
  /-- in the inner loop of `UringRun` -/
  | poll
  /-- in `Wait` -/
  | wait
  /-- in `FreeChunk`, about to check its assertions, then to clear the bit -/
  | check (cqe : Cqe)
  | clear (cqe : Cqe)
  /-- about to mark the completion seen -/
  | seen (cqe : Cqe)

/-- What the threads of the server share. -/
structure Server where
  /-- the chunk memory all clients write to -/
  mem : Buf
  map : Bytes → Option Meta
  db : Store
  bitmap : AtomicBitset
  /-- `global_queue`, each item with the clerk that put it in -/
  queue : List (Nat × Item)
  ring : IOuring
  uring : UringPc
  /-- the process has ended: a failed assertion or `exit` -/
  aborted : Bool

structure State where
  server : Server
  conns : List Conn

/-- What a run shows of itself: the calls' results, and the moves of records between chunks, queue
and ring. -/
inductive Event
  /-- the record of a `SendWrite` is in the chunk -/
  | wrote (c : Nat) (r : Record)
  /-- the clerk has indexed the record -/
  | handled (c : Nat) (r : Record)
  /-- `SendWrite`, `SendGet`, `SendDelete` have returned -/
  | acked (c : Nat) (r : Record)
  | got (c : Nat) (key : Bytes) (val : Option Bytes)
  | deleted (c : Nat) (key : Bytes) (ok : Bool)
  /-- a `GET` has copied a value from a chunk -/
  | hit (c : Nat) (key : Bytes) (val : Bytes)
  /-- an `ALLOC` has obtained a chunk -/
  | alloced (c : Nat) (chunk : Nat)
  /-- an `ALLOC` or `CLOSE` has enqueued a chunk -/
  | flushed (c : Nat) (it : Item)
  | dequeued (c : Nat) (sqe : Sqe)

end PMRAccess.Pmr
