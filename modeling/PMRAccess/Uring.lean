import PMRAccess.Lib.Extent

/-!
# The log's ring (`frontend/pmr/uring.h`)

`IOuring` with what liburing and the kernel keep for it: the submission queue (writes prepared and
not yet submitted), the writes the kernel works on, the completion queue, and the log file the ring
was opened on. `complete` is the kernel's step: a write ends with a result `res`, and the first
`res` bytes of its buffer (none for an error) are in the file.
-/

namespace PMRAccess

open Lib

/-- An element of `global_queue`: a copied chunk, the bytes used in it and the chunk's number. -/
structure Item where
  buf : Buf
  size : Nat
  chunk : Nat

/-- The flushed bytes. -/
def Item.payload (it : Item) : Bytes := it.buf.read 0 it.size

/-- A prepared write: the item at a file offset; its user data is the item's chunk. -/
structure Sqe where
  item : Item
  offset : Nat

/-- Where the write puts its bytes. -/
def Sqe.extent (w : Sqe) : Extent := ⟨w.offset, w.item.payload⟩

/-- A completion: the user data and the result of its write. -/
structure Cqe where
  data : Nat
  res : Int

structure IOuring where
  file : Buf
  sq : List Sqe
  flight : List Sqe
  cq : List Cqe
  inflight : Int
  offset : Nat
  qd : Nat

namespace IOuring

/-- `IOuring::IOuring` on a file. -/
def new (file : Buf) (queueSize : Nat) : IOuring := ⟨file, [], [], [], 0, 0, queueSize⟩

variable (ring : IOuring)

def full : Bool := ring.inflight ≥ ring.qd

def empty : Bool := ring.inflight = 0

/-- `Write`; `none` where `io_uring_get_sqe` has no free slot and returns a null pointer. -/
def write (it : Item) : Option (IOuring × Sqe) :=
  if ring.sq.length < ring.qd then
    let sqe : Sqe := ⟨it, ring.offset⟩
    some ({ ring with
      sq := ring.sq ++ [sqe], inflight := ring.inflight + 1, offset := ring.offset + it.size }, sqe)
  else none

def submit : IOuring := { ring with sq := [], flight := ring.flight ++ ring.sq }

/-- The first completion, which `Wait` returns, and the ring without it. -/
def wait : Option (Cqe × IOuring) :=
  match ring.cq with
  | [] => none
  | cqe :: cq => some (cqe, { ring with cq })

def seen : IOuring := { ring with inflight := ring.inflight - 1 }

/-- The kernel ends the `j`-th write it works on with result `res`. -/
def complete (j : Nat) (res : Int) : Option IOuring :=
  match ring.flight[j]? with
  | none => none
  | some sqe =>
    if res ≤ sqe.item.size then
      some { ring with
        file := ring.file.write sqe.offset (sqe.item.buf.read 0 res.toNat)
        flight := ring.flight.eraseIdx j
        cq := ring.cq ++ [⟨sqe.item.chunk, res⟩] }
    else none

end IOuring

end PMRAccess
