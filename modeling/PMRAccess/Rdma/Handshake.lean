import PMRAccess.Lib.Run
import PMRAccess.Rdma.Post

/-!
# The handshake of a client and its clerk (`frontend`)

One connection of any front end: the client's and the clerk's memory, where each of them is in its
code, and the writes in flight in both directions. A client in a call posts its request, polls for
the completion, spins on its header until it shows `CLERK_DONE`, sets it back to `CLIENT_DONE` and
reads the reply. A clerk spins on its header until it shows `CLIENT_DONE`, sets it to `CLERK_DONE`,
reads the request, writes the reply over it and posts it. What a handler answers is up to the
scheduler (`Label.answer`), and so is the place of a record in the clerk's `write_buf`.

`connecting` is the state in which the clerk is still to be constructed, `connected fe` one with both
ends in their loops.
-/

namespace PMRAccess.Rdma

open Lib

/-- Where a client is. -/
inductive ClientPc
  /-- in `Connect`, about to set the header -/
  | connect
  /-- between two calls -/
  | idle
  /-- about to post the first of these -/
  | post (p : Post) (ps : List Post)
  /-- in `poll_one_completion` -/
  | poll
  /-- spinning on the header -/
  | spin
  /-- about to set the header back, to read the reply -/
  | reset
  | read
  deriving DecidableEq, Repr

/-- Where a clerk is. -/
inductive ClerkPc
  /-- not constructed yet -/
  | construct
  | spin
  /-- the header shows `CLIENT_DONE`: about to set it to `CLERK_DONE` -/
  | take
  | read
  /-- about to write the reply -/
  | answer
  | post (p : Post) (ps : List Post)
  | poll
  deriving DecidableEq, Repr

/-- One end: its memory, its place in the code and the completions it has not polled. -/
structure End (π : Type) where
  mem : Mem BufId
  pc : π
  cq : Nat

structure State where
  client : End ClientPc
  clerk : End ClerkPc
  toClerk : List (Flight BufId)
  toClient : List (Flight BufId)

/-- What the client posts for one request: the message, and the record with its place in the clerk's
`write_buf`. -/
structure Asked where
  msg : Bytes
  record : Option (Nat × Bytes)
  deriving DecidableEq

/-- What a run shows of itself. -/
inductive Event
  /-- a call enters, with its request prepared -/
  | asked (x : Asked)
  /-- the clerk reads the request out of its memory -/
  | handled (m : Mem BufId)
  /-- the clerk has written a reply -/
  | replied (bs : Bytes)
  /-- the call returns with the reply in the client's message buffer -/
  | returned (b : Buf)

/-! ## Steps -/

/-- What a call posts, from the client's message buffer. -/
def FrontEnd.asked (fe : FrontEnd) (off : Nat) (b : Buf) (c : Call) : Asked where
  msg := b.read ringHeader (fe.msgLen c)
  record :=
    match fe, c with
    | .pmr, .write r | .pmem, .write r => some (off, b.read ringHeader r.totalLen)
    | _, _ => none

/-- Behind a post: the next one, or the completion. -/
def ClientPc.next : List Post → ClientPc
  | [] => .poll
  | p :: ps => .post p ps

def ClerkPc.next : List Post → ClerkPc
  | [] => .poll
  | p :: ps => .post p ps

/-- The header word of the message buffer `i` set. -/
def putHeader (m : Mem BufId) (i : BufId) (v : Nat) : Mem BufId := m.write i 0 (leBytes 4 v)

/-- The client's next step in a call, with the write it posts. -/
def clientStep (x : End ClientPc) : Option (End ClientPc × List (Flight BufId) × List Event) :=
  match x.pc with
  | .connect => some ({ x with mem := putHeader x.mem .write clientDone, pc := .idle }, [], [])
  | .idle => none
  | .post p ps => some ({ x with pc := .next ps }, [p.toWrite.launch x.mem], [])
  | .poll => if x.cq = 0 then none else some ({ x with cq := x.cq - 1, pc := .spin }, [], [])
  | .spin => if header (x.mem .write) ≠ clerkDone then none else some ({ x with pc := .reset }, [], [])
  | .reset => some ({ x with mem := putHeader x.mem .write clientDone, pc := .read }, [], [])
  | .read => some ({ x with pc := .idle }, [], [.returned (x.mem .write)])

/-- The clerk's next step. Only the constructor of `PMRClerk` sets the header. -/
def clerkStep (fe : FrontEnd) (x : End ClerkPc) :
    Option (End ClerkPc × List (Flight BufId) × List Event) :=
  match x.pc with
  | .construct =>
    let mem := if fe = .pmr then putHeader x.mem fe.clerkBuf clerkDone else x.mem
    some ({ x with mem, pc := .spin }, [], [])
  | .spin =>
    if header (x.mem fe.clerkBuf) ≠ clientDone then none else some ({ x with pc := .take }, [], [])
  | .take => some ({ x with mem := putHeader x.mem fe.clerkBuf clerkDone, pc := .read }, [], [])
  | .read => some ({ x with pc := .answer }, [], [.handled x.mem])
  | .answer => none
  | .post p ps => some ({ x with pc := .next ps }, [p.toWrite.launch x.mem], [])
  | .poll => if x.cq = 0 then none else some ({ x with cq := x.cq - 1, pc := .spin }, [], [])

inductive Label
  /-- the client, between two calls, enters one; its record goes to `off` -/
  | call (c : Call) (off : Nat)
  | client
  | clerk
  /-- the handler has written `out` over the request -/
  | answer (out : Bytes)
  /-- a write in flight is read out of its poster's memory, or placed -/
  | fetchRequest (i : Nat)
  | placeRequest
  | fetchReply (i : Nat)
  | placeReply

/-- A completion for a signaled write. -/
def End.complete {π : Type} (x : End π) (w : Write BufId) : End π :=
  if w.signal then { x with cq := x.cq + 1 } else x

def step (fe : FrontEnd) (s : State) : Label → Option (State × List Event)
  | .call c off =>
    match s.client.pc, fe.posts off c with
    | .idle, p :: ps =>
      let b := c.prepare (s.client.mem .write)
      let mem : Mem BufId := fun i => if i = .write then b else s.client.mem i
      some ({ s with client := { s.client with mem, pc := .post p ps } },
        [.asked (fe.asked off b c)])
    | _, _ => none
  | .client =>
    (clientStep s.client).map fun (x, fs, es) =>
      ({ s with client := x, toClerk := s.toClerk ++ fs }, es)
  | .clerk =>
    (clerkStep fe s.clerk).map fun (x, fs, es) =>
      ({ s with clerk := x, toClient := s.toClient ++ fs }, es)
  | .answer out =>
    match s.clerk.pc with
    | .answer =>
      let mem := s.clerk.mem.write fe.clerkBuf ringHeader out
      let b := mem fe.clerkBuf
      some ({ s with clerk := { s.clerk with mem, pc := .next (fe.reply b) } },
        [.replied (b.read ringHeader (replyLen b))])
    | _ => none
  | .fetchRequest i =>
    (fetchAt s.client.mem s.toClerk i).map fun fs => ({ s with toClerk := fs }, [])
  | .placeRequest =>
    (place s.clerk.mem s.toClerk).map fun (w, mem, fs) =>
      ({ s with client := s.client.complete w, clerk := { s.clerk with mem }, toClerk := fs }, [])
  | .fetchReply i =>
    (fetchAt s.clerk.mem s.toClient i).map fun fs => ({ s with toClient := fs }, [])
  | .placeReply =>
    (place s.client.mem s.toClient).map fun (w, mem, fs) =>
      ({ s with client := { s.client with mem }, clerk := s.clerk.complete w, toClient := fs }, [])

/-! ## Runs -/

/-- Both ends in their loops, nothing in flight. -/
def connected (client clerk : Mem BufId) : State :=
  ⟨⟨client, .idle, 0⟩, ⟨clerk, .spin, 0⟩, [], []⟩

/-- The peers are connected; the client has not set its header and the clerk is not constructed. -/
def connecting (client clerk : Mem BufId) : State :=
  ⟨⟨client, .connect, 0⟩, ⟨clerk, .construct, 0⟩, [], []⟩

/-- Keys and values are C strings, and the lengths of a request fit their `uint16_t`; only a PMR
client has a `SendAlloc`. -/
def FrontEnd.Sends (fe : FrontEnd) : Call → Prop
  | .write r => r.Short
  | .get key | .delete key => 0 ∉ key ∧ sizeofRequest + key.length < 2 ^ 16
  | .alloc => fe = .pmr

/-- What is assumed of a step: well-formed requests, and replies that a buffer can hold. -/
def Wf (fe : FrontEnd) (s : State) : Label → Prop
  | .call c _ => fe.Sends c
  | .answer out =>
    replyLen (s.clerk.mem.write fe.clerkBuf ringHeader out fe.clerkBuf) < 2 ^ 32
  | _ => True

instance (fe : FrontEnd) (c : Call) : Decidable (fe.Sends c) :=
  match c with
  | .write r => inferInstanceAs (Decidable (0 ∉ r.key ∧ 0 ∉ r.val ∧ r.size < 2 ^ 16))
  | .get key | .delete key =>
    inferInstanceAs (Decidable (0 ∉ key ∧ sizeofRequest + key.length < 2 ^ 16))
  | .alloc => inferInstanceAs (Decidable (fe = .pmr))

instance (fe : FrontEnd) (s : State) (a : Label) : Decidable (Wf fe s a) :=
  match a with
  | .call c _ => inferInstanceAs (Decidable (fe.Sends c))
  | .answer out => inferInstanceAs (Decidable
      (replyLen (s.clerk.mem.write fe.clerkBuf ringHeader out fe.clerkBuf) < 2 ^ 32))
  | .client | .clerk | .fetchRequest _ | .placeRequest | .fetchReply _ | .placeReply =>
    inferInstanceAs (Decidable True)

section
variable (tr : List Event)

def requests : List Asked := tr.filterMap fun | .asked x => some x | _ => none
def reads : List (Mem BufId) := tr.filterMap fun | .handled m => some m | _ => none
def replies : List Bytes := tr.filterMap fun | .replied bs => some bs | _ => none
def returns : List Buf := tr.filterMap fun | .returned b => some b | _ => none

end

end PMRAccess.Rdma
