import PMRAccess.Pmr.Step

/-!
# The PMR front end: runs and their histories

`Run P` are the runs from the start whose steps meet the guard `P`; the guards of this file are the
assumptions the theorems share. `History` is what a trace tells of the records: which of them are in
each client's chunk, which the clerk has indexed, which were acknowledged, flushed and handed to the
ring, each list in the order of the events.
-/

namespace PMRAccess.Pmr

open Lib

/-! ## Guards -/

/-- The requests fit the message buffers. -/
def Call.Fits : Call → Prop
  | .write r => r.Fits
  | .get key | .delete key => KeyFits key
  | .alloc | .close => True

instance : (x : Call) → Decidable x.Fits
  | .write r => inferInstanceAs (Decidable r.Fits)
  | .get key | .delete key => inferInstanceAs (Decidable (KeyFits key))
  | .alloc | .close => inferInstanceAs (Decidable True)

/-- The call a label starts. -/
def Label.call? : Label → Option (Nat × Call)
  | .conn c (.call x) => some (c, x)
  | _ => none

def Label.Fits (l : Label) : Prop := ∀ p ∈ l.call?, p.2.Fits

instance (l : Label) : Decidable l.Fits := inferInstanceAs (Decidable (∀ p ∈ l.call?, p.2.Fits))

/-- No request of the connection is in progress. -/
def Conn.quiet (k : Conn) : Bool :=
  match k.ctl, k.pc with
  | .idle, .poll => true
  | _, .done => true
  | _, _ => false

/-- The connection a label moves; a new one for `connect`. -/
def Label.conn? (s : State) : Label → Option Nat
  | .connect _ _ => some s.conns.length
  | .conn c _ => some c
  | _ => none

/-- Requests are atomic: a connection moves only while no other one has a request in progress. -/
def Alone (s : State) (l : Label) : Prop :=
  ∀ c ∈ l.conn? s, ∀ d < s.conns.length, d ≠ c → ∀ k ∈ s.conns[d]?, k.quiet = true

instance (s : State) (l : Label) : Decidable (Alone s l) :=
  inferInstanceAs (Decidable (∀ c ∈ l.conn? s, ∀ d < s.conns.length, d ≠ c →
    ∀ k ∈ s.conns[d]?, k.quiet = true))

/-- The write a label ends, with its result. -/
def Label.ended? (s : State) : Label → Option (Sqe × Int)
  | .complete j res => s.server.ring.flight[j]?.map (·, res)
  | _ => none

/-- The kernel ends every write with its full length. -/
def FullWrite (s : State) (l : Label) : Prop := ∀ p ∈ l.ended? s, p.2 = p.1.item.size

instance (s : State) (l : Label) : Decidable (FullWrite s l) :=
  inferInstanceAs (Decidable (∀ p ∈ l.ended? s, p.2 = p.1.item.size))

/-- No assumption. -/
def Any (_ : State) (_ : Label) : Prop := True

instance (s : State) (l : Label) : Decidable (Any s l) := inferInstanceAs (Decidable True)

/-- Runs of the server from its start. -/
def Run (P : State → Label → Prop) (mem file : Buf) (db : Store) : List Event → State → Prop :=
  Steps step P (init mem file db)

/-! ## Histories -/

structure History where
  /-- the records posted to the client's chunk since it was last flushed -/
  chunk : Nat → List Record
  /-- those of them that the clerk has indexed -/
  indexed : Nat → List Record
  /-- the records posted since the last `ALLOC` -/
  sinceAlloc : Nat → List Record
  /-- all records posted, indexed, acknowledged, each with its client -/
  written : List (Nat × Record)
  handled : List (Nat × Record)
  acked : List (Nat × Record)
  /-- the flushed chunks: client, item, and the records that were in the chunk -/
  flushes : List (Nat × Item × List Record)
  /-- the writes prepared on the ring -/
  writes : List (Nat × Sqe)

namespace History

def empty : History := ⟨fun _ => [], fun _ => [], fun _ => [], [], [], [], [], []⟩

def add (h : History) : Event → History
  | .wrote c r =>
    { h with
      chunk := Function.update h.chunk c (h.chunk c ++ [r])
      sinceAlloc := Function.update h.sinceAlloc c (h.sinceAlloc c ++ [r])
      written := h.written ++ [(c, r)] }
  | .handled c r =>
    { h with
      indexed := Function.update h.indexed c (h.indexed c ++ [r])
      handled := h.handled ++ [(c, r)] }
  | .acked c r => { h with acked := h.acked ++ [(c, r)] }
  | .alloced c _ => { h with sinceAlloc := Function.update h.sinceAlloc c [] }
  | .flushed c it =>
    { h with
      chunk := Function.update h.chunk c []
      indexed := Function.update h.indexed c []
      flushes := h.flushes ++ [(c, it, h.chunk c)] }
  | .dequeued c sqe => { h with writes := h.writes ++ [(c, sqe)] }
  | .got _ _ _ | .deleted _ _ _ | .hit _ _ _ => h

def addAll (h : History) (es : List Event) : History := es.foldl add h

@[simp] theorem addAll_nil (h : History) : h.addAll [] = h := rfl

@[simp] theorem addAll_single (h : History) (e : Event) : h.addAll [e] = h.add e := rfl

/-- The records of a client that have left its chunk. -/
def flushedOf (h : History) (c : Nat) : List Record := (itemsOf c h.flushes).flatMap (·.2)

/-- The records of a client, in order: those flushed, and behind them those of its chunk. -/
def Ordered (h : History) : Prop := ∀ c, itemsOf c h.written = h.flushedOf c ++ h.chunk c

theorem Ordered.add {h : History} (ho : h.Ordered) (e : Event) : (h.add e).Ordered := by
  intro c
  have hc := ho c
  cases e with
  | wrote d r =>
    by_cases hd : d = c
    · subst hd
      simp only [flushedOf] at hc
      simp [History.add, flushedOf, itemsOf_append, itemsOf_cons_self, hc]
    · simpa [History.add, flushedOf, itemsOf_append, itemsOf_cons_ne c hd,
        Function.update_of_ne (Ne.symm hd)] using hc
  | flushed d it =>
    by_cases hd : d = c
    · subst hd
      simp only [flushedOf] at hc
      simp [History.add, flushedOf, itemsOf_append, itemsOf_cons_self, hc]
    · simpa [History.add, flushedOf, itemsOf_append, itemsOf_cons_ne c hd,
        Function.update_of_ne (Ne.symm hd)] using hc
  | _ => exact hc

theorem Ordered.addAll {h : History} (ho : h.Ordered) (es : List Event) : (h.addAll es).Ordered := by
  induction es generalizing h with
  | nil => exact ho
  | cons e es ih => exact ih (ho.add e)

end History

/-- The history of a trace. -/
def hist (tr : List Event) : History := History.empty.addAll tr

theorem hist_append (tr es : List Event) : hist (tr ++ es) = (hist tr).addAll es := by
  simp [hist, History.addAll]

theorem hist_ordered (tr : List Event) : (hist tr).Ordered :=
  History.Ordered.addAll (fun _ => rfl) tr

/-- The last write of a key in a list of writes. -/
def lastWrite (key : Bytes) (ws : List (Nat × Record)) : Option (Nat × Record) :=
  ws.reverse.find? (·.2.key = key)

theorem lastWrite_snoc (key : Bytes) (ws : List (Nat × Record)) (c : Nat) (r : Record) :
    lastWrite key (ws ++ [(c, r)]) = if r.key = key then some (c, r) else lastWrite key ws := by
  by_cases h : r.key = key <;> simp [lastWrite, h]

/-- What a `GET` of the key finds: in the index first, then in the database. -/
def Server.lookup (sv : Server) (key : Bytes) : Option Bytes :=
  match sv.map key with
  | some m => some (sv.mem.read (m.memAddr + key.length) m.valueSize)
  | none => sv.db key

/-! ## Invariants of runs -/

section
variable {P : State → Label → Prop} {mem file : Buf} {db : Store} {tr : List Event} {s : State}

/-- The invariant rule over histories. -/
theorem Run.invariant {I : History → State → Prop} (h0 : I History.empty (init mem file db))
    (hs : ∀ {h s l s' es}, I h s → P s l → step s l = some (s', es) → I (h.addAll es) s')
    (h : Run P mem file db tr s) : I (hist tr) s :=
  Steps.invariant (I := fun tr s => I (hist tr) s) h0
    (fun _ ih hp hstep => by rw [hist_append]; exact hs ih hp hstep) h

end

/-! ## Schedules

The labels of whole requests, each without other threads in between. -/

namespace Sched

/-- All memory zero. -/
def zeros : Buf := fun _ => 0

def client (c : Nat) : Label := .conn c .client

/-- The clerk's steps; in `blindset` it sees bits clear. -/
def clerk (c : Nat) (n : Nat) : List Label := List.replicate n (.conn c (.clerk false))

/-- `blindset` passes over the chunks below `i` and takes `i`. -/
def blindset (c i : Nat) : List Label :=
  List.replicate i (.conn c (.clerk true)) ++ clerk c 2

/-- Client `c` connects and obtains chunk `i`. -/
def connect (c i : Nat) : List Label :=
  .connect zeros zeros :: clerk c 1 ++ blindset c i ++ clerk c 1 ++ [client c]

/-- A `SendWrite` without `ALLOC`. -/
def write (c : Nat) (r : Record) : List Label :=
  .conn c (.call (.write r)) :: client c :: clerk c 3 ++ [client c]

/-- A `SendGet` or `SendDelete`. -/
def get (c : Nat) (key : Bytes) : List Label :=
  .conn c (.call (.get key)) :: clerk c 4 ++ [client c]

def delete (c : Nat) (key : Bytes) : List Label :=
  .conn c (.call (.delete key)) :: clerk c 3 ++ [client c]

/-- A `SendClose` with `n` records in the chunk, up to the clerk's end. -/
def close (c n : Nat) : List Label := .conn c (.call .close) :: clerk c (n + 3)

/-- The uring thread takes an item of clerk `p`, writes it, with result `res`, and frees the
chunk. -/
def drain (p : Nat) (res : Int) : List Label :=
  [.dequeue p, .uring, .complete 0 res, .uring, .uring, .uring, .uring]

end Sched

end PMRAccess.Pmr
