import PMRAccess.Group.Step

/-!
# The Group front end: runs and their histories

`Run P` are the runs from the start whose steps meet the guard `P`. `History` is what a trace tells
of the requests: which were pushed, which of them are still in the queue (`pending`), how many of
those are in the batch of the leader (`inBatch`), and the batches in order, with what was put into
the database and into the log.
-/

namespace PMRAccess.Group

open Lib

/-! ## Guards -/

/-- The requests fit the message buffers. -/
def Call.Fits : Call → Prop
  | .write r => (Req.write r).Fits
  | .get key | .delete key => (Req.delete key).Fits
  | .close => True

instance : (x : Call) → Decidable x.Fits
  | .write r => inferInstanceAs (Decidable (Req.write r).Fits)
  | .get key | .delete key => inferInstanceAs (Decidable (Req.delete key).Fits)
  | .close => inferInstanceAs (Decidable True)

/-- The call a label starts. -/
def Label.call? : Label → Option Call
  | .conn _ (.call x) => some x
  | _ => none

/-- Every request fits. -/
def Fit (_ : State) (l : Label) : Prop := ∀ x ∈ l.call?, x.Fits

instance (s : State) (l : Label) : Decidable (Fit s l) :=
  inferInstanceAs (Decidable (∀ x ∈ l.call?, x.Fits))

/-- No assumption. -/
def Any (_ : State) (_ : Label) : Prop := True

instance (s : State) (l : Label) : Decidable (Any s l) := inferInstanceAs (Decidable True)

/-- Runs of the server from its start. -/
def Run (P : State → Label → Prop) (batch : WriteBatch) (db : Store) (file : Buf) :
    List Event → State → Prop :=
  Steps step P (init batch db file)

/-! ## Histories -/

structure History where
  /-- the requests pushed onto the queue, each with its clerk -/
  pushed : List (Nat × Req)
  /-- those still in the queue -/
  pending : List (Nat × Req)
  /-- the number of them that are in the leader's batch -/
  inBatch : Nat
  batches : List (List (Nat × Req))
  /-- what was put into `db_` and into the log, batch by batch -/
  applied : List (List (Bytes × Bytes))
  logged : List Bytes
  /-- whether the clerk was leader of the batch of its last request -/
  led : Nat → Bool
  /-- what the clerk's last `GET` read from `db_` -/
  got : Nat → Option Bytes

namespace History

def empty : History := ⟨[], [], 0, [], [], [], fun _ => false, fun _ => none⟩

def add (h : History) : Event → History
  | .pushed c q => { h with pushed := h.pushed ++ [(c, q)], pending := h.pending ++ [(c, q)] }
  | .led c => { h with led := fun d => if d = c then true else h.led d }
  | .followed c => { h with led := fun d => if d = c then false else h.led d }
  | .built _ n => { h with inBatch := n, batches := h.batches ++ [h.pending.take n] }
  | .applied kvs => { h with applied := h.applied ++ [kvs] }
  | .logged bytes => { h with logged := h.logged ++ [bytes] }
  | .popped _ => { h with pending := h.pending.tail, inBatch := h.inBatch - 1 }
  | .readDb c _ v => { h with got := fun d => if d = c then v else h.got d }
  | .replied _ _ _ _ | .acked _ _ | .got _ _ _ | .deleted _ _ _ => h

def addAll (h : History) (es : List Event) : History := es.foldl add h

@[simp] theorem addAll_nil (h : History) : h.addAll [] = h := rfl

@[simp] theorem addAll_single (h : History) (e : Event) : h.addAll [e] = h.add e := rfl

/-- The requests of the batches that are in the log, of those that are in `db_`. -/
def committed (h : History) : List (Nat × Req) := (h.batches.take h.logged.length).flatten

def stored (h : History) : List (Nat × Req) := (h.batches.take h.applied.length).flatten

end History

/-- The history of a trace. -/
def hist (tr : List Event) : History := History.empty.addAll tr

theorem hist_append (tr es : List Event) : hist (tr ++ es) = (hist tr).addAll es := by
  simp [hist, History.addAll]

section
variable {P : State → Label → Prop} {batch : WriteBatch} {db : Store} {file : Buf}
  {tr : List Event} {s : State}

/-- The invariant rule over histories. -/
theorem Run.invariant {I : History → State → Prop} (h0 : I History.empty (init batch db file))
    (hs : ∀ {h s l s' es}, I h s → P s l → step s l = some (s', es) → I (h.addAll es) s')
    (h : Run P batch db file tr s) : I (hist tr) s :=
  Steps.invariant (I := fun tr s => I (hist tr) s) h0
    (fun _ ih hp hstep => by rw [hist_append]; exact hs ih hp hstep) h

end

/-! ## Schedules -/

namespace Sched

def zeros : Buf := fun _ => 0

def client (c : Nat) : Label := .conn c .client

def clerk (c : Nat) (n : Nat) : List Label := List.replicate n (.conn c .clerk)

/-- Runs from the empty server. -/
def Runs (P : State → Label → Prop) : List Event → State → Prop :=
  Run P ⟨0, [], [], zeros⟩ (fun _ => none) zeros

def connect (n : Nat) : List Label := List.replicate n (.connect zeros zeros)

/-- A request up to the push: the clerk has the mutex and is about to test for leadership. -/
def push (c : Nat) (x : Call) : List Label := .conn c (.call x) :: clerk c 3

/-- A leader from the test to its batch in the log; then up to its reply, `n` writers popped. -/
def lead (c : Nat) : List Label := clerk c 5

def finish (c n : Nat) : List Label := clerk c (n + 3) ++ [client c]

/-- A follower asleep: woken, up to its reply. -/
def follow (c : Nat) : List Label := clerk c 4 ++ [client c]

/-- A `SendGet`. -/
def get (c : Nat) (key : Bytes) : List Label := .conn c (.call (.get key)) :: clerk c 3 ++ [client c]

end Sched

end PMRAccess.Group
