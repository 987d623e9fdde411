import PMRAccess.Lib.Bytes

/-!
# Two records over the same bytes

A program (`Prog`) loads from an input record and loads from and stores to an output record. `run`
lays both over one buffer and keeps a log of the accesses, `runApart` gives each record a buffer of
its own. `Fresh`: no load of the input meets bytes that a store before it wrote.
`runApart_of_fresh`: then the two runs agree, and every field of the input that the program has read
is the one it was given.
-/

namespace Lib

/-- The record an access goes through. -/
inductive View
  | input | output
  deriving DecidableEq, Repr

/-- Programs over a buffer; stores go through the output record. -/
inductive Prog (α : Type)
  | ret (x : α)
  | load (v : View) (a n : Nat) (next : Bytes → Prog α)
  | store (a : Nat) (bs : Bytes) (next : Prog α)

inductive Access
  | load (v : View) (a n : Nat)
  | store (a n : Nat)
  deriving DecidableEq, Repr

/-- What a run returns, the buffer it leaves and its accesses. -/
structure Outcome (α : Type) where
  result : α
  buf : Buf
  log : List Access

namespace Prog

variable {α β : Type}

protected def bind (p : Prog α) (f : α → Prog β) : Prog β :=
  match p with
  | ret x => f x
  | load v a n next => load v a n fun bs => (next bs).bind f
  | store a bs next => store a bs (next.bind f)

instance : Monad Prog where
  pure := ret
  bind := Prog.bind

/-- The `n` bytes at `a`. -/
def read (v : View) (a n : Nat) : Prog Bytes := load v a n ret

def write (a : Nat) (bs : Bytes) : Prog Unit := store a bs (ret ())

/-- The two records over one buffer. -/
def run : Prog α → Buf → Outcome α
  | ret x, b => ⟨x, b, []⟩
  | load v a n next, b =>
    let o := run (next (b.read a n)) b
    { o with log := .load v a n :: o.log }
  | store a bs next, b =>
    let o := run next (b.write a bs)
    { o with log := .store a bs.length :: o.log }

/-- The input record in a buffer of its own. -/
def runApart : Prog α → Buf → Buf → α × Buf
  | ret x, _, b => (x, b)
  | load .input a n next, i, b => runApart (next (i.read a n)) i b
  | load .output a n next, i, b => runApart (next (b.read a n)) i b
  | store a bs next, i, b => runApart next i (b.write a bs)

@[simp] theorem run_pure (x : α) (b : Buf) : (pure x : Prog α).run b = ⟨x, b, []⟩ := rfl

@[simp] theorem run_read (v : View) (a n : Nat) (b : Buf) :
    (read v a n).run b = ⟨b.read a n, b, [.load v a n]⟩ := rfl

@[simp] theorem run_write (a : Nat) (bs : Bytes) (b : Buf) :
    (write a bs).run b = ⟨(), b.write a bs, [.store a bs.length]⟩ := rfl

@[simp] theorem run_bind (p : Prog α) (f : α → Prog β) (b : Buf) :
    (p >>= f).run b =
      ⟨((f (p.run b).result).run (p.run b).buf).result, ((f (p.run b).result).run (p.run b).buf).buf,
        (p.run b).log ++ ((f (p.run b).result).run (p.run b).buf).log⟩ := by
  induction p generalizing b with
  | ret x => rfl
  | load v a n next ih =>
    have h := ih (b.read a n) b
    show Outcome.mk (((next (b.read a n)) >>= f).run b).result
      (((next (b.read a n)) >>= f).run b).buf
      (.load v a n :: (((next (b.read a n)) >>= f).run b).log) = _
    rw [h]
    rfl
  | store a bs next ih =>
    have h := ih (b.write a bs)
    show Outcome.mk ((next >>= f).run (b.write a bs)).result ((next >>= f).run (b.write a bs)).buf
      (.store a bs.length :: ((next >>= f).run (b.write a bs)).log) = _
    rw [h]
    rfl

end Prog

/-! ## Fresh logs -/

/-- No load of the input meets one of the written ranges `ws`, or a range written before it. -/
def FreshFrom : List (Nat × Nat) → List Access → Prop
  | _, [] => True
  | ws, .load .input a n :: log => (∀ w ∈ ws, a + n ≤ w.1 ∨ w.1 + w.2 ≤ a) ∧ FreshFrom ws log
  | ws, .load .output _ _ :: log => FreshFrom ws log
  | ws, .store a n :: log => FreshFrom ((a, n) :: ws) log

def Fresh (log : List Access) : Prop := FreshFrom [] log

/-- Only loads of the input count. -/
theorem freshFrom_of_notMem {ws : List (Nat × Nat)} {log : List Access}
    (h : ∀ a n, .load .input a n ∉ log) : FreshFrom ws log := by
  induction log generalizing ws with
  | nil => trivial
  | cons x log ih =>
    have htl : ∀ a n, Access.load .input a n ∉ log := fun a n hx => h a n (by simp [hx])
    cases x with
    | load v a n =>
      cases v with
      | input => exact absurd (by simp) (h a n)
      | output =>
        show FreshFrom ws log
        exact ih htl
    | store a n =>
      show FreshFrom ((a, n) :: ws) log
      exact ih htl

theorem FreshFrom.append {ws : List (Nat × Nat)} {log log' : List Access} (h : FreshFrom ws log)
    (h' : ∀ a n, .load .input a n ∉ log') : FreshFrom ws (log ++ log') := by
  induction log generalizing ws with
  | nil => exact freshFrom_of_notMem h'
  | cons x log ih =>
    cases x with
    | load v a n =>
      cases v with
      | input => exact ⟨h.1, ih h.2⟩
      | output =>
        show FreshFrom ws (log ++ log')
        exact ih h
    | store a n =>
      show FreshFrom ((a, n) :: ws) (log ++ log')
      exact ih h

namespace Prog

variable {α : Type}

theorem runApart_of_freshFrom {p : Prog α} {i b : Buf} {ws : List (Nat × Nat)}
    (hib : ∀ a n, (∀ w ∈ ws, a + n ≤ w.1 ∨ w.1 + w.2 ≤ a) → b.read a n = i.read a n)
    (h : FreshFrom ws (p.run b).log) : p.runApart i b = ((p.run b).result, (p.run b).buf) := by
  induction p generalizing b ws with
  | ret x => rfl
  | load v a n next ih =>
    cases v with
    | input =>
      obtain ⟨hd, hl⟩ := h
      rw [runApart, ← hib a n hd]
      exact ih _ hib hl
    | output => exact ih _ hib h
  | store a bs next ih =>
    refine ih (fun x n hx => ?_) h
    rw [Buf.read_write_of_disjoint (hx (a, bs.length) (by simp))]
    exact hib x n fun w hw => hx w (by simp [hw])

/-- **A run whose log is fresh does not notice that the records lie over each other.** -/
theorem runApart_of_fresh {p : Prog α} {b : Buf} (h : Fresh (p.run b).log) :
    p.runApart b b = ((p.run b).result, (p.run b).buf) :=
  runApart_of_freshFrom (fun _ _ _ => rfl) h

end Prog

end Lib
