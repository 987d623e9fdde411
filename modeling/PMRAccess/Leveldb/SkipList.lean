import Mathlib.Data.List.Sort
import PMRAccess.Lib.Linear

/-!
# LevelDB: the skip list (`db/skiplist.h`)

One thread inserts at a time; any number of threads search and iterate meanwhile, without a lock. A
step is one load or one store of a pointer. `Insert` links a new node level by level, from the lowest
on, so a reader may find it on some levels and not yet on others.

The object that the list implements is a sorted list of keys (`SortedList.apply`).
-/

namespace PMRAccess.Leveldb

open Lib

/-! ## The object -/

inductive ListOp (Key : Type)
  | insert (key : Key)
  | contains (key : Key)
  | seek (key : Key)
  | seekToFirst
  | seekToLast
  /-- `Next` and `Prev` of an iterator that is at `key` -/
  | next (key : Key)
  | prev (key : Key)
  deriving DecidableEq, Repr

/-- What a call returns; of an iterator, where it is then. -/
inductive ListRes (Key : Type)
  | inserted
  | found (b : Bool)
  | at (key : Option Key)
  deriving DecidableEq, Repr

section
variable {Key : Type} [LinearOrder Key]

def SortedList.apply (ks : List Key) : ListOp Key → List Key × ListRes Key
  | .insert key => (ks.orderedInsert (· ≤ ·) key, .inserted)
  | .contains key => (ks, .found (decide (key ∈ ks)))
  | .seek key => (ks, .at (ks.find? (key ≤ ·)))
  | .seekToFirst => (ks, .at ks.head?)
  | .seekToLast => (ks, .at ks.getLast?)
  | .next key => (ks, .at (ks.find? (key < ·)))
  | .prev key => (ks, .at (ks.takeWhile (· < key)).getLast?)

end

namespace SkipList

def kMaxHeight : Nat := 12

/-! ## The state -/

/-- The nodes, by number; `head_` is 0. -/
structure Memory (Key : Type) where
  key : Nat → Key
  /-- `next_` of a node, by level -/
  next : Nat → Nat → Option Nat
  maxHeight : Nat
  /-- the nodes up to here are allocated -/
  allocated : Nat

/-- Where a thread is. -/
inductive Pc (Key : Type)
  | idle
  /-- before `GetMaxHeight` -/
  | start (op : ListOp Key)
  /-- in the loop of `FindGreaterOrEqual`, `FindLessThan` or `FindLast` -/
  | find (op : ListOp Key) (x level : Nat) (prev : Nat → Nat)
  /-- before the load of `SeekToFirst` or `Next` -/
  | load (op : ListOp Key) (x : Nat)
  /-- in `Insert`, behind the search -/
  | newNode (key : Key) (prev : Nat → Nat)
  /-- in the loop of `Insert`, before `NoBarrier_SetNext` and before `SetNext` -/
  | link (key : Key) (prev : Nat → Nat) (x height i : Nat)
  | publish (key : Key) (prev : Nat → Nat) (x height i : Nat)
  | ret (op : ListOp Key) (res : ListRes Key)

/-- A thread with its iterator. -/
structure Thread (Key : Type) where
  pc : Pc Key
  /-- `node_` -/
  node : Option Nat

structure State (Key : Type) where
  mem : Memory Key
  /-- the thread that inserts -/
  writer : Option Nat
  threads : Nat → Thread Key

/-! ## The steps -/

inductive Call (Key : Type)
  | insert (key : Key)
  | contains (key : Key)
  | seek (key : Key)
  | seekToFirst
  | seekToLast
  | next
  | prev
  deriving DecidableEq, Repr

/-- What a thread does; `choice` is the height that it loads or draws. -/
inductive Act (Key : Type)
  | call (c : Call Key)
  | turn (choice : Nat)
  deriving DecidableEq, Repr

section
variable {Key : Type} [LinearOrder Key]

/-- `KeyIsAfterNode`: no node is infinite. -/
def Memory.keyIsAfterNode (m : Memory Key) (key : Key) : Option Nat → Bool
  | some n => decide (m.key n < key)
  | none => false

/-- The loop stays on its level. -/
def Memory.goesOn (m : Memory Key) : ListOp Key → Option Nat → Bool
  -- `FindGreaterOrEqual`
  | .insert key, next | .contains key, next | .seek key, next => m.keyIsAfterNode key next
  -- `FindLessThan`
  | .prev key, some n => !decide (m.key n ≥ key)
  -- `FindLast`
  | .seekToLast, some _ => true
  | _, _ => false

/-- An iterator is set to a node; `head_` is none. -/
def Memory.seat (m : Memory Key) (op : ListOp Key) (x : Nat) : Thread Key :=
  if x = 0 then ⟨.ret op (.at none), none⟩ else ⟨.ret op (.at (some (m.key x))), some x⟩

/-- Behind the loop, which ends at `x` before `next`. -/
def Memory.found (m : Memory Key) (op : ListOp Key) (x : Nat) (next : Option Nat)
    (prev : Nat → Nat) (node : Option Nat) : Thread Key :=
  match op with
  | .insert key => ⟨.newNode key prev, node⟩
  | .contains key => ⟨.ret op (.found (next.any fun n => decide (m.key n = key))), node⟩
  | .prev _ | .seekToLast => m.seat op x
  | _ => ⟨.ret op (.at (next.map m.key)), next⟩

/-- The operation that is called, and where it starts; `Next` and `Prev` need an iterator that is
valid. -/
def Memory.begin (m : Memory Key) (node : Option Nat) : Call Key → Option (ListOp Key × Pc Key)
  | .insert key => some (.insert key, .start (.insert key))
  | .contains key => some (.contains key, .start (.contains key))
  | .seek key => some (.seek key, .start (.seek key))
  | .seekToFirst => some (.seekToFirst, .load .seekToFirst 0)
  | .seekToLast => some (.seekToLast, .start .seekToLast)
  | .next => node.map fun n => (.next (m.key n), .load (.next (m.key n)) n)
  | .prev => node.map fun n => (.prev (m.key n), .start (.prev (m.key n)))

/-- `SetNext` and `NoBarrier_SetNext`. -/
def Memory.setNext (m : Memory Key) (n level : Nat) (x : Option Nat) : Memory Key :=
  { m with next := Function.update m.next n (Function.update (m.next n) level x) }

/-- `GetMaxHeight` gives what was stored last or, without a barrier, before; the writer stored it
itself. -/
def Memory.maySee (m : Memory Key) : ListOp Key → Nat → Bool
  | .insert _, h => h = m.maxHeight
  | _, h => 1 ≤ h ∧ h ≤ m.maxHeight

/-- A step of a thread. -/
def turn (m : Memory Key) (t : Thread Key) (choice : Nat) : Option (Memory Key × Thread Key) :=
  match t.pc with
  | .idle | .ret _ _ => none
  | .start op =>
    if m.maySee op choice then
      some (m, { t with pc := .find op 0 (choice - 1) fun _ => 0 })
    else none
  | .find op x level prev =>
    let next := m.next x level
    if m.goesOn op next then
      some (m, { t with pc := .find op (next.getD 0) level prev })
    else
      let prev := Function.update prev level x
      if level = 0 then some (m, m.found op x next prev t.node)
      else some (m, { t with pc := .find op x (level - 1) prev })
  | .load op x => some (m, m.found op x (m.next x 0) (fun _ => 0) t.node)
  | .newNode key prev =>
    let height := choice
    if 1 ≤ height ∧ height ≤ kMaxHeight then
      let prev := fun i => if m.maxHeight ≤ i ∧ i < height then 0 else prev i
      let x := m.allocated
      some ({ m with
          key := Function.update m.key x key
          maxHeight := if height > m.maxHeight then height else m.maxHeight
          allocated := x + 1 },
        { t with pc := .link key prev x height 0 })
    else none
  | .link key prev x height i =>
    some (m.setNext x i (m.next (prev i) i), { t with pc := .publish key prev x height i })
  | .publish key prev x height i =>
    some (m.setNext (prev i) i (some x),
      { t with pc := if i + 1 = height then .ret (.insert key) .inserted
        else .link key prev x height (i + 1) })

/-- A step of thread `c`, and what is seen of it. Insertions are externally synchronized. -/
def step (s : State Key) : Nat × Act Key → Option (State Key × List (Seen Nat (ListOp Key) (ListRes Key)))
  | (c, .call x) =>
    match (s.threads c).pc, s.mem.begin (s.threads c).node x with
    | .idle, some (op, pc) =>
      let threads := Function.update s.threads c { s.threads c with pc }
      match x, s.writer with
      | .insert _, some _ => none
      | .insert _, none => some ({ s with writer := some c, threads }, [.call c op])
      | _, _ => some ({ s with threads }, [.call c op])
    | _, _ => none
  | (c, .turn choice) =>
    match (s.threads c).pc with
    | .ret op res =>
      some ({ s with
          writer := if s.writer = some c then none else s.writer
          threads := Function.update s.threads c { s.threads c with pc := .idle } },
        [.ret c op res])
    | _ =>
      (turn s.mem (s.threads c) choice).map fun (m, t) =>
        ({ s with mem := m, threads := Function.update s.threads c t }, [])

/-- `Insert` requires that nothing in the list equals its key. -/
def Fresh (s : State Key) : Nat × Act Key → Prop
  | (_, .call (.insert key)) => ∀ n < s.mem.allocated, n ≠ 0 → s.mem.key n ≠ key
  | _ => True

instance (s : State Key) (l : Nat × Act Key) : Decidable (Fresh s l) := by
  obtain ⟨c, a⟩ := l
  cases a with
  | call x => cases x <;> simp only [Fresh] <;> infer_instance
  | turn n => simp only [Fresh]; infer_instance

/-- `SkipList::SkipList`; any key will do for `head_`. -/
def init (key : Key) : State Key where
  mem := ⟨fun _ => key, fun _ _ => none, 1, 1⟩
  writer := none
  threads _ := ⟨.idle, none⟩

end

end SkipList

end PMRAccess.Leveldb
