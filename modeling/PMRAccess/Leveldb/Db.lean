import PMRAccess.Leveldb.MemTable

/-!
# LevelDB: writes and lookups (`db/db_impl.cc`)

Threads call `Write` with a batch and `Get` with a key. Writers queue up; the first one takes the
batches of some of those behind it into its group, logs the group and inserts it into the memtable
while the mutex is released, then makes it visible (`SetLastSequence`) and tells the others that they
are done. A `Get` takes a snapshot and the tables there are, under the mutex, and searches them
without it. Before a group the memtable may be full: it becomes the immutable one and a new one takes
its place; a background thread writes the immutable one to a table file of level 0.

A step is what happens under the mutex, or one access to a memtable. Log and files do not fail.
-/

namespace PMRAccess.Leveldb.Db

open Lib

/-! ## The object -/

inductive DbOp
  | write (ops : List BatchOp)
  | get (key : Bytes)
  deriving DecidableEq, Repr

inductive DbRes
  | ok
  | got (value : Option Bytes)
  deriving DecidableEq, Repr

/-- A batch takes effect as a whole. -/
def applyDb (db : Store) : DbOp → Store × DbRes
  | .write ops => (writeAll db ops, .ok)
  | .get key => (db, .got (db key))

/-! ## The state -/

/-- What a writer has still to do for its group. -/
inductive Stage
  | log
  | insert (todo : List BatchOp) (seq : Nat)
  deriving DecidableEq, Repr

/-- The group of the first writer: how many of the queue are in it, and their batches in one. -/
structure Group where
  count : Nat
  batch : WriteBatch
  stage : Stage

/-- Where a thread is. -/
inductive Pc
  | idle
  /-- before `writers_.push_back` -/
  | push (ops : List BatchOp)
  /-- in the queue -/
  | queued (ops : List BatchOp)
  /-- before the snapshot of `Get` -/
  | snapshot (key : Bytes)
  /-- before the lookups in the memtable, in the immutable one and in the files -/
  | lookMem (key : Bytes) (snapshot mem : Nat) (imm : Option Nat) (files : List MemTable)
  | lookImm (key : Bytes) (snapshot : Nat) (imm : Option Nat) (files : List MemTable)
  | lookFiles (key : Bytes) (snapshot : Nat) (files : List MemTable)
  | ret (op : DbOp) (res : DbRes)

/-- Memtables, files and logs. -/
structure Storage where
  /-- the memtables there are or were -/
  tables : Nat → MemTable
  mem : Nat
  imm : Option Nat
  /-- the table files, the newest first -/
  files : List MemTable
  /-- the records of the logs of the memtable and of the immutable one -/
  log : List Bytes
  immLog : List Bytes
  /-- the last sequence number in the descriptor -/
  savedSequence : Nat

structure State extends Storage where
  lastSequence : Nat
  writers : List (Nat × WriteBatch)
  group : Option Group
  threads : Nat → Pc

/-! ## The steps -/

def addToBatch (b : WriteBatch) : BatchOp → WriteBatch
  | .put key value => b.put key value
  | .delete key => b.delete key

/-- The batch that `LevelDB::Put`, `Update`, `Delete` or `PutBatch` builds. -/
def batchOf (ops : List BatchOp) : WriteBatch := ops.foldl addToBatch .clear

/-- The loop of `BuildBatchGroup`: how many more batches, and all in one. -/
def groupLoop (maxSize : Nat) : Nat → WriteBatch → List WriteBatch → Nat × WriteBatch
  | _, result, [] => (0, result)
  | size, result, b :: bs =>
    let size := size + b.rep.length
    if size > maxSize then (0, result)
    else
      let (n, result) := groupLoop maxSize size (result.append b) bs
      (n + 1, result)

/-- A small write is not slowed down much. -/
def maxGroupSize (size : Nat) : Nat := if size ≤ 128 <<< 10 then size + (128 <<< 10) else 1 <<< 20

/-- `BuildBatchGroup`; all writers are of one kind, synchronous or not. -/
def buildBatchGroup (first : WriteBatch) (rest : List WriteBatch) : Nat × WriteBatch :=
  let size := first.rep.length
  -- a group of one is the writer's own batch
  match groupLoop (maxGroupSize size) size (WriteBatch.clear.append first) rest with
  | (0, _) => (1, first)
  | (n, result) => (n + 1, result)

/-- The lookups in the table files. -/
def lookup (key : Bytes) (snapshot : Nat) : List MemTable → Option (Option Bytes)
  | [] => none
  | t :: ts =>
    match t.get key snapshot with
    | some r => some r
    | none => lookup key snapshot ts

inductive Act
  | write (ops : List BatchOp)
  | get (key : Bytes)
  | turn
  /-- the memtable is full -/
  | switch
  deriving DecidableEq, Repr

inductive Label
  | thread (c : Nat) (a : Act)
  | compact
  deriving DecidableEq, Repr

/-- The writers of a group are done. -/
def finish (done : List Nat) (threads : Nat → Pc) : Nat → Pc := fun c =>
  if c ∈ done then
    match threads c with
    | .queued ops => .ret (.write ops) .ok
    | pc => pc
  else threads c

/-- A step of the first writer. -/
def lead (s : State) (first : WriteBatch) (rest : List (Nat × WriteBatch)) : State :=
  match s.group with
  | none =>
    let (count, batch) := buildBatchGroup first (rest.map Prod.snd)
    { s with group := some ⟨count, batch.setSequence (s.lastSequence + 1), .log⟩ }
  | some g =>
    match g.stage with
    | .log =>
      { s with
        log := s.log ++ [g.batch.rep]
        group := some { g with stage := .insert g.batch.iterate.1 g.batch.sequence } }
    | .insert (op :: todo) seq =>
      { s with
        tables := Function.update s.tables s.mem ((s.tables s.mem).addOp seq op)
        group := some { g with stage := .insert todo (seq + 1) } }
    | .insert [] _ =>
      { s with
        lastSequence := s.lastSequence + g.batch.count
        writers := s.writers.drop g.count
        group := none
        threads := finish ((s.writers.take g.count).map Prod.fst) s.threads }

/-- `MakeRoomForWrite` with a full memtable: it becomes the immutable one, a new one and a new log take
its place. -/
def State.switch (s : State) : State :=
  { s with
    tables := Function.update s.tables (s.mem + 1) []
    mem := s.mem + 1
    imm := some s.mem
    log := []
    immLog := s.log }

/-- `WriteLevel0Table`: an empty memtable makes no file. -/
def writeLevel0Table (t : MemTable) (files : List MemTable) : List MemTable :=
  if t = [] then files else t :: files

/-- `CompactMemTable`: the immutable memtable is now a table file, its log is no longer needed. -/
def State.compact (s : State) (i : Nat) : State :=
  { s with
    imm := none
    files := writeLevel0Table (s.tables i) s.files
    immLog := []
    savedSequence := s.lastSequence }

def State.at (s : State) (c : Nat) (pc : Pc) : State :=
  { s with threads := Function.update s.threads c pc }

/-- What a lookup leads to. -/
def answer (key : Bytes) (next : Pc) : Option (Option Bytes) → Pc
  | some value => .ret (.get key) (.got value)
  | none => next

def step (s : State) : Label → Option (State × List (Seen Nat DbOp DbRes))
  | .thread c (.write ops) =>
    match s.threads c with
    | .idle => some (s.at c (.push ops), [.call c (.write ops)])
    | _ => none
  | .thread c (.get key) =>
    match s.threads c with
    | .idle => some (s.at c (.snapshot key), [.call c (.get key)])
    | _ => none
  | .thread c .turn =>
    match s.threads c with
    | .idle => none
    | .push ops => some ({ s.at c (.queued ops) with writers := s.writers ++ [(c, batchOf ops)] }, [])
    | .queued _ =>
      match s.writers with
      | (d, first) :: rest => if d = c then some (lead s first rest, []) else none
      | [] => none
    | .snapshot key => some (s.at c (.lookMem key s.lastSequence s.mem s.imm s.files), [])
    | .lookMem key snapshot mem imm files =>
      some (s.at c (answer key (.lookImm key snapshot imm files) ((s.tables mem).get key snapshot)), [])
    | .lookImm key snapshot imm files =>
      some (s.at c (answer key (.lookFiles key snapshot files)
        (imm.bind fun i => (s.tables i).get key snapshot)), [])
    | .lookFiles key snapshot files =>
      some (s.at c (.ret (.get key) (.got ((lookup key snapshot files).getD none))), [])
    | .ret op res => some (s.at c .idle, [.ret c op res])
  | .thread c .switch =>
    match s.writers, s.group, s.imm with
    | (d, _) :: _, none, none =>
      if d = c then some (s.switch, []) else none
    | _, _, _ => none
  | .compact =>
    match s.imm with
    | some i => some (s.compact i, [])
    | none => none

/-- Batches fit, and there are sequence numbers left. -/
def Fit (s : State) : Label → Prop
  | .thread _ (.write ops) => (∀ op ∈ ops, op.Fits) ∧ (batchOf ops).rep.length < 2 ^ 31
  | .thread _ .turn => s.lastSequence + 2 ^ 32 ≤ kMaxSequenceNumber
  | _ => True

instance (s : State) (l : Label) : Decidable (Fit s l) := by
  cases l with
  | thread c a => cases a <;> simp only [Fit] <;> infer_instance
  | compact => exact isTrue trivial

/-- A database that is created. -/
def init : State where
  tables _ := []
  mem := 0
  imm := none
  files := []
  log := []
  immLog := []
  lastSequence := 0
  savedSequence := 0
  writers := []
  group := none
  threads _ := .idle

end PMRAccess.Leveldb.Db
