import PMRAccess.Leveldb.Db
import PMRAccess.Leveldb.Log

/-!
# LevelDB: recovery (`DBImpl::Recover`, `DBImpl::RecoverLogFile`, `DB::Open`)

A database that is opened has its table files, its descriptor and the logs of the memtables that it
had. The records of the logs go into memtables again, in their order. A memtable that gets full is
written to a table file, and so is that of a log which is not reused. What is corrupt is reported and
otherwise ignored, `paranoid_checks` is off.
-/

namespace PMRAccess.Leveldb.Db

open Lib

/-- What the recovery of a log changes; `saveManifest`: the descriptor has to be written. -/
structure Recovery where
  files : List MemTable
  maxSequence : Nat
  saveManifest : Bool

/-- Within a log, also its memtable, and how many were written before. -/
structure Replay extends Recovery where
  mem : Option MemTable
  compactions : Nat

/-- What can be recovered of a log. -/
def recordsOf (crc : Crc) (file : Bytes) : List Bytes := (Log.readLog crc file).1

section
variable (crc : Crc) (full : MemTable → Bool)

/-- A turn of the loop of `RecoverLogFile`; `full` is the memtable that uses too much memory. -/
def replay (r : Replay) (record : Bytes) : Replay :=
  if h : kHeader ≤ record.length then
    let batch : WriteBatch := ⟨record, h⟩
    let mem := (r.mem.getD []).insertInto batch.sequence batch.iterate.1
    let lastSeq := (batch.sequence + batch.count + (2 ^ 64 - 1)) % 2 ^ 64
    let maxSequence := if lastSeq > r.maxSequence then lastSeq else r.maxSequence
    if full mem then
      { files := writeLevel0Table mem r.files
        maxSequence := maxSequence
        saveManifest := true
        mem := none
        compactions := r.compactions + 1 }
    else { r with maxSequence := maxSequence, mem := some mem }
  else r

/-- `RecoverLogFile`; the memtable, if the log is reused. -/
def recoverLogFile (reuse : Bool) (file : Bytes) (r : Recovery) : Recovery × Option MemTable :=
  let r := (recordsOf crc file).foldl (replay full) { r with mem := none, compactions := 0 }
  if reuse ∧ r.compactions = 0 then (r.toRecovery, some (r.mem.getD []))
  else
    match r.mem with
    | some mem => (⟨writeLevel0Table mem r.files, r.maxSequence, true⟩, none)
    | none => (r.toRecovery, none)

/-- `Open` after a crash that has left the first `n` bytes of the last log. -/
def recover (reuseLogs newManifest : Bool) (n : Nat) (s : Storage) : State :=
  let file := (Log.addRecords crc 0 s.log).take n
  let r := (recoverLogFile crc full false (Log.addRecords crc 0 s.immLog) ⟨s.files, 0, newManifest⟩).1
  let (r, mem) := recoverLogFile crc full reuseLogs file r
  let lastSequence := if s.savedSequence < r.maxSequence then r.maxSequence else s.savedSequence
  { tables := fun _ => mem.getD []
    mem := 0
    imm := none
    files := r.files
    log := if mem.isSome then recordsOf crc file else []
    immLog := []
    savedSequence := if r.saveManifest then lastSequence else s.savedSequence
    lastSequence := lastSequence
    writers := []
    group := none
    threads := fun _ => .idle }

end

end PMRAccess.Leveldb.Db
