import PMRAccess.Leveldb.Db

/-!
# LevelDB is linearizable

`Stack`: the tables, the newest first, hold the operations of the history one after the other, so a
lookup as of a sequence number finds what the last operation up to it did (`Stack.lookup`). A group
takes effect when its last sequence number is published, a `Get` when it takes its snapshot: what is
inserted later is newer than the snapshot, and the tables that it has taken stay what they are
(`PcOk.phase_addOp`). `Logs`: what is not in a table file is in a log, group by group; the recovery
of the database rests on it.
-/

namespace PMRAccess.Leveldb.Db

open Lib

/-! ## Lookups -/

/-- What tables hold, the newest first. -/
def Stack : List MemTable → List BatchOp → Prop
  | [], ops => ops = []
  | t :: ts, ops => ∃ older new, ops = older ++ new ∧
      t = MemTable.insertInto [] (older.length + 1) new ∧ Stack ts older

section
variable {t : MemTable} {ts : List MemTable} {ops : List BatchOp} {op : BatchOp} {key : Bytes}
  {snapshot seq : Nat}

theorem lookup_cons : lookup key snapshot (t :: ts) = (t.get key snapshot).or (lookup key snapshot ts) := by
  rw [lookup]
  cases t.get key snapshot <;> rfl

theorem sorted_nil : MemTable.Sorted [] := .nil

theorem below_nil (seq : Nat) : MemTable.Below [] seq := fun _ he => by cases he

theorem Stack.lookup (h : Stack ts ops) (key : Bytes) (snapshot : Nat) :
    lookup key snapshot ts = lastOn key (ops.take snapshot) := by
  induction ts generalizing ops with
  | nil =>
    rw [show ops = [] from h]
    rw [List.take_nil]
    rfl
  | cons t ts ih =>
    obtain ⟨older, new, rfl, rfl, h⟩ := h
    rw [lookup_cons, ih h, MemTable.get_insertInto sorted_nil (below_nil _), List.take_append,
      lastOn_append]
    simp [MemTable.get]

theorem Stack.below (h : Stack (t :: ts) ops) : t.Sorted ∧ t.Below (ops.length + 1) := by
  obtain ⟨older, new, rfl, rfl, -⟩ := h
  have hok := MemTable.insertInto_ok sorted_nil (below_nil (older.length + 1)) new
  rwa [Nat.add_right_comm, ← List.length_append] at hok

theorem Stack.addOp (h : Stack (t :: ts) ops) (op : BatchOp) :
    Stack (t.addOp (ops.length + 1) op :: ts) (ops ++ [op]) := by
  obtain ⟨older, new, rfl, rfl, h⟩ := h
  refine ⟨older, new ++ [op], by rw [List.append_assoc], ?_, h⟩
  rw [MemTable.insertInto_append, List.length_append, Nat.add_right_comm]
  rfl

theorem Stack.push (h : Stack ts ops) : Stack ([] :: ts) ops := ⟨ops, [], by simp, rfl, h⟩

theorem Stack.writeLevel0Table (h : Stack (t :: ts) ops) : Stack (writeLevel0Table t ts) ops := by
  rw [Db.writeLevel0Table]
  split
  · rename_i ht
    obtain ⟨older, new, rfl, rfl, h⟩ := h
    obtain rfl : new = [] := by
      have hlen := congrArg List.length ht
      rw [MemTable.length_insertInto] at hlen
      exact List.length_eq_zero_iff.1 (by simpa using hlen)
    rwa [List.append_nil]
  · exact h

end

/-! ## Batches -/

section
variable {b : WriteBatch} {ops : List BatchOp}

/-- What a batch may hold. -/
def Small (ops : List BatchOp) : Prop :=
  (∀ op ∈ ops, op.Fits) ∧ (batchOf ops).rep.length < 2 ^ 31

theorem holds_batchOf (h : ∀ op ∈ ops, op.Fits) : Holds (batchOf ops) ops := by
  have hfold : ∀ (ops' : List BatchOp) (b : WriteBatch) (done : List BatchOp), Holds b done →
      (∀ op ∈ ops', op.Fits) → Holds (ops'.foldl addToBatch b) (done ++ ops') := by
    intro ops'
    induction ops' with
    | nil =>
      intro b done hb _
      rwa [List.append_nil]
    | cons op ops' ih =>
      intro b done hb hf
      obtain ⟨hop, hf⟩ := List.forall_mem_cons.1 hf
      rw [List.foldl_cons, List.append_cons]
      refine ih _ _ ?_ hf
      cases op with
      | put key value => exact hb.put hop
      | delete key => exact hb.delete hop
  exact hfold ops .clear [] .clear h

/-- The operations of batches, one behind the other. -/
def opsOf (bs : List WriteBatch) : List BatchOp := bs.flatMap fun b => b.iterate.1

/-- The batches of writers are well formed. -/
def AllHold (bs : List WriteBatch) : Prop := ∀ b ∈ bs, Holds b b.iterate.1

theorem groupLoop_spec (maxSize : Nat) : ∀ {bs : List WriteBatch} {size : Nat} {result : WriteBatch}
    {ops : List BatchOp}, AllHold bs → Holds result ops → ops.length ≤ size →
    (groupLoop maxSize size result bs).1 ≤ bs.length ∧
      Holds (groupLoop maxSize size result bs).2
        (ops ++ opsOf (bs.take (groupLoop maxSize size result bs).1)) ∧
      (ops ++ opsOf (bs.take (groupLoop maxSize size result bs).1)).length ≤ max size maxSize
  | [], size, result, ops, _, hr, hl => ⟨le_rfl, by simpa [groupLoop, opsOf] using hr, by
      simpa [groupLoop, opsOf] using Or.inl hl⟩
  | b :: bs, size, result, ops, hbs, hr, hl => by
    obtain ⟨hb, hbs⟩ := List.forall_mem_cons.1 hbs
    rw [groupLoop]
    by_cases hsize : size + b.rep.length > maxSize
    · simp only [if_pos hsize]
      exact ⟨Nat.zero_le _, by simpa [opsOf] using hr, by simpa [opsOf] using Or.inl hl⟩
    · simp only [if_neg hsize]
      have hlen : (ops ++ b.iterate.1).length ≤ size + b.rep.length := by
        have := hb.length_le
        rw [List.length_append]
        omega
      obtain ⟨h1, h2, h3⟩ := groupLoop_spec maxSize hbs (hr.append hb) hlen
      rw [List.append_assoc] at h2 h3
      refine ⟨Nat.succ_le_succ h1, h2, h3.trans ?_⟩
      omega

/-- The group of the first writer and some behind it. -/
theorem buildBatchGroup_spec {first : WriteBatch} {rest : List WriteBatch}
    (hh : AllHold (first :: rest)) (hs : first.rep.length < 2 ^ 31) :
    1 ≤ (buildBatchGroup first rest).1 ∧
      (buildBatchGroup first rest).1 ≤ (first :: rest).length ∧
      Holds (buildBatchGroup first rest).2 (opsOf ((first :: rest).take (buildBatchGroup first rest).1)) ∧
      (opsOf ((first :: rest).take (buildBatchGroup first rest).1)).length < 2 ^ 32 := by
  obtain ⟨hf, hrest⟩ := List.forall_mem_cons.1 hh
  have hresult : Holds (WriteBatch.clear.append first) first.iterate.1 := Holds.clear.append hf
  have hmax : maxGroupSize first.rep.length < 2 ^ 32 := by
    simp only [maxGroupSize, Nat.shiftLeft_eq]
    split <;> omega
  have hlen := hf.length_le
  obtain ⟨h1, h2, h3⟩ := groupLoop_spec (maxGroupSize first.rep.length) hrest hresult hlen
  rw [buildBatchGroup]
  generalize groupLoop (maxGroupSize first.rep.length) first.rep.length (WriteBatch.clear.append first)
    rest = r at h1 h2 h3
  obtain ⟨n, result⟩ := r
  have hlt : (first.iterate.1 ++ opsOf (rest.take n)).length < 2 ^ 32 :=
    lt_of_le_of_lt h3 (max_lt (by omega) hmax)
  cases n with
  | zero =>
    refine ⟨le_rfl, by simp, ?_, ?_⟩
    · simpa [opsOf] using hf
    · simpa [opsOf] using hlt
  | succ n => exact ⟨Nat.succ_pos _, Nat.succ_le_succ h1, h2, hlt⟩

end

/-! ## Journals -/

/-- The batches in the order in which they take effect. -/
abbrev Journal := List (List BatchOp)

def Journal.store (j : Journal) : Store := writeAll (fun _ => none) j.flatten

def applyJournal (j : Journal) : DbOp → Journal × DbRes
  | .write ops => (j ++ [ops], .ok)
  | .get key => (j, .got (j.store key))

theorem applyJournal_store (j : Journal) (op : DbOp) :
    applyDb j.store op = ((applyJournal j op).1.store, (applyJournal j op).2) := by
  cases op with
  | write ops =>
    rw [applyDb, applyJournal, Journal.store, Journal.store, List.flatten_append,
      List.flatten_singleton, writeAll_append]
  | get key => rfl

/-! ## The invariant -/

/-- The tables in the order in which a `Get` searches them. -/
def sources (tables : Nat → MemTable) (mem : Nat) (imm : Option Nat) (files : List MemTable) :
    List MemTable := tables mem :: (imm.toList.map tables ++ files)

/-- The batches of a group, and their operations. -/
def State.groupBatches (s : State) (g : Group) : Journal :=
  (s.writers.take g.count).map fun p => p.2.iterate.1

def State.groupOps (s : State) (g : Group) : List BatchOp :=
  opsOf ((s.writers.take g.count).map Prod.snd)

theorem groupBatches_flatten (s : State) (g : Group) : (s.groupBatches g).flatten = s.groupOps g := by
  rw [State.groupBatches, State.groupOps, opsOf, List.flatMap_def, List.map_map]
  rfl

/-- A group on its way; of its operations `fresh` are inserted. -/
structure GroupOk (s : State) (hist fresh : List BatchOp) (g : Group) : Prop where
  count : g.count ≤ s.writers.length
  holds : Holds g.batch (s.groupOps g)
  short : (s.groupOps g).length < 2 ^ 32
  sequence : g.batch.sequence = hist.length + 1
  stage : match g.stage with
    | .log => fresh = []
    | .insert todo seq => fresh ++ todo = s.groupOps g ∧ seq = hist.length + fresh.length + 1

/-- What holds of a thread where it is. -/
def PcOk (mem : Nat) (hist : List BatchOp) : Pc → Prop
  | .push ops => Small ops
  | .lookMem _ snapshot m imm _ => snapshot ≤ hist.length ∧ m ≤ mem ∧ ∀ i ∈ imm, i < mem
  | .lookImm _ _ imm _ => ∀ i ∈ imm, i < mem
  | _ => True

/-- The records of a log are groups, with the sequence numbers from `n + 1` on. -/
def Logged : Nat → List Bytes → List Journal → Prop
  | _, [], gs => gs = []
  | n, record :: records, gs => ∃ (b : WriteBatch) (g : Journal) (gs' : List Journal),
      gs = g :: gs' ∧ record = b.rep ∧ Holds b g.flatten ∧ b.sequence = n + 1 ∧
        g.flatten.length < 2 ^ 32 ∧ n + g.flatten.length ≤ kMaxSequenceNumber ∧
        Logged (n + g.flatten.length) records gs'

/-- The group that is in the log and not yet visible, and its operations still to be inserted. -/
def State.logged (s : State) : List Journal :=
  match s.group with
  | some ⟨count, batch, .insert todo seq⟩ => [s.groupBatches ⟨count, batch, .insert todo seq⟩]
  | _ => []

def State.todo (s : State) : List BatchOp :=
  match s.group with
  | some ⟨_, _, .insert todo _⟩ => todo
  | _ => []

/-- What the table files hold, and the groups in the logs of the two memtables; `todo` are the
operations that are logged and not inserted. -/
structure Logs (s : Storage) (todo : List BatchOp) (base : Journal) (old new : List Journal) : Prop where
  files : Stack s.files base.flatten
  imm : match s.imm with
    | none => old = []
    | some i => s.tables i = MemTable.insertInto [] (base.flatten.length + 1) old.flatten.flatten
  mem : ∃ done, s.tables s.mem = MemTable.insertInto [] ((base ++ old.flatten).flatten.length + 1) done ∧
    done ++ todo = new.flatten.flatten
  immLog : Logged base.flatten.length s.immLog old
  log : Logged (base ++ old.flatten).flatten.length s.log new
  saved : base.flatten.length ≤ s.savedSequence

/-- `hist` are the batches that are visible, `fresh` the operations inserted behind them. -/
structure Inv (s : State) (hist : Journal) (fresh : List BatchOp) : Prop where
  last : s.lastSequence = hist.flatten.length
  stack : Stack (sources s.tables s.mem s.imm s.files) (hist.flatten ++ fresh)
  imm : ∀ i ∈ s.imm, i < s.mem
  nodup : (s.writers.map Prod.fst).Nodup
  writers : ∀ p ∈ s.writers, ∃ ops, s.threads p.1 = .queued ops ∧ p.2 = batchOf ops ∧ Small ops
  group : match s.group with
    | none => fresh = []
    | some g => GroupOk s hist.flatten fresh g
  threads : ∀ c, PcOk s.mem hist.flatten (s.threads c)
  logs : ∃ base old new, hist = base ++ old.flatten ++ new.flatten ∧
    Logs s.toStorage s.todo base old (new ++ s.logged) ∧ s.savedSequence ≤ hist.flatten.length

/-- Where a call is; a lookup on its way has its result in the tables that it searches. -/
def Pc.phase (tables : Nat → MemTable) : Pc → Phase DbOp DbRes
  | .idle => .idle
  | .push ops | .queued ops => .called (.write ops)
  | .snapshot key => .called (.get key)
  | .lookMem key snap mem imm files =>
    .executed (.get key) (.got ((lookup key snap (sources tables mem imm files)).getD none))
  | .lookImm key snap imm files =>
    .executed (.get key) (.got ((lookup key snap (imm.toList.map tables ++ files)).getD none))
  | .lookFiles key snap files => .executed (.get key) (.got ((lookup key snap files).getD none))
  | .ret op res => .executed op res

def phases (s : State) (c : Nat) : Phase DbOp DbRes := (s.threads c).phase s.tables

section
variable {s s' : State} {hist : Journal} {fresh : List BatchOp} {c d : Nat} {pc : Pc}
  {tables : Nat → MemTable}
  {first : WriteBatch} {rest : List (Nat × WriteBatch)} {g : Group} {ops : List BatchOp}
  {db : Store}

/-! ### The logs -/

theorem Logged.append {n : Nat} {records : List Bytes} {gs : List Journal} {b : WriteBatch} {new : Journal}
    (h : Logged n records gs) (hb : Holds b new.flatten)
    (hseq : b.sequence = n + gs.flatten.flatten.length + 1) (hlen : new.flatten.length < 2 ^ 32)
    (hroom : n + gs.flatten.flatten.length + new.flatten.length ≤ kMaxSequenceNumber) :
    Logged n (records ++ [b.rep]) (gs ++ [new]) := by
  induction records generalizing n gs with
  | nil =>
    obtain rfl : gs = [] := h
    exact ⟨b, new, [], rfl, rfl, hb, hseq, hlen, hroom, rfl⟩
  | cons record records ih =>
    obtain ⟨b', g, gs', rfl, hrep, hb', hseq', hlen', hroom', h⟩ := h
    rw [List.flatten_cons, List.flatten_append, List.length_append, ← Nat.add_assoc] at hseq hroom
    exact ⟨b', g, gs' ++ [new], rfl, hrep, hb', hseq', hlen', hroom', ih h hseq hroom⟩

theorem logged_none (hg : s.group = none) : s.logged = [] ∧ s.todo = [] := by
  simp [State.logged, State.todo, hg]

theorem logged_log (hg : s.group = some g) (hst : g.stage = .log) : s.logged = [] ∧ s.todo = [] := by
  obtain ⟨count, batch, stage⟩ := g
  obtain rfl : stage = .log := hst
  simp [State.logged, State.todo, hg]

theorem logged_insert {todo : List BatchOp} {seq : Nat} (hg : s.group = some g)
    (hst : g.stage = .insert todo seq) : s.logged = [s.groupBatches g] ∧ s.todo = todo := by
  obtain ⟨count, batch, stage⟩ := g
  obtain rfl : stage = .insert todo seq := hst
  simp [State.logged, State.todo, hg]

section
variable {st : Storage} {base : Journal} {todo : List BatchOp} {old new : List Journal}

/-- A group is logged. -/
theorem Logs.append {b : WriteBatch} {gb : Journal} (h : Logs st [] base old new)
    (hb : Holds b gb.flatten)
    (hseq : b.sequence = (base ++ old.flatten ++ new.flatten).flatten.length + 1)
    (hlen : gb.flatten.length < 2 ^ 32)
    (hroom : (base ++ old.flatten ++ new.flatten).flatten.length + gb.flatten.length ≤
      kMaxSequenceNumber) :
    Logs { st with log := st.log ++ [b.rep] } gb.flatten base old (new ++ [gb]) where
  files := h.files
  imm := h.imm
  mem := by
    obtain ⟨done, hmem, hdone⟩ := h.mem
    rw [List.append_nil] at hdone
    exact ⟨done, hmem, by
      rw [hdone, List.flatten_append, List.flatten_singleton, List.flatten_append]⟩
  immLog := h.immLog
  log := by
    rw [List.flatten_append, List.length_append] at hseq hroom
    exact h.log.append hb hseq hlen hroom
  saved := h.saved

/-- An operation is inserted. -/
theorem Logs.addOp {op : BatchOp} (h : Logs st (op :: todo) base old new)
    (himm : ∀ i ∈ st.imm, i < st.mem) (seq : Nat)
    (hseq : seq + (op :: todo).length = (base ++ old.flatten ++ new.flatten).flatten.length + 1) :
    Logs { st with tables := Function.update st.tables st.mem ((st.tables st.mem).addOp seq op) } todo
      base old new where
  files := h.files
  imm := by
    have hi := h.imm
    simp only
    cases ho : st.imm with
    | none => rwa [ho] at hi
    | some i =>
      rw [ho] at hi
      simp only [Function.update_of_ne (himm i (by simp [ho])).ne]
      exact hi
  mem := by
    obtain ⟨done, hmem, hdone⟩ := h.mem
    refine ⟨done ++ [op], ?_, by rw [← hdone, List.append_assoc]; rfl⟩
    have hs : seq = (base ++ old.flatten).flatten.length + 1 + done.length := by
      simp only [List.flatten_append, List.length_append, ← hdone] at hseq ⊢
      omega
    simp only [Function.update_self, MemTable.insertInto_append, hmem, hs]
    rfl
  immLog := h.immLog
  log := h.log
  saved := h.saved

/-- The memtable is full. -/
theorem Logs.switch (h : Logs s.toStorage [] base old new) (himm : s.imm = none) :
    Logs s.switch.toStorage [] base new [] ∧ old = [] := by
  have hold : old = [] := by
    have hi := h.imm
    rwa [himm] at hi
  subst hold
  obtain ⟨done, hmem, hdone⟩ := h.mem
  rw [List.append_nil] at hdone
  have hlog := h.log
  simp only [List.flatten_nil, List.append_nil] at hmem hlog
  refine ⟨⟨h.files, ?_, ⟨[], ?_, rfl⟩, hlog, rfl, h.saved⟩, rfl⟩
  · simp only [State.switch, Function.update_of_ne (Nat.lt_succ_self s.mem).ne]
    rw [hmem, hdone]
  · simp only [State.switch, Function.update_self]
    rfl

/-- The immutable memtable is written to a file. -/
theorem Logs.compact {i : Nat} (h : Logs s.toStorage todo base old new) (himm : s.imm = some i)
    (hlast : (base ++ old.flatten).flatten.length ≤ s.lastSequence) :
    Logs (s.compact i).toStorage todo (base ++ old.flatten) [] new := by
  have hi := h.imm
  rw [himm] at hi
  have hfile : Stack (s.tables i :: s.files) (base ++ old.flatten).flatten := by
    rw [List.flatten_append]
    exact ⟨_, _, rfl, hi, h.files⟩
  have hmem := h.mem
  have hlog := h.log
  rw [← List.append_nil (base ++ old.flatten)] at hmem hlog
  exact ⟨hfile.writeLevel0Table, rfl, hmem, rfl, hlog, hlast⟩

end

/-! ### One thread moves -/

theorem phases_at (s : State) (c : Nat) (pc : Pc) :
    phases (s.at c pc) = Function.update (phases s) c (pc.phase s.tables) := by
  funext d
  by_cases hd : d = c
  · subst hd
    simp [phases, State.at]
  · simp [phases, State.at, Function.update_of_ne hd]

/-- A thread that is not in the queue. -/
theorem Inv.notMem (h : Inv s hist fresh) (hpc : ∀ ops, s.threads c ≠ .queued ops) :
    c ∉ s.writers.map Prod.fst := by
  intro hc
  obtain ⟨p, hp, rfl⟩ := List.mem_map.1 hc
  obtain ⟨ops, hops, -⟩ := h.writers p hp
  exact hpc ops hops

theorem Inv.at (h : Inv s hist fresh) (hpc : ∀ ops, s.threads c ≠ .queued ops)
    (hok : PcOk s.mem hist.flatten pc) : Inv (s.at c pc) hist fresh where
  last := h.last
  stack := h.stack
  imm := h.imm
  nodup := h.nodup
  writers p hp := by
    obtain ⟨ops, hops, hb⟩ := h.writers p hp
    have hne : p.1 ≠ c := by
      rintro rfl
      exact hpc ops hops
    exact ⟨ops, (Function.update_of_ne hne _ _).trans hops, hb⟩
  group := by
    have hg := h.group
    simp only [State.at] at hg ⊢
    split at hg
    · exact hg
    · exact ⟨hg.count, hg.holds, hg.short, hg.sequence, hg.stage⟩
  threads d := by
    by_cases hd : d = c
    · subst hd
      simpa [State.at] using hok
    · simpa [State.at, Function.update_of_ne hd] using h.threads d
  logs := h.logs

/-! ### Writers -/

theorem Inv.allHold (h : Inv s hist fresh) : AllHold (s.writers.map Prod.snd) := by
  intro b hb
  obtain ⟨p, hp, rfl⟩ := List.mem_map.1 hb
  obtain ⟨ops, -, hops, hs⟩ := h.writers p hp
  rw [hops]
  exact (holds_batchOf hs.1).self

/-- A writer behind the others. -/
theorem groupBatches_push {p : Nat × WriteBatch} (hn : g.count ≤ s.writers.length)
    (hw : s'.writers = s.writers ++ [p]) : s'.groupBatches g = s.groupBatches g := by
  rw [State.groupBatches, State.groupBatches, hw, List.take_append_of_le_length hn]

theorem Inv.push (h : Inv s hist fresh) (hpc : s.threads c = .push ops) :
    Inv { s.at c (.queued ops) with writers := s.writers ++ [(c, batchOf ops)] } hist fresh := by
  have hne : ∀ ops', s.threads c ≠ .queued ops' := by simp [hpc]
  have hsmall : Small ops := by
    have := h.threads c
    rwa [hpc] at this
  have hat : Inv (s.at c (.queued ops)) hist fresh := h.at hne trivial
  generalize hs' : ({ s.at c (.queued ops) with writers := s.writers ++ [(c, batchOf ops)] } : State) = s'
  have hw : s'.writers = s.writers ++ [(c, batchOf ops)] := by rw [← hs']
  have hgroup : s'.group = s.group := by rw [← hs']; rfl
  have hsame : ∀ g, s.group = some g → s'.groupBatches g = s.groupBatches g := by
    intro g hg
    have hgo := h.group
    rw [hg] at hgo
    exact groupBatches_push hgo.count hw
  have hlogs : s'.logged = s.logged ∧ s'.todo = s.todo ∧ s'.toStorage = s.toStorage := by
    refine ⟨?_, by simp only [State.todo, hgroup], by rw [← hs']; rfl⟩
    simp only [State.logged, hgroup]
    split
    · rename_i hg
      rw [hsame _ hg]
    · rfl
  refine ⟨?_, ?_, ?_, ?_, ?_, ?_, ?_, ?_⟩
  · rw [← hs']
    exact hat.last
  · rw [← hs']
    exact hat.stack
  · rw [← hs']
    exact hat.imm
  · have hnot := h.notMem hne
    rw [hw, List.map_append, List.map_cons, List.map_nil]
    exact List.nodup_append.2 ⟨h.nodup, by simp, by
      intro a ha b hb
      obtain rfl : b = c := by simpa using hb
      rintro rfl
      exact hnot ha⟩
  · intro p hp
    rw [← hs']
    rcases List.mem_append.1 (hw ▸ hp) with hp | hp
    · exact hat.writers p hp
    · obtain rfl := List.mem_singleton.1 hp
      exact ⟨ops, by simp [State.at], rfl, hsmall⟩
  · have hgo := h.group
    rw [hgroup]
    cases hg : s.group with
    | none =>
      rw [hg] at hgo
      exact hgo
    | some g =>
      rw [hg] at hgo
      have hsame : s'.groupOps g = s.groupOps g := by
        rw [← groupBatches_flatten, hsame g hg, groupBatches_flatten]
      refine ⟨hgo.count.trans (by simp [hw]), hsame ▸ hgo.holds, hsame ▸ hgo.short, hgo.sequence, ?_⟩
      rw [hsame]
      exact hgo.stage
  · rw [← hs']
    exact hat.threads
  · rw [hlogs.1, hlogs.2.1, hlogs.2.2]
    exact h.logs

theorem Inv.build (h : Inv s hist fresh) (hw : s.writers = (c, first) :: rest) (hg : s.group = none)
    (hroom : s.lastSequence + 2 ^ 32 ≤ kMaxSequenceNumber) : Inv (lead s first rest) hist fresh := by
  obtain ⟨ops, -, hfirst, hsmall⟩ := h.writers (c, first) (by simp [hw])
  have hhold := h.allHold
  rw [hw, List.map_cons] at hhold
  obtain ⟨-, h2, h3, h4⟩ := buildBatchGroup_spec hhold (hfirst ▸ hsmall.2)
  have hops : ∀ n, opsOf ((s.writers.take n).map Prod.snd) =
      opsOf ((first :: rest.map Prod.snd).take n) := fun n => by
    rw [hw, List.map_take, List.map_cons]
  have hfresh : fresh = [] := by
    have := h.group
    rwa [hg] at this
  have hlead : lead s first rest = { s with group := some ⟨(buildBatchGroup first (rest.map Prod.snd)).1,
      (buildBatchGroup first (rest.map Prod.snd)).2.setSequence (s.lastSequence + 1), .log⟩ } := by
    simp only [lead, hg]
  rw [hlead]
  have hlogs := h.logs
  simp only [(logged_none hg).1, (logged_none hg).2] at hlogs
  refine ⟨h.last, h.stack, h.imm, h.nodup, h.writers, ⟨?_, ?_, ?_, ?_, hfresh⟩, h.threads, hlogs⟩
  · simpa [hw] using h2
  · rw [State.groupOps, hops]
    exact h3.setSequence _
  · rw [State.groupOps, hops]
    exact h4
  · have hseq : s.lastSequence + 1 < 2 ^ 64 := by
      simp only [kMaxSequenceNumber] at hroom
      omega
    rw [WriteBatch.sequence_setSequence, Nat.mod_eq_of_lt hseq, h.last]

theorem Inv.logged (h : Inv s hist fresh) (hg : s.group = some g) (hst : g.stage = .log)
    (hroom : s.lastSequence + 2 ^ 32 ≤ kMaxSequenceNumber) : Inv (lead s first rest) hist fresh := by
  have hgo := h.group
  rw [hg] at hgo
  have hstage := hgo.stage
  rw [hst] at hstage
  have hfresh : fresh = [] := hstage
  have hlead : lead s first rest = { s with
      log := s.log ++ [g.batch.rep]
      group := some { g with stage := .insert g.batch.iterate.1 g.batch.sequence } } := by
    simp only [lead, hg, hst]
  rw [hlead]
  obtain ⟨base, old, new, hhist, hlogs, hsaved⟩ := h.logs
  rw [(logged_log hg hst).1, (logged_log hg hst).2, List.append_nil] at hlogs
  have hbatches := groupBatches_flatten s g
  have hshort := hgo.short
  have happend := hlogs.append (hbatches ▸ hgo.holds) (hhist ▸ hgo.sequence) (hbatches ▸ hshort) (by
    rw [hbatches, ← hhist, ← h.last]
    omega)
  have hiter := congrArg Prod.fst hgo.holds.iterate
  refine ⟨h.last, h.stack, h.imm, h.nodup, h.writers, ⟨hgo.count, hgo.holds, hgo.short, hgo.sequence, ?_⟩,
    h.threads, base, old, new, hhist, ?_, hsaved⟩
  · subst hfresh
    exact ⟨hiter, hgo.sequence⟩
  · have htodo : g.batch.iterate.1 = (s.groupBatches g).flatten := hiter.trans hbatches.symm
    simp only [State.logged, State.todo, htodo]
    exact happend

/-! ### Memtables -/

theorem sources_congr {tables' : Nat → MemTable} {n : Nat} {imm : Option Nat}
    (himm : ∀ i ∈ imm, i < n) (hold : ∀ i < n, tables' i = tables i) (files : List MemTable) :
    imm.toList.map tables' ++ files = imm.toList.map tables ++ files := by
  congr 1
  exact List.map_congr_left fun i hi => hold i (himm i (Option.mem_toList.1 hi))

/-- What a lookup on its way will return does not change. -/
theorem PcOk.phase_addOp {tables' : Nat → MemTable} {n : Nat} (hok : PcOk n ops pc)
    (hold : ∀ i < n, tables' i = tables i)
    (hget : ∀ key, ∀ snap ≤ ops.length, (tables' n).get key snap = (tables n).get key snap) :
    pc.phase tables' = pc.phase tables := by
  cases pc with
  | lookMem key snap mem imm files =>
    obtain ⟨hsnap, hmem, himm⟩ := hok
    have hsame : (tables' mem).get key snap = (tables mem).get key snap := by
      rcases Nat.lt_or_eq_of_le hmem with hlt | rfl
      · rw [hold mem hlt]
      · exact hget key snap hsnap
    simp only [Pc.phase, sources, lookup_cons, hsame, sources_congr himm hold]
  | lookImm key snap imm files => simp only [Pc.phase, sources_congr hok hold]
  | idle | push | queued | snapshot | lookFiles | ret => rfl

theorem Inv.inserted (first : WriteBatch) (rest : List (Nat × WriteBatch)) {todo : List BatchOp}
    {op : BatchOp} {seq : Nat} (h : Inv s hist fresh) (hg : s.group = some g)
    (hst : g.stage = .insert (op :: todo) seq) :
    Inv (lead s first rest) hist (fresh ++ [op]) ∧ phases (lead s first rest) = phases s := by
  have hgo := h.group
  rw [hg] at hgo
  have hstage := hgo.stage
  rw [hst] at hstage
  obtain ⟨htodo, hseq⟩ : fresh ++ op :: todo = s.groupOps g ∧
    seq = hist.flatten.length + fresh.length + 1 := hstage
  have hlead : lead s first rest = { s with
      tables := Function.update s.tables s.mem ((s.tables s.mem).addOp seq op)
      group := some { g with stage := .insert todo (seq + 1) } } := by
    simp only [lead, hg, hst]
  have hold : ∀ i < s.mem, Function.update s.tables s.mem ((s.tables s.mem).addOp seq op) i = s.tables i :=
    fun i hi => Function.update_of_ne hi.ne _ _
  have hstack := h.stack
  rw [sources] at hstack
  obtain ⟨hsorted, hbelow⟩ := hstack.below
  rw [List.length_append, ← hseq] at hbelow
  rw [hlead]
  obtain ⟨base, old, new, hhist, hlogs, hsaved⟩ := h.logs
  rw [(logged_insert hg hst).1, (logged_insert hg hst).2] at hlogs
  have hadd' := hlogs.addOp h.imm seq (by
    have hall : base ++ old.flatten ++ (new ++ [s.groupBatches g]).flatten = hist ++ s.groupBatches g := by
      rw [hhist, List.flatten_append, List.flatten_singleton, List.append_assoc _ new.flatten]
    rw [hall, List.flatten_append, groupBatches_flatten, ← htodo, hseq]
    simp only [List.length_append, List.length_cons]
    omega)
  refine ⟨⟨h.last, ?_, h.imm, h.nodup, h.writers, ⟨hgo.count, hgo.holds, hgo.short, hgo.sequence, ?_⟩,
    h.threads, base, old, new, hhist, hadd', hsaved⟩, ?_⟩
  · have hadd := hstack.addOp op
    rw [List.length_append, ← hseq, List.append_assoc] at hadd
    simp only [sources, Function.update_self, sources_congr h.imm hold]
    exact hadd
  · exact ⟨by rw [List.append_assoc]; exact htodo, by rw [List.length_append, hseq]; rfl⟩
  · funext d
    refine (h.threads d).phase_addOp hold fun key snap hsnap => ?_
    dsimp only
    rw [Function.update_self, MemTable.get_addOp hsorted hbelow, if_neg (by omega)]

theorem PcOk.mono {n n' : Nat} {ops' : List BatchOp} (h : PcOk n ops pc) (hn : n ≤ n')
    (hl : ops.length ≤ ops'.length) : PcOk n' ops' pc := by
  cases pc with
  | lookMem key snap mem imm files =>
    exact ⟨h.1.trans hl, h.2.1.trans hn, fun i hi => (h.2.2 i hi).trans_le hn⟩
  | lookImm key snap imm files => exact fun i hi => (h i hi).trans_le hn
  | push ops => exact h
  | idle | queued | snapshot | lookFiles | ret => trivial

theorem Inv.switch (h : Inv s hist fresh) (hg : s.group = none) (himm : s.imm = none) :
    Inv s.switch hist fresh ∧ phases s.switch = phases s := by
  have hold : ∀ i ≤ s.mem, Function.update s.tables (s.mem + 1) [] i = s.tables i :=
    fun i hi => Function.update_of_ne (by omega) _ _
  have hstack := h.stack
  simp only [sources, himm, Option.toList_none, List.map_nil, List.nil_append] at hstack
  have hgroup := h.group
  rw [hg] at hgroup
  obtain ⟨base, old, new, hhist, hlogs, hsaved⟩ := h.logs
  rw [(logged_none hg).1, (logged_none hg).2, List.append_nil] at hlogs
  obtain ⟨hswitch, rfl⟩ := hlogs.switch himm
  have hlogs' : Logs s.switch.toStorage s.switch.todo base new ([] ++ s.switch.logged) := by
    rw [(logged_none (s := s.switch) hg).1, (logged_none (s := s.switch) hg).2]
    exact hswitch
  refine ⟨⟨h.last, ?_, ?_, h.nodup, h.writers, ?_, fun c => (h.threads c).mono (Nat.le_succ _) le_rfl,
    base, new, [], by simpa using hhist, hlogs', hsaved⟩, ?_⟩
  · simp only [sources, State.switch, Function.update_self, Option.toList_some, List.map_cons,
      List.map_nil, hold s.mem le_rfl]
    exact hstack.push
  · intro i hi
    obtain rfl : s.mem = i := by simpa [State.switch] using hi
    exact Nat.lt_succ_self _
  · simp only [State.switch, hg]
    exact hgroup
  · funext d
    refine (h.threads d).phase_addOp (fun i hi => hold i hi.le) fun key snap _ => ?_
    simp only [State.switch]
    rw [hold s.mem le_rfl]

theorem Inv.compact {i : Nat} (h : Inv s hist fresh) (himm : s.imm = some i) :
    Inv (s.compact i) hist fresh where
  last := h.last
  stack := by
    obtain ⟨older, new, hops, ht, hstack⟩ := h.stack
    rw [himm, Option.toList_some, List.map_singleton, List.singleton_append] at hstack
    exact ⟨older, new, hops, ht, hstack.writeLevel0Table⟩
  imm := fun _ hi => by cases hi
  nodup := h.nodup
  writers := h.writers
  group := by
    have hg := h.group
    rw [show (s.compact i).group = s.group from rfl]
    generalize s.group = o at hg
    cases o with
    | none => exact hg
    | some g => exact ⟨hg.count, hg.holds, hg.short, hg.sequence, hg.stage⟩
  threads := h.threads
  logs := by
    obtain ⟨base, old, new, hhist, hlogs, -⟩ := h.logs
    refine ⟨base ++ old.flatten, [], new, by simpa using hhist, hlogs.compact himm ?_, h.last.le⟩
    rw [h.last, hhist]
    simp only [List.flatten_append, List.length_append]
    omega

/-! ### The end of a group -/

theorem mem_of_mem_take {p : Nat × WriteBatch} {n : Nat} (hp : p ∈ s.writers.drop n)
    (h : (s.writers.map Prod.fst).Nodup) : p.1 ∉ (s.writers.take n).map Prod.fst := by
  rw [← List.take_append_drop n s.writers, List.map_append, List.nodup_append] at h
  intro hm
  exact h.2.2 _ hm _ (List.mem_map_of_mem hp) rfl

theorem foldl_writes (ws : List (Nat × WriteBatch)) (j : Journal) :
    (ws.map fun p => (p.1, DbOp.write p.2.iterate.1)).foldl (fun j p => (applyJournal j p.2).1) j =
      j ++ ws.map fun p => p.2.iterate.1 := by
  induction ws generalizing j with
  | nil => exact (List.append_nil j).symm
  | cons p ws ih =>
    simp only [List.map_cons, List.foldl_cons, applyJournal] at ih ⊢
    rw [ih, List.append_assoc]
    rfl

theorem Inv.called (h : Inv s hist fresh) {p : Nat × WriteBatch} (hp : p ∈ s.writers) :
    s.threads p.1 = .queued p.2.iterate.1 := by
  obtain ⟨ops, hq, hb, hsmall⟩ := h.writers p hp
  rw [hq, hb, (holds_batchOf hsmall.1).iterate]

/-- The writes of a group are executed, in their order. -/
theorem Inv.execGroup (h : Inv s hist fresh) (g : Group) :
    ∃ ph', AtomicRun applyJournal (hist, phases s) [] (hist ++ s.groupBatches g, ph') ∧
      (∀ p ∈ s.writers.take g.count, ph' p.1 = .executed (.write p.2.iterate.1) .ok) ∧
      ∀ d ∉ (s.writers.take g.count).map Prod.fst, ph' d = phases s d := by
  generalize hcs : ((s.writers.take g.count).map fun p => (p.1, DbOp.write p.2.iterate.1)) = cs
  have hfst : cs.map Prod.fst = (s.writers.take g.count).map Prod.fst := by
    rw [← hcs, List.map_map]
    rfl
  obtain ⟨ph', hrun, hdone, hother⟩ : ∃ ph', AtomicRun applyJournal (hist, phases s) []
      (cs.foldl (fun j p => (applyJournal j p.2).1) hist, ph') ∧
      (∀ p ∈ cs, ph' p.1 = .executed p.2 .ok) ∧ ∀ d ∉ cs.map Prod.fst, ph' d = phases s d := by
    refine AtomicRun.execAll (fun j op => (applyJournal j op).1) cs _ _ ?_ ?_ ?_
    · rw [hfst]
      exact h.nodup.sublist ((List.take_sublist _ _).map _)
    · intro q hq
      obtain ⟨p, hp, rfl⟩ := List.mem_map.1 (hcs ▸ hq)
      simp only [phases, h.called (List.take_subset _ _ hp), Pc.phase]
    · intro j q hq
      obtain ⟨p, -, rfl⟩ := List.mem_map.1 (hcs ▸ hq)
      rfl
  rw [← hcs, foldl_writes] at hrun
  refine ⟨ph', hrun, fun p hp => ?_, fun d hd => hother d (by rwa [hfst])⟩
  exact hdone (p.1, .write p.2.iterate.1) (hcs ▸ List.mem_map_of_mem hp)

/-- Publishing the last sequence number executes the writes of the group. -/
theorem Inv.finished (first : WriteBatch) (rest : List (Nat × WriteBatch)) {seq : Nat}
    (h : Inv s hist fresh) (hg : s.group = some g) (hst : g.stage = .insert [] seq) :
    Inv (lead s first rest) (hist ++ s.groupBatches g) [] ∧
      AtomicRun applyJournal (hist, phases s) []
        (hist ++ s.groupBatches g, phases (lead s first rest)) := by
  have hgo := h.group
  rw [hg] at hgo
  have hstage := hgo.stage
  rw [hst] at hstage
  have hfresh : fresh = (s.groupBatches g).flatten := by
    rw [groupBatches_flatten]
    simpa using hstage.1
  have hlead : lead s first rest = { s with
      lastSequence := s.lastSequence + g.batch.count
      writers := s.writers.drop g.count
      group := none
      threads := finish ((s.writers.take g.count).map Prod.fst) s.threads } := by
    simp only [lead, hg, hst]
  have hcount : g.batch.count = fresh.length := by
    rw [hgo.holds.count, Nat.mod_eq_of_lt hgo.short, hfresh, groupBatches_flatten]
  have hvisible : (hist ++ s.groupBatches g).flatten = hist.flatten ++ fresh := by
    rw [List.flatten_append, hfresh]
  obtain ⟨ph', hrun, hdone, hother⟩ := h.execGroup g
  have hph : ph' = phases (lead s first rest) := by
    rw [hlead]
    funext d
    by_cases hd : d ∈ (s.writers.take g.count).map Prod.fst
    · obtain ⟨p, hp, rfl⟩ := List.mem_map.1 hd
      rw [hdone p hp]
      simp only [phases, finish, if_pos hd, h.called (List.take_subset _ _ hp), Pc.phase]
    · rw [hother d hd]
      simp only [phases, finish, if_neg hd]
  rw [hph] at hrun
  refine ⟨?_, hrun⟩
  rw [hlead]
  have hlogs : ∃ base old new, hist ++ s.groupBatches g = base ++ old.flatten ++ new.flatten ∧
      Logs s.toStorage [] base old (new ++ []) ∧
      s.savedSequence ≤ (hist ++ s.groupBatches g).flatten.length := by
    obtain ⟨base, old, new, hhist, hlogs, hsaved⟩ := h.logs
    rw [(logged_insert hg hst).1, (logged_insert hg hst).2] at hlogs
    refine ⟨base, old, new ++ [s.groupBatches g], ?_, by rwa [List.append_nil], hsaved.trans (by simp)⟩
    rw [hhist, List.flatten_append, List.flatten_singleton, List.append_assoc]
  refine ⟨by rw [h.last, hcount, hvisible, List.length_append],
    by rw [List.append_nil, hvisible]; exact h.stack, h.imm, ?_, ?_, rfl, fun c => ?_,
    hlogs⟩
  · exact h.nodup.sublist ((List.drop_sublist _ _).map _)
  · intro p hp
    obtain ⟨ops, hq, hb⟩ := h.writers p (List.drop_subset _ _ hp)
    exact ⟨ops, by simp only [finish, if_neg (mem_of_mem_take hp h.nodup), hq], hb⟩
  · have hmono := (h.threads c).mono le_rfl
      (show hist.flatten.length ≤ (hist ++ s.groupBatches g).flatten.length by simp)
    simp only [finish]
    split
    · split
      · trivial
      · exact hmono
    · exact hmono

/-! ## The simulation -/

def Sim (s : State) (x : Clients Nat Journal DbOp DbRes) : Prop :=
  ∃ hist fresh, Inv s hist fresh ∧ x = (hist, phases s)

theorem Inv.lead_sim (h : Inv s hist fresh) (hw : s.writers = (c, first) :: rest)
    (hroom : s.lastSequence + 2 ^ 32 ≤ kMaxSequenceNumber) :
    ∃ y, AtomicRun applyJournal (hist, phases s) [] y ∧ Sim (lead s first rest) y := by
  cases hg : s.group with
  | none =>
    have hph : phases (lead s first rest) = phases s := by
      funext d
      simp only [lead, hg, phases]
    exact ⟨_, .refl, hist, fresh, h.build hw hg hroom, by rw [hph]⟩
  | some g =>
    cases hst : g.stage with
    | log =>
      have hph : phases (lead s first rest) = phases s := by
        funext d
        simp only [lead, hg, hst, phases]
      exact ⟨_, .refl, hist, fresh, h.logged hg hst hroom, by rw [hph]⟩
    | insert todo seq =>
      cases todo with
      | nil =>
        obtain ⟨hinv, hrun⟩ := h.finished first rest hg hst
        exact ⟨_, hrun, _, _, hinv, rfl⟩
      | cons op todo =>
        obtain ⟨hinv, hph⟩ := h.inserted first rest hg hst
        exact ⟨_, .refl, hist, _, hinv, by rw [hph]⟩

/-- A thread that is not a writer moves on, and is then in the phase that its client is in. -/
theorem Inv.move_sim (h : Inv s hist fresh) {es : List (Seen Nat DbOp DbRes)}
    (hpc : ∀ ops, s.threads c ≠ .queued ops) (hok : PcOk s.mem hist.flatten pc)
    (hrun : AtomicRun applyJournal (hist, phases s) es
      (hist, Function.update (phases s) c (pc.phase s.tables))) :
    ∃ y, AtomicRun applyJournal (hist, phases s) es y ∧ Sim (s.at c pc) y :=
  ⟨_, hrun, hist, fresh, h.at hpc hok, by rw [phases_at]⟩

theorem phase_stay (pc : Pc) (j : Journal) (hph : pc.phase s.tables = phases s c) :
    AtomicRun applyJournal (j, phases s) [] (j, Function.update (phases s) c (pc.phase s.tables)) := by
  rw [hph, Function.update_eq_self]
  exact .refl

/-- The next lookup, or the answer. -/
theorem phase_answer {key : Bytes} (next : Pc) {r later : Option (Option Bytes)}
    (hnext : next.phase tables = .executed (.get key) (.got (later.getD none))) :
    (answer key next r).phase tables = .executed (.get key) (.got ((r.or later).getD none)) := by
  cases r with
  | none => exact hnext
  | some v => rfl

theorem answer_ok {key : Bytes} {n : Nat} {next : Pc} {r : Option (Option Bytes)}
    (h : PcOk n ops next) : PcOk n ops (answer key next r) := by
  cases r with
  | none => exact h
  | some v => trivial

theorem Inv.turn_sim {es : List (Seen Nat DbOp DbRes)} (h : Inv s hist fresh)
    (hroom : s.lastSequence + 2 ^ 32 ≤ kMaxSequenceNumber)
    (hs : step s (.thread c .turn) = some (s', es)) :
    ∃ y, AtomicRun applyJournal (hist, phases s) es y ∧ Sim s' y := by
  have hc := h.threads c
  have hph : phases s c = (s.threads c).phase s.tables := rfl
  simp only [step] at hs
  cases hpc : s.threads c with
  | idle => simp [hpc] at hs
  | push ops =>
    simp only [hpc, Option.some.injEq, Prod.mk.injEq] at hs
    obtain ⟨rfl, rfl⟩ := hs
    refine ⟨_, phase_stay (.queued ops) _ (by rw [hph, hpc]; rfl), hist, fresh, h.push hpc, ?_⟩
    rw [← phases_at]
    rfl
  | queued ops =>
    simp only [hpc] at hs
    split at hs
    · rename_i d first rest hw
      split at hs
      · simp only [Option.some.injEq, Prod.mk.injEq] at hs
        obtain ⟨rfl, rfl⟩ := hs
        exact h.lead_sim hw hroom
      · cases hs
    · cases hs
  | snapshot key =>
    simp only [hpc, Option.some.injEq, Prod.mk.injEq] at hs
    obtain ⟨rfl, rfl⟩ := hs
    refine h.move_sim (by simp [hpc]) ⟨h.last.le, le_rfl, h.imm⟩ ?_
    -- as of the last sequence number the tables hold the history
    have hlook : (lookup key s.lastSequence (sources s.tables s.mem s.imm s.files)).getD none =
        hist.store key := by
      rw [h.stack.lookup, h.last, List.take_left, Journal.store, writeAll_lastOn]
    refine AtomicRun.exec (by rw [hph, hpc]; rfl) ?_
    rw [hlook]
    rfl
  | lookMem key snap mem imm files =>
    rw [hpc] at hc
    simp only [hpc, Option.some.injEq, Prod.mk.injEq] at hs
    obtain ⟨rfl, rfl⟩ := hs
    refine h.move_sim (by simp [hpc]) (answer_ok hc.2.2) (phase_stay _ _ ?_)
    rw [hph, hpc, phase_answer (.lookImm key snap imm files) rfl, Pc.phase, sources, lookup_cons]
  | lookImm key snap imm files =>
    simp only [hpc, Option.some.injEq, Prod.mk.injEq] at hs
    obtain ⟨rfl, rfl⟩ := hs
    refine h.move_sim (by simp [hpc]) (answer_ok trivial) (phase_stay _ _ ?_)
    rw [hph, hpc, phase_answer (.lookFiles key snap files) rfl, Pc.phase]
    cases imm with
    | none => rfl
    | some i => rw [Option.toList_some, List.map_cons, List.map_nil, List.cons_append, lookup_cons]; rfl
  | lookFiles key snap files =>
    simp only [hpc, Option.some.injEq, Prod.mk.injEq] at hs
    obtain ⟨rfl, rfl⟩ := hs
    exact h.move_sim (by simp [hpc]) trivial (phase_stay _ _ (by rw [hph, hpc]; rfl))
  | ret op res =>
    simp only [hpc, Option.some.injEq, Prod.mk.injEq] at hs
    obtain ⟨rfl, rfl⟩ := hs
    exact h.move_sim (by simp [hpc]) trivial (AtomicRun.ret (by rw [hph, hpc]; rfl))

theorem step_sim {l : Label} {es : List (Seen Nat DbOp DbRes)} {x : Clients Nat Journal DbOp DbRes}
    (h : Sim s x) (hf : Fit s l) (hs : step s l = some (s', es)) :
    ∃ y, AtomicRun applyJournal x es y ∧ Sim s' y := by
  obtain ⟨hist, fresh, h, rfl⟩ := h
  cases l with
  | thread c a =>
    cases a with
    | write ops =>
      simp only [step] at hs
      split at hs
      · rename_i hpc
        simp only [Option.some.injEq, Prod.mk.injEq] at hs
        obtain ⟨rfl, rfl⟩ := hs
        exact h.move_sim (by simp [hpc]) hf (AtomicRun.call (by rw [phases, hpc]; rfl))
      · cases hs
    | get key =>
      simp only [step] at hs
      split at hs
      · rename_i hpc
        simp only [Option.some.injEq, Prod.mk.injEq] at hs
        obtain ⟨rfl, rfl⟩ := hs
        exact h.move_sim (by simp [hpc]) trivial (AtomicRun.call (by rw [phases, hpc]; rfl))
      · cases hs
    | turn => exact h.turn_sim hf hs
    | switch =>
      simp only [step] at hs
      split at hs
      · rename_i hw hg himm
        split at hs
        · simp only [Option.some.injEq, Prod.mk.injEq] at hs
          obtain ⟨rfl, rfl⟩ := hs
          obtain ⟨hinv, hph⟩ := h.switch hg himm
          exact ⟨_, .refl, hist, fresh, hinv, by rw [hph]⟩
        · cases hs
      · cases hs
  | compact =>
    simp only [step] at hs
    split at hs
    · rename_i i himm
      simp only [Option.some.injEq, Prod.mk.injEq] at hs
      obtain ⟨rfl, rfl⟩ := hs
      exact ⟨_, .refl, hist, fresh, h.compact himm, rfl⟩
    · cases hs

theorem inv_init : Inv init [] [] where
  last := rfl
  stack := ⟨[], [], rfl, rfl, rfl⟩
  imm _ hi := by cases hi
  nodup := .nil
  writers _ hp := by cases hp
  group := rfl
  threads _ := trivial
  logs := ⟨[], [], [], rfl, ⟨rfl, rfl, ⟨[], rfl, rfl⟩, rfl, rfl, le_rfl⟩, le_rfl⟩

/-- The journal tells what a run has done. -/
theorem run_sim {h : List (Seen Nat DbOp DbRes)} {x : Clients Nat Journal DbOp DbRes} (h0 : Sim s x)
    (hr : Steps step Fit s h s') : ∃ y, AtomicRun applyJournal x h y ∧ Sim s' y :=
  Steps.simulate h0 (fun hR hp hs => step_sim hR hp hs) hr

/-- **LevelDB is linearizable**, with batches that take effect as a whole. -/
theorem leveldb_linearizable {h : List (Seen Nat DbOp DbRes)} (hr : Steps step Fit init h s) :
    Linearizable applyDb (fun _ => none) h := by
  obtain ⟨⟨hist, ph⟩, hrun, -⟩ := run_sim ⟨[], [], inv_init, rfl⟩ hr
  exact ⟨_, hrun.map applyJournal_store⟩

/-- Two writers in one group, of which a lookup sees nothing before it is published; another lookup
finds in the old memtable what is deleted in the new one after its snapshot. -/
theorem leveldb_linearizable_group :
    ∃ h s, Steps step Fit init h s ∧
      h = [.call 0 (.write [.put [1] [10]]), .call 1 (.write [.put [1] [11], .put [2] [12]]),
        .call 2 (.get [1]), .ret 2 (.get [1]) (.got none), .call 3 (.get [2]),
        .ret 0 (.write [.put [1] [10]]) .ok, .ret 1 (.write [.put [1] [11], .put [2] [12]]) .ok,
        .call 0 (.write [.delete [2]]), .ret 0 (.write [.delete [2]]) .ok,
        .ret 3 (.get [2]) (.got (some [12]))] ∧ Linearizable applyDb (fun _ => none) h := by
  have hr : Steps step Fit init _ _ := Steps.of_exec_get
    [.thread 0 (.write [.put [1] [10]]), .thread 1 (.write [.put [1] [11], .put [2] [12]]),
      .thread 0 .turn, .thread 1 .turn, .thread 0 .turn, .thread 0 .turn, .thread 0 .turn,
      .thread 0 .turn, .thread 2 (.get [1]), .thread 2 .turn, .thread 0 .turn, .thread 2 .turn,
      .thread 2 .turn, .thread 2 .turn, .thread 2 .turn, .thread 0 .turn, .thread 3 (.get [2]),
      .thread 3 .turn, .thread 0 .turn, .thread 1 .turn, .thread 0 (.write [.delete [2]]),
      .thread 0 .turn, .thread 0 .switch, .thread 0 .turn, .thread 0 .turn, .thread 0 .turn,
      .thread 0 .turn, .compact, .thread 0 .turn, .thread 3 .turn, .thread 3 .turn] (by decide +kernel)
  exact ⟨_, _, hr, by decide +kernel, leveldb_linearizable hr⟩

end

end PMRAccess.Leveldb.Db
