import PMRAccess.Leveldb.Proof.Db
import PMRAccess.Leveldb.Recover

/-!
# LevelDB after a crash

`Replayed`: what a log says is inserted again behind the operations that the table files hold, each
with the sequence number that it had (`Logs`). `recover_spec`: so the recovered database has the
batches of the files and of the records that can be read, and if none of the visible ones is lost it
is as good as a database that has only these behind it (`Inv`).
-/

namespace PMRAccess.Leveldb.Db

open Lib

section
variable {crc : Crc} {full : MemTable → Bool} {s s' : State} {hist : Journal} {fresh : List BatchOp}
  {t : MemTable} {ts : List MemTable} {ops done : List BatchOp} {records : List Bytes}
  {gs : List Journal} {n : Nat}

/-! ## Records -/

theorem Logged.length (h : Logged n records gs) : records.length = gs.length := by
  induction records generalizing n gs with
  | nil =>
    obtain rfl : gs = [] := h
    rfl
  | cons record records ih =>
    obtain ⟨b, g, gs', rfl, -, -, -, -, -, h⟩ := h
    rw [List.length_cons, List.length_cons, ih h]

theorem Logged.take (h : Logged n records gs) (k : Nat) : Logged n (records.take k) (gs.take k) := by
  induction records generalizing n gs k with
  | nil =>
    obtain rfl : gs = [] := h
    rw [List.take_nil, List.take_nil]
    rfl
  | cons record records ih =>
    obtain ⟨b, g, gs', rfl, hrep, hb, hseq, hlen, hroom, h⟩ := h
    cases k with
    | zero => rfl
    | succ k => exact ⟨b, g, gs'.take k, rfl, hrep, hb, hseq, hlen, hroom, ih h k⟩

/-- The records of a log of which the first `n` bytes are there. -/
theorem recordsOf_take (crc : Crc) (records : List Bytes) (n : Nat) :
    ∃ k ≤ records.length, recordsOf crc ((Log.addRecords crc 0 records).take n) = records.take k ∧
      (Log.addRecords crc 0 (records.take k)).length ≤ n ∧
      ∀ j ≤ records.length, (Log.addRecords crc 0 (records.take j)).length ≤ n → j ≤ k := by
  obtain ⟨k, hk, hread, hfits, hmax⟩ := Log.readLog_take crc records n
  exact ⟨k, hk, congrArg Prod.fst hread, hfits, hmax⟩

theorem recordsOf_addRecords (crc : Crc) (records : List Bytes) :
    recordsOf crc (Log.addRecords crc 0 records) = records := by
  obtain ⟨k, hk, hread, -, hmax⟩ := recordsOf_take crc records (Log.addRecords crc 0 records).length
  rw [List.take_length] at hread
  have hall := hmax records.length le_rfl (by rw [List.take_length])
  rw [hread, List.take_of_length_le hall]

/-! ## The replay of a log -/

theorem Stack.insertInto (h : Stack (t :: ts) ops) (new : List BatchOp) :
    Stack (t.insertInto (ops.length + 1) new :: ts) (ops ++ new) := by
  obtain ⟨older, new', rfl, rfl, h⟩ := h
  refine ⟨older, new' ++ new, by rw [List.append_assoc], ?_, h⟩
  rw [MemTable.insertInto_append, List.length_append, Nat.add_right_comm]

/-- A table that is not there is as good as an empty one. -/
theorem stack_getD {mem : Option MemTable} (h : Stack (mem.toList ++ ts) ops) :
    Stack (mem.getD [] :: ts) ops := by
  cases mem with
  | none => exact h.push
  | some t => exact h

/-- Behind `before`, which the files had, `done` is inserted again; `low` is what the files had at
first. -/
structure Replayed (r₀ : Recovery) (low : Nat) (before done : List BatchOp) (r : Replay) : Prop where
  stack : Stack (r.mem.toList ++ r.files) (before ++ done)
  max : max low r.maxSequence = (before ++ done).length
  saved : r.saveManifest = false → r₀.saveManifest = false ∧ r.compactions = 0
  kept : r.compactions = 0 →
    r.files = r₀.files ∧ r.mem.getD [] = MemTable.insertInto [] (before.length + 1) done

variable {r₀ : Recovery} {r : Replay} {low : Nat} {before : List BatchOp}

/-- A record is a group. -/
theorem Replayed.group (full : MemTable → Bool) {b : WriteBatch} {g : List BatchOp}
    (h : Replayed r₀ low before done r)
    (hb : Holds b g) (hseq : b.sequence = (before ++ done).length + 1) (hlen : g.length < 2 ^ 32)
    (hroom : (before ++ done).length + g.length ≤ kMaxSequenceNumber) :
    Replayed r₀ low before (done ++ g) (replay full r b.rep) := by
  have hlast : (b.sequence + b.count + (2 ^ 64 - 1)) % 2 ^ 64 = (before ++ done).length + g.length := by
    rw [hseq, hb.count, Nat.mod_eq_of_lt hlen]
    simp only [kMaxSequenceNumber] at hroom
    omega
  have hops : (before ++ (done ++ g)).length = (before ++ done).length + g.length := by
    rw [← List.append_assoc, List.length_append]
  have hmax := h.max
  have hstack := (stack_getD h.stack).insertInto g
  rw [← hseq, List.append_assoc] at hstack
  have hmem : r.compactions = 0 → (r.mem.getD []).insertInto b.sequence g =
      MemTable.insertInto [] (before.length + 1) (done ++ g) := by
    intro hc
    rw [(h.kept hc).2, MemTable.insertInto_append, hseq, List.length_append, Nat.add_right_comm]
  have hrep : (⟨b.rep, b.header⟩ : WriteBatch) = b := rfl
  simp only [replay, dif_pos b.header, hrep, hb.iterate, hlast]
  split
  · refine ⟨by simpa using hstack.writeLevel0Table, ?_, by simp, by simp⟩
    rw [hops]
    simp only
    split <;> omega
  · refine ⟨by simpa using hstack, ?_, h.saved, fun hc => ⟨(h.kept hc).1, hmem hc⟩⟩
    rw [hops]
    simp only
    split <;> omega

theorem Replayed.log (full : MemTable → Bool) (h : Replayed r₀ low before done r)
    (hl : Logged (before ++ done).length records gs) :
    Replayed r₀ low before (done ++ gs.flatten.flatten) (records.foldl (replay full) r) := by
  induction records generalizing r done gs with
  | nil =>
    obtain rfl : gs = [] := hl
    simpa using h
  | cons record records ih =>
    obtain ⟨b, g, gs', rfl, rfl, hb, hseq, hlen, hroom, hl⟩ := hl
    have hnext := h.group full hb hseq hlen hroom
    rw [← List.length_append, List.append_assoc] at hl
    have hrest := ih hnext hl
    rwa [List.append_assoc, ← List.flatten_append, ← List.flatten_cons] at hrest

/-- What `RecoverLogFile` leads to: the operations are in the files, or in the memtable of the log. -/
theorem recoverLogFile_spec (full : MemTable → Bool) (low : Nat) (r₀ : Recovery) (reuse : Bool)
    {file : Bytes} (hread : recordsOf crc file = records) (hs : Stack r₀.files before)
    (hmax : max low r₀.maxSequence = before.length)
    (hl : Logged before.length records gs) :
    max low (recoverLogFile crc full reuse file r₀).1.maxSequence =
        (before ++ gs.flatten.flatten).length ∧
      ((recoverLogFile crc full reuse file r₀).1.saveManifest = false → r₀.saveManifest = false) ∧
      match (recoverLogFile crc full reuse file r₀).2 with
      | none => Stack (recoverLogFile crc full reuse file r₀).1.files (before ++ gs.flatten.flatten) ∧
          ((recoverLogFile crc full reuse file r₀).1.saveManifest = false → gs.flatten.flatten = [])
      | some t => reuse = true ∧ (recoverLogFile crc full reuse file r₀).1.files = r₀.files ∧
          t = MemTable.insertInto [] (before.length + 1) gs.flatten.flatten := by
  have h₀ : Replayed r₀ low before [] { r₀ with mem := none, compactions := 0 } :=
    ⟨by simpa using hs, by simpa using hmax, fun h => ⟨h, rfl⟩, fun _ => ⟨rfl, rfl⟩⟩
  have h := h₀.log full (by simpa using hl)
  rw [List.nil_append] at h
  rw [recoverLogFile, hread]
  generalize records.foldl (replay full) { r₀ with mem := none, compactions := 0 } = r at h
  split
  · rename_i hr
    exact ⟨h.max, fun hm => (h.saved hm).1, hr.1, h.kept hr.2⟩
  · have hstack := h.stack
    cases hm : r.mem with
    | some mem =>
      rw [hm] at hstack
      exact ⟨h.max, by simp, hstack.writeLevel0Table, by simp⟩
    | none =>
      rw [hm] at hstack
      refine ⟨h.max, fun hm' => (h.saved hm').1, by simpa using hstack, fun hm' => ?_⟩
      have hlen := congrArg List.length (h.kept (h.saved hm').2).2
      rw [hm, MemTable.length_insertInto] at hlen
      exact List.length_eq_zero_iff.1 (by simpa using hlen.symm)

/-! ## Recovery -/

/-- A database without threads that has `kept` behind it. -/
structure Recovered (s : State) (kept : Journal) (saved : Nat) : Prop where
  stack : Stack (sources s.tables s.mem s.imm s.files) kept.flatten
  last : s.lastSequence = max saved kept.flatten.length
  threads : ∀ c, s.threads c = .idle
  inv : saved ≤ kept.flatten.length → Inv s kept []

/-- The descriptor knows of what the files have. -/
theorem le_savedSequence {filed saved all : Nat} {written : Bool} (hle : filed ≤ all)
    (hnot : written = false → filed ≤ saved) :
    filed ≤ if written = true then max saved all else saved := by
  cases written with
  | true => exact (hle.trans (Nat.le_max_right _ _)).trans_eq (if_pos rfl).symm
  | false => exact (hnot rfl).trans_eq (if_neg (by decide)).symm

/-- It knows of nothing that is lost. -/
theorem savedSequence_le {saved all : Nat} {written : Bool} (hle : saved ≤ all) :
    (if written = true then max saved all else saved) ≤ all := by
  split
  · exact max_le hle le_rfl
  · exact hle

theorem recover_spec {st : Storage} {todo : List BatchOp} {base : Journal} {old new : List Journal}
    (h : Logs st todo base old new) (crc : Crc) (full : MemTable → Bool)
    (reuseLogs newManifest : Bool) (n : Nat) :
    ∃ k ≤ st.log.length,
      Recovered (recover crc full reuseLogs newManifest n st)
        (base ++ old.flatten ++ (new.take k).flatten) st.savedSequence ∧
      (Log.addRecords crc 0 (st.log.take k)).length ≤ n ∧
      ∀ j ≤ st.log.length, (Log.addRecords crc 0 (st.log.take j)).length ≤ n → j ≤ k := by
  obtain ⟨k, hk, hread, hfits, hmax⟩ := recordsOf_take crc st.log n
  refine ⟨k, hk, ?_, hfits, hmax⟩
  generalize hkept : base ++ old.flatten ++ (new.take k).flatten = kept
  have hlen : kept.flatten = base.flatten ++ old.flatten.flatten ++ (new.take k).flatten.flatten := by
    rw [← hkept, List.flatten_append, List.flatten_append]
  obtain ⟨hmax1, hsave1, hmem1⟩ := recoverLogFile_spec full base.flatten.length
    ⟨st.files, 0, newManifest⟩ false (recordsOf_addRecords crc st.immLog) h.files
    (Nat.max_eq_left (Nat.zero_le _)) h.immLog
  generalize hr1 : recoverLogFile crc full false (Log.addRecords crc 0 st.immLog)
    ⟨st.files, 0, newManifest⟩ = r1 at hmax1 hsave1 hmem1
  obtain ⟨r1, mem1⟩ := r1
  cases mem1 with
  | some t => cases hmem1.1
  | none =>
    have hlog := h.log.take k
    rw [List.flatten_append] at hlog
    obtain ⟨hmax2, hsave2, hmem2⟩ := recoverLogFile_spec full _ _ reuseLogs hread hmem1.1 hmax1 hlog
    simp only [recover, hr1, hread]
    generalize recoverLogFile crc full reuseLogs ((Log.addRecords crc 0 st.log).take n) r1 = r2
      at hmax2 hsave2 hmem2
    obtain ⟨r2, mem2⟩ := r2
    rw [← hlen] at hmax2
    have hlast : (if st.savedSequence < r2.maxSequence then r2.maxSequence else st.savedSequence) =
        max st.savedSequence kept.flatten.length := by
      have := h.saved
      simp only at hmax2
      split <;> omega
    simp only [hlast]
    have hbase := h.saved
    cases mem2 with
    | none =>
      obtain ⟨hfiles, hnone⟩ := hmem2
      rw [← hlen] at hfiles
      refine ⟨hfiles.push, rfl, fun _ => rfl, fun hle => ⟨Nat.max_eq_right hle, by
        rw [List.append_nil]; exact hfiles.push, by simp, .nil, by simp, rfl, fun _ => trivial,
        kept, [], [], by simp, ⟨hfiles, rfl, ⟨[], rfl, rfl⟩, rfl, rfl, ?_⟩, savedSequence_le hle⟩⟩
      refine le_savedSequence le_rfl fun hm => ?_
      rw [hlen, hmem1.2 (hsave2 hm), hnone hm]
      simpa using hbase
    | some t =>
      obtain ⟨-, hfiles, rfl⟩ := hmem2
      have hstack := hmem1.1
      simp only at hfiles hstack
      rw [← hfiles] at hstack
      have hall : Stack (MemTable.insertInto [] ((base.flatten ++ old.flatten.flatten).length + 1)
          (new.take k).flatten.flatten :: r2.files) kept.flatten := ⟨_, _, hlen, rfl, hstack⟩
      have hstack' : Stack r2.files (base ++ old.flatten).flatten := by
        rwa [List.flatten_append]
      refine ⟨hall, rfl, fun _ => rfl, fun hle => ⟨Nat.max_eq_right hle, by
        rw [List.append_nil]; exact hall, by simp, .nil, by simp, rfl, fun _ => trivial,
        base ++ old.flatten, [], new.take k, by simpa using hkept.symm,
        ⟨hstack', rfl, ⟨(new.take k).flatten.flatten, ?_, ?_⟩, rfl, ?_, ?_⟩, savedSequence_le hle⟩⟩
      · simp only [List.flatten_nil, List.append_nil, List.flatten_append, Option.getD_some]
      · simp [State.logged, State.todo]
      · simpa [State.logged] using h.log.take k
      · refine le_savedSequence ?_ fun hm => ?_
        · rw [← hkept]
          simp
        · rw [List.flatten_append, hmem1.2 (hsave2 hm)]
          simpa using hbase

/-! ## Crashes -/

/-- What a lookup finds while nothing else happens. -/
def State.contents (s : State) : Store := fun key =>
  (lookup key s.lastSequence (sources s.tables s.mem s.imm s.files)).getD none

/-- The records of the groups that are visible. -/
def State.published (s : State) : List Bytes :=
  match s.group with
  | some ⟨_, _, .insert _ _⟩ => s.log.dropLast
  | _ => s.log

theorem published_eq {new : List Journal} (hl : Logged n s.log (new ++ s.logged)) :
    s.published = s.log.take new.length := by
  have hlen := hl.length
  rw [List.length_append] at hlen
  cases hg : s.group with
  | none =>
    rw [(logged_none hg).1, List.length_nil, Nat.add_zero] at hlen
    simp only [State.published, hg]
    rw [← hlen, List.take_length]
  | some g =>
    obtain ⟨count, batch, stage⟩ := g
    cases stage with
    | log =>
      rw [(logged_log hg rfl).1, List.length_nil, Nat.add_zero] at hlen
      simp only [State.published, hg]
      rw [← hlen, List.take_length]
    | insert todo seq =>
      rw [(logged_insert hg rfl).1, List.length_singleton] at hlen
      simp only [State.published, hg]
      rw [List.dropLast_eq_take, hlen, Nat.add_sub_cancel]

/-- A group that is logged may be executed although nobody has seen it. -/
theorem Inv.exec_logged (h : Inv s hist fresh) (i : Nat) :
    ∃ ph, AtomicRun applyJournal (hist, phases s) [] (hist ++ (s.logged.take i).flatten, ph) := by
  rw [State.logged]
  split
  · rename_i count batch todo seq hg
    cases i with
    | zero =>
      rw [List.take_zero, List.flatten_nil, List.append_nil]
      exact ⟨_, .refl⟩
    | succ i =>
      obtain ⟨ph, hrun, -⟩ := h.execGroup ⟨count, batch, .insert todo seq⟩
      rw [List.take_succ_cons, List.take_nil, List.flatten_singleton]
      exact ⟨ph, hrun⟩
  · rw [List.take_nil, List.flatten_nil, List.append_nil]
    exact ⟨_, .refl⟩

/-- Where labels lead to, and what is seen of it. -/
def after (s : State) (labels : List Label) : State × List (Seen Nat DbOp DbRes) :=
  (exec step Fit s labels).getD (s, [])

theorem steps_after {labels : List Label} (h : (exec step Fit s labels).isSome) :
    Steps step Fit s (after s labels).2 (after s labels).1 := by
  obtain ⟨r, hr⟩ := Option.isSome_iff_exists.1 h
  rw [after, hr]
  exact Steps.of_exec hr

/-- A write that returns, and another one that is in the log. -/
def twoWrites : List Label :=
  [.thread 0 (.write [.put [1] [10]]), .thread 0 .turn, .thread 0 .turn, .thread 0 .turn,
    .thread 0 .turn, .thread 0 .turn, .thread 0 .turn,
    .thread 1 (.write [.put [2] [20], .delete [1]]), .thread 1 .turn, .thread 1 .turn,
    .thread 1 .turn, .thread 1 .turn]

theorem Recovered.contents {kept : Journal} {saved : Nat} (h : Recovered s kept saved) :
    s.contents = kept.store := by
  funext key
  rw [State.contents, h.stack.lookup, h.last, List.take_of_length_le (Nat.le_max_right _ _),
    Journal.store, writeAll_lastOn]

/-- **What a crash leaves is a prefix.** `filed`, `old` and `groups` are the batches that took effect in
the run, in the order in which they did: those of the table files, and the groups of the records of the
two logs. Wherever the last log is cut off, the recovered database holds those of the files and of the
older log and behind them the groups of the first `k` records, which are those that are left in full. -/
theorem recover_prefix {h : List (Seen Nat DbOp DbRes)} (hr : Steps step Fit init h s) (crc : Crc)
    (full : MemTable → Bool) (reuseLogs newManifest : Bool) (n : Nat) :
    ∃ (filed : Journal) (old groups : List Journal) (ph : Nat → Phase DbOp DbRes),
      AtomicRun applyJournal ([], fun _ => .idle) h (filed ++ old.flatten ++ groups.flatten, ph) ∧
      Logs s.toStorage s.todo filed old groups ∧
      ∃ k ≤ s.log.length,
        (recover crc full reuseLogs newManifest n s.toStorage).contents =
          (filed ++ old.flatten ++ (groups.take k).flatten).store ∧
        (Log.addRecords crc 0 (s.log.take k)).length ≤ n ∧
        ∀ j ≤ s.log.length, (Log.addRecords crc 0 (s.log.take j)).length ≤ n → j ≤ k := by
  obtain ⟨y, hrun, hist, fresh, hinv, rfl⟩ := run_sim (x := ([], fun _ => .idle))
    ⟨[], [], inv_init, rfl⟩ hr
  obtain ⟨base, old, new, hhist, hlogs, -⟩ := hinv.logs
  obtain ⟨k, hk, hrec, hfits, hmax⟩ := recover_spec hlogs crc full reuseLogs newManifest n
  -- a group that is logged but not visible counts as one that took effect
  obtain ⟨ph, hexec⟩ := hinv.exec_logged s.logged.length
  have hall := hrun.trans hexec
  rw [List.append_nil, List.take_length, hhist, List.append_assoc, ← List.flatten_append] at hall
  exact ⟨base, old, new ++ s.logged, ph, hall, hlogs, k, hk, hrec.contents, hfits, hmax⟩

/-- Of the second write 6 bytes are left. -/
theorem recover_prefix_torn :
    ∃ (filed : Journal) (old groups : List Journal) (ph : Nat → Phase DbOp DbRes),
      AtomicRun applyJournal ([], fun _ => .idle) (after init twoWrites).2
        (filed ++ old.flatten ++ groups.flatten, ph) ∧
      Logs (after init twoWrites).1.toStorage (after init twoWrites).1.todo filed old groups ∧
      ∃ k ≤ (after init twoWrites).1.log.length,
        (recover (.portable 0) (fun _ => false) true false 30
          (after init twoWrites).1.toStorage).contents =
          (filed ++ old.flatten ++ (groups.take k).flatten).store ∧
        (Log.addRecords (.portable 0) 0 ((after init twoWrites).1.log.take k)).length ≤ 30 ∧
        ∀ j ≤ (after init twoWrites).1.log.length,
          (Log.addRecords (.portable 0) 0 ((after init twoWrites).1.log.take j)).length ≤ 30 → j ≤ k :=
  recover_prefix (steps_after (by decide +kernel)) (.portable 0) (fun _ => false) true false 30

/-- Lives of a database, one behind the other. Each but the last ends with a crash that leaves the
records of the visible groups in the log and anything of one behind them. A log that is torn is not
reused, but for the last life. -/
inductive Lives (crc : Crc) (full : MemTable → Bool) :
    State → List (List (Seen Nat DbOp DbRes)) → Prop
  | run {s s' : State} {h : List (Seen Nat DbOp DbRes)} (hr : Steps step Fit s h s') :
      Lives crc full s [h]
  | crash {s s' : State} {h : List (Seen Nat DbOp DbRes)} {hs : List (List (Seen Nat DbOp DbRes))}
      (n : Nat) (reuseLogs newManifest : Bool) (hr : Steps step Fit s h s')
      (hpub : (Log.addRecords crc 0 s'.published).length ≤ n)
      (hwhole : reuseLogs = true → 1 < hs.length →
        n = (Log.addRecords crc 0 s'.published).length ∨ (Log.addRecords crc 0 s'.log).length ≤ n)
      (hl : Lives crc full (recover crc full reuseLogs newManifest n s'.toStorage) hs) :
      Lives crc full s (h :: hs)

theorem Lives.durable {hs : List (List (Seen Nat DbOp DbRes))} (hl : Lives crc full s hs)
    (hinv : Inv s hist []) (hidle : ∀ c, s.threads c = .idle) : Durable applyJournal hist hs := by
  have hphases : ∀ {s : State}, (∀ c, s.threads c = .idle) → phases s = fun _ => .idle := by
    intro s hs
    funext c
    rw [phases, hs]
    rfl
  induction hl generalizing hist with
  | run hr =>
    obtain ⟨y, hrun, -⟩ := run_sim ⟨hist, [], hinv, rfl⟩ hr
    rw [hphases hidle] at hrun
    exact ⟨_, _, hrun, trivial⟩
  | @crash s s' h hs n reuseLogs newManifest hr hpub _ _ ih =>
    obtain ⟨y, hrun, hist', fresh, hinv', rfl⟩ := run_sim ⟨hist, [], hinv, rfl⟩ hr
    rw [hphases hidle] at hrun
    obtain ⟨base, old, new, hhist, hlogs, hsaved⟩ := hinv'.logs
    obtain ⟨k, hk, hrec, -, hmax⟩ := recover_spec hlogs crc full reuseLogs newManifest n
    rw [published_eq hlogs.log] at hpub
    have hnew : new.length ≤ k := hmax _ (by
      rw [hlogs.log.length, List.length_append]
      exact Nat.le_add_right _ _) hpub
    -- the groups that are visible, and perhaps the one behind them
    have hkept : base ++ old.flatten ++ ((new ++ s'.logged).take k).flatten =
        hist' ++ (s'.logged.take (k - new.length)).flatten := by
      rw [List.take_append, List.take_of_length_le hnew, List.flatten_append, hhist, List.append_assoc]
      simp only [List.append_assoc]
    rw [hkept] at hrec
    obtain ⟨ph, hexec⟩ := hinv'.exec_logged (k - new.length)
    have hall := hrun.trans hexec
    rw [List.append_nil] at hall
    have hle : s'.savedSequence ≤ (hist' ++ (s'.logged.take (k - new.length)).flatten).flatten.length := by
      rw [List.flatten_append, List.length_append]
      exact hsaved.trans (Nat.le_add_right _ _)
    exact ⟨_, ph, hall, ih (hrec.inv hle) hrec.threads⟩

/-- **LevelDB is durable**: through any number of crashes each life goes on with what the one before
has left, every write that has returned and every batch as a whole. -/
theorem leveldb_durable {hs : List (List (Seen Nat DbOp DbRes))} (hl : Lives crc full init hs) :
    Durable applyDb (fun _ => none) hs :=
  (hl.durable inv_init fun _ => rfl).map applyJournal_store

/-- The second write is torn by a crash, and nobody has seen it. -/
theorem leveldb_durable_torn :
    ∃ hs, Lives (.portable 0) (fun _ => false) init hs ∧
      hs = [[.call 0 (.write [.put [1] [10]]), .ret 0 (.write [.put [1] [10]]) .ok,
          .call 1 (.write [.put [2] [20], .delete [1]])],
        [.call 0 (.get [1]), .ret 0 (.get [1]) (.got (some [10])),
          .call 0 (.get [2]), .ret 0 (.get [2]) (.got none)]] ∧
      Durable applyDb (fun _ => none) hs := by
  have h1 : (exec step Fit init twoWrites).isSome := by decide +kernel
  have h2 : (exec step Fit (recover (.portable 0) (fun _ => false) false false 30
      (after init twoWrites).1.toStorage)
    [.thread 0 (.get [1]), .thread 0 .turn, .thread 0 .turn, .thread 0 .turn, .thread 0 .turn,
      .thread 0 .turn, .thread 0 (.get [2]), .thread 0 .turn, .thread 0 .turn, .thread 0 .turn,
      .thread 0 .turn, .thread 0 .turn]).isSome := by decide +kernel
  have hl : Lives (.portable 0) (fun _ => false) init _ :=
    .crash 30 false false (steps_after h1) (by decide +kernel) (fun h => by cases h)
      (.run (steps_after h2))
  exact ⟨_, hl, by decide +kernel, leveldb_durable hl⟩

end

end PMRAccess.Leveldb.Db
