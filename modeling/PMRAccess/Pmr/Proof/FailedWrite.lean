import PMRAccess.Pmr.Proof.Flush

/-!
# Flushes whose database write fails

`LevelDB::PutBatch` drops the status of `DB::Write` and returns true, and the clerk does not look at
the result anyway: behind a failed write it erases the keys of the batch from the index, drops the
batch and hands the chunk over as behind any other. `dbStep` is `step` with the outcome of the write
chosen by the environment; a write that fails leaves the database as it was.

`cover_dbRun`: the invariants of the runs in which clients write only keys that are pending in no
other connection do not depend on what the writes do. `failed_flush_iff`: in these runs a flush
keeps what a `GET` of any key finds exactly if the write succeeds or would have changed nothing.
-/

namespace PMRAccess.Pmr

open Lib

/-! ## Steps with failing writes -/

/-- `LevelDB::PutBatch`, whose `DB::Write` succeeds or not. -/
def levelPutBatch (ok : Bool) (db : Store) (keyBatch : List Bytes) (metas : List Meta) (buf : Buf) :
    Store × Bool :=
  (if ok then db.putBatch keyBatch metas buf else db, true)

inductive DbLabel
  | act (l : Label)
  /-- a clerk calls `PutBatch`, and the write inside it succeeds or not -/
  | putBatch (c : Nat) (ok : Bool)

def dbStep (s : State) : DbLabel → Option (State × List Event)
  | .act l => step s l
  | .putBatch c ok =>
    if s.server.aborted then none
    else
      match s.conns[c]? with
      | none => none
      | some k =>
        match k.pc with
        | .putBatch closing tmp =>
          let (db, _) := levelPutBatch ok s.server.db k.clerk.keyBatch k.clerk.metas tmp
          some (⟨{ s.server with db }, s.conns.set c { k with pc := .erase closing tmp 0 }⟩, [])
        | _ => none

/-- The guard of the calls; any outcome of a write. -/
def DbApart (s : State) : DbLabel → Prop
  | .act l => Apart s l
  | .putBatch _ _ => True

instance (s : State) (l : DbLabel) : Decidable (DbApart s l) :=
  match l with
  | .act l => inferInstanceAs (Decidable (Apart s l))
  | .putBatch _ _ => inferInstanceAs (Decidable True)

def DbRun (P : State → DbLabel → Prop) (mem file : Buf) (db : Store) : List Event → State → Prop :=
  Steps dbStep P (init mem file db)

/-! ## Invariants -/

/-- The state with another database. -/
def State.withDb (s : State) (db : Store) : State := { s with server := { s.server with db } }

section
variable {h : History} {s s' : State} {c : Nat} {k : Conn} {es : List Event} {db : Store}

theorem Own.withDb (h : Own s) (db : Store) : Own (s.withDb db) :=
  ⟨h.size, h.conn, h.bit, h.excl, h.nodup, h.uring, h.disj⟩

theorem Data.withDb (hd : Data h s) (db : Store) : Data h (s.withDb db) :=
  ⟨hd.own.withDb db, hd.fresh, hd.sync, hd.mem, hd.tmp, hd.since⟩

theorem Index.withDb (hi : Index h s) (db : Store) : Index h (s.withDb db) := by
  intro key m hm
  obtain ⟨c, k, i, r, hs, ts, he⟩ := hi key m hm
  exact ⟨c, k, i, r, hs, ts, he.last, he.conn, he.holds, he.indexed, he.key_eq, he.newest,
    he.meta_eq, he.pending⟩

theorem Cover.withDb (hc : Cover h s) (db : Store) : Cover h (s.withDb db) := ⟨hc.apart, hc.index⟩

/-- Whatever the write does, the rest of the state is as behind a step. -/
theorem dbStep_putBatch {ok : Bool} (hs : dbStep s (.putBatch c ok) = some (s', es)) :
    ∃ s₁ db, step s (.conn c (.clerk false)) = some (s₁, es) ∧ s' = s₁.withDb db := by
  simp only [dbStep] at hs
  split at hs
  · cases hs
  rename_i ha
  split at hs
  · cases hs
  rename_i k hk
  split at hs
  · rename_i closing tmp hp
    cases hs
    refine ⟨⟨{ s.server with db := s.server.db.putBatch k.clerk.keyBatch k.clerk.metas tmp },
      s.conns.set c { k with pc := .erase closing tmp 0 }⟩, _, ?_, rfl⟩
    simp [step, ha, hk, connStep, clerkStep, hp]
  · cases hs

theorem cover_dbRun {mem file : Buf} {tr : List Event} (hr : DbRun DbApart mem file db tr s) :
    Data (hist tr) s ∧ Index (hist tr) s ∧ Cover (hist tr) s := by
  refine hr.invariant
    (I := fun tr s => Data (hist tr) s ∧ Index (hist tr) s ∧ Cover (hist tr) s) ?_ ?_
  · exact ⟨data_init mem file db, fun _ _ hm => by simp [init] at hm, by simp [init], by simp [init]⟩
  rintro tr s l s' es - ⟨hd, hi, hc⟩ hp hs
  rw [hist_append]
  have hstep : ∀ {l s'}, Apart s l → step s l = some (s', es) →
      Data ((hist tr).addAll es) s' ∧ Index ((hist tr).addAll es) s' ∧
        Cover ((hist tr).addAll es) s' :=
    fun hg hs => ⟨data_step hd hg.1 hs, index_step hd hi hs, cover_step hd hc hg hs⟩
  cases l with
  | act l => exact hstep hp hs
  | putBatch c ok =>
    obtain ⟨s₁, db', hs₁, rfl⟩ := dbStep_putBatch hs
    have hg : Apart s (.conn c (.clerk false)) :=
      ⟨by simp [Label.Fits, Label.call?], by simp [Label.write?]⟩
    obtain ⟨h1, h2, h3⟩ := hstep hg hs₁
    exact ⟨h1.withDb db', h2.withDb db', h3.withDb db'⟩

/-! ## The flush -/

/-- Steps without an outcome to choose. -/
theorem exec_act : ∀ {ls : List Label} {s s' : State} {es : List Event},
    exec step Any s ls = some (s', es) →
      exec dbStep (fun _ _ => True) s (ls.map .act) = some (s', es)
  | [], _, _, _, h => h
  | l :: ls, s, s', es, h => by
    simp only [List.map_cons, exec, if_true, dbStep] at h ⊢
    rw [if_pos (show Any s l from trivial)] at h
    split at h
    · rename_i s₁ es₁ hs₁
      split at h
      · rename_i s₂ es₂ hs₂
        simp only [exec_act hs₂]
        exact h
      · cases h
    · cases h

/-- The flush, run without other threads in between. -/
def flushLabels (c : Nat) (ok : Bool) (n : Nat) : List DbLabel :=
  .putBatch c ok :: (Sched.clerk c n).map .act

theorem exec_flush_db {closing ok : Bool} {tmp : Buf} (hk : s.conns[c]? = some k)
    (hp : k.pc = .putBatch closing tmp) (ha : s.server.aborted = false) :
    exec dbStep (fun _ _ => True) s (flushLabels c ok k.clerk.keyBatch.length) =
      some (⟨{ s.server with
        db := (levelPutBatch ok s.server.db k.clerk.keyBatch k.clerk.metas tmp).1
        map := eraseAll s.server.map k.clerk.keyBatch },
        s.conns.set c { k with pc := .erase closing tmp k.clerk.keyBatch.length }⟩, []) := by
  have hstep : dbStep s (.putBatch c ok) = some (⟨{ s.server with
      db := (levelPutBatch ok s.server.db k.clerk.keyBatch k.clerk.metas tmp).1 },
      s.conns.set c { k with pc := .erase closing tmp 0 }⟩, []) := by
    simp [dbStep, ha, hk, hp]
  have hrest := exec_erase hk closing tmp k.clerk.keyBatch.length 0 { s.server with
    db := (levelPutBatch ok s.server.db k.clerk.keyBatch k.clerk.metas tmp).1 } ha (Nat.zero_add _)
  rw [Nat.zero_add] at hrest
  exact exec_cons trivial hstep (exec_act hrest)

end

/-- A lookup behind the erasures. -/
theorem lookup_erased (sv : Server) (keys : List Bytes) (db : Store) (key : Bytes)
    (hdb : key ∉ keys → db key = sv.db key) :
    { sv with db, map := eraseAll sv.map keys }.lookup key =
      if key ∈ keys then db key else sv.lookup key := by
  by_cases hkey : key ∈ keys
  · simp only [Server.lookup, eraseAll_apply, if_pos hkey]
  · simp only [Server.lookup, eraseAll_apply, if_neg hkey, hdb hkey]

/-- **A flush keeps what can be read** exactly if its database write succeeds, or would have changed
nothing; in the runs in which clients write only keys that are pending in no other connection,
whatever the writes before it did. But for the database, the outcome of the write leaves no
trace. -/
theorem failed_flush_iff {mem file : Buf} {db : Store} {tr : List Event} {s : State}
    (hr : DbRun DbApart mem file db tr s) (ha : s.server.aborted = false) {c : Nat} {k : Conn}
    {closing : Bool} {tmp : Buf} (hk : s.conns[c]? = some k) (hp : k.pc = .putBatch closing tmp)
    (ok : Bool) :
    ∃ s', exec dbStep (fun _ _ => True) s (flushLabels c ok k.clerk.keyBatch.length) = some (s', []) ∧
      s'.conns[c]? = some { k with pc := .erase closing tmp k.clerk.keyBatch.length } ∧
      (∃ s₁, exec dbStep (fun _ _ => True) s (flushLabels c true k.clerk.keyBatch.length) =
        some (s₁, []) ∧ s' = s₁.withDb s'.server.db) ∧
      ((∀ key, s'.server.lookup key = s.server.lookup key) ↔
        ok = true ∨
          s.server.db.putBatch k.clerk.keyBatch k.clerk.metas tmp = s.server.db) := by
  obtain ⟨hd, hi, hc⟩ := cover_dbRun hr
  have hlook := hc.lookup_batch hd hi hk hp s.server.db
  refine ⟨_, exec_flush_db hk hp ha, conns_set_self hk, ⟨_, exec_flush_db hk hp ha, rfl⟩, ?_⟩
  -- the database behind the write
  obtain ⟨db', hdb'⟩ : ∃ db',
      (levelPutBatch ok s.server.db k.clerk.keyBatch k.clerk.metas tmp).1 = db' := ⟨_, rfl⟩
  have hother : ∀ key, key ∉ k.clerk.keyBatch → db' key = s.server.db key := by
    intro key hkey
    rw [← hdb']
    cases ok with
    | false => rfl
    | true => exact (hlook key).2 hkey
  rw [hdb']
  simp only [lookup_erased s.server k.clerk.keyBatch db' _ (hother _)]
  constructor
  · intro h
    cases ok with
    | true => exact .inl rfl
    | false =>
      obtain rfl : s.server.db = db' := hdb'
      refine .inr (funext fun key => ?_)
      by_cases hkey : key ∈ k.clerk.keyBatch
      · have hk' := h key
        rw [if_pos hkey, (hlook key).1 hkey] at hk'
        exact hk'.symm
      · exact (hlook key).2 hkey
  · intro h key
    by_cases hkey : key ∈ k.clerk.keyBatch
    · have hput : db' = s.server.db.putBatch k.clerk.keyBatch k.clerk.metas tmp := by
        rw [← hdb']
        cases ok with
        | true => rfl
        | false => exact (h.resolve_left (by simp)).symm
      rw [if_pos hkey, (hlook key).1 hkey, hput]
    · rw [if_neg hkey]

/-- The flush of a close, with a write that succeeds behind an earlier one that has failed. -/
theorem failed_flush_second :
    ∃ tr s s' k, DbRun DbApart Sched.zeros Sched.zeros (fun _ => none) tr s ∧ s.conns[1]? = some k ∧
      exec dbStep (fun _ _ => True) s (flushLabels 1 true k.clerk.keyBatch.length) = some (s', []) ∧
      s.server.lookup [1] = none ∧ s.server.lookup [2] = some [20] ∧
      s'.server.lookup [2] = some [20] := by
  have hr : DbRun DbApart Sched.zeros Sched.zeros (fun _ => none) _ _ :=
    Steps.of_exec_get ((Sched.connect 0 0 ++ Sched.connect 1 1 ++ Sched.write 0 ⟨.put, [1], [10]⟩ ++
      Sched.write 1 ⟨.put, [2], [20]⟩ ++ (Sched.close 0 1).take 2).map .act ++
      flushLabels 0 false 1 ++ ((Sched.close 1 1).take 2).map .act) (by decide +kernel)
  obtain ⟨s', he, -, -, hl⟩ := failed_flush_iff hr rfl (c := 1) rfl rfl true
  exact ⟨_, _, s', _, hr, rfl, he, by decide, by decide, (hl.2 (.inl rfl) [2]).trans (by decide)⟩

/-- The record of a client, acknowledged, is lost with the failed write of its close. -/
theorem failed_flush_loses :
    ∃ tr s s' k, DbRun DbApart Sched.zeros Sched.zeros (fun _ => none) tr s ∧
      (hist tr).acked = [(0, ⟨.put, [1], [10]⟩)] ∧ s.conns[0]? = some k ∧
      exec dbStep (fun _ _ => True) s (flushLabels 0 false k.clerk.keyBatch.length) = some (s', []) ∧
      s.server.lookup [1] = some [10] ∧ s'.server.lookup [1] = none ∧ s'.server.map [1] = none := by
  have hr : DbRun DbApart Sched.zeros Sched.zeros (fun _ => none) _ _ :=
    Steps.of_exec_get ((Sched.connect 0 0 ++ Sched.write 0 ⟨.put, [1], [10]⟩ ++
      (Sched.close 0 1).take 2).map .act) (by decide +kernel)
  exact ⟨_, _, _, _, hr, by decide, rfl, exec_flush_db rfl rfl rfl, by decide, by decide, by decide⟩

end PMRAccess.Pmr
