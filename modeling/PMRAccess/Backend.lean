import Mathlib.Data.List.AList
import Mathlib.Data.List.Induction
import PMRAccess.Database

/-!
# The two back ends (`database/db.h`)

`DBType` are the virtual functions of the class; `LevelDB` goes through a `leveldb::WriteBatch`,
`CuckooDB` calls the vendored hash map. `leveldb::DB` is taken as the map it documents itself to be;
of `cuckoohash_map` the occupied slots are kept, one per key (`AList`), not the buckets they lie in.

`Represents`: the updates of a back end act on the map it stands for. Both do (`levelDB_represents`,
`cuckooDB_represents`), so after the same calls they stand for the same map (`abs_after`), the one
the calls themselves describe (`lastSet`). They differ in `Get`: `cuckoohash_map::find` has its
`throw` commented out and returns an empty string, and `CuckooDB::Get` returns true in any case.
-/

namespace PMRAccess

open Lib

/-! ## The libraries -/

namespace Leveldb

/-- The two outcomes of `leveldb::Status` that a correct map has. -/
inductive Status
  | ok
  | notFound
  deriving DecidableEq, Repr

/-- An entry of a `leveldb::WriteBatch`. -/
inductive Entry
  | put (key val : Bytes)
  | delete (key : Bytes)

def Entry.apply (db : Store) : Entry → Store
  | .put key val => db.put key val
  | .delete key => db.delete key

/-- `DB::Write`: the entries of the batch, in order. -/
def write (db : Store) (batch : List Entry) : Status × Store := (.ok, batch.foldl Entry.apply db)

/-- `DB::Get`; `value` is written only when the key is found. -/
def get (db : Store) (key value : Bytes) : Status × Bytes :=
  match db key with
  | some v => (.ok, v)
  | none => (.notFound, value)

end Leveldb

/-- `cuckoohash_map<std::string, std::string>`: its occupied slots. -/
abbrev HashTable := AList fun _ : Bytes => Bytes

namespace HashTable

def insertOrAssign (t : HashTable) (key val : Bytes) : HashTable := t.insert key val

def erase (t : HashTable) (key : Bytes) : HashTable := AList.erase key t

/-- `find(key)`: a default-constructed string when the key is not in the table. -/
def find (t : HashTable) (key : Bytes) : Bytes :=
  match t.lookup key with
  | some v => v
  | none => []

end HashTable

/-! ## The back ends -/

/-- The arguments of a `PutBatch`: a `Meta` for every key, and the values inside the buffer, whose
`length` is an `int`. -/
structure KeyBatch where
  keyBatch : List Bytes
  metas : List Meta
  buf : Buf
  length_metas : metas.length = keyBatch.length
  fits : ∀ m ∈ metas, m.fileOffset + m.keySize + m.valueSize < 2 ^ 31

/-- The keys and values of a batch. -/
def KeyBatch.pairs (b : KeyBatch) : List (Bytes × Bytes) :=
  (b.keyBatch.zip b.metas).map fun p => (p.1, Store.batchVal b.buf p.2)

/-- The virtual functions of `DBType`. `Get` is given what the caller's string holds and returns
what it holds afterwards. -/
structure DBType (σ : Type) where
  init : σ
  put : σ → Bytes → Bytes → Bool × σ
  get : σ → Bytes → Bytes → Bool × Bytes
  update : σ → Bytes → Bytes → Bool × σ
  delete : σ → Bytes → Bool × σ
  putBatch : σ → KeyBatch → Bool × σ

def LevelDB : DBType Store where
  init := fun _ => none
  put db key val :=
    let (s, db) := Leveldb.write db [.put key val]
    (s = .ok, db)
  get db key val :=
    let (s, val) := Leveldb.get db key val
    (s = .ok, val)
  update db key val :=
    let (s, db) := Leveldb.write db [.put key val]
    (s = .ok, db)
  delete db key :=
    let (s, db) := Leveldb.write db [.delete key]
    (s = .ok, db)
  putBatch db b :=
    -- the status of the write is dropped
    let (_, db) := Leveldb.write db (b.pairs.map fun p => .put p.1 p.2)
    (true, db)

def CuckooDB : DBType HashTable where
  init := ∅
  put t key val := (true, t.insertOrAssign key val)
  get t key _ := (true, t.find key)
  update t key val := (true, t.insertOrAssign key val)
  delete t key := (true, t.erase key)
  putBatch t b := (true, b.pairs.foldl (fun t p => t.insertOrAssign p.1 p.2) t)

/-! ## Runs -/

/-- A call; a `Get` with the contents of the string it is given. -/
inductive DbCall
  | put (key val : Bytes)
  | get (key val : Bytes)
  | update (key val : Bytes)
  | delete (key : Bytes)
  | putBatch (b : KeyBatch)

/-- What a call returns. -/
inductive DbResult
  | done (ok : Bool)
  | got (ok : Bool) (val : Bytes)
  deriving DecidableEq, Repr

namespace DBType

variable {σ : Type} (D : DBType σ)

def call (s : σ) : DbCall → DbResult × σ
  | .put key val => ((D.put s key val).map .done id)
  | .get key val => (.got (D.get s key val).1 (D.get s key val).2, s)
  | .update key val => ((D.update s key val).map .done id)
  | .delete key => ((D.delete s key).map .done id)
  | .putBatch b => ((D.putBatch s b).map .done id)

/-- The state after a sequence of calls. -/
def after (s : σ) (calls : List DbCall) : σ := calls.foldl (fun s c => (D.call s c).2) s

/-- What the calls of a sequence return. -/
def resultsFrom (s : σ) : List DbCall → List DbResult
  | [] => []
  | c :: calls => (D.call s c).1 :: resultsFrom (D.call s c).2 calls

def results (calls : List DbCall) : List DbResult := D.resultsFrom D.init calls

end DBType

/-! ## What the calls say -/

/-- What a call stores under a key: nothing (`none`), that the key is absent (`some none`) or a
value. -/
def DbCall.sets (key : Bytes) : DbCall → Option (Option Bytes)
  | .put k v | .update k v => if k = key then some (some v) else none
  | .delete k => if k = key then some none else none
  | .putBatch b => ((b.pairs.filter (·.1 = key)).getLast?).map fun p => some p.2
  | .get .. => none

/-- The value the calls leave under a key: that of the last call that stored the key, unless a
`Delete` came after it. -/
def lastSet (key : Bytes) (calls : List DbCall) : Option Bytes :=
  ((calls.filterMap (DbCall.sets key)).getLast?).join

/-- Every `Get` returns true with the last value stored for its key when the key is present, and
false otherwise. -/
def MapResults (calls : List DbCall) (rs : List DbResult) : Prop :=
  ∀ (i : Nat) (key val : Bytes), calls[i]? = some (.get key val) →
    match lastSet key (calls.take i) with
    | some v => rs[i]? = some (.got true v)
    | none => ∃ v, rs[i]? = some (.got false v)

/-- The back ends agree on a sequence of calls, and both are the map. -/
structure Agree (calls : List DbCall) : Prop where
  same : CuckooDB.results calls = LevelDB.results calls
  levelDB : MapResults calls (LevelDB.results calls)
  cuckooDB : MapResults calls (CuckooDB.results calls)

/-- No `Get` of the sequence is for a key that was never stored, or was deleted since. -/
def GetsPresent (calls : List DbCall) : Prop :=
  ∀ (i : Nat) (key val : Bytes), calls[i]? = some (.get key val) →
    (lastSet key (calls.take i)).isSome

/-! ## Both back ends represent a map -/

/-- What a call does to a map. -/
def DbCall.apply (db : Store) : DbCall → Store
  | .put key val | .update key val => db.put key val
  | .delete key => db.delete key
  | .putBatch b => db.putBatch b.keyBatch b.metas b.buf
  | .get .. => db

/-- The updates of a back end succeed and act on the map that its states stand for. -/
structure DBType.Represents {σ : Type} (D : DBType σ) (abs : σ → Store) : Prop where
  init : abs D.init = fun _ => none
  put : ∀ s key val, ∃ s', D.put s key val = (true, s') ∧ abs s' = (abs s).put key val
  update : ∀ s key val, ∃ s', D.update s key val = (true, s') ∧ abs s' = (abs s).put key val
  delete : ∀ s key, ∃ s', D.delete s key = (true, s') ∧ abs s' = (abs s).delete key
  putBatch : ∀ s b, ∃ s', D.putBatch s b = (true, s') ∧
    abs s' = (abs s).putBatch b.keyBatch b.metas b.buf

theorem putBatch_pairs (db : Store) (b : KeyBatch) :
    db.putBatch b.keyBatch b.metas b.buf = b.pairs.foldl (fun db p => db.put p.1 p.2) db := by
  rw [KeyBatch.pairs, List.foldl_map]
  rfl

theorem levelDB_represents : LevelDB.Represents id where
  init := rfl
  put db key val := ⟨_, rfl, rfl⟩
  update db key val := ⟨_, rfl, rfl⟩
  delete db key := ⟨_, rfl, rfl⟩
  putBatch db b := by
    refine ⟨_, rfl, ?_⟩
    rw [putBatch_pairs, id, id, List.foldl_map]
    rfl

namespace HashTable

/-- The map a table stands for. -/
def abs (t : HashTable) : Store := fun key => t.lookup key

theorem abs_insertOrAssign (t : HashTable) (key val : Bytes) :
    (t.insertOrAssign key val).abs = t.abs.put key val := by
  funext x
  by_cases hx : x = key
  · subst hx
    exact (AList.lookup_insert t).trans (assign_self t.abs x (some val)).symm
  · exact (AList.lookup_insert_ne hx).trans (assign_of_ne hx t.abs (some val)).symm

theorem abs_erase (t : HashTable) (key : Bytes) : (t.erase key).abs = t.abs.delete key := by
  funext x
  by_cases hx : x = key
  · subst hx
    exact (AList.lookup_erase x t).trans (assign_self t.abs x none).symm
  · exact (AList.lookup_erase_ne hx).trans (assign_of_ne hx t.abs none).symm

theorem abs_foldl (ps : List (Bytes × Bytes)) (t : HashTable) :
    (ps.foldl (fun t p => t.insertOrAssign p.1 p.2) t).abs =
      ps.foldl (fun db p => db.put p.1 p.2) t.abs := by
  induction ps generalizing t with
  | nil => rfl
  | cons p ps ih => rw [List.foldl_cons, ih, abs_insertOrAssign, List.foldl_cons]

theorem find_eq (t : HashTable) (key : Bytes) : t.find key = (t.abs key).getD [] := by
  unfold find abs
  cases t.lookup key <;> rfl

end HashTable

theorem cuckooDB_represents : CuckooDB.Represents HashTable.abs where
  init := rfl
  put t key val := ⟨_, rfl, t.abs_insertOrAssign key val⟩
  update t key val := ⟨_, rfl, t.abs_insertOrAssign key val⟩
  delete t key := ⟨_, rfl, t.abs_erase key⟩
  putBatch t b := ⟨_, rfl, (HashTable.abs_foldl b.pairs t).trans (putBatch_pairs t.abs b).symm⟩

namespace DBType

variable {σ : Type} {D : DBType σ} {abs : σ → Store}

/-- One call. -/
theorem Represents.call (h : D.Represents abs) (s : σ) (c : DbCall) :
    abs (D.call s c).2 = c.apply (abs s) := by
  cases c with
  | put key val =>
    obtain ⟨s', hd, ha⟩ := h.put s key val
    rw [DBType.call, hd]
    exact ha
  | get key val => rfl
  | update key val =>
    obtain ⟨s', hd, ha⟩ := h.update s key val
    rw [DBType.call, hd]
    exact ha
  | delete key =>
    obtain ⟨s', hd, ha⟩ := h.delete s key
    rw [DBType.call, hd]
    exact ha
  | putBatch b =>
    obtain ⟨s', hd, ha⟩ := h.putBatch s b
    rw [DBType.call, hd]
    exact ha

/-- Every update returns true. -/
theorem Represents.done (h : D.Represents abs) (s : σ) {c : DbCall}
    (hc : ∀ key val, c ≠ .get key val) : (D.call s c).1 = .done true := by
  cases c with
  | put key val =>
    obtain ⟨s', hd, -⟩ := h.put s key val
    rw [DBType.call, hd]
    rfl
  | get key val => exact absurd rfl (hc key val)
  | update key val =>
    obtain ⟨s', hd, -⟩ := h.update s key val
    rw [DBType.call, hd]
    rfl
  | delete key =>
    obtain ⟨s', hd, -⟩ := h.delete s key
    rw [DBType.call, hd]
    rfl
  | putBatch b =>
    obtain ⟨s', hd, -⟩ := h.putBatch s b
    rw [DBType.call, hd]
    rfl

theorem Represents.after (h : D.Represents abs) (s : σ) (calls : List DbCall) :
    abs (D.after s calls) = calls.foldl DbCall.apply (abs s) := by
  induction calls generalizing s with
  | nil => rfl
  | cons c calls ih =>
    rw [List.foldl_cons, ← h.call]
    exact ih _

/-- The result of the `i`-th call is that of the call in the state the calls before it leave. -/
theorem getElem?_resultsFrom (s : σ) (calls : List DbCall) (i : Nat) :
    (D.resultsFrom s calls)[i]? =
      calls[i]?.map fun c => (D.call (D.after s (calls.take i)) c).1 := by
  induction calls generalizing s i with
  | nil => rfl
  | cons c calls ih =>
    cases i with
    | zero => rfl
    | succ i =>
      simp only [resultsFrom, List.getElem?_cons_succ, List.take_succ_cons]
      exact ih _ _

end DBType

/-! ## The map the calls describe -/

theorem lastSet_snoc (key : Bytes) (calls : List DbCall) (c : DbCall) :
    lastSet key (calls ++ [c]) = (c.sets key).getD (lastSet key calls) := by
  unfold lastSet
  cases hc : c.sets key with
  | none => simp [hc]
  | some v => simp [hc]

theorem foldl_put_apply (key : Bytes) (ps : List (Bytes × Bytes)) (db : Store) :
    ps.foldl (fun db p => db.put p.1 p.2) db key =
      (((ps.filter (·.1 = key)).getLast?).map fun p => some p.2).getD (db key) := by
  induction ps using List.reverseRecOn with
  | nil => rfl
  | append_singleton ps p ih =>
    rw [List.foldl_append, List.filter_append]
    by_cases hp : p.1 = key
    · subst hp
      simp [Store.put, assign_self]
    · have hf : [p].filter (·.1 = key) = [] := by simp [hp]
      rw [hf, List.append_nil, ← ih]
      exact assign_of_ne (Ne.symm hp) _ _

theorem apply_eq_sets (key : Bytes) (db : Store) (c : DbCall) :
    c.apply db key = (c.sets key).getD (db key) := by
  have hset : ∀ (k : Bytes) (v : Option Bytes), assign db k v key =
      (if k = key then some v else none).getD (db key) := by
    intro k v
    by_cases hk : k = key
    · subst hk
      rw [assign_self, if_pos rfl, Option.getD_some]
    · rw [assign_of_ne (Ne.symm hk), if_neg hk, Option.getD_none]
  cases c with
  | put k v => exact hset k (some v)
  | get k v => rfl
  | update k v => exact hset k (some v)
  | delete k => exact hset k none
  | putBatch b =>
    rw [DbCall.apply, putBatch_pairs]
    exact foldl_put_apply key b.pairs db

/-- **The contents after a sequence of calls** from the empty store are what the calls last set. -/
theorem foldl_apply_eq_lastSet (key : Bytes) (calls : List DbCall) :
    calls.foldl DbCall.apply (fun _ => none) key = lastSet key calls := by
  induction calls using List.reverseRecOn with
  | nil => rfl
  | append_singleton calls c ih =>
    rw [List.foldl_append, lastSet_snoc, ← ih]
    exact apply_eq_sets key _ c

theorem abs_after {σ : Type} {D : DBType σ} {abs : σ → Store} (h : D.Represents abs) (key : Bytes)
    (calls : List DbCall) : abs (D.after D.init calls) key = lastSet key calls := by
  rw [h.after, h.init, foldl_apply_eq_lastSet]

/-! ## Where the back ends agree -/

theorem levelDB_get (db : Store) (key val : Bytes) :
    (LevelDB.call db (.get key val)).1 =
      match db key with
      | some v => .got true v
      | none => .got false val := by
  cases hd : db key <;> simp [DBType.call, LevelDB, Leveldb.get, hd]

theorem cuckooDB_get (t : HashTable) (key val : Bytes) :
    (CuckooDB.call t (.get key val)).1 = .got true ((t.abs key).getD []) := by
  rw [← HashTable.find_eq]
  rfl

theorem levelDB_mapResults (calls : List DbCall) : MapResults calls (LevelDB.results calls) := by
  intro i key val hi
  have ha : LevelDB.after LevelDB.init (calls.take i) key = lastSet key (calls.take i) :=
    abs_after levelDB_represents key (calls.take i)
  have hr : (LevelDB.results calls)[i]? =
      some (LevelDB.call (LevelDB.after LevelDB.init (calls.take i)) (.get key val)).1 := by
    rw [DBType.results, DBType.getElem?_resultsFrom, hi, Option.map_some]
  rw [levelDB_get, ha] at hr
  cases hl : lastSet key (calls.take i) with
  | some v => rw [hr, hl]
  | none => exact ⟨val, by rw [hr, hl]⟩

/-- The result of a `Get` of `CuckooDB`. -/
theorem cuckooDB_result {calls : List DbCall} {i : Nat} {key val : Bytes}
    (hi : calls[i]? = some (.get key val)) : (CuckooDB.results calls)[i]? =
      some (.got true ((lastSet key (calls.take i)).getD [])) := by
  rw [DBType.results, DBType.getElem?_resultsFrom, hi, Option.map_some, cuckooDB_get,
    abs_after cuckooDB_represents]

theorem cuckooDB_mapResults {calls : List DbCall} (h : GetsPresent calls) :
    MapResults calls (CuckooDB.results calls) := by
  intro i key val hi
  obtain ⟨v, hv⟩ := Option.isSome_iff_exists.1 (h i key val hi)
  have hr := cuckooDB_result hi
  rw [hv] at hr ⊢
  exact hr

theorem getsPresent_of_mapResults {calls : List DbCall}
    (h : MapResults calls (CuckooDB.results calls)) : GetsPresent calls := by
  intro i key val hi
  have hm := h i key val hi
  rw [cuckooDB_result hi] at hm
  cases hl : lastSet key (calls.take i) with
  | some v => rfl
  | none =>
    rw [hl] at hm
    obtain ⟨v, hv⟩ := hm
    simp at hv

/-- The results are equal where both are the map. -/
theorem results_eq {calls : List DbCall} (h : GetsPresent calls) :
    CuckooDB.results calls = LevelDB.results calls := by
  apply List.ext_getElem?
  intro i
  cases hi : calls[i]? with
  | none =>
    rw [DBType.results, DBType.results, DBType.getElem?_resultsFrom, DBType.getElem?_resultsFrom,
      hi]
    rfl
  | some c =>
    by_cases hc : ∃ key val, c = .get key val
    · obtain ⟨key, val, rfl⟩ := hc
      obtain ⟨v, hv⟩ := Option.isSome_iff_exists.1 (h i key val hi)
      have hl := levelDB_mapResults calls i key val hi
      have hm := cuckooDB_mapResults h i key val hi
      rw [hv] at hl hm
      exact hm.trans hl.symm
    · have hc' : ∀ key val, c ≠ .get key val := fun key val he => hc ⟨key, val, he⟩
      rw [DBType.results, DBType.results, DBType.getElem?_resultsFrom, DBType.getElem?_resultsFrom,
        hi, Option.map_some, Option.map_some, cuckooDB_represents.done _ hc',
        levelDB_represents.done _ hc']

/-- **The back ends agree exactly on the sequences whose `Get`s find their key.** `LevelDB` is the
map on all of them. -/
theorem backends_agree_iff (calls : List DbCall) :
    MapResults calls (LevelDB.results calls) ∧ (Agree calls ↔ GetsPresent calls) :=
  ⟨levelDB_mapResults calls, fun h => getsPresent_of_mapResults h.cuckooDB,
    fun h => ⟨results_eq h, levelDB_mapResults calls, cuckooDB_mapResults h⟩⟩

/-- A key that is not there: `LevelDB` says so, `CuckooDB` returns true with an empty value; the
same after a `Delete`. -/
theorem backends_disagree :
    LevelDB.results [.get [1] []] = [.got false []] ∧
    CuckooDB.results [.get [1] []] = [.got true []] ∧
    ¬ Agree [.get [1] []] ∧ ¬ Agree [.put [1] [2], .delete [1], .get [1] []] := by
  refine ⟨by decide, by decide, ?_, ?_⟩
  · intro h
    exact absurd h.same (by decide)
  · intro h
    exact absurd h.same (by decide)

end PMRAccess
