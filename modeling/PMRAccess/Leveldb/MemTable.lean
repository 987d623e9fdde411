import Mathlib.Data.List.Lex
import Mathlib.Data.Prod.Lex
import Mathlib.Order.Nat
import PMRAccess.Database
import PMRAccess.Leveldb.SkipList
import PMRAccess.Leveldb.WriteBatch

/-!
# LevelDB: the memtable (`db/dbformat.cc`, `db/memtable.cc`, `util/comparator.cc`)

An entry has an internal key: a user key, and a sequence number and a type packed into a tag. Internal
keys are in the order of the user keys, those of one user key the newest first. `MemTable.get` looks
up a key as of a sequence number: it seeks the first entry that is not newer.

`get_insertInto`: in a memtable into which operations went one behind the other, each with the next
sequence number, a key has what the last operation on it did, of those up to the snapshot
(`lastOn`). The memtable is the sorted list that the skip list implements (`add_ikeys`, `seek_ikeys`).

Sequence numbers are at most `kMaxSequenceNumber`, so a tag loses no bits.
-/

namespace PMRAccess.Leveldb

open Lib

/-! ## Keys -/

instance byteLinearOrder : LinearOrder UInt8 where
  le_refl := UInt8.le_refl
  le_trans _ _ _ := UInt8.le_trans
  le_antisymm _ _ := UInt8.le_antisymm
  le_total := UInt8.le_total
  lt_iff_le_not_ge a b := by
    rw [UInt8.not_le]
    exact ⟨fun h => ⟨UInt8.le_of_lt h, h⟩, And.right⟩
  toDecidableLE := inferInstance
  toDecidableLT := inferInstance

/-- `memcmp` of two strings of one length. -/
def memcmp : Bytes → Bytes → Int
  | x :: xs, y :: ys => if x < y then -1 else if y < x then 1 else memcmp xs ys
  | _, _ => 0

/-- `Slice::compare`, the order of `BytewiseComparator`. -/
def sliceCompare (a b : Bytes) : Int :=
  let minLen := if a.length < b.length then a.length else b.length
  let r := memcmp (a.take minLen) (b.take minLen)
  if r = 0 then
    if a.length < b.length then -1 else if a.length > b.length then 1 else r
  else r

/-- The types of entries. -/
inductive ValueType
  | deletion | value
  deriving DecidableEq, Repr

def ValueType.code : ValueType → Nat
  | deletion => 0
  | value => 1

def kValueTypeForSeek : ValueType := .value

def kMaxSequenceNumber : Nat := 2 ^ 56 - 1

def packSequenceAndType (seq : Nat) (t : ValueType) : Nat := (seq <<< 8) ||| t.code

/-- An entry of a memtable. -/
structure MemTable.Entry where
  userKey : Bytes
  tag : Nat
  value : Bytes
  deriving DecidableEq, Repr

/-- `InternalKeyComparator::Compare`. -/
def compareInternal (aKey : Bytes) (aTag : Nat) (bKey : Bytes) (bTag : Nat) : Int :=
  let r := sliceCompare aKey bKey
  if r = 0 then
    if aTag > bTag then -1 else if aTag < bTag then 1 else r
  else r

/-- The order of internal keys: the newest first. -/
abbrev InternalKey := Bytes ×ₗ Natᵒᵈ

def internalKey (userKey : Bytes) (tag : Nat) : InternalKey := toLex (userKey, OrderDual.toDual tag)

def MemTable.Entry.ikey (e : MemTable.Entry) : InternalKey := internalKey e.userKey e.tag

/-- What an entry says of its key, by its type. -/
def MemTable.Entry.answer (e : MemTable.Entry) : Option (Option Bytes) :=
  match e.tag &&& 0xff with
  | 1 => some (some e.value)
  | 0 => some none
  | _ => none

/-! ## The memtable -/

abbrev MemTable := List MemTable.Entry

namespace MemTable

def add (t : MemTable) (seq : Nat) (type : ValueType) (key value : Bytes) : MemTable :=
  t.orderedInsert (fun a b => a.ikey ≤ b.ikey) ⟨key, packSequenceAndType seq type, value⟩

/-- `Get`: the value, or that there is none; nothing if the key is not in the table. -/
def get (t : MemTable) (key : Bytes) (snapshot : Nat) : Option (Option Bytes) :=
  let target := internalKey key (packSequenceAndType snapshot kValueTypeForSeek)
  (t.find? fun e => target ≤ e.ikey).bind fun e => if e.userKey = key then e.answer else none

/-- What `MemTableInserter` does for a record. -/
def addOp (t : MemTable) (seq : Nat) : BatchOp → MemTable
  | .put key value => t.add seq .value key value
  | .delete key => t.add seq .deletion key []

/-- `InsertInto`, the records with consecutive sequence numbers. -/
def insertInto (t : MemTable) (seq : Nat) : List BatchOp → MemTable
  | [] => t
  | op :: ops => insertInto (t.addOp seq op) (seq + 1) ops

end MemTable

/-! ## What operations do to a store -/

/-- What an operation does to a key: nothing, or it has then a value or none. -/
def BatchOp.on (key : Bytes) : BatchOp → Option (Option Bytes)
  | .put k value => if k = key then some (some value) else none
  | .delete k => if k = key then some none else none

/-- What the last operation on a key does. -/
def lastOn (key : Bytes) : List BatchOp → Option (Option Bytes)
  | [] => none
  | op :: ops => (lastOn key ops).or (op.on key)

def BatchOp.apply (db : Store) : BatchOp → Store
  | .put key value => db.put key value
  | .delete key => db.delete key

/-- The operations of a batch, in their order. -/
def writeAll (db : Store) (ops : List BatchOp) : Store := ops.foldl BatchOp.apply db

theorem writeAll_append (db : Store) (ops ops' : List BatchOp) :
    writeAll db (ops ++ ops') = writeAll (writeAll db ops) ops' := List.foldl_append

theorem apply_on (db : Store) (op : BatchOp) (key : Bytes) :
    op.apply db key = (op.on key).getD (db key) := by
  cases op with
  | put k value | delete k =>
    simp only [BatchOp.apply, Store.put, Store.delete, BatchOp.on, assign]
    by_cases hk : k = key
    · simp [hk]
    · rw [if_neg (Ne.symm hk), if_neg hk]
      rfl

theorem writeAll_lastOn (db : Store) (ops : List BatchOp) (key : Bytes) :
    writeAll db ops key = (lastOn key ops).getD (db key) := by
  induction ops generalizing db with
  | nil => rfl
  | cons op ops ih =>
    rw [show writeAll db (op :: ops) = writeAll (op.apply db) ops from rfl, ih, apply_on, lastOn]
    cases lastOn key ops <;> rfl

theorem lastOn_append (key : Bytes) (ops ops' : List BatchOp) :
    lastOn key (ops ++ ops') = (lastOn key ops').or (lastOn key ops) := by
  induction ops with
  | nil => simp [lastOn]
  | cons op ops ih => rw [List.cons_append, lastOn, ih, lastOn, Option.or_assoc]

/-! ## The order of the comparators -/

theorem sliceCompare_cons (x y : UInt8) (xs ys : Bytes) :
    sliceCompare (x :: xs) (y :: ys) =
      if x < y then -1 else if y < x then 1 else sliceCompare xs ys := by
  have hmin : (if xs.length + 1 < ys.length + 1 then xs.length + 1 else ys.length + 1) =
      (if xs.length < ys.length then xs.length else ys.length) + 1 := by
    split <;> split <;> omega
  simp only [sliceCompare, List.length_cons, hmin, List.take_succ_cons, memcmp]
  by_cases hxy : x < y
  · simp [hxy]
  · by_cases hyx : y < x <;> simp [hxy, hyx]

/-- `Slice::compare` is the order of byte strings. -/
theorem sliceCompare_spec (a b : Bytes) :
    (sliceCompare a b < 0 ↔ a < b) ∧ (sliceCompare a b = 0 ↔ a = b) := by
  induction a generalizing b with
  | nil => cases b <;> simp [sliceCompare, memcmp]
  | cons x xs ih =>
    cases b with
    | nil => simp [sliceCompare, memcmp]
    | cons y ys =>
      rw [sliceCompare_cons, List.cons_lt_cons_iff, List.cons.injEq]
      obtain ⟨h1, h2⟩ := ih ys
      rcases lt_trichotomy x y with hlt | rfl | hgt
      · simp [hlt, hlt.ne]
      · simp [h1, h2]
      · simp [hgt, hgt.ne', not_lt_of_gt hgt]

theorem internalKey_lt {a b : Bytes} {s t : Nat} :
    internalKey a s < internalKey b t ↔ a < b ∨ (a = b ∧ t < s) := by
  rw [internalKey, internalKey, Prod.Lex.toLex_lt_toLex]
  rfl

theorem internalKey_le {a b : Bytes} {s t : Nat} :
    internalKey a s ≤ internalKey b t ↔ a < b ∨ (a = b ∧ t ≤ s) := by
  rw [internalKey, internalKey, Prod.Lex.toLex_le_toLex]
  rfl

/-- `InternalKeyComparator::Compare` is the order of internal keys. -/
theorem compareInternal_lt (a b : MemTable.Entry) :
    compareInternal a.userKey a.tag b.userKey b.tag < 0 ↔ a.ikey < b.ikey := by
  obtain ⟨h1, h2⟩ := sliceCompare_spec a.userKey b.userKey
  rw [MemTable.Entry.ikey, MemTable.Entry.ikey, internalKey_lt, ← h1, ← h2, compareInternal]
  by_cases hr : sliceCompare a.userKey b.userKey = 0
  · by_cases hlt : b.tag < a.tag
    · simp [hr, hlt]
    · by_cases hgt : a.tag < b.tag <;> simp [hr, hlt, hgt]
  · simp [hr]

/-! ## The memtable -/

theorem packSequenceAndType_eq (seq : Nat) (t : ValueType) :
    packSequenceAndType seq t = seq * 256 + t.code := by
  have ht : t.code < 2 ^ 8 := by cases t <;> decide
  rw [packSequenceAndType, ← Nat.shiftLeft_add_eq_or_of_lt ht, Nat.shiftLeft_eq]

theorem pack_le {seq snapshot : Nat} {t : ValueType} :
    packSequenceAndType seq t ≤ packSequenceAndType snapshot kValueTypeForSeek ↔ seq ≤ snapshot := by
  have h1 : t.code ≤ 1 := by cases t <;> decide
  have h2 : kValueTypeForSeek.code = 1 := rfl
  rw [packSequenceAndType_eq, packSequenceAndType_eq, h2]
  omega

theorem pack_lt {seq seq' : Nat} {t t' : ValueType} (h : seq < seq') :
    packSequenceAndType seq t < packSequenceAndType seq' t' := by
  have h1 : t.code ≤ 1 := by cases t <;> decide
  rw [packSequenceAndType_eq, packSequenceAndType_eq]
  omega

/-- The type in the low byte of a tag. -/
theorem pack_type (seq : Nat) (t : ValueType) :
    packSequenceAndType seq t &&& 0xff = t.code := by
  have ht : t.code < 256 := by cases t <;> decide
  rw [packSequenceAndType_eq, show 0xff = 2 ^ 8 - 1 from rfl, Nat.and_two_pow_sub_one_eq_mod]
  omega

/-- The entry that an operation adds. -/
def BatchOp.entry (seq : Nat) : BatchOp → MemTable.Entry
  | .put key value => ⟨key, packSequenceAndType seq .value, value⟩
  | .delete key => ⟨key, packSequenceAndType seq .deletion, []⟩

namespace MemTable

variable {t : MemTable} {key : Bytes} {seq snapshot : Nat} {op : BatchOp}

/-- The entries are in the order of their internal keys. -/
def Sorted (t : MemTable) : Prop := t.Pairwise fun a b => a.ikey ≤ b.ikey

/-- The entries are older than a sequence number. -/
def Below (t : MemTable) (seq : Nat) : Prop :=
  ∀ e ∈ t, ∀ type, e.tag < packSequenceAndType seq type

/-- An entry of a key that is not newer than the snapshot. -/
def sees (key : Bytes) (snapshot : Nat) (e : Entry) : Bool :=
  decide (e.userKey = key ∧ e.tag ≤ packSequenceAndType snapshot kValueTypeForSeek)

theorem addOp_eq (t : MemTable) (seq : Nat) (op : BatchOp) :
    t.addOp seq op = t.orderedInsert (fun a b => a.ikey ≤ b.ikey) (op.entry seq) := by
  cases op <;> rfl

/-- The seek finds the newest entry that the snapshot sees. -/
theorem get_eq (hs : t.Sorted) (key : Bytes) (snapshot : Nat) :
    t.get key snapshot = (t.find? (sees key snapshot)).bind Entry.answer := by
  induction t with
  | nil => rfl
  | cons e t ih =>
    obtain ⟨he, hs⟩ := List.pairwise_cons.1 hs
    have ih : (t.find? _).bind _ = _ := ih hs
    by_cases htarget : internalKey key (packSequenceAndType snapshot kValueTypeForSeek) ≤ e.ikey
    · have hfind : MemTable.get (e :: t) key snapshot = if e.userKey = key then e.answer else none := by
        rw [get, List.find?_cons_of_pos (by simpa using htarget), Option.bind_some]
      rw [Entry.ikey, internalKey_le] at htarget
      rw [hfind]
      by_cases hkey : e.userKey = key
      · have htag : e.tag ≤ packSequenceAndType snapshot kValueTypeForSeek :=
          htarget.elim (fun h => absurd hkey h.ne') And.right
        rw [if_pos hkey, List.find?_cons_of_pos (by simp [sees, hkey, htag]), Option.bind_some]
      · -- then every later entry is of a later key
        have hlt : key < e.userKey := htarget.elim id fun h => absurd h.1.symm hkey
        have hnone : (e :: t).find? (sees key snapshot) = none := by
          rw [List.find?_eq_none]
          intro f hf
          have hle : e.userKey ≤ f.userKey := by
            rcases List.mem_cons.1 hf with rfl | hf
            · exact le_rfl
            · have := he f hf
              rw [Entry.ikey, Entry.ikey, internalKey_le] at this
              exact this.elim le_of_lt fun h => le_of_eq h.1
          simp [sees, (hlt.trans_le hle).ne']
        rw [if_neg hkey, hnone, Option.bind_none]
    · have hsees : sees key snapshot e = false := by
        rw [Entry.ikey, internalKey_le, not_or] at htarget
        simp only [sees, decide_eq_false_iff_not, not_and]
        exact fun hkey htag => htarget.2 ⟨hkey.symm, htag⟩
      rw [get, List.find?_cons_of_neg (by simpa using htarget), ih,
        List.find?_cons_of_neg (by simp [hsees])]

theorem answer_entry (op : BatchOp) (seq : Nat) (key : Bytes) :
    (if (op.entry seq).userKey = key then (op.entry seq).answer else none) = op.on key := by
  cases op <;> simp [BatchOp.entry, Entry.answer, pack_type, ValueType.code, BatchOp.on]

theorem tag_entry (op : BatchOp) (seq : Nat) :
    ∃ type, (op.entry seq).tag = packSequenceAndType seq type := by
  cases op <;> exact ⟨_, rfl⟩

theorem Sorted.addOp (hs : t.Sorted) (seq : Nat) (op : BatchOp) : (t.addOp seq op).Sorted := by
  have : Std.Total fun a b : Entry => a.ikey ≤ b.ikey := ⟨fun a b => le_total a.ikey b.ikey⟩
  have : IsTrans Entry fun a b => a.ikey ≤ b.ikey := ⟨fun _ _ _ => le_trans⟩
  rw [addOp_eq]
  exact List.Pairwise.orderedInsert _ _ hs

theorem Below.addOp (h : t.Below seq) (op : BatchOp) : (t.addOp seq op).Below (seq + 1) := by
  intro e he type
  rw [addOp_eq, List.mem_orderedInsert] at he
  rcases he with rfl | he
  · obtain ⟨type', ht⟩ := tag_entry op seq
    rw [ht]
    exact pack_lt (Nat.lt_succ_self _)
  · exact (h e he type).trans (pack_lt (Nat.lt_succ_self _))

/-- The newest entry decides, if the snapshot sees it. -/
theorem get_addOp (hs : t.Sorted) (hb : t.Below seq) (op : BatchOp) (key : Bytes) (snapshot : Nat) :
    (t.addOp seq op).get key snapshot =
      if seq ≤ snapshot then (op.on key).or (t.get key snapshot) else t.get key snapshot := by
  obtain ⟨type, htag⟩ := tag_entry op seq
  have hsplit := List.takeWhile_append_dropWhile (p := fun b => decide ¬ (op.entry seq).ikey ≤ b.ikey)
    (l := t)
  rw [get_eq (hs.addOp seq op), get_eq hs, addOp_eq, List.orderedInsert_eq_take_drop]
  by_cases hsees : sees key snapshot (op.entry seq) = true
  · obtain ⟨hkey, hle⟩ : (op.entry seq).userKey = key ∧ _ := by simpa [sees] using hsees
    rw [htag, pack_le] at hle
    -- an entry before it is of another key
    have hnone : (t.takeWhile fun b => decide ¬ (op.entry seq).ikey ≤ b.ikey).find?
        (sees key snapshot) = none := by
      rw [List.find?_eq_none]
      intro f hf
      have hlt : f.ikey < (op.entry seq).ikey := by simpa using List.mem_takeWhile_imp hf
      have hold := hb f (List.takeWhile_subset _ hf) type
      rw [Entry.ikey, Entry.ikey, internalKey_lt, htag] at hlt
      have hne : f.userKey ≠ key := by
        rintro rfl
        rcases hlt with hlt | ⟨-, hlt⟩
        · exact absurd hkey hlt.ne'
        · exact absurd hold hlt.le.not_gt
      simp [sees, hne]
    have hans := answer_entry op seq key
    rw [if_pos hkey] at hans
    rw [List.find?_append, hnone, Option.none_or, List.find?_cons_of_pos hsees, Option.bind_some,
      if_pos hle, hans]
    cases op with
    | put k v | delete k =>
      obtain rfl : k = key := hkey
      simp [BatchOp.on]
  · have hfind : (t.takeWhile (fun b => decide ¬ (op.entry seq).ikey ≤ b.ikey) ++
        op.entry seq :: t.dropWhile fun b => decide ¬ (op.entry seq).ikey ≤ b.ikey).find?
          (sees key snapshot) = t.find? (sees key snapshot) := by
      conv_rhs => rw [← hsplit]
      rw [List.find?_append, List.find?_append, List.find?_cons_of_neg hsees]
    rw [hfind]
    split
    · rename_i hle
      have hkey : (op.entry seq).userKey ≠ key := by
        intro hkey
        refine hsees ?_
        simp only [sees, hkey, htag, pack_le, hle, and_self, decide_true]
      rw [← answer_entry op seq key, if_neg hkey, Option.none_or]
    · rfl

theorem insertInto_append (t : MemTable) (seq : Nat) (ops ops' : List BatchOp) :
    t.insertInto seq (ops ++ ops') = (t.insertInto seq ops).insertInto (seq + ops.length) ops' := by
  induction ops generalizing t seq with
  | nil => rfl
  | cons op ops ih =>
    rw [List.cons_append, insertInto, ih, insertInto, List.length_cons, Nat.add_right_comm,
      Nat.add_assoc]

@[simp] theorem length_insertInto (t : MemTable) (seq : Nat) (ops : List BatchOp) :
    (t.insertInto seq ops).length = t.length + ops.length := by
  induction ops generalizing t seq with
  | nil => rfl
  | cons op ops ih =>
    rw [insertInto, ih, addOp_eq, List.orderedInsert_length, List.length_cons]
    omega

theorem insertInto_ok (hs : t.Sorted) (hb : t.Below seq) (ops : List BatchOp) :
    (t.insertInto seq ops).Sorted ∧ (t.insertInto seq ops).Below (seq + ops.length) := by
  induction ops generalizing t seq with
  | nil => exact ⟨hs, hb⟩
  | cons op ops ih =>
    have h := ih (hs.addOp seq op) (hb.addOp op)
    rwa [List.length_cons, ← Nat.add_assoc, Nat.add_right_comm]

/-- **A snapshot of a memtable** shows the operations up to its sequence number. -/
theorem get_insertInto (hs : t.Sorted) (hb : t.Below (seq + 1)) (ops : List BatchOp) (key : Bytes)
    (snapshot : Nat) : (t.insertInto (seq + 1) ops).get key snapshot =
      (lastOn key (ops.take (snapshot - seq))).or (t.get key snapshot) := by
  induction ops generalizing t seq with
  | nil => simp [insertInto, lastOn]
  | cons op ops ih =>
    rw [insertInto, ih (hs.addOp _ op) (hb.addOp op), get_addOp hs hb]
    by_cases hle : seq + 1 ≤ snapshot
    · rw [if_pos hle, show snapshot - seq = snapshot - (seq + 1) + 1 by omega, List.take_succ_cons,
        lastOn, Option.or_assoc]
    · rw [if_neg hle, show snapshot - (seq + 1) = 0 by omega, show snapshot - seq = 0 by omega]
      rfl

/-! ### The list under it -/

/-- What `Add` does to the internal keys, the skip list does. -/
theorem add_ikeys (t : MemTable) (seq : Nat) (type : ValueType) (key value : Bytes) :
    (t.add seq type key value).map Entry.ikey =
      (SortedList.apply (t.map Entry.ikey) (.insert (internalKey key (packSequenceAndType seq type)))).1 :=
  List.map_orderedInsert _ _ Entry.ikey t _ (fun _ _ => Iff.rfl) fun _ _ => Iff.rfl

/-- Where `Get` looks, the skip list finds it. -/
theorem seek_ikeys (t : MemTable) (target : InternalKey) :
    SortedList.apply (t.map Entry.ikey) (.seek target) =
      (t.map Entry.ikey, .at ((t.find? fun e => target ≤ e.ikey).map Entry.ikey)) := by
  rw [SortedList.apply, List.find?_map]
  rfl

end MemTable

end PMRAccess.Leveldb
