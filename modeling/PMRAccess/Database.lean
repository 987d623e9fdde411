import PMRAccess.Request

/-!
# The database below the front ends (`database/db.h`)

`Meta` locates a record's key and value: in memory, or at an offset of a buffer or file. `Store` is
what a database is for its callers, a map from keys to values; `putBatch` is the loop of
`DBType::PutBatch`, which reads every value out of the buffer through its `Meta`.
`putBatch_records`: on the keys and metas of records that lie one behind the other in the buffer it
has the effect of the single puts, in order.
-/

namespace PMRAccess

open Lib

/-- The union in `Meta`. -/
inductive MetaAddr
  | fileaddr (fileIndex fileOffset : Nat)
  | memaddr (p : Nat)
  deriving DecidableEq, Repr

structure Meta where
  addr : MetaAddr
  keySize : Nat
  valueSize : Nat
  deriving DecidableEq, Repr

namespace Meta

/-- The constructor for a file address; `key_size_` has 31 bits. -/
def ofFile (fileIndex fileOffset keySize valueSize : Nat) : Meta :=
  ⟨.fileaddr fileIndex (fileOffset % 2 ^ 32), keySize % 2 ^ 31, valueSize⟩

/-- The constructor for a memory address. -/
def ofMem (p keySize valueSize : Nat) : Meta := ⟨.memaddr p, keySize % 2 ^ 31, valueSize⟩

/-- `fileaddr_.file_offset`, the low half of the union. -/
def fileOffset (m : Meta) : Nat :=
  match m.addr with
  | .fileaddr _ o => o
  | .memaddr p => p % 2 ^ 32

/-- `memaddr_`, the whole union. -/
def memAddr (m : Meta) : Nat :=
  match m.addr with
  | .fileaddr i o => o + 2 ^ 32 * i
  | .memaddr p => p

end Meta

/-- A map of keys with the entry of `key` replaced, or removed; unlike `Function.update` it
evaluates on closed terms. -/
def assign {α : Type*} (f : Bytes → Option α) (key : Bytes) (v : Option α) : Bytes → Option α :=
  fun x => if x = key then v else f x

theorem assign_self {α : Type*} (f : Bytes → Option α) (key : Bytes) (v : Option α) :
    assign f key v key = v := if_pos rfl

theorem assign_of_ne {α : Type*} {key x : Bytes} (h : x ≠ key) (f : Bytes → Option α)
    (v : Option α) : assign f key v x = f x := if_neg h

/-- What holds of all values of a map. -/
theorem forall_assign {α : Type*} {P : α → Prop} {f : Bytes → Option α}
    (h : ∀ x m, f x = some m → P m) (key : Bytes) {v : Option α} (hv : ∀ m ∈ v, P m) :
    ∀ x m, assign f key v x = some m → P m := by
  intro x m hx
  unfold assign at hx
  split at hx
  · exact hv m hx
  · exact h x m hx

/-- A key/value map. -/
abbrev Store := Bytes → Option Bytes

namespace Store

def put (db : Store) (key val : Bytes) : Store := assign db key (some val)

def delete (db : Store) (key : Bytes) : Store := assign db key none

/-- The value a `Meta` of a batch stands for. -/
def batchVal (buf : Buf) (m : Meta) : Bytes := buf.read (m.fileOffset + m.keySize) m.valueSize

/-- `PutBatch`; neither back end reads its `length` argument. -/
def putBatch (db : Store) (keyBatch : List Bytes) (metas : List Meta) (buf : Buf) : Store :=
  (keyBatch.zip metas).foldl (fun db p => db.put p.1 (batchVal buf p.2)) db

/-- The single puts of a list of records. -/
def putAll (db : Store) (rs : List Record) : Store := rs.foldl (fun db r => db.put r.key r.val) db

/-- No value is longer than `n`. -/
def Bounded (n : Nat) (db : Store) : Prop := ∀ key val, db key = some val → val.length ≤ n

end Store

/-- The metas of records that lie one behind the other from offset `o` on: each points behind its
record's header. -/
def metasFrom (o : Nat) : List Record → List Meta
  | [] => []
  | r :: rs =>
    Meta.ofFile 0 (o + sizeofRequest) r.key.length r.val.length :: metasFrom (o + r.size) rs

/-! ## Lemmas -/

theorem metasFrom_append (rs rs' : List Record) (o : Nat) :
    metasFrom o (rs ++ rs') = metasFrom o rs ++ metasFrom (o + recordSize rs) rs' := by
  induction rs generalizing o with
  | nil => simp [metasFrom]
  | cons r rs ih => simp [metasFrom, ih, Nat.add_assoc]

@[simp] theorem length_metasFrom (o : Nat) (rs : List Record) :
    (metasFrom o rs).length = rs.length := by
  induction rs generalizing o with
  | nil => rfl
  | cons r rs ih => simp [metasFrom, ih]

/-- The `i`-th meta: the sizes of the `i`-th record and the offset behind its header. -/
theorem getElem?_metasFrom {rs : List Record} {i : Nat} {r : Record} (h : rs[i]? = some r)
    (o : Nat) : (metasFrom o rs)[i]? = some (Meta.ofFile 0 (o + recordSize (rs.take i) + sizeofRequest)
      r.key.length r.val.length) := by
  induction rs generalizing o i with
  | nil => simp at h
  | cons r' rs ih =>
    cases i with
    | zero =>
      simp only [List.getElem?_cons_zero, Option.some.injEq] at h
      subst h
      simp [metasFrom]
    | succ i =>
      simp only [List.getElem?_cons_succ] at h
      simp [metasFrom, ih h, Nat.add_assoc]

/-- The value of a record behind `hs` in a buffer. -/
theorem read_value {buf : Buf} {a : Nat} {hs : List Record} {r : Record} {ts : List Record}
    (h : buf.read a (recordSize (hs ++ r :: ts)) = recordBytes (hs ++ r :: ts)) :
    buf.read (a + recordSize hs + sizeofRequest) r.key.length = r.key ∧
      buf.read (a + recordSize hs + sizeofRequest + r.key.length) r.val.length = r.val ∧
      buf.read (a + recordSize hs) r.size = r.bytes := by
  rw [recordBytes_append, recordBytes_cons] at h
  obtain ⟨-, h2⟩ := Buf.read_eq_append h
  rw [length_recordBytes] at h2
  obtain ⟨h3, -⟩ := Buf.read_eq_append h2
  rw [r.length_bytes] at h3
  obtain ⟨-, h5⟩ := Buf.read_eq_append (h3.trans rfl)
  rw [length_requestHeader] at h5
  obtain ⟨h6, h7⟩ := Buf.read_eq_append h5
  exact ⟨h6, h7, h3⟩

theorem batchVal_record {buf : Buf} {hs : List Record} {r : Record} {ts : List Record}
    (hr : r.key.length < 2 ^ 31) (hn : recordSize (hs ++ r :: ts) < 2 ^ 32)
    (h : buf.read 0 (recordSize (hs ++ r :: ts)) = recordBytes (hs ++ r :: ts)) :
    Store.batchVal buf (Meta.ofFile 0 (recordSize hs + sizeofRequest) r.key.length r.val.length) =
      r.val := by
  have hv := (read_value h).2.1
  have hs : recordSize hs + sizeofRequest < 2 ^ 32 := by
    simp only [recordSize_append, recordSize_cons, Record.size] at hn
    omega
  simp only [Store.batchVal, Meta.ofFile, Meta.fileOffset, Nat.mod_eq_of_lt hs,
    Nat.mod_eq_of_lt hr]
  rwa [Nat.zero_add] at hv

/-- The values of records that lie in the buffer one behind the other. -/
theorem map_batchVal_metasFrom {buf : Buf} {rs : List Record}
    (hr : ∀ r ∈ rs, r.key.length < 2 ^ 31) (hn : recordSize rs < 2 ^ 32)
    (h : buf.read 0 (recordSize rs) = recordBytes rs) :
    (metasFrom 0 rs).map (Store.batchVal buf) = rs.map Record.val := by
  -- induction over the records still ahead; `hs` are those before them
  suffices hgen : ∀ ts hs : List Record, rs = hs ++ ts →
      (metasFrom (recordSize hs) ts).map (Store.batchVal buf) = ts.map Record.val by
    exact hgen rs [] rfl
  intro ts
  induction ts with
  | nil => intro hs _; rfl
  | cons r ts ih =>
    intro hs hrs
    have hv := batchVal_record (hr r (by simp [hrs])) (hrs ▸ hn) (hrs ▸ h)
    have hts := ih (hs ++ [r]) (by simp [hrs])
    simp only [recordSize_append, recordSize_cons, recordSize_nil, Nat.add_zero] at hts
    rw [metasFrom, List.map_cons, hv, hts, List.map_cons]

/-- **Batch puts are single puts**: records that lie in the buffer one behind the other. -/
theorem putBatch_records {buf : Buf} {rs : List Record} (hr : ∀ r ∈ rs, r.key.length < 2 ^ 31)
    (hn : recordSize rs < 2 ^ 32) (h : buf.read 0 (recordSize rs) = recordBytes rs) (db : Store) :
    db.putBatch (rs.map Record.key) (metasFrom 0 rs) buf = db.putAll rs := by
  have hz : ((rs.map Record.key).zip (metasFrom 0 rs)).map
      (Prod.map id (Store.batchVal buf)) = rs.map fun r => (r.key, r.val) := by
    rw [← List.zip_map_right, map_batchVal_metasFrom hr hn h, List.zip_map']
  calc db.putBatch (rs.map Record.key) (metasFrom 0 rs) buf
      = (((rs.map Record.key).zip (metasFrom 0 rs)).map (Prod.map id (Store.batchVal buf))).foldl
          (fun db p => db.put p.1 p.2) db := by rw [List.foldl_map]; rfl
    _ = db.putAll rs := by rw [hz, List.foldl_map]; rfl

/-! ### The lengths of values -/

namespace Store.Bounded

variable {n : Nat} {db : Store} (h : db.Bounded n)
include h

theorem put (key : Bytes) {val : Bytes} (hv : val.length ≤ n) : (db.put key val).Bounded n :=
  forall_assign h key (by simpa using hv)

theorem delete (key : Bytes) : (db.delete key).Bounded n := forall_assign h key (by simp)

omit h in
theorem puts {db : Store} (h : db.Bounded n) {kvs : List (Bytes × Bytes)}
    (hv : ∀ p ∈ kvs, p.2.length ≤ n) :
    Store.Bounded n (kvs.foldl (fun db p => db.put p.1 p.2) db) := by
  induction kvs generalizing db with
  | nil => exact h
  | cons p ps ih =>
    simp only [List.mem_cons, forall_eq_or_imp] at hv
    exact ih (h.put p.1 hv.1) hv.2

/-- The values of a batch have the lengths its metas say. -/
theorem putBatch {keyBatch : List Bytes} {metas : List Meta} (hm : ∀ m ∈ metas, m.valueSize ≤ n)
    (buf : Buf) : (db.putBatch keyBatch metas buf).Bounded n := by
  have hz : ∀ p ∈ (keyBatch.zip metas).map fun p => (p.1, batchVal buf p.2), p.2.length ≤ n := by
    intro p hp
    obtain ⟨q, hq, rfl⟩ := List.mem_map.1 hp
    simpa [batchVal] using hm _ (List.of_mem_zip hq).2
  have := h.puts hz
  rwa [List.foldl_map] at this

end Store.Bounded

theorem metasFrom_valueSize {o n : Nat} {rs : List Record} (h : ∀ r ∈ rs, r.val.length ≤ n) :
    ∀ m ∈ metasFrom o rs, m.valueSize ≤ n := by
  induction rs generalizing o with
  | nil => simp [metasFrom]
  | cons r rs ih =>
    simp only [List.mem_cons, forall_eq_or_imp] at h
    simp only [metasFrom, List.mem_cons, forall_eq_or_imp]
    exact ⟨h.1, ih h.2⟩

theorem putAll_of_notMem {rs : List Record} {key : Bytes} (h : key ∉ rs.map Record.key)
    (db : Store) : db.putAll rs key = db key := by
  induction rs generalizing db with
  | nil => rfl
  | cons r rs ih =>
    simp only [List.map_cons, List.mem_cons, not_or] at h
    have := ih h.2 (db.put r.key r.val)
    rw [Store.put, assign_of_ne h.1] at this
    exact this

/-- The last record of a key decides its value. -/
theorem putAll_last {hs ts : List Record} {r : Record} (h : r.key ∉ ts.map Record.key)
    (db : Store) : db.putAll (hs ++ r :: ts) r.key = some r.val := by
  have hsplit : db.putAll (hs ++ r :: ts) = ((db.putAll hs).put r.key r.val).putAll ts := by
    simp [Store.putAll]
  rw [hsplit, putAll_of_notMem h, Store.put, assign_self]

end PMRAccess
