import PMRAccess.Backend
import PMRAccess.Group.Batch
import PMRAccess.Pmr.Proof.Flush

/-!
# Batches and single puts

`PutsAs`: both back ends go through a `PutBatch` as through the `Put`s of a list of pairs. Two
producers make the arguments of a `PutBatch`. `BuildBatchGroup` copies requests into the batch; the
clerk of the PMR front end, in its `PUT` case, notes where in the chunk the client's records lie
(`serve`). For both the pairs are those of the requests, in order (`batch_puts`).
-/

namespace PMRAccess

open Lib

/-! ## The back ends -/

/-- Calling `Put` for each pair, in order. -/
def DBType.puts {σ : Type} (D : DBType σ) (s : σ) (kvs : List (Bytes × Bytes)) : σ :=
  kvs.foldl (fun s p => (D.put s p.1 p.2).2) s

theorem levelDB_putBatch (db : Store) (b : KeyBatch) :
    (LevelDB.putBatch db b).2 = LevelDB.puts db b.pairs := by
  unfold LevelDB Leveldb.write DBType.puts
  simp only [List.foldl_map]
  rfl

theorem cuckooDB_putBatch (t : HashTable) (b : KeyBatch) :
    (CuckooDB.putBatch t b).2 = CuckooDB.puts t b.pairs := rfl

/-- These are arguments of a `PutBatch`, and it leaves each back end as the single `Put`s of the
pairs do. -/
def PutsAs (keys : List Bytes) (metas : List Meta) (buf : Buf) (kvs : List (Bytes × Bytes)) :
    Prop :=
  ∃ b : KeyBatch, b.keyBatch = keys ∧ b.metas = metas ∧ b.buf = buf ∧
    (∀ db, (LevelDB.putBatch db b).2 = LevelDB.puts db kvs) ∧
    ∀ t, (CuckooDB.putBatch t b).2 = CuckooDB.puts t kvs

theorem putsAs_of_vals {keys : List Bytes} {metas : List Meta} {buf : Buf}
    {kvs : List (Bytes × Bytes)} (hk : keys = kvs.map Prod.fst)
    (hv : metas.map (Store.batchVal buf) = kvs.map Prod.snd)
    (hf : ∀ m ∈ metas, m.fileOffset + m.keySize + m.valueSize < 2 ^ 31) :
    PutsAs keys metas buf kvs := by
  have hlen : metas.length = keys.length := by
    have := congrArg List.length hv
    simpa [hk] using this
  have hpairs : (KeyBatch.mk keys metas buf hlen hf).pairs = kvs := by
    have hz : (keys.zip metas).map (Prod.map id (Store.batchVal buf)) = kvs := by
      rw [← List.zip_map_right, hv, hk, List.zip_map']
      exact List.map_id' kvs
    exact hz
  refine ⟨⟨keys, metas, buf, hlen, hf⟩, rfl, rfl, rfl, fun db => ?_, fun t => ?_⟩
  · rw [levelDB_putBatch, hpairs]
  · rw [cuckooDB_putBatch, hpairs]

def Record.pair (r : Record) : Bytes × Bytes := (r.key, r.val)

/-- The metas of records stay below the records' end. -/
theorem metasFrom_range (o : Nat) (rs : List Record) :
    ∀ m ∈ metasFrom o rs, m.fileOffset + m.keySize + m.valueSize ≤ o + recordSize rs := by
  induction rs generalizing o with
  | nil => simp [metasFrom]
  | cons r rs ih =>
    intro m hm
    rw [recordSize_cons]
    rcases List.mem_cons.1 hm with rfl | hm
    · have h1 := Nat.mod_le (o + sizeofRequest) (2 ^ 32)
      have h2 := Nat.mod_le r.key.length (2 ^ 31)
      simp only [Meta.ofFile, Meta.fileOffset]
      unfold Record.size
      omega
    · have := ih _ m hm
      omega

theorem putsAs_records {buf : Buf} {rs : List Record} (hr : ∀ r ∈ rs, r.Fits)
    (hn : recordSize rs ≤ maxAsyncSize) (h : buf.read 0 (recordSize rs) = recordBytes rs) :
    PutsAs (rs.map Record.key) (metasFrom 0 rs) buf (rs.map Record.pair) := by
  have hn' : recordSize rs < 2 ^ 31 := lt_of_le_of_lt hn (by decide)
  refine putsAs_of_vals (by simp [Record.pair]) ?_ fun m hm => ?_
  · rw [map_batchVal_metasFrom (fun r h => (hr r h).bounds.2.1) (by omega) h]
    simp [Record.pair]
  · have := metasFrom_range 0 rs m hm
    omega

end PMRAccess

/-! ## The batch of the Group front end -/

namespace PMRAccess.Group

open Lib

section
variable {ι : Type*} {b : WriteBatch} {ws : List (ι × Buf)} {rs : List Record}

/-- What `BuildBatchGroup` takes off the queue. -/
theorem buildBatchGroup_taken {qs : List Req} (b : WriteBatch) (hw : BearAll ws qs) :
    ws.take (buildBatchGroup b ws).batch.keys.length = taken 0 ws ∧
      qs.take (buildBatchGroup b ws).batch.keys.length = qs.take (taken 0 ws).length := by
  have hle := (taken_front 0 ws).length_le
  have hkeys : (buildBatchGroup b ws).batch.keys.length = (taken 0 ws).length := by
    rw [(holds_buildBatchGroup b hw).keys, List.length_map, List.length_take, ← hw.length_eq]
    exact Nat.min_eq_left hle
  rw [hkeys]
  exact ⟨(List.prefix_iff_eq_take.1 (taken_front 0 ws)).symm, rfl⟩

theorem queueLength_eq {qs : List Req} (hw : BearAll ws qs) :
    queueLength ws = (qs.map Req.size).sum := by
  induction hw with
  | nil => rfl
  | cons hq _ ih => rw [queueLength_cons, ih, hq.1.length hq.2, List.map_cons, List.sum_cons]

theorem queueLength_le_of_copies {n : Nat} (hn : n ≤ maxAsyncSize)
    (h : ∀ p ∈ copiesFrom n ws, p.1 + p.2 ≤ maxAsyncSize) : n + queueLength ws ≤ maxAsyncSize := by
  induction ws generalizing n with
  | nil => exact hn
  | cons w ws ih =>
    simp only [copiesFrom, List.forall_mem_cons] at h
    rw [queueLength_cons, ← Nat.add_assoc]
    exact ih h.1 h.2

/-- A batch whose requests fit the buffer ends in it. -/
theorem batchLength_le {qs : List Req} (hw : BearAll ws qs)
    (h : ∀ p ∈ (buildBatchGroup b ws).copies, p.1 + p.2 ≤ maxAsyncSize) :
    (buildBatchGroup b ws).batch.batchLength ≤ maxAsyncSize := by
  have htake : BearAll (taken 0 ws) (qs.take (taken 0 ws).length) := by
    have := List.forall₂_take (taken 0 ws).length hw
    rwa [← List.prefix_iff_eq_take.1 (taken_front 0 ws)] at this
  rw [(holds_buildBatchGroup b hw).length, ← queueLength_eq htake]
  rw [buildBatchGroup_copies] at h
  have := queueLength_le_of_copies (Nat.zero_le _) h
  rwa [Nat.zero_add] at this

theorem putsAs_batch (b : WriteBatch) (hw : BearAll ws (rs.map .write))
    (hfit : ∀ p ∈ (buildBatchGroup b ws).copies, p.1 + p.2 ≤ maxAsyncSize) :
    let batch := (buildBatchGroup b ws).batch
    PutsAs batch.keys batch.metas batch.buffer ((rs.take batch.keys.length).map Record.pair) := by
  have hh := holds_buildBatchGroup b hw
  rw [← (buildBatchGroup_taken b hw).2, ← List.map_take] at hh
  refine putsAs_of_vals ?_ ?_ fun m hm => ?_
  · rw [List.map_map]
    exact hh.keys.trans (List.map_map ..)
  · rw [List.map_map]
    exact hh.vals.trans (List.map_map ..)
  · have h1 := hh.ranges m hm
    have h2 := batchLength_le hw hfit
    simp only [maxAsyncSize] at h2
    omega

end

end PMRAccess.Group

/-! ## The chunk of the PMR front end -/

namespace PMRAccess.Pmr

open Lib

/-- A `SendWrite` and the `PUT` case that serves it, on the chunk memory and the clerk, with the
client's cursor where the clerk's is; the client's message buffer holds `x.2` before. -/
def serve (st : Buf × Clerk) (x : Record × Buf) : Buf × Clerk :=
  let localBuf := x.1.prepare x.2
  let clerk := { st.2 with
    sendBuf := st.2.sendBuf.write ringHeader (localBuf.read ringHeader x.1.metaLen) }
  (st.1.write (st.2.chunkOffset + st.2.bufHead) (localBuf.read ringHeader x.1.totalLen),
    clerk.emplace.advance)

/-- The `PUT` case of `serve` is the one of the clerk's steps: it reads the request, then indexes
the record and replies. -/
theorem clerkStep_put {sv : Server} {c : Nat} {k : Conn} {seen : Bool} (hp : k.pc = .read)
    (ho : reqOp k.clerk.sendBuf = some .put ∨ reqOp k.clerk.sendBuf = some .update) :
    ∃ sv' k' k'' es, clerkStep sv c k seen = some (sv, k', []) ∧
      clerkStep sv c k' seen = some (sv', k'', es) ∧ k''.clerk = k.clerk.emplace.advance := by
  let k' : Conn := { k with
    clerk := k.clerk.emplace, pc := .insert (reqKey k.clerk.sendBuf) k.clerk.memIdx }
  have hread : clerkStep sv c k seen = some (sv, k', []) := by
    rcases ho with ho | ho <;> simp only [clerkStep, hp, readStep, ho, k']
  exact ⟨_, k', { k' with clerk := k'.clerk.advance, pc := .reply }, _, hread, rfl, rfl⟩

section
variable {mem : Buf} {cl : Clerk} {rs : List Record} {r : Record}

/-- The batch, the chunk and the records served so far. -/
structure Served (mem : Buf) (cl : Clerk) (rs : List Record) : Prop where
  batch : Batch cl rs
  chunk : mem.read cl.chunkOffset (recordSize rs) = recordBytes rs

theorem Served.serve (h : Served mem cl rs) (hr : r.Fits)
    (hn : recordSize (rs ++ [r]) ≤ maxAsyncSize) (b : Buf) :
    Served (serve (mem, cl) (r, b)).1 (serve (mem, cl) (r, b)).2 (rs ++ [r]) := by
  have hb := hr.read_prepare b
  have hasks := hr.asks hb cl.sendBuf
  have hlens := hr.lens
  rw [recordSize_append, recordSize_cons, recordSize_nil, Nat.add_zero] at hn
  refine ⟨⟨?_, ?_, ?_⟩, ?_⟩
  · simp only [Pmr.serve, Clerk.advance, Clerk.emplace, h.batch.keys, hasks.key hr.bounds.1,
      List.map_append, List.map_cons, List.map_nil]
  · simp only [Pmr.serve, Clerk.advance, Clerk.emplace, h.batch.metas, h.batch.head,
      hasks.keySize hr.bounds.1, hasks.valSize hr.bounds.2.2.1, metasFrom_append, metasFrom,
      Nat.zero_add]
  · simp only [Pmr.serve, Clerk.advance, Clerk.emplace, h.batch.head, hr.length_of_asks hasks,
      recordSize_append, recordSize_cons, recordSize_nil, Nat.add_zero]
    apply Nat.mod_eq_of_lt
    simp only [maxAsyncSize] at hn
    omega
  · -- the record is written behind the others
    simp only [Pmr.serve, Clerk.advance, Clerk.emplace, hlens.2.2.2, hb, h.batch.head,
      recordSize_append, recordSize_cons, recordSize_nil, Nat.add_zero, recordBytes_append,
      recordBytes_cons, recordBytes_nil, List.append_nil]
    rw [Buf.read_add, Buf.read_write_of_disjoint (by omega), h.chunk, ← r.length_bytes,
      Buf.read_write_self]

theorem Served.foldl (h : Served mem cl rs) {xs : List (Record × Buf)} (hf : ∀ x ∈ xs, x.1.Fits)
    (hn : recordSize (rs ++ xs.map Prod.fst) ≤ maxAsyncSize) :
    Served (xs.foldl Pmr.serve (mem, cl)).1 (xs.foldl Pmr.serve (mem, cl)).2
      (rs ++ xs.map Prod.fst) := by
  induction xs generalizing mem cl rs with
  | nil => simpa using h
  | cons x xs ih =>
    have hsplit : rs ++ (x :: xs).map Prod.fst = (rs ++ [x.1]) ++ xs.map Prod.fst := by simp
    rw [hsplit] at hn ⊢
    have hx : recordSize (rs ++ [x.1]) ≤ maxAsyncSize := by
      rw [recordSize_append] at hn
      omega
    exact ih (h.serve (hf x (by simp)) hx x.2) (fun y hy => hf y (by simp [hy])) hn

theorem foldl_serve_chunkOffset (xs : List (Record × Buf)) (st : Buf × Clerk) :
    (xs.foldl Pmr.serve st).2.chunkOffset = st.2.chunkOffset := by
  induction xs generalizing st with
  | nil => rfl
  | cons x xs ih => exact ih _

theorem putsAs_served {xs : List (Record × Buf)} (hk : cl.keyBatch = []) (hm : cl.metas = [])
    (hh : cl.bufHead = 0) (hf : ∀ x ∈ xs, x.1.Fits)
    (hn : recordSize (xs.map Prod.fst) ≤ maxAsyncSize) (mem : Buf) :
    let st := xs.foldl Pmr.serve (mem, cl)
    PutsAs st.2.keyBatch st.2.metas (fun i => st.1 (cl.chunkOffset + i))
      ((xs.map Prod.fst).map Record.pair) := by
  have h0 : Served mem cl [] := ⟨⟨hk, hm, hh⟩, rfl⟩
  have hs := h0.foldl hf hn
  rw [List.nil_append] at hs
  show PutsAs (xs.foldl Pmr.serve (mem, cl)).2.keyBatch (xs.foldl Pmr.serve (mem, cl)).2.metas _ _
  rw [hs.batch.keys, hs.batch.metas]
  refine putsAs_records ?_ hn ?_
  · intro r hr
    obtain ⟨x, hx, rfl⟩ := List.mem_map.1 hr
    exact hf x hx
  · rw [← hs.chunk, foldl_serve_chunkOffset]
    exact Buf.read_congr fun i _ => by simp

end

/-- A flush in a run. -/
theorem putsAs_run {m file : Buf} {db : Store} {tr : List Event} {s : State} {c : Nat} {k : Conn}
    {closing : Bool} {tmp : Buf} (hr : Run Fit m file db tr s) (hk : s.conns[c]? = some k)
    (hp : k.pc = .putBatch closing tmp) :
    PutsAs k.clerk.keyBatch k.clerk.metas tmp (((hist tr).chunk c).map Record.pair) := by
  have hd := data_run (fun _ _ h => h) hr
  obtain ⟨-, hb, htmp⟩ := hd.of_putBatch hk hp
  rw [hb.keys, hb.metas]
  exact putsAs_records (hd.sync c k hk).fits (Nat.le_of_lt (hd.sync c k hk).bound) htmp

end PMRAccess.Pmr

/-! ## Both producers -/

namespace PMRAccess

open Lib

/-- **Batch puts are single puts**, for both back ends and both producers. `BuildBatchGroup` takes
the shortest front of the queue that fills the batch, and the `PutBatch` of the batch leaves the
store as the `Put`s of these requests, in order; so does the `PutBatch` of what the `PUT` case of
the PMR clerk notes of the records in a chunk, for any list of records served from an empty batch on
and for every flush of a run. -/
theorem batch_puts {ι : Type*} :
    (∀ (b : Group.WriteBatch) (ws : List (ι × Buf)) (qs : List Group.Req), Group.BearAll ws qs →
      let built := Group.buildBatchGroup b ws
      let ts := ws.take built.batch.keys.length
      Group.Cut ws ts ∧ built.copies = Group.copiesFrom 0 ts ∧
        built.lastWriter = (ts.getLast?).map Prod.fst) ∧
    (∀ (b : Group.WriteBatch) (ws : List (ι × Buf)) (rs : List Record),
      Group.BearAll ws (rs.map .write) →
      let built := Group.buildBatchGroup b ws
      (∀ p ∈ built.copies, p.1 + p.2 ≤ maxAsyncSize) →
      PutsAs built.batch.keys built.batch.metas built.batch.buffer
        ((rs.take built.batch.keys.length).map Record.pair)) ∧
    (∀ (mem : Buf) (cl : Pmr.Clerk) (xs : List (Record × Buf)),
      cl.keyBatch = [] → cl.metas = [] → cl.bufHead = 0 → (∀ x ∈ xs, x.1.Fits) →
      recordSize (xs.map Prod.fst) ≤ maxAsyncSize →
      let st := xs.foldl Pmr.serve (mem, cl)
      PutsAs st.2.keyBatch st.2.metas (fun i => st.1 (cl.chunkOffset + i))
        ((xs.map Prod.fst).map Record.pair)) ∧
    ∀ (mem file : Buf) (db : Store) (tr : List Pmr.Event) (s : Pmr.State) (c : Nat) (k : Pmr.Conn)
      (closing : Bool) (tmp : Buf), Pmr.Run Pmr.Fit mem file db tr s → s.conns[c]? = some k →
      k.pc = .putBatch closing tmp →
      PutsAs k.clerk.keyBatch k.clerk.metas tmp (((Pmr.hist tr).chunk c).map Record.pair) := by
  refine ⟨fun b ws qs hw => ?_, fun b ws rs hw hfit => Group.putsAs_batch b hw hfit,
    fun mem cl xs hk hm hh hf hn => Pmr.putsAs_served hk hm hh hf hn mem,
    fun mem file db tr s c k closing tmp hr hk hp => Pmr.putsAs_run hr hk hp⟩
  have htake := (Group.buildBatchGroup_taken b hw).1
  show Group.Cut ws (ws.take _) ∧ _ = Group.copiesFrom 0 (ws.take _) ∧
    _ = ((ws.take _).getLast?).map _
  rw [htake, Group.buildBatchGroup_copies]
  exact ⟨Group.taken_cut ws, rfl, Group.lastWriter_taken b ws⟩

/-- Two requests for one key: in a queue, served by a clerk, and flushed in a run. -/
theorem batch_puts_twice :
    let rs : List Record := [⟨.put, [1], [10]⟩, ⟨.update, [1], [11]⟩]
    let ws := rs.mapIdx fun i r => (i, Buf.write (fun _ => 0) ringHeader r.bytes)
    let b : Group.WriteBatch := ⟨0, [], [], fun _ => 0⟩
    let batch := (Group.buildBatchGroup b ws).batch
    let st := (rs.map (·, fun _ => 0)).foldl Pmr.serve ((fun _ => 0), ⟨fun _ => 0, 32768, 0, [], []⟩)
    Group.Cut ws (ws.take batch.keys.length) ∧ batch.keys.length = 2 ∧
      PutsAs batch.keys batch.metas batch.buffer (rs.map Record.pair) ∧
      PutsAs st.2.keyBatch st.2.metas (fun i => st.1 (32768 + i)) (rs.map Record.pair) ∧
      ∃ tr s k tmp, Pmr.Run Pmr.Fit (fun _ => 0) (fun _ => 0) (fun _ => none) tr s ∧
        s.conns[0]? = some k ∧ k.pc = .putBatch true tmp ∧
        PutsAs k.clerk.keyBatch k.clerk.metas tmp (rs.map Record.pair) := by
  intro rs ws b batch st
  have hw : Group.BearAll ws (rs.map .write) :=
    .cons (by unfold Group.Bears; decide) (.cons (by unfold Group.Bears; decide) .nil)
  have hlen : batch.keys.length = 2 := by decide
  obtain ⟨h1, h2, h3, h4⟩ := batch_puts (ι := Nat)
  refine ⟨(h1 b ws _ hw).1, hlen, ?_, ?_, ?_⟩
  · exact h2 b ws rs hw (by decide)
  · exact h3 _ _ (rs.map (·, fun _ => 0)) rfl rfl rfl (by decide) (by decide)
  · obtain ⟨tr, s, k, tmp, hr, hk, hp, hc⟩ : ∃ tr s k tmp,
        Pmr.Run Pmr.Fit (fun _ => 0) (fun _ => 0) (fun _ => none) tr s ∧ s.conns[0]? = some k ∧
        k.pc = .putBatch true tmp ∧ (Pmr.hist tr).chunk 0 = rs :=
      ⟨_, _, _, _, Steps.of_exec_get (Pmr.Sched.connect 0 0 ++
        Pmr.Sched.write 0 ⟨.put, [1], [10]⟩ ++ Pmr.Sched.write 0 ⟨.update, [1], [11]⟩ ++
        [.conn 0 (.call .close), .conn 0 (.clerk false)]) (by decide +kernel), rfl, rfl, rfl⟩
    exact ⟨tr, s, k, tmp, hr, hk, hp, hc ▸ h4 _ _ _ tr s 0 k true tmp hr hk hp⟩

end PMRAccess
