import PMRAccess.Pmr.Proof.Sync

/-!
# The bytes of the chunks

`Data`: over the ownership of the chunks and the cursors of the connections, the chunk a clerk holds
starts with the bytes of exactly the records posted to it, and so does the copy a flush has made of
it. Only the posting of a record changes chunk memory (`move_mem`), and it writes behind the records
of a chunk nobody else holds.
-/

namespace PMRAccess.Pmr

open Lib

/-! ## Frames -/

section
variable {h : History} {sv sv' : Server} {c d : Nat} {k k' : Conn} {a : Act} {es : List Event}
  {w : Option (Sqe × Int)}

/-- A connection's move tells nothing of other connections' records. -/
theorem move_hist_other (hm : Move sv c k a sv' k' es) (hd : d ≠ c) :
    (h.addAll es).chunk d = h.chunk d ∧ (h.addAll es).indexed d = h.indexed d ∧
      (h.addAll es).sinceAlloc d = h.sinceAlloc d := by
  cases hm
  case insert =>
    unfold Ctl.handled
    split <;> simp [History.add, Function.update_of_ne hd]
  all_goals simp [History.add, Function.update_of_ne hd]

/-- A turn of the ring tells only of writes. -/
theorem turn_hist (ht : Turn sv w sv' es) :
    ∃ ws, h.addAll es = { h with writes := h.writes ++ ws } := by
  cases ht
  case dequeue p it queue _ _ _ _ => exact ⟨[(p, ⟨it, sv.ring.offset⟩)], rfl⟩
  all_goals exact ⟨[], by simp⟩

/-- A move changes chunk memory only by posting a record. -/
theorem move_mem (hm : Move sv c k a sv' k' es) :
    (sv'.mem = sv.mem ∧ ∀ r, es ≠ [.wrote c r]) ∨
      ∃ r, a = .client ∧ k.ctl = .post r ∧ k.pc = .poll ∧ es = [.wrote c r] ∧
        sv'.mem = sv.mem.write k.client.writeAddr (k.client.localBuf.read ringHeader r.totalLen) := by
  cases hm
  case post r hc hp => exact .inr ⟨r, rfl, hc, hp, rfl, rfl⟩
  case insert => exact .inl ⟨rfl, by unfold Ctl.handled; split <;> simp⟩
  all_goals exact .inl ⟨rfl, by simp⟩

/-- A move that neither posts nor flushes leaves the chunk's records alone. -/
theorem move_chunk_same (hm : Move sv c k a sv' k' es) (hw : ∀ r, es ≠ [.wrote c r])
    (hf : ∀ it, .flushed c it ∉ es) : (h.addAll es).chunk c = h.chunk c := by
  cases hm
  case post => exact absurd rfl (hw _)
  case enqueue => exact absurd (List.mem_singleton.2 rfl) (hf _)
  case insert => unfold Ctl.handled; split <;> rfl
  all_goals rfl

theorem turn_mem (ht : Turn sv w sv' es) :
    sv'.mem = sv.mem ∧ sv'.map = sv.map ∧ sv'.db = sv.db := by
  cases ht <;> simp

end

/-! ## The invariant -/

/-- The copy of the chunk a flush works with. -/
def TmpOk (rs : List Record) (k : Conn) : Prop :=
  match k.pc with
  | .putBatch _ tmp | .erase _ tmp _ => tmp.read 0 (recordSize rs) = recordBytes rs
  | _ => True

structure Data (h : History) (s : State) : Prop where
  own : Own s
  fresh : ∀ c, s.conns.length ≤ c → h.chunk c = [] ∧ h.indexed c = [] ∧ h.sinceAlloc c = []
  sync : ∀ (c : Nat) (k : Conn), s.conns[c]? = some k → Sync (h.chunk c) (h.indexed c) k
  mem : ∀ (c : Nat) (k : Conn) (i : Nat), s.conns[c]? = some k → k.holds = some i →
    s.server.mem.read (maxAsyncSize * i) (recordSize (h.chunk c)) = recordBytes (h.chunk c)
  tmp : ∀ (c : Nat) (k : Conn), s.conns[c]? = some k → TmpOk (h.chunk c) k
  since : ∀ (c : Nat) (k : Conn) (i : Nat), s.conns[c]? = some k → k.holds = some i →
    h.sinceAlloc c = h.chunk c

/-- Requests fit the message buffers. -/
def Fit (_ : State) (l : Label) : Prop := l.Fits

instance (s : State) (l : Label) : Decidable (Fit s l) := inferInstanceAs (Decidable l.Fits)

theorem data_init (mem file : Buf) (db : Store) : Data History.empty (init mem file db) where
  own := own_init mem file db
  fresh := by simp [History.empty]
  sync := by simp [init]
  mem := by simp [init]
  tmp := by simp [init]
  since := by simp [init]

theorem sync_new (localBuf sendBuf : Buf) : Sync [] [] (Conn.new localBuf sendBuf) :=
  ⟨by simp [maxAsyncSize], by simp, rfl, by simp [NextFits],
    read_request (by decide) _ .alloc (.alloc none), .inr ⟨rfl, rfl, rfl, rfl⟩⟩

theorem read_copyChunk (sv : Server) (off n : Nat) :
    (sv.copyChunk off).read 0 n = sv.mem.read off n :=
  Buf.read_congr fun i _ => by simp [Server.copyChunk]

section
variable {h : History} {s : State} {c : Nat} {k k' : Conn} {sv' : Server} {a : Act}
  {es : List Event}

/-- Where a posted record goes: behind the records of the client's chunk, and inside it. -/
theorem Data.post_range (hd : Data h s) (hk : s.conns[c]? = some k) {r : Record}
    (hc : k.ctl = .post r) (hp : k.pc = .poll) :
    ∃ i, k.holds = some i ∧ i < chunks ∧ k.client.chunkOffset = maxAsyncSize * i ∧
      k.client.writeAddr = maxAsyncSize * i + recordSize (h.chunk c) ∧ r.Fits ∧
      recordSize (h.chunk c) + r.size < maxAsyncSize ∧
      k.client.localBuf.read ringHeader r.totalLen = r.bytes := by
  have hph := (hd.sync c k hk).phase.of_poll hp
  simp only [PollPhase, hc] at hph
  obtain ⟨hset, hr, hroom, hb⟩ := hph
  obtain ⟨i, hi, hh, hoff⟩ := (hd.own.conn c k hk).exists_chunk (by simp [hp]) (by simp [hp])
    (by simp [hp]) (by simp [hp])
  have hoff' := hset.cursor.off.trans hoff
  refine ⟨i, hh, hi, hoff', ?_, hr, hroom, by rw [hr.lens.2.2.2, hb]⟩
  rw [Client.writeAddr, hoff', hset.cursor.head]
  apply Nat.mod_eq_of_lt
  have hi' : i < 256 := hi
  simp only [maxAsyncSize] at hroom ⊢
  omega

theorem mem_move (hd : Data h s) (hk : s.conns[c]? = some k) (hm : Move s.server c k a sv' k' es)
    {d i : Nat} {kd : Conn} (hkd : (s.conns.set c k')[d]? = some kd) (hi : kd.holds = some i) :
    sv'.mem.read (maxAsyncSize * i) (recordSize ((h.addAll es).chunk d)) =
      recordBytes ((h.addAll es).chunk d) := by
  rcases conns_set_cases hk hkd with ⟨rfl, rfl⟩ | ⟨hdc, hkd⟩
  · cases move_hand hd.own.size (hd.own.conn d k hk) hm with
    | keep _ _ hh hf _ =>
      have hi' : k.holds = some i := hh ▸ hi
      rcases move_mem hm with ⟨hmem, hw⟩ | ⟨r, -, hc, hp, rfl, hmem⟩
      · rw [hmem, move_chunk_same hm hw hf]
        exact hd.mem d k i hk hi'
      · -- the record is written behind the others
        obtain ⟨j, hj, -, -, haddr, hr, -, hb⟩ := hd.post_range hk hc hp
        rw [hj, Option.some.injEq] at hi'
        subst hi'
        have hch : (h.addAll [.wrote d r]).chunk d = h.chunk d ++ [r] := by simp [History.add]
        have hmd := hd.mem d k j hk hj
        rw [hch, hmem, haddr, hb]
        simp only [recordSize_append, recordSize_cons, recordSize_nil, Nat.add_zero,
          recordBytes_append, recordBytes_cons, recordBytes_nil, List.append_nil]
        rw [Buf.read_add, Buf.read_write_of_disjoint (by omega), hmd, ← r.length_bytes,
          Buf.read_write_self]
    | give _ _ _ hh' | drop _ _ _ _ _ hh' => rw [hh'] at hi; cases hi
    | take _ _ _ _ hp _ ha =>
      -- a chunk just obtained holds no records
      have hph := (hd.sync d k hk).phase
      simp only [Phase, hp] at hph
      subst ha
      simp [History.add, hph.1]
  · obtain ⟨hch, -, -⟩ := move_hist_other (h := h) hm hdc
    rw [hch]
    rcases move_mem hm with ⟨hmem, -⟩ | ⟨r, -, hc, hp, rfl, hmem⟩
    · rw [hmem]
      exact hd.mem d kd i hkd hi
    · -- another chunk is not touched
      obtain ⟨j, hj, -, -, haddr, hr, hroom, hb⟩ := hd.post_range hk hc hp
      have hij : i ≠ j := fun hij => hdc (hd.own.excl d c kd k j hkd hk (hij ▸ hi) hj)
      have hbd := (hd.sync d kd hkd).bound
      rw [hmem, haddr, hb, Buf.read_write_of_disjoint]
      · exact hd.mem d kd i hkd hi
      · rw [r.length_bytes]
        simp only [maxAsyncSize] at *
        omega

/-- The copy of the chunk is made when the chunk is complete, and the chunk stays so until the flush
ends. -/
theorem tmp_move (hd : Data h s) (hk : s.conns[c]? = some k) (hm : Move s.server c k a sv' k' es) :
    TmpOk ((h.addAll es).chunk c) k' := by
  -- the chunk of a clerk that has records or handles a request is the one it holds
  have hcopy : ∀ i, k.holds = some i → (s.server.copyChunk k.clerk.chunkOffset).read 0
      (recordSize (h.chunk c)) = recordBytes (h.chunk c) := by
    intro i hi
    rw [read_copyChunk, (hd.own.offset hk hi).2]
    exact hd.mem c k i hk hi
  cases hm
  case readAlloc hp ho hoff =>
    exact hcopy _ (held_of_lt hoff (by simp [hp]) (by simp [hp]) (by simp [hp]))
  case readClose hp ho hh =>
    obtain ⟨i, -, hi, -⟩ := (hd.own.conn c k hk).exists_chunk (by simp [hp]) (by simp [hp])
      (by simp [hp]) (by simp [ho])
    exact hcopy i hi
  case readBad | setAbort => exact hd.tmp c k hk
  case putBatch hp | erase hp _ =>
    have := hd.tmp c k hk
    simp only [TmpOk, hp] at this
    exact this
  case enqueue closing tmp i hp hk => cases closing <;> trivial
  case scan pc hp hpc => rcases hpc with ⟨j, rfl⟩ | ⟨-, rfl⟩ <;> trivial
  case callPost hp _ | allocEnd hp | allocNext hp | ack hp | got hp | deleted hp =>
    simp [TmpOk, Conn.prepare, hp]
  all_goals trivial

theorem since_move (hd : Data h s) (hk : s.conns[c]? = some k)
    (hm : Move s.server c k a sv' k' es) {i : Nat} (hi : k'.holds = some i) :
    (h.addAll es).sinceAlloc c = (h.addAll es).chunk c := by
  cases move_hand hd.own.size (hd.own.conn c k hk) hm with
  | keep _ _ hh hf ha =>
    have hs := hd.since c k i hk (hh ▸ hi)
    cases hm
    case post => simp [History.add, hs]
    case enqueue => exact absurd (List.mem_singleton.2 rfl) (hf _)
    case setFree => exact absurd (List.mem_singleton.2 rfl) (ha _)
    case insert => unfold Ctl.handled; split <;> exact hs
    all_goals exact hs
  | give _ _ _ hh' | drop _ _ _ _ _ hh' => rw [hh'] at hi; cases hi
  | take _ _ _ _ hp _ ha =>
    have hph := (hd.sync c k hk).phase
    simp only [Phase, hp] at hph
    subst ha
    simp [History.add, hph.1]

theorem data_move (hd : Data h s) (hx : ∀ x, a = .call x → x.Fits) (hk : s.conns[c]? = some k)
    (hm : Move s.server c k a sv' k' es) : Data (h.addAll es) ⟨sv', s.conns.set c k'⟩ where
  own := own_move hd.own hk hm
  fresh d hlt := by
    simp only [List.length_set] at hlt
    have hdc : d ≠ c := by
      have := (List.getElem?_eq_some_iff.1 hk).1
      omega
    obtain ⟨h1, h2, h3⟩ := move_hist_other (h := h) hm hdc
    rw [h1, h2, h3]
    exact hd.fresh d hlt
  sync d kd hkd := by
    rcases conns_set_cases hk hkd with ⟨rfl, rfl⟩ | ⟨hdc, hkd⟩
    · exact sync_move hx (hd.own.conn d k hk) (hd.sync d k hk) hm
    · obtain ⟨h1, h2, -⟩ := move_hist_other (h := h) hm hdc
      rw [h1, h2]
      exact hd.sync d kd hkd
  mem d kd i hkd hi := mem_move hd hk hm hkd hi
  tmp d kd hkd := by
    rcases conns_set_cases hk hkd with ⟨rfl, rfl⟩ | ⟨hdc, hkd⟩
    · exact tmp_move hd hk hm
    · rw [(move_hist_other (h := h) hm hdc).1]
      exact hd.tmp d kd hkd
  since d kd i hkd hi := by
    rcases conns_set_cases hk hkd with ⟨rfl, rfl⟩ | ⟨hdc, hkd⟩
    · exact since_move hd hk hm hi
    · obtain ⟨h1, -, h3⟩ := move_hist_other (h := h) hm hdc
      rw [h1, h3]
      exact hd.since d kd i hkd hi

theorem data_connect (hd : Data h s) (localBuf sendBuf : Buf) :
    Data h { s with conns := s.conns ++ [Conn.new localBuf sendBuf] } where
  own := own_connect hd.own _ _
  fresh d hlt := hd.fresh d (by simp at hlt; omega)
  sync d kd hkd := by
    rcases conns_append hkd with hkd | ⟨rfl, rfl⟩
    · exact hd.sync d kd hkd
    · obtain ⟨h1, h2, -⟩ := hd.fresh s.conns.length (Nat.le_refl _)
      rw [h1, h2]
      exact sync_new localBuf sendBuf
  mem d kd i hkd hi := by
    rcases conns_append hkd with hkd | ⟨rfl, rfl⟩
    · exact hd.mem d kd i hkd hi
    · cases hi
  tmp d kd hkd := by
    rcases conns_append hkd with hkd | ⟨rfl, rfl⟩
    · exact hd.tmp d kd hkd
    · trivial
  since d kd i hkd hi := by
    rcases conns_append hkd with hkd | ⟨rfl, rfl⟩
    · exact hd.since d kd i hkd hi
    · cases hi

theorem data_turn {w : Option (Sqe × Int)} (hd : Data h s) (ht : Turn s.server w sv' es) :
    Data (h.addAll es) { s with server := sv' } := by
  obtain ⟨ws, hw⟩ := turn_hist (h := h) ht
  have hmem := (turn_mem ht).1
  rw [hw]
  exact ⟨own_turn hd.own ht, hd.fresh, hd.sync, by simpa only [hmem] using hd.mem, hd.tmp, hd.since⟩

/-- **One step keeps the chunks' bytes.** -/
theorem data_step {s' : State} {l : Label} (hd : Data h s) (hf : Fit s l)
    (hs : step s l = some (s', es)) : Data (h.addAll es) s' := by
  cases step_cases hs with
  | connect hl => exact data_connect hd _ _
  | @conn c _ _ _ _ _ hl hk hm =>
    refine data_move hd ?_ hk hm
    rintro x rfl
    exact hf (c, x) (by simp [hl, Label.call?])
  | ring hc ht => exact data_turn hd ht

theorem data_run {P : State → Label → Prop} (hP : ∀ s l, P s l → Fit s l) {mem file : Buf}
    {db : Store} {tr : List Event} (hr : Run P mem file db tr s) : Data (hist tr) s :=
  Run.invariant (data_init mem file db) (fun hd hp hs => data_step hd (hP _ _ hp) hs) hr

end

/-! ## Cursor agreement -/

/-- **Client and clerk agree on the cursor.** In every run of requests that fit, between two
requests of a connection the two cursors are equal and stand in a chunk, behind exactly the records
posted since the last `ALLOC`, which the clerk's batch describes one by one; and a record is posted
inside the chunk, behind the records already there. -/
theorem cursor_agreement {mem file : Buf} {db : Store} {tr : List Event} {s : State}
    (hr : Run Fit mem file db tr s) {c : Nat} {k : Conn} (hk : s.conns[c]? = some k) :
    (k.ctl = .idle → k.pc = .poll →
      k.client.chunkOffset = k.clerk.chunkOffset ∧ maxAsyncSize ∣ k.clerk.chunkOffset ∧
        k.clerk.chunkOffset < maxDmabufSize ∧
        k.client.bufHead = k.clerk.bufHead ∧ k.clerk.bufHead < maxAsyncSize ∧
        s.server.mem.read k.clerk.chunkOffset k.clerk.bufHead =
          recordBytes ((hist tr).sinceAlloc c) ∧
        k.clerk.keyBatch.length = ((hist tr).sinceAlloc c).length ∧
        k.clerk.metas.length = ((hist tr).sinceAlloc c).length ∧
        ∀ (i : Nat) (r : Record), ((hist tr).sinceAlloc c)[i]? = some r →
          k.clerk.keyBatch[i]? = some r.key ∧
            ∃ m, k.clerk.metas[i]? = some m ∧
              m.fileOffset = recordSize (((hist tr).sinceAlloc c).take i) + sizeofRequest ∧
              m.keySize = r.key.length ∧ m.valueSize = r.val.length) ∧
      ∀ r, k.ctl = .post r → k.pc = .poll →
        k.client.chunkOffset + recordSize ((hist tr).sinceAlloc c) ≤ k.client.writeAddr ∧
          k.client.writeAddr + r.totalLen ≤ k.client.chunkOffset + maxAsyncSize ∧
          k.client.localBuf.read ringHeader r.totalLen = r.bytes := by
  have hd := data_run (fun _ _ h => h) hr
  have hsync := hd.sync c k hk
  refine ⟨fun hc hp => ?_, fun r hc hp => ?_⟩
  · have hset := hsync.settled hc hp
    obtain ⟨i, hi, hh, hoff⟩ := (hd.own.conn c k hk).exists_chunk (by simp [hp]) (by simp [hp])
      (by simp [hp]) (by simp [hp])
    have hsince := hd.since c k i hk hh
    have hb := hsync.bound
    rw [hsince, hset.batch.head, hoff]
    refine ⟨hset.cursor.off.trans hoff, ⟨i, rfl⟩, ?_, hset.cursor.head, hb, hd.mem c k i hk hh,
      by simp [hset.batch.keys], by simp [hset.batch.metas], fun j r hj => ?_⟩
    · have hi' : i < 256 := hi
      simp only [maxAsyncSize, maxDmabufSize]
      omega
    · have hr := (hsync.fits r (List.mem_of_getElem? hj)).bounds
      refine ⟨by simp [hset.batch.keys, hj], _, by rw [hset.batch.metas, getElem?_metasFrom hj], ?_,
        Nat.mod_eq_of_lt hr.2.1, rfl⟩
      have hle : recordSize ((hist tr).chunk c) =
          recordSize (((hist tr).chunk c).take j) + recordSize (((hist tr).chunk c).drop j) := by
        rw [← recordSize_append, List.take_append_drop]
      simp only [Meta.ofFile, Meta.fileOffset, Nat.zero_add]
      apply Nat.mod_eq_of_lt
      simp only [maxAsyncSize, sizeofRequest] at *
      omega
  · obtain ⟨i, hh, hi, hoff, haddr, hr, hroom, hb⟩ := hd.post_range hk hc hp
    rw [hd.since c k i hk hh, haddr, hoff, hr.lens.2.2.2]
    refine ⟨Nat.le_refl _, by omega, ?_⟩
    rw [← hr.lens.2.2.2, hb]

/-- Two records of one chunk, between two requests. -/
theorem cursor_agreement_two :
    ∃ tr s k, Run Fit Sched.zeros Sched.zeros (fun _ => none) tr s ∧ s.conns[0]? = some k ∧
      k.client.bufHead = 20 ∧ k.clerk.bufHead = 20 ∧
      s.server.mem.read k.clerk.chunkOffset k.clerk.bufHead =
        recordBytes [⟨.put, [1], [10]⟩, ⟨.update, [1], [11]⟩] := by
  have hr : Run Fit Sched.zeros Sched.zeros (fun _ => none) _ _ :=
    Steps.of_exec_get (Sched.connect 0 0 ++ Sched.write 0 ⟨.put, [1], [10]⟩ ++
      Sched.write 0 ⟨.update, [1], [11]⟩) (by decide)
  exact ⟨_, _, _, hr, rfl, rfl, rfl, ((cursor_agreement hr (c := 0) rfl).1 rfl rfl).2.2.2.2.2.1⟩

end PMRAccess.Pmr
