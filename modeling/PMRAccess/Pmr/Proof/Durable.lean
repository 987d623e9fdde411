import PMRAccess.Pmr.Proof.Log

/-!
# Durability and order of the log

`Persist` joins the invariants on the way of a record into the log, for the runs in which requests
fit and the kernel ends writes in full (`FitFull`). From it: an acknowledged record is in a chunk
whose bit is set or in the log (`acked_durable`), and when the queue and the ring have drained the
log is the flushed chunks one behind the other, every client's records in order (`log_complete`).
The uring thread does not look at the result of a write, so without the second assumption it frees
chunks whose bytes are nowhere else (`acked_lost_failed_write`).
-/

namespace PMRAccess.Pmr

open Lib

/-- The runs in which requests fit and writes end in full. -/
def FitFull (s : State) (l : Label) : Prop := l.Fits ∧ FullWrite s l

instance (s : State) (l : Label) : Decidable (FitFull s l) :=
  inferInstanceAs (Decidable (l.Fits ∧ FullWrite s l))

structure Persist (h : History) (s : State) : Prop where
  data : Data h s
  ordered : h.Ordered
  log : Log h s.server
  flushed : Flushed h s.server
  acks : Acks h s

section
variable {h : History} {s : State} {es : List Event}

theorem persist_init (mem file : Buf) (db : Store) :
    Persist History.empty (init mem file db) where
  data := data_init mem file db
  ordered _ := rfl
  log := log_init mem file db
  flushed := ⟨by simp [History.empty], by simp [uringItems, init, IOuring.new]⟩
  acks := ⟨by simp [History.empty], by simp [init], by simp [History.empty, History.flushedOf]⟩

theorem persist_step {s' : State} {l : Label} (hp : Persist h s) (hg : FitFull s l)
    (hs : step s l = some (s', es)) : Persist (h.addAll es) s' := by
  refine ⟨data_step hp.data hg.1 hs, hp.ordered.addAll es, ?_, ?_, ?_⟩
  · cases step_cases hs with
    | connect hl => exact hp.log
    | conn hl hk hm => exact log_move hp.log hm
    | ring hc ht => exact log_turn hp.log hg.2 ht
  · cases step_cases hs with
    | connect hl => exact hp.flushed
    | conn hl hk hm => exact flushed_move hp.data hp.flushed hk hm
    | ring hc ht => exact flushed_turn hp.flushed ht
  · cases step_cases hs with
    | connect hl =>
      refine ⟨fun c hle => hp.acks.fresh c (by simp at hle; omega), fun c k hk => ?_,
        hp.acks.flushed⟩
      rcases conns_append hk with hk | ⟨rfl, rfl⟩
      · exact hp.acks.acked c k hk
      · obtain ⟨hw, ha⟩ := hp.acks.fresh s.conns.length (Nat.le_refl _)
        simp [hw, ha, Conn.new, Conn.request, Ctl.unacked]
    | conn hl hk hm => exact acks_move hp.data hp.ordered hp.acks hk hm
    | ring hc ht =>
      obtain ⟨ws, hw⟩ := turn_hist (h := h) ht
      rw [hw]
      exact ⟨hp.acks.fresh, hp.acks.acked, hp.acks.flushed⟩

theorem persist_run {mem file : Buf} {db : Store} {tr : List Event}
    (hr : Run FitFull mem file db tr s) : Persist (hist tr) s :=
  Run.invariant (persist_init mem file db) persist_step hr

/-- The client of a record in a chunk holds the chunk. -/
theorem Data.chunk_held (hd : Data h s) {c : Nat} {r : Record} (hr : r ∈ h.chunk c) :
    ∃ k i, s.conns[c]? = some k ∧ k.holds = some i := by
  have hne : h.chunk c ≠ [] := List.ne_nil_of_mem hr
  cases hk : s.conns[c]? with
  | none =>
    have hlen := List.getElem?_eq_none_iff.1 hk
    exact absurd (hd.fresh c hlen).1 hne
  | some k =>
    have hph := (hd.sync c k hk).phase
    refine ⟨k, k.clerk.chunkOffset / maxAsyncSize, rfl, held_of_lt ?_ ?_ ?_ ?_⟩
    · rcases (hd.own.conn c k hk).off with hoff | ⟨i, hi, hoff⟩
      · -- before the first `ALLOC` is answered there is no record
        exfalso
        rcases (hd.own.conn c k hk).first hoff with ⟨hp, ho⟩ | ⟨i, hp⟩ | ⟨i, hp⟩
        · have hrd := hph.of_read hp
          obtain ⟨next, hc⟩ := Ctl.of_op (hrd.op_eq.symm.trans ho)
          simp only [ReadPhase, hc] at hrd
          rcases hrd.2.2.2 with ⟨hlt, -⟩ | ⟨-, hnil, -⟩
          · omega
          · exact hne hnil
        iterate 2
          simp only [Phase, hp] at hph
          exact hne hph.1
      · rw [hoff]
        exact (chunk_offset hi).1
    iterate 2
      intro i hp
      simp only [Phase, hp] at hph
      exact hne hph.1
    · intro hp
      simp only [Phase, hp] at hph
      exact hne hph.1

/-- A flushed chunk is still on its way, or in the log. -/
theorem Persist.flush_cases (hp : Persist h s) {c : Nat} {it : Item} {rs : List Record}
    (hf : (c, it, rs) ∈ h.flushes) :
    it ∈ uringItems s.server ∨
      ∃ o, o + it.size ≤ s.server.ring.offset ∧ s.server.ring.file.read o it.size = it.payload := by
  have hmem : it ∈ (itemsOf c h.flushes).map (·.1) :=
    List.mem_map.2 ⟨(it, rs), (mem_itemsOf c).2 hf, rfl⟩
  rw [hp.log.fifo c, List.mem_append] at hmem
  rcases hmem with hmem | hmem
  · obtain ⟨w, hw, rfl⟩ := List.mem_map.1 hmem
    rw [mem_itemsOf] at hw
    obtain ⟨ws, hperm, hin⟩ := hp.log.ended
    have hw' := hperm.mem_iff.1 (List.mem_map.2 ⟨(c, w), hw, rfl⟩)
    rcases List.mem_append.1 hw' with hw' | hw'
    · have hb := hp.log.tiles.bounds.2 w.extent (List.mem_map.2 ⟨(c, w), hw, rfl⟩)
      have hread := hin w hw'
      simp only [Extent.In, Extent.stop, Sqe.extent, Item.payload, Buf.length_read] at hb hread
      exact .inr ⟨w.offset, hb.2, hread⟩
    · left
      refine List.mem_append_right _ ?_
      rw [← List.map_append]
      exact List.mem_map_of_mem hw'
  · left
    exact List.mem_append_left _ (List.mem_map.2 ⟨(c, it), (mem_itemsOf c).1 hmem, rfl⟩)

end

/-! ## Acknowledged records -/

/-- The record is intact in a chunk whose bit is set. -/
def InChunk (s : State) (r : Record) : Prop :=
  ∃ i a, i < chunks ∧ s.server.bitmap.bit i = true ∧ maxAsyncSize * i ≤ a ∧
    a + r.size ≤ maxAsyncSize * (i + 1) ∧ s.server.mem.read a r.size = r.bytes

/-- The bytes are in the written part of the log file. -/
def InLog (s : State) (bs : Bytes) : Prop :=
  ∃ o, o + bs.length ≤ s.server.ring.offset ∧ s.server.ring.file.read o bs.length = bs

/-- A record of a list, in a buffer that holds the list. -/
theorem read_record {b : Buf} {a : Nat} {rs : List Record} {r : Record} (hr : r ∈ rs)
    (h : b.read a (recordSize rs) = recordBytes rs) :
    ∃ o, o + r.size ≤ recordSize rs ∧ b.read (a + o) r.size = r.bytes := by
  obtain ⟨hs, ts, rfl⟩ := List.append_of_mem hr
  refine ⟨recordSize hs, ?_, (read_value h).2.2⟩
  simp only [recordSize_append, recordSize_cons]
  omega

theorem Persist.record {h : History} {s : State} (hp : Persist h s) {c : Nat} {r : Record}
    (hr : (c, r) ∈ h.acked) : InChunk s r ∨ InLog s r.bytes := by
  -- the record is in its client's chunk, or was flushed with one
  have hw : r ∈ h.flushedOf c ++ h.chunk c := by
    rw [← hp.ordered c]
    have hr' := (mem_itemsOf c).2 hr
    cases hk : s.conns[c]? with
    | none =>
      rw [(hp.acks.fresh c (List.getElem?_eq_none_iff.1 hk)).2] at hr'
      cases hr'
    | some k =>
      rw [hp.acks.acked c k hk]
      exact List.mem_append_left _ hr'
  rcases List.mem_append.1 hw with hfl | hch
  · obtain ⟨⟨it, rs⟩, hit, hrs⟩ := List.mem_flatMap.1 hfl
    replace hrs : r ∈ rs := hrs
    rw [mem_itemsOf] at hit
    have hpay := hp.flushed.payload c it rs hit
    have hsz : it.size = recordSize rs := by
      have := congrArg List.length hpay
      simpa [Item.payload] using this
    rcases hp.flush_cases hit with hpend | ⟨o, ho, hlog⟩
    · obtain ⟨hle, hread⟩ := hp.flushed.intact it hpend
      obtain ⟨hlt, hbit⟩ := hp.data.own.uring _ (chunk_mem_uringChunks hpend)
      rw [hpay, hsz] at hread
      obtain ⟨o, ho, hr'⟩ := read_record hrs hread
      exact .inl ⟨it.chunk, _, hlt, hbit, Nat.le_add_right _ _, by rw [Nat.mul_succ]; omega, hr'⟩
    · rw [hpay, hsz] at hlog
      obtain ⟨o', ho', hr'⟩ := read_record hrs hlog
      exact .inr ⟨o + o', by rw [r.length_bytes]; omega, by rw [r.length_bytes]; exact hr'⟩
  · obtain ⟨k, i, hk, hi⟩ := hp.data.chunk_held hch
    obtain ⟨o, ho, hr'⟩ := read_record hch (hp.data.mem c k i hk hi)
    have hb := (hp.data.sync c k hk).bound
    exact .inl ⟨i, _, (hp.data.own.offset hk hi).1, hp.data.own.bit c k i hk hi,
      Nat.le_add_right _ _, by rw [Nat.mul_succ]; omega, hr'⟩

/-- **Acknowledged records are durable** in the runs in which the kernel ends every write in full:
each one is intact in a chunk whose bit is set, or in the log; and whenever `FreeChunk` runs, all
the bytes ever flushed from its chunk are in the log. -/
theorem acked_durable {mem file : Buf} {db : Store} {tr : List Event} {s : State}
    (hr : Run FitFull mem file db tr s) :
    (∀ c r, (c, r) ∈ (hist tr).acked → InChunk s r ∨ InLog s r.bytes) ∧
      ∀ cqe, s.server.uring = .check cqe ∨ s.server.uring = .clear cqe →
        ∀ c it rs, (c, it, rs) ∈ (hist tr).flushes → it.chunk = cqe.data → InLog s it.payload := by
  have hp := persist_run hr
  refine ⟨fun c r => hp.record, fun cqe hu c it rs hf hc => ?_⟩
  rcases hp.flush_cases hf with hpend | ⟨o, ho, hlog⟩
  · -- a chunk the thread frees is not on its way as well
    exfalso
    have hnd := hp.data.own.nodup
    have hcur : s.server.uring.chunk = [cqe.data] := by rcases hu with hu | hu <;> rw [hu] <;> rfl
    have hmem := List.mem_map_of_mem (f := Item.chunk) hpend
    simp only [uringItems, List.map_append, List.map_map] at hmem
    rw [uringChunks, hcur, List.nodup_append] at hnd
    refine hnd.2.2 cqe.data (List.mem_append_left _ ?_) cqe.data (by simp) rfl
    rw [List.append_assoc, ← hc]
    exact hmem
  · have hlen : it.payload.length = it.size := by simp [Item.payload]
    exact ⟨o, by rw [hlen]; exact ho, by rw [hlen]; exact hlog⟩

theorem acked_durable_freed :
    ∃ tr s, Run FitFull Sched.zeros Sched.zeros (fun _ => none) tr s ∧
      (0, ⟨.put, [1], [10]⟩) ∈ (hist tr).acked ∧ s.server.bitmap.bit 0 = false ∧
      (InChunk s ⟨.put, [1], [10]⟩ ∨ InLog s (Record.bytes ⟨.put, [1], [10]⟩)) := by
  have hr : Run FitFull Sched.zeros Sched.zeros (fun _ => none) _ _ :=
    Steps.of_exec_get (Sched.connect 0 0 ++ Sched.write 0 ⟨.put, [1], [10]⟩ ++ Sched.close 0 1 ++
      Sched.drain 0 10) (by decide)
  exact ⟨_, _, hr, List.mem_singleton.2 rfl, by decide,
    (acked_durable hr).1 0 _ (List.mem_singleton.2 rfl)⟩

/-- The write of a closed client's chunk fails, with a negative result; the uring thread frees the
chunk all the same. -/
theorem acked_lost_failed_write :
    ¬ ∀ (mem file : Buf) (db : Store) (tr : List Event) (s : State), Run Fit mem file db tr s →
      (∀ c r, (c, r) ∈ (hist tr).acked → InChunk s r ∨ InLog s r.bytes) ∧
        ∀ cqe, s.server.uring = .check cqe ∨ s.server.uring = .clear cqe →
          ∀ c it rs, (c, it, rs) ∈ (hist tr).flushes → it.chunk = cqe.data →
            InLog s it.payload := by
  intro h
  have hr : Run Fit Sched.zeros Sched.zeros (fun _ => none) _ _ :=
    Steps.of_exec_get (Sched.connect 0 0 ++ Sched.write 0 ⟨.put, [1], [10]⟩ ++ Sched.close 0 1 ++
      Sched.drain 0 (-5)) (by decide)
  rcases (h _ _ _ _ _ hr).1 0 ⟨.put, [1], [10]⟩ (List.mem_singleton.2 rfl) with
    ⟨i, a, hi, hbit, -⟩ | ⟨o, ho, hlog⟩
  · revert i
    decide +kernel
  · have ho' : o + 10 ≤ 10 := ho
    obtain rfl : o = 0 := by omega
    exact absurd hlog (by decide)

/-! ## The log after draining -/

/-- The records of flushed chunks, each with its client. -/
def tagged (z : List (Nat × Item × List Record)) : List (Nat × Record) :=
  z.flatMap fun x => x.2.2.map (x.1, ·)

theorem itemsOf_tagged (c : Nat) (z : List (Nat × Item × List Record)) :
    itemsOf c (tagged z) = (itemsOf c z).flatMap (·.2) := by
  induction z with
  | nil => rfl
  | cons x z ih =>
    obtain ⟨d, it, rs⟩ := x
    have hcons : tagged ((d, it, rs) :: z) = rs.map (d, ·) ++ tagged z := by simp [tagged]
    rw [hcons, itemsOf_append, itemsOf_tag, ih]
    by_cases hd : d = c
    · subst hd
      rw [if_pos rfl, itemsOf_cons_self, List.flatMap_cons]
    · rw [if_neg hd, itemsOf_cons_ne c hd, List.nil_append]

theorem recordBytes_tagged {z : List (Nat × Item × List Record)}
    (h : ∀ x ∈ z, x.2.1.payload = recordBytes x.2.2) :
    recordBytes ((tagged z).map (·.2)) = z.flatMap (·.2.1.payload) := by
  induction z with
  | nil => rfl
  | cons x z ih =>
    have hcons : (tagged (x :: z)).map (·.2) = x.2.2 ++ (tagged z).map (·.2) := by
      simp [tagged, Function.comp_def]
    rw [hcons, recordBytes_append, ih fun y hy => h y (List.mem_cons_of_mem x hy),
      List.flatMap_cons, h x List.mem_cons_self]

/-- **The log is complete, gap-free and in client order.** In every run in which requests fit and
the kernel ends every write in full, when the queue and the ring have drained: the log up to the
ring's offset is the payloads of the writes in the order of their dequeues; each client's flushed
chunks were dequeued once each and in order; and the log is the bytes of a list of records in which
the records of each client are exactly those of its flushed chunks, in the order of its
acknowledgements. -/
theorem log_complete {mem file : Buf} {db : Store} {tr : List Event} {s : State}
    (hr : Run FitFull mem file db tr s) (hq : s.server.queue = []) (hsq : s.server.ring.sq = [])
    (hfl : s.server.ring.flight = []) :
    s.server.ring.file.read 0 s.server.ring.offset =
        (hist tr).writes.flatMap (·.2.item.payload) ∧
      (∀ c, (itemsOf c (hist tr).writes).map (·.item) = (itemsOf c (hist tr).flushes).map (·.1)) ∧
      ∃ recs : List (Nat × Record),
        s.server.ring.file.read 0 s.server.ring.offset = recordBytes (recs.map (·.2)) ∧
          ∀ c, itemsOf c recs = (hist tr).flushedOf c ∧
            itemsOf c recs <+: itemsOf c (hist tr).acked := by
  have hp := persist_run hr
  have hread : s.server.ring.file.read 0 s.server.ring.offset =
      (hist tr).writes.flatMap (·.2.item.payload) := by
    obtain ⟨ws, hperm, hin⟩ := hp.log.ended
    rw [hsq, hfl, List.append_nil, List.append_nil] at hperm
    have := hp.log.tiles.read fun e he => by
      obtain ⟨w, hw, rfl⟩ := List.mem_map.1 he
      exact hin w.2 (hperm.mem_iff.1 (List.mem_map_of_mem hw))
    rw [Nat.sub_zero, List.flatMap_map] at this
    exact this
  have hfifo : ∀ c, (itemsOf c (hist tr).writes).map (·.item) =
      (itemsOf c (hist tr).flushes).map (·.1) := by
    intro c
    rw [hp.log.fifo c, hq]
    simp
  refine ⟨hread, hfifo, ?_⟩
  -- the flushes in the order of the dequeues
  have hout : ∀ c, itemsOf c ((hist tr).writes.map fun w => (w.1, w.2.item)) =
      (itemsOf c (hist tr).flushes).map (·.1) := by
    intro c
    rw [← hfifo c]
    simp [itemsOf, List.filter_map, Function.comp_def]
  obtain ⟨z, hz, hzc⟩ := align hout
  refine ⟨tagged z, ?_, fun c => ?_⟩
  · rw [recordBytes_tagged, hread]
    · have : z.flatMap (·.2.1.payload) = (z.map fun x => (x.1, x.2.1)).flatMap (·.2.payload) := by
        rw [List.flatMap_map]
      rw [this, hz, List.flatMap_map]
    · intro x hx
      have hx' : (x.1, x.2.1, x.2.2) ∈ (hist tr).flushes := by
        rw [← mem_itemsOf, ← hzc, mem_itemsOf]
        exact hx
      exact hp.flushed.payload _ _ _ hx'
  · rw [itemsOf_tagged, hzc]
    exact ⟨rfl, hp.acks.flushed c⟩

/-- Two clients; the chunk of the second, which closed last, is dequeued first. -/
theorem log_complete_two :
    ∃ tr s recs, Run FitFull Sched.zeros Sched.zeros (fun _ => none) tr s ∧
      s.server.ring.offset = 30 ∧
      s.server.ring.file.read 0 s.server.ring.offset = recordBytes (recs.map (·.2)) ∧
      itemsOf 0 recs = [⟨.put, [1], [10]⟩, ⟨.update, [1], [11]⟩] ∧
      itemsOf 1 recs = [⟨.put, [2], [20]⟩] := by
  have hr : Run FitFull Sched.zeros Sched.zeros (fun _ => none) _ _ :=
    Steps.of_exec_get (Sched.connect 0 0 ++ Sched.connect 1 1 ++ Sched.write 0 ⟨.put, [1], [10]⟩ ++
      Sched.write 1 ⟨.put, [2], [20]⟩ ++ Sched.write 0 ⟨.update, [1], [11]⟩ ++ Sched.close 0 2 ++
      Sched.close 1 1 ++ Sched.drain 1 10 ++ Sched.drain 0 20) (by decide)
  obtain ⟨-, -, recs, hread, hrecs⟩ := log_complete hr rfl rfl rfl
  exact ⟨_, _, recs, hr, rfl, hread, (hrecs 0).1, (hrecs 1).1⟩

end PMRAccess.Pmr
