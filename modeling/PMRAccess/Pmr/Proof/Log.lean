import PMRAccess.Pmr.Proof.Data

/-!
# The log

`Log`: the writes prepared on the ring tile the log from 0 to the ring's offset, and every chunk
that was flushed is in the queue or was given to the ring, for each client in the order of its
flushes. If the kernel ends writes in full, the writes that are neither in the submission queue nor
in the kernel are in the file: the extents do not overlap, so the order in which they end does not
matter.

`Flushed`: what is flushed are the bytes of the records that were in the chunk, and until its write
ends the chunk still holds them. `Acks` says how far a client's acknowledgements have come.
-/

namespace PMRAccess.Pmr

open Lib

/-! ## Frames -/

section
variable {h : History} {sv sv' : Server} {c : Nat} {k k' : Conn} {a : Act} {es : List Event}

/-- A move leaves the ring alone, and the queue unless it flushes. -/
theorem move_ring (hm : Move sv c k a sv' k' es) :
    sv'.ring = sv.ring ∧ (h.addAll es).writes = h.writes ∧
      ((∀ it, .flushed c it ∉ es) → sv'.queue = sv.queue ∧ (h.addAll es).flushes = h.flushes) := by
  cases hm
  case enqueue => exact ⟨rfl, rfl, fun hf => absurd (List.mem_singleton.2 rfl) (hf _)⟩
  case insert => refine ⟨rfl, ?_, fun _ => ⟨rfl, ?_⟩⟩ <;> (unfold Ctl.handled; split <;> rfl)
  all_goals exact ⟨rfl, rfl, fun _ => ⟨rfl, rfl⟩⟩

end

/-! ## The ring -/

structure Log (h : History) (sv : Server) : Prop where
  tiles : Tiles 0 (h.writes.map (·.2.extent)) sv.ring.offset
  ended : ∃ ws : List Sqe, (h.writes.map (·.2)).Perm (ws ++ (sv.ring.sq ++ sv.ring.flight)) ∧
    ∀ w ∈ ws, w.extent.In sv.ring.file
  fifo : ∀ c, (itemsOf c h.flushes).map (·.1) =
    (itemsOf c h.writes).map (·.item) ++ itemsOf c sv.queue

theorem log_init (mem file : Buf) (db : Store) : Log History.empty (init mem file db).server :=
  ⟨rfl, ⟨[], by simp [History.empty, init, IOuring.new]⟩, fun _ => rfl⟩

section
variable {h : History} {sv sv' : Server} {c : Nat} {k k' : Conn} {a : Act} {es : List Event}

theorem log_move (hl : Log h sv) (hm : Move sv c k a sv' k' es) : Log (h.addAll es) sv' := by
  obtain ⟨hring, hw, hrest⟩ := move_ring (h := h) hm
  refine ⟨by rw [hring, hw]; exact hl.tiles, by rw [hring, hw]; exact hl.ended, ?_⟩
  intro d
  rw [hw]
  rcases hm.flushed_or with hf | ⟨it, hf⟩
  · obtain ⟨hq, hfl⟩ := hrest hf
    rw [hq, hfl]
    exact hl.fifo d
  · obtain ⟨_, _, _, -, -, -, -, rfl, rfl⟩ := hm.of_flushed (hf ▸ List.mem_singleton.2 rfl)
    have hd := hl.fifo d
    by_cases hdc : c = d
    · subst hdc
      simp [History.add, itemsOf_append, itemsOf_cons_self, hd]
    · simp [History.add, itemsOf_append, itemsOf_cons_ne d hdc, hd]

/-- Extents that are both among the writes, at different places. -/
theorem Log.disj (hl : Log h sv) {ws vs : List Sqe}
    (hp : (h.writes.map (·.2)).Perm (ws ++ vs)) {w v : Sqe} (hw : w ∈ ws) (hv : v ∈ vs) :
    w.extent.Disj v.extent := by
  have hpw : ((h.writes.map (·.2)).map Sqe.extent).Pairwise Extent.Disj := by
    rw [List.map_map]
    exact hl.tiles.pairwise
  have hpw' := (hp.map Sqe.extent).pairwise hpw Extent.Disj.symm
  rw [List.map_append, List.pairwise_append] at hpw'
  exact hpw'.2.2 _ (List.mem_map_of_mem hw) _ (List.mem_map_of_mem hv)

theorem log_turn {w : Option (Sqe × Int)} (hl : Log h sv) (hw : ∀ p ∈ w, p.2 = p.1.item.size)
    (ht : Turn sv w sv' es) : Log (h.addAll es) sv' := by
  obtain ⟨ws, hperm, hin⟩ := hl.ended
  cases ht
  case dequeue p it queue hu hf hq hs =>
    refine ⟨?_, ⟨ws, ?_, hin⟩, fun c => ?_⟩
    · have := hl.tiles.snoc it.payload
      simpa [History.add, Sqe.extent, Item.payload] using this
    · simp only [History.addAll_single, History.add, List.map_append, List.map_cons, List.map_nil,
        List.append_assoc, List.singleton_append]
      refine (List.perm_append_singleton _ _).trans ((hperm.cons _).trans ?_)
      exact ((List.perm_middle.append_left ws).trans List.perm_middle).symm
    · have hfifo := hl.fifo c
      rw [itemsOf_takeFrom hq c] at hfifo
      simp only [History.addAll_single, History.add, itemsOf_append, List.map_append]
      rw [hfifo, List.append_assoc]
      congr 2
      by_cases hpc : p = c
      · subst hpc; simp [itemsOf_cons_self]
      · simp [itemsOf_cons_ne c hpc]
  case abort | idle | check | clear | seen | wait => exact ⟨hl.tiles, ⟨ws, hperm, hin⟩, hl.fifo⟩
  case submit =>
    refine ⟨hl.tiles, ⟨ws, ?_, hin⟩, hl.fifo⟩
    simp only [IOuring.submit]
    exact hperm.trans (List.perm_append_comm.append_left _)
  case complete j res sqe hj hr =>
    obtain rfl : res = sqe.item.size := hw (sqe, res) rfl
    obtain ⟨hlt, rfl⟩ := List.getElem?_eq_some_iff.1 hj
    refine ⟨hl.tiles, ⟨ws ++ [sv.ring.flight[j]], ?_, ?_⟩, hl.fifo⟩
    · refine hperm.trans ?_
      rw [List.append_assoc, List.singleton_append]
      refine List.Perm.append_left ws ?_
      exact ((List.getElem_cons_eraseIdx_perm hlt).symm.append_left _).trans List.perm_middle
    · intro v hv
      have hfile : sv.ring.file.write sv.ring.flight[j].offset
          (sv.ring.flight[j].item.buf.read 0 (sv.ring.flight[j].item.size : Int).toNat) =
          sv.ring.file.write sv.ring.flight[j].extent.start sv.ring.flight[j].extent.data := by
        simp [Sqe.extent, Item.payload]
      rw [hfile]
      rcases List.mem_append.1 hv with hv | hv
      · exact (hin v hv).write_of_disj (hl.disj hperm hv
          (List.mem_append_right _ (List.getElem_mem hlt)))
      · rw [List.mem_singleton.1 hv]
        exact Extent.in_write_self _ _

end

/-! ## Flushed chunks -/

/-- The items that wait in the queue, on the ring or in the kernel. -/
def uringItems (sv : Server) : List Item :=
  sv.queue.map (·.2) ++ (sv.ring.sq.map (·.item) ++ sv.ring.flight.map (·.item))

theorem chunk_mem_uringChunks {sv : Server} {it : Item} (h : it ∈ uringItems sv) :
    it.chunk ∈ uringChunks sv := by
  have h' := List.mem_map_of_mem (f := Item.chunk) h
  simp only [uringItems, List.map_append, List.map_map] at h'
  rw [uringChunks, List.append_assoc, List.append_assoc, List.append_assoc]
  rcases List.mem_append.1 h' with h' | h'
  · exact List.mem_append_left _ h'
  · rcases List.mem_append.1 h' with h' | h'
    · exact List.mem_append_right _ (List.mem_append_left _ h')
    · exact List.mem_append_right _ (List.mem_append_right _ (List.mem_append_left _ h'))

structure Flushed (h : History) (sv : Server) : Prop where
  payload : ∀ c it rs, (c, it, rs) ∈ h.flushes → it.payload = recordBytes rs
  intact : ∀ it ∈ uringItems sv, it.size ≤ maxAsyncSize ∧
    sv.mem.read (maxAsyncSize * it.chunk) it.size = it.payload

section
variable {h : History} {s : State} {sv sv' : Server} {c : Nat} {k k' : Conn} {a : Act}
  {es : List Event}

/-- The item a flush puts into the queue. -/
theorem Data.flush (hd : Data h s) (hk : s.conns[c]? = some k) {closing : Bool} {tmp : Buf} {j : Nat}
    (hp : k.pc = .erase closing tmp j) :
    k.clerk.bufHead = recordSize (h.chunk c) ∧ k.clerk.bufHead ≤ maxAsyncSize ∧
      tmp.read 0 k.clerk.bufHead = recordBytes (h.chunk c) ∧
      s.server.mem.read (maxAsyncSize * (k.clerk.chunkOffset / maxAsyncSize)) k.clerk.bufHead =
        recordBytes (h.chunk c) := by
  have hhead := ((hd.sync c k hk).of_erase hp).2.1.head
  have hbound := (hd.sync c k hk).bound
  have htmp := hd.tmp c k hk
  simp only [TmpOk, hp] at htmp
  obtain ⟨i, hi, hhold, hoff⟩ := (hd.own.conn c k hk).exists_chunk (by simp [hp]) (by simp [hp])
    (by simp [hp]) (by simp [hp])
  rw [hhead, hoff, (chunk_offset hi).2.1]
  exact ⟨rfl, by omega, htmp, hd.mem c k i hk hhold⟩

theorem flushed_move (hd : Data h s) (hf : Flushed h s.server) (hk : s.conns[c]? = some k)
    (hm : Move s.server c k a sv' k' es) : Flushed (h.addAll es) sv' := by
  rcases hm.flushed_or with hno | ⟨it, hes⟩
  · obtain ⟨hring, -, hrest⟩ := move_ring (h := h) hm
    obtain ⟨hq, hfl⟩ := hrest hno
    refine ⟨by rw [hfl]; exact hf.payload, fun it hit => ?_⟩
    rw [uringItems, hq, hring] at hit
    obtain ⟨hsz, hread⟩ := hf.intact it hit
    refine ⟨hsz, ?_⟩
    rcases move_mem hm with ⟨hmem, -⟩ | ⟨r, -, hctl, hp, -, hmem⟩
    · rw [hmem]
      exact hread
    · -- a record goes to a chunk that a clerk holds, and no clerk holds this one
      obtain ⟨i, hhold, -, -, haddr, -, hroom, hb⟩ := hd.post_range hk hctl hp
      have hne : i ≠ it.chunk := fun h' =>
        hd.own.disj c k i hk hhold (h' ▸ chunk_mem_uringChunks hit)
      rw [hmem, haddr, hb, Buf.read_write_of_disjoint]
      · exact hread
      · rw [r.length_bytes]
        simp only [maxAsyncSize] at *
        omega
  · obtain ⟨closing, tmp, j, -, hp, -, rfl, rfl, rfl⟩ :=
      hm.of_flushed (hes ▸ List.mem_singleton.2 rfl)
    obtain ⟨hhead, hle, htmp, hmem⟩ := hd.flush hk hp
    refine ⟨fun d it rs hit => ?_, fun it hit => ?_⟩
    · simp only [History.addAll_single, History.add, List.mem_append, List.mem_singleton,
        Prod.mk.injEq] at hit
      rcases hit with hit | ⟨rfl, rfl, rfl⟩
      · exact hf.payload d it rs hit
      · exact htmp
    · simp only [uringItems, List.map_append, List.map_cons, List.map_nil, List.mem_append,
        List.mem_singleton] at hit
      rcases hit with (hit | rfl) | hit
      · exact hf.intact it (List.mem_append_left _ hit)
      · exact ⟨hle, hmem.trans htmp.symm⟩
      · exact hf.intact it (List.mem_append_right _ (List.mem_append.2 hit))

theorem turn_items {w : Option (Sqe × Int)} (ht : Turn sv w sv' es) {it : Item}
    (hit : it ∈ uringItems sv') : it ∈ uringItems sv := by
  cases ht
  case dequeue p x queue hu hf hq hs =>
    have hp := ((takeFrom_perm hq).map (·.2)).mem_iff (a := it)
    simp only [uringItems, List.map_append, List.map_cons, List.map_nil, List.mem_append,
      hp, List.mem_cons] at hit ⊢
    tauto
  case submit =>
    simp only [uringItems, IOuring.submit, List.map_append, List.map_nil, List.mem_append] at hit ⊢
    simp only [List.not_mem_nil, false_or] at hit
    tauto
  case complete j res sqe hj hr =>
    simp only [uringItems, List.mem_append] at hit ⊢
    rcases hit with hit | hit | hit
    · exact .inl hit
    · exact .inr (.inl hit)
    · obtain ⟨x, hx, rfl⟩ := List.mem_map.1 hit
      exact .inr (.inr (List.mem_map_of_mem (List.mem_of_mem_eraseIdx hx)))
  all_goals exact hit

theorem flushed_turn {w : Option (Sqe × Int)} (hf : Flushed h sv) (ht : Turn sv w sv' es) :
    Flushed (h.addAll es) sv' := by
  obtain ⟨ws, hw⟩ := turn_hist (h := h) ht
  refine ⟨by rw [hw]; exact hf.payload, fun it hit => ?_⟩
  rw [(turn_mem ht).1]
  exact hf.intact it (turn_items ht hit)

end

/-! ## Acknowledgements -/

/-- The record a client waits for. -/
def Ctl.unacked : Ctl → List Record
  | .write r => [r]
  | _ => []

structure Acks (h : History) (s : State) : Prop where
  fresh : ∀ c, s.conns.length ≤ c → itemsOf c h.written = [] ∧ itemsOf c h.acked = []
  acked : ∀ (c : Nat) (k : Conn), s.conns[c]? = some k →
    itemsOf c h.written = itemsOf c h.acked ++ k.ctl.unacked
  flushed : ∀ c, h.flushedOf c <+: itemsOf c h.acked

section
variable {h : History} {s : State} {sv sv' : Server} {c : Nat} {k k' : Conn} {a : Act}
  {es : List Event}

/-- A move posts a record, or acknowledges it, or does neither. -/
theorem move_acks (hm : Move sv c k a sv' k' es) :
    (∃ r, k.ctl = .post r ∧ k'.ctl = .write r ∧ es = [.wrote c r]) ∨
      (∃ r, k.ctl = .write r ∧ k'.ctl = .idle ∧ es = [.acked c r]) ∨
      (k'.ctl.unacked = k.ctl.unacked ∧ (h.addAll es).written = h.written ∧
        (h.addAll es).acked = h.acked) := by
  cases hm
  case post r hc hp => exact .inl ⟨r, hc, rfl, rfl⟩
  case ack r hc hp => exact .inr (.inl ⟨r, hc, rfl, rfl⟩)
  case insert => refine .inr (.inr ⟨rfl, ?_, ?_⟩) <;> (unfold Ctl.handled; split <;> rfl)
  case callPost hc _ _ | callFull hc _ _ | callGet hc _ | callDelete hc _ | callAlloc hc _ |
      callClose hc _ | allocEnd hc _ | allocNext hc _ | got hc _ | deleted hc _ =>
    exact .inr (.inr ⟨by rw [hc]; rfl, rfl, rfl⟩)
  all_goals exact .inr (.inr ⟨rfl, rfl, rfl⟩)

theorem acks_move (hd : Data h s) (ho : h.Ordered) (ha : Acks h s) (hk : s.conns[c]? = some k)
    (hm : Move s.server c k a sv' k' es) : Acks (h.addAll es) ⟨sv', s.conns.set c k'⟩ := by
  have hlt := (List.getElem?_eq_some_iff.1 hk).1
  have hack := ha.acked c k hk
  -- what the move does to `c`, and that it does nothing to the others
  have hself : itemsOf c (h.addAll es).written = itemsOf c (h.addAll es).acked ++ k'.ctl.unacked ∧
      itemsOf c h.acked <+: itemsOf c (h.addAll es).acked := by
    rcases move_acks (h := h) hm with ⟨r, hc, hc', rfl⟩ | ⟨r, hc, hc', rfl⟩ | ⟨hc, hw, hb⟩
    · simp only [hc, Ctl.unacked, List.append_nil] at hack
      simp [History.add, itemsOf_append, itemsOf_cons_self, hack, hc', Ctl.unacked]
    · simp only [hc, Ctl.unacked] at hack
      simp [History.add, itemsOf_append, itemsOf_cons_self, hack, hc', Ctl.unacked]
    · rw [hw, hb, hc]
      exact ⟨hack, List.prefix_rfl⟩
  have hother : ∀ d, c ≠ d → itemsOf d (h.addAll es).written = itemsOf d h.written ∧
      itemsOf d (h.addAll es).acked = itemsOf d h.acked := by
    intro d hcd
    rcases move_acks (h := h) hm with ⟨r, hc, hc', rfl⟩ | ⟨r, hc, hc', rfl⟩ | ⟨hc, hw, hb⟩
    iterate 2 simp [History.add, itemsOf_append, itemsOf_cons_ne d hcd]
    rw [hw, hb]
    exact ⟨rfl, rfl⟩
  refine ⟨fun d hle => ?_, fun d kd hkd => ?_, fun d => ?_⟩
  · simp only [List.length_set] at hle
    rw [(hother d (by omega)).1, (hother d (by omega)).2]
    exact ha.fresh d hle
  · rcases conns_set_cases hk hkd with ⟨rfl, rfl⟩ | ⟨hdc, hkd⟩
    · exact hself.1
    · rw [(hother d (Ne.symm hdc)).1, (hother d (Ne.symm hdc)).2]
      exact ha.acked d kd hkd
  · rcases hm.flushed_or with hno | ⟨it, hes⟩
    · have hfl := ((move_ring (h := h) hm).2.2 hno).2
      rw [History.flushedOf, hfl]
      by_cases hcd : c = d
      · subst hcd
        exact (ha.flushed c).trans hself.2
      · rw [(hother d hcd).2]
        exact ha.flushed d
    · -- when a chunk is flushed its client waits for no record
      obtain ⟨closing, tmp, j, -, hp, -, -, -, rfl⟩ :=
        hm.of_flushed (hes ▸ List.mem_singleton.2 rfl)
      by_cases hcd : c = d
      · subst hcd
        have hun : k.ctl.unacked = [] := by
          have hfc := ((hd.sync c k hk).of_erase hp).2.2
          unfold FlushCtl at hfc
          split at hfc
          · rw [hfc]; rfl
          · obtain ⟨next, hn, -⟩ := hfc
            rw [hn]; rfl
        have hall := ho c
        rw [hack, hun, List.append_nil] at hall
        have hfl : (h.addAll [.flushed c it]).flushedOf c = h.flushedOf c ++ h.chunk c := by
          simp [History.flushedOf, History.add, itemsOf_append, itemsOf_cons_self]
        rw [hfl, ← hall]
        exact List.prefix_rfl
      · have hfl : (h.addAll [.flushed c it]).flushedOf d = h.flushedOf d := by
          simp [History.flushedOf, History.add, itemsOf_append, itemsOf_cons_ne d hcd]
        rw [hfl]
        exact ha.flushed d

end

end PMRAccess.Pmr
