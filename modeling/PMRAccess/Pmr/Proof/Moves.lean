import PMRAccess.Pmr.History

/-!
# What a step can do

`Move sv c k a sv' k' es` lists the moves of connection `c`, one constructor for each branch of its
client and clerk, with the branch's conditions; `connStep_cases` says a connection's step is one of
them. `Turn sv sv' es` does the same for the uring thread and the kernel. `step_cases` puts them
together: a step is a new connection, a move of one connection, or a turn of the ring.
-/

namespace PMRAccess.Pmr

open Lib

/-- The moves of a connection (module doc). -/
inductive Move (sv : Server) (c : Nat) (k : Conn) : Act → Server → Conn → List Event → Prop
  -- the client enters a call
  | callPost {r : Record} (hc : k.ctl = .idle) (hp : k.pc = .poll)
      (hroom : (k.client.bufHead + r.totalLen) % 2 ^ 32 < maxAsyncSize) :
      Move sv c k (.call (.write r)) sv (k.prepare r) []
  | callFull {r : Record} (hc : k.ctl = .idle) (hp : k.pc = .poll)
      (hfull : maxAsyncSize ≤ (k.client.bufHead + r.totalLen) % 2 ^ 32) :
      Move sv c k (.call (.write r)) sv (k.request .alloc [] (.alloc (some r))) []
  | callGet {key : Bytes} (hc : k.ctl = .idle) (hp : k.pc = .poll) :
      Move sv c k (.call (.get key)) sv (k.request .get key (.get key)) []
  | callDelete {key : Bytes} (hc : k.ctl = .idle) (hp : k.pc = .poll) :
      Move sv c k (.call (.delete key)) sv (k.request .delete key (.delete key)) []
  | callAlloc (hc : k.ctl = .idle) (hp : k.pc = .poll) :
      Move sv c k (.call .alloc) sv (k.request .alloc [] (.alloc none)) []
  | callClose (hc : k.ctl = .idle) (hp : k.pc = .poll) :
      Move sv c k (.call .close) sv (k.request .close [] .close) []
  -- the client moves on
  | post {r : Record} (hc : k.ctl = .post r) (hp : k.pc = .poll) :
      Move sv c k .client
        { sv with
          mem := sv.mem.write k.client.writeAddr (k.client.localBuf.read ringHeader r.totalLen) }
        (k.postRecord r) [.wrote c r]
  | allocEnd (hc : k.ctl = .alloc none) (hp : k.pc = .poll) :
      Move sv c k .client sv { k with client := k.client.takeChunk, ctl := .idle } []
  | allocNext {r : Record} (hc : k.ctl = .alloc (some r)) (hp : k.pc = .poll) :
      Move sv c k .client sv ({ k with client := k.client.takeChunk }.prepare r) []
  | ack {r : Record} (hc : k.ctl = .write r) (hp : k.pc = .poll) :
      Move sv c k .client sv { k with ctl := .idle } [.acked c r]
  | got {key : Bytes} (hc : k.ctl = .get key) (hp : k.pc = .poll) :
      Move sv c k .client sv { k with ctl := .idle }
        [.got c key (if replyOk k.client.localBuf then some (replyValue k.client.localBuf) else none)]
  | deleted {key : Bytes} (hc : k.ctl = .delete key) (hp : k.pc = .poll) :
      Move sv c k .client sv { k with ctl := .idle } [.deleted c key (replyOk k.client.localBuf)]
  -- the clerk reads a request
  | readPut {b : Bool} (hp : k.pc = .read)
      (ho : reqOp k.clerk.sendBuf = some .put ∨ reqOp k.clerk.sendBuf = some .update) :
      Move sv c k (.clerk b) sv
        { k with clerk := k.clerk.emplace, pc := .insert (reqKey k.clerk.sendBuf) k.clerk.memIdx } []
  | readGet {b : Bool} (hp : k.pc = .read) (ho : reqOp k.clerk.sendBuf = some .get) :
      Move sv c k (.clerk b) sv { k with pc := .find (reqKey k.clerk.sendBuf) } []
  | readDelete {b : Bool} (hp : k.pc = .read) (ho : reqOp k.clerk.sendBuf = some .delete) :
      Move sv c k (.clerk b) sv { k with pc := .dbDelete (reqKey k.clerk.sendBuf) } []
  | readAlloc {b : Bool} (hp : k.pc = .read) (ho : reqOp k.clerk.sendBuf = some .alloc)
      (hoff : k.clerk.chunkOffset < uint32Max) :
      Move sv c k (.clerk b) sv
        { k with pc := .putBatch false (sv.copyChunk k.clerk.chunkOffset) } []
  | readFirst {b : Bool} (hp : k.pc = .read) (ho : reqOp k.clerk.sendBuf = some .alloc)
      (hoff : ¬ k.clerk.chunkOffset < uint32Max) :
      Move sv c k (.clerk b) sv { k with pc := .scan 0 } []
  | readClose {b : Bool} (hp : k.pc = .read) (ho : reqOp k.clerk.sendBuf = some .close)
      (hh : 0 < k.clerk.bufHead) :
      Move sv c k (.clerk b) sv
        { k with pc := .putBatch true (sv.copyChunk k.clerk.chunkOffset) } []
  | readCloseEmpty {b : Bool} (hp : k.pc = .read) (ho : reqOp k.clerk.sendBuf = some .close)
      (hh : k.clerk.bufHead = 0) :
      Move sv c k (.clerk b) sv { k with clerk := k.clerk.dropBatch, pc := .done } []
  | readBad {b : Bool} (hp : k.pc = .read) (ho : reqOp k.clerk.sendBuf = none) :
      Move sv c k (.clerk b) { sv with aborted := true } k []
  -- the clerk handles it
  | insert {b : Bool} {key : Bytes} {m : Meta} (hp : k.pc = .insert key m) :
      Move sv c k (.clerk b) { sv with map := assign sv.map key (some m) }
        { k with clerk := k.clerk.advance, pc := .reply } (k.ctl.handled c)
  | findHit {b : Bool} {key : Bytes} {m : Meta} (hp : k.pc = .find key)
      (hm : sv.map key = some m) :
      Move sv c k (.clerk b) sv { k with pc := .copy key m } []
  | findMiss {b : Bool} {key : Bytes} (hp : k.pc = .find key) (hm : sv.map key = none) :
      Move sv c k (.clerk b) sv { k with pc := .dbGet key } []
  | copy {b : Bool} {key : Bytes} {m : Meta} (hp : k.pc = .copy key m) :
      Move sv c k (.clerk b) sv
        { k with
          clerk := k.clerk.setReply .ok (sv.mem.read (m.memAddr + key.length) m.valueSize)
          pc := .reply }
        [.hit c key (sv.mem.read (m.memAddr + key.length) m.valueSize)]
  | dbHit {b : Bool} {key value : Bytes} (hp : k.pc = .dbGet key)
      (hd : sv.db key = some value) :
      Move sv c k (.clerk b) sv { k with clerk := k.clerk.setReply .ok value, pc := .reply } []
  | dbMiss {b : Bool} {key : Bytes} (hp : k.pc = .dbGet key) (hd : sv.db key = none) :
      Move sv c k (.clerk b) sv { k with clerk := k.clerk.setReply .notfound [], pc := .reply } []
  | dbDelete {b : Bool} {key : Bytes} (hp : k.pc = .dbDelete key) :
      Move sv c k (.clerk b) { sv with db := sv.db.delete key }
        { k with clerk := k.clerk.setReply .ok [], pc := .reply } []
  | putBatch {b closing : Bool} {tmp : Buf} (hp : k.pc = .putBatch closing tmp) :
      Move sv c k (.clerk b)
        { sv with db := sv.db.putBatch k.clerk.keyBatch k.clerk.metas tmp }
        { k with pc := .erase closing tmp 0 } []
  | erase {b closing : Bool} {tmp : Buf} {i : Nat} {key : Bytes}
      (hp : k.pc = .erase closing tmp i) (hk : k.clerk.keyBatch[i]? = some key) :
      Move sv c k (.clerk b) { sv with map := assign sv.map key none }
        { k with pc := .erase closing tmp (i + 1) } []
  | enqueue {b closing : Bool} {tmp : Buf} {i : Nat} (hp : k.pc = .erase closing tmp i)
      (hk : k.clerk.keyBatch.length ≤ i) :
      Move sv c k (.clerk b)
        { sv with
          queue := sv.queue ++
            [(c, ⟨tmp, k.clerk.bufHead, k.clerk.chunkOffset / maxAsyncSize⟩)] }
        { k with clerk := k.clerk.dropBatch, pc := if closing then .done else .scan 0 }
        [.flushed c ⟨tmp, k.clerk.bufHead, k.clerk.chunkOffset / maxAsyncSize⟩]
  -- `blindset`
  | scan {b : Bool} {i : Nat} {pc : Pc} (hp : k.pc = .scan i)
      (hpc : (∃ j, pc = .scan j) ∨ (i < sv.bitmap.size ∧ pc = .trySet i)) :
      Move sv c k (.clerk b) sv { k with pc } []
  | setAbort {b : Bool} {i : Nat} (hp : k.pc = .trySet i) (hset : sv.bitmap.set i = none) :
      Move sv c k (.clerk b) { sv with aborted := true } k []
  | setTaken {b : Bool} {i : Nat} {bitmap : AtomicBitset} (hp : k.pc = .trySet i)
      (hset : sv.bitmap.set i = some (true, bitmap)) :
      Move sv c k (.clerk b) { sv with bitmap } { k with pc := .scan (i + 1) } []
  | setFree {b : Bool} {i : Nat} {bitmap : AtomicBitset} (hp : k.pc = .trySet i)
      (hset : sv.bitmap.set i = some (false, bitmap)) :
      Move sv c k (.clerk b) { sv with bitmap }
        { k with clerk := k.clerk.takeChunk i, pc := .reply } [.alloced c i]
  | reply {b : Bool} (hp : k.pc = .reply) :
      Move sv c k (.clerk b) sv
        { k with
          client := { k.client with
            localBuf := k.client.localBuf.write ringHeader
              (k.clerk.sendBuf.read ringHeader (sizeofRequest + replyValSize k.clerk.sendBuf)) }
          pc := .poll } []

section
variable {sv sv' : Server} {c : Nat} {k k' : Conn} {es : List Event}

theorem clientStep_cases (hp : k.pc = .poll) (h : clientStep sv c k = some (sv', k', es)) :
    Move sv c k .client sv' k' es := by
  unfold clientStep at h
  split at h
  · cases h
  · rename_i r hc; cases h; exact .post hc hp
  · rename_i next hc
    cases next with
    | none =>
      simp only [Option.some.injEq, Prod.mk.injEq] at h
      obtain ⟨rfl, rfl, rfl⟩ := h
      exact .allocEnd hc hp
    | some r => cases h; exact .allocNext hc hp
  · rename_i r hc; cases h; exact .ack hc hp
  · rename_i key hc; cases h; exact .got hc hp
  · rename_i key hc; cases h; exact .deleted hc hp
  · cases h

theorem readStep_cases (b : Bool) (hp : k.pc = .read) (h : readStep sv k = (sv', k')) :
    Move sv c k (.clerk b) sv' k' [] := by
  simp only [readStep] at h
  split at h
  · rename_i ho; cases h; exact .readPut hp (.inr ho)
  · rename_i ho; cases h; exact .readPut hp (.inl ho)
  · rename_i ho; cases h; exact .readGet hp ho
  · rename_i ho; cases h; exact .readDelete hp ho
  · rename_i ho
    split at h
    · rename_i hoff; cases h; exact .readAlloc hp ho hoff
    · rename_i hoff; cases h; exact .readFirst hp ho hoff
  · rename_i ho
    split at h
    · rename_i hh; cases h; exact .readClose hp ho hh
    · rename_i hh; cases h; exact .readCloseEmpty hp ho (by omega)
  · rename_i ho; cases h; exact .readBad hp ho

theorem clerkStep_cases {b : Bool} (h : clerkStep sv c k b = some (sv', k', es)) :
    Move sv c k (.clerk b) sv' k' es := by
  unfold clerkStep at h
  split at h
  · cases h
  · rename_i hp
    simp only [Option.some.injEq, Prod.mk.injEq] at h
    obtain ⟨hsv, hk, rfl⟩ := h
    exact readStep_cases b hp (Prod.ext hsv hk)
  · rename_i key m hp; cases h; exact .insert hp
  · rename_i key hp
    split at h
    · rename_i m hm; cases h; exact .findHit hp hm
    · rename_i hm; cases h; exact .findMiss hp hm
  · rename_i key m hp; cases h; exact .copy hp
  · rename_i key hp
    split at h
    · rename_i v hd; cases h; exact .dbHit hp hd
    · rename_i hd; cases h; exact .dbMiss hp hd
  · rename_i key hp; cases h; exact .dbDelete hp
  · rename_i closing tmp hp; cases h; exact .putBatch hp
  · rename_i closing tmp i hp
    cases hk : k.clerk.keyBatch[i]? with
    | some key => simp only [hk] at h; cases h; exact .erase hp hk
    | none => simp only [hk] at h; cases h; exact .enqueue hp (List.getElem?_eq_none_iff.1 hk)
  · rename_i i hp
    split at h
    · rename_i hi
      cases h
      cases b with
      | true => exact .scan hp (.inl ⟨_, rfl⟩)
      | false => exact .scan hp (.inr ⟨hi, rfl⟩)
    · cases h; exact .scan hp (.inl ⟨_, rfl⟩)
  · rename_i i hp
    split at h
    · rename_i hset; cases h; exact .setAbort hp hset
    · rename_i bm hset; cases h; exact .setTaken hp hset
    · rename_i bm hset; cases h; exact .setFree hp hset
  · rename_i hp; cases h; exact .reply hp
  · cases h

theorem connStep_cases {a : Act} (h : connStep sv c k a = some (sv', k', es)) :
    Move sv c k a sv' k' es := by
  cases a with
  | call x =>
    simp only [connStep] at h
    split at h
    · rename_i hc hp
      cases h
      cases x with
      | write r =>
        simp only [Conn.call]
        split
        · rename_i hf; exact .callFull hc hp hf
        · rename_i hf; exact .callPost hc hp (by omega)
      | get key => exact .callGet hc hp
      | delete key => exact .callDelete hc hp
      | alloc => exact .callAlloc hc hp
      | close => exact .callClose hc hp
    · cases h
  | client =>
    simp only [connStep] at h
    split at h
    · rename_i hp; exact clientStep_cases hp h
    · cases h
  | clerk b => exact clerkStep_cases h

theorem Ctl.handled_of_mem {ctl : Ctl} {e : Event} (h : e ∈ ctl.handled c) :
    ∃ r, ctl = .write r ∧ e = .handled c r := by
  unfold Ctl.handled at h
  split at h
  · rename_i r; exact ⟨r, rfl, List.mem_singleton.1 h⟩
  · cases h

/-- A chunk is flushed only by the move at the end of the flush loop. -/
theorem Move.of_flushed {a : Act} {d : Nat} {it : Item} (hm : Move sv c k a sv' k' es)
    (he : .flushed d it ∈ es) :
    ∃ closing tmp j, d = c ∧ k.pc = .erase closing tmp j ∧ k.clerk.keyBatch.length ≤ j ∧
      it = ⟨tmp, k.clerk.bufHead, k.clerk.chunkOffset / maxAsyncSize⟩ ∧
      sv' = { sv with queue := sv.queue ++ [(c, it)] } ∧ es = [.flushed c it] := by
  cases hm
  case enqueue closing tmp j hp hk =>
    simp only [List.mem_singleton, Event.flushed.injEq] at he
    obtain ⟨rfl, rfl⟩ := he
    exact ⟨closing, tmp, j, rfl, hp, hk, rfl, rfl, rfl⟩
  case insert =>
    obtain ⟨r, -, h⟩ := Ctl.handled_of_mem he
    cases h
  all_goals simp at he

/-- A move flushes or it does not. -/
theorem Move.flushed_or {a : Act} (hm : Move sv c k a sv' k' es) :
    (∀ it, .flushed c it ∉ es) ∨ ∃ it, es = [.flushed c it] := by
  cases hm
  case enqueue => exact .inr ⟨_, rfl⟩
  case insert => exact .inl (by unfold Ctl.handled; split <;> simp)
  all_goals exact .inl (by simp)

/-- A value is copied from a chunk by a `GET` that has found an entry. -/
theorem Move.of_hit {a : Act} {d : Nat} {key v : Bytes} (hm : Move sv c k a sv' k' es)
    (he : .hit d key v ∈ es) :
    ∃ m, d = c ∧ k.pc = .copy key m ∧ v = sv.mem.read (m.memAddr + key.length) m.valueSize := by
  cases hm
  case copy m hp =>
    simp only [List.mem_singleton, Event.hit.injEq] at he
    obtain ⟨rfl, rfl, rfl⟩ := he
    exact ⟨m, rfl, hp, rfl⟩
  case insert =>
    obtain ⟨r, -, h⟩ := Ctl.handled_of_mem he
    cases h
  all_goals simp at he

/-- A `SendGet` returns what its reply says. -/
theorem Move.of_got {a : Act} {d : Nat} {key : Bytes} {v : Option Bytes}
    (hm : Move sv c k a sv' k' es) (he : .got d key v ∈ es) :
    d = c ∧ k.ctl = .get key ∧ k.pc = .poll ∧
      v = if replyOk k.client.localBuf then some (replyValue k.client.localBuf) else none := by
  cases hm
  case got hc hp =>
    simp only [List.mem_singleton, Event.got.injEq] at he
    obtain ⟨rfl, rfl, rfl⟩ := he
    exact ⟨rfl, hc, hp, rfl⟩
  case insert =>
    obtain ⟨r, -, h⟩ := Ctl.handled_of_mem he
    cases h
  all_goals simp at he

end

/-! ## The ring -/

/-- The turns of the uring thread and of the kernel; `w` is the write the kernel ends, with its
result. -/
inductive Turn (sv : Server) : Option (Sqe × Int) → Server → List Event → Prop
  | dequeue {p : Nat} {it : Item} {queue : List (Nat × Item)} (hu : sv.uring = .poll)
      (hf : sv.ring.full = false) (hq : takeFrom p sv.queue = some (it, queue))
      (hs : sv.ring.sq.length < sv.ring.qd) :
      Turn sv none { sv with
        queue
        ring := { sv.ring with
          sq := sv.ring.sq ++ [⟨it, sv.ring.offset⟩]
          inflight := sv.ring.inflight + 1
          offset := sv.ring.offset + it.size } } [.dequeued p ⟨it, sv.ring.offset⟩]
  | abort : Turn sv none { sv with aborted := true } []
  | idle : Turn sv none sv []
  | submit (hu : sv.uring = .poll) (he : sv.ring.empty = false) :
      Turn sv none { sv with ring := sv.ring.submit, uring := .wait } []
  | wait {cqe : Cqe} {cq : List Cqe} (hu : sv.uring = .wait) (hc : sv.ring.cq = cqe :: cq) :
      Turn sv none { sv with ring := { sv.ring with cq }, uring := .check cqe } []
  | check {cqe : Cqe} (hu : sv.uring = .check cqe)
      (hd : cqe.data < maxDmabufSize / maxAsyncSize ∧ sv.bitmap.get cqe.data = some true) :
      Turn sv none { sv with uring := .clear cqe } []
  | clear {cqe : Cqe} {old : Bool} {bitmap : AtomicBitset} (hu : sv.uring = .clear cqe)
      (hc : sv.bitmap.clear cqe.data = some (old, bitmap)) :
      Turn sv none { sv with bitmap, uring := .seen cqe } []
  | seen {cqe : Cqe} (hu : sv.uring = .seen cqe) :
      Turn sv none { sv with ring := sv.ring.seen, uring := .poll } []
  | complete {j : Nat} {res : Int} {sqe : Sqe} (hj : sv.ring.flight[j]? = some sqe)
      (hr : res ≤ sqe.item.size) :
      Turn sv (some (sqe, res)) { sv with
        ring := { sv.ring with
          file := sv.ring.file.write sqe.offset (sqe.item.buf.read 0 res.toNat)
          flight := sv.ring.flight.eraseIdx j
          cq := sv.ring.cq ++ [⟨sqe.item.chunk, res⟩] } } []

section
variable {sv sv' : Server} {es : List Event}

theorem dequeueStep_cases {p : Nat} (h : dequeueStep sv p = some (sv', es)) :
    Turn sv none sv' es := by
  unfold dequeueStep at h
  split at h
  · rename_i hu
    split at h
    · cases h
    · rename_i hf
      split at h
      · cases h
      · rename_i it queue hq
        simp only [IOuring.write] at h
        by_cases hs : sv.ring.sq.length < sv.ring.qd
        · simp only [hs, ↓reduceIte, Option.some.injEq, Prod.mk.injEq] at h
          obtain ⟨rfl, rfl⟩ := h
          exact .dequeue hu (by simpa using hf) hq hs
        · simp only [hs, ↓reduceIte, Option.some.injEq, Prod.mk.injEq] at h
          obtain ⟨rfl, rfl⟩ := h
          exact .abort
  · cases h

theorem uringStep_cases (h : uringStep sv = some sv') : Turn sv none sv' [] := by
  unfold uringStep at h
  split at h
  · rename_i hu
    split at h
    · cases h; exact .idle
    · rename_i he; cases h; exact .submit hu (by simpa using he)
  · rename_i hu
    simp only [IOuring.wait] at h
    split at h
    · cases h
    · rename_i cqe ring hw
      split at hw
      · cases hw
      · rename_i x cq hc
        cases hw; cases h
        exact .wait hu hc
  · rename_i cqe hu
    split at h
    · rename_i hd; cases h; exact .check hu hd
    · cases h; exact .abort
  · rename_i cqe hu
    split at h
    · cases h; exact .abort
    · rename_i old bm hc; cases h; exact .clear hu hc
  · rename_i cqe hu; cases h; exact .seen hu

theorem complete_cases {j : Nat} {res : Int} {ring : IOuring}
    (h : sv.ring.complete j res = some ring) :
    Turn sv (sv.ring.flight[j]?.map (·, res)) { sv with ring } [] := by
  unfold IOuring.complete at h
  split at h
  · cases h
  · rename_i sqe hj
    split at h
    · rename_i hr; cases h; rw [hj]; exact .complete hj hr
    · cases h

end

/-! ## The system -/

/-- A step is a new connection, a move of one connection, or a turn of the ring. -/
inductive StepCases (s : State) (l : Label) : State → List Event → Prop
  | connect {localBuf sendBuf : Buf} (hl : l = .connect localBuf sendBuf) :
      StepCases s l { s with conns := s.conns ++ [Conn.new localBuf sendBuf] } []
  | conn {c : Nat} {a : Act} {k k' : Conn} {sv' : Server} {es : List Event} (hl : l = .conn c a)
      (hk : s.conns[c]? = some k) (hm : Move s.server c k a sv' k' es) :
      StepCases s l ⟨sv', s.conns.set c k'⟩ es
  | ring {sv' : Server} {es : List Event} (hc : l.conn? s = none)
      (ht : Turn s.server (l.ended? s) sv' es) :
      StepCases s l { s with server := sv' } es

theorem step_cases {s s' : State} {l : Label} {es : List Event} (h : step s l = some (s', es)) :
    StepCases s l s' es := by
  unfold step at h
  split at h
  · cases h
  cases l with
  | connect lb sb => cases h; exact .connect rfl
  | conn c a =>
    simp only at h
    split at h
    · cases h
    · rename_i k hk
      split at h
      · cases h
      · rename_i sv' k' es' hm
        cases h
        exact .conn rfl hk (connStep_cases hm)
  | dequeue p =>
    obtain ⟨⟨sv', es'⟩, hd, he⟩ := Option.map_eq_some_iff.1 h
    cases he
    exact .ring rfl (dequeueStep_cases hd)
  | uring =>
    obtain ⟨sv', hd, he⟩ := Option.map_eq_some_iff.1 h
    cases he
    exact .ring rfl (uringStep_cases hd)
  | complete j res =>
    obtain ⟨ring, hd, he⟩ := Option.map_eq_some_iff.1 h
    cases he
    exact .ring rfl (complete_cases hd)
  | waitFail =>
    simp only at h
    split at h
    · cases h; exact .ring rfl .abort
    · cases h

/-- A step shows one event at most. -/
theorem step_events {s s' : State} {l : Label} {es : List Event} (h : step s l = some (s', es)) :
    es.length ≤ 1 := by
  cases step_cases h with
  | connect hl => simp
  | conn hl hk hm =>
    cases hm
    case insert => unfold Ctl.handled; split <;> simp
    all_goals simp
  | ring hc ht =>
    cases hw : l.ended? s <;> rw [hw] at ht <;> cases ht <;> simp

/-- The ring shows only that a write is prepared; every other event is of a connection's move. -/
theorem move_of_event {s s' : State} {l : Label} {es : List Event} {e : Event}
    (h : step s l = some (s', es)) (he : e ∈ es) (hd : ∀ p sqe, e ≠ .dequeued p sqe) :
    ∃ (c : Nat) (a : Act) (k k' : Conn) (sv' : Server), l = .conn c a ∧ s.conns[c]? = some k ∧
      Move s.server c k a sv' k' es := by
  cases step_cases h with
  | connect hl => cases he
  | @conn c a k k' sv' _ hl hk hm => exact ⟨c, a, k, k', sv', hl, hk, hm⟩
  | ring hc ht =>
    cases hw : l.ended? s <;> rw [hw] at ht <;> cases ht <;> simp_all

/-- The request a `Conn.request` leaves in the clerk's message buffer. -/
theorem read_request {key : Bytes} (h : KeyFits key) (k : Conn) (op : Operation) (ctl : Ctl) :
    (k.request op key ctl).clerk.sendBuf.read ringHeader (sizeofRequest + key.length) =
      requestHeader op key.length 0 ++ key := by
  have hr := read_prepareKey h.1 op k.client.localBuf
  have hw := Buf.read_write_self k.clerk.sendBuf ringHeader (requestHeader op key.length 0 ++ key)
  simp only [List.length_append, length_requestHeader] at hw
  simp only [Conn.request, h.len16, hr, hw]

section
variable {s : State} {c d : Nat} {k k' kd : Conn}

/-- The connections after a move. -/
theorem conns_set_self (hk : s.conns[c]? = some k) : (s.conns.set c k')[c]? = some k' := set_self hk

theorem conns_set_ne (hdc : d ≠ c) : (s.conns.set c k')[d]? = s.conns[d]? :=
  List.getElem?_set_ne (Ne.symm hdc)

theorem conns_set_cases (hk : s.conns[c]? = some k) (hkd : (s.conns.set c k')[d]? = some kd) :
    (d = c ∧ k' = kd) ∨ (d ≠ c ∧ s.conns[d]? = some kd) := set_cases hk hkd

/-- The connections after a new one. -/
theorem conns_append (h : (s.conns ++ [k'])[d]? = some k) :
    s.conns[d]? = some k ∨ (d = s.conns.length ∧ k = k') := append_cases h

end

end PMRAccess.Pmr
