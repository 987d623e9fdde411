import Mathlib.Data.List.Nodup
import PMRAccess.Pmr.Proof.Moves

/-!
# Who holds a chunk

A chunk is held by an open clerk that obtained it and has not enqueued it (`Conn.holds`), or by the
uring side: as an item of the queue, as a write on the ring, or as the completion `FreeChunk` works
on (`uringChunks`). `Hand` is what a connection's move does to the holders: nothing, giving its
chunk to the queue, taking a chunk whose bit it found clear, or (a `CLOSE` of an empty chunk)
dropping it. From it follow `Own`, the invariant of every run (each chunk has at most one holder,
and the bit of a held chunk is set), and `NoLeak`, that of the runs without empty `CLOSE`s.
-/

namespace PMRAccess.Pmr

open Lib

/-! ## Holders -/

/-- The chunk an open clerk holds, by where it is and its cursor. -/
def held : Pc → Nat → Option Nat
  | .scan _, _ | .trySet _, _ | .done, _ => none
  | _, off => if off < uint32Max then some (off / maxAsyncSize) else none

def Conn.holds (k : Conn) : Option Nat := held k.pc k.clerk.chunkOffset

theorem held_some {pc : Pc} {off i : Nat} (h : held pc off = some i) :
    off < uint32Max ∧ off / maxAsyncSize = i := by
  unfold held at h
  split at h
  iterate 3 · cases h
  split at h
  · rename_i hlt; exact ⟨hlt, Option.some.inj h⟩
  · cases h

theorem held_of_lt {pc : Pc} {off : Nat} (h : off < uint32Max) (h1 : ∀ i, pc ≠ .scan i)
    (h2 : ∀ i, pc ≠ .trySet i) (h3 : pc ≠ .done) : held pc off = some (off / maxAsyncSize) := by
  unfold held
  split <;> simp_all

/-- The chunk of the completion the uring thread works on, up to the clearing of its bit. -/
def UringPc.chunk : UringPc → List Nat
  | .check cqe | .clear cqe => [cqe.data]
  | _ => []

/-- The chunks on their way to the log. -/
def uringChunks (sv : Server) : List Nat :=
  sv.queue.map (·.2.chunk) ++ sv.ring.sq.map (·.item.chunk) ++ sv.ring.flight.map (·.item.chunk) ++
    sv.ring.cq.map (·.data) ++ sv.uring.chunk

/-! ## Moves of a connection -/

/-- A clerk's cursor is unset or the offset of a chunk, and unset only until its first `ALLOC` is
answered. -/
structure ConnOwn (k : Conn) : Prop where
  off : k.clerk.chunkOffset = uint32Max ∨ ∃ i < chunks, k.clerk.chunkOffset = maxAsyncSize * i
  first : k.clerk.chunkOffset = uint32Max →
    (k.pc = .read ∧ reqOp k.clerk.sendBuf = some .alloc) ∨ (∃ i, k.pc = .scan i) ∨
      ∃ i, k.pc = .trySet i

theorem chunk_offset {i : Nat} (h : i < chunks) :
    maxAsyncSize * i < uint32Max ∧ maxAsyncSize * i / maxAsyncSize = i ∧
      maxAsyncSize * i % 2 ^ 32 = maxAsyncSize * i := by
  have h' : i < 256 := h
  simp only [maxAsyncSize, uint32Max]
  omega

theorem ConnOwn.offset_of_holds {k : Conn} (h : ConnOwn k) {i : Nat} (hi : k.holds = some i) :
    i < chunks ∧ k.clerk.chunkOffset = maxAsyncSize * i := by
  have hlt := held_some hi
  rcases h.off with hoff | ⟨j, hj, hoff⟩
  · omega
  · rw [hoff, (chunk_offset hj).2.1] at hlt
    exact ⟨hlt.2 ▸ hj, hlt.2 ▸ hoff⟩

/-- Outside `blindset` and behind the first `ALLOC` the cursor is set. -/
theorem ConnOwn.offset_lt {k : Conn} (h : ConnOwn k) (h1 : ∀ i, k.pc ≠ .scan i)
    (h2 : ∀ i, k.pc ≠ .trySet i) (h3 : k.pc = .read → reqOp k.clerk.sendBuf ≠ some .alloc) :
    k.clerk.chunkOffset < uint32Max := by
  rcases h.off with hoff | ⟨i, hi, hoff⟩
  · exfalso
    rcases h.first hoff with ⟨hp, ho⟩ | ⟨i, hp⟩ | ⟨i, hp⟩
    · exact h3 hp ho
    · exact h1 i hp
    · exact h2 i hp
  · rw [hoff]
    exact (chunk_offset hi).1

/-- There a clerk holds a chunk until it ends. -/
theorem ConnOwn.exists_chunk {k : Conn} (h : ConnOwn k) (h1 : ∀ i, k.pc ≠ .scan i)
    (h2 : ∀ i, k.pc ≠ .trySet i) (h3 : k.pc ≠ .done)
    (h4 : k.pc = .read → reqOp k.clerk.sendBuf ≠ some .alloc) :
    ∃ i < chunks, k.holds = some i ∧ k.clerk.chunkOffset = maxAsyncSize * i := by
  have hh : k.holds = some (k.clerk.chunkOffset / maxAsyncSize) :=
    held_of_lt (h.offset_lt h1 h2 h4) h1 h2 h3
  obtain ⟨hi, hoff⟩ := h.offset_of_holds hh
  exact ⟨_, hi, hh, hoff⟩

/-- What a connection's move does to the holders (module doc). -/
inductive Hand (sv : Server) (c : Nat) (k : Conn) (sv' : Server) (k' : Conn) (es : List Event) : Prop
  | keep (hb : ∀ j, sv'.bitmap.bit j = sv.bitmap.bit j) (hq : uringChunks sv' = uringChunks sv)
      (hh : k'.holds = k.holds) (hf : ∀ it, .flushed c it ∉ es) (ha : ∀ i, .alloced c i ∉ es)
  | give {i : Nat} {it : Item} (hb : sv'.bitmap = sv.bitmap)
      (hq : (uringChunks sv').Perm (i :: uringChunks sv)) (hh : k.holds = some i)
      (hh' : k'.holds = none) (hf : es = [.flushed c it]) (hi : it.chunk = i)
  | take {i : Nat} (hi : i < chunks) (hc : sv.bitmap.bit i = false)
      (hb : ∀ j, sv'.bitmap.bit j = if j = i then true else sv.bitmap.bit j)
      (hq : uringChunks sv' = uringChunks sv) (hp : k.pc = .trySet i) (hh' : k'.holds = some i)
      (ha : es = [.alloced c i])
  | drop (hb : sv'.bitmap = sv.bitmap) (hq : uringChunks sv' = uringChunks sv) (hp : k.pc = .read)
      (ho : reqOp k.clerk.sendBuf = some .close) (he : k.clerk.bufHead = 0) (hh' : k'.holds = none)
      (hes : es = [])

section
variable {sv sv' : Server} {c : Nat} {k k' : Conn} {a : Act} {es : List Event}

theorem move_connOwn (hsz : sv.bitmap.size = chunks) (ho : ConnOwn k)
    (hm : Move sv c k a sv' k' es) : ConnOwn k' := by
  cases hm
  case readBad | setAbort => exact ho
  case readFirst => exact ⟨ho.off, fun _ => .inr (.inl ⟨0, rfl⟩)⟩
  case scan pc hp hpc =>
    refine ⟨ho.off, fun _ => .inr ?_⟩
    rcases hpc with ⟨j, rfl⟩ | ⟨-, rfl⟩
    · exact .inl ⟨j, rfl⟩
    · exact .inr ⟨_, rfl⟩
  case setTaken => exact ⟨ho.off, fun _ => .inr (.inl ⟨_, rfl⟩)⟩
  case setFree i bm hp hbm =>
    have hi : i < chunks := hsz ▸ (AtomicBitset.set_some hbm).1
    have hoff : (k.clerk.takeChunk i).chunkOffset = maxAsyncSize * i := (chunk_offset hi).2.2
    have hlt := (chunk_offset hi).1
    exact ⟨.inr ⟨i, hi, hoff⟩, fun h => by rw [← hoff] at hlt; dsimp only at h; omega⟩
  case readPut hp hr =>
    refine ⟨ho.off, fun h => absurd h (ho.offset_lt (by simp [hp]) (by simp [hp]) fun _ => ?_).ne⟩
    rcases hr with hr | hr <;> simp [hr]
  all_goals
    refine ⟨ho.off, fun h => absurd h (ho.offset_lt ?_ ?_ ?_).ne⟩ <;> simp_all

theorem move_hand (hsz : sv.bitmap.size = chunks) (ho : ConnOwn k)
    (hm : Move sv c k a sv' k' es) : Hand sv c k sv' k' es := by
  cases hm
  case readFirst hp _ hoff =>
    exact .keep (fun _ => rfl) rfl (by simp [Conn.holds, held, hp, hoff]) (by simp) (by simp)
  case readCloseEmpty hp hr hh => exact .drop rfl rfl hp hr hh rfl rfl
  case enqueue closing tmp i hp hk =>
    have hlt := ho.offset_lt (by simp [hp]) (by simp [hp]) (by simp [hp])
    refine .give rfl ?_ (held_of_lt hlt (by simp [hp]) (by simp [hp]) (by simp [hp]))
      (by cases closing <;> rfl) rfl rfl
    rw [List.perm_iff_count]
    intro x
    simp only [uringChunks, List.map_append, List.map_cons, List.map_nil, List.count_append,
      List.count_cons, List.count_nil]
    omega
  case scan pc hp hpc =>
    refine .keep (fun _ => rfl) rfl ?_ (by simp) (by simp)
    rcases hpc with ⟨j, rfl⟩ | ⟨-, rfl⟩ <;> simp [Conn.holds, held, hp]
  case setTaken i bm hp hbm =>
    refine .keep (fun j => ?_) rfl (by simp [Conn.holds, held, hp]) (by simp) (by simp)
    obtain ⟨-, hb, -, h3⟩ := AtomicBitset.set_some hbm
    rw [h3]
    split
    · rename_i hj; rw [hj, hb]
    · rfl
  case setFree i bm hp hbm =>
    obtain ⟨hi, hb, -, h3⟩ := AtomicBitset.set_some hbm
    have hi' : i < chunks := by omega
    refine .take hi' hb h3 rfl hp ?_ rfl
    have hoff : (k.clerk.takeChunk i).chunkOffset = maxAsyncSize * i := (chunk_offset hi').2.2
    simp [Conn.holds, held, hoff, chunk_offset hi']
  case insert key m hp =>
    refine .keep (fun _ => rfl) rfl (by simp only [Conn.holds, hp]; rfl) ?_ ?_ <;>
      (unfold Ctl.handled; split <;> simp)
  all_goals
    refine .keep (fun _ => rfl) rfl ?_ (by simp) (by simp)
    first
      | rfl
      | (simp only [Conn.holds, *]; rfl)

theorem move_size (hm : Move sv c k a sv' k' es) : sv'.bitmap.size = sv.bitmap.size := by
  cases hm
  case setTaken i bm hp hbm | setFree i bm hp hbm =>
    exact (AtomicBitset.set_some hbm).2.2.1
  all_goals rfl

theorem Move.clerk_of_read (hm : Move sv c k a sv' k' es) (hp : k.pc = .read) :
    ∃ b, a = .clerk b := by
  cases hm <;> simp_all

end

/-! ## Turns of the ring -/

/-- What a turn of the ring does to the holders: chunks move on, or the one under work is freed. -/
inductive Pass (sv sv' : Server) : Prop
  | keep (hb : sv'.bitmap = sv.bitmap) (hq : (uringChunks sv).Perm (uringChunks sv'))
  | free {i : Nat} (hb : ∀ j, sv'.bitmap.bit j = if j = i then false else sv.bitmap.bit j)
      (hq : (uringChunks sv).Perm (i :: uringChunks sv'))

section
variable {sv sv' : Server} {w : Option (Sqe × Int)} {es : List Event}

theorem turn_pass (ht : Turn sv w sv' es) : Pass sv sv' := by
  cases ht
  case dequeue p it queue hu hf hq hs =>
    have hp := (takeFrom_perm hq).map (fun x : Nat × Item => x.2.chunk)
    refine .keep rfl (List.perm_iff_count.2 fun x => ?_)
    have := hp.count_eq x
    simp only [uringChunks, List.map_append, List.map_cons, List.map_nil, List.count_append,
      List.count_cons, List.count_nil] at this ⊢
    omega
  case abort | idle => exact .keep rfl (.refl _)
  case submit hu he =>
    refine .keep rfl (List.perm_iff_count.2 fun x => ?_)
    simp only [uringChunks, IOuring.submit, hu, UringPc.chunk, List.map_append, List.map_nil,
      List.count_append, List.count_nil]
    omega
  case wait cqe cq hu hc =>
    refine .keep rfl (List.perm_iff_count.2 fun x => ?_)
    simp only [uringChunks, hu, hc, UringPc.chunk, List.map_cons, List.count_append,
      List.count_cons, List.count_nil]
    omega
  case check cqe hu hd => exact .keep rfl (by simp [uringChunks, hu, UringPc.chunk])
  case clear cqe old bm hu hc =>
    refine .free (AtomicBitset.clear_some hc).2.2.2 (List.perm_iff_count.2 fun x => ?_)
    simp only [uringChunks, hu, UringPc.chunk, List.count_append, List.count_cons, List.count_nil]
    omega
  case seen cqe hu => exact .keep rfl (by simp [uringChunks, hu, UringPc.chunk, IOuring.seen])
  case complete j res sqe hj hr =>
    obtain ⟨hlt, rfl⟩ := List.getElem?_eq_some_iff.1 hj
    have hp := (List.getElem_cons_eraseIdx_perm hlt).map (·.item.chunk)
    refine .keep rfl (List.perm_iff_count.2 fun x => ?_)
    have := hp.count_eq x
    simp only [uringChunks, List.map_append, List.map_cons, List.map_nil, List.count_append,
      List.count_cons, List.count_nil] at this ⊢
    omega

theorem turn_size (ht : Turn sv w sv' es) : sv'.bitmap.size = sv.bitmap.size := by
  cases ht
  case clear hc => exact (AtomicBitset.clear_some hc).2.2.1
  all_goals rfl

end

/-! ## The invariant -/

/-- Every chunk has at most one holder, and the bit of a held chunk is set. -/
structure Own (s : State) : Prop where
  size : s.server.bitmap.size = chunks
  conn : ∀ (c : Nat) (k : Conn), s.conns[c]? = some k → ConnOwn k
  bit : ∀ (c : Nat) (k : Conn) (i : Nat), s.conns[c]? = some k → k.holds = some i →
    s.server.bitmap.bit i = true
  excl : ∀ (c d : Nat) (k k' : Conn) (i : Nat), s.conns[c]? = some k → s.conns[d]? = some k' →
    k.holds = some i → k'.holds = some i → c = d
  nodup : (uringChunks s.server).Nodup
  uring : ∀ i ∈ uringChunks s.server, i < chunks ∧ s.server.bitmap.bit i = true
  disj : ∀ (c : Nat) (k : Conn) (i : Nat), s.conns[c]? = some k → k.holds = some i →
    i ∉ uringChunks s.server

theorem Own.offset {s : State} (h : Own s) {c i : Nat} {k : Conn} (hk : s.conns[c]? = some k)
    (hi : k.holds = some i) : i < chunks ∧ k.clerk.chunkOffset = maxAsyncSize * i :=
  (h.conn c k hk).offset_of_holds hi

theorem own_init (mem file : Buf) (db : Store) : Own (init mem file db) where
  size := rfl
  conn := by simp [init]
  bit := by simp [init]
  excl := by simp [init]
  nodup := by simp [init, uringChunks, IOuring.new, UringPc.chunk]
  uring := by simp [init, uringChunks, IOuring.new, UringPc.chunk]
  disj := by simp [init]

theorem connOwn_new (localBuf sendBuf : Buf) : ConnOwn (Conn.new localBuf sendBuf) := by
  refine ⟨.inl rfl, fun _ => .inl ⟨rfl, ?_⟩⟩
  exact reqOp_of_header (k := 0) (v := 0)
    (by simpa [Conn.new] using read_request (show KeyFits [] by decide) _ .alloc (.alloc none))

section
variable {s : State} {c : Nat} {k k' : Conn} {sv' : Server}

/-- The holders among the connections after a move of `c`. -/
theorem holds_set {d i : Nat} {kd : Conn} (hk : s.conns[c]? = some k)
    (hd : (s.conns.set c k')[d]? = some kd) (hh : k'.holds = k.holds ∨ k'.holds = none)
    (hi : kd.holds = some i) : ∃ k₀, s.conns[d]? = some k₀ ∧ k₀.holds = some i := by
  rcases conns_set_cases hk hd with ⟨rfl, rfl⟩ | ⟨-, hd⟩
  · rcases hh with hh | hh
    · exact ⟨k, hk, hh ▸ hi⟩
    · rw [hh] at hi; cases hi
  · exact ⟨kd, hd, hi⟩

/-- A move that takes no chunk: the holders among the connections stay or become fewer, and the
uring side has what it had and the chunks given to it. -/
theorem own_less (h : Own s) (hk : s.conns[c]? = some k) (ho : ConnOwn k')
    (hsz : sv'.bitmap.size = chunks) (hb : ∀ j, sv'.bitmap.bit j = s.server.bitmap.bit j)
    (hh : k'.holds = k.holds ∨ k'.holds = none) (given : List Nat)
    (hg : ∀ i ∈ given, k.holds = some i ∧ k'.holds = none) (hnd : given.Nodup)
    (hq : (uringChunks sv').Perm (given ++ uringChunks s.server)) :
    Own ⟨sv', s.conns.set c k'⟩ where
  size := hsz
  conn d kd hd := by
    rcases conns_set_cases hk hd with ⟨-, rfl⟩ | ⟨-, hd⟩
    · exact ho
    · exact h.conn d kd hd
  bit d kd i hd hi := by
    obtain ⟨k₀, h1, h2⟩ := holds_set hk hd hh hi
    rw [hb]
    exact h.bit d k₀ i h1 h2
  excl d e kd ke i hd he hi hi' := by
    obtain ⟨k₀, h1, h2⟩ := holds_set hk hd hh hi
    obtain ⟨k₁, h3, h4⟩ := holds_set hk he hh hi'
    exact h.excl d e k₀ k₁ i h1 h3 h2 h4
  nodup := by
    rw [hq.nodup_iff, List.nodup_append]
    exact ⟨hnd, h.nodup, fun a ha b hb hab => h.disj c k a hk (hg a ha).1 (hab ▸ hb)⟩
  uring i hi := by
    rw [hq.mem_iff, List.mem_append] at hi
    simp only [hb]
    rcases hi with hi | hi
    · exact ⟨(h.offset hk (hg i hi).1).1, h.bit c k i hk (hg i hi).1⟩
    · exact h.uring i hi
  disj d kd i hd hi hm := by
    obtain ⟨k₀, h1, h2⟩ := holds_set hk hd hh hi
    rw [hq.mem_iff, List.mem_append] at hm
    rcases hm with hm | hm
    · -- the giver holds nothing any more
      obtain ⟨hi', hn⟩ := hg i hm
      have := h.excl d c k₀ k i h1 hk h2 hi'
      subst this
      obtain rfl := Option.some.inj ((conns_set_self hk).symm.trans hd)
      rw [hn] at hi
      cases hi
    · exact h.disj d k₀ i h1 h2 hm

/-- A move that takes a chunk: its bit was clear, so nobody held it. -/
theorem own_take (h : Own s) (hk : s.conns[c]? = some k) (ho : ConnOwn k')
    (hsz : sv'.bitmap.size = chunks) {i : Nat} (hc : s.server.bitmap.bit i = false)
    (hb : ∀ j, sv'.bitmap.bit j = if j = i then true else s.server.bitmap.bit j)
    (hq : uringChunks sv' = uringChunks s.server) (hh' : k'.holds = some i) :
    Own ⟨sv', s.conns.set c k'⟩ := by
  have hno : ∀ (d : Nat) (kd : Conn), s.conns[d]? = some kd → kd.holds ≠ some i := by
    intro d kd hd hi
    have := h.bit d kd i hd hi
    rw [hc] at this
    cases this
  have hcase : ∀ {d j : Nat} {kd : Conn}, (s.conns.set c k')[d]? = some kd → kd.holds = some j →
      (d = c ∧ j = i) ∨ (d ≠ c ∧ j ≠ i ∧ s.conns[d]? = some kd) := by
    intro d j kd hd hj
    rcases conns_set_cases hk hd with ⟨he, rfl⟩ | ⟨he, hd⟩
    · rw [hh', Option.some.injEq] at hj
      exact .inl ⟨he, hj.symm⟩
    · exact .inr ⟨he, fun hji => hno d kd hd (hji ▸ hj), hd⟩
  refine ⟨hsz, ?_, ?_, ?_, hq ▸ h.nodup, ?_, ?_⟩
  · intro d kd hd
    rcases conns_set_cases hk hd with ⟨-, rfl⟩ | ⟨-, hd⟩
    · exact ho
    · exact h.conn d kd hd
  · intro d kd j hd hj
    simp only [hb]
    rcases hcase hd hj with ⟨-, rfl⟩ | ⟨-, hne, hd'⟩
    · simp
    · simp [hne, h.bit d kd j hd' hj]
  · intro d e kd ke j hd he hj hj'
    rcases hcase hd hj with ⟨rfl, rfl⟩ | ⟨-, hne, hd'⟩ <;>
      rcases hcase he hj' with ⟨rfl, h2⟩ | ⟨-, hne', he'⟩
    · rfl
    · exact absurd rfl hne'
    · exact absurd h2 hne
    · exact h.excl d e kd ke j hd' he' hj hj'
  · intro j hj
    rw [hq] at hj
    obtain ⟨h1, h2⟩ := h.uring j hj
    simp only [hb]
    split <;> simp_all
  · intro d kd j hd hj hmem
    rw [hq] at hmem
    rcases hcase hd hj with ⟨-, rfl⟩ | ⟨-, -, hd'⟩
    · have := (h.uring j hmem).2
      rw [hc] at this
      cases this
    · exact h.disj d kd j hd' hj hmem

theorem own_move {a : Act} {es : List Event} (h : Own s) (hk : s.conns[c]? = some k)
    (hm : Move s.server c k a sv' k' es) : Own ⟨sv', s.conns.set c k'⟩ := by
  have ho := move_connOwn h.size (h.conn c k hk) hm
  have hsz : sv'.bitmap.size = chunks := (move_size hm).trans h.size
  cases move_hand h.size (h.conn c k hk) hm with
  | keep hb hq hh _ _ =>
    exact own_less h hk ho hsz hb (.inl hh) [] (by simp) (by simp) (by simp [hq])
  | drop hb hq _ _ _ hh' _ =>
    exact own_less h hk ho hsz (fun j => by rw [hb]) (.inr hh') [] (by simp) (by simp)
      (by simp [hq])
  | @give i _ hb hq hh hh' _ _ =>
    exact own_less h hk ho hsz (fun j => by rw [hb]) (.inr hh') [i] (by simp [hh, hh'])
      (by simp) (by simpa using hq)
  | take _ hc hb hq _ hh' _ => exact own_take h hk ho hsz hc hb hq hh'

theorem own_turn {w : Option (Sqe × Int)} {es : List Event} (h : Own s)
    (ht : Turn s.server w sv' es) : Own { s with server := sv' } := by
  have hsz : sv'.bitmap.size = chunks := (turn_size ht).trans h.size
  cases turn_pass ht with
  | keep hb hq =>
    refine ⟨hsz, h.conn, ?_, h.excl, hq.nodup_iff.1 h.nodup, ?_, ?_⟩
    · simpa only [hb] using h.bit
    · intro i hi
      simp only [hb]
      exact h.uring i (hq.mem_iff.2 hi)
    · intro d kd i hd hi hmem
      exact h.disj d kd i hd hi (hq.mem_iff.2 hmem)
  | @free i hb hq =>
    have hnd := hq.nodup_iff.1 h.nodup
    rw [List.nodup_cons] at hnd
    have hi := h.uring i (hq.mem_iff.2 (by simp))
    refine ⟨hsz, h.conn, ?_, h.excl, hnd.2, ?_, ?_⟩
    · intro d kd j hd hj
      have hne : j ≠ i := fun hji => h.disj d kd j hd hj (hq.mem_iff.2 (by simp [hji]))
      simp [hb, hne, h.bit d kd j hd hj]
    · intro j hj
      have hne : j ≠ i := fun hji => hnd.1 (hji ▸ hj)
      have := h.uring j (hq.mem_iff.2 (by simp [hj]))
      exact ⟨this.1, by simp [hb, hne, this.2]⟩
    · intro d kd j hd hj hmem
      exact h.disj d kd j hd hj (hq.mem_iff.2 (by simp [hmem]))

theorem own_connect (h : Own s) (localBuf sendBuf : Buf) :
    Own { s with conns := s.conns ++ [Conn.new localBuf sendBuf] } := by
  have hcase : ∀ {d i : Nat} {kd : Conn},
      (s.conns ++ [Conn.new localBuf sendBuf])[d]? = some kd → kd.holds = some i →
      s.conns[d]? = some kd := by
    intro d i kd hd hi
    rcases conns_append hd with hd | ⟨-, rfl⟩
    · exact hd
    · cases hi
  refine ⟨h.size, ?_, fun d kd i hd hi => h.bit d kd i (hcase hd hi) hi,
    fun d e kd ke i hd he hi hi' => h.excl d e kd ke i (hcase hd hi) (hcase he hi') hi hi',
    h.nodup, h.uring, fun d kd i hd hi => h.disj d kd i (hcase hd hi) hi⟩
  intro d kd hd
  rcases conns_append hd with hd | ⟨-, rfl⟩
  · exact h.conn d kd hd
  · exact connOwn_new localBuf sendBuf

/-- **One step keeps the holders apart.** -/
theorem own_step {s' : State} {l : Label} {es : List Event} (h : Own s)
    (hs : step s l = some (s', es)) : Own s' := by
  cases step_cases hs with
  | connect hl => exact own_connect h _ _
  | conn hl hk hm => exact own_move h hk hm
  | ring hc ht => exact own_turn h ht

theorem own_run {P : State → Label → Prop} {mem file : Buf} {db : Store} {tr : List Event}
    (h : Run P mem file db tr s) : Own s :=
  Run.invariant (I := fun _ s => Own s) (own_init mem file db) (fun h _ hs => own_step h hs) h

end

/-! ## The holders of a chunk -/

/-- A clerk, or a place in the queue, on the ring or in the uring thread. -/
inductive Holder
  | clerk (c : Nat)
  | uring (n : Nat)
  deriving DecidableEq, Repr

def Holds (s : State) (i : Nat) : Holder → Prop
  | .clerk c => s.conns[c]?.bind Conn.holds = some i
  | .uring n => (uringChunks s.server)[n]? = some i

theorem holds_clerk {s : State} {i c : Nat} :
    Holds s i (.clerk c) ↔ ∃ k, s.conns[c]? = some k ∧ k.holds = some i := by
  simp [Holds, Option.bind_eq_some_iff]

theorem exists_holds {s : State} {i : Nat} :
    (∃ h, Holds s i h) ↔ (∃ (c : Nat) (k : Conn), s.conns[c]? = some k ∧ k.holds = some i) ∨
      i ∈ uringChunks s.server := by
  constructor
  · rintro ⟨c | n, h⟩
    · exact .inl ⟨c, holds_clerk.1 h⟩
    · exact .inr (List.mem_of_getElem? h)
  · rintro (⟨c, h⟩ | h)
    · exact ⟨.clerk c, holds_clerk.2 h⟩
    · obtain ⟨n, hn⟩ := List.mem_iff_getElem?.1 h
      exact ⟨.uring n, hn⟩

theorem Own.holder_unique {s : State} (h : Own s) {i : Nat} {x y : Holder} (hx : Holds s i x)
    (hy : Holds s i y) : x = y := by
  cases x with
  | clerk c =>
    obtain ⟨k, hk, hi⟩ := holds_clerk.1 hx
    cases y with
    | clerk d =>
      obtain ⟨k', hk', hi'⟩ := holds_clerk.1 hy
      rw [h.excl c d k k' i hk hk' hi hi']
    | uring n => exact absurd (List.mem_of_getElem? hy) (h.disj c k i hk hi)
  | uring n =>
    cases y with
    | clerk d =>
      obtain ⟨k', hk', hi'⟩ := holds_clerk.1 hy
      exact absurd (List.mem_of_getElem? hx) (h.disj d k' i hk' hi')
    | uring m =>
      obtain ⟨hn, hx⟩ := List.getElem?_eq_some_iff.1 hx
      obtain ⟨hm, hy⟩ := List.getElem?_eq_some_iff.1 hy
      rw [(List.Nodup.getElem_inj_iff h.nodup).1 (hx.trans hy.symm)]

theorem Own.holder_bit {s : State} (h : Own s) {i : Nat} {x : Holder} (hx : Holds s i x) :
    i < chunks ∧ s.server.bitmap.bit i = true := by
  rcases exists_holds.1 ⟨x, hx⟩ with ⟨c, k, hk, hi⟩ | hi
  · exact ⟨(h.offset hk hi).1, h.bit c k i hk hi⟩
  · exact h.uring i hi

/-- **Chunks are exclusive**: in every run no chunk has two holders, every held chunk has its bit
set, and both assertions of `FreeChunk` hold whenever it is called. -/
theorem chunks_exclusive {mem file : Buf} {db : Store} {tr : List Event} {s : State}
    (h : Run Any mem file db tr s) :
    (∀ i x y, Holds s i x → Holds s i y → x = y) ∧
      (∀ i x, Holds s i x → i < chunks ∧ s.server.bitmap.bit i = true) ∧
      ∀ cqe, s.server.uring = .check cqe →
        cqe.data < maxDmabufSize / maxAsyncSize ∧ s.server.bitmap.get cqe.data = some true := by
  have ho := own_run h
  refine ⟨fun i x y => ho.holder_unique, fun i x => ho.holder_bit, fun cqe hu => ?_⟩
  have hm : cqe.data ∈ uringChunks s.server := by simp [uringChunks, hu, UringPc.chunk]
  obtain ⟨hlt, hb⟩ := ho.uring _ hm
  have hsize : s.server.bitmap.size ≤ 2 ^ 64 - bitsPerBlock := by rw [ho.size]; decide
  exact ⟨hlt, by rw [AtomicBitset.get_eq (AtomicBitset.addressed (ho.size ▸ hlt) hsize), hb]⟩

/-- Two clients, the chunk of the first on its way through the ring. -/
def exclusiveLabels : List Label :=
  Sched.connect 0 0 ++ Sched.connect 1 1 ++ Sched.write 0 ⟨.put, [1], [10]⟩ ++ Sched.close 0 1 ++
    (Sched.drain 0 10).take 4

theorem chunks_exclusive_ring :
    ∃ tr s, Run Any Sched.zeros Sched.zeros (fun _ => none) tr s ∧ Holds s 0 (.uring 0) ∧
      Holds s 1 (.clerk 1) ∧ s.server.bitmap.bit 0 = true ∧
      ∀ x, Holds s 0 x → x = .uring 0 := by
  have hr : Run Any Sched.zeros Sched.zeros (fun _ => none) _ _ :=
    Steps.of_exec_get exclusiveLabels (by decide)
  have h0 : Holds ((exec step Any (init Sched.zeros Sched.zeros fun _ => none)
      exclusiveLabels).get (by decide)).1 0 (.uring 0) := rfl
  obtain ⟨h1, h2, -⟩ := chunks_exclusive hr
  exact ⟨_, _, hr, h0, rfl, (h2 0 _ h0).2, fun x hx => h1 0 x _ hx h0⟩

/-! ## Leaks -/

/-- The clerk about to handle a `CLOSE` in the step. -/
def Label.closing? (s : State) : Label → Option Clerk
  | .conn c (.clerk _) =>
    match s.conns[c]? with
    | some k =>
      match k.pc with
      | .read => if reqOp k.clerk.sendBuf = some .close then some k.clerk else none
      | _ => none
    | none => none
  | _ => none

/-- Clerks handle `CLOSE` only with records in their chunk. -/
def NonEmptyClose (s : State) (l : Label) : Prop := ∀ cl ∈ l.closing? s, 0 < cl.bufHead

instance (s : State) (l : Label) : Decidable (NonEmptyClose s l) :=
  inferInstanceAs (Decidable (∀ cl ∈ l.closing? s, 0 < cl.bufHead))

/-- Every set bit belongs to a held chunk. -/
def NoLeak (s : State) : Prop := ∀ i, s.server.bitmap.bit i = true → ∃ x, Holds s i x

theorem noLeak_step {s s' : State} {l : Label} {es : List Event} (ho : Own s) (h : NoLeak s)
    (hg : NonEmptyClose s l) (hs : step s l = some (s', es)) : NoLeak s' := by
  intro i hb
  cases step_cases hs with
  | connect hl =>
    rcases exists_holds.1 (h i hb) with ⟨c, k, hk, hi⟩ | hi
    · exact exists_holds.2 (.inl ⟨c, k, append_some hk, hi⟩)
    · exact exists_holds.2 (.inr hi)
  | @conn c a k k' sv' es hl hk hm =>
    -- a holder other than `c` stays; `c` itself keeps its chunk or gives it away
    have hother : ∀ d kd, d ≠ c → s.conns[d]? = some kd → (s.conns.set c k')[d]? = some kd := by
      intro d kd hd hkd
      exact (conns_set_ne hd).trans hkd
    have hself : (s.conns.set c k')[c]? = some k' := conns_set_self hk
    rw [exists_holds]
    cases move_hand ho.size (ho.conn c k hk) hm with
    | keep hb' hq hh _ _ =>
      rcases exists_holds.1 (h i (hb' i ▸ hb)) with ⟨d, kd, hkd, hi⟩ | hi
      · by_cases hd : d = c
        · subst hd
          rw [hk, Option.some.injEq] at hkd
          exact .inl ⟨d, k', hself, by rw [hh, hkd, hi]⟩
        · exact .inl ⟨d, kd, hother d kd hd hkd, hi⟩
      · exact .inr (hq ▸ hi)
    | @give j _ hb' hq hh hh' _ _ =>
      rcases exists_holds.1 (h i (by rw [← hb']; exact hb)) with ⟨d, kd, hkd, hi⟩ | hi
      · by_cases hd : d = c
        · subst hd
          rw [hk, Option.some.injEq] at hkd
          rw [hkd, hi, Option.some.injEq] at hh
          exact .inr (hq.mem_iff.2 (by simp [hh]))
        · exact .inl ⟨d, kd, hother d kd hd hkd, hi⟩
      · exact .inr (hq.mem_iff.2 (by simp [hi]))
    | @take j hj hc hb' hq hp hh' _ =>
      by_cases hij : i = j
      · exact .inl ⟨c, k', hself, hij ▸ hh'⟩
      · simp only [hb', hij, ↓reduceIte] at hb
        rcases exists_holds.1 (h i hb) with ⟨d, kd, hkd, hi⟩ | hi
        · have hd : d ≠ c := by
            rintro rfl
            rw [hk, Option.some.injEq] at hkd
            rw [← hkd, Conn.holds, hp] at hi
            cases hi
          exact .inl ⟨d, kd, hother d kd hd hkd, hi⟩
        · exact .inr (hq ▸ hi)
    | drop hb' hq hp hr he hh' _ =>
      -- the guard excludes this one
      obtain ⟨b, rfl⟩ := hm.clerk_of_read hp
      have := hg k.clerk (by simp [Label.closing?, hl, hk, hp, hr])
      omega
  | ring hc ht =>
    rw [exists_holds]
    cases turn_pass ht with
    | keep hb' hq =>
      rcases exists_holds.1 (h i (by rw [← hb']; exact hb)) with hi | hi
      · exact .inl hi
      · exact .inr (hq.mem_iff.1 hi)
    | @free j hb' hq =>
      simp only [hb'] at hb
      split at hb
      · cases hb
      · rename_i hij
        rcases exists_holds.1 (h i hb) with hi | hi
        · exact .inl hi
        · refine .inr ?_
          have := hq.mem_iff.1 hi
          simpa [hij] using this

/-- **No chunk leaks** in the runs in which clerks handle `CLOSE` only with records in their chunk:
every set bit belongs to a chunk that a clerk, the queue or the ring holds, and when all connections
have ended and the queue and the ring are empty, all bits are clear. -/
theorem chunks_no_leak {mem file : Buf} {db : Store} {tr : List Event} {s : State}
    (h : Run NonEmptyClose mem file db tr s) :
    (∀ i, s.server.bitmap.bit i = true → ∃ x, Holds s i x) ∧
      ((∀ k ∈ s.conns, k.pc = .done) → uringChunks s.server = [] →
        ∀ i, s.server.bitmap.bit i = false) := by
  have hn : NoLeak s := (Run.invariant (I := fun _ s => Own s ∧ NoLeak s)
    ⟨own_init mem file db, fun i hi => by simp [init, AtomicBitset.bit_new] at hi⟩
    (fun h hg hs => ⟨own_step h.1 hs, noLeak_step h.1 h.2 hg hs⟩) h).2
  refine ⟨hn, fun hd hu i => ?_⟩
  by_contra hb
  rcases exists_holds.1 (hn i (by simpa using hb)) with ⟨c, k, hk, hi⟩ | hi
  · rw [Conn.holds, hd k (List.mem_of_getElem? hk)] at hi
    cases hi
  · rw [hu] at hi
    cases hi

theorem chunks_no_leak_close :
    ∃ tr s, Run NonEmptyClose Sched.zeros Sched.zeros (fun _ => none) tr s ∧ s.conns.length = 1 ∧
      ∀ i, s.server.bitmap.bit i = false := by
  have hr : Run NonEmptyClose Sched.zeros Sched.zeros (fun _ => none) _ _ :=
    Steps.of_exec_get (Sched.connect 0 0 ++ Sched.write 0 ⟨.put, [1], [10]⟩ ++
      Sched.close 0 1 ++ Sched.drain 0 10) (by decide)
  refine ⟨_, _, hr, rfl, (chunks_no_leak hr).2 (fun k hk => ?_) rfl⟩
  obtain rfl := List.mem_singleton.1 hk
  rfl

/-- A client that connects and closes without a write leaves its chunk allocated for good. -/
theorem chunks_leak_empty_close :
    ¬ ∀ (mem file : Buf) (db : Store) (tr : List Event) (s : State), Run Any mem file db tr s →
      (∀ i, s.server.bitmap.bit i = true → ∃ x, Holds s i x) ∧
        ((∀ k ∈ s.conns, k.pc = .done) → uringChunks s.server = [] →
          ∀ i, s.server.bitmap.bit i = false) := by
  intro h
  have hr : Run Any Sched.zeros Sched.zeros (fun _ => none) _ _ :=
    Steps.of_exec_get (Sched.connect 0 0 ++ (Sched.close 0 0).take 2) (by decide)
  have hb := (h _ _ _ _ _ hr).2 (fun k hk => by obtain rfl := List.mem_singleton.1 hk; rfl) rfl 0
  exact absurd hb (by decide)

end PMRAccess.Pmr
