import Mathlib.Data.List.Infix
import PMRAccess.Group.Proof.Held

/-!
# Group commit

`Flow`: the requests go through the queue in order. The batches, one behind the other, are the
requests that have left the queue and the first `inBatch` that are still in it; the leader applies
its batch to the database, then logs it, then pops it (`Stage`). What is logged is what `PutBatch` has
been given, and the log is what it leaves (`Logged`). `group_commit` is what follows for runs: one
leader at a time, every request in one batch, the order of the pushes is that of the database and of
the log, and a reply comes behind both.
-/

namespace PMRAccess.Group

open Lib

/-- No batch is under way: all that are built are applied and logged. -/
def Quiet (h : History) : Prop :=
  h.inBatch = 0 ∧ h.applied.length = h.batches.length ∧ h.logged.length = h.batches.length

/-- The last request of the batch that is under way is the one of clerk `last`. -/
def LastIn (h : History) (last : Nat) : Prop :=
  ((h.pending.take h.inBatch).getLast?).map Prod.fst = some last

/-- The batch under way is the first `inBatch` requests of the queue, and `batch` holds it. -/
def Current (h : History) (batch : WriteBatch) : Prop :=
  h.batches.getLast? = some (h.pending.take h.inBatch) ∧
    Holds batch ((h.pending.take h.inBatch).map Prod.snd)

/-- How far the batch is, by where its leader is. -/
def Stage (h : History) (batch : WriteBatch) : Pc → Prop
  | .linger | .build => Quiet h
  | .putDb last => LastIn h last ∧ Current h batch ∧ h.applied.length + 1 = h.batches.length ∧
    h.logged.length + 1 = h.batches.length
  | .putLog last => LastIn h last ∧ Current h batch ∧ h.applied.length = h.batches.length ∧
    h.logged.length + 1 = h.batches.length
  | .lockPop last | .pop last => LastIn h last ∧ h.applied.length = h.batches.length ∧
    h.logged.length = h.batches.length
  | _ => True

/-- The invariant of the requests (module doc); `db` is the database at start. -/
structure Flow (db : Store) (h : History) (s : State) : Prop where
  queue : s.server.queue = h.pending.map Prod.fst
  held : ∀ (c : Nat) (k : Conn), s.conns[c]? = some k → Held (h.view c) k
  asked : ∀ p ∈ h.pending, ∃ k, s.conns[p.1]? = some k ∧ k.ctl.req? = some p.2
  order : h.pushed = h.batches.flatten ++ h.pending.drop h.inBatch
  bound : h.inBatch ≤ h.pending.length
  applied : h.applied = (h.batches.take h.applied.length).map (List.map fun p => p.2.pair)
  logged : h.logged = (h.batches.take h.logged.length).map (List.flatMap fun p => p.2.bytes)
  stage : ∀ (c : Nat) (k : Conn), s.conns[c]? = some k → Stage h s.server.batch k.pc
  quiet : (∀ (c : Nat) (k : Conn), s.conns[c]? = some k → k.pc.leading = false) → Quiet h
  stored : s.server.db = putPairs db h.applied.flatten

theorem flow_init (batch : WriteBatch) (db : Store) (file : Buf) :
    Flow db History.empty (init batch db file) := by
  constructor <;> simp [init, History.empty, Quiet, putPairs]

section
variable {db : Store} {h : History} {s : State} {c d : Nat} {k k' kd : Conn} {a : Act}
  {sv' : Server} {w : Wake} {es : List Event}

theorem stage_of_not_leading {pc : Pc} (hl : pc.leading = false) (h : History)
    (batch : WriteBatch) : Stage h batch pc := by
  cases pc <;> trivial

/-- A request in the queue is in its clerk's message buffer. -/
theorem Flow.bears (hf : Flow db h s) (hi : Ctrl s) {p : Nat × Req} (hp : p ∈ h.pending) :
    ∃ k, s.conns[p.1]? = some k ∧ Bears k.clerkBuf p.2 ∧ p.2.Fits := by
  obtain ⟨k, hk, hq⟩ := hf.asked p hp
  have hmem : p.1 ∈ s.server.queue := by
    rw [hf.queue]
    exact List.mem_map_of_mem hp
  obtain ⟨hfit, hheld⟩ := (hf.held p.1 k hk).req hq
  refine ⟨k, hk, ?_, hfit⟩
  have hplace := hi.place p.1 k hk
  cases hpc : k.pc <;> simp only [Place, hpc, HeldReq] at hplace hheld <;>
    first | exact hheld.1 | exact absurd hmem hplace | exact absurd hmem hplace.1

/-- A move of `c`: what is left to show of the history and of the stages. -/
theorem Flow.update (hf : Flow db h s) (hk : s.conns[c]? = some k)
    (hm : Move s c k a sv' k' w es) (hx : ∀ x, a = .call x → x.Fits)
    (hqueue : sv'.queue = (h.addAll es).pending.map Prod.fst)
    (hasked : ∀ p ∈ (h.addAll es).pending, p ∈ h.pending ∨ p.1 = c ∧ k.ctl.req? = some p.2)
    (hctl : k'.ctl = k.ctl ∨ c ∉ sv'.queue)
    (horder : (h.addAll es).pushed =
      (h.addAll es).batches.flatten ++ (h.addAll es).pending.drop (h.addAll es).inBatch)
    (hbound : (h.addAll es).inBatch ≤ (h.addAll es).pending.length)
    (happlied : (h.addAll es).applied =
      ((h.addAll es).batches.take (h.addAll es).applied.length).map (List.map fun p => p.2.pair))
    (hlogged : (h.addAll es).logged = ((h.addAll es).batches.take (h.addAll es).logged.length).map
      (List.flatMap fun p => p.2.bytes))
    (hstored : sv'.db = putPairs db (h.addAll es).applied.flatten)
    (hstage : Stage (h.addAll es) sv'.batch k'.pc)
    (hstageo : ∀ (d : Nat) (kd : Conn), d ≠ c → s.conns[d]? = some kd →
      Stage (h.addAll es) sv'.batch kd.pc)
    (hquiet : k'.pc.leading = false →
      (∀ (d : Nat) (kd : Conn), d ≠ c → s.conns[d]? = some kd → kd.pc.leading = false) →
      Quiet (h.addAll es)) :
    Flow db (h.addAll es) ⟨sv', w.apply (s.conns.set c k')⟩ := by
  have hst : ∀ (d : Nat) (k : Conn) (h : History) (b : WriteBatch),
      Stage h b (w.on d k).pc = Stage h b k.pc :=
    fun d k h b => w.on_class k d fun _ _ => rfl
  constructor
  case queue => exact hqueue
  case order => exact horder
  case bound => exact hbound
  case applied => exact happlied
  case logged => exact hlogged
  case stored => exact hstored
  case held =>
    intro d kd hkd
    rcases conns_after hk hkd with ⟨rfl, rfl⟩ | ⟨hdc, k₀, h₀, rfl⟩
    · exact (hm.held (hf.held d k hk) hx).on w d
    · rw [hm.view_ne hdc]
      exact (hf.held d k₀ h₀).on w d
  case asked =>
    intro p hp
    have hmem : p.1 ∈ sv'.queue := hqueue ▸ List.mem_map_of_mem hp
    by_cases hpc : p.1 = c
    · have hr : k.ctl.req? = some p.2 := by
        rcases hasked p hp with hp | ⟨-, hr⟩
        · obtain ⟨k₀, h₀, hr⟩ := hf.asked p hp
          rw [hpc, hk, Option.some.injEq] at h₀
          exact h₀ ▸ hr
        · exact hr
      rcases hctl with hctl | hno
      · exact ⟨w.on c k', by rw [hpc]; exact conns_after_self hk,
          by rw [Wake.on_ctl, hctl]; exact hr⟩
      · exact absurd (hpc ▸ hmem) hno
    · obtain ⟨k₀, h₀, hr⟩ := hf.asked p ((hasked p hp).resolve_right fun h => hpc h.1)
      exact ⟨w.on p.1 k₀, by rw [conns_after_ne hpc, h₀]; rfl, by rw [Wake.on_ctl]; exact hr⟩
  case stage =>
    intro d kd hkd
    rcases conns_after hk hkd with ⟨rfl, rfl⟩ | ⟨hdc, k₀, h₀, rfl⟩
    · rw [hst]
      exact hstage
    · rw [hst]
      exact hstageo d k₀ hdc h₀
  case quiet =>
    intro hno
    refine hquiet ?_ fun d kd hdc hkd => ?_
    · have := hno c _ (conns_after_self hk)
      rwa [Wake.on_leading] at this
    · have := hno d (w.on d kd) (by rw [conns_after_ne hdc, hkd]; rfl)
      rwa [Wake.on_leading] at this

/-- A step that is none of the requests'. -/
theorem Flow.keep (hf : Flow db h s) (hk : s.conns[c]? = some k)
    (hm : Move s c k a sv' k' w es) (hx : ∀ x, a = .call x → x.Fits)
    {led : Nat → Bool} {got : Nat → Option Bytes} (hh : h.addAll es = { h with led, got })
    (hq : sv'.queue = s.server.queue) (hb : sv'.batch = s.server.batch) (hdb : sv'.db = s.server.db)
    (hctl : k'.ctl = k.ctl ∨ c ∉ s.server.queue) (hstage : Stage h s.server.batch k'.pc)
    (hl : k'.pc.leading = true ∨ k.pc.leading = false) :
    Flow db (h.addAll es) ⟨sv', w.apply (s.conns.set c k')⟩ := by
  apply hf.update hk hm hx <;> try rw [hh]
  · exact hq.trans hf.queue
  · exact fun p hp => .inl hp
  · rw [hq]
    exact hctl
  · exact hf.order
  · exact hf.bound
  · exact hf.applied
  · exact hf.logged
  · exact hdb.trans hf.stored
  · rw [hb]
    exact hstage
  · rw [hb]
    exact fun d kd _ hkd => hf.stage d kd hkd
  · intro hno hothers
    refine hf.quiet fun d kd hkd => ?_
    by_cases hdc : d = c
    · subst hdc
      rw [hk, Option.some.injEq] at hkd
      rw [← hkd]
      exact hl.resolve_left (by simp [hno])
    · exact hothers d kd hdc hkd

/-! ## The steps of the requests -/

theorem Flow.push (hf : Flow db h s) (hk : s.conns[c]? = some k) (hp : k.pc = .push) :
    Flow db (h.addAll (k.ctl.pushed c))
      ⟨{ s.server with queue := s.server.queue ++ [c] },
        Wake.none.apply (s.conns.set c { k with pc := .test })⟩ := by
  obtain ⟨q, hq⟩ := (hf.held c k hk).req_of_pc (.inl (by rw [hp]; rfl))
  have hes : k.ctl.pushed c = [.pushed c q] := by simp [Ctl.pushed, hq]
  have htake : (h.pending ++ [(c, q)]).take h.inBatch = h.pending.take h.inBatch :=
    List.take_append_of_le_length hf.bound
  have hstage : ∀ pc, Stage h s.server.batch pc →
      Stage (h.add (.pushed c q)) s.server.batch pc := by
    intro pc hs
    simp only [Stage, Quiet, LastIn, Current] at hs ⊢
    simp only [History.add, htake]
    exact hs
  apply hf.update hk (.push hp) (by simp) <;> try rw [hes, History.addAll_single]
  case hqueue => simp [History.add, hf.queue]
  case hasked =>
    intro p hp
    rcases List.mem_append.1 hp with hp | hp
    · exact .inl hp
    · rw [List.mem_singleton.1 hp]
      exact .inr ⟨rfl, hq⟩
  case hctl => exact .inl rfl
  case horder =>
    simp only [History.add]
    rw [List.drop_append_of_le_length hf.bound, ← List.append_assoc, ← hf.order]
  case hbound =>
    have := hf.bound
    simp only [History.add, List.length_append]
    omega
  case happlied => exact hf.applied
  case hlogged => exact hf.logged
  case hstored => exact hf.stored
  case hstage => exact trivial
  case hstageo => exact fun d kd _ hkd => hstage _ (hf.stage d kd hkd)
  case hquiet =>
    intro _ hno
    refine hf.quiet fun d kd hkd => ?_
    by_cases hdc : d = c
    · subst hdc
      rw [hk, Option.some.injEq] at hkd
      rw [← hkd, hp]
      rfl
    · exact hno d kd hdc hkd

/-- The other clerks do not lead while `c` does. -/
theorem Ctrl.others (hi : Ctrl s) (hk : s.conns[c]? = some k) (hl : k.pc.leading = true) (d : Nat)
    (kd : Conn) (hdc : d ≠ c) (hkd : s.conns[d]? = some kd) : kd.pc.leading = false := by
  by_contra hld
  exact hdc (hi.unique d c kd k hkd hk (by simpa using hld) hl)

/-- The writers in the queue and their requests. -/
theorem Flow.bearAll (hf : Flow db h s) (hi : Ctrl s) :
    BearAll s.writers (h.pending.map Prod.snd) := by
  rw [State.writers, hf.queue, List.map_map]
  unfold BearAll
  rw [List.forall₂_map_left_iff, List.forall₂_map_right_iff, List.forall₂_same]
  intro p hp
  obtain ⟨k, hk, hb, hfit⟩ := hf.bears hi hp
  simpa [hk] using ⟨hb, hfit⟩

theorem Flow.build (hf : Flow db h s) (hi : Ctrl s) (hk : s.conns[c]? = some k)
    (hp : k.pc = .build) {last : Nat}
    (hl : (buildBatchGroup s.server.batch s.writers).lastWriter = some last) :
    Flow db (h.addAll [.built c (buildBatchGroup s.server.batch s.writers).batch.keys.length])
      ⟨{ s.server with batch := (buildBatchGroup s.server.batch s.writers).batch }.unlock,
        Wake.none.apply (s.conns.set c { k with pc := .putDb last })⟩ := by
  obtain ⟨h0, ha, hlg⟩ : Quiet h := by
    have := hf.stage c k hk
    rwa [hp] at this
  have hholds := holds_buildBatchGroup s.server.batch (hf.bearAll hi)
  obtain ⟨n, hn⟩ : ∃ n, n = (taken 0 s.writers).length := ⟨_, rfl⟩
  have hle : n ≤ h.pending.length := by
    have := (taken_front 0 s.writers).length_le
    rw [hn]
    simpa [State.writers, hf.queue] using this
  have hkeys : (buildBatchGroup s.server.batch s.writers).batch.keys.length = n := by
    rw [hholds.keys, ← hn]
    simpa using hle
  have hlast : ((h.pending.take n).getLast?).map Prod.fst = some last := by
    rw [← lastWriter_eq hl, ← List.getLast?_map, ← List.getLast?_map, List.map_take, ← hf.queue, hn]
    have hw : s.writers.map Prod.fst = s.server.queue := by
      rw [State.writers, List.map_map]
      exact List.map_id _
    rw [← hw, ← List.map_take, ← List.prefix_iff_eq_take.1 (taken_front 0 s.writers)]
  have hm : Move s c k .clerk _ _ _ _ := .build hp hl
  rw [hkeys] at hm ⊢
  apply hf.update hk hm (by simp) <;> try rw [History.addAll_single]
  case hqueue => exact hf.queue
  case hasked => exact fun p hp => .inl hp
  case hctl => exact .inl rfl
  case horder =>
    simp only [History.add, List.flatten_append, List.flatten_cons, List.flatten_nil,
      List.append_nil, List.append_assoc, List.take_append_drop]
    rw [hf.order, h0, List.drop_zero]
  case hbound => exact hle
  case happlied =>
    simp only [History.add]
    rw [List.take_append_of_le_length (by omega)]
    exact hf.applied
  case hlogged =>
    simp only [History.add]
    rw [List.take_append_of_le_length (by omega)]
    exact hf.logged
  case hstored => exact hf.stored
  case hstage =>
    refine ⟨hlast, ⟨by simp [History.add], ?_⟩, by simp [History.add, ha], by simp [History.add, hlg]⟩
    rw [← List.map_take, ← hn] at hholds
    exact hholds
  case hstageo =>
    exact fun d kd hdc hkd => stage_of_not_leading (hi.others hk (by rw [hp]; rfl) d kd hdc hkd) _ _
  case hquiet => intro h; cases h

/-- The last of a list, behind those before it. -/
theorem take_succ_of_getLast? {α : Type*} {xs : List α} {x : α} {n : Nat}
    (hx : xs.getLast? = some x) (hn : n + 1 = xs.length) : xs.take (n + 1) = xs.take n ++ [x] := by
  obtain ⟨ys, rfl⟩ := List.getLast?_eq_some_iff.1 hx
  obtain rfl : n = ys.length := by simpa using hn
  rw [List.take_of_length_le (by simp), List.take_left]

theorem putPairs_append (db : Store) (xs ys : List (Bytes × Bytes)) :
    putPairs db (xs ++ ys) = putPairs (putPairs db xs) ys := by simp [putPairs]

theorem Flow.putDb (hf : Flow db h s) (hi : Ctrl s) (hk : s.conns[c]? = some k) {last : Nat}
    (hp : k.pc = .putDb last) :
    Flow db (h.addAll [.applied s.server.batch.pairs])
      ⟨{ s.server with db := putPairs s.server.db s.server.batch.pairs },
        Wake.none.apply (s.conns.set c { k with pc := .putLog last })⟩ := by
  have hst := hf.stage c k hk
  rw [hp] at hst
  obtain ⟨hlast, hcur, ha, hlg⟩ := hst
  have hpairs := hcur.2.pairs
  apply hf.update hk (.putDb hp) (by simp) <;> try rw [History.addAll_single]
  case hqueue => exact hf.queue
  case hasked => exact fun p hp => .inl hp
  case hctl => exact .inl rfl
  case horder => exact hf.order
  case hbound => exact hf.bound
  case happlied =>
    simp only [History.add, List.length_append, List.length_singleton]
    rw [take_succ_of_getLast? hcur.1 ha, List.map_append, ← hf.applied, hpairs, List.map_map]
    rfl
  case hlogged => exact hf.logged
  case hstored =>
    simp only [History.add, List.flatten_append, putPairs_append, ← hf.stored]
    simp
  case hstage => exact ⟨hlast, hcur, by simpa [History.add] using ha, hlg⟩
  case hstageo =>
    exact fun d kd hdc hkd => stage_of_not_leading (hi.others hk (by rw [hp]; rfl) d kd hdc hkd) _ _
  case hquiet => intro h; cases h

theorem Flow.putLog (hf : Flow db h s) (hi : Ctrl s) (hk : s.conns[c]? = some k) {last : Nat}
    (hp : k.pc = .putLog last) :
    Flow db (h.addAll [.logged (s.server.batch.buffer.read 0 s.server.batch.batchLength)])
      ⟨{ s.server with
          log := s.server.log.putBatch (s.server.batch.buffer.read 0 s.server.batch.batchLength) },
        Wake.none.apply (s.conns.set c { k with pc := .lockPop last })⟩ := by
  have hst := hf.stage c k hk
  rw [hp] at hst
  obtain ⟨hlast, hcur, ha, hlg⟩ := hst
  have hbytes := hcur.2.bytes
  apply hf.update hk (.putLog hp) (by simp) <;> try rw [History.addAll_single]
  case hqueue => exact hf.queue
  case hasked => exact fun p hp => .inl hp
  case hctl => exact .inl rfl
  case horder => exact hf.order
  case hbound => exact hf.bound
  case happlied => exact hf.applied
  case hlogged =>
    simp only [History.add, List.length_append, List.length_singleton]
    rw [take_succ_of_getLast? hcur.1 hlg, List.map_append, ← hf.logged, hbytes, List.flatMap_map]
    rfl
  case hstored => exact hf.stored
  case hstage => exact ⟨hlast, ha, by simpa [History.add] using hlg⟩
  case hstageo =>
    exact fun d kd hdc hkd => stage_of_not_leading (hi.others hk (by rw [hp]; rfl) d kd hdc hkd) _ _
  case hquiet => intro h; cases h

/-- The first of the batch is the last one exactly if it is the only one left. -/
theorem LastIn.pop {last : Nat} {p : Nat × Req} {ps : List (Nat × Req)} (hl : LastIn h last)
    (hps : h.pending = p :: ps) (hnd : (h.pending.map Prod.fst).Nodup)
    (hb : h.inBatch ≤ h.pending.length) :
    (p.1 = last ∧ h.inBatch = 1) ∨
      (p.1 ≠ last ∧ 1 < h.inBatch ∧ LastIn (h.add (.popped p.1)) last) := by
  unfold LastIn at *
  rw [hps] at hl hnd
  simp only [History.add, hps, List.tail_cons]
  rcases hn : h.inBatch with _ | _ | n
  · simp [hn] at hl
  · simp only [hn, Nat.zero_add, List.take_succ_cons, List.take_zero, List.getLast?_singleton,
      Option.map_some, Option.some.injEq] at hl
    exact .inl ⟨hl, rfl⟩
  · cases ps with
    | nil => simp [hps, hn] at hb
    | cons p' ps =>
      have hl' : (((p' :: ps).take (n + 1)).getLast?).map Prod.fst = some last := by
        simpa [hn, List.take_succ_cons, List.getLast?_cons_cons] using hl
      refine .inr ⟨?_, by omega, hl'⟩
      -- the last one is further behind, and no clerk is in the queue twice
      obtain ⟨x, hx, rfl⟩ := Option.map_eq_some_iff.1 hl'
      have hmem : x ∈ p' :: ps := List.mem_of_mem_take (List.mem_of_getLast? hx)
      intro he
      exact (List.nodup_cons.1 hnd).1 (he ▸ List.mem_map_of_mem hmem)

theorem Flow.pop (hf : Flow db h s) (hi : Ctrl s) (hk : s.conns[c]? = some k) {last e : Nat}
    {queue : List Nat} (hp : k.pc = .pop last) (hq : s.server.queue = e :: queue) :
    Flow db (h.addAll [.popped e])
      ⟨{ s.server with queue }, (if e ≠ c then Wake.done e else .none).apply
        (s.conns.set c { k with pc := if e = last then .notify else .pop last })⟩ := by
  have hst := hf.stage c k hk
  rw [hp] at hst
  obtain ⟨hlast, ha, hlg⟩ := hst
  have hnd := hi.nodup
  rw [hf.queue] at hnd hq
  obtain ⟨p, ps, hps, rfl, rfl⟩ := List.map_eq_cons_iff.1 hq
  have hpop := hlast.pop hps hnd hf.bound
  have hpos : 0 < h.inBatch := by rcases hpop with h | h <;> omega
  have hadd : h.add (.popped p.1) = { h with pending := ps, inBatch := h.inBatch - 1 } := by
    simp [History.add, hps]
  apply hf.update hk (.pop hp (hf.queue.trans hq)) (by simp) <;>
    try rw [History.addAll_single, hadd]
  case hasked => exact fun p hp => .inl (by rw [hps]; exact List.mem_cons_of_mem _ hp)
  case hctl => exact .inl rfl
  case horder =>
    show h.pushed = h.batches.flatten ++ ps.drop (h.inBatch - 1)
    rw [hf.order, hps, ← Nat.succ_pred_eq_of_pos hpos, List.drop_succ_cons]
    rfl
  case hbound =>
    have := hf.bound
    rw [hps, List.length_cons] at this
    show h.inBatch - 1 ≤ ps.length
    omega
  case happlied => exact hf.applied
  case hlogged => exact hf.logged
  case hstored => exact hf.stored
  case hstage =>
    rw [← hadd]
    rcases hpop with ⟨he, -⟩ | ⟨he, -, hl⟩
    · rw [if_pos he]
      exact trivial
    · rw [if_neg he]
      exact ⟨hl, ha, hlg⟩
  case hstageo =>
    exact fun d kd hdc hkd => stage_of_not_leading (hi.others hk (by rw [hp]; rfl) d kd hdc hkd) _ _
  case hquiet =>
    intro hno _
    rcases hpop with ⟨-, h1⟩ | ⟨he, -, -⟩
    · exact ⟨by rw [h1], ha, hlg⟩
    · simp [he, Pc.leading] at hno

theorem flow_move (hf : Flow db h s) (hi : Ctrl s) (hk : s.conns[c]? = some k)
    (hm : Move s c k a sv' k' w es) (hx : ∀ x, a = .call x → x.Fits) :
    Flow db (h.addAll es) ⟨sv', w.apply (s.conns.set c k')⟩ := by
  have hplace := hi.place c k hk
  have hst := hf.stage c k hk
  have hm' := hm
  cases hm
  case call x hc hp =>
    simp only [Place, hp] at hplace
    exact hf.keep hk hm' hx rfl rfl rfl rfl (.inr hplace) (by rw [Conn.call_pc]; exact trivial)
      (.inr (by rw [hp]; rfl))
  case acked hc hp | got hc hp | deleted hc hp =>
    simp only [Place, hp] at hplace
    exact hf.keep hk hm' hx rfl rfl rfl rfl (.inr hplace) hst (.inr (by rw [hp]; rfl))
  case read hp =>
    have hl : k.read.pc.leading = false ∧ k.read.ctl = k.ctl := by
      unfold Conn.read
      split <;> exact ⟨rfl, rfl⟩
    exact hf.keep hk hm' hx rfl rfl rfl rfl (.inl hl.2) (stage_of_not_leading hl.1 _ _)
      (.inr (by rw [hp]; rfl))
  case dbHit hp _ | dbMiss hp _ | reply hp | lock hp _ | relock hp _ | sleep hp _ _ | wake hp |
      follow hp _ | notify hp =>
    exact hf.keep hk hm' hx rfl rfl rfl rfl (.inl rfl) trivial (.inr (by rw [hp]; rfl))
  case enter hp _ | lockPop hp _ =>
    rw [hp] at hst
    exact hf.keep hk hm' hx rfl rfl rfl rfl (.inl rfl) hst (.inl rfl)
  case lead hp hd hq =>
    -- no clerk was leader: all batches are through
    refine hf.keep hk hm' hx rfl rfl rfl rfl (.inl rfl) (hf.quiet fun d kd hkd => ?_) (.inl rfl)
    by_cases hdc : d = c
    · subst hdc
      rw [hk, Option.some.injEq] at hkd
      rw [← hkd, hp]
      rfl
    · exact hi.no_leader hk hp hq d kd hdc hkd
  case push hp => exact hf.push hk hp
  case build last hp hl => exact hf.build hi hk hp hl
  case putDb last hp => exact hf.putDb hi hk hp
  case putLog last hp => exact hf.putLog hi hk hp
  case pop last e queue hp hq => exact hf.pop hi hk hp hq

theorem Flow.connect (hf : Flow db h s) (localBuf clerkBuf : Buf) :
    Flow db h { s with conns := s.conns ++ [⟨localBuf, clerkBuf, .idle, .poll, false⟩] } := by
  have hold : ∀ {d : Nat} {kd : Conn}, s.conns[d]? = some kd →
      (s.conns ++ [⟨localBuf, clerkBuf, .idle, .poll, false⟩])[d]? = some kd := append_some
  constructor
  case queue => exact hf.queue
  case order => exact hf.order
  case bound => exact hf.bound
  case applied => exact hf.applied
  case logged => exact hf.logged
  case stored => exact hf.stored
  case held =>
    intro d kd hkd
    rcases append_cases hkd with hkd | ⟨-, rfl⟩
    · exact hf.held d kd hkd
    · rfl
  case asked =>
    intro p hp
    obtain ⟨kd, hkd, hr⟩ := hf.asked p hp
    exact ⟨kd, hold hkd, hr⟩
  case stage =>
    intro d kd hkd
    rcases append_cases hkd with hkd | ⟨-, rfl⟩
    · exact hf.stage d kd hkd
    · trivial
  case quiet => exact fun hno => hf.quiet fun d kd hkd => hno d kd (hold hkd)

theorem flow_step {s' : State} {l : Label} (hf : Flow db h s) (hi : Ctrl s) (hg : Fit s l)
    (hs : step s l = some (s', es)) : Flow db (h.addAll es) s' := by
  cases step_cases hs with
  | connect hl => exact hf.connect _ _
  | conn hl hk hm =>
    exact flow_move hf hi hk hm fun x hx => hg x (by simp [hl, hx, Label.call?])

end

theorem flow_run {batch : WriteBatch} {db : Store} {file : Buf} {tr : List Event} {s : State}
    (hr : Run Fit batch db file tr s) : Ctrl s ∧ Flow db (hist tr) s :=
  Run.invariant (I := fun h s => Ctrl s ∧ Flow db h s) ⟨ctrl_init batch db file, flow_init batch db file⟩
    (fun h hp hs => ⟨ctrl_step h.1 hs, flow_step h.2 h.1 hp hs⟩) hr

/-! ## What is applied and logged -/

section
variable {db : Store} {h : History} {s : State}

/-- The log is up with the batches, or one behind while a batch is under way; the database is up
with the log, or one batch ahead while a leader is between its two `PutBatch` calls. -/
theorem Flow.progress (hf : Flow db h s) :
    (h.logged.length = h.batches.length ∧ h.applied.length = h.batches.length) ∨
      (h.logged.length + 1 = h.batches.length ∧
        h.batches.getLast? = some (h.pending.take h.inBatch) ∧
        (h.applied.length = h.logged.length ∨ h.applied.length = h.batches.length ∧
          ∃ (c : Nat) (k : Conn) (last : Nat), s.conns[c]? = some k ∧ k.pc = .putLog last)) := by
  by_cases hl : ∀ (c : Nat) (k : Conn), s.conns[c]? = some k → k.pc.leading = false
  · exact .inl ⟨(hf.quiet hl).2.2, (hf.quiet hl).2.1⟩
  · simp only [not_forall, Bool.not_eq_false] at hl
    obtain ⟨c, k, hk, hl⟩ := hl
    have hst := hf.stage c k hk
    cases hp : k.pc <;> simp only [hp, Pc.leading, Bool.false_eq_true, Stage] at hl hst
    case linger | build | lockPop | pop => exact .inl ⟨hst.2.2, hst.2.1⟩
    case putDb last =>
      obtain ⟨-, hcur, ha, hlg⟩ := hst
      exact .inr ⟨hlg, hcur.1, .inl (by omega)⟩
    case putLog last =>
      obtain ⟨-, hcur, ha, hlg⟩ := hst
      exact .inr ⟨hlg, hcur.1, .inr ⟨ha, c, k, last, hk, hp⟩⟩

/-- What is not yet in the log is in the queue. -/
theorem Flow.uncommitted (hf : Flow db h s) :
    ∃ ps, h.pushed = h.committed ++ ps ∧ ∀ p ∈ ps, p ∈ h.pending := by
  rw [hf.order]
  rcases hf.progress with ⟨hlg, -⟩ | ⟨hlg, hlast, -⟩
  · refine ⟨h.pending.drop h.inBatch, ?_, fun p hp => List.mem_of_mem_drop hp⟩
    rw [History.committed, hlg, List.take_length]
  · refine ⟨h.pending, ?_, fun p hp => hp⟩
    have hb := take_succ_of_getLast? hlast hlg
    rw [hlg, List.take_length] at hb
    rw [hb, List.flatten_append, List.append_assoc, History.committed]
    simp

/-- The requests of a clerk that is not in the queue are all in the log. -/
theorem Flow.committed_of_notMem (hf : Flow db h s) {c : Nat} (hc : c ∉ s.server.queue) :
    itemsOf c h.committed = itemsOf c h.pushed := by
  obtain ⟨ps, hps, hmem⟩ := hf.uncommitted
  have hnil : itemsOf c ps = [] := by
    rw [List.eq_nil_iff_forall_not_mem]
    intro q hq
    have := List.mem_map_of_mem (f := Prod.fst) (hmem _ ((mem_itemsOf c).1 hq))
    rw [← hf.queue] at this
    exact hc this
  rw [hps, itemsOf_append, hnil, List.append_nil]

/-- The requests of a clerk that has answered: the last is that of the call, and all are committed. -/
theorem Flow.committed_of_answered (hf : Flow db h s) (hi : Ctrl s) {c : Nat} {k : Conn} {q : Req}
    (hk : s.conns[c]? = some k) (hq : k.ctl.req? = some q) (hp : k.pc = .reply ∨ k.pc = .poll) :
    (itemsOf c h.pushed).getLast? = some q ∧ itemsOf c h.committed = itemsOf c h.pushed := by
  have hplace := hi.place c k hk
  have hheld := ((hf.held c k hk).req hq).2
  rcases hp with hp | hp <;>
  · simp only [Place, HeldReq, hp] at hplace hheld
    exact ⟨hheld.1, hf.committed_of_notMem hplace⟩

/-- The order of the queue is the order of the database and of the log. -/
structure InOrder (db : Store) (h : History) (s : State) : Prop where
  /-- the batches are the pushed requests in order: each is in one batch at most -/
  batches : h.batches.flatten <+: h.pushed
  stored : h.stored <+: h.batches.flatten
  committed : h.committed <+: h.stored
  applied : h.applied.flatten = h.stored.map fun p => p.2.pair
  logged : h.logged.flatten = h.committed.flatMap fun p => p.2.bytes
  db : s.server.db = putPairs db h.applied.flatten
  idle : s.server.queue = [] → h.committed = h.pushed

theorem flatten_take_front {α : Type*} (xss : List (List α)) {m n : Nat} (hmn : m ≤ n) :
    (xss.take m).flatten <+: (xss.take n).flatten :=
  List.IsPrefix.flatten (List.take_prefix_take_left hmn)

theorem flatMap_flatten {α β : Type*} (xss : List (List α)) (f : α → List β) :
    xss.flatten.flatMap f = (xss.map (List.flatMap f)).flatten := by
  induction xss with
  | nil => rfl
  | cons xs xss ih => simp [ih]

theorem Flow.inOrder (hf : Flow db h s) : InOrder db h s := by
  obtain ⟨hla, hab⟩ : h.logged.length ≤ h.applied.length ∧ h.applied.length ≤ h.batches.length := by
    rcases hf.progress with h | h <;> omega
  constructor
  case batches => exact ⟨_, hf.order.symm⟩
  case stored =>
    have := flatten_take_front h.batches hab
    rwa [List.take_length] at this
  case committed => exact flatten_take_front h.batches hla
  case applied =>
    rw [History.stored, List.map_flatten, ← hf.applied]
  case logged =>
    rw [History.committed, flatMap_flatten, ← hf.logged]
  case db => exact hf.stored
  case idle =>
    intro hq
    obtain ⟨ps, hps, hmem⟩ := hf.uncommitted
    rw [hf.queue, List.map_eq_nil_iff] at hq
    have : ps = [] := List.eq_nil_iff_forall_not_mem.2 fun p hp => by
      have := hmem p hp
      rw [hq] at this
      cases this
    rw [hps, this, List.append_nil]

end

/-! ## The log -/

/-- A new log after these calls of `PutBatch`. -/
def RingLog.putBatches (file : Buf) (bss : List Bytes) : RingLog :=
  bss.foldl RingLog.putBatch (.new file)

theorem RingLog.putBatches_snoc (file : Buf) (bss : List Bytes) (bs : Bytes) :
    putBatches file (bss ++ [bs]) = (putBatches file bss).putBatch bs := by
  simp [putBatches]

/-- Up to the end of its region the log is the bytes handed to it, one behind the other. -/
theorem RingLog.file_putBatches (file : Buf) (bss : List Bytes)
    (h : bss.flatten.length ≤ preallocateSize) :
    (putBatches file bss).file.read 0 bss.flatten.length = bss.flatten ∧
      (bss.flatten.length < preallocateSize →
        (putBatches file bss).offset = bss.flatten.length) := by
  induction bss using List.reverseRecOn with
  | nil => exact ⟨rfl, fun _ => rfl⟩
  | append_singleton bss bs ih =>
    simp only [List.flatten_append, List.flatten_singleton, List.length_append,
      putBatches_snoc] at h ⊢
    obtain ⟨hread, hoff⟩ := ih (by omega)
    rcases Nat.lt_or_ge bss.flatten.length preallocateSize with hlt | hge
    · have ho := hoff hlt
      refine ⟨?_, fun _ => ?_⟩
      · rw [Buf.read_add, Nat.zero_add, putBatch, ho, Buf.read_write_self,
          Buf.read_write_of_disjoint (.inl (by omega)), hread]
      · rw [putBatch, if_pos (by omega), ho]
    · -- no byte is left to be handed over
      obtain rfl : bs = [] := List.eq_nil_of_length_eq_zero (by omega)
      have hw : ∀ x, (putBatches file bss).file.write x [] = (putBatches file bss).file :=
        fun x => funext fun y =>
        Buf.write_of_outside (by rw [List.length_nil]; omega)
      refine ⟨?_, fun hlt => absurd hlt (by rw [List.length_nil]; omega)⟩
      simpa [putBatch, hw] using hread

/-- The log has what was handed to it: the bytes of the committed requests. -/
structure Logged (file : Buf) (h : History) (s : State) : Prop where
  bytes : h.logged.flatten = h.committed.flatMap fun p => p.2.bytes
  log : s.server.log = .putBatches file h.logged
  /-- up to the end of the region they are in the file, one behind the other -/
  file : h.logged.flatten.length ≤ preallocateSize →
    s.server.log.file.read 0 h.logged.flatten.length = h.logged.flatten

/-! ## Runs -/

section
variable {batch : WriteBatch} {db : Store} {file : Buf} {tr : List Event} {s : State}

theorem logged_run (hr : Run Fit batch db file tr s) : Logged file (hist tr) s := by
  have hlog : s.server.log = .putBatches file (hist tr).logged := by
    refine Run.invariant (I := fun h s => s.server.log = .putBatches file h.logged) rfl ?_ hr
    intro h s l s' es hi _ hs
    cases step_cases hs with
    | connect hl => exact hi
    | @conn c a k _ _ _ _ hl hk hm =>
      cases hm
      case putLog =>
        show RingLog.putBatch _ _ = _
        rw [hi]
        exact (RingLog.putBatches_snoc file h.logged _).symm
      case push =>
        unfold Ctl.pushed
        cases k.ctl.req? <;> exact hi
      all_goals exact hi
  refine ⟨(flow_run hr).2.inOrder.logged, hlog, fun hlen => ?_⟩
  rw [hlog]
  exact (RingLog.file_putBatches file _ hlen).1

/-- The event of a clerk's or client's move. -/
theorem move_of_event {P : State → Label → Prop} (hr : Run P batch db file tr s) {n : Nat}
    {e : Event} (he : tr[n]? = some e) :
    ∃ s₁ c a k sv' k' w, Run P batch db file (tr.take n) s₁ ∧ s₁.conns[c]? = some k ∧
      Move s₁ c k a sv' k' w [e] := by
  obtain ⟨s₁, l, s₂, hr₁, -, hs⟩ := Steps.of_event step_events hr he
  generalize hes : [e] = es at hs
  cases step_cases hs with
  | connect hl => cases hes
  | conn hl hk hm =>
    subst hes
    exact ⟨s₁, _, _, _, _, _, _, hr₁, hk, hm⟩

/-- The static batch is rebuilt by a leader only. -/
theorem batch_step {s' : State} {l : Label} {es : List Event} {c : Nat} {k : Conn} (hi : Ctrl s)
    (hk : s.conns[c]? = some k) (hu : k.pc.inUse = true) (hs : step s l = some (s', es)) :
    s'.server.batch = s.server.batch := by
  cases step_cases hs with
  | connect hl => rfl
  | conn hl hkd hm =>
    cases hm
    case build hp _ =>
      -- the one that builds is a leader too, hence this one, which has built
      have hlead : k.pc.leading = true := by
        revert hu
        cases k.pc <;> simp [Pc.inUse, Pc.leading]
      obtain rfl := hi.unique _ c _ k hkd hk (by rw [hp]; rfl) hlead
      rw [hk, Option.some.injEq] at hkd
      rw [hkd, hp] at hu
      cases hu
    all_goals rfl

/-- **Group commit.** In every run: at most one clerk leads, and while its batch is in use no step
rebuilds it; the batches are the pushed requests in order, the database has the effect of the first
of them, the log has the bytes of those of the batches that are logged, and all of them once the
queue is empty; and when a clerk replies to a logged request, every request it has pushed is in the
log. -/
theorem group_commit (hr : Run Fit batch db file tr s) :
    (∀ (c d : Nat) (k kd : Conn), s.conns[c]? = some k → s.conns[d]? = some kd →
      k.pc.leading = true → kd.pc.leading = true → c = d) ∧
    (∀ (c : Nat) (k : Conn) (l : Label) (s' : State) (es : List Event), s.conns[c]? = some k →
      k.pc.inUse = true → step s l = some (s', es) → s'.server.batch = s.server.batch) ∧
    InOrder db (hist tr) s ∧ Logged file (hist tr) s ∧
    ∀ (n c : Nat) (q : Req) (status valSize : Nat),
      tr[n]? = some (.replied c (some q) status valSize) →
      (itemsOf c (hist (tr.take n)).pushed).getLast? = some q ∧
        itemsOf c (hist (tr.take n)).committed = itemsOf c (hist (tr.take n)).pushed := by
  obtain ⟨hi, hf⟩ := flow_run hr
  refine ⟨hi.unique, fun c k l s' es hk hu hs => batch_step hi hk hu hs, hf.inOrder,
    logged_run hr, ?_⟩
  intro n c q status valSize he
  obtain ⟨s₁, d, a, k, sv', k', w, hr₁, hk, hm⟩ := move_of_event hr he
  obtain ⟨hi₁, hf₁⟩ := flow_run hr₁
  obtain ⟨rfl, hp, hq, -⟩ := hm.of_replied (List.mem_singleton.2 rfl)
  exact hf₁.committed_of_answered hi₁ hk hq.symm (.inl hp)

/-- Two clients, whose requests go into one batch. -/
theorem group_commit_two :
    ∃ tr s, Sched.Runs Fit tr s ∧
      tr[11]? = some (.replied 1 (some (.write ⟨.update, [1], [20]⟩)) 0 0) ∧
      itemsOf 1 (hist (tr.take 11)).committed = [.write ⟨.update, [1], [20]⟩] ∧
      InOrder (fun _ => none) (hist tr) s ∧ Logged Sched.zeros (hist tr) s := by
  have hr : Sched.Runs Fit _ _ := Steps.of_exec_get (Sched.connect 2 ++
    Sched.push 0 (.write ⟨.put, [1], [10]⟩) ++ Sched.clerk 0 1 ++
    Sched.push 1 (.write ⟨.update, [1], [20]⟩) ++ Sched.clerk 1 1 ++ Sched.clerk 0 4 ++
    Sched.finish 0 2 ++ Sched.follow 1) (by decide +kernel)
  obtain ⟨-, -, horder, hlog, hreply⟩ := group_commit hr
  exact ⟨_, _, hr, rfl, (hreply 11 1 _ 0 0 rfl).2.trans rfl, horder, hlog⟩

end

end PMRAccess.Group
