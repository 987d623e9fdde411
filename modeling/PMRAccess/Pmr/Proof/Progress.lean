import PMRAccess.Lib.Progress
import PMRAccess.Pmr.Proof.Data
import PMRAccess.Pmr.Proof.UringRun

/-!
# Every call of the PMR front end returns

If clients start no new calls and spinning is not counted (`Prompt`: a clerk moves on in `blindset`
only while a bit is clear, and sees the bits as they are; the uring thread does not poll an empty
ring), every run of clients, clerks, the uring thread and the kernel ends, in whatever order they
take their steps, and then every call has returned. `work` is what the connections and the ring have
still to do, `search` how far the clerks in `blindset` are from a clear bit: a step that leaves the
work as it is brings one of them nearer.

A clerk in `blindset` always finds a bit in the end: if all are set, one of the chunks is with the
queue or the ring, as no more connections are open than there are chunks and none has leaked.
-/

namespace PMRAccess.Pmr

open Lib

/-! ## The runs -/

def Label.fails : Label → Bool
  | .waitFail => true
  | _ => false

/-- The clerk of a client that calls `SendClose`. -/
def Label.closes? (s : State) : Label → Option Clerk
  | .conn c (.call .close) => s.conns[c]?.map Conn.clerk
  | _ => none

/-- Requests fit, clients close only with records in their chunk, and `Wait` does not fail. -/
def Orderly (s : State) (l : Label) : Prop :=
  Fit s l ∧ (∀ cl ∈ l.closes? s, 0 < cl.bufHead) ∧ l.fails = false

instance (s : State) (l : Label) : Decidable (Orderly s l) :=
  inferInstanceAs (Decidable (Fit s l ∧ (∀ cl ∈ l.closes? s, 0 < cl.bufHead) ∧ l.fails = false))

/-- Threads finish what is under way (module doc). -/
def Prompt (s : State) : Label → Prop
  | .connect _ _ | .conn _ (.call _) | .waitFail => False
  | .conn c (.clerk seen) => ∀ (k : Conn) (i : Nat), s.conns[c]? = some k → k.pc = .scan i →
    (∃ j < chunks, s.server.bitmap.bit j = false) ∧ (i < chunks → seen = s.server.bitmap.bit i)
  | .uring => s.server.uring = .poll → s.server.ring.empty = false
  | .conn _ .client | .dequeue _ | .complete _ _ => True

/-- Every call has returned, and the clerks of closed connections have ended; no assertion has
failed. -/
structure Returned (s : State) : Prop where
  calls : ∀ (c : Nat) (k : Conn), s.conns[c]? = some k →
    k.ctl = .idle ∨ k.ctl = .close ∧ k.pc = .done
  alive : s.server.aborted = false

def Pc.ended : Pc → Bool
  | .done => true
  | _ => false

/-- The connections whose clerk has not ended. -/
def openConns (s : State) : Finset Nat :=
  (Finset.range s.conns.length).filter fun c => s.conns[c]?.map (·.pc.ended) = some false

/-! ## What is left of a run -/

/-- The steps of a client behind the reply. -/
def Conn.rest (k : Conn) : Nat :=
  match k.ctl with
  | .idle | .close => 0
  | .write _ | .get _ | .delete _ | .alloc none => 1
  | .post _ => k.clerk.keyBatch.length + 15
  | .alloc (some _) => k.clerk.keyBatch.length + 16

/-- The steps of a connection, and the eight of the chunk that a flush enqueues. -/
def Conn.weight (k : Conn) : Nat :=
  match k.pc with
  | .done => 0
  | .poll => k.rest
  | .reply => k.rest + 1
  | .insert _ _ | .copy _ _ | .dbGet _ | .dbDelete _ | .scan _ | .trySet _ => k.rest + 2
  | .find _ => k.rest + 3
  | .erase _ _ j => (k.clerk.keyBatch.length - j) + k.rest + 11
  | .putBatch _ _ => k.clerk.keyBatch.length + k.rest + 12
  | .read => k.clerk.keyBatch.length + k.rest + 13

/-- The steps of the ring. -/
def Server.weight (sv : Server) : Nat :=
  8 * sv.queue.length + 7 * sv.ring.sq.length + 6 * sv.ring.flight.length + 5 * sv.ring.cq.length +
    match sv.uring with
    | .check _ => 4
    | .clear _ => 3
    | .seen _ => 2
    | .poll => 1
    | .wait => 0

def work (s : State) : Nat := total (fun _ => Conn.weight) s.conns + s.server.weight

/-- How far bit `i` is from a clear one, behind the last bit from the first one on. -/
def distance (bitmap : AtomicBitset) (i : Nat) : Nat :=
  (chunks - i) + (if ∃ j < chunks, i ≤ j ∧ bitmap.bit j = false then 0 else chunks + 3) + 2

def Conn.search (bitmap : AtomicBitset) (k : Conn) : Nat :=
  match k.pc with
  | .scan i => distance bitmap i
  | .trySet i => if bitmap.bit i then distance bitmap (i + 1) + 1 else 1
  | _ => 0

def search (s : State) : Nat := total (fun _ => Conn.search s.server.bitmap) s.conns

section
variable {sv sv' : Server} {c : Nat} {k k' : Conn} {a : Act} {es : List Event}
  {bitmap : AtomicBitset} {i : Nat}

/-! ## Moves -/

/-- One step of `blindset`, with a load that sees the bit as it is. -/
theorem scan_search {b : Bool} (hfree : ∃ j < chunks, bitmap.bit j = false)
    (hb : i < chunks → b = bitmap.bit i) (hp : k.pc = .scan i) (hk' : k' = { k with
      pc := if i < chunks then if b then .scan (i + 1) else .trySet i else .scan 0 }) :
    k'.search bitmap < k.search bitmap := by
  obtain ⟨j, hj, hbit⟩ := hfree
  have h0 : distance bitmap 0 = chunks + 2 := by
    rw [distance, if_pos ⟨j, hj, Nat.zero_le _, hbit⟩]
    rfl
  subst hk'
  simp only [Conn.search, hp]
  by_cases hi : i < chunks
  · simp only [hi, if_true, hb hi]
    cases hbi : bitmap.bit i with
    | false =>
      simp only [hbi, Bool.false_eq_true, if_false, distance]
      omega
    | true =>
      -- a clear bit from `i` on is not `i`
      have hiff : (∃ j < chunks, i ≤ j ∧ bitmap.bit j = false) ↔
          ∃ j < chunks, i + 1 ≤ j ∧ bitmap.bit j = false := by
        constructor
        · rintro ⟨j, hj, hle, hbit⟩
          refine ⟨j, hj, Nat.lt_of_le_of_ne hle ?_, hbit⟩
          rintro rfl
          rw [hbi] at hbit
          cases hbit
        · rintro ⟨j, hj, hle, hbit⟩
          exact ⟨j, hj, by omega, hbit⟩
      simp only [if_true, distance, hiff]
      omega
  · have hno : ¬ ∃ j < chunks, i ≤ j ∧ bitmap.bit j = false := by
      rintro ⟨j, hj, hle, -⟩
      omega
    simp only [hi, if_false, h0]
    rw [distance, if_neg hno]
    omega

/-- The other moves: the work gets less, or the clerk has found the bit taken. -/
theorem Move.weight_less (hm : Move sv c k a sv' k' es) (hcall : ∀ x, a ≠ .call x)
    (hscan : ∀ i, k.pc ≠ .scan i) (ha : sv'.aborted = false) :
    k'.weight + sv'.weight < k.weight + sv.weight ∨
      k'.weight = k.weight ∧ sv'.weight = sv.weight ∧ sv'.bitmap.bit = sv.bitmap.bit ∧
        k'.search sv'.bitmap < k.search sv.bitmap := by
  cases hm
  case callPost | callFull | callGet | callDelete | callAlloc | callClose => exact absurd rfl (hcall _)
  case scan hp _ => exact absurd hp (hscan _)
  case readBad | setAbort => cases ha
  case setTaken i bm hp hset =>
    obtain ⟨-, hb, -, h3⟩ := AtomicBitset.set_some hset
    have hbit : bm.bit = sv.bitmap.bit := by
      funext j
      rw [h3]
      split
      · rename_i hj
        rw [hj, hb]
      · rfl
    refine .inr ⟨by simp [Conn.weight, Conn.rest, hp], rfl, hbit, ?_⟩
    simp only [Conn.search, hp, hb, if_true, distance, hbit]
    omega
  case enqueue closing tmp i hp hk =>
    refine .inl ?_
    have hr : { k with clerk := k.clerk.dropBatch, pc := .scan 0 }.rest ≤ k.rest := by
      simp only [Conn.rest, Clerk.dropBatch, List.length_nil]
      split <;> omega
    cases closing <;>
      simp only [Conn.weight, hp, Server.weight, List.length_append, List.length_singleton,
        Bool.false_eq_true, if_false, if_true] at hr ⊢ <;> omega
  case setFree i bm hp hset =>
    refine .inl ?_
    simp only [Conn.weight, Conn.rest, hp, Server.weight, Clerk.takeChunk]
    omega
  case insert key m hp =>
    refine .inl ?_
    simp only [Conn.weight, Conn.rest, hp, Server.weight, Clerk.advance]
    omega
  case post r hc hp | allocEnd hc hp | allocNext r hc hp | ack r hc hp | got key hc hp |
      deleted key hc hp =>
    refine .inl ?_
    simp only [Conn.weight, Conn.rest, Conn.postRecord, Conn.prepare, hp, hc, Server.weight]
    omega
  case erase closing tmp i key hp hk =>
    refine .inl ?_
    have hi := (List.getElem?_eq_some_iff.1 hk).1
    simp only [Conn.weight, Conn.rest, hp, Server.weight]
    omega
  case readPut hp ho =>
    refine .inl ?_
    have hr : { k with clerk := k.clerk.emplace, pc := .reply }.rest ≤ k.rest + 1 := by
      simp only [Conn.rest, Clerk.emplace, List.length_append, List.length_singleton]
      split <;> omega
    simp only [Conn.weight, hp] at hr ⊢
    simp only [Conn.rest] at hr ⊢
    omega
  case readCloseEmpty hp ho hh =>
    refine .inl ?_
    simp only [Conn.weight, hp]
    omega
  case readGet hp _ | readDelete hp _ | readAlloc hp _ _ | readFirst hp _ _ | readClose hp _ _ |
      findHit hp _ | findMiss hp _ | copy hp | dbHit hp _ | dbMiss hp _ | dbDelete hp |
      putBatch hp | reply hp =>
    refine .inl ?_
    simp only [Conn.weight, Conn.rest, Clerk.setReply, hp, Server.weight]
    omega

/-! ## Turns of the ring -/

theorem dequeueStep_less {p : Nat} (h : dequeueStep sv p = some (sv', es))
    (ha : sv'.aborted = false) : sv'.weight < sv.weight := by
  unfold dequeueStep at h
  split at h
  · split at h
    · cases h
    · split at h
      · cases h
      · rename_i it queue hq
        have hlen := (takeFrom_perm hq).length_eq
        rw [List.length_cons] at hlen
        simp only [IOuring.write] at h
        by_cases hs : sv.ring.sq.length < sv.ring.qd
        · simp only [hs, if_true, Option.some.injEq, Prod.mk.injEq] at h
          obtain ⟨rfl, -⟩ := h
          simp only [Server.weight, List.length_append, List.length_cons, List.length_nil]
          omega
        · simp only [hs, if_false, Option.some.injEq, Prod.mk.injEq] at h
          obtain ⟨rfl, -⟩ := h
          cases ha
  · cases h

theorem uringStep_less (hg : sv.uring = .poll → sv.ring.empty = false)
    (h : uringStep sv = some sv') (ha : sv'.aborted = false) : sv'.weight < sv.weight := by
  unfold uringStep at h
  split at h
  · rename_i hu
    rw [if_neg (by simp [hg hu])] at h
    cases h
    simp only [Server.weight, IOuring.submit, hu, List.length_append, List.length_nil]
    omega
  · rename_i hu
    cases hw : sv.ring.wait with
    | none => simp [hw] at h
    | some r =>
      obtain ⟨cqe, ring⟩ := r
      simp only [hw, Option.some.injEq] at h
      subst h
      unfold IOuring.wait at hw
      split at hw
      · cases hw
      · rename_i hc
        cases hw
        simp only [Server.weight, hu, hc, List.length_cons]
        omega
  · rename_i hu
    split at h <;> cases h
    · simp [Server.weight, hu]
    · cases ha
  · rename_i hu
    split at h <;> cases h
    · cases ha
    · simp [Server.weight, hu]
  · rename_i hu
    cases h
    simp [Server.weight, hu, IOuring.seen]

theorem complete_less {j : Nat} {res : Int} {ring : IOuring}
    (h : sv.ring.complete j res = some ring) : { sv with ring }.weight < sv.weight := by
  unfold IOuring.complete at h
  split at h
  · cases h
  · rename_i hj
    split at h
    · cases h
      have hlt := (List.getElem?_eq_some_iff.1 hj).1
      simp only [Server.weight, List.length_append, List.length_singleton, List.length_eraseIdx,
        if_pos hlt]
      omega
    · cases h

end

/-! ## The invariant -/

/-- Nothing has been aborted, and nothing will be: the bits that clerks try are bits of the map. No
chunk has leaked, and none will: a `CLOSE` that is posted finds records. -/
structure Live (h : History) (s : State) : Prop where
  data : Data h s
  leak : NoLeak s
  ring : ∃ tr, UringRun.Inv 64 tr s.server
  tries : ∀ (c : Nat) (k : Conn) (i : Nat), s.conns[c]? = some k → k.pc = .trySet i → i < chunks
  closing : ∀ (c : Nat) (k : Conn), s.conns[c]? = some k → k.pc = .read → k.ctl = .close →
    0 < k.clerk.bufHead
  alive : s.server.aborted = false

section
variable {h : History} {s s' : State} {l : Label} {es : List Event} {c : Nat} {k k' : Conn} {a : Act}
  {sv' : Server}

theorem Own.addressed (ho : Own s) {i : Nat} (hi : i < chunks) : s.server.bitmap.Addressed i :=
  AtomicBitset.addressed (by rw [ho.size]; exact hi) (by rw [ho.size]; decide)

theorem Move.of_trySet {sv : Server} {i : Nat} (hm : Move sv c k a sv' k' es)
    (hp : k'.pc = .trySet i) : k.pc = .trySet i ∨ i < sv.bitmap.size := by
  cases hm
  case scan i pc hpc h' =>
    rcases h' with ⟨j, rfl⟩ | ⟨hi, rfl⟩
    · cases hp
    · cases hp
      exact .inr hi
  case enqueue closing _ _ _ _ => cases closing <;> cases hp
  all_goals first
    | cases hp
    | exact .inl hp

/-- The assertions of the server hold and its clerks read only requests. -/
theorem alive_step (hl : Live h s) (hf : l.fails = false) (hs : step s l = some (s', es)) :
    s'.server.aborted = false := by
  have ho := hl.data.own
  unfold step at hs
  rw [if_neg (by simp [hl.alive])] at hs
  cases l with
  | connect => cases hs; exact hl.alive
  | conn c a =>
    simp only at hs
    split at hs
    · cases hs
    rename_i k hk
    split at hs
    · cases hs
    rename_i sv' k' es' hm
    cases hs
    have hm := connStep_cases hm
    cases hm
    case readBad hp hop =>
      have hph := (hl.data.sync c k hk).phase
      have hr := hph.of_read hp
      rw [hr.op_eq] at hop
      cases hctl : k.ctl <;> simp [hctl, Ctl.op, ReadPhase] at hop hr
    case setAbort i hp hset =>
      obtain ⟨b, hb, -⟩ := AtomicBitset.set_eq (ho.addressed (hl.tries c k i hk hp))
      rw [hb] at hset
      cases hset
    all_goals exact hl.alive
  | dequeue p =>
    obtain ⟨⟨sv', es'⟩, hd, he⟩ := Option.map_eq_some_iff.1 hs
    cases he
    obtain ⟨tr, hring⟩ := hl.ring
    unfold dequeueStep at hd
    split at hd
    · split at hd
      · cases hd
      · rename_i hfull
        split at hd
        · cases hd
        · rename_i it queue hq
          -- there is a slot for the write
          obtain ⟨⟨ring, sqe⟩, hw⟩ :=
            Option.isSome_iff_exists.1 (hring.slot (by simpa using hfull) it)
          simp only [hw, Option.some.injEq, Prod.mk.injEq] at hd
          obtain ⟨rfl, -⟩ := hd
          exact hl.alive
    · cases hd
  | uring =>
    obtain ⟨sv', hu, he⟩ := Option.map_eq_some_iff.1 hs
    cases he
    -- the chunk under work is one of those with the uring thread
    have hchunk : ∀ cqe : Cqe, s.server.uring.chunk = [cqe.data] →
        cqe.data < chunks ∧ s.server.bitmap.bit cqe.data = true := fun cqe hc =>
      ho.uring cqe.data (by simp [uringChunks, hc])
    unfold uringStep at hu
    split at hu
    · split at hu <;> cases hu <;> exact hl.alive
    · split at hu <;> cases hu
      exact hl.alive
    · rename_i cqe hpc
      obtain ⟨hlt, hbit⟩ := hchunk cqe (by rw [hpc]; rfl)
      rw [if_pos ⟨hlt, by rw [AtomicBitset.get_eq (ho.addressed hlt), hbit]⟩] at hu
      cases hu
      exact hl.alive
    · rename_i cqe hpc
      obtain ⟨hlt, -⟩ := hchunk cqe (by rw [hpc]; rfl)
      obtain ⟨b, hb, -⟩ := AtomicBitset.clear_eq (ho.addressed hlt)
      rw [hb] at hu
      cases hu
      exact hl.alive
    · cases hu
      exact hl.alive
  | complete j res =>
    obtain ⟨ring, hc, he⟩ := Option.map_eq_some_iff.1 hs
    cases he
    exact hl.alive
  | waitFail => cases hf

theorem tries_step (hl : Live h s) (hs : step s l = some (s', es)) {i : Nat}
    (hk : s'.conns[c]? = some k) (hp : k.pc = .trySet i) : i < chunks := by
  cases step_cases hs with
  | connect =>
    rcases conns_append hk with hk | ⟨-, rfl⟩
    · exact hl.tries c k i hk hp
    · cases hp
  | conn _ hk₀ hm =>
    rcases conns_set_cases hk₀ hk with ⟨rfl, rfl⟩ | ⟨-, hk⟩
    · rcases hm.of_trySet hp with hp | hi
      · exact hl.tries _ _ i hk₀ hp
      · rw [hl.data.own.size] at hi
        exact hi
    · exact hl.tries c k i hk hp
  | ring => exact hl.tries c k i hk hp

theorem Move.of_close {sv : Server} (hm : Move sv c k a sv' k' es) (hp : k'.pc = .read)
    (hc : k'.ctl = .close) :
    (k.pc = .read ∧ k.ctl = .close ∨ a = .call .close) ∧ k'.clerk.bufHead = k.clerk.bufHead := by
  cases hm
  case callClose => exact ⟨.inr rfl, rfl⟩
  case readBad => exact ⟨.inl ⟨hp, hc⟩, rfl⟩
  case scan hpc => rcases hpc with ⟨j, rfl⟩ | ⟨-, rfl⟩ <;> cases hp
  case enqueue closing _ _ _ _ => cases closing <;> cases hp
  case callPost | callFull | callGet | callDelete | callAlloc | post | allocNext => cases hc
  all_goals first
    | cases hp
    | simp_all

theorem closing_step (hl : Live h s) (hg : Orderly s l) (hs : step s l = some (s', es))
    (hk : s'.conns[c]? = some k) (hp : k.pc = .read) (hc : k.ctl = .close) :
    0 < k.clerk.bufHead := by
  cases step_cases hs with
  | connect =>
    rcases conns_append hk with hk | ⟨-, rfl⟩
    · exact hl.closing c k hk hp hc
    · cases hc
  | conn hlab hk₀ hm =>
    subst hlab
    rcases conns_set_cases hk₀ hk with ⟨rfl, rfl⟩ | ⟨-, hk⟩
    · obtain ⟨⟨hp, hc⟩ | rfl, hb⟩ := hm.of_close hp hc
      · rw [hb]
        exact hl.closing _ _ hk₀ hp hc
      · rw [hb]
        exact hg.2.1 _ (by simp [Label.closes?, hk₀])
    · exact hl.closing c k hk hp hc
  | ring => exact hl.closing c k hk hp hc

/-- A clerk that handles a `CLOSE` has records in its chunk. -/
theorem Live.nonEmptyClose (hl : Live h s) (l : Label) : NonEmptyClose s l := by
  intro cl hcl
  unfold Label.closing? at hcl
  split at hcl
  · split at hcl
    · rename_i k hk
      split at hcl
      · rename_i hp
        split at hcl
        · rename_i hop
          cases hcl
          rw [((hl.data.sync _ k hk).phase.of_read hp).op_eq] at hop
          exact hl.closing _ k hk hp (Ctl.of_op hop)
        · cases hcl
      · cases hcl
    · cases hcl
  · cases hcl

theorem live_run {mem file : Buf} {db : Store} {tr : List Event}
    (hr : Run Orderly mem file db tr s) : Live (hist tr) s := by
  have hring : ∀ {tr s}, Run Orderly mem file db tr s → ∃ tr', UringRun.Inv 64 tr' s.server := by
    intro tr s hr
    obtain ⟨tr', hr'⟩ := UringRun.uringRun_of_run hr
    exact ⟨tr', UringRun.inv_run hr'⟩
  refine Steps.invariant (I := fun tr s => Live (hist tr) s) ?_ ?_ hr
  · exact ⟨data_init mem file db, fun i hi => by simp [init, AtomicBitset.bit_new] at hi,
      hring .refl, by simp [init], by simp [init], rfl⟩
  · intro tr s l s' es hr hl hg hs
    rw [hist_append]
    exact ⟨data_step hl.data hg.1 hs, noLeak_step hl.data.own hl.leak (hl.nonEmptyClose l) hs,
      hring (hr.tail hg hs), fun c k i hk hp => tries_step hl hs hk hp,
      fun c k hk hp hc => closing_step hl hg hs hk hp hc, alive_step hl hg.2.2 hs⟩

/-! ## Steps -/

theorem total_set (f f' : Conn → Nat) (k' : Conn) (hk : s.conns[c]? = some k)
    (hf : ∀ kd, f' kd ≤ f kd) :
    total (fun _ => f') (s.conns.set c k') + f k ≤ total (fun _ => f) s.conns + f' k' := by
  have hother : ∀ (d : Nat) (kd kd' : Conn), d ≠ c → s.conns[d]? = some kd →
      (s.conns.set c k')[d]? = some kd' → (fun _ => f') d kd' ≤ (fun _ => f) d kd := by
    intro d kd kd' hdc hkd hkd'
    rw [conns_set_ne hdc, hkd, Option.some.injEq] at hkd'
    rw [← hkd']
    exact hf kd
  exact total_le (by simp) hk (conns_set_self hk) hother

theorem search_congr {bm bm' : AtomicBitset} (hb : bm'.bit = bm.bit) (k : Conn) :
    k.search bm' = k.search bm := by
  simp only [Conn.search, distance, hb]

theorem scan_step {sv : Server} {b : Bool} {i : Nat} (hp : k.pc = .scan i)
    (h : clerkStep sv c k b = some (sv', k', es)) : sv' = sv ∧ k' = { k with
      pc := if i < sv.bitmap.size then if b then .scan (i + 1) else .trySet i else .scan 0 } ∧
      es = [] := by
  simp only [clerkStep, hp] at h
  split at h
  · rename_i hi
    cases h
    rw [if_pos hi]
    exact ⟨rfl, rfl, rfl⟩
  · rename_i hi
    cases h
    rw [if_neg hi]
    exact ⟨rfl, rfl, rfl⟩

/-- A step makes the work less, or leaves it and brings a clerk nearer to a clear bit. -/
theorem less_step (hl : Live h s) (hg : Prompt s l) (hs : step s l = some (s', es))
    (ha : s'.server.aborted = false) :
    work s' < work s ∨ work s' ≤ work s ∧ search s' < search s := by
  unfold step at hs
  rw [if_neg (by simp [hl.alive])] at hs
  cases l with
  | connect => exact hg.elim
  | conn c a =>
    simp only at hs
    split at hs
    · cases hs
    rename_i k hk
    split at hs
    · cases hs
    rename_i sv' k' es' hm
    cases hs
    have hwork := total_set Conn.weight Conn.weight k' hk fun _ => le_rfl
    by_cases hsc : ∃ i, k.pc = .scan i
    · obtain ⟨i, hp⟩ := hsc
      cases a with
      | call => exact hg.elim
      | client => simp [connStep, hp] at hm
      | clerk b =>
        obtain ⟨hfree, hb⟩ := hg k i hk hp
        obtain ⟨rfl, hk', -⟩ := scan_step hp hm
        rw [hl.data.own.size] at hk'
        have hlt := scan_search hfree hb hp hk'
        have hsearch := total_set (Conn.search s.server.bitmap) (Conn.search s.server.bitmap) k' hk
          fun _ => le_rfl
        have hw : k'.weight = k.weight := by
          rw [hk']
          by_cases hi : i < chunks <;> cases b <;> simp [hi, Conn.weight, Conn.rest, hp]
        refine .inr ⟨?_, ?_⟩
        · simp only [work]
          omega
        · simp only [search]
          omega
    · have hcall : ∀ x, a ≠ .call x := by
        rintro x rfl
        exact hg
      rcases (connStep_cases hm).weight_less hcall (fun i hp => hsc ⟨i, hp⟩) ha with
        hlt | ⟨hw, hsv, hbit, hlt⟩
      · refine .inl ?_
        simp only [work]
        omega
      · have hsearch := total_set (Conn.search s.server.bitmap) (Conn.search sv'.bitmap) k' hk
          fun kd => (search_congr hbit kd).le
        refine .inr ⟨?_, ?_⟩
        · simp only [work]
          omega
        · simp only [search]
          omega
  | dequeue p =>
    obtain ⟨⟨sv', es'⟩, hd, he⟩ := Option.map_eq_some_iff.1 hs
    cases he
    exact .inl (Nat.add_lt_add_left (dequeueStep_less hd ha) _)
  | uring =>
    obtain ⟨sv', hu, he⟩ := Option.map_eq_some_iff.1 hs
    cases he
    exact .inl (Nat.add_lt_add_left (uringStep_less hg hu ha) _)
  | complete j res =>
    obtain ⟨ring, hc, he⟩ := Option.map_eq_some_iff.1 hs
    cases he
    exact .inl (Nat.add_lt_add_left (complete_less hc) _)
  | waitFail => exact hg.elim

theorem mem_openConns : c ∈ openConns s ↔ ∃ k, s.conns[c]? = some k ∧ k.pc.ended = false := by
  simp only [openConns, Finset.mem_filter, Finset.mem_range, Option.map_eq_some_iff]
  constructor
  · exact fun h => h.2
  · rintro ⟨k, hk, hp⟩
    exact ⟨(List.getElem?_eq_some_iff.1 hk).1, k, hk, hp⟩

theorem Move.not_ended {sv : Server} (hm : Move sv c k a sv' k' es) : k.pc.ended = false := by
  cases hm <;> simp_all [Pc.ended]

theorem openConns_step (hg : Prompt s l) (hs : step s l = some (s', es)) :
    openConns s' ⊆ openConns s := by
  intro d hd
  obtain ⟨kd, hkd, hp⟩ := mem_openConns.1 hd
  rw [mem_openConns]
  cases step_cases hs with
  | connect hl => subst hl; exact hg.elim
  | conn _ hk hm =>
    rcases conns_set_cases hk hkd with ⟨rfl, -⟩ | ⟨-, hkd⟩
    · exact ⟨_, hk, hm.not_ended⟩
    · exact ⟨kd, hkd, hp⟩
  | ring => exact ⟨kd, hkd, hp⟩

/-! ## Where a run can go no further -/

/-- While a chunk is on its way to the log, the uring thread or the kernel can move on. -/
theorem uring_moves (hl : Live h s) (hu : uringChunks s.server ≠ []) :
    ∃ l, Prompt s l ∧ step s l ≠ none := by
  obtain ⟨tr, hring⟩ := hl.ring
  cases hpc : s.server.uring with
  | poll =>
    cases he : s.server.ring.empty with
    | false =>
      refine ⟨.uring, fun _ => he, ?_⟩
      simp [step, hl.alive, uringStep, hpc, he]
    | true =>
      -- the chunk is in the queue
      obtain ⟨hsq, hfl, hcq, -⟩ := hring.of_empty he
      cases hq : s.server.queue with
      | nil => simp [uringChunks, hq, hsq, hfl, hcq, hpc, UringPc.chunk] at hu
      | cons x queue =>
        refine ⟨.dequeue x.1, trivial, ?_⟩
        have hfull : s.server.ring.full = false := by
          have h0 : s.server.ring.inflight = 0 := by simpa [IOuring.empty] using he
          simp [IOuring.full, h0, hring.depth]
        obtain ⟨r, hw⟩ := Option.isSome_iff_exists.1 (hring.slot hfull x.2)
        simp [step, hl.alive, dequeueStep, hpc, hfull, hq, takeFrom, hw]
  | wait =>
    cases hcq : s.server.ring.cq with
    | nil =>
      obtain hfl | hcq' := hring.outstanding hpc
      · obtain ⟨sqe, flight, hfl⟩ := List.exists_cons_of_ne_nil hfl
        refine ⟨.complete 0 sqe.item.size, trivial, ?_⟩
        simp [step, hl.alive, IOuring.complete, hfl]
      · exact absurd hcq hcq'
    | cons cqe cq =>
      refine ⟨.uring, by simp [Prompt, hpc], ?_⟩
      simp [step, hl.alive, uringStep, hpc, IOuring.wait, hcq]
  | check cqe =>
    refine ⟨.uring, by simp [Prompt, hpc], ?_⟩
    simp only [step, hl.alive, Bool.false_eq_true, if_false, uringStep, hpc, ne_eq,
      Option.map_eq_none_iff]
    split <;> simp
  | clear cqe =>
    refine ⟨.uring, by simp [Prompt, hpc], ?_⟩
    simp only [step, hl.alive, Bool.false_eq_true, if_false, uringStep, hpc, ne_eq,
      Option.map_eq_none_iff]
    split <;> simp
  | seen cqe =>
    refine ⟨.uring, by simp [Prompt, hpc], ?_⟩
    simp [step, hl.alive, uringStep, hpc]

/-- If all bits are set while a clerk looks for a clear one, a chunk is on its way to the log. -/
theorem uring_holds (hl : Live h s) (hopen : (openConns s).card ≤ chunks)
    (hk : s.conns[c]? = some k) {i : Nat} (hp : k.pc = .scan i)
    (hfull : ¬ ∃ j < chunks, s.server.bitmap.bit j = false) : uringChunks s.server ≠ [] := by
  intro hu
  -- each chunk has a connection of its own
  have hholder : ∀ j, ∃ d : Nat, j < chunks →
      ∃ kd : Conn, s.conns[d]? = some kd ∧ kd.holds = some j := by
    intro j
    by_cases hj : j < chunks
    · have hbit : s.server.bitmap.bit j = true := by
        by_contra hb
        exact hfull ⟨j, hj, by simpa using hb⟩
      rcases exists_holds.1 (hl.leak j hbit) with ⟨d, kd, hkd, hh⟩ | hh
      · exact ⟨d, fun _ => ⟨kd, hkd, hh⟩⟩
      · rw [hu] at hh
        cases hh
    · exact ⟨0, fun h => absurd h hj⟩
  choose f hf using hholder
  have hinj : Set.InjOn f (Finset.range chunks) := by
    intro j hj j' hj' he
    obtain ⟨kd, hkd, hh⟩ := hf j (by simpa using hj)
    obtain ⟨kd', hkd', hh'⟩ := hf j' (by simpa using hj')
    rw [he, hkd', Option.some.injEq] at hkd
    rw [hkd, hh, Option.some.injEq] at hh'
    exact hh'
  have hnot : c ∉ (Finset.range chunks).image f := by
    intro hc
    obtain ⟨j, hj, rfl⟩ := Finset.mem_image.1 hc
    obtain ⟨kd, hkd, hh⟩ := hf j (by simpa using hj)
    rw [hk, Option.some.injEq] at hkd
    rw [← hkd, Conn.holds, hp] at hh
    cases hh
  have hsub : insert c ((Finset.range chunks).image f) ⊆ openConns s := by
    intro d hd
    rw [mem_openConns]
    rcases Finset.mem_insert.1 hd with rfl | hd
    · exact ⟨k, hk, by rw [hp]; rfl⟩
    · obtain ⟨j, hj, rfl⟩ := Finset.mem_image.1 hd
      obtain ⟨kd, hkd, hh⟩ := hf j (by simpa using hj)
      refine ⟨kd, hkd, ?_⟩
      cases hpd : kd.pc <;> first | rfl | (rw [Conn.holds, hpd] at hh; cases hh)
  have hcard := Finset.card_le_card hsub
  rw [Finset.card_insert_of_notMem hnot, Finset.card_image_of_injOn hinj, Finset.card_range] at hcard
  omega

/-- A clerk that neither polls nor has ended can move on. -/
theorem clerkStep_ne_none {sv : Server} {b : Bool} (h1 : k.pc ≠ .poll) (h2 : k.pc ≠ .done) :
    clerkStep sv c k b ≠ none := by
  cases hp : k.pc <;> simp only [clerkStep, hp]
  case poll => exact absurd hp h1
  case done => exact absurd hp h2
  case find key => cases sv.map key <;> simp
  case dbGet key => cases sv.db key <;> simp
  case erase closing tmp i => cases k.clerk.keyBatch[i]? <;> simp
  case scan i => split <;> simp
  case trySet i => rcases sv.bitmap.set i with _ | ⟨_ | _, _⟩ <;> simp
  all_goals simp

theorem connStep_of_stuck (hl : Live h s) (hk : s.conns[c]? = some k)
    (hs : step s (.conn c a) = none) : connStep s.server c k a = none := by
  simp only [step, hl.alive, hk] at hs
  cases hcs : connStep s.server c k a with
  | none => rfl
  | some r => simp [hcs] at hs

theorem returned_of_stuck (hl : Live h s) (hopen : (openConns s).card ≤ chunks)
    (hstuck : ∀ l, Prompt s l → step s l = none) : Returned s := by
  have hu : uringChunks s.server = [] := by
    by_contra hu
    obtain ⟨l, hg, hs⟩ := uring_moves hl hu
    exact hs (hstuck l hg)
  refine ⟨fun c k hk => ?_, hl.alive⟩
  have hph := (hl.data.sync c k hk).phase
  by_cases hpoll : k.pc = .poll
  · have hcl := connStep_of_stuck hl hk (hstuck (.conn c .client) trivial)
    simp only [connStep, hpoll, clientStep] at hcl
    simp only [Phase, hpoll, PollPhase] at hph
    cases hc : k.ctl <;> simp only [hc, reduceCtorEq] at hcl hph
    case idle => exact .inl rfl
    case alloc next => cases next <;> cases hcl
  by_cases hdone : k.pc = .done
  · simp only [Phase, hdone] at hph
    exact .inr ⟨hph.2.2.2, hdone⟩
  -- the clerk can move on, unless it is in `blindset` and all bits are set
  exfalso
  by_cases hscan : ∃ i, k.pc = .scan i
  · obtain ⟨i, hp⟩ := hscan
    by_cases hfree : ∃ j < chunks, s.server.bitmap.bit j = false
    · have hs := hstuck (.conn c (.clerk (s.server.bitmap.bit i))) fun k' i' hk' hp' => by
        rw [hk, Option.some.injEq] at hk'
        rw [← hk', hp, Pc.scan.injEq] at hp'
        exact ⟨hfree, fun _ => by rw [hp']⟩
      exact clerkStep_ne_none hpoll hdone (connStep_of_stuck hl hk hs)
    · exact uring_holds hl hopen hk hp hfree hu
  · have hs := hstuck (.conn c (.clerk false)) fun k' i hk' hp => by
      rw [hk, Option.some.injEq] at hk'
      exact absurd ⟨i, hk' ▸ hp⟩ hscan
    exact clerkStep_ne_none hpoll hdone (connStep_of_stuck hl hk hs)

theorem Prompt.orderly (hg : Prompt s l) : Orderly s l := by
  match l, hg with
  | .conn _ .client, _ | .conn _ (.clerk _), _ | .dequeue _, _ | .uring, _ | .complete _ _, _ =>
    exact ⟨by simp [Fit, Label.Fits, Label.call?], by simp [Label.closes?], rfl⟩

end

end PMRAccess.Pmr
