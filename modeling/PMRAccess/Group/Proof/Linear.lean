import PMRAccess.Atomic
import PMRAccess.Group.Proof.Replies

/-!
# The Group front end is linearizable

A logged request takes effect when the leader puts its batch into `db_`: the requests of a batch
are executed there one behind the other, in the order of the queue, and not yet answered. `phase` is
where a call is: its request waits to be put (`History.waiting`), or it is put and waits for the
reply. A `SendDelete` is the write of an empty value, whose result says nothing. `group_linearizable`:
what clients see of a run, they may see of the atomic map.
-/

namespace PMRAccess.Group

open Lib

/-! ## What clients see -/

/-- What a logged request does to the map. -/
def Req.mapOp (q : Req) : MapOp := .put q.key q.val

def Ctl.mapOp? : Ctl → Option MapOp
  | .idle | .close => none
  | .write r => some (Req.write r).mapOp
  | .get key => some (.get key)
  | .delete key => some (Req.delete key).mapOp

/-- Where the client is in the call. -/
def Call.ctl : Call → Ctl
  | .write r => .write r
  | .get key => .get key
  | .delete key => .delete key
  | .close => .close

def Event.ret? : Event → Option (Seen Nat MapOp MapRes)
  | .acked c r => some (.ret c (Req.write r).mapOp .stored)
  | .got c key val => some (.ret c (.get key) (.got val))
  | .deleted c key _ => some (.ret c (Req.delete key).mapOp .stored)
  | _ => none

def Label.seen : Label → List (Seen Nat MapOp MapRes)
  | .conn c (.call x) => (x.ctl.mapOp?.map (.call c)).toList
  | _ => []

/-- The call that a step starts, the calls that return. -/
def seen (l : Label) (es : List Event) : List (Seen Nat MapOp MapRes) :=
  l.seen ++ es.filterMap Event.ret?

/-! ## The phases of a call -/

/-- The requests that are pushed and not yet put into `db_`. -/
def History.waiting (h : History) : List (Nat × Req) := h.pushed.drop h.stored.length

/-- The request is on its way to `db_` or to the queue. -/
def Pc.early : Pc → Bool
  | read | dbGet _ | lock | push => true
  | _ => false

/-- What the call will return. -/
def result (h : History) (c : Nat) : MapOp → MapRes
  | .get _ => .got (h.got c)
  | _ => .stored

/-- Where the call of a connection is (module doc). -/
def phase (h : History) (c : Nat) (k : Conn) : Phase MapOp MapRes :=
  match k.ctl.mapOp? with
  | none => .idle
  | some op =>
    if k.pc.early = true ∨ c ∈ h.waiting.map Prod.fst then .called op
    else .executed op (result h c op)

def phases (h : History) (s : State) (c : Nat) : Phase MapOp MapRes :=
  (s.conns[c]?.map (phase h c)).getD .idle

section
variable {db : Store} {h h' : History} {s s' : State} {c d : Nat} {k k' : Conn} {a : Act}
  {sv' : Server} {w : Wake} {es : List Event} {op : MapOp}

theorem phase_eq (hc : k'.ctl = k.ctl)
    (he : (k'.pc.early = true ∨ c ∈ h'.waiting.map Prod.fst) ↔
      (k.pc.early = true ∨ c ∈ h.waiting.map Prod.fst))
    (hg : h'.got c = h.got c) : phase h' c k' = phase h c k := by
  have hr : ∀ op, result h' c op = result h c op := by
    intro op
    cases op <;> simp [result, hg]
  simp only [phase, hc, hr, he]

@[simp] theorem phase_on (h : History) (c : Nat) (w : Wake) (k : Conn) :
    phase h c (w.on c k) = phase h c k := by
  have he : (w.on c k).pc.early = k.pc.early := w.on_class k c fun _ _ => rfl
  exact phase_eq (by simp) (by rw [he]) rfl

theorem phases_of (hk : s.conns[c]? = some k) : phases h s c = phase h c k := by simp [phases, hk]

theorem phase_called (ho : k.ctl.mapOp? = some op)
    (he : k.pc.early = true ∨ c ∈ h.waiting.map Prod.fst) : phase h c k = .called op := by
  simp only [phase, ho, if_pos he]

theorem phase_executed (ho : k.ctl.mapOp? = some op) (he : k.pc.early = false)
    (hw : c ∉ h.waiting.map Prod.fst) : phase h c k = .executed op (result h c op) := by
  simp only [phase, ho, he, Bool.false_eq_true, hw, or_self, if_false]

theorem phase_idle (ho : k.ctl.mapOp? = none) : phase h c k = .idle := by simp only [phase, ho]

/-! ## The requests that wait -/

theorem Flow.applied_le (hf : Flow db h s) : h.applied.length ≤ h.batches.length := by
  rcases hf.progress with h | h <;> omega

theorem Flow.stored_waiting (hf : Flow db h s) : h.pushed = h.stored ++ h.waiting := by
  have hp := hf.inOrder.stored.trans hf.inOrder.batches
  exact (List.prefix_iff_eq_append.1 hp).symm

/-- What waits is in the queue. -/
theorem Flow.waiting_sub (hf : Flow db h s) (hc : c ∈ h.waiting.map Prod.fst) :
    c ∈ s.server.queue := by
  obtain ⟨ps, hps, hmem⟩ := hf.uncommitted
  obtain ⟨⟨_, q⟩, hp, rfl⟩ := List.mem_map.1 hc
  obtain ⟨zs, hzs⟩ := hf.inOrder.committed
  -- the requests in the log are the first of those in the database
  have hw : ps = zs ++ h.waiting := by
    have he := hf.stored_waiting
    rw [hps, ← hzs, List.append_assoc] at he
    exact List.append_cancel_left he
  rw [hf.queue]
  exact List.mem_map_of_mem (hmem _ (by rw [hw]; exact List.mem_append_right _ hp))

/-- When the leader puts its batch into `db_` the whole queue waits, and behind it the rest. -/
theorem Flow.waiting_putDb (hf : Flow db h s) (hk : s.conns[c]? = some k) {last : Nat}
    (hp : k.pc = .putDb last) (kvs : List (Bytes × Bytes)) :
    h.waiting = h.pending ∧ (h.add (.applied kvs)).waiting = h.pending.drop h.inBatch := by
  have hst := hf.stage c k hk
  simp only [Stage, hp] at hst
  obtain ⟨-, hcur, ha, -⟩ := hst
  have hb := take_succ_of_getLast? hcur.1 ha
  rw [ha, List.take_length] at hb
  constructor
  · have hwait := hf.stored_waiting
    rw [hf.order, hb, List.flatten_append, List.append_assoc, ← History.stored] at hwait
    rw [← List.append_cancel_left hwait]
    simp
  · have hst : (h.add (.applied kvs)).stored = h.batches.flatten := by
      simp only [History.stored, History.add, List.length_append, List.length_singleton, ha,
        List.take_length]
    rw [History.waiting, hst, show (h.add (.applied kvs)).pushed = h.pushed from rfl, hf.order,
      List.drop_left]

/-- No move but a push and the leader's `PutBatch` changes what waits. -/
theorem Flow.waiting_move (hf : Flow db h s) (hm : Move s c k a sv' k' w es) (hp : k.pc ≠ .push)
    (hd : ∀ last, k.pc ≠ .putDb last) :
    (h.addAll es).waiting = h.waiting := by
  cases hm
  case push hp' => exact absurd hp' hp
  case putDb last hp' => exact absurd hp' (hd last)
  case build last hp' hl =>
    simp only [History.addAll_single, History.waiting, History.stored, History.add]
    rw [List.take_append_of_le_length hf.applied_le]
  all_goals rfl

theorem Flow.waiting_push (hf : Flow db h s) (q : Req) :
    (h.add (.pushed c q)).waiting = h.waiting ++ [(c, q)] := by
  have hle := (hf.inOrder.stored.trans hf.inOrder.batches).length_le
  simp only [History.waiting, History.stored, History.add]
  exact List.drop_append_of_le_length hle

/-! ## The phases after a move -/

theorem Move.got_ne (hm : Move s c k a sv' k' w es) (hdc : d ≠ c) :
    (h.addAll es).got d = h.got d := congrArg View.got (hm.view_ne hdc h)

/-- The calls of the other clerks are where they were. -/
theorem phases_move (hf : Flow db h s) (hk : s.conns[c]? = some k) (hm : Move s c k a sv' k' w es)
    (hd : ∀ last, k.pc ≠ .putDb last) :
    phases (h.addAll es) ⟨sv', w.apply (s.conns.set c k')⟩ =
      Function.update (phases h s) c (phase (h.addAll es) c k') := by
  funext d
  by_cases hdc : d = c
  · subst hdc
    rw [phases_of (conns_after_self hk), phase_on, Function.update_self]
  · have hw : d ∈ (h.addAll es).waiting.map Prod.fst ↔ d ∈ h.waiting.map Prod.fst := by
      by_cases hp : k.pc = .push
      · cases hm <;> simp only [hp, reduceCtorEq] at *
        cases hr : k.ctl.req? with
        | none => simp [Ctl.pushed, hr]
        | some q => simp [Ctl.pushed, hr, hf.waiting_push, hdc]
      · rw [hf.waiting_move hm hp hd]
    rw [Function.update_of_ne hdc, phases, phases, conns_after_ne hdc]
    cases hkd : s.conns[d]? with
    | none => rfl
    | some kd =>
      simp only [Option.map_some, Option.getD_some, phase_on]
      exact phase_eq rfl (or_congr Iff.rfl hw) (hm.got_ne hdc)

/-! ## The simulation -/

/-- What a `GET` has read is no longer than `val_size` can say. -/
def GotShort (h : History) : Prop := ∀ c val, h.got c = some val → val.length ≤ maxValue

theorem GotShort.move (hg : GotShort h) (hd : s.server.db.Bounded maxValue)
    (hm : Move s c k a sv' k' w es) : GotShort (h.addAll es) := by
  intro d val hv
  cases hm
  case push hp =>
    cases hr : k.ctl.req? <;> simp only [Ctl.pushed, hr, Option.map_none, Option.map_some,
      Option.toList_none, Option.toList_some] at hv <;> exact hg d val hv
  case dbHit key value hp hval =>
    simp only [History.addAll_single, History.add] at hv
    split at hv
    · exact hd key val (hval.trans hv)
    · exact hg d val hv
  case dbMiss key hp hval =>
    simp only [History.addAll_single, History.add] at hv
    split at hv
    · cases hv
    · exact hg d val hv
  all_goals exact hg d val hv

/-- The client of a `GET` returns what the clerk has read. -/
theorem Answered.returns {v : Option Bytes} {b : Buf} (h : Answered v b)
    (hl : ∀ val, v = some val → val.length ≤ maxValue) :
    (if replyOk b then some (replyValue b) else none) = v := by
  cases v with
  | none =>
    have hok : replyOk b = false := by
      rw [replyOk, show ofLe (b.read ringHeader 4) = _ from h]
      decide
    simp [hok]
  | some val =>
    have hlt : val.length < 2 ^ 32 := lt_of_le_of_lt (hl val rfl) (by decide)
    obtain ⟨hok, -, hval⟩ := (h.2 hlt).reply hlt
    simp [hok, hval]

/-- A call that has not returned, whose clerk is back at the poll, is executed. -/
theorem Flow.executed_at_poll (hf : Flow db h s) (hi : Ctrl s) (hk : s.conns[c]? = some k)
    (hp : k.pc = .poll) (ho : k.ctl.mapOp? = some op) :
    phases h s c = .executed op (result h c op) := by
  rw [phases_of hk]
  refine phase_executed ho (by rw [hp]; rfl) fun hw => ?_
  have hplace := hi.place c k hk
  simp only [Place, hp] at hplace
  exact hplace (hf.waiting_sub hw)

/-- A move that shows nothing and leaves the call where it is. -/
theorem sim_stay (hf : Flow db h s) (hk : s.conns[c]? = some k) (hm : Move s c k a sv' k' w es)
    (hd : ∀ last, k.pc ≠ .putDb last) (hdb : sv'.db = s.server.db)
    (hph : phase (h.addAll es) c k' = phase h c k) (hseen : seen (.conn c a) es = []) :
    AtomicRun Store.apply (s.server.db, phases h s) (seen (.conn c a) es)
      (sv'.db, phases (h.addAll es) ⟨sv', w.apply (s.conns.set c k')⟩) := by
  rw [phases_move hf hk hm hd, hph, ← phases_of (h := h) hk, Function.update_eq_self, hseen, hdb]
  exact .refl

theorem mapOp?_of_req {x : Ctl} {q : Req} (h : x.req? = some q) : x.mapOp? = some q.mapOp := by
  cases x <;> simp only [Ctl.req?, Option.some.injEq, reduceCtorEq] at h <;> simp [Ctl.mapOp?, ← h]

/-- A clerk whose writer is in the queue is behind the push. -/
theorem Ctrl.not_early (hi : Ctrl s) (hk : s.conns[c]? = some k) (hc : c ∈ s.server.queue) :
    k.pc.early = false := by
  have hplace := hi.place c k hk
  cases hp : k.pc <;> simp only [Place, hp] at hplace <;>
    first | rfl | exact absurd hc hplace | exact absurd hc hplace.1

/-- The phases when the leader has put its batch into `db_`. -/
theorem phases_putDb (hf : Flow db h s) (hi : Ctrl s) (hk : s.conns[c]? = some k) {last : Nat}
    (hp : k.pc = .putDb last) (kvs : List (Bytes × Bytes)) (sv' : Server) :
    (∀ p ∈ h.pending.take h.inBatch, phases h s p.1 = .called p.2.mapOp) ∧
    (∀ p ∈ h.pending.take h.inBatch,
      phases (h.addAll [.applied kvs])
        ⟨sv', Wake.none.apply (s.conns.set c { k with pc := .putLog last })⟩ p.1 =
      .executed p.2.mapOp .stored) ∧
    ∀ d ∉ (h.pending.take h.inBatch).map Prod.fst,
      phases (h.addAll [.applied kvs])
        ⟨sv', Wake.none.apply (s.conns.set c { k with pc := .putLog last })⟩ d = phases h s d := by
  obtain ⟨hwait, hwait'⟩ := hf.waiting_putDb hk hp kvs
  rw [← History.addAll_single] at hwait'
  have hnd : (h.pending.map Prod.fst).Nodup := hf.queue ▸ hi.nodup
  -- the connections but for the leader's, which is at its next step
  have hconn : ∀ (d : Nat) (kd : Conn), s.conns[d]? = some kd →
      ∃ kd' : Conn,
        (State.mk sv' (Wake.none.apply (s.conns.set c { k with pc := .putLog last }))).conns[d]? =
          some kd' ∧ kd'.ctl = kd.ctl ∧ kd'.pc.early = kd.pc.early := by
    intro d kd hkd
    by_cases hdc : d = c
    · subst hdc
      obtain rfl : k = kd := by simpa [hk] using hkd
      exact ⟨_, conns_after_self hk, by simp, by simp [Wake.on, hp, Pc.early]⟩
    · exact ⟨kd, by rw [conns_after_ne hdc, hkd]; rfl, rfl, rfl⟩
  refine ⟨fun p hp => ?_, fun p hp => ?_, fun d hd => ?_⟩
  · have hmem := List.mem_of_mem_take hp
    obtain ⟨kp, hkp, hreq⟩ := hf.asked p hmem
    rw [phases_of hkp]
    exact phase_called (mapOp?_of_req hreq) (.inr (hwait ▸ List.mem_map_of_mem hmem))
  · have hmem := List.mem_of_mem_take hp
    obtain ⟨kp, hkp, hreq⟩ := hf.asked p hmem
    obtain ⟨kp', hkp', hctl, hearly⟩ := hconn p.1 kp hkp
    have hq : p.1 ∈ s.server.queue := hf.queue ▸ List.mem_map_of_mem hmem
    rw [phases_of hkp']
    refine phase_executed (hctl ▸ mapOp?_of_req hreq) (hearly ▸ hi.not_early hkp hq) ?_
    -- a clerk is in the queue once, so not behind the batch as well
    rw [hwait', List.map_drop]
    rw [← List.take_append_drop h.inBatch (h.pending.map Prod.fst)] at hnd
    have hp' := List.mem_map_of_mem (f := Prod.fst) hp
    rw [List.map_take] at hp'
    exact fun hin => (List.nodup_append.1 hnd).2.2 _ hp' _ hin rfl
  · cases hkd : s.conns[d]? with
    | none =>
      have hdc : d ≠ c := by
        rintro rfl
        rw [hk] at hkd
        cases hkd
      rw [phases, phases, conns_after_ne hdc, hkd]
      rfl
    | some kd =>
      obtain ⟨kd', hkd', hctl, hearly⟩ := hconn d kd hkd
      rw [phases_of hkd', phases_of hkd]
      refine phase_eq hctl (or_congr (by rw [hearly]) ?_) rfl
      rw [hwait, hwait']
      conv_rhs => rw [← List.take_append_drop h.inBatch h.pending, List.map_append, List.mem_append]
      exact (or_iff_right hd).symm

/-- The leader's `PutBatch` executes the requests of the batch. -/
theorem sim_putDb (hf : Flow db h s) (hi : Ctrl s) (hk : s.conns[c]? = some k) {last : Nat}
    (hp : k.pc = .putDb last) :
    AtomicRun Store.apply (s.server.db, phases h s) []
      (putPairs s.server.db s.server.batch.pairs,
        phases (h.addAll [.applied s.server.batch.pairs])
          ⟨{ s.server with db := putPairs s.server.db s.server.batch.pairs },
            Wake.none.apply (s.conns.set c { k with pc := .putLog last })⟩) := by
  have hst := hf.stage c k hk
  simp only [Stage, hp] at hst
  have hpairs := hst.2.1.2.pairs
  have hnd : (h.pending.map Prod.fst).Nodup := hf.queue ▸ hi.nodup
  obtain ⟨hcalled, hexec, hrest⟩ := phases_putDb hf hi hk hp s.server.batch.pairs
    { s.server with db := putPairs s.server.db s.server.batch.pairs }
  generalize hps : h.pending.take h.inBatch = ps at *
  have hcs : (ps.map fun p => (p.1, p.2.mapOp)).map Prod.fst = ps.map Prod.fst := by simp
  have hput : ∀ db, ∀ x ∈ ps.map fun p => (p.1, p.2.mapOp),
      Store.apply db x.2 = ((Store.apply db x.2).1, .stored) := by
    intro db x hx
    obtain ⟨p, -, rfl⟩ := List.mem_map.1 hx
    rfl
  obtain ⟨ph', hrun, h1, h2⟩ := AtomicRun.execAll (fun db op => (Store.apply db op).1)
    (ps.map fun p => (p.1, p.2.mapOp)) s.server.db (phases h s)
    (by rw [hcs, ← hps, List.map_take]; exact hnd.sublist (List.take_sublist _ _))
    (by
      intro x hx
      obtain ⟨p, hp, rfl⟩ := List.mem_map.1 hx
      exact hcalled p hp) hput
  have hdb : putPairs s.server.db s.server.batch.pairs =
      (ps.map fun p => (p.1, p.2.mapOp)).foldl (fun db p => (db.apply p.2).1) s.server.db := by
    rw [hpairs, putPairs, List.map_map, List.foldl_map, List.foldl_map]
    rfl
  refine (congrArg (AtomicRun _ _ []) (Prod.ext hdb (funext fun d => ?_))).mpr hrun
  by_cases hd : d ∈ ps.map Prod.fst
  · obtain ⟨p, hp, rfl⟩ := List.mem_map.1 hd
    exact (hexec p hp).trans (h1 (p.1, p.2.mapOp) (List.mem_map_of_mem hp)).symm
  · exact (hrest d hd).trans (h2 d (hcs ▸ hd)).symm

/-- A new connection is between two calls. -/
theorem phases_connect (h : History) (s : State) (localBuf clerkBuf : Buf) :
    phases h { s with conns := s.conns ++ [⟨localBuf, clerkBuf, .idle, .poll, false⟩] } =
      phases h s := by
  funext c
  simp only [phases, List.getElem?_append]
  split
  · rfl
  · rename_i hc
    rw [List.getElem?_eq_none (Nat.le_of_not_lt hc)]
    cases c - s.conns.length <;> rfl

/-- A call enters its operation. -/
theorem sim_call (hf : Flow db h s) (hk : s.conns[c]? = some k) {x : Call} (hc : k.ctl = .idle)
    (hp : k.pc = .poll) :
    AtomicRun Store.apply (s.server.db, phases h s) (seen (.conn c (.call x)) [])
      (s.server.db, phases h ⟨s.server, Wake.none.apply (s.conns.set c (k.call x))⟩) := by
  have hmove := phases_move hf hk (.call (x := x) hc hp) (by simp [hp])
  rw [History.addAll_nil] at hmove
  have hidle : phases h s c = .idle := by rw [phases_of hk, phase_idle (by rw [hc]; rfl)]
  have hctl : (k.call x).ctl = x.ctl := by cases x <;> rfl
  rw [hmove, seen, List.filterMap_nil, List.append_nil, Label.seen]
  cases ho : x.ctl.mapOp? with
  | none =>
    rw [phase_idle (by rw [hctl, ho]), ← hidle, Function.update_eq_self]
    exact .refl
  | some op =>
    rw [phase_called (by rw [hctl, ho]) (.inl (by rw [Conn.call_pc]; rfl))]
    exact AtomicRun.call hidle

/-- A call returns. -/
theorem sim_ret (hf : Flow db h s) (hi : Ctrl s) (hk : s.conns[c]? = some k) (hp : k.pc = .poll)
    (ho : k.ctl.mapOp? = some op) {e : Event}
    (hm : Move s c k .client s.server { k with ctl := .idle } .none [e])
    (he : e.ret? = some (.ret c op (result h c op))) :
    AtomicRun Store.apply (s.server.db, phases h s) (seen (.conn c .client) [e])
      (s.server.db, phases (h.addAll [e])
        ⟨s.server, Wake.none.apply (s.conns.set c { k with ctl := .idle })⟩) := by
  have hex := hf.executed_at_poll hi hk hp ho
  rw [phases_move hf hk hm (by simp [hp]), phase_idle rfl]
  simp only [seen, Label.seen, List.nil_append, List.filterMap_cons, he, List.filterMap_nil]
  exact AtomicRun.ret hex

/-- A `GET` reads `db_`. -/
theorem sim_get (hf : Flow db h s) (hi : Ctrl s) (hk : s.conns[c]? = some k) {key : Bytes}
    (hp : k.pc = .dbGet key) {clerkBuf : Buf}
    (hm : Move s c k .clerk s.server { k with clerkBuf, pc := .reply } .none
      [.readDb c key (s.server.db key)]) :
    AtomicRun Store.apply (s.server.db, phases h s) []
      (s.server.db, phases (h.addAll [.readDb c key (s.server.db key)])
        ⟨s.server, Wake.none.apply (s.conns.set c { k with clerkBuf, pc := .reply })⟩) := by
  have hheld := hf.held c k hk
  obtain ⟨key', hc, -⟩ := hheld.get_of_pc hp
  simp only [Held, hc, HeldGet, hp] at hheld
  obtain rfl : key = key' := hheld.2
  have hplace := hi.place c k hk
  simp only [Place, hp] at hplace
  have ho : k.ctl.mapOp? = some (.get key) := by rw [hc]; rfl
  have hcalled : phases h s c = .called (.get key) := by
    rw [phases_of hk, phase_called ho (.inl (by rw [hp]; rfl))]
  have hwait := hf.waiting_move hm (by simp [hp]) (by simp [hp])
  have hex := phase_executed (h := h.addAll [.readDb c key (s.server.db key)])
    (k := { k with clerkBuf, pc := .reply }) ho rfl
    (by rw [hwait]; exact fun hw => hplace (hf.waiting_sub hw))
  rw [phases_move hf hk hm (by simp [hp]), hex]
  refine AtomicRun.exec hcalled ?_
  simp [Store.apply, result, History.add]

/-- A clerk that reads a request other than `CLOSE` goes on to execute it. -/
theorem read_early {v : View} (hh : Held v k) (hp : k.pc = .read) (ho : k.ctl.mapOp? = some op) :
    k.read.pc.early = true := by
  have hr := held_read hh hp
  unfold Conn.read at hr ⊢
  split
  · rename_i hq
    simp only [hq] at hr
    cases hc : k.ctl <;> simp [Held, HeldReq, HeldGet, hc, Ctl.mapOp?] at hr ho
  · rfl
  · rfl

theorem move_sim (hf : Flow db h s) (hi : Ctrl s) (hg : GotShort h) (hk : s.conns[c]? = some k)
    (hm : Move s c k a sv' k' w es) :
    AtomicRun Store.apply (s.server.db, phases h s) (seen (.conn c a) es)
      (sv'.db, phases (h.addAll es) ⟨sv', w.apply (s.conns.set c k')⟩) := by
  have hmv := hm
  have hheld := hf.held c k hk
  -- a clerk that goes on with a request that is pushed, or with a reply
  have hlate : k'.ctl = k.ctl → k.pc.early = false → k'.pc.early = false →
      (h.addAll es).got c = h.got c → (∀ last, k.pc ≠ .putDb last) → k.pc ≠ .push →
      phase (h.addAll es) c k' = phase h c k := by
    intro hc he he' hgot hd hp
    exact phase_eq hc (by rw [he, he', hf.waiting_move hmv hp hd]) hgot
  cases hm
  case call x hc hp => exact sim_call hf hk hc hp
  case acked r hc hp => exact sim_ret hf hi hk hp (by rw [hc]; rfl) hmv rfl
  case deleted key hc hp => exact sim_ret hf hi hk hp (by rw [hc]; rfl) hmv rfl
  case got key hc hp =>
    refine sim_ret hf hi hk hp (by rw [hc]; rfl) hmv ?_
    simp only [Held, hc, HeldGet, hp] at hheld
    rw [hheld.2.returns (fun val hv => hg c val hv)]
    rfl
  case dbHit key value hp hv => rw [← hv] at hmv ⊢; exact sim_get hf hi hk hp hmv
  case dbMiss key hp hv => rw [← hv] at hmv ⊢; exact sim_get hf hi hk hp hmv
  case putDb last hp => exact sim_putDb hf hi hk hp
  case read hp =>
    refine sim_stay hf hk hmv (by simp [hp]) rfl ?_ rfl
    have hctl : k.read.ctl = k.ctl := by unfold Conn.read; split <;> rfl
    cases ho : k.ctl.mapOp? with
    | none => rw [phase_idle (hctl ▸ ho), phase_idle ho]
    | some op =>
      rw [phase_called (hctl ▸ ho) (.inl (read_early hheld hp ho)),
        phase_called ho (.inl (by rw [hp]; rfl))]
  case lock hp hm =>
    refine sim_stay hf hk hmv (by simp [hp]) rfl ?_ rfl
    exact phase_eq rfl (by simp [hp, Pc.early]) rfl
  case push hp =>
    refine sim_stay hf hk hmv (by simp [hp]) rfl ?_ ?_
    · obtain ⟨q, hq⟩ := hheld.req_of_pc (.inl (by rw [hp]; rfl))
      simp only [Ctl.pushed, hq, Option.map_some, Option.toList_some, History.addAll_single]
      exact phase_eq rfl (by simp [hp, Pc.early, hf.waiting_push]) rfl
    · cases hr : k.ctl.req? <;> simp [Ctl.pushed, hr, seen, Label.seen, Event.ret?]
  case pop last d queue hp hq =>
    refine sim_stay hf hk hmv (by simp [hp]) rfl (hlate rfl (by rw [hp]; rfl) ?_ rfl (by simp [hp])
      (by simp [hp])) rfl
    split <;> rfl
  case relock hp _ | enter hp _ | lockPop hp _ | sleep hp _ _ | wake hp | follow hp _ | lead hp _ _ |
      build hp _ | putLog hp | notify hp | reply hp =>
    exact sim_stay hf hk hmv (by simp [hp]) rfl (hlate rfl (by rw [hp]; rfl) rfl rfl (by simp [hp])
      (by simp [hp])) rfl

/-- The run so far, whose history says in which phases the calls are. -/
def Sim (batch : WriteBatch) (db : Store) (file : Buf) (s : State)
    (x : Clients Nat Store MapOp MapRes) : Prop :=
  ∃ tr, Run Fit batch db file tr s ∧ GotShort (hist tr) ∧ x = (s.server.db, phases (hist tr) s)

variable {batch : WriteBatch} {file : Buf} {x : Clients Nat Store MapOp MapRes} {l : Label}

theorem step_sim (hdb : db.Bounded maxValue) (h : Sim batch db file s x) (hl : Fit s l)
    (hs : step s l = some (s', es)) :
    ∃ y, AtomicRun Store.apply x (seen l es) y ∧ Sim batch db file s' y := by
  obtain ⟨tr, hr, hg, rfl⟩ := h
  obtain ⟨hi, hf⟩ := flow_run hr
  have hr' : Run Fit batch db file (tr ++ es) s' := hr.tail hl hs
  cases step_cases hs with
  | connect hc =>
    subst hc
    refine ⟨_, ?_, tr ++ [], hr', by simpa using hg, rfl⟩
    rw [List.append_nil, phases_connect]
    exact .refl
  | @conn c a k k' sv' w es hc hk hm =>
    subst hc
    refine ⟨_, move_sim hf hi hg hk hm, tr ++ es, hr', ?_, by rw [hist_append]⟩
    rw [hist_append]
    exact hg.move (small_run hdb hr).db hm

/-- **Group is linearizable**: what any number of clients see of a run, in any order of the steps of
clients and clerks and with any keys in common, they may see of the atomic map. -/
theorem group_linearizable {seens : List (Seen Nat MapOp MapRes)} (hdb : db.Bounded maxValue)
    (hr : Steps (view seen step) Fit (init batch db file) seens s) :
    Linearizable Store.apply db seens := by
  refine Linearizable.of_sim (R := Sim batch db file) ⟨[], .refl, ?_, ?_⟩ ?_ hr
  · simp [GotShort, hist, History.empty]
  · exact Prod.ext rfl (funext fun c => by simp [phases, init])
  · intro s₁ l s₂ es x hR hp hs
    obtain ⟨es', hs', rfl⟩ := view_cases hs
    exact step_sim hdb hR hp hs'

/-- The `GET` of client 2 reads the batch of the writes of clients 0 and 1 before either has
returned; client 0's, which was pushed first, is overwritten. -/
theorem group_linearizable_batch :
    ∃ seens s, Steps (view seen step) Fit (init ⟨0, [], [], Sched.zeros⟩ (fun _ => none) Sched.zeros)
        seens s ∧
      seens = [.call 0 (.put [1] [10]), .call 1 (.put [1] [11]), .call 2 (.get [1]),
        .ret 2 (.get [1]) (.got (some [11])), .ret 0 (.put [1] [10]) .stored,
        .ret 1 (.put [1] [11]) .stored] ∧
      Linearizable Store.apply (fun _ => none) seens := by
  have hr : Steps (view seen step) Fit
      (init ⟨0, [], [], Sched.zeros⟩ (fun _ => none) Sched.zeros) _ _ := Steps.of_exec_get
    (Sched.connect 3 ++ Sched.push 0 (.write ⟨.put, [1], [10]⟩) ++ Sched.clerk 0 1 ++
      Sched.push 1 (.write ⟨.put, [1], [11]⟩) ++ Sched.clerk 1 1 ++ Sched.clerk 0 4 ++
      Sched.get 2 [1] ++ Sched.finish 0 2 ++ Sched.follow 1) (by decide +kernel)
  exact ⟨_, _, hr, by decide +kernel, group_linearizable (by simp [Store.Bounded]) hr⟩

end

end PMRAccess.Group
