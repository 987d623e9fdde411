import PMRAccess.Group.History

/-!
# What a step can do

`Move s c k a sv' k' w es` lists the moves of connection `c`, one constructor for each branch of its
client and clerk, with the branch's conditions and what it does to the writer of another clerk
(`w`). `step_cases`: a step is a new connection or a move of one connection. A wake changes nothing
of the connection it is for but its `done` flag and whether it is signalled (`Wake.on`).
-/

namespace PMRAccess.Group

open Lib

/-- The moves of a connection (module doc). -/
inductive Move (s : State) (c : Nat) (k : Conn) :
    Act → Server → Conn → Wake → List Event → Prop
  -- the client
  | call {x : Call} (hc : k.ctl = .idle) (hp : k.pc = .poll) :
      Move s c k (.call x) s.server (k.call x) .none []
  | acked {r : Record} (hc : k.ctl = .write r) (hp : k.pc = .poll) :
      Move s c k .client s.server { k with ctl := .idle } .none [.acked c r]
  | got {key : Bytes} (hc : k.ctl = .get key) (hp : k.pc = .poll) :
      Move s c k .client s.server { k with ctl := .idle } .none
        [.got c key (if replyOk k.localBuf then some (replyValue k.localBuf) else none)]
  | deleted {key : Bytes} (hc : k.ctl = .delete key) (hp : k.pc = .poll) :
      Move s c k .client s.server { k with ctl := .idle } .none
        [.deleted c key (replyOk k.localBuf)]
  -- the clerk outside of the queue
  | read (hp : k.pc = .read) : Move s c k .clerk s.server k.read .none []
  | dbHit {key value : Bytes} (hp : k.pc = .dbGet key) (hv : s.server.db key = some value) :
      Move s c k .clerk s.server
        { k with clerkBuf := setReply k.clerkBuf .ok value, pc := .reply } .none
        [.readDb c key (some value)]
  | dbMiss {key : Bytes} (hp : k.pc = .dbGet key) (hv : s.server.db key = none) :
      Move s c k .clerk s.server
        { k with clerkBuf := setStatus k.clerkBuf .notfound, pc := .reply } .none
        [.readDb c key none]
  | reply (hp : k.pc = .reply) :
      Move s c k .clerk s.server k.reply .none
        [.replied c k.ctl.req? (ofLe (k.clerkBuf.read ringHeader 4)) (replyValSize k.clerkBuf)]
  -- the clerk takes the mutex
  | lock (hp : k.pc = .lock) (hm : s.server.mutex = none) :
      Move s c k .clerk { s.server with mutex := some c } { k with pc := .push } .none []
  | relock (hp : k.pc = .relock) (hm : s.server.mutex = none) :
      Move s c k .clerk { s.server with mutex := some c } { k with pc := .test } .none []
  | enter (hp : k.pc = .linger) (hm : s.server.mutex = none) :
      Move s c k .clerk { s.server with mutex := some c } { k with pc := .build } .none []
  | lockPop {last : Nat} (hp : k.pc = .lockPop last) (hm : s.server.mutex = none) :
      Move s c k .clerk { s.server with mutex := some c } { k with pc := .pop last } .none []
  -- the clerk in the wait loop
  | push (hp : k.pc = .push) :
      Move s c k .clerk { s.server with queue := s.server.queue ++ [c] } { k with pc := .test } .none
        (k.ctl.pushed c)
  | sleep (hp : k.pc = .test) (hd : k.done = false) (hq : s.server.queue.head? ≠ some c) :
      Move s c k .clerk s.server.unlock { k with pc := .asleep false } .none []
  | wake {b : Bool} (hp : k.pc = .asleep b) :
      Move s c k .clerk s.server { k with pc := .relock } .none []
  | follow (hp : k.pc = .test) (hd : k.done = true) :
      Move s c k .clerk s.server.unlock
        { k with clerkBuf := setReply k.clerkBuf .ok [], pc := .reply } .none [.followed c]
  | lead (hp : k.pc = .test) (hd : k.done = false) (hq : s.server.queue.head? = some c) :
      Move s c k .clerk s.server.unlock { k with pc := .linger } .none [.led c]
  -- the leader
  | build {last : Nat} (hp : k.pc = .build)
      (hl : (buildBatchGroup s.server.batch s.writers).lastWriter = some last) :
      Move s c k .clerk
        { s.server with batch := (buildBatchGroup s.server.batch s.writers).batch }.unlock
        { k with pc := .putDb last } .none
        [.built c (buildBatchGroup s.server.batch s.writers).batch.keys.length]
  | putDb {last : Nat} (hp : k.pc = .putDb last) :
      Move s c k .clerk { s.server with db := putPairs s.server.db s.server.batch.pairs }
        { k with pc := .putLog last } .none [.applied s.server.batch.pairs]
  | putLog {last : Nat} (hp : k.pc = .putLog last) :
      Move s c k .clerk
        { s.server with
          log := s.server.log.putBatch (s.server.batch.buffer.read 0 s.server.batch.batchLength) }
        { k with pc := .lockPop last } .none
        [.logged (s.server.batch.buffer.read 0 s.server.batch.batchLength)]
  | pop {last d : Nat} {queue : List Nat} (hp : k.pc = .pop last)
      (hq : s.server.queue = d :: queue) :
      Move s c k .clerk { s.server with queue }
        { k with pc := if d = last then .notify else .pop last }
        (if d ≠ c then .done d else .none) [.popped d]
  | notify (hp : k.pc = .notify) :
      Move s c k .clerk s.server.unlock { k with pc := .reply }
        (match s.server.queue.head? with
          | some d => .signal d
          | none => .none) []

theorem Server.lock_some {sv sv' : Server} {c : Nat} (h : sv.lock c = some sv') :
    sv.mutex = none ∧ sv' = { sv with mutex := some c } := by
  unfold Server.lock at h
  split at h
  · rename_i hm
    exact ⟨hm, (Option.some.inj h).symm⟩
  · cases h

section
variable {s : State} {c : Nat} {k k' : Conn} {a : Act} {sv' : Server} {w : Wake} {es : List Event}

theorem clerkStep_cases (h : clerkStep s c k = some (sv', k', w, es)) :
    Move s c k .clerk sv' k' w es := by
  unfold clerkStep at h
  cases hp : k.pc <;> simp only [hp] at h
  case poll => cases h
  case read => cases h; exact .read hp
  case dbGet key =>
    cases hv : s.server.db key <;> simp only [hv] at h <;> cases h
    · exact .dbMiss hp hv
    · exact .dbHit hp hv
  case lock =>
    obtain ⟨sv, hl, hs⟩ := Option.map_eq_some_iff.1 h
    obtain ⟨hm, rfl⟩ := Server.lock_some hl
    cases hs
    exact .lock hp hm
  case push => cases h; exact .push hp
  case test =>
    split at h
    · rename_i ht
      cases h
      simp only [Bool.and_eq_true, Bool.not_eq_true', decide_eq_true_eq] at ht
      exact .sleep hp ht.1 ht.2
    · rename_i ht
      split at h <;> rename_i hd <;> cases h
      · exact .follow hp hd
      · simp only [Bool.not_eq_true] at hd
        simp only [hd, Bool.not_false, Bool.true_and, decide_eq_true_eq, not_not] at ht
        exact .lead hp hd ht
  case asleep b => cases h; exact .wake hp
  case relock =>
    obtain ⟨sv, hl, hs⟩ := Option.map_eq_some_iff.1 h
    obtain ⟨hm, rfl⟩ := Server.lock_some hl
    cases hs
    exact .relock hp hm
  case linger =>
    obtain ⟨sv, hl, hs⟩ := Option.map_eq_some_iff.1 h
    obtain ⟨hm, rfl⟩ := Server.lock_some hl
    cases hs
    exact .enter hp hm
  case build =>
    obtain ⟨last, hl, hs⟩ := Option.map_eq_some_iff.1 h
    cases hs
    exact .build hp hl
  case putDb last =>
    cases h
    rw [putBatch_eq_putPairs]
    exact .putDb hp
  case putLog last => cases h; exact .putLog hp
  case lockPop last =>
    obtain ⟨sv, hl, hs⟩ := Option.map_eq_some_iff.1 h
    obtain ⟨hm, rfl⟩ := Server.lock_some hl
    cases hs
    exact .lockPop hp hm
  case pop last =>
    cases hq : s.server.queue <;> simp only [hq] at h <;> cases h
    exact .pop hp hq
  case notify => cases h; exact .notify hp
  case reply => cases h; exact .reply hp
  case done => cases h

theorem connStep_cases (h : connStep s c k a = some (sv', k', w, es)) :
    Move s c k a sv' k' w es := by
  cases a with
  | call x =>
    simp only [connStep] at h
    split at h
    · rename_i hc hp
      cases h
      exact .call hc hp
    · cases h
  | client =>
    simp only [connStep] at h
    split at h
    · rename_i hp
      obtain ⟨⟨k1, es1⟩, hs, he⟩ := Option.map_eq_some_iff.1 h
      cases he
      unfold clientStep at hs
      cases hc : k.ctl <;> simp only [hc] at hs <;> cases hs
      · exact .acked hc hp
      · exact .got hc hp
      · exact .deleted hc hp
    · cases h
  | clerk => exact clerkStep_cases h

end

/-- What a step can do (module doc). -/
inductive Change (s : State) (l : Label) : State → List Event → Prop
  | connect {localBuf clerkBuf : Buf} (hl : l = .connect localBuf clerkBuf) :
      Change s l { s with conns := s.conns ++ [⟨localBuf, clerkBuf, .idle, .poll, false⟩] } []
  | conn {c : Nat} {a : Act} {k k' : Conn} {sv' : Server} {w : Wake} {es : List Event}
      (hl : l = .conn c a) (hk : s.conns[c]? = some k) (hm : Move s c k a sv' k' w es) :
      Change s l ⟨sv', w.apply (s.conns.set c k')⟩ es

theorem step_cases {s s' : State} {l : Label} {es : List Event} (h : step s l = some (s', es)) :
    Change s l s' es := by
  cases l with
  | connect localBuf clerkBuf => cases h; exact .connect rfl
  | conn c a =>
    simp only [step] at h
    split at h
    · cases h
    · rename_i k hk
      split at h
      · cases h
      · rename_i sv' k' w es' hs
        cases h
        exact .conn rfl hk (connStep_cases hs)

/-- A step shows one event at most. -/
theorem step_events {s s' : State} {l : Label} {es : List Event} (h : step s l = some (s', es)) :
    es.length ≤ 1 := by
  cases step_cases h with
  | connect hl => simp
  | @conn c a k k' sv' w es hl hk hm =>
    cases hm
    case push => cases hr : k.ctl.req? <;> simp [Ctl.pushed, hr]
    all_goals simp

section
variable {s : State} {c d : Nat} {k k' : Conn} {a : Act} {sv' : Server} {w : Wake} {es : List Event}

/-- A reply is posted by a clerk that is about to. -/
theorem Move.of_replied {q : Option Req} {status valSize : Nat} (hm : Move s c k a sv' k' w es)
    (he : .replied d q status valSize ∈ es) :
    d = c ∧ k.pc = .reply ∧ q = k.ctl.req? ∧ status = ofLe (k.clerkBuf.read ringHeader 4) ∧
      valSize = replyValSize k.clerkBuf := by
  cases hm
  case reply hp =>
    simp only [List.mem_singleton, Event.replied.injEq] at he
    exact ⟨he.1, hp, he.2⟩
  case push => cases hr : k.ctl.req? <;> simp [Ctl.pushed, hr] at he
  all_goals simp at he

end

/-! ## The connections after a step -/

namespace Wake

/-- What the wake does to connection `d`. -/
def on (w : Wake) (d : Nat) (k : Conn) : Conn :=
  match w with
  | none => k
  | signal e => if e = d then k.signal else k
  | done e => if e = d then { k with done := true }.signal else k

theorem getElem?_apply (w : Wake) (ks : List Conn) (d : Nat) :
    (w.apply ks)[d]? = ks[d]?.map (w.on d) := by
  cases w with
  | none => cases h : ks[d]? <;> simp [apply, on, h]
  | signal e =>
    simp only [apply, List.getElem?_modify]
    by_cases h : e = d <;> cases ks[d]? <;> simp [on, h]
  | done e =>
    simp only [apply, List.getElem?_modify]
    by_cases h : e = d <;> cases ks[d]? <;> simp [on, h]

@[simp] theorem length_apply (w : Wake) (ks : List Conn) : (w.apply ks).length = ks.length := by
  cases w <;> simp [apply]

end Wake

section
variable (k : Conn)

@[simp] theorem Conn.signal_localBuf : k.signal.localBuf = k.localBuf := by
  unfold Conn.signal; split <;> rfl

@[simp] theorem Conn.signal_clerkBuf : k.signal.clerkBuf = k.clerkBuf := by
  unfold Conn.signal; split <;> rfl

@[simp] theorem Conn.signal_ctl : k.signal.ctl = k.ctl := by unfold Conn.signal; split <;> rfl

@[simp] theorem Conn.signal_done : k.signal.done = k.done := by unfold Conn.signal; split <;> rfl

theorem Conn.signal_pc :
    k.signal.pc = k.pc ∨ ∃ b, k.pc = .asleep b ∧ k.signal.pc = .asleep true := by
  unfold Conn.signal
  split
  · rename_i b hb
    exact .inr ⟨b, hb, rfl⟩
  · exact .inl rfl

variable (w : Wake) (d : Nat)

@[simp] theorem Wake.on_localBuf : (w.on d k).localBuf = k.localBuf := by
  cases w <;> simp only [on] <;> split <;> simp

@[simp] theorem Wake.on_clerkBuf : (w.on d k).clerkBuf = k.clerkBuf := by
  cases w <;> simp only [on] <;> split <;> simp

@[simp] theorem Wake.on_ctl : (w.on d k).ctl = k.ctl := by
  cases w <;> simp only [on] <;> split <;> simp

/-- A wake leaves the clerk where it is; a sleeping one may be signalled. -/
theorem Wake.on_pc :
    (w.on d k).pc = k.pc ∨ ∃ b, k.pc = .asleep b ∧ (w.on d k).pc = .asleep true := by
  cases w with
  | none => exact .inl rfl
  | signal e =>
    simp only [on]
    split
    · exact k.signal_pc
    · exact .inl rfl
  | done e =>
    simp only [on]
    split
    · exact Conn.signal_pc { k with done := true }
    · exact .inl rfl

theorem Wake.on_class {β : Type*} {f : Pc → β} (hf : ∀ b b', f (.asleep b) = f (.asleep b')) :
    f (w.on d k).pc = f k.pc := by
  rcases w.on_pc k d with h | ⟨b, h, h'⟩
  · rw [h]
  · rw [h, h', hf]

@[simp] theorem Wake.on_holds : (w.on d k).pc.holds = k.pc.holds := w.on_class k d fun _ _ => rfl

@[simp] theorem Wake.on_leading : (w.on d k).pc.leading = k.pc.leading :=
  w.on_class k d fun _ _ => rfl

@[simp] theorem Wake.on_popping : (w.on d k).pc.popping = k.pc.popping :=
  w.on_class k d fun _ _ => rfl

end

section
variable {s : State} {sv' : Server} {c d : Nat} {k k' kd : Conn} {w : Wake}

/-- The connections after a move of `c`. -/
theorem conns_after (hk : s.conns[c]? = some k)
    (hkd : (State.mk sv' (w.apply (s.conns.set c k'))).conns[d]? = some kd) :
    (d = c ∧ kd = w.on c k') ∨ (d ≠ c ∧ ∃ k₀, s.conns[d]? = some k₀ ∧ kd = w.on d k₀) := by
  rw [Wake.getElem?_apply] at hkd
  obtain ⟨k₀, h₀, rfl⟩ := Option.map_eq_some_iff.1 hkd
  rcases set_cases hk h₀ with ⟨rfl, rfl⟩ | ⟨hdc, h₀⟩
  · exact .inl ⟨rfl, rfl⟩
  · exact .inr ⟨hdc, k₀, h₀, rfl⟩

theorem conns_after_self (hk : s.conns[c]? = some k) :
    (State.mk sv' (w.apply (s.conns.set c k'))).conns[c]? = some (w.on c k') := by
  rw [Wake.getElem?_apply, set_self hk]
  rfl

theorem conns_after_ne (hdc : d ≠ c) :
    (State.mk sv' (w.apply (s.conns.set c k'))).conns[d]? = s.conns[d]?.map (w.on d) := by
  rw [Wake.getElem?_apply, List.getElem?_set_ne (Ne.symm hdc)]

end

end PMRAccess.Group
