import PMRAccess.Group.Proof.Commit
import PMRAccess.Lib.Progress

/-!
# Every call of the Group front end returns

If clients start no new calls and a clerk in `cv.Wait` wakes only when it is signalled (`Prompt`),
every run of clients and clerks ends, in whatever order they take their steps, and then every call
has returned. `weight` is what a connection has still to do. A clerk in the wait loop has less of it
when its writer is `ready`: a signal goes only to a writer that is done or at the front
(`SignalReady`), so that a clerk that wakes does not go back to sleep.
-/

namespace PMRAccess.Group

open Lib

/-- Clients and clerks finish what is under way; a clerk wakes only when it is signalled. -/
def Prompt (s : State) : Label → Prop
  | .connect _ _ | .conn _ (.call _) => False
  | .conn _ .client => True
  | .conn c .clerk => ∀ k, s.conns[c]? = some k → k.pc ≠ .asleep false

/-- Every call has returned, and the clerks of closed connections have ended; no writer is left in
the queue, and the mutex is free. -/
structure Returned (s : State) : Prop where
  calls : ∀ (c : Nat) (k : Conn), s.conns[c]? = some k →
    k.ctl = .idle ∨ k.ctl = .close ∧ k.pc = .done
  queue : s.server.queue = []
  mutex : s.server.mutex = none

/-- The condition that ends the wait loop. -/
def ready (queue : List Nat) (c : Nat) (k : Conn) : Bool := k.done || queue.head? == some c

/-- The steps a connection has still to take (module doc). -/
def weight (queue : List Nat) (c : Nat) (k : Conn) : Nat :=
  match k.pc with
  | .done => 0
  | .poll => if k.ctl = .idle ∨ k.ctl = .close then 0 else 1
  | .reply => 2
  | .dbGet _ | .notify => 3
  | .pop _ => 4
  | .lockPop _ => 5
  | .putLog _ => 6
  | .putDb _ => 7
  | .build => 8
  | .linger => 9
  | .test => if ready queue c k then 10 else 14
  | .relock => if ready queue c k then 11 else 15
  | .asleep signalled => if signalled then 12 else 13
  | .push => 16
  | .lock => 17
  | .read => 18

/-- What is left of a run: the weights, and the writers that are still to be popped. -/
def work (s : State) : Nat := total (weight s.server.queue) s.conns + s.server.queue.length

/-- Who is signalled is done or at the front. -/
def SignalReady (s : State) : Prop :=
  ∀ (c : Nat) (k : Conn), s.conns[c]? = some k → k.pc = .asleep true →
    ready s.server.queue c k = true

section
variable {s s' : State} {c d : Nat} {k k' kd : Conn} {a : Act} {sv' : Server} {w : Wake}
  {es : List Event} {l : Label} {queue : List Nat}

/-! ## Other connections -/

/-- What a move of `c` does to a writer of another clerk that is ready. -/
theorem Move.ready_keep (hm : Move s c k a sv' k' w es) (hdc : d ≠ c) {kd : Conn}
    (h : ready s.server.queue d kd = true) : ready sv'.queue d (w.on d kd) = true := by
  have hd : kd.done = true → (w.on d kd).done = true := by
    intro h
    cases w <;> simp only [Wake.on] <;> first | exact h | (split <;> simp [h])
  simp only [ready, Bool.or_eq_true, beq_iff_eq] at h ⊢
  rcases h with h | h
  · exact .inl (hd h)
  · cases hm
    case push hp =>
      refine .inr ?_
      cases hq : s.server.queue <;> simp [hq] at h ⊢
      exact h
    case pop last e queue hp hq =>
      -- the front writer is popped, so it is done
      obtain rfl : e = d := by simpa [hq] using h
      exact .inl (by simp [Wake.on, hdc])
    all_goals exact .inr h

/-- The weight of the other connections does not grow. -/
theorem Move.weight_other (hm : Move s c k a sv' k' w es) (hdc : d ≠ c) (kd : Conn) :
    weight sv'.queue d (w.on d kd) ≤ weight s.server.queue d kd := by
  have hr : ready s.server.queue d kd = true → _ := hm.ready_keep hdc
  rcases w.on_pc kd d with hp | ⟨b, hb, hp⟩
  · simp only [weight, hp, Wake.on_ctl]
    cases hpc : kd.pc <;> simp only [le_refl]
    case test | relock =>
      cases h : ready s.server.queue d kd with
      | true => simp [hr h]
      | false => split <;> simp
  · simp only [weight, hp, hb]
    cases b <;> simp

/-! ## The connection that moves -/

theorem weight_poll (queue : List Nat) (c : Nat) (hp : k.pc = .poll) : weight queue c k ≤ 1 := by
  simp only [weight, hp]
  split <;> omega

theorem weight_reply (queue : List Nat) (c : Nat) (hp : k.pc = .reply) : weight queue c k = 2 := by
  simp [weight, hp]

theorem weight_test (queue : List Nat) (c : Nat) (hp : k.pc = .test) :
    10 ≤ weight queue c k ∧ weight queue c k ≤ 14 := by
  simp only [weight, hp]
  split <;> omega

theorem weight_relock (queue : List Nat) (c : Nat) (hp : k.pc = .relock) :
    weight queue c k = weight queue c { k with pc := .test } + 1 := by
  have hr : ready queue c { k with pc := .test } = ready queue c k := rfl
  simp only [weight, hp]
  cases h : ready queue c k <;> simp [hr, h]

theorem Wake.on_none (d : Nat) (k : Conn) : Wake.none.on d k = k := rfl

/-- A wake leaves a clerk that is awake where it is. -/
theorem Wake.on_awake (w : Wake) (h : ∀ b, k.pc ≠ .asleep b) : (w.on c k).pc = k.pc := by
  rcases w.on_pc k c with hp | ⟨b, hb, -⟩
  · exact hp
  · exact absurd hb (h b)

/-- A move under the guard makes the weight smaller; a push makes room for its writer. -/
theorem Move.weight_self (hs : SignalReady s) (hm : Move s c k a sv' k' w es)
    (hk : s.conns[c]? = some k) (hg : Prompt s (.conn c a)) :
    weight sv'.queue c (w.on c k') + sv'.queue.length + 1 ≤
      weight s.server.queue c k + s.server.queue.length := by
  have hon : (∀ b, k'.pc ≠ .asleep b) → (w.on c k').pc = k'.pc := w.on_awake
  cases hm <;> try rw [Wake.on_none]
  case call => exact hg.elim
  case acked hc hp | got hc hp | deleted hc hp =>
    simp only [weight, hp, hc, true_or, if_true, reduceCtorEq, or_self, if_false]
    omega
  case read hp =>
    have : weight s.server.queue c k.read ≤ 17 := by
      unfold Conn.read
      split <;> simp [weight]
    simp only [show weight s.server.queue c k = 18 by simp [weight, hp]]
    omega
  case reply hp =>
    have hle := weight_poll s.server.queue c (k := k.reply) rfl
    rw [weight_reply _ _ hp]
    omega
  case push hp =>
    have hle := weight_test (s.server.queue ++ [c]) c (k := { k with pc := .test }) rfl
    rw [show weight s.server.queue c k = 16 by simp [weight, hp], List.length_append]
    simp only [List.length_singleton]
    omega
  case relock hp hm =>
    have heq := weight_relock s.server.queue c hp
    simp only
    omega
  case sleep hp hd hq =>
    simp only [weight, hp, ready, hd, Server.unlock]
    have hhead : (s.server.queue.head? == some c) = false := by simpa using hq
    simp only [hhead, Bool.or_false, Bool.false_eq_true, if_false]
    omega
  case wake b hpc =>
    cases b with
    | false => exact absurd hpc (hg k hk)
    | true =>
      have hr : ready s.server.queue c { k with pc := .relock } = true := hs c k hk hpc
      simp only [weight, hpc, hr, if_true]
      omega
  case follow hp hd =>
    have hle := weight_test s.server.queue c hp
    have hr := weight_reply s.server.queue c
      (k := { k with clerkBuf := setReply k.clerkBuf .ok [], pc := .reply }) rfl
    simp only [Server.unlock]
    omega
  case lead hp hd hq =>
    have hle := weight_test s.server.queue c hp
    have hl : weight s.server.queue c { k with pc := .linger } = 9 := rfl
    simp only [Server.unlock]
    omega
  case pop last e queue hp hq =>
    replace hon := hon (by intro b; split <;> simp)
    have hle : weight queue c (Wake.on (if e ≠ c then .done e else .none) c
        { k with pc := if e = last then .notify else .pop last }) ≤ 4 := by
      rw [weight, hon]
      by_cases he : e = last <;> simp [he]
    rw [show weight s.server.queue c k = 4 by simp [weight, hp], hq, List.length_cons]
    simp only
    omega
  case notify hp =>
    have hr := weight_reply s.server.queue c (hon (by simp))
    rw [show weight s.server.queue c k = 3 by simp [weight, hp]]
    simp only [Server.unlock]
    omega
  case dbHit hp _ | dbMiss hp _ | lock hp _ | enter hp _ | lockPop hp _ | build hp _ | putDb hp |
      putLog hp =>
    simp only [weight, hp, Server.unlock]
    omega

/-! ## Steps -/

/-- A clerk does not put itself to sleep signalled. -/
theorem Move.not_signalled (hm : Move s c k a sv' k' w es) : (w.on c k').pc ≠ .asleep true := by
  cases hm <;> try rw [Wake.on_none]
  case call x _ _ => simp
  case acked hp | got hp | deleted hp => simp [hp]
  case read =>
    unfold Conn.read
    split <;> simp
  case pop last e queue hp hq =>
    rw [Wake.on_awake] <;> by_cases he : e = last <;> simp [he]
  case notify => rw [Wake.on_awake] <;> simp
  all_goals simp [Conn.reply]

/-- Who is signalled by a move is done, or at the front. -/
theorem Move.signals_ready (hm : Move s c k a sv' k' w es) (hp : (w.on d kd).pc ≠ kd.pc) :
    ready sv'.queue d (w.on d kd) = true := by
  cases w with
  | none => exact absurd rfl hp
  | done e =>
    simp only [Wake.on] at hp ⊢
    split
    · simp [ready]
    · rename_i he
      simp [he] at hp
  | signal e =>
    have hhead : sv'.queue.head? = some e := by
      generalize hw : Wake.signal e = w at hm
      cases hm <;> try cases hw
      case pop => split at hw <;> cases hw
      case notify =>
        show s.server.queue.head? = some e
        cases hq : s.server.queue.head? <;> simp [hq] at hw ⊢
        exact hw.symm
    simp only [Wake.on] at hp ⊢
    split
    · rename_i he
      simp [ready, hhead, he]
    · rename_i he
      simp [he] at hp

theorem SignalReady.step (hs : SignalReady s) (hstep : step s l = some (s', es)) :
    SignalReady s' := by
  cases step_cases hstep with
  | connect hl =>
    intro d kd hkd hp
    rcases append_cases hkd with hkd | ⟨-, rfl⟩
    · exact hs d kd hkd hp
    · cases hp
  | @conn c a k k' sv' w es hl hk hm =>
    intro d kd hkd hp
    rcases conns_after hk hkd with ⟨rfl, rfl⟩ | ⟨hdc, k₀, h₀, rfl⟩
    · exact absurd hp hm.not_signalled
    · by_cases hpc : (w.on d k₀).pc = k₀.pc
      · exact hm.ready_keep hdc (hs d k₀ h₀ (hpc ▸ hp))
      · exact hm.signals_ready hpc

/-- A step under the guard makes the work less. -/
theorem work_step (hs : SignalReady s) (hg : Prompt s l) (hstep : step s l = some (s', es)) :
    work s' < work s := by
  cases step_cases hstep with
  | connect hl => subst hl; exact hg.elim
  | @conn c a k k' sv' w es hl hk hm =>
    subst hl
    have hself := hm.weight_self hs hk hg
    have hle : total (weight sv'.queue) (w.apply (s.conns.set c k')) + weight s.server.queue c k ≤
        total (weight s.server.queue) s.conns + weight sv'.queue c (w.on c k') := by
      have hself' : (State.mk sv' (w.apply (s.conns.set c k'))).conns[c]? = some (w.on c k') :=
        conns_after_self hk
      refine total_le (by simp) hk hself' fun d kd kd' hdc hkd hkd' => ?_
      have hkd'' : (State.mk sv' (w.apply (s.conns.set c k'))).conns[d]? = some kd' := hkd'
      rcases conns_after hk hkd'' with ⟨hd, -⟩ | ⟨-, k₀, h₀, rfl⟩
      · exact absurd hd hdc
      · obtain rfl : kd = k₀ := by simpa [hkd] using h₀
        exact hm.weight_other hdc kd
    simp only [work]
    omega

/-! ## Where a run can go no further -/

theorem lastWriter_isSome (b : WriteBatch) {ι : Type*} {ws : List (ι × Buf)} (h : ws ≠ []) :
    ((buildBatchGroup b ws).lastWriter).isSome = true := by
  obtain ⟨w, ws, rfl⟩ := List.exists_cons_of_ne_nil h
  rw [lastWriter_taken, taken]
  split <;> simp

theorem step_clerk (hk : s.conns[c]? = some k) :
    step s (.conn c .clerk) = none ↔ clerkStep s c k = none := by
  simp only [step, hk, connStep]
  cases clerkStep s c k <;> simp

/-- A clerk with the mutex can move on. -/
theorem holder_enabled {db : Store} {h : History} (hi : Ctrl s) (hf : Flow db h s)
    (hk : s.conns[c]? = some k) (hh : k.pc.holds = true) : clerkStep s c k ≠ none := by
  have hplace := hi.place c k hk
  have hstage := hf.stage c k hk
  cases hp : k.pc <;> simp only [hp, Pc.holds, Bool.false_eq_true] at hh <;>
    simp only [Place, hp, Stage] at hplace hstage <;> simp only [clerkStep, hp]
  case push | notify => simp
  case test =>
    split
    · simp
    · split <;> simp
  case build =>
    have hw : s.writers ≠ [] := by
      intro hw
      rw [State.writers, List.map_eq_nil_iff] at hw
      simp [hw] at hplace
    obtain ⟨last, hl⟩ := Option.isSome_iff_exists.1 (lastWriter_isSome s.server.batch hw)
    simp [hl]
  case pop last =>
    -- the batch is not yet popped, and its last writer is in the queue
    cases hq : s.server.queue with
    | nil =>
      rw [hf.queue, List.map_eq_nil_iff] at hq
      simp [LastIn, hq] at hstage
    | cons e queue => simp

theorem returned_of_stuck {db : Store} {h : History} (hi : Ctrl s) (hf : Flow db h s)
    (hstuck : ∀ l, Prompt s l → step s l = none) : Returned s := by
  have hclerk : ∀ (c : Nat) (k : Conn), s.conns[c]? = some k → k.pc ≠ .asleep false →
      clerkStep s c k = none := by
    intro c k hk hp
    refine (step_clerk hk).1 (hstuck _ fun k' hk' => ?_)
    rw [hk, Option.some.injEq] at hk'
    exact hk' ▸ hp
  -- the mutex is free: who has it can move on
  have hmutex : s.server.mutex = none := by
    cases hm : s.server.mutex with
    | none => rfl
    | some c =>
      obtain ⟨k, hk⟩ : ∃ k, s.conns[c]? = some k := ⟨_, List.getElem?_eq_getElem (hi.owner c hm)⟩
      have hh := (hi.mutex c k hk).2 hm
      refine absurd (hclerk c k hk ?_) (holder_enabled hi hf hk hh)
      intro hp
      rw [hp] at hh
      cases hh
  -- so is the queue: the clerk of its front could move on
  have hqueue : s.server.queue = [] := by
    by_contra hq
    obtain ⟨c, queue, hcq⟩ := List.exists_cons_of_ne_nil hq
    have hmem : c ∈ s.server.queue := by simp [hcq]
    obtain ⟨k, hk⟩ : ∃ k, s.conns[c]? = some k := ⟨_, List.getElem?_eq_getElem (hi.live c hmem)⟩
    have hawake : k.pc ≠ .asleep false := by
      intro hp
      obtain ⟨d, kd, hkd, hpop⟩ := hi.front c k hk (by simp [hcq]) hp
      have hh : kd.pc.holds = true := by
        revert hpop
        cases kd.pc <;> simp [Pc.popping, Pc.holds]
      rw [(hi.mutex d kd hkd).1 hh] at hmutex
      cases hmutex
    have he := hi.enabled hmutex hmem hk
    rw [(step_clerk hk).2 (hclerk c k hk hawake)] at he
    cases he
  refine ⟨fun c k hk => ?_, hqueue, hmutex⟩
  have hplace := hi.place c k hk
  have hheld := hf.held c k hk
  have hno := hclerk c k hk
  have hmu := hi.mutex c k hk
  cases hp : k.pc <;> simp only [Place, hp, hqueue, List.not_mem_nil, not_false_eq_true, false_and,
      List.head?_nil, reduceCtorEq, false_iff, Bool.not_eq_false] at hplace <;>
    simp only [clerkStep, hp, Server.lock, hmutex, Option.map_some, reduceCtorEq, ne_eq,
      not_false_eq_true, forall_const, Pc.asleep.injEq, imp_false, not_not] at hno
  case asleep b =>
    subst hno
    exact absurd hp (hi.signalled c k hk hplace)
  case poll =>
    have hcl := hstuck (.conn c .client) trivial
    cases hc : k.ctl <;> simp [step, hk, connStep, hp, clientStep, hc] at hcl
    case idle => exact .inl rfl
    case close => simp [Held, hc, hp] at hheld
  case done =>
    cases hc : k.ctl <;> simp [Held, HeldReq, HeldGet, hc, hp] at hheld
    exact .inr ⟨rfl, rfl⟩
  -- who has the mutex
  all_goals simp [hp, Pc.holds, hmutex] at hmu

end

/-- **Every call returns**: in whatever order clients and clerks take their steps, if no new calls
are made and clerks wake only when they are signalled, the run ends, and then every call has returned
and the queue is empty. -/
theorem every_call_returns {batch : WriteBatch} {db : Store} {file : Buf} {tr : List Event}
    {s : State} (hr : Run Fit batch db file tr s) : Ends step Prompt Returned s := by
  refine Ends.of_measure work
    (I := fun s => SignalReady s ∧ ∃ tr, Run Fit batch db file tr s) ?_ ?_ ⟨?_, tr, hr⟩
  · rintro s l s' es ⟨hs, tr, hr⟩ hp hstep
    have hfit : Fit s l := by
      intro x hx
      match l, hx, hp with
      | .conn _ (.call _), _, hp => exact hp.elim
    exact ⟨⟨hs.step hstep, _, hr.tail hfit hstep⟩, work_step hs hp hstep⟩
  · rintro s ⟨-, tr, hr⟩ hstuck
    exact returned_of_stuck (flow_run hr).1 (flow_run hr).2 hstuck
  · exact Run.invariant (I := fun _ s => SignalReady s) (by simp [SignalReady, init])
      (fun hs _ hstep => hs.step hstep) hr

/-- A follower asleep behind the leader that has put its batch into the log, and a `GET`. -/
theorem every_call_returns_batch :
    ∃ tr s, Sched.Runs Fit tr s ∧ (s.conns.map Conn.pc) = [.lockPop 1, .asleep false, .read] ∧
      Ends step Prompt Returned s := by
  have hr : Sched.Runs Fit _ _ := Steps.of_exec_get
    (Sched.connect 3 ++ Sched.push 0 (.write ⟨.put, [1], [10]⟩) ++ Sched.clerk 0 1 ++
      Sched.push 1 (.write ⟨.put, [1], [11]⟩) ++ Sched.clerk 1 1 ++ Sched.clerk 0 4 ++
      [.conn 2 (.call (.get [1]))]) (by decide +kernel)
  exact ⟨_, _, hr, by decide +kernel, every_call_returns hr⟩

end PMRAccess.Group
