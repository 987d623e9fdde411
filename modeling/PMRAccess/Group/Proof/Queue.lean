import PMRAccess.Group.Proof.Moves

/-!
# The queue of writers

`Ctrl`: where a clerk is says whether it has the mutex and whether its writer is in the queue
(`Place`); there is one leader at most; and the front writer does not sleep unsignalled unless the
leader is about to signal it.
-/

namespace PMRAccess.Group

open Lib

/-- Whether the clerk's writer is in the queue, by where the clerk is. A leader is the front of the
queue until it pops itself, which is the first thing it pops. -/
def Place (queue : List Nat) (c : Nat) (k : Conn) : Prop :=
  match k.pc with
  | .lock | .push => c ∉ queue ∧ k.done = false
  | .test | .asleep _ | .relock => c ∈ queue ↔ k.done = false
  | .linger | .build | .putDb _ | .putLog _ | .lockPop _ =>
    queue.head? = some c ∧ k.done = false
  | .pop _ => (queue.head? = some c ∨ c ∉ queue) ∧ k.done = false
  | .poll | .read | .dbGet _ | .notify | .reply | .done => c ∉ queue

/-- The invariant of the queue (module doc). -/
structure Ctrl (s : State) : Prop where
  nodup : s.server.queue.Nodup
  live : ∀ c ∈ s.server.queue, c < s.conns.length
  owner : ∀ c, s.server.mutex = some c → c < s.conns.length
  mutex : ∀ (c : Nat) (k : Conn), s.conns[c]? = some k →
    (k.pc.holds = true ↔ s.server.mutex = some c)
  place : ∀ (c : Nat) (k : Conn), s.conns[c]? = some k → Place s.server.queue c k
  unique : ∀ (c d : Nat) (k kd : Conn), s.conns[c]? = some k → s.conns[d]? = some kd →
    k.pc.leading = true → kd.pc.leading = true → c = d
  signalled : ∀ (c : Nat) (k : Conn), s.conns[c]? = some k → k.done = true → k.pc ≠ .asleep false
  front : ∀ (c : Nat) (k : Conn), s.conns[c]? = some k → s.server.queue.head? = some c →
    k.pc = .asleep false → ∃ (d : Nat) (kd : Conn), s.conns[d]? = some kd ∧ kd.pc.popping = true

theorem ctrl_init (batch : WriteBatch) (db : Store) (file : Buf) : Ctrl (init batch db file) := by
  constructor <;> simp [init]

section
variable {s : State} {c d : Nat} {k k' kd : Conn} {sv' : Server} {w : Wake}

theorem Ctrl.connect (hi : Ctrl s) (localBuf clerkBuf : Buf) :
    Ctrl { s with conns := s.conns ++ [⟨localBuf, clerkBuf, .idle, .poll, false⟩] } := by
  have hlen : s.conns.length ∉ s.server.queue := fun h => Nat.lt_irrefl _ (hi.live _ h)
  constructor
  case nodup => exact hi.nodup
  case live => intro c hc; have := hi.live c hc; simp; omega
  case owner => intro c hc; have := hi.owner c hc; simp; omega
  case mutex =>
    intro c k hk
    rcases append_cases hk with hk | ⟨rfl, rfl⟩
    · exact hi.mutex c k hk
    · exact ⟨fun h => Bool.noConfusion h, fun h => absurd (hi.owner _ h) (Nat.lt_irrefl _)⟩
  case place =>
    intro c k hk
    rcases append_cases hk with hk | ⟨rfl, rfl⟩
    · exact hi.place c k hk
    · exact hlen
  case unique =>
    intro c d k kd hk hkd hl hld
    rcases append_cases hk with hk | ⟨rfl, rfl⟩
    · rcases append_cases hkd with hkd | ⟨rfl, rfl⟩
      · exact hi.unique c d k kd hk hkd hl hld
      · cases hld
    · cases hl
  case signalled =>
    intro c k hk hd
    rcases append_cases hk with hk | ⟨rfl, rfl⟩
    · exact hi.signalled c k hk hd
    · cases hd
  case front =>
    intro c k hk hq hp
    rcases append_cases hk with hk | ⟨rfl, rfl⟩
    · obtain ⟨d, kd, hkd, hpop⟩ := hi.front c k hk hq hp
      exact ⟨d, kd, append_some hkd, hpop⟩
    · cases hp

/-- A wake signals whom it marks done. -/
theorem Wake.on_signalled (h : k.done = true → k.pc ≠ .asleep false) (w : Wake) (d : Nat) :
    (w.on d k).done = true → (w.on d k).pc ≠ .asleep false := by
  intro hd hp
  rcases w.on_pc k d with hpc | ⟨b, -, hpc⟩
  · rw [hpc] at hp
    cases w with
    | none => exact h hd hp
    | signal e =>
      simp only [Wake.on] at hd
      split at hd <;> exact h (by simpa using hd) hp
    | done e =>
      simp only [Wake.on] at hd hpc
      split at hd <;> rename_i he
      · rw [if_pos he] at hpc
        simp [Conn.signal, hp] at hpc
      · exact h hd hp
  · rw [hpc] at hp
    cases hp

/-- A move of `c`: what is left to show of the queue, the mutex, and the places. -/
theorem Ctrl.update (hi : Ctrl s) (hk : s.conns[c]? = some k) (hnodup : sv'.queue.Nodup)
    (hlive : ∀ d ∈ sv'.queue, d ∈ s.server.queue ∨ d = c)
    (hm : k'.pc.holds = true ↔ sv'.mutex = some c)
    (hmo : ∀ d ≠ c, sv'.mutex = some d ↔ s.server.mutex = some d)
    (hplace : Place sv'.queue c (w.on c k'))
    (hplaceo : ∀ (d : Nat) (kd : Conn), d ≠ c → s.conns[d]? = some kd →
      Place sv'.queue d (w.on d kd))
    (hlead : k'.pc.leading = true → k.pc.leading = true ∨
      ∀ (d : Nat) (kd : Conn), d ≠ c → s.conns[d]? = some kd → kd.pc.leading = false)
    (hsig : k'.done = true → k'.pc ≠ .asleep false)
    (hfront : ∀ (d : Nat) (kd : Conn),
      (State.mk sv' (w.apply (s.conns.set c k'))).conns[d]? = some kd →
      sv'.queue.head? = some d → kd.pc = .asleep false →
      ∃ (e : Nat) (ke : Conn), (State.mk sv' (w.apply (s.conns.set c k'))).conns[e]? = some ke ∧
        ke.pc.popping = true) :
    Ctrl ⟨sv', w.apply (s.conns.set c k')⟩ := by
  have hlen : c < s.conns.length := (List.getElem?_eq_some_iff.1 hk).1
  constructor
  case nodup => exact hnodup
  case live =>
    intro d hd
    rw [Wake.length_apply, List.length_set]
    rcases hlive d hd with h | rfl
    · exact hi.live d h
    · exact hlen
  case owner =>
    intro d hd
    rw [Wake.length_apply, List.length_set]
    by_cases hdc : d = c
    · exact hdc ▸ hlen
    · exact hi.owner d ((hmo d hdc).1 hd)
  case mutex =>
    intro d kd hkd
    rcases conns_after hk hkd with ⟨rfl, rfl⟩ | ⟨hdc, k₀, h₀, hkd⟩
    · rw [Wake.on_holds]
      exact hm
    · rw [hkd, Wake.on_holds]
      exact (hi.mutex d k₀ h₀).trans (hmo d hdc).symm
  case place =>
    intro d kd hkd
    rcases conns_after hk hkd with ⟨rfl, rfl⟩ | ⟨hdc, k₀, h₀, hkd⟩
    · exact hplace
    · rw [hkd]
      exact hplaceo d k₀ hdc h₀
  case unique =>
    -- two leaders: the one that moves is one already, or becomes one where there is no other
    have hone : ∀ (d : Nat) (kd : Conn), d ≠ c → s.conns[d]? = some kd → k'.pc.leading = true →
        kd.pc.leading = true → False := by
      intro d kd hdc hkd hl hld
      rcases hlead hl with hl | hno
      · exact hdc (hi.unique d c kd k hkd hk hld hl)
      · rw [hno d kd hdc hkd] at hld
        cases hld
    intro d e kd ke hkd hke hld hle
    rcases conns_after hk hkd with ⟨hd, rfl⟩ | ⟨hdc, k₀, h₀, hkd⟩
    · rcases conns_after hk hke with ⟨he, rfl⟩ | ⟨hec, k₁, h₁, hke⟩
      · rw [hd, he]
      · rw [hke, Wake.on_leading] at hle
        rw [Wake.on_leading] at hld
        exact (hone e k₁ hec h₁ hld hle).elim
    · rw [hkd, Wake.on_leading] at hld
      rcases conns_after hk hke with ⟨he, rfl⟩ | ⟨hec, k₁, h₁, hke⟩
      · rw [Wake.on_leading] at hle
        exact (hone d k₀ hdc h₀ hle hld).elim
      · rw [hke, Wake.on_leading] at hle
        exact hi.unique d e k₀ k₁ h₀ h₁ hld hle
  case signalled =>
    intro d kd hkd
    rcases conns_after hk hkd with ⟨rfl, rfl⟩ | ⟨hdc, k₀, h₀, hkd⟩
    · exact w.on_signalled hsig _
    · rw [hkd]
      exact w.on_signalled (hi.signalled d k₀ h₀) _
  case front => exact hfront

/-- A move that leaves the queue alone. -/
theorem Ctrl.same (hi : Ctrl s) (hk : s.conns[c]? = some k) (hq : sv'.queue = s.server.queue)
    (hm : k'.pc.holds = true ↔ sv'.mutex = some c)
    (hmo : ∀ d ≠ c, sv'.mutex = some d ↔ s.server.mutex = some d)
    (hplace : Place s.server.queue c k')
    (hlead : k'.pc.leading = true → k.pc.leading = true ∨
      ∀ (d : Nat) (kd : Conn), d ≠ c → s.conns[d]? = some kd → kd.pc.leading = false)
    (hsleep : k'.pc = .asleep false → k'.done = false ∧ s.server.queue.head? ≠ some c)
    (hpop : k.pc.popping = false) :
    Ctrl ⟨sv', Wake.none.apply (s.conns.set c k')⟩ := by
  refine hi.update hk (hq.symm ▸ hi.nodup) (fun d hd => .inl (hq ▸ hd)) hm hmo
    (hq.symm ▸ hplace) (fun d kd _ hkd => hq.symm ▸ hi.place d kd hkd) hlead ?_ ?_
  · intro hd hp
    rw [(hsleep hp).1] at hd
    cases hd
  · intro d kd hkd hhead hp
    rw [hq] at hhead
    rcases conns_after hk hkd with ⟨rfl, rfl⟩ | ⟨hdc, k₀, h₀, hkd⟩
    · exact absurd hhead (hsleep hp).2
    · subst hkd
      obtain ⟨e, ke, hke, hpe⟩ := hi.front d _ h₀ hhead hp
      have hec : e ≠ c := by
        rintro rfl
        rw [hk, Option.some.injEq] at hke
        rw [← hke, hpop] at hpe
        cases hpe
      exact ⟨e, ke, by rw [conns_after_ne hec, hke]; rfl, hpe⟩

/-! ## The queue changes -/

theorem Place.push (hdc : d ≠ c) {queue : List Nat} (h : Place queue d kd) :
    Place (queue ++ [c]) d kd := by
  have hhead : queue.head? = some d → (queue ++ [c]).head? = some d := by
    cases queue <;> simp
  have hmem : d ∈ queue ++ [c] ↔ d ∈ queue := by simp [hdc]
  cases hp : kd.pc <;> simp only [Place, hp] at h ⊢
  case linger | build | putDb | putLog | lockPop => exact ⟨hhead h.1, h.2⟩
  case pop => exact ⟨h.1.imp hhead (mt hmem.1), h.2⟩
  case lock | push => exact ⟨mt hmem.1 h.1, h.2⟩
  case test | asleep | relock => exact hmem.trans h
  all_goals exact mt hmem.1 h

theorem Ctrl.push (hi : Ctrl s) (hk : s.conns[c]? = some k) (hp : k.pc = .push) :
    Ctrl ⟨{ s.server with queue := s.server.queue ++ [c] },
      Wake.none.apply (s.conns.set c { k with pc := .test })⟩ := by
  have hplace := hi.place c k hk
  simp only [Place, hp] at hplace
  have hm := (hi.mutex c k hk).1 (by rw [hp]; rfl)
  refine hi.update hk ?_ ?_ ⟨fun _ => hm, fun _ => rfl⟩ (fun _ _ => Iff.rfl) ?_
    (fun d kd hdc hkd => (hi.place d kd hkd).push hdc) (by simp [Pc.leading]) (by simp) ?_
  · exact List.nodup_append.2 ⟨hi.nodup, by simp, fun a ha b hb => by
      rw [List.mem_singleton.1 hb]
      rintro rfl
      exact hplace.1 ha⟩
  · intro d hd
    simpa using hd
  · simp [Place, Wake.on, hplace.2]
  · intro d kd hkd hhead hpd
    rcases conns_after hk hkd with ⟨rfl, rfl⟩ | ⟨hdc, k₀, h₀, hkd⟩
    · cases hpd
    · -- another clerk sleeps at the front: the queue was not empty
      have hhead' : s.server.queue.head? = some d := by
        cases hq : s.server.queue with
        | nil => simp [hq, Ne.symm hdc] at hhead
        | cons e q => simpa [hq] using hhead
      subst hkd
      obtain ⟨e, ke, hke, hpe⟩ := hi.front d _ h₀ hhead' hpd
      have hec : e ≠ c := by
        rintro rfl
        rw [hk, Option.some.injEq] at hke
        rw [← hke, hp] at hpe
        cases hpe
      exact ⟨e, ke, by rw [conns_after_ne hec, hke]; rfl, hpe⟩

/-- The places of the clerks that do not lead, when the leader `c` pops the writer `e`. -/
theorem Place.pop {e : Nat} {queue : List Nat} (hnd : (e :: queue).Nodup) (hdc : d ≠ c)
    (hl : kd.pc.leading = false) (h : Place (e :: queue) d kd) :
    Place queue d (Wake.on (if e ≠ c then .done e else .none) d kd) := by
  have he : e ∉ queue := (List.nodup_cons.1 hnd).1
  by_cases hde : e = d
  · subst hde
    rw [if_pos hdc]
    simp only [Wake.on, if_pos]
    -- a writer in the queue that does not lead is in the wait loop
    cases hp : kd.pc <;> simp [Place, hp, Pc.leading] at h hl <;>
      simp [Place, Conn.signal, he]
  · have hon : Wake.on (if e ≠ c then .done e else .none) d kd = kd := by
      split <;> simp [Wake.on, hde]
    have hmem : d ∈ queue ↔ d ∈ e :: queue := by simp [Ne.symm hde]
    rw [hon]
    cases hp : kd.pc <;> simp only [hp, Pc.leading, Bool.true_eq_false] at hl <;>
      simp only [Place, hp] at h ⊢
    case lock | push => exact ⟨mt hmem.1 h.1, h.2⟩
    case test | asleep | relock => exact hmem.trans h
    all_goals exact mt hmem.1 h

theorem Ctrl.pop (hi : Ctrl s) (hk : s.conns[c]? = some k) {last e : Nat} {queue : List Nat}
    (hp : k.pc = .pop last) (hq : s.server.queue = e :: queue) :
    Ctrl ⟨{ s.server with queue }, (if e ≠ c then Wake.done e else .none).apply
      (s.conns.set c { k with pc := if e = last then .notify else .pop last })⟩ := by
  have hplace := hi.place c k hk
  simp only [Place, hp] at hplace
  have hnd := hi.nodup
  rw [hq] at hnd hplace
  have hm := (hi.mutex c k hk).1 (by rw [hp]; rfl)
  have hon : ∀ k₀, Wake.on (if e ≠ c then Wake.done e else .none) c k₀ = k₀ := by
    intro k₀
    split <;> rename_i he <;> simp [Wake.on]
    exact fun h => absurd h he
  have hc : c ∉ queue := by
    rcases hplace.1 with h | h
    · obtain rfl : e = c := by simpa using h
      exact (List.nodup_cons.1 hnd).1
    · exact fun hc => h (List.mem_cons_of_mem _ hc)
  refine hi.update hk (List.nodup_cons.1 hnd).2 ?_ ?_ (fun _ _ => Iff.rfl) ?_ ?_ ?_ ?_ ?_
  · intro d hd
    exact .inl (by rw [hq]; exact List.mem_cons_of_mem _ hd)
  · refine ⟨fun _ => hm, fun _ => ?_⟩
    show (if e = last then Pc.notify else Pc.pop last).holds = true
    split <;> rfl
  · rw [hon]
    by_cases hl : e = last
    · simpa [Place, hl] using hc
    · simpa [Place, hl, hplace.2] using .inr hc
  · intro d kd hdc hkd
    refine Place.pop hnd hdc ?_ (hq ▸ hi.place d kd hkd)
    by_contra hl
    exact hdc (hi.unique d c kd k hkd hk (by simpa using hl) (by rw [hp]; rfl))
  · intro _
    exact .inl (by rw [hp]; rfl)
  · intro hd
    rw [show k.done = false from hplace.2] at hd
    cases hd
  · intro d kd _ _ _
    refine ⟨c, _, conns_after_self hk, ?_⟩
    rw [Wake.on_popping]
    show (if e = last then Pc.notify else Pc.pop last).popping = true
    split <;> rfl

theorem Place.signal {queue : List Nat} (h : Place queue d kd) : Place queue d kd.signal := by
  unfold Conn.signal
  split
  · rename_i b hp
    simpa [Place, hp] using h
  · exact h

theorem Conn.signal_ne (k : Conn) : k.signal.pc ≠ .asleep false := by
  intro h
  unfold Conn.signal at h
  split at h
  · cases h
  · rename_i hp
    exact hp false h

theorem Ctrl.notify (hi : Ctrl s) (hk : s.conns[c]? = some k) (hp : k.pc = .notify)
    (hw : w = match s.server.queue.head? with
      | some d => .signal d
      | none => .none) :
    Ctrl ⟨s.server.unlock, w.apply (s.conns.set c { k with pc := .reply })⟩ := by
  have hplace := hi.place c k hk
  simp only [Place, hp] at hplace
  have hm := (hi.mutex c k hk).1 (by rw [hp]; rfl)
  refine hi.update hk hi.nodup (fun _ h => .inl h) ?_ ?_ ?_ ?_ (by simp [Pc.leading]) (by simp) ?_
  · simp [Pc.holds, Server.unlock]
  · intro d hdc
    simp [Server.unlock, hm, Ne.symm hdc]
  · rw [Place, show (w.on c { k with pc := .reply }).pc = .reply by
      rcases w.on_pc { k with pc := .reply } c with h | ⟨b, h, -⟩
      · exact h
      · cases h]
    exact hplace
  · intro d kd _ hkd
    have hpl := hi.place d kd hkd
    rw [hw]
    split
    · simp only [Wake.on]
      split
      · exact hpl.signal
      · exact hpl
    · exact hpl
  · intro d kd hkd hhead hpd
    replace hhead : s.server.queue.head? = some d := hhead
    simp only [hhead] at hw
    subst hw
    rcases conns_after hk hkd with ⟨rfl, -⟩ | ⟨hdc, k₀, h₀, rfl⟩
    · exact absurd (List.mem_of_mem_head? hhead) hplace
    · simp only [Wake.on, if_pos] at hpd
      exact absurd hpd k₀.signal_ne

/-! ## Every step keeps it -/

/-- A clerk that becomes leader is the only one: another leader would be the front of the queue, or
have the mutex. -/
theorem Ctrl.no_leader (hi : Ctrl s) (hk : s.conns[c]? = some k) (hp : k.pc = .test)
    (hq : s.server.queue.head? = some c) (d : Nat) (kd : Conn) (hdc : d ≠ c)
    (hkd : s.conns[d]? = some kd) : kd.pc.leading = false := by
  have hplace := hi.place d kd hkd
  have hm := (hi.mutex c k hk).1 (by rw [hp]; rfl)
  cases hpd : kd.pc <;> simp only [Place, hpd] at hplace <;> try rfl
  case pop =>
    have hmd := (hi.mutex d kd hkd).1 (by rw [hpd]; rfl)
    rw [hm, Option.some.injEq] at hmd
    exact absurd hmd.symm hdc
  all_goals
    rw [hq, Option.some.injEq] at hplace
    exact absurd hplace.1.symm hdc

/-- A move that keeps queue and mutex. -/
theorem Ctrl.keep (hi : Ctrl s) (hk : s.conns[c]? = some k) (hq : sv'.queue = s.server.queue)
    (hm : sv'.mutex = s.server.mutex) (hh : k'.pc.holds = k.pc.holds)
    (hl : k'.pc.leading = k.pc.leading) (hplace : Place s.server.queue c k')
    (hsleep : k'.pc ≠ .asleep false) (hpop : k.pc.popping = false) :
    Ctrl ⟨sv', Wake.none.apply (s.conns.set c k')⟩ :=
  hi.same hk hq (by rw [hh, hm]; exact hi.mutex c k hk) (fun d _ => by rw [hm]) hplace
    (fun h => .inl (hl ▸ h)) (fun h => absurd h hsleep) hpop

/-- A move that takes the mutex. -/
theorem Ctrl.take (hi : Ctrl s) (hk : s.conns[c]? = some k) (hm : s.server.mutex = none)
    (hh : k'.pc.holds = true) (hl : k'.pc.leading = k.pc.leading)
    (hplace : Place s.server.queue c k') (hpop : k.pc.popping = false) :
    Ctrl ⟨{ s.server with mutex := some c }, Wake.none.apply (s.conns.set c k')⟩ := by
  refine hi.same hk rfl ⟨fun _ => rfl, fun _ => hh⟩ (fun d hd => ?_) hplace
    (fun h => .inl (hl ▸ h)) (fun h => ?_) hpop
  · simp [hm, Ne.symm hd]
  · rw [h] at hh
    cases hh

/-- A move that gives the mutex back. -/
theorem Ctrl.give (hi : Ctrl s) (hk : s.conns[c]? = some k) (hq : sv'.queue = s.server.queue)
    (hm : sv'.mutex = none) (hh : k.pc.holds = true) (hh' : k'.pc.holds = false)
    (hplace : Place s.server.queue c k')
    (hlead : k'.pc.leading = true → k.pc.leading = true ∨
      ∀ (d : Nat) (kd : Conn), d ≠ c → s.conns[d]? = some kd → kd.pc.leading = false)
    (hsleep : k'.pc = .asleep false → k'.done = false ∧ s.server.queue.head? ≠ some c)
    (hpop : k.pc.popping = false) :
    Ctrl ⟨sv', Wake.none.apply (s.conns.set c k')⟩ := by
  have hmutex := (hi.mutex c k hk).1 hh
  refine hi.same hk hq (by simp [hh', hm]) (fun d hd => ?_) hplace hlead hsleep hpop
  simp [hm, hmutex, Ne.symm hd]

@[simp] theorem Conn.call_pc (k : Conn) (x : Call) : (k.call x).pc = .read := by cases x <;> rfl

theorem Ctrl.move (hi : Ctrl s) {a : Act} {es : List Event} (hk : s.conns[c]? = some k)
    (hm : Move s c k a sv' k' w es) : Ctrl ⟨sv', w.apply (s.conns.set c k')⟩ := by
  have hplace := hi.place c k hk
  cases hm
  case call x hc hp =>
    simp only [Place, hp] at hplace
    exact hi.keep hk rfl rfl (by rw [hp, Conn.call_pc]; rfl) (by rw [hp, Conn.call_pc]; rfl)
      (by simpa [Place] using hplace) (by simp) (by rw [hp]; rfl)
  case acked hc hp | got hc hp | deleted hc hp =>
    exact hi.keep hk rfl rfl rfl rfl hplace (by simp [hp]) (by rw [hp]; rfl)
  case read hp =>
    simp only [Place, hp] at hplace
    have hpc : k.read.pc.holds = false ∧ k.read.pc.leading = false ∧ k.read.pc ≠ .asleep false ∧
        Place s.server.queue c k.read := by
      unfold Conn.read
      split <;> simp [Pc.holds, Pc.leading, Place, hplace]
    exact hi.keep hk rfl rfl (by rw [hp, hpc.1]; rfl) (by rw [hp, hpc.2.1]; rfl) hpc.2.2.2
      hpc.2.2.1 (by rw [hp]; rfl)
  case dbHit hp _ | dbMiss hp _ =>
    simp only [Place, hp] at hplace
    exact hi.keep hk rfl rfl (by rw [hp]; rfl) (by rw [hp]; rfl) hplace (by simp) (by rw [hp]; rfl)
  case reply hp =>
    simp only [Place, hp] at hplace
    exact hi.keep hk rfl rfl (by rw [hp]; rfl) (by rw [hp]; rfl) hplace (by simp [Conn.reply])
      (by rw [hp]; rfl)
  case lock hp hm =>
    simp only [Place, hp] at hplace
    exact hi.take hk hm rfl (by rw [hp]; rfl) hplace (by rw [hp]; rfl)
  case relock hp hm | enter hp hm =>
    simp only [Place, hp] at hplace
    exact hi.take hk hm rfl (by rw [hp]; rfl) hplace (by rw [hp]; rfl)
  case lockPop hp hm =>
    simp only [Place, hp] at hplace
    exact hi.take hk hm rfl (by rw [hp]; rfl) ⟨.inl hplace.1, hplace.2⟩ (by rw [hp]; rfl)
  case push hp => exact hi.push hk hp
  case sleep hp hd hq =>
    simp only [Place, hp] at hplace
    exact hi.give hk rfl rfl (by rw [hp]; rfl) rfl hplace (by simp [Pc.leading])
      (fun _ => ⟨hd, hq⟩) (by rw [hp]; rfl)
  case wake b hp =>
    simp only [Place, hp] at hplace
    exact hi.keep hk rfl rfl (by rw [hp]; rfl) (by rw [hp]; rfl) hplace (by simp) (by rw [hp]; rfl)
  case follow hp hd =>
    simp only [Place, hp] at hplace
    refine hi.give hk rfl rfl (by rw [hp]; rfl) rfl ?_ (by simp [Pc.leading]) (by simp)
      (by rw [hp]; rfl)
    simp [Place, hplace, hd]
  case lead hp hd hq =>
    exact hi.give hk rfl rfl (by rw [hp]; rfl) rfl ⟨hq, hd⟩ (fun _ => .inr (hi.no_leader hk hp hq))
      (by simp) (by rw [hp]; rfl)
  case build last hp hl =>
    simp only [Place, hp] at hplace
    exact hi.give hk rfl rfl (by rw [hp]; rfl) rfl hplace (fun _ => .inl (by rw [hp]; rfl))
      (by simp) (by rw [hp]; rfl)
  case putDb last hp | putLog last hp =>
    simp only [Place, hp] at hplace
    exact hi.keep hk rfl rfl (by rw [hp]; rfl) (by rw [hp]; rfl) hplace (by simp) (by rw [hp]; rfl)
  case pop last d queue hp hq => exact hi.pop hk hp hq
  case notify hp => exact hi.notify hk hp rfl

theorem ctrl_step {s' : State} {l : Label} {es : List Event} (hi : Ctrl s)
    (hs : step s l = some (s', es)) : Ctrl s' := by
  cases step_cases hs with
  | connect hl => exact hi.connect _ _
  | conn hl hk hm => exact hi.move hk hm

end

theorem ctrl_run {P : State → Label → Prop} {batch : WriteBatch} {db : Store} {file : Buf}
    {tr : List Event} {s : State} (hr : Run P batch db file tr s) : Ctrl s :=
  Run.invariant (I := fun _ s => Ctrl s) (ctrl_init batch db file)
    (fun hi _ hs => ctrl_step hi hs) hr

theorem Pc.roused_iff {pc : Pc} : pc.roused = true ↔ pc ≠ .asleep false := by
  cases pc <;> simp [Pc.roused]

/-- With the mutex free, the clerk of a writer in the queue can move on. -/
theorem Ctrl.enabled {s : State} {c : Nat} {k : Conn} (hi : Ctrl s) (hm : s.server.mutex = none)
    (hc : c ∈ s.server.queue) (hk : s.conns[c]? = some k) :
    (step s (.conn c .clerk)).isSome = true := by
  have hplace := hi.place c k hk
  have hmutex := hi.mutex c k hk
  cases hp : k.pc <;> simp only [Place, hp] at hplace <;>
    simp only [hp, Pc.holds, hm, reduceCtorEq, iff_false] at hmutex <;>
    simp [step, hk, connStep, clerkStep, hp, Server.lock, hm]
  all_goals simp_all

/-- **No lost wakeup.** Whatever the clerks do and whenever they wake: while the mutex is free and
the queue is not empty, the clerk of the front writer leads, or does not sleep unsignalled, and can
move on; and no clerk whose request is done sleeps unsignalled. -/
theorem no_lost_wakeup {P : State → Label → Prop} {batch : WriteBatch} {db : Store} {file : Buf}
    {tr : List Event} {s : State} (hr : Run P batch db file tr s) :
    (s.server.mutex = none → s.server.queue ≠ [] →
      ∃ (c : Nat) (k : Conn), s.server.queue.head? = some c ∧ s.conns[c]? = some k ∧
        (k.pc.leading = true ∨ k.pc.roused = true) ∧
        (step s (.conn c .clerk)).isSome = true) ∧
    ∀ (c : Nat) (k : Conn), s.conns[c]? = some k → k.done = true → k.pc.roused = true := by
  have hi := ctrl_run hr
  refine ⟨fun hm hq => ?_, fun c k hk hd => Pc.roused_iff.2 (hi.signalled c k hk hd)⟩
  obtain ⟨c, queue, hcq⟩ := List.exists_cons_of_ne_nil hq
  have hmem : c ∈ s.server.queue := by simp [hcq]
  have hhead : s.server.queue.head? = some c := by simp [hcq]
  obtain ⟨k, hk⟩ : ∃ k, s.conns[c]? = some k := ⟨_, List.getElem?_eq_getElem (hi.live c hmem)⟩
  refine ⟨c, k, hhead, hk, .inr (Pc.roused_iff.2 fun hp => ?_), hi.enabled hm hmem hk⟩
  -- who sleeps at the front unsignalled does so while the leader has the mutex
  obtain ⟨d, kd, hkd, hpop⟩ := hi.front c k hk hhead hp
  have hh : kd.pc.holds = true := by
    revert hpop
    cases kd.pc <;> simp [Pc.popping, Pc.holds]
  rw [(hi.mutex d kd hkd).1 hh] at hm
  cases hm

/-- A leader has popped its batch and signalled the writer that came too late for it. -/
theorem no_lost_wakeup_late :
    ∃ tr s, Sched.Runs Any tr s ∧ s.server.mutex = none ∧ s.server.queue = [1] ∧
      (s.conns[1]?.map Conn.pc) = some (.asleep true) ∧
      ∃ (c : Nat) (k : Conn), s.server.queue.head? = some c ∧ s.conns[c]? = some k ∧
        (k.pc.leading = true ∨ k.pc.roused = true) ∧
        (step s (.conn c .clerk)).isSome = true := by
  have hr : Sched.Runs Any _ _ := Steps.of_exec_get (Sched.connect 2 ++
    Sched.push 0 (.write ⟨.put, [1], [10]⟩) ++ Sched.lead 0 ++
    Sched.push 1 (.write ⟨.put, [2], [20]⟩) ++ Sched.clerk 1 1 ++ Sched.finish 0 1)
    (by decide +kernel)
  exact ⟨_, _, hr, rfl, rfl, rfl, (no_lost_wakeup hr).1 rfl (by decide +kernel)⟩

end PMRAccess.Group
