import Mathlib.Data.Set.Insert
import Mathlib.Logic.Function.Basic
import PMRAccess.Lib.Run

/-!
# Linearizability

An object is a deterministic machine: an operation changes its state and has a result. In its atomic
system (`atomicStep`) any number of clients call operations; an operation is executed in one step
between its call and its return, and only calls and returns are seen. A history of calls and returns
is `Linearizable` if the atomic system has it. `Linearizable.of_sim`: so are the histories of a
system whose steps are simulated by steps of the atomic one. `view` changes what a system shows.

Where a read takes effect may turn out only later. In the loose system (`Loose`) a read that is
called remembers what it could have read in every state since its call, and picks one of these
results. `Loose.histories`: it has no other histories.
-/

namespace Lib

/-! ## Views -/

section
variable {σ α ε ε' : Type*} {step : σ → α → Option (σ × List ε)} {P : σ → α → Prop} {s s' : σ}

/-- The system that shows something else of its steps. -/
def view (f : α → List ε → List ε') (step : σ → α → Option (σ × List ε)) (s : σ) (a : α) :
    Option (σ × List ε') :=
  (step s a).map fun r => (r.1, f a r.2)

theorem view_cases {f : α → List ε → List ε'} {a : α} {es' : List ε'}
    (h : view f step s a = some (s', es')) : ∃ es, step s a = some (s', es) ∧ es' = f a es := by
  obtain ⟨⟨s₁, es⟩, hs, he⟩ := Option.map_eq_some_iff.1 h
  obtain ⟨rfl, rfl⟩ := Prod.mk.inj he
  exact ⟨es, hs, rfl⟩

end

/-! ## Simulation -/

section
variable {σ τ α β ε : Type*} {step : σ → α → Option (σ × List ε)} {P : σ → α → Prop}
  {step' : τ → β → Option (τ × List ε)} {Q : τ → β → Prop} {s s' : σ} {t : τ} {tr : List ε}

/-- A step is simulated by a run that shows the same. -/
theorem Steps.simulate {R : σ → τ → Prop} (h0 : R s t)
    (hs : ∀ {s₁ a s₂ es t₁}, R s₁ t₁ → P s₁ a → step s₁ a = some (s₂, es) →
      ∃ t₂, Steps step' Q t₁ es t₂ ∧ R s₂ t₂)
    (h : Steps step P s tr s') : ∃ t', Steps step' Q t tr t' ∧ R s' t' := by
  induction h with
  | refl => exact ⟨t, .refl, h0⟩
  | tail _ hp hstep ih =>
    obtain ⟨t₁, hr, hR⟩ := ih
    obtain ⟨t₂, hr', hR'⟩ := hs hR hp hstep
    exact ⟨t₂, hr.trans hr', hR'⟩

end

/-! ## The atomic system of an object -/

/-- Where a client is. -/
inductive Phase (ω ρ : Type*)
  | idle
  | called (op : ω)
  | executed (op : ω) (res : ρ)
  deriving DecidableEq, Repr

/-- What is seen of a client. -/
inductive Seen (ι ω ρ : Type*)
  | call (c : ι) (op : ω)
  | ret (c : ι) (op : ω) (res : ρ)
  deriving DecidableEq, Repr

/-- What a client does. -/
inductive Doing (ι ω : Type*)
  | call (c : ι) (op : ω)
  | exec (c : ι)
  | ret (c : ι)

section
variable {ι σ ω ρ : Type*} [DecidableEq ι]

/-- The state of the object, and where its clients are. -/
abbrev Clients (ι σ ω ρ : Type*) := σ × (ι → Phase ω ρ)

variable (apply : σ → ω → σ × ρ)

def atomicStep (s : Clients ι σ ω ρ) :
    Doing ι ω → Option (Clients ι σ ω ρ × List (Seen ι ω ρ))
  | .call c op =>
    match s.2 c with
    | .idle => some ((s.1, Function.update s.2 c (.called op)), [.call c op])
    | _ => none
  | .exec c =>
    match s.2 c with
    | .called op =>
      let (s', res) := apply s.1 op
      some ((s', Function.update s.2 c (.executed op res)), [])
    | _ => none
  | .ret c =>
    match s.2 c with
    | .executed op res => some ((s.1, Function.update s.2 c .idle), [.ret c op res])
    | _ => none

/-- Runs of the atomic system. -/
abbrev AtomicRun : Clients ι σ ω ρ → List (Seen ι ω ρ) → Clients ι σ ω ρ → Prop :=
  Steps (atomicStep apply) (fun _ _ => True)

/-- The calls and returns are those of an object that executes each operation at once. -/
def Linearizable (s : σ) (h : List (Seen ι ω ρ)) : Prop :=
  ∃ s', AtomicRun apply (s, fun _ => .idle) h s'

/-- Histories one behind the other; in between, the clients forget what they have called. -/
def Durable : σ → List (List (Seen ι ω ρ)) → Prop
  | _, [] => True
  | s, h :: hs => ∃ s' ph, AtomicRun apply (s, fun _ => .idle) h (s', ph) ∧ Durable s' hs

variable {apply} {s s' : σ} {ph : ι → Phase ω ρ} {c : ι} {op : ω} {res : ρ}

theorem AtomicRun.call (h : ph c = .idle) :
    AtomicRun apply (s, ph) [.call c op] (s, Function.update ph c (.called op)) :=
  .single (a := Doing.call c op) trivial (by simp [atomicStep, h])

theorem AtomicRun.exec (h : ph c = .called op) (ha : apply s op = (s', res)) :
    AtomicRun apply (s, ph) [] (s', Function.update ph c (.executed op res)) :=
  .single (a := Doing.exec c) trivial (by simp [atomicStep, h, ha])

theorem AtomicRun.ret (h : ph c = .executed op res) :
    AtomicRun apply (s, ph) [.ret c op res] (s, Function.update ph c .idle) :=
  .single (a := Doing.ret c) trivial (by simp [atomicStep, h])

/-- A machine that refines another one takes the same steps. -/
theorem atomicStep_map {σ' : Type*} {apply' : σ' → ω → σ' × ρ} {f : σ → σ'}
    (hf : ∀ s op, apply' (f s) op = (f (apply s op).1, (apply s op).2)) {x x' : Clients ι σ ω ρ}
    {a : Doing ι ω} {es : List (Seen ι ω ρ)} (hs : atomicStep apply x a = some (x', es)) :
    atomicStep apply' (f x.1, x.2) a = some ((f x'.1, x'.2), es) := by
  cases a with
  | call c op | exec c | ret c =>
    simp only [atomicStep] at hs ⊢
    split at hs
    · simp only [Option.some.injEq, Prod.mk.injEq] at hs
      obtain ⟨rfl, rfl⟩ := hs
      simp_all
    · cases hs

theorem AtomicRun.map {σ' : Type*} {apply' : σ' → ω → σ' × ρ} {f : σ → σ'}
    (hf : ∀ s op, apply' (f s) op = (f (apply s op).1, (apply s op).2)) {x x' : Clients ι σ ω ρ}
    {h : List (Seen ι ω ρ)} (hr : AtomicRun apply x h x') :
    AtomicRun apply' (f x.1, x.2) h (f x'.1, x'.2) := by
  induction hr with
  | refl => exact .refl
  | tail _ hp hs ih => exact .tail ih hp (atomicStep_map hf hs)

theorem Durable.map {σ' : Type*} {apply' : σ' → ω → σ' × ρ} {f : σ → σ'}
    (hf : ∀ s op, apply' (f s) op = (f (apply s op).1, (apply s op).2)) {s : σ}
    {hs : List (List (Seen ι ω ρ))} (h : Durable apply s hs) : Durable apply' (f s) hs := by
  induction hs generalizing s with
  | nil => trivial
  | cons h hs ih =>
    obtain ⟨s', ph, hrun, hrest⟩ := h
    exact ⟨f s', ph, hrun.map hf, ih hrest⟩

/-- Clients execute their operations one behind the other; `put` is what these do to the object. -/
theorem AtomicRun.execAll (put : σ → ω → σ) : ∀ (cs : List (ι × ω)) (s : σ) (ph : ι → Phase ω ρ),
    (cs.map Prod.fst).Nodup → (∀ p ∈ cs, ph p.1 = .called p.2) →
    (∀ s, ∀ p ∈ cs, apply s p.2 = (put s p.2, res)) →
    ∃ ph', AtomicRun apply (s, ph) [] (cs.foldl (fun s p => put s p.2) s, ph') ∧
      (∀ p ∈ cs, ph' p.1 = .executed p.2 res) ∧ ∀ c ∉ cs.map Prod.fst, ph' c = ph c
  | [], s, ph, _, _, _ => ⟨ph, .refl, by simp, fun _ _ => rfl⟩
  | (c, op) :: cs, s, ph, hd, hc, ha => by
    obtain ⟨hcs, hd⟩ := List.nodup_cons.1 hd
    have hne : ∀ p ∈ cs, p.1 ≠ c := by
      intro p hp he
      have hmem := List.mem_map_of_mem (f := Prod.fst) hp
      rw [he] at hmem
      exact hcs hmem
    have hcalled : ∀ p ∈ cs, Function.update ph c (.executed op res) p.1 = .called p.2 := by
      intro p hp
      rw [Function.update_of_ne (hne p hp)]
      exact hc p (List.mem_cons_of_mem _ hp)
    obtain ⟨ph', hr, h1, h2⟩ := execAll put cs (put s op) (Function.update ph c (.executed op res))
      hd hcalled fun s p hp => ha s p (List.mem_cons_of_mem _ hp)
    have hx := AtomicRun.exec (hc _ List.mem_cons_self) (ha s _ List.mem_cons_self)
    refine ⟨ph', by simpa using hx.trans hr, ?_, fun d hd => ?_⟩
    · intro p hp
      rcases List.mem_cons.1 hp with rfl | hp
      · rw [h2 _ hcs, Function.update_self]
      · exact h1 p hp
    · rw [List.map_cons, List.mem_cons, not_or] at hd
      rw [h2 d hd.2, Function.update_of_ne hd.1]

/-- The simulation rule. -/
theorem Linearizable.of_sim {τ α : Type*} {step : τ → α → Option (τ × List (Seen ι ω ρ))}
    {P : τ → α → Prop} {R : τ → Clients ι σ ω ρ → Prop} {t t' : τ} {h : List (Seen ι ω ρ)}
    (h0 : R t (s, fun _ => .idle))
    (hs : ∀ {t₁ l t₂ es x}, R t₁ x → P t₁ l → step t₁ l = some (t₂, es) →
      ∃ y, AtomicRun apply x es y ∧ R t₂ y)
    (hr : Steps step P t h t') : Linearizable apply s h := by
  obtain ⟨x, hx, -⟩ := Steps.simulate h0 hs hr
  exact ⟨x, hx⟩

/-! ## Reads that are decided later -/

theorem update_cases {α : Type*} {f : ι → α} {d : ι} {v x : α} (h : Function.update f d v c = x) :
    (c = d ∧ v = x) ∨ (c ≠ d ∧ f c = x) := by
  by_cases hcd : c = d
  · subst hcd
    exact .inl ⟨rfl, by rwa [Function.update_self] at h⟩
  · exact .inr ⟨hcd, by rwa [Function.update_of_ne hcd] at h⟩

/-- Where a client of the loose system is; `seen` are the results the operation had since its
call. -/
inductive LPhase (ω ρ : Type*)
  | idle
  | called (op : ω) (seen : Set ρ)
  | executed (op : ω) (res : ρ)

/-- The state of the object is now `s`. -/
def LPhase.see (apply : σ → ω → σ × ρ) (s : σ) : LPhase ω ρ → LPhase ω ρ
  | .called op seen => .called op (insert (apply s op).2 seen)
  | φ => φ

/-- An operation that does not change the object. -/
def ReadOnly (apply : σ → ω → σ × ρ) (op : ω) : Prop := ∀ s, (apply s op).1 = s

/-- Runs of the loose system from an object whose clients are all idle (module doc). -/
inductive Loose (apply : σ → ω → σ × ρ) (s₀ : σ) :
    List (Seen ι ω ρ) → σ → (ι → LPhase ω ρ) → Prop
  | init : Loose apply s₀ [] s₀ fun _ => .idle
  | call {h : List (Seen ι ω ρ)} {s : σ} {ph : ι → LPhase ω ρ} {c : ι} {op : ω}
      (hr : Loose apply s₀ h s ph) (hc : ph c = .idle) :
      Loose apply s₀ (h ++ [.call c op]) s (Function.update ph c (.called op {(apply s op).2}))
  | exec {h : List (Seen ι ω ρ)} {s s' : σ} {ph : ι → LPhase ω ρ} {c : ι} {op : ω} {seen : Set ρ}
      {res : ρ} (hr : Loose apply s₀ h s ph) (hc : ph c = .called op seen)
      (ha : apply s op = (s', res)) :
      Loose apply s₀ h s' (Function.update (fun d => (ph d).see apply s') c (.executed op res))
  | pick {h : List (Seen ι ω ρ)} {s : σ} {ph : ι → LPhase ω ρ} {c : ι} {op : ω} {seen : Set ρ}
      {res : ρ} (hr : Loose apply s₀ h s ph) (hc : ph c = .called op seen) (hs : res ∈ seen)
      (ho : ReadOnly apply op) :
      Loose apply s₀ h s (Function.update ph c (.executed op res))
  | ret {h : List (Seen ι ω ρ)} {s : σ} {ph : ι → LPhase ω ρ} {c : ι} {op : ω} {res : ρ}
      (hr : Loose apply s₀ h s ph) (hc : ph c = .executed op res) :
      Loose apply s₀ (h ++ [.ret c op res]) s (Function.update ph c .idle)

namespace Loose

variable {s₀ : σ} {h : List (Seen ι ω ρ)} {lph : ι → LPhase ω ρ}

/-- The results seen include the one in the present state. -/
theorem current (hr : Loose apply s₀ h s lph) : ∀ {c : ι} {op : ω} {seen : Set ρ},
    lph c = .called op seen → (apply s op).2 ∈ seen := by
  induction hr with
  | init => intro c op seen hc; cases hc
  | call hr hd ih =>
    intro c op seen hc
    rcases update_cases hc with ⟨rfl, he⟩ | ⟨-, hc⟩
    · cases he
      exact rfl
    · exact ih hc
  | @exec h s s' ph d op' seen' res hr hd ha ih =>
    intro c op seen hc
    rcases update_cases hc with ⟨rfl, he⟩ | ⟨-, hc⟩
    · cases he
    · cases hph : ph c with
      | idle | executed => simp [hph, LPhase.see] at hc
      | called op' seen' =>
        simp only [hph, LPhase.see, LPhase.called.injEq] at hc
        obtain ⟨rfl, rfl⟩ := hc
        exact Set.mem_insert _ _
  | pick hr hd hs ho ih | ret hr hd ih =>
    intro c op seen hc
    rcases update_cases hc with ⟨rfl, he⟩ | ⟨-, hc⟩
    · cases he
    · exact ih hc

/-- All but finitely many clients are idle. -/
theorem finite (hr : Loose apply s₀ h s lph) : ∃ cs : List ι, ∀ c ∉ cs, lph c = .idle := by
  -- one more client is not idle behind each step
  have hmore : ∀ {ph ph' : ι → LPhase ω ρ} (d : ι), (∃ cs : List ι, ∀ c ∉ cs, ph c = .idle) →
      (∀ c ≠ d, ph c = .idle → ph' c = .idle) → ∃ cs : List ι, ∀ c ∉ cs, ph' c = .idle := by
    rintro ph ph' d ⟨cs, hcs⟩ hd
    refine ⟨d :: cs, fun c hc => ?_⟩
    rw [List.mem_cons, not_or] at hc
    exact hd c hc.1 (hcs c hc.2)
  induction hr with
  | init => exact ⟨[], fun _ _ => rfl⟩
  | @call h s ph d op hr hd ih => exact hmore d ih fun c hc h => by simp [hc, h]
  | @exec h s s' ph d op seen res hr hd ha ih =>
    exact hmore d ih fun c hc h => by simp [hc, h, LPhase.see]
  | @pick h s ph d op seen res hr hd hs ho ih => exact hmore d ih fun c hc h => by simp [hc, h]
  | @ret h s ph d op res hr hd ih => exact hmore d ih fun c hc h => by simp [hc, h]

end Loose

/-- A phase of the atomic system that a phase of the loose one may stand for: the read may be
executed already, in an earlier state. -/
def LPhase.Covers (apply : σ → ω → σ × ρ) : LPhase ω ρ → Phase ω ρ → Prop
  | .idle, φ => φ = .idle
  | .called op seen, φ => φ = .called op ∨ ReadOnly apply op ∧ ∃ res ∈ seen, φ = .executed op res
  | .executed op res, φ => φ = .executed op res

/-- A phase before the object was in state `s`: a read that is executed with the result it has there
was not executed yet. -/
theorem LPhase.Covers.unsee {φ : LPhase ω ρ} {ψ : Phase ω ρ} (h : (φ.see apply s).Covers apply ψ) :
    φ.Covers apply ψ ∨ ∃ op, ReadOnly apply op ∧ φ.Covers apply (.called op) ∧
      ψ = .executed op (apply s op).2 := by
  cases φ with
  | idle | executed => exact .inl h
  | called op seen =>
    rcases h with h | ⟨ho, res, hres, h⟩
    · exact .inl (.inl h)
    · rcases hres with rfl | hres
      · exact .inr ⟨op, ho, .inl rfl, h⟩
      · exact .inl (.inr ⟨ho, res, hres, h⟩)

/-- Reads are executed one behind the other, in the present state. -/
theorem AtomicRun.execReads : ∀ (cs : List ι) {ph ph' : ι → Phase ω ρ},
    (∀ c ∉ cs, ph' c = ph c) →
    (∀ c ∈ cs, ph' c = ph c ∨ ∃ op, ReadOnly apply op ∧ ph c = .called op ∧
      ph' c = .executed op (apply s op).2) →
    AtomicRun apply (s, ph) [] (s, ph')
  | [], ph, ph', h, _ => by
    obtain rfl : ph' = ph := funext fun c => h c (by simp)
    exact .refl
  | c :: cs, ph, ph', h, hc => by
    -- the first client of the list, then the others
    have hrest : ∀ ph₁ : ι → Phase ω ρ, (∀ d ≠ c, ph₁ d = ph d) → ph₁ c = ph' c →
        AtomicRun apply (s, ph₁) [] (s, ph') := by
      intro ph₁ h₁ hc₁
      refine execReads cs (fun d hd => ?_) (fun d hd => ?_)
      · by_cases hdc : d = c
        · rw [hdc, hc₁]
        · rw [h₁ d hdc]
          exact h d (by simp [hdc, hd])
      · by_cases hdc : d = c
        · exact .inl (by rw [hdc, hc₁])
        · rw [h₁ d hdc]
          exact hc d (List.mem_cons_of_mem _ hd)
    rcases hc c List.mem_cons_self with he | ⟨op, ho, h1, h2⟩
    · exact hrest ph (fun _ _ => rfl) he.symm
    · have hx : AtomicRun apply (s, ph) [] (s, Function.update ph c (.executed op (apply s op).2)) :=
        AtomicRun.exec h1 (Prod.ext (ho s) rfl)
      have hy := hrest (Function.update ph c (.executed op (apply s op).2))
        (fun d hd => Function.update_of_ne hd _ _) (by rw [Function.update_self, h2])
      simpa using hx.trans hy

/-- Every state of the atomic system that the loose one may stand for is reached with the same
history. -/
theorem Loose.atomic {s₀ : σ} {h : List (Seen ι ω ρ)} {lph : ι → LPhase ω ρ}
    (hr : Loose apply s₀ h s lph) : ∀ {ph : ι → Phase ω ρ}, (∀ c, (lph c).Covers apply (ph c)) →
    AtomicRun apply (s₀, fun _ => .idle) h (s, ph) := by
  induction hr with
  | init =>
    intro ph hph
    obtain rfl : ph = fun _ => .idle := funext hph
    exact .refl
  | @call h s lph c op hr hc ih =>
    intro ph hph
    -- before the call the client is idle
    have h₁ : AtomicRun apply _ h (s, Function.update ph c .idle) := ih fun d => by
      by_cases hdc : d = c
      · subst hdc
        simp [hc, LPhase.Covers]
      · have := hph d
        rwa [Function.update_of_ne hdc] at this ⊢
    have h₂ : AtomicRun apply (s, Function.update ph c .idle) [.call c op]
        (s, Function.update ph c (.called op)) := by
      rw [← Function.update_idem (v := .idle) (w := .called op) ph]
      exact AtomicRun.call (Function.update_self _ _ _)
    have hcov := hph c
    rw [Function.update_self] at hcov
    refine h₁.trans ?_
    rcases hcov with hcov | ⟨ho, res, hres, hcov⟩
    · rw [← hcov, Function.update_eq_self] at h₂
      exact h₂
    · -- the read is executed at once
      obtain rfl : res = (apply s op).2 := hres
      have h₃ : AtomicRun apply (s, Function.update ph c (.called op)) [] (s,
          Function.update (Function.update ph c (.called op)) c (.executed op (apply s op).2)) :=
        AtomicRun.exec (Function.update_self _ _ _) (Prod.ext (ho s) rfl)
      rw [Function.update_idem, ← hcov, Function.update_eq_self] at h₃
      simpa using h₂.trans h₃
  | @exec h s s' lph c op seen res hr hc ha ih =>
    intro ph hph
    obtain ⟨cs, hcs⟩ := hr.finite
    -- a read whose result is only seen behind this step is not executed before it
    have hback : ∀ d, ∃ φ, (lph d).Covers apply φ ∧ (d = c → φ = .called op) ∧
        (d ≠ c → ph d = φ ∨ ∃ op', ReadOnly apply op' ∧ φ = .called op' ∧
          ph d = .executed op' (apply s' op').2) := by
      intro d
      by_cases hdc : d = c
      · subst hdc
        exact ⟨.called op, by rw [hc]; exact .inl rfl, fun _ => rfl, fun h => absurd rfl h⟩
      · have hd := hph d
        rw [Function.update_of_ne hdc] at hd
        rcases hd.unsee with hd | ⟨op', ho, hd, he⟩
        · exact ⟨ph d, hd, fun h => absurd h hdc, fun _ => .inl rfl⟩
        · exact ⟨.called op', hd, fun h => absurd h hdc, fun _ => .inr ⟨op', ho, rfl, he⟩⟩
    choose back hcov hself hother using hback
    have h₁ := ih hcov
    have h₂ : AtomicRun apply (s, back) [] (s', Function.update back c (.executed op res)) :=
      AtomicRun.exec (hself c rfl) ha
    have hphc : ph c = .executed op res := by
      have := hph c
      rwa [Function.update_self] at this
    have h₃ : AtomicRun apply (s', Function.update back c (.executed op res)) [] (s', ph) := by
      refine AtomicRun.execReads cs (fun d hd => ?_) (fun d hd => ?_)
      · have hdc : d ≠ c := by
          rintro rfl
          rw [hcs d hd] at hc
          cases hc
        have hidle := hph d
        have hidle' := hcov d
        rw [Function.update_of_ne hdc] at hidle
        simp only [hcs d hd, LPhase.see, LPhase.Covers] at hidle hidle'
        rw [Function.update_of_ne hdc, hidle, hidle']
      · by_cases hdc : d = c
        · subst hdc
          exact .inl (by rw [Function.update_self, hphc])
        · rw [Function.update_of_ne hdc]
          exact hother d hdc
    simpa using h₁.trans (h₂.trans h₃)
  | @pick h s lph c op seen res hr hc hs ho ih =>
    intro ph hph
    -- the read may be executed already
    refine ih fun d => ?_
    have hcov := hph d
    by_cases hdc : d = c
    · subst hdc
      rw [Function.update_self] at hcov
      rw [hc]
      exact .inr ⟨ho, res, hs, hcov⟩
    · rwa [Function.update_of_ne hdc] at hcov
  | @ret h s lph c op res hr hc ih =>
    intro ph hph
    have hcov := hph c
    rw [Function.update_self] at hcov
    have h₁ : AtomicRun apply _ h (s, Function.update ph c (.executed op res)) := ih fun d => by
      by_cases hdc : d = c
      · subst hdc
        simp [hc, LPhase.Covers]
      · have := hph d
        rwa [Function.update_of_ne hdc] at this ⊢
    have h₂ : AtomicRun apply (s, Function.update ph c (.executed op res)) [.ret c op res]
        (s, Function.update (Function.update ph c (.executed op res)) c .idle) :=
      AtomicRun.ret (Function.update_self _ _ _)
    rw [Function.update_idem, ← show ph c = .idle from hcov, Function.update_eq_self] at h₂
    exact h₁.trans h₂

/-- **The loose system is linearizable.** -/
theorem Loose.histories {s₀ : σ} {h : List (Seen ι ω ρ)} {lph : ι → LPhase ω ρ}
    (hr : Loose apply s₀ h s lph) : Linearizable apply s₀ h := by
  refine ⟨(s, fun c => match lph c with
    | .idle => .idle
    | .called op _ => .called op
    | .executed op res => .executed op res), hr.atomic fun c => ?_⟩
  cases lph c <;> simp [LPhase.Covers]

end

end Lib
