import Mathlib.Data.List.Basic

/-!
# Guarded runs of a labelled transition system

A system is a partial step function `step : σ → α → Option (σ × List ε)`: in a state, a label
either is not enabled or leads to one next state and emits events. `Steps step P s tr s'`: a run
from `s` to `s'` in which every step, in the state it is taken in, satisfies the guard `P`; `tr` is
the trace of the emitted events. The guard states what is assumed of a run (well-formed requests, a
scheduling restriction, a kind of completion). `Steps.invariant` is the induction rule,
`Steps.of_event` finds the step behind an event of the trace; `exec` runs a list of labels
(`Steps.of_exec`). The last section is about systems whose state has a list of parties.
-/

namespace Lib

variable {σ α ε : Type*} {step : σ → α → Option (σ × List ε)} {P : σ → α → Prop} {s s' s'' : σ}
  {tr tr' : List ε}

/-- Runs from `s` (module doc). -/
inductive Steps (step : σ → α → Option (σ × List ε)) (P : σ → α → Prop) (s : σ) :
    List ε → σ → Prop
  | refl : Steps step P s [] s
  | tail {tr es : List ε} {s' s'' : σ} {a : α} : Steps step P s tr s' → P s' a →
      step s' a = some (s'', es) → Steps step P s (tr ++ es) s''

namespace Steps

/-- The invariant rule: `I` holds at the start and every step of a run keeps it. -/
theorem invariant {I : List ε → σ → Prop} (h0 : I [] s)
    (hs : ∀ {tr s' a s'' es}, Steps step P s tr s' → I tr s' → P s' a →
      step s' a = some (s'', es) → I (tr ++ es) s'')
    (h : Steps step P s tr s') : I tr s' := by
  induction h with
  | refl => exact h0
  | tail hr hp hstep ih => exact hs hr ih hp hstep

theorem single {a : α} {es : List ε} (hp : P s a) (h : step s a = some (s', es)) :
    Steps step P s es s' := by
  simpa using Steps.tail .refl hp h

theorem trans (h : Steps step P s tr s') (h' : Steps step P s' tr' s'') :
    Steps step P s (tr ++ tr') s'' := by
  induction h' with
  | refl => simpa using h
  | tail _ hp hstep ih => simpa using Steps.tail ih hp hstep

/-- Where steps emit one event at most: the step that emitted an event of the trace. -/
theorem of_event (h1 : ∀ {s a s' es}, step s a = some (s', es) → es.length ≤ 1)
    (h : Steps step P s tr s') {n : Nat} {e : ε} (he : tr[n]? = some e) :
    ∃ s₁ a s₂, Steps step P s (tr.take n) s₁ ∧ P s₁ a ∧ step s₁ a = some (s₂, [e]) := by
  induction h with
  | refl => simp at he
  | @tail tr es s₁ s₂ a hr hp hstep ih =>
    by_cases hn : n < tr.length
    · rw [List.getElem?_append_left hn] at he
      rw [List.take_append_of_le_length (by omega)]
      exact ih he
    · -- the event is the one of the last step
      have hlen := h1 hstep
      rw [List.getElem?_append_right (by omega)] at he
      have hn' : n - tr.length < es.length := (List.getElem?_eq_some_iff.1 he).1
      obtain ⟨x, rfl⟩ := List.length_eq_one_iff.1 (show es.length = 1 by omega)
      obtain rfl : n = tr.length := by simp at hn'; omega
      simp only [Nat.sub_self, List.getElem?_cons_zero, Option.some.injEq] at he
      subst he
      rw [List.take_left]
      exact ⟨s₁, a, s₂, hr, hp, hstep⟩

end Steps

/-! ## Running a list of labels -/

/-- Runs the labels in order; fails when one is not enabled or does not meet the guard. -/
def exec (step : σ → α → Option (σ × List ε)) (P : σ → α → Prop) [∀ s a, Decidable (P s a)] :
    σ → List α → Option (σ × List ε)
  | s, [] => some (s, [])
  | s, a :: as =>
    if P s a then
      match step s a with
      | some (s', es) =>
        match exec step P s' as with
        | some (s'', es') => some (s'', es ++ es')
        | none => none
      | none => none
    else none

theorem exec_cons [∀ s a, Decidable (P s a)] {a : α} {as : List α} {es es' : List ε} (hp : P s a)
    (hs : step s a = some (s', es)) (he : exec step P s' as = some (s'', es')) :
    exec step P s (a :: as) = some (s'', es ++ es') := by
  simp only [exec, if_pos hp, hs, he]

theorem Steps.of_exec [∀ s a, Decidable (P s a)] :
    ∀ {as : List α} {s s' : σ} {tr : List ε}, exec step P s as = some (s', tr) →
      Steps step P s tr s'
  | [], s, s', tr, h => by
    simp only [exec, Option.some.injEq, Prod.mk.injEq] at h
    obtain ⟨rfl, rfl⟩ := h
    exact .refl
  | a :: as, s, s', tr, h => by
    simp only [exec] at h
    split at h
    · rename_i hp
      split at h
      · rename_i s1 es hs1
        split at h
        · rename_i s2 es' hs2
          simp only [Option.some.injEq, Prod.mk.injEq] at h
          obtain ⟨rfl, rfl⟩ := h
          exact (Steps.single hp hs1).trans (of_exec hs2)
        · cases h
      · cases h
    · cases h

/-- The run of a list of labels that are all enabled. -/
theorem Steps.of_exec_get [∀ s a, Decidable (P s a)] (as : List α)
    (h : (exec step P s as).isSome) :
    Steps step P s ((exec step P s as).get h).2 ((exec step P s as).get h).1 :=
  .of_exec (Option.some_get h).symm

/-! ## Lists of parties

One party of a system changes, or a new one joins. -/

section
variable {β : Type*} {ks : List β} {c d : Nat} {k k' kd : β}

theorem set_self (hk : ks[c]? = some k) : (ks.set c k')[c]? = some k' := by
  simp [(List.getElem?_eq_some_iff.1 hk).1]

theorem set_cases (hk : ks[c]? = some k) (hkd : (ks.set c k')[d]? = some kd) :
    (d = c ∧ k' = kd) ∨ (d ≠ c ∧ ks[d]? = some kd) := by
  by_cases hdc : d = c
  · subst hdc
    rw [set_self hk, Option.some.injEq] at hkd
    exact .inl ⟨rfl, hkd⟩
  · exact .inr ⟨hdc, List.getElem?_set_ne (Ne.symm hdc) ▸ hkd⟩

theorem append_some {ks' : List β} (h : ks[d]? = some k) : (ks ++ ks')[d]? = some k := by
  rw [List.getElem?_append_left (List.getElem?_eq_some_iff.1 h).1, h]

theorem append_cases (h : (ks ++ [k'])[d]? = some k) :
    ks[d]? = some k ∨ (d = ks.length ∧ k = k') := by
  rw [List.getElem?_append] at h
  split at h
  · exact .inl h
  · refine .inr ?_
    have hd : d - ks.length = 0 := by
      by_contra hne
      rw [List.getElem?_eq_none (by simp; omega)] at h
      cases h
    rw [hd] at h
    exact ⟨by omega, by simpa using h.symm⟩

end

end Lib
