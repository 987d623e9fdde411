import Mathlib.Algebra.BigOperators.Group.Finset.Piecewise
import Mathlib.Algebra.Order.BigOperators.Group.Finset
import PMRAccess.Lib.Run

/-!
# Runs that come to an end

`Ends step P Q s`: from `s` every run of steps that meet the guard `P` ends, whatever the order of
the steps, and where it can go no further `Q` holds. `Ends.of_measure` is the rule: an invariant
whose steps make a measure smaller; `Ends.of_lex` has a second measure for steps that only do not
raise the first. The measure of a system with a list of parties is a sum over the parties (`total`): a
step makes the share of one party smaller and that of no other greater.
-/

namespace Lib

section
variable {σ α ε : Type*} {step : σ → α → Option (σ × List ε)} {P : σ → α → Prop} {Q : σ → Prop}
  {s : σ}

/-- Every run ends, and ends in `Q` (module doc). -/
inductive Ends (step : σ → α → Option (σ × List ε)) (P : σ → α → Prop) (Q : σ → Prop) : σ → Prop
  | intro {s : σ} (hs : ∀ a s' es, P s a → step s a = some (s', es) → Ends step P Q s')
      (hq : (∀ a, P s a → step s a = none) → Q s) : Ends step P Q s

theorem Ends.of_lex (m w : σ → Nat) {I : σ → Prop}
    (hs : ∀ {s a s' es}, I s → P s a → step s a = some (s', es) →
      I s' ∧ (m s' < m s ∨ m s' ≤ m s ∧ w s' < w s))
    (hq : ∀ {s}, I s → (∀ a, P s a → step s a = none) → Q s) (h : I s) : Ends step P Q s := by
  -- induction on a bound of the first measure, within it on one of the second
  have key : ∀ n j s, m s < n → w s < j → I s → Ends step P Q s := by
    intro n
    induction n with
    | zero => intro j s hn; omega
    | succ n ihn =>
      intro j
      induction j with
      | zero => intro s _ hj; omega
      | succ j ihj =>
        intro s hn hj hi
        refine .intro (fun a s' es hp hstep => ?_) (hq hi)
        obtain ⟨hi', hm | ⟨hm, hw⟩⟩ := hs hi hp hstep
        · exact ihn _ s' (by omega) (Nat.lt_succ_self _) hi'
        · exact ihj s' (by omega) (by omega) hi'
  exact key _ _ s (Nat.lt_succ_self _) (Nat.lt_succ_self _) h

theorem Ends.of_measure (m : σ → Nat) {I : σ → Prop}
    (hs : ∀ {s a s' es}, I s → P s a → step s a = some (s', es) → I s' ∧ m s' < m s)
    (hq : ∀ {s}, I s → (∀ a, P s a → step s a = none) → Q s) (h : I s) : Ends step P Q s := by
  refine .of_lex m (fun _ => 0) (fun hi hp hstep => ?_) hq h
  obtain ⟨hi', hm⟩ := hs hi hp hstep
  exact ⟨hi', .inl hm⟩

end

section
variable {β : Type*} {f f' : Nat → β → Nat} {ks ks' : List β} {c : Nat} {k k' : β}

/-- The sum of the shares of the parties. -/
def total (f : Nat → β → Nat) (ks : List β) : Nat :=
  ∑ i ∈ Finset.range ks.length, (ks[i]?.map (f i)).getD 0

/-- Where no other party's share grows, the sum changes by no more than the one's. -/
theorem total_le (hlen : ks'.length = ks.length) (hk : ks[c]? = some k) (hk' : ks'[c]? = some k')
    (hd : ∀ (d : Nat) (kd kd' : β), d ≠ c → ks[d]? = some kd → ks'[d]? = some kd' →
      f' d kd' ≤ f d kd) :
    total f' ks' + f c k ≤ total f ks + f' c k' := by
  have hlt : c ∈ Finset.range ks.length :=
    Finset.mem_range.2 (List.getElem?_eq_some_iff.1 hk).1
  have hsum : ∀ m, (∑ i ∈ Finset.range ks.length, if i = c then m else 0) = m := by
    intro m
    rw [Finset.sum_ite_eq' _ c, if_pos hlt]
  rw [total, total, hlen, ← hsum (f c k), ← hsum (f' c k'), ← Finset.sum_add_distrib,
    ← Finset.sum_add_distrib]
  refine Finset.sum_le_sum fun i hi => ?_
  by_cases hic : i = c
  · subst hic
    simp [hk, hk', Nat.add_comm]
  · have hi' : i < ks.length := Finset.mem_range.1 hi
    obtain ⟨ki, hki⟩ : ∃ k, ks[i]? = some k := ⟨_, List.getElem?_eq_getElem hi'⟩
    obtain ⟨ki', hki'⟩ : ∃ k, ks'[i]? = some k := ⟨_, List.getElem?_eq_getElem (hlen ▸ hi')⟩
    simpa [hki, hki', hic] using hd i _ _ hic hki hki'

end

end Lib
