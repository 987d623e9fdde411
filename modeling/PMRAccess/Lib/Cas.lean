import Mathlib.Data.List.Basic

/-!
# Histories of a word that is swapped

An `Attempt` is a compare-and-swap of a word that has been executed: the values it was called with
and those of the word before and behind it. `Linked w as w'`: the attempts lead from `w` to `w'`,
each starting where the one before has ended. `Linked.chain`: where each attempt does what a
compare-and-swap does, the successful ones form a chain, each expecting what the one before has put.
-/

namespace Lib

structure Attempt (α : Type*) where
  expected : α
  desired : α
  was : α
  now : α
  deriving DecidableEq, Repr

namespace Attempt

variable {α : Type*} {w w' : α} {a : Attempt α} {as : List (Attempt α)}

def Linked : α → List (Attempt α) → α → Prop
  | w, [], w' => w = w'
  | w, a :: as, w' => a.was = w ∧ Linked a.now as w'

/-- Each attempt expects what the one before desires. -/
def Chain : α → List (Attempt α) → α → Prop
  | w, [], w' => w = w'
  | w, a :: as, w' => a.expected = w ∧ Chain a.desired as w'

theorem Linked.snoc (h : Linked w as w') (ha : a.was = w') : Linked w (as ++ [a]) a.now := by
  induction as generalizing w with
  | nil =>
    obtain rfl : w = w' := h
    exact ⟨ha, rfl⟩
  | cons b as ih => exact ⟨h.1, ih h.2⟩

variable [DecidableEq α]

/-- The specification of a compare-and-swap. -/
def IsCas (a : Attempt α) : Prop := a.now = if a.was = a.expected then a.desired else a.was

instance (a : Attempt α) : Decidable a.IsCas :=
  inferInstanceAs (Decidable (a.now = if a.was = a.expected then a.desired else a.was))

/-- The word has the value that is expected. -/
def succeeds (a : Attempt α) : Bool := a.was = a.expected

theorem Linked.chain (h : Linked w as w') (hcas : ∀ a ∈ as, a.IsCas) :
    Chain w (as.filter succeeds) w' := by
  induction as generalizing w with
  | nil => exact h
  | cons a as ih =>
    obtain ⟨hwas, hrest⟩ := h
    have ha : a.now = if a.was = a.expected then a.desired else a.was :=
      hcas a List.mem_cons_self
    have hchain := ih hrest fun b hb => hcas b (List.mem_cons_of_mem _ hb)
    by_cases hs : a.was = a.expected
    · rw [List.filter_cons_of_pos (by simpa [succeeds] using hs)]
      rw [if_pos hs] at ha
      exact ⟨hs ▸ hwas, ha ▸ hchain⟩
    · rw [List.filter_cons_of_neg (by simpa [succeeds] using hs)]
      rw [if_neg hs, hwas] at ha
      exact ha ▸ hchain

end Attempt

end Lib
