import Mathlib.Logic.Function.Basic

/-!
# Histories of slots

Slots are taken and freed. `held ops` is what a history leaves held, starting with all slots free.
A history is `Exclusive` where only free slots are taken; then between two takes of one slot it has
been freed (`Exclusive.freed`).
-/

namespace Lib

inductive SlotOp (ι : Type*)
  | take (i : ι)
  | free (i : ι)
  deriving DecidableEq, Repr

namespace Slots

variable {ι : Type*} [DecidableEq ι] {ops a b c : List (SlotOp ι)} {i : ι}

def apply (held : ι → Bool) : SlotOp ι → ι → Bool
  | .take i => Function.update held i true
  | .free i => Function.update held i false

/-- The slots held behind a history. -/
def held (ops : List (SlotOp ι)) : ι → Bool := ops.foldl apply fun _ => false

/-- Only free slots are taken. -/
def Exclusive (ops : List (SlotOp ι)) : Prop :=
  ∀ a i b, ops = a ++ .take i :: b → held a i = false

theorem held_append (a b : List (SlotOp ι)) : held (a ++ b) = b.foldl apply (held a) :=
  List.foldl_append

theorem exclusive_nil : Exclusive ([] : List (SlotOp ι)) := by
  intro a i b h
  simp at h

theorem Exclusive.snoc {op : SlotOp ι} (h : Exclusive ops)
    (hop : ∀ i, op = .take i → held ops i = false) : Exclusive (ops ++ [op]) := by
  intro a i b hab
  rcases List.eq_nil_or_concat b with rfl | ⟨b', last, rfl⟩
  · obtain ⟨rfl, hlast⟩ := List.append_inj' hab rfl
    exact hop i (List.singleton_inj.1 hlast)
  · have hab' : ops ++ [op] = (a ++ .take i :: b') ++ [last] := by simpa using hab
    exact h a i b' (List.append_inj' hab' rfl).1

/-- A slot stays held until it is freed. -/
theorem held_of_not_freed {h : ι → Bool} (hi : h i = true) (hb : .free i ∉ b) :
    b.foldl apply h i = true := by
  induction b generalizing h with
  | nil => exact hi
  | cons op b ih =>
    rw [List.mem_cons, not_or] at hb
    refine ih ?_ hb.2
    cases op with
    | take j =>
      by_cases hij : i = j
      · simp [apply, hij]
      · simpa [apply, Function.update_of_ne hij] using hi
    | free j =>
      have hij : i ≠ j := fun hij => hb.1 (by rw [hij])
      simpa [apply, Function.update_of_ne hij] using hi

theorem Exclusive.freed (h : Exclusive (a ++ .take i :: (b ++ .take i :: c))) : .free i ∈ b := by
  by_contra hb
  have hfree := h (a ++ .take i :: b) i c (by simp)
  rw [held_append, List.foldl_cons] at hfree
  have hheld := held_of_not_freed (h := apply (held a) (.take i)) (by simp [apply]) hb
  rw [hheld] at hfree
  cases hfree

end Slots

end Lib
