import Mathlib.Data.List.TakeWhile
import Mathlib.Logic.Function.Basic

/-!
# Linked lists

A linked list in a memory: `next` gives the node behind a node, `Linked next a l` says that from the
node `a` on these are the nodes `l`, and then no more. A search goes from node to node as long as the
next one satisfies a predicate that is downward closed in the list; where it ends is known however
often and wherever it started in between (`Linked.search_end`). `Linked.insert`: a node is put behind
another one.
-/

namespace Lib

variable {ν : Type*} {next next' : ν → Option ν} {a n x y : ν} {l l₁ l₂ : List ν}

def Linked (next : ν → Option ν) : ν → List ν → Prop
  | a, [] => next a = none
  | a, x :: l => next a = some x ∧ Linked next x l

/-- The last node for which the search goes on. -/
def lastWhere (p : ν → Bool) (a : ν) (l : List ν) : ν := (l.takeWhile p).getLastD a

theorem lastWhere_mem (p : ν → Bool) (a : ν) (l : List ν) :
    lastWhere p a l = a ∨ (lastWhere p a l ∈ l ∧ p (lastWhere p a l) = true) := by
  unfold lastWhere
  cases hl : l.takeWhile p with
  | nil => exact .inl rfl
  | cons y t =>
    have hmem : (y :: t).getLastD a ∈ l.takeWhile p := by
      rw [hl, List.getLastD_cons]
      exact List.getLastD_mem_cons ..
    exact .inr ⟨List.takeWhile_subset p hmem, List.mem_takeWhile_imp hmem⟩

theorem lastWhere_congr {p q : ν → Bool} (h : ∀ x ∈ l, p x = q x) :
    lastWhere p a l = lastWhere q a l := by
  unfold lastWhere
  congr 1
  induction l with
  | nil => rfl
  | cons y l ih =>
    rw [List.takeWhile_cons, List.takeWhile_cons, h y List.mem_cons_self,
      ih fun x hx => h x (List.mem_cons_of_mem _ hx)]

/-- Behind the first element that does not satisfy `p` there is none that does. -/
theorem dropWhile_neg {p : ν → Bool} (hp : l.Pairwise fun y z => p z = true → p y = true)
    (hx : x ∈ l.dropWhile p) : p x = false := by
  induction l with
  | nil => cases hx
  | cons y l ih =>
    obtain ⟨hy, hp⟩ := List.pairwise_cons.1 hp
    by_cases hpy : p y = true
    · rw [List.dropWhile_cons_of_pos hpy] at hx
      exact ih hp hx
    · rw [List.dropWhile_cons_of_neg hpy] at hx
      by_contra hpx
      rw [Bool.not_eq_false] at hpx
      rcases List.mem_cons.1 hx with rfl | hx
      · exact hpy hpx
      · exact hpy (hy x hx hpx)

namespace Linked

theorem congr (h : Linked next a l) (hn : ∀ x, x = a ∨ x ∈ l → next' x = next x) :
    Linked next' a l := by
  induction l generalizing a with
  | nil => exact (hn a (.inl rfl)).trans h
  | cons y l ih =>
    exact ⟨(hn a (.inl rfl)).trans h.1, ih h.2 fun x hx => hn x (.inr (List.mem_cons.2 hx))⟩

theorem next_mem (h : Linked next a l) (hx : x = a ∨ x ∈ l) (hy : next x = some y) : y ∈ l := by
  induction l generalizing a with
  | nil =>
    obtain rfl | hx := hx
    · rw [show next x = none from h] at hy
      cases hy
    · cases hx
  | cons z l ih =>
    obtain rfl | hx := hx
    · rw [h.1, Option.some.injEq] at hy
      exact hy ▸ List.mem_cons_self
    · exact List.mem_cons_of_mem _ (ih h.2 (List.mem_cons.1 hx))

theorem next_head (h : Linked next a l) : next a = l.head? := by
  cases l with
  | nil => exact h
  | cons y l => exact h.1

theorem pairwise_next {R : ν → ν → Prop} (h : Linked next a l) (hr : l.Pairwise R) (hx : x ∈ l)
    (hy : next x = some y) : R x y := by
  induction l generalizing a with
  | nil => cases hx
  | cons z l ih =>
    obtain ⟨hz, hr⟩ := List.pairwise_cons.1 hr
    rcases List.mem_cons.1 hx with rfl | hx
    · exact hz y (h.2.next_mem (.inl rfl) hy)
    · exact ih h.2 hr hx

/-- Where a search ends: behind every node for which it goes on, before every other one. -/
theorem search_end {p : ν → Bool} (h : Linked next a l)
    (hp : l.Pairwise fun y z => p z = true → p y = true)
    (hx : x = a ∨ (x ∈ l ∧ p x = true)) (hend : ∀ y, next x = some y → p y = false) :
    x = lastWhere p a l ∧ next x = (l.dropWhile p).head? := by
  induction l generalizing a with
  | nil =>
    obtain rfl | ⟨hx, -⟩ := hx
    · exact ⟨rfl, h⟩
    · cases hx
  | cons y l ih =>
    obtain ⟨hy, hp⟩ := List.pairwise_cons.1 hp
    by_cases hpy : p y = true
    · -- the search has passed `y`
      have hx' : x = y ∨ (x ∈ l ∧ p x = true) := by
        obtain rfl | ⟨hx, hpx⟩ := hx
        · rw [hend y h.1] at hpy
          cases hpy
        · exact (List.mem_cons.1 hx).imp id fun hx => ⟨hx, hpx⟩
      obtain ⟨h1, h2⟩ := ih h.2 hp hx'
      refine ⟨?_, ?_⟩
      · rw [lastWhere, List.takeWhile_cons_of_pos hpy, List.getLastD_cons]
        exact h1
      · rw [List.dropWhile_cons_of_pos hpy]
        exact h2
    · obtain rfl | ⟨hx, hpx⟩ := hx
      · rw [lastWhere, List.takeWhile_cons_of_neg hpy, List.dropWhile_cons_of_neg hpy]
        exact ⟨rfl, h.1⟩
      · rcases List.mem_cons.1 hx with rfl | hx
        · exact absurd hpx hpy
        · exact absurd (hy x hx hpx) hpy

section
variable [DecidableEq ν]

theorem insert_append (h : Linked next a (l₁ ++ l₂)) (hd : (a :: (l₁ ++ l₂)).Nodup)
    (hn : n ∉ a :: (l₁ ++ l₂)) (hnext : next n = next (l₁.getLastD a)) :
    Linked (Function.update next (l₁.getLastD a) (some n)) a (l₁ ++ n :: l₂) := by
  induction l₁ generalizing a with
  | nil =>
    simp only [List.nil_append, List.getLastD_nil] at *
    obtain ⟨ha, -⟩ := List.nodup_cons.1 hd
    have hna : n ≠ a := fun he => hn (he ▸ List.mem_cons_self)
    refine ⟨Function.update_self .., ?_⟩
    cases l₂ with
    | nil =>
      exact (Function.update_of_ne hna _ _).trans (hnext.trans h)
    | cons y l₂ =>
      refine ⟨(Function.update_of_ne hna _ _).trans (hnext.trans h.1), h.2.congr fun x hx => ?_⟩
      have hxa : x ≠ a := by
        rintro rfl
        exact ha (List.mem_cons.2 hx)
      exact Function.update_of_ne hxa _ _
  | cons y l₁ ih =>
    rw [List.getLastD_cons] at *
    obtain ⟨ha, hd⟩ := List.nodup_cons.1 hd
    have hlast : l₁.getLastD y ≠ a := by
      intro he
      exact ha (he ▸ List.mem_append_left _ (List.getLastD_mem_cons ..))
    exact ⟨(Function.update_of_ne (Ne.symm hlast) _ _).trans h.1,
      ih h.2 hd (fun hm => hn (List.mem_cons_of_mem _ hm)) hnext⟩

/-- A node behind the last one for which a search goes on. -/
theorem insert {p : ν → Bool} (h : Linked next a l) (hd : (a :: l).Nodup) (hn : n ∉ a :: l)
    (hnext : next n = next (lastWhere p a l)) :
    Linked (Function.update next (lastWhere p a l) (some n)) a
      (l.takeWhile p ++ n :: l.dropWhile p) := by
  have heq : l.takeWhile p ++ l.dropWhile p = l := List.takeWhile_append_dropWhile
  rw [← heq] at h hd hn
  exact h.insert_append hd hn hnext

end

end Linked

end Lib
