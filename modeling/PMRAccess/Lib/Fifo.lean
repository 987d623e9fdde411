import Mathlib.Data.List.Basic
import Mathlib.Data.List.Perm.Basic

/-!
# Queues that are FIFO for each producer

A multi-producer queue holds tagged items in the order they were put in; a consumer takes the oldest
item of some producer (`takeFrom`), so items of one producer leave in order and items of different
producers in any order. `takeFrom_split` says what a take does to the list; `align` puts the items
that went in, with whatever else is known of them, in the order in which they came out.
-/

namespace Lib

variable {ι α β : Type*} [DecidableEq ι]

/-- The items of producer `p`, in order. -/
def itemsOf (p : ι) (q : List (ι × α)) : List α := (q.filter (·.1 = p)).map (·.2)

section
variable (p : ι)

@[simp] theorem itemsOf_nil : itemsOf p ([] : List (ι × α)) = [] := rfl

theorem itemsOf_append (q q' : List (ι × α)) : itemsOf p (q ++ q') = itemsOf p q ++ itemsOf p q' := by
  simp [itemsOf]

theorem itemsOf_cons_self (x : α) (q : List (ι × α)) : itemsOf p ((p, x) :: q) = x :: itemsOf p q := by
  simp [itemsOf]

theorem mem_itemsOf {x : α} {q : List (ι × α)} : x ∈ itemsOf p q ↔ (p, x) ∈ q := by
  simp [itemsOf]

theorem itemsOf_cons_ne {p' : ι} (h : p' ≠ p) (x : α) (q : List (ι × α)) :
    itemsOf p ((p', x) :: q) = itemsOf p q := by
  simp [itemsOf, h]

/-- The items of one producer, tagged. -/
theorem itemsOf_tag (d : ι) (xs : List α) :
    itemsOf p (xs.map (d, ·)) = if d = p then xs else [] := by
  induction xs with
  | nil => simp
  | cons x xs ih =>
    by_cases hd : d = p
    · subst hd
      rw [List.map_cons, itemsOf_cons_self, ih, if_pos rfl, if_pos rfl]
    · rw [List.map_cons, itemsOf_cons_ne p hd, ih, if_neg hd, if_neg hd]

end

/-- The oldest item of producer `p` and the queue without it. -/
def takeFrom (p : ι) : List (ι × α) → Option (α × List (ι × α))
  | [] => none
  | x :: q =>
    if x.1 = p then some (x.2, q)
    else
      match takeFrom p q with
      | some (y, q') => some (y, x :: q')
      | none => none

theorem takeFrom_split {p : ι} {q q' : List (ι × α)} {x : α} (h : takeFrom p q = some (x, q')) :
    ∃ l₁ l₂, q = l₁ ++ (p, x) :: l₂ ∧ q' = l₁ ++ l₂ ∧ itemsOf p l₁ = [] := by
  induction q generalizing q' with
  | nil => cases h
  | cons y q ih =>
    simp only [takeFrom] at h
    split at h
    · rename_i hy
      simp only [Option.some.injEq, Prod.mk.injEq] at h
      obtain ⟨rfl, rfl⟩ := h
      exact ⟨[], q, by simp [← hy], rfl, rfl⟩
    · rename_i hy
      split at h
      · rename_i z q1 hz
        simp only [Option.some.injEq, Prod.mk.injEq] at h
        obtain ⟨rfl, rfl⟩ := h
        obtain ⟨l₁, l₂, rfl, rfl, hl⟩ := ih hz
        exact ⟨y :: l₁, l₂, rfl, rfl, by rw [itemsOf_cons_ne p hy, hl]⟩
      · cases h

/-- A take keeps every producer's order: what is left, behind the item taken. -/
theorem itemsOf_takeFrom {p : ι} {q q' : List (ι × α)} {x : α} (h : takeFrom p q = some (x, q'))
    (c : ι) : itemsOf c q = itemsOf c [(p, x)] ++ itemsOf c q' := by
  obtain ⟨l₁, l₂, rfl, rfl, hl⟩ := takeFrom_split h
  by_cases hc : p = c
  · subst hc
    simp [itemsOf_append, hl, itemsOf_cons_self]
  · simp [itemsOf_append, itemsOf_cons_ne c hc]

theorem takeFrom_perm {p : ι} {q q' : List (ι × α)} {x : α} (h : takeFrom p q = some (x, q')) :
    q.Perm ((p, x) :: q') := by
  obtain ⟨l₁, l₂, rfl, rfl, -⟩ := takeFrom_split h
  exact List.perm_middle

/-- An item at the head of its producer's items, and the two parts of the queue around it. -/
theorem itemsOf_eq_cons {p : ι} {x : α} {xs : List α} : ∀ {q : List (ι × α)},
    itemsOf p q = x :: xs → ∃ l₁ l₂, q = l₁ ++ (p, x) :: l₂ ∧ itemsOf p l₁ = []
  | [], h => by simp at h
  | (p', y) :: q, h => by
    by_cases hp : p' = p
    · subst hp
      rw [itemsOf_cons_self] at h
      exact ⟨[], q, by rw [(List.cons.inj h).1]; rfl, rfl⟩
    · rw [itemsOf_cons_ne p hp] at h
      obtain ⟨l₁, l₂, rfl, hl⟩ := itemsOf_eq_cons h
      exact ⟨(p', y) :: l₁, l₂, rfl, by rw [itemsOf_cons_ne p hp, hl]⟩

/-- `out` has, for every producer, the first components of the items of `g`. Then the items of `g`
can be put in the order of `out`, every producer's among themselves in the order they had. -/
theorem align : ∀ {out : List (ι × α)} {g : List (ι × α × β)},
    (∀ c, itemsOf c out = (itemsOf c g).map (·.1)) →
    ∃ z : List (ι × α × β), z.map (fun x => (x.1, x.2.1)) = out ∧ ∀ c, itemsOf c z = itemsOf c g
  | [], g, h => by
    refine ⟨[], rfl, fun c => ?_⟩
    have hc := h c
    simp only [itemsOf_nil] at hc
    exact (List.map_eq_nil_iff.1 hc.symm).symm
  | (p, x) :: out, g, h => by
    have hp := h p
    rw [itemsOf_cons_self] at hp
    obtain ⟨y, ys, hg, rfl, -⟩ := List.map_eq_cons_iff.1 hp.symm
    obtain ⟨l₁, l₂, rfl, hl⟩ := itemsOf_eq_cons hg
    have hrest : ∀ c, itemsOf c out = (itemsOf c (l₁ ++ l₂)).map (·.1) := by
      intro c
      have hc := h c
      by_cases hpc : p = c
      · subst hpc
        simpa [itemsOf_append, hl, itemsOf_cons_self] using hc
      · simpa [itemsOf_append, itemsOf_cons_ne c hpc] using hc
    obtain ⟨z, hz, hi⟩ := align hrest
    refine ⟨(p, y) :: z, by simp [hz], fun c => ?_⟩
    by_cases hpc : p = c
    · subst hpc
      simp [itemsOf_append, hl, itemsOf_cons_self, hi]
    · simp [itemsOf_append, itemsOf_cons_ne c hpc, hi]

end Lib
