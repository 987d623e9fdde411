import Mathlib.Data.List.Basic

/-!
# Objects that use one another

A table of live objects, each with the objects it uses. Releasing an object fails, and leaves it
live, while another one uses it. `releaseAll` releases one after the other and looks at no result:
an object survives if it comes before one that uses it (`mem_releaseAll_of_used`), and is gone if all
that use it have gone before it (`not_mem_releaseAll`).
-/

namespace Lib

structure Obj (ι : Type*) where
  id : ι
  uses : List ι
  deriving DecidableEq, Repr

namespace Objects

variable {ι : Type*} [DecidableEq ι] {t : List (Obj ι)} {o u : Obj ι} {i : ι} {is js : List ι}

/-- A live object uses `i`. -/
def busy (t : List (Obj ι)) (i : ι) : Bool := t.any fun o => i ∈ o.uses

def release (t : List (Obj ι)) (i : ι) : List (Obj ι) :=
  if busy t i then t else t.filter (·.id ≠ i)

def releaseAll (t : List (Obj ι)) (is : List ι) : List (Obj ι) := is.foldl release t

theorem busy_iff : busy t i = true ↔ ∃ o ∈ t, i ∈ o.uses := by
  simp [busy]

theorem mem_release : o ∈ release t i ↔ o ∈ t ∧ ((∃ u ∈ t, i ∈ u.uses) ∨ o.id ≠ i) := by
  unfold release
  split
  · rename_i hb
    simp [busy_iff.1 hb]
  · rename_i hb
    simp [busy_iff.not.1 hb]

@[simp] theorem releaseAll_cons : releaseAll t (i :: is) = releaseAll (release t i) is := rfl

theorem releaseAll_append : releaseAll t (is ++ js) = releaseAll (releaseAll t is) js :=
  List.foldl_append

/-- Nothing becomes live. -/
theorem mem_of_mem_releaseAll (h : o ∈ releaseAll t is) : o ∈ t := by
  induction is generalizing t with
  | nil => exact h
  | cons i is ih => exact (mem_release.1 (ih h)).1

/-- An object that is not released stays. -/
theorem mem_releaseAll_of_not_mem (h : o ∈ t) (ho : o.id ∉ is) : o ∈ releaseAll t is := by
  induction is generalizing t with
  | nil => exact h
  | cons i is ih =>
    rw [List.mem_cons, not_or] at ho
    exact ih (mem_release.2 ⟨h, .inr ho.1⟩) ho.2

theorem mem_releaseAll_of_used (ho : o ∈ t) (hu : u ∈ t) (huse : o.id ∈ u.uses) (his : o.id ∉ is)
    (hlate : u.id ∉ is) (hjs : o.id ∉ js) : o ∈ releaseAll t (is ++ o.id :: js) := by
  rw [releaseAll_append, releaseAll_cons]
  have ho' := mem_releaseAll_of_not_mem ho his
  have hu' := mem_releaseAll_of_not_mem hu hlate
  exact mem_releaseAll_of_not_mem (mem_release.2 ⟨ho', .inl ⟨u, hu', huse⟩⟩) hjs

theorem not_mem_releaseAll (is js : List ι) (hfree : ∀ u ∈ releaseAll t is, i ∉ u.uses)
    (h : o ∈ releaseAll t (is ++ i :: js)) : o.id ≠ i := by
  rw [releaseAll_append, releaseAll_cons] at h
  rcases (mem_release.1 (mem_of_mem_releaseAll h)).2 with ⟨u, hu, huse⟩ | hne
  · exact absurd huse (hfree u hu)
  · exact hne

end Objects

end Lib
