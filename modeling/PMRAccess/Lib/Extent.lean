import Mathlib.Data.List.Pairwise
import PMRAccess.Lib.Bytes

/-!
# Extents of a file

An extent is a byte string with the offset it is to be written at. `Tiles lo es hi`: the extents lie
one behind the other from `lo` to `hi`. Extents that tile do not overlap (`Tiles.pairwise`), so
writing one keeps the others (`In.write_of_disj`), in whatever order they are written; and a file
that holds all of them holds their concatenation (`Tiles.read`).
-/

namespace Lib

structure Extent where
  start : Nat
  data : Bytes

namespace Extent

variable {e e' : Extent} {b : Buf}

def stop (e : Extent) : Nat := e.start + e.data.length

def Disj (e e' : Extent) : Prop := e.stop ≤ e'.start ∨ e'.stop ≤ e.start

/-- The file holds the extent. -/
def In (e : Extent) (b : Buf) : Prop := b.read e.start e.data.length = e.data

theorem Disj.symm (h : e.Disj e') : e'.Disj e := Or.symm h

theorem in_write_self (e : Extent) (b : Buf) : e.In (b.write e.start e.data) :=
  Buf.read_write_self b e.start e.data

theorem In.write_of_disj (h : e.In b) (hd : e.Disj e') : e.In (b.write e'.start e'.data) := by
  unfold In at h ⊢
  rw [Buf.read_write_of_disjoint hd]
  exact h

end Extent

open Extent

/-- The extents lie one behind the other (module doc). -/
def Tiles : Nat → List Extent → Nat → Prop
  | lo, [], hi => lo = hi
  | lo, e :: es, hi => e.start = lo ∧ Tiles e.stop es hi

namespace Tiles

theorem snoc {lo hi : Nat} {es : List Extent} (h : Tiles lo es hi) (bs : Bytes) :
    Tiles lo (es ++ [⟨hi, bs⟩]) (hi + bs.length) := by
  induction es generalizing lo with
  | nil => exact ⟨h.symm, rfl⟩
  | cons e es ih => exact ⟨h.1, ih h.2⟩

theorem append {lo hi : Nat} {es es' : List Extent} (h : Tiles lo (es ++ es') hi) :
    ∃ mid, Tiles lo es mid ∧ Tiles mid es' hi := by
  induction es generalizing lo with
  | nil => exact ⟨lo, rfl, h⟩
  | cons e es ih =>
    obtain ⟨mid, h1, h2⟩ := ih h.2
    exact ⟨mid, ⟨h.1, h1⟩, h2⟩

theorem bounds {lo hi : Nat} {es : List Extent} (h : Tiles lo es hi) :
    lo ≤ hi ∧ ∀ e ∈ es, lo ≤ e.start ∧ e.stop ≤ hi := by
  induction es generalizing lo with
  | nil => exact ⟨Nat.le_of_eq h, by simp⟩
  | cons e es ih =>
    obtain ⟨hs, hrest⟩ := h
    obtain ⟨hle, hall⟩ := ih hrest
    have hstop : e.start ≤ e.stop := Nat.le_add_right _ _
    refine ⟨by omega, ?_⟩
    intro x hx
    rcases List.mem_cons.1 hx with rfl | hx
    · omega
    · have := hall x hx
      omega

theorem pairwise {lo hi : Nat} {es : List Extent} (h : Tiles lo es hi) : es.Pairwise Disj := by
  induction es generalizing lo with
  | nil => exact .nil
  | cons e es ih =>
    obtain ⟨-, hrest⟩ := h
    exact .cons (fun x hx => .inl (hrest.bounds.2 x hx).1) (ih hrest)

/-- A file that holds the extents holds their concatenation. -/
theorem read {lo hi : Nat} {es : List Extent} {b : Buf} (h : Tiles lo es hi)
    (hb : ∀ e ∈ es, e.In b) : b.read lo (hi - lo) = es.flatMap Extent.data := by
  induction es generalizing lo with
  | nil =>
    obtain rfl : lo = hi := h
    simp
  | cons e es ih =>
    obtain ⟨rfl, hrest⟩ := h
    have hle := hrest.bounds.1
    have hn : hi - e.start = e.data.length + (hi - e.stop) := by
      unfold stop at hle ⊢
      omega
    rw [hn, Buf.read_add, hb e List.mem_cons_self, List.flatMap_cons]
    congr 1
    exact ih hrest fun x hx => hb x (List.mem_cons_of_mem e hx)

end Tiles

end Lib
