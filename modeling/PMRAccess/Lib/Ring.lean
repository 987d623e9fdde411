import Mathlib.Algebra.BigOperators.Group.List.Basic
import Mathlib.Algebra.GroupWithZero.Nat
import Mathlib.Order.Basic

/-!
# Rings of contiguous records

A cursor hands out the ranges of a ring to records that are never split. A record is placed at the
cursor (`Place.behind`), unless the cursor is `W` or beyond; then the ring may start over, with the
record still at the old cursor and the next one behind as much of the start (`Place.late`), or with
the record at the start (`Place.early`). `Laid W c xs c'`: the records `xs` have been placed in this
way from cursor `c` on.

`Laid.windowed`: two records with at most `W` bytes from the first to the second never overlap, nor
does the second one with the bytes of the first that are that close (`Laid.disj_drop`). The invariant
is `Behind`: `S` bytes after the byte `a` of a record, the cursor is at `a + S`, or has started over
and lags `W` or more.
-/

namespace Lib

/-- A range of bytes. -/
structure Span where
  start : Nat
  length : Nat
  deriving DecidableEq, Repr

namespace Span

def stop (x : Span) : Nat := x.start + x.length

def Disj (x y : Span) : Prop := x.stop ≤ y.start ∨ y.stop ≤ x.start

instance (x y : Span) : Decidable (x.Disj y) :=
  inferInstanceAs (Decidable (x.stop ≤ y.start ∨ y.stop ≤ x.start))

/-- The range without its first `o` bytes. -/
def drop (x : Span) (o : Nat) : Span := ⟨x.start + o, x.length - o⟩

/-- The bytes of some ranges together. -/
def total (xs : List Span) : Nat := (xs.map length).sum

@[simp] theorem total_nil : total [] = 0 := rfl

@[simp] theorem total_cons (x : Span) (xs : List Span) : total (x :: xs) = x.length + total xs := by
  simp [total]

theorem total_take_le (xs : List Span) (n : Nat) : total (xs.take n) ≤ total xs := by
  have h : total xs = total (xs.take n) + total (xs.drop n) := by
    unfold total
    rw [← List.sum_append, ← List.map_append, List.take_append_drop]
  omega

end Span

namespace Ring

/-- Where a ring with its cursor at `c` puts `n` bytes, and where the cursor is then (module
doc). -/
inductive Place (W c n : Nat) : Nat → Nat → Prop
  | behind : Place W c n c (c + n)
  | late : W ≤ c → Place W c n c n
  | early : W ≤ c → Place W c n 0 n

/-- The records have been placed one after the other (module doc). -/
def Laid (W : Nat) : Nat → List Span → Nat → Prop
  | c, [], c' => c = c'
  | c, x :: xs, c' => ∃ c₁, Place W c x.length x.start c₁ ∧ Laid W c₁ xs c'

/-- Records that are close to each other do not overlap. -/
def Windowed (W : Nat) (xs : List Span) : Prop :=
  ∀ i j x y, i < j → xs[i]? = some x → xs[j]? = some y →
    Span.total ((xs.drop i).take (j + 1 - i)) ≤ W → x.Disj y

/-- The cursor `S` bytes after the byte `a` of a record. -/
def Behind (W a S c : Nat) : Prop := c = a + S ∨ c + W ≤ a + S

variable {W c c' : Nat} {xs : List Span} {x : Span}

namespace Laid

theorem snoc {start next : Nat} {n : Nat} (h : Laid W c xs c') (hp : Place W c' n start next) :
    Laid W c (xs ++ [⟨start, n⟩]) next := by
  induction xs generalizing c with
  | nil =>
    obtain rfl : c = c' := h
    exact ⟨next, hp, rfl⟩
  | cons x xs ih =>
    obtain ⟨c₁, hx, hrest⟩ := h
    exact ⟨c₁, hx, ih hrest⟩

theorem drop (h : Laid W c xs c') (i : Nat) : ∃ c₁, Laid W c₁ (xs.drop i) c' := by
  induction i generalizing c xs with
  | zero => exact ⟨c, h⟩
  | succ i ih =>
    cases xs with
    | nil => exact ⟨c, h⟩
    | cons x xs =>
      obtain ⟨c₁, -, hrest⟩ := h
      exact ih hrest

end Laid

/-! ## The invariant -/

section
variable {a S n start next : Nat}

theorem Place.behind_drop {o : Nat} (h : Place W c n start next) (ho : o ≤ n) :
    Behind W (start + o) (n - o) next := by
  cases h with
  | behind => exact .inl (by omega)
  | late hc => exact .inr (by omega)
  | early => exact .inl (by omega)

theorem Behind.place (h : Behind W a S c) (hp : Place W c n start next) :
    Behind W a (S + n) next := by
  unfold Behind at h ⊢
  cases hp with
  | behind => omega
  | late hc => exact .inr (by omega)
  | early hc => exact .inr (by omega)

/-- A record within the window lies behind the one at `a`, or before it. -/
theorem Behind.apart (h : Behind W a S c) (hp : Place W c n start next) (hw : S + n ≤ W) :
    a + S ≤ start ∨ start + n ≤ a := by
  unfold Behind at h
  cases hp with
  | behind => omega
  | late hc => omega
  | early hc => omega

end

/-- The records behind one at `a`, by induction over them. -/
theorem Laid.apart {a S k : Nat} {y : Span} (h : Laid W c xs c') (hb : Behind W a S c)
    (hy : xs[k]? = some y) (hw : S + Span.total (xs.take (k + 1)) ≤ W) :
    a + S ≤ y.start ∨ y.stop ≤ a := by
  induction xs generalizing c S k with
  | nil => simp at hy
  | cons x xs ih =>
    obtain ⟨c₁, hx, hrest⟩ := h
    rw [List.take_succ_cons, Span.total_cons] at hw
    cases k with
    | zero =>
      obtain rfl : x = y := by simpa using hy
      exact hb.apart hx (by omega)
    | succ k =>
      have := ih hrest (hb.place hx) (by simpa using hy) (by omega)
      omega

/-- The bytes of a record from its byte `o` on, and a record at most `W` bytes from there. -/
theorem Laid.disj_drop (h : Laid W c xs c') {i j o : Nat} {x y : Span} (hij : i < j)
    (hx : xs[i]? = some x) (hy : xs[j]? = some y) (ho : o ≤ x.length)
    (hw : Span.total ((xs.drop i).take (j + 1 - i)) ≤ W + o) : (x.drop o).Disj y := by
  obtain ⟨c₁, hd⟩ := h.drop i
  have hi : i < xs.length := (List.getElem?_eq_some_iff.1 hx).1
  obtain ⟨zs, hz⟩ : ∃ zs, xs.drop i = x :: zs := by
    refine ⟨xs.drop (i + 1), ?_⟩
    rw [List.drop_eq_getElem_cons hi, (List.getElem?_eq_some_iff.1 hx).2]
  obtain ⟨k, rfl⟩ : ∃ k, j = i + 1 + k := ⟨j - (i + 1), by omega⟩
  have hk : zs[k]? = some y := by
    have : (xs.drop i)[k + 1]? = some y := by rw [List.getElem?_drop, ← hy]; congr 1; omega
    simpa [hz] using this
  rw [hz] at hd hw
  rw [show i + 1 + k + 1 - i = k + 1 + 1 by omega, List.take_succ_cons, Span.total_cons] at hw
  obtain ⟨c₂, hp, hrest⟩ := hd
  have hw' : x.length - o + Span.total (zs.take (k + 1)) ≤ W := by omega
  exact hrest.apart (hp.behind_drop ho) hk hw'

/-- **The window of a ring.** -/
theorem Laid.windowed (h : Laid W c xs c') : Windowed W xs :=
  fun _ _ _ _ hij hx hy hw => h.disj_drop hij hx hy (Nat.zero_le _) hw

end Ring

end Lib
