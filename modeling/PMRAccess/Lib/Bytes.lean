import Mathlib.Algebra.Order.Ring.Nat
import Mathlib.Data.List.Basic

/-!
# Byte buffers and little-endian words

A buffer is a total function from addresses to bytes (`Buf`); `read` and `write` move byte strings
in and out of it. The lemmas say what a read returns after a write, inside the written range
(`read_write_sub`) and outside it (`read_write_of_disjoint`), and how reads split (`read_add`,
`read_eq_append`). `leBytes n v` are the `n` low bytes of `v`, least significant first.
-/

namespace Lib

abbrev Bytes := List UInt8

/-- Memory: the byte at every address. -/
abbrev Buf := Nat → UInt8

namespace Buf

/-- The `n` bytes from address `a` on. -/
def read (b : Buf) (a n : Nat) : Bytes := (List.range n).map fun i => b (a + i)

/-- The buffer with `bs` stored from address `a` on. -/
def write (b : Buf) (a : Nat) (bs : Bytes) : Buf := fun x =>
  if a ≤ x ∧ x < a + bs.length then bs.getD (x - a) 0 else b x

@[simp] theorem length_read (b : Buf) (a n : Nat) : (b.read a n).length = n := by simp [read]

@[simp] theorem read_zero (b : Buf) (a : Nat) : b.read a 0 = [] := rfl

@[simp] theorem getElem_read (b : Buf) (a n i : Nat) (h : i < (b.read a n).length) :
    (b.read a n)[i] = b (a + i) := by simp [read]

theorem read_congr {b b' : Buf} {a a' n : Nat} (h : ∀ i < n, b (a + i) = b' (a' + i)) :
    b.read a n = b'.read a' n := by
  simp only [read]
  exact List.map_congr_left fun i hi => h i (List.mem_range.1 hi)

theorem read_add (b : Buf) (a m n : Nat) : b.read a (m + n) = b.read a m ++ b.read (a + m) n := by
  simp [read, List.range_add, Function.comp_def, Nat.add_assoc]

theorem read_eq_append {b : Buf} {a n : Nat} {xs ys : Bytes} (h : b.read a n = xs ++ ys) :
    b.read a xs.length = xs ∧ b.read (a + xs.length) ys.length = ys := by
  have hn : n = xs.length + ys.length := by simpa using congrArg List.length h
  subst hn
  rw [read_add] at h
  exact List.append_inj h (by simp)

/-- Buffers that agree on a range agree on its front. -/
theorem read_eq_of_le {b b' : Buf} {a m n : Nat} (h : b.read a n = b'.read a n) (hm : m ≤ n) :
    b.read a m = b'.read a m := by
  obtain ⟨k, rfl⟩ := Nat.exists_eq_add_of_le hm
  rw [read_add, read_add] at h
  exact (List.append_inj h (by simp)).1

/-- Reading back a part of what was written. -/
theorem read_write_sub {b : Buf} {a i n : Nat} {bs : Bytes} (h : i + n ≤ bs.length) :
    (b.write a bs).read (a + i) n = (bs.drop i).take n := by
  apply List.ext_getElem
  · simp; omega
  intro j hj hj'
  simp only [length_read] at hj
  have h1 : a ≤ a + i + j ∧ a + i + j < a + bs.length := by omega
  have h2 : a + i + j - a = i + j := by omega
  simp only [getElem_read, write, h1, and_self, ↓reduceIte, h2, List.getElem_take,
    List.getElem_drop]
  rw [List.getD_eq_getElem?_getD, List.getElem?_eq_getElem (by omega), Option.getD_some]

theorem read_write_self (b : Buf) (a : Nat) (bs : Bytes) :
    (b.write a bs).read a bs.length = bs := by
  simpa using read_write_sub (b := b) (a := a) (show 0 + bs.length ≤ bs.length by omega)

theorem write_of_outside {b : Buf} {a x : Nat} {bs : Bytes} (h : x < a ∨ a + bs.length ≤ x) :
    b.write a bs x = b x := by
  simp only [write]
  rw [if_neg (by omega)]

/-- Two writes, one behind the other. -/
theorem write_append (b : Buf) (a : Nat) (xs ys : Bytes) :
    (b.write a xs).write (a + xs.length) ys = b.write a (xs ++ ys) := by
  funext i
  simp only [write, List.length_append, List.getD_eq_getElem?_getD, List.getElem?_append]
  by_cases h1 : a + xs.length ≤ i ∧ i < a + xs.length + ys.length
  · rw [if_pos h1, if_pos (by omega), if_neg (by omega), Nat.sub_add_eq]
  · rw [if_neg h1]
    by_cases h2 : a ≤ i ∧ i < a + xs.length
    · rw [if_pos h2, if_pos (by omega), if_pos (by omega)]
    · rw [if_neg h2, if_neg (by omega)]

/-- A read outside the written range is unchanged. -/
theorem read_write_of_disjoint {b : Buf} {a x n : Nat} {bs : Bytes}
    (h : x + n ≤ a ∨ a + bs.length ≤ x) : (b.write a bs).read x n = b.read x n :=
  read_congr fun i hi => write_of_outside (by omega)

end Buf

/-! ## Little-endian words -/

/-- The `n` low bytes of `v`, least significant first. -/
def leBytes : Nat → Nat → Bytes
  | 0, _ => []
  | n + 1, v => UInt8.ofNat v :: leBytes n (v / 256)

/-- The number whose bytes, least significant first, are given. -/
def ofLe : Bytes → Nat
  | [] => 0
  | b :: bs => b.toNat + 256 * ofLe bs

@[simp] theorem length_leBytes (n v : Nat) : (leBytes n v).length = n := by
  induction n generalizing v with
  | zero => rfl
  | succ n ih => simp [leBytes, ih]

theorem ofLe_leBytes (n v : Nat) : ofLe (leBytes n v) = v % 256 ^ n := by
  induction n generalizing v with
  | zero => simp [leBytes, ofLe, Nat.mod_one]
  | succ n ih =>
    have hb : (UInt8.ofNat v).toNat = v % 256 := UInt8.toNat_ofNat'
    rw [leBytes, ofLe, ih, hb, Nat.pow_succ', Nat.mod_mul]

end Lib
