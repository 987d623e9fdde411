import Mathlib.Data.List.Basic
import Mathlib.Algebra.Order.Ring.Nat

/-!
# Words as vectors over the field of two elements

Exclusive or is the addition of words. A function of words that respects it is `Linear`; two linear
functions that agree on the words with one bit are equal (`Linear.ext`). `span basis i` is the sum of
the words of `basis` whose bit in `i` is set: the entries of a table that is indexed by a word and
respects addition (`span_xor`).
-/

namespace Lib

variable {u v w : Nat}

def Linear (f : BitVec v → BitVec w) : Prop := ∀ x y, f (x ^^^ y) = f x ^^^ f y

namespace Linear

variable {f g : BitVec v → BitVec w}

theorem eq (hf : Linear f) (x y : BitVec v) : f (x ^^^ y) = f x ^^^ f y := hf x y

theorem zero (hf : Linear f) : f 0#v = 0#w := by
  have h := hf 0#v 0#v
  rwa [BitVec.xor_self, BitVec.xor_self] at h

theorem comp {f : BitVec v → BitVec w} {g : BitVec u → BitVec v} (hf : Linear f) (hg : Linear g) :
    Linear fun x => f (g x) := fun x y => by
  simp only [hg x y, hf (g x)]

theorem xor (hf : Linear f) (hg : Linear g) : Linear fun x => f x ^^^ g x := fun x y => by
  simp only [hf x y, hg x y]
  ac_rfl

theorem shiftRight (n : Nat) : Linear fun x : BitVec w => x >>> n := fun x y =>
  BitVec.ushiftRight_xor_distrib x y n

theorem and (m : BitVec w) : Linear fun x => x &&& m := fun x y => by
  ext i hi
  simp only [BitVec.getElem_and, BitVec.getElem_xor]
  cases x[i] <;> cases y[i] <;> simp

/-- A word is zero, or has a highest bit. -/
theorem ext (hf : Linear f) (hg : Linear g) (h : ∀ i < v, f (1#v <<< i) = g (1#v <<< i)) : f = g := by
  -- by induction on a bound of the bits that are set
  have key : ∀ k ≤ v, ∀ x : BitVec v, x.toNat < 2 ^ k → f x = g x := by
    intro k
    induction k with
    | zero =>
      intro _ x hx
      obtain rfl : x = 0#v := BitVec.eq_of_toNat_eq (by simpa using hx)
      rw [hf.zero, hg.zero]
    | succ k ih =>
      intro hk x hx
      by_cases hbit : x.toNat < 2 ^ k
      · exact ih (by omega) x hbit
      · have hone : (1#v <<< k).toNat = 2 ^ k := by
          have hlt : 2 ^ k < 2 ^ v := Nat.pow_lt_pow_right (by decide) hk
          have h1 : 1 < 2 ^ v := Nat.one_lt_two_pow (by omega)
          rw [BitVec.toNat_shiftLeft, BitVec.toNat_ofNat, Nat.mod_eq_of_lt h1, Nat.one_shiftLeft,
            Nat.mod_eq_of_lt hlt]
        have hlow : (x ^^^ 1#v <<< k).toNat < 2 ^ k := by
          rw [BitVec.toNat_xor, hone]
          apply Nat.lt_pow_two_of_testBit
          intro j hj
          rw [Nat.testBit_xor, Nat.testBit_two_pow]
          rcases Nat.eq_or_lt_of_le hj with rfl | hlt
          · simp [Nat.testBit_of_two_pow_le_and_two_pow_add_one_gt (Nat.le_of_not_lt hbit) hx]
          · simp [Nat.testBit_lt_two_pow (Nat.lt_of_lt_of_le hx (Nat.pow_le_pow_right (by decide) hlt)),
              Nat.ne_of_lt hlt]
        have hx' : x = (x ^^^ 1#v <<< k) ^^^ 1#v <<< k := by
          rw [BitVec.xor_assoc, BitVec.xor_self, BitVec.xor_zero]
        rw [hx', hf, hg, ih (by omega) _ hlow, h k hk]
  funext x
  exact key v le_rfl x x.isLt

end Linear

/-- The sum of the words of `basis` whose bit in `i` is set. -/
def span : List (BitVec w) → Nat → BitVec w
  | [], _ => 0#w
  | e :: es, i => (if i.testBit 0 then e else 0#w) ^^^ span es (i / 2)

theorem span_xor (basis : List (BitVec w)) (i j : Nat) :
    span basis (i ^^^ j) = span basis i ^^^ span basis j := by
  induction basis generalizing i j with
  | nil => simp [span]
  | cons e es ih =>
    have hhalf : (i ^^^ j) / 2 = i / 2 ^^^ j / 2 := Nat.xor_div_two
    have hbit : (if (i ^^^ j).testBit 0 then e else 0#w) =
        (if i.testBit 0 then e else 0#w) ^^^ (if j.testBit 0 then e else 0#w) := by
      rw [Nat.testBit_xor]
      cases i.testBit 0 <;> cases j.testBit 0 <;> simp
    simp only [span, hhalf, ih, hbit]
    ac_rfl

theorem Linear.span (basis : List (BitVec w)) : Linear fun x : BitVec v => span basis x.toNat :=
  fun x y => by simp only [BitVec.toNat_xor, span_xor]

end Lib
