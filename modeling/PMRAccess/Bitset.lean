import Mathlib.Algebra.GroupWithZero.Nat
import Mathlib.Data.List.Basic

/-!
# The atomic bitset (`frontend/pmr/atomicbitset.h`)

`AtomicBitset`: `size` bits in 64-bit blocks. `get`, `set` and `clear` are the single atomic
operations (a load, a `fetch_or`, a `fetch_and`); each returns `none` where its assertion
`idx < _size` fails, or the block of `idx` does not exist. `bit` is the value of one bit; `get_eq`,
`set_eq` and `clear_eq` say the operations are reads and writes of independent booleans.
`addressed`: the blocks exist unless `size` is so close to 2^64 that their number wraps around.
-/

namespace PMRAccess

def bitsPerBlock : Nat := 64

def blockIndex (bit : Nat) : Nat := bit / bitsPerBlock

def bitOffset (bit : Nat) : Nat := bit % bitsPerBlock

/-- `kNumBlocks`, which is computed in `size_t`. -/
def numBlocks (n : Nat) : Nat := (n + bitsPerBlock - 1) % 2 ^ 64 / bitsPerBlock

structure AtomicBitset where
  size : Nat
  data : List (BitVec 64)
  blocks : data.length = numBlocks size

namespace AtomicBitset

/-- All bits are initially false. -/
def new (n : Nat) : AtomicBitset :=
  ⟨n, List.replicate (numBlocks n) 0, by simp⟩

def mask (idx : Nat) : BitVec 64 := 1#64 <<< bitOffset idx

variable (b : AtomicBitset) (idx : Nat)

/-- The assertion of the operations holds, and the block they access exists. -/
def Addressed : Prop := idx < b.size ∧ blockIndex idx < b.data.length

instance : Decidable (b.Addressed idx) :=
  inferInstanceAs (Decidable (idx < b.size ∧ blockIndex idx < b.data.length))

/-- The block `idx` lies in. -/
def block : BitVec 64 := b.data.getD (blockIndex idx) 0

/-- The bitset with another block in place of that of `idx`. -/
def setBlock (w : BitVec 64) : AtomicBitset :=
  ⟨b.size, b.data.set (blockIndex idx) w, by simp [b.blocks]⟩

def get : Option Bool :=
  if b.Addressed idx then some (b.block idx &&& mask idx != 0) else none

/-- The previous value of the bit and the bitset with the bit set. -/
def set : Option (Bool × AtomicBitset) :=
  if b.Addressed idx then
    some (b.block idx &&& mask idx != 0, b.setBlock idx (b.block idx ||| mask idx))
  else none

/-- The previous value of the bit and the bitset with the bit cleared. -/
def clear : Option (Bool × AtomicBitset) :=
  if b.Addressed idx then
    some (b.block idx &&& mask idx != 0, b.setBlock idx (b.block idx &&& ~~~mask idx))
  else none

/-- The value of bit `idx`. -/
def bit : Bool := (b.block idx).getLsbD (bitOffset idx)

/-! ## One bit -/

theorem bitOffset_lt : bitOffset idx < 64 := Nat.mod_lt _ (by decide)

theorem getLsbD_mask (j : Nat) : (mask idx).getLsbD j = decide (j = bitOffset idx) := by
  have := bitOffset_lt idx
  simp only [mask, BitVec.getLsbD_shiftLeft, BitVec.getLsbD_one]
  by_cases h1 : j < bitOffset idx
  · simp [h1]; omega
  · by_cases h2 : j = bitOffset idx
    · subst h2; simp [this]
    · simp [h1, h2]; omega

theorem and_mask_ne_zero (w : BitVec 64) :
    (w &&& mask idx != 0) = w.getLsbD (bitOffset idx) := by
  have hlt := bitOffset_lt idx
  cases hb : w.getLsbD (bitOffset idx)
  · have : w &&& mask idx = 0 := by
      apply BitVec.eq_of_getLsbD_eq
      intro j hj
      rw [BitVec.getLsbD_and, getLsbD_mask]
      by_cases h : j = bitOffset idx
      · simp [h, hb]
      · simp [h]
    simp [this]
  · have : w &&& mask idx ≠ 0 := by
      intro h
      have := congrArg (BitVec.getLsbD · (bitOffset idx)) h
      simp [getLsbD_mask, hb] at this
    simpa using this

theorem eq_of_index_offset {i j : Nat} (h1 : blockIndex i = blockIndex j)
    (h2 : bitOffset i = bitOffset j) : i = j := by
  have hi := Nat.div_add_mod i bitsPerBlock
  have hj := Nat.div_add_mod j bitsPerBlock
  simp only [blockIndex, bitOffset] at h1 h2
  rw [← hi, ← hj, h1, h2]

variable {b idx}

theorem addressed (h : idx < b.size) (hs : b.size ≤ 2 ^ 64 - bitsPerBlock) : b.Addressed idx := by
  refine ⟨h, ?_⟩
  rw [b.blocks, blockIndex]
  simp only [numBlocks, bitsPerBlock] at hs ⊢
  omega

theorem bit_setBlock (h : b.Addressed idx) (w : BitVec 64) (j : Nat) :
    (b.setBlock idx w).bit j =
      if blockIndex j = blockIndex idx then w.getLsbD (bitOffset j) else b.bit j := by
  have := h.2
  by_cases hj : blockIndex j = blockIndex idx
  · simp [bit, block, setBlock, hj, this]
  · simp [bit, block, setBlock, hj, List.getElem?_set_ne (Ne.symm hj)]

/-! ## The operations -/

theorem get_eq (h : b.Addressed idx) : b.get idx = some (b.bit idx) := by
  rw [get, if_pos h, and_mask_ne_zero, bit]

theorem set_eq (h : b.Addressed idx) :
    ∃ b', b.set idx = some (b.bit idx, b') ∧ b'.size = b.size ∧
      ∀ j, b'.bit j = if j = idx then true else b.bit j := by
  refine ⟨b.setBlock idx (b.block idx ||| mask idx), by rw [set, if_pos h, and_mask_ne_zero]; rfl,
    rfl, fun j => ?_⟩
  rw [bit_setBlock h]
  by_cases hb : blockIndex j = blockIndex idx
  · rw [if_pos hb, BitVec.getLsbD_or, getLsbD_mask]
    by_cases hj : j = idx
    · simp [hj]
    · have : bitOffset j ≠ bitOffset idx := fun ho => hj (eq_of_index_offset hb ho)
      simp [hj, this, bit, block, hb]
  · have : j ≠ idx := by rintro rfl; exact hb rfl
    simp [hb, this]

theorem clear_eq (h : b.Addressed idx) :
    ∃ b', b.clear idx = some (b.bit idx, b') ∧ b'.size = b.size ∧
      ∀ j, b'.bit j = if j = idx then false else b.bit j := by
  refine ⟨b.setBlock idx (b.block idx &&& ~~~mask idx),
    by rw [clear, if_pos h, and_mask_ne_zero]; rfl, rfl, fun j => ?_⟩
  rw [bit_setBlock h]
  by_cases hb : blockIndex j = blockIndex idx
  · rw [if_pos hb, BitVec.getLsbD_and, BitVec.getLsbD_not, getLsbD_mask]
    by_cases hj : j = idx
    · simp [hj]
    · have : bitOffset j ≠ bitOffset idx := fun ho => hj (eq_of_index_offset hb ho)
      simp [hj, this, bit, block, hb, bitOffset_lt]
  · have : j ≠ idx := by rintro rfl; exact hb rfl
    simp [hb, this]

theorem get_some {val : Bool} (h : b.get idx = some val) : idx < b.size ∧ b.bit idx = val := by
  have hi : b.Addressed idx := by
    by_contra hi
    rw [get, if_neg hi] at h
    cases h
  rw [get_eq hi] at h
  exact ⟨hi.1, Option.some.inj h⟩

/-- What a `set` or `clear` that returned has done. -/
theorem set_some {b' : AtomicBitset} {old : Bool} (h : b.set idx = some (old, b')) :
    idx < b.size ∧ b.bit idx = old ∧ b'.size = b.size ∧
      ∀ j, b'.bit j = if j = idx then true else b.bit j := by
  have hi : b.Addressed idx := by
    by_contra hi
    rw [set, if_neg hi] at h
    cases h
  obtain ⟨b₁, h1, h2, h3⟩ := set_eq hi
  rw [h1, Option.some.injEq, Prod.mk.injEq] at h
  obtain ⟨rfl, rfl⟩ := h
  exact ⟨hi.1, rfl, h2, h3⟩

theorem clear_some {b' : AtomicBitset} {old : Bool} (h : b.clear idx = some (old, b')) :
    idx < b.size ∧ b.bit idx = old ∧ b'.size = b.size ∧
      ∀ j, b'.bit j = if j = idx then false else b.bit j := by
  have hi : b.Addressed idx := by
    by_contra hi
    rw [clear, if_neg hi] at h
    cases h
  obtain ⟨b₁, h1, h2, h3⟩ := clear_eq hi
  rw [h1, Option.some.injEq, Prod.mk.injEq] at h
  obtain ⟨rfl, rfl⟩ := h
  exact ⟨hi.1, rfl, h2, h3⟩

theorem bit_new (n j : Nat) : (new n).bit j = false := by
  simp [bit, block, new, List.getElem?_replicate]
  split <;> simp

end AtomicBitset

end PMRAccess
