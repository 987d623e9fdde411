import PMRAccess.Lib.Bytes

/-!
# Words in memory and in network order

A host stores a word of `n` bytes with its least or its most significant byte first (`store`,
`load`). Network order is the second, so a little-endian host swaps a word before it is stored for
the network and after it is loaded from it (`hton`, which is its own inverse). `load_store_hton`: a
word that goes through memory in this way arrives, whatever the two hosts are.
-/

namespace Lib

theorem ofLe_lt (bs : Bytes) : ofLe bs < 256 ^ bs.length := by
  induction bs with
  | nil => exact Nat.one_pos
  | cons b bs ih =>
    have hb : b.toNat < 256 := b.toNat_lt
    rw [ofLe, List.length_cons, Nat.pow_succ]
    omega

theorem leBytes_ofLe (bs : Bytes) : leBytes bs.length (ofLe bs) = bs := by
  induction bs with
  | nil => rfl
  | cons b bs ih =>
    have hb : b.toNat < 256 := b.toNat_lt
    have hmod : (b.toNat + 256 * ofLe bs) % 256 = b.toNat := by omega
    have hdiv : (b.toNat + 256 * ofLe bs) / 256 = ofLe bs := by omega
    rw [List.length_cons, leBytes, ofLe, hdiv, ih]
    congr 1
    apply UInt8.toNat_inj.1
    rw [UInt8.toNat_ofNat', hmod]

/-- A word of `n` bytes with its bytes in the opposite order. -/
def bswap (n v : Nat) : Nat := ofLe (leBytes n v).reverse

inductive ByteOrder
  | little | big
  deriving DecidableEq, Repr

namespace ByteOrder

/-- A word of `n` bytes in the memory of a host. -/
def store (e : ByteOrder) (n v : Nat) : Bytes :=
  match e with
  | little => leBytes n v
  | big => (leBytes n v).reverse

def load (e : ByteOrder) (bs : Bytes) : Nat :=
  match e with
  | little => ofLe bs
  | big => ofLe bs.reverse

/-- From host order to network order, and back. -/
def hton (e : ByteOrder) (n v : Nat) : Nat :=
  match e with
  | little => bswap n v
  | big => v

@[simp] theorem length_store (e : ByteOrder) (n v : Nat) : (e.store n v).length = n := by
  cases e <;> simp [store]

/-- In memory a word in network order has its most significant byte first. -/
theorem store_hton (e : ByteOrder) (n v : Nat) : e.store n (e.hton n v) = (leBytes n v).reverse := by
  cases e with
  | little =>
    have h := leBytes_ofLe (leBytes n v).reverse
    rwa [List.length_reverse, length_leBytes] at h
  | big => rfl

theorem hton_load (e : ByteOrder) (bs : Bytes) : e.hton bs.length (e.load bs) = ofLe bs.reverse := by
  cases e with
  | little =>
    show ofLe (leBytes bs.length (ofLe bs)).reverse = ofLe bs.reverse
    rw [leBytes_ofLe]
  | big => rfl

theorem hton_lt (e : ByteOrder) {n v : Nat} (hv : v < 256 ^ n) : e.hton n v < 256 ^ n := by
  cases e with
  | little =>
    have h := ofLe_lt (leBytes n v).reverse
    rwa [List.length_reverse, length_leBytes] at h
  | big => exact hv

theorem load_lt (e : ByteOrder) (bs : Bytes) : e.load bs < 256 ^ bs.length := by
  cases e with
  | little => exact ofLe_lt bs
  | big =>
    have h := ofLe_lt bs.reverse
    rwa [List.length_reverse] at h

/-- From one host's register to another's, with the truncations of fixed-width words. -/
theorem load_store_hton (e e' : ByteOrder) {n v : Nat} (hv : v < 256 ^ n) :
    e'.hton n (e'.load (e.store n (e.hton n v % 256 ^ n)) % 256 ^ n) % 256 ^ n = v := by
  have hload := e'.load_lt (leBytes n v).reverse
  have h := hton_load e' (leBytes n v).reverse
  rw [List.length_reverse, length_leBytes] at hload h
  rw [List.reverse_reverse, ofLe_leBytes, Nat.mod_eq_of_lt hv] at h
  rw [Nat.mod_eq_of_lt (e.hton_lt hv), store_hton, Nat.mod_eq_of_lt hload, h]
  exact Nat.mod_eq_of_lt hv

end ByteOrder

end Lib
