import PMRAccess.Request

/-!
# Generated values (`include/generator.h`)

`BuildValue` pads `"VALUE_" + key` to the length asked for, with pieces of `VALUE_POOL`. Lengths are
`uint32_t` and the loop's counter is an `int`, taken to wrap around; what is left to pad is computed
without a check, so it wraps around when the prefix is longer than the length. A piece has up to
`sizeof(VALUE_POOL)` bytes, and the last of these is the NUL behind the characters.

`length_buildValue` and `strlen_buildValue`: how long a value is, and how much of it is sent.
`buildValue_iff`: both are as asked for exactly if the prefix is at most the length, and the padding
shorter than the pool.
-/

namespace PMRAccess

open Lib

def asciiBytes (s : String) : Bytes := s.toList.map fun ch => UInt8.ofNat ch.toNat

/-- The literals that make up `VALUE_POOL`. -/
def poolLiterals : List String := [
  "l9hd62^dfh.pxrC6ZU79OnfCZ06DsNXWY3U4dt1JTGQVvylBdZSlHWXC4PokCxsMdjv8xRptFMMQyH12DEr7Zur",
  "tZpsyreMmPwuw7WMRnoN5wAYWtkqDwXyQlYb4RgtSc4xsonpTx2UhIUi15oJTx1CXAhmECacCQf4eeJ9Utus0N",
  "mKgEFV8qYDsNtJ21TkjCyCDhVIATkEugCw1BfNIB9AZDGiqXc0llp4rlJPl4bIG2QC4La3M1oh3yIGkolpdoYV",
  "er1dc9EfQz88q5Hv00g53Q3H6jcgicoY8YW5K4josd2e53ikesQi2kzqvTI9xxM5wtFexkFm8wFdTf37Hz204w",
  "fQErGZkdMnRxXJ5EJ627e7zuFuVtazb0L65B3nU5R9tyUl2bTZiDcakK9evrTXoTkbkGjkCOiMSTNCzlUZCxof",
  "jYQCLusRkXEm0CNVuifTnytctwLfKjwob4hJ0WxlQN9FV9Mm9zT61EQ8zEMrqr6hf7XMqhcQR7DWAKaspUaU6h",
  "oP2w3t3MktVaBp6MgS6Apbkb7EsihETHHqKFkKMCkYBbKfgsq7Jy49T1Wx2UJsD3XX03kVBbqRWmrjIKzqQEnN",
  "sd0f-0d09540936/.f/dfprjetroeijtte0985409609254fj/.s.1293@1!$43556oi5y6o54yi6ikjsdbfsd",
  ")(*7^hdjdyf484*^%$$3\x7b\x7d\x7d\x7b\x7d\x7bPOI)_IUOHH&*^^&$Dydyutd65456djug(*_(*OIHJHKJBKJBKJB@A@A$gggg",
  "+_0-8435906IYWV79364ngkbo5m788*()M<:>><:Lpkdfgmgrtjyoyij5yj657i6509ju560ju560ju0uj0uj6",
  "NvhE8N7yR26fgHncH6QbsI10HyxlvYHKFiMk5nPNDbffueF2xKLzteSd0NazU2APkJWXvBW2oUu8dkZnWMM8TH",
  "vrUoLDWwMdh14MfxwmEQbtGnUHEpRktUB6b7JTJN8IHyxlvYHKFiMk5nPND()bueF2xKLz;|@f,t"]

/-- The characters of `VALUE_POOL`. -/
def poolChars : Bytes := poolLiterals.flatMap asciiBytes

/-- `VALUE_POOL` is an array of `sizeof(VALUE_POOL)` bytes, with the NUL of its initializer. -/
def valuePool : Bytes := poolChars ++ [0]

-- A literal is an `ofList`, and to decode its characters would take the kernel long.
theorem asciiBytes_ofList (cs : List Char) :
    asciiBytes (String.ofList cs) = cs.map fun ch => UInt8.ofNat ch.toNat := by
  rw [asciiBytes, String.toList_ofList]

theorem ofList_nulFree (cs : List Char) (h : 0 ∉ cs.map fun ch => UInt8.ofNat ch.toNat) :
    0 ∉ asciiBytes (String.ofList cs) := by
  rwa [asciiBytes_ofList]

theorem length_literals {cs : List Char} {n : Nat} {ls : List String}
    (hls : (ls.flatMap asciiBytes).length = n) :
    ((String.ofList cs :: ls).flatMap asciiBytes).length = cs.length + n := by
  rw [List.flatMap_cons, List.length_append, asciiBytes_ofList, List.length_map, hls]

theorem length_poolChars : poolChars.length = 1023 := by
  have hpool : poolChars.length = 87 + (86 + (86 + (86 + (86 + (86 + (86 + (86 + (86 + (86 +
      (86 + (76 + 0))))))))))) := by
    iterate 12 refine length_literals ?_
    rfl
  exact hpool

theorem poolChars_nulFree : 0 ∉ poolChars := by
  have hnul : ∀ s ∈ poolLiterals, 0 ∉ asciiBytes s := by
    rw [poolLiterals]
    iterate 12 refine List.forall_mem_cons.2 ⟨ofList_nulFree _ (by decide +kernel), ?_⟩
    exact List.forall_mem_nil _
  intro h0
  obtain ⟨s, hs, h0⟩ := List.mem_flatMap.1 h0
  exact hnul s hs h0

theorem length_valuePool : valuePool.length = 1024 := by
  rw [valuePool, List.length_append, length_poolChars]
  rfl

/-- A piece is NUL-free if it is shorter than the pool. -/
theorem take_nulFree {n : Nat} (h : n < 1024) : 0 ∉ valuePool.take n := by
  have hn : n ≤ poolChars.length := by
    rw [length_poolChars]
    omega
  rw [valuePool, List.take_append_of_le_length hn]
  exact fun h0 => poolChars_nulFree (List.mem_of_mem_take h0)

/-! ## The loop -/

/-- What is left of `length`, in `uint32_t`. -/
def remaining (length : UInt32) (curLength : Int32) : Nat := (length - curLength.toUInt32).toNat

def cutLen (length : UInt32) (curLength : Int32) : Nat :=
  min (remaining length curLength) valuePool.length

section
variable {length : UInt32} {curLength : Int32}

theorem remaining_eq (h : curLength.toUInt32 < length) :
    remaining length curLength = length.toNat - curLength.toUInt32.toNat := by
  exact UInt32.toNat_sub_of_le _ _ (UInt32.le_of_lt h)

theorem cutLen_le (length : UInt32) (curLength : Int32) :
    cutLen length curLength ≤ remaining length curLength := Nat.min_le_left _ _

/-- The counter behind a round. -/
theorem toNat_add_cutLen (h : curLength.toUInt32 < length) :
    (curLength + Int32.ofNat (cutLen length curLength)).toUInt32.toNat =
      curLength.toUInt32.toNat + cutLen length curLength := by
  have hlt := UInt32.lt_iff_toNat_lt.1 h
  have hr := remaining_eq h
  have hcut := cutLen_le length curLength
  have hlen := length.toNat_lt
  rw [Int32.toUInt32_add, Int32.toUInt32_ofNat', UInt32.toNat_add, UInt32.toNat_ofNat']
  omega

/-- A round does not pass `length`. -/
theorem add_cutLen_le (h : curLength.toUInt32 < length) :
    (curLength + Int32.ofNat (cutLen length curLength)).toUInt32 ≤ length := by
  have hlt := UInt32.lt_iff_toNat_lt.1 h
  have hr := remaining_eq h
  have hcut := cutLen_le length curLength
  rw [UInt32.le_iff_toNat_le, toNat_add_cutLen h]
  omega

/-- It takes `cut_len` off what is left. -/
theorem remaining_add (h : curLength.toUInt32 < length) :
    remaining length (curLength + Int32.ofNat (cutLen length curLength)) =
      remaining length curLength - cutLen length curLength := by
  rw [remaining_eq h, remaining, UInt32.toNat_sub_of_le _ _ (add_cutLen_le h), toNat_add_cutLen h]
  omega

theorem cutLen_pos (h : curLength.toUInt32 < length) : 0 < cutLen length curLength := by
  have hlt := UInt32.lt_iff_toNat_lt.1 h
  rw [cutLen, remaining_eq h, length_valuePool]
  omega

end

/-- The padding loop; the comparison converts `cur_length` to `uint32_t`. -/
def buildLoop (length : UInt32) (curLength : Int32) (result : Bytes) : Bytes :=
  if curLength.toUInt32 < length then
    buildLoop length (curLength + Int32.ofNat (cutLen length curLength))
      (result ++ valuePool.take (cutLen length curLength))
  else result
termination_by remaining length curLength
decreasing_by
  rename_i h
  rw [remaining_add h]
  have h1 := cutLen_pos h
  have h2 := cutLen_le length curLength
  omega

/-- `BuildValue`. -/
def buildValue (length : UInt32) (key : Bytes) : Bytes :=
  let result := asciiBytes "VALUE_" ++ key
  buildLoop (length - UInt32.ofNat result.length) 0 result

section
variable {length : UInt32} {curLength : Int32} {result key : Bytes}

theorem remaining_zero (h : ¬ curLength.toUInt32 < length) (hle : curLength.toUInt32 ≤ length) :
    remaining length curLength = 0 := by
  have hge := UInt32.lt_iff_toNat_lt.not.1 h
  rw [remaining, UInt32.toNat_sub_of_le _ _ hle]
  omega

theorem length_cut (length : UInt32) (curLength : Int32) :
    (valuePool.take (cutLen length curLength)).length = cutLen length curLength := by
  rw [List.length_take]
  exact Nat.min_eq_left (Nat.min_le_right _ _)

theorem length_buildLoop (hle : curLength.toUInt32 ≤ length) :
    (buildLoop length curLength result).length = result.length + remaining length curLength := by
  fun_induction buildLoop with
  | case1 curLength result h ih =>
    have hcut := cutLen_le length curLength
    rw [ih (add_cutLen_le h), List.length_append, length_cut, remaining_add h]
    omega
  | case2 curLength result h =>
    rw [remaining_zero h hle]
    rfl

theorem prefix_buildLoop (length : UInt32) (curLength : Int32) (result : Bytes) :
    result <+: buildLoop length curLength result := by
  fun_induction buildLoop with
  | case1 curLength result h ih => exact (List.prefix_append _ _).trans ih
  | case2 curLength result h => exact List.prefix_rfl

/-- The first round. -/
theorem prefix_first (length : UInt32) (result : Bytes) :
    result ++ valuePool.take (cutLen length 0) <+: buildLoop length 0 result := by
  by_cases h : (0 : Int32).toUInt32 < length
  · rw [buildLoop, if_pos h]
    exact prefix_buildLoop _ _ _
  · have h0 : cutLen length 0 = 0 := by
      rw [cutLen, remaining_zero h (UInt32.zero_le)]
      exact Nat.zero_min _
    rw [h0, List.take_zero, List.append_nil]
    exact prefix_buildLoop _ _ _

/-! ## Values -/

/-- How much is padded. -/
def padding (length : UInt32) (key : Bytes) : Nat :=
  (length - UInt32.ofNat (asciiBytes "VALUE_" ++ key).length).toNat

theorem length_start (key : Bytes) : (asciiBytes "VALUE_" ++ key).length = 6 + key.length := by
  rw [List.length_append]
  rfl

theorem start_nulFree (h : 0 ∉ key) : 0 ∉ asciiBytes "VALUE_" ++ key := by
  rw [List.mem_append, not_or]
  exact ⟨by decide, h⟩

theorem remaining_start (length : UInt32) (key : Bytes) :
    remaining (length - UInt32.ofNat (asciiBytes "VALUE_" ++ key).length) 0 = padding length key := by
  rw [remaining, Int32.toUInt32_ofNat, UInt32.sub_zero]
  rfl

theorem length_buildValue (length : UInt32) (key : Bytes) :
    (buildValue length key).length = 6 + key.length + padding length key := by
  have h0 : (0 : Int32).toUInt32 ≤ length - UInt32.ofNat (asciiBytes "VALUE_" ++ key).length :=
    UInt32.zero_le
  rw [buildValue, length_buildLoop h0, remaining_start, length_start]

/-- The value starts with what is padded in the first round; if that is less than the pool, there is
no other. -/
theorem buildValue_cases (length : UInt32) (key : Bytes) :
    (padding length key < 1024 ∧
      buildValue length key = asciiBytes "VALUE_" ++ key ++ valuePool.take (padding length key)) ∨
    (1024 ≤ padding length key ∧
      ∃ rest, buildValue length key = asciiBytes "VALUE_" ++ key ++ (valuePool ++ rest)) := by
  have hpre : asciiBytes "VALUE_" ++ key ++ valuePool.take (min (padding length key) 1024) <+:
      buildValue length key := by
    have := prefix_first (length - UInt32.ofNat (asciiBytes "VALUE_" ++ key).length)
      (asciiBytes "VALUE_" ++ key)
    rwa [cutLen, remaining_start, length_valuePool] at this
  by_cases h : padding length key < 1024
  · rw [Nat.min_eq_left (Nat.le_of_lt h)] at hpre
    refine .inl ⟨h, (hpre.eq_of_length ?_).symm⟩
    rw [length_buildValue, List.length_append, length_start, List.length_take, length_valuePool]
    omega
  · rw [Nat.min_eq_right (by omega), List.take_of_length_le (by rw [length_valuePool])] at hpre
    obtain ⟨rest, hrest⟩ := hpre
    exact .inr ⟨by omega, rest, by rw [← hrest, List.append_assoc]⟩

/-- `strlen` stops at the first NUL. -/
theorem strlen_append_nul {a : Bytes} (h : 0 ∉ a) (b : Bytes) :
    strlen (a ++ 0 :: b) = a.length := by
  have ha : ∀ x ∈ a, decide (x ≠ 0) = true := by
    intro x hx
    rw [decide_eq_true_eq]
    rintro rfl
    exact h hx
  rw [strlen, List.takeWhile_append_of_pos ha, List.takeWhile_cons_of_neg (by simp), List.append_nil]

theorem buildValue_nulFree_iff (h : 0 ∉ key) (length : UInt32) :
    0 ∉ buildValue length key ↔ padding length key < 1024 := by
  rcases buildValue_cases length key with ⟨hp, heq⟩ | ⟨hp, rest, heq⟩
  · refine iff_of_true ?_ hp
    rw [heq, List.mem_append, not_or]
    exact ⟨start_nulFree h, take_nulFree hp⟩
  · refine iff_of_false ?_ (by omega)
    rw [not_not, heq, valuePool]
    exact List.mem_append_right _ (List.mem_append_left _ (List.mem_append_right _ (.head _)))

/-- How much of a value is sent: up to the first NUL of the pool. -/
theorem strlen_buildValue (h : 0 ∉ key) (length : UInt32) :
    strlen (buildValue length key) = 6 + key.length + min (padding length key) 1023 := by
  rcases buildValue_cases length key with ⟨hp, -⟩ | ⟨hp, rest, heq⟩
  · rw [strlen_of_nulFree ((buildValue_nulFree_iff h length).2 hp), length_buildValue]
    omega
  · have heq' : buildValue length key =
        (asciiBytes "VALUE_" ++ key ++ poolChars) ++ 0 :: rest := by
      rw [heq, valuePool, List.append_assoc _ [0], List.append_assoc _ poolChars]
      rfl
    have h0 : 0 ∉ asciiBytes "VALUE_" ++ key ++ poolChars := by
      rw [List.mem_append, not_or]
      exact ⟨start_nulFree h, poolChars_nulFree⟩
    rw [heq', strlen_append_nul h0, List.length_append, length_start, length_poolChars]
    omega

/-- What a value is for: it has the size asked for, or that of the prefix if this is longer, and no
NUL, so that its size is what `SendWrite` computes. -/
def Sized (length : UInt32) (key : Bytes) : Prop :=
  (buildValue length key).length = max length.toNat (6 + key.length) ∧
    0 ∉ buildValue length key ∧
    (max length.toNat (6 + key.length) < 65536 →
      len16 (buildValue length key) = max length.toNat (6 + key.length))

theorem padding_of_le (h : 6 + key.length ≤ length.toNat) :
    padding length key = length.toNat - (6 + key.length) := by
  have hlt := length.toNat_lt
  rw [padding, UInt32.toNat_sub, UInt32.toNat_ofNat', length_start]
  omega

theorem padding_zero_iff (h : length.toNat < 6 + key.length) :
    padding length key = 0 ↔ 2 ^ 32 ∣ 6 + key.length - length.toNat := by
  have hlt := length.toNat_lt
  rw [padding, UInt32.toNat_sub, UInt32.toNat_ofNat', length_start]
  omega

/-- **The size of generated values**: as asked for exactly if there is nothing to pad, or less than
the pool; for a prefix that is longer than the length, this is a matter of wrapping around. -/
theorem buildValue_iff (h : 0 ∉ key) (length : UInt32) :
    Sized length key ↔
      (6 + key.length ≤ length.toNat ∧ length.toNat ≤ 6 + key.length + 1023) ∨
      (length.toNat < 6 + key.length ∧ 2 ^ 32 ∣ 6 + key.length - length.toNat) := by
  have hnul := buildValue_nulFree_iff h length
  have hlen := length_buildValue length key
  have hstr : ∀ m, 0 ∉ buildValue length key → (buildValue length key).length = m → m < 65536 →
      len16 (buildValue length key) = m := by
    rintro m h0 rfl hm
    exact (take_len16 h0 hm).1
  by_cases hle : 6 + key.length ≤ length.toNat
  · have hpad := padding_of_le hle
    constructor
    · rintro ⟨-, h0, -⟩
      have := hnul.1 h0
      omega
    · intro hc
      have h0 := hnul.2 (by omega)
      have hsize : (buildValue length key).length = max length.toNat (6 + key.length) := by omega
      exact ⟨hsize, h0, hstr _ h0 hsize⟩
  · have hpad := padding_zero_iff (Nat.lt_of_not_le hle)
    constructor
    · rintro ⟨hsize, -, -⟩
      exact .inr ⟨by omega, hpad.1 (by omega)⟩
    · rintro (⟨hc, -⟩ | ⟨-, hdvd⟩)
      · exact absurd hc hle
      · have hzero := hpad.2 hdvd
        have h0 := hnul.2 (by omega)
        have hsize : (buildValue length key).length = max length.toNat (6 + key.length) := by omega
        exact ⟨hsize, h0, hstr _ h0 hsize⟩

/-- A value of 1000 bytes for a key of 16. -/
theorem buildValue_iff_thousand : Sized 1000 (asciiBytes "KEY_000000000001") :=
  (buildValue_iff (by decide) 1000).2 (by decide)

/-- Of a value of 2024 bytes for such a key `SendWrite` sends 1045. -/
theorem buildValue_truncated : ¬ Sized 2024 (asciiBytes "KEY_000000000001") ∧
    (buildValue 2024 (asciiBytes "KEY_000000000001")).length = 2024 ∧
    len16 (buildValue 2024 (asciiBytes "KEY_000000000001")) = 1045 := by
  have h0 : 0 ∉ asciiBytes "KEY_000000000001" := by decide
  have hpad : padding 2024 (asciiBytes "KEY_000000000001") = 2002 := by decide
  have hlen : len16 (buildValue 2024 (asciiBytes "KEY_000000000001")) = 1045 := by
    rw [len16, strlen_buildValue h0, hpad]
    decide
  refine ⟨fun hs => ?_, ?_, hlen⟩
  · have := hs.2.2 (by decide)
    rw [hlen] at this
    exact absurd this (by decide)
  · rw [length_buildValue, hpad]
    decide

end

end PMRAccess
