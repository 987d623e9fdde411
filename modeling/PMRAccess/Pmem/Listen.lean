import PMRAccess.Rdma.Connect

/-!
# The regions of the PMem server's connections

`PMemServer::Listen` maps the region of a connection at `clerk_num_ * PMEM_BUFSIZE`, a product of
`int`s; the counter starts with whatever its memory held, and is never set back. `offsets_listen`:
the offsets of a run of the loop. `offset_eq`: only the low byte of the counter matters, and from
128 on the offset is negative. `regions_iff`: so the regions are as expected for the first
`128 - clerk_num_ % 256` connections and no more.
-/

namespace PMRAccess.Pmem

open Lib Rdma

/-- What is expected of the offsets given to `mmap`. -/
structure RegionsOk (offsets : List Int) : Prop where
  nonneg : ∀ o ∈ offsets, 0 ≤ o
  disjoint : offsets.Pairwise fun o o' : Int => o + pmemBufSize ≤ o' ∨ o' + pmemBufSize ≤ o

/-- The offset for the `i`-th connection after the counter has shown `n`. -/
def offset (n : Int) (i : Nat) : Int := wrap32 ((n + i) * pmemBufSize)

/-- The low byte of the counter as a signed number of regions. -/
theorem offset_eq (n : Int) (i : Nat) :
    offset n i = (if (n + i) % 256 < 128 then (n + i) % 256 else (n + i) % 256 - 256) * 2 ^ 24 := by
  unfold offset wrap32 Int.bmod pmemBufSize
  dsimp only
  split <;> split <;> omega

theorem offset_wrap (n : Int) (i : Nat) : offset (wrap32 (n + 1)) i = offset n (i + 1) := by
  rw [offset_eq, offset_eq]
  have h : (wrap32 (n + 1) + i) % 256 = (n + (i + 1 : Nat)) % 256 := by
    unfold wrap32 Int.bmod
    push_cast
    split <;> omega
  rw [h]

/-! ## The loop -/

section
variable (s : Listener) (r : Round)

/-- A round that does not exit leads to the next one with the counter bumped. -/
theorem round_offsets :
    (FrontEnd.pmem.round s r).offsets = s.offsets ++ [offset s.clerkNum 0] ∧
      ((FrontEnd.pmem.round s r).exited = false →
        (FrontEnd.pmem.round s r).clerkNum = wrap32 (s.clerkNum + 1)) := by
  have h0 : offset s.clerkNum 0 = wrap32 (s.clerkNum * pmemBufSize) := by simp [offset]
  rw [h0]
  simp only [FrontEnd.round, PMemServer.round]
  cases r.mapped with
  | false => simp
  | true =>
    simp only [if_true, Listener.startClerk]
    cases connectOrExit r with
    | none => simp
    | some x => exact ⟨rfl, fun _ => rfl⟩

theorem offsets_listen (hs : s.exited = false) (rs : List Round) :
    (FrontEnd.pmem.listen s rs).offsets =
      s.offsets ++ (List.range (FrontEnd.pmem.reached rs).length).map (offset s.clerkNum) := by
  induction rs generalizing s with
  | nil => simp [FrontEnd.listen, FrontEnd.reached]
  | cons r rs ih =>
    have hexit := (round_established .pmem s r hs).1
    obtain ⟨ho, hn⟩ := round_offsets s r
    unfold FrontEnd.listen FrontEnd.reached
    by_cases hstop : FrontEnd.pmem.Stops r
    · simp [hexit.2 hstop, hstop, ho, List.range_succ]
    · have hs' : (FrontEnd.pmem.round s r).exited = false := by
        by_contra h
        exact hstop (hexit.1 (by simpa using h))
      simp only [hs', hstop, if_false, Bool.false_eq_true, List.length_cons]
      rw [ih _ hs', ho, hn hs', List.range_succ_eq_map, List.map_cons, List.map_map,
        List.append_assoc]
      have hwrap : offset (wrap32 (s.clerkNum + 1)) = offset s.clerkNum ∘ Nat.succ :=
        funext fun i => offset_wrap s.clerkNum i
      rw [hwrap]
      rfl

end

/-! ## The regions -/

/-- Of `k` connections: the counter must not leave the lower half of its low byte. -/
theorem regionsOk_iff (n : Int) (k : Nat) :
    RegionsOk ((List.range k).map (offset n)) ↔ k = 0 ∨ n % 256 + k ≤ 128 := by
  constructor
  · intro h
    by_contra hbad
    -- the first connection whose offset is negative
    obtain ⟨i, hi, hneg⟩ : ∃ i < k, 128 ≤ (n + i) % 256 := by
      by_cases hn : n % 256 < 128
      · exact ⟨(128 - n % 256).toNat, by omega, by omega⟩
      · exact ⟨0, by omega, by simpa using hn⟩
    have := h.nonneg (offset n i) (List.mem_map_of_mem (List.mem_range.2 hi))
    rw [offset_eq, if_neg (by omega)] at this
    omega
  · intro h
    have hoff : ∀ i < k, offset n i = (n % 256 + i) * 2 ^ 24 := by
      intro i hi
      rw [offset_eq, if_pos (by omega)]
      congr 1
      omega
    refine ⟨?_, ?_⟩
    · intro o ho
      obtain ⟨i, hi, rfl⟩ := List.mem_map.1 ho
      rw [hoff i (List.mem_range.1 hi)]
      omega
    · rw [List.pairwise_map]
      refine List.pairwise_lt_range.imp_of_mem ?_
      intro i j hi hj hij
      rw [hoff i (List.mem_range.1 hi), hoff j (List.mem_range.1 hj)]
      unfold pmemBufSize
      omega

/-- **The regions of different connections**, for any initial value of `clerk_num_`: they are
disjoint parts of the device exactly as long as the server has got to no more than
`128 - clerk_num_ % 256` connections. -/
theorem regions_iff (n : Int) (rs : List Round) :
    RegionsOk (FrontEnd.pmem.listen (.new n) rs).offsets ↔
      (FrontEnd.pmem.reached rs).length = 0 ∨
        n % 256 + (FrontEnd.pmem.reached rs).length ≤ 128 := by
  rw [offsets_listen (.new n) rfl rs]
  exact regionsOk_iff n _

/-- The 129th connection of a server whose counter starts at 0. -/
theorem regions_negative : ∃ rs : List Round, rs.length = 129 ∧
    (∀ r ∈ rs, r.mapped = true ∧ (connectOrExit r).isSome) ∧
    (FrontEnd.pmem.listen (.new 0) rs).offsets[128]? = some (-2147483648) ∧
    ¬ RegionsOk (FrontEnd.pmem.listen (.new 0) rs).offsets := by
  obtain ⟨r, hm, hc, hgo⟩ : ∃ r : Round, r.mapped = true ∧ (connectOrExit r).isSome ∧
      ¬ FrontEnd.pmem.Stops r :=
    ⟨⟨.little, ⟨1, 2, 3, 4, 5, 6, 7, 8, .replicate 16 9⟩, true,
      ⟨54, 54, List.replicate 54 0, 0, 0, 0⟩⟩, rfl, by decide +kernel, by decide +kernel⟩
  have hall : ∀ n, (FrontEnd.pmem.reached (List.replicate n r)).length = n := by
    intro n
    induction n with
    | zero => rfl
    | succ n ih => simp [List.replicate_succ, FrontEnd.reached, hgo, ih]
  have hoff : (FrontEnd.pmem.listen (.new 0) (List.replicate 129 r)).offsets[128]? =
      some (-2147483648) := by
    rw [offsets_listen (.new 0) rfl, hall]
    decide
  refine ⟨List.replicate 129 r, List.length_replicate, ?_, hoff, ?_⟩
  · intro x hx
    obtain rfl := (List.mem_replicate.1 hx).2
    exact ⟨hm, hc⟩
  · intro h
    have := h.nonneg _ (List.mem_of_getElem? hoff)
    omega

end PMRAccess.Pmem
