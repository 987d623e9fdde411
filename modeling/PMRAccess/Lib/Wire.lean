import PMRAccess.Lib.Bytes

/-!
# Writes over an ordered connection

The memory of an end of the connection is a family of buffers (`Mem`). A `Write` copies a range of
the poster's memory to a range of the peer's. The copy is taken when the write is posted, if it is
`inline`, and else at any time before it is placed (`fetchAt`); writes are placed in the order they
were posted, each once (`place`).

`InTransit m m' ws placed rest fs`: the writes `ws` are on their way from the memory `m` to `m'`,
`placed` of them there, `fs` in flight and `rest` still to be posted. Posting, fetching and placing
keep it (`InTransit.post`, `fetch`, `place`), as long as the poster leaves its memory alone and the
writes go to different places (`Apart`). `weight` counts what is left to do for the writes in
flight.
-/

namespace Lib

variable {ι : Type*}

/-- The buffers of one end. -/
abbrev Mem (ι : Type*) := ι → Buf

/-- The memory with `bs` stored in buffer `i` from address `a` on. -/
def Mem.write [DecidableEq ι] (m : Mem ι) (i : ι) (a : Nat) (bs : Bytes) : Mem ι :=
  fun j => if j = i then (m j).write a bs else m j

structure Write (ι : Type*) where
  source : ι
  src : Nat
  target : ι
  dst : Nat
  len : Nat
  inline : Bool
  signal : Bool

/-- A write in flight, with its bytes once they have been read. -/
structure Flight (ι : Type*) where
  write : Write ι
  payload : Option Bytes

namespace Write

/-- The bytes of a write in the poster's memory. -/
def bytes (w : Write ι) (m : Mem ι) : Bytes := (m w.source).read w.src w.len

/-- Posting a write. -/
def launch (w : Write ι) (m : Mem ι) : Flight ι := ⟨w, if w.inline then some (w.bytes m) else none⟩

/-- The bytes of a write are at their place. -/
def Placed (w : Write ι) (m m' : Mem ι) : Prop := (m' w.target).read w.dst w.len = w.bytes m

/-- Two writes go to different places. -/
def Apart (w w' : Write ι) : Prop :=
  w.target ≠ w'.target ∨ w.dst + w.len ≤ w'.dst ∨ w'.dst + w'.len ≤ w.dst

/-- A store that does not touch the place of a write. -/
def Avoids (w : Write ι) (i : ι) (a n : Nat) : Prop :=
  w.target ≠ i ∨ w.dst + w.len ≤ a ∨ a + n ≤ w.dst

@[simp] theorem length_bytes (w : Write ι) (m : Mem ι) : (w.bytes m).length = w.len := by
  simp [bytes]

end Write

/-- Reading the bytes of the `i`-th write in flight. -/
def fetchAt (m : Mem ι) (fs : List (Flight ι)) (i : Nat) : Option (List (Flight ι)) :=
  match fs[i]? with
  | some ⟨w, none⟩ => some (fs.set i ⟨w, some (w.bytes m)⟩)
  | _ => none

/-- Placing the first write in flight. -/
def place [DecidableEq ι] (m : Mem ι) : List (Flight ι) →
    Option (Write ι × Mem ι × List (Flight ι))
  | ⟨w, some bs⟩ :: fs => some (w, m.write w.target w.dst bs, fs)
  | _ => none

/-- The bytes of a write in flight are those of the memory, read or not. -/
def Flight.Carries (m : Mem ι) (f : Flight ι) : Prop :=
  ∀ bs, f.payload = some bs → bs = f.write.bytes m

/-- Writes on their way (module doc). -/
structure InTransit (m m' : Mem ι) (ws placed rest : List (Write ι)) (fs : List (Flight ι)) :
    Prop where
  order : ws = placed ++ fs.map Flight.write ++ rest
  carries : ∀ f ∈ fs, f.Carries m
  placed : ∀ w ∈ placed, w.Placed m m'

/-- Steps left for the writes in flight. -/
def weight (fs : List (Flight ι)) : Nat := (fs.map fun f => if f.payload = none then 2 else 1).sum

/-! ## Stores -/

section
variable [DecidableEq ι] {m m' : Mem ι}

theorem Mem.write_self (m : Mem ι) (i : ι) (a : Nat) (bs : Bytes) :
    m.write i a bs i = (m i).write a bs := if_pos rfl

theorem Mem.write_of_ne {i j : ι} (h : j ≠ i) (m : Mem ι) (a : Nat) (bs : Bytes) :
    m.write i a bs j = m j := if_neg h

theorem Write.Placed.write {w : Write ι} {i : ι} {a : Nat} {bs : Bytes} (h : w.Placed m m')
    (ha : w.Avoids i a bs.length) : w.Placed m (m'.write i a bs) := by
  unfold Write.Placed
  by_cases hi : w.target = i
  · subst hi
    rw [Mem.write_self, Buf.read_write_of_disjoint (ha.resolve_left fun hne => hne rfl)]
    exact h
  · rw [Mem.write_of_ne hi]
    exact h

theorem Write.placed_write (w : Write ι) (m m' : Mem ι) :
    w.Placed m (m'.write w.target w.dst (w.bytes m)) := by
  have h := Buf.read_write_self (m' w.target) w.dst (w.bytes m)
  rw [w.length_bytes] at h
  rw [Write.Placed, Mem.write_self]
  exact h

end

/-! ## Writes on their way -/

namespace InTransit

variable {m m' : Mem ι} {ws placed rest : List (Write ι)} {fs fs' : List (Flight ι)} {w : Write ι}

theorem start (m m' : Mem ι) (ws : List (Write ι)) : InTransit m m' ws [] ws [] where
  order := by simp
  carries := by simp
  placed := by simp

theorem post (h : InTransit m m' ws placed (w :: rest) fs) :
    InTransit m m' ws placed rest (fs ++ [w.launch m]) where
  order := by simp [h.order, Write.launch]
  carries := by
    intro f hf
    rcases List.mem_append.1 hf with hf | hf
    · exact h.carries f hf
    · rw [List.mem_singleton.1 hf]
      intro bs hbs
      simp only [Write.launch] at hbs ⊢
      split at hbs <;> simp_all
  placed := h.placed

theorem fetch {i : Nat} (h : InTransit m m' ws placed rest fs) (hf : fetchAt m fs i = some fs') :
    InTransit m m' ws placed rest fs' := by
  unfold fetchAt at hf
  split at hf
  · rename_i w hi
    obtain rfl := Option.some.inj hf
    have hlen : i < fs.length := (List.getElem?_eq_some_iff.1 hi).1
    refine ⟨?_, ?_, h.placed⟩
    · -- a write in flight keeps its place
      have hmap : (fs.set i ⟨w, some (w.bytes m)⟩).map Flight.write = fs.map Flight.write := by
        rw [List.map_set]
        apply List.ext_getElem?
        intro j
        by_cases hj : i = j
        · subst hj
          simp [hlen, (List.getElem?_eq_some_iff.1 hi).2]
        · simp [List.getElem?_set_ne hj]
      rw [hmap]
      exact h.order
    · intro f hf
      rcases List.mem_or_eq_of_mem_set hf with hf | rfl
      · exact h.carries f hf
      · intro bs hbs
        exact (Option.some.inj hbs).symm
  · cases hf

/-- A store of the peer that keeps off what is placed. -/
theorem store [DecidableEq ι] {i : ι} {a : Nat} {bs : Bytes} (h : InTransit m m' ws placed rest fs)
    (ha : ∀ w ∈ placed, w.Avoids i a bs.length) :
    InTransit m (m'.write i a bs) ws placed rest fs :=
  ⟨h.order, h.carries, fun w hw => (h.placed w hw).write (ha w hw)⟩

theorem place [DecidableEq ι] {m'' : Mem ι} (hap : ws.Pairwise Write.Apart)
    (h : InTransit m m' ws placed rest fs) (hp : Lib.place m' fs = some (w, m'', fs')) :
    fs.map Flight.write = w :: fs'.map Flight.write ∧
      m'' = m'.write w.target w.dst (w.bytes m) ∧
      InTransit m m'' ws (placed ++ [w]) rest fs' := by
  unfold Lib.place at hp
  split at hp
  · rename_i w' bs fs''
    obtain ⟨rfl, rfl, rfl⟩ : w' = w ∧ m'.write w'.target w'.dst bs = m'' ∧ fs'' = fs' := by
      simpa using hp
    obtain rfl : bs = w'.bytes m := h.carries ⟨w', some bs⟩ (by simp) bs rfl
    have horder : ws = placed ++ w' :: (fs''.map Flight.write ++ rest) := by simp [h.order]
    refine ⟨rfl, rfl, ⟨by simp [horder], fun f hf => h.carries f (by simp [hf]), ?_⟩⟩
    intro w hw
    rcases List.mem_append.1 hw with hw | hw
    · -- what is placed is apart from the write just placed
      apply (h.placed w hw).write
      rw [horder] at hap
      have := (List.pairwise_append.1 hap).2.2 w hw w' (by simp)
      simpa [Write.Avoids, Write.Apart] using this
    · rw [List.mem_singleton.1 hw]
      exact w'.placed_write m m'
  · cases hp

end InTransit

/-! ## Progress -/

section
variable {m m' : Mem ι} {fs fs' : List (Flight ι)} {w : Write ι}

theorem weight_append (fs fs' : List (Flight ι)) : weight (fs ++ fs') = weight fs + weight fs' := by
  simp [weight]

theorem weight_launch_le (w : Write ι) (m : Mem ι) : weight [w.launch m] ≤ 2 := by
  simp only [weight, List.map_cons, List.map_nil, List.sum_cons, List.sum_nil]
  split <;> omega

theorem weight_fetch {i : Nat} (h : fetchAt m fs i = some fs') : weight fs' < weight fs := by
  unfold fetchAt at h
  split at h
  · rename_i w hi
    obtain rfl := Option.some.inj h
    obtain ⟨hlen, hget⟩ := List.getElem?_eq_some_iff.1 hi
    have hsplit : fs = fs.take i ++ ⟨w, none⟩ :: fs.drop (i + 1) := by
      rw [← hget, List.getElem_cons_drop, List.take_append_drop]
    rw [List.set_eq_take_append_cons_drop, if_pos hlen]
    conv_rhs => rw [hsplit]
    simp [weight]
  · cases h

theorem weight_place [DecidableEq ι] {m'' : Mem ι} (h : place m' fs = some (w, m'', fs')) :
    weight fs' < weight fs := by
  unfold place at h
  split at h
  · obtain ⟨-, -, rfl⟩ : _ ∧ _ ∧ _ = fs' := by simpa using h
    simp [weight]
  · cases h

theorem fetchAt_ne_nil {i : Nat} (h : fetchAt m fs i = some fs') : fs ≠ [] ∧ fs' ≠ [] := by
  unfold fetchAt at h
  split at h
  · rename_i w hi
    obtain rfl := Option.some.inj h
    have hlen := (List.getElem?_eq_some_iff.1 hi).1
    refine ⟨by rintro rfl; simp at hlen, ?_⟩
    rw [← List.length_pos_iff, List.length_set]
    omega
  · cases h

theorem place_head [DecidableEq ι] {m'' : Mem ι} (h : place m' fs = some (w, m'', fs')) :
    ∃ f, fs = f :: fs' ∧ f.write = w := by
  unfold place at h
  split at h
  · rename_i w' bs fs''
    obtain ⟨rfl, -, rfl⟩ : w' = w ∧ _ ∧ fs'' = fs' := by simpa using h
    exact ⟨_, rfl, rfl⟩
  · cases h

/-- The first write in flight can be fetched or placed. -/
theorem fetch_or_place [DecidableEq ι] (m m' : Mem ι) (h : fs ≠ []) :
    (fetchAt m fs 0).isSome ∨ (place m' fs).isSome := by
  match fs, h with
  | ⟨w, none⟩ :: fs, _ => exact .inl rfl
  | ⟨w, some bs⟩ :: fs, _ => exact .inr rfl

end

end Lib
