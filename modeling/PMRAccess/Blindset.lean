import PMRAccess.Bitset
import PMRAccess.Lib.Run
import PMRAccess.Lib.Slots

/-!
# Threads on an atomic bitset (`AtomicBitset::blindset`)

Any number of threads call `blindset`, `set`, `clear` and `get` on one bitset. The last three are
one atomic operation each; `blindset` goes over the bits until the `fetch_or` of one that it has
seen clear returns that it was clear, and its steps are the loads and the `fetch_or`s. A relaxed
load may be out of date, so it returns anything.

The bits are the slots held behind the history of the operations (`bits_run`), and the `fetch_or`
decides who takes a slot, so the history is exclusive (`exclusive_run`): an index that `blindset`
has returned is not returned again before it is cleared (`allocates`). `allocator_iff`: the bits are
independent too, unless the size is within 63 of 2^64.
-/

namespace PMRAccess.Blindset

open Lib

/-! ## Steps -/

/-- Where a thread is. -/
inductive Pc
  /-- not in `blindset` -/
  | out
  /-- in the loop: about to load bit `i`, or behind the last one to start again -/
  | scan (i : Nat)
  /-- the load of bit `i` has returned false: about to `set` it -/
  | trySet (i : Nat)
  deriving DecidableEq, Repr

structure State where
  bits : AtomicBitset
  threads : Nat → Pc
  /-- an assertion has failed -/
  aborted : Bool

/-- What a thread's call has returned. -/
inductive Event
  | blindset (t i : Nat)
  | set (t i : Nat) (old : Bool)
  | clear (t i : Nat) (old : Bool)
  | get (t i : Nat) (val : Bool)
  deriving DecidableEq, Repr

inductive Label
  /-- a thread calls `blindset` -/
  | blindset (t : Nat)
  /-- its load returns `seen` -/
  | load (t : Nat) (seen : Bool)
  | fetchOr (t : Nat)
  | set (t i : Nat)
  | clear (t i : Nat)
  | get (t i : Nat)

def State.goto (s : State) (t : Nat) (pc : Pc) : State :=
  { s with threads := Function.update s.threads t pc }

/-- An operation of a thread outside `blindset`; it fails where its assertion does. -/
def State.call (s : State) (t : Nat) (r : Option (Bool × AtomicBitset)) (e : Bool → Event) :
    Option (State × List Event) :=
  match s.threads t with
  | .out =>
    match r with
    | none => some ({ s with aborted := true }, [])
    | some (old, bits) => some ({ s with bits }, [e old])
  | _ => none

def step (s : State) (l : Label) : Option (State × List Event) :=
  if s.aborted then none
  else
    match l with
    | .blindset t =>
      match s.threads t with
      | .out => some (s.goto t (.scan 0), [])
      | _ => none
    | .load t seen =>
      match s.threads t with
      | .scan i =>
        if i < s.bits.size then
          match s.bits.get i with
          | none => some ({ s with aborted := true }, [])
          | some _ => some (s.goto t (if seen then .scan (i + 1) else .trySet i), [])
        else some (s.goto t (.scan 0), [])
      | _ => none
    | .fetchOr t =>
      match s.threads t with
      | .trySet i =>
        match s.bits.set i with
        | none => some ({ s with aborted := true }, [])
        | some (true, bits) => some ({ s with bits }.goto t (.scan (i + 1)), [])
        | some (false, bits) => some ({ s with bits }.goto t .out, [.blindset t i])
      | _ => none
    | .set t i => s.call t (s.bits.set i) (.set t i)
    | .clear t i => s.call t (s.bits.clear i) (.clear t i)
    | .get t i => s.call t ((s.bits.get i).map fun val => (val, s.bits)) (.get t i)

/-- A bitset of `n` bits, and no thread in a call. -/
def init (n : Nat) : State := ⟨.new n, fun _ => .out, false⟩

/-- Runs of the threads on a new bitset, in any order of their steps. -/
def Run (n : Nat) : List Event → State → Prop := Steps step (fun _ _ => True) (init n)

/-! ## What a step can do -/

/-- The bits behind a `set` or `clear` of bit `i`. -/
def Writes (b b' : AtomicBitset) (i : Nat) (v : Bool) : Prop :=
  i < b.size ∧ b'.size = b.size ∧ ∀ j, b'.bit j = if j = i then v else b.bit j

/-- The moves of the threads; those without an event leave the bits, but for the `fetch_or` of a bit
that is set already. -/
inductive Move (s : State) (l : Label) : State → List Event → Prop
  | quiet {s' : State} (hb : s'.bits = s.bits) : Move s l s' []
  | lost {t i : Nat} {bits : AtomicBitset} (hb : s.bits.bit i = true)
      (hw : Writes s.bits bits i true) : Move s l ({ s with bits }.goto t (.scan (i + 1))) []
  | taken {t i : Nat} {bits : AtomicBitset} (hl : l = .fetchOr t) (hpc : s.threads t = .trySet i)
      (hb : s.bits.bit i = false) (hw : Writes s.bits bits i true) :
      Move s l ({ s with bits }.goto t .out) [.blindset t i]
  | set {t i : Nat} {bits : AtomicBitset} (hw : Writes s.bits bits i true) :
      Move s l { s with bits } [.set t i (s.bits.bit i)]
  | clear {t i : Nat} {bits : AtomicBitset} (hw : Writes s.bits bits i false) :
      Move s l { s with bits } [.clear t i (s.bits.bit i)]
  | get {t i : Nat} (hi : i < s.bits.size) : Move s l s [.get t i (s.bits.bit i)]

section
variable {s s' : State} {l : Label} {tr es : List Event} {n : Nat}

theorem call_cases {t : Nat} {r : Option (Bool × AtomicBitset)} {e : Bool → Event}
    (h : s.call t r e = some (s', es)) :
    (s'.bits = s.bits ∧ es = []) ∨ ∃ old bits, r = some (old, bits) ∧ s' = { s with bits } ∧
      es = [e old] := by
  unfold State.call at h
  split at h
  · split at h
    · cases h
      exact .inl ⟨rfl, rfl⟩
    · rename_i old bits
      cases h
      exact .inr ⟨old, bits, rfl, rfl, rfl⟩
  · cases h

theorem step_cases (h : step s l = some (s', es)) : Move s l s' es := by
  unfold step at h
  split at h
  · cases h
  cases l with
  | blindset t =>
    simp only at h
    split at h
    · cases h
      exact .quiet rfl
    · cases h
  | load t seen =>
    simp only at h
    split at h
    · split at h
      · split at h <;> cases h <;> exact .quiet rfl
      · cases h
        exact .quiet rfl
    · cases h
  | fetchOr t =>
    simp only at h
    split at h
    · rename_i i hpc
      split at h
      · cases h
        exact .quiet rfl
      · rename_i bits hset
        cases h
        obtain ⟨hi, hb, hw⟩ := AtomicBitset.set_some hset
        exact .lost hb ⟨hi, hw⟩
      · rename_i bits hset
        cases h
        obtain ⟨hi, hb, hw⟩ := AtomicBitset.set_some hset
        exact .taken rfl hpc hb ⟨hi, hw⟩
    · cases h
  | set t i =>
    obtain ⟨hb, rfl⟩ | ⟨old, bits, hset, rfl, rfl⟩ := call_cases h
    · exact .quiet hb
    · obtain ⟨hi, rfl, hw⟩ := AtomicBitset.set_some hset
      exact .set ⟨hi, hw⟩
  | clear t i =>
    obtain ⟨hb, rfl⟩ | ⟨old, bits, hclear, rfl, rfl⟩ := call_cases h
    · exact .quiet hb
    · obtain ⟨hi, rfl, hw⟩ := AtomicBitset.clear_some hclear
      exact .clear ⟨hi, hw⟩
  | get t i =>
    obtain ⟨hb, rfl⟩ | ⟨old, bits, hget, rfl, rfl⟩ := call_cases h
    · exact .quiet hb
    · obtain ⟨val, hval, heq⟩ := Option.map_eq_some_iff.1 hget
      obtain ⟨rfl, rfl⟩ := Prod.mk.inj heq
      obtain ⟨hi, rfl⟩ := AtomicBitset.get_some hval
      exact .get hi

/-! ## Histories -/

/-- What a call has done to the slots. -/
def Event.op? : Event → Option (SlotOp Nat)
  | .blindset _ i => some (.take i)
  | .set _ i old => if old then none else some (.take i)
  | .clear _ i _ => some (.free i)
  | .get _ _ _ => none

def history (tr : List Event) : List (SlotOp Nat) := tr.filterMap Event.op?

theorem history_append (tr tr' : List Event) : history (tr ++ tr') = history tr ++ history tr' :=
  List.filterMap_append

theorem Writes.bit_eq {b b' : AtomicBitset} {i : Nat} {v : Bool} (h : Writes b b' i v) :
    b'.bit = Function.update b.bit i v := by
  funext j
  rw [h.2.2 j, Function.update_apply]

/-- A write of the value a bit has. -/
theorem Writes.bit_same {b b' : AtomicBitset} {i : Nat} {v : Bool} (h : Writes b b' i v)
    (hv : b.bit i = v) : b'.bit = b.bit := by
  rw [h.bit_eq, ← hv, Function.update_eq_self]

/-- The bits follow the history. -/
theorem move_bits (h : Move s l s' es) :
    s'.bits.size = s.bits.size ∧ s'.bits.bit = (history es).foldl Slots.apply s.bits.bit := by
  cases h with
  | quiet hb => exact ⟨congrArg AtomicBitset.size hb, congrArg AtomicBitset.bit hb⟩
  | lost hb hw => exact ⟨hw.2.1, hw.bit_same hb⟩
  | taken _ _ hb hw => exact ⟨hw.2.1, hw.bit_eq⟩
  | @set t i bits hw =>
    refine ⟨hw.2.1, ?_⟩
    cases hb : s.bits.bit i with
    | false => exact hw.bit_eq
    | true => exact hw.bit_same hb
  | clear hw => exact ⟨hw.2.1, hw.bit_eq⟩
  | get => exact ⟨rfl, rfl⟩

/-- A slot is taken by whoever finds its bit clear. -/
theorem move_history (h : Move s l s' es) :
    history es = [] ∨ ∃ op, history es = [op] ∧ ∀ i, op = .take i → s.bits.bit i = false := by
  cases h with
  | quiet | lost | get => exact .inl rfl
  | @taken t i bits _ _ hb =>
    refine .inr ⟨.take i, rfl, fun j hj => ?_⟩
    obtain rfl := SlotOp.take.inj hj
    exact hb
  | @set t i bits =>
    cases hb : s.bits.bit i with
    | true => exact .inl rfl
    | false =>
      refine .inr ⟨.take i, rfl, fun j hj => ?_⟩
      obtain rfl := SlotOp.take.inj hj
      exact hb
  | @clear t i => exact .inr ⟨.free i, rfl, fun j hj => by cases hj⟩

theorem bits_run (h : Run n tr s) :
    s.bits.size = n ∧ s.bits.bit = Slots.held (history tr) := by
  refine h.invariant (I := fun tr s => s.bits.size = n ∧ s.bits.bit = Slots.held (history tr))
    ⟨rfl, funext (AtomicBitset.bit_new n)⟩ ?_
  intro tr s l s' es _ hi _ hs
  obtain ⟨hsize, hbits⟩ := move_bits (step_cases hs)
  rw [history_append, Slots.held_append, ← hi.2]
  exact ⟨hsize.trans hi.1, hbits⟩

theorem exclusive_run (h : Run n tr s) : Slots.Exclusive (history tr) := by
  refine h.invariant (I := fun tr _ => Slots.Exclusive (history tr)) Slots.exclusive_nil ?_
  intro tr s l s' es hr hi _ hs
  rw [history_append]
  obtain hnil | ⟨op, hop, hfree⟩ := move_history (step_cases hs)
  · rwa [hnil, List.append_nil]
  · rw [hop]
    refine hi.snoc fun i hi' => ?_
    rw [← (bits_run hr).2]
    exact hfree i hi'

/-! ## The allocator -/

theorem step_events (h : step s l = some (s', es)) : es.length ≤ 1 := by
  cases step_cases h <;> simp

/-- The step that has returned an index: the thread's own `fetch_or`. -/
theorem blindset_step {a b : List Event} {t i : Nat} (h : Run n (a ++ .blindset t i :: b) s) :
    ∃ s₁ s₂, Run n a s₁ ∧ step s₁ (.fetchOr t) = some (s₂, [.blindset t i]) ∧
      i < s₁.bits.size ∧ s₁.bits.bit i = false ∧ s₂.bits.bit = Function.update s₁.bits.bit i true := by
  obtain ⟨s₁, l, s₂, hr, -, hs⟩ := h.of_event step_events (n := a.length) (e := .blindset t i)
    (by simp)
  rw [List.take_left] at hr
  cases step_cases hs with
  | taken hl _ hb hw =>
    subst hl
    exact ⟨s₁, _, hr, hs, hw.1, hb, hw.bit_eq⟩

/-- The calls behind a freed slot. -/
theorem clear_of_free {i : Nat} (h : .free i ∈ history tr) : ∃ t old, .clear t i old ∈ tr := by
  obtain ⟨e, he, hop⟩ := List.mem_filterMap.1 h
  cases e with
  | clear t j old =>
    obtain rfl := SlotOp.free.inj (Option.some.inj hop)
    exact ⟨t, old, he⟩
  | set t j old => cases old <;> cases hop
  | blindset | get => cases hop

theorem cleared_between {a b c : List Event} {t u i : Nat}
    (h : Run n (a ++ .blindset t i :: (b ++ .blindset u i :: c)) s) :
    ∃ v old, .clear v i old ∈ b := by
  have hex := exclusive_run h
  have hh : history (a ++ .blindset t i :: (b ++ .blindset u i :: c)) =
      history a ++ .take i :: (history b ++ .take i :: history c) := by
    simp [history, Event.op?]
  rw [hh] at hex
  exact clear_of_free hex.freed

/-- What `get`, `set` and `clear` are for: the read and the writes of `n` independent booleans, each
in a block that exists. -/
def Independent (n : Nat) : Prop :=
  ∀ b : AtomicBitset, b.size = n → ∀ i < n,
    blockIndex i < b.data.length ∧ b.get i = some (b.bit i) ∧
    (∃ b', b.set i = some (b.bit i, b') ∧ Writes b b' i true) ∧
    ∃ b', b.clear i = some (b.bit i, b') ∧ Writes b b' i false

/-- What `blindset` is for: an index it returns in a run is in range, its bit has been changed from
clear to set by the call, and it is not returned again before a `clear` of it. -/
def Allocates (n : Nat) : Prop :=
  ∀ tr s, Run n tr s → ∀ a t i b, tr = a ++ .blindset t i :: b →
    i < n ∧
    (∃ s₁ s₂, Run n a s₁ ∧ step s₁ (.fetchOr t) = some (s₂, [.blindset t i]) ∧
      s₁.bits.bit i = false ∧ s₂.bits.bit = Function.update s₁.bits.bit i true) ∧
    ∀ b₁ u b₂, b = b₁ ++ .blindset u i :: b₂ → ∃ v old, .clear v i old ∈ b₁

theorem independent (h : n ≤ 2 ^ 64 - bitsPerBlock) : Independent n := by
  rintro b rfl i hi
  have ha := AtomicBitset.addressed hi h
  obtain ⟨b₁, hset, hset'⟩ := AtomicBitset.set_eq ha
  obtain ⟨b₂, hclear, hclear'⟩ := AtomicBitset.clear_eq ha
  exact ⟨ha.2, AtomicBitset.get_eq ha, ⟨b₁, hset, hi, hset'⟩, ⟨b₂, hclear, hi, hclear'⟩⟩

/-- The number of blocks has wrapped around: there is none. -/
theorem new_wrapped (h : 2 ^ 64 - bitsPerBlock < n) (hn : n < 2 ^ 64) :
    (AtomicBitset.new n).data = [] := by
  have h0 : numBlocks n = 0 := by
    simp only [numBlocks, bitsPerBlock] at h ⊢
    omega
  exact List.eq_nil_of_length_eq_zero ((AtomicBitset.new n).blocks.trans h0)

theorem allocates (n : Nat) : Allocates n := by
  rintro tr s hr a t i b rfl
  obtain ⟨s₁, s₂, hr₁, hs, hi, hb, hb'⟩ := blindset_step hr
  rw [(bits_run hr₁).1] at hi
  refine ⟨hi, ⟨s₁, s₂, hr₁, hs, hb, hb'⟩, ?_⟩
  rintro b₁ u b₂ rfl
  exact cleared_between hr

/-- **The bitset as an allocator**: for the sizes whose rounding up does not wrap around, and for no
other. -/
theorem allocator_iff (hn : n < 2 ^ 64) :
    Independent n ∧ Allocates n ↔ n ≤ 2 ^ 64 - bitsPerBlock := by
  constructor
  · rintro ⟨hind, -⟩
    by_contra hbig
    have hblock := (hind (.new n) rfl 0 (by omega)).1
    rw [new_wrapped (by omega) hn] at hblock
    cases hblock
  · intro h
    exact ⟨independent h, allocates n⟩

/-- Two threads see the same bit clear; the loser of the race takes the next one, and the winner's
bit again when it is cleared. -/
theorem allocator_iff_race : ∃ tr s, Run 100 tr s ∧
    tr = [.blindset 0 0, .blindset 1 1, .clear 0 0 true, .blindset 1 0] ∧
    ∃ v old, .clear v 0 old ∈ [Event.blindset 1 1, .clear 0 0 true] := by
  obtain ⟨tr, s, hr, htr⟩ : ∃ tr s, Run 100 tr s ∧
      tr = [.blindset 0 0, .blindset 1 1, .clear 0 0 true, .blindset 1 0] :=
    ⟨_, _, Steps.of_exec_get [.blindset 0, .blindset 1, .load 0 false, .load 1 false, .fetchOr 0,
      .fetchOr 1, .load 1 false, .fetchOr 1, .clear 0 0, .blindset 1, .load 1 false, .fetchOr 1]
      (by decide +kernel), by decide +kernel⟩
  have hall : Allocates 100 := ((allocator_iff (by decide)).2 (by decide)).2
  exact ⟨tr, s, hr, htr, (hall tr s hr [] 0 0 _ htr).2.2 [.blindset 1 1, .clear 0 0 true] 1 [] rfl⟩

/-- A bitset of 2^64 - 1 bits has no block, so the first access to it is out of range. -/
theorem allocator_wraps : ¬ (Independent (2 ^ 64 - 1) ∧ Allocates (2 ^ 64 - 1)) ∧
    (AtomicBitset.new (2 ^ 64 - 1)).size = 2 ^ 64 - 1 ∧
    (AtomicBitset.new (2 ^ 64 - 1)).data = [] ∧ (AtomicBitset.new (2 ^ 64 - 1)).set 0 = none := by
  have hdata : (AtomicBitset.new (2 ^ 64 - 1)).data = [] := new_wrapped (by decide) (by decide)
  refine ⟨?_, rfl, hdata, ?_⟩
  · rintro ⟨hind, -⟩
    have hblock := (hind (.new (2 ^ 64 - 1)) rfl 0 (by decide)).1
    rw [hdata] at hblock
    cases hblock
  · rw [AtomicBitset.set, if_neg]
    rintro ⟨-, hblock⟩
    rw [hdata] at hblock
    cases hblock

end

end PMRAccess.Blindset
