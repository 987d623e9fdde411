import PMRAccess.Rdma.Verbs
import PMRAccess.Lib.Cas
import PMRAccess.Lib.Run

/-!
# Remote compare-and-swap (`RDMAContext::post_cas`)

Any number of contexts post requests on the words of a remote memory, which are executed in any
order. The hardware compares the word with `compare_add` and stores `swap`; `post_cas` puts `new_val`
into the first and `old_val` into the second (`reversed_run`).

`cas_iff`: so the requests on a word are compare-and-swaps exactly if they leave it as it is in any
case, that is if each has equal values or neither is the one the word has had from the start.
-/

namespace PMRAccess.Rdma

open Lib

/-- What `post_cas` hands to the queue pair. -/
structure AtomicRequest where
  addr : Nat
  length : Nat
  lkey : Nat
  signal : Bool
  remoteAddr : Nat
  rkey : Nat
  compareAdd : BitVec 64
  swap : BitVec 64
  deriving DecidableEq, Repr

def RDMAContext.postCas (x : RDMAContext) (oldVal newVal : BitVec 64)
    (localOffset remoteOffset : Nat) (signal : Bool) : AtomicRequest where
  addr := x.writeBuf + x.dmaoff + localOffset
  length := 8
  lkey := x.writeMr.lkey
  signal := signal
  remoteAddr := x.remote.addr + remoteOffset
  rkey := x.remote.rkey
  compareAdd := newVal
  swap := oldVal

/-- The hardware executes a request; the value of the word before it goes to `addr`. -/
def AtomicRequest.execute (r : AtomicRequest) (mem : Nat → BitVec 64) : Nat → BitVec 64 :=
  if mem r.remoteAddr = r.compareAdd then Function.update mem r.remoteAddr r.swap else mem

namespace Cas

/-! ## Steps -/

/-- A call of `post_cas` on one of the contexts. -/
structure Call where
  context : Nat
  oldVal : BitVec 64
  newVal : BitVec 64
  localOffset : Nat
  remoteOffset : Nat
  signal : Bool
  deriving DecidableEq, Repr

structure State where
  /-- the words of the remote memory -/
  mem : Nat → BitVec 64
  /-- the requests that are posted and not yet executed -/
  posted : List Call

inductive Label
  | post (c : Call)
  /-- the hardware executes the `j`-th of the posted requests -/
  | execute (j : Nat)

/-- A request has been executed on a word, which was one value and is now another or the same. -/
structure Event where
  addr : Nat
  call : Call
  was : BitVec 64
  now : BitVec 64
  deriving DecidableEq, Repr

section
variable (contexts : Nat → RDMAContext)

def Call.request (c : Call) : AtomicRequest :=
  (contexts c.context).postCas c.oldVal c.newVal c.localOffset c.remoteOffset c.signal

def step (s : State) : Label → Option (State × List Event)
  | .post c => some ({ s with posted := s.posted ++ [c] }, [])
  | .execute j =>
    match s.posted[j]? with
    | none => none
    | some c =>
      let r := c.request contexts
      let mem := r.execute s.mem
      some (⟨mem, s.posted.eraseIdx j⟩,
        [⟨r.remoteAddr, c, s.mem r.remoteAddr, mem r.remoteAddr⟩])

/-- Runs on a memory, with nothing posted yet. -/
def Run (mem : Nat → BitVec 64) : List Event → State → Prop :=
  Steps (step contexts) (fun _ _ => True) ⟨mem, []⟩

end

/-- The requests on a word in the order they are executed. -/
def attempts (tr : List Event) (addr : Nat) : List (Attempt (BitVec 64)) :=
  tr.filterMap fun e =>
    if e.addr = addr then some ⟨e.call.oldVal, e.call.newVal, e.was, e.now⟩ else none

/-! ## Reversed operands -/

/-- What the hardware makes of a request of `post_cas`. -/
def Reversed (a : Attempt (BitVec 64)) : Prop :=
  a.now = if a.was = a.desired then a.expected else a.was

/-- A request that leaves a word with value `w` as it is, whichever of its values is compared. -/
def Idle (w : BitVec 64) (a : Attempt (BitVec 64)) : Prop :=
  a.expected = a.desired ∨ (w ≠ a.expected ∧ w ≠ a.desired)

theorem Reversed.isCas_iff {a : Attempt (BitVec 64)} (h : Reversed a) :
    a.IsCas ↔ Idle a.was a := by
  unfold Reversed at h
  unfold Attempt.IsCas Idle
  rw [h]
  by_cases hd : a.was = a.desired
  · -- the word is changed to `expected`, and should not be
    rw [if_pos hd]
    by_cases he : a.was = a.expected
    · simp [← hd, ← he]
    · rw [if_neg he]
      simp [hd, eq_comm]
  · -- the word is left as it is
    rw [if_neg hd]
    by_cases he : a.was = a.expected
    · simp [← he, hd]
    · simp [he, hd]

/-- Such a request changes nothing. -/
theorem Reversed.now_eq {a : Attempt (BitVec 64)} (h : Reversed a) (hi : Idle a.was a) :
    a.now = a.was := by
  unfold Reversed at h
  rw [h]
  split
  · rename_i hd
    rcases hi with he | ⟨-, hne⟩
    · exact he.trans hd.symm
    · exact absurd hd hne
  · rfl

/-- As long as all requests are compare-and-swaps, the word keeps its value. -/
theorem isCas_iff_of_linked {w w' : BitVec 64} {as : List (Attempt (BitVec 64))}
    (h : Attempt.Linked w as w') (hr : ∀ a ∈ as, Reversed a) :
    (∀ a ∈ as, a.IsCas) ↔ ∀ a ∈ as, Idle w a := by
  induction as generalizing w with
  | nil => simp
  | cons a as ih =>
    obtain ⟨rfl, hrest⟩ := h
    have ha : Reversed a := hr a List.mem_cons_self
    have hras : ∀ b ∈ as, Reversed b := fun b hb => hr b (List.mem_cons_of_mem _ hb)
    rw [List.forall_mem_cons, List.forall_mem_cons, ha.isCas_iff]
    refine and_congr_right fun hidle => ?_
    rw [ha.now_eq hidle] at hrest
    exact ih hrest hras

/-! ## Runs -/

section
variable {contexts : Nat → RDMAContext} {mem : Nat → BitVec 64} {s s' : State} {l : Label}
  {tr es : List Event}

theorem attempts_append (tr tr' : List Event) (addr : Nat) :
    attempts (tr ++ tr') addr = attempts tr addr ++ attempts tr' addr := List.filterMap_append

/-- A step posts a request, or executes one. -/
theorem step_cases (h : step contexts s l = some (s', es)) :
    (s'.mem = s.mem ∧ es = []) ∨
      ∃ c, s'.mem = (c.request contexts).execute s.mem ∧
        es = [⟨(c.request contexts).remoteAddr, c, s.mem (c.request contexts).remoteAddr,
          s'.mem (c.request contexts).remoteAddr⟩] := by
  cases l with
  | post c =>
    cases h
    exact .inl ⟨rfl, rfl⟩
  | execute j =>
    simp only [step] at h
    split at h
    · cases h
    · rename_i c hc
      cases h
      exact .inr ⟨c, rfl, rfl⟩

theorem execute_self (r : AtomicRequest) (mem : Nat → BitVec 64) :
    r.execute mem r.remoteAddr =
      if mem r.remoteAddr = r.compareAdd then r.swap else mem r.remoteAddr := by
  unfold AtomicRequest.execute
  split <;> simp

theorem execute_of_ne (r : AtomicRequest) (mem : Nat → BitVec 64) {addr : Nat}
    (h : addr ≠ r.remoteAddr) : r.execute mem addr = mem addr := by
  unfold AtomicRequest.execute
  split
  · exact Function.update_of_ne h _ _
  · rfl

/-- The requests lead from the first value of the word to the one it has now. -/
theorem linked_run (h : Run contexts mem tr s) (addr : Nat) :
    Attempt.Linked (mem addr) (attempts tr addr) (s.mem addr) := by
  have h0 : Attempt.Linked (mem addr) (attempts [] addr) (mem addr) := rfl
  refine h.invariant
    (I := fun tr s => Attempt.Linked (mem addr) (attempts tr addr) (s.mem addr)) h0 ?_
  intro tr s l s' es _ hi _ hs
  rw [attempts_append]
  obtain ⟨hmem, rfl⟩ | ⟨c, hmem, rfl⟩ := step_cases hs
  · rw [hmem]
    exact (List.append_nil _).symm ▸ hi
  · by_cases ha : (c.request contexts).remoteAddr = addr
    · subst ha
      simpa [attempts] using hi.snoc (a := ⟨c.oldVal, c.newVal, _, s'.mem _⟩) rfl
    · rw [hmem, execute_of_ne _ _ (Ne.symm ha)]
      simpa [attempts, ha] using hi

theorem reversed_run (h : Run contexts mem tr s) (addr : Nat) :
    ∀ a ∈ attempts tr addr, Reversed a := by
  refine h.invariant (I := fun tr _ => ∀ a ∈ attempts tr addr, Reversed a) (by simp [attempts]) ?_
  intro tr s l s' es _ hi _ hs a ha
  rw [attempts_append] at ha
  rcases List.mem_append.1 ha with ha | ha
  · exact hi a ha
  obtain ⟨-, rfl⟩ | ⟨c, hmem, rfl⟩ := step_cases hs
  · cases ha
  · obtain ⟨-, rfl⟩ : (c.request contexts).remoteAddr = addr ∧
        (⟨c.oldVal, c.newVal, s.mem (c.request contexts).remoteAddr,
          s'.mem (c.request contexts).remoteAddr⟩ : Attempt (BitVec 64)) = a := by
      simpa [attempts] using ha
    show s'.mem _ = _
    rw [hmem, execute_self]
    rfl

/-- What `post_cas` is for: each request on the word is a compare-and-swap, and so the successful
ones form a chain. -/
def Swaps (w w' : BitVec 64) (as : List (Attempt (BitVec 64))) : Prop :=
  (∀ a ∈ as, a.IsCas) ∧ Attempt.Chain w (as.filter Attempt.succeeds) w'

/-- **`post_cas` as compare-and-swap**: in every run, on every word, exactly if the requests on it
have equal values, or values the word has not had from the start. -/
theorem cas_iff (h : Run contexts mem tr s) (addr : Nat) :
    Swaps (mem addr) (s.mem addr) (attempts tr addr) ↔
      ∀ a ∈ attempts tr addr, Idle (mem addr) a := by
  have hlinked := linked_run h addr
  have hiff := isCas_iff_of_linked hlinked (reversed_run h addr)
  constructor
  · rintro ⟨hcas, -⟩
    exact hiff.1 hcas
  · intro hidle
    exact ⟨hiff.2 hidle, hlinked.chain (hiff.2 hidle)⟩

/-- Two contexts that share the word at 64, of which the second has it at offset 8. -/
def twoContexts (i : Nat) : RDMAContext :=
  ((RDMAContext.openContext ⟨4096, sendBufSize, 1, 2⟩).registerWriteBuf
    ⟨0, 4096, 3, 4⟩).exchangeCertificate ⟨0, 0, 0, 64 - 8 * i, 6, 128⟩

theorem cas_iff_idle : ∃ tr s, Run twoContexts (fun _ => 7) tr s ∧
    attempts tr 64 = [⟨3, 3, 7, 7⟩, ⟨1, 2, 7, 7⟩] ∧ Swaps 7 (s.mem 64) (attempts tr 64) := by
  obtain ⟨tr, s, hr, has⟩ : ∃ tr s, Run twoContexts (fun _ => 7) tr s ∧
      attempts tr 64 = [⟨3, 3, 7, 7⟩, ⟨1, 2, 7, 7⟩] :=
    ⟨_, _, Steps.of_exec_get [.post ⟨0, 1, 2, 0, 0, true⟩, .post ⟨1, 3, 3, 0, 8, true⟩, .execute 1,
      .execute 0] (by decide +kernel), by decide +kernel⟩
  refine ⟨tr, s, hr, has, (cas_iff hr 64).2 ?_⟩
  rw [has]
  simp [Idle]

/-- On a word that is 0, `post_cas(0, 1)` does nothing and `post_cas(1, 0)` sets it to 1. -/
theorem cas_reversed : ∃ tr s, Run twoContexts (fun _ => 0) tr s ∧
    attempts tr 64 = [⟨0, 1, 0, 0⟩, ⟨1, 0, 0, 1⟩] ∧
    ¬ Swaps 0 (s.mem 64) (attempts tr 64) := by
  obtain ⟨tr, s, hr, has⟩ : ∃ tr s, Run twoContexts (fun _ => 0) tr s ∧
      attempts tr 64 = [⟨0, 1, 0, 0⟩, ⟨1, 0, 0, 1⟩] :=
    ⟨_, _, Steps.of_exec_get [.post ⟨0, 0, 1, 0, 0, true⟩, .execute 0, .post ⟨1, 1, 0, 0, 8, true⟩,
      .execute 0] (by decide +kernel), by decide +kernel⟩
  refine ⟨tr, s, hr, has, ?_⟩
  rintro ⟨hcas, -⟩
  rw [has] at hcas
  exact absurd (hcas ⟨0, 1, 0, 0⟩ List.mem_cons_self) (by decide)

end

end Cas

end PMRAccess.Rdma
