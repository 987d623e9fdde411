import PMRAccess.Pmr.Proof.Moves
import PMRAccess.Pmr.History

/-!
# The uring thread on its own (`UringRun`)

The thread and the kernel work on a ring of any depth, while the rest of the server does what it
likes to the state they share: items of any kind arrive in `global_queue` at any time, and bits of
the bitmap change. The writes are in the submission queue, with the kernel, in the completion queue
or in the thread's hand; `Inv` counts them, and says how what has been dequeued, written and freed
is distributed among these places.

`inflight_exact`: `inflight_` is the number of writes prepared and not yet seen and at most the depth
of the ring, so there is a free slot for each write, and a completion to come for each `Wait`.
`uringRun_of_run`: the server of the PMR system is such a server.
-/

namespace PMRAccess.Pmr.UringRun

open Lib

/-! ## Steps -/

/-- What the thread and the kernel show. -/
inductive Event
  /-- an item is dequeued and its write prepared -/
  | prepared (sqe : Sqe)
  /-- the kernel has ended a write -/
  | written (sqe : Sqe) (res : Int)
  | freed (chunk : Nat)
  | seen

inductive Label
  /-- what others do to the state: items arrive, bits of the bitmap change -/
  | others (mem : Buf) (map : Bytes → Option Meta) (db : Store) (bitmap : AtomicBitset)
    (items : List (Nat × Item)) (aborted : Bool)
  | dequeue (p : Nat)
  | uring
  | complete (j : Nat) (res : Int)
  | waitFail

/-- What is shown by a turn that emits `es` and ends the write `w`: freeing a chunk is the step from
`clear` to `seen`, marking a completion seen that from `seen` to `poll`. -/
def shows (pc pc' : UringPc) (w : Option (Sqe × Int)) (es : List Pmr.Event) : List Event :=
  (es.filterMap fun | .dequeued _ sqe => some (.prepared sqe) | _ => none) ++
  (match pc, pc' with
    | .clear cqe, .seen _ => [.freed cqe.data]
    | .seen _, .poll => [.seen]
    | _, _ => []) ++
  (w.map fun w => .written w.1 w.2).toList

def step (sv : Server) (l : Label) : Option (Server × List Event) :=
  if sv.aborted then none
  else
    match l with
    | .others mem map db bitmap items aborted =>
      some ({ sv with mem, map, db, bitmap, queue := sv.queue ++ items, aborted }, [])
    | .dequeue p =>
      (dequeueStep sv p).map fun r => (r.1, shows sv.uring r.1.uring none r.2)
    | .uring => (uringStep sv).map fun sv' => (sv', shows sv.uring sv'.uring none [])
    | .complete j res =>
      (sv.ring.complete j res).map fun ring =>
        ({ sv with ring }, shows sv.uring sv.uring (sv.ring.flight[j]?.map (·, res)) [])
    | .waitFail =>
      match sv.uring with
      | .wait => some ({ sv with aborted := true }, [])
      | _ => none

/-- A server whose ring has just been made, for a queue of `qd` entries. -/
def start (sv : Server) (file : Buf) (qd : Nat) : Server :=
  { sv with ring := .new file qd, uring := .poll, aborted := false }

/-- Runs from the start of the thread. -/
def Run (sv₀ : Server) (file : Buf) (qd : Nat) : List Event → Server → Prop :=
  Steps step (fun _ _ => True) (start sv₀ file qd)

/-! ## What a run shows -/

section
variable (tr : List Event)

/-- The writes prepared, those ended, the chunks freed, and how many completions are seen. -/
def prepared : List Sqe := tr.filterMap fun | .prepared sqe => some sqe | _ => none

def written : List Sqe := tr.filterMap fun | .written sqe _ => some sqe | _ => none

def freed : List Nat := tr.filterMap fun | .freed chunk => some chunk | _ => none

def seen : Nat := tr.countP fun | .seen => true | _ => false

end

/-- The completion the thread has in hand. -/
def hand : UringPc → List Cqe
  | .check cqe | .clear cqe | .seen cqe => [cqe]
  | _ => []

/-- The completion whose chunk the thread is about to free. -/
def freeing : UringPc → List Cqe
  | .check cqe | .clear cqe => [cqe]
  | _ => []

/-- Where the writes are. -/
structure Inv (qd : Nat) (tr : List Event) (sv : Server) : Prop where
  depth : sv.ring.qd = qd
  inflight : sv.ring.inflight =
    sv.ring.sq.length + sv.ring.flight.length + sv.ring.cq.length + (hand sv.uring).length
  limit : sv.ring.inflight ≤ qd
  submitted : sv.uring = .wait → sv.ring.sq = [] ∧ 0 < sv.ring.inflight
  prepared : (prepared tr).Perm (written tr ++ (sv.ring.flight ++ sv.ring.sq))
  freed : (written tr).map (·.item.chunk) = freed tr ++ (freeing sv.uring ++ sv.ring.cq).map (·.data)
  seen : seen tr + ((hand sv.uring).length + sv.ring.cq.length) = (written tr).length

section
variable {sv₀ sv sv' : Server} {file : Buf} {qd : Nat} {tr es : List Event} {l : Label}

theorem step_cases (h : step sv l = some (sv', es)) :
    (sv'.ring = sv.ring ∧ sv'.uring = sv.uring ∧ es = []) ∨
      ∃ w es', Turn sv w sv' es' ∧ es = shows sv.uring sv'.uring w es' := by
  unfold step at h
  split at h
  · cases h
  cases l with
  | others mem map db bitmap items aborted =>
    cases h
    exact .inl ⟨rfl, rfl, rfl⟩
  | dequeue p =>
    obtain ⟨⟨sv₁, es₁⟩, hd, he⟩ := Option.map_eq_some_iff.1 h
    cases he
    exact .inr ⟨none, es₁, dequeueStep_cases hd, rfl⟩
  | uring =>
    obtain ⟨sv₁, hu, he⟩ := Option.map_eq_some_iff.1 h
    cases he
    exact .inr ⟨none, [], uringStep_cases hu, rfl⟩
  | complete j res =>
    obtain ⟨ring, hc, he⟩ := Option.map_eq_some_iff.1 h
    cases he
    exact .inr ⟨_, [], complete_cases hc, rfl⟩
  | waitFail =>
    simp only at h
    split at h
    · cases h
      exact .inl ⟨rfl, rfl, rfl⟩
    · cases h

theorem written_append (tr tr' : List Event) : written (tr ++ tr') = written tr ++ written tr' :=
  List.filterMap_append

theorem seen_append (tr tr' : List Event) : seen (tr ++ tr') = seen tr + seen tr' :=
  List.countP_append

theorem inv_start (sv₀ : Server) (file : Buf) (qd : Nat) : Inv qd [] (start sv₀ file qd) where
  depth := rfl
  inflight := rfl
  limit := Int.natCast_nonneg qd
  submitted h := by cases h
  prepared := .refl _
  freed := rfl
  seen := rfl

/-- The others leave the ring to the thread. -/
theorem Inv.same (h : Inv qd tr sv) (hr : sv'.ring = sv.ring) (hu : sv'.uring = sv.uring) :
    Inv qd tr sv' where
  depth := hr ▸ h.depth
  inflight := hr ▸ hu ▸ h.inflight
  limit := hr ▸ h.limit
  submitted := hr ▸ hu ▸ h.submitted
  prepared := hr ▸ h.prepared
  freed := hr ▸ hu ▸ h.freed
  seen := hr ▸ hu ▸ h.seen

theorem shows_same (pc : UringPc) (w : Option (Sqe × Int)) (es : List Pmr.Event) :
    shows pc pc w es = (es.filterMap fun | .dequeued _ sqe => some (.prepared sqe) | _ => none) ++
      (w.map fun w => Event.written w.1 w.2).toList := by
  cases pc <;> simp [shows]

/-! ## Turns -/

/-- A write goes into the submission queue, which is not full. -/
theorem Inv.dequeue (h : Inv qd tr sv) (hu : sv.uring = .poll) (hf : sv.ring.full = false)
    (it : Item) (queue : List (Nat × Item)) :
    Inv qd (tr ++ [.prepared ⟨it, sv.ring.offset⟩]) { sv with
      queue
      ring := { sv.ring with
        sq := sv.ring.sq ++ [⟨it, sv.ring.offset⟩]
        inflight := sv.ring.inflight + 1
        offset := sv.ring.offset + it.size } } where
  depth := h.depth
  inflight := by
    have hn := h.inflight
    simp only [List.length_append, List.length_singleton]
    omega
  limit := by
    have hlt : sv.ring.inflight < qd := by simpa [IOuring.full, h.depth] using hf
    exact hlt
  submitted hw := by
    rw [hu] at hw
    cases hw
  prepared := by
    have hp := h.prepared.append_right [⟨it, sv.ring.offset⟩]
    simpa [UringRun.prepared, written] using hp
  freed := by simpa [written, UringRun.freed] using h.freed
  seen := by simpa [written, UringRun.seen] using h.seen

/-- All of it goes to the kernel. -/
theorem Inv.submit (h : Inv qd tr sv) (hu : sv.uring = .poll) (he : sv.ring.empty = false) :
    Inv qd tr { sv with ring := sv.ring.submit, uring := .wait } where
  depth := h.depth
  inflight := by
    have hn := h.inflight
    simp only [hu, hand, List.length_nil] at hn
    simp only [IOuring.submit, hand, List.length_append, List.length_nil]
    omega
  limit := h.limit
  submitted _ := by
    have hn := h.inflight
    have hpos : sv.ring.inflight ≠ 0 := by simpa [IOuring.empty] using he
    refine ⟨rfl, ?_⟩
    simp only [IOuring.submit]
    omega
  prepared := by simpa [IOuring.submit] using h.prepared
  freed := by simpa [hu, freeing, IOuring.submit] using h.freed
  seen := by simpa [hu, hand, IOuring.submit] using h.seen

/-- The thread takes a completion. -/
theorem Inv.wait (h : Inv qd tr sv) {cqe : Cqe} {cq : List Cqe} (hu : sv.uring = .wait)
    (hc : sv.ring.cq = cqe :: cq) :
    Inv qd tr { sv with ring := { sv.ring with cq }, uring := .check cqe } where
  depth := h.depth
  inflight := by
    have hn := h.inflight
    simp only [hu, hc, hand, List.length_cons, List.length_nil] at hn
    simp only [hand, List.length_singleton]
    omega
  limit := h.limit
  submitted hw := by cases hw
  prepared := h.prepared
  freed := by simpa [hu, hc, freeing] using h.freed
  seen := by
    have hs := h.seen
    simp only [hu, hc, hand, List.length_cons, List.length_nil] at hs
    simp only [hand, List.length_singleton]
    omega

/-- It has found the chunk in use. -/
theorem Inv.check (h : Inv qd tr sv) {cqe : Cqe} (hu : sv.uring = .check cqe) :
    Inv qd tr { sv with uring := .clear cqe } where
  depth := h.depth
  inflight := by simpa [hu, hand] using h.inflight
  limit := h.limit
  submitted hw := by cases hw
  prepared := h.prepared
  freed := by simpa [hu, freeing] using h.freed
  seen := by simpa [hu, hand] using h.seen

/-- It frees the chunk. -/
theorem Inv.clear (h : Inv qd tr sv) {cqe : Cqe} (hu : sv.uring = .clear cqe)
    (bitmap : AtomicBitset) :
    Inv qd (tr ++ [.freed cqe.data]) { sv with bitmap, uring := .seen cqe } where
  depth := h.depth
  inflight := by simpa [hu, hand] using h.inflight
  limit := h.limit
  submitted hw := by cases hw
  prepared := by simpa [UringRun.prepared, written] using h.prepared
  freed := by simpa [written, UringRun.freed, hu, freeing] using h.freed
  seen := by simpa [written, UringRun.seen, hu, hand] using h.seen

/-- It is done with the completion. -/
theorem Inv.see (h : Inv qd tr sv) {cqe : Cqe} (hu : sv.uring = .seen cqe) :
    Inv qd (tr ++ [.seen]) { sv with ring := sv.ring.seen, uring := .poll } where
  depth := h.depth
  inflight := by
    have hn := h.inflight
    simp only [hu, hand, List.length_singleton] at hn
    simp only [IOuring.seen, hand, List.length_nil]
    omega
  limit := by
    have hl := h.limit
    simp only [IOuring.seen]
    omega
  submitted hw := by cases hw
  prepared := by simpa [UringRun.prepared, written, IOuring.seen] using h.prepared
  freed := by simpa [written, UringRun.freed, hu, freeing, IOuring.seen] using h.freed
  seen := by
    have hs := h.seen
    simp only [hu, hand, List.length_singleton] at hs
    have hone : UringRun.seen [.seen] = 1 := rfl
    have hnone : written [.seen] = [] := rfl
    simp only [seen_append, written_append, hone, hnone, hand, IOuring.seen, List.append_nil,
      List.length_nil]
    omega

/-- The kernel ends any of the writes it has. -/
theorem Inv.complete (h : Inv qd tr sv) {j : Nat} (hj : j < sv.ring.flight.length) (file : Buf)
    (res : Int) :
    Inv qd (tr ++ [.written sv.ring.flight[j] res]) { sv with
      ring := { sv.ring with
        file
        flight := sv.ring.flight.eraseIdx j
        cq := sv.ring.cq ++ [⟨sv.ring.flight[j].item.chunk, res⟩] } } where
  depth := h.depth
  inflight := by
    have hn := h.inflight
    have hlen := (List.getElem_cons_eraseIdx_perm hj).length_eq
    simp only [List.length_append, List.length_cons, List.length_nil] at hlen ⊢
    omega
  limit := h.limit
  submitted := h.submitted
  prepared := by
    have hperm := (List.getElem_cons_eraseIdx_perm hj).symm.append_right sv.ring.sq
    have hp := h.prepared.trans (hperm.append_left (written tr))
    simpa [UringRun.prepared, written] using hp
  freed := by
    have hf := congrArg (· ++ [sv.ring.flight[j].item.chunk]) h.freed
    simpa [written, UringRun.freed] using hf
  seen := by
    have hs := h.seen
    have hnone : UringRun.seen [.written sv.ring.flight[j] res] = 0 := rfl
    have hone : written [.written sv.ring.flight[j] res] = [sv.ring.flight[j]] := rfl
    simp only [seen_append, written_append, hone, hnone, List.length_append, List.length_singleton]
    omega

theorem inv_turn (h : Inv qd tr sv) {w : Option (Sqe × Int)} {es' : List Pmr.Event}
    (ht : Turn sv w sv' es') : Inv qd (tr ++ shows sv.uring sv'.uring w es') sv' := by
  cases ht with
  | dequeue hu hf =>
    rw [shows_same]
    exact h.dequeue hu hf _ _
  | abort =>
    rw [shows_same]
    have hi : Inv qd tr { sv with aborted := true } := h.same rfl rfl
    simpa using hi
  | idle =>
    rw [shows_same]
    simpa using h
  | submit hu he =>
    have hshow : shows sv.uring .wait none [] = [] := by rw [hu]; rfl
    rw [hshow, List.append_nil]
    exact h.submit hu he
  | @wait cqe _ hu hc =>
    have hshow : shows sv.uring (.check cqe) none [] = [] := by rw [hu]; rfl
    rw [hshow, List.append_nil]
    exact h.wait hu hc
  | @check cqe hu =>
    have hshow : shows sv.uring (.clear cqe) none [] = [] := by rw [hu]; rfl
    rw [hshow, List.append_nil]
    exact h.check hu
  | @clear cqe _ bitmap hu =>
    have hshow : shows sv.uring (.seen cqe) none [] = [.freed cqe.data] := by rw [hu]; rfl
    rw [hshow]
    exact h.clear hu bitmap
  | seen hu =>
    have hshow : shows sv.uring .poll none [] = [.seen] := by rw [hu]; rfl
    rw [hshow]
    exact h.see hu
  | complete hj =>
    obtain ⟨hlt, rfl⟩ := List.getElem?_eq_some_iff.1 hj
    rw [shows_same]
    exact h.complete hlt _ _

theorem inv_run (h : Run sv₀ file qd tr sv) : Inv qd tr sv := by
  refine h.invariant (I := Inv qd) (inv_start sv₀ file qd) ?_
  intro tr sv l sv' es _ hi _ hs
  obtain ⟨hr, hu, rfl⟩ | ⟨w, es', ht, rfl⟩ := step_cases hs
  · rw [List.append_nil]
    exact hi.same hr hu
  · exact inv_turn hi ht

/-! ## The count -/

theorem Inv.count (h : Inv qd tr sv) :
    sv.ring.inflight = (UringRun.prepared tr).length - UringRun.seen tr := by
  have hp := h.prepared.length_eq
  have hs := h.seen
  rw [h.inflight]
  simp only [List.length_append] at hp
  omega

/-- There is a slot for a write that is prepared while the ring is not full. -/
theorem Inv.slot (h : Inv qd tr sv) (hf : sv.ring.full = false) (it : Item) :
    (sv.ring.write it).isSome := by
  have hlt : sv.ring.inflight < sv.ring.qd := by simpa [IOuring.full] using hf
  have hsq : sv.ring.sq.length < sv.ring.qd := by
    have hn := h.inflight
    omega
  simp [IOuring.write, hsq]

/-- The thread waits for a write that is with the kernel, or has been completed. -/
theorem Inv.outstanding (h : Inv qd tr sv) (hw : sv.uring = .wait) :
    sv.ring.flight ≠ [] ∨ sv.ring.cq ≠ [] := by
  obtain ⟨hsq, hpos⟩ := h.submitted hw
  by_contra hnone
  simp only [not_or, not_not] at hnone
  have hn := h.inflight
  simp only [hsq, hnone.1, hnone.2, hw, hand, List.length_nil] at hn
  omega

/-- Nothing is under way in an empty ring. -/
theorem Inv.of_empty (h : Inv qd tr sv) (he : sv.ring.empty = true) :
    sv.ring.sq = [] ∧ sv.ring.flight = [] ∧ sv.ring.cq = [] ∧ freeing sv.uring = [] := by
  have h0 : sv.ring.inflight = 0 := by simpa [IOuring.empty] using he
  have hn := h.inflight
  rw [h0] at hn
  refine ⟨List.eq_nil_of_length_eq_zero (by omega), List.eq_nil_of_length_eq_zero (by omega),
    List.eq_nil_of_length_eq_zero (by omega), ?_⟩
  have hhand : (hand sv.uring).length = 0 := by omega
  cases hu : sv.uring <;> rw [hu] at hhand <;> first | rfl | cases hhand

/-- **The in-flight count**, in every state of the thread on a ring of any depth: it is the number of
writes prepared and not yet seen, and within the depth; there is a slot for each write, and a write
to wait for; each item dequeued is written and freed at most once, and once when the ring is empty. -/
theorem inflight_exact (h : Run sv₀ file qd tr sv) :
    (sv.ring.inflight = (prepared tr).length - seen tr ∧
      0 ≤ sv.ring.inflight ∧ sv.ring.inflight ≤ qd) ∧
    (sv.uring = .poll → sv.ring.full = false → ∀ it, (sv.ring.write it).isSome) ∧
    (sv.uring = .wait → sv.ring.flight ≠ [] ∨ sv.ring.cq ≠ []) ∧
    ((written tr).Subperm (prepared tr) ∧ freed tr <+: (written tr).map (·.item.chunk)) ∧
    (sv.ring.empty = true →
      (written tr).Perm (prepared tr) ∧ freed tr = (written tr).map (·.item.chunk)) := by
  have hi := inv_run h
  refine ⟨⟨hi.count, ?_, hi.limit⟩, fun _ hf it => hi.slot hf it, hi.outstanding, ⟨?_, ?_⟩, ?_⟩
  · rw [hi.inflight]
    omega
  · exact (List.sublist_append_left _ _).subperm.trans hi.prepared.symm.subperm
  · rw [hi.freed]
    exact List.prefix_append _ _
  · intro he
    obtain ⟨hsq, hfl, hcq, hfr⟩ := hi.of_empty he
    have hp := hi.prepared
    have hf := hi.freed
    simp only [hsq, hfl, List.append_nil] at hp
    simp only [hcq, hfr, List.append_nil, List.map_nil] at hf
    exact ⟨hp.symm, hf.symm⟩

/-- Two items pass a ring of depth one, the second dequeued when the first one is seen. -/
theorem inflight_exact_two : ∃ tr sv,
    Run (init (fun _ => 0) (fun _ => 0) (fun _ => none)).server (fun _ => 0) 1 tr sv ∧
    (prepared tr).length = 2 ∧ sv.ring.empty = true ∧ (written tr).Perm (prepared tr) ∧
    freed tr = [3, 5] := by
  obtain ⟨tr, sv, hr, hp, he, hf⟩ : ∃ tr sv,
      Run (init (fun _ => 0) (fun _ => 0) (fun _ => none)).server (fun _ => 0) 1 tr sv ∧
      (prepared tr).length = 2 ∧ sv.ring.empty = true ∧ freed tr = [3, 5] :=
    ⟨_, _, Steps.of_exec_get [.others (fun _ => 0) (fun _ => none) (fun _ => none)
        ⟨256, List.replicate 4 (BitVec.allOnes 64), rfl⟩
        [(0, ⟨fun _ => 1, 10, 3⟩), (1, ⟨fun _ => 2, 20, 5⟩)] false,
      .dequeue 0, .uring, .complete 0 10, .uring, .uring, .uring, .uring,
      .dequeue 1, .uring, .complete 0 (-5), .uring, .uring, .uring, .uring]
      (by decide +kernel), by decide +kernel, by decide +kernel, by decide +kernel⟩
  exact ⟨tr, sv, hr, hp, he, ((inflight_exact hr).2.2.2.2 he).1, hf⟩

end

/-! ## The PMR system -/

section
variable {sv sv' : Server} {s s' : State} {c : Nat} {k k' : Conn} {a : Act} {es : List Pmr.Event}

/-- The others have added `items` to the queue. -/
theorem step_others (ha : sv.aborted = false) (items : List (Nat × Item))
    (h : sv' = { sv with
      mem := sv'.mem, map := sv'.map, db := sv'.db, bitmap := sv'.bitmap
      queue := sv.queue ++ items, aborted := sv'.aborted }) :
    ∃ l, step sv l = some (sv', []) := by
  refine ⟨.others sv'.mem sv'.map sv'.db sv'.bitmap items sv'.aborted, ?_⟩
  rw [step, if_neg (by simp [ha])]
  exact congrArg (fun x => some (x, [])) h.symm

theorem step_of_move (ha : sv.aborted = false) (hm : Pmr.Move sv c k a sv' k' es) :
    ∃ l, step sv l = some (sv', []) := by
  cases hm
  case enqueue => exact step_others ha [_] rfl
  all_goals exact step_others ha [] (by rw [List.append_nil])

/-- A step of the PMR system is one of the thread, the kernel or the others. -/
theorem step_of_step {l : Pmr.Label} (h : Pmr.step s l = some (s', es)) :
    ∃ l' es', step s.server l' = some (s'.server, es') := by
  unfold Pmr.step at h
  split at h
  · cases h
  rename_i ha
  rw [Bool.not_eq_true] at ha
  cases l with
  | connect localBuf sendBuf =>
    cases h
    have hs : ∃ l', step s.server l' = some (s.server, []) :=
      step_others ha [] (by rw [List.append_nil])
    obtain ⟨l', hl'⟩ := hs
    exact ⟨l', [], hl'⟩
  | conn c a =>
    simp only at h
    split at h
    · cases h
    · rename_i k hk
      split at h
      · cases h
      · rename_i sv' k' es' hm
        cases h
        obtain ⟨l', hl'⟩ := step_of_move ha (connStep_cases hm)
        exact ⟨l', [], hl'⟩
  | dequeue p =>
    obtain ⟨⟨sv', es'⟩, hd, he⟩ := Option.map_eq_some_iff.1 h
    cases he
    exact ⟨.dequeue p, _, by simp only [step, ha, hd]; rfl⟩
  | uring =>
    obtain ⟨sv', hu, he⟩ := Option.map_eq_some_iff.1 h
    cases he
    exact ⟨.uring, _, by simp only [step, ha, hu]; rfl⟩
  | complete j res =>
    obtain ⟨ring, hc, he⟩ := Option.map_eq_some_iff.1 h
    cases he
    exact ⟨.complete j res, _, by simp only [step, ha, hc]; rfl⟩
  | waitFail =>
    simp only at h
    split at h
    · rename_i hw
      cases h
      exact ⟨.waitFail, [], by simp only [step, ha, hw]; rfl⟩
    · cases h

/-- **The server of the PMR system** runs the thread on a ring of depth 64. -/
theorem uringRun_of_run {P : State → Pmr.Label → Prop} {mem file : Buf} {db : Store}
    {tr : List Pmr.Event} (h : Pmr.Run P mem file db tr s) :
    ∃ tr', Run (init mem file db).server file 64 tr' s.server := by
  have h0 : ∃ tr', Run (init mem file db).server file 64 tr' (init mem file db).server :=
    ⟨[], Steps.refl⟩
  refine Steps.invariant
    (I := fun _ s => ∃ tr', Run (init mem file db).server file 64 tr' s.server) h0 ?_ h
  rintro tr s l s' es - ⟨tr', hr⟩ - hs
  obtain ⟨l', es', hs'⟩ := step_of_step hs
  exact ⟨tr' ++ es', hr.tail trivial hs'⟩

end

end PMRAccess.Pmr.UringRun
