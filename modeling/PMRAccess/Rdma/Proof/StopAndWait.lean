import PMRAccess.Rdma.Proof.Turn

/-!
# Stop and wait

The steps of the connection itself, and with them whole runs: the client and its clerk take turns
(`turn_step`). `stop_and_wait`: on a pair that starts with nothing in flight the clerk handles every
request once, from the bytes the client posted, every call returns with the bytes of its reply, and
the pair never gets stuck. `connect_in_time_iff`: from the moment the server's queue pair can
receive, the same holds exactly in the runs in which the constructor of `PMRClerk` sets the header
before the header of the first request is placed. In the others that request is lost
(`request_lost`).
-/

namespace PMRAccess.Rdma

open Lib

variable {fe : FrontEnd} {tr es : List Event} {s s' : State}

/-! ## The handler and the connection -/

theorem Turn.handled_of_pc (h : Turn fe tr s) (hp : s.clerk.pc = .answer) : Handled fe tr s := by
  have hw : ¬ ClerkWaits s.clerk := by rintro (⟨h, -⟩ | ⟨h, -⟩) <;> simp [h] at hp
  have hf : ¬ ClerkFree fe s.clerk := by
    rintro (⟨-, h, -⟩ | ⟨-, h⟩)
    · simp [h] at hp
    · exact hw h
  cases h with
  | idle h => exact absurd h.clerk hf
  | sending c off placed rest h => exact absurd h.clerk hf
  | sent x h =>
    rcases h.clerk with hc | ⟨hc, -⟩
    · exact absurd hc hw
    · simp [hc] at hp
  | taken x h => simp [h.clerk.1] at hp
  | handled h => exact h
  | replying placed rest h =>
    have hc := h.clerk.1
    cases rest <;> simp [hp, ClerkPc.next] at hc
  | answered h => exact absurd h.clerk hf

/-- The handler has written its reply. -/
theorem Turn.answer {out : Bytes} (hr : Rounds fe tr) (h : Turn fe tr s)
    (hw : Wf fe s (.answer out)) (hs : step fe s (.answer out) = some (s', es)) :
    Next fe tr es s s' := by
  simp only [step] at hs
  split at hs
  · rename_i hp
    obtain ⟨rfl, rfl⟩ : _ = s' ∧ _ = es := by simpa using hs
    have hh := h.handled_of_pc hp
    let b := s.clerk.mem.write fe.clerkBuf ringHeader out fe.clerkBuf
    refine ⟨hr.reply, .replying [] (fe.reply b) ?_, ?_⟩
    · exact {
        client := hh.client
        header := hh.header
        len := hw
        transit := by
          rw [hh.quiet.2]
          exact .start _ _ _
        left := .inl (by simp [FrontEnd.reply, message])
        clerk := ⟨rfl, hh.clerk.2⟩
        request := by
          show header (s.clerk.mem.write fe.clerkBuf ringHeader out fe.clerkBuf) = clerkDone
          rw [Mem.write_self, header_write (by decide)]
          exact hh.request
        quiet := hh.quiet.1
        counts := hh.counts.reply
        replied := hh.counts.currentReply }
    · simp [rank, clerkRank, hp, FrontEnd.reply, message, ClerkPc.next]
  · cases hs

/-- Only a request on its way has writes in flight to the clerk. -/
theorem Turn.sending_of_toClerk (h : Turn fe tr s) (hne : s.toClerk ≠ []) :
    ∃ c off placed rest, Sending fe tr s c off placed rest := by
  cases h with
  | idle h => exact absurd h.quiet.1 hne
  | sending c off placed rest h => exact ⟨c, off, placed, rest, h⟩
  | sent x h => exact absurd h.quiet.1 hne
  | taken x h => exact absurd h.quiet.1 hne
  | handled h => exact absurd h.quiet.1 hne
  | replying placed rest h => exact absurd h.quiet hne
  | answered h => exact absurd h.quiet.1 hne

/-- Only a reply on its way has writes in flight to the client. -/
theorem Turn.replying_of_toClient (h : Turn fe tr s) (hne : s.toClient ≠ []) :
    ∃ placed rest, Replying fe tr s placed rest := by
  cases h with
  | idle h => exact absurd h.quiet.2 hne
  | sending c off placed rest h => exact absurd h.quiet hne
  | sent x h => exact absurd h.quiet.2 hne
  | taken x h => exact absurd h.quiet.2 hne
  | handled h => exact absurd h.quiet.2 hne
  | replying placed rest h => exact ⟨placed, rest, h⟩
  | answered h => exact absurd h.quiet.2 hne

theorem Turn.fetchRequest {i : Nat} (hr : Rounds fe tr) (h : Turn fe tr s)
    (hs : step fe s (.fetchRequest i) = some (s', es)) : Next fe tr es s s' := by
  simp only [step, Option.map_eq_some_iff, Prod.mk.injEq] at hs
  obtain ⟨fs, hf, rfl, rfl⟩ := hs
  obtain ⟨hne, hne'⟩ := fetchAt_ne_nil hf
  obtain ⟨c, off, placed, rest, hs⟩ := h.sending_of_toClerk hne
  refine .silent hr (.sending c off placed rest ?_) ?_
  · exact { hs with transit := hs.transit.fetch hf, left := .inr hne' }
  · have := weight_fetch hf
    simp only [rank]
    omega

theorem Turn.fetchReply {i : Nat} (hr : Rounds fe tr) (h : Turn fe tr s)
    (hs : step fe s (.fetchReply i) = some (s', es)) : Next fe tr es s s' := by
  simp only [step, Option.map_eq_some_iff, Prod.mk.injEq] at hs
  obtain ⟨fs, hf, rfl, rfl⟩ := hs
  obtain ⟨hne, hne'⟩ := fetchAt_ne_nil hf
  obtain ⟨placed, rest, hs⟩ := h.replying_of_toClient hne
  refine .silent hr (.replying placed rest ?_) ?_
  · exact { hs with transit := hs.transit.fetch hf, left := .inr hne' }
  · have := weight_fetch hf
    simp only [rank]
    omega

section
variable {π : Type} (x : End π) (w : Write BufId)

@[simp] theorem End.complete_mem : (x.complete w).mem = x.mem := by
  unfold End.complete
  split <;> rfl

@[simp] theorem End.complete_pc : (x.complete w).pc = x.pc := by
  unfold End.complete
  split <;> rfl

theorem End.complete_cq : (x.complete w).cq = if w.signal then x.cq + 1 else x.cq := by
  unfold End.complete
  split <;> rfl

end

/-- A write of a request is placed: the last one hands the turn to the clerk. -/
theorem Turn.placeRequest (hr : Rounds fe tr) (h : Turn fe tr s) (ht : InTime s .placeRequest)
    (hs : step fe s .placeRequest = some (s', es)) : Next fe tr es s s' := by
  simp only [step, Option.map_eq_some_iff, Prod.exists, Prod.mk.injEq] at hs
  obtain ⟨w, mem, fs, hp, rfl, rfl⟩ := hs
  obtain ⟨f, hfs, hfw⟩ := place_head hp
  obtain ⟨c, off, placed, rest, hs⟩ := h.sending_of_toClerk (by simp [hfs])
  have hmsg := isMessage_posts fe off c
  refine .silent hr ?_ ?_
  · rcases hmsg.place hs.transit hp with ⟨hrest, rfl, hsig, hall⟩ | ⟨hleft, hsig, hhead, htr⟩
    · obtain rfl := List.map_eq_nil_iff.1 hrest
      obtain ⟨b, hb⟩ := hs.prepared
      -- the header of the request is placed, so the clerk is constructed
      have hwaits : ClerkWaits s.clerk := by
        rcases hs.clerk with ⟨-, hcon, -⟩ | ⟨-, hw⟩
        · exact absurd hcon (ht f (by simp [hfs]) (by rw [hfw]; exact hsig))
        · exact hw
      refine .sent (fe.asked off (s.client.mem .write) c) ?_
      exact {
        client := .inr ⟨(End.complete_pc _ _).trans hs.client,
          by simp [End.complete_cq, hsig, hs.cq]⟩
        header := by simpa using hs.header
        received := received hs.sends hb hall
        clerk := .inl hwaits
        request := by
          have hh := hmsg.header hall
          rw [show fe.requestVerb.source = .write by cases fe <;> rfl, hs.header] at hh
          exact hh
        quiet := ⟨rfl, hs.quiet⟩
        counts := hs.counts
        asked := hs.asked }
    · refine .sending c off (placed ++ [w]) rest ?_
      exact { hs with
        prepared := by simpa using hs.prepared
        transit := by simpa using htr
        left := by simpa using hleft
        client := by simpa using hs.client
        cq := by simp [End.complete_cq, hsig, hs.cq]
        header := by simpa using hs.header
        clerk := by
          rcases hs.clerk with hcon | ⟨hh, hw⟩
          · exact .inl hcon
          · exact .inr ⟨fun he => hh (hhead.symm.trans he), hw⟩
        asked := by simpa using hs.asked }
  · have hweight := weight_place hp
    have ho : owed (s.client.complete w) = owed s.client := by simp [owed]
    have hk : ∀ o, clerkRank o ⟨mem, s.clerk.pc, s.clerk.cq⟩ = clerkRank o s.clerk := fun _ => rfl
    simp only [rank, ho, hk, End.complete_pc]
    omega

/-- A write of a reply is placed: the last one hands the turn back to the client. -/
theorem Turn.placeReply (hr : Rounds fe tr) (h : Turn fe tr s)
    (hs : step fe s .placeReply = some (s', es)) : Next fe tr es s s' := by
  simp only [step, Option.map_eq_some_iff, Prod.exists, Prod.mk.injEq] at hs
  obtain ⟨w, mem, fs, hp, rfl, rfl⟩ := hs
  obtain ⟨f, hfs, hfw⟩ := place_head hp
  obtain ⟨placed, rest, hs⟩ := h.replying_of_toClient (by simp [hfs])
  have hmsg : IsMessage fe.replyVerb ((fe.reply (s.clerk.mem fe.clerkBuf)).map Post.toWrite) :=
    isMessage_message _ _
  have htgt : fe.replyVerb.target = .write := by cases fe <;> rfl
  have hsrc : fe.replyVerb.source = fe.clerkBuf := by cases fe <;> rfl
  have hweight := weight_place hp
  rcases hmsg.place hs.transit hp with ⟨hrest, rfl, hsig, hall⟩ | ⟨hleft, hsig, hhead, htr⟩
  · obtain rfl := List.map_eq_nil_iff.1 hrest
    have hpoll : s.clerk.pc = .poll := hs.clerk.1
    have hdone : header (mem .write) = clerkDone := by
      have hh := hmsg.header hall
      rw [htgt, hsrc, hs.request] at hh
      exact hh
    refine .silent hr (.answered ?_) ?_
    · exact {
        client := .inl ⟨.inl hs.client, hdone⟩
        clerk := .inr ⟨by simp [hs.request, Ne.symm clientDone_ne],
          .inr ⟨by simpa using hpoll, by simp [End.complete_cq, hsig, hs.clerk.2]⟩⟩
        quiet := ⟨hs.quiet, rfl⟩
        counts := hs.counts
        replied := by
          rw [hs.replied, reply_received hs.len hall] }
    · -- the reply is no longer owed
      have ho : owed ⟨mem, s.client.pc, s.client.cq⟩ = false := by
        rcases hs.client with ⟨hc, -⟩ | ⟨hc, -⟩ <;> simp [owed, hc, hdone]
      have hk : clerkRank false (s.clerk.complete w) = 1 := by
        simp [clerkRank, hpoll, End.complete_cq, hsig]
      have hk' : clerkRank (owed s.client) s.clerk = 2 := by
        simp [clerkRank, hpoll, hs.clerk.2]
      simp only [rank, ho, hk, hk']
      omega
  · rw [htgt] at hhead
    refine .silent hr (.replying (placed ++ [w]) rest ?_) ?_
    · exact { hs with
        header := hhead.trans hs.header
        len := by simpa using hs.len
        transit := by simpa using htr
        left := by simpa using hleft
        clerk := ⟨by simpa using hs.clerk.1, by simp [End.complete_cq, hsig, hs.clerk.2]⟩
        request := by simpa using hs.request
        replied := by simpa using hs.replied }
    · have ho : owed ⟨mem, s.client.pc, s.client.cq⟩ = owed s.client := by
        simp only [owed, hhead]
      have hk : ∀ o, clerkRank o (s.clerk.complete w) = clerkRank o s.clerk := by
        intro o
        simp [clerkRank, End.complete_cq, hsig]
      simp only [rank, ho, hk]
      omega

/-- **One step.** -/
theorem turn_step {a : Label} (hr : Rounds fe tr) (h : Turn fe tr s) (hw : Wf fe s a)
    (ht : InTime s a) (hs : step fe s a = some (s', es)) :
    Rounds fe (tr ++ es) ∧ Turn fe (tr ++ es) s' ∧ (a.isCall = false → rank s' < rank s) := by
  have hnext : Next fe tr es s s' →
      Rounds fe (tr ++ es) ∧ Turn fe (tr ++ es) s' ∧ (a.isCall = false → rank s' < rank s) :=
    fun hn => ⟨hn.rounds, hn.turn, fun _ => hn.rank⟩
  cases a with
  | call c off =>
    obtain ⟨hr', h'⟩ := h.call hr hw hs
    exact ⟨hr', h', by simp [Label.isCall]⟩
  | client => exact hnext (h.client hr hs)
  | clerk => exact hnext (h.clerk hr hs)
  | answer out => exact hnext (h.answer hr hw hs)
  | fetchRequest i => exact hnext (h.fetchRequest hr hs)
  | placeRequest => exact hnext (h.placeRequest hr ht hs)
  | fetchReply i => exact hnext (h.fetchReply hr hs)
  | placeReply => exact hnext (h.placeReply hr hs)

/-! ## Progress -/

/-- A reply without a value. -/
theorem replyLen_empty (m : Mem BufId) (i : BufId) :
    replyLen (m.write i ringHeader (leBytes 4 0 ++ leBytes 4 0) i) = sizeofRequest := by
  have h := ((Answers.setReply (m i) .ok []).reply (by simp)).2.1
  rw [setReply, List.append_nil] at h
  rw [Mem.write_self, replyLen]
  exact congrArg (sizeofRequest + ·) h

theorem ClerkFree.construct_or (h : ClerkFree fe s.clerk) :
    (Rdma.step fe s .clerk).isSome ∨ s.clerk.pc ≠ .construct := by
  rcases h with ⟨-, hp, -⟩ | ⟨-, ⟨hp, -⟩ | ⟨hp, -⟩⟩
  · exact .inl (by simp [Rdma.step, clerkStep, hp])
  · exact .inr (by simp [hp])
  · exact .inr (by simp [hp])

/-- Inside a call some step is enabled that is not a new call. -/
theorem Turn.enabled (h : Turn fe tr s) (hp : s.client.pc ≠ .idle) :
    ∃ a, a.isCall = false ∧ Wf fe s a ∧ InTime s a ∧ (step fe s a).isSome := by
  have hclient : (step fe s .client).isSome →
      ∃ a, a.isCall = false ∧ Wf fe s a ∧ InTime s a ∧ (step fe s a).isSome :=
    fun hs => ⟨.client, rfl, trivial, trivial, hs⟩
  have hclerk : (step fe s .clerk).isSome →
      ∃ a, a.isCall = false ∧ Wf fe s a ∧ InTime s a ∧ (step fe s a).isSome :=
    fun hs => ⟨.clerk, rfl, trivial, trivial, hs⟩
  cases h with
  | idle h =>
    rcases h.client with hc | hc
    · exact hclient (by simp [step, clientStep, hc])
    · exact absurd hc.1 hp
  | sending c off placed rest h =>
    cases rest with
    | cons p ps =>
      have hc : s.client.pc = .post p ps := h.client
      exact hclient (by simp [step, clientStep, hc])
    | nil =>
      rcases h.clerk.construct_or with hcon | hcon
      · exact hclerk hcon
      · rcases fetch_or_place s.client.mem s.clerk.mem (h.left.resolve_left (by simp)) with hf | hf
        · exact ⟨.fetchRequest 0, rfl, trivial, trivial, by simpa [step] using hf⟩
        · exact ⟨.placeRequest, rfl, trivial, fun _ _ _ => hcon, by simpa [step] using hf⟩
  | sent x h =>
    rcases h.clerk with (⟨hc, hq⟩ | ⟨hc, hq⟩) | ⟨hc, hq⟩
    · exact hclerk (by simp [step, clerkStep, hc, h.request])
    · exact hclerk (by simp [step, clerkStep, hc, hq])
    · exact hclerk (by simp [step, clerkStep, hc])
  | taken x h => exact hclerk (by simp [step, clerkStep, h.clerk.1])
  | handled h =>
    refine ⟨.answer (leBytes 4 0 ++ leBytes 4 0), rfl, ?_, trivial, by simp [step, h.clerk.1]⟩
    show replyLen _ < 2 ^ 32
    rw [replyLen_empty]
    decide
  | replying placed rest h =>
    cases rest with
    | cons p ps =>
      have hc : s.clerk.pc = .post p ps := h.clerk.1
      exact hclerk (by simp [step, clerkStep, hc])
    | nil =>
      rcases fetch_or_place s.clerk.mem s.client.mem (h.left.resolve_left (by simp)) with hf | hf
      · exact ⟨.fetchReply 0, rfl, trivial, trivial, by simpa [step] using hf⟩
      · exact ⟨.placeReply, rfl, trivial, trivial, by simpa [step] using hf⟩
  | answered h =>
    rcases h.client with ⟨(⟨hc, hq⟩ | ⟨hc, hq⟩) | ⟨hc, hq⟩, hh⟩ | ⟨⟨hc, hq⟩, hh⟩
    · exact hclient (by simp [step, clientStep, hc, hh])
    · exact hclient (by simp [step, clientStep, hc, hq])
    · exact hclient (by simp [step, clientStep, hc])
    · exact hclient (by simp [step, clientStep, hc])

/-! ## Runs -/

/-- The clerk is using its message buffer: it has seen a request, and its reply is not placed. -/
def uses (x : End ClerkPc) : Prop :=
  match x.pc with
  | .take | .read | .answer | .post _ _ => True
  | .poll => x.cq = 0
  | _ => False

/-- Both ends spin on their headers, with nothing in flight. -/
structure Stuck (fe : FrontEnd) (s : State) : Prop where
  client : s.client.pc = .spin ∧ header (s.client.mem .write) ≠ clerkDone
  clerk : s.clerk.pc = .spin ∧ header (s.clerk.mem fe.clerkBuf) ≠ clientDone
  quiet : Quiet s

/-- What the handshake promises in a state `s` that a run with the trace `tr` has reached; `P` is
what the run assumes of its steps. -/
structure StopAndWait (fe : FrontEnd) (P : State → Label → Prop) (tr : List Event) (s : State) :
    Prop where
  /-- the clerk reads what was posted, the client what was replied -/
  rounds : Rounds fe tr
  /-- in turns: a request is handled once, before the next one is asked -/
  once : (returns tr).length ≤ (replies tr).length ∧ (replies tr).length ≤ (reads tr).length ∧
    (reads tr).length ≤ (requests tr).length ∧ (requests tr).length ≤ (returns tr).length + 1
  untouched : uses s.clerk → s.toClerk = []
  notStuck : ¬ Stuck fe s
  /-- inside a call some step is enabled, and a call has finitely many -/
  enabled : s.client.pc ≠ .idle → ∃ a, a.isCall = false ∧ P s a ∧ (step fe s a).isSome
  ends : ∀ a s' es, a.isCall = false → P s a → step fe s a = some (s', es) → rank s' < rank s

theorem Turn.once (h : Turn fe tr s) :
    (returns tr).length ≤ (replies tr).length ∧ (replies tr).length ≤ (reads tr).length ∧
      (reads tr).length ≤ (requests tr).length ∧
      (requests tr).length ≤ (returns tr).length + 1 := by
  have hc : ∀ {a h r}, Counts tr a h r → r ≤ h → h ≤ a → a ≤ 1 →
      (returns tr).length ≤ (replies tr).length ∧ (replies tr).length ≤ (reads tr).length ∧
        (reads tr).length ≤ (requests tr).length ∧
        (requests tr).length ≤ (returns tr).length + 1 := by
    intro a h r hcnt h1 h2 h3
    rw [hcnt.asked, hcnt.handled, hcnt.replied]
    omega
  cases h with
  | idle h => exact hc h.counts (by decide) (by decide) (by decide)
  | sending c off placed rest h => exact hc h.counts (by decide) (by decide) (by decide)
  | sent x h => exact hc h.counts (by decide) (by decide) (by decide)
  | taken x h => exact hc h.counts (by decide) (by decide) (by decide)
  | handled h => exact hc h.counts (by decide) (by decide) (by decide)
  | replying placed rest h => exact hc h.counts (by decide) (by decide) (by decide)
  | answered h => exact hc h.counts (by decide) (by decide) (by decide)

theorem Turn.untouched (h : Turn fe tr s) (hu : uses s.clerk) : s.toClerk = [] := by
  by_contra hne
  obtain ⟨c, off, placed, rest, h⟩ := h.sending_of_toClerk hne
  rcases h.clerk with ⟨-, hp, -⟩ | ⟨-, ⟨hp, hq⟩ | ⟨hp, hq⟩⟩ <;> simp [uses, hp] at hu
  omega

theorem Turn.notStuck (h : Turn fe tr s) : ¬ Stuck fe s := by
  intro hk
  -- an enabled step would have to be one of the ends
  obtain ⟨a, ha, -, -, hs⟩ := h.enabled (by simp [hk.client.1])
  cases a with
  | call c off => simp [Label.isCall] at ha
  | client => simp [step, clientStep, hk.client.1, hk.client.2] at hs
  | clerk => simp [step, clerkStep, hk.clerk.1, hk.clerk.2] at hs
  | answer out => simp [step, hk.clerk.1] at hs
  | fetchRequest i => simp [step, hk.quiet.1, fetchAt] at hs
  | placeRequest => simp [step, hk.quiet.1, place] at hs
  | fetchReply i => simp [step, hk.quiet.2, fetchAt] at hs
  | placeReply => simp [step, hk.quiet.2, place] at hs

theorem clerkStep_pc {x y : End ClerkPc} {fs : List (Flight BufId)}
    (h : clerkStep fe x = some (y, fs, es)) : y.pc ≠ .construct := by
  cases hp : x.pc with
  | construct =>
    simp only [clerkStep, hp, Option.some.injEq, Prod.mk.injEq] at h
    simp [← h.1]
  | spin =>
    simp only [clerkStep, hp, Option.ite_none_left_eq_some, Option.some.injEq, Prod.mk.injEq] at h
    simp [← h.2.1]
  | take =>
    simp only [clerkStep, hp, Option.some.injEq, Prod.mk.injEq] at h
    simp [← h.1]
  | read =>
    simp only [clerkStep, hp, Option.some.injEq, Prod.mk.injEq] at h
    simp [← h.1]
  | answer => simp [clerkStep, hp] at h
  | post p ps =>
    simp only [clerkStep, hp, Option.some.injEq, Prod.mk.injEq] at h
    rw [← h.1]
    cases ps <;> simp [ClerkPc.next]
  | poll =>
    simp only [clerkStep, hp, Option.ite_none_left_eq_some, Option.some.injEq, Prod.mk.injEq] at h
    simp [← h.2.1]

/-- A clerk is constructed once. -/
theorem constructed_step {a : Label} (h : s.clerk.pc ≠ .construct)
    (hs : step fe s a = some (s', es)) : s'.clerk.pc ≠ .construct := by
  cases a with
  | call c off =>
    simp only [step] at hs
    split at hs
    · obtain ⟨rfl, -⟩ : _ = s' ∧ _ := by simpa using hs
      exact h
    · cases hs
  | client =>
    obtain ⟨x, fs, -, rfl⟩ := step_client hs
    exact h
  | clerk =>
    obtain ⟨x, fs, hx, rfl⟩ := step_clerk hs
    exact clerkStep_pc hx
  | answer out =>
    simp only [step] at hs
    split at hs
    · obtain ⟨rfl, -⟩ : _ = s' ∧ _ := by simpa using hs
      simp [FrontEnd.reply, message, ClerkPc.next]
    · cases hs
  | fetchRequest i =>
    simp only [step, Option.map_eq_some_iff, Prod.mk.injEq] at hs
    obtain ⟨fs, -, rfl, -⟩ := hs
    exact h
  | placeRequest =>
    simp only [step, Option.map_eq_some_iff, Prod.exists, Prod.mk.injEq] at hs
    obtain ⟨w, mem, fs, -, rfl, -⟩ := hs
    exact h
  | fetchReply i =>
    simp only [step, Option.map_eq_some_iff, Prod.mk.injEq] at hs
    obtain ⟨fs, -, rfl, -⟩ := hs
    exact h
  | placeReply =>
    simp only [step, Option.map_eq_some_iff, Prod.exists, Prod.mk.injEq] at hs
    obtain ⟨w, mem, fs, -, rfl, -⟩ := hs
    simpa using h

theorem Turn.stopAndWait {P : State → Label → Prop} (hr : Rounds fe tr) (h : Turn fe tr s)
    (hP : ∀ a, P s a ↔ Wf fe s a ∧ InTime s a) : StopAndWait fe P tr s where
  rounds := hr
  once := h.once
  untouched := h.untouched
  notStuck := h.notStuck
  enabled hp := by
    obtain ⟨a, ha, hw, ht, hs⟩ := h.enabled hp
    exact ⟨a, ha, (hP a).2 ⟨hw, ht⟩, hs⟩
  ends a s' es ha hw hs := (turn_step hr h ((hP a).1 hw).1 ((hP a).1 hw).2 hs).2.2 ha

/-- Everything is in time once the clerk is constructed. -/
theorem inTime_of_constructed (h : s.clerk.pc ≠ .construct) (a : Label) : InTime s a := by
  cases a with
  | placeRequest => exact fun _ _ _ => h
  | call c off => trivial
  | client => trivial
  | clerk => trivial
  | answer out => trivial
  | fetchRequest i => trivial
  | fetchReply i => trivial
  | placeReply => trivial

/-- **Stop and wait**: in every run of a connected pair, of any front end, the clerk handles every
request once and reads what the client posted for it, every call returns with the reply to its
request, and the pair never gets stuck. -/
theorem stop_and_wait (fe : FrontEnd) {client clerk : Mem BufId}
    (hclient : header (client .write) = clientDone)
    (hclerk : header (clerk fe.clerkBuf) ≠ clientDone) {tr : List Event} {s : State}
    (h : Steps (step fe) (Wf fe) (connected client clerk) tr s) :
    StopAndWait fe (Wf fe) tr s := by
  have hinv : Rounds fe tr ∧ Turn fe tr s ∧ s.clerk.pc ≠ .construct := by
    refine Steps.invariant (I := fun tr s => Rounds fe tr ∧ Turn fe tr s ∧ s.clerk.pc ≠ .construct)
      ⟨.nil, .idle ?_, by simp [connected]⟩ ?_ h
    · exact {
        client := .inr ⟨rfl, hclient⟩
        cq := rfl
        clerk := .inr ⟨hclerk, .inl ⟨rfl, rfl⟩⟩
        quiet := ⟨rfl, rfl⟩
        counts := .nil }
    · rintro tr s a s' es - ⟨hr, ht, hc⟩ hw hs
      obtain ⟨hr', ht', -⟩ := turn_step hr ht hw (inTime_of_constructed hc a) hs
      exact ⟨hr', ht', constructed_step hc hs⟩
  obtain ⟨hr, ht, hc⟩ := hinv
  exact ht.stopAndWait hr fun a => ⟨fun hw => ⟨hw, inTime_of_constructed hc a⟩, And.left⟩

/-- A client's memory with `CLIENT_DONE` in the header. -/
def readyMem : Mem BufId := putHeader (fun _ _ => 0) .write clientDone

/-- A `SendGet` of the PMR front end, answered with `NOTFOUND`, from its start to its return. -/
theorem stop_and_wait_get :
    ∃ tr s, Steps (step .pmr) (Wf .pmr) (connected readyMem fun _ _ => 0) tr s ∧
      (requests tr).length = 1 ∧ (reads tr).length = 1 ∧ (returns tr).length = 1 ∧
      replies tr = [leBytes 4 1 ++ leBytes 4 0] ∧ StopAndWait .pmr (Wf .pmr) tr s := by
  obtain ⟨tr, s, hr, h1, h2, h3, h4⟩ : ∃ tr s,
      Steps (step .pmr) (Wf .pmr) (connected readyMem fun _ _ => 0) tr s ∧
      (requests tr).length = 1 ∧ (reads tr).length = 1 ∧ (returns tr).length = 1 ∧
      replies tr = [leBytes 4 1 ++ leBytes 4 0] :=
    ⟨_, _, Steps.of_exec_get [.call (.get [1]) 0, .client, .client, .placeRequest, .placeRequest,
      .client, .clerk, .clerk, .clerk, .answer (leBytes 4 1 ++ leBytes 4 0), .clerk, .clerk,
      .placeReply, .placeReply, .client, .client, .client] (by decide +kernel),
      by decide +kernel, by decide +kernel, by decide +kernel, by decide +kernel⟩
  exact ⟨tr, s, hr, h1, h2, h3, h4, stop_and_wait .pmr (by decide) (by decide) hr⟩

/-! ## Connecting -/

/-- The client waits, nothing is in flight, and the clerk is to set its header or has set it: no
reply will ever come. -/
structure Lost (s : State) : Prop where
  client : ClientWaits s.client
  header : header (s.client.mem .write) = clientDone
  clerk : s.clerk.pc = .construct ∨
    s.clerk.pc = .spin ∧ Rdma.header (s.clerk.mem FrontEnd.pmr.clerkBuf) ≠ clientDone
  quiet : Quiet s

theorem Turn.not_lost (h : Turn .pmr tr s) : ¬ Lost s := by
  intro hl
  cases h with
  | idle h =>
    rcases hl.client with ⟨hp, -⟩ | ⟨hp, -⟩ <;> rcases h.client with hc | ⟨hc, -⟩ <;>
      simp [hc] at hp
  | sending c off placed rest h =>
    rcases h.left with hrest | hne
    · obtain ⟨p, ps, rfl⟩ := List.exists_cons_of_ne_nil hrest
      rcases hl.client with ⟨hp, -⟩ | ⟨hp, -⟩ <;> simp [h.client, ClientPc.next] at hp
    · exact hne hl.quiet.1
  | sent x h =>
    rcases hl.clerk with hp | ⟨-, hh⟩
    · rcases h.clerk with (⟨hc, -⟩ | ⟨hc, -⟩) | ⟨hc, -⟩ <;> simp [hc] at hp
    · exact hh h.request
  | taken x h => rcases hl.clerk with hp | ⟨hp, -⟩ <;> simp [h.clerk.1] at hp
  | handled h => rcases hl.clerk with hp | ⟨hp, -⟩ <;> simp [h.clerk.1] at hp
  | replying placed rest h =>
    rcases hl.clerk with hp | ⟨hp, -⟩ <;> cases rest <;> simp [h.clerk.1, ClerkPc.next] at hp
  | answered h =>
    rcases h.client with ⟨-, hh⟩ | ⟨⟨hc, -⟩, -⟩
    · exact clientDone_ne (hl.header.symm.trans hh)
    · rcases hl.client with ⟨hp, -⟩ | ⟨hp, -⟩ <;> simp [hc] at hp

/-- What is lost stays lost. -/
theorem Lost.step {a : Label} (hl : Lost s) (hs : step .pmr s a = some (s', es)) :
    es = [] ∧ Lost s' := by
  cases a with
  | call c off =>
    rcases hl.client with ⟨hp, -⟩ | ⟨hp, -⟩ <;> simp [Rdma.step, hp] at hs
  | client =>
    obtain ⟨rfl, rfl, -⟩ := hl.client.step hl.header hs
    exact ⟨rfl, { hl with client := .inl ⟨rfl, rfl⟩ }⟩
  | clerk =>
    obtain ⟨x, fs, hx, rfl⟩ := step_clerk hs
    rcases hl.clerk with hp | ⟨hp, hh⟩
    · simp only [clerkStep, hp, if_true, Option.some.injEq, Prod.mk.injEq] at hx
      obtain ⟨rfl, rfl, rfl⟩ := hx
      rw [List.append_nil]
      refine ⟨rfl, { hl with clerk := .inr ⟨rfl, ?_⟩ }⟩
      show Rdma.header (putHeader s.clerk.mem _ clerkDone _) ≠ clientDone
      rw [header_putHeader _ _ (by decide)]
      exact Ne.symm clientDone_ne
    · simp [clerkStep, hp, hh] at hx
  | answer out => rcases hl.clerk with hp | ⟨hp, -⟩ <;> simp [Rdma.step, hp] at hs
  | fetchRequest i => simp [Rdma.step, hl.quiet.1, fetchAt] at hs
  | placeRequest => simp [Rdma.step, hl.quiet.1, place] at hs
  | fetchReply i => simp [Rdma.step, hl.quiet.2, fetchAt] at hs
  | placeReply => simp [Rdma.step, hl.quiet.2, place] at hs

/-- The header of a request is placed before the clerk is constructed. -/
theorem Turn.lost {a : Label} (h : Turn .pmr tr s) (ht : ¬ InTime s a)
    (hs : step .pmr s a = some (s', es)) :
    es = [] ∧ Lost s' ∧ s.clerk.pc = .construct ∧ Counts tr 1 0 0 := by
  cases a with
  | placeRequest =>
    simp only [InTime, not_forall, not_not] at ht
    obtain ⟨f, hf, hsig, hcon⟩ := ht
    simp only [step, Option.map_eq_some_iff, Prod.exists, Prod.mk.injEq] at hs
    obtain ⟨w, mem, fs, hp, rfl, rfl⟩ := hs
    obtain ⟨f', hfs, rfl⟩ := place_head hp
    obtain rfl : f' = f := by simpa [hfs] using hf
    obtain ⟨c, off, placed, rest, hs⟩ := h.sending_of_toClerk (by simp [hfs])
    rcases (isMessage_posts .pmr off c).place hs.transit hp with
      ⟨hrest, rfl, -, -⟩ | ⟨-, hsig', -⟩
    · obtain rfl := List.map_eq_nil_iff.1 hrest
      refine ⟨rfl, ?_, hcon, hs.counts⟩
      exact {
        client := .inr ⟨(End.complete_pc _ _).trans hs.client,
          by simp [End.complete_cq, hsig, hs.cq]⟩
        header := by simpa using hs.header
        clerk := .inl hcon
        quiet := ⟨rfl, hs.quiet⟩ }
    · rw [hsig] at hsig'
      cases hsig'
  | call c off => exact absurd trivial ht
  | client => exact absurd trivial ht
  | clerk => exact absurd trivial ht
  | answer out => exact absurd trivial ht
  | fetchRequest i => exact absurd trivial ht
  | fetchReply i => exact absurd trivial ht
  | placeReply => exact absurd trivial ht

theorem clientStep_reads {x y : End ClientPc} {fs : List (Flight BufId)}
    (h : clientStep x = some (y, fs, es)) : reads es = [] := by
  unfold clientStep at h
  split at h
  case h_4 | h_5 =>
    split at h
    · cases h
    · simp only [Option.some.injEq, Prod.mk.injEq] at h
      rw [← h.2.2]
      rfl
  case h_2 => cases h
  all_goals
    simp only [Option.some.injEq, Prod.mk.injEq] at h
    rw [← h.2.2]
    rfl

/-- A clerk that is not constructed reads nothing. -/
theorem reads_step {a : Label} (hs : step fe s a = some (s', es)) (hp : s'.clerk.pc = .construct) :
    reads es = [] := by
  cases a with
  | call c off =>
    simp only [step] at hs
    split at hs
    · obtain ⟨-, rfl⟩ : _ ∧ _ = es := by simpa using hs
      rfl
    · cases hs
  | client =>
    obtain ⟨x, fs, hx, rfl⟩ := step_client hs
    exact clientStep_reads hx
  | clerk =>
    obtain ⟨x, fs, hx, rfl⟩ := step_clerk hs
    exact absurd hp (clerkStep_pc hx)
  | answer out =>
    simp only [step] at hs
    split at hs
    · obtain ⟨-, rfl⟩ : _ ∧ _ = es := by simpa using hs
      rfl
    · cases hs
  | fetchRequest i =>
    simp only [step, Option.map_eq_some_iff, Prod.mk.injEq] at hs
    obtain ⟨fs, -, -, rfl⟩ := hs
    rfl
  | placeRequest =>
    simp only [step, Option.map_eq_some_iff, Prod.exists, Prod.mk.injEq] at hs
    obtain ⟨w, mem, fs, -, -, rfl⟩ := hs
    rfl
  | fetchReply i =>
    simp only [step, Option.map_eq_some_iff, Prod.mk.injEq] at hs
    obtain ⟨fs, -, -, rfl⟩ := hs
    rfl
  | placeReply =>
    simp only [step, Option.map_eq_some_iff, Prod.exists, Prod.mk.injEq] at hs
    obtain ⟨w, mem, fs, -, -, rfl⟩ := hs
    rfl

/-- What a run that connects assumes to keep the handshake. -/
def WfInTime (s : State) (a : Label) : Prop := Wf .pmr s a ∧ InTime s a

/-- A run with all steps in time. -/
theorem connect_turn {client clerk : Mem BufId}
    (h : Steps (step .pmr) WfInTime (connecting client clerk) tr s) :
    Rounds .pmr tr ∧ Turn .pmr tr s := by
  refine Steps.invariant (I := fun tr s => Rounds .pmr tr ∧ Turn .pmr tr s)
    ⟨.nil, .idle ?_⟩ ?_ h
  · exact {
      client := .inl rfl
      cq := rfl
      clerk := .inl ⟨rfl, rfl, rfl⟩
      quiet := ⟨rfl, rfl⟩
      counts := .nil }
  · rintro tr s a s' es - ⟨hr, ht⟩ ⟨hw, hin⟩ hs
    obtain ⟨hr', ht', -⟩ := turn_step hr ht hw hin hs
    exact ⟨hr', ht'⟩

theorem connect_reads {client clerk : Mem BufId}
    (h : Steps (step .pmr) (Wf .pmr) (connecting client clerk) tr s) :
    s.clerk.pc = .construct → reads tr = [] := by
  refine Steps.invariant (I := fun tr s => s.clerk.pc = .construct → reads tr = [])
    (fun _ => rfl) ?_ h
  intro tr s a s' es _ hnone _ hs hp
  have hp' : s.clerk.pc = .construct := by
    by_contra hne
    exact constructed_step hne hs hp
  have happ : reads (tr ++ es) = reads tr ++ reads es := by simp [reads]
  rw [happ, hnone hp', reads_step hs hp, List.append_nil]

/-- Either all steps of a run were in time, or its first request is lost. -/
theorem connect_cases {client clerk : Mem BufId}
    (h : Steps (step .pmr) (Wf .pmr) (connecting client clerk) tr s) :
    Steps (step .pmr) WfInTime (connecting client clerk) tr s ∨
      Lost s ∧ (requests tr).length = 1 ∧ reads tr = [] := by
  refine Steps.invariant (I := fun tr s =>
    Steps (step .pmr) WfInTime (connecting client clerk) tr s ∨
      Lost s ∧ (requests tr).length = 1 ∧ reads tr = []) (.inl .refl) ?_ h
  rintro tr s a s' es hrun (htime | ⟨hl, h1, h2⟩) hw hs
  · by_cases hin : InTime s a
    · exact .inl (.tail htime ⟨hw, hin⟩ hs)
    · obtain ⟨rfl, hl, hp, hc⟩ := (connect_turn htime).2.lost hin hs
      have h2 := connect_reads hrun hp
      have hn : (returns tr).length = 0 := by
        have hh := hc.handled
        rw [h2] at hh
        simpa using hh.symm
      rw [List.append_nil]
      exact .inr ⟨hl, by rw [hc.asked, hn], h2⟩
  · obtain ⟨rfl, hl'⟩ := hl.step hs
    rw [List.append_nil]
    exact .inr ⟨hl', h1, h2⟩

/-- **Connecting**: a run from the moment the queue pair can receive keeps the handshake exactly if
it places the header of the first request when the clerk is constructed. Otherwise the request, the
client's first one, is lost: nothing happens any more. -/
theorem connect_in_time_iff {client clerk : Mem BufId} {tr : List Event} {s : State}
    (h : Steps (step .pmr) (Wf .pmr) (connecting client clerk) tr s) :
    (Steps (step .pmr) WfInTime (connecting client clerk) tr s ↔ ¬ Lost s) ∧
      (¬ Lost s → StopAndWait .pmr WfInTime tr s) ∧
      (Lost s → (requests tr).length = 1 ∧ reads tr = [] ∧
        ∀ a s' es, step .pmr s a = some (s', es) → es = [] ∧ Lost s') := by
  have hturn : Steps (step .pmr) WfInTime (connecting client clerk) tr s → ¬ Lost s :=
    fun htime => (connect_turn htime).2.not_lost
  rcases connect_cases h with htime | ⟨hl, h1, h2⟩
  · obtain ⟨hr, ht⟩ := connect_turn htime
    exact ⟨⟨hturn, fun _ => htime⟩, fun _ => ht.stopAndWait hr fun a => Iff.rfl,
      fun hl => absurd hl (hturn htime)⟩
  · exact ⟨⟨hturn, fun hn => absurd hl hn⟩, fun hn => absurd hl hn,
      fun _ => ⟨h1, h2, fun a s' es hs => hl.step hs⟩⟩

/-- The first `SendAlloc` of a client, with the clerk constructed in time. -/
theorem connect_in_time_alloc :
    ∃ tr s, Steps (step .pmr) (Wf .pmr) (connecting (fun _ _ => 0) fun _ _ => 0) tr s ∧
      (requests tr).length = 1 ∧ (reads tr).length = 1 ∧
      StopAndWait .pmr WfInTime tr s := by
  obtain ⟨tr, s, hr, h1, h2⟩ : ∃ tr s,
      Steps (step .pmr) (Wf .pmr) (connecting (fun _ _ => 0) fun _ _ => 0) tr s ∧
      (requests tr).length = 1 ∧ (reads tr).length = 1 :=
    ⟨_, _, Steps.of_exec_get [.client, .call .alloc 0, .client, .client, .placeRequest, .clerk,
      .placeRequest, .clerk, .clerk, .clerk] (by decide +kernel),
      by decide +kernel, by decide +kernel⟩
  have hc := connect_in_time_iff hr
  have hl : ¬ Lost s := by
    intro hl
    rw [(hc.2.2 hl).2.1] at h2
    cases h2
  exact ⟨tr, s, hr, h1, h2, hc.2.1 hl⟩

/-- **The first request is lost**: both writes of the `SendAlloc` are placed, and then the
constructor sets the header. -/
theorem request_lost :
    ∃ tr s, Steps (step .pmr) (Wf .pmr) (connecting (fun _ _ => 0) fun _ _ => 0) tr s ∧
      (requests tr).length = 1 ∧ reads tr = [] ∧ Stuck .pmr s ∧ Lost s := by
  obtain ⟨tr, s, hr, h1, h2, h3, h4, h5, h6, h7, h8⟩ : ∃ tr s,
      Steps (step .pmr) (Wf .pmr) (connecting (fun _ _ => 0) fun _ _ => 0) tr s ∧
      (requests tr).length = 1 ∧ (reads tr).length = 0 ∧
      (s.client.pc = .spin ∧ s.client.cq = 0) ∧ header (s.client.mem .write) = clientDone ∧
      s.clerk.pc = .spin ∧ header (s.clerk.mem .send) ≠ clientDone ∧
      s.toClerk.length = 0 ∧ s.toClient.length = 0 :=
    ⟨_, _, Steps.of_exec_get [.client, .call .alloc 0, .client, .client, .placeRequest,
      .placeRequest, .clerk, .client] (by decide +kernel),
      by decide +kernel, by decide +kernel, by decide +kernel, by decide +kernel,
      by decide +kernel, by decide +kernel, by decide +kernel, by decide +kernel⟩
  have hq : Quiet s := ⟨List.length_eq_zero_iff.1 h7, List.length_eq_zero_iff.1 h8⟩
  exact ⟨tr, s, hr, h1, List.length_eq_zero_iff.1 h2,
    ⟨⟨h3.1, by rw [h4]; exact clientDone_ne⟩, ⟨h5, h6⟩, hq⟩, ⟨.inl h3, h4, .inr ⟨h5, h6⟩, hq⟩⟩

end PMRAccess.Rdma
