import PMRAccess.Rdma.Proof.Message

/-!
# Taking turns

`Turn fe tr s` says where the two ends of a connection are relative to each other, in every state of
a run: nobody asks anything (`Idle`), a request is on its way (`Sending`), it has arrived (`Sent`),
the clerk has it (`Taken`, `Handled`), the reply is on its way (`Replying`), it has arrived
(`Answered`, `Reading`). One end at most has writes in flight, and the other one waits, with nothing
left to do but to poll a completion (`ClientWaits`, `ClerkWaits`). `Rounds` is what the trace says:
the requests, what the clerk read, the replies and what the client read, each with the same index.

`turn_step`: a step leads from one such place to the next one, as long as a connection does not
place the header of a request before the clerk is constructed (`InTime`). Every step but a new call
brings the pair nearer to the end of the call (`rank`), and inside a call some step is enabled
(`Turn.enabled`).
-/

namespace PMRAccess.Rdma

open Lib

variable {fe : FrontEnd} {tr : List Event} {s s' : State}

/-! ## Rounds -/

/-- What the parties see of each other, request by request. -/
structure Rounds (fe : FrontEnd) (tr : List Event) : Prop where
  handled : ∀ (i : Nat) (m : Mem BufId), (reads tr)[i]? = some m →
    ∃ x : Asked, (requests tr)[i]? = some x ∧ x.Received fe m
  returned : ∀ (i : Nat) (b : Buf), (returns tr)[i]? = some b →
    (replies tr)[i]? = some (b.read ringHeader (replyLen b))

/-- How far the current request has come: asked, handled, replied to. -/
structure Counts (tr : List Event) (a h r : Nat) : Prop where
  asked : (requests tr).length = (returns tr).length + a
  handled : (reads tr).length = (returns tr).length + h
  replied : (replies tr).length = (returns tr).length + r

/-- The current request, and the reply to it. -/
def currentAsked (tr : List Event) : Option Asked := (requests tr)[(returns tr).length]?
def currentReply (tr : List Event) : Option Bytes := (replies tr)[(returns tr).length]?

section
variable {x : Asked} {m : Mem BufId} {bs : Bytes} {b : Buf}

theorem Rounds.nil : Rounds fe [] := ⟨by simp [reads], by simp [returns]⟩

theorem Counts.nil : Counts [] 0 0 0 := ⟨rfl, rfl, rfl⟩

/-- A new request. -/
theorem Rounds.ask (h : Rounds fe tr) : Rounds fe (tr ++ [.asked x]) where
  handled i m hi := by
    obtain ⟨y, hy, hrec⟩ := h.handled i m (by simpa [reads] using hi)
    refine ⟨y, ?_, hrec⟩
    have : requests (tr ++ [.asked x]) = requests tr ++ [x] := by simp [requests]
    rw [this]
    exact append_some hy
  returned i b hi := by
    simpa [replies] using h.returned i b (by simpa [returns] using hi)

theorem Counts.ask (h : Counts tr 0 0 0) : Counts (tr ++ [.asked x]) 1 0 0 where
  asked := by simpa [requests, returns] using h.asked
  handled := by simpa [reads, returns] using h.handled
  replied := by simpa [replies, returns] using h.replied

theorem Counts.currentAsked (h : Counts tr 0 0 0) :
    currentAsked (tr ++ [.asked x]) = some x := by
  have h1 : requests (tr ++ [.asked x]) = requests tr ++ [x] := by simp [requests]
  have h2 : returns (tr ++ [.asked x]) = returns tr := by simp [returns]
  have h3 := h.asked
  rw [Nat.add_zero] at h3
  rw [Rdma.currentAsked, h1, h2, ← h3]
  simp

/-- The clerk reads the request. -/
theorem Rounds.handle (h : Rounds fe tr) (hc : Counts tr 1 0 0) (hx : currentAsked tr = some x)
    (hrec : x.Received fe m) : Rounds fe (tr ++ [.handled m]) where
  handled i m' hi := by
    have h1 : reads (tr ++ [.handled m]) = reads tr ++ [m] := by simp [reads]
    have h2 : requests (tr ++ [.handled m]) = requests tr := by simp [requests]
    rw [h1] at hi
    rw [h2]
    rcases append_cases hi with hi | ⟨rfl, rfl⟩
    · exact h.handled i m' hi
    · refine ⟨x, ?_, hrec⟩
      rw [hc.handled]
      exact hx
  returned i b hi := by
    simpa [replies] using h.returned i b (by simpa [returns] using hi)

theorem Counts.handle (h : Counts tr 1 0 0) : Counts (tr ++ [.handled m]) 1 1 0 where
  asked := by simpa [requests, returns] using h.asked
  handled := by simpa [reads, returns] using h.handled
  replied := by simpa [replies, returns] using h.replied

/-- The clerk has written the reply. -/
theorem Rounds.reply (h : Rounds fe tr) : Rounds fe (tr ++ [.replied bs]) where
  handled i m hi := by
    obtain ⟨y, hy, hrec⟩ := h.handled i m (by simpa [reads] using hi)
    exact ⟨y, by simpa [requests] using hy, hrec⟩
  returned i b hi := by
    have h1 : replies (tr ++ [.replied bs]) = replies tr ++ [bs] := by simp [replies]
    rw [h1]
    exact append_some (h.returned i b (by simpa [returns] using hi))

theorem Counts.reply (h : Counts tr 1 1 0) : Counts (tr ++ [.replied bs]) 1 1 1 where
  asked := by simpa [requests, returns] using h.asked
  handled := by simpa [reads, returns] using h.handled
  replied := by simpa [replies, returns] using h.replied

theorem Counts.currentReply (h : Counts tr 1 1 0) :
    currentReply (tr ++ [.replied bs]) = some bs := by
  have h1 : replies (tr ++ [.replied bs]) = replies tr ++ [bs] := by simp [replies]
  have h2 : returns (tr ++ [.replied bs]) = returns tr := by simp [returns]
  have h3 := h.replied
  rw [Nat.add_zero] at h3
  rw [Rdma.currentReply, h1, h2, ← h3]
  simp

/-- The call returns. -/
theorem Rounds.ret (h : Rounds fe tr)
    (hb : currentReply tr = some (b.read ringHeader (replyLen b))) :
    Rounds fe (tr ++ [.returned b]) where
  handled i m hi := by
    obtain ⟨y, hy, hrec⟩ := h.handled i m (by simpa [reads] using hi)
    exact ⟨y, by simpa [requests] using hy, hrec⟩
  returned i b' hi := by
    have h1 : returns (tr ++ [.returned b]) = returns tr ++ [b] := by
      simp [returns]
    have h2 : replies (tr ++ [.returned b]) = replies tr := by simp [replies]
    rw [h1] at hi
    rw [h2]
    rcases append_cases hi with hi | ⟨rfl, rfl⟩
    · exact h.returned i b' hi
    · exact hb

theorem Counts.ret (h : Counts tr 1 1 1) : Counts (tr ++ [.returned b]) 0 0 0 where
  asked := by simpa [requests, returns] using h.asked
  handled := by simpa [reads, returns] using h.handled
  replied := by simpa [replies, returns] using h.replied

end

/-! ## The places of a pair -/

/-- A client that waits for a reply has at most a completion to poll. -/
def ClientWaits (x : End ClientPc) : Prop := x.pc = .spin ∧ x.cq = 0 ∨ x.pc = .poll ∧ x.cq = 1

/-- A clerk that waits for a request has at most a completion to poll. -/
def ClerkWaits (x : End ClerkPc) : Prop := x.pc = .spin ∧ x.cq = 0 ∨ x.pc = .poll ∧ x.cq = 1

/-- The clerk has no request; in the PMR front end it may still have to be constructed. -/
def ClerkFree (fe : FrontEnd) (x : End ClerkPc) : Prop :=
  fe = .pmr ∧ x.pc = .construct ∧ x.cq = 0 ∨
    header (x.mem fe.clerkBuf) ≠ clientDone ∧ ClerkWaits x

/-- Nothing in flight. -/
def Quiet (s : State) : Prop := s.toClerk = [] ∧ s.toClient = []

/-- Between two calls. -/
structure Idle (fe : FrontEnd) (tr : List Event) (s : State) : Prop where
  client : s.client.pc = .connect ∨
    s.client.pc = .idle ∧ header (s.client.mem .write) = clientDone
  cq : s.client.cq = 0
  clerk : ClerkFree fe s.clerk
  quiet : Quiet s
  counts : Counts tr 0 0 0

/-- The request of `c` is on its way, with `rest` still to be posted. -/
structure Sending (fe : FrontEnd) (tr : List Event) (s : State) (c : Call) (off : Nat)
    (placed : List (Write BufId)) (rest : List Post) : Prop where
  sends : fe.Sends c
  prepared : ∃ b, s.client.mem .write = c.prepare b
  transit : InTransit s.client.mem s.clerk.mem ((fe.posts off c).map Post.toWrite) placed
    (rest.map Post.toWrite) s.toClerk
  left : rest ≠ [] ∨ s.toClerk ≠ []
  client : s.client.pc = .next rest
  cq : s.client.cq = 0
  header : header (s.client.mem .write) = clientDone
  clerk : ClerkFree fe s.clerk
  quiet : s.toClient = []
  counts : Counts tr 1 0 0
  asked : currentAsked tr = some (fe.asked off (s.client.mem .write) c)

/-- The request has arrived. -/
structure Sent (fe : FrontEnd) (tr : List Event) (s : State) (x : Asked) : Prop where
  client : ClientWaits s.client
  header : header (s.client.mem .write) = clientDone
  received : x.Received fe s.clerk.mem
  clerk : ClerkWaits s.clerk ∨ s.clerk.pc = .take ∧ s.clerk.cq = 0
  request : Rdma.header (s.clerk.mem fe.clerkBuf) = clientDone
  quiet : Quiet s
  counts : Counts tr 1 0 0
  asked : currentAsked tr = some x

/-- The clerk is about to read the request. -/
structure Taken (fe : FrontEnd) (tr : List Event) (s : State) (x : Asked) : Prop where
  client : ClientWaits s.client
  header : header (s.client.mem .write) = clientDone
  received : x.Received fe s.clerk.mem
  clerk : s.clerk.pc = .read ∧ s.clerk.cq = 0
  request : Rdma.header (s.clerk.mem fe.clerkBuf) = clerkDone
  quiet : Quiet s
  counts : Counts tr 1 0 0
  asked : currentAsked tr = some x

/-- The clerk is about to write the reply. -/
structure Handled (fe : FrontEnd) (tr : List Event) (s : State) : Prop where
  client : ClientWaits s.client
  header : header (s.client.mem .write) = clientDone
  clerk : s.clerk.pc = .answer ∧ s.clerk.cq = 0
  request : Rdma.header (s.clerk.mem fe.clerkBuf) = clerkDone
  quiet : Quiet s
  counts : Counts tr 1 1 0

/-- The reply is on its way. -/
structure Replying (fe : FrontEnd) (tr : List Event) (s : State) (placed : List (Write BufId))
    (rest : List Post) : Prop where
  client : ClientWaits s.client
  header : header (s.client.mem .write) = clientDone
  len : replyLen (s.clerk.mem fe.clerkBuf) < 2 ^ 32
  transit : InTransit s.clerk.mem s.client.mem
    ((fe.reply (s.clerk.mem fe.clerkBuf)).map Post.toWrite) placed (rest.map Post.toWrite)
    s.toClient
  left : rest ≠ [] ∨ s.toClient ≠ []
  clerk : s.clerk.pc = .next rest ∧ s.clerk.cq = 0
  request : Rdma.header (s.clerk.mem fe.clerkBuf) = clerkDone
  quiet : s.toClerk = []
  counts : Counts tr 1 1 1
  replied : currentReply tr =
    some ((s.clerk.mem fe.clerkBuf).read ringHeader (replyLen (s.clerk.mem fe.clerkBuf)))

/-- The reply has arrived. -/
structure Answered (fe : FrontEnd) (tr : List Event) (s : State) : Prop where
  client : (ClientWaits s.client ∨ s.client.pc = .reset ∧ s.client.cq = 0) ∧
      header (s.client.mem .write) = clerkDone ∨
    (s.client.pc = .read ∧ s.client.cq = 0) ∧ header (s.client.mem .write) = clientDone
  clerk : ClerkFree fe s.clerk
  quiet : Quiet s
  counts : Counts tr 1 1 1
  replied : currentReply tr =
    some ((s.client.mem .write).read ringHeader (replyLen (s.client.mem .write)))

/-- Where the pair is (module doc). -/
inductive Turn (fe : FrontEnd) (tr : List Event) (s : State) : Prop
  | idle (h : Idle fe tr s)
  | sending (c : Call) (off : Nat) (placed : List (Write BufId)) (rest : List Post)
      (h : Sending fe tr s c off placed rest)
  | sent (x : Asked) (h : Sent fe tr s x)
  | taken (x : Asked) (h : Taken fe tr s x)
  | handled (h : Handled fe tr s)
  | replying (placed : List (Write BufId)) (rest : List Post) (h : Replying fe tr s placed rest)
  | answered (h : Answered fe tr s)

/-- The header of a request is not placed before the clerk is constructed. -/
def InTime (s : State) : Label → Prop
  | .placeRequest => ∀ f ∈ s.toClerk.head?, f.write.signal = true → s.clerk.pc ≠ .construct
  | _ => True

/-! ## The rank of a state -/

/-- The reply to the current request is still to come. -/
def owed (x : End ClientPc) : Bool :=
  match x.pc with
  | .post _ _ | .poll | .spin => header (x.mem .write) ≠ clerkDone
  | _ => false

def clientRank : ClientPc → Nat
  | .connect => 1
  | .idle => 0
  | .post _ ps => 3 * (ps.length + 1) + 4
  | .poll => 4
  | .spin => 3
  | .reset => 2
  | .read => 1

/-- The steps left to a clerk, with one more request to handle (`o`) or none. -/
def clerkRank (o : Bool) (x : End ClerkPc) : Nat :=
  match x.pc with
  | .construct => (if o then 13 else 0) + 1
  | .spin => if o then 13 else 0
  | .take => 12
  | .read => 11
  | .answer => 10
  | .post _ ps => 3 * (ps.length + 1) + 2
  | .poll => if x.cq = 0 then 2 else (if o then 13 else 0) + 1

/-- A bound on the steps until the current call has returned and the clerk waits again. -/
def rank (s : State) : Nat :=
  clientRank s.client.pc + clerkRank (owed s.client) s.clerk + weight s.toClerk + weight s.toClient

def Label.isCall : Label → Bool
  | .call _ _ => true
  | _ => false

/-! ## Steps of one end while the other one has the turn -/

theorem clientDone_ne : clientDone ≠ clerkDone := by decide

section
variable {es : List Event}

theorem step_client (h : step fe s .client = some (s', es)) :
    ∃ x fs, clientStep s.client = some (x, fs, es) ∧
      s' = { s with client := x, toClerk := s.toClerk ++ fs } := by
  simp only [step, Option.map_eq_some_iff, Prod.exists, Prod.mk.injEq] at h
  obtain ⟨x, fs, es', h, rfl, rfl⟩ := h
  exact ⟨x, fs, h, rfl⟩

theorem step_clerk (h : step fe s .clerk = some (s', es)) :
    ∃ x fs, clerkStep fe s.clerk = some (x, fs, es) ∧
      s' = { s with clerk := x, toClient := s.toClient ++ fs } := by
  simp only [step, Option.map_eq_some_iff, Prod.exists, Prod.mk.injEq] at h
  obtain ⟨x, fs, es', h, rfl, rfl⟩ := h
  exact ⟨x, fs, h, rfl⟩

theorem ClientWaits.isOwed {x : End ClientPc} (hw : ClientWaits x)
    (hh : header (x.mem .write) = clientDone) : owed x = true := by
  rcases hw with ⟨hp, -⟩ | ⟨hp, -⟩ <;> simp [owed, hp, hh, clientDone_ne]

/-- A client that waits, with no reply there, polls its completion. -/
theorem ClientWaits.step (hw : ClientWaits s.client)
    (hh : header (s.client.mem .write) = clientDone) (h : step fe s .client = some (s', es)) :
    es = [] ∧ s' = { s with client := ⟨s.client.mem, .spin, 0⟩ } ∧ rank s' < rank s := by
  obtain ⟨x, fs, hx, rfl⟩ := step_client h
  rcases hw with ⟨hp, hq⟩ | ⟨hp, hq⟩
  · -- the header does not show `CLERK_DONE`
    simp [clientStep, hp, hh, clientDone_ne] at hx
  · simp only [clientStep, hp, hq, Nat.one_ne_zero, if_false, Option.some.injEq,
      Prod.mk.injEq] at hx
    obtain ⟨rfl, rfl, rfl⟩ := hx
    refine ⟨rfl, by simp, ?_⟩
    simp [rank, owed, clientRank, hp]

/-- A clerk without a request is constructed, or polls its completion. -/
theorem ClerkFree.step (hf : ClerkFree fe s.clerk) (h : step fe s .clerk = some (s', es)) :
    ∃ mem, es = [] ∧ s' = { s with clerk := ⟨mem, .spin, 0⟩ } ∧ rank s' < rank s ∧
      ClerkFree fe ⟨mem, .spin, 0⟩ ∧
      (mem = s.clerk.mem ∨ mem = putHeader s.clerk.mem fe.clerkBuf clerkDone) := by
  obtain ⟨x, fs, hx, rfl⟩ := step_clerk h
  rcases hf with ⟨rfl, hp, hq⟩ | ⟨hh, ⟨hp, hq⟩ | ⟨hp, hq⟩⟩
  · simp only [clerkStep, hp, if_true, Option.some.injEq, Prod.mk.injEq] at hx
    obtain ⟨rfl, rfl, rfl⟩ := hx
    refine ⟨_, rfl, by rw [List.append_nil, hq], ?_, .inr ⟨?_, .inl ⟨rfl, rfl⟩⟩, .inr rfl⟩
    · simp [rank, owed, clerkRank, hp]
    · show header (putHeader s.clerk.mem _ clerkDone _) ≠ clientDone
      rw [header_putHeader _ _ (by decide)]
      exact Ne.symm clientDone_ne
  · simp [clerkStep, hp, hh] at hx
  · simp only [clerkStep, hp, hq, Nat.one_ne_zero, if_false, Option.some.injEq,
      Prod.mk.injEq] at hx
    obtain ⟨rfl, rfl, rfl⟩ := hx
    refine ⟨_, rfl, by simp, ?_, .inr ⟨hh, .inl ⟨rfl, rfl⟩⟩, .inl rfl⟩
    simp [rank, owed, clerkRank, hp, hq]

end

/-! ## Steps -/

/-- A step that is not a call keeps the turns and lowers the rank. -/
structure Next (fe : FrontEnd) (tr es : List Event) (s s' : State) : Prop where
  rounds : Rounds fe (tr ++ es)
  turn : Turn fe (tr ++ es) s'
  rank : rank s' < rank s

/-- A step that shows nothing. -/
theorem Next.silent (hr : Rounds fe tr) (ht : Turn fe tr s') (hk : Rdma.rank s' < Rdma.rank s) :
    Next fe tr [] s s' := by
  rw [← List.append_nil tr] at hr ht
  exact ⟨hr, ht, hk⟩

section
variable {es : List Event} {c : Call} {off : Nat} {out : Bytes} {i : Nat}

theorem Turn.idle_of_pc (h : Turn fe tr s) (hp : s.client.pc = .idle) : Idle fe tr s := by
  have hw : ¬ ClientWaits s.client := by rintro (⟨h, -⟩ | ⟨h, -⟩) <;> simp [h] at hp
  cases h with
  | idle h => exact h
  | sending c off placed rest h =>
    have hc := h.client
    cases rest <;> simp [hp, ClientPc.next] at hc
  | sent x h => exact absurd h.client hw
  | taken x h => exact absurd h.client hw
  | handled h => exact absurd h.client hw
  | replying placed rest h => exact absurd h.client hw
  | answered h =>
    rcases h.client with ⟨hc | ⟨hc, -⟩, -⟩ | ⟨⟨hc, -⟩, -⟩
    · exact absurd hc hw
    · simp [hc] at hp
    · simp [hc] at hp

/-- A call enters. -/
theorem Turn.call (hr : Rounds fe tr) (h : Turn fe tr s) (hc : fe.Sends c)
    (hs : step fe s (.call c off) = some (s', es)) : Rounds fe (tr ++ es) ∧ Turn fe (tr ++ es) s' := by
  simp only [step] at hs
  split at hs
  · rename_i p ps hp hposts
    obtain ⟨rfl, rfl⟩ : _ = s' ∧ _ = es := by simpa using hs
    have hi := h.idle_of_pc hp
    have hhead : header (s.client.mem .write) = clientDone := by
      rcases hi.client with hc | hc
      · simp [hc] at hp
      · exact hc.2
    refine ⟨hr.ask, .sending c off [] (p :: ps) ?_⟩
    exact {
      sends := hc
      prepared := ⟨s.client.mem .write, rfl⟩
      transit := by
        rw [← hposts, hi.quiet.1]
        exact .start _ _ _
      left := .inl (by simp)
      client := rfl
      cq := hi.cq
      header := (header_prepare c _).trans hhead
      clerk := hi.clerk
      quiet := hi.quiet.2
      counts := hi.counts.ask
      asked := hi.counts.currentAsked }
  · cases hs

/-- The client moves on. -/
theorem Turn.client (hr : Rounds fe tr) (h : Turn fe tr s)
    (hs : step fe s .client = some (s', es)) : Next fe tr es s s' := by
  cases h with
  | idle h =>
    obtain ⟨x, fs, hx, rfl⟩ := step_client hs
    rcases h.client with hp | ⟨hp, -⟩
    · simp only [clientStep, hp, Option.some.injEq, Prod.mk.injEq] at hx
      obtain ⟨rfl, rfl, rfl⟩ := hx
      rw [List.append_nil]
      refine .silent hr (.idle { h with client := .inr ⟨rfl, ?_⟩ }) ?_
      · exact header_putHeader _ _ (by decide)
      · simp [rank, owed, clientRank, hp]
    · simp [clientStep, hp] at hx
  | sending c off placed rest h =>
    obtain ⟨x, fs, hx, rfl⟩ := step_client hs
    cases rest with
    | nil => simp [clientStep, h.client, ClientPc.next, h.cq] at hx
    | cons p ps =>
      have hp : s.client.pc = .post p ps := h.client
      simp only [clientStep, hp, Option.some.injEq, Prod.mk.injEq] at hx
      obtain ⟨rfl, rfl, rfl⟩ := hx
      refine .silent hr (.sending c off placed ps ?_) ?_
      · exact { h with
          transit := h.transit.post
          left := .inr (by simp)
          client := by cases ps <;> rfl }
      · -- a post is worth three steps: posting, fetching and placing
        have hl := weight_launch_le p.toWrite s.client.mem
        have hps : clientRank (.next ps) = 3 * ps.length + 4 := by cases ps <;> rfl
        have ho : owed ⟨s.client.mem, .next ps, s.client.cq⟩ = owed s.client := by
          cases ps <;> simp [owed, hp, ClientPc.next]
        rw [rank, rank, ho, hp, weight_append]
        show clientRank (.next ps) + _ + _ + _ < clientRank (.post p ps) + _ + _ + _
        rw [hps]
        simp only [clientRank]
        omega
  | sent x h =>
    obtain ⟨rfl, rfl, hk⟩ := h.client.step h.header hs
    exact .silent hr (.sent x { h with client := .inl ⟨rfl, rfl⟩ }) hk
  | taken x h =>
    obtain ⟨rfl, rfl, hk⟩ := h.client.step h.header hs
    exact .silent hr (.taken x { h with client := .inl ⟨rfl, rfl⟩ }) hk
  | handled h =>
    obtain ⟨rfl, rfl, hk⟩ := h.client.step h.header hs
    exact .silent hr (.handled { h with client := .inl ⟨rfl, rfl⟩ }) hk
  | replying placed rest h =>
    obtain ⟨rfl, rfl, hk⟩ := h.client.step h.header hs
    exact .silent hr (.replying placed rest { h with client := .inl ⟨rfl, rfl⟩ }) hk
  | answered h =>
    obtain ⟨x, fs, hx, rfl⟩ := step_client hs
    rcases h.client with ⟨(⟨hp, hq⟩ | ⟨hp, hq⟩) | ⟨hp, hq⟩, hh⟩ | ⟨⟨hp, hq⟩, hh⟩
    · simp only [clientStep, hp, hh, ne_eq, not_true_eq_false, if_false, Option.some.injEq,
        Prod.mk.injEq] at hx
      obtain ⟨rfl, rfl, rfl⟩ := hx
      rw [List.append_nil]
      refine .silent hr (.answered { h with client := .inl ⟨.inr ⟨rfl, hq⟩, hh⟩ }) ?_
      simp [rank, owed, clientRank, hp, hh]
    · simp only [clientStep, hp, hq, Nat.one_ne_zero, if_false, Option.some.injEq,
        Prod.mk.injEq] at hx
      obtain ⟨rfl, rfl, rfl⟩ := hx
      rw [List.append_nil]
      refine .silent hr (.answered { h with client := .inl ⟨.inl (.inl ⟨rfl, rfl⟩), hh⟩ }) ?_
      simp [rank, owed, clientRank, hp]
    · simp only [clientStep, hp, Option.some.injEq, Prod.mk.injEq] at hx
      obtain ⟨rfl, rfl, rfl⟩ := hx
      rw [List.append_nil]
      refine .silent hr (.answered { h with
        client := .inr ⟨⟨rfl, hq⟩, header_putHeader _ _ (by decide)⟩
        replied := ?_ }) ?_
      · -- the header is not part of the reply
        have hlen : replyLen (putHeader s.client.mem .write clientDone .write) =
            replyLen (s.client.mem .write) := by
          rw [replyLen, replyLen, replyValSize, replyValSize, read_putHeader _ _ _ (by decide)]
        show currentReply tr = some ((putHeader s.client.mem .write clientDone .write).read
          ringHeader (replyLen (putHeader s.client.mem .write clientDone .write)))
        rw [hlen, read_putHeader _ _ _ (by decide)]
        exact h.replied
      · simp [rank, owed, clientRank, hp]
    · simp only [clientStep, hp, Option.some.injEq, Prod.mk.injEq] at hx
      obtain ⟨rfl, rfl, rfl⟩ := hx
      rw [List.append_nil]
      refine ⟨hr.ret h.replied, .idle ?_, ?_⟩
      · exact {
          client := .inr ⟨rfl, hh⟩
          cq := hq
          clerk := h.clerk
          quiet := h.quiet
          counts := h.counts.ret }
      · simp [rank, owed, clientRank, hp]

/-- The clerk moves on. -/
theorem Turn.clerk (hr : Rounds fe tr) (h : Turn fe tr s)
    (hs : step fe s .clerk = some (s', es)) : Next fe tr es s s' := by
  cases h with
  | idle h =>
    obtain ⟨mem, rfl, rfl, hk, hf, -⟩ := h.clerk.step hs
    exact .silent hr (.idle { h with clerk := hf }) hk
  | sending c off placed rest h =>
    obtain ⟨mem, rfl, rfl, hk, hf, hm⟩ := h.clerk.step hs
    refine .silent hr (.sending c off placed rest { h with clerk := hf, transit := ?_ }) hk
    rcases hm with rfl | rfl
    · exact h.transit
    · -- the constructor's store keeps off what is placed
      apply h.transit.store
      rw [length_leBytes]
      apply (isMessage_posts fe off c).avoids h.transit
      simpa using h.left
  | sent x h =>
    obtain ⟨y, fs, hx, rfl⟩ := step_clerk hs
    rcases h.clerk with (⟨hp, hq⟩ | ⟨hp, hq⟩) | ⟨hp, hq⟩
    · simp only [clerkStep, hp, h.request, ne_eq, not_true_eq_false, if_false, Option.some.injEq,
        Prod.mk.injEq] at hx
      obtain ⟨rfl, rfl, rfl⟩ := hx
      rw [List.append_nil]
      refine .silent hr (.sent x { h with clerk := .inr ⟨rfl, hq⟩ }) ?_
      simp [rank, clerkRank, hp, h.client.isOwed h.header]
    · simp only [clerkStep, hp, hq, Nat.one_ne_zero, if_false, Option.some.injEq,
        Prod.mk.injEq] at hx
      obtain ⟨rfl, rfl, rfl⟩ := hx
      rw [List.append_nil]
      refine .silent hr (.sent x { h with clerk := .inl (.inl ⟨rfl, rfl⟩) }) ?_
      simp [rank, owed, clerkRank, hp, hq]
    · simp only [clerkStep, hp, Option.some.injEq, Prod.mk.injEq] at hx
      obtain ⟨rfl, rfl, rfl⟩ := hx
      rw [List.append_nil]
      refine .silent hr (.taken x ?_) ?_
      · exact { h with
          received := h.received.putHeader clerkDone
          clerk := ⟨rfl, hq⟩
          request := header_putHeader _ _ (by decide) }
      · simp [rank, clerkRank, hp]
  | taken x h =>
    obtain ⟨y, fs, hx, rfl⟩ := step_clerk hs
    simp only [clerkStep, h.clerk.1, Option.some.injEq, Prod.mk.injEq] at hx
    obtain ⟨rfl, rfl, rfl⟩ := hx
    rw [List.append_nil]
    refine ⟨hr.handle h.counts h.asked h.received, .handled ?_, ?_⟩
    · exact {
        client := h.client
        header := h.header
        clerk := ⟨rfl, h.clerk.2⟩
        request := h.request
        quiet := h.quiet
        counts := h.counts.handle }
    · simp [rank, clerkRank, h.clerk.1]
  | handled h =>
    obtain ⟨y, fs, hx, rfl⟩ := step_clerk hs
    simp [clerkStep, h.clerk.1] at hx
  | replying placed rest h =>
    obtain ⟨y, fs, hx, rfl⟩ := step_clerk hs
    cases rest with
    | nil => simp [clerkStep, h.clerk.1, ClerkPc.next, h.clerk.2] at hx
    | cons p ps =>
      have hp : s.clerk.pc = .post p ps := h.clerk.1
      simp only [clerkStep, hp, Option.some.injEq, Prod.mk.injEq] at hx
      obtain ⟨rfl, rfl, rfl⟩ := hx
      refine .silent hr (.replying placed ps ?_) ?_
      · exact { h with
          transit := h.transit.post
          left := .inr (by simp)
          clerk := ⟨by cases ps <;> rfl, h.clerk.2⟩ }
      · have hl := weight_launch_le p.toWrite s.clerk.mem
        have hps : ∀ o, clerkRank o ⟨s.clerk.mem, .next ps, s.clerk.cq⟩ = 3 * ps.length + 2 := by
          intro o
          cases ps <;> simp [clerkRank, ClerkPc.next, h.clerk.2]
        have hpp : ∀ o, clerkRank o s.clerk = 3 * (ps.length + 1) + 2 := by
          intro o
          simp [clerkRank, hp]
        rw [rank, rank, weight_append, hps, hpp]
        show clientRank s.client.pc + _ + weight s.toClerk + _ < _
        omega
  | answered h =>
    obtain ⟨mem, rfl, rfl, hk, hf, -⟩ := h.clerk.step hs
    exact .silent hr (.answered { h with clerk := hf }) hk

end

end PMRAccess.Rdma
