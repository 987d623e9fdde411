import PMRAccess.Group.Proof.Commit

/-!
# The Group front end: the lengths of replies

`Small`: the database holds values no longer than a request allows, so the replies fit the client's
message buffer. A leader's reply has the `val_size` of its request, and a `GET` of an absent key the
one of the `GET`, which is zero. `small_run`: so it is in every run of requests that fit.
-/

namespace PMRAccess.Group

open Lib

/-- The longest value of a request that fits. -/
def maxValue : Nat := maxRequest - sizeofRequest

/-- The reply, and the request of a `GET` that the reply's `status` will be written to. -/
def Conn.Short (k : Conn) : Prop :=
  match k.pc with
  | .dbGet _ | .reply => replyValSize k.clerkBuf ≤ maxValue
  | _ => True

structure Small (s : State) : Prop where
  db : s.server.db.Bounded maxValue
  short : ∀ (c : Nat) (k : Conn), s.conns[c]? = some k → k.Short

theorem val_le_maxValue {q : Req} (h : q.Fits) : q.val.length ≤ maxValue := by
  have := h.bounds.2.2
  simp only [Req.size, maxValue] at *
  omega

theorem Conn.Short.on {k : Conn} (h : k.Short) (w : Wake) (d : Nat) : (w.on d k).Short := by
  rcases w.on_pc k d with hp | ⟨b, hb, hp⟩
  · simpa only [Conn.Short, hp, Wake.on_clerkBuf] using h
  · simp only [Conn.Short, hp]

/-- Writing the `status` alone leaves the size. -/
theorem replyValSize_setStatus (b : Buf) (status : RequestStatus) :
    replyValSize (setStatus b status) = replyValSize b := by
  rw [replyValSize, setStatus, Buf.read_write_of_disjoint (.inr (by simp)), replyValSize]

/-! ## Moves -/

section
variable {db : Store} {h : History} {s : State} {c : Nat} {k k' : Conn} {a : Act} {sv' : Server}
  {w : Wake} {es : List Event}

/-- The database grows by the requests of a batch. -/
theorem db_small (hf : Flow db h s) (hd : s.server.db.Bounded maxValue) (hk : s.conns[c]? = some k)
    (hm : Move s c k a sv' k' w es) : sv'.db.Bounded maxValue := by
  cases hm
  case putDb last hp =>
    have hst := hf.stage c k hk
    simp only [Stage, hp] at hst
    refine hd.puts fun p hp => ?_
    rw [hst.2.1.2.pairs] at hp
    obtain ⟨q, hq, rfl⟩ := List.mem_map.1 hp
    obtain ⟨x, hx, rfl⟩ := List.mem_map.1 hq
    -- a request of the batch is in the queue
    obtain ⟨kx, hkx, hreq⟩ := hf.asked x (List.mem_of_mem_take hx)
    exact val_le_maxValue ((hf.held x.1 kx hkx).req hreq).1
  all_goals exact hd

/-- A clerk that goes to the database has read a `GET`. -/
theorem read_short {v : View} (hh : Held v k) (hp : k.pc = .read) : k.read.Short := by
  unfold Conn.read
  split
  · trivial
  · rename_i ho
    show replyValSize k.clerkBuf ≤ maxValue
    cases hc : k.ctl with
    | get key =>
      simp only [Held, hc, HeldGet, hp] at hh
      have hz : reqValSize k.clerkBuf = 0 := hh.2.valSize (by decide)
      show reqValSize k.clerkBuf ≤ maxValue
      omega
    | write r =>
      have hb := (hh.req (q := .write r) (by rw [hc]; rfl)).2
      simp only [HeldReq, hp] at hb
      rw [hb.asks.op] at ho
      cases hr : r.op <;> simp [Req.op, WriteOp.op, hr] at ho
    | delete key =>
      have hb := (hh.req (q := .delete key) (by rw [hc]; rfl)).2
      simp only [HeldReq, hp] at hb
      rw [hb.asks.op] at ho
      cases ho
    | idle => simp [Held, hc, hp] at hh
    | close =>
      simp only [Held, hc, hp, reduceCtorEq, true_and, false_or] at hh
      rw [hh.op] at ho
      cases ho
  · trivial

theorem short_move (hd : s.server.db.Bounded maxValue) (hh : Held (h.view c) k) (hs : k.Short)
    (hm : Move s c k a sv' k' w es) : k'.Short := by
  cases hm
  case call x hc hp => simp only [Conn.Short, Conn.call_pc]
  case acked hp | got hp | deleted hp => simp only [Conn.Short, hp]
  case read hp => exact read_short hh hp
  case dbHit key value hp hv => exact replyValSize_setReply_le (by decide) _ _ (hd _ _ hv)
  case dbMiss key hp hv =>
    simp only [Conn.Short, hp] at hs
    simpa only [Conn.Short, replyValSize_setStatus] using hs
  case follow => exact replyValSize_setReply_le (by decide) _ _ (Nat.zero_le _)
  case pop last d queue hp hq => by_cases he : d = last <;> simp [Conn.Short, he]
  case notify hp =>
    -- the leader posts its request back
    obtain ⟨q, hq⟩ := hh.req_of_pc (.inl (by rw [hp]; rfl))
    obtain ⟨hfit, hb⟩ := hh.req hq
    simp only [HeldReq, hp] at hb
    show reqValSize k.clerkBuf ≤ maxValue
    rw [hb.1.valSize hfit]
    exact val_le_maxValue hfit
  all_goals trivial

end

/-! ## Runs -/

section
variable {db : Store} {h : History} {s s' : State} {l : Label} {es : List Event}

theorem small_step (hf : Flow db h s) (hs : Small s) (hstep : step s l = some (s', es)) :
    Small s' := by
  cases step_cases hstep with
  | connect hl =>
    refine ⟨hs.db, fun c k hk => ?_⟩
    rcases append_cases hk with hk | ⟨-, rfl⟩
    · exact hs.short c k hk
    · trivial
  | @conn c _ k _ _ _ _ hl hk hm =>
    refine ⟨db_small hf hs.db hk hm, fun d kd hkd => ?_⟩
    rcases conns_after hk hkd with ⟨rfl, rfl⟩ | ⟨-, k₀, h₀, rfl⟩
    · exact (short_move hs.db (hf.held d k hk) (hs.short d k hk) hm).on _ _
    · exact (hs.short d k₀ h₀).on _ _

/-- **Replies stay short** in every run of requests that fit. -/
theorem small_run {batch : WriteBatch} {file : Buf} {tr : List Event} (hdb : db.Bounded maxValue)
    (hr : Run Fit batch db file tr s) : Small s :=
  Steps.invariant (I := fun _ s => Small s) ⟨hdb, by simp [init]⟩
    (fun hr hs _ hstep => small_step (flow_run hr).2 hs hstep) hr

end

end PMRAccess.Group
