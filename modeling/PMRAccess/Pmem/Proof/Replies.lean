import PMRAccess.Pmem.Step

/-!
# The PMem front end: the lengths of requests and replies

`Small`: the values in the database are no longer than a request allows, so the replies fit the
client's message buffer, and the client's cursor stays in the region of persistent memory.
`small_run`: so it is in every run of requests that fit.
-/

namespace PMRAccess.Pmem

open Lib

/-! ## What a step can do -/

/-- The moves of a connection, one constructor for each branch of its client and clerk. -/
inductive Move (sv : Server) (c : Nat) (k : Conn) : Act → Server → Conn → List Event → Prop
  | call {x : Call} {k' : Conn} {es : List Event} (hc : k.ctl = .idle) (hp : k.pc = .poll)
      (hx : k.call c x = (k', es)) : Move sv c k (.call x) sv k' es
  | ret {es : List Event} (hc : k.ctl ≠ .idle) (hp : k.pc = .poll) :
      Move sv c k .client sv { k with ctl := .idle } es
  | read {sv' : Server} {k' : Conn} (hp : k.pc = .read) (hr : readStep sv k = (sv', k')) :
      Move sv c k .clerk sv' k' []
  | dbPut {key val : Bytes} (hp : k.pc = .dbPut key val) :
      Move sv c k .clerk { sv with db := sv.db.put key val } (k.setReply .ok []) []
  | dbHit {key value : Bytes} (hp : k.pc = .dbGet key) (hv : sv.db key = some value) :
      Move sv c k .clerk sv (k.setReply .ok value) []
  | dbMiss {key : Bytes} (hp : k.pc = .dbGet key) (hv : sv.db key = none) :
      Move sv c k .clerk sv (k.setReply .notfound []) []
  | dbDelete {key : Bytes} (hp : k.pc = .dbDelete key) :
      Move sv c k .clerk { sv with db := sv.db.delete key } (k.setReply .ok []) []
  | reply (hp : k.pc = .reply) : Move sv c k .clerk sv k.reply []

section
variable {s s' : State} {sv sv' : Server} {c : Nat} {k k' : Conn} {a : Act} {es : List Event}
  {l : Label}

theorem clerkStep_cases (h : clerkStep sv k = some (sv', k')) : Move sv c k .clerk sv' k' [] := by
  unfold clerkStep at h
  split at h
  · cases h
  · cases h
  · rename_i hp; exact .read hp (Option.some.inj h)
  · rename_i key val hp; cases h; exact .dbPut hp
  · rename_i key hp
    split at h
    · rename_i value hv; cases h; exact .dbHit hp hv
    · rename_i hv; cases h; exact .dbMiss hp hv
  · rename_i key hp; cases h; exact .dbDelete hp
  · rename_i hp; cases h; exact .reply hp

theorem connStep_cases (h : connStep sv c k a = some (sv', k', es)) : Move sv c k a sv' k' es := by
  cases a with
  | call x =>
    simp only [connStep] at h
    split at h
    · rename_i hc hp
      obtain ⟨rfl, hx⟩ := Prod.mk.inj (Option.some.inj h)
      exact .call hc hp hx
    · cases h
  | client =>
    simp only [connStep] at h
    split at h
    · rename_i hp
      obtain ⟨⟨k1, es1⟩, hs, he⟩ := Option.map_eq_some_iff.1 h
      cases he
      unfold clientStep at hs
      cases hc : k.ctl <;> simp only [hc] at hs <;> cases hs <;> exact .ret (by simp [hc]) hp
    · cases h
  | clerk =>
    obtain ⟨⟨sv1, k1⟩, hs, he⟩ := Option.map_eq_some_iff.1 h
    cases he
    exact clerkStep_cases hs

/-- A step is a new connection or a move of one connection. -/
inductive Change (s : State) (l : Label) : State → List Event → Prop
  | connect {localBuf clerkBuf region : Buf} (hl : l = .connect localBuf clerkBuf region) :
      Change s l
        { s with conns := s.conns ++ [⟨localBuf, clerkBuf, region, 0, .idle, .poll⟩] } []
  | conn {c : Nat} {a : Act} {k k' : Conn} {sv' : Server} {es : List Event} (hl : l = .conn c a)
      (hk : s.conns[c]? = some k) (hm : Move s.server c k a sv' k' es) :
      Change s l ⟨sv', s.conns.set c k'⟩ es

theorem step_split (h : step s l = some (s', es)) :
    (∃ localBuf clerkBuf region, l = .connect localBuf clerkBuf region ∧ es = [] ∧
      s' = { s with conns := s.conns ++ [⟨localBuf, clerkBuf, region, 0, .idle, .poll⟩] }) ∨
    ∃ c a k k' sv', l = .conn c a ∧ s.conns[c]? = some k ∧
      connStep s.server c k a = some (sv', k', es) ∧ s' = ⟨sv', s.conns.set c k'⟩ := by
  unfold step at h
  split at h
  · cases h
  cases l with
  | connect localBuf clerkBuf region =>
    cases h
    exact .inl ⟨localBuf, clerkBuf, region, rfl, rfl, rfl⟩
  | conn c a =>
    simp only at h
    split at h
    · cases h
    · rename_i k hk
      split at h
      · cases h
      · rename_i sv' k' es' hm
        cases h
        exact .inr ⟨c, a, k, k', sv', rfl, hk, hm, rfl⟩

theorem step_cases (h : step s l = some (s', es)) : Change s l s' es := by
  rcases step_split h with ⟨_, _, _, hl, rfl, rfl⟩ | ⟨c, a, k, k', sv', hl, hk, hm, rfl⟩
  · exact .connect hl
  · exact .conn hl hk (connStep_cases hm)

end

/-! ## The invariant -/

/-- The longest value of a request that fits. -/
def maxValue : Nat := maxRequest - sizeofRequest

/-- The request in the message buffer, the value to put, the reply. -/
def Conn.Short (k : Conn) : Prop :=
  match k.pc with
  | .read => reqValSize k.clerkBuf ≤ maxValue
  | .dbPut _ val => val.length ≤ maxValue
  | .reply => replyValSize k.clerkBuf ≤ maxValue
  | _ => True

structure Small (s : State) : Prop where
  db : s.server.db.Bounded maxValue
  cursor : ∀ (c : Nat) (k : Conn), s.conns[c]? = some k → k.bufHead < pmemBufSize
  short : ∀ (c : Nat) (k : Conn), s.conns[c]? = some k → k.Short

/-! ## Calls -/

section
variable {k : Conn} {r : Record}

theorem Call.Fits.short (h : (Call.write r).Fits) : r.Short :=
  ⟨h.1, h.2.1, lt_of_le_of_lt h.2.2 (by decide)⟩

/-- A record is posted inside the region. -/
theorem writeAddr_le (h : (Call.write r).Fits) (hb : k.bufHead < pmemBufSize) :
    k.writeAddr r + r.totalLen < pmemBufSize := by
  have hs := h.2.2
  unfold Conn.writeAddr
  rw [h.short.lens.2.2.2]
  by_cases hfull : (k.bufHead + r.size) % 2 ^ 64 ≥ pmemBufSize
  · -- the ring starts over
    rw [if_pos hfull]
    simp only [pmemBufSize, maxRequest] at *
    omega
  · rw [if_neg hfull]
    simp only [pmemBufSize, maxRequest] at *
    omega

/-- The size of the value in a request just posted. -/
theorem reqValSize_post {b b' : Buf} {op : Operation} {n keySize valSize : Nat} {rest : Bytes}
    (h : b.read ringHeader n = requestHeader op keySize valSize ++ rest) (hv : valSize < 2 ^ 32) :
    reqValSize (b'.write ringHeader (b.read ringHeader n)) = valSize := by
  have h' : (b'.write ringHeader (b.read ringHeader n)).read ringHeader (b.read ringHeader n).length =
      requestHeader op keySize valSize ++ rest := (Buf.read_write_self _ _ _).trans h
  have h1 := (Buf.read_eq_append h').1
  rw [length_requestHeader] at h1
  exact reqValSize_of_header hv h1

theorem request_short {key : Bytes} (h0 : 0 ∉ key) (hl : sizeofRequest + key.length ≤ maxRequest)
    (op : Operation) (ctl : Ctl) : (k.request op key ctl).Short := by
  have hn := keyLen h0 (lt_of_le_of_lt hl (by decide))
  show reqValSize (k.request op key ctl).clerkBuf ≤ maxValue
  simp only [Conn.request, Conn.post, hn]
  rw [reqValSize_post (read_prepareKey h0 op k.localBuf) (by decide)]
  exact Nat.zero_le _

theorem sendWrite_short (h : (Call.write r).Fits) : (k.sendWrite r).Short := by
  show reqValSize (k.sendWrite r).clerkBuf ≤ maxValue
  have hs := h.2.2
  simp only [Record.size] at hs
  simp only [Conn.sendWrite, Conn.post, h.short.lens.2.2.2]
  rw [reqValSize_post (h.short.read_prepare k.localBuf)]
  · simp only [maxValue]
    omega
  · simp only [maxRequest] at hs
    omega

theorem call_short {c : Nat} {x : Call} (hx : x.Fits) : (k.call c x).1.Short := by
  cases x with
  | write r => exact sendWrite_short hx
  | get key | delete key => exact request_short hx.1 hx.2 _ _
  | close => exact request_short (by simp) (by decide) _ _

theorem call_cursor {c : Nat} {x : Call} (hx : x.Fits) (hb : k.bufHead < pmemBufSize) :
    (k.call c x).1.bufHead < pmemBufSize := by
  cases x with
  | write r => exact lt_of_le_of_lt (Nat.mod_le _ _) (writeAddr_le hx hb)
  | get key | delete key | close => exact hb

end

/-! ## Steps -/

section
variable {s s' : State} {sv sv' : Server} {c : Nat} {k k' : Conn} {a : Act} {es : List Event}
  {l : Label}

theorem setReply_short {value : Bytes} (hv : value.length ≤ maxValue) (status : RequestStatus) :
    (k.setReply status value).Short :=
  replyValSize_setReply_le (by decide) k.clerkBuf status hv

theorem readStep_short (hp : k.pc = .read) (h : k.Short) (hr : readStep sv k = (sv', k')) :
    sv'.db = sv.db ∧ k'.bufHead = k.bufHead ∧ k'.Short := by
  have hv : (reqVal k.clerkBuf).length ≤ maxValue := by
    rw [reqVal, Buf.length_read]
    simpa only [Conn.Short, hp] using h
  simp only [readStep] at hr
  split at hr <;> cases hr
  -- `UPDATE` and `PUT`
  · exact ⟨rfl, rfl, hv⟩
  · exact ⟨rfl, rfl, hv⟩
  -- `GET`, `DELETE`, `CLOSE`
  · exact ⟨rfl, rfl, trivial⟩
  · exact ⟨rfl, rfl, trivial⟩
  · exact ⟨rfl, rfl, trivial⟩
  -- `exit`
  · exact ⟨rfl, rfl, h⟩
  · exact ⟨rfl, rfl, h⟩

theorem move_small (hx : ∀ x, a = .call x → x.Fits) (hd : sv.db.Bounded maxValue)
    (hb : k.bufHead < pmemBufSize) (h : k.Short) (hm : Move sv c k a sv' k' es) :
    sv'.db.Bounded maxValue ∧ k'.bufHead < pmemBufSize ∧ k'.Short := by
  have h0 : ([] : Bytes).length ≤ maxValue := Nat.zero_le _
  cases hm with
  | @call x _ _ hc hp he =>
    obtain rfl : (k.call c x).1 = k' := congrArg Prod.fst he
    exact ⟨hd, call_cursor (hx x rfl) hb, call_short (hx x rfl)⟩
  | ret hc hp => exact ⟨hd, hb, by simp [Conn.Short, hp]⟩
  | read hp hr =>
    obtain ⟨h1, h2, h3⟩ := readStep_short hp h hr
    exact ⟨h1 ▸ hd, h2 ▸ hb, h3⟩
  | dbPut hp =>
    simp only [Conn.Short, hp] at h
    exact ⟨hd.put _ h, hb, setReply_short h0 _⟩
  | dbHit hp hv => exact ⟨hd, hb, setReply_short (hd _ _ hv) _⟩
  | dbMiss hp hv => exact ⟨hd, hb, setReply_short h0 _⟩
  | dbDelete hp => exact ⟨hd.delete _, hb, setReply_short h0 _⟩
  | reply hp => exact ⟨hd, hb, trivial⟩

theorem small_step (h : Small s) (hf : Fit s l) (hs : step s l = some (s', es)) : Small s' := by
  cases step_cases hs with
  | connect hl =>
    refine ⟨h.db, fun c k hk => ?_, fun c k hk => ?_⟩
    · rcases append_cases hk with hk | ⟨-, rfl⟩
      · exact h.cursor c k hk
      · exact (by decide : 0 < pmemBufSize)
    · rcases append_cases hk with hk | ⟨-, rfl⟩
      · exact h.short c k hk
      · trivial
  | @conn c a k k' sv' es hl hk hm =>
    have hx : ∀ x, a = .call x → x.Fits := by
      rintro x rfl
      exact hf x (by simp [hl, Label.call?])
    obtain ⟨h1, h2, h3⟩ := move_small hx h.db (h.cursor c k hk) (h.short c k hk) hm
    refine ⟨h1, fun d kd hkd => ?_, fun d kd hkd => ?_⟩
    · rcases set_cases hk hkd with ⟨rfl, rfl⟩ | ⟨-, hkd⟩
      · exact h2
      · exact h.cursor d kd hkd
    · rcases set_cases hk hkd with ⟨rfl, rfl⟩ | ⟨-, hkd⟩
      · exact h3
      · exact h.short d kd hkd

/-- **Requests and replies stay short** in every run of requests that fit. -/
theorem small_run {db : Store} {tr : List Event} (hdb : db.Bounded maxValue)
    (hr : Run Fit db tr s) : Small s :=
  Steps.invariant (I := fun _ s => Small s) ⟨hdb, by simp [init], by simp [init]⟩
    (fun _ h hf hs => small_step h hf hs) hr

end

end PMRAccess.Pmem
