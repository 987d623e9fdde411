import PMRAccess.Pmr.Proof.Flush

/-!
# The server as a map

With atomic requests, keys that have one writer each and no `DELETE`, what a `GET` finds is the
value of the last write handled (`View`): for a key in the index this is the entry's record
(`Index`), for any other key the database has it (`missed`), because a flush puts a record into the
database before it takes its key out of the index (`batched`). A `GET` carries this value to its
client (`GetPhase`), and the writes handled are the writes acknowledged, up to the one in progress
(`order`).
-/

namespace PMRAccess.Pmr

open Lib

/-! ## Requests one at a time -/

/-- The connection is between two requests: those of two calls, or the `ALLOC` and the `PUT` of one
`SendWrite`; or it is closed. -/
def Conn.between (k : Conn) : Bool :=
  match k.ctl, k.pc with
  | .idle, .poll | .alloc _, .poll | .post _, .poll => true
  | _, .done => true
  | _, _ => false

/-- Each request is atomic: a connection moves only while all others are between two requests. An
`ALLOC` that a `SendWrite` sends first is a request of its own. -/
def InTurn (s : State) (l : Label) : Prop :=
  ∀ c ∈ l.conn? s, ∀ d < s.conns.length, d ≠ c → ∀ k ∈ s.conns[d]?, k.between = true

instance (s : State) (l : Label) : Decidable (InTurn s l) :=
  inferInstanceAs (Decidable (∀ c ∈ l.conn? s, ∀ d < s.conns.length, d ≠ c →
    ∀ k ∈ s.conns[d]?, k.between = true))

section
variable {h : History} {s : State} {c d : Nat} {k kd : Conn} {a : Act}

theorem InTurn.between (hg : InTurn s (.conn c a)) (hkd : s.conns[d]? = some kd) (hdc : d ≠ c) :
    kd.between = true :=
  hg c rfl d (List.getElem?_eq_some_iff.1 hkd).1 hdc kd hkd

/-- A connection between two requests waits for the client, in no call that has its reply; or it is
closed. -/
theorem Sync.between_cases {rs hs : List Record} (hs : Sync rs hs k) (hb : k.between = true) :
    (k.pc = .poll ∧ (k.ctl = .idle ∨ (∃ next, k.ctl = .alloc next) ∨ ∃ r, k.ctl = .post r)) ∨
    (k.pc = .done ∧ k.ctl = .close) := by
  have hph := hs.phase
  unfold Conn.between at hb
  split at hb
  · rename_i hc hp
    exact .inl ⟨hp, .inl hc⟩
  · rename_i next hc hp
    exact .inl ⟨hp, .inr (.inl ⟨next, hc⟩)⟩
  · rename_i r hc hp
    exact .inl ⟨hp, .inr (.inr ⟨r, hc⟩)⟩
  · rename_i hp
    simp only [Phase, hp] at hph
    exact .inr ⟨hp, hph.2.2.2⟩
  · cases hb

theorem Sync.erase_of_between {rs hs : List Record} (hs : Sync rs hs k) (hb : k.between = true)
    {closing : Bool} {tmp : Buf} {j : Nat} : k.pc ≠ .erase closing tmp j := by
  rcases hs.between_cases hb with ⟨hp, -⟩ | ⟨hp, -⟩ <;> simp [hp]

theorem Sync.get_of_between {rs hs : List Record} (hs : Sync rs hs k) (hb : k.between = true)
    {key : Bytes} : k.ctl ≠ .get key := by
  rcases hs.between_cases hb with ⟨-, hc | ⟨next, hc⟩ | ⟨r, hc⟩⟩ | ⟨-, hc⟩ <;> simp [hc]

/-- The write that the clerk has handled and the client has not returned from. -/
def Conn.answered? (k : Conn) : Option Record :=
  match k.ctl, k.pc with
  | .write r, .reply | .write r, .poll => some r
  | _, _ => none

theorem Sync.answered_of_between {rs hs : List Record} (hs : Sync rs hs k)
    (hb : k.between = true) : k.answered? = none := by
  rcases hs.between_cases hb with ⟨-, hc | ⟨next, hc⟩ | ⟨r, hc⟩⟩ | ⟨-, hc⟩ <;>
    simp [Conn.answered?, hc]

end

section
variable {h : History} {sv sv' : Server} {c : Nat} {k k' : Conn} {a : Act} {es : List Event}

/-- A move handles a write, or acknowledges it, or does neither. -/
theorem move_answered {rs hs : List Record} (hs : Sync rs hs k) (hm : Move sv c k a sv' k' es) :
    (k'.answered? = k.answered? ∧ (h.addAll es).handled = h.handled ∧
      (h.addAll es).acked = h.acked) ∨
    (∃ r, r.Fits ∧ k.answered? = none ∧ k'.answered? = some r ∧ es = [.handled c r]) ∨
    ∃ r, k.answered? = some r ∧ k'.answered? = none ∧ es = [.acked c r] := by
  cases hm
  case insert key m hp =>
    obtain ⟨r, hins, hev⟩ := hs.of_insert hp
    refine .inr (.inl ⟨r, hs.fits r (by simp [hins.last]), ?_, ?_, hev c⟩)
    · simp [Conn.answered?, hins.ctl, hp]
    · simp [Conn.answered?, hins.ctl]
  case ack r hc hp => exact .inr (.inr ⟨r, by simp [Conn.answered?, hc, hp], rfl, rfl⟩)
  case enqueue closing _ _ hp _ =>
    refine .inl ⟨?_, rfl, rfl⟩
    cases closing <;> simp [Conn.answered?, hp]
  case scan pc hp hpc =>
    refine .inl ⟨?_, rfl, rfl⟩
    rcases hpc with ⟨j, rfl⟩ | ⟨-, rfl⟩ <;> simp [Conn.answered?, hp]
  case reply hp =>
    refine .inl ⟨?_, rfl, rfl⟩
    unfold Conn.answered?
    rw [hp]
    cases k.ctl <;> rfl
  case copy hp | dbHit hp _ | dbMiss hp _ | dbDelete hp =>
    have hph := hs.phase
    simp only [Phase, hp] at hph
    exact .inl ⟨by simp [Conn.answered?, hph.1], rfl, rfl⟩
  case setFree hp _ =>
    have hph := hs.phase
    simp only [Phase, hp, FlushCtl] at hph
    obtain ⟨-, -, -, -, next, hc, -⟩ := hph
    exact .inl ⟨by simp [Conn.answered?, hc], rfl, rfl⟩
  all_goals
    refine .inl ⟨?_, rfl, rfl⟩
    simp_all [Conn.answered?, Conn.prepare, Conn.request, Conn.postRecord]

end

/-! ## The view -/

/-- The reply that brings the outcome of a lookup. -/
def Replies (b : Buf) : Option Bytes → Prop
  | some v => Answers b .ok v
  | none => Answers b .notfound []

theorem Replies.value {b : Buf} {o : Option Bytes} (hr : Replies b o)
    (hlen : ∀ v, o = some v → v.length < 2 ^ 32) :
    (if replyOk b then some (replyValue b) else none) = o := by
  cases o with
  | none =>
    obtain ⟨hok, -⟩ := Answers.reply hr (by decide)
    simp [hok]
  | some v =>
    obtain ⟨hok, -, hval⟩ := Answers.reply hr (hlen v rfl)
    simp [hok, hval]

/-- How far a `GET` of the key has come with what the server finds. -/
def GetPhase (sv : Server) (k : Conn) (key : Bytes) : Prop :=
  match k.pc with
  | .copy _ m => sv.map key = some m
  | .dbGet _ => sv.map key = none
  | .reply => Replies k.clerk.sendBuf (sv.lookup key)
  | .poll => Replies k.client.localBuf (sv.lookup key)
  | _ => True

structure View (h : History) (s : State) : Prop where
  nodel : ∀ (c : Nat) (k : Conn) (key : Bytes), s.conns[c]? = some k → k.ctl ≠ .delete key
  batched : ∀ (c : Nat) (k : Conn) (closing : Bool) (tmp : Buf) (j : Nat), s.conns[c]? = some k →
    k.pc = .erase closing tmp j → ∀ hs r ts, h.chunk c = hs ++ r :: ts →
    r.key ∉ ts.map Record.key → s.server.db r.key = some r.val
  missed : ∀ key, s.server.map key = none →
    s.server.db key = (lastWrite key h.handled).map (·.2.val)
  fits : ∀ p ∈ h.handled, p.2.Fits
  order : (∃ (c : Nat) (k : Conn) (r : Record), s.conns[c]? = some k ∧ k.answered? = some r ∧
      h.handled = h.acked ++ [(c, r)]) ∨
    ((∀ (c : Nat) (k : Conn), s.conns[c]? = some k → k.answered? = none) ∧ h.handled = h.acked)
  get : ∀ (c : Nat) (k : Conn) (key : Bytes), s.conns[c]? = some k → k.ctl = .get key →
    GetPhase s.server k key

section
variable {h : History} {s : State}

theorem lastWrite_mem {key : Bytes} {ws : List (Nat × Record)} {p : Nat × Record}
    (hp : lastWrite key ws = some p) : p ∈ ws :=
  List.mem_reverse.1 (List.mem_of_find?_eq_some hp)

/-- What a lookup finds is the value of the last write handled. -/
theorem View.lookup (hv : View h s) (hd : Data h s) (hi : Index h s) (key : Bytes) :
    s.server.lookup key = (lastWrite key h.handled).map (·.2.val) := by
  cases hm : s.server.map key with
  | none =>
    simp only [Server.lookup, hm]
    exact hv.missed key hm
  | some m =>
    obtain ⟨c, k, i, r, hs, ts, he⟩ := hi key m hm
    rw [he.lookup hd hm, he.last]
    rfl

/-- When a connection that waits for no write moves, this is the last write acknowledged. -/
theorem View.acked_lookup (hv : View h s) (hd : Data h s) (hi : Index h s) {c : Nat} {k : Conn}
    {a : Act} (hg : InTurn s (.conn c a)) (hk : s.conns[c]? = some k) (hn : k.answered? = none)
    (key : Bytes) : s.server.lookup key = (lastWrite key h.acked).map (·.2.val) := by
  rw [hv.lookup hd hi]
  rcases hv.order with ⟨d, kd, r, hkd, hr, -⟩ | ⟨-, ho⟩
  · exfalso
    by_cases hdc : d = c
    · subst hdc
      obtain rfl := Option.some.inj (hkd.symm.trans hk)
      rw [hn] at hr
      cases hr
    · rw [(hd.sync d kd hkd).answered_of_between (hg.between hkd hdc)] at hr
      cases hr
  · rw [ho]

theorem View.lookup_length (hv : View h s) (hd : Data h s) (hi : Index h s) {key v : Bytes}
    (hl : s.server.lookup key = some v) : v.length < 2 ^ 32 := by
  rw [hv.lookup hd hi] at hl
  obtain ⟨p, hp, rfl⟩ := Option.map_eq_some_iff.1 hl
  exact (hv.fits p (lastWrite_mem hp)).bounds.2.2.1

end

/-! ## Moves -/

section
variable {h : History} {s : State} {sv sv' : Server} {c : Nat} {k k' : Conn} {a : Act}
  {es : List Event} {key : Bytes}

/-- A move leaves the database alone, or deletes a key, or puts a batch. -/
theorem move_db (hm : Move sv c k a sv' k' es) :
    sv'.db = sv.db ∨
    (∃ key, k.pc = .dbDelete key ∧ sv'.db = sv.db.delete key ∧ sv'.map = sv.map) ∨
    ∃ closing tmp, k.pc = .putBatch closing tmp ∧
      sv'.db = sv.db.putBatch k.clerk.keyBatch k.clerk.metas tmp ∧ sv'.map = sv.map ∧ es = [] := by
  cases hm
  case dbDelete key hp => exact .inr (.inl ⟨key, hp, rfl, rfl⟩)
  case putBatch closing tmp hp => exact .inr (.inr ⟨closing, tmp, hp, rfl, rfl, rfl⟩)
  all_goals exact .inl rfl

/-- A clerk comes to a key of the flush loop from the `PutBatch` or from the key before. -/
theorem Move.of_erase (hm : Move sv c k a sv' k' es) {closing : Bool} {tmp : Buf} {j : Nat}
    (hp : k'.pc = .erase closing tmp j) :
    es = [] ∧ ((k.pc = .putBatch closing tmp ∧
        sv'.db = sv.db.putBatch k.clerk.keyBatch k.clerk.metas tmp) ∨
      ∃ i, k.pc = .erase closing tmp i ∧ sv'.db = sv.db) := by
  cases hm
  case putBatch hp' => cases hp; exact ⟨rfl, .inl ⟨hp', rfl⟩⟩
  case erase i _ hp' _ => cases hp; exact ⟨rfl, .inr ⟨i, hp', rfl⟩⟩
  case enqueue closing _ _ _ _ => cases closing <;> cases hp
  case scan pc _ hpc => rcases hpc with ⟨j, rfl⟩ | ⟨-, rfl⟩ <;> cases hp
  all_goals simp_all [Conn.request, Conn.prepare, Conn.postRecord]

theorem Move.of_delete (hm : Move sv c k a sv' k' es) (hc : k'.ctl = .delete key) :
    k.ctl = .delete key ∨ a = .call (.delete key) := by
  cases hm
  case callDelete => cases hc; exact .inr rfl
  case callPost | callFull | callGet | callAlloc | callClose | post | allocEnd | allocNext | ack |
      got | deleted => cases hc
  all_goals exact .inl hc

/-- The steps of a `GET` keep to what the server finds. -/
theorem get_move {rs hs : List Record} (hs : Sync rs hs k) (hm : Move sv c k a sv' k' es)
    (hg : k.ctl = .get key → GetPhase sv k key)
    (hlen : ∀ v, sv.lookup key = some v → v.length < 2 ^ 32) (hc : k'.ctl = .get key) :
    GetPhase sv' k' key := by
  have hph := hs.phase
  cases hm
  case findHit key' _ hp hmap | findMiss key' hp hmap =>
    simp only [Phase, hp] at hph
    obtain rfl : key' = key := Ctl.get.inj (hph.1.symm.trans hc)
    exact hmap
  case copy key' m hp =>
    simp only [Phase, hp] at hph
    obtain rfl : key' = key := Ctl.get.inj (hph.1.symm.trans hc)
    have hmap := hg hph.1
    simp only [GetPhase, hp] at hmap
    simp only [GetPhase, Server.lookup, hmap]
    exact Answers.setReply _ _ _
  case dbHit key' _ hp hdb | dbMiss key' hp hdb =>
    simp only [Phase, hp] at hph
    obtain rfl : key' = key := Ctl.get.inj (hph.1.symm.trans hc)
    have hmap := hg hph.1
    simp only [GetPhase, hp] at hmap
    simp only [GetPhase, Server.lookup, hmap, hdb]
    exact Answers.setReply _ _ _
  case reply hp =>
    have hr := hg hc
    simp only [GetPhase, hp] at hr ⊢
    cases hl : sv.lookup key with
    | none =>
      rw [hl] at hr
      exact Answers.post hr (by decide) _
    | some v =>
      rw [hl] at hr
      exact Answers.post hr (hlen v hl) _
  case insert hp =>
    obtain ⟨r, hins, -⟩ := hs.of_insert hp
    cases hins.ctl.symm.trans hc
  case dbDelete hp =>
    simp only [Phase, hp] at hph
    cases hph.1.symm.trans hc
  case setFree hp _ =>
    simp only [Phase, hp, FlushCtl] at hph
    obtain ⟨-, -, -, -, next, hn, -⟩ := hph
    cases hn.symm.trans hc
  case enqueue closing _ _ _ _ => cases closing <;> trivial
  case scan pc _ hpc => rcases hpc with ⟨j, rfl⟩ | ⟨-, rfl⟩ <;> trivial
  case callPost | callFull | callDelete | callAlloc | callClose | post | allocEnd | allocNext | ack |
      got | deleted => cases hc
  case readBad hp _ | setAbort hp _ => simp [GetPhase, hp]
  all_goals trivial

/-- A move leaves the database entry of a key alone that is not in the index. -/
theorem View.db_of_missed (hv : View h s) (hd : Data h s) (hc : Cover h s)
    (hk : s.conns[c]? = some k) (hm : Move s.server c k a sv' k' es)
    (hmap : s.server.map key = none) : sv'.db key = s.server.db key := by
  rcases move_db hm with hdb | ⟨key', hp, -, -⟩ | ⟨closing, tmp, hp, hdb, -, -⟩
  · rw [hdb]
  · have hph := (hd.sync c k hk).phase
    simp only [Phase, hp] at hph
    exact absurd hph.1 (hv.nodel c k key' hk)
  · obtain ⟨hall, hkeys, hput⟩ := hd.putBatch hk hp s.server.db
    rw [hdb, hput]
    refine putAll_of_notMem (fun hkey => ?_) _
    exact hc.index c k key hk (hall ▸ hkey) (by simp [hp]) hmap

theorem missed_move (hv : View h s) (hd : Data h s) (hi : Index h s) (hc : Cover h s)
    (hk : s.conns[c]? = some k) (hm : Move s.server c k a sv' k' es) (hmap : sv'.map key = none) :
    sv'.db key = (lastWrite key (h.addAll es).handled).map (·.2.val) := by
  rcases move_index (h := h) hm with ⟨hsame, hh, -, -⟩ | ⟨key₀, m₀, hp, hins, hes, -⟩ |
    ⟨closing, tmp, j, key₀, hp, hj, hera, hes, -⟩
  · rw [hsame] at hmap
    rw [hv.db_of_missed hd hc hk hm hmap, hh]
    exact hv.missed key hmap
  · rw [hins] at hmap
    have hne : key ≠ key₀ := by
      rintro rfl
      rw [assign_self] at hmap
      cases hmap
    rw [assign_of_ne hne] at hmap
    obtain ⟨r₀, hr₀, hev⟩ := (hd.sync c k hk).of_insert hp
    have hl : lastWrite key (h.addAll es).handled = lastWrite key h.handled := by
      rw [hes, hev]
      refine (lastWrite_snoc key _ _ _).trans (if_neg ?_)
      intro h'
      exact hne (h'.symm.trans hr₀.key_eq.symm)
    rw [hv.db_of_missed hd hc hk hm hmap, hl]
    exact hv.missed key hmap
  · rw [hes, History.addAll_nil]
    have hdb : sv'.db = s.server.db := by
      rcases move_db hm with hdb | ⟨_, hp', -⟩ | ⟨_, _, hp', -⟩
      · exact hdb
      iterate 2 simp [hp] at hp'
    rw [hdb]
    cases hold : s.server.map key with
    | none => exact hv.missed key hold
    | some m =>
      -- the key just erased: the database has the clerk's last record of it
      rw [hera] at hmap
      obtain rfl : key = key₀ := by
        by_contra hne
        rw [assign_of_ne hne, hold] at hmap
        cases hmap
      obtain ⟨i, r, hs, ts, he⟩ := hc.entry_own hd hi hk (List.mem_of_getElem? hj) hold
      have hchunk : h.chunk c = hs ++ r :: ts := ((hd.sync c k hk).of_erase hp).1 ▸ he.indexed
      rw [he.last]
      have hke := he.key_eq
      subst hke
      exact hv.batched c k closing tmp j hk hp hs r ts hchunk he.newest

theorem batched_move (hv : View h s) (hd : Data h s) (hg : InTurn s (.conn c a))
    (hk : s.conns[c]? = some k) (hm : Move s.server c k a sv' k' es) {d j : Nat} {kd : Conn}
    {closing : Bool} {tmp : Buf} (hkd : (s.conns.set c k')[d]? = some kd)
    (hp : kd.pc = .erase closing tmp j) {hs : List Record} {r : Record} {ts : List Record}
    (hch : (h.addAll es).chunk d = hs ++ r :: ts) (hnew : r.key ∉ ts.map Record.key) :
    sv'.db r.key = some r.val := by
  rcases conns_set_cases hk hkd with ⟨rfl, rfl⟩ | ⟨hdc, hkd⟩
  · obtain ⟨rfl, ⟨hp', hdb⟩ | ⟨i, hp', hdb⟩⟩ := hm.of_erase hp
    · rw [hdb, (hd.putBatch hk hp' _).2.2]
      rw [History.addAll_nil] at hch
      rw [hch]
      exact putAll_last hnew _
    · rw [hdb]
      exact hv.batched d k closing tmp i hk hp' hs r ts hch hnew
  · -- another clerk is not in the middle of a flush
    exact absurd hp ((hd.sync d kd hkd).erase_of_between (hg.between hkd hdc))

theorem order_move (hv : View h s) (hd : Data h s) (hg : InTurn s (.conn c a))
    (hk : s.conns[c]? = some k) (hm : Move s.server c k a sv' k' es) :
    (∃ (d : Nat) (kd : Conn) (r : Record), (s.conns.set c k')[d]? = some kd ∧
      kd.answered? = some r ∧ (h.addAll es).handled = (h.addAll es).acked ++ [(d, r)]) ∨
    ((∀ (d : Nat) (kd : Conn), (s.conns.set c k')[d]? = some kd → kd.answered? = none) ∧
      (h.addAll es).handled = (h.addAll es).acked) := by
  have hself : (s.conns.set c k')[c]? = some k' := conns_set_self hk
  have hother : ∀ (d : Nat) (kd : Conn), d ≠ c → s.conns[d]? = some kd → kd.answered? = none :=
    fun d kd hdc hkd => (hd.sync d kd hkd).answered_of_between (hg.between hkd hdc)
  -- so only `c` can have a write that is handled and not acknowledged
  have hold : (∃ r, k.answered? = some r ∧ h.handled = h.acked ++ [(c, r)]) ∨
      (k.answered? = none ∧ h.handled = h.acked) := by
    rcases hv.order with ⟨d, kd, r, hkd, hr, ho⟩ | ⟨hn, ho⟩
    · by_cases hdc : d = c
      · subst hdc
        obtain rfl := Option.some.inj (hkd.symm.trans hk)
        exact .inl ⟨r, hr, ho⟩
      · rw [hother d kd hdc hkd] at hr
        cases hr
    · exact .inr ⟨hn c k hk, ho⟩
  have hnone : k'.answered? = none → ∀ (d : Nat) (kd : Conn), (s.conns.set c k')[d]? = some kd →
      kd.answered? = none := by
    intro hn d kd hkd
    rcases conns_set_cases hk hkd with ⟨-, rfl⟩ | ⟨hdc, hkd⟩
    · exact hn
    · exact hother d kd hdc hkd
  rcases move_answered (h := h) (hd.sync c k hk) hm with ⟨hr, hh, ha⟩ | ⟨r, -, hr, hr', rfl⟩ |
    ⟨r, hr, hr', rfl⟩
  · rw [hh, ha]
    rcases hold with ⟨r, hkr, ho⟩ | ⟨hn, ho⟩
    · exact .inl ⟨c, k', r, hself, hr.trans hkr, ho⟩
    · exact .inr ⟨hnone (hr.trans hn), ho⟩
  · rcases hold with ⟨r', hkr, -⟩ | ⟨-, ho⟩
    · rw [hr] at hkr
      cases hkr
    · exact .inl ⟨c, k', r, hself, hr', by simp [History.add, ho]⟩
  · rcases hold with ⟨r', hkr, ho⟩ | ⟨hn, -⟩
    · obtain rfl := Option.some.inj (hr.symm.trans hkr)
      exact .inr ⟨hnone hr', by simp [History.add, ho]⟩
    · rw [hr] at hn
      cases hn

theorem view_move (hv : View h s) (hd : Data h s) (hi : Index h s) (hc : Cover h s)
    (hg : InTurn s (.conn c a)) (hn : ∀ key, a ≠ .call (.delete key)) (hk : s.conns[c]? = some k)
    (hm : Move s.server c k a sv' k' es) : View (h.addAll es) ⟨sv', s.conns.set c k'⟩ where
  nodel d kd key hkd hdel := by
    rcases conns_set_cases hk hkd with ⟨-, rfl⟩ | ⟨-, hkd⟩
    · rcases hm.of_delete hdel with h' | h'
      · exact hv.nodel c k key hk h'
      · exact hn key h'
    · exact hv.nodel d kd key hkd hdel
  batched d kd closing tmp j hkd hp hs r ts hch hnew := batched_move hv hd hg hk hm hkd hp hch hnew
  missed key hmap := missed_move hv hd hi hc hk hm hmap
  fits p hp := by
    rcases move_answered (h := h) (hd.sync c k hk) hm with ⟨-, hh, -⟩ | ⟨r, hr, -, -, rfl⟩ |
      ⟨r, -, -, rfl⟩
    · rw [hh] at hp
      exact hv.fits p hp
    · simp only [History.addAll_single, History.add, List.mem_append, List.mem_singleton] at hp
      rcases hp with hp | rfl
      · exact hv.fits p hp
      · exact hr
    · exact hv.fits p hp
  order := order_move hv hd hg hk hm
  get d kd key hkd hget := by
    rcases conns_set_cases hk hkd with ⟨-, rfl⟩ | ⟨hdc, hkd⟩
    · exact get_move (hd.sync c k hk) hm (hv.get c k key hk) (fun v => hv.lookup_length hd hi) hget
    · exact absurd hget ((hd.sync d kd hkd).get_of_between (hg.between hkd hdc))

theorem turn_lookup {w : Option (Sqe × Int)} (ht : Turn sv w sv' es) (key : Bytes) :
    sv'.lookup key = sv.lookup key := by
  obtain ⟨hmem, hmap, hdb⟩ := turn_mem ht
  simp only [Server.lookup, hmem, hmap, hdb]

theorem view_turn {w : Option (Sqe × Int)} (hv : View h s) (ht : Turn s.server w sv' es) :
    View (h.addAll es) { s with server := sv' } := by
  obtain ⟨ws, hw⟩ := turn_hist (h := h) ht
  obtain ⟨-, hmap, hdb⟩ := turn_mem ht
  rw [hw]
  refine ⟨hv.nodel, by rw [hdb]; exact hv.batched, by rw [hmap, hdb]; exact hv.missed, hv.fits,
    hv.order, fun d kd key hkd hget => ?_⟩
  have hph := hv.get d kd key hkd hget
  simpa only [GetPhase, turn_lookup ht, hmap] using hph

theorem view_connect (hv : View h s) (localBuf sendBuf : Buf) :
    View h { s with conns := s.conns ++ [Conn.new localBuf sendBuf] } where
  nodel d kd key hkd hdel := by
    rcases conns_append hkd with hkd | ⟨-, rfl⟩
    · exact hv.nodel d kd key hkd hdel
    · cases hdel
  batched d kd closing tmp j hkd hp := by
    rcases conns_append hkd with hkd | ⟨-, rfl⟩
    · exact hv.batched d kd closing tmp j hkd hp
    · cases hp
  missed := hv.missed
  fits := hv.fits
  order := by
    rcases hv.order with ⟨d, kd, r, hkd, hr, ho⟩ | ⟨hn, ho⟩
    · exact .inl ⟨d, kd, r, append_some hkd, hr, ho⟩
    · refine .inr ⟨fun d kd hkd => ?_, ho⟩
      rcases conns_append hkd with hkd | ⟨-, rfl⟩
      · exact hn d kd hkd
      · rfl
  get d kd key hkd hget := by
    rcases conns_append hkd with hkd | ⟨-, rfl⟩
    · exact hv.get d kd key hkd hget
    · cases hget

end

/-! ## One writer for each key -/

/-- A call of client `c` that writes its own keys only, and deletes none. -/
def Call.ByOwner (owner : Bytes → Nat) (c : Nat) : Call → Prop
  | .write r => owner r.key = c
  | .delete _ => False
  | .get _ | .alloc | .close => True

instance (owner : Bytes → Nat) (c : Nat) : (x : Call) → Decidable (x.ByOwner owner c)
  | .write r => inferInstanceAs (Decidable (owner r.key = c))
  | .delete _ => inferInstanceAs (Decidable False)
  | .get _ | .alloc | .close => inferInstanceAs (Decidable True)

/-- Requests fit, each is atomic, every key is written by its owner only, and there is no
`DELETE`. -/
def OneWriter (owner : Bytes → Nat) (s : State) (l : Label) : Prop :=
  (l.Fits ∧ InTurn s l) ∧ ∀ p ∈ l.call?, p.2.ByOwner owner p.1

instance (owner : Bytes → Nat) (s : State) (l : Label) : Decidable (OneWriter owner s l) :=
  inferInstanceAs (Decidable ((l.Fits ∧ InTurn s l) ∧ ∀ p ∈ l.call?, p.2.ByOwner owner p.1))

/-- Keys are pending only in the connection of their owner. -/
def Owned (owner : Bytes → Nat) (s : State) : Prop :=
  ∀ (c : Nat) (k : Conn) (key : Bytes), s.conns[c]? = some k → k.Pending key → owner key = c

section
variable {owner : Bytes → Nat} {h : History} {s s' : State} {l : Label} {es : List Event}

theorem owned_step (hd : Data h s) (ho : Owned owner s) (hg : OneWriter owner s l)
    (hs : step s l = some (s', es)) : Owned owner s' := by
  intro d kd key hkd hp
  cases step_cases hs with
  | connect hl =>
    rcases conns_append hkd with hkd | ⟨-, rfl⟩
    · exact ho d kd key hkd hp
    · rcases hp with hp | hp <;> cases hp
  | @conn c a k k' _ _ hl hk hm =>
    replace hkd : (s.conns.set c k')[d]? = some kd := hkd
    rcases conns_set_cases hk hkd with ⟨rfl, rfl⟩ | ⟨-, hkd⟩
    · rcases hm.pending (hd.sync d k hk) hp with hp | ⟨r, rfl, rfl⟩
      · exact ho d k key hk hp
      · exact hg.2 (d, .write r) (by simp [hl, Label.call?])
    · exact ho d kd key hkd hp
  | ring hc ht => exact ho d kd key hkd hp

theorem apart_of_oneWriter (ho : Owned owner s) (hg : OneWriter owner s l) : Apart s l := by
  refine ⟨hg.1.1, fun w hw d hlt hdw k hk hp => ?_⟩
  unfold Label.write? at hw
  split at hw
  · rename_i c r
    cases hw
    have h1 := ho d k r.key hk hp
    have h2 : owner r.key = c := hg.2 (c, .write r) rfl
    exact hdw (h1.symm.trans h2)
  · cases hw

theorem view_step (hd : Data h s) (hi : Index h s) (hc : Cover h s) (hv : View h s)
    (hg : OneWriter owner s l) (hs : step s l = some (s', es)) : View (h.addAll es) s' := by
  cases step_cases hs with
  | connect hl => exact view_connect hv _ _
  | @conn c a k k' _ _ hl hk hm =>
    subst hl
    refine view_move hv hd hi hc hg.1.2 ?_ hk hm
    rintro key rfl
    exact hg.2 (c, .delete key) rfl
  | ring hc' ht => exact view_turn hv ht

theorem view_run {mem file : Buf} {tr : List Event}
    (hr : Run (OneWriter owner) mem file (fun _ => none) tr s) :
    Data (hist tr) s ∧ Index (hist tr) s ∧ View (hist tr) s := by
  have hI := Run.invariant (I := fun h s => (Data h s ∧ Index h s) ∧ (Owned owner s ∧ Cover h s) ∧
      View h s)
    ⟨⟨data_init mem file _, fun _ _ hm => by simp [init] at hm⟩, ⟨by simp [Owned, init],
      by simp [init], by simp [init]⟩, by simp [init], by simp [init], fun _ _ => rfl,
      by simp [History.empty], .inr ⟨by simp [init], rfl⟩, by simp [init]⟩
    (fun h hp hs => ⟨⟨data_step h.1.1 hp.1.1 hs, index_step h.1.1 h.1.2 hs⟩,
      ⟨owned_step h.1.1 h.2.1.1 hp hs,
        cover_step h.1.1 h.2.1.2 (apart_of_oneWriter h.2.1.1 hp) hs⟩,
      view_step h.1.1 h.1.2 h.2.1.2 h.2.2 hp hs⟩) hr
  exact ⟨hI.1.1, hI.1.2, hI.2.2⟩

end

/-- **The server is a map when every key has one writer.** For any number of clients and any order of
their requests, each atomic, every `GET` returns the value of the last acknowledged write of its key,
or nothing if there is none; and once all clients have closed, the index is empty and the database
holds exactly the last value of every key. -/
theorem oneWriter_refines_map (owner : Bytes → Nat) {mem file : Buf} {tr : List Event} {s : State}
    (hr : Run (OneWriter owner) mem file (fun _ => none) tr s) :
    (∀ (n c : Nat) (key : Bytes) (v : Option Bytes), tr[n]? = some (.got c key v) →
      v = (lastWrite key (hist (tr.take n)).acked).map (·.2.val)) ∧
    ((∀ k ∈ s.conns, k.pc = .done) → ∀ key, s.server.map key = none ∧
      s.server.db key = (lastWrite key (hist tr).acked).map (·.2.val)) := by
  refine ⟨fun n c key v he => ?_, fun hdone key => ?_⟩
  · obtain ⟨s₁, l, s₂, hr₁, hg, hstep⟩ := Steps.of_event step_events hr he
    obtain ⟨hd, hi, hv⟩ := view_run hr₁
    obtain ⟨c', a, k, k', sv', rfl, hk, hm⟩ := move_of_event hstep (List.mem_singleton.2 rfl)
      (by simp)
    obtain ⟨rfl, hc, hp, rfl⟩ := hm.of_got (List.mem_singleton.2 rfl)
    rw [← hv.acked_lookup hd hi hg.1.2 hk (by simp [Conn.answered?, hc])]
    have hph := hv.get c k key hk hc
    simp only [GetPhase, hp] at hph
    exact hph.value fun v => hv.lookup_length hd hi
  · obtain ⟨hd, hi, hv⟩ := view_run hr
    have hmap : s.server.map key = none := by
      by_contra hne
      obtain ⟨m, hm⟩ := Option.ne_none_iff_exists'.1 hne
      obtain ⟨c, k, i, r, hs, ts, he⟩ := hi key m hm
      have hh := he.holds
      rw [Conn.holds, hdone k (List.mem_of_getElem? he.conn)] at hh
      cases hh
    refine ⟨hmap, ?_⟩
    rw [hv.missed key hmap]
    rcases hv.order with ⟨c, k, r, hk, hr', -⟩ | ⟨-, ho⟩
    · have hp := hdone k (List.mem_of_getElem? hk)
      simp [Conn.answered?, hp] at hr'
    · rw [ho]

/-- Two clients; one reads the other's key, also while the other is in a `SendWrite` whose `PUT` is
not yet posted, and both close. -/
theorem oneWriter_refines_map_two :
    ∃ tr s, Run (OneWriter fun _ => 0) Sched.zeros Sched.zeros (fun _ => none) tr s ∧
      tr[6]? = some (.got 1 [1] (some [10])) ∧
      some [10] = (lastWrite [1] (hist (tr.take 6)).acked).map (·.2.val) ∧
      tr[11]? = some (.got 1 [1] (some [11])) ∧
      some [11] = (lastWrite [1] (hist (tr.take 11)).acked).map (·.2.val) ∧
      s.server.map [1] = none ∧ s.server.db [1] = some [11] := by
  have hr : Run (OneWriter fun _ => 0) Sched.zeros Sched.zeros (fun _ => none) _ _ :=
    Steps.of_exec_get ((Sched.connect 0 0).take 5 ++ Sched.connect 1 1 ++ Sched.client 0 ::
      Sched.write 0 ⟨.put, [1], [10]⟩ ++ .conn 0 (.call (.write ⟨.update, [1], [11]⟩)) ::
      Sched.get 1 [1] ++ Sched.client 0 :: Sched.clerk 0 3 ++ Sched.client 0 :: Sched.get 1 [1] ++
      Sched.close 0 2 ++ (Sched.close 1 0).take 2) (by decide +kernel)
  obtain ⟨hget, hend⟩ := oneWriter_refines_map _ hr
  have hgot₁ := hget 6 1 [1] (some [10]) rfl
  have hgot₂ := hget 11 1 [1] (some [11]) rfl
  obtain ⟨hmap, hdb⟩ := hend (fun k hk => by
    rcases List.mem_pair.1 hk with rfl | rfl <;> rfl) [1]
  exact ⟨_, _, hr, rfl, hgot₁, rfl, hgot₂, hmap, hdb⟩

end PMRAccess.Pmr
