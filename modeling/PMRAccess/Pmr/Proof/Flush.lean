import PMRAccess.Pmr.Proof.Index

/-!
# Flushes and lookups

A flush puts the clerk's batch into the database and erases its keys from the index, whoever wrote
them last: a lookup is the same before and after if every key of the batch was last written by the
clerk itself. This is so in the runs in which a client writes only keys that no other client has
unflushed records of (`Apart`): there the batches of the clerks are disjoint, and every key of a
batch is in the index until the flush loop erases it (`Cover`). Otherwise the flush brings back an
older value, or hides a newer one (`flush_stale_value`).
-/

namespace PMRAccess.Pmr

open Lib

/-! ## The steps of a flush -/

/-- An index without the keys. -/
def eraseAll {α : Type*} (f : Bytes → Option α) (keys : List Bytes) : Bytes → Option α :=
  keys.foldl (fun f key => assign f key none) f

theorem eraseAll_apply {α : Type*} (f : Bytes → Option α) (keys : List Bytes) (key : Bytes) :
    eraseAll f keys key = if key ∈ keys then none else f key := by
  induction keys generalizing f with
  | nil => simp [eraseAll]
  | cons x keys ih =>
    have hcons : eraseAll f (x :: keys) = eraseAll (assign f x none) keys := rfl
    rw [hcons, ih]
    by_cases hx : key = x
    · subst hx; simp [assign_self]
    · simp [assign_of_ne hx, hx]

section
variable {s : State} {c : Nat} {k : Conn}

/-- The rest of the flush loop, from its `j`-th key on. -/
theorem exec_erase {conns : List Conn} (hk : conns[c]? = some k) (closing : Bool) (tmp : Buf)
    (n : Nat) : ∀ (j : Nat) (sv : Server), sv.aborted = false → j + n = k.clerk.keyBatch.length →
      exec step Any ⟨sv, conns.set c { k with pc := .erase closing tmp j }⟩ (Sched.clerk c n) =
        some (⟨{ sv with map := eraseAll sv.map (k.clerk.keyBatch.drop j) },
          conns.set c { k with pc := .erase closing tmp (j + n) }⟩, []) := by
  have hlt := (List.getElem?_eq_some_iff.1 hk).1
  induction n with
  | zero =>
    intro j sv ha hj
    rw [List.drop_of_length_le (by omega)]
    rfl
  | succ n ih =>
    intro j sv ha hj
    have hjlt : j < k.clerk.keyBatch.length := by omega
    have hstep : step ⟨sv, conns.set c { k with pc := .erase closing tmp j }⟩
        (.conn c (.clerk false)) = some (⟨{ sv with
          map := assign sv.map k.clerk.keyBatch[j] none },
          conns.set c { k with pc := .erase closing tmp (j + 1) }⟩, []) := by
      simp [step, ha, hlt, connStep, clerkStep, List.getElem?_eq_getElem hjlt]
    have hrest := ih (j + 1) { sv with map := assign sv.map k.clerk.keyBatch[j] none } ha (by omega)
    rw [List.drop_eq_getElem_cons hjlt, show j + (n + 1) = j + 1 + n by omega]
    exact exec_cons trivial hstep hrest

/-- **The flush**, run without other threads in between. -/
theorem exec_flush {closing : Bool} {tmp : Buf} (hk : s.conns[c]? = some k)
    (hp : k.pc = .putBatch closing tmp) (ha : s.server.aborted = false) :
    exec step Any s (Sched.clerk c (k.clerk.keyBatch.length + 1)) =
      some (⟨{ s.server with
        db := s.server.db.putBatch k.clerk.keyBatch k.clerk.metas tmp
        map := eraseAll s.server.map k.clerk.keyBatch },
        s.conns.set c { k with pc := .erase closing tmp k.clerk.keyBatch.length }⟩, []) := by
  have hstep : step s (.conn c (.clerk false)) = some (⟨{ s.server with
      db := s.server.db.putBatch k.clerk.keyBatch k.clerk.metas tmp },
      s.conns.set c { k with pc := .erase closing tmp 0 }⟩, []) := by
    simp [step, ha, hk, connStep, clerkStep, hp]
  have hrest := exec_erase hk closing tmp k.clerk.keyBatch.length 0 { s.server with
    db := s.server.db.putBatch k.clerk.keyBatch k.clerk.metas tmp } ha (Nat.zero_add _)
  rw [Nat.zero_add] at hrest
  exact exec_cons trivial hstep hrest

end

/-! ## Keys of one client at a time -/

/-- The key of the record a client is writing. -/
def Ctl.writing? : Ctl → Option Bytes
  | .alloc (some r) | .post r | .write r => some r.key
  | _ => none

/-- The connection has an unflushed record of the key, or is writing one. -/
def Conn.Pending (k : Conn) (key : Bytes) : Prop :=
  key ∈ k.clerk.keyBatch ∨ k.ctl.writing? = some key

instance (k : Conn) (key : Bytes) : Decidable (k.Pending key) :=
  inferInstanceAs (Decidable (key ∈ k.clerk.keyBatch ∨ k.ctl.writing? = some key))

/-- The record a label starts to write, with its client. -/
def Label.write? : Label → Option (Nat × Record)
  | .conn c (.call (.write r)) => some (c, r)
  | _ => none

/-- Requests fit, and clients write only keys that are pending in no other connection. -/
def Apart (s : State) (l : Label) : Prop :=
  l.Fits ∧ ∀ w ∈ l.write?, ∀ d < s.conns.length, d ≠ w.1 → ∀ k ∈ s.conns[d]?, ¬ k.Pending w.2.key

instance (s : State) (l : Label) : Decidable (Apart s l) :=
  inferInstanceAs (Decidable (l.Fits ∧ ∀ w ∈ l.write?, ∀ d < s.conns.length, d ≠ w.1 →
    ∀ k ∈ s.conns[d]?, ¬ k.Pending w.2.key))

/-- Requests fit and are atomic. -/
def Atomic (s : State) (l : Label) : Prop := l.Fits ∧ Alone s l

instance (s : State) (l : Label) : Decidable (Atomic s l) :=
  inferInstanceAs (Decidable (l.Fits ∧ Alone s l))

section
variable {h : History} {s : State} {sv sv' : Server} {c : Nat} {k k' : Conn} {a : Act}
  {es : List Event}

/-- A key becomes pending only with the call that writes it. -/
theorem Move.pending {rs hs : List Record} (hs : Sync rs hs k) (hm : Move sv c k a sv' k' es)
    {key : Bytes} (hp : k'.Pending key) :
    k.Pending key ∨ ∃ r, a = .call (.write r) ∧ r.key = key := by
  cases hm
  case callPost r _ _ _ | callFull r _ _ _ =>
    rcases hp with hp | hp
    · exact .inl (.inl hp)
    · exact .inr ⟨r, rfl, Option.some.inj hp⟩
  case readPut hpc ho =>
    have hph := hs.phase.of_read hpc
    rw [hph.op_eq] at ho
    obtain ⟨r, hc⟩ : ∃ r, k.ctl = .write r := ho.elim Ctl.of_op Ctl.of_op
    simp only [ReadPhase, hc] at hph
    obtain ⟨hr, -, -, hask⟩ := hph
    have hkey := hask.key (hs.fits r (by simp [hr])).bounds.1
    rcases hp with hp | hp
    · simp only [Clerk.emplace, List.mem_append, List.mem_singleton, hkey] at hp
      rcases hp with hp | rfl
      · exact .inl (.inl hp)
      · exact .inl (.inr (by rw [hc]; rfl))
    · exact .inl (.inr hp)
  case callGet | callDelete | callAlloc | callClose | allocEnd | ack | got | deleted =>
    rcases hp with hp | hp
    · exact .inl (.inl hp)
    · cases hp
  case post r hc _ | allocNext r hc _ =>
    rcases hp with hp | hp
    · exact .inl (.inl hp)
    · exact .inl (.inr (by rw [hc]; exact hp))
  case readCloseEmpty | enqueue =>
    rcases hp with hp | hp
    · cases hp
    · exact .inl (.inr hp)
  all_goals exact .inl hp

/-- A key is pending in one connection at most, and every indexed key is in the index until the
flush loop comes to it. -/
structure Cover (h : History) (s : State) : Prop where
  apart : ∀ (c d : Nat) (k k' : Conn) (key : Bytes), s.conns[c]? = some k → s.conns[d]? = some k' →
    k.Pending key → k'.Pending key → c = d
  index : ∀ (c : Nat) (k : Conn) (key : Bytes), s.conns[c]? = some k →
    key ∈ (h.indexed c).map Record.key →
    (∀ closing tmp j, k.pc = .erase closing tmp j → key ∉ k.clerk.keyBatch.take j) →
    s.server.map key ≠ none

theorem cover_apart (hc : Cover h s) (hd : Data h s) (hg : Apart s (.conn c a))
    (hk : s.conns[c]? = some k) (hm : Move s.server c k a sv' k' es) {d e : Nat} {kd ke : Conn}
    {key : Bytes} (hkd : (s.conns.set c k')[d]? = some kd) (hke : (s.conns.set c k')[e]? = some ke)
    (hpd : kd.Pending key) (hpe : ke.Pending key) : d = e := by
  -- a key that `c` has or now writes is pending in no other connection
  have hone : ∀ (f : Nat) (kf : Conn), f ≠ c → s.conns[f]? = some kf → kf.Pending key →
      k'.Pending key → False := by
    intro f kf hf hkf hpf hp'
    rcases hm.pending (hd.sync c k hk) hp' with hp | ⟨r, rfl, rfl⟩
    · exact hf (hc.apart f c kf k key hkf hk hpf hp)
    · exact hg.2 (c, r) rfl f (List.getElem?_eq_some_iff.1 hkf).1 hf kf hkf hpf
  rcases conns_set_cases hk hkd with ⟨hdc, rfl⟩ | ⟨hdc, hkd⟩ <;>
    rcases conns_set_cases hk hke with ⟨hec, rfl⟩ | ⟨hec, hke⟩
  · rw [hdc, hec]
  · exact (hone e ke hec hke hpe hpd).elim
  · exact (hone d kd hdc hkd hpd hpe).elim
  · exact hc.apart d e kd ke key hkd hke hpd hpe

theorem cover_index (hc : Cover h s) (hd : Data h s) (hk : s.conns[c]? = some k)
    (hm : Move s.server c k a sv' k' es) {d : Nat} {kd : Conn} {key : Bytes}
    (hkd : (s.conns.set c k')[d]? = some kd)
    (hx : key ∈ ((h.addAll es).indexed d).map Record.key)
    (hp : ∀ closing tmp j, kd.pc = .erase closing tmp j → key ∉ kd.clerk.keyBatch.take j) :
    sv'.map key ≠ none := by
  rcases move_index (h := h) hm with ⟨hmap, -, hsame, -⟩ | ⟨key₀, m₀, hpc, hmap, hes, -⟩ |
    ⟨closing, tmp, j, key₀, hpc, hj, hmap, hes, hk'⟩
  · rw [hmap]
    rcases conns_set_cases hk hkd with ⟨rfl, -⟩ | ⟨hdc, hkd⟩
    · rcases hm.flushed_or with hf | ⟨it, hf⟩
      · rw [(hsame hf).1] at hx
        exact hc.index d k key hk hx fun closing tmp j h' => absurd h' ((hsame hf).2 closing tmp j)
      · -- behind the flush nothing is indexed
        rw [hf] at hx
        simp [History.add] at hx
    · rw [(move_hist_other (h := h) hm hdc).2.1] at hx
      exact hc.index d kd key hkd hx hp
  · rw [hmap]
    by_cases hkey : key = key₀
    · rw [hkey, assign_self]
      simp
    rw [assign_of_ne hkey]
    rcases conns_set_cases hk hkd with ⟨rfl, -⟩ | ⟨hdc, hkd⟩
    · obtain ⟨r₀, hins, hev⟩ := (hd.sync d k hk).of_insert hpc
      have hx' : key ∈ (h.indexed d).map Record.key := by
        simp only [hes, hev, History.addAll_single, History.add, Function.update_self,
          List.map_append, List.map_cons, List.map_nil, List.mem_append, List.mem_singleton] at hx
        rcases hx with hx | hx
        · exact hx
        · exact absurd (hx.trans hins.key_eq.symm) hkey
      exact hc.index d k key hk hx' (by simp [hpc])
    · rw [(move_hist_other (h := h) hm hdc).2.1] at hx
      exact hc.index d kd key hkd hx hp
  · rw [hmap]
    have hmem : key₀ ∈ k.clerk.keyBatch := List.mem_of_getElem? hj
    rcases conns_set_cases hk hkd with ⟨rfl, rfl⟩ | ⟨hdc, hkd⟩
    · have hp' := hp closing tmp (j + 1) (by rw [hk'])
      rw [hk', List.take_add_one, hj] at hp'
      simp only [Option.toList_some, List.mem_append, List.mem_singleton, not_or] at hp'
      rw [assign_of_ne hp'.2]
      refine hc.index d k key hk (by rw [hes] at hx; exact hx) ?_
      intro closing' tmp' j' h'
      rw [hpc] at h'
      obtain ⟨-, -, rfl⟩ := Pc.erase.inj h'
      exact hp'.1
    · rw [(move_hist_other (h := h) hm hdc).2.1] at hx
      have hne : key ≠ key₀ := by
        rintro rfl
        exact hdc (hc.apart d c kd k key hkd hk (.inl ((hd.sync d kd hkd).mem_keyBatch hx))
          (.inl hmem))
      rw [assign_of_ne hne]
      exact hc.index d kd key hkd hx hp

theorem cover_step {s' : State} {l : Label} (hd : Data h s) (hc : Cover h s) (hg : Apart s l)
    (hs : step s l = some (s', es)) : Cover (h.addAll es) s' := by
  cases step_cases hs with
  | connect hl =>
    have hnew : ∀ localBuf sendBuf key, ¬ (Conn.new localBuf sendBuf).Pending key := by
      intro localBuf sendBuf key hp
      rcases hp with hp | hp <;> cases hp
    refine ⟨fun c d k k' key hk hk' hp hp' => ?_, fun c k key hk hx hp => ?_⟩
    · rcases conns_append hk with hk | ⟨-, rfl⟩
      · rcases conns_append hk' with hk' | ⟨-, rfl⟩
        · exact hc.apart c d k k' key hk hk' hp hp'
        · exact absurd hp' (hnew _ _ key)
      · exact absurd hp (hnew _ _ key)
    · rcases conns_append hk with hk | ⟨rfl, rfl⟩
      · exact hc.index c k key hk hx hp
      · rw [History.addAll_nil, (hd.fresh s.conns.length (Nat.le_refl _)).2.1] at hx
        cases hx
  | conn hl hk hm =>
    subst hl
    exact ⟨fun _ _ _ _ _ hkd hke => cover_apart hc hd hg hk hm hkd hke,
      fun _ _ _ hkd => cover_index hc hd hk hm hkd⟩
  | ring hr ht =>
    obtain ⟨ws, hw⟩ := turn_hist (h := h) ht
    rw [hw]
    refine ⟨hc.apart, fun c k key hk hx hp => ?_⟩
    show (Server.map _) key ≠ none
    rw [(turn_mem ht).2.1]
    exact hc.index c k key hk hx hp

theorem cover_run {mem file : Buf} {db : Store} {tr : List Event} (hr : Run Apart mem file db tr s) :
    Data (hist tr) s ∧ Index (hist tr) s ∧ Cover (hist tr) s :=
  Run.invariant (I := fun h s => Data h s ∧ Index h s ∧ Cover h s)
    ⟨data_init mem file db, fun _ _ hm => by simp [init] at hm, by simp [init], by simp [init]⟩
    (fun h hp hs => ⟨data_step h.1 hp.1 hs, index_step h.1 h.2.1 hs, cover_step h.1 h.2.2 hp hs⟩) hr

end

/-! ## Transparency -/

section
variable {h : History} {s : State} {c : Nat} {k : Conn}

/-- An entry's lookup: the value of its record. -/
theorem Entry.lookup {key : Bytes} {m : Meta} {i : Nat} {r : Record} {hs ts : List Record}
    (he : Entry h s key m c k i r hs ts) (hd : Data h s) (hm : s.server.map key = some m) :
    s.server.lookup key = some r.val := by
  simp only [Server.lookup, hm]
  rw [(he.bytes hd).2.2.2.2.2]

/-- The batch of a flush describes the whole chunk, and the copy of the chunk holds it. -/
theorem Data.of_putBatch (hd : Data h s) (hk : s.conns[c]? = some k) {closing : Bool} {tmp : Buf}
    (hp : k.pc = .putBatch closing tmp) :
    h.indexed c = h.chunk c ∧ Batch k.clerk (h.chunk c) ∧
      tmp.read 0 (recordSize (h.chunk c)) = recordBytes (h.chunk c) := by
  have hph := (hd.sync c k hk).phase
  have htmp := hd.tmp c k hk
  simp only [Phase, hp] at hph
  simp only [TmpOk, hp] at htmp
  exact ⟨hph.1, hph.2.1, htmp⟩

/-- The database behind the `PutBatch` of a chunk. -/
theorem Data.putBatch (hd : Data h s) (hk : s.conns[c]? = some k) {closing : Bool} {tmp : Buf}
    (hp : k.pc = .putBatch closing tmp) (db : Store) :
    h.indexed c = h.chunk c ∧ k.clerk.keyBatch = (h.chunk c).map Record.key ∧
      db.putBatch k.clerk.keyBatch k.clerk.metas tmp = db.putAll (h.chunk c) := by
  obtain ⟨hall, hb, htmp⟩ := hd.of_putBatch hk hp
  have hsync := hd.sync c k hk
  have hbound := hsync.bound
  refine ⟨hall, hb.keys, ?_⟩
  rw [hb.keys, hb.metas]
  refine putBatch_records (fun r hr => (hsync.fits r hr).bounds.2.1) ?_ htmp db
  simp only [maxAsyncSize] at hbound
  omega

/-- The entry of a key of a batch is the clerk's own. -/
theorem Cover.entry_own (hc : Cover h s) (hd : Data h s) (hi : Index h s)
    (hk : s.conns[c]? = some k) {key : Bytes} {m : Meta} (hkey : key ∈ k.clerk.keyBatch)
    (hm : s.server.map key = some m) : ∃ i r hs ts, Entry h s key m c k i r hs ts := by
  obtain ⟨d, kd, i, r, hs, ts, he⟩ := hi key m hm
  have hkd : kd.Pending key := .inl ((hd.sync d kd he.conn).mem_keyBatch
    (by rw [he.indexed]; simp [he.key_eq]))
  have hdc := hc.apart d c kd k key he.conn hk hkd (.inl hkey)
  subst hdc
  obtain rfl := Option.some.inj (he.conn.symm.trans hk)
  exact ⟨i, r, hs, ts, he⟩

/-- Before the flush every key of the batch has its entry. -/
theorem Cover.own_entry (hc : Cover h s) (hd : Data h s) (hi : Index h s)
    (hk : s.conns[c]? = some k) {closing : Bool} {tmp : Buf} (hp : k.pc = .putBatch closing tmp)
    {key : Bytes} (hkey : key ∈ (h.chunk c).map Record.key) :
    ∃ m i r hs ts, s.server.map key = some m ∧ Entry h s key m c k i r hs ts := by
  obtain ⟨hall, hkeys, -⟩ := hd.putBatch hk hp s.server.db
  have hmap := hc.index c k key hk (hall ▸ hkey) (by simp [hp])
  obtain ⟨m, hm⟩ := Option.ne_none_iff_exists'.1 hmap
  obtain ⟨i, r, hs, ts, he⟩ := hc.entry_own hd hi hk (hkeys ▸ hkey) hm
  exact ⟨m, i, r, hs, ts, hm, he⟩

/-- What a `GET` finds before the flush: for the keys of the batch what the `PutBatch` is going to
put, for the others what the database holds if it is not in the index. -/
theorem Cover.lookup_batch (hc : Cover h s) (hd : Data h s) (hi : Index h s)
    (hk : s.conns[c]? = some k) {closing : Bool} {tmp : Buf} (hp : k.pc = .putBatch closing tmp)
    (db : Store) (key : Bytes) :
    (key ∈ k.clerk.keyBatch →
      s.server.lookup key = db.putBatch k.clerk.keyBatch k.clerk.metas tmp key) ∧
    (key ∉ k.clerk.keyBatch → db.putBatch k.clerk.keyBatch k.clerk.metas tmp key = db key) := by
  obtain ⟨hall, hkeys, hput⟩ := hd.putBatch hk hp db
  rw [hput, hkeys]
  refine ⟨fun hkey => ?_, fun hkey => putAll_of_notMem hkey db⟩
  obtain ⟨m, i, r, hs, ts, hm, he⟩ := hc.own_entry hd hi hk hp hkey
  have hchunk : h.chunk c = hs ++ r :: ts := hall ▸ he.indexed
  rw [he.lookup hd hm, hchunk]
  have hke := he.key_eq
  subst hke
  exact (putAll_last he.newest _).symm

end

/-- **A flush is transparent** in the runs in which clients write only keys that are pending in no
other connection: whenever a clerk is about to execute the flush of an `ALLOC` or `CLOSE`, the
`PutBatch` and the erasures run to their end, and what a `GET` of any key finds is the same before
and after. -/
theorem flush_transparent {mem file : Buf} {db : Store} {tr : List Event} {s : State}
    (hr : Run Apart mem file db tr s) (ha : s.server.aborted = false) {c : Nat} {k : Conn}
    {closing : Bool} {tmp : Buf} (hk : s.conns[c]? = some k) (hp : k.pc = .putBatch closing tmp) :
    ∃ s', exec step Any s (Sched.clerk c (k.clerk.keyBatch.length + 1)) = some (s', []) ∧
      s'.conns[c]? = some { k with pc := .erase closing tmp k.clerk.keyBatch.length } ∧
      ∀ key, s'.server.lookup key = s.server.lookup key := by
  obtain ⟨hd, hi, hc⟩ := cover_run hr
  refine ⟨_, exec_flush hk hp ha, conns_set_self hk, fun key => ?_⟩
  obtain ⟨hmem, hother⟩ := hc.lookup_batch hd hi hk hp s.server.db key
  by_cases hkey : key ∈ k.clerk.keyBatch
  · -- before: the entry, which is the clerk's own; after: the database
    rw [hmem hkey]
    simp only [Server.lookup, eraseAll_apply, if_pos hkey]
  · simp only [Server.lookup, eraseAll_apply, if_neg hkey, hother hkey]

/-- Two clients with one key each; the first closes. -/
theorem flush_transparent_close :
    ∃ tr s s' k, Run Apart Sched.zeros Sched.zeros (fun _ => none) tr s ∧ s.conns[0]? = some k ∧
      exec step Any s (Sched.clerk 0 (k.clerk.keyBatch.length + 1)) = some (s', []) ∧
      s.server.lookup [1] = some [10] ∧ s'.server.lookup [1] = some [10] := by
  have hr : Run Apart Sched.zeros Sched.zeros (fun _ => none) _ _ :=
    Steps.of_exec_get (Sched.connect 0 0 ++ Sched.connect 1 1 ++ Sched.write 0 ⟨.put, [1], [10]⟩ ++
      Sched.write 1 ⟨.put, [2], [20]⟩ ++ (Sched.close 0 1).take 2) (by decide)
  obtain ⟨s', he, -, hl⟩ := flush_transparent hr rfl (c := 0) rfl rfl
  exact ⟨_, _, s', _, hr, rfl, he, by decide, (hl [1]).trans (by decide)⟩

/-- Two clients write one key; the flush of the first one's older record hides the second one's. -/
theorem flush_stale_value :
    ¬ ∀ (mem file : Buf) (db : Store) (tr : List Event) (s : State), Run Atomic mem file db tr s →
      s.server.aborted = false → ∀ (c : Nat) (k : Conn) (closing : Bool) (tmp : Buf),
      s.conns[c]? = some k → k.pc = .putBatch closing tmp →
      ∃ s', exec step Any s (Sched.clerk c (k.clerk.keyBatch.length + 1)) = some (s', []) ∧
        s'.conns[c]? = some { k with pc := .erase closing tmp k.clerk.keyBatch.length } ∧
        ∀ key, s'.server.lookup key = s.server.lookup key := by
  intro h
  have hr : Run Atomic Sched.zeros Sched.zeros (fun _ => none) _ _ :=
    Steps.of_exec_get (Sched.connect 0 0 ++ Sched.connect 1 1 ++ Sched.write 0 ⟨.put, [1], [10]⟩ ++
      Sched.write 1 ⟨.put, [1], [20]⟩ ++ (Sched.close 0 1).take 2) (by decide)
  obtain ⟨s', he, -, hl⟩ := h _ _ _ _ _ hr rfl 0 _ _ _ rfl rfl
  have hl' := hl [1]
  cases he
  exact absurd hl' (by decide)

end PMRAccess.Pmr
