import PMRAccess.Atomic
import PMRAccess.Pmr.Proof.Refine
import PMRAccess.Pmr.Proof.Replies

/-!
# The PMR front end is linearizable

In the runs of `Tidy` clerks, clients, the uring thread and the kernel take their steps in any
order, also inside of requests. A write takes effect when its record is indexed (`mapOf`). A `GET`
that finds an entry takes effect there. One that does not asks the database later, when the record
of a newer write may have been flushed and overtaken in the index by a newer one still: what it then
reads, the key has held at some time since the `GET` was called, but which time that was is not known
before (`Lib.Loose`). `Linked` says where the calls are. `pmr_linearizable`: what clients see of a
run, they may see of the atomic map.
-/

namespace PMRAccess.Pmr

open Lib

/-! ## What clients see -/

def Call.mapOp? : Call → Option MapOp
  | .write r => some (.put r.key r.val)
  | .get key => some (.get key)
  | .delete key => some (.delete key)
  | .alloc | .close => none

def Event.ret? : Event → Option (Seen Nat MapOp MapRes)
  | .acked c r => some (.ret c (.put r.key r.val) .stored)
  | .got c key val => some (.ret c (.get key) (.got val))
  | .deleted c key ok => some (.ret c (.delete key) (.deleted ok))
  | _ => none

def Label.seen : Label → List (Seen Nat MapOp MapRes)
  | .conn c (.call x) => (x.mapOp?.map (.call c)).toList
  | _ => []

/-- The call that a step starts, the calls that return. -/
def seen (l : Label) (es : List Event) : List (Seen Nat MapOp MapRes) :=
  l.seen ++ es.filterMap Event.ret?

/-! ## The runs -/

def Call.deletes : Call → Bool
  | .delete _ => true
  | _ => false

/-- Requests fit, clients write only keys that are pending in no other connection, no record is
posted over bytes that a `GET` is about to copy, and there is no `DELETE`. -/
def Tidy (s : State) (l : Label) : Prop :=
  Apart s l ∧ NoOverwrite s l ∧ ∀ p ∈ l.call?, p.2.deletes = false

instance (s : State) (l : Label) : Decidable (Tidy s l) :=
  inferInstanceAs (Decidable (Apart s l ∧ NoOverwrite s l ∧ ∀ p ∈ l.call?, p.2.deletes = false))

/-- The database at start with the writes that are indexed, in their order. -/
def mapOf (db : Store) (h : History) : Store := fun key =>
  match lastWrite key h.handled with
  | some p => some p.2.val
  | none => db key

theorem mapOf_handled (db : Store) (h : History) (c : Nat) (r : Record) :
    mapOf db (h.add (.handled c r)) = (mapOf db h).put r.key r.val := by
  funext key
  simp only [mapOf, History.add, lastWrite_snoc, Store.put]
  by_cases hk : r.key = key
  · subst hk
    simp [assign_self]
  · rw [if_neg hk, assign_of_ne (Ne.symm hk)]
    rfl

/-- What is not in the index is in the database; the keys of a flush are until it erases them. -/
structure Current (db : Store) (h : History) (s : State) : Prop where
  nodel : ∀ (c : Nat) (k : Conn) (key : Bytes), s.conns[c]? = some k → k.ctl ≠ .delete key
  batched : ∀ (c : Nat) (k : Conn) (closing : Bool) (tmp : Buf) (j : Nat), s.conns[c]? = some k →
    k.pc = .erase closing tmp j → ∀ hs r ts, h.chunk c = hs ++ r :: ts →
    r.key ∉ ts.map Record.key → s.server.db r.key = some r.val
  missed : ∀ key, s.server.map key = none → s.server.db key = mapOf db h key

section
variable {db : Store} {h : History} {s s' : State} {c d : Nat} {k k' kd : Conn} {a : Act}
  {sv' : Server} {es : List Event} {key : Bytes}

/-- What a lookup finds is what the key holds. -/
theorem Current.lookup (hu : Current db h s) (hd : Data h s) (hi : Index h s) (key : Bytes) :
    s.server.lookup key = mapOf db h key := by
  cases hm : s.server.map key with
  | none =>
    simp only [Server.lookup, hm]
    exact hu.missed key hm
  | some m =>
    obtain ⟨c, k, i, r, hs, ts, he⟩ := hi key m hm
    rw [he.lookup hd hm, mapOf, he.last]

/-- The value of the key in a record that is indexed and not yet put into the database. -/
def Unstored (h : History) (s : State) (key v : Bytes) : Prop :=
  ∃ (c : Nat) (k : Conn) (r : Record), s.conns[c]? = some k ∧
    (∀ closing tmp j, k.pc ≠ .erase closing tmp j) ∧ r ∈ h.indexed c ∧ r.key = key ∧ r.val = v

/-- The database entry of a key changes to what was not yet stored. -/
theorem db_move (hu : Current db h s) (hd : Data h s) (hi : Index h s) (hc : Cover h s)
    (hk : s.conns[c]? = some k) (hm : Move s.server c k a sv' k' es) (key : Bytes) :
    sv'.db key = s.server.db key ∨
      ∃ closing tmp m v, k.pc = .putBatch closing tmp ∧ s.server.map key = some m ∧
        key ∈ k.clerk.keyBatch ∧ Unstored h s key v ∧ sv'.db key = some v := by
  rcases move_db hm with hdb | ⟨key', hp, -, -⟩ | ⟨closing, tmp, hp, hdb, -, -⟩
  · exact .inl (by rw [hdb])
  · have hph := (hd.sync c k hk).phase
    simp only [Phase, hp] at hph
    exact absurd hph.1 (hu.nodel c k key' hk)
  · obtain ⟨hmem, hother⟩ := hc.lookup_batch hd hi hk hp s.server.db key
    rw [hdb]
    by_cases hkey : key ∈ k.clerk.keyBatch
    · obtain ⟨-, hkeys, -⟩ := hd.putBatch hk hp s.server.db
      obtain ⟨m, i, r, hs, ts, hmap, he⟩ := hc.own_entry hd hi hk hp (hkeys ▸ hkey)
      refine .inr ⟨closing, tmp, m, r.val, hp, hmap, hkey,
        ⟨c, k, r, hk, by simp [hp], by simp [he.indexed], he.key_eq, rfl⟩, ?_⟩
      rw [← hmem hkey, he.lookup hd hmap]
    · exact .inl (hother hkey)

theorem current_missed (hu : Current db h s) (hd : Data h s) (hi : Index h s) (hc : Cover h s)
    (hk : s.conns[c]? = some k) (hm : Move s.server c k a sv' k' es) (hmap : sv'.map key = none) :
    sv'.db key = mapOf db (h.addAll es) key := by
  -- a key that is not in the index stays in the database as it is
  have hstay : s.server.map key = none → sv'.db key = s.server.db key := by
    intro hnone
    rcases db_move hu hd hi hc hk hm key with h | ⟨_, _, m, _, -, h, -⟩
    · exact h
    · rw [hnone] at h
      cases h
  rcases move_index (h := h) hm with ⟨hsame, hh, -, -⟩ | ⟨key₀, m₀, hp, hins, hes, -⟩ |
    ⟨closing, tmp, j, key₀, hp, hj, hera, hes, -⟩
  · rw [hsame] at hmap
    rw [hstay hmap, mapOf, hh]
    exact hu.missed key hmap
  · rw [hins] at hmap
    have hne : key ≠ key₀ := by
      rintro rfl
      rw [assign_self] at hmap
      cases hmap
    rw [assign_of_ne hne] at hmap
    obtain ⟨r₀, hr₀, hev⟩ := (hd.sync c k hk).of_insert hp
    rw [hstay hmap, hes, hev, History.addAll_single, mapOf_handled, Store.put,
      assign_of_ne (hr₀.key_eq ▸ hne)]
    exact hu.missed key hmap
  · rw [hes, History.addAll_nil]
    have hdb : sv'.db = s.server.db := by
      rcases move_db hm with hdb | ⟨_, hp', -⟩ | ⟨_, _, hp', -⟩
      · exact hdb
      iterate 2 simp [hp] at hp'
    rw [hdb]
    cases hold : s.server.map key with
    | none => exact hu.missed key hold
    | some m =>
      -- the key just erased: the database has the clerk's last record of it
      rw [hera] at hmap
      obtain rfl : key = key₀ := by
        by_contra hne
        rw [assign_of_ne hne, hold] at hmap
        cases hmap
      obtain ⟨i, r, hs, ts, he⟩ := hc.entry_own hd hi hk (List.mem_of_getElem? hj) hold
      have hchunk : h.chunk c = hs ++ r :: ts := ((hd.sync c k hk).of_erase hp).1 ▸ he.indexed
      rw [mapOf, he.last]
      have hke := he.key_eq
      subst hke
      exact hu.batched c k closing tmp j hk hp hs r ts hchunk he.newest

theorem current_batched (hu : Current db h s) (hd : Data h s) (hi : Index h s) (hc : Cover h s)
    (hk : s.conns[c]? = some k) (hm : Move s.server c k a sv' k' es) {j : Nat} {closing : Bool}
    {tmp : Buf} (hkd : (s.conns.set c k')[d]? = some kd) (hp : kd.pc = .erase closing tmp j)
    {hs : List Record} {r : Record} {ts : List Record}
    (hch : (h.addAll es).chunk d = hs ++ r :: ts) (hnew : r.key ∉ ts.map Record.key) :
    sv'.db r.key = some r.val := by
  rcases conns_set_cases hk hkd with ⟨rfl, rfl⟩ | ⟨hdc, hkd⟩
  · obtain ⟨rfl, ⟨hp', hdb⟩ | ⟨i, hp', hdb⟩⟩ := hm.of_erase hp
    · rw [hdb, (hd.putBatch hk hp' _).2.2]
      rw [History.addAll_nil] at hch
      rw [hch]
      exact putAll_last hnew _
    · rw [hdb]
      exact hu.batched d k closing tmp i hk hp' hs r ts hch hnew
  · -- the key is pending in `d`, so it is in no batch of another clerk
    rw [(move_hist_other (h := h) hm hdc).1] at hch
    have hold := hu.batched d kd closing tmp j hkd hp hs r ts hch hnew
    rcases db_move hu hd hi hc hk hm r.key with h' | ⟨_, _, _, _, -, -, hkey, -⟩
    · rw [h', hold]
    · have hmem : r.key ∈ kd.clerk.keyBatch := by
        rw [((hd.sync d kd hkd).of_erase hp).2.1.keys, hch]
        simp
      exact absurd (hc.apart d c kd k r.key hkd hk (.inl hmem) (.inl hkey)) hdc

theorem current_step {l : Label} (hu : Current db h s) (hd : Data h s) (hi : Index h s)
    (hc : Cover h s) (hg : Tidy s l) (hs : step s l = some (s', es)) :
    Current db (h.addAll es) s' := by
  cases step_cases hs with
  | connect hl =>
    refine ⟨fun d kd key hkd hdel => ?_, fun d kd closing tmp j hkd hp => ?_, hu.missed⟩
    · rcases conns_append hkd with hkd | ⟨-, rfl⟩
      · exact hu.nodel d kd key hkd hdel
      · cases hdel
    · rcases conns_append hkd with hkd | ⟨-, rfl⟩
      · exact hu.batched d kd closing tmp j hkd hp
      · cases hp
  | @conn c a k k' _ _ hl hk hm =>
    subst hl
    refine ⟨fun d kd key hkd hdel => ?_, fun d kd closing tmp j hkd hp hs r ts hch hnew =>
      current_batched hu hd hi hc hk hm hkd hp hch hnew, fun key hmap =>
      current_missed hu hd hi hc hk hm hmap⟩
    rcases conns_set_cases hk hkd with ⟨-, rfl⟩ | ⟨-, hkd⟩
    · rcases hm.of_delete hdel with h' | rfl
      · exact hu.nodel c k key hk h'
      · cases hg.2.2 (c, .delete key) rfl
    · exact hu.nodel d kd key hkd hdel
  | ring hr ht =>
    obtain ⟨ws, hw⟩ := turn_hist (h := h) ht
    obtain ⟨-, hmap, hdb⟩ := turn_mem ht
    rw [hw]
    exact ⟨hu.nodel, by rw [hdb]; exact hu.batched, by rw [hmap, hdb]; exact hu.missed⟩

/-- What holds in every run. -/
theorem tidy_run {mem file : Buf} {tr : List Event} (hdb : db.Bounded maxValue)
    (hr : Run Tidy mem file db tr s) :
    (Data (hist tr) s ∧ Index (hist tr) s ∧ Cover (hist tr) s) ∧ Current db (hist tr) s ∧ Small s :=
  Run.invariant (I := fun h s => (Data h s ∧ Index h s ∧ Cover h s) ∧ Current db h s ∧ Small s)
    ⟨⟨data_init mem file db, fun _ _ hm => by simp [init] at hm, by simp [init], by simp [init]⟩,
      ⟨by simp [init], by simp [init], fun _ _ => rfl⟩, hdb, by simp [init], by simp [init]⟩
    (fun h hp hs => ⟨⟨data_step h.1.1 hp.1.1 hs, index_step h.1.1 h.1.2.1 hs,
      cover_step h.1.1 h.1.2.2 hp.1 hs⟩, current_step h.2.1 h.1.1 h.1.2.1 h.1.2.2 hp hs,
      small_step h.1.1 h.2.2 hs⟩) hr

/-! ## Where the calls are -/

/-- How far a `GET` of the key has come. What it may have read from the database is among the results
it has seen, and so is what a flush may still put there before it reads. -/
def GetLinked (h : History) (s : State) (k : Conn) (key : Bytes) (φ : LPhase MapOp MapRes) : Prop :=
  match k.pc with
  | .dbGet _ => ∃ seen, φ = .called (.get key) seen ∧ .got (s.server.db key) ∈ seen ∧
    ∀ v, Unstored h s key v → .got (some v) ∈ seen
  | .copy _ m => φ = .executed (.get key)
    (.got (some (s.server.mem.read (m.memAddr + key.length) m.valueSize)))
  | .reply => ∃ o, φ = .executed (.get key) (.got o) ∧ Replies k.clerk.sendBuf o ∧
    ∀ v, o = some v → v.length < 2 ^ 32
  | .poll => ∃ o, φ = .executed (.get key) (.got o) ∧ Replies k.client.localBuf o ∧
    ∀ v, o = some v → v.length < 2 ^ 32
  | _ => ∃ seen, φ = .called (.get key) seen

/-- The phase of the call of a connection (module doc). -/
def Linked (h : History) (s : State) (k : Conn) (φ : LPhase MapOp MapRes) : Prop :=
  match k.ctl with
  | .idle | .alloc none | .close => φ = .idle
  | .alloc (some r) | .post r => ∃ seen, φ = .called (.put r.key r.val) seen
  | .write r =>
    match k.pc with
    | .reply | .poll => φ = .executed (.put r.key r.val) .stored
    | _ => ∃ seen, φ = .called (.put r.key r.val) seen
  | .get key => GetLinked h s k key φ
  | .delete _ => False

/-- A value waits for the database once its record is indexed. -/
theorem unstored_move (hd : Data h s) (hk : s.conns[c]? = some k)
    (hm : Move s.server c k a sv' k' es) {v : Bytes}
    (hu : Unstored (h.addAll es) ⟨sv', s.conns.set c k'⟩ key v) :
    Unstored h s key v ∨ ∃ r, es = [.handled c r] ∧ r.key = key ∧ r.val = v := by
  obtain ⟨d, kd, r, hkd, hp, hr, rfl, rfl⟩ := hu
  rcases conns_set_cases hk hkd with ⟨rfl, rfl⟩ | ⟨hdc, hkd⟩
  · rcases move_index (h := h) hm with ⟨-, -, hsame, -⟩ | ⟨key₀, m₀, hpc, -, hes, -⟩ |
      ⟨closing, tmp, j, key₀, hpc, -, -, -, hk'⟩
    · rcases hm.flushed_or with hf | ⟨it, rfl⟩
      · obtain ⟨hx, hpc⟩ := hsame hf
        exact .inl ⟨d, k, r, hk, hpc, hx ▸ hr, rfl, rfl⟩
      · -- behind the flush nothing is indexed
        simp [History.add] at hr
    · obtain ⟨r₀, -, hev⟩ := (hd.sync d k hk).of_insert hpc
      rw [hes, hev, History.addAll_single] at hr
      simp only [History.add, Function.update_self, List.mem_append, List.mem_singleton] at hr
      rcases hr with hr | rfl
      · exact .inl ⟨d, k, r, hk, by simp [hpc], hr, rfl, rfl⟩
      · exact .inr ⟨r, hes.trans (hev d), rfl, rfl⟩
    · rw [hk'] at hp
      exact absurd rfl (hp closing tmp (j + 1))
  · rw [(move_hist_other (h := h) hm hdc).2.1] at hr
    exact .inl ⟨d, kd, r, hkd, hp, hr, rfl, rfl⟩

/-- The bytes that another connection's `GET` is about to copy stay. -/
theorem copying_move (hg : NoOverwrite s (.conn c a)) (hk : s.conns[c]? = some k)
    (hm : Move s.server c k a sv' k' es) (hkd : s.conns[d]? = some kd) {m : Meta} {key' : Bytes}
    (hp : kd.pc = .copy key' m) :
    sv'.mem.read (m.memAddr + key'.length) m.valueSize =
      s.server.mem.read (m.memAddr + key'.length) m.valueSize := by
  rcases move_mem hm with ⟨hmem, -⟩ | ⟨r₀, rfl, hctl, hpc, -, hmem⟩
  · rw [hmem]
  · have hdis := hg (k.client.writeAddr, r₀.totalLen) (by simp [Label.posting?, hk, hctl, hpc]) kd
      (List.mem_of_getElem? hkd) (m.memAddr + key'.length, m.valueSize)
      (by simp [Conn.copying?, hp])
    rw [hmem, Buf.read_write_of_disjoint (by simpa using hdis)]

/-- The phase of another connection's call behind a move of `c`: if the move indexes a record, the
operations that are called see it. -/
structure Seeing (db : Store) (h : History) (c : Nat) (es : List Event)
    (φ φ' : LPhase MapOp MapRes) : Prop where
  idle : φ = .idle → φ' = .idle
  executed : ∀ op res, φ = .executed op res → φ' = .executed op res
  called : ∀ op seen, φ = .called op seen → ∃ seen', φ' = .called op seen' ∧ seen ⊆ seen' ∧
    ∀ r, es = [.handled c r] → (Store.apply (mapOf db (h.addAll es)) op).2 ∈ seen'

theorem Seeing.stay (hes : ∀ r, es ≠ [.handled c r]) (φ : LPhase MapOp MapRes) :
    Seeing db h c es φ φ where
  idle := id
  executed _ _ := id
  called _ seen he := ⟨seen, he, subset_rfl, fun r hr => absurd hr (hes r)⟩

theorem Seeing.see (φ : LPhase MapOp MapRes) :
    Seeing db h c es φ (φ.see Store.apply (mapOf db (h.addAll es))) where
  idle he := by rw [he]; rfl
  executed op res he := by rw [he]; rfl
  called _ seen he := ⟨_, by rw [he]; rfl, Set.subset_insert _ _, fun _ _ => Set.mem_insert _ _⟩

theorem Linked.other (hu : Current db h s) (hd : Data h s) (hi : Index h s) (hc : Cover h s)
    (hg : NoOverwrite s (.conn c a)) (hk : s.conns[c]? = some k)
    (hm : Move s.server c k a sv' k' es) (hkd : s.conns[d]? = some kd)
    {φ φ' : LPhase MapOp MapRes} (hφ : Linked h s kd φ) (hsee : Seeing db h c es φ φ') :
    Linked (h.addAll es) ⟨sv', s.conns.set c k'⟩ kd φ' := by
  have hcalled : ∀ op, (∃ seen, φ = .called op seen) → ∃ seen, φ' = .called op seen := by
    rintro op ⟨seen, he⟩
    obtain ⟨seen', he', -⟩ := hsee.called op seen he
    exact ⟨seen', he'⟩
  unfold Linked at hφ ⊢
  cases hctl : kd.ctl with
  | idle | close => simp only [hctl] at hφ ⊢; exact hsee.idle hφ
  | alloc next =>
    cases next with
    | none => simp only [hctl] at hφ ⊢; exact hsee.idle hφ
    | some r => simp only [hctl] at hφ ⊢; exact hcalled _ hφ
  | post r => simp only [hctl] at hφ ⊢; exact hcalled _ hφ
  | write r =>
    simp only [hctl] at hφ ⊢
    split at hφ
    · exact hsee.executed _ _ hφ
    · exact hsee.executed _ _ hφ
    · exact hcalled _ hφ
  | delete key => simp only [hctl] at hφ
  | get key =>
    simp only [hctl, GetLinked] at hφ ⊢
    split at hφ
    · obtain ⟨seen, he, hdb, hun⟩ := hφ
      obtain ⟨seen', he', hsub, hnew⟩ := hsee.called _ _ he
      refine ⟨seen', he', ?_, fun v hv => ?_⟩
      · show .got (sv'.db key) ∈ seen'
        rcases db_move hu hd hi hc hk hm key with hsame | ⟨_, _, _, v, -, -, -, hv, hdb'⟩
        · exact hsame ▸ hsub hdb
        · exact hdb' ▸ hsub (hun v hv)
      · rcases unstored_move hd hk hm hv with hv | ⟨r, rfl, rfl, rfl⟩
        · exact hsub (hun v hv)
        · have hres := hnew r rfl
          rw [History.addAll_single, mapOf_handled, Store.apply, Store.put, assign_self] at hres
          exact hres
    · rename_i key' m hp
      have hph := (hd.sync d kd hkd).phase
      simp only [Phase, hp] at hph
      obtain rfl : key' = key := Ctl.get.inj (hph.1.symm.trans hctl)
      refine hsee.executed _ _ ?_
      rw [hφ]
      exact congrArg (fun v => LPhase.executed (MapOp.get key') (MapRes.got (some v)))
        (copying_move hg hk hm hkd hp).symm
    · obtain ⟨o, he, ho⟩ := hφ
      exact ⟨o, hsee.executed _ _ he, ho⟩
    · obtain ⟨o, he, ho⟩ := hφ
      exact ⟨o, hsee.executed _ _ he, ho⟩
    · exact hcalled _ hφ

/-! ## The simulation -/

/-- The calls and returns so far, and the phases of the calls. -/
structure Sim (db : Store) (h : History) (s : State) (sn : List (Seen Nat MapOp MapRes))
    (lph : Nat → LPhase MapOp MapRes) : Prop where
  run : Loose Store.apply db sn (mapOf db h) lph
  linked : ∀ (c : Nat) (k : Conn), s.conns[c]? = some k → Linked h s k (lph c)
  idle : ∀ c, s.conns[c]? = none → lph c = .idle

variable {sn : List (Seen Nat MapOp MapRes)} {lph : Nat → LPhase MapOp MapRes}

theorem mapOf_congr {h' : History} (hh : h'.handled = h.handled) : mapOf db h' = mapOf db h := by
  funext key
  simp only [mapOf, hh]

/-- A connection in an `ALLOC` or `CLOSE` request. -/
theorem Linked.flush {h' : History} {φ : LPhase MapOp MapRes}
    (hc : (∃ next, k.ctl = .alloc next) ∨ k.ctl = .close) (hk' : k'.ctl = k.ctl)
    (hφ : Linked h s k φ) : Linked h' s' k' φ := by
  unfold Linked at hφ ⊢
  rw [hk']
  rcases hc with ⟨next, hc⟩ | hc <;> simp only [hc] at hφ ⊢
  · cases next <;> exact hφ
  · exact hφ

theorem FlushCtl.cases {closing : Bool} {x : Ctl} (h : FlushCtl closing x) :
    (∃ next, x = .alloc next) ∨ x = .close := by
  unfold FlushCtl at h
  split at h
  · exact .inr h
  · obtain ⟨next, h, -⟩ := h
    exact .inl ⟨next, h⟩

/-- The connection that moves: the run of the loose system that the move is, and the phase behind
it. -/
def SelfMoved (db : Store) (h : History) (s' : State) (c : Nat) (a : Act) (es : List Event) (k' : Conn)
    (sn : List (Seen Nat MapOp MapRes)) (lph : Nat → LPhase MapOp MapRes) : Prop :=
  ∃ lph', Loose Store.apply db (sn ++ seen (.conn c a) es) (mapOf db (h.addAll es)) lph' ∧
    Linked (h.addAll es) s' k' (lph' c) ∧ ∀ d ≠ c, Seeing db h c es (lph d) (lph' d)

section
variable (hrun : Loose Store.apply db sn (mapOf db h) lph) (hh : (h.addAll es).handled = h.handled)
  (hes : ∀ r, es ≠ [.handled c r])
include hrun hh hes

theorem SelfMoved.stay (hsn : seen (.conn c a) es = []) (hk' : Linked (h.addAll es) s' k' (lph c)) :
    SelfMoved db h s' c a es k' sn lph := by
  refine ⟨lph, ?_, hk', fun d _ => .stay hes _⟩
  rw [hsn, List.append_nil, mapOf_congr hh]
  exact hrun

theorem SelfMoved.call {op : MapOp} (hc : lph c = .idle) (hsn : seen (.conn c a) es = [.call c op])
    (hk' : ∀ seen, Linked (h.addAll es) s' k' (.called op seen)) :
    SelfMoved db h s' c a es k' sn lph := by
  refine ⟨Function.update lph c (.called op {(Store.apply (mapOf db h) op).2}), ?_, ?_, ?_⟩
  · rw [hsn, mapOf_congr hh]
    exact hrun.call hc
  · rw [Function.update_self]
    exact hk' _
  · intro d hd
    rw [Function.update_of_ne hd]
    exact .stay hes _

theorem SelfMoved.pick {key : Bytes} {sns : Set MapRes} {res : MapRes}
    (hc : lph c = .called (.get key) sns) (hres : res ∈ sns) (hsn : seen (.conn c a) es = [])
    (hk' : Linked (h.addAll es) s' k' (.executed (.get key) res)) :
    SelfMoved db h s' c a es k' sn lph := by
  refine ⟨Function.update lph c (.executed (.get key) res), ?_, ?_, ?_⟩
  · rw [hsn, List.append_nil, mapOf_congr hh]
    exact hrun.pick hc hres fun _ => rfl
  · rw [Function.update_self]
    exact hk'
  · intro d hd
    rw [Function.update_of_ne hd]
    exact .stay hes _

theorem SelfMoved.ret {op : MapOp} {res : MapRes} (hc : lph c = .executed op res)
    (hsn : seen (.conn c a) es = [.ret c op res]) (hk' : Linked (h.addAll es) s' k' .idle) :
    SelfMoved db h s' c a es k' sn lph := by
  refine ⟨Function.update lph c .idle, ?_, ?_, ?_⟩
  · rw [hsn, mapOf_congr hh]
    exact hrun.ret hc
  · rw [Function.update_self]
    exact hk'
  · intro d hd
    rw [Function.update_of_ne hd]
    exact .stay hes _

end

/-- The record of a write is indexed. -/
theorem SelfMoved.insert (hrun : Loose Store.apply db sn (mapOf db h) lph) {r : Record} {b : Bool}
    {sns : Set MapRes} (hc : lph c = .called (.put r.key r.val) sns)
    (hk' : Linked (h.addAll [.handled c r]) s' k' (.executed (.put r.key r.val) .stored)) :
    SelfMoved db h s' c (.clerk b) [.handled c r] k' sn lph := by
  have hmap : mapOf db (h.addAll [.handled c r]) = (mapOf db h).put r.key r.val := mapOf_handled ..
  refine ⟨Function.update (fun d => (lph d).see Store.apply (mapOf db (h.addAll [.handled c r]))) c
    (.executed (.put r.key r.val) .stored), ?_, ?_, ?_⟩
  · rw [show seen (.conn c (.clerk b)) [.handled c r] = [] from rfl, List.append_nil, hmap]
    exact hrun.exec hc rfl
  · rw [Function.update_self]
    exact hk'
  · intro d hd
    rw [Function.update_of_ne hd]
    exact .see _

theorem Replies.post {b b' : Buf} {o : Option Bytes} (hr : Replies b o)
    (hlen : ∀ v, o = some v → v.length < 2 ^ 32) :
    Replies (b'.write ringHeader (b.read ringHeader (sizeofRequest + replyValSize b))) o := by
  cases o with
  | none => exact Answers.post hr (by decide) _
  | some v => exact Answers.post hr (hlen v rfl) _

theorem self_move (hx : Sim db h s sn lph) (hu : Current db h s) (hd : Data h s) (hi : Index h s)
    (hc : Cover h s) (hsm : Small s) (hk : s.conns[c]? = some k)
    (hdel : ∀ key, a ≠ .call (.delete key)) (hm : Move s.server c k a sv' k' es) :
    SelfMoved db h ⟨sv', s.conns.set c k'⟩ c a es k' sn lph := by
  have hφ := hx.linked c k hk
  have hph := (hd.sync c k hk).phase
  have hrun := hx.run
  have hnodel := hu.nodel c k
  -- a step of an `ALLOC` or `CLOSE`
  have hflush : (∃ next, k.ctl = .alloc next) ∨ k.ctl = .close → k'.ctl = k.ctl →
      Linked (h.addAll es) ⟨sv', s.conns.set c k'⟩ k' (lph c) := fun h1 h2 => hφ.flush h1 h2
  cases hm
  case callPost r hctl hp hroom | callFull r hctl hp hroom =>
    simp only [Linked, hctl] at hφ
    exact .call hrun rfl (by simp) hφ rfl fun seen => ⟨seen, rfl⟩
  case callGet key hctl hp =>
    simp only [Linked, hctl] at hφ
    exact .call hrun rfl (by simp) hφ rfl fun seen => ⟨seen, rfl⟩
  case callDelete key hctl hp => exact absurd rfl (hdel key)
  case callAlloc hctl hp | callClose hctl hp =>
    simp only [Linked, hctl] at hφ
    exact .stay hrun rfl (by simp) rfl hφ
  case post r hctl hp =>
    simp only [Linked, hctl] at hφ
    exact .stay hrun rfl (by simp) rfl hφ
  case allocEnd hctl hp =>
    simp only [Linked, hctl] at hφ
    exact .stay hrun rfl (by simp) rfl hφ
  case allocNext r hctl hp =>
    simp only [Linked, hctl] at hφ
    exact .stay hrun rfl (by simp) rfl hφ
  case ack r hctl hp =>
    simp only [Linked, hctl, hp] at hφ
    exact .ret hrun rfl (by simp) hφ rfl rfl
  case got key hctl hp =>
    simp only [Linked, hctl, GetLinked, hp] at hφ
    obtain ⟨o, he, hr, hlen⟩ := hφ
    refine .ret hrun rfl (by simp) he ?_ rfl
    rw [hr.value hlen]
    rfl
  case deleted key hctl hp => exact absurd hctl (hnodel key hk)
  case readPut hp ho =>
    obtain ⟨r, hctl⟩ : ∃ r, k.ctl = .write r := by
      rw [(hph.of_read hp).op_eq] at ho
      exact ho.elim Ctl.of_op Ctl.of_op
    simp only [Linked, hctl, hp] at hφ
    exact .stay hrun rfl (by simp) rfl (by simpa only [Linked, hctl] using hφ)
  case readGet hp ho =>
    obtain ⟨key, hctl⟩ : ∃ key, k.ctl = .get key := by
      rw [(hph.of_read hp).op_eq] at ho
      exact Ctl.of_op ho
    simp only [Linked, hctl, GetLinked, hp] at hφ
    exact .stay hrun rfl (by simp) rfl (by simpa only [Linked, hctl, GetLinked] using hφ)
  case readDelete hp ho =>
    obtain ⟨key, hctl⟩ : ∃ key, k.ctl = .delete key := by
      rw [(hph.of_read hp).op_eq] at ho
      exact Ctl.of_op ho
    exact absurd hctl (hnodel key hk)
  case readAlloc hp ho _ | readFirst hp ho _ =>
    obtain ⟨next, hctl⟩ : ∃ next, k.ctl = .alloc next := by
      rw [(hph.of_read hp).op_eq] at ho
      exact Ctl.of_op ho
    exact .stay hrun rfl (by simp) rfl (hflush (.inl ⟨next, hctl⟩) rfl)
  case readClose hp ho _ | readCloseEmpty hp ho _ =>
    have hctl : k.ctl = .close := by
      rw [(hph.of_read hp).op_eq] at ho
      exact Ctl.of_op ho
    exact .stay hrun rfl (by simp) rfl (hflush (.inr hctl) rfl)
  case readBad hp ho =>
    rw [(hph.of_read hp).op_eq] at ho
    have hr := hph.of_read hp
    cases hctl : k.ctl <;> simp [hctl, Ctl.op, ReadPhase] at ho hr
  case insert key m hp =>
    obtain ⟨r, hins, hev⟩ := (hd.sync c k hk).of_insert hp
    simp only [Linked, hins.ctl, hp] at hφ
    obtain ⟨sns, he⟩ := hφ
    rw [hev]
    refine .insert hrun he ?_
    simp only [Linked, hins.ctl]
  case findHit key m hp hmap =>
    simp only [Phase, hp] at hph
    simp only [Linked, hph.1, GetLinked, hp] at hφ
    obtain ⟨sns, he⟩ := hφ
    -- the entry is what the key holds
    have hres := hrun.current he
    have hl := hu.lookup hd hi key
    rw [Server.lookup, hmap] at hl
    refine .pick hrun rfl (by simp) he hres rfl ?_
    simp only [Linked, hph.1, GetLinked, Store.apply, ← hl]
  case findMiss key hp hmap =>
    simp only [Phase, hp] at hph
    simp only [Linked, hph.1, GetLinked, hp] at hφ
    obtain ⟨sns, he⟩ := hφ
    have hres := hrun.current he
    rw [Store.apply, ← hu.missed key hmap] at hres
    refine .stay hrun rfl (by simp) rfl ?_
    simp only [Linked, hph.1, GetLinked]
    refine ⟨sns, he, hres, ?_⟩
    -- what is indexed and not in the index is in the database
    rintro v ⟨d, kd, r, hkd, hpd, hr, hkey, rfl⟩
    rcases conns_set_cases hk hkd with ⟨rfl, rfl⟩ | ⟨-, hkd⟩
    · refine absurd hmap (hc.index d k key hk (hkey ▸ List.mem_map_of_mem hr) ?_)
      simp [hp]
    · exact absurd hmap (hc.index d kd key hkd (hkey ▸ List.mem_map_of_mem hr)
        fun closing tmp j h' => absurd h' (hpd closing tmp j))
  case copy key m hp =>
    simp only [Phase, hp] at hph
    simp only [Linked, hph.1, GetLinked, hp] at hφ
    refine .stay hrun rfl (by simp) rfl ?_
    simp only [Linked, hph.1, GetLinked]
    refine ⟨_, hφ, Answers.setReply _ _ _, fun v hv => ?_⟩
    have hshort := hsm.short c k hk
    simp only [Conn.Short, hp] at hshort
    rw [← Option.some.inj hv, Buf.length_read]
    exact lt_of_le_of_lt hshort (by decide)
  case dbHit key value hp hv =>
    simp only [Phase, hp] at hph
    simp only [Linked, hph.1, GetLinked, hp] at hφ
    obtain ⟨sns, he, hdb, -⟩ := hφ
    refine .pick hrun rfl (by simp) he hdb rfl ?_
    simp only [Linked, hph.1, GetLinked]
    refine ⟨_, rfl, by rw [hv]; exact Answers.setReply _ _ _, fun v hv' => ?_⟩
    exact lt_of_le_of_lt (hsm.db key v hv') (by decide)
  case dbMiss key hp hv =>
    simp only [Phase, hp] at hph
    simp only [Linked, hph.1, GetLinked, hp] at hφ
    obtain ⟨sns, he, hdb, -⟩ := hφ
    refine .pick hrun rfl (by simp) he hdb rfl ?_
    simp only [Linked, hph.1, GetLinked]
    refine ⟨_, rfl, by rw [hv]; exact Answers.setReply _ _ _, fun v hv' => ?_⟩
    exact lt_of_le_of_lt (hsm.db key v hv') (by decide)
  case dbDelete key hp =>
    simp only [Phase, hp] at hph
    exact absurd hph.1 (hnodel key hk)
  case putBatch closing tmp hp | erase closing tmp _ _ hp _ =>
    simp only [Phase, hp] at hph
    exact .stay hrun rfl (by simp) rfl (hflush hph.2.2.cases rfl)
  case enqueue closing tmp i hp _ =>
    simp only [Phase, hp] at hph
    exact .stay hrun rfl (by simp) rfl (hflush hph.2.2.cases rfl)
  case scan pc hp hpc =>
    simp only [Phase, hp] at hph
    exact .stay hrun rfl (by simp) rfl (hflush hph.2.2.2.2.cases rfl)
  case setAbort hp _ | setTaken hp _ | setFree hp _ =>
    simp only [Phase, hp] at hph
    exact .stay hrun rfl (by simp) rfl (hflush hph.2.2.2.2.cases rfl)
  case reply hp =>
    refine .stay hrun rfl (by simp) rfl ?_
    simp only [Phase, hp, ReplyPhase] at hph
    cases hctl : k.ctl with
    | alloc next => simpa only [hctl] using hflush (.inl ⟨next, hctl⟩) rfl
    | write r => simpa only [Linked, hctl, hp] using hφ
    | get key =>
      simp only [Linked, hctl, GetLinked, hp] at hφ ⊢
      obtain ⟨o, he, hr, hlen⟩ := hφ
      exact ⟨o, he, hr.post hlen, hlen⟩
    | delete key => exact absurd hctl (hnodel key hk)
    | idle | post | close => simp only [hctl] at hph

/-- Nothing that a call depends on changes. -/
theorem Linked.same {h' : History} {φ : LPhase MapOp MapRes} (hmem : s'.server.mem = s.server.mem)
    (hdb : s'.server.db = s.server.db)
    (hun : ∀ key v, Unstored h' s' key v → Unstored h s key v) (hφ : Linked h s k φ) :
    Linked h' s' k φ := by
  unfold Linked at hφ ⊢
  split at hφ <;> try exact hφ
  rename_i key hctl
  unfold GetLinked at hφ ⊢
  split at hφ
  · obtain ⟨seen, he, h1, h2⟩ := hφ
    exact ⟨seen, he, hdb ▸ h1, fun v hv => h2 v (hun key v hv)⟩
  · rw [hmem]
    exact hφ
  all_goals exact hφ

theorem turn_ret {w : Option (Sqe × Int)} {sv : Server} (ht : Turn sv w sv' es) :
    es.filterMap Event.ret? = [] := by
  cases ht <;> rfl

/-- The calls and returns of a step are those of a run of the loose system. -/
theorem sim_step {l : Label} (hx : Sim db h s sn lph) (hu : Current db h s) (hd : Data h s)
    (hi : Index h s) (hc : Cover h s) (hsm : Small s) (hg : Tidy s l)
    (hs : step s l = some (s', es)) : ∃ lph', Sim db (h.addAll es) s' (sn ++ seen l es) lph' := by
  cases step_cases hs with
  | @connect localBuf sendBuf hl =>
    subst hl
    -- nothing is indexed for the new connection
    have hun : ∀ key v, Unstored h ⟨s.server, s.conns ++ [Conn.new localBuf sendBuf]⟩ key v →
        Unstored h s key v := by
      rintro key v ⟨d, kd, r, hkd, hp, hr, hrest⟩
      rcases conns_append hkd with hkd | ⟨rfl, rfl⟩
      · exact ⟨d, kd, r, hkd, hp, hr, hrest⟩
      · rw [(hd.fresh _ le_rfl).2.1] at hr
        cases hr
    refine ⟨lph, ⟨by simpa [seen, Label.seen] using hx.run, fun d kd hkd => ?_, fun d hd' => ?_⟩⟩
    · rcases conns_append hkd with hkd | ⟨rfl, rfl⟩
      · exact (hx.linked d kd hkd).same (s := s) rfl rfl hun
      · exact hx.idle _ (by simp)
    · refine hx.idle d ?_
      rw [List.getElem?_eq_none_iff] at hd' ⊢
      have hle : s.conns.length + 1 ≤ d := by simpa using hd'
      exact Nat.le_of_succ_le hle
  | @conn c a k k' _ _ hl hk hm =>
    subst hl
    have hdel : ∀ key, a ≠ .call (.delete key) := by
      rintro key rfl
      cases hg.2.2 (c, .delete key) rfl
    obtain ⟨lph', hrun, hself, hother⟩ := self_move hx hu hd hi hc hsm hk hdel hm
    refine ⟨lph', ⟨hrun, fun d kd hkd => ?_, fun d hd' => ?_⟩⟩
    · rcases conns_set_cases hk hkd with ⟨rfl, rfl⟩ | ⟨hdc, hkd⟩
      · exact hself
      · exact (hx.linked d kd hkd).other hu hd hi hc hg.2.1 hk hm hkd (hother d hdc)
    · have hnone : s.conns[d]? = none := by simpa using hd'
      have hdc : d ≠ c := by
        rintro rfl
        cases hk.symm.trans hnone
      exact (hother d hdc).idle (hx.idle d hnone)
  | @ring sv' _ hr ht =>
    obtain ⟨ws, hw⟩ := turn_hist (h := h) ht
    obtain ⟨hmem, -, hdb⟩ := turn_mem ht
    have hsn : seen l es = [] := by
      have hl : l.seen = [] := by
        unfold Label.seen
        split
        · simp [Label.conn?] at hr
        · rfl
      rw [seen, hl, turn_ret ht]
      rfl
    rw [hsn, List.append_nil, hw]
    refine ⟨lph, ⟨hx.run, fun d kd hkd => (hx.linked d kd hkd).same hmem hdb ?_, hx.idle⟩⟩
    exact fun _ _ hv => hv

/-- **The PMR front end is linearizable.** However clients, clerks, the uring thread and the kernel
take their steps, the calls and returns of the writes and `GET`s are those of a map that executes
each at once: it holds what the database held at start. -/
theorem pmr_linearizable {mem file : Buf} (hdb : db.Bounded maxValue)
    (hr : Steps (view seen step) Tidy (init mem file db) sn s) :
    Linearizable Store.apply db sn := by
  have hI := Steps.invariant (I := fun sn s => ∃ tr lph, Run Tidy mem file db tr s ∧
      Sim db (hist tr) s sn lph)
    ⟨[], fun _ => .idle, .refl, .init, by simp [init], fun _ _ => rfl⟩
    (by
      rintro sn s l s' es - ⟨tr, lph, hrun, hx⟩ hg hv
      obtain ⟨es, hs, rfl⟩ := view_cases hv
      obtain ⟨⟨hd, hi, hc⟩, hu, hsm⟩ := tidy_run hdb hrun
      obtain ⟨lph', hx'⟩ := sim_step hx hu hd hi hc hsm hg hs
      rw [← hist_append] at hx'
      exact ⟨tr ++ es, lph', hrun.tail hg hs, hx'⟩) hr
  obtain ⟨tr, lph, -, hx⟩ := hI
  exact hx.run.histories

end

/-- A `GET` that does not find the key in the index is overtaken by two writes of it: it returns the
first, which is in the database, while the index has the second. -/
theorem pmr_linearizable_overtaken :
    ∃ sn s, Steps (view seen step) Tidy (init Sched.zeros Sched.zeros fun _ => none) sn s ∧
      sn = [.call 1 (.get [1]), .call 0 (.put [1] [10]), .ret 0 (.put [1] [10]) .stored,
        .call 0 (.put [1] [11]), .ret 0 (.put [1] [11]) .stored,
        .ret 1 (.get [1]) (.got (some [10]))] ∧ Linearizable Store.apply (fun _ => none) sn := by
  have hr : Steps (view seen step) Tidy (init Sched.zeros Sched.zeros fun _ => none) _ _ :=
    Steps.of_exec_get (Sched.connect 0 0 ++ Sched.connect 1 1 ++
      .conn 1 (.call (.get [1])) :: Sched.clerk 1 2 ++ Sched.write 0 ⟨.put, [1], [10]⟩ ++
      .conn 0 (.call .alloc) :: Sched.clerk 0 4 ++ Sched.blindset 0 2 ++ Sched.clerk 0 1 ++
      [Sched.client 0] ++ Sched.write 0 ⟨.update, [1], [11]⟩ ++ Sched.clerk 1 2 ++
      [Sched.client 1]) (by decide +kernel)
  exact ⟨_, _, hr, by decide +kernel, pmr_linearizable (by simp [Store.Bounded]) hr⟩

end PMRAccess.Pmr
