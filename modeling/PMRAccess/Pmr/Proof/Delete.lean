import PMRAccess.Pmr.Proof.Refine

/-!
# Deletes

A `DELETE` goes to the database only. It is good for a key that is nowhere else (`Absent`): not in
the index, and in no batch that a clerk has still to put into the database. Such a key stays absent
until a write of it is handled, and a `GET` that starts after the `DELETE` finds nothing. The runs
of `delete_law` are those in which this is so whenever a `DELETE` is handled, and requests do not
overlap a `DELETE` of their key; without the first, the deleted key is still found
(`delete_unflushed_found`).
-/

namespace PMRAccess.Pmr

open Lib

/-! ## Guards -/

/-- The key a client works on. -/
def Ctl.key? : Ctl → Option Bytes
  | .alloc (some r) | .post r | .write r => some r.key
  | .get key | .delete key => some key
  | _ => none

def Call.key? : Call → Option Bytes
  | .write r => some r.key
  | .get key | .delete key => some key
  | .alloc | .close => none

/-- One of two requests for the same key is a `DELETE`. -/
def Clash (x : Call) (ctl : Ctl) : Prop :=
  ∃ key ∈ x.key?, ctl.key? = some key ∧ (x = .delete key ∨ ctl = .delete key)

instance (x : Call) (ctl : Ctl) : Decidable (Clash x ctl) :=
  inferInstanceAs (Decidable (∃ key ∈ x.key?, ctl.key? = some key ∧
    (x = .delete key ∨ ctl = .delete key)))

/-- The key a step deletes from the database. -/
def Label.deleting? (s : State) : Label → Option Bytes
  | .conn c (.clerk _) =>
    match s.conns[c]? with
    | some k =>
      match k.pc with
      | .dbDelete key => some key
      | _ => none
    | none => none
  | _ => none

/-- The clerk has put its batch into the database, and is in the flush loop. -/
def Conn.batchPut (k : Conn) : Bool :=
  match k.pc with
  | .erase _ _ _ => true
  | _ => false

/-- The key is in the index, or in a batch that is still to be put into the database. -/
def Unflushed (s : State) (key : Bytes) : Prop :=
  s.server.map key ≠ none ∨ ∃ k ∈ s.conns, k.batchPut = false ∧ key ∈ k.clerk.keyBatch

instance (s : State) (key : Bytes) : Decidable (Unflushed s key) :=
  inferInstanceAs (Decidable (s.server.map key ≠ none ∨
    ∃ k ∈ s.conns, k.batchPut = false ∧ key ∈ k.clerk.keyBatch))

/-- Requests fit, no request overlaps a `DELETE` of its key, and no unflushed key is deleted. -/
def FlushedDelete (s : State) (l : Label) : Prop :=
  l.Fits ∧ (∀ p ∈ l.call?, ∀ d < s.conns.length, d ≠ p.1 → ∀ k ∈ s.conns[d]?, ¬ Clash p.2 k.ctl) ∧
    ∀ key ∈ l.deleting? s, ¬ Unflushed s key

instance (s : State) (l : Label) : Decidable (FlushedDelete s l) :=
  inferInstanceAs (Decidable (l.Fits ∧
    (∀ p ∈ l.call?, ∀ d < s.conns.length, d ≠ p.1 → ∀ k ∈ s.conns[d]?, ¬ Clash p.2 k.ctl) ∧
      ∀ key ∈ l.deleting? s, ¬ Unflushed s key))

/-! ## Absent keys -/

/-- The key is neither in the index nor in the database, and no clerk will put it there by a
flush. -/
structure Absent (h : History) (s : State) (key : Bytes) : Prop where
  map : s.server.map key = none
  db : s.server.db key = none
  batch : ∀ (c : Nat) (k : Conn), s.conns[c]? = some k → key ∈ (h.indexed c).map Record.key →
    k.batchPut = true

section
variable {h : History} {s : State} {sv sv' : Server} {c : Nat} {k k' : Conn} {a : Act}
  {es : List Event} {key : Bytes}

theorem Absent.lookup (ha : Absent h s key) : s.server.lookup key = none := by
  simp only [Server.lookup, ha.map, ha.db]

/-- An absent key stays absent until a write of it is handled. -/
theorem absent_move (hd : Data h s) (ha : Absent h s key) (hk : s.conns[c]? = some k)
    (hm : Move s.server c k a sv' k' es) (hno : ∀ d r, .handled d r ∈ es → r.key ≠ key) :
    Absent (h.addAll es) ⟨sv', s.conns.set c k'⟩ key := by
  have hins : ∀ key₀ m₀, k.pc = .insert key₀ m₀ → es = k.ctl.handled c →
      ∃ r, key₀ = r.key ∧ r.key ≠ key ∧ es = [.handled c r] := by
    intro key₀ m₀ hp hes
    obtain ⟨r, hr, hev⟩ := (hd.sync c k hk).of_insert hp
    have hes' : es = [.handled c r] := hes.trans (hev c)
    exact ⟨r, hr.key_eq, hno c r (by simp [hes']), hes'⟩
  refine ⟨?_, ?_, fun d kd hkd hkey => ?_⟩
  · show sv'.map key = none
    rcases move_index (h := h) hm with ⟨hmap, -⟩ | ⟨key₀, m₀, hp, hmap, hes, -⟩ |
      ⟨_, _, _, key₀, -, -, hmap, -⟩
    · rw [hmap]
      exact ha.map
    · obtain ⟨r, rfl, hne, -⟩ := hins key₀ m₀ hp hes
      rw [hmap, assign_of_ne (Ne.symm hne)]
      exact ha.map
    · rw [hmap]
      by_cases hkey : key = key₀
      · rw [hkey, assign_self]
      · rw [assign_of_ne hkey]
        exact ha.map
  · show sv'.db key = none
    rcases move_db hm with hdb | ⟨key', -, hdb, -⟩ | ⟨closing, tmp, hp, hdb, -, -⟩
    · rw [hdb]
      exact ha.db
    · rw [hdb, Store.delete]
      by_cases hkey : key = key'
      · rw [hkey, assign_self]
      · rw [assign_of_ne hkey]
        exact ha.db
    · -- the batch has no record of the key
      obtain ⟨hall, -, hput⟩ := hd.putBatch hk hp s.server.db
      rw [hdb, hput, putAll_of_notMem]
      · exact ha.db
      · intro hkey
        have := ha.batch c k hk (hall ▸ hkey)
        simp [Conn.batchPut, hp] at this
  · replace hkd : (s.conns.set c k')[d]? = some kd := hkd
    rcases conns_set_cases hk hkd with ⟨rfl, rfl⟩ | ⟨hdc, hkd⟩
    · rcases move_index (h := h) hm with ⟨-, -, hsame, -⟩ | ⟨key₀, m₀, hp, -, hes, -⟩ |
        ⟨_, _, _, _, -, -, -, -, hk'⟩
      · exfalso
        rcases hm.flushed_or with hf | ⟨it, hf⟩
        · obtain ⟨hx, hpc⟩ := hsame hf
          have hput := ha.batch d k hk (hx ▸ hkey)
          unfold Conn.batchPut at hput
          split at hput
          · rename_i hp
            exact hpc _ _ _ hp
          · cases hput
        · rw [hf] at hkey
          simp [History.add] at hkey
      · exfalso
        obtain ⟨r, -, hne, hes'⟩ := hins key₀ m₀ hp hes
        simp only [hes', History.addAll_single, History.add, Function.update_self, List.map_append,
          List.map_cons, List.map_nil, List.mem_append, List.mem_singleton] at hkey
        rcases hkey with hkey | hkey
        · have hput := ha.batch d k hk hkey
          simp [Conn.batchPut, hp] at hput
        · exact hne hkey.symm
      · rw [hk']
        rfl
    · rw [(move_hist_other (h := h) hm hdc).2.1] at hkey
      exact ha.batch d kd hkd hkey

/-- The key a client works on is that of its call. -/
theorem Move.of_key (hm : Move sv c k a sv' k' es) (hc : k'.ctl.key? = some key) :
    k.ctl.key? = some key ∨ ∃ x, a = .call x ∧ x.key? = some key := by
  cases hm
  case callPost r _ _ _ => exact .inr ⟨_, rfl, hc⟩
  case callFull | callGet | callDelete => exact .inr ⟨_, rfl, hc⟩
  case callAlloc | callClose | allocEnd | ack | got | deleted => cases hc
  case post hc' _ | allocNext hc' _ => exact .inl (by rw [hc']; exact hc)
  all_goals exact .inl hc

/-- A `DELETE` comes to its reply through the database. -/
theorem Move.of_deleting {rs hs : List Record} (hs : Sync rs hs k) (hm : Move sv c k a sv' k' es)
    (hc : k'.ctl = .delete key) (hp : k'.pc = .reply ∨ k'.pc = .poll) :
    es = [] ∧ ((k.ctl = .delete key ∧ k.pc = .reply) ∨
      (k.pc = .dbDelete key ∧ sv'.db = sv.db.delete key ∧ sv'.map = sv.map ∧
        ∃ b, a = .clerk b)) := by
  have hph := hs.phase
  cases hm
  case dbDelete b key' hp' =>
    simp only [Phase, hp'] at hph
    obtain rfl : key' = key := Ctl.delete.inj (hph.1.symm.trans hc)
    exact ⟨rfl, .inr ⟨hp', rfl, rfl, b, rfl⟩⟩
  case reply hp' => exact ⟨rfl, .inl ⟨hc, hp'⟩⟩
  case insert hp' =>
    obtain ⟨r, hins, -⟩ := hs.of_insert hp'
    cases hins.ctl.symm.trans hc
  case copy hp' | dbHit hp' _ | dbMiss hp' _ =>
    simp only [Phase, hp'] at hph
    cases hph.1.symm.trans hc
  case setFree hp' _ =>
    simp only [Phase, hp', FlushCtl] at hph
    obtain ⟨-, -, -, -, next, hn, -⟩ := hph
    cases hn.symm.trans hc
  case enqueue closing _ _ _ _ => cases closing <;> rcases hp with hp | hp <;> cases hp
  case scan pc _ hpc => rcases hpc with ⟨j, rfl⟩ | ⟨-, rfl⟩ <;> rcases hp with hp | hp <;> cases hp
  case callPost | callFull | callGet | callAlloc | callClose | post | allocEnd | allocNext | ack |
      got | deleted => cases hc
  case readBad hp' _ | setAbort hp' _ => rcases hp with hp | hp <;> cases hp.symm.trans hp'
  all_goals rcases hp with hp | hp <;> cases hp

end

/-! ## The invariant -/

/-- The key was deleted, and no write of it was handled since. -/
def Gone (key : Bytes) (tr : List Event) : Prop :=
  ∃ tr₁ tr₂ c, tr = tr₁ ++ .deleted c key true :: tr₂ ∧
    ∀ d r, .handled d r ∈ tr₂ → r.key ≠ key

/-- A key is gone by the last step, or it was before and the step does not handle a write of it. -/
theorem Gone.of_append {key : Bytes} {tr es : List Event} (hg : Gone key (tr ++ es)) :
    (Gone key tr ∧ ∀ d r, .handled d r ∈ es → r.key ≠ key) ∨ ∃ c, .deleted c key true ∈ es := by
  obtain ⟨tr₁, tr₂, c, he, hno⟩ := hg
  rcases List.append_eq_append_iff.1 he with ⟨as, rfl, hes'⟩ | ⟨bs, rfl, hbs⟩
  · exact .inr ⟨c, by simp [hes']⟩
  · cases bs with
    | nil =>
      rw [List.nil_append] at hbs
      exact .inr ⟨c, by simp [← hbs]⟩
    | cons b bs =>
      rw [List.cons_append, List.cons.injEq] at hbs
      obtain ⟨rfl, rfl⟩ := hbs
      exact .inl ⟨⟨tr₁, bs, c, rfl, fun d r hr => hno d r (List.mem_append_left _ hr)⟩,
        fun d r hr => hno d r (List.mem_append_right _ hr)⟩

structure Deletes (h : History) (tr : List Event) (s : State) : Prop where
  apart : ∀ (c d : Nat) (k kd : Conn) (key : Bytes), s.conns[c]? = some k → s.conns[d]? = some kd →
    k.ctl = .delete key → kd.ctl.key? = some key → c = d
  absent : ∀ (c : Nat) (k : Conn) (key : Bytes), s.conns[c]? = some k → k.ctl = .delete key →
    k.pc = .reply ∨ k.pc = .poll → Absent h s key
  gone : ∀ key, Gone key tr → Absent h s key ∧
    ∀ (d : Nat) (kd : Conn), s.conns[d]? = some kd → kd.ctl = .get key → GetPhase s.server kd key

section
variable {h : History} {tr : List Event} {s : State} {sv sv' : Server} {c : Nat} {k k' : Conn}
  {a : Act} {es : List Event} {key : Bytes}

theorem Move.of_deleted {d : Nat} (hm : Move sv c k a sv' k' es)
    (he : .deleted d key true ∈ es) :
    k.ctl = .delete key ∧ k.pc = .poll ∧ k'.ctl = .idle ∧ es = [.deleted d key true] := by
  cases hm
  case deleted hc hp =>
    obtain ⟨rfl, rfl, hok⟩ := Event.deleted.inj (List.mem_singleton.1 he)
    exact ⟨hc, hp, rfl, by rw [hok]⟩
  case insert =>
    obtain ⟨r, -, h⟩ := Ctl.handled_of_mem he
    cases h
  all_goals simp at he

/-- A write is handled for its client. -/
theorem Move.of_handled {d : Nat} {r : Record} (hm : Move sv c k a sv' k' es)
    (he : .handled d r ∈ es) : k.ctl = .write r := by
  cases hm
  case insert =>
    obtain ⟨r', hc, h⟩ := Ctl.handled_of_mem he
    cases h
    exact hc
  all_goals simp at he

theorem apart_move (hx : Deletes h tr s) (hg : FlushedDelete s (.conn c a))
    (hk : s.conns[c]? = some k) (hm : Move s.server c k a sv' k' es) {d e : Nat} {kd ke : Conn}
    (hkd : (s.conns.set c k')[d]? = some kd) (hke : (s.conns.set c k')[e]? = some ke)
    (hdel : kd.ctl = .delete key) (hkey : ke.ctl.key? = some key) : d = e := by
  rcases conns_set_cases hk hkd with ⟨hdc, rfl⟩ | ⟨hdc, hkd⟩ <;>
    rcases conns_set_cases hk hke with ⟨hec, rfl⟩ | ⟨hec, hke⟩
  · rw [hdc, hec]
  · rcases hm.of_delete hdel with hdel | rfl
    · exact hdc ▸ hx.apart c e k ke key hk hke hdel hkey
    · exact absurd ⟨key, rfl, hkey, .inl rfl⟩
        (hg.2.1 (c, .delete key) rfl e (List.getElem?_eq_some_iff.1 hke).1 hec ke hke)
  · rcases hm.of_key hkey with hkey | ⟨x, rfl, hxk⟩
    · exact hec ▸ hx.apart d c kd k key hkd hk hdel hkey
    · exact absurd ⟨key, hxk, by rw [hdel]; rfl, .inr hdel⟩
        (hg.2.1 (c, x) rfl d (List.getElem?_eq_some_iff.1 hkd).1 hdc kd hkd)
  · exact hx.apart d e kd ke key hkd hke hdel hkey

/-- The deletion of a key that is nowhere unflushed. -/
theorem absent_delete (hd : Data h s) (hu : ¬ Unflushed s key) (hk : s.conns[c]? = some k)
    (hp : k.pc = .dbDelete key) (hmap : sv'.map = s.server.map)
    (hdb : sv'.db = s.server.db.delete key) : Absent h ⟨sv', s.conns.set c k'⟩ key := by
  simp only [Unflushed, not_or, not_not] at hu
  obtain ⟨hnone, hbatch⟩ := hu
  have hnot : ∀ (d : Nat) (kd : Conn), s.conns[d]? = some kd →
      key ∈ (h.indexed d).map Record.key → kd.batchPut = true := by
    intro d kd hkd hkey
    by_contra hput
    exact hbatch ⟨kd, List.mem_of_getElem? hkd, by simpa using hput,
      (hd.sync d kd hkd).mem_keyBatch hkey⟩
  refine ⟨hmap ▸ hnone, ?_, fun d kd hkd hkey => ?_⟩
  · show sv'.db key = none
    rw [hdb, Store.delete, assign_self]
  · replace hkd : (s.conns.set c k')[d]? = some kd := hkd
    rcases conns_set_cases hk hkd with ⟨rfl, -⟩ | ⟨-, hkd⟩
    · have := hnot d k hk hkey
      simp [Conn.batchPut, hp] at this
    · exact hnot d kd hkd hkey

theorem deletes_absent (hd : Data h s) (hx : Deletes h tr s)
    (hg : FlushedDelete s (.conn c a)) (hk : s.conns[c]? = some k)
    (hm : Move s.server c k a sv' k' es) {d : Nat} {kd : Conn}
    (hkd : (s.conns.set c k')[d]? = some kd) (hdel : kd.ctl = .delete key)
    (hp : kd.pc = .reply ∨ kd.pc = .poll) :
    Absent (h.addAll es) ⟨sv', s.conns.set c k'⟩ key := by
  rcases conns_set_cases hk hkd with ⟨-, rfl⟩ | ⟨hdc, hkd⟩
  · obtain ⟨rfl, ⟨hdel', hp'⟩ | ⟨hp', hdb, hmap, b, rfl⟩⟩ := hm.of_deleting (hd.sync c k hk) hdel hp
    · exact absent_move hd (hx.absent c k key hk hdel' (.inl hp')) hk hm (by simp)
    · exact absent_delete hd (hg.2.2 key (by simp [Label.deleting?, hk, hp'])) hk hp' hmap hdb
  · -- a write of the key would overlap the `DELETE`
    refine absent_move hd (hx.absent d kd key hkd hdel hp) hk hm fun e r hr hkey => ?_
    have hc := hm.of_handled hr
    exact hdc (hx.apart d c kd k key hkd hk hdel (by rw [hc]; exact congrArg some hkey))

theorem deletes_move (hd : Data h s) (hx : Deletes h tr s)
    (hg : FlushedDelete s (.conn c a)) (hk : s.conns[c]? = some k)
    (hm : Move s.server c k a sv' k' es) :
    Deletes (h.addAll es) (tr ++ es) ⟨sv', s.conns.set c k'⟩ := by
  refine ⟨fun d e kd ke key hkd hke => apart_move hx hg hk hm hkd hke,
    fun d kd key hkd => deletes_absent hd hx hg hk hm hkd, fun key hgone => ?_⟩
  rcases hgone.of_append with ⟨hold, hno⟩ | ⟨e, he⟩
  · -- gone before
    obtain ⟨habs, hget⟩ := hx.gone key hold
    have habs' := absent_move hd habs hk hm hno
    refine ⟨habs', fun d kd hkd hc => ?_⟩
    replace hkd : (s.conns.set c k')[d]? = some kd := hkd
    rcases conns_set_cases hk hkd with ⟨-, rfl⟩ | ⟨-, hkd⟩
    · refine get_move (hd.sync c k hk) hm (hget c k hk) (fun v hv => ?_) hc
      rw [habs.lookup] at hv
      cases hv
    · have hph := hget d kd hkd hc
      simp only [GetPhase, habs.lookup, habs.map] at hph
      have hmap : sv'.map key = none := habs'.map
      simp only [GetPhase, habs'.lookup, hmap]
      exact hph
  · -- gone by this acknowledgement
    obtain ⟨hdel, hp, hidle, rfl⟩ := hm.of_deleted he
    refine ⟨absent_move hd (hx.absent c k key hk hdel (.inr hp)) hk hm (by simp),
      fun d kd hkd hc => ?_⟩
    replace hkd : (s.conns.set c k')[d]? = some kd := hkd
    rcases conns_set_cases hk hkd with ⟨-, rfl⟩ | ⟨hdc, hkd⟩
    · cases hidle.symm.trans hc
    · exact absurd (hx.apart c d k kd key hk hkd hdel (by rw [hc]; rfl)) (Ne.symm hdc)

theorem deletes_step {s' : State} {l : Label} (hd : Data h s) (hx : Deletes h tr s)
    (hg : FlushedDelete s l) (hs : step s l = some (s', es)) :
    Deletes (h.addAll es) (tr ++ es) s' := by
  cases step_cases hs with
  | @connect localBuf sendBuf hl =>
    rw [List.append_nil]
    have habs : ∀ key, Absent h s key →
        Absent h ⟨s.server, s.conns ++ [Conn.new localBuf sendBuf]⟩ key := by
      refine fun key ha => ⟨ha.map, ha.db, fun d kd hkd hkey => ?_⟩
      rcases conns_append hkd with hkd | ⟨rfl, -⟩
      · exact ha.batch d kd hkd hkey
      · rw [(hd.fresh s.conns.length (Nat.le_refl _)).2.1] at hkey
        cases hkey
    refine ⟨fun c d k kd key hk hkd hdel hkey => ?_, fun c k key hk hdel hp => ?_,
      fun key hgone => ⟨habs key (hx.gone key hgone).1, fun d kd hkd hc => ?_⟩⟩
    · rcases conns_append hk with hk | ⟨-, rfl⟩
      · rcases conns_append hkd with hkd | ⟨-, rfl⟩
        · exact hx.apart c d k kd key hk hkd hdel hkey
        · cases hkey
      · cases hdel
    · rcases conns_append hk with hk | ⟨-, rfl⟩
      · exact habs key (hx.absent c k key hk hdel hp)
      · cases hdel
    · rcases conns_append hkd with hkd | ⟨-, rfl⟩
      · exact (hx.gone key hgone).2 d kd hkd hc
      · cases hc
  | conn hl hk hm =>
    subst hl
    exact deletes_move hd hx hg hk hm
  | @ring sv' _ hc ht =>
    obtain ⟨ws, hw⟩ := turn_hist (h := h) ht
    obtain ⟨-, hmap, hdb⟩ := turn_mem ht
    rw [hw]
    have habs : ∀ key, Absent h s key →
        Absent { h with writes := h.writes ++ ws } ⟨sv', s.conns⟩ key :=
      fun key ha => ⟨hmap ▸ ha.map, hdb ▸ ha.db, ha.batch⟩
    refine ⟨hx.apart, fun c k key hk hdel hp => habs key (hx.absent c k key hk hdel hp),
      fun key hgone => ?_⟩
    rcases hgone.of_append with ⟨hold, -⟩ | ⟨c, he⟩
    · obtain ⟨ha, hget⟩ := hx.gone key hold
      refine ⟨habs key ha, fun d kd hkd hc => ?_⟩
      have hph := hget d kd hkd hc
      simpa only [GetPhase, turn_lookup ht, hmap] using hph
    · exfalso
      cases hw' : l.ended? s <;> rw [hw'] at ht <;> cases ht <;> simp at he

theorem deletes_run {mem file : Buf} {db : Store} (hr : Run FlushedDelete mem file db tr s) :
    Deletes (hist tr) tr s := by
  have hI := Steps.invariant
    (I := fun tr s => Data (hist tr) s ∧ Deletes (hist tr) tr s)
    ⟨data_init mem file db, by simp [init], by simp [init], ?_⟩ (fun _ h hp hs => ?_) hr
  · exact hI.2
  · rintro key ⟨tr₁, tr₂, c, he, -⟩
    simp at he
  · rw [hist_append]
    exact ⟨data_step h.1 hp.1 hs, deletes_step h.1 h.2 hp hs⟩

end

/-- **A deleted key is not found**, by any client, until a write of it is handled, whatever is
flushed in between; in every run in which no unflushed key is deleted and requests do not overlap a
`DELETE` of their key. -/
theorem delete_law {mem file : Buf} {db : Store} {tr : List Event} {s : State}
    (hr : Run FlushedDelete mem file db tr s) {m n c d : Nat} {key : Bytes} {v : Option Bytes}
    (hdel : tr[m]? = some (.deleted c key true)) (hget : tr[n]? = some (.got d key v)) (hmn : m < n)
    (hno : ∀ (i e : Nat) (r : Record), m < i → i < n → tr[i]? = some (.handled e r) →
      r.key ≠ key) : v = none := by
  obtain ⟨s₁, l, s₂, hr₁, -, hstep⟩ := Steps.of_event step_events hr hget
  -- the key is gone when the `GET` returns
  have hgone : Gone key (tr.take n) := by
    obtain ⟨hm, hm'⟩ := List.getElem?_eq_some_iff.1 hdel
    have hlt : m < (tr.take n).length := by simp; omega
    refine ⟨(tr.take n).take m, (tr.take n).drop (m + 1), c, ?_, fun e r he => ?_⟩
    · conv_lhs => rw [← List.take_append_drop m (tr.take n), List.drop_eq_getElem_cons hlt]
      rw [List.getElem_take, hm']
    · obtain ⟨i, hi⟩ := List.mem_iff_getElem?.1 he
      rw [List.getElem?_drop, List.getElem?_take] at hi
      split at hi
      · exact hno (m + 1 + i) e r (by omega) (by omega) hi
      · cases hi
  obtain ⟨habs, hphase⟩ := (deletes_run hr₁).gone key hgone
  obtain ⟨c', a, k, k', sv', -, hk, hm⟩ := move_of_event hstep (List.mem_singleton.2 rfl) (by simp)
  obtain ⟨rfl, hc, hp, rfl⟩ := hm.of_got (List.mem_singleton.2 rfl)
  have hph := hphase d k hk hc
  simp only [GetPhase, hp, habs.lookup] at hph
  exact hph.value (by simp)

/-- A client writes and closes; another one deletes the key, and gets nothing. -/
theorem delete_law_flushed :
    ∃ tr s v, Run FlushedDelete Sched.zeros Sched.zeros (fun _ => none) tr s ∧
      tr[2]? = some (.wrote 0 ⟨.put, [1], [10]⟩) ∧ tr[6]? = some (.deleted 1 [1] true) ∧
      tr[7]? = some (.got 1 [1] v) ∧ v = none := by
  have hr : Run FlushedDelete Sched.zeros Sched.zeros (fun _ => none) _ _ :=
    Steps.of_exec_get (Sched.connect 0 0 ++ Sched.connect 1 1 ++ Sched.write 0 ⟨.put, [1], [10]⟩ ++
      Sched.close 0 1 ++ Sched.delete 1 [1] ++ Sched.get 1 [1]) (by decide +kernel)
  exact ⟨_, _, _, hr, rfl, rfl, rfl, delete_law hr (m := 6) (n := 7) rfl rfl (by decide)
    (by intro i e r h1 h2; omega)⟩

/-- A client writes a key and deletes it before the record is flushed: its next `GET` still returns
the value. -/
theorem delete_unflushed_found :
    ¬ ∀ (mem file : Buf) (db : Store) (tr : List Event) (s : State), Run Atomic mem file db tr s →
      ∀ (m n c d : Nat) (key : Bytes) (v : Option Bytes), tr[m]? = some (.deleted c key true) →
        tr[n]? = some (.got d key v) → m < n →
        (∀ (i e : Nat) (r : Record), m < i → i < n → tr[i]? = some (.handled e r) →
          r.key ≠ key) → v = none := by
  intro h
  have hr : Run Atomic Sched.zeros Sched.zeros (fun _ => none) _ _ :=
    Steps.of_exec_get (Sched.connect 0 0 ++ Sched.write 0 ⟨.put, [1], [10]⟩ ++
      Sched.delete 0 [1] ++ Sched.get 0 [1]) (by decide +kernel)
  have hv := h _ _ _ _ _ hr 4 6 0 0 [1] (some [10]) rfl rfl (by decide) (fun i e r h1 h2 he => by
    obtain rfl : i = 5 := by omega
    cases he)
  cases hv

end PMRAccess.Pmr
