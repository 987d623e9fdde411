import Mathlib.Data.List.Induction
import PMRAccess.Pmr.Proof.Data

/-!
# The index

`Index`: every entry of the index is the last record of its key in the chunk of the clerk that
inserted it, and that clerk still holds the chunk. The clerk's batch covers the entries into its
chunk: while the flush loop erases key after key, an entry that is still there has a key the loop
has not come to (`Entry.pending`), so none is left when the chunk goes to the queue.

A `GET` that has found an entry copies from its address without holding anything. `Copies` is what
makes the copy a value of the key, in the runs in which no record is posted over the bytes that a
`GET` is about to copy (`NoOverwrite`); the reply carries this value to the client (`Carries`).
-/

namespace PMRAccess.Pmr

open Lib

/-! ## Moves and the index -/

section
variable {h : History} {sv sv' : Server} {c : Nat} {k k' : Conn} {a : Act} {es : List Event}

/-- A move leaves the index alone, or inserts an entry, or erases one. -/
theorem move_index (hm : Move sv c k a sv' k' es) :
    (sv'.map = sv.map ∧ (h.addAll es).handled = h.handled ∧
      ((∀ it, .flushed c it ∉ es) → (h.addAll es).indexed c = h.indexed c ∧
        ∀ closing tmp j, k.pc ≠ .erase closing tmp j) ∧
      ∀ closing tmp j, k'.pc = .erase closing tmp j → j = 0) ∨
    (∃ key m, k.pc = .insert key m ∧ sv'.map = assign sv.map key (some m) ∧
      es = k.ctl.handled c ∧ k'.pc = .reply) ∨
    ∃ closing tmp j key, k.pc = .erase closing tmp j ∧ k.clerk.keyBatch[j]? = some key ∧
      sv'.map = assign sv.map key none ∧ es = [] ∧
      k' = { k with pc := .erase closing tmp (j + 1) } := by
  cases hm
  case insert key m hp => exact .inr (.inl ⟨key, m, hp, rfl, rfl, rfl⟩)
  case erase closing tmp j key hp hk => exact .inr (.inr ⟨closing, tmp, j, key, hp, hk, rfl, rfl, rfl⟩)
  case enqueue closing tmp i hp hk =>
    refine .inl ⟨rfl, rfl, fun hf => absurd (List.mem_singleton.2 rfl) (hf _), ?_⟩
    cases closing <;> simp
  case scan pc hp hpc =>
    refine .inl ⟨rfl, rfl, fun _ => ⟨rfl, by simp [hp]⟩, ?_⟩
    rcases hpc with ⟨j, rfl⟩ | ⟨-, rfl⟩ <;> simp
  case putBatch hp => exact .inl ⟨rfl, rfl, fun _ => ⟨rfl, by simp [hp]⟩, by simp⟩
  all_goals
    refine .inl ⟨rfl, rfl, fun _ => ⟨rfl, ?_⟩, ?_⟩ <;> intro closing tmp j hj <;>
      simp_all [Conn.request, Conn.prepare, Conn.postRecord]

end

/-! ## The invariant -/

/-- The entry `m` of `key` is record `r`, behind `hs`, of the chunk `i` that clerk `c` holds. -/
structure Entry (h : History) (s : State) (key : Bytes) (m : Meta) (c : Nat) (k : Conn) (i : Nat)
    (r : Record) (hs ts : List Record) : Prop where
  last : lastWrite key h.handled = some (c, r)
  conn : s.conns[c]? = some k
  holds : k.holds = some i
  indexed : h.indexed c = hs ++ r :: ts
  key_eq : r.key = key
  newest : key ∉ ts.map Record.key
  meta_eq : m = Meta.ofMem (maxAsyncSize * i + recordSize hs + sizeofRequest) key.length r.val.length
  pending : ∀ closing tmp j, k.pc = .erase closing tmp j → key ∉ k.clerk.keyBatch.take j

def Index (h : History) (s : State) : Prop :=
  ∀ key m, s.server.map key = some m → ∃ c k i r hs ts, Entry h s key m c k i r hs ts

section
variable {h : History} {s : State} {key : Bytes} {m : Meta} {c d i : Nat} {k k' kd : Conn}
  {r : Record} {hs ts : List Record} {sv' : Server} {a : Act} {es : List Event}

/-- An entry of another clerk. -/
theorem Entry.move_other (he : Entry h s key m d kd i r hs ts) (hdc : d ≠ c)
    (hm : Move s.server c k a sv' k' es)
    (hl : lastWrite key (h.addAll es).handled = some (d, r)) :
    Entry (h.addAll es) ⟨sv', s.conns.set c k'⟩ key m d kd i r hs ts where
  last := hl
  conn := (conns_set_ne hdc).trans he.conn
  holds := he.holds
  indexed := by rw [(move_hist_other (h := h) hm hdc).2.1]; exact he.indexed
  key_eq := he.key_eq
  newest := he.newest
  meta_eq := he.meta_eq
  pending := he.pending

/-- An entry of the clerk that moves without changing the index: it keeps its chunk. -/
theorem Entry.move_self (he : Entry h s key m c k i r hs ts) (hd : Data h s)
    (hm : Move s.server c k a sv' k' es)
    (hh : (h.addAll es).handled = h.handled)
    (hx : (∀ it, .flushed c it ∉ es) → (h.addAll es).indexed c = h.indexed c)
    (hp : ∀ closing tmp j, k'.pc = .erase closing tmp j → j = 0) :
    Entry (h.addAll es) ⟨sv', s.conns.set c k'⟩ key m c k' i r hs ts := by
  have hk := he.conn
  cases move_hand hd.own.size (hd.own.conn c k hk) hm with
  | keep _ _ hk' hf _ =>
    refine ⟨hh ▸ he.last, conns_set_self hk, hk' ▸ he.holds, (hx hf) ▸ he.indexed,
      he.key_eq, he.newest, he.meta_eq, ?_⟩
    intro closing tmp j hj
    rw [hp closing tmp j hj]
    simp
  | give _ _ _ _ hf _ =>
    -- the flush loop is through: no key of the chunk is left in the index
    exfalso
    obtain ⟨closing, tmp, j, -, hpc, hlen, -⟩ := hm.of_flushed (hf ▸ List.mem_singleton.2 rfl)
    obtain ⟨hall, hb, -⟩ := (hd.sync c k hk).of_erase hpc
    apply he.pending closing tmp j hpc
    rw [List.take_of_length_le hlen, hb.keys, ← hall, he.indexed]
    simp [he.key_eq]
  | take _ _ _ _ hpc _ _ =>
    have := he.holds
    rw [Conn.holds, hpc] at this
    cases this
  | drop _ _ hpc ho hzero _ _ =>
    -- the chunk is empty
    exfalso
    have hph := (hd.sync c k hk).phase.of_read hpc
    have hc : k.ctl = .close := Ctl.of_op (hph.op_eq.symm.trans ho)
    simp only [ReadPhase, hc] at hph
    have hnil := recordSize_eq_zero (hph.2.1.head.symm.trans hzero)
    have := he.indexed
    rw [hph.1, hnil] at this
    simp at this

theorem index_insert (hd : Data h s) (hi : Index h s) (hk : s.conns[c]? = some k)
    (hm : Move s.server c k a sv' k' es) {m₀ : Meta} {key₀ : Bytes} (hp : k.pc = .insert key₀ m₀)
    (hmap : sv'.map = assign s.server.map key₀ (some m₀)) (hes : es = k.ctl.handled c)
    (hp' : k'.pc = .reply) : Index (h.addAll es) ⟨sv', s.conns.set c k'⟩ := by
  obtain ⟨r₀, hins, hev⟩ := (hd.sync c k hk).of_insert hp
  have hh' : k'.holds = k.holds := by
    cases move_hand hd.own.size (hd.own.conn c k hk) hm with
    | keep _ _ hh _ _ => exact hh
    | give _ _ _ _ hf _ => simp [hes, hev] at hf
    | take _ _ _ _ hp₁ | drop _ _ hp₁ => simp [hp] at hp₁
  obtain rfl : es = [.handled c r₀] := hes.trans (hev c)
  have hx : (h.addAll [.handled c r₀]).indexed c = h.indexed c ++ [r₀] := by simp [History.add]
  have hlast : ∀ key, lastWrite key (h.addAll [.handled c r₀]).handled =
      if r₀.key = key then some (c, r₀) else lastWrite key h.handled :=
    fun key => lastWrite_snoc key _ _ _
  have hc : (s.conns.set c k')[c]? = some k' := conns_set_self hk
  intro key m hkey
  have hkey : sv'.map key = some m := hkey
  rw [hmap] at hkey
  by_cases hk₀ : key = key₀
  · -- the new entry
    subst hk₀
    rw [assign_self, Option.some.injEq] at hkey
    subst hkey
    obtain ⟨i, -, hhold, hoff⟩ := (hd.own.conn c k hk).exists_chunk (by simp [hp]) (by simp [hp])
      (by simp [hp]) (by simp [hp])
    refine ⟨c, k', i, r₀, h.indexed c, [], ?_, hc, hh' ▸ hhold, hx, hins.key_eq.symm, by simp, ?_,
      by simp [hp']⟩
    · rw [hlast, if_pos hins.key_eq.symm]
    · rw [hins.meta_eq, hoff, hins.key_eq]
  · -- an older one
    rw [assign_of_ne hk₀] at hkey
    obtain ⟨d, kd, i, r, hs, ts, he⟩ := hi key m hkey
    have hne : r₀.key ≠ key := fun h' => hk₀ (hins.key_eq.trans h').symm
    have hl : lastWrite key (h.addAll [.handled c r₀]).handled = some (d, r) := by
      rw [hlast, if_neg hne, he.last]
    by_cases hdc : d = c
    · subst hdc
      obtain rfl := Option.some.inj (he.conn.symm.trans hk)
      refine ⟨d, k', i, r, hs, ts ++ [r₀], hl, hc, hh' ▸ he.holds, ?_, he.key_eq, ?_, he.meta_eq,
        by simp [hp']⟩
      · rw [hx, he.indexed]; simp
      · rw [List.map_append, List.mem_append, not_or]
        exact ⟨he.newest, by simpa using Ne.symm hne⟩
    · exact ⟨d, kd, i, r, hs, ts, he.move_other hdc hm hl⟩

theorem index_erase (hi : Index h s) (hk : s.conns[c]? = some k)
    (hm : Move s.server c k a sv' k' es) {closing : Bool} {tmp : Buf} {j : Nat} {key₀ : Bytes}
    (hp : k.pc = .erase closing tmp j) (hj : k.clerk.keyBatch[j]? = some key₀)
    (hmap : sv'.map = assign s.server.map key₀ none) (hes : es = [])
    (hk' : k' = { k with pc := .erase closing tmp (j + 1) }) :
    Index (h.addAll es) ⟨sv', s.conns.set c k'⟩ := by
  intro key m hkey
  have hkey : sv'.map key = some m := hkey
  rw [hmap] at hkey
  have hk₀ : key ≠ key₀ := by
    rintro rfl
    rw [assign_self] at hkey
    cases hkey
  rw [assign_of_ne hk₀] at hkey
  obtain ⟨d, kd, i, r, hs, ts, he⟩ := hi key m hkey
  by_cases hdc : d = c
  · subst hdc
    obtain rfl := Option.some.inj (he.conn.symm.trans hk)
    have hpend := he.pending closing tmp j hp
    refine ⟨d, k', i, r, hs, ts, by rw [hes]; exact he.last, conns_set_self hk, ?_,
      by rw [hes]; exact he.indexed, he.key_eq, he.newest, he.meta_eq, ?_⟩
    · have := he.holds
      rw [Conn.holds, hp] at this
      rw [hk']
      exact this
    · -- the loop has come one key further, and this was not it
      intro closing' tmp' j' hj'
      rw [hk'] at hj' ⊢
      obtain ⟨-, -, rfl⟩ := Pc.erase.inj hj'
      rw [List.take_add_one, hj]
      simp [hpend, hk₀]
  · exact ⟨d, kd, i, r, hs, ts, he.move_other hdc hm (by rw [hes]; exact he.last)⟩

theorem index_move (hd : Data h s) (hi : Index h s) (hk : s.conns[c]? = some k)
    (hm : Move s.server c k a sv' k' es) : Index (h.addAll es) ⟨sv', s.conns.set c k'⟩ := by
  rcases move_index (h := h) hm with ⟨hmap, hh, hx, hp⟩ | ⟨key, m, hp, hmap, hes, hp'⟩ |
    ⟨closing, tmp, j, key, hp, hj, hmap, hes, hk'⟩
  · intro key m hkey
    have hkey : sv'.map key = some m := hkey
    obtain ⟨d, kd, i, r, hs, ts, he⟩ := hi key m (hmap ▸ hkey)
    by_cases hdc : d = c
    · subst hdc
      obtain rfl := Option.some.inj (he.conn.symm.trans hk)
      exact ⟨d, k', i, r, hs, ts, he.move_self hd hm hh (fun hf => (hx hf).1) hp⟩
    · exact ⟨d, kd, i, r, hs, ts, he.move_other hdc hm (hh ▸ he.last)⟩
  · exact index_insert hd hi hk hm hp hmap hes hp'
  · exact index_erase hi hk hm hp hj hmap hes hk'

theorem index_step {s' : State} {l : Label} (hd : Data h s) (hi : Index h s)
    (hs : step s l = some (s', es)) : Index (h.addAll es) s' := by
  cases step_cases hs with
  | connect hl =>
    intro key m hkey
    obtain ⟨d, kd, i, r, hs, ts, he⟩ := hi key m hkey
    exact ⟨d, kd, i, r, hs, ts, he.last, append_some he.conn, he.holds, he.indexed, he.key_eq,
      he.newest, he.meta_eq, he.pending⟩
  | conn hl hk hm => exact index_move hd hi hk hm
  | ring hc ht =>
    obtain ⟨ws, hw⟩ := turn_hist (h := h) ht
    rw [hw]
    intro key m hkey
    have hkey : s.server.map key = some m := (turn_mem ht).2.1 ▸ hkey
    obtain ⟨d, kd, i, r, hs, ts, he⟩ := hi key m hkey
    exact ⟨d, kd, i, r, hs, ts, he.last, he.conn, he.holds, he.indexed, he.key_eq, he.newest,
      he.meta_eq, he.pending⟩

theorem index_run {P : State → Label → Prop} (hP : ∀ s l, P s l → Fit s l) {mem file : Buf}
    {db : Store} {tr : List Event} (hr : Run P mem file db tr s) :
    Data (hist tr) s ∧ Index (hist tr) s :=
  Run.invariant (I := fun h s => Data h s ∧ Index h s)
    ⟨data_init mem file db, fun _ _ hm => by simp [init] at hm⟩
    (fun h hp hs => ⟨data_step h.1 (hP _ _ hp) hs, index_step h.1 h.2 hs⟩) hr

/-- The bytes an entry points to: its key and its record's value, inside the chunk. -/
theorem Entry.bytes (he : Entry h s key m c k i r hs ts) (hd : Data h s) :
    m.valueSize = r.val.length ∧ r ∈ h.chunk c ∧ maxAsyncSize * i ≤ m.memAddr ∧
      m.memAddr + key.length + m.valueSize ≤ maxAsyncSize * (i + 1) ∧
      s.server.mem.read m.memAddr key.length = key ∧
      s.server.mem.read (m.memAddr + key.length) m.valueSize = r.val := by
  obtain ⟨us, hus⟩ := (hd.sync c k he.conn).indexed.1
  have hch : h.chunk c = hs ++ r :: (ts ++ us) := by rw [← hus, he.indexed]; simp
  have hb := (hd.sync c k he.conn).bound
  have hmem := hd.mem c k i he.conn he.holds
  rw [hch] at hmem hb
  obtain ⟨hkey, hval, -⟩ := read_value hmem
  have hm := he.meta_eq
  have hke := he.key_eq
  subst hm hke
  refine ⟨rfl, by simp [hch], ?_, ?_, hkey, hval⟩
  · simp only [Meta.ofMem, Meta.memAddr]
    omega
  · simp only [recordSize_append, recordSize_cons, Record.size] at hb
    simp only [Meta.ofMem, Meta.memAddr, Nat.mul_add]
    omega

end

/-- **No entry of the index dangles.** In every run of requests that fit, an entry of the index
points into the chunk of the clerk that inserted it (the one that handled the last write of the
key), which has not enqueued it, and the bytes there are the key and the value that was written. -/
theorem index_no_dangling {mem file : Buf} {db : Store} {tr : List Event} {s : State}
    (hr : Run Fit mem file db tr s) {key : Bytes} {m : Meta} (hm : s.server.map key = some m) :
    ∃ (c : Nat) (r : Record) (k : Conn) (i : Nat), lastWrite key (hist tr).handled = some (c, r) ∧
      s.conns[c]? = some k ∧ k.holds = some i ∧ maxAsyncSize * i ≤ m.memAddr ∧
      m.memAddr + key.length + m.valueSize ≤ maxAsyncSize * (i + 1) ∧
      s.server.mem.read m.memAddr (key.length + m.valueSize) = key ++ r.val ∧
      m.valueSize = r.val.length ∧ r.key = key ∧ (c, r) ∈ (hist tr).written := by
  obtain ⟨hd, hi⟩ := index_run (fun _ _ h => h) hr
  obtain ⟨c, k, i, r, hs, ts, he⟩ := hi key m hm
  obtain ⟨hsz, hmem, hlo, hhi, hkey, hval⟩ := he.bytes hd
  refine ⟨c, r, k, i, he.last, he.conn, he.holds, hlo, hhi, ?_, hsz, he.key_eq, ?_⟩
  · rw [Buf.read_add, hkey, hval]
  · apply (mem_itemsOf c).1
    rw [hist_ordered tr c]
    exact List.mem_append_right _ hmem

/-- Two clients; the flush of the first has erased one of its two keys. -/
theorem index_no_dangling_flush :
    ∃ tr s m, Run Fit Sched.zeros Sched.zeros (fun _ => none) tr s ∧
      s.server.map [1] = none ∧ s.server.map [3] = some m ∧
      s.server.mem.read m.memAddr (1 + m.valueSize) = [3, 30] := by
  have hr : Run Fit Sched.zeros Sched.zeros (fun _ => none) _ _ :=
    Steps.of_exec_get (Sched.connect 0 0 ++ Sched.connect 1 1 ++ Sched.write 0 ⟨.put, [1], [10]⟩ ++
      Sched.write 1 ⟨.put, [2], [20]⟩ ++ Sched.write 0 ⟨.put, [3], [30]⟩ ++
      (Sched.close 0 2).take 4) (by decide)
  obtain ⟨c, r, k, i, hlast, -, -, -, -, hbytes, -⟩ := @index_no_dangling _ _ _ _ _ hr [3] _ rfl
  have hr' : some (0, ⟨.put, [3], [30]⟩) = some (c, r) := hlast
  cases hr'
  exact ⟨_, _, _, hr, rfl, rfl, hbytes⟩

/-! ## Copies -/

/-- The bytes of the value that a `GET` between its two steps is about to copy: address and size. -/
def Conn.copying? (k : Conn) : Option (Nat × Nat) :=
  match k.pc with
  | .copy key m => some (m.memAddr + key.length, m.valueSize)
  | _ => none

/-- The bytes of the chunks that a step posts a record to. -/
def Label.posting? (s : State) : Label → Option (Nat × Nat)
  | .conn c .client =>
    match s.conns[c]? with
    | some k =>
      match k.ctl, k.pc with
      | .post r, .poll => some (k.client.writeAddr, r.totalLen)
      | _, _ => none
    | none => none
  | _ => none

/-- No record is posted over bytes that a `GET` is about to copy. -/
def NoOverwrite (s : State) (l : Label) : Prop :=
  ∀ w ∈ l.posting? s, ∀ k ∈ s.conns, ∀ v ∈ k.copying?, v.1 + v.2 ≤ w.1 ∨ w.1 + w.2 ≤ v.1

instance (s : State) (l : Label) : Decidable (NoOverwrite s l) :=
  inferInstanceAs (Decidable (∀ w ∈ l.posting? s, ∀ k ∈ s.conns, ∀ v ∈ k.copying?,
    v.1 + v.2 ≤ w.1 ∨ w.1 + w.2 ≤ v.1))

/-- The runs in which requests fit and copies are not overwritten. -/
def Undisturbed (s : State) (l : Label) : Prop := l.Fits ∧ NoOverwrite s l

instance (s : State) (l : Label) : Decidable (Undisturbed s l) :=
  inferInstanceAs (Decidable (l.Fits ∧ NoOverwrite s l))

/-- What a `GET` is about to copy is a value written for its key. -/
def Copies (h : History) (s : State) : Prop :=
  ∀ (d : Nat) (kd : Conn) (key : Bytes) (m : Meta), s.conns[d]? = some kd → kd.pc = .copy key m →
    ∃ e r, (e, r) ∈ h.written ∧ r.Fits ∧ r.key = key ∧
      s.server.mem.read (m.memAddr + key.length) m.valueSize = r.val

section
variable {h : History} {s : State} {c : Nat} {k k' : Conn} {sv sv' : Server} {a : Act}
  {es : List Event}

theorem written_mono {x : Nat × Record} (hx : x ∈ h.written) (es : List Event) :
    x ∈ (h.addAll es).written := by
  induction es generalizing h with
  | nil => exact hx
  | cons e es ih =>
    apply ih
    cases e <;> simp [History.add, hx]

/-- A `GET` comes to its copy by finding an entry. -/
theorem Move.of_copy (hm : Move sv c k a sv' k' es) {key : Bytes} {m : Meta}
    (hp : k'.pc = .copy key m) : sv' = sv ∧ sv.map key = some m := by
  cases hm
  case findHit hm => cases hp; exact ⟨rfl, hm⟩
  case enqueue closing _ _ _ _ => cases closing <;> cases hp
  case scan pc _ hpc => rcases hpc with ⟨j, rfl⟩ | ⟨-, rfl⟩ <;> cases hp
  all_goals simp_all [Conn.request, Conn.prepare, Conn.postRecord]

theorem copies_move (hd : Data h s) (hi : Index h s) (ho : h.Ordered) (hc : Copies h s)
    (hg : NoOverwrite s (.conn c a)) (hk : s.conns[c]? = some k)
    (hm : Move s.server c k a sv' k' es) : Copies (h.addAll es) ⟨sv', s.conns.set c k'⟩ := by
  intro d kd key m hkd hp
  have hkd : (s.conns.set c k')[d]? = some kd := hkd
  rcases conns_set_cases hk hkd with ⟨-, rfl⟩ | ⟨-, hkd⟩
  · obtain ⟨rfl, hmap⟩ := hm.of_copy hp
    obtain ⟨e, ke, i, r, hs, ts, he⟩ := hi key m hmap
    obtain ⟨-, hmem, -, -, -, hval⟩ := he.bytes hd
    refine ⟨e, r, written_mono ?_ es, (hd.sync e ke he.conn).fits r hmem, he.key_eq, hval⟩
    apply (mem_itemsOf e).1
    rw [ho e]
    exact List.mem_append_right _ hmem
  · obtain ⟨e, r, hw, hfit, hkey, hval⟩ := hc d kd key m hkd hp
    refine ⟨e, r, written_mono hw es, hfit, hkey, ?_⟩
    rcases move_mem hm with ⟨hmem, -⟩ | ⟨r₀, rfl, hctl, hpc, -, hmem⟩
    · rw [hmem]
      exact hval
    · -- the guard keeps the record off the copy
      have hdis := hg (k.client.writeAddr, r₀.totalLen) (by simp [Label.posting?, hk, hctl, hpc]) kd
        (List.mem_of_getElem? hkd) (m.memAddr + key.length, m.valueSize)
        (by simp [Conn.copying?, hp])
      rw [hmem, Buf.read_write_of_disjoint (by simpa using hdis)]
      exact hval

theorem copies_step {s' : State} {l : Label} (hd : Data h s) (hi : Index h s) (ho : h.Ordered)
    (hc : Copies h s) (hg : NoOverwrite s l) (hs : step s l = some (s', es)) :
    Copies (h.addAll es) s' := by
  cases step_cases hs with
  | connect hl =>
    intro d kd key m hkd hp
    rcases conns_append hkd with hkd | ⟨-, rfl⟩
    · exact hc d kd key m hkd hp
    · cases hp
  | conn hl hk hm =>
    subst hl
    exact copies_move hd hi ho hc hg hk hm
  | ring hr ht =>
    intro d kd key m hkd hp
    obtain ⟨e, r, hw, hfit, hkey, hval⟩ := hc d kd key m hkd hp
    refine ⟨e, r, written_mono hw es, hfit, hkey, ?_⟩
    show Buf.read _ _ _ = r.val
    rw [(turn_mem ht).1]
    exact hval

theorem copies_run {mem file : Buf} {db : Store} {tr : List Event}
    (hr : Run Undisturbed mem file db tr s) : Copies (hist tr) s := by
  have hI := Run.invariant (I := fun h s => (Data h s ∧ Index h s) ∧ h.Ordered ∧ Copies h s)
    ⟨⟨data_init mem file db, fun _ _ hm => by simp [init] at hm⟩, fun _ => rfl,
      fun _ _ _ _ hk => by simp [init] at hk⟩
    (fun h hp hs => ⟨⟨data_step h.1.1 hp.1 hs, index_step h.1.1 h.1.2 hs⟩, h.2.1.addAll _,
      copies_step h.1.1 h.1.2 h.2.1 h.2.2 hp.2 hs⟩) hr
  exact hI.2.2

end

/-! ## The reply of a hit -/

/-- What the client's `GET` has copied from a chunk and not yet returned: key and value. -/
def Event.hits (c : Nat) (o : Option (Bytes × Bytes)) : Event → Option (Bytes × Bytes)
  | .hit d key v => if d = c then some (key, v) else o
  | .got d _ _ => if d = c then none else o
  | _ => o

def hitOf (c : Nat) (tr : List Event) : Option (Bytes × Bytes) :=
  tr.foldl (fun o e => e.hits c o) none

/-- The reply has the value that was copied. -/
def Carries (o : Option (Bytes × Bytes)) (k : Conn) : Prop :=
  ∀ p ∈ o, k.ctl = .get p.1 ∧ p.2.length < 2 ^ 32 ∧
    ((k.pc = .reply ∧ Answers k.clerk.sendBuf .ok p.2) ∨
      (k.pc = .poll ∧ Answers k.client.localBuf .ok p.2))

section
variable {c : Nat} {k k' : Conn} {sv sv' : Server} {a : Act} {es : List Event}
  {o : Option (Bytes × Bytes)}

/-- A connection that neither has nor waits for the reply of a `GET` has no hit to return. -/
theorem Carries.none (h : Carries o k)
    (hn : ∀ key, k.ctl = .get key → k.pc ≠ .reply ∧ k.pc ≠ .poll) : o = none := by
  cases o with
  | none => rfl
  | some p =>
    obtain ⟨hc, -, ⟨hp, -⟩ | ⟨hp, -⟩⟩ := h p rfl
    · exact absurd hp (hn _ hc).1
    · exact absurd hp (hn _ hc).2

theorem carries_move {rs hs : List Record} (hy : Sync rs hs k) (hm : Move sv c k a sv' k' es)
    (hlen : ∀ key m, k.pc = .copy key m → m.valueSize < 2 ^ 32) (h : Carries o k) :
    Carries (es.foldl (fun o e => e.hits c o) o) k' := by
  cases hm
  case copy key m hp =>
    have hph := hy.phase
    simp only [Phase, hp] at hph
    intro p hp'
    obtain rfl : _ = p := by simpa [Event.hits] using hp'
    exact ⟨hph.1, by simpa using hlen key m hp, .inl ⟨rfl, Answers.setReply _ _ _⟩⟩
  case reply hp =>
    intro p hp'
    obtain ⟨hc, hl, ⟨-, ha⟩ | ⟨hpoll, -⟩⟩ := h p hp'
    · exact ⟨hc, hl, .inr ⟨rfl, ha.post hl _⟩⟩
    · rw [hp] at hpoll
      cases hpoll
  case got => simp [Carries, Event.hits]
  case insert hp =>
    obtain ⟨r, hins, hev⟩ := hy.of_insert hp
    rw [hev, h.none (by simp [hp])]
    simp [Carries, Event.hits]
  all_goals
    rw [h.none (by simp_all)]
    simp [Carries, Event.hits]

theorem hits_other (hm : Move sv c k a sv' k' es) {d : Nat} (hd : d ≠ c) :
    es.foldl (fun o e => e.hits d o) o = o := by
  cases hm
  case insert => unfold Ctl.handled; split <;> rfl
  all_goals simp [Event.hits, Ne.symm hd]

theorem hits_turn {w : Option (Sqe × Int)} (ht : Turn sv w sv' es) (d : Nat) :
    es.foldl (fun o e => e.hits d o) o = o := by
  cases ht <;> rfl

end

/-- What every client's `GET` has copied. -/
def Carried (tr : List Event) (s : State) : Prop :=
  (∀ c, s.conns.length ≤ c → hitOf c tr = none) ∧
    ∀ (c : Nat) (k : Conn), s.conns[c]? = some k → Carries (hitOf c tr) k

section
variable {mem file : Buf} {db : Store} {tr : List Event} {s : State}

theorem carried_run (hr : Run Undisturbed mem file db tr s) : Carried tr s := by
  refine Steps.invariant (I := Carried) ⟨fun _ _ => rfl, by simp [init]⟩ ?_ hr
  intro tr s l s' es hr hi _ hs
  have happ (c : Nat) : hitOf c (tr ++ es) = es.foldl (fun o e => e.hits c o) (hitOf c tr) :=
    List.foldl_append ..
  unfold Carried
  simp only [happ]
  cases step_cases hs with
  | connect hl =>
    refine ⟨fun d hd => hi.1 d (by simp at hd; omega), fun d kd hkd => ?_⟩
    rcases conns_append hkd with hkd | ⟨hd, rfl⟩
    · exact hi.2 d kd hkd
    · rw [hi.1 d (le_of_eq hd.symm)]
      simp [Carries]
  | @conn c a k k' _ _ hl hk hm =>
    have hc := (List.getElem?_eq_some_iff.1 hk).1
    refine ⟨fun d hd => ?_, fun d kd hkd => ?_⟩
    · have hd' : s.conns.length ≤ d := by simpa using hd
      rw [hits_other hm (by omega)]
      exact hi.1 d hd'
    · rcases conns_set_cases hk hkd with ⟨rfl, rfl⟩ | ⟨hdc, hkd⟩
      · refine carries_move ((data_run (fun _ _ h => h.1) hr).sync d k hk) hm
          (fun key m hp => ?_) (hi.2 d k hk)
        obtain ⟨e, r, -, hfit, -, hval⟩ := copies_run hr d k key m hk hp
        rw [← Buf.length_read s.server.mem (m.memAddr + key.length) m.valueSize, hval]
        exact hfit.bounds.2.2.1
      · rw [hits_other hm hdc]
        exact hi.2 d kd hkd
  | ring hr' ht =>
    refine ⟨fun d hd => ?_, fun d kd hkd => ?_⟩
    · rw [hits_turn ht]
      exact hi.1 d hd
    · rw [hits_turn ht]
      exact hi.2 d kd hkd

theorem exists_of_hitOf {c : Nat} {key v : Bytes} (h : hitOf c tr = some (key, v)) :
    ∃ n : Nat, tr[n]? = some (Event.hit c key v) := by
  induction tr using List.reverseRecOn with
  | nil => cases h
  | append_singleton tr e ih =>
    have hlater : hitOf c tr = some (key, v) → ∃ n : Nat, (tr ++ [e])[n]? = some (.hit c key v) :=
      fun h' => (ih h').imp fun _ hn => append_some hn
    rw [hitOf, List.foldl_append] at h
    cases e with
    | hit d key' v' =>
      by_cases hd : d = c
      · obtain ⟨rfl, rfl⟩ : key' = key ∧ v' = v := by simpa [Event.hits, hd] using h
        exact ⟨tr.length, by simp [hd]⟩
      · exact hlater (by simpa [hitOf, Event.hits, hd] using h)
    | got d key' o =>
      by_cases hd : d = c
      · simp [Event.hits, hd] at h
      · exact hlater (by simpa [hitOf, Event.hits, hd] using h)
    | _ => exact hlater h

/-- The value copied is one written for the key. -/
theorem hit_written (hr : Run Undisturbed mem file db tr s) {n c : Nat} {key v : Bytes}
    (he : tr[n]? = some (.hit c key v)) :
    ∃ d r, (d, r) ∈ (hist (tr.take n)).written ∧ r.key = key ∧ r.val = v := by
  obtain ⟨s₁, l, s₂, hr₁, -, hstep⟩ := Steps.of_event step_events hr he
  obtain ⟨c', a, k, k', sv', -, hk, hm⟩ := move_of_event hstep (List.mem_singleton.2 rfl) (by simp)
  obtain ⟨m, rfl, hp, rfl⟩ := hm.of_hit (List.mem_singleton.2 rfl)
  obtain ⟨d, r, hw, -, hkey, hval⟩ := copies_run hr₁ c k key m hk hp
  exact ⟨d, r, hw, hkey, hval.symm⟩

/-- The value of a hit is the one that `SendGet` returns. -/
theorem got_of_hit (hr : Run Undisturbed mem file db tr s) {n c : Nat} {key key' v : Bytes}
    {o : Option Bytes} (he : tr[n]? = some (.got c key o))
    (hh : hitOf c (tr.take n) = some (key', v)) : key' = key ∧ o = some v := by
  obtain ⟨s₁, l, s₂, hr₁, -, hstep⟩ := Steps.of_event step_events hr he
  obtain ⟨c', a, k, k', sv', -, hk, hm⟩ := move_of_event hstep (List.mem_singleton.2 rfl) (by simp)
  obtain ⟨rfl, hc, hp, rfl⟩ := hm.of_got (List.mem_singleton.2 rfl)
  obtain ⟨hc', hlen, ⟨hp', -⟩ | ⟨-, ha⟩⟩ := (carried_run hr₁).2 c k hk _ hh
  · rw [hp] at hp'
    cases hp'
  · obtain ⟨hok, -, hval⟩ := ha.reply hlen
    exact ⟨Ctl.get.inj (hc'.symm.trans hc), by simp [hok, hval]⟩

/-- **A `GET` that hits the index returns a value written for its key**, in every run in which no
record is posted over bytes that a `GET` between its `find` and its copy is about to copy: the value
it copies is one, and `SendGet` returns the value copied. -/
theorem get_hit_written (hr : Run Undisturbed mem file db tr s) :
    (∀ (n c : Nat) (key v : Bytes), tr[n]? = some (.hit c key v) →
      ∃ d r, (d, r) ∈ (hist (tr.take n)).written ∧ r.key = key ∧ r.val = v) ∧
    ∀ (n c : Nat) (key key' v : Bytes) (o : Option Bytes), tr[n]? = some (.got c key o) →
      hitOf c (tr.take n) = some (key', v) → key' = key ∧ o = some v ∧
      ∃ d r, (d, r) ∈ (hist (tr.take n)).written ∧ r.key = key ∧ r.val = v := by
  refine ⟨fun n c key v he => hit_written hr he, fun n c key key' v o he hh => ?_⟩
  obtain ⟨rfl, ho⟩ := got_of_hit hr he hh
  obtain ⟨s₁, l, s₂, hr₁, -⟩ := Steps.of_event step_events hr he
  obtain ⟨m, hm⟩ := exists_of_hitOf hh
  obtain ⟨d, r, hw, hkey, hval⟩ := hit_written hr₁ hm
  refine ⟨rfl, ho, d, r, ?_, hkey, hval⟩
  have := written_mono hw ((tr.take n).drop m)
  rwa [← hist_append, List.take_append_drop] at this

theorem get_hit_written_other :
    ∃ tr s, Run Undisturbed Sched.zeros Sched.zeros (fun _ => none) tr s ∧
      tr[5]? = some (.hit 1 [1] [10]) ∧ tr[6]? = some (.got 1 [1] (some [10])) ∧
      hitOf 1 (tr.take 6) = some ([1], [10]) ∧
      ∃ d r, (d, r) ∈ (hist (tr.take 6)).written ∧ r.key = [1] ∧ r.val = [10] := by
  have hr : Run Undisturbed Sched.zeros Sched.zeros (fun _ => none) _ _ :=
    Steps.of_exec_get (Sched.connect 0 0 ++ Sched.connect 1 1 ++ Sched.write 0 ⟨.put, [1], [10]⟩ ++
      Sched.get 1 [1]) (by decide)
  exact ⟨_, _, hr, rfl, rfl, rfl,
    ((get_hit_written hr).2 6 1 [1] [1] [10] (some [10]) rfl rfl).2.2⟩

end

/-- A `GET` whose chunk is flushed, freed, given to another client and written again between its two
steps: it returns bytes of another key's value. -/
theorem get_hit_overwritten :
    ¬ ∀ (mem file : Buf) (db : Store) (tr : List Event) (s : State), Run Fit mem file db tr s →
      ∀ (n c : Nat) (key v : Bytes), tr[n]? = some (.hit c key v) →
        ∃ d r, (d, r) ∈ (hist (tr.take n)).written ∧ r.key = key ∧ r.val = v := by
  intro h
  have hr : Run Fit Sched.zeros Sched.zeros (fun _ => none) _ _ :=
    Steps.of_exec_get (Sched.connect 0 0 ++ Sched.connect 1 1 ++ Sched.write 0 ⟨.put, [1], [10]⟩ ++
      (Sched.get 1 [1]).take 3 ++ Sched.close 0 1 ++ Sched.drain 0 10 ++ Sched.connect 2 0 ++
      Sched.write 2 ⟨.put, [2], [20]⟩ ++ Sched.clerk 1 1) (by decide)
  obtain ⟨d, r, hw, hkey, hval⟩ := h _ _ _ _ _ hr 11 1 [1] [20] rfl
  have hw' : (d, r) ∈ [(0, (⟨.put, [1], [10]⟩ : Record)), (2, ⟨.put, [2], [20]⟩)] := hw
  simp only [List.mem_cons, Prod.mk.injEq, List.not_mem_nil, or_false] at hw'
  rcases hw' with ⟨-, rfl⟩ | ⟨-, rfl⟩
  · exact absurd hval (by decide)
  · exact absurd hkey (by decide)

end PMRAccess.Pmr
