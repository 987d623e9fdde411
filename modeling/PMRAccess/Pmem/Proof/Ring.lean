import PMRAccess.Lib.Ring
import PMRAccess.Pmem.Proof.Replies

/-!
# The ring of a PMem client

`SendWrite` puts a record behind the last one; where it would reach the end of the region, at the
start. The lengths are those the code computes in `uint16_t`, whatever the key and the value are. So
the ring starts over early, from `PMEM_BUFSIZE - 65535` on (`writeAddr_place`), and the library's
window applies: `ringOk_posts` for the calls of one client, `ringOk_run` for the connections of a run.
-/

namespace PMRAccess.Pmem

open Lib

/-- From here on a record may not fit behind the cursor. -/
def ringWindow : Nat := pmemBufSize - 65535

/-- What is expected of the ranges of a client's records: they are inside the region, and those of
records that are close to each other do not overlap. -/
structure RingOk (xs : List Span) : Prop where
  inside : ∀ x ∈ xs, x.stop ≤ pmemBufSize
  windowed : Ring.Windowed ringWindow xs

/-- The ranges of `SendWrite` calls, one after the other. -/
def Conn.posts (k : Conn) : List Record → List Span
  | [] => []
  | r :: rs => ⟨k.writeAddr r, r.totalLen⟩ :: (k.sendWrite r).posts rs

/-- The ranges a connection's records have been posted to. -/
def spans (c : Nat) (tr : List Event) : List Span :=
  tr.filterMap fun
    | .posted d r off => if d = c then some ⟨off, r.totalLen⟩ else none
    | _ => none

section
variable {k : Conn} {r : Record}

theorem totalLen_le (r : Record) : r.totalLen ≤ 65535 := by
  unfold Record.totalLen
  omega

theorem writeAddr_place (r : Record) (hb : k.bufHead < pmemBufSize) :
    Ring.Place ringWindow k.bufHead r.totalLen (k.writeAddr r) (k.sendWrite r).bufHead ∧
      k.writeAddr r + r.totalLen < pmemBufSize ∧ (k.sendWrite r).bufHead < pmemBufSize := by
  have hn := totalLen_le r
  have hnext : (k.sendWrite r).bufHead = (k.writeAddr r + r.totalLen) % 2 ^ 64 := rfl
  have h64 : (k.bufHead + r.totalLen) % 2 ^ 64 = k.bufHead + r.totalLen := by
    unfold pmemBufSize at hb
    omega
  rw [hnext]
  unfold Conn.writeAddr
  rw [h64]
  rcases Nat.lt_or_ge (k.bufHead + r.totalLen) pmemBufSize with hfit | hfull
  · rw [if_neg (Nat.not_le.2 hfit), h64]
    exact ⟨.behind, hfit, hfit⟩
  · have hend : ringWindow ≤ k.bufHead ∧ 65535 < pmemBufSize := by
      unfold ringWindow
      unfold pmemBufSize at hfull ⊢
      omega
    rw [if_pos hfull, Nat.zero_add, Nat.mod_eq_of_lt (by omega)]
    exact ⟨.early hend.1, by omega, by omega⟩

/-- The ranges are laid by the ring of the library, and inside the region. -/
theorem laid_posts (hb : k.bufHead < pmemBufSize) (rs : List Record) :
    (∃ c', Ring.Laid ringWindow k.bufHead (k.posts rs) c') ∧
      ∀ x ∈ k.posts rs, x.stop ≤ pmemBufSize := by
  induction rs generalizing k with
  | nil => exact ⟨⟨_, rfl⟩, by simp [Conn.posts]⟩
  | cons r rs ih =>
    obtain ⟨hp, hin, hb'⟩ := writeAddr_place r hb
    obtain ⟨⟨c', hl⟩, hrest⟩ := ih hb'
    refine ⟨⟨c', _, hp, hl⟩, ?_⟩
    intro x hx
    rcases List.mem_cons.1 hx with rfl | hx
    · exact le_of_lt hin
    · exact hrest x hx

theorem ringOk_posts (hb : k.bufHead < pmemBufSize) (rs : List Record) : RingOk (k.posts rs) := by
  obtain ⟨⟨_, hl⟩, hin⟩ := laid_posts hb rs
  exact ⟨hin, hl.windowed⟩

end

/-! ## Runs -/

section
variable {P : State → Label → Prop} {s s' : State} {sv sv' : Server} {c d : Nat} {k k' : Conn}
  {a : Act} {tr es : List Event} {l : Label} {db : Store}

theorem spans_append (c : Nat) (tr tr' : List Event) :
    spans c (tr ++ tr') = spans c tr ++ spans c tr' := List.filterMap_append

/-- Only calls post. -/
theorem spans_clientStep (h : clientStep c k = some (k', es)) : spans d es = [] := by
  unfold clientStep at h
  cases hc : k.ctl <;> simp only [hc] at h <;> cases h <;> rfl

theorem spans_call (x : Call) :
    (∃ r, k.call c x = (k.sendWrite r, [.posted c r (k.writeAddr r)])) ∨
      ((k.call c x).1.bufHead = k.bufHead ∧ (k.call c x).2 = []) := by
  cases x with
  | write r => exact .inl ⟨r, rfl⟩
  | get key | delete key | close => exact .inr ⟨rfl, rfl⟩

/-- What a connection posts in one step, and its cursor then. -/
theorem spans_connStep (h : connStep sv c k a = some (sv', k', es)) :
    (∃ r, k' = k.sendWrite r ∧ es = [.posted c r (k.writeAddr r)]) ∨
      (k'.bufHead = k.bufHead ∧ ∀ d, spans d es = []) := by
  have hm := connStep_cases h
  cases a with
  | call x =>
    cases hm with
    | call hc hp hx =>
      rcases spans_call (k := k) (c := c) x with ⟨r, hr⟩ | ⟨h1, h2⟩
      · rw [hr] at hx
        cases hx
        exact .inl ⟨r, rfl, rfl⟩
      · rw [hx] at h1 h2
        obtain rfl : es = [] := h2
        exact .inr ⟨h1, fun _ => rfl⟩
  | client =>
    simp only [connStep] at h
    split at h
    · obtain ⟨⟨k1, es1⟩, hs, he⟩ := Option.map_eq_some_iff.1 h
      cases he
      cases hm
      exact .inr ⟨rfl, fun d => spans_clientStep hs⟩
    · cases h
  | clerk =>
    refine .inr ?_
    cases hm with
    | read hp hr =>
      refine ⟨?_, fun _ => rfl⟩
      simp only [readStep] at hr
      split at hr <;> cases hr <;> rfl
    | dbPut | dbHit | dbMiss | dbDelete | reply => exact ⟨rfl, fun _ => rfl⟩

/-- The records of each connection are laid by the ring. -/
structure Rings (tr : List Event) (s : State) : Prop where
  laid : ∀ c k, s.conns[c]? = some k →
    k.bufHead < pmemBufSize ∧ Ring.Laid ringWindow 0 (spans c tr) k.bufHead
  inside : ∀ c, ∀ x ∈ spans c tr, x.stop ≤ pmemBufSize
  fresh : ∀ c, s.conns.length ≤ c → spans c tr = []

theorem rings_connect (h : Rings tr s) {localBuf clerkBuf region : Buf} :
    Rings tr { s with conns := s.conns ++ [⟨localBuf, clerkBuf, region, 0, .idle, .poll⟩] } := by
  refine ⟨?_, h.inside, ?_⟩
  · intro c k hk
    rcases append_cases hk with hk | ⟨rfl, rfl⟩
    · exact h.laid c k hk
    · rw [h.fresh _ (Nat.le_refl _)]
      exact ⟨(by decide : 0 < pmemBufSize), rfl⟩
  · intro c hc
    refine h.fresh c ?_
    simp only [List.length_append] at hc
    omega

/-- A record goes where the ring puts it; the other connections' rings stay. -/
theorem rings_post (h : Rings tr s) (hk : s.conns[c]? = some k) (r : Record) :
    Rings (tr ++ [.posted c r (k.writeAddr r)]) ⟨sv', s.conns.set c (k.sendWrite r)⟩ := by
  obtain ⟨hb, hl⟩ := h.laid c k hk
  obtain ⟨hp, hin, hb'⟩ := writeAddr_place r hb
  have hself : spans c [.posted c r (k.writeAddr r)] = [⟨k.writeAddr r, r.totalLen⟩] := by
    simp [spans]
  have hother : ∀ d, d ≠ c → spans d [.posted c r (k.writeAddr r)] = [] := by
    intro d hd
    simp [spans, Ne.symm hd]
  refine ⟨?_, ?_, ?_⟩
  · intro d kd hkd
    rw [spans_append]
    rcases set_cases hk hkd with ⟨rfl, rfl⟩ | ⟨hd, hkd⟩
    · rw [hself]
      exact ⟨hb', hl.snoc hp⟩
    · rw [hother d hd, List.append_nil]
      exact h.laid d kd hkd
  · intro d x hx
    rw [spans_append] at hx
    rcases List.mem_append.1 hx with hx | hx
    · exact h.inside d x hx
    · by_cases hd : d = c
      · subst hd
        rw [hself] at hx
        obtain rfl := List.mem_singleton.1 hx
        exact le_of_lt hin
      · rw [hother d hd] at hx
        cases hx
  · intro d hd
    rw [List.length_set] at hd
    have hc : c < s.conns.length := (List.getElem?_eq_some_iff.1 hk).1
    rw [spans_append, hother d (by omega), h.fresh d hd]
    rfl

theorem rings_step (h : Rings tr s) (hs : step s l = some (s', es)) : Rings (tr ++ es) s' := by
  rcases step_split hs with ⟨_, _, _, -, rfl, rfl⟩ | ⟨c, a, k, k', sv', -, hk, hm, rfl⟩
  · rw [List.append_nil]
    exact rings_connect h
  rcases spans_connStep hm with ⟨r, rfl, rfl⟩ | ⟨hb, he⟩
  · exact rings_post h hk r
  · have htr : ∀ d, spans d (tr ++ es) = spans d tr := by
      intro d
      rw [spans_append, he, List.append_nil]
    refine ⟨?_, fun d => htr d ▸ h.inside d, ?_⟩
    · intro d kd hkd
      rw [htr]
      rcases set_cases hk hkd with ⟨rfl, rfl⟩ | ⟨-, hkd⟩
      · exact hb ▸ h.laid d k hk
      · exact h.laid d kd hkd
    · intro d hd
      rw [List.length_set] at hd
      rw [htr]
      exact h.fresh d hd

theorem rings_run (h : Run P db tr s) : Rings tr s :=
  h.invariant (I := Rings) ⟨by simp [init], by simp [spans], fun _ _ => rfl⟩
    fun _ hi _ hs => rings_step hi hs

theorem ringOk_run (h : Run P db tr s) (c : Nat) : RingOk (spans c tr) := by
  have hr := rings_run h
  refine ⟨hr.inside c, ?_⟩
  cases hk : s.conns[c]? with
  | none =>
    rw [hr.fresh c (List.getElem?_eq_none_iff.1 hk)]
    intro i j x y _ hx
    simp at hx
  | some k => exact (hr.laid c k hk).2.windowed

end

/-- **The ring of a PMem client**: whatever `SendWrite` is called with, the records are posted
inside the region and do not overlap within the window; so it is for the calls of a new client, and
for each connection of every run of the system. -/
theorem ring_records :
    (∀ (k : Conn) (rs : List Record), k.bufHead = 0 → RingOk (k.posts rs)) ∧
    ∀ (P : State → Label → Prop) (db : Store) (tr : List Event) (s : State), Run P db tr s →
      ∀ c, RingOk (spans c tr) := by
  refine ⟨?_, ?_⟩
  · intro k rs hk
    exact ringOk_posts (hk ▸ by decide) rs
  · intro P db tr s h c
    exact ringOk_run h c

/-- Two records of a connection, one behind the other. -/
theorem ring_records_two : ∃ tr s, Run (fun _ _ => True) (fun _ => none) tr s ∧
    spans 0 tr = [⟨0, 11⟩, ⟨11, 10⟩] ∧ RingOk (spans 0 tr) ∧
    RingOk ((⟨fun _ => 0, fun _ => 0, fun _ => 0, 0, .idle, .poll⟩ : Conn).posts
      [⟨.put, [97], [98, 99]⟩]) := by
  obtain ⟨tr, s, hr, hs⟩ : ∃ tr s, Run (fun _ _ => True) (fun _ => none) tr s ∧
      spans 0 tr = [⟨0, 11⟩, ⟨11, 10⟩] :=
    ⟨_, _, Steps.of_exec_get [.connect (fun _ => 0) (fun _ => 0) (fun _ => 0),
      .conn 0 (.call (.write ⟨.put, [97], [98, 99]⟩)), .conn 0 .clerk, .conn 0 .clerk,
      .conn 0 .clerk, .conn 0 .client, .conn 0 (.call (.write ⟨.update, [97], [98]⟩))]
      (by decide +kernel), by decide +kernel⟩
  exact ⟨tr, s, hr, hs, ring_records.2 _ _ tr s hr 0, ring_records.1 _ _ rfl⟩

end PMRAccess.Pmem
