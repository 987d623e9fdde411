import PMRAccess.Group.Proof.Commit

/-!
# What clients see of the batches

A `GET` reads `db_` outside of the queue: it finds the last request of its key that is stored
(`Flow.lookup`), which need not be in the log yet (`read_logged_iff`). A batch carries keys and values
only, so a `DELETE` in it is the put of an empty value, and what a read finds is that of the requests
one by one only if the last of its key is no `DELETE` (`batch_delete_law`). The reply to a logged
request depends on the role of its clerk (`reply_ok_iff`).
-/

namespace PMRAccess.Group

open Lib

/-! ## The last request of a key -/

/-- The last request of the key in a list of requests. -/
def lastReq (key : Bytes) (ps : List (Nat × Req)) : Option Req :=
  (ps.reverse.find? (·.2.key = key)).map (·.2)

section
variable {key : Bytes} {ps qs : List (Nat × Req)} {q : Req}

theorem lastReq_append (key : Bytes) (ps qs : List (Nat × Req)) :
    lastReq key (ps ++ qs) = (lastReq key qs).or (lastReq key ps) := by
  simp only [lastReq, List.reverse_append, List.find?_append]
  cases qs.reverse.find? (·.2.key = key) <;> simp

theorem lastReq_eq_none : lastReq key ps = none ↔ ∀ p ∈ ps, p.2.key ≠ key := by
  simp [lastReq]

theorem lastReq_snoc (key : Bytes) (ps : List (Nat × Req)) (c : Nat) (q : Req) :
    lastReq key (ps ++ [(c, q)]) = if q.key = key then some q else lastReq key ps := by
  rw [lastReq_append]
  by_cases h : q.key = key <;> simp [lastReq, h]

theorem key_of_lastReq (h : lastReq key ps = some q) : q.key = key := by
  obtain ⟨p, hp, rfl⟩ := Option.map_eq_some_iff.1 h
  simpa using List.find?_some hp

/-- The last request of a key, with no other of the key behind it. -/
theorem lastReq_split (h : lastReq key ps = some q) :
    ∃ hs c ts, ps = hs ++ (c, q) :: ts ∧ ∀ p ∈ ts, p.2.key ≠ key := by
  induction ps using List.reverseRecOn with
  | nil => simp [lastReq] at h
  | append_singleton ps p ih =>
    obtain ⟨c, q'⟩ := p
    rw [lastReq_snoc] at h
    split at h
    · cases h
      exact ⟨ps, c, [], rfl, by simp⟩
    · rename_i hne
      obtain ⟨hs, d, ts, rfl, hts⟩ := ih h
      refine ⟨hs, d, ts ++ [(c, q')], by simp, fun p hp => ?_⟩
      rcases List.mem_append.1 hp with hp | hp
      · exact hts p hp
      · rw [List.mem_singleton.1 hp]
        exact hne

/-- The puts of the requests leave every key with its last value. -/
theorem putPairs_apply (db : Store) (ps : List (Nat × Req)) (key : Bytes) :
    putPairs db (ps.map fun p => p.2.pair) key =
      match lastReq key ps with
      | some q => some q.val
      | none => db key := by
  induction ps using List.reverseRecOn with
  | nil => rfl
  | append_singleton ps p ih =>
    obtain ⟨c, q⟩ := p
    rw [List.map_append, putPairs_append, lastReq_snoc]
    by_cases hk : q.key = key
    · simp [putPairs, Req.pair, Store.put, hk, assign_self]
    · simp [putPairs, Req.pair, Store.put, hk, assign_of_ne (Ne.symm hk)]
      exact ih

end

section
variable {db : Store} {h : History} {s : State}

/-- What a read of `db_` finds. -/
theorem Flow.lookup (hf : Flow db h s) (key : Bytes) :
    s.server.db key =
      match lastReq key h.stored with
      | some q => some q.val
      | none => db key := by
  rw [hf.stored, hf.inOrder.applied, putPairs_apply]

/-- Between its two `PutBatch` calls a leader's batch is stored and not logged; at all other times
what is stored is logged. -/
theorem Flow.window (hf : Flow db h s) :
    (h.stored = h.committed ∧
        ∀ (c : Nat) (k : Conn) (last : Nat), s.conns[c]? = some k → k.pc ≠ .putLog last) ∨
      ∃ (c : Nat) (k : Conn) (last : Nat) (ps : List (Nat × Req)), s.conns[c]? = some k ∧
        k.pc = .putLog last ∧ h.batches.getLast? = some ps ∧ h.stored = h.committed ++ ps := by
  by_cases hw : ∃ (c : Nat) (k : Conn) (last : Nat), s.conns[c]? = some k ∧ k.pc = .putLog last
  · obtain ⟨c, k, last, hk, hp⟩ := hw
    have hst := hf.stage c k hk
    rw [hp] at hst
    obtain ⟨-, hcur, ha, hlg⟩ := hst
    refine .inr ⟨c, k, last, _, hk, hp, hcur.1, ?_⟩
    have hb := take_succ_of_getLast? hcur.1 hlg
    rw [History.stored, ha, ← hlg, hb, List.flatten_append, History.committed]
    simp
  · refine .inl ⟨?_, fun c k last hk hp => hw ⟨c, k, last, hk, hp⟩⟩
    have hlen : h.applied.length = h.logged.length := by
      rcases hf.progress with ⟨hlg, ha⟩ | ⟨-, -, ha | ⟨-, hw'⟩⟩
      · omega
      · exact ha
      · exact absurd hw' hw
    rw [History.stored, History.committed, hlen]

end

/-! ## Reads and the log -/

/-- If the value of the key in `db_` is that of a `PUT` or `UPDATE`, its record is in the log. -/
def ReadLogged (h : History) (key : Bytes) : Prop :=
  ∀ r, lastReq key h.stored = some (.write r) →
    ∃ hs c ts, h.stored = hs ++ (c, .write r) :: ts ∧ (∀ p ∈ ts, p.2.key ≠ key) ∧
      hs.length < h.committed.length

/-- A leader is between its two `PutBatch` calls, with a batch whose last request of the key is a
`PUT` or `UPDATE`. -/
def InWindow (h : History) (s : State) (key : Bytes) : Prop :=
  ∃ (c : Nat) (k : Conn) (last : Nat) (ps : List (Nat × Req)) (r : Record), s.conns[c]? = some k ∧
    k.pc = .putLog last ∧ h.batches.getLast? = some ps ∧ lastReq key ps = some (.write r)

section
variable {db : Store} {h : History} {s : State} {key : Bytes}

/-- The place of the last request of a key is unique. -/
theorem last_unique {xs xs' ys ys' : List (Nat × Req)} {x x' : Nat × Req}
    (he : xs ++ x :: ys = xs' ++ x' :: ys') (hx : x.2.key = key) (hx' : x'.2.key = key)
    (hy : ∀ p ∈ ys, p.2.key ≠ key) (hy' : ∀ p ∈ ys', p.2.key ≠ key) : xs.length = xs'.length := by
  induction xs generalizing xs' with
  | nil =>
    cases xs' with
    | nil => rfl
    | cons p xs' =>
      obtain ⟨-, rfl⟩ := List.cons.inj he
      exact absurd hx' (hy x' (by simp))
  | cons p xs ih =>
    cases xs' with
    | nil =>
      obtain ⟨-, rfl⟩ := List.cons.inj he
      exact absurd hx (hy' x (by simp))
    | cons p' xs' =>
      have := ih (List.cons.inj he).2
      simp [this]

theorem readLogged_iff (hf : Flow db h s) : ReadLogged h key ↔ ¬ InWindow h s key := by
  rcases hf.window with ⟨he, hno⟩ | ⟨c, k, last, ps, hk, hp, hlast, he⟩
  · -- all that is stored is logged
    refine iff_of_true (fun r hr => ?_) ?_
    · obtain ⟨hs, d, ts, hsplit, hts⟩ := lastReq_split hr
      refine ⟨hs, d, ts, hsplit, hts, ?_⟩
      rw [← he, hsplit]
      simp
    · rintro ⟨c, k, last, -, -, hk, hp, -⟩
      exact hno c k last hk hp
  · have hst : lastReq key h.stored = (lastReq key ps).or (lastReq key h.committed) := by
      rw [he, lastReq_append]
    have hwin : InWindow h s key ↔ ∃ r, lastReq key ps = some (.write r) := by
      constructor
      · rintro ⟨-, -, -, ps', r, -, -, hlast', hr⟩
        rw [hlast, Option.some.injEq] at hlast'
        exact ⟨r, hlast' ▸ hr⟩
      · rintro ⟨r, hr⟩
        exact ⟨c, k, last, ps, r, hk, hp, hlast, hr⟩
    rw [hwin]
    rcases hps : lastReq key ps with _ | ⟨r | key'⟩ <;> rw [hps] at hst
    · -- the batch under way has no request of the key
      refine iff_of_true (fun r hr => ?_) (by simp)
      obtain ⟨hs, d, ts, hsplit, hts⟩ := lastReq_split (hst ▸ hr : lastReq key h.committed = _)
      refine ⟨hs, d, ts ++ ps, by simp [he, hsplit], fun p hp => ?_, by simp [hsplit]⟩
      rcases List.mem_append.1 hp with hp | hp
      · exact hts p hp
      · exact lastReq_eq_none.1 hps p hp
    · -- its last one is what the read finds
      refine iff_of_false (fun hlog => ?_) (by simp)
      obtain ⟨hs, d, ts, hsplit, hts, hlt⟩ := hlog r hst
      obtain ⟨hs', d', ts', hsplit', hts'⟩ := lastReq_split hps
      have hkey := key_of_lastReq hps
      have heq : hs ++ (d, .write r) :: ts = (h.committed ++ hs') ++ (d', .write r) :: ts' := by
        rw [← hsplit, he, hsplit', List.append_assoc]
      have := last_unique heq hkey hkey hts hts'
      simp only [List.length_append] at this
      omega
    · -- the value is a `DELETE`'s
      refine iff_of_true (fun r hr => ?_) (by simp)
      rw [hst] at hr
      cases hr

end

section
variable {batch : WriteBatch} {db : Store} {file : Buf} {tr : List Event} {s : State}

/-- The bytes of a record that is in the log. -/
theorem Logged.bytes_of_read {h : History} {key : Bytes} {r : Record} (hl : Logged file h s)
    (hf : Flow db h s) (hread : ReadLogged h key) (hr : lastReq key h.stored = some (.write r)) :
    ∃ xs ys, h.logged.flatten = xs ++ (Req.write r).bytes ++ ys := by
  obtain ⟨hs, c, ts, hst, -, hlt⟩ := hread r hr
  have hc : h.committed = (hs ++ (c, .write r) :: ts).take h.committed.length :=
    hst ▸ List.prefix_iff_eq_take.1 hf.inOrder.committed
  obtain ⟨n, hn⟩ : ∃ n, h.committed.length - hs.length = n + 1 :=
    ⟨h.committed.length - hs.length - 1, by omega⟩
  rw [List.take_append, List.take_of_length_le (Nat.le_of_lt hlt), hn, List.take_succ_cons] at hc
  refine ⟨hs.flatMap fun p => p.2.bytes, (ts.take n).flatMap fun p => p.2.bytes, ?_⟩
  rw [hl.bytes, hc, List.flatMap_append, List.flatMap_cons, List.append_assoc]

/-- **Reads and the log.** A `GET` about to read `db_` finds the value of the last request of its key
that is stored; if that is a `PUT` or `UPDATE`, its record is in the log exactly if no leader is
between its two `PutBatch` calls with a batch whose last request of the key is a `PUT` or `UPDATE`.
The log is what the batches logged leave, and a record that is in it has its bytes there. -/
theorem read_logged_iff (hr : Run Fit batch db file tr s) {c : Nat} {k : Conn} {key : Bytes}
    (hk : s.conns[c]? = some k) (hp : k.pc = .dbGet key) :
    (∃ s', step s (.conn c .clerk) = some (s', [.readDb c key (s.server.db key)])) ∧
    (s.server.db key =
      match lastReq key (hist tr).stored with
      | some q => some q.val
      | none => db key) ∧
    (ReadLogged (hist tr) key ↔ ¬ InWindow (hist tr) s key) ∧
    Logged file (hist tr) s ∧
    (ReadLogged (hist tr) key → ∀ r, lastReq key (hist tr).stored = some (.write r) →
      ∃ xs ys, (hist tr).logged.flatten = xs ++ (Req.write r).bytes ++ ys) := by
  obtain ⟨-, hf⟩ := flow_run hr
  have hl := logged_run hr
  refine ⟨?_, hf.lookup key, readLogged_iff hf, hl, fun hread r => hl.bytes_of_read hf hread⟩
  simp [step, hk, connStep, clerkStep, hp]

/-- A `GET` while no batch is under way. -/
theorem read_logged_idle :
    ∃ tr s, Sched.Runs Fit tr s ∧ (s.conns[1]?.map Conn.pc) = some (.dbGet [1]) ∧
      (ReadLogged (hist tr) [1] ↔ ¬ InWindow (hist tr) s [1]) ∧
      Logged Sched.zeros (hist tr) s := by
  have hr : Sched.Runs Fit _ _ := Steps.of_exec_get (Sched.connect 2 ++
    Sched.push 0 (.write ⟨.put, [1], [10]⟩) ++ Sched.lead 0 ++ Sched.finish 0 1 ++
    (Sched.get 1 [1]).take 2) (by decide +kernel)
  obtain ⟨-, -, hiff, hlog, -⟩ := read_logged_iff (c := 1) hr rfl rfl
  exact ⟨_, _, hr, rfl, hiff, hlog⟩

/-- A `GET` between the two `PutBatch` calls returns to its client with nothing in the log. -/
theorem read_unlogged :
    ∃ tr s, Sched.Runs Fit tr s ∧ tr[4]? = some (.readDb 1 [1] (some [10])) ∧
      tr[6]? = some (.got 1 [1] (some [10])) ∧
      lastReq [1] (hist (tr.take 4)).stored = some (.write ⟨.put, [1], [10]⟩) ∧
      (hist (tr.take 4)).committed = [] ∧ (hist tr).logged = [] ∧
      ¬ ReadLogged (hist (tr.take 4)) [1] := by
  have hr : Sched.Runs Fit _ _ := Steps.of_exec_get (Sched.connect 2 ++
    Sched.push 0 (.write ⟨.put, [1], [10]⟩) ++ Sched.clerk 0 4 ++ Sched.get 1 [1])
    (by decide +kernel)
  refine ⟨_, _, hr, rfl, rfl, rfl, rfl, rfl, fun hlog => ?_⟩
  obtain ⟨hs, d, ts, -, -, hlt⟩ := hlog ⟨.put, [1], [10]⟩ rfl
  exact absurd hlt (Nat.not_lt_zero _)

end

/-! ## `DELETE` in a batch -/

/-- One request on its own: a `DELETE` removes its key. -/
def Req.exec (db : Store) : Req → Store
  | write r => db.put r.key r.val
  | delete key => db.delete key

/-- Requests one by one. -/
def execAll (db : Store) (ps : List (Nat × Req)) : Store := ps.foldl (fun db p => p.2.exec db) db

/-- No key has a `DELETE` as its last request in the batch. -/
def NoLastDelete (ps : List (Nat × Req)) : Prop := ∀ key key', lastReq key ps ≠ some (.delete key')

section
variable {ps qs : List (Nat × Req)}

theorem execAll_append (db : Store) (ps qs : List (Nat × Req)) :
    execAll db (ps ++ qs) = execAll (execAll db ps) qs := by simp [execAll]

theorem execAll_apply (db : Store) (ps : List (Nat × Req)) (key : Bytes) :
    execAll db ps key =
      match lastReq key ps with
      | some (.write r) => some r.val
      | some (.delete _) => none
      | none => db key := by
  induction ps using List.reverseRecOn with
  | nil => rfl
  | append_singleton ps p ih =>
    obtain ⟨c, q⟩ := p
    rw [execAll_append, lastReq_snoc]
    by_cases hk : q.key = key
    · cases q <;> simp only [Req.key] at hk <;> subst hk <;>
        simp [execAll, Req.exec, Store.put, Store.delete, Req.key, assign_self]
    · rw [if_neg hk, ← ih]
      cases q <;> exact assign_of_ne (Ne.symm hk) _ _

/-- The puts of requests leave a key as the requests one by one do exactly if its last request is no
`DELETE`. -/
theorem putPairs_eq_execAll_key (db : Store) (ps : List (Nat × Req)) (key : Bytes) :
    putPairs db (ps.map fun p => p.2.pair) key = execAll db ps key ↔
      ∀ key', lastReq key ps ≠ some (.delete key') := by
  rw [putPairs_apply, execAll_apply]
  rcases lastReq key ps with _ | ⟨r | key'⟩ <;> simp [Req.val]

theorem putPairs_eq_execAll (db : Store) (ps : List (Nat × Req)) :
    putPairs db (ps.map fun p => p.2.pair) = execAll db ps ↔ NoLastDelete ps :=
  funext_iff.trans (forall_congr' (putPairs_eq_execAll_key db ps))

/-- Without a `DELETE` that is the last of its key, each one has a write of its key behind it. -/
theorem NoLastDelete.overwritten (h : NoLastDelete ps) {c : Nat} {key : Bytes}
    (hd : (c, .delete key) ∈ ps) :
    ∃ hs ts d r, ps = hs ++ (c, .delete key) :: ts ∧ (d, .write r) ∈ ts ∧ r.key = key := by
  obtain ⟨q, hl⟩ := Option.ne_none_iff_exists'.1 fun hn => lastReq_eq_none.1 hn _ hd rfl
  obtain ⟨hs, d, ts, rfl, hts⟩ := lastReq_split hl
  cases q with
  | delete key' => exact absurd hl (h key key')
  | write r =>
    have hmem : (c, .delete key) ∈ hs := by
      rcases List.mem_append.1 hd with hd | hd
      · exact hd
      · rcases List.mem_cons.1 hd with hd | hd
        · cases hd
        · exact absurd rfl (hts _ hd)
    obtain ⟨hs₁, hs₂, rfl⟩ := List.append_of_mem hmem
    exact ⟨hs₁, hs₂ ++ (d, .write r) :: ts, d, r, by simp, by simp, key_of_lastReq hl⟩

theorem NoLastDelete.flatten {pss : List (List (Nat × Req))} (h : ∀ ps ∈ pss, NoLastDelete ps) :
    NoLastDelete pss.flatten := by
  induction pss with
  | nil => intro key key' hl; simp [lastReq] at hl
  | cons ps pss ih =>
    intro key key' hl
    rw [List.flatten_cons, lastReq_append] at hl
    rcases hq : lastReq key pss.flatten with _ | q
    · rw [hq] at hl
      exact h ps (by simp) key key' hl
    · rw [hq] at hl
      exact ih (fun ps hps => h ps (by simp [hps])) key key' (hq.trans hl)

end

section
variable {batch : WriteBatch} {db : Store} {file : Buf} {tr : List Event} {s : State}

theorem addAll_batches (h : History) (es : List Event) : h.batches <+: (h.addAll es).batches := by
  induction es generalizing h with
  | nil => exact List.prefix_rfl
  | cons e es ih =>
    have he : h.batches <+: (h.add e).batches := by
      cases e <;> simp [History.add]
    exact he.trans (ih (h.add e))

theorem hist_take_batches (tr : List Event) (n : Nat) :
    (hist (tr.take n)).batches <+: (hist tr).batches := by
  have := addAll_batches (hist (tr.take n)) (tr.drop n)
  rwa [← hist_append, List.take_append_drop] at this

theorem Move.of_readDb {c d : Nat} {k k' : Conn} {a : Act} {sv' : Server} {w : Wake}
    {es : List Event} {key : Bytes} {v : Option Bytes} (hm : Move s c k a sv' k' w es)
    (he : .readDb d key v ∈ es) : d = c ∧ k.pc = .dbGet key ∧ v = s.server.db key := by
  cases hm
  case dbHit hp hv | dbMiss hp hv =>
    simp only [List.mem_singleton, Event.readDb.injEq] at he
    obtain ⟨rfl, rfl, rfl⟩ := he
    exact ⟨rfl, hp, hv.symm⟩
  case push => cases hr : k.ctl.req? <;> simp [Ctl.pushed, hr] at he
  all_goals simp at he

theorem Move.of_deleted {c d : Nat} {k k' : Conn} {a : Act} {sv' : Server} {w : Wake}
    {es : List Event} {key : Bytes} {ok : Bool} (hm : Move s c k a sv' k' w es)
    (he : .deleted d key ok ∈ es) :
    d = c ∧ k.pc = .poll ∧ k.ctl = .delete key ∧ ok = replyOk k.localBuf := by
  cases hm
  case deleted hc hp =>
    simp only [List.mem_singleton, Event.deleted.injEq] at he
    obtain ⟨rfl, rfl, rfl⟩ := he
    exact ⟨rfl, hp, hc, rfl⟩
  case push => cases hr : k.ctl.req? <;> simp [Ctl.pushed, hr] at he
  all_goals simp at he

theorem Flow.executes {h : History} (hf : Flow db h s)
    (hall : ∀ ps ∈ h.batches, NoLastDelete ps) : NoLastDelete h.stored ∧
      s.server.db = execAll db h.stored := by
  have hno : NoLastDelete h.stored :=
    NoLastDelete.flatten fun ps hps => hall ps (List.mem_of_mem_take hps)
  refine ⟨hno, ?_⟩
  rw [hf.stored, hf.inOrder.applied]
  exact (putPairs_eq_execAll db _).2 hno

/-- Behind a `DELETE` and no write of the key. -/
theorem lastReq_delete {key : Bytes} (hs : List (Nat × Req)) {ts : List (Nat × Req)} (d : Nat)
    (hts : ∀ p ∈ ts, ∀ r, p.2 = .write r → r.key ≠ key) :
    ∃ key', lastReq key (hs ++ (d, .delete key) :: ts) = some (.delete key') := by
  rw [← List.singleton_append, ← List.append_assoc, lastReq_append, lastReq_snoc]
  rcases hl : lastReq key ts with _ | ⟨r | key'⟩
  · exact ⟨key, by simp [Req.key]⟩
  · obtain ⟨hs', c, ts', rfl, -⟩ := lastReq_split hl
    exact absurd (key_of_lastReq hl) (hts (c, .write r) (by simp) r rfl)
  · exact ⟨key', rfl⟩

/-- A read of `db_` in a run finds what is stored by then. -/
theorem read_of_event (hr : Run Fit batch db file tr s) {n c : Nat} {key : Bytes}
    {v : Option Bytes} (he : tr[n]? = some (.readDb c key v)) :
    ∃ s₁, Flow db (hist (tr.take n)) s₁ ∧ v = s₁.server.db key := by
  obtain ⟨s₁, d, a, k, sv', k', w, hr₁, hk, hm⟩ := move_of_event hr he
  exact ⟨s₁, (flow_run hr₁).2, (hm.of_readDb (List.mem_singleton.2 rfl)).2.2⟩

/-- A `DELETE` that has returned is stored. -/
theorem stored_of_deleted (hr : Run Fit batch db file tr s) {n c : Nat} {key : Bytes} {ok : Bool}
    (he : tr[n]? = some (.deleted c key ok)) :
    (c, .delete key) ∈ (hist (tr.take n)).stored := by
  obtain ⟨s₁, d, a, k, sv', k', w, hr₁, hk, hm⟩ := move_of_event hr he
  obtain ⟨hi₁, hf₁⟩ := flow_run hr₁
  obtain ⟨rfl, hp, hc, -⟩ := hm.of_deleted (List.mem_singleton.2 rfl)
  have hq : k.ctl.req? = some (.delete key) := by rw [hc]; rfl
  obtain ⟨hlast, hall⟩ := hf₁.committed_of_answered hi₁ hk hq (.inr hp)
  have hmem := List.mem_of_getLast? hlast
  rw [← hall, mem_itemsOf] at hmem
  exact hf₁.inOrder.committed.subset hmem

/-- **`DELETE` in batches.** A batch has the effect of its requests one by one exactly if no key's
last request in it is a `DELETE`. A read finds what the stored requests one by one leave exactly if
the last of its key is no `DELETE`: a `DELETE` that has returned is stored, and behind a `DELETE` and
no write of its key a read finds the empty value. In runs whose batches all have the condition the
database is that of the stored requests one by one, also in every read, and behind every `DELETE`
that has returned a write of its key is stored. -/
theorem batch_delete_law (hr : Run Fit batch db file tr s) :
    (∀ (c : Nat) (k : Conn) (last : Nat), s.conns[c]? = some k → k.pc = .putDb last →
      ∃ ps s', (hist tr).batches.getLast? = some ps ∧
        step s (.conn c .clerk) = some (s', [.applied (ps.map fun p => p.2.pair)]) ∧
        (s'.server.db = execAll s.server.db ps ↔ NoLastDelete ps)) ∧
    (∀ (n c : Nat) (key : Bytes) (v : Option Bytes), tr[n]? = some (.readDb c key v) →
      (v = execAll db (hist (tr.take n)).stored key ↔
        ∀ key', lastReq key (hist (tr.take n)).stored ≠ some (.delete key'))) ∧
    (∀ (n c : Nat) (key : Bytes) (ok : Bool), tr[n]? = some (.deleted c key ok) →
      (c, .delete key) ∈ (hist (tr.take n)).stored) ∧
    (∀ (n c d : Nat) (key : Bytes) (v : Option Bytes) (hs ts : List (Nat × Req)),
      tr[n]? = some (.readDb c key v) →
      (hist (tr.take n)).stored = hs ++ (d, .delete key) :: ts →
      (∀ p ∈ ts, ∀ r, p.2 = .write r → r.key ≠ key) → v = some []) ∧
    ((∀ ps ∈ (hist tr).batches, NoLastDelete ps) →
      s.server.db = execAll db (hist tr).stored ∧
      (∀ (n c : Nat) (key : Bytes) (v : Option Bytes), tr[n]? = some (.readDb c key v) →
        v = execAll db (hist (tr.take n)).stored key) ∧
      ∀ (n c : Nat) (key : Bytes) (ok : Bool), tr[n]? = some (.deleted c key ok) →
        ∃ hs ts d r, (hist (tr.take n)).stored = hs ++ (c, .delete key) :: ts ∧
          (d, .write r) ∈ ts ∧ r.key = key) := by
  obtain ⟨hi, hf⟩ := flow_run hr
  have hbefore (hall : ∀ ps ∈ (hist tr).batches, NoLastDelete ps) (n : Nat) :
      ∀ ps ∈ (hist (tr.take n)).batches, NoLastDelete ps :=
    fun ps hps => hall ps ((hist_take_batches tr n).subset hps)
  refine ⟨fun c k last hk hp => ?_, fun n c key v he => ?_, fun n c key ok he => ?_,
    fun n c d key v hs ts he hsplit hts => ?_,
    fun hall => ⟨(hf.executes hall).2, fun n c key v he => ?_, fun n c key ok he => ?_⟩⟩
  · have hst := hf.stage c k hk
    rw [hp] at hst
    obtain ⟨-, hcur, -⟩ := hst
    have hpairs : s.server.batch.pairs =
        ((hist tr).pending.take (hist tr).inBatch).map fun p => p.2.pair := by
      rw [hcur.2.pairs, List.map_map]
      rfl
    refine ⟨_, ⟨{ s.server with db := putPairs s.server.db s.server.batch.pairs },
      s.conns.set c { k with pc := .putLog last }⟩, hcur.1, ?_, ?_⟩
    · simp [step, hk, connStep, clerkStep, hp, putBatch_eq_putPairs, hpairs, Wake.apply]
    · rw [← putPairs_eq_execAll s.server.db, hpairs]
  · obtain ⟨s₁, hf₁, rfl⟩ := read_of_event hr he
    rw [hf₁.stored, hf₁.inOrder.applied]
    exact putPairs_eq_execAll_key db _ key
  · exact stored_of_deleted hr he
  · obtain ⟨s₁, hf₁, rfl⟩ := read_of_event hr he
    obtain ⟨key', hl⟩ := lastReq_delete hs d hts
    rw [hf₁.lookup, hsplit, hl]
    rfl
  · obtain ⟨s₁, hf₁, rfl⟩ := read_of_event hr he
    rw [(hf₁.executes (hbefore hall n)).2]
  · obtain ⟨s₁, d, a, k, sv', k', w, hr₁, -⟩ := move_of_event hr he
    obtain ⟨-, hf₁⟩ := flow_run hr₁
    exact (hf₁.executes (hbefore hall n)).1.overwritten (stored_of_deleted hr he)

/-- A `DELETE` and a `PUT` of the same key in one batch, in that order, with a `GET` behind it; and a
`DELETE` that is alone in its batch, with a `GET` behind it. -/
theorem batch_delete_law_two :
    (∃ tr s, Sched.Runs Fit tr s ∧ tr[9]? = some (.deleted 0 [1] false) ∧
      tr[10]? = some (.readDb 0 [1] (some [20])) ∧
      s.server.db = execAll (fun _ => none) (hist tr).stored ∧
      some [20] = execAll (fun _ => none) (hist (tr.take 10)).stored [1] ∧
      ∃ hs ts d r, (hist (tr.take 9)).stored = hs ++ (0, .delete [1]) :: ts ∧
        (d, .write r) ∈ ts ∧ r.key = [1]) ∧
    ∃ tr s v, Sched.Runs Fit tr s ∧ tr[7]? = some (.deleted 0 [1] false) ∧
      tr[8]? = some (.readDb 0 [1] v) ∧ (0, .delete [1]) ∈ (hist (tr.take 7)).stored ∧
      (v = execAll (fun _ => none) (hist (tr.take 8)).stored [1] ↔
        ∀ key', lastReq [1] (hist (tr.take 8)).stored ≠ some (.delete key')) ∧ v = some [] := by
  constructor
  · obtain ⟨tr, s, hr, hb, hdel, hread⟩ : ∃ tr s, Sched.Runs Fit tr s ∧
        (hist tr).batches = [[(0, .delete [1]), (1, .write ⟨.put, [1], [20]⟩)]] ∧
        tr[9]? = some (.deleted 0 [1] false) ∧ tr[10]? = some (.readDb 0 [1] (some [20])) :=
      ⟨_, _, Steps.of_exec_get (Sched.connect 2 ++ Sched.push 0 (.delete [1]) ++ Sched.clerk 0 1 ++
        Sched.push 1 (.write ⟨.put, [1], [20]⟩) ++ Sched.clerk 1 1 ++ Sched.clerk 0 4 ++
        Sched.finish 0 2 ++ Sched.get 0 [1]) (by decide +kernel), by decide +kernel,
        by decide +kernel, by decide +kernel⟩
    have hall : ∀ ps ∈ (hist tr).batches, NoLastDelete ps := by
      intro ps hps key key'
      rw [hb, List.mem_singleton] at hps
      rw [hps]
      by_cases hk : [1] = key <;> simp [lastReq, Req.key, hk]
    obtain ⟨hdb, hreads, hdels⟩ := (batch_delete_law hr).2.2.2.2 hall
    exact ⟨tr, s, hr, hdel, hread, hdb, hreads 10 0 [1] _ hread, hdels 9 0 [1] false hdel⟩
  · obtain ⟨tr, s, hr, hst, hdel, hread⟩ : ∃ tr s, Sched.Runs Fit tr s ∧
        (hist (tr.take 8)).stored = [(0, .delete [1])] ∧
        tr[7]? = some (.deleted 0 [1] false) ∧ tr[8]? = some (.readDb 0 [1] (some [])) :=
      ⟨_, _, Steps.of_exec_get (Sched.connect 1 ++ Sched.push 0 (.delete [1]) ++ Sched.lead 0 ++
        Sched.finish 0 1 ++ Sched.get 0 [1]) (by decide +kernel), by decide +kernel,
        by decide +kernel, by decide +kernel⟩
    obtain ⟨-, hiff, hdels, hempty, -⟩ := batch_delete_law hr
    exact ⟨tr, s, _, hr, hdel, hread, hdels 7 0 [1] false hdel, hiff 8 0 [1] _ hread,
      hempty 8 0 0 [1] _ [] [] hread hst (by simp)⟩

/-- A `DELETE` that has returned, in the batch of another client's `PUT`, and a `GET` behind it that
finds its key. -/
theorem deleted_key_found :
    ∃ tr s, Sched.Runs Fit tr s ∧ tr[4]? = some (.applied [([2], [20]), ([1], [])]) ∧
      tr[12]? = some (.deleted 1 [1] true) ∧ tr[15]? = some (.got 0 [1] (some [])) ∧
      (hist tr).stored = [(0, .write ⟨.put, [2], [20]⟩), (1, .delete [1])] ∧
      execAll (fun _ => none) (hist tr).stored [1] = none := by
  have hr : Sched.Runs Fit _ _ := Steps.of_exec_get (Sched.connect 2 ++
    Sched.push 0 (.write ⟨.put, [2], [20]⟩) ++ Sched.clerk 0 1 ++ Sched.push 1 (.delete [1]) ++
    Sched.clerk 1 1 ++ Sched.clerk 0 4 ++ Sched.finish 0 2 ++ Sched.follow 1 ++ Sched.get 0 [1])
    (by decide +kernel)
  exact ⟨_, _, hr, by decide +kernel, by decide +kernel, by decide +kernel, by decide +kernel,
    by decide +kernel⟩

end

/-! ## Replies and roles -/

section
variable {batch : WriteBatch} {db : Store} {file : Buf} {tr : List Event} {s : State}

theorem Outcome.ok_iff {led : Bool} {q : Req} {b : Buf} (h : Outcome led q b) (hq : q.Fits) :
    ofLe (b.read ringHeader 4) = RequestStatus.ok.code ∧ replyValSize b = 0 ↔
      led = false ∨ q.op = .put ∧ q.key = [] ∧ q.val = [] := by
  obtain ⟨hst, hsz⟩ := h.words hq
  rw [hst, hsz]
  cases led with
  | false => simp [RequestStatus.code]
  | true =>
    have hop : q.op.code = 0 ↔ q.op = .put := by cases q.op <;> simp [Operation.code]
    rw [← hop, ← List.length_eq_zero_iff, ← List.length_eq_zero_iff]
    simp only [if_true, RequestStatus.code, Bool.true_eq_false, false_or]
    omega

/-- **Replies and roles.** The reply to a logged request is `OK` with no value exactly if its clerk
was a follower in its batch, or the request is a `PUT` of the empty key and value; `SendDelete`
returns `true` exactly if the clerk was a follower. -/
theorem reply_ok_iff (hr : Run Fit batch db file tr s) :
    (∀ (n c : Nat) (q : Req) (status valSize : Nat),
      tr[n]? = some (.replied c (some q) status valSize) →
      (status = RequestStatus.ok.code ∧ valSize = 0 ↔
        (hist (tr.take n)).led c = false ∨ q.op = .put ∧ q.key = [] ∧ q.val = [])) ∧
    ∀ (n c : Nat) (key : Bytes) (ok : Bool), tr[n]? = some (.deleted c key ok) →
      (ok = true ↔ (hist (tr.take n)).led c = false) := by
  refine ⟨fun n c q status valSize he => ?_, fun n c key ok he => ?_⟩
  · obtain ⟨s₁, d, a, k, sv', k', w, hr₁, hk, hm⟩ := move_of_event hr he
    obtain ⟨-, hf₁⟩ := flow_run hr₁
    obtain ⟨rfl, hp, hq, rfl, rfl⟩ := hm.of_replied (List.mem_singleton.2 rfl)
    obtain ⟨hfit, hheld⟩ := (hf₁.held c k hk).req hq.symm
    simp only [HeldReq, hp] at hheld
    exact hheld.2.ok_iff hfit
  · obtain ⟨s₁, d, a, k, sv', k', w, hr₁, hk, hm⟩ := move_of_event hr he
    obtain ⟨-, hf₁⟩ := flow_run hr₁
    obtain ⟨rfl, hp, hc, rfl⟩ := hm.of_deleted (List.mem_singleton.2 rfl)
    obtain ⟨hfit, hheld⟩ := (hf₁.held c k hk).req (q := .delete key) (by rw [hc]; rfl)
    simp only [HeldReq, hp] at hheld
    have hst := (hheld.2.words hfit).1
    rw [replyOk, hst]
    show _ ↔ (hist (tr.take n)).led c = false
    cases hl : (hist (tr.take n)).led c <;>
      simp [History.view, hl, RequestStatus.code, Req.op, Operation.code]

/-- A follower's reply. -/
theorem reply_ok_iff_follower :
    ∃ tr s, Sched.Runs Fit tr s ∧
      tr[11]? = some (.replied 1 (some (.write ⟨.update, [1], [20]⟩)) 0 0) ∧
      (0 = RequestStatus.ok.code ∧ 0 = 0 ↔
        (hist (tr.take 11)).led 1 = false ∨ (Operation.update = .put ∧ [1] = ([] : Bytes) ∧
          [20] = ([] : Bytes))) := by
  have hr : Sched.Runs Fit _ _ := Steps.of_exec_get (Sched.connect 2 ++
    Sched.push 0 (.write ⟨.put, [1], [10]⟩) ++ Sched.clerk 0 1 ++
    Sched.push 1 (.write ⟨.update, [1], [20]⟩) ++ Sched.clerk 1 1 ++ Sched.clerk 0 4 ++
    Sched.finish 0 2 ++ Sched.follow 1) (by decide +kernel)
  exact ⟨_, _, hr, rfl, (reply_ok_iff hr).1 11 1 _ 0 0 rfl⟩

/-- Two clients delete the same key in one batch: the leader's reply is not `OK`, and the two calls
return different results. -/
theorem leader_reply_not_ok :
    ∃ tr s, Sched.Runs Fit tr s ∧
      tr[8]? = some (.replied 0 (some (.delete [1])) 259 0) ∧ 259 ≠ RequestStatus.ok.code ∧
      tr[9]? = some (.deleted 0 [1] false) ∧ tr[12]? = some (.deleted 1 [1] true) := by
  have hr : Sched.Runs Fit _ _ := Steps.of_exec_get (Sched.connect 2 ++
    Sched.push 0 (.delete [1]) ++ Sched.clerk 0 1 ++ Sched.push 1 (.delete [1]) ++
    Sched.clerk 1 1 ++ Sched.clerk 0 4 ++ Sched.finish 0 2 ++ Sched.follow 1) (by decide +kernel)
  exact ⟨_, _, hr, by decide +kernel, by decide, by decide +kernel, by decide +kernel⟩

end

end PMRAccess.Group
