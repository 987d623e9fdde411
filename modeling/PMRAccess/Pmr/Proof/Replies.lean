import PMRAccess.Pmr.Proof.Data

/-!
# The PMR front end: the lengths of replies

`Small`: the index and the database hold values no longer than a request allows, so a reply, which
has no key, fits the client's message buffer. `small_run`: so it is in every run of requests that
fit.
-/

namespace PMRAccess.Pmr

open Lib

/-- The longest value of a request that fits. -/
def maxValue : Nat := maxRequest - ringHeader - sizeofRequest

/-- What a `GET` is about to copy, and the reply. -/
def Conn.Short (k : Conn) : Prop :=
  match k.pc with
  | .copy _ m => m.valueSize ≤ maxValue
  | .reply => replyValSize k.clerk.sendBuf ≤ maxValue
  | _ => True

structure Small (s : State) : Prop where
  db : s.server.db.Bounded maxValue
  map : ∀ key m, s.server.map key = some m → m.valueSize ≤ maxValue
  short : ∀ (c : Nat) (k : Conn), s.conns[c]? = some k → k.Short

theorem val_le_maxValue {r : Record} (h : r.Fits) : r.val.length ≤ maxValue := by
  have := h.2.2
  simp only [maxValue]
  omega

/-! ## Moves -/

section
variable {rs hs : List Record} {sv sv' : Server} {c : Nat} {k k' : Conn} {a : Act}
  {es : List Event}

/-- The database grows by the records of a chunk. -/
theorem db_small (hy : Sync rs hs k) (hd : sv.db.Bounded maxValue) (hm : Move sv c k a sv' k' es) :
    sv'.db.Bounded maxValue := by
  cases hm
  case dbDelete => exact hd.delete _
  case putBatch hp =>
    have hph := hy.phase
    simp only [Phase, hp] at hph
    refine hd.putBatch ?_ _
    rw [hph.2.1.metas]
    exact metasFrom_valueSize fun r hr => val_le_maxValue (hy.fits r hr)
  all_goals exact hd

/-- The index grows by the record of a request. -/
theorem map_small (hy : Sync rs hs k) (hv : ∀ key m, sv.map key = some m → m.valueSize ≤ maxValue)
    (hm : Move sv c k a sv' k' es) : ∀ key m, sv'.map key = some m → m.valueSize ≤ maxValue := by
  cases hm
  case insert key m hp =>
    obtain ⟨r, hi, -⟩ := hy.of_insert hp
    have hr : r.Fits := hy.fits r (by simp [hi.last])
    refine forall_assign hv key fun m' hm' => ?_
    obtain rfl := Option.some.inj hm'
    rw [hi.meta_eq]
    exact val_le_maxValue hr
  case erase key _ _ => exact forall_assign hv key (by simp)
  all_goals exact hv

theorem short_move (hd : sv.db.Bounded maxValue)
    (hv : ∀ key m, sv.map key = some m → m.valueSize ≤ maxValue) (h : k.Short)
    (hm : Move sv c k a sv' k' es) : k'.Short := by
  cases hm
  case insert | dbMiss | dbDelete => exact replyValSize_setReply_le (by decide) _ _ (Nat.zero_le _)
  case findHit hf => exact hv _ _ hf
  case copy m hp =>
    simp only [Conn.Short, hp] at h
    exact replyValSize_setReply_le (by decide) _ _ (by simpa using h)
  case dbHit hf => exact replyValSize_setReply_le (by decide) _ _ (hd _ _ hf)
  case setFree => exact replyValSize_setReply_le (by decide) _ _ (by rw [length_leBytes]; decide)
  case readBad | setAbort => exact h
  case enqueue closing tmp i hp hk => cases closing <;> trivial
  case scan pc hp hpc => rcases hpc with ⟨j, rfl⟩ | ⟨-, rfl⟩ <;> trivial
  case callPost hp _ | allocEnd hp | allocNext hp | ack hp | got hp | deleted hp =>
    simp [Conn.Short, Conn.prepare, hp]
  all_goals trivial

end

/-! ## Runs -/

section
variable {h : History} {s s' : State} {l : Label} {es : List Event}

theorem small_step (hd : Data h s) (hs : Small s) (hstep : step s l = some (s', es)) : Small s' := by
  cases step_cases hstep with
  | connect hl =>
    refine ⟨hs.db, hs.map, fun c k hk => ?_⟩
    rcases conns_append hk with hk | ⟨-, rfl⟩
    · exact hs.short c k hk
    · trivial
  | @conn c _ k _ _ _ hl hk hm =>
    have hy := hd.sync c k hk
    refine ⟨db_small hy hs.db hm, map_small hy hs.map hm, fun d kd hkd => ?_⟩
    rcases conns_set_cases hk hkd with ⟨rfl, rfl⟩ | ⟨-, hkd⟩
    · exact short_move hs.db hs.map (hs.short d k hk) hm
    · exact hs.short d kd hkd
  | ring hc ht =>
    obtain ⟨-, hmap, hdb⟩ := turn_mem ht
    exact ⟨hdb ▸ hs.db, hmap ▸ hs.map, hs.short⟩

/-- **Replies stay short** in every run of requests that fit. -/
theorem small_run {mem file : Buf} {db : Store} {tr : List Event} (hdb : db.Bounded maxValue)
    (hr : Run Fit mem file db tr s) : Small s :=
  Steps.invariant (I := fun _ s => Small s) ⟨hdb, by simp [init], by simp [init]⟩
    (fun hr hs _ hstep => small_step (data_run (fun _ _ h => h) hr) hs hstep) hr

end

end PMRAccess.Pmr
