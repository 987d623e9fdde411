import PMRAccess.Group.State
import PMRAccess.Lib.Extent
import PMRAccess.Lib.Ring
import PMRAccess.Lib.Run

/-!
# Threads on one log (`frontend/group/ringlog.h`)

Any number of threads in `RingLog::Put` and `RingLog::PutBatch`. Each loads `offset_`, computes the
next value, and retries its compare-exchange, which may fail for no reason, until it succeeds; only
then it writes its bytes, at the position it has compared with. An uninterrupted call is
`RingLog.putBatch` (`steps_putBatch`). `Put` builds its record in an array on its stack and does not
check that it fits; with a longer record the process is lost.

`chain_run`: every reservation is made where the last one has set `offset_`, so the log is a ring
that starts over late (`Chain.laid`). `window_run`: two records with at most `PREALLOCATE_SIZE`
bytes from one to the other do not overlap, so a write of recent bytes keeps the other recent bytes;
one that comes a lap late may not (`late_pwrite`). `placed_run_iff`: the ranges are inside the
preallocated region, and the ones reserved, as long as the calls have not passed the region's end;
the first call behind it reserves the bytes from 0 on and writes at the old position
(`placed_lap_end`).
-/

namespace PMRAccess.Group.Ringlog

open Lib

/-! ## Steps -/

/-- Where a thread is. -/
inductive Pc
  /-- not in a call -/
  | out
  /-- about to load `offset_` -/
  | load (buffer : Bytes)
  /-- about to exchange `pos` for `next_pos` -/
  | exchange (buffer : Bytes) (pos nextPos : Nat)
  | pwrite (buffer : Bytes) (pos : Nat)

structure State where
  log : RingLog
  threads : Nat → Pc
  /-- a thread has written beyond an array on its stack -/
  lost : Bool

/-- `next_pos` of a call with `len` bytes. -/
def nextPos (pos len : Nat) : Nat := if pos < preallocateSize then pos + len else len

/-- What `Put` writes: the two sizes, the key and the value. -/
def record (key val : Bytes) : Bytes := leBytes 4 key.length ++ leBytes 4 val.length ++ key ++ val

/-- `buffer` of `Put`. -/
def putBufferSize : Nat := 8 * 1024

inductive Call
  | put (key val : Bytes)
  | putBatch (buffer : Bytes)

/-- The bytes of a call. -/
def Call.bytes : Call → Bytes
  | put key val => record key val
  | putBatch buffer => buffer

/-- The record of a `Put` is not longer than its array; a `PutBatch` writes from the caller's. -/
def Call.Buffered : Call → Prop
  | put key val => (record key val).length ≤ putBufferSize
  | putBatch _ => True

instance : (x : Call) → Decidable x.Buffered
  | .put key val => inferInstanceAs (Decidable ((record key val).length ≤ putBufferSize))
  | .putBatch _ => inferInstanceAs (Decidable True)

inductive Event
  | called (t : Nat) (x : Call)
  /-- a `Put` writes beyond its array -/
  | overrun (t : Nat)
  /-- the compare-exchange of a thread has succeeded: its bytes go to `x`, `offset_` is `next` -/
  | reserved (t : Nat) (x : Extent) (next : Nat)
  | pwritten (t : Nat) (x : Extent)

inductive Label
  | call (t : Nat) (x : Call)
  | load (t : Nat)
  /-- a weak compare-exchange may fail though the values are equal -/
  | exchange (t : Nat) (weak : Bool)
  | pwrite (t : Nat)

def State.goto (s : State) (t : Nat) (pc : Pc) : State :=
  { s with threads := fun u => if u = t then pc else s.threads u }

/-- A thread outside enters a call; in `Put` it builds the record. -/
def enter (s : State) (t : Nat) (x : Call) : Option (State × List Event) :=
  match s.threads t with
  | .out =>
    if x.Buffered then some (s.goto t (.load x.bytes), [.called t x])
    else some ({ s with lost := true }, [.called t x, .overrun t])
  | _ => none

def step (s : State) (l : Label) : Option (State × List Event) :=
  if s.lost then none
  else
    match l with
    | .call t x => enter s t x
    | .load t =>
      match s.threads t with
      | .load buffer =>
        some (s.goto t (.exchange buffer s.log.offset (nextPos s.log.offset buffer.length)), [])
      | _ => none
    | .exchange t weak =>
      match s.threads t with
      | .exchange buffer pos next =>
        if s.log.offset = pos ∧ weak = false then
          some ({ s with log := { s.log with offset := next } }.goto t (.pwrite buffer pos),
            [.reserved t ⟨pos, buffer⟩ next])
        else
          some (s.goto t (.exchange buffer s.log.offset (nextPos s.log.offset buffer.length)), [])
      | _ => none
    | .pwrite t =>
      match s.threads t with
      | .pwrite buffer pos =>
        some ({ s with log := { s.log with file := s.log.file.write pos buffer } }.goto t .out,
          [.pwritten t ⟨pos, buffer⟩])
      | _ => none

/-- The log as its constructor leaves it. -/
def init (file : Buf) : State := ⟨.new file, fun _ => .out, false⟩

/-- The call a label starts. -/
def Label.call? : Label → Option Call
  | .call _ x => some x
  | _ => none

/-- Calls of positive lengths up to `MAX_ASYNC_SIZE`. -/
def Sized (_ : State) (l : Label) : Prop :=
  ∀ x ∈ l.call?, 0 < x.bytes.length ∧ x.bytes.length ≤ maxAsyncSize

instance (s : State) (l : Label) : Decidable (Sized s l) :=
  inferInstanceAs (Decidable (∀ x ∈ l.call?, 0 < x.bytes.length ∧ x.bytes.length ≤ maxAsyncSize))

/-- Runs of the threads on a new log. -/
def Run (P : State → Label → Prop) (file : Buf) : List Event → State → Prop :=
  Steps step P (init file)

/-! ## What a run shows -/

/-- A successful compare-exchange. -/
structure Reservation where
  thread : Nat
  range : Extent
  next : Nat

section
variable (tr : List Event) (t : Nat)

/-- The calls in their order. -/
def calls : List Call :=
  tr.filterMap fun | .called _ x => some x | _ => none

/-- The reservations in their order. -/
def reservations : List Reservation :=
  tr.filterMap fun | .reserved t x next => some ⟨t, x, next⟩ | _ => none

/-- The ranges a thread has reserved, and those it has written. -/
def reservedBy : List Extent := (reservations tr).filterMap fun r =>
  if r.thread = t then some r.range else none

def writtenBy : List Extent :=
  tr.filterMap fun | .pwritten u x => if u = t then some x else none | _ => none

end

/-- What a thread is about to write. -/
def Pc.pending : Pc → List Extent
  | .pwrite buffer pos => [⟨pos, buffer⟩]
  | _ => []

def Reservation.span (r : Reservation) : Span := ⟨r.range.start, r.range.data.length⟩

/-- It has set `offset_` back. -/
def Reservation.StartsLap (r : Reservation) : Prop := r.next = r.range.data.length

/-- What is expected of the ranges: they are inside the preallocated region, they are the bytes just
below the new `offset_`, and the ones of a lap lie one behind the other from 0 on. -/
structure Placed (rs : List Reservation) : Prop where
  inside : ∀ r ∈ rs, r.range.stop ≤ preallocateSize
  own : ∀ r ∈ rs, r.range.stop = r.next
  tiles : ∀ before r lap after, rs = before ++ (r :: lap) ++ after → r.StartsLap →
    (∀ q ∈ lap, ¬ q.StartsLap) → ∃ hi, Tiles 0 ((r :: lap).map Reservation.range) hi

/-! ## Chains of reservations -/

/-- Each reservation is made where the one before has set `offset_`. -/
def Chain : Nat → List Reservation → Nat → Prop
  | c, [], c' => c = c'
  | c, r :: rs, c' =>
    r.range.start = c ∧ r.next = nextPos c r.range.data.length ∧ Chain r.next rs c'

section
variable {c c' : Nat} {rs : List Reservation}

theorem Chain.snoc {t : Nat} {bs : Bytes} (h : Chain c rs c') :
    Chain c (rs ++ [⟨t, ⟨c', bs⟩, nextPos c' bs.length⟩]) (nextPos c' bs.length) := by
  induction rs generalizing c with
  | nil =>
    obtain rfl : c = c' := h
    exact ⟨rfl, rfl, rfl⟩
  | cons r rs ih => exact ⟨h.1, h.2.1, ih h.2.2⟩

/-- A call at the end of the region sets `offset_` back. -/
theorem nextPos_end (n : Nat) : nextPos preallocateSize n = n := if_neg (Nat.lt_irrefl _)

/-- The log is a ring that starts over late. -/
theorem place_nextPos (c n : Nat) : Ring.Place preallocateSize c n c (nextPos c n) := by
  unfold nextPos
  split
  · exact .behind
  · exact .late (by omega)

theorem Chain.laid (h : Chain c rs c') :
    Ring.Laid preallocateSize c (rs.map Reservation.span) c' := by
  induction rs generalizing c with
  | nil => exact h
  | cons r rs ih =>
    obtain ⟨rfl, hn, hrest⟩ := h
    exact ⟨r.next, hn ▸ place_nextPos _ _, ih hrest⟩

section
variable (hpos : ∀ r ∈ rs, 0 < r.range.data.length)
include hpos

/-- Up to the end of the region the reservations lie one behind the other. -/
theorem Chain.tiles (h : Chain c rs c')
    (hroom : c + Span.total (rs.map Reservation.span) ≤ preallocateSize) :
    Tiles c (rs.map Reservation.range) c' ∧ c' ≤ preallocateSize ∧
      ∀ r ∈ rs, r.range.stop = r.next := by
  induction rs generalizing c with
  | nil =>
    obtain rfl : c = c' := h
    exact ⟨rfl, by simpa using hroom, by simp⟩
  | cons r rs ih =>
    obtain ⟨hs, hn, hrest⟩ := h
    have hr := hpos r List.mem_cons_self
    rw [List.map_cons, Span.total_cons] at hroom
    have hlen : r.span.length = r.range.data.length := rfl
    have hstop : r.range.stop = r.next := by
      unfold nextPos at hn
      rw [if_pos (by omega)] at hn
      rw [hn, Extent.stop, hs]
    have hnext : r.next = c + r.range.data.length := by rw [← hstop, Extent.stop, hs]
    obtain ⟨h1, h2, h3⟩ := ih (fun q hq => hpos q (List.mem_cons_of_mem r hq)) hrest (by omega)
    refine ⟨⟨hs, hstop ▸ h1⟩, h2, ?_⟩
    intro q hq
    rcases List.mem_cons.1 hq with rfl | hq
    · exact hstop
    · exact h3 q hq

/-- Reservations inside the region have not passed its end. -/
theorem Chain.total_le (h : Chain c rs c') (hc : c ≤ preallocateSize)
    (hin : ∀ r ∈ rs, r.range.stop ≤ preallocateSize) :
    c + Span.total (rs.map Reservation.span) ≤ preallocateSize := by
  induction rs generalizing c with
  | nil => simpa using hc
  | cons r rs ih =>
    obtain ⟨hs, hn, hrest⟩ := h
    have hr := hpos r List.mem_cons_self
    have hstop : c + r.range.data.length ≤ preallocateSize := hs ▸ hin r List.mem_cons_self
    unfold nextPos at hn
    rw [if_pos (by omega)] at hn
    have := ih (fun q hq => hpos q (List.mem_cons_of_mem r hq)) hrest (by omega)
      fun q hq => hin q (List.mem_cons_of_mem r hq)
    rw [List.map_cons, Span.total_cons]
    show c + (r.range.data.length + _) ≤ _
    omega

theorem Chain.placed_iff (h : Chain 0 rs c') :
    Placed rs ↔ Span.total (rs.map Reservation.span) ≤ preallocateSize := by
  constructor
  · intro hp
    have := h.total_le hpos (Nat.zero_le _) hp.inside
    omega
  · intro hroom
    obtain ⟨ht, hc, hown⟩ := h.tiles hpos (by omega)
    refine ⟨?_, hown, ?_⟩
    · intro r hr
      have := (ht.bounds.2 r.range (List.mem_map_of_mem hr)).2
      omega
    · intro before r lap after hrs hstart _
      rw [hrs, List.map_append, List.map_append] at ht
      obtain ⟨mid, ht', -⟩ := ht.append
      obtain ⟨lo, -, hlap⟩ := ht'.append
      -- the block starts at 0, as its first reservation ends at its own length
      have hr := hown r (by simp [hrs])
      have hlo : r.range.start = lo := hlap.1
      unfold Reservation.StartsLap at hstart
      unfold Extent.stop at hr
      obtain rfl : lo = 0 := by omega
      exact ⟨mid, hlap⟩

end

end

/-! ## What a step can do -/

/-- The moves of a thread; a failed exchange aims anew, as after the load. -/
inductive Move (s : State) (l : Label) : State → List Event → Prop
  | enter {t : Nat} {x : Call} (hl : l = .call t x) (ht : s.threads t = .out) (hx : x.Buffered) :
      Move s l (s.goto t (.load x.bytes)) [.called t x]
  | overrun {t : Nat} {x : Call} (hl : l = .call t x) (ht : s.threads t = .out)
      (hx : ¬ x.Buffered) : Move s l { s with lost := true } [.called t x, .overrun t]
  | aim {t : Nat} {bs : Bytes}
      (ht : s.threads t = .load bs ∨ ∃ pos next, s.threads t = .exchange bs pos next) :
      Move s l (s.goto t (.exchange bs s.log.offset (nextPos s.log.offset bs.length))) []
  | reserve {t next : Nat} {bs : Bytes} (ht : s.threads t = .exchange bs s.log.offset next) :
      Move s l ({ s with log := { s.log with offset := next } }.goto t (.pwrite bs s.log.offset))
        [.reserved t ⟨s.log.offset, bs⟩ next]
  | pwrite {t pos : Nat} {bs : Bytes} (ht : s.threads t = .pwrite bs pos) :
      Move s l ({ s with log := { s.log with file := s.log.file.write pos bs } }.goto t .out)
        [.pwritten t ⟨pos, bs⟩]

section
variable {P : State → Label → Prop} {s s' : State} {l : Label} {tr es : List Event} {file : Buf}

theorem step_cases (h : step s l = some (s', es)) : Move s l s' es := by
  unfold step at h
  split at h
  · cases h
  cases l with
  | call t x =>
    simp only [enter] at h
    split at h
    · rename_i ht
      split at h
      · rename_i hx
        cases h
        exact .enter rfl ht hx
      · rename_i hx
        cases h
        exact .overrun rfl ht hx
    · cases h
  | load t =>
    simp only at h
    split at h
    · rename_i bs ht
      cases h
      exact .aim (.inl ht)
    · cases h
  | exchange t weak =>
    simp only at h
    split at h
    · rename_i bs pos next ht
      split at h
      · rename_i hc
        obtain ⟨rfl, -⟩ := hc
        cases h
        exact .reserve ht
      · cases h
        exact .aim (.inr ⟨pos, next, ht⟩)
    · cases h
  | pwrite t =>
    simp only at h
    split at h
    · rename_i bs pos ht
      cases h
      exact .pwrite ht
    · cases h

/-! ## Invariants of runs -/

theorem goto_self (s : State) (t : Nat) (pc : Pc) : (s.goto t pc).threads t = pc := if_pos rfl

theorem goto_lost (s : State) (t : Nat) (pc : Pc) : (s.goto t pc).lost = s.lost := rfl

theorem goto_ne (s : State) {t u : Nat} (h : u ≠ t) (pc : Pc) :
    (s.goto t pc).threads u = s.threads u := if_neg h

/-- A thread goes on, the others stay. -/
theorem goto_forall {Q : Nat → Pc → Prop} {t : Nat} {pc : Pc} (h : ∀ u, Q u (s.threads u))
    (ht : Q t pc) (u : Nat) : Q u ((s.goto t pc).threads u) := by
  by_cases hu : u = t
  · subst hu
    rwa [goto_self]
  · rw [goto_ne s hu]
    exact h u

/-- `next_pos` is computed from `pos`. -/
def Pc.Aimed : Pc → Prop
  | .exchange bs pos next => next = nextPos pos bs.length
  | _ => True

theorem aimed_run (h : Run P file tr s) (t : Nat) : (s.threads t).Aimed := by
  revert t
  refine h.invariant (I := fun _ s => ∀ t, (s.threads t).Aimed) (fun _ => trivial) ?_
  intro tr s l s' es _ hi _ hs
  cases step_cases hs with
  | enter => exact goto_forall (Q := fun _ => Pc.Aimed) hi trivial
  | overrun => exact hi
  | aim => exact goto_forall (Q := fun _ => Pc.Aimed) hi rfl
  | reserve => exact goto_forall (Q := fun _ => Pc.Aimed) hi trivial
  | pwrite => exact goto_forall (Q := fun _ => Pc.Aimed) hi trivial

theorem reservations_append (tr tr' : List Event) :
    reservations (tr ++ tr') = reservations tr ++ reservations tr' := List.filterMap_append

theorem chain_run (h : Run P file tr s) : Chain 0 (reservations tr) s.log.offset := by
  have h0 : Chain 0 (reservations []) (init file).log.offset := rfl
  refine h.invariant (I := fun tr s => Chain 0 (reservations tr) s.log.offset) h0 ?_
  intro tr s l s' es hr hi _ hs
  rw [reservations_append]
  cases step_cases hs with
  | enter | overrun | aim | pwrite =>
    -- no reservation, `offset_` as before
    exact (List.append_nil _).symm ▸ hi
  | @reserve t next bs ht =>
    have haim := aimed_run hr t
    rw [ht] at haim
    obtain rfl : next = nextPos s.log.offset bs.length := haim
    exact hi.snoc

/-- A thread writes the ranges it reserves, one after the other. -/
theorem written_run (h : Run P file tr s) (t : Nat) :
    writtenBy tr t ++ (s.threads t).pending = reservedBy tr t := by
  revert t
  refine h.invariant
    (I := fun tr s => ∀ t, writtenBy tr t ++ (s.threads t).pending = reservedBy tr t)
    (fun _ => rfl) ?_
  intro tr s l s' es _ hi _ hs u
  have hu := hi u
  unfold writtenBy reservedBy reservations at hu ⊢
  rw [List.filterMap_append, List.filterMap_append, List.filterMap_append, ← hu]
  cases step_cases hs with
  | @enter t x hl ht hx =>
    by_cases hut : u = t
    · subst hut
      simp [goto_self, ht, Pc.pending]
    · simp [goto_ne s hut]
  | overrun => simp
  | @aim t bs ht =>
    by_cases hut : u = t
    · subst hut
      rcases ht with ht | ⟨pos, next, ht⟩ <;> simp [goto_self, ht, Pc.pending]
    · simp [goto_ne s hut]
  | @reserve t next bs ht =>
    by_cases hut : u = t
    · subst hut
      simp [goto_self, ht, Pc.pending]
    · simp [goto_ne _ hut, Ne.symm hut]
  | @pwrite t pos bs ht =>
    by_cases hut : u = t
    · subst hut
      simp [goto_self, ht, Pc.pending]
    · simp [goto_ne _ hut, Ne.symm hut]

/-- The bytes of a call. -/
def Pc.buffer? : Pc → Option Bytes
  | .out => none
  | .load bs | .exchange bs _ _ | .pwrite bs _ => some bs

def Pc.Positive (pc : Pc) : Prop := ∀ bs ∈ pc.buffer?, 0 < bs.length

theorem Pc.positive_of {pc : Pc} {bs : Bytes} (h : pc.buffer? = some bs) (hbs : 0 < bs.length) :
    pc.Positive := by
  intro bs' hbs'
  obtain rfl : bs = bs' := Option.some.inj (h.symm.trans hbs')
  exact hbs

theorem positive_threads (h : Run Sized file tr s) (t : Nat) : (s.threads t).Positive := by
  revert t
  have hout : Pc.out.Positive := by simp [Pc.Positive, Pc.buffer?]
  refine h.invariant (I := fun _ s => ∀ t, (s.threads t).Positive) (fun _ => hout) ?_
  intro tr s l s' es _ hi hp hs
  cases step_cases hs with
  | @enter t x hl ht hx =>
    subst hl
    exact goto_forall (Q := fun _ => Pc.Positive) hi (Pc.positive_of rfl (hp x rfl).1)
  | overrun => exact hi
  | @aim t bs ht =>
    refine goto_forall (Q := fun _ => Pc.Positive) hi (Pc.positive_of rfl ?_)
    rcases ht with ht | ⟨pos, next, ht⟩ <;> exact hi t bs (by rw [ht]; rfl)
  | @reserve t next bs ht =>
    have hbs : 0 < bs.length := hi t bs (by rw [ht]; rfl)
    exact goto_forall (Q := fun _ => Pc.Positive) hi (Pc.positive_of rfl hbs)
  | @pwrite t pos bs ht => exact goto_forall (Q := fun _ => Pc.Positive) hi hout

theorem positive_run (h : Run Sized file tr s) :
    ∀ r ∈ reservations tr, 0 < r.range.data.length := by
  refine h.invariant (I := fun tr _ => ∀ r ∈ reservations tr, 0 < r.range.data.length)
    (by simp [reservations]) ?_
  intro tr s l s' es hr hi _ hs r hmem
  rw [reservations_append] at hmem
  rcases List.mem_append.1 hmem with hmem | hmem
  · exact hi r hmem
  cases step_cases hs with
  | enter | overrun | aim | pwrite => cases hmem
  | @reserve t next bs ht =>
    obtain rfl : r = ⟨t, ⟨s.log.offset, bs⟩, next⟩ := List.mem_singleton.1 hmem
    exact positive_threads hr t bs (by rw [ht]; rfl)

/-! ## The window -/

/-- The bytes from the `i`-th reservation to the `j`-th, and from the `i`-th to the last one. -/
def between (rs : List Reservation) (i j : Nat) : Nat :=
  Span.total (((rs.map Reservation.span).drop i).take (j + 1 - i))

def since (rs : List Reservation) (i : Nat) : Nat :=
  Span.total ((rs.map Reservation.span).drop i)

theorem between_le_since (rs : List Reservation) (i j : Nat) : between rs i j ≤ since rs i :=
  Span.total_take_le _ _

theorem drop_disj_run (h : Run P file tr s) {i j o : Nat} {x y : Reservation} (hij : i < j)
    (hx : (reservations tr)[i]? = some x) (hy : (reservations tr)[j]? = some y)
    (ho : o ≤ x.range.data.length) (hw : between (reservations tr) i j ≤ preallocateSize + o) :
    (x.span.drop o).Disj y.span :=
  (chain_run h).laid.disj_drop hij (by simp [hx]) (by simp [hy]) ho hw

theorem disj_run (h : Run P file tr s) {i j : Nat} {x y : Reservation} (hij : i < j)
    (hx : (reservations tr)[i]? = some x) (hy : (reservations tr)[j]? = some y)
    (hw : between (reservations tr) i j ≤ preallocateSize) : x.range.Disj y.range :=
  drop_disj_run h hij hx hy (Nat.zero_le _) hw

/-- A record in the last `PREALLOCATE_SIZE` bytes is apart from the other of these bytes. -/
theorem recent_run (h : Run P file tr s) {i j o : Nat} {x y : Reservation} (hij : i ≠ j)
    (hx : (reservations tr)[i]? = some x) (hy : (reservations tr)[j]? = some y)
    (ho : o < x.range.data.length) (hi : since (reservations tr) i ≤ preallocateSize + o)
    (hj : since (reservations tr) j ≤ preallocateSize) :
    x.range.start + o < y.range.start ∨ y.range.stop ≤ x.range.start + o := by
  have hb (i j : Nat) := between_le_since (reservations tr) i j
  rcases Nat.lt_or_gt_of_ne hij with hij | hji
  · have hd := drop_disj_run h hij hx hy (Nat.le_of_lt ho) ((hb i j).trans hi)
    have hd' : x.range.start + o + (x.range.data.length - o) ≤ y.range.start ∨
      y.range.stop ≤ x.range.start + o := hd
    omega
  · have hd : y.range.stop ≤ x.range.start ∨ x.range.start + x.range.data.length ≤ y.range.start :=
      disj_run h hji hy hx ((hb j i).trans hj)
    omega

theorem step_pwritten {t : Nat} {x : Extent} (hs : step s l = some (s', [.pwritten t x])) :
    s'.log.file = s.log.file.write x.start x.data := by
  cases step_cases hs with
  | pwrite => rfl

/-- **The log keeps its last `PREALLOCATE_SIZE` bytes**, up to writes that come late. Two records
with at most that many bytes from one to the other are written to disjoint ranges, each thread
writing where it has reserved; so writing one keeps the other in the file, in either order. A write
of a record that is in the last `PREALLOCATE_SIZE` bytes reserved changes no other byte of these. -/
theorem window_run (h : Run P file tr s) :
    (∀ t, writtenBy tr t ++ (s.threads t).pending = reservedBy tr t) ∧
    (∀ i j x y, i < j → (reservations tr)[i]? = some x → (reservations tr)[j]? = some y →
      between (reservations tr) i j ≤ preallocateSize →
      x.range.Disj y.range ∧
        (∀ l s', step s l = some (s', [.pwritten y.thread y.range]) →
          x.range.In s.log.file → x.range.In s'.log.file) ∧
        ∀ l s', step s l = some (s', [.pwritten x.thread x.range]) →
          y.range.In s.log.file → y.range.In s'.log.file) ∧
    ∀ j y l s', (reservations tr)[j]? = some y →
      step s l = some (s', [.pwritten y.thread y.range]) →
      since (reservations tr) j ≤ preallocateSize →
      ∀ i x o, i ≠ j → (reservations tr)[i]? = some x → o < x.range.data.length →
        since (reservations tr) i ≤ preallocateSize + o →
        s'.log.file (x.range.start + o) = s.log.file (x.range.start + o) := by
  refine ⟨written_run h, fun i j x y hij hx hy hw => ?_, ?_⟩
  · have hd := disj_run h hij hx hy hw
    refine ⟨hd, fun l s' hs hin => ?_, fun l s' hs hin => ?_⟩
    · exact step_pwritten hs ▸ hin.write_of_disj hd
    · exact step_pwritten hs ▸ hin.write_of_disj hd.symm
  · intro j y l s' hy hs hj i x o hij hx ho hi
    rw [step_pwritten hs]
    exact Buf.write_of_outside (recent_run h hij hx hy ho hi hj)

/-- Two threads: the second overtakes the first, whose exchange fails, and writes behind it. -/
theorem window_run_overtaken : ∃ tr s s' x y, Run (fun _ _ => True) (fun _ => 0) tr s ∧
    (reservations tr)[0]? = some x ∧ (reservations tr)[1]? = some y ∧ x.thread = 1 ∧ y.thread = 0 ∧
    between (reservations tr) 0 1 = 13 ∧ x.range.Disj y.range ∧
    step s (.pwrite 1) = some (s', [.pwritten x.thread x.range]) ∧ y.range.In s'.log.file ∧
    s'.log.file (y.range.start + 2) = s.log.file (y.range.start + 2) := by
  obtain ⟨tr, s, s', x, y, hr, hx, hy, htx, hty, hw, hsince, hlen, hs, hin⟩ :
      ∃ tr s s' x y, Run (fun _ _ => True) (fun _ => 0) tr s ∧
        (reservations tr)[0]? = some x ∧ (reservations tr)[1]? = some y ∧ x.thread = 1 ∧
        y.thread = 0 ∧ between (reservations tr) 0 1 = 13 ∧
        (since (reservations tr) 0 = 13 ∧ since (reservations tr) 1 = 3) ∧
        y.range.data.length = 3 ∧ step s (.pwrite 1) = some (s', [.pwritten x.thread x.range]) ∧
        y.range.In s.log.file :=
    ⟨_, _, _, _, _, Steps.of_exec_get [.call 0 (.putBatch [7, 8, 9]), .call 1 (.put [1] [2]),
      .load 0, .load 1, .exchange 1 true, .exchange 1 false, .exchange 0 false, .exchange 0 false,
      .pwrite 0] rfl, rfl, rfl, rfl, rfl, rfl, ⟨rfl, rfl⟩, rfl, rfl, rfl⟩
  have hsmall : 13 ≤ preallocateSize := by decide
  obtain ⟨-, hpair, hrecent⟩ := window_run hr
  obtain ⟨hd, -, hkeep⟩ := hpair 0 1 x y Nat.zero_lt_one hx hy (hw ▸ hsmall)
  exact ⟨tr, s, s', x, y, hr, hx, hy, htx, hty, hw, hd, hs, hkeep _ s' hs hin,
    hrecent 0 x _ s' hx hs (hsince.1 ▸ hsmall) 1 y 2 (by decide) hy (by omega) (by omega)⟩

/-! ## Uninterrupted calls -/

theorem goto_goto (s : State) (t : Nat) (pc pc' : Pc) :
    (s.goto t pc).goto t pc' = s.goto t pc' := by
  unfold State.goto
  congr 1
  funext u
  by_cases hu : u = t <;> simp [hu]

theorem goto_of_eq {t : Nat} {pc : Pc} (h : s.threads t = pc) : s.goto t pc = s := by
  unfold State.goto
  congr 1
  funext u
  by_cases hu : u = t
  · rw [if_pos hu, hu, h]
  · rw [if_neg hu]

/-- The guard allows the calls of these bytes and all other steps. -/
def Allows (P : State → Label → Prop) (bs : Bytes) : Prop :=
  ∀ s l, (∀ x ∈ l.call?, x = .putBatch bs) → P s l

theorem allows_sized {bs : Bytes} (h0 : 0 < bs.length) (h1 : bs.length ≤ maxAsyncSize) :
    Allows Sized bs := by
  intro s l hl x hx
  rw [hl x hx]
  exact ⟨h0, h1⟩

section
variable {t : Nat} {bs : Bytes} (hl : s.lost = false)
include hl

/-- A call up to its exchange. -/
theorem steps_reserve (ht : s.threads t = .out) (hp : Allows P bs) :
    Steps step P s [.called t (.putBatch bs),
        .reserved t ⟨s.log.offset, bs⟩ (nextPos s.log.offset bs.length)]
      ({ s with log := { s.log with offset := nextPos s.log.offset bs.length } }.goto t
        (.pwrite bs s.log.offset)) := by
  have h1 : step s (.call t (.putBatch bs)) =
      some (s.goto t (.load bs), [.called t (.putBatch bs)]) := by
    simp only [step, hl, enter, ht]
    rfl
  have h2 : step (s.goto t (.load bs)) (.load t) =
      some (s.goto t (.exchange bs s.log.offset (nextPos s.log.offset bs.length)), []) := by
    simp only [step, goto_lost, hl, goto_self, goto_goto]
    rfl
  have h3 : step (s.goto t (.exchange bs s.log.offset (nextPos s.log.offset bs.length)))
      (.exchange t false) =
      some ({ s with log := { s.log with offset := nextPos s.log.offset bs.length } }.goto t
        (.pwrite bs s.log.offset),
        [.reserved t ⟨s.log.offset, bs⟩ (nextPos s.log.offset bs.length)]) := by
    unfold step
    rw [goto_lost, if_neg (Bool.eq_false_iff.1 hl)]
    simp only [goto_self]
    rw [if_pos ⟨rfl, trivial⟩]
    exact congrArg (fun s' => some (s', _)) (goto_goto ⟨_, s.threads, s.lost⟩ t _ _)
  exact ((Steps.single (hp _ _ (by simp [Label.call?])) h1).tail (hp _ _ (by simp [Label.call?]))
    h2).tail (hp _ _ (by simp [Label.call?])) h3

theorem step_pwrite {pos : Nat} (ht : s.threads t = .pwrite bs pos) :
    step s (.pwrite t) =
      some ({ s with log := { s.log with file := s.log.file.write pos bs } }.goto t .out,
        [.pwritten t ⟨pos, bs⟩]) := by
  simp only [step, hl, ht]
  rfl

/-- An uninterrupted call is `RingLog.putBatch`. -/
theorem steps_putBatch (ht : s.threads t = .out) (hp : Allows P bs) :
    Steps step P s [.called t (.putBatch bs),
        .reserved t ⟨s.log.offset, bs⟩ (nextPos s.log.offset bs.length),
        .pwritten t ⟨s.log.offset, bs⟩] { s with log := s.log.putBatch bs } := by
  let s' : State := { s with log := { s.log with offset := nextPos s.log.offset bs.length } }
  have h4 : step (s'.goto t (.pwrite bs s.log.offset)) (.pwrite t) =
      some ({ s with log := s.log.putBatch bs }, [.pwritten t ⟨s.log.offset, bs⟩]) := by
    have hl' : (s'.goto t (.pwrite bs s.log.offset)).lost = false := hl
    rw [step_pwrite hl' (goto_self s' t _)]
    refine congrArg (fun s' => some (s', _)) ?_
    exact (goto_goto ⟨s.log.putBatch bs, s.threads, s.lost⟩ t _ _).trans (goto_of_eq ht)
  exact (steps_reserve hl ht hp).tail (hp _ _ (by simp [Label.call?])) h4

end

/-- Calls one after the other fill the region. -/
theorem fill_run {bs : Bytes} {n : Nat} (h0 : 0 < bs.length) (h1 : bs.length ≤ maxAsyncSize)
    (hl : s.lost = false) (ht : s.threads 0 = .out)
    (hn : s.log.offset + n * bs.length ≤ preallocateSize) :
    ∃ tr s', Steps step Sized s tr s' ∧ s'.lost = false ∧ s'.threads = s.threads ∧
      s'.log.offset = s.log.offset + n * bs.length ∧ ∀ t, .overrun t ∉ tr := by
  induction n with
  | zero => exact ⟨[], s, .refl, hl, rfl, by rw [Nat.zero_mul, Nat.add_zero], by simp⟩
  | succ n ih =>
    rw [Nat.succ_mul] at hn ⊢
    obtain ⟨tr, s', hr, hl', hth, ho, hno⟩ := ih (by omega)
    have ht' : s'.threads 0 = .out := hth ▸ ht
    refine ⟨_, _, hr.trans (steps_putBatch hl' ht' (allows_sized h0 h1)), hl', hth, ?_, ?_⟩
    · show (if s'.log.offset < preallocateSize then _ else _) = _
      rw [ho, if_pos (by omega), Nat.add_assoc]
    · simp [hno]

/-! ## Late writes -/

/-- A thread reserves the first 32 KiB of the log and does not write them until the others have
filled the region and written the 16 KiB behind the first ones again; its write then overwrites the
last bytes written. -/
theorem late_pwrite : ∃ tr s s' x y, Run Sized (fun _ => 0) tr s ∧ (∀ t, .overrun t ∉ tr) ∧
    x ∈ reservations tr ∧ (reservations tr).getLast? = some y ∧
    y.range.data.length ≤ preallocateSize ∧ .pwritten y.thread y.range ∈ tr ∧
    y.range.In s.log.file ∧ step s (.pwrite 1) = some (s', [.pwritten x.thread x.range]) ∧
    ¬ y.range.In s'.log.file := by
  obtain ⟨n, hn⟩ : ∃ n, n = 2 ^ 14 := ⟨_, rfl⟩
  obtain ⟨bs, hbs⟩ : ∃ bs : Bytes, bs = List.replicate n 2 := ⟨_, rfl⟩
  obtain ⟨zs, hzs⟩ : ∃ zs : Bytes, zs = List.replicate n 1 ++ List.replicate n 1 := ⟨_, rfl⟩
  have hlen : bs.length = n := by rw [hbs, List.length_replicate]
  have hlen' : zs.length = 2 * n := by simp [hzs, Nat.two_mul]
  have hmax : 2 * n = maxAsyncSize := by rw [hn]; rfl
  have hpos : 0 < bs.length := by omega
  have hle : bs.length ≤ maxAsyncSize := by omega
  have hall : Allows Sized bs := allows_sized hpos hle
  -- thread 1 reserves, then thread 0 goes on to the end of the region
  obtain ⟨s₁, hr₁, hl₁, hout₁, hlate₁, ho₁⟩ : ∃ s₁, Run Sized (fun _ => 0)
      [.called 1 (.putBatch zs), .reserved 1 ⟨0, zs⟩ (nextPos 0 zs.length)] s₁ ∧
      s₁.lost = false ∧ s₁.threads 0 = .out ∧ s₁.threads 1 = .pwrite zs 0 ∧
      s₁.log.offset = nextPos 0 zs.length :=
    ⟨_, steps_reserve rfl rfl (allows_sized (by omega) (by omega)), rfl, rfl, rfl, rfl⟩
  rw [nextPos, if_pos (by decide), Nat.zero_add, hlen'] at ho₁
  have hfull : s₁.log.offset + 262142 * bs.length = preallocateSize := by
    rw [ho₁, hlen, hn]
    rfl
  obtain ⟨tr₂, s₂, hr₂, hl₂, hth₂, ho₂, hno₂⟩ := fill_run hpos hle hl₁ hout₁ (le_of_eq hfull)
  rw [hfull] at ho₂
  -- the call at the end sets `offset_` to `n`, and the one behind it writes there
  have hr₃ := steps_putBatch hl₂ (hth₂ ▸ hout₁) hall
  have ho₃ : (s₂.log.putBatch bs).offset = n := by
    show nextPos s₂.log.offset bs.length = n
    rw [ho₂, nextPos_end, hlen]
  have hr₄ := steps_putBatch (s := { s₂ with log := s₂.log.putBatch bs }) hl₂ (hth₂ ▸ hout₁) hall
  have hs := step_pwrite (s := { s₂ with log := (s₂.log.putBatch bs).putBatch bs }) hl₂
    (hth₂ ▸ hlate₁)
  let x : Reservation := ⟨1, ⟨0, zs⟩, nextPos 0 zs.length⟩
  let o := (s₂.log.putBatch bs).offset
  let y : Reservation := ⟨0, ⟨o, bs⟩, nextPos o bs.length⟩
  refine ⟨_, _, _, x, y, ((hr₁.trans hr₂).trans hr₃).trans hr₄, by simp [hno₂], ?_, ?_, ?_,
    by simp [y, o], Extent.in_write_self y.range _, hs, ?_⟩
  · rw [reservations_append, reservations_append, reservations_append]
    exact List.mem_append_left _ (List.mem_append_left _ (List.mem_append_left _
      (List.mem_singleton_self x)))
  · rw [reservations_append]
    exact List.getLast?_concat
  · show bs.length ≤ _
    rw [hlen, hn]
    decide
  · intro hin
    have hread : (Buf.write ((s₂.log.putBatch bs).putBatch bs).file 0 zs).read
        (s₂.log.putBatch bs).offset bs.length = bs := hin
    rw [ho₃, hlen, ← Nat.zero_add n, Buf.read_write_sub (by omega), Nat.zero_add, hzs,
      List.drop_left' List.length_replicate, List.take_of_length_le (by simp), hbs,
      List.replicate_inj] at hread
    rcases hread.2 with h0 | h12
    · omega
    · cases h12

/-! ## The end of the region -/

/-- The runs without an overrun are those whose calls are all buffered. -/
theorem overrun_run (h : Run P file tr s) :
    (∀ t, .overrun t ∉ tr) ↔ ∀ x ∈ calls tr, x.Buffered := by
  refine h.invariant (I := fun tr _ => (∀ t, .overrun t ∉ tr) ↔ ∀ x ∈ calls tr, x.Buffered)
    (by simp [calls]) ?_
  intro tr s l s' es _ hi _ hs
  have hstep : (∀ t, .overrun t ∉ es) ↔ ∀ x ∈ calls es, x.Buffered := by
    cases step_cases hs with
    | enter hl ht hx => simp [calls, hx]
    | overrun hl ht hx => simp [calls, hx]
    | aim | reserve | pwrite => simp [calls]
  have happ : calls (tr ++ es) = calls tr ++ calls es := List.filterMap_append
  simp only [happ, List.mem_append, not_or, forall_and, or_imp, hi, hstep]

/-- **Where the ranges are as expected**: as long as no `Put` has a record longer than its array, and
the calls have not passed the end of the region together. Each thread writes what it has reserved in
any case. -/
theorem placed_run_iff (h : Run Sized file tr s) :
    (∀ t, writtenBy tr t ++ (s.threads t).pending = reservedBy tr t) ∧
    ((∀ t, .overrun t ∉ tr) ∧ Placed (reservations tr) ↔
      (∀ x ∈ calls tr, x.Buffered) ∧
        Span.total ((reservations tr).map Reservation.span) ≤ preallocateSize) :=
  ⟨written_run h, and_congr (overrun_run h) ((chain_run h).placed_iff (positive_run h))⟩

theorem placed_run_iff_overtaken : ∃ tr s, Run Sized (fun _ => 0) tr s ∧
    (reservations tr).length = 2 ∧ (∀ t, .overrun t ∉ tr) ∧ Placed (reservations tr) := by
  obtain ⟨tr, s, hr, hlen, hcalls, ht⟩ : ∃ tr s, Run Sized (fun _ => 0) tr s ∧
      (reservations tr).length = 2 ∧ (∀ x ∈ calls tr, x.Buffered) ∧
      Span.total ((reservations tr).map Reservation.span) = 13 :=
    ⟨_, _, Steps.of_exec_get [.call 0 (.putBatch [7, 8, 9]), .call 1 (.put [1] [2]), .load 0,
      .load 1, .exchange 1 true, .exchange 1 false, .exchange 0 false, .exchange 0 false,
      .pwrite 0, .pwrite 1]
      (by decide +kernel), by decide +kernel, by decide +kernel, by decide +kernel⟩
  refine ⟨tr, s, hr, hlen, (placed_run_iff hr).2.2 ⟨hcalls, ?_⟩⟩
  rw [ht]
  decide

/-- The call behind the end writes outside the region, and not where it has reserved. -/
theorem placed_lap_end : ∃ tr s r, Run Sized (fun _ => 0) tr s ∧ (∀ t, .overrun t ∉ tr) ∧
    r ∈ reservations tr ∧ .pwritten r.thread r.range ∈ tr ∧ r.range.start = preallocateSize ∧
    r.range.data.length = maxAsyncSize ∧ r.next = maxAsyncSize ∧ ¬ Placed (reservations tr) := by
  have hlen : (List.replicate maxAsyncSize 0 : Bytes).length = maxAsyncSize := List.length_replicate
  obtain ⟨bs, hbs⟩ : ∃ bs : Bytes, bs.length = maxAsyncSize := ⟨_, hlen⟩
  have h0 : 0 < bs.length := hbs ▸ (by decide)
  have h1 : bs.length ≤ maxAsyncSize := le_of_eq hbs
  obtain ⟨tr, s, hr, hl, hth, ho, hno⟩ := fill_run (s := init fun _ => 0) (n := 131072) h0 h1
    rfl rfl (by show 0 + 131072 * bs.length ≤ _; rw [hbs]; decide)
  have hfull : s.log.offset = preallocateSize := by rw [ho, hbs]; rfl
  have hr' := hr.trans (steps_putBatch (t := 0) hl (hth ▸ rfl) (allows_sized h0 h1))
  have hnext : nextPos s.log.offset bs.length = maxAsyncSize := by
    rw [hfull, nextPos_end, hbs]
  have hmem : (⟨0, ⟨s.log.offset, bs⟩, nextPos s.log.offset bs.length⟩ : Reservation) ∈
      reservations (tr ++ [.called 0 (.putBatch bs),
        .reserved 0 ⟨s.log.offset, bs⟩ (nextPos s.log.offset bs.length),
        .pwritten 0 ⟨s.log.offset, bs⟩]) := by
    rw [reservations_append]
    exact List.mem_append_right _ (List.mem_singleton_self _)
  refine ⟨_, _, _, hr', by simp [hno], hmem, by simp, hfull, hbs, hnext, ?_⟩
  intro hp
  have hin : s.log.offset + bs.length ≤ preallocateSize := hp.inside _ hmem
  omega

end

end PMRAccess.Group.Ringlog
