import PMRAccess.Lib.Extent
import PMRAccess.Rdma.Posted

/-!
# The client's buffer

A `PMRClient` allocates and registers `MAX_REQUEST` bytes, a `GroupClient` and a `PMemClient`
`RING_HEADER` more; all of them prepare a request, and get a reply, `RING_HEADER` bytes into the
buffer. `Call.stores`: what a call stores there. `inside_iff`: so a request of up to `MAX_REQUEST`
bytes, and the reply with its value, are inside the buffer unless the client is a `PMRClient` and
the request is longer than `MAX_REQUEST - RING_HEADER`. `client_buffer_iff`: in runs of requests that are
not, no request and no reply leaves the buffer, whichever client has stored the value.
-/

namespace PMRAccess

open Lib

/-- `Request::Length` of the request of a `SendWrite`. -/
def Record.length (r : Record) : Nat := sizeofRequest + strlen r.key + strlen r.val

theorem strlen_le (s : Bytes) : strlen s ≤ s.length := (List.takeWhile_prefix _).length_le

theorem length_take_len16 (s : Bytes) : (s.take (len16 s)).length = len16 s := by
  have h1 := strlen_le s
  have h2 : len16 s ≤ strlen s := Nat.mod_le _ _
  rw [List.length_take]
  omega

end PMRAccess

namespace PMRAccess.Rdma

open Lib

/-- The stores of a request without a value to the client's buffer: the header and the key. -/
def keyStores (op : Operation) (key : Bytes) : List Extent :=
  [⟨ringHeader, requestHeader op (strlen key) 0⟩,
    ⟨ringHeader + sizeofRequest, key.take (strlen key)⟩]

/-- The stores of a call. -/
def Call.stores : Call → List Extent
  | .write r =>
    [⟨ringHeader, requestHeader r.op.op (len16 r.key) (len16 r.val)⟩,
      ⟨ringHeader + sizeofRequest, r.key.take (len16 r.key)⟩,
      ⟨ringHeader + sizeofRequest + len16 r.key, r.val.take (len16 r.val)⟩]
  | .get key => keyStores .get key
  | .delete key => keyStores .delete key
  | .alloc => keyStores .alloc []

/-- A request is prepared by these stores. -/
theorem prepare_eq_stores (x : Call) (b : Buf) :
    x.prepare b = x.stores.foldl (fun b e => b.write e.start e.data) b := by
  cases x <;> rfl

/-- The stores of a call are inside a client's buffer. -/
def FrontEnd.Holds (fe : FrontEnd) (x : Call) : Prop :=
  ∀ e ∈ x.stores, e.stop ≤ fe.bufSize .client

/-- The stores of a key's and a value's requests, and the reply with the value. -/
structure FrontEnd.Inside (fe : FrontEnd) (r : Record) : Prop where
  write : fe.Holds (.write r)
  get : fe.Holds (.get r.key)
  delete : fe.Holds (.delete r.key)
  reply : ringHeader + sizeofRequest + strlen r.val ≤ fe.bufSize .client

section
variable {fe : FrontEnd} {r : Record} {key : Bytes}

theorem holds_write_iff (fe : FrontEnd) (h : r.length < 2 ^ 16) :
    fe.Holds (.write r) ↔ ringHeader + r.length ≤ fe.bufSize .client := by
  have hk : len16 r.key = strlen r.key := Nat.mod_eq_of_lt (by unfold Record.length at h; omega)
  have hv : len16 r.val = strlen r.val := Nat.mod_eq_of_lt (by unfold Record.length at h; omega)
  have hkt := length_take_len16 r.key
  have hvt := length_take_len16 r.val
  rw [hk] at hkt
  rw [hv] at hvt
  unfold FrontEnd.Holds Call.stores
  simp only [List.forall_mem_cons, List.not_mem_nil, false_implies, implies_true, and_true,
    Extent.stop, length_requestHeader, hk, hv, hkt, hvt]
  unfold Record.length
  constructor <;> intro h <;> omega

theorem holds_key (h : ringHeader + sizeofRequest + strlen key ≤ fe.bufSize .client)
    (op : Operation) : ∀ e ∈ keyStores op key, e.stop ≤ fe.bufSize .client := by
  have hlen : (key.take (strlen key)).length = strlen key := by
    rw [List.length_take]
    exact Nat.min_eq_left (strlen_le key)
  unfold keyStores
  simp only [List.forall_mem_cons, List.not_mem_nil, false_implies, implies_true, and_true,
    Extent.stop, length_requestHeader, hlen]
  omega

/-- A request of up to `MAX_REQUEST` bytes, and the reply with its value. -/
theorem inside_iff (fe : FrontEnd) (h : r.length ≤ maxRequest) :
    fe.Inside r ↔ (fe = .pmr → ringHeader + r.length ≤ maxRequest) := by
  have hw := holds_write_iff fe (lt_of_le_of_lt h (by decide))
  have hsize : ringHeader + r.length ≤ fe.bufSize .client ↔
      (fe = .pmr → ringHeader + r.length ≤ maxRequest) := by
    cases fe with
    | pmr => simp [FrontEnd.bufSize]
    | pmem | group =>
      simp only [FrontEnd.bufSize, reduceCtorEq, false_implies, iff_true]
      omega
  rw [← hsize, ← hw]
  refine ⟨FrontEnd.Inside.write, fun hin => ?_⟩
  have hroom := hw.1 hin
  unfold Record.length at hroom
  have hkey : ringHeader + sizeofRequest + strlen r.key ≤ fe.bufSize .client := by omega
  exact ⟨hin, holds_key hkey .get, holds_key hkey .delete, by omega⟩

/-! ## Runs -/

/-- What a step stores into a client's buffer, from there or from the clerk, is inside it. -/
def Posting.Inside (fe : FrontEnd) : Posting → Prop
  | request x _ => fe.Holds x
  | reply n => ringHeader + sizeofRequest + n ≤ fe.bufSize .client
  | close => ∀ e ∈ keyStores .close [], e.stop ≤ fe.bufSize .client
  | recv | nothing => True

theorem holds_empty (fe : FrontEnd) (op : Operation) :
    ∀ e ∈ keyStores op [], e.stop ≤ fe.bufSize .client :=
  holds_key (by cases fe <;> decide) op

theorem posting_inside {x : Posting} (h : x.Fits fe) : x.Inside fe := by
  cases x with
  | nothing | recv => trivial
  | close => exact holds_empty fe .close
  | reply n =>
    have hn : n ≤ fe.bufSize .client - ringHeader - sizeofRequest := h
    have hb : ringHeader + sizeofRequest ≤ fe.bufSize .client := by cases fe <;> decide
    show ringHeader + sizeofRequest + n ≤ _
    omega
  | request x off =>
    cases x with
    | write r =>
      obtain ⟨hs, hl, -⟩ := h
      have hlen : r.length = r.size := by
        unfold Record.length Record.size
        rw [strlen_of_nulFree hs.1, strlen_of_nulFree hs.2.1]
      exact (holds_write_iff fe (hlen ▸ hs.2.2)).2 (hlen ▸ hl)
    | get key =>
      have hl := h.2
      rw [← strlen_of_nulFree h.1] at hl
      exact holds_key hl .get
    | delete key =>
      have hl := h.2
      rw [← strlen_of_nulFree h.1] at hl
      exact holds_key hl .delete
    | alloc => exact holds_empty fe .alloc

end

/-- **The client's buffer**: a request of up to `MAX_REQUEST` bytes and the reply with its value are
inside it exactly if the client is not a `PMRClient` or the request has `RING_HEADER` bytes to
spare; and in every run whose requests are of this kind no request and no reply leaves it. -/
theorem client_buffer_iff (fe : FrontEnd) :
    (∀ r : Record, r.length ≤ maxRequest →
      (fe.Inside r ↔ (fe = .pmr → ringHeader + r.length ≤ maxRequest))) ∧
    ∀ x : Posting, fe.Posts x → x.Inside fe :=
  ⟨fun _ h => inside_iff fe h, fun _ h => posting_inside h.fits⟩

/-- A short record of a `PMRClient`, and one that a run of the PMem front end posts. -/
theorem client_buffer_short :
    FrontEnd.pmr.Inside ⟨.put, [107], [1, 2]⟩ ∧
    FrontEnd.Posts .pmem (.request (.write ⟨.put, [107], [1, 2]⟩) 0) ∧
    Posting.Inside .pmem (.request (.write ⟨.put, [107], [1, 2]⟩) 0) := by
  obtain ⟨tr, s, hr, hs, hp⟩ : ∃ tr s, Pmem.Run Pmem.Fit (fun _ => none) tr s ∧
      (Pmem.step s (.conn 0 (.call (.write ⟨.put, [107], [1, 2]⟩)))).isSome ∧
      Pmem.posting s (.conn 0 (.call (.write ⟨.put, [107], [1, 2]⟩))) =
        .request (.write ⟨.put, [107], [1, 2]⟩) 0 :=
    ⟨_, _, Steps.of_exec_get [.connect (fun _ => 0) (fun _ => 0) (fun _ => 0)] (by decide +kernel),
      by decide +kernel, by decide +kernel⟩
  obtain ⟨⟨s', es⟩, hs⟩ := Option.isSome_iff_exists.1 hs
  have h := FrontEnd.Posts.pmem (by simp [Store.Bounded]) hr
    (show Pmem.Fit s (.conn 0 (.call (.write ⟨.put, [107], [1, 2]⟩))) by
      intro x hx
      cases hx
      decide) hs
  rw [hp] at h
  refine ⟨((client_buffer_iff .pmr).1 _ (by decide)).2 (fun _ => by decide), h, ?_⟩
  exact (client_buffer_iff .pmem).2 _ h

/-- A request of exactly `MAX_REQUEST` bytes, and the reply with its value, leave the buffer of a
`PMRClient`. -/
theorem client_buffer_overflow : ∃ r : Record, r.length = maxRequest ∧
    (∃ e ∈ (Call.write r).stores, FrontEnd.pmr.bufSize .client < e.stop) ∧
    FrontEnd.pmr.bufSize .client < ringHeader + sizeofRequest + strlen r.val ∧
    ¬ FrontEnd.pmr.Inside r := by
  obtain ⟨v, hlen, h0⟩ : ∃ v : Bytes, v.length = 4087 ∧ 0 ∉ v :=
    ⟨List.replicate 4087 1, List.length_replicate,
      fun h => absurd (List.eq_of_mem_replicate h) (by decide)⟩
  have hv : strlen v = 4087 := (strlen_of_nulFree h0).trans hlen
  have hmax : (Record.mk .put [107] v).length = maxRequest := by
    simp only [Record.length, hv]
    decide
  have hstore : ¬ FrontEnd.pmr.Holds (.write ⟨.put, [107], v⟩) := by
    rw [holds_write_iff .pmr (hmax ▸ by decide), hmax]
    decide
  refine ⟨_, hmax, ?_, by rw [hv]; decide, fun h => hstore h.write⟩
  by_contra hno
  refine hstore fun e he => ?_
  by_contra hlt
  exact hno ⟨e, he, Nat.lt_of_not_le hlt⟩

end PMRAccess.Rdma
