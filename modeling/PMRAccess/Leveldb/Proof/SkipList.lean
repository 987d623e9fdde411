import PMRAccess.Leveldb.SkipList
import PMRAccess.Lib.Linked

/-!
# The skip list is linearizable

`Shape`: on every level the nodes are linked in the order of their keys, and each is also on the level
below. A reader that is at a node of a level goes on from there whatever is inserted meanwhile, and
its last load, on the lowest level, tells where its key is at that moment (`Shape.find_end`); there
the search takes effect. An insertion takes effect when its node is linked on the lowest level; on the
levels above, what it found before is still so, since nobody else inserts (`Linking`).
-/

namespace PMRAccess.Leveldb.SkipList

open Lib

/-! ## The keys in the list -/

section
variable {Key : Type} {m : Memory Key} {lv : Nat → List Nat} {i level : Nat}

def Memory.keys (m : Memory Key) (lv : Nat → List Nat) : List Key := (lv 0).map m.key

theorem find?_keys (m : Memory Key) (lv : Nat → List Nat) (q : Key → Bool) :
    (m.keys lv).find? q = ((lv 0).dropWhile fun n => !q (m.key n)).head?.map m.key := by
  rw [Memory.keys, List.find?_eq_head?_dropWhile_not, List.dropWhile_map, List.head?_map]
  rfl

theorem takeWhile_keys (q : Key → Bool) :
    ((m.keys lv).takeWhile q).getLast? = ((lv 0).takeWhile fun n => q (m.key n)).getLast?.map m.key := by
  rw [Memory.keys, List.takeWhile_map, List.getLast?_map]
  rfl

/-! ## Stores -/

/-- The memory with a new node, `NewNode` and the store to `max_height_`. -/
def Memory.alloc (m : Memory Key) (key : Key) (height : Nat) : Memory Key :=
  { m with
    key := Function.update m.key m.allocated key
    maxHeight := if height > m.maxHeight then height else m.maxHeight
    allocated := m.allocated + 1 }

theorem alloc_maxHeight (m : Memory Key) (key : Key) (height : Nat) :
    m.maxHeight ≤ (m.alloc key height).maxHeight ∧ height ≤ (m.alloc key height).maxHeight := by
  simp only [Memory.alloc]
  split <;> omega

theorem setNext_next (m : Memory Key) (n level : Nat) (x : Option Nat) (y i : Nat) :
    (m.setNext n level x).next y i = if y = n ∧ i = level then x else m.next y i := by
  simp only [Memory.setNext, Function.update_apply]
  by_cases hy : y = n
  · subst hy
    by_cases hi : i = level <;> simp [hi]
  · simp [hy]

theorem setNext_other (m : Memory Key) (n : Nat) (x : Option Nat) (hi : i ≠ level) :
    (fun y => (m.setNext n level x).next y i) = fun y => m.next y i := by
  funext y
  rw [setNext_next, if_neg fun h => hi h.2]

theorem setNext_same (m : Memory Key) (n level : Nat) (x : Option Nat) :
    (fun y => (m.setNext n level x).next y level) =
      Function.update (fun y => m.next y level) n x := by
  funext y
  by_cases hy : y = n <;> simp [setNext_next, hy]

end

variable {Key : Type} [LinearOrder Key] {m m' : Memory Key} {lv lv' : Nat → List Nat}
  {op : ListOp Key} {key : Key} {prev : Nat → Nat} {x y n c height i level choice : Nat}

/-! ## The levels -/

/-- The nodes of every level, without `head_`. -/
structure Shape (m : Memory Key) (lv : Nat → List Nat) : Prop where
  linked : ∀ i, Linked (fun x => m.next x i) 0 (lv i)
  sorted : ∀ i, (lv i).Pairwise fun x y => m.key x < m.key y
  sub : ∀ i, lv (i + 1) ⊆ lv i
  range : ∀ x ∈ lv 0, x ≠ 0 ∧ x < m.allocated
  top : ∀ i, m.maxHeight ≤ i → lv i = []
  height : 1 ≤ m.maxHeight ∧ m.maxHeight ≤ kMaxHeight

/-- The node that is last before a key. -/
def Memory.before (m : Memory Key) (l : List Nat) (key : Key) : Nat :=
  lastWhere (fun n => decide (m.key n < key)) 0 l

namespace Shape

theorem sub_le (h : Shape m lv) (hi : level ≤ i) : lv i ⊆ lv level := by
  induction i, hi using Nat.le_induction with
  | base => exact fun _ hx => hx
  | succ i _ ih => exact fun _ hx => ih (h.sub i hx)

theorem mem_range (h : Shape m lv) (hx : x ∈ lv i) : x ≠ 0 ∧ x < m.allocated :=
  h.range x (h.sub_le (Nat.zero_le i) hx)

theorem nodup (h : Shape m lv) (i : Nat) : (0 :: lv i).Nodup := by
  refine List.nodup_cons.2 ⟨fun h0 => (h.mem_range h0).1 rfl, (h.sorted i).imp ?_⟩
  rintro x y hlt rfl
  exact lt_irrefl _ hlt

/-- A search for keys below some other one. -/
theorem closed (h : Shape m lv) (i : Nat) {p : Nat → Bool}
    (hp : ∀ x y, m.key x < m.key y → p y = true → p x = true) :
    (lv i).Pairwise fun x y => p y = true → p x = true :=
  (h.sorted i).imp fun {x y} => hp x y

end Shape

theorem before_mem (m : Memory Key) (l : List Nat) (key : Key) :
    m.before l key = 0 ∨ m.before l key ∈ l :=
  (lastWhere_mem _ _ _).imp_right And.left

/-! ## Searches -/

/-- The operation goes through the levels. -/
def Searches : ListOp Key → Prop
  | .seekToFirst | .next _ => False
  | _ => True

/-- A search may be at `x` on this level. -/
def Memory.MayBeAt (m : Memory Key) (op : ListOp Key) (l : List Nat) (x : Nat) : Prop :=
  x = 0 ∨ (x ∈ l ∧ m.goesOn op (some x) = true)

theorem goesOn_lt (h : m.key x < m.key y) (hy : m.goesOn op (some y) = true) :
    m.goesOn op (some x) = true := by
  cases op <;> simp only [Memory.goesOn, Memory.keyIsAfterNode, decide_eq_true_eq, ge_iff_le,
    not_le, Bool.not_eq_true', decide_eq_false_iff_not, reduceCtorEq] at hy ⊢ <;>
    exact h.trans hy

theorem goesOn_none : m.goesOn op none = false := by cases op <;> rfl

theorem Memory.MayBeAt.down (h : Shape m lv) (hx : m.MayBeAt op (lv level) x) :
    m.MayBeAt op (lv (level - 1)) x :=
  hx.imp_right (And.imp_left fun hx => h.sub_le (Nat.sub_le _ _) hx)

theorem Memory.MayBeAt.forward (h : Shape m lv) (hx : m.MayBeAt op (lv level) x)
    (hgo : m.goesOn op (m.next x level) = true) :
    ∃ y, m.next x level = some y ∧ m.MayBeAt op (lv level) y := by
  cases hy : m.next x level with
  | none =>
    rw [hy, goesOn_none] at hgo
    cases hgo
  | some y =>
    rw [hy] at hgo
    exact ⟨y, rfl, .inr ⟨(h.linked level).next_mem (hx.imp_right And.left) hy, hgo⟩⟩

/-- Where a search leaves a level. -/
theorem Shape.find_end (h : Shape m lv) (hx : m.MayBeAt op (lv level) x)
    (hstop : m.goesOn op (m.next x level) = false) :
    x = lastWhere (fun n => m.goesOn op (some n)) 0 (lv level) ∧
      m.next x level = ((lv level).dropWhile fun n => m.goesOn op (some n)).head? :=
  (h.linked level).search_end (h.closed level fun _ _ => goesOn_lt) hx fun y hy => by
    rwa [hy] at hstop

/-! ## What a search returns -/

theorem Shape.keys_sorted (h : Shape m lv) : (m.keys lv).Pairwise (· < ·) :=
  List.pairwise_map.2 (h.sorted 0)

/-- An iterator is set to the last node for which a search goes on. -/
theorem Shape.seat_eq (h : Shape m lv) (op : ListOp Key) (p : Nat → Bool) :
    m.seat op (lastWhere p 0 (lv 0)) = ⟨.ret op (.at (((lv 0).takeWhile p).getLast?.map m.key)),
      ((lv 0).takeWhile p).getLast?⟩ := by
  rw [lastWhere, List.getLastD_eq_getLast?]
  cases hl : ((lv 0).takeWhile p).getLast? with
  | none => rfl
  | some n =>
    have hmem : n ∈ lv 0 := List.takeWhile_subset p (List.mem_of_getLast? hl)
    simp only [Option.getD_some, Memory.seat, if_neg (h.range n hmem).1, Option.map_some]

/-- In a sorted list a key is where it would be. -/
theorem mem_iff_find? {ks : List Key} (h : ks.Pairwise (· < ·)) :
    key ∈ ks ↔ ks.find? (fun k => decide (key ≤ k)) = some key := by
  induction ks with
  | nil => simp
  | cons k ks ih =>
    obtain ⟨hk, h⟩ := List.pairwise_cons.1 h
    by_cases hle : key ≤ k
    · rw [List.find?_cons_of_pos (by simpa using hle), List.mem_cons, Option.some.injEq]
      exact ⟨fun hm => hm.elim Eq.symm fun hm => absurd (hk key hm) (not_lt_of_ge hle),
        fun he => .inl he.symm⟩
    · rw [List.find?_cons_of_neg (by simpa using hle), ← ih h, List.mem_cons]
      exact or_iff_right fun he => hle (le_of_eq he)

/-- What the object answers. -/
theorem Shape.found_eq (h : Shape m lv) (prev : Nat → Nat) (hx : m.MayBeAt op (lv 0) x)
    (hstop : m.goesOn op (m.next x 0) = false) (hop : ∀ key, op ≠ .insert key)
    (hsearch : Searches op) (node : Option Nat)
    (hnode : ∀ n, node = some n → n ∈ lv 0) :
    ∃ res node', m.found op x (m.next x 0) prev node = ⟨.ret op res, node'⟩ ∧
      SortedList.apply (m.keys lv) op = (m.keys lv, res) ∧ ∀ n, node' = some n → n ∈ lv 0 := by
  obtain ⟨hlast, hnext⟩ := h.find_end hx hstop
  have hsub : ∀ n, ((lv 0).dropWhile fun n => m.goesOn op (some n)).head? = some n → n ∈ lv 0 :=
    fun n hn => List.dropWhile_subset _ (List.mem_of_head? hn)
  cases op with
  | insert key => exact absurd rfl (hop key)
  | seekToFirst => exact hsearch.elim
  | next key => exact hsearch.elim
  | contains key =>
    refine ⟨_, node, rfl, ?_, hnode⟩
    have hfind := find?_keys m lv fun k => decide (key ≤ k)
    simp only [← decide_not, not_le] at hfind
    simp only [Memory.goesOn, Memory.keyIsAfterNode] at hnext
    simp only [SortedList.apply, mem_iff_find? h.keys_sorted, hfind, hnext]
    cases ((lv 0).dropWhile fun n => decide (m.key n < key)).head? <;> simp
  | seek key =>
    refine ⟨_, _, rfl, ?_, fun n hn => hsub n (hnext ▸ hn)⟩
    simp only [SortedList.apply, find?_keys, hnext, ← decide_not, not_le, Memory.goesOn,
      Memory.keyIsAfterNode]
  | seekToLast =>
    have htake : (lv 0).takeWhile (fun n => m.goesOn .seekToLast (some n)) = lv 0 :=
      List.takeWhile_eq_self_iff.2 fun _ _ => rfl
    refine ⟨_, _, ?_, rfl, fun n hn => List.mem_of_getLast? hn⟩
    rw [hlast, Memory.found, h.seat_eq, htake, Memory.keys, List.getLast?_map]
  | prev key =>
    have hgo : ∀ n, m.goesOn (.prev key) (some n) = decide (m.key n < key) := fun n => by
      simp only [Memory.goesOn, ge_iff_le, ← decide_not, not_le]
    simp only [hgo] at hlast
    have hseat := h.seat_eq (.prev key) fun n => decide (m.key n < key)
    rw [← hlast] at hseat
    refine ⟨_, _, hseat, ?_, fun n hn => List.takeWhile_subset _ (List.mem_of_getLast? hn)⟩
    rw [SortedList.apply, takeWhile_keys]

/-- `SeekToFirst` and `Next` load one pointer. -/
def Memory.LoadsAt (m : Memory Key) (l : List Nat) : ListOp Key → Nat → Prop
  | .seekToFirst, x => x = 0
  | .next key, x => x ∈ l ∧ m.key x = key
  | _, _ => False

theorem Shape.load_eq (h : Shape m lv) (prev : Nat → Nat) (hx : m.LoadsAt (lv 0) op x) (node : Option Nat) :
    ∃ res node', m.found op x (m.next x 0) prev node = ⟨.ret op res, node'⟩ ∧
      SortedList.apply (m.keys lv) op = (m.keys lv, res) ∧ ∀ n, node' = some n → n ∈ lv 0 := by
  cases op with
  | insert | contains | seek | seekToLast | prev => exact hx.elim
  | seekToFirst =>
    obtain rfl : x = 0 := hx
    have hnext := (h.linked 0).next_head
    refine ⟨_, _, rfl, ?_, fun n hn => (h.linked 0).next_mem (.inl rfl) hn⟩
    rw [hnext, SortedList.apply, Memory.keys, List.head?_map]
  | next key =>
    obtain ⟨hx, rfl⟩ := hx
    obtain ⟨-, hnext⟩ := (h.linked 0).search_end (p := fun n => decide (m.key n ≤ m.key x))
      (h.closed 0 fun y z hlt hz => by simpa using hlt.le.trans (by simpa using hz))
      (.inr ⟨hx, by simp⟩) (fun y hy => by
        simpa using (h.linked 0).pairwise_next (h.sorted 0) hx hy)
    refine ⟨_, _, rfl, ?_, fun n hn => (h.linked 0).next_mem (.inr hx) hn⟩
    simp only [SortedList.apply, find?_keys, hnext, ← decide_not, not_lt]

/-! ## Insertions -/

/-- No key in the list equals `key`. -/
def Memory.Unused (m : Memory Key) (l : List Nat) (key : Key) : Prop := ∀ y ∈ l, m.key y ≠ key

/-- A node that is linked below level `i`, and on the other levels up to its height is not. -/
structure Linking (m : Memory Key) (lv : Nat → List Nat) (key : Key) (prev : Nat → Nat)
    (x height i : Nat) : Prop where
  lt : i < height
  height_le : height ≤ m.maxHeight
  node : x ≠ 0 ∧ x < m.allocated ∧ m.key x = key
  unused : ∀ y ∈ lv 0, y ≠ x → m.key y ≠ key
  below : ∀ j < i, x ∈ lv j
  above : ∀ j, i ≤ j → x ∉ lv j
  prev : ∀ j, i ≤ j → j < height → prev j = m.before (lv j) key

/-- What holds of a thread where it is. -/
def PcOk (m : Memory Key) (lv : Nat → List Nat) : Pc Key → Prop
  | .idle | .ret _ _ => True
  | .start op => Searches op ∧ ∀ key, op = .insert key → m.Unused (lv 0) key
  | .find op x level prev => level < m.maxHeight ∧ m.MayBeAt op (lv level) x ∧
      Searches op ∧ ∀ key, op = .insert key → m.Unused (lv 0) key ∧
        ∀ i, level < i → i < m.maxHeight → prev i = m.before (lv i) key
  | .load op x => m.LoadsAt (lv 0) op x
  | .newNode key prev => m.Unused (lv 0) key ∧
      ∀ i < m.maxHeight, prev i = m.before (lv i) key
  | .link key prev x height i => Linking m lv key prev x height i
  | .publish key prev x height i => Linking m lv key prev x height i ∧
      m.next x i = m.next (prev i) i

/-- The thread inserts. -/
def Pc.inserts : Pc Key → Bool
  | .start (.insert _) | .find (.insert _) _ _ _ | .newNode _ _ | .link _ _ _ _ _
  | .publish _ _ _ _ _ | .ret (.insert _) _ => true
  | _ => false

/-- What others insert does not matter to a reader. -/
theorem PcOk.mono {pc : Pc Key} (hp : pc.inserts = false) (hm : m.maxHeight ≤ m'.maxHeight)
    (hl : ∀ i, lv i ⊆ lv' i) (hk : ∀ i, ∀ y ∈ lv i, m'.key y = m.key y) (h : PcOk m lv pc) :
    PcOk m' lv' pc := by
  have hgo : ∀ {op : ListOp Key} {i y : Nat}, y ∈ lv i →
      m'.goesOn op (some y) = m.goesOn op (some y) := by
    intro op i y hy
    cases op <;> simp only [Memory.goesOn, Memory.keyIsAfterNode, hk i y hy]
  cases pc with
  | idle | ret => trivial
  | start op =>
    refine ⟨h.1, ?_⟩
    rintro key rfl
    simp [Pc.inserts] at hp
  | find op x level prev =>
    obtain ⟨hlt, hx, hop, -⟩ := h
    refine ⟨hlt.trans_le hm, hx.imp_right fun ⟨hx, hgx⟩ => ⟨hl _ hx, (hgo hx).trans hgx⟩, hop, ?_⟩
    rintro key rfl
    simp [Pc.inserts] at hp
  | load op x =>
    cases op with
    | insert | contains | seek | seekToLast | prev => exact h
    | seekToFirst => exact h
    | next key => exact ⟨hl 0 h.1, (hk 0 x h.1).trans h.2⟩
  | newNode | link | publish => simp [Pc.inserts] at hp

/-! ### A new node -/

theorem before_congr {l : List Nat} (hk : ∀ y ∈ l, m'.key y = m.key y) :
    m'.before l key = m.before l key :=
  lastWhere_congr fun y hy => by rw [hk y hy]

theorem Shape.alloc_key (h : Shape m lv) (key : Key) (height : Nat) {i y : Nat} (hy : y ∈ lv i) :
    (m.alloc key height).key y = m.key y :=
  Function.update_of_ne (h.mem_range hy).2.ne _ _

theorem Shape.alloc (h : Shape m lv) (key : Key) (hh : height ≤ kMaxHeight) :
    Shape (m.alloc key height) lv where
  linked := h.linked
  sorted i := (h.sorted i).imp_of_mem fun hx hy hlt => by
    rwa [h.alloc_key key height hx, h.alloc_key key height hy]
  sub := h.sub
  range x hx := ⟨(h.range x hx).1, Nat.lt_succ_of_lt (h.range x hx).2⟩
  top i hi := h.top i ((alloc_maxHeight m key height).1.trans hi)
  height := by
    have h1 := h.height
    simp only [Memory.alloc]
    split <;> omega

theorem Shape.linking (h : Shape m lv) (hh : 1 ≤ height) (hu : m.Unused (lv 0) key)
    (hpos : m.allocated ≠ 0) (hp : ∀ i < m.maxHeight, prev i = m.before (lv i) key) :
    Linking (m.alloc key height) lv key
      (fun i => if m.maxHeight ≤ i ∧ i < height then 0 else prev i) m.allocated height 0 where
  lt := hh
  height_le := (alloc_maxHeight m key height).2
  node := ⟨hpos, Nat.lt_succ_self _, Function.update_self ..⟩
  unused y hy _ := by
    rw [h.alloc_key key height hy]
    exact hu y hy
  below j hj := absurd hj (Nat.not_lt_zero j)
  above j _ hx := lt_irrefl _ (h.mem_range hx).2
  prev j _ hj := by
    rw [before_congr fun y hy => h.alloc_key key height hy]
    by_cases hm : m.maxHeight ≤ j
    · rw [if_pos ⟨hm, hj⟩, h.top j hm]
      rfl
    · rw [if_neg fun hc => hm hc.1]
      exact hp j (Nat.lt_of_not_le hm)

/-! ### Its links -/

namespace Linking

theorem prev_ne (h : Linking m lv key prev x height i) : prev i ≠ x := by
  rw [h.prev i le_rfl h.lt]
  rcases before_mem m (lv i) key with he | hm
  · rw [he]
    exact h.node.1.symm
  · intro he
    exact h.above i le_rfl (he ▸ hm)

/-- `NoBarrier_SetNext`: the node is not yet on its level. -/
theorem shape_link (h : Linking m lv key prev x height i) (hs : Shape m lv) (y : Option Nat) :
    Shape (m.setNext x i y) lv where
  linked j := by
    by_cases hj : j = i
    · subst hj
      refine (hs.linked j).congr fun z hz => ?_
      have hzx : z ≠ x := by
        rintro rfl
        exact hz.elim h.node.1 (h.above j le_rfl)
      rw [setNext_next, if_neg fun hc => hzx hc.1]
    · rw [setNext_other m x y hj]
      exact hs.linked j
  sorted := hs.sorted
  sub := hs.sub
  range := hs.range
  top := hs.top
  height := hs.height

theorem link (h : Linking m lv key prev x height i) (y : Option Nat) :
    Linking (m.setNext x i y) lv key prev x height i :=
  ⟨h.lt, h.height_le, h.node, h.unused, h.below, h.above, h.prev⟩

end Linking

/-- The levels behind `SetNext`. -/
def Memory.insertAt (m : Memory Key) (lv : Nat → List Nat) (key : Key) (x i : Nat) : Nat → List Nat :=
  Function.update lv i ((lv i).takeWhile (fun n => decide (m.key n < key)) ++
    x :: (lv i).dropWhile fun n => decide (m.key n < key))

theorem mem_insertAt {y j : Nat} :
    y ∈ m.insertAt lv key x i j ↔ y ∈ lv j ∨ (j = i ∧ y = x) := by
  by_cases hj : j = i
  · subst hj
    rw [Memory.insertAt, Function.update_self, List.mem_append, List.mem_cons]
    conv_rhs => rw [← List.takeWhile_append_dropWhile (p := fun n => decide (m.key n < key)) (l := lv j),
      List.mem_append]
    tauto
  · rw [Memory.insertAt, Function.update_of_ne hj]
    tauto

theorem subset_insertAt (m : Memory Key) (lv : Nat → List Nat) (key : Key) (x i j : Nat) :
    lv j ⊆ m.insertAt lv key x i j := fun _ hy => mem_insertAt.2 (.inl hy)

namespace Linking

/-- `SetNext`: the node is on its level. -/
theorem shape_publish (h : Linking m lv key prev x height i) (hs : Shape m lv)
    (hnext : m.next x i = m.next (prev i) i) :
    Shape (m.setNext (prev i) i (some x)) (m.insertAt lv key x i) where
  linked j := by
    by_cases hj : j = i
    · subst hj
      rw [setNext_same, Memory.insertAt, Function.update_self, h.prev j le_rfl h.lt]
      refine (hs.linked j).insert (hs.nodup j) ?_ ?_
      · rw [List.mem_cons, not_or]
        exact ⟨h.node.1, h.above j le_rfl⟩
      · rw [hnext, h.prev j le_rfl h.lt]
        rfl
    · rw [setNext_other m _ _ hj, Memory.insertAt, Function.update_of_ne hj]
      exact hs.linked j
  sorted j := by
    by_cases hj : j = i
    · subst hj
      rw [Memory.insertAt, Function.update_self]
      have hlow : ∀ y ∈ (lv j).takeWhile fun n => decide (m.key n < key), m.key y < key := fun y hy => by
        simpa using List.mem_takeWhile_imp hy
      have hhigh : ∀ y ∈ (lv j).dropWhile fun n => decide (m.key n < key), key < m.key y := fun y hy => by
        have hge := dropWhile_neg (hs.closed j fun y z hlt hz => by
          simpa using hlt.trans (by simpa using hz)) hy
        have hmem := List.dropWhile_subset _ hy
        have hne : y ≠ x := fun he => h.above j le_rfl (he ▸ hmem)
        exact lt_of_le_of_ne (by simpa using hge)
          (h.unused y (hs.sub_le (Nat.zero_le j) hmem) hne).symm
      have hsorted := hs.sorted j
      rw [← List.takeWhile_append_dropWhile (p := fun n => decide (m.key n < key)) (l := lv j),
        List.pairwise_append] at hsorted
      refine List.pairwise_append.2 ⟨hsorted.1, List.pairwise_cons.2 ⟨fun y hy => ?_, hsorted.2.1⟩, ?_⟩
      · exact h.node.2.2.symm ▸ hhigh y hy
      · rintro y hy z hz
        rcases List.mem_cons.1 hz with rfl | hz
        · exact h.node.2.2.symm ▸ hlow y hy
        · exact hsorted.2.2 y hy z hz
    · rw [Memory.insertAt, Function.update_of_ne hj]
      exact hs.sorted j
  sub j y hy := by
    rw [mem_insertAt] at hy ⊢
    rcases hy with hy | ⟨hj, rfl⟩
    · exact .inl (hs.sub j hy)
    · exact .inl (h.below j (by omega))
  range y hy := by
    rcases mem_insertAt.1 hy with hy | ⟨-, rfl⟩
    · exact hs.range y hy
    · exact ⟨h.node.1, h.node.2.1⟩
  top j hj := by
    have hji : j ≠ i := by
      have h1 := h.lt
      have h2 := h.height_le
      rintro rfl
      exact absurd (h1.trans_le h2) (Nat.not_lt_of_le hj)
    rw [Memory.insertAt, Function.update_of_ne hji]
    exact hs.top j hj
  height := hs.height

theorem publish (h : Linking m lv key prev x height i) (hi : i + 1 < height) :
    Linking (m.setNext (prev i) i (some x)) (m.insertAt lv key x i) key prev x height (i + 1) where
  lt := hi
  height_le := h.height_le
  node := h.node
  unused y hy hyx := by
    rcases mem_insertAt.1 hy with hy | ⟨-, rfl⟩
    · exact h.unused y hy hyx
    · exact absurd rfl hyx
  below j hj := by
    rw [mem_insertAt]
    rcases Nat.lt_succ_iff_lt_or_eq.1 hj with hj | rfl
    · exact .inl (h.below j hj)
    · exact .inr ⟨rfl, rfl⟩
  above j hj hx := by
    rcases mem_insertAt.1 hx with hx | ⟨rfl, -⟩
    · exact h.above j (by omega) hx
    · omega
  prev j hj hlt := by
    rw [Memory.insertAt, Function.update_of_ne (by omega)]
    exact h.prev j (by omega) hlt

/-- The lowest level takes the key. -/
theorem keys_publish (h : Linking m lv key prev x height 0) :
    (m.setNext (prev 0) 0 (some x)).keys (m.insertAt lv key x 0) =
      (m.keys lv).orderedInsert (· ≤ ·) key := by
  rw [Memory.keys, Memory.keys, List.orderedInsert_eq_take_drop, Memory.insertAt, Function.update_self,
    List.takeWhile_map, List.dropWhile_map, List.map_append, List.map_cons]
  simp only [Memory.setNext, h.node.2.2, not_le]
  rfl

end Linking

/-! ## The simulation -/

/-- Where a call is: executed, or not yet. -/
def Pc.phase : Pc Key → Phase (ListOp Key) (ListRes Key)
  | .idle => .idle
  | .start op | .find op _ _ _ | .load op _ => .called op
  | .newNode key _ => .called (.insert key)
  | .link key _ _ _ i | .publish key _ _ _ i =>
    if i = 0 then .called (.insert key) else .executed (.insert key) .inserted
  | .ret op res => .executed op res

/-- What a step of a thread keeps, and what it is in the atomic system. -/
structure Turned (m : Memory Key) (lv : Nat → List Nat) (c : Nat) (t : Thread Key)
    (m' : Memory Key) (lv' : Nat → List Nat) (t' : Thread Key) : Prop where
  shape : Shape m' lv'
  pos : m'.allocated ≠ 0
  pc : PcOk m' lv' t'.pc
  node : ∀ n, t'.node = some n → n ∈ lv' 0
  inserts : t'.pc.inserts = t.pc.inserts
  maxHeight : m.maxHeight ≤ m'.maxHeight
  sub : ∀ i, lv i ⊆ lv' i
  keys : ∀ i, ∀ y ∈ lv i, m'.key y = m.key y
  reader : t.pc.inserts = false → m' = m ∧ lv' = lv
  run : ∀ ph : Nat → Phase (ListOp Key) (ListRes Key), ph c = t.pc.phase →
    AtomicRun SortedList.apply (m.keys lv, ph) [] (m'.keys lv', Function.update ph c t'.pc.phase)

variable {t t' : Thread Key}

theorem run_same {ks : List Key} {φ : Phase (ListOp Key) (ListRes Key)}
    (ph : Nat → Phase (ListOp Key) (ListRes Key)) (h : ph c = φ) :
    AtomicRun SortedList.apply (ks, ph) [] (ks, Function.update ph c φ) := by
  rw [← h, Function.update_eq_self]
  exact .refl

/-- A step that changes nothing in the list. -/
theorem Turned.stay (hs : Shape m lv) (hpos : m.allocated ≠ 0) (hpc : PcOk m lv t'.pc)
    (hnode : ∀ n, t'.node = some n → n ∈ lv 0) (hi : t'.pc.inserts = t.pc.inserts)
    (hrun : ∀ ph : Nat → Phase (ListOp Key) (ListRes Key), ph c = t.pc.phase →
      AtomicRun SortedList.apply (m.keys lv, ph) [] (m.keys lv, Function.update ph c t'.pc.phase)) :
    Turned m lv c t m lv t' :=
  ⟨hs, hpos, hpc, hnode, hi, le_rfl, fun _ _ h => h, fun _ _ _ => rfl, fun _ => ⟨rfl, rfl⟩, hrun⟩

/-- A query is answered. -/
theorem Turned.answer (hs : Shape m lv) (hpos : m.allocated ≠ 0) {res : ListRes Key}
    {node : Option Nat} (hop : ∀ key, op ≠ .insert key) (hph : t.pc.phase = .called op)
    (hi : t.pc.inserts = false) (ht : t' = ⟨.ret op res, node⟩)
    (ha : SortedList.apply (m.keys lv) op = (m.keys lv, res)) (hnode : ∀ n, node = some n → n ∈ lv 0) :
    Turned m lv c t m lv t' := by
  subst ht
  refine .stay hs hpos trivial hnode ?_ fun ph hc => AtomicRun.exec (hc.trans hph) ha
  rw [hi]
  cases op <;> first | rfl | exact absurd rfl (hop _)

theorem turned (hs : Shape m lv) (hpos : m.allocated ≠ 0) (hpc : PcOk m lv t.pc)
    (hnode : ∀ n, t.node = some n → n ∈ lv 0) (h : turn m t choice = some (m', t')) (c : Nat) :
    ∃ lv', Turned m lv c t m' lv' t' := by
  obtain ⟨pc, node⟩ := t
  cases pc with
  | idle | ret => simp [turn] at h
  | start op =>
    simp only [turn] at h
    split at h
    · rename_i hsee
      obtain ⟨rfl, rfl⟩ : m = m' ∧ _ = t' := by simpa using h
      have hlt : 1 ≤ choice ∧ choice ≤ m.maxHeight := by
        have := hs.height
        cases op <;> simp [Memory.maySee] at hsee <;> omega
      refine ⟨lv, .stay hs hpos ⟨by omega, .inl rfl, hpc.1, ?_⟩ hnode (by cases op <;> rfl) run_same⟩
      rintro key rfl
      refine ⟨hpc.2 key rfl, fun i h1 h2 => ?_⟩
      simp only [Memory.maySee, decide_eq_true_eq] at hsee
      omega
    · cases h
  | find op x level prev =>
    obtain ⟨hlt, hx, hsearch, hins⟩ := hpc
    simp only [turn] at h
    split at h
    · rename_i hgo
      obtain ⟨rfl, rfl⟩ : m = m' ∧ _ = t' := by simpa using h
      obtain ⟨y, hy, hat⟩ := hx.forward hs hgo
      rw [hy]
      exact ⟨lv, .stay hs hpos ⟨hlt, hat, hsearch, hins⟩ hnode (by cases op <;> rfl) run_same⟩
    · rename_i hgo
      rw [Bool.not_eq_true] at hgo
      -- what an insertion has found on this level
      have hprev : ∀ key, op = .insert key → ∀ i, level ≤ i → i < m.maxHeight →
          Function.update prev level x i = m.before (lv i) key := by
        rintro key rfl i h1 h2
        by_cases hi : i = level
        · subst hi
          rw [Function.update_self]
          exact (hs.find_end hx hgo).1
        · rw [Function.update_of_ne hi]
          exact (hins key rfl).2 i (by omega) h2
      split at h
      · rename_i hlevel
        subst hlevel
        obtain ⟨rfl, rfl⟩ : m = m' ∧ _ = t' := by simpa using h
        by_cases hop : ∃ key, op = .insert key
        · obtain ⟨key, rfl⟩ := hop
          exact ⟨lv, .stay hs hpos ⟨(hins key rfl).1, fun i hi => hprev key rfl i (Nat.zero_le i) hi⟩
            hnode rfl run_same⟩
        · rw [not_exists] at hop
          obtain ⟨res, node', ht, ha, hn⟩ := hs.found_eq (Function.update prev 0 x) hx hgo hop
            hsearch node hnode
          exact ⟨lv, .answer hs hpos hop rfl (by
            cases op <;> first | rfl | exact absurd rfl (hop _)) ht ha hn⟩
      · rename_i hlevel
        obtain ⟨rfl, rfl⟩ : m = m' ∧ _ = t' := by simpa using h
        refine ⟨lv, .stay hs hpos ⟨by omega, hx.down hs, hsearch, fun key hop => ?_⟩ hnode
          (by cases op <;> rfl) run_same⟩
        exact ⟨(hins key hop).1, fun i h1 h2 => hprev key hop i (by omega) h2⟩
  | load op x =>
    obtain ⟨rfl, rfl⟩ : m = m' ∧ _ = t' := by simpa [turn] using h
    obtain ⟨res, node', ht, ha, hn⟩ := hs.load_eq (fun _ => 0) hpc node
    have hop : ∀ key, op ≠ .insert key := by
      rintro key rfl
      exact hpc
    exact ⟨lv, .answer hs hpos hop rfl rfl ht ha hn⟩
  | newNode key prev =>
    simp only [turn] at h
    split at h
    · rename_i hh
      obtain ⟨rfl, rfl⟩ : m.alloc key choice = m' ∧ _ = t' := by simpa [Memory.alloc] using h
      refine ⟨lv, hs.alloc key hh.2, Nat.succ_ne_zero _, hs.linking hh.1 hpc.1 hpos hpc.2, hnode, rfl,
        (alloc_maxHeight m key choice).1, fun _ _ h => h, fun _ _ hy => hs.alloc_key key choice hy,
        fun h => (Bool.noConfusion h), fun ph hc => ?_⟩
      have hkeys : (m.alloc key choice).keys lv = m.keys lv :=
        List.map_congr_left fun y hy => hs.alloc_key key choice hy
      rw [hkeys]
      exact run_same ph hc
    · cases h
  | link key prev x height i =>
    obtain ⟨rfl, rfl⟩ : _ = m' ∧ _ = t' := by simpa [turn] using h
    refine ⟨lv, hpc.shape_link hs _, hpos, ⟨hpc.link _, ?_⟩, hnode, rfl, le_rfl, fun _ _ h => h,
      fun _ _ _ => rfl, fun h => (Bool.noConfusion h), run_same⟩
    rw [setNext_next, if_pos ⟨rfl, rfl⟩, setNext_next, if_neg fun h => hpc.prev_ne h.1]
  | publish key prev x height i =>
    obtain ⟨rfl, rfl⟩ : _ = m' ∧ _ = t' := by simpa [turn] using h
    obtain ⟨hl, hnext⟩ := hpc
    have hsub := subset_insertAt m lv key x i
    refine ⟨m.insertAt lv key x i, hl.shape_publish hs hnext, hpos, ?_, fun n hn => hsub 0 (hnode n hn),
      ?_, le_rfl, hsub, fun _ _ _ => rfl, fun h => (Bool.noConfusion h), fun ph hc => ?_⟩
    · dsimp only
      split
      · trivial
      · rename_i hi
        exact hl.publish (by have := hl.lt; omega)
    · dsimp only
      split <;> rfl
    · by_cases hi : i = 0
      · subst hi
        have hph : (if 0 + 1 = height then Pc.ret (.insert key) .inserted
            else .link key prev x height (0 + 1)).phase = .executed (.insert key) .inserted := by
          split <;> rfl
        rw [hl.keys_publish, hph]
        exact AtomicRun.exec hc rfl
      · have hph : (if i + 1 = height then Pc.ret (.insert key) .inserted
            else .link key prev x height (i + 1)).phase =
              (Pc.publish key prev x height i).phase := by
          split <;> simp [Pc.phase, hi]
        have hkeys : (m.setNext (prev i) i (some x)).keys (m.insertAt lv key x i) = m.keys lv := by
          rw [Memory.keys, Memory.keys, Memory.insertAt, Function.update_of_ne (Ne.symm hi)]
          rfl
        rw [hkeys, hph]
        exact run_same ph hc

/-- What holds of a thread. -/
structure ThreadOk (m : Memory Key) (lv : Nat → List Nat) (writer : Option Nat) (c : Nat)
    (t : Thread Key) : Prop where
  pc : PcOk m lv t.pc
  node : ∀ n, t.node = some n → n ∈ lv 0
  writer : t.pc.inserts = true → writer = some c

/-- The keys in the list are the object, and the threads are in the phases of the clients. -/
structure Sim (lv : Nat → List Nat) (s : State Key)
    (x : Clients Nat (List Key) (ListOp Key) (ListRes Key)) : Prop where
  shape : Shape s.mem lv
  pos : s.mem.allocated ≠ 0
  keys : x.1 = s.mem.keys lv
  phases : ∀ c, x.2 c = (s.threads c).pc.phase
  threads : ∀ c, ThreadOk s.mem lv s.writer c (s.threads c)

variable {s s' : State Key} {x : Clients Nat (List Key) (ListOp Key) (ListRes Key)}

/-- One thread is somewhere else. -/
theorem Sim.thread {lv : Nat → List Nat} {m : Memory Key} {w : Option Nat} {c : Nat}
    (h : Sim lv s x) (hs : Shape m lv') (hpos : m.allocated ≠ 0) (hself : ThreadOk m lv' w c t)
    (hother : ∀ d ≠ c, ThreadOk m lv' w d (s.threads d)) :
    Sim lv' ⟨m, w, Function.update s.threads c t⟩
      (m.keys lv', Function.update x.2 c t.pc.phase) where
  shape := hs
  pos := hpos
  keys := rfl
  phases d := by
    by_cases hd : d = c
    · subst hd
      simp
    · simp [Function.update_of_ne hd, h.phases d]
  threads d := by
    by_cases hd : d = c
    · subst hd
      simpa using hself
    · simpa [Function.update_of_ne hd] using hother d hd

/-- The operation that a call starts. -/
theorem begin_ok {node : Option Nat} (hnode : ∀ n, node = some n → n ∈ lv 0)
    {a : Call Key} {pc : Pc Key} (hf : ∀ key, a = .insert key → m.Unused (lv 0) key)
    (h : m.begin node a = some (op, pc)) :
    pc.phase = .called op ∧ PcOk m lv pc ∧ (pc.inserts = true → ∃ key, a = .insert key) := by
  cases a with
  | insert key =>
    obtain ⟨rfl, rfl⟩ : .insert key = op ∧ _ = pc := by simpa [Memory.begin] using h
    refine ⟨rfl, ⟨trivial, ?_⟩, fun _ => ⟨key, rfl⟩⟩
    rintro key' he
    cases he
    exact hf key rfl
  | contains key | seek key =>
    obtain ⟨rfl, rfl⟩ : _ = op ∧ _ = pc := by simpa [Memory.begin] using h
    exact ⟨rfl, ⟨trivial, fun _ he => by cases he⟩, fun hi => by cases hi⟩
  | seekToFirst =>
    obtain ⟨rfl, rfl⟩ : _ = op ∧ _ = pc := by simpa [Memory.begin] using h
    exact ⟨rfl, rfl, fun hi => by cases hi⟩
  | seekToLast =>
    obtain ⟨rfl, rfl⟩ : _ = op ∧ _ = pc := by simpa [Memory.begin] using h
    exact ⟨rfl, ⟨trivial, fun _ he => by cases he⟩, fun hi => by cases hi⟩
  | next =>
    obtain ⟨n, hn, he⟩ := Option.map_eq_some_iff.1 h
    obtain ⟨rfl, rfl⟩ := Prod.mk.inj he
    exact ⟨rfl, ⟨hnode n hn, rfl⟩, fun hi => by cases hi⟩
  | prev =>
    obtain ⟨n, hn, he⟩ := Option.map_eq_some_iff.1 h
    obtain ⟨rfl, rfl⟩ := Prod.mk.inj he
    exact ⟨rfl, ⟨trivial, fun _ he => by cases he⟩, fun hi => by cases hi⟩

/-- The steps: a call, a return, a turn. -/
theorem step_cases {l : Nat × Act Key} {es : List (Seen Nat (ListOp Key) (ListRes Key))}
    (h : step s l = some (s', es)) :
    (∃ c a op pc, l = (c, .call a) ∧ (s.threads c).pc = .idle ∧
      s.mem.begin (s.threads c).node a = some (op, pc) ∧ es = [.call c op] ∧
      ∃ w, ((∃ key, a = .insert key) → s.writer = none ∧ w = some c) ∧
        ((∀ key, a ≠ .insert key) → w = s.writer) ∧
        s' = ⟨s.mem, w, Function.update s.threads c { s.threads c with pc }⟩) ∨
    (∃ c op res, (s.threads c).pc = .ret op res ∧ es = [.ret c op res] ∧
      s' = ⟨s.mem, if s.writer = some c then none else s.writer,
        Function.update s.threads c { s.threads c with pc := .idle }⟩) ∨
    (∃ c choice m t, turn s.mem (s.threads c) choice = some (m, t) ∧ es = [] ∧
      s' = ⟨m, s.writer, Function.update s.threads c t⟩) := by
  obtain ⟨c, a⟩ := l
  cases a with
  | call a =>
    left
    simp only [step] at h
    split at h
    · rename_i op pc hpc hb
      refine ⟨c, a, op, pc, rfl, hpc, hb, ?_⟩
      split at h
      · cases h
      · rename_i key hw
        obtain ⟨rfl, rfl⟩ : _ = s' ∧ _ = es := by simpa using h
        exact ⟨rfl, _, fun _ => ⟨hw, rfl⟩, fun hn => absurd rfl (hn key), rfl⟩
      · rename_i hnot hnone
        obtain ⟨rfl, rfl⟩ : _ = s' ∧ _ = es := by simpa using h
        refine ⟨rfl, _, ?_, fun _ => rfl, rfl⟩
        rintro ⟨key, rfl⟩
        cases hw : s.writer with
        | none => exact absurd hw (hnone key rfl)
        | some d => exact absurd hw (hnot key d rfl)
    · cases h
  | turn choice =>
    simp only [step] at h
    split at h
    · rename_i op res hpc
      obtain ⟨rfl, rfl⟩ : _ = s' ∧ _ = es := by simpa using h
      exact .inr (.inl ⟨c, op, res, hpc, rfl, rfl⟩)
    · obtain ⟨⟨m, t⟩, ht, he⟩ := Option.map_eq_some_iff.1 h
      obtain ⟨rfl, rfl⟩ := Prod.mk.inj he
      exact .inr (.inr ⟨c, choice, m, t, ht, rfl, rfl⟩)

theorem step_sim {l : Nat × Act Key} {es : List (Seen Nat (ListOp Key) (ListRes Key))}
    (h : Sim lv s x) (hf : Fresh s l) (hs : step s l = some (s', es)) :
    ∃ y, AtomicRun SortedList.apply x es y ∧ ∃ lv', Sim lv' s' y := by
  obtain ⟨ks, ph⟩ := x
  obtain rfl : ks = s.mem.keys lv := h.keys
  rcases step_cases hs with ⟨c, a, op, pc, rfl, hpc, hb, rfl, w, hw, hw', rfl⟩ |
    ⟨c, op, res, hpc, rfl, rfl⟩ | ⟨c, choice, m, t, ht, rfl, rfl⟩
  · have hc := h.threads c
    have hunused : ∀ key, a = .insert key → s.mem.Unused (lv 0) key := by
      rintro key rfl y hy
      exact hf y (h.shape.range y hy).2 (h.shape.range y hy).1
    obtain ⟨hph, hok, hins⟩ := begin_ok hc.node hunused hb
    have hidle : ph c = .idle := (h.phases c).trans (by rw [hpc]; rfl)
    refine ⟨_, AtomicRun.call hidle, lv, ?_⟩
    rw [← hph]
    refine h.thread (t := ⟨pc, (s.threads c).node⟩) h.shape h.pos ⟨hok, hc.node, fun hi => (hw (hins hi)).2⟩
      fun d hd => ⟨(h.threads d).pc, (h.threads d).node, fun hi => ?_⟩
    -- nobody else inserts when an insertion is called
    have hd' := (h.threads d).writer hi
    by_cases ha : ∃ key, a = .insert key
    · rw [(hw ha).1] at hd'
      cases hd'
    · rw [not_exists] at ha
      rw [hw' ha, hd']
  · have hret : ph c = .executed op res := (h.phases c).trans (by rw [hpc]; rfl)
    refine ⟨_, AtomicRun.ret hret, lv, ?_⟩
    refine h.thread (t := ⟨.idle, (s.threads c).node⟩) h.shape h.pos
      ⟨trivial, (h.threads c).node, fun hi => by cases hi⟩
      fun d hd => ⟨(h.threads d).pc, (h.threads d).node, fun hi => ?_⟩
    have hd' := (h.threads d).writer hi
    rw [hd', if_neg fun he => hd (Option.some.inj he)]
  · have hc := h.threads c
    obtain ⟨lv', htu⟩ := turned h.shape h.pos hc.pc hc.node ht c
    refine ⟨_, htu.run ph (h.phases c), lv', ?_⟩
    refine h.thread htu.shape htu.pos ⟨htu.pc, htu.node, fun hi => hc.writer (htu.inserts ▸ hi)⟩
      fun d hd => ?_
    have hd' := h.threads d
    cases hi : (s.threads d).pc.inserts with
    | false =>
      exact ⟨hd'.pc.mono hi htu.maxHeight htu.sub htu.keys, fun n hn => htu.sub 0 (hd'.node n hn),
        fun hn => by rw [hi] at hn; cases hn⟩
    | true =>
      -- then the thread that has moved is a reader
      have hr : (s.threads c).pc.inserts = false := by
        cases hic : (s.threads c).pc.inserts with
        | false => rfl
        | true => exact absurd (Option.some.inj ((hd'.writer hi).symm.trans (hc.writer hic))) hd
      obtain ⟨rfl, rfl⟩ := htu.reader hr
      exact hd'

theorem shape_init (k₀ : Key) : Shape (init k₀).mem fun _ => [] where
  linked _ := rfl
  sorted _ := .nil
  sub _ _ h := h
  range _ hx := by cases hx
  top _ _ := rfl
  height := ⟨le_rfl, show 1 ≤ 12 by decide⟩

/-- **The skip list is linearizable**: whatever one thread after the other inserts, with any heights,
and whatever any number of threads search and iterate meanwhile, what they see is what they may see
of the sorted list. -/
theorem skipList_linearizable {k₀ : Key} {h : List (Seen Nat (ListOp Key) (ListRes Key))}
    (hr : Steps step Fresh (init k₀) h s) : Linearizable SortedList.apply [] h := by
  refine Linearizable.of_sim (R := fun s x => ∃ lv, Sim lv s x) ⟨fun _ => [], ?_⟩ ?_ hr
  · exact ⟨shape_init k₀, Nat.one_ne_zero, rfl, fun _ => rfl, fun _ =>
      ⟨trivial, fun n hn => (by cases hn), fun hi => (by cases hi)⟩⟩
  · rintro s₁ l s₂ es x ⟨lv, hR⟩ hp hs
    exact step_sim hR hp hs

/-- A reader is at a key, and goes back from it, while its insertion is not yet complete. -/
theorem skipList_linearizable_overlap :
    ∃ h s, Steps step Fresh (init 0) h s ∧
      h = [.call 0 (.insert 5), .ret 0 (.insert 5) .inserted, .call 0 (.insert 7), .call 1 (.seek 6),
        .ret 1 (.seek 6) (.at (some 7)), .call 1 (.prev 7), .ret 1 (.prev 7) (.at (some 5)),
        .ret 0 (.insert 7) .inserted] ∧ Linearizable SortedList.apply [] h := by
  have hr : Steps step Fresh (init 0) _ _ := Steps.of_exec_get
    [(0, .call (.insert 5)), (0, .turn 1), (0, .turn 0), (0, .turn 1), (0, .turn 0), (0, .turn 0),
      (0, .turn 0), (0, .call (.insert 7)), (0, .turn 1), (0, .turn 0), (0, .turn 0), (0, .turn 2),
      (0, .turn 0), (0, .turn 0), (1, .call (.seek 6)), (1, .turn 2), (1, .turn 0), (1, .turn 0),
      (1, .turn 0), (1, .turn 0), (1, .call .prev), (1, .turn 1), (1, .turn 0), (1, .turn 0),
      (1, .turn 0), (0, .turn 0), (0, .turn 0), (0, .turn 0)] (by decide +kernel)
  exact ⟨_, _, hr, by decide +kernel, skipList_linearizable hr⟩

end PMRAccess.Leveldb.SkipList
