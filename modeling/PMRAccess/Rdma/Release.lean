import Mathlib.Data.List.ReduceOption
import PMRAccess.Rdma.Certificate
import PMRAccess.Lib.Objects
import PMRAccess.Lib.Run

/-!
# What contexts acquire and release (`RDMADevice::open`, `register_write_buf`, `~RDMAContext`)

A context is described by the objects its fields point to: those of the verbs library, the
`send_buf` and the mapping of a dma-buf. `open` and `register_write_buf` create objects; the
destructor, which also runs where `open` fails, releases those the fields point to, in the order of
the source and without a look at the results. The library refuses to release a protection domain
that a memory region or a queue pair uses, and a completion queue that a queue pair uses.

`ibv_dealloc_pd` comes before `ibv_dereg_mr`, so a context that has registered its `send_buf` leaves
its protection domain behind (`destroy_leaks`). `released_iff`: a context releases everything exactly
if its `open` has failed before that.
-/

namespace PMRAccess.Rdma.Release

open Lib

/-! ## Contexts -/

/-- What an object is to the context that has created it; write buffers are numbered. -/
inductive Name
  | pd | inCq | outCq | sendBuf | sendMr | qp
  | writeMr (n : Nat)
  | mapping (n : Nat)
  deriving DecidableEq, Repr

/-- An object of the verbs library. -/
def Name.verbs : Name → Bool
  | .sendBuf | .mapping _ => false
  | _ => true

structure Handle where
  context : Nat
  name : Name
  deriving DecidableEq, Repr

/-- The pointers of an `RDMAContext`, and how many write buffers have been registered. -/
structure Context where
  pd : Option Handle
  outCq : Option Handle
  inCq : Option Handle
  qp : Option Handle
  sendMr : Option Handle
  sendBuf : Option Handle
  writeMr : Option Handle
  /-- the mapping of a dma-buf; memory is the caller's -/
  writeBuf : Option Handle
  dmabuf : Bool
  registered : Nat
  deriving DecidableEq, Repr

/-- The live objects. -/
abbrev Objs := List (Obj Handle)

namespace Context

/-- `make_rdma_context`. -/
def make : Context := ⟨none, none, none, none, none, none, none, none, false, 0⟩

/-- What the destructor releases, in its order. -/
def released (x : Context) : List Handle :=
  [x.qp, x.outCq, x.inCq, x.pd, x.sendMr, x.writeMr, if x.dmabuf then x.writeBuf else none,
    x.sendBuf].reduceOption

/-- `~RDMAContext`. -/
def destroy (x : Context) (objs : Objs) : Objs := Objects.releaseAll objs x.released

/-- `register_write_buf` of memory; `ok` says whether `ibv_reg_mr` succeeds. -/
def registerWriteBuf (x : Context) (c : Nat) (ok : Bool) (objs : Objs) : Context × Int × Objs :=
  if ok then
    let writeMr : Handle := ⟨c, .writeMr x.registered⟩
    ({ x with
      writeMr := some writeMr, writeBuf := none, dmabuf := false, registered := x.registered + 1 },
      0, ⟨writeMr, x.pd.toList⟩ :: objs)
  else ({ x with writeMr := none }, -1, objs)

/-- `register_write_buf` of a dma-buf; `mapped` says whether `mmap` succeeds, which is not
checked. -/
def registerDmabuf (x : Context) (c : Nat) (ok mapped : Bool) (objs : Objs) :
    Context × Int × Objs :=
  if ok then
    let writeMr : Handle := ⟨c, .writeMr x.registered⟩
    let mapping : Handle := ⟨c, .mapping x.registered⟩
    let objs := ⟨writeMr, x.pd.toList⟩ :: objs
    ({ x with
      writeMr := some writeMr, writeBuf := if mapped then some mapping else none, dmabuf := true
      registered := x.registered + 1 },
      0, if mapped then ⟨mapping, []⟩ :: objs else objs)
  else ({ x with writeMr := none }, -1, objs)

end Context

/-- Which of the calls in `open` succeed. -/
structure Results where
  allocPd : Bool
  createInCq : Bool
  createOutCq : Bool
  regMr : Bool
  createQp : Bool
  queryGid : Bool
  queryPort : Bool
  deriving DecidableEq, Repr

/-- `RDMADevice::open` of a device with index `gidIdx`, for the context with number `c`. Where it
fails, the context is destroyed on the way out. -/
def openDevice (gidIdx : Int) (c : Nat) (r : Results) (objs : Objs) :
    Option Context × Status × Objs :=
  let x := Context.make
  if r.allocPd = false then (none, .cannotAllocPD, x.destroy objs)
  else
    let pd : Handle := ⟨c, .pd⟩
    let x := { x with pd := some pd }
    let objs := ⟨pd, []⟩ :: objs
    if r.createInCq = false then (none, .cannotCreateCQ, x.destroy objs)
    else
      let inCq : Handle := ⟨c, .inCq⟩
      let x := { x with inCq := some inCq }
      let objs := ⟨inCq, []⟩ :: objs
      if r.createOutCq = false then (none, .cannotCreateCQ, x.destroy objs)
      else
        let outCq : Handle := ⟨c, .outCq⟩
        let sendBuf : Handle := ⟨c, .sendBuf⟩
        let x := { x with outCq := some outCq, sendBuf := some sendBuf }
        let objs := ⟨sendBuf, []⟩ :: ⟨outCq, []⟩ :: objs
        if r.regMr = false then (none, .cannotRegMR, x.destroy objs)
        else
          let sendMr : Handle := ⟨c, .sendMr⟩
          let x := { x with sendMr := some sendMr }
          let objs := ⟨sendMr, [pd]⟩ :: objs
          if r.createQp = false then (none, .cannotCreateQP, x.destroy objs)
          else
            let qp : Handle := ⟨c, .qp⟩
            let x := { x with qp := some qp }
            let objs := ⟨qp, [pd, outCq, inCq]⟩ :: objs
            if 0 ≤ gidIdx ∧ r.queryGid = false then (none, .noGID, x.destroy objs)
            else if r.queryPort = false then (none, .cannotQueryPort, x.destroy objs)
            else (some x, .ok, objs)

/-! ## Steps -/

/-- A context that has been opened, with the results of that; gone when it is destroyed. -/
structure Slot where
  results : Results
  context : Option Context
  deriving DecidableEq, Repr

structure State where
  objs : Objs
  slots : List Slot
  deriving DecidableEq, Repr

inductive Label
  /-- `open` of a device with index `gidIdx` -/
  | openDevice (gidIdx : Int) (r : Results)
  | registerWriteBuf (c : Nat) (ok : Bool)
  | registerDmabuf (c : Nat) (ok mapped : Bool)
  | destroy (c : Nat)
  deriving DecidableEq, Repr

/-- What the calls return. -/
inductive Event
  | opened (c : Nat) (status : Status)
  | registered (c : Nat) (ret : Int)
  | destroyed (c : Nat)
  deriving DecidableEq, Repr

/-- A call on context `c`, if it is still there. -/
def State.on (s : State) (c : Nat) (f : Context → Option Context × Objs × Event) :
    Option (State × List Event) :=
  match s.slots[c]? with
  | some ⟨r, some x⟩ =>
    let (x, objs, e) := f x
    some (⟨objs, s.slots.set c ⟨r, x⟩⟩, [e])
  | _ => none

def step (s : State) : Label → Option (State × List Event)
  | .openDevice gidIdx r =>
    let c := s.slots.length
    let (x, status, objs) := openDevice gidIdx c r s.objs
    some (⟨objs, s.slots ++ [⟨r, x⟩]⟩, [.opened c status])
  | .registerWriteBuf c ok => s.on c fun x =>
    let (x, ret, objs) := x.registerWriteBuf c ok s.objs
    (some x, objs, .registered c ret)
  | .registerDmabuf c ok mapped => s.on c fun x =>
    let (x, ret, objs) := x.registerDmabuf c ok mapped s.objs
    (some x, objs, .registered c ret)
  | .destroy c => s.on c fun x => (none, x.destroy s.objs, .destroyed c)

/-- Runs from no object and no context on. -/
def Run : List Event → State → Prop := Steps step (fun _ _ => True) ⟨[], []⟩

/-! ## The destructor -/

/-- The call that registers `send_buf` is reached and succeeds. -/
def Results.registers (r : Results) : Prop :=
  r.allocPd = true ∧ r.createInCq = true ∧ r.createOutCq = true ∧ r.regMr = true

instance (r : Results) : Decidable r.registers :=
  inferInstanceAs (Decidable (r.allocPd = true ∧ r.createInCq = true ∧ r.createOutCq = true ∧
    r.regMr = true))

/-- What a context may leave behind: its protection domain, and write buffers it has lost sight
of. -/
def Name.lasting : Name → Bool
  | .pd | .writeMr _ | .mapping _ => true
  | _ => false

/-- The objects use protection domains of their own context, and a queue pair its completion
queues. -/
def Table (objs : Objs) : Prop :=
  ∀ o ∈ objs, ∀ i ∈ o.uses, i.context = o.id.context ∧
    (i.name = .pd ∨ (o.id.name = .qp ∧ (i.name = .inCq ∨ i.name = .outCq)))

/-- The fields of a context that has registered its `send_buf`. -/
structure Fields (c : Nat) (x : Context) : Prop where
  pd : x.pd = some ⟨c, .pd⟩
  outCq : x.outCq = some ⟨c, .outCq⟩
  inCq : x.inCq = some ⟨c, .inCq⟩
  sendMr : x.sendMr = some ⟨c, .sendMr⟩
  sendBuf : x.sendBuf = some ⟨c, .sendBuf⟩
  qp : x.qp = none ∨ x.qp = some ⟨c, .qp⟩
  writeMr : ∀ h ∈ x.writeMr, ∃ n, h = ⟨c, .writeMr n⟩
  writeBuf : ∀ h ∈ x.writeBuf, ∃ n, h = ⟨c, .mapping n⟩

section
variable {c : Nat} {x : Context} {r : Results} {objs objs' : Objs} {o : Obj Handle}

/-- The write buffer as the destructor sees it, and what comes behind it. -/
def Context.lastReleased (x : Context) : List Handle :=
  [x.writeMr, if x.dmabuf then x.writeBuf else none, x.sendBuf].reduceOption

theorem Fields.released_eq (h : Fields c x) : x.released = x.qp.toList ++
    ⟨c, .outCq⟩ :: ⟨c, .inCq⟩ :: ⟨c, .pd⟩ :: ⟨c, .sendMr⟩ :: x.lastReleased := by
  rcases h.qp with hqp | hqp <;>
    simp [Context.released, Context.lastReleased, List.reduceOption, h.pd, h.outCq, h.inCq,
      h.sendMr, hqp]

theorem Fields.eq_of_mem_qp (h : Fields c x) {i : Handle} (hi : i ∈ x.qp) : i = ⟨c, .qp⟩ := by
  rcases h.qp with hqp | hqp
  · rw [hqp] at hi
    cases hi
  · exact Option.mem_unique hi hqp

theorem Fields.mem_lastReleased (h : Fields c x) {i : Handle} (hi : i ∈ x.lastReleased) :
    i.context = c ∧ (i.name = .sendBuf ∨ (∃ n, i.name = .writeMr n) ∨ ∃ n, i.name = .mapping n) := by
  have hi' : some i = x.writeMr ∨ (x.dmabuf = true ∧ some i = x.writeBuf) ∨ some i = x.sendBuf := by
    simpa [Context.lastReleased, List.reduceOption_mem_iff] using hi
  rcases hi' with hi | ⟨-, hi⟩ | hi
  · obtain ⟨n, rfl⟩ := h.writeMr i hi.symm
    exact ⟨rfl, .inr (.inl ⟨n, rfl⟩)⟩
  · obtain ⟨n, rfl⟩ := h.writeBuf i hi.symm
    exact ⟨rfl, .inr (.inr ⟨n, rfl⟩)⟩
  · obtain rfl := Option.some.inj (hi.trans h.sendBuf)
    exact ⟨rfl, .inl rfl⟩

theorem Fields.context_eq (h : Fields c x) {i : Handle} (hi : i ∈ x.released) : i.context = c := by
  rw [h.released_eq] at hi
  simp only [List.mem_append, List.mem_cons, Option.mem_toList] at hi
  rcases hi with hi | rfl | rfl | rfl | rfl | hi
  · rw [h.eq_of_mem_qp hi]
  · rfl
  · rfl
  · rfl
  · rfl
  · exact (h.mem_lastReleased hi).1

theorem mem_of_mem_destroy (h : o ∈ x.destroy objs) : o ∈ objs := Objects.mem_of_mem_releaseAll h

/-- The objects of other contexts stay. -/
theorem mem_destroy_of_other (hx : ∀ i ∈ x.released, i.context = c) (hne : o.id.context ≠ c)
    (ho : o ∈ objs) : o ∈ x.destroy objs :=
  Objects.mem_releaseAll_of_not_mem ho fun hi => hne (hx _ hi)

theorem Table.destroy (h : Table objs) : Table (x.destroy objs) :=
  fun o ho => h o (mem_of_mem_destroy ho)

/-- Where nothing of the context is in use, all of it that its fields point to is released. -/
theorem destroy_clean (hu : ∀ u ∈ objs, ∀ i ∈ u.uses, i.context ≠ c)
    (hx : ∀ o ∈ objs, o.id.context = c → o.id ∈ x.released) (ho : o ∈ x.destroy objs) :
    o.id.context ≠ c := by
  intro hc
  obtain ⟨is, js, hsplit⟩ := List.append_of_mem (hx o (mem_of_mem_destroy ho) hc)
  unfold Context.destroy at ho
  rw [hsplit] at ho
  refine Objects.not_mem_releaseAll _ _ (fun u hu' hi => ?_) ho rfl
  exact hu u (Objects.mem_of_mem_releaseAll hu') _ hi hc

/-- `ibv_dealloc_pd` fails while the region of `send_buf` is registered. -/
theorem destroy_leaks (h : Fields c x) (hpd : ⟨⟨c, .pd⟩, []⟩ ∈ objs)
    (hmr : ⟨⟨c, .sendMr⟩, [⟨c, .pd⟩]⟩ ∈ objs) : ⟨⟨c, .pd⟩, []⟩ ∈ x.destroy objs := by
  have hsplit : x.released = (x.qp.toList ++ [⟨c, .outCq⟩, ⟨c, .inCq⟩]) ++
      ⟨c, .pd⟩ :: ⟨c, .sendMr⟩ :: x.lastReleased := by
    rw [h.released_eq, List.append_assoc]
    rfl
  -- neither the domain nor the region is released before the domain's turn
  have hbefore : ∀ i ∈ x.qp.toList ++ [⟨c, .outCq⟩, ⟨c, .inCq⟩],
      i.name = .qp ∨ i.name = .outCq ∨ i.name = .inCq := by
    intro i hi
    simp only [List.mem_append, List.mem_cons, List.not_mem_nil, or_false, Option.mem_toList] at hi
    rcases hi with hi | rfl | rfl
    · exact .inl (congrArg Handle.name (h.eq_of_mem_qp hi))
    · exact .inr (.inl rfl)
    · exact .inr (.inr rfl)
  unfold Context.destroy
  rw [hsplit]
  refine Objects.mem_releaseAll_of_used hpd hmr List.mem_cons_self ?_ ?_ ?_
  · intro hi
    rcases hbefore _ hi with hn | hn | hn <;> cases hn
  · intro hi
    rcases hbefore _ hi with hn | hn | hn <;> cases hn
  · intro hi
    rcases List.mem_cons.1 hi with hi | hi
    · cases hi
    · rcases (h.mem_lastReleased hi).2 with hn | ⟨n, hn⟩ | ⟨n, hn⟩ <;> cases hn

section
variable (ht : Table objs) (hqp : ∀ o ∈ objs, o.id = ⟨c, .qp⟩ → x.qp = some ⟨c, .qp⟩)
include ht hqp

/-- Nothing uses a queue pair, so it is gone behind its turn, the first one. -/
theorem qp_gone {u : Obj Handle} (hu : u ∈ Objects.releaseAll objs x.qp.toList) :
    u.id ≠ ⟨c, .qp⟩ := by
  intro hid
  rw [hqp u (Objects.mem_of_mem_releaseAll hu) hid] at hu
  refine Objects.not_mem_releaseAll [] [] (fun v hv hi => ?_) hu hid
  rcases (ht v hv _ hi).2 with hn | ⟨-, hn | hn⟩ <;> cases hn

/-- Then only the protection domain is in use. -/
theorem unused_behind_qp {is : List Handle} {n : Name} {u : Obj Handle} (hn : n ≠ .pd)
    (hu : u ∈ Objects.releaseAll objs (x.qp.toList ++ is)) : ⟨c, n⟩ ∉ u.uses := by
  intro hi
  rw [Objects.releaseAll_append] at hu
  have hu' := Objects.mem_of_mem_releaseAll hu
  obtain ⟨hc, hpd | ⟨hq, -⟩⟩ := ht u (Objects.mem_of_mem_releaseAll hu') _ hi
  · exact hn hpd
  · have hc' : c = u.id.context := hc
    exact qp_gone ht hqp hu' (by rw [hc', ← hq])

theorem destroy_lasting (h : Fields c x) (ho : o ∈ x.destroy objs) (hc : o.id.context = c) :
    o.id.name.lasting = true := by
  have hid : o.id = ⟨c, o.id.name⟩ := by rw [← hc]
  unfold Context.destroy at ho
  rw [h.released_eq] at ho
  -- what is released behind the queue pair is gone, but for the protection domain
  have hgone : ∀ n, n ≠ .pd → (⟨c, n⟩ : Handle) ∈ (⟨c, .outCq⟩ :: ⟨c, .inCq⟩ :: ⟨c, .pd⟩ ::
      ⟨c, .sendMr⟩ :: x.lastReleased : List Handle) → o.id.name ≠ n := by
    intro n hn hmem heq
    obtain ⟨is, js, hsplit⟩ := List.append_of_mem hmem
    rw [hsplit, ← List.append_assoc] at ho
    exact Objects.not_mem_releaseAll _ _ (fun u hu => unused_behind_qp ht hqp hn hu) ho (heq ▸ hid)
  have hbuf : (⟨c, .sendBuf⟩ : Handle) ∈ x.lastReleased := by
    simp [Context.lastReleased, List.reduceOption_mem_iff, h.sendBuf]
  cases hn : o.id.name with
  | pd | writeMr | mapping => rfl
  | qp =>
    rw [Objects.releaseAll_append] at ho
    exact absurd (hn ▸ hid) (qp_gone ht hqp (Objects.mem_of_mem_releaseAll ho))
  | outCq => exact absurd hn (hgone .outCq (by simp) (by simp))
  | inCq => exact absurd hn (hgone .inCq (by simp) (by simp))
  | sendMr => exact absurd hn (hgone .sendMr (by simp) (by simp))
  | sendBuf => exact absurd hn (hgone .sendBuf (by simp) (by simp [hbuf]))

end

/-! ## `open` -/

/-- A context that `open` has returned. -/
structure Opened (c : Nat) (objs : Objs) (x : Context) : Prop where
  fields : Fields c x
  qp : x.qp = some ⟨c, .qp⟩
  pd : ⟨⟨c, .pd⟩, []⟩ ∈ objs
  sendMr : ⟨⟨c, .sendMr⟩, [⟨c, .pd⟩]⟩ ∈ objs

/-- What a context has left behind. -/
def Left (c : Nat) (r : Results) (objs : Objs) : Prop :=
  (r.registers → ⟨⟨c, .pd⟩, []⟩ ∈ objs) ∧
    ∀ o ∈ objs, o.id.context = c → r.registers ∧ o.id.name.lasting = true

def Slot.Ok (e : Slot) (c : Nat) (objs : Objs) : Prop :=
  match e.context with
  | some x => e.results.registers ∧ Opened c objs x
  | none => Left c e.results objs

/-- The objects of other contexts are the same. -/
def Frame (c : Nat) (objs objs' : Objs) : Prop :=
  ∀ o : Obj Handle, o.id.context ≠ c → (o ∈ objs' ↔ o ∈ objs)

theorem frame_destroy (hx : ∀ i ∈ x.released, i.context = c) : Frame c objs (x.destroy objs) :=
  fun _ hne => ⟨mem_of_mem_destroy, mem_destroy_of_other hx hne⟩

theorem Frame.append {new : Objs} (h : Frame c (new ++ objs) objs')
    (hnew : ∀ o ∈ new, o.id.context = c) : Frame c objs objs' := by
  intro o hne
  rw [h o hne, List.mem_append]
  exact or_iff_right fun ho => hne (hnew o ho)

theorem Table.append {new : Objs} (h : Table objs) (hnew : Table new) : Table (new ++ objs) := by
  intro o ho
  rcases List.mem_append.1 ho with ho | ho
  · exact hnew o ho
  · exact h o ho

theorem destroy_left (h : Opened c objs x) (ht : Table objs) (hr : r.registers) :
    Left c r (x.destroy objs) :=
  ⟨fun _ => destroy_leaks h.fields h.pd h.sendMr,
    fun _ ho hc => ⟨hr, destroy_lasting ht (fun _ _ _ => h.qp) h.fields ho hc⟩⟩

/-- The stages of `open`. -/
inductive Stage
  | make | pd | inCq | sendBuf | sendMr | qp

section
variable (c : Nat)

/-- The context behind a stage. -/
def Stage.context : Stage → Context
  | .make => .make
  | .pd => { Context.make with pd := some ⟨c, .pd⟩ }
  | .inCq => { Context.make with pd := some ⟨c, .pd⟩, inCq := some ⟨c, .inCq⟩ }
  | .sendBuf => { Context.make with
      pd := some ⟨c, .pd⟩, inCq := some ⟨c, .inCq⟩, outCq := some ⟨c, .outCq⟩
      sendBuf := some ⟨c, .sendBuf⟩ }
  | .sendMr => { Context.make with
      pd := some ⟨c, .pd⟩, inCq := some ⟨c, .inCq⟩, outCq := some ⟨c, .outCq⟩
      sendBuf := some ⟨c, .sendBuf⟩, sendMr := some ⟨c, .sendMr⟩ }
  | .qp => { Context.make with
      pd := some ⟨c, .pd⟩, inCq := some ⟨c, .inCq⟩, outCq := some ⟨c, .outCq⟩
      sendBuf := some ⟨c, .sendBuf⟩, sendMr := some ⟨c, .sendMr⟩, qp := some ⟨c, .qp⟩ }

/-- The objects it has created. -/
def Stage.created : Stage → Objs
  | .make => []
  | .pd => [⟨⟨c, .pd⟩, []⟩]
  | .inCq => [⟨⟨c, .inCq⟩, []⟩, ⟨⟨c, .pd⟩, []⟩]
  | .sendBuf => [⟨⟨c, .sendBuf⟩, []⟩, ⟨⟨c, .outCq⟩, []⟩, ⟨⟨c, .inCq⟩, []⟩, ⟨⟨c, .pd⟩, []⟩]
  | .sendMr => [⟨⟨c, .sendMr⟩, [⟨c, .pd⟩]⟩, ⟨⟨c, .sendBuf⟩, []⟩, ⟨⟨c, .outCq⟩, []⟩,
      ⟨⟨c, .inCq⟩, []⟩, ⟨⟨c, .pd⟩, []⟩]
  | .qp => [⟨⟨c, .qp⟩, [⟨c, .pd⟩, ⟨c, .outCq⟩, ⟨c, .inCq⟩]⟩, ⟨⟨c, .sendMr⟩, [⟨c, .pd⟩]⟩,
      ⟨⟨c, .sendBuf⟩, []⟩, ⟨⟨c, .outCq⟩, []⟩, ⟨⟨c, .inCq⟩, []⟩, ⟨⟨c, .pd⟩, []⟩]

end

/-- `send_buf` is registered. -/
def Stage.registered : Stage → Prop
  | .sendMr | .qp => True
  | _ => False

/-- `open` fails behind some stage, or gets to the end. -/
theorem openDevice_cases (gidIdx : Int) (c : Nat) (r : Results) (objs : Objs) :
    ∃ st : Stage, (st.registered ↔ r.registers) ∧
      ((∃ status, openDevice gidIdx c r objs =
        (none, status, (st.context c).destroy (st.created c ++ objs))) ∨
      (st = .qp ∧ openDevice gidIdx c r objs = (some (st.context c), .ok, st.created c ++ objs))) := by
  obtain ⟨b1, b2, b3, b4, b5, b6, b7⟩ := r
  cases b1
  · exact ⟨.make, by simp [Stage.registered, Results.registers], .inl ⟨_, rfl⟩⟩
  cases b2
  · exact ⟨.pd, by simp [Stage.registered, Results.registers], .inl ⟨_, rfl⟩⟩
  cases b3
  · exact ⟨.inCq, by simp [Stage.registered, Results.registers], .inl ⟨_, rfl⟩⟩
  cases b4
  · exact ⟨.sendBuf, by simp [Stage.registered, Results.registers], .inl ⟨_, rfl⟩⟩
  cases b5
  · exact ⟨.sendMr, by simp [Stage.registered, Results.registers], .inl ⟨_, rfl⟩⟩
  refine ⟨.qp, by simp [Stage.registered, Results.registers], ?_⟩
  by_cases hg : 0 ≤ gidIdx ∧ b6 = false
  · exact .inl ⟨.noGID, if_pos hg⟩
  cases b7
  · exact .inl ⟨.cannotQueryPort, if_neg hg⟩
  · exact .inr ⟨rfl, if_neg hg⟩

namespace Stage

variable {st : Stage}

theorem context_created (ho : o ∈ st.created c) : o.id.context = c := by
  cases st <;> simp only [created, List.mem_cons, List.not_mem_nil, or_false] at ho <;>
    rcases ho with rfl | rfl | rfl | rfl | rfl | rfl <;> rfl

theorem table_created (st : Stage) (c : Nat) : Table (st.created c) := by
  cases st <;> simp [Table, created]

/-- Before the registration nothing is in use, and the fields point to all there is. -/
theorem early (h : ¬ st.registered) :
    (∀ o ∈ st.created c, o.uses = [] ∧ o.id ∈ (st.context c).released) ∧
      ∀ i ∈ (st.context c).released, i.context = c := by
  cases st with
  | sendMr | qp => exact absurd trivial h
  | make | pd | inCq | sendBuf =>
    simp [created, context, Context.released, Context.make, List.reduceOption]

theorem fields (h : st.registered) : Fields c (st.context c) := by
  cases st with
  | make | pd | inCq | sendBuf => exact h.elim
  | sendMr =>
    exact ⟨rfl, rfl, rfl, rfl, rfl, .inl rfl, by simp [context, Context.make],
      by simp [context, Context.make]⟩
  | qp =>
    exact ⟨rfl, rfl, rfl, rfl, rfl, .inr rfl, by simp [context, Context.make],
      by simp [context, Context.make]⟩

theorem late (st : Stage) (c : Nat) (h : st.registered) :
    ⟨⟨c, .pd⟩, []⟩ ∈ st.created c ∧ ⟨⟨c, .sendMr⟩, [⟨c, .pd⟩]⟩ ∈ st.created c ∧
      ∀ o ∈ st.created c, o.id = ⟨c, .qp⟩ → (st.context c).qp = some ⟨c, .qp⟩ := by
  cases st with
  | make | pd | inCq | sendBuf => exact h.elim
  | sendMr | qp => simp [created, context]

theorem context_released (st : Stage) {i : Handle} (hi : i ∈ (st.context c).released) :
    i.context = c := by
  by_cases h : st.registered
  · exact (fields h).context_eq hi
  · exact (early h).2 i hi

/-- Among objects of other contexts, those of the context are the ones it has created. -/
theorem mem_created (hfresh : ∀ o ∈ objs, o.id.context ≠ c) (ho : o ∈ st.created c ++ objs)
    (hc : o.id.context = c) : o ∈ st.created c := by
  rcases List.mem_append.1 ho with ho | ho
  · exact ho
  · exact absurd hc (hfresh o ho)

/-- The destructor behind a stage. -/
theorem left (hst : st.registered ↔ r.registers) (ht : Table objs)
    (hfresh : ∀ o ∈ objs, o.id.context ≠ c) :
    Left c r ((st.context c).destroy (st.created c ++ objs)) := by
  by_cases hr : st.registered
  · obtain ⟨hpd, hmr, hqp⟩ := st.late c hr
    have hqp' : ∀ o ∈ st.created c ++ objs, o.id = ⟨c, .qp⟩ →
        (st.context c).qp = some ⟨c, .qp⟩ := by
      intro o ho hid
      exact hqp o (mem_created hfresh ho (by rw [hid])) hid
    refine ⟨fun _ => destroy_leaks (fields hr) (List.mem_append_left _ hpd)
      (List.mem_append_left _ hmr), fun o ho hc => ⟨hst.1 hr, ?_⟩⟩
    exact destroy_lasting (ht.append (table_created st c)) hqp' (fields hr) ho hc
  · obtain ⟨hearly, -⟩ := early (c := c) hr
    have huse : ∀ u ∈ st.created c ++ objs, ∀ i ∈ u.uses, i.context ≠ c := by
      intro u hu i hi
      rcases List.mem_append.1 hu with hu | hu
      · rw [(hearly u hu).1] at hi
        cases hi
      · rw [(ht u hu i hi).1]
        exact hfresh u hu
    have hcover : ∀ o ∈ st.created c ++ objs, o.id.context = c → o.id ∈ (st.context c).released := by
      intro o ho hc
      exact (hearly o (mem_created hfresh ho hc)).2
    exact ⟨fun h => absurd (hst.2 h) hr, fun o ho hc => absurd hc (destroy_clean huse hcover ho)⟩

end Stage

theorem openDevice_ok (ht : Table objs) (hfresh : ∀ o ∈ objs, o.id.context ≠ c) (gidIdx : Int)
    (r : Results) {x : Option Context} {status : Status}
    (h : openDevice gidIdx c r objs = (x, status, objs')) :
    Table objs' ∧ Frame c objs objs' ∧ Slot.Ok ⟨r, x⟩ c objs' := by
  obtain ⟨st, hst, ⟨status', heq⟩ | ⟨rfl, heq⟩⟩ := openDevice_cases gidIdx c r objs
  · obtain ⟨rfl, -, rfl⟩ : none = x ∧ status' = status ∧ _ = objs' := by
      simpa using heq.symm.trans h
    exact ⟨(ht.append (st.table_created c)).destroy,
      (frame_destroy fun i hi => st.context_released hi).append fun o ho => Stage.context_created ho,
      st.left hst ht hfresh⟩
  · obtain ⟨rfl, -, rfl⟩ : some (Stage.qp.context c) = x ∧ Status.ok = status ∧ _ = objs' := by
      simpa using heq.symm.trans h
    refine ⟨ht.append (Stage.qp.table_created c), ?_, hst.1 trivial, ?_⟩
    · intro o hne
      rw [List.mem_append]
      exact or_iff_right fun ho => hne (Stage.context_created ho)
    · obtain ⟨hpd, hmr, -⟩ := Stage.qp.late c trivial
      exact ⟨Stage.fields trivial, rfl, List.mem_append_left _ hpd, List.mem_append_left _ hmr⟩

/-! ## `register_write_buf` -/

/-- A region of the context's protection domain, and maybe a mapping, are added. -/
theorem Opened.register {x' : Context} (h : Opened c objs x) (ht : Table objs) (new : Objs)
    (hnew : ∀ o ∈ new, o.id.context = c ∧ ∀ i ∈ o.uses, i = ⟨c, .pd⟩) (hf : Fields c x')
    (hqp : x'.qp = x.qp) :
    Table (new ++ objs) ∧ Frame c objs (new ++ objs) ∧ Opened c (new ++ objs) x' := by
  refine ⟨ht.append fun o ho i hi => ?_, fun o hne => ?_, hf, hqp.trans h.qp,
    List.mem_append_right _ h.pd, List.mem_append_right _ h.sendMr⟩
  · obtain rfl := (hnew o ho).2 i hi
    exact ⟨(hnew o ho).1.symm, .inl rfl⟩
  · rw [List.mem_append]
    exact or_iff_right fun ho => hne (hnew o ho).1

theorem registerWriteBuf_ok (h : Opened c objs x) (ht : Table objs) (ok : Bool) {x' : Context}
    {ret : Int} (he : x.registerWriteBuf c ok objs = (x', ret, objs')) :
    Table objs' ∧ Frame c objs objs' ∧ Opened c objs' x' := by
  have hf := h.fields
  cases ok with
  | false =>
    cases he
    exact h.register ht [] (by simp) { hf with writeMr := by simp } rfl
  | true =>
    cases he
    exact h.register ht [_] (by simp [hf.pd])
      { hf with writeMr := by simp, writeBuf := by simp } rfl

theorem registerDmabuf_ok (h : Opened c objs x) (ht : Table objs) (ok mapped : Bool) {x' : Context}
    {ret : Int} (he : x.registerDmabuf c ok mapped objs = (x', ret, objs')) :
    Table objs' ∧ Frame c objs objs' ∧ Opened c objs' x' := by
  have hf := h.fields
  cases ok with
  | false =>
    cases he
    exact h.register ht [] (by simp) { hf with writeMr := by simp } rfl
  | true =>
    cases mapped with
    | false =>
      cases he
      exact h.register ht [_] (by simp [hf.pd])
        { hf with writeMr := by simp, writeBuf := by simp } rfl
    | true =>
      cases he
      exact h.register ht [_, _] (by simp [hf.pd])
        { hf with writeMr := by simp, writeBuf := by simp } rfl

/-! ## Runs -/

structure Inv (s : State) : Prop where
  table : Table s.objs
  bound : ∀ o ∈ s.objs, o.id.context < s.slots.length
  slots : ∀ (c : Nat) (e : Slot), s.slots[c]? = some e → e.Ok c s.objs

theorem Slot.Ok.frame {e : Slot} {d : Nat} (h : e.Ok d objs) (hf : Frame c objs objs')
    (hne : d ≠ c) : e.Ok d objs' := by
  unfold Slot.Ok at h ⊢
  split at h
  · obtain ⟨hr, ho⟩ := h
    exact ⟨hr, ho.fields, ho.qp, (hf _ hne).2 ho.pd, (hf _ hne).2 ho.sendMr⟩
  · obtain ⟨hpd, hlast⟩ := h
    refine ⟨fun hr => (hf _ hne).2 (hpd hr), fun o ho hc => ?_⟩
    exact hlast o ((hf o (by rwa [hc])).1 ho) hc

section
variable {s s' : State} {es tr : List Event} {l : Label}

/-- A call on a context that is there. -/
theorem on_cases {f : Context → Option Context × Objs × Event} (h : s.on c f = some (s', es)) :
    ∃ r x x' objs' e, s.slots[c]? = some ⟨r, some x⟩ ∧ f x = (x', objs', e) ∧
      s' = ⟨objs', s.slots.set c ⟨r, x'⟩⟩ ∧ es = [e] := by
  unfold State.on at h
  split at h
  · rename_i r x hx
    cases h
    exact ⟨r, x, _, _, _, hx, rfl, rfl, rfl⟩
  · cases h

theorem Inv.on {f : Context → Option Context × Objs × Event} (hi : Inv s)
    (hf : ∀ r x x' objs' e, Opened c s.objs x → r.registers → f x = (x', objs', e) →
      Table objs' ∧ Frame c s.objs objs' ∧ Slot.Ok ⟨r, x'⟩ c objs')
    (h : s.on c f = some (s', es)) : Inv s' := by
  obtain ⟨r, x, x', objs', e, hc, hfx, rfl, -⟩ := on_cases h
  obtain ⟨hr, hx⟩ := hi.slots c _ hc
  obtain ⟨ht, hframe, hok⟩ := hf r x x' objs' e hx hr hfx
  refine ⟨ht, fun o ho => ?_, fun d e' hd => ?_⟩
  · rw [List.length_set]
    by_cases hoc : o.id.context = c
    · rw [hoc]
      exact (List.getElem?_eq_some_iff.1 hc).1
    · exact hi.bound o ((hframe o hoc).1 ho)
  · rcases set_cases hc hd with ⟨rfl, rfl⟩ | ⟨hne, hd⟩
    · exact hok
    · exact (hi.slots d e' hd).frame hframe hne

theorem inv_step (hi : Inv s) (h : step s l = some (s', es)) : Inv s' := by
  cases l with
  | openDevice gidIdx r =>
    have hfresh : ∀ o ∈ s.objs, o.id.context ≠ s.slots.length :=
      fun o ho => Nat.ne_of_lt (hi.bound o ho)
    obtain ⟨ht, hframe, hok⟩ := openDevice_ok hi.table hfresh gidIdx r rfl
    cases h
    refine ⟨ht, fun o ho => ?_, fun d e hd => ?_⟩
    · rw [List.length_append, List.length_singleton]
      by_cases hoc : o.id.context = s.slots.length
      · omega
      · have := hi.bound o ((hframe o hoc).1 ho)
        omega
    · rcases append_cases hd with hd | ⟨rfl, rfl⟩
      · have hlt := (List.getElem?_eq_some_iff.1 hd).1
        exact (hi.slots d e hd).frame hframe (by omega)
      · exact hok
  | registerWriteBuf c ok =>
    simp only [step] at h
    refine hi.on (fun r x x' objs' e hx hr hfx => ?_) h
    cases hfx
    obtain ⟨ht, hframe, hx'⟩ := registerWriteBuf_ok hx hi.table ok rfl
    exact ⟨ht, hframe, hr, hx'⟩
  | registerDmabuf c ok mapped =>
    simp only [step] at h
    refine hi.on (fun r x x' objs' e hx hr hfx => ?_) h
    cases hfx
    obtain ⟨ht, hframe, hx'⟩ := registerDmabuf_ok hx hi.table ok mapped rfl
    exact ⟨ht, hframe, hr, hx'⟩
  | destroy c =>
    simp only [step] at h
    refine hi.on (fun r x x' objs' e hx hr hfx => ?_) h
    cases hfx
    exact ⟨hi.table.destroy, frame_destroy fun i hi => hx.fields.context_eq hi,
      destroy_left hx hi.table hr⟩

theorem inv_run (h : Run tr s) : Inv s := by
  refine h.invariant (I := fun _ s => Inv s) ⟨by simp [Table], by simp, by simp⟩ ?_
  intro tr s l s' es _ hi _ hs
  exact inv_step hi hs

/-- Nothing of the verbs library that the context has created is left. -/
def Released (c : Nat) (objs : Objs) : Prop :=
  ∀ o ∈ objs, o.id.context = c → o.id.name.verbs = false

/-- What a context that is gone has left behind: nothing, or its protection domain and at most write
buffers besides. -/
theorem left_run (h : Run tr s) {e : Slot} (hc : s.slots[c]? = some e) (hd : e.context = none) :
    Left c e.results s.objs := by
  have hok := (inv_run h).slots c e hc
  unfold Slot.Ok at hok
  rwa [hd] at hok

/-- **What destroyed contexts have released**: in every run, everything exactly if `open` has failed
before it registered `send_buf`. -/
theorem released_iff (h : Run tr s) {e : Slot} (hc : s.slots[c]? = some e)
    (hd : e.context = none) : Released c s.objs ↔ ¬ e.results.registers := by
  obtain ⟨hpd, hlast⟩ := left_run h hc hd
  constructor
  · intro hrel hr
    have hverbs : Name.pd.verbs = false := hrel _ (hpd hr) rfl
    cases hverbs
  · intro hr o ho hoc
    exact absurd (hlast o ho hoc).1 hr

/-- `open` fails when it registers `send_buf`, while another context is there: it has released what
it had. -/
theorem released_iff_failed : ∃ tr s e, Run tr s ∧ s.slots[1]? = some e ∧ e.context = none ∧
    .opened 1 .cannotRegMR ∈ tr ∧ s.objs.length = 7 ∧ Released 1 s.objs := by
  obtain ⟨tr, s, hr, htr, hlen, hs⟩ : ∃ tr s, Run tr s ∧ .opened 1 .cannotRegMR ∈ tr ∧
      s.objs.length = 7 ∧ s.slots[1]? = some ⟨⟨true, true, true, false, true, true, true⟩, none⟩ :=
    ⟨_, _, Steps.of_exec_get [.openDevice 3 ⟨true, true, true, true, true, true, true⟩,
      .registerWriteBuf 0 true, .openDevice 3 ⟨true, true, true, false, true, true, true⟩]
      (by decide +kernel), by decide +kernel, by decide +kernel, by decide +kernel⟩
  exact ⟨tr, s, _, hr, hs, rfl, htr, hlen, (released_iff hr hs rfl).2 (by decide)⟩

/-- A context is opened, given a write buffer and destroyed; its protection domain is still
allocated. -/
theorem released_leak : ∃ tr s, Run tr s ∧
    tr = [.opened 0 .ok, .registered 0 0, .destroyed 0] ∧ s.objs = [⟨⟨0, .pd⟩, []⟩] ∧
    ¬ Released 0 s.objs := by
  obtain ⟨tr, s, hr, htr, hs⟩ : ∃ tr s, Run tr s ∧
      tr = [.opened 0 .ok, .registered 0 0, .destroyed 0] ∧ s.objs = [⟨⟨0, .pd⟩, []⟩] :=
    ⟨_, _, Steps.of_exec_get [.openDevice 3 ⟨true, true, true, true, true, true, true⟩,
      .registerWriteBuf 0 true, .destroy 0]
      (by decide +kernel), by decide +kernel, by decide +kernel⟩
  refine ⟨tr, s, hr, htr, hs, fun hrel => ?_⟩
  rw [hs] at hrel
  exact absurd (hrel _ List.mem_cons_self rfl) (by decide)

end

end

end PMRAccess.Rdma.Release
