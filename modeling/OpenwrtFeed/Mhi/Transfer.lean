import OpenwrtFeed.Mhi.Channel

/-!
# The pointers of a channel

Where the pointers of the two rings of a channel are, whatever the order in which the threads and
the modem take their steps.  Everything is stated with counters: `c.queued.length` buffers were
queued, `c.results.length` have come back, and how far the threads are in between is read off the
operations that they have still to do.  `Does` lists what a step can be, and `Placed` is the
invariant.
-/

set_option autoImplicit false

namespace OpenwrtFeed.Mhi

namespace Chan

variable {β : Type} {c c' : Chan β}

/-! ## What a step is -/

/-- The possible steps of a channel, with what is known of them. -/
inductive Does (pmState : Nat) (pendingPkts : Int) (c : Chan β) : Chan β → Effect → Prop
  | refuse : Does pmState pendingPkts c c .none
  | accept (call : Call β) (hops : c.sender.ops = []) (howed : c.sender.owed = [])
      (hfull : c.treRing.mhiIsRingFull = false) :
      Does pmState pendingPkts c { c with
        sender := { c.sender with call := some call, ops := sendProgram c.xferType } } .none
  | sendVote (v : Vote) (owed : List Vote) (howed : c.sender.owed = v :: owed) :
      Does pmState pendingPkts c { c with sender := { c.sender with owed } } (.vote v)
  | send (op : SendOp) (ops : List SendOp) (call : Call β) (map : Option Nat)
      (howed : c.sender.owed = []) (hops : c.sender.ops = op :: ops)
      (hcall : c.sender.call = some call) :
      Does pmState pendingPkts c
        (sendOp { c with sender := { c.sender with ops } } pmState pendingPkts map call op).1
        (sendOp { c with sender := { c.sender with ops } } pmState pendingPkts map call op).2
  | handle (ev : Event) (events : List Event) (hev : c.events = ev :: events)
      (hidle : c.reader.phase = .idle) :
      Does pmState pendingPkts c (parseXferEvent { c with events } pmState ev) .none
  | readVote (v : Vote) (owed : List Vote) (howed : c.reader.owed = v :: owed) :
      Does pmState pendingPkts c { c with reader := { c.reader with owed } } (.vote v)
  | read (op : ReadOp) (ops : List ReadOp) (howed : c.reader.owed = [])
      (hops : c.reader.ops = op :: ops) :
      Does pmState pendingPkts c
        (readOp { c with reader := { c.reader with ops } } pendingPkts op).1
        (readOp { c with reader := { c.reader with ops } } pendingPkts op).2
  | iterate (ev : Event) (devRp : Nat) (hphase : c.reader.phase = .loop ev devRp)
      (hops : c.reader.ops = []) (howed : c.reader.owed = []) (hrp : c.treRing.rp ≠ devRp) :
      Does pmState pendingPkts c
        { c with reader := { c.reader with ops := loopProgram c.dir } } .none
  | leave (ev : Event) (devRp : Nat) (hphase : c.reader.phase = .loop ev devRp)
      (hops : c.reader.ops = []) (howed : c.reader.owed = []) (hrp : c.treRing.rp = devRp) :
      Does pmState pendingPkts c { c with reader := { c.reader with phase := .idle } } .none
  | iterateReset (hphase : c.reader.phase = .reset) (hops : c.reader.ops = [])
      (howed : c.reader.owed = []) (hrp : c.treRing.rp ≠ c.treRing.wp) :
      Does pmState pendingPkts c
        { c with reader := { c.reader with ops := resetProgram c.dir } } .none
  | close (hphase : c.reader.phase = .reset) (hops : c.reader.ops = [])
      (howed : c.reader.owed = []) (hrp : c.treRing.rp = c.treRing.wp) :
      Does pmState pendingPkts c { c with reader := { c.reader with phase := .closed } } .none
  | m0Ring (htoRing : c.toRing = true) (hrp : c.treRing.wp ≠ c.treRing.rp) :
      Does pmState pendingPkts c (ringDb { c with toRing := false }) .none
  | m0Skip (htoRing : c.toRing = true) (hrp : c.treRing.wp = c.treRing.rp) :
      Does pmState pendingPkts c { c with toRing := false } .none
  | complete (k code len : Nat)
      (hk : k < MhiRing.getUsedRingElements c.treRing.elSize (c.treRing.phys c.taken)
        c.treRing.ctxtWp c.treRing.elements)
      (hev : (Event.mk (c.treRing.phys (c.taken + k)) code len).isXfer = true)
      (hreset : c.reader.phase ≠ .reset) (hclosed : c.reader.phase ≠ .closed) :
      Does pmState pendingPkts c { c with
        events := c.events ++ [⟨c.treRing.phys (c.taken + k), code, len⟩]
        taken := c.taken + k + 1 } .none
  | outOfBuffers (code : Nat) (hev : (Event.mk 0 code 0).isDb = true) :
      Does pmState pendingPkts c { c with events := c.events ++ [⟨0, code, 0⟩] } .none
  | disable (henabled : c.enabled = true) (hidle : c.reader.phase = .idle) :
      Does pmState pendingPkts c { c with enabled := false } .none
  | reset (henabled : c.enabled = false) (hidle : c.reader.phase = .idle) :
      Does pmState pendingPkts c
        { c with events := [], reader := { c.reader with phase := .reset } } .none

theorem queueXfer_ok {pmState : Nat} {call : Call β} (h : c.queueXfer pmState call = .ok c') :
    c.treRing.mhiIsRingFull = false ∧
      c' = { c with
        sender := { c.sender with call := some call, ops := sendProgram c.xferType } } := by
  rw [queueXfer] at h
  split at h
  all_goals
    split at h
    · exact absurd h (by simp)
    · split at h
      · exact absurd h (by simp)
      · exact ⟨eq_false_of_ne_true ‹_›, (Except.ok.inj h).symm⟩

theorem does_of_step {pmState : Nat} {pendingPkts : Int} {a : Act β} {e : Effect}
    (h : c.step pmState pendingPkts a = some (c', e)) : Does pmState pendingPkts c c' e := by
  cases a with
  | call call =>
    rw [step] at h
    split at h
    · rename_i hidle
      split at h
      · rename_i hok
        obtain ⟨hfull, heq⟩ := queueXfer_ok hok
        obtain ⟨rfl, rfl⟩ := Prod.mk.inj (Option.some.inj h)
        rw [heq]
        exact .accept call hidle.1 hidle.2 hfull
      · obtain ⟨rfl, rfl⟩ := Prod.mk.inj (Option.some.inj h)
        exact .refuse
    · exact absurd h (by simp)
  | send map =>
    rw [step] at h
    split at h
    · obtain ⟨rfl, rfl⟩ := Prod.mk.inj (Option.some.inj h)
      exact .sendVote _ _ ‹_›
    · obtain ⟨rfl, rfl⟩ := Prod.mk.inj (Option.some.inj h)
      exact .send _ _ _ map ‹_› ‹_› ‹_›
    · exact absurd h (by simp)
  | handle =>
    rw [step] at h
    split at h
    · split at h
      · obtain ⟨rfl, rfl⟩ := Prod.mk.inj (Option.some.inj h)
        exact .handle _ _ ‹_› ‹_›
      · exact absurd h (by simp)
    · exact absurd h (by simp)
  | read =>
    rw [step] at h
    split at h
    · obtain ⟨rfl, rfl⟩ := Prod.mk.inj (Option.some.inj h)
      exact .readVote _ _ ‹_›
    · obtain ⟨rfl, rfl⟩ := Prod.mk.inj (Option.some.inj h)
      exact .read _ _ ‹_› ‹_›
    · split at h
      · obtain ⟨rfl, rfl⟩ := Prod.mk.inj (Option.some.inj h)
        split
        · exact .iterate _ _ ‹_› ‹_› ‹_› ‹_›
        · exact .leave _ _ ‹_› ‹_› ‹_› (Decidable.not_not.mp ‹_›)
      · obtain ⟨rfl, rfl⟩ := Prod.mk.inj (Option.some.inj h)
        split
        · exact .iterateReset ‹_› ‹_› ‹_› ‹_›
        · exact .close ‹_› ‹_› ‹_› (Decidable.not_not.mp ‹_›)
      · exact absurd h (by simp)
      · exact absurd h (by simp)
  | m0Ring =>
    rw [step] at h
    split at h
    · obtain ⟨rfl, rfl⟩ := Prod.mk.inj (Option.some.inj h)
      split
      · exact .m0Ring ‹_› ‹_›
      · exact .m0Skip ‹_› (Decidable.not_not.mp ‹_›)
    · exact absurd h (by simp)
  | complete k code len =>
    obtain ⟨⟨hk, hev, hreset, hclosed⟩, heq⟩ := Option.ite_none_right_eq_some.mp h
    obtain ⟨rfl, rfl⟩ := Prod.mk.inj (Option.some.inj heq)
    exact .complete k code len hk hev hreset hclosed
  | outOfBuffers code =>
    obtain ⟨hev, heq⟩ := Option.ite_none_right_eq_some.mp h
    obtain ⟨rfl, rfl⟩ := Prod.mk.inj (Option.some.inj heq)
    exact .outOfBuffers code hev
  | disable =>
    obtain ⟨⟨henabled, hidle⟩, heq⟩ := Option.ite_none_right_eq_some.mp h
    obtain ⟨rfl, rfl⟩ := Prod.mk.inj (Option.some.inj heq)
    exact .disable henabled hidle
  | reset =>
    obtain ⟨⟨henabled, hidle⟩, heq⟩ := Option.ite_none_right_eq_some.mp h
    obtain ⟨rfl, rfl⟩ := Prod.mk.inj (Option.some.inj heq)
    exact .reset (by simpa using henabled) hidle

/-! ## The programs -/

/-- Whether an operation is still to be done. -/
def left {α : Type} [DecidableEq α] (ops : List α) (op : α) : Nat := if op ∈ ops then 1 else 0

/-- What the order of the operations of `sendProgram` gives: nothing is moved before it is
written, and the doorbell comes last. -/
def SendOk : List SendOp → Prop
  | [] => True
  | op :: ops => op ∉ ops ∧ match op with
    | .note => .describe ∈ ops ∧ .addTre ∈ ops ∧ .addBuf ∈ ops
    | .describe => .note ∉ ops ∧ .addTre ∈ ops ∧ .addBuf ∈ ops
    | .addTre => .note ∉ ops ∧ .describe ∉ ops ∧ .addBuf ∈ ops ∧ .doorbell ∈ ops
    | .addBuf => .addTre ∉ ops
    | .doorbell => .addTre ∉ ops ∧ .addBuf ∉ ops ∧ .pendingInc ∉ ops
    | .rouse | .pendingInc => True

theorem sendOk {ops : List SendOp} {xferType : XferType} (h : ops <:+ sendProgram xferType) :
    SendOk ops := by
  cases xferType <;>
    simp only [sendProgram, List.suffix_cons_iff, List.suffix_nil] at h <;>
    rcases h with rfl | rfl | rfl | rfl | rfl | rfl | rfl | rfl <;> simp [SendOk]

/-- What the order of the operations in the two loops gives: the description is looked up first, and
the client is told after everything was done that the next buffer depends on. -/
def ReadOk : List ReadOp → Prop
  | [] => True
  | op :: ops => op ∉ ops ∧ match op with
    | .point => .unmap ∈ ops ∧ .fetch ∈ ops ∧ .delBuf ∈ ops ∧ .delTre ∈ ops ∧ .notify ∈ ops
    | .unmap | .fetch | .delBuf | .delTre => .point ∉ ops ∧ .notify ∈ ops
    | .notify => .point ∉ ops ∧ .unmap ∉ ops ∧ .fetch ∉ ops ∧ .delBuf ∉ ops ∧ .delTre ∉ ops
    | .pendingDec => .point ∉ ops

/-- The program that the thread that gives buffers back is in. -/
def readProgram (c : Chan β) : List ReadOp :=
  match c.reader.phase with
  | .loop _ _ => loopProgram c.dir
  | .reset => resetProgram c.dir
  | .idle | .closed => []

theorem readOk {ops : List ReadOp} (h : ops <:+ c.readProgram) : ReadOk ops := by
  rw [readProgram] at h
  split at h
  · cases hd : c.dir <;>
      simp only [hd, loopProgram, List.suffix_cons_iff, List.suffix_nil] at h <;>
      rcases h with rfl | rfl | rfl | rfl | rfl | rfl | rfl | rfl <;> simp [ReadOk]
  · cases hd : c.dir <;>
      simp only [hd, resetProgram, List.suffix_cons_iff, List.suffix_nil] at h <;>
      rcases h with rfl | rfl | rfl | rfl | rfl | rfl | rfl | rfl <;> simp [ReadOk]
  · rw [List.suffix_nil.mp h]
    trivial
  · rw [List.suffix_nil.mp h]
    trivial

/-! ## Where the pointers are -/

/-- For how many buffers an operation of the loops was done. -/
def given (c : Chan β) (op : ReadOp) : Nat :=
  c.results.length + left c.reader.ops .notify - left c.reader.ops op

/-- How many elements were added to `buf_ring`. -/
def noted (c : Chan β) : Nat :=
  c.queued.length + left c.sender.ops .addTre - left c.sender.ops .addBuf

/-- The events that are waiting tell of elements that lie one behind the other, from `r` up to
`f`. -/
def Due (phys : Nat → Nat) : Nat → List Event → Nat → Prop
  | r, [], f => r = f
  | r, ev :: evs, f =>
    if ev.isXfer then ∃ j, r ≤ j ∧ ev.ptr = phys j ∧ Due phys (j + 1) evs f else Due phys r evs f

theorem Due.le {phys : Nat → Nat} {evs : List Event} {r f : Nat} (h : Due phys r evs f) :
    r ≤ f := by
  induction evs generalizing r with
  | nil => exact Nat.le_of_eq h
  | cons ev evs ih =>
    rw [Due] at h
    split at h
    · obtain ⟨j, hj, -, h⟩ := h
      have := ih h
      omega
    · exact ih h

/-- The modem goes on behind the last event. -/
theorem Due.concat {phys : Nat → Nat} {evs : List Event} {r f : Nat} (h : Due phys r evs f) {k : Nat}
    {ev : Event} (hev : ev.isXfer = true) (hptr : ev.ptr = phys (f + k)) :
    Due phys r (evs ++ [ev]) (f + k + 1) := by
  induction evs generalizing r with
  | nil =>
    obtain rfl : r = f := h
    rw [List.nil_append, Due, if_pos hev]
    exact ⟨r + k, by omega, hptr, rfl⟩
  | cons e evs ih =>
    rw [List.cons_append, Due]
    rw [Due] at h
    split
    · rename_i hx
      rw [if_pos hx] at h
      obtain ⟨j, hj, hp, h⟩ := h
      exact ⟨j, hj, hp, ih h⟩
    · rename_i hx
      rw [if_neg hx] at h
      exact ih h

theorem Due.concat_db {phys : Nat → Nat} {evs : List Event} {r f : Nat} (h : Due phys r evs f)
    {ev : Event} (hev : ev.isXfer = false) : Due phys r (evs ++ [ev]) f := by
  induction evs generalizing r with
  | nil =>
    rw [List.nil_append, Due, if_neg (by simp [hev])]
    exact h
  | cons e evs ih =>
    rw [List.cons_append, Due]
    rw [Due] at h
    split
    · rename_i hx
      rw [if_pos hx] at h
      obtain ⟨j, hj, hp, h⟩ := h
      exact ⟨j, hj, hp, ih h⟩
    · rename_i hx
      rw [if_neg hx] at h
      exact ih h

/-- What the thread that gives buffers back has to do with the events, when it has given up `r`
elements. -/
def Follows (ring : MhiRing) (enabled : Bool) (r : Nat) (ops : List ReadOp) (events : List Event)
    (taken : Nat) : Phase → Prop
  | .idle => enabled = true → Due ring.phys r events taken
  | .loop _ devRp => ∃ j, devRp = ring.slot (j + 1) ∧ r ≤ j + 1 ∧ (.delTre ∈ ops → r < j + 1) ∧
      Due ring.phys (j + 1) events taken
  | .reset | .closed => True

theorem Follows.of_ops {ring : MhiRing} {enabled : Bool} {r taken : Nat} {ops ops' : List ReadOp}
    {events : List Event} {phase : Phase} (h : Follows ring enabled r ops events taken phase)
    (hops : .delTre ∈ ops' → .delTre ∈ ops) : Follows ring enabled r ops' events taken phase := by
  cases phase with
  | idle => exact h
  | loop ev devRp =>
    obtain ⟨j, hj, hle, hlt, hdue⟩ := h
    exact ⟨j, hj, hle, fun hmem ↦ hlt (hops hmem), hdue⟩
  | reset | closed => trivial

/-- Where the pointers of a channel are. -/
structure Placed (c : Chan β) : Prop where
  send : c.sender.ops <:+ sendProgram c.xferType
  read : c.reader.ops <:+ c.readProgram
  elements_eq : c.bufRing.elements = c.treRing.elements
  tre_at : c.treRing.At (c.given .delTre) c.queued.length
  buf_at : c.bufRing.At (c.given .delBuf) c.noted
  le : c.given .delTre ≤ c.queued.length
  lt : c.queued.length < c.given .delTre + c.treRing.elements
  room : .addTre ∈ c.sender.ops → c.queued.length + 1 < c.given .delTre + c.treRing.elements
  added : .addBuf ∈ c.sender.ops → .addTre ∉ c.sender.ops → 0 < c.queued.length
  next : .notify ∈ c.reader.ops → c.results.length < c.queued.length
  ctxt : c.treRing.ctxtWp = c.treRing.phys c.rung
  taken_le : c.taken ≤ c.rung
  rung_le : c.rung ≤ c.queued.length
  ge : c.reader.phase ≠ .reset → c.reader.phase ≠ .closed → c.given .delTre ≤ c.taken
  follows : Follows c.treRing c.enabled (c.given .delTre) c.reader.ops c.events c.taken
    c.reader.phase

/-- Nothing of this depends on what is in the rings, or on what is counted. -/
theorem Placed.congr (h : c.Placed) (bufInfo : Nat → MhiBufInfo β) (tre : Nat → MhiTre)
    (call : Option (Call β)) (pAddr place : Nat) (owed owed' : List Vote) (bufAddr : Option β)
    (toRing : Bool) (unmapped : List (Nat × Nat)) (counted : Int) :
    Placed { c with
      bufInfo, tre, toRing, unmapped, counted
      sender := ⟨call, pAddr, c.sender.ops, owed⟩
      reader := ⟨c.reader.phase, c.reader.ops, owed', place, bufAddr⟩ } :=
  ⟨h.send, h.read, h.elements_eq, h.tre_at, h.buf_at, h.le, h.lt, h.room, h.added, h.next, h.ctxt, h.taken_le,
    h.rung_le, h.ge, h.follows⟩

section Ops

variable {α : Type} [DecidableEq α] {op x : α} {ops : List α}

theorem left_cons_of_ne (h : x ≠ op) : left (op :: ops) x = left ops x := by
  simp [left, h]

theorem left_of_mem (h : x ∈ ops) : left ops x = 1 := if_pos h

theorem left_of_not_mem (h : x ∉ ops) : left ops x = 0 := if_neg h

end Ops

theorem Placed.sendOk {op : SendOp} {ops : List SendOp} (h : c.Placed)
    (hops : c.sender.ops = op :: ops) : SendOk (op :: ops) :=
  Chan.sendOk (hops ▸ h.send)

theorem Placed.readOk {op : ReadOp} {ops : List ReadOp} (h : c.Placed)
    (hops : c.reader.ops = op :: ops) : ReadOk (op :: ops) :=
  Chan.readOk (hops ▸ h.read)

/-! ### The thread that queues buffers -/

theorem Placed.popSend {op : SendOp} {ops : List SendOp} (h : c.Placed)
    (hops : c.sender.ops = op :: ops) (htre : .addTre ≠ op) (hbuf : .addBuf ≠ op) :
    Placed { c with sender := { c.sender with ops } } where
  send := (List.suffix_cons op ops).trans (hops ▸ h.send)
  read := h.read
  elements_eq := h.elements_eq
  tre_at := h.tre_at
  buf_at := by
    have hat := h.buf_at
    rw [noted, hops, left_cons_of_ne htre, left_cons_of_ne hbuf] at hat
    exact hat
  le := h.le
  lt := h.lt
  room hmem := h.room (by rw [hops]; exact List.mem_cons_of_mem op hmem)
  added hmem hnot := by
    refine h.added (by rw [hops]; exact List.mem_cons_of_mem op hmem) ?_
    rw [hops]
    exact List.not_mem_cons_of_ne_of_not_mem htre hnot
  next := h.next
  ctxt := h.ctxt
  taken_le := h.taken_le
  rung_le := h.rung_le
  ge := h.ge
  follows := h.follows

/-- A buffer that could not be mapped is not queued. -/
theorem Placed.abort {ops : List SendOp} (h : c.Placed) (hops : c.sender.ops = .note :: ops) :
    Placed { c with sender := { c.sender with ops := [] } } where
  send := List.nil_suffix
  read := h.read
  elements_eq := h.elements_eq
  tre_at := h.tre_at
  buf_at := by
    have hok := h.sendOk hops
    have hat := h.buf_at
    rw [noted, hops, left_cons_of_ne (by simp), left_cons_of_ne (by simp),
      left_of_mem hok.2.2.1, left_of_mem hok.2.2.2, Nat.add_sub_cancel] at hat
    exact hat
  le := h.le
  lt := h.lt
  room hmem := absurd hmem List.not_mem_nil
  added hmem := absurd hmem List.not_mem_nil
  next := h.next
  ctxt := h.ctxt
  taken_le := h.taken_le
  rung_le := h.rung_le
  ge := h.ge
  follows := h.follows

theorem Placed.addTre {ops : List SendOp} (h : c.Placed) (hops : c.sender.ops = .addTre :: ops)
    (q : Call β × Nat) :
    Placed { c with
      sender := { c.sender with ops }
      treRing := c.treRing.mhiAddRingElement
      queued := c.queued ++ [q] } := by
  have hok := h.sendOk hops
  have hlen : (c.queued ++ [q]).length = c.queued.length + 1 := by simp
  have hroom := h.room (by rw [hops]; exact List.mem_cons_self)
  have hle := h.le
  have hlt := h.lt
  have hrung := h.rung_le
  constructor
  case send => exact (List.suffix_cons _ ops).trans (hops ▸ h.send)
  case read => exact h.read
  case elements_eq => exact h.elements_eq
  case tre_at =>
    rw [hlen]
    exact h.tre_at.add
  case buf_at =>
    have hat := h.buf_at
    rw [noted, hops, left_of_mem List.mem_cons_self, left_cons_of_ne (by simp),
      left_of_mem hok.2.2.2.1, Nat.add_sub_cancel] at hat
    have heq : noted { c with
        sender := { c.sender with ops }
        treRing := c.treRing.mhiAddRingElement
        queued := c.queued ++ [q] } = c.queued.length := by
      rw [noted, hlen]
      show c.queued.length + 1 + left ops .addTre - left ops .addBuf = _
      rw [left_of_not_mem hok.1, left_of_mem hok.2.2.2.1, Nat.add_zero, Nat.add_sub_cancel]
    rw [heq]
    exact hat
  case le =>
    rw [hlen]
    exact Nat.le_succ_of_le hle
  case lt =>
    rw [hlen]
    exact hroom
  case room => exact fun hmem ↦ absurd hmem hok.1
  case added =>
    intro _ _
    rw [hlen]
    omega
  case next =>
    intro hmem
    rw [hlen]
    exact Nat.lt_succ_of_lt (h.next hmem)
  case ctxt => exact h.ctxt
  case taken_le => exact h.taken_le
  case rung_le =>
    rw [hlen]
    exact Nat.le_succ_of_le hrung
  case ge => exact h.ge
  case follows => exact h.follows

theorem Placed.addBuf {ops : List SendOp} (h : c.Placed) (hops : c.sender.ops = .addBuf :: ops) :
    Placed { c with
      sender := { c.sender with ops }
      bufRing := c.bufRing.mhiAddRingElement } where
  send := (List.suffix_cons _ ops).trans (hops ▸ h.send)
  read := h.read
  elements_eq := h.elements_eq
  tre_at := h.tre_at
  buf_at := by
    have hok := h.sendOk hops
    have hpos := h.added (by rw [hops]; exact List.mem_cons_self)
      (by rw [hops]; simpa using hok.2)
    have hat := h.buf_at.add
    rw [noted, hops, left_cons_of_ne (by simp), left_of_not_mem hok.2,
      left_of_mem List.mem_cons_self,
      show c.queued.length + 0 - 1 + 1 = c.queued.length by omega] at hat
    have heq : noted { c with
        sender := { c.sender with ops }
        bufRing := c.bufRing.mhiAddRingElement } = c.queued.length := by
      show c.queued.length + left ops .addTre - left ops .addBuf = _
      rw [left_of_not_mem hok.1, left_of_not_mem hok.2, Nat.add_zero, Nat.sub_zero]
    rw [heq]
    exact hat
  le := h.le
  lt := h.lt
  room hmem := h.room (by rw [hops]; exact List.mem_cons_of_mem _ hmem)
  added hmem := absurd hmem (And.left (h.sendOk hops))
  next := h.next
  ctxt := h.ctxt
  taken_le := h.taken_le
  rung_le := h.rung_le
  ge := h.ge
  follows := h.follows

theorem Placed.ringDb (h : c.Placed) : c.ringDb.Placed where
  send := h.send
  read := h.read
  elements_eq := h.elements_eq
  tre_at := h.tre_at.ringDb
  buf_at := h.buf_at
  le := h.le
  lt := h.lt
  room := h.room
  added := h.added
  next := h.next
  ctxt := h.tre_at.ctxtWp_ringDb
  taken_le := Nat.le_trans h.taken_le h.rung_le
  rung_le := Nat.le_refl _
  ge := h.ge
  follows := h.follows

theorem Placed.sendOp {op : SendOp} {ops : List SendOp} (h : c.Placed)
    (hops : c.sender.ops = op :: ops) (pmState : Nat) (pendingPkts : Int) (map : Option Nat)
    (call : Call β) :
    Placed
      (sendOp { c with sender := { c.sender with ops } } pmState pendingPkts map call op).1 := by
  cases op with
  | rouse =>
    have hpop := h.popSend hops (by simp) (by simp)
    simp only [Chan.sendOp]
    split
    · exact hpop.congr _ _ _ _ _ _ _ _ _ _ _
    · exact hpop
  | note =>
    have hpop := h.popSend hops (by simp) (by simp)
    simp only [Chan.sendOp]
    split
    · exact hpop.congr _ _ _ _ _ _ _ _ _ _ _
    · split
      · exact hpop.congr _ _ _ _ _ _ _ _ _ _ _
      · exact (h.abort hops).congr _ _ _ _ _ _ _ _ _ _ _
    · split
      · exact hpop.congr _ _ _ _ _ _ _ _ _ _ _
      · exact (h.abort hops).congr _ _ _ _ _ _ _ _ _ _ _
  | describe =>
    have hpop := h.popSend hops (by simp) (by simp)
    exact hpop.congr _ _ _ _ _ _ _ _ _ _ _
  | pendingInc =>
    have hpop := h.popSend hops (by simp) (by simp)
    simp only [Chan.sendOp]
    split
    · exact hpop.congr _ _ _ _ _ _ _ _ _ _ _
    · exact hpop
  | addTre => exact h.addTre hops _
  | addBuf => exact h.addBuf hops
  | doorbell =>
    have hpop := h.popSend hops (by simp) (by simp)
    simp only [Chan.sendOp]
    split
    · exact hpop.ringDb
    · exact hpop

theorem Placed.accept (h : c.Placed) (call : Call β) (hops : c.sender.ops = [])
    (hfull : c.treRing.mhiIsRingFull = false) :
    Placed { c with
      sender := { c.sender with call := some call, ops := sendProgram c.xferType } } where
  send := List.suffix_rfl
  read := h.read
  elements_eq := h.elements_eq
  tre_at := h.tre_at
  buf_at := by
    have hat := h.buf_at
    rw [noted, hops] at hat
    have heq : left (sendProgram c.xferType) .addTre = 1 ∧
        left (sendProgram c.xferType) .addBuf = 1 := by
      cases c.xferType <;> exact ⟨rfl, rfl⟩
    rw [noted]
    show c.bufRing.At _ (_ + left (sendProgram c.xferType) .addTre -
      left (sendProgram c.xferType) .addBuf)
    rw [heq.1, heq.2]
    exact hat
  le := h.le
  lt := h.lt
  room _ := by
    have hlt := h.lt
    have hne := mt (h.tre_at.full_iff h.le h.lt).mpr (by simp [hfull])
    show c.queued.length + 1 < c.given .delTre + c.treRing.elements
    omega
  added _ hnot := by
    have hmem : .addTre ∈ sendProgram c.xferType := by cases c.xferType <;> simp [sendProgram]
    exact absurd hmem hnot
  next := h.next
  ctxt := h.ctxt
  taken_le := h.taken_le
  rung_le := h.rung_le
  ge := h.ge
  follows := h.follows

/-! ### The thread that gives buffers back -/

theorem Placed.ops_eq_nil (h : c.Placed) (hphase : c.reader.phase = .idle ∨
    c.reader.phase = .closed) : c.reader.ops = [] := by
  have hread := h.read
  rw [readProgram] at hread
  rcases hphase with hp | hp <;> rw [hp] at hread <;> exact List.suffix_nil.mp hread

/-- Between two rounds of a loop, what was given up is what has come back. -/
theorem given_of_nil (hops : c.reader.ops = []) (op : ReadOp) : c.given op = c.results.length := by
  simp [given, hops, left]

/-- An operation that moves no pointer, and does not tell the client. -/
theorem Placed.popRead {op : ReadOp} {ops : List ReadOp} (h : c.Placed)
    (hops : c.reader.ops = op :: ops) (hbuf : .delBuf ≠ op) (htre : .delTre ≠ op)
    (hnotify : .notify ≠ op) : Placed { c with reader := { c.reader with ops } } := by
  have hgiven : ∀ x, x ≠ op → given { c with reader := { c.reader with ops } } x = c.given x := by
    intro x hx
    rw [given, given, hops, left_cons_of_ne hx, left_cons_of_ne hnotify]
  have hbuf' := hgiven _ hbuf
  have htre' := hgiven _ htre
  constructor
  case send => exact h.send
  case read => exact (List.suffix_cons op ops).trans (hops ▸ h.read)
  case elements_eq => exact h.elements_eq
  case tre_at => exact htre' ▸ h.tre_at
  case buf_at => exact hbuf' ▸ h.buf_at
  case le => exact htre' ▸ h.le
  case lt => exact htre' ▸ h.lt
  case room => exact htre' ▸ h.room
  case added => exact h.added
  case next => exact fun hmem ↦ h.next (by rw [hops]; exact List.mem_cons_of_mem op hmem)
  case ctxt => exact h.ctxt
  case taken_le => exact h.taken_le
  case rung_le => exact h.rung_le
  case ge => exact htre' ▸ h.ge
  case follows =>
    refine Follows.of_ops (htre' ▸ h.follows) fun hmem ↦ ?_
    rw [hops]
    exact List.mem_cons_of_mem op hmem

/-- An operation of the loop is done for one more buffer. -/
theorem given_pop {op : ReadOp} {ops : List ReadOp} (hops : c.reader.ops = op :: ops)
    (hop : op ∉ ops) (hnotify : .notify ∈ ops) :
    c.given op = c.results.length ∧
      given { c with reader := { c.reader with ops } } op = c.results.length + 1 := by
  have hne : .notify ≠ op := fun h ↦ hop (h ▸ hnotify)
  constructor
  · rw [given, hops, left_cons_of_ne hne, left_of_mem hnotify, left_of_mem List.mem_cons_self,
      Nat.add_sub_cancel]
  · rw [given]
    show c.results.length + left ops .notify - left ops op = _
    rw [left_of_mem hnotify, left_of_not_mem hop, Nat.sub_zero]

theorem given_pop_of_ne {op x : ReadOp} {ops : List ReadOp} (hops : c.reader.ops = op :: ops)
    (hnotify : .notify ≠ op) (hx : x ≠ op) :
    given { c with reader := { c.reader with ops } } x = c.given x := by
  rw [given, given, hops, left_cons_of_ne hx, left_cons_of_ne hnotify]

theorem Placed.delBuf {ops : List ReadOp} (h : c.Placed) (hops : c.reader.ops = .delBuf :: ops) :
    Placed { c with
      reader := { c.reader with ops }
      bufRing := c.bufRing.mhiDelRingElement } := by
  have hok := h.readOk hops
  have hgiven := given_pop hops hok.1 hok.2.2
  have htre : given { c with reader := { c.reader with ops } } .delTre = c.given .delTre :=
    given_pop_of_ne hops (by simp) (by simp)
  have hmem : ∀ {x}, x ∈ ops → x ∈ c.reader.ops := fun hx ↦ by
    rw [hops]
    exact List.mem_cons_of_mem _ hx
  constructor
  case send => exact h.send
  case read => exact (List.suffix_cons _ ops).trans (hops ▸ h.read)
  case elements_eq => exact h.elements_eq
  case tre_at => exact htre ▸ h.tre_at
  case buf_at =>
    have hat := h.buf_at.del
    rw [hgiven.1, ← hgiven.2] at hat
    exact hat
  case le => exact htre ▸ h.le
  case lt => exact htre ▸ h.lt
  case room => exact htre ▸ h.room
  case added => exact h.added
  case next => exact fun hx ↦ h.next (hmem hx)
  case ctxt => exact h.ctxt
  case taken_le => exact h.taken_le
  case rung_le => exact h.rung_le
  case ge => exact htre ▸ h.ge
  case follows => exact Follows.of_ops (htre ▸ h.follows) hmem

theorem Placed.delTre {ops : List ReadOp} (h : c.Placed) (hops : c.reader.ops = .delTre :: ops) :
    Placed { c with
      reader := { c.reader with ops }
      treRing := c.treRing.mhiDelRingElement } := by
  have hok := h.readOk hops
  obtain ⟨hold, hnew⟩ := given_pop hops hok.1 hok.2.2
  have hbuf : given { c with reader := { c.reader with ops } } .delBuf = c.given .delBuf :=
    given_pop_of_ne hops (by simp) (by simp)
  have hmem : ∀ {x}, x ∈ ops → x ∈ c.reader.ops := fun hx ↦ by
    rw [hops]
    exact List.mem_cons_of_mem _ hx
  have hnext := h.next (hmem hok.2.2)
  have hlt := h.lt
  have hroom := h.room
  have hge := h.ge
  have hfollows := h.follows
  rw [hold] at hlt hroom hge hfollows
  have heq : given { c with
      reader := { c.reader with ops }
      treRing := c.treRing.mhiDelRingElement } .delTre = c.results.length + 1 := hnew
  constructor
  case send => exact h.send
  case read => exact (List.suffix_cons _ ops).trans (hops ▸ h.read)
  case elements_eq => exact h.elements_eq
  case tre_at =>
    have hat := h.tre_at.del
    rw [hold, ← hnew] at hat
    exact hat
  case buf_at => exact hbuf ▸ h.buf_at
  case le => exact Nat.le_trans (Nat.le_of_eq hnew) hnext
  case lt =>
    rw [heq]
    show c.queued.length < c.results.length + 1 + c.treRing.elements
    omega
  case room =>
    intro hx
    have := hroom hx
    rw [heq]
    show c.queued.length + 1 < c.results.length + 1 + c.treRing.elements
    omega
  case added => exact h.added
  case next => exact fun hx ↦ h.next (hmem hx)
  case ctxt => exact h.ctxt
  case taken_le => exact h.taken_le
  case rung_le => exact h.rung_le
  case ge =>
    intro hr hc
    refine Nat.le_trans (Nat.le_of_eq hnew) ?_
    cases hp : c.reader.phase with
    | idle => exact absurd (hops.symm.trans (h.ops_eq_nil (.inl hp))) (by simp)
    | loop ev devRp =>
      rw [hp] at hfollows
      obtain ⟨j, -, -, hlt, hdue⟩ := hfollows
      have hj := hlt (by rw [hops]; exact List.mem_cons_self)
      have hle := hdue.le
      show c.results.length + 1 ≤ c.taken
      omega
    | reset => exact absurd hp hr
    | closed => exact absurd hp hc
  case follows =>
    rw [heq]
    cases hp : c.reader.phase with
    | idle => exact absurd (hops.symm.trans (h.ops_eq_nil (.inl hp))) (by simp)
    | loop ev devRp =>
      rw [hp] at hfollows
      obtain ⟨j, hj, -, hlt, hdue⟩ := hfollows
      exact ⟨j, hj, hlt (by rw [hops]; exact List.mem_cons_self), fun hx ↦ absurd hx hok.1, hdue⟩
    | reset | closed => trivial

/-- After the client was told, the counters are where they were. -/
theorem given_notify {ops : List ReadOp} (hops : c.reader.ops = .notify :: ops) (hok : .notify ∉ ops)
    (r : MhiResult β) {x : ReadOp} (hx : x ≠ .notify) :
    given { c with reader := { c.reader with ops }, results := c.results ++ [r] } x = c.given x := by
  rw [given, given, hops, left_cons_of_ne hx, left_of_mem List.mem_cons_self]
  show (c.results ++ [r]).length + left ops .notify - left ops x = _
  rw [left_of_not_mem hok, List.length_append, List.length_singleton, Nat.add_zero]

theorem Placed.notify {ops : List ReadOp} (h : c.Placed) (hops : c.reader.ops = .notify :: ops)
    (r : MhiResult β) :
    Placed { c with reader := { c.reader with ops }, results := c.results ++ [r] } := by
  have hok := h.readOk hops
  have htre := given_notify hops hok.1 r (x := .delTre) (by simp)
  have hbuf := given_notify hops hok.1 r (x := .delBuf) (by simp)
  constructor
  case send => exact h.send
  case read => exact (List.suffix_cons _ ops).trans (hops ▸ h.read)
  case elements_eq => exact h.elements_eq
  case tre_at => exact htre ▸ h.tre_at
  case buf_at => exact hbuf ▸ h.buf_at
  case le => exact htre ▸ h.le
  case lt => exact htre ▸ h.lt
  case room => exact htre ▸ h.room
  case added => exact h.added
  case next => exact fun hx ↦ absurd hx hok.1
  case ctxt => exact h.ctxt
  case taken_le => exact h.taken_le
  case rung_le => exact h.rung_le
  case ge => exact htre ▸ h.ge
  case follows =>
    refine Follows.of_ops (htre ▸ h.follows) fun hx ↦ ?_
    rw [hops]
    exact List.mem_cons_of_mem _ hx

theorem Placed.readOp {op : ReadOp} {ops : List ReadOp} (h : c.Placed)
    (hops : c.reader.ops = op :: ops) (pendingPkts : Int) :
    Placed (readOp { c with reader := { c.reader with ops } } pendingPkts op).1 := by
  cases op with
  | point =>
    exact (h.popRead hops (by simp) (by simp) (by simp)).congr _ _ _ _ _ _ _ _ _ _ _
  | unmap =>
    have hpop := h.popRead hops (by simp) (by simp) (by simp)
    simp only [Chan.readOp]
    split
    · exact hpop
    · exact hpop.congr _ _ _ _ _ _ _ _ _ _ _
  | fetch =>
    exact (h.popRead hops (by simp) (by simp) (by simp)).congr _ _ _ _ _ _ _ _ _ _ _
  | delBuf => exact h.delBuf hops
  | delTre => exact h.delTre hops
  | notify => exact h.notify hops _
  | pendingDec =>
    exact (h.popRead hops (by simp) (by simp) (by simp)).congr _ _ _ _ _ _ _ _ _ _ _

/-- The loops begin another round with the next buffer. -/
theorem Placed.round (h : c.Placed) (hops : c.reader.ops = []) {p : List ReadOp}
    (hp : c.readProgram = p) (hbuf : .delBuf ∈ p) (htre : .delTre ∈ p) (hnotify : .notify ∈ p)
    (hnext : c.results.length < c.queued.length)
    (hfollows : Follows c.treRing c.enabled c.results.length p c.events c.taken c.reader.phase) :
    Placed { c with reader := { c.reader with ops := p } } := by
  have hgiven : ∀ x ∈ p, given { c with reader := { c.reader with ops := p } } x = c.given x := by
    intro x hx
    rw [given_of_nil hops, given]
    show c.results.length + left p .notify - left p x = _
    rw [left_of_mem hnotify, left_of_mem hx, Nat.add_sub_cancel]
  have htre' := hgiven _ htre
  have hbuf' := hgiven _ hbuf
  constructor
  case send => exact h.send
  case read => exact hp ▸ List.suffix_rfl
  case elements_eq => exact h.elements_eq
  case tre_at => exact htre' ▸ h.tre_at
  case buf_at => exact hbuf' ▸ h.buf_at
  case le => exact htre' ▸ h.le
  case lt => exact htre' ▸ h.lt
  case room => exact htre' ▸ h.room
  case added => exact h.added
  case next => exact fun _ ↦ hnext
  case ctxt => exact h.ctxt
  case taken_le => exact h.taken_le
  case rung_le => exact h.rung_le
  case ge => exact htre' ▸ h.ge
  case follows =>
    rw [htre', given_of_nil hops]
    exact hfollows

/-- The thread enters or leaves a loop; no operation of it is open. -/
theorem Placed.turn (h : c.Placed) (hops : c.reader.ops = []) (phase : Phase) (enabled : Bool)
    (events : List Event) (taken : Nat) (htaken : c.taken ≤ taken) (hrung : taken ≤ c.rung)
    (hphase : phase ≠ .reset → phase ≠ .closed →
      c.reader.phase ≠ .reset ∧ c.reader.phase ≠ .closed)
    (hfollows : Follows c.treRing enabled c.results.length [] events taken phase) :
    Placed { c with reader := { c.reader with phase }, enabled, events, taken } := by
  constructor
  case send => exact h.send
  case read =>
    show c.reader.ops <:+ _
    rw [hops]
    exact List.nil_suffix
  case elements_eq => exact h.elements_eq
  case tre_at => exact h.tre_at
  case buf_at => exact h.buf_at
  case le => exact h.le
  case lt => exact h.lt
  case room => exact h.room
  case added => exact h.added
  case next => exact h.next
  case ctxt => exact h.ctxt
  case taken_le => exact hrung
  case rung_le => exact h.rung_le
  case ge =>
    intro hr hc
    obtain ⟨hr', hc'⟩ := hphase hr hc
    exact Nat.le_trans (h.ge hr' hc') htaken
  case follows =>
    have hgiven : given { c with reader := { c.reader with phase }, enabled, events, taken } .delTre =
        c.results.length := given_of_nil hops .delTre
    rw [hgiven]
    show Follows c.treRing enabled c.results.length c.reader.ops events taken phase
    rw [hops]
    exact hfollows

theorem Placed.iterate (h : c.Placed) {ev : Event} {devRp : Nat}
    (hphase : c.reader.phase = .loop ev devRp) (hops : c.reader.ops = [])
    (hrp : c.treRing.rp ≠ devRp) :
    Placed { c with reader := { c.reader with ops := loopProgram c.dir } } := by
  have hfollows := h.follows
  rw [hphase, given_of_nil hops] at hfollows
  obtain ⟨j, rfl, hle, -, hdue⟩ := hfollows
  have hlt : c.results.length < j + 1 := by
    refine Nat.lt_of_le_of_ne hle fun heq ↦ hrp ?_
    rw [h.tre_at.rp_eq, given_of_nil hops, heq]
  have htaken := hdue.le
  have hrung := h.taken_le
  have hlen := h.rung_le
  refine h.round hops (by rw [readProgram, hphase]) ?_ ?_ ?_ (by omega) ?_
  · cases c.dir <;> simp [loopProgram]
  · cases c.dir <;> simp [loopProgram]
  · cases c.dir <;> simp [loopProgram]
  · rw [hphase]
    exact ⟨j, rfl, hle, fun _ ↦ hlt, hdue⟩

theorem Placed.iterateReset (h : c.Placed) (hphase : c.reader.phase = .reset)
    (hops : c.reader.ops = []) (hrp : c.treRing.rp ≠ c.treRing.wp) :
    Placed { c with reader := { c.reader with ops := resetProgram c.dir } } := by
  have hne := mt (h.tre_at.rp_eq_wp_iff h.le h.lt).mpr hrp
  have hle := h.le
  rw [given_of_nil hops] at hne hle
  refine h.round hops (by rw [readProgram, hphase]) ?_ ?_ ?_ (by omega) ?_
  · cases c.dir <;> simp [resetProgram]
  · cases c.dir <;> simp [resetProgram]
  · cases c.dir <;> simp [resetProgram]
  · rw [hphase]
    trivial

theorem Placed.leave (h : c.Placed) {ev : Event} {devRp : Nat}
    (hphase : c.reader.phase = .loop ev devRp) (hops : c.reader.ops = [])
    (hrp : c.treRing.rp = devRp) :
    Placed { c with reader := { c.reader with phase := .idle } } := by
  have hfollows := h.follows
  rw [hphase, given_of_nil hops] at hfollows
  obtain ⟨j, rfl, hle, -, hdue⟩ := hfollows
  have htaken := hdue.le
  have hrung := h.taken_le
  have hlen := h.rung_le
  have hlt := h.lt
  rw [h.tre_at.rp_eq, given_of_nil hops] at hrp
  rw [given_of_nil hops] at hlt
  have heq := (h.tre_at.toLies.slot_eq hle (by omega)).mp hrp
  refine h.turn hops .idle c.enabled c.events c.taken (Nat.le_refl _) hrung ?_ fun _ ↦ ?_
  · intro _ _
    rw [hphase]
    simp
  · rw [heq]
    exact hdue

/-- The place behind the element that an event points to. -/
theorem devRp_of_phys (h : c.treRing.Lies) {ev : Event} {j : Nat} (hj : ev.ptr = c.treRing.phys j) :
    c.devRp ev = c.treRing.slot (j + 1) := by
  simp only [devRp]
  rw [hj, h.toVirtual_phys]
  exact h.slot_succ j

theorem Placed.handle (h : c.Placed) {ev : Event} {events : List Event}
    (hev : c.events = ev :: events) (hidle : c.reader.phase = .idle) (pmState : Nat) :
    Placed (parseXferEvent { c with events } pmState ev) := by
  have hops := h.ops_eq_nil (.inl hidle)
  have hfollows := h.follows
  rw [hidle, hev, given_of_nil hops] at hfollows
  have hskip : (c.enabled = true → Due c.treRing.phys c.results.length events c.taken) →
      Placed { c with events } := by
    intro hdue
    have hturn := h.turn hops .idle c.enabled events c.taken (Nat.le_refl _) h.taken_le
      (fun _ _ ↦ by simp [hidle]) hdue
    rwa [← hidle] at hturn
  rw [parseXferEvent]
  split
  · rename_i hen
    exact hskip fun htrue ↦ absurd hen (by simp [htrue])
  · rename_i hen
    have hdue := hfollows (by simpa using hen)
    rw [Due] at hdue
    split
    · rename_i hx
      rw [if_pos hx] at hdue
      obtain ⟨j, hj, hptr, hdue⟩ := hdue
      refine h.turn hops (.loop ev (c.devRp ev)) c.enabled events c.taken (Nat.le_refl _) h.taken_le
        (fun _ _ ↦ by simp [hidle]) ?_
      exact ⟨j, devRp_of_phys h.tre_at.toLies hptr, by omega, by simp, hdue⟩
    · rename_i hx
      rw [if_neg hx] at hdue
      have hplaced := hskip fun _ ↦ hdue
      split
      · split
        · exact hplaced.ringDb
        · exact hplaced
      · exact hplaced

theorem Placed.complete (h : c.Placed) {k code len : Nat}
    (hk : k < MhiRing.getUsedRingElements c.treRing.elSize (c.treRing.phys c.taken)
      c.treRing.ctxtWp c.treRing.elements)
    (hev : (Event.mk (c.treRing.phys (c.taken + k)) code len).isXfer = true)
    (hreset : c.reader.phase ≠ .reset) (hclosed : c.reader.phase ≠ .closed) :
    Placed { c with
      events := c.events ++ [⟨c.treRing.phys (c.taken + k), code, len⟩]
      taken := c.taken + k + 1 } := by
  have hge := h.ge hreset hclosed
  have hlt := h.lt
  have hrung := h.rung_le
  have htaken := h.taken_le
  rw [h.ctxt, h.tre_at.toLies.used_phys htaken (by omega)] at hk
  constructor
  case send => exact h.send
  case read => exact h.read
  case elements_eq => exact h.elements_eq
  case tre_at => exact h.tre_at
  case buf_at => exact h.buf_at
  case le => exact h.le
  case lt => exact h.lt
  case room => exact h.room
  case added => exact h.added
  case next => exact h.next
  case ctxt => exact h.ctxt
  case taken_le =>
    show c.taken + k + 1 ≤ c.rung
    omega
  case rung_le => exact h.rung_le
  case ge =>
    intro _ _
    show c.given .delTre ≤ c.taken + k + 1
    omega
  case follows =>
    have hfollows := h.follows
    show Follows c.treRing c.enabled (c.given .delTre) c.reader.ops _ _ c.reader.phase
    cases hp : c.reader.phase with
    | idle =>
      rw [hp] at hfollows
      exact fun hen ↦ (hfollows hen).concat hev rfl
    | loop ev devRp =>
      rw [hp] at hfollows
      obtain ⟨j, hj, hle, hlt, hdue⟩ := hfollows
      exact ⟨j, hj, hle, hlt, hdue.concat hev rfl⟩
    | reset | closed => trivial

theorem Placed.outOfBuffers (h : c.Placed) {code : Nat} (hev : (Event.mk 0 code 0).isDb = true) :
    Placed { c with events := c.events ++ [⟨0, code, 0⟩] } := by
  have hx : (Event.mk 0 code 0).isXfer = false := by
    simp only [Event.isDb, Event.isXfer, Bool.or_eq_true, decide_eq_true_eq] at hev ⊢
    rcases hev with rfl | rfl <;> rfl
  refine ⟨h.send, h.read, h.elements_eq, h.tre_at, h.buf_at, h.le, h.lt, h.room, h.added, h.next,
    h.ctxt, h.taken_le, h.rung_le, h.ge, ?_⟩
  have hfollows := h.follows
  show Follows c.treRing c.enabled (c.given .delTre) c.reader.ops _ _ c.reader.phase
  cases hp : c.reader.phase with
  | idle =>
    rw [hp] at hfollows
    exact fun hen ↦ (hfollows hen).concat_db hx
  | loop ev devRp =>
    rw [hp] at hfollows
    obtain ⟨j, hj, hle, hlt, hdue⟩ := hfollows
    exact ⟨j, hj, hle, hlt, hdue.concat_db hx⟩
  | reset | closed => trivial

theorem Placed.step {pmState : Nat} {pendingPkts : Int} {e : Effect} (h : c.Placed)
    (hd : Does pmState pendingPkts c c' e) : c'.Placed := by
  cases hd with
  | refuse => exact h
  | accept call hops _ hfull => exact h.accept call hops hfull
  | sendVote _ owed _ => exact h.congr _ _ _ _ _ owed _ _ _ _ _
  | send op ops call map _ hops _ => exact h.sendOp hops pmState pendingPkts map call
  | handle ev events hev hidle => exact h.handle hev hidle pmState
  | readVote _ owed _ => exact h.congr _ _ _ _ _ _ owed _ _ _ _
  | read op ops _ hops => exact h.readOp hops pendingPkts
  | iterate ev devRp hphase hops _ hrp => exact h.iterate hphase hops hrp
  | leave ev devRp hphase hops _ hrp => exact h.leave hphase hops hrp
  | iterateReset hphase hops _ hrp => exact h.iterateReset hphase hops hrp
  | close hphase hops _ _ =>
    exact h.turn hops .closed c.enabled c.events c.taken (Nat.le_refl _) h.taken_le (by simp)
      trivial
  | m0Ring _ _ => exact (h.congr _ _ _ _ _ _ _ _ false _ _).ringDb
  | m0Skip _ _ => exact h.congr _ _ _ _ _ _ _ _ false _ _
  | complete k code len hk hev hreset hclosed => exact h.complete hk hev hreset hclosed
  | outOfBuffers code hev => exact h.outOfBuffers hev
  | disable _ hidle =>
    have hops := h.ops_eq_nil (.inl hidle)
    have hturn := h.turn hops .idle false c.events c.taken (Nat.le_refl _) h.taken_le
      (fun _ _ ↦ by simp [hidle]) (fun hfalse ↦ absurd hfalse (by simp))
    rwa [← hidle] at hturn
  | reset _ hidle =>
    have hops := h.ops_eq_nil (.inl hidle)
    exact h.turn hops .reset c.enabled [] c.taken (Nat.le_refl _) h.taken_le (by simp) trivial

/-! ### Bounds -/

/-- The client is told of the buffer that an operation is done for. -/
theorem notify_mem {x : ReadOp} {ops : List ReadOp} (h : ops <:+ c.readProgram) (hx : x ∈ ops)
    (hne : x ≠ .pendingDec) : .notify ∈ ops := by
  induction ops with
  | nil => exact absurd hx List.not_mem_nil
  | cons op ops ih =>
    have hok := Chan.readOk h
    cases op with
    | notify => exact List.mem_cons_self
    | point => exact List.mem_cons_of_mem _ hok.2.2.2.2.2
    | unmap | fetch | delBuf | delTre => exact List.mem_cons_of_mem _ hok.2.2
    | pendingDec =>
      refine List.mem_cons_of_mem _ (ih ((List.suffix_cons _ ops).trans h) ?_)
      exact (List.mem_cons.mp hx).resolve_left hne

theorem Placed.given_bounds (h : c.Placed) {x : ReadOp} (hx : x ≠ .pendingDec) :
    c.results.length ≤ c.given x ∧ c.given x ≤ c.results.length + 1 := by
  rw [given, left, left]
  by_cases hmem : x ∈ c.reader.ops
  · rw [if_pos hmem, if_pos (notify_mem h.read hmem hx)]
    omega
  · rw [if_neg hmem]
    split <;> omega

theorem Placed.results_le (h : c.Placed) : c.results.length ≤ c.queued.length ∧
    c.queued.length < c.results.length + 1 + c.treRing.elements := by
  have hle := h.le
  have hlt := h.lt
  have hbounds := h.given_bounds (x := .delTre) (by simp)
  omega

/-- While a buffer is being queued, the place behind it stays free. -/
theorem Placed.room' (h : c.Placed) (hmem : .addTre ∈ c.sender.ops) :
    c.queued.length < c.results.length + c.treRing.elements := by
  have hroom := h.room hmem
  have hbounds := h.given_bounds (x := .delTre) (by simp)
  omega

/-- The place that the next description is written to. -/
theorem Placed.place_wp (h : c.Placed) (htre : .addTre ∈ c.sender.ops)
    (hbuf : .addBuf ∈ c.sender.ops) :
    c.bufRing.place c.bufRing.wp = c.queued.length % c.treRing.elements := by
  have hnoted : c.noted = c.queued.length := by
    rw [noted, left_of_mem htre, left_of_mem hbuf, Nat.add_sub_cancel]
  rw [h.buf_at.wp_eq, hnoted, h.buf_at.toLies.place_slot, h.elements_eq]

end Chan

end OpenwrtFeed.Mhi
