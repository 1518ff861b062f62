import Mathlib.Data.List.Basic
import Mathlib.Data.List.Infix
import OpenwrtFeed.Mhi.Ring
import OpenwrtFeed.Mhi.Power

/-!
# Channels

How a client of `mhi_main.c` hands buffers to the modem and gets them back.  `mhi_queue_skb`,
`mhi_queue_dma` and `mhi_queue_buf` write a description of the buffer into `buf_ring` and one for
the modem into `tre_ring`, move the write pointers and ring the doorbell; `parse_xfer_event` follows
an event of the modem and gives buffers back, and `mhi_reset_data_chan` gives back what is left when
the channel is closed.

The three sides run at the same time.  One thread queues buffers to a channel at a time, and one
handles its events, but nothing keeps these two apart: both hold the channel's lock for reading
only.  So each of them is a program, a list of the operations that it does one after another, and a
step of the channel is one operation of one of them, an action of the modem, or one of the power
management.  The model lets more happen than the locks do, except that reading `pm_state` and
ringing the doorbell is one operation, since `pm_lock` is held over both.
-/

set_option autoImplicit false

namespace OpenwrtFeed.Mhi

/-- `struct mhi_tre` -/
structure MhiTre where
  ptr : Nat
  dword0 : Nat
  dword1 : Nat
  deriving DecidableEq, Repr

/-- `MHI_TRE_DATA_DWORD0`, with `MHI_MAX_MTU` -/
def mhiTreDataDword0 (len : Nat) : Nat := len &&& 0xffff

/-- `MHI_TRE_DATA_DWORD1` -/
def mhiTreDataDword1 (bei ieot ieob chain : Bool) : Nat :=
  (2 <<< 16) ||| (bei.toNat <<< 10) ||| (ieot.toNat <<< 9) ||| (ieob.toNat <<< 8) ||| chain.toNat

/-- `struct mhi_buf_info`, for a client whose buffers are of type `β` -/
structure MhiBufInfo (β : Type) where
  pAddr : Nat := 0
  len : Nat := 0
  cbBuf : Option β := none
  preMapped : Bool := false
  deriving DecidableEq, Repr

/-- `struct mhi_result`, without the direction -/
structure MhiResult (β : Type) where
  bufAddr : Option β
  bytesXferd : Nat
  transactionStatus : Int
  deriving DecidableEq, Repr

/-- `enum dma_data_direction`, as far as channels have it -/
inductive Dir where
  | toDevice
  | fromDevice
  deriving DecidableEq, Repr

/-- `enum MHI_XFER_TYPE`, as far as `mhi_init.c` assigns it to channels that transfer data -/
inductive XferType where
  | buffer
  | skb
  | dma
  deriving DecidableEq, Repr

/-- An event ring element that tells of a transfer. -/
structure Event where
  ptr : Nat
  code : Nat
  len : Nat
  deriving DecidableEq, Repr

/-- `MHI_EV_CC_EOT`, `MHI_EV_CC_OVERFLOW`, `MHI_EV_CC_EOB` -/
def Event.isXfer (ev : Event) : Bool := ev.code = 2 || ev.code = 3 || ev.code = 4

/-- `MHI_EV_CC_OOB`, `MHI_EV_CC_DB_MODE` -/
def Event.isDb (ev : Event) : Bool := ev.code = 5 || ev.code = 6

/-- The arguments of a call of `queue_xfer`. -/
structure Call (β : Type) where
  buf : β
  /-- `mhi_buf->dma_addr`, where the client maps its buffers itself. -/
  dmaAddr : Nat := 0
  len : Nat
  eob : Bool := false
  eot : Bool := false
  chain : Bool := false
  deriving DecidableEq, Repr

/-- What a thread that queues a buffer does. -/
inductive SendOp where
  | rouse
  | note
  | describe
  | pendingInc
  | addTre
  | addBuf
  | doorbell
  deriving DecidableEq, Repr

/-- What a thread that gives a buffer back does. -/
inductive ReadOp where
  | point
  | unmap
  | fetch
  | delBuf
  | delTre
  | notify
  | pendingDec
  deriving DecidableEq, Repr

/-- The calls of `runtime_get` and `runtime_put`. -/
inductive Vote where
  | get
  | put
  deriving DecidableEq, Repr

/-- The thread that queues buffers: the call that it is in, the operations that are left of it, and
the votes that it owes before it goes on.  `pAddr` is where `map_single` has mapped the buffer. -/
structure Sender (β : Type) where
  call : Option (Call β) := none
  pAddr : Nat := 0
  ops : List SendOp := []
  owed : List Vote := []

/-- Where the thread that gives buffers back is: outside, in the loop of `parse_xfer_event`, in the
loop of `mhi_reset_data_chan`, or behind that. -/
inductive Phase where
  | idle
  | loop (ev : Event) (devRp : Nat)
  | reset
  | closed
  deriving DecidableEq, Repr

/-- The thread that gives buffers back.  `place` is what its pointer `buf_info` points to, and
`bufAddr` is `result.buf_addr`. -/
structure Reader (β : Type) where
  phase : Phase := .idle
  ops : List ReadOp := []
  owed : List Vote := []
  place : Nat := 0
  bufAddr : Option β := none

/-- A channel, with the modem's side of it, and with the history of both. -/
structure Chan (β : Type) where
  dir : Dir
  xferType : XferType
  intmod : Bool
  /-- `ch_state` is `MHI_CH_STATE_ENABLED`. -/
  enabled : Bool
  treRing : MhiRing
  bufRing : MhiRing
  /-- The elements of `tre_ring`. -/
  tre : Nat → MhiTre
  /-- The elements of `buf_ring`. -/
  bufInfo : Nat → MhiBufInfo β
  sender : Sender β
  reader : Reader β
  /-- `mhi_pm_m0_transition` has not come to this channel yet. -/
  toRing : Bool
  /-- The events of this channel that were not handled yet. -/
  events : List Event
  /-- How many elements the modem has taken from the ring. -/
  taken : Nat
  /-- How many elements there were when the doorbell rang last. -/
  rung : Nat
  /-- What has been queued, with the addresses of the buffers. -/
  queued : List (Call β × Nat)
  /-- What `unmap_single` was called with. -/
  unmapped : List (Nat × Nat)
  /-- What `xfer_cb` was called with. -/
  results : List (MhiResult β)
  /-- How often this channel has incremented `pending_pkts`, less how often it has decremented
  it. -/
  counted : Int

/-- What an operation does to the controller: to `pending_pkts`, and to the votes. -/
inductive Effect where
  | none
  | inc
  | dec
  | vote (v : Vote)
  deriving DecidableEq, Repr

/-- The errors of `mhi_queue_skb`, `mhi_queue_dma` and `mhi_queue_buf`. -/
inductive Errno where
  | enomem
  | eio
  deriving DecidableEq, Repr

/-- The place of an address in the array of a ring. -/
def MhiRing.place (ring : MhiRing) (addr : Nat) : Nat := (addr - ring.base) / ring.elSize

theorem MhiRing.Lies.place_slot {ring : MhiRing} (h : ring.Lies) (k : Nat) :
    ring.place (ring.slot k) = k % ring.elements := by
  rw [place, slot, Nat.add_sub_cancel_left, Nat.mul_div_cancel_left _ h.elSize_pos]

namespace Chan

variable {β : Type}

/-! ## Queueing -/

/-- The operations of `mhi_queue_skb` and `mhi_queue_dma`, and of `mhi_queue_buf` with
`mhi_gen_tre`, from the checks on. -/
def sendProgram : XferType → List SendOp
  | .skb | .dma => [.rouse, .note, .describe, .pendingInc, .addTre, .addBuf, .doorbell]
  | .buffer => [.note, .describe, .addTre, .addBuf, .rouse, .pendingInc, .doorbell]

/-- The checks at the beginning of `mhi_queue_skb`, `mhi_queue_dma` and `mhi_queue_buf`. -/
def queueXfer (c : Chan β) (pmState : Nat) (call : Call β) : Except Errno (Chan β) :=
  match c.xferType with
  | .skb | .dma =>
    if c.treRing.mhiIsRingFull then .error .enomem
    else if mhiPmInErrorState pmState then .error .eio
    else .ok { c with sender := { c.sender with call := some call, ops := sendProgram c.xferType } }
  | .buffer =>
    if mhiPmInErrorState pmState then .error .eio
    else if c.treRing.mhiIsRingFull then .error .enomem
    else .ok { c with sender := { c.sender with call := some call, ops := sendProgram c.xferType } }

/-- What the client asks for: the description of a buffer that is mapped to `pAddr`. -/
def info (xferType : XferType) (call : Call β) (pAddr : Nat) : MhiBufInfo β where
  pAddr
  len := call.len
  cbBuf := some call.buf
  preMapped := xferType = .dma

/-- What the modem is to find. -/
def describes (xferType : XferType) (intmod : Bool) (call : Call β) (pAddr : Nat) : MhiTre where
  ptr := pAddr
  dword0 := mhiTreDataDword0 call.len
  dword1 := match xferType with
    | .skb | .dma => mhiTreDataDword1 true true false false
    | .buffer => mhiTreDataDword1 intmod call.eot call.eob call.chain

/-- `mhi_ring_chan_db`. -/
def ringDb (c : Chan β) : Chan β := { c with treRing := c.treRing.ringDb, rung := c.queued.length }

/-- An operation of the thread that queues a buffer.  `map` is the answer of `map_single`, and
`pendingPkts` what the atomic counter holds. -/
def sendOp (c : Chan β) (pmState : Nat) (pendingPkts : Int) (map : Option Nat) (call : Call β) :
    SendOp → Chan β × Effect
  | .rouse =>
    (if mhiPmInSuspendState pmState then
      { c with sender := { c.sender with owed := [.get, .put] } }
    else c, .none)
  | .note =>
    let i := c.bufRing.place c.bufRing.wp
    let old := c.bufInfo i
    match c.xferType with
    | .dma =>
      ({ c with
        bufInfo := Function.update c.bufInfo i
          { old with pAddr := call.dmaAddr, preMapped := true, cbBuf := some call.buf
                     len := call.len }
        sender := { c.sender with pAddr := call.dmaAddr } }, .none)
    | .skb | .buffer =>
      match map with
      | some pAddr =>
        ({ c with
          bufInfo := Function.update c.bufInfo i
            { old with pAddr, cbBuf := some call.buf, len := call.len }
          sender := { c.sender with pAddr } }, .none)
      -- nothing was added to the rings yet
      | none =>
        ({ c with
          bufInfo := Function.update c.bufInfo i { old with cbBuf := some call.buf, len := call.len }
          sender := { c.sender with ops := [] } }, .none)
  | .describe =>
    let buf := c.bufInfo (c.bufRing.place c.bufRing.wp)
    let dword1 := match c.xferType with
      | .skb | .dma => mhiTreDataDword1 true true false false
      | .buffer => mhiTreDataDword1 c.intmod call.eot call.eob call.chain
    ({ c with
      tre := Function.update c.tre (c.treRing.place c.treRing.wp)
        { ptr := buf.pAddr, dword0 := mhiTreDataDword0 buf.len, dword1 } }, .none)
  | .pendingInc =>
    if c.dir = .toDevice then
      ({ c with
        counted := c.counted + 1
        sender := { c.sender with owed := if pendingPkts + 1 = 1 then [.get] else [] } }, .inc)
    else (c, .none)
  | .addTre =>
    ({ c with
      treRing := c.treRing.mhiAddRingElement
      queued := c.queued ++ [(call, c.sender.pAddr)] }, .none)
  | .addBuf => ({ c with bufRing := c.bufRing.mhiAddRingElement }, .none)
  | .doorbell => (if mhiDbAccessValid pmState then c.ringDb else c, .none)

/-! ## Giving back -/

/-- The body of the loop in `parse_xfer_event`. -/
def loopProgram : Dir → List ReadOp
  | .toDevice => [.point, .unmap, .fetch, .delBuf, .delTre, .notify, .pendingDec]
  | .fromDevice => [.point, .unmap, .fetch, .delBuf, .delTre, .notify]

/-- The body of the loop in `mhi_reset_data_chan`. -/
def resetProgram : Dir → List ReadOp
  | .toDevice => [.point, .pendingDec, .unmap, .delBuf, .delTre, .fetch, .notify]
  | .fromDevice => [.point, .unmap, .delBuf, .delTre, .fetch, .notify]

/-- The result that `xfer_cb` gets. -/
def result (c : Chan β) : MhiResult β :=
  match c.reader.phase with
  | .loop ev _ =>
    { bufAddr := c.reader.bufAddr, bytesXferd := ev.len % 2 ^ 16
      transactionStatus := if ev.code = 3 then -75 else 0 }
  | _ => { bufAddr := c.reader.bufAddr, bytesXferd := 0, transactionStatus := -107 }

/-- An operation of the thread that gives a buffer back. -/
def readOp (c : Chan β) (pendingPkts : Int) : ReadOp → Chan β × Effect
  | .point =>
    ({ c with reader := { c.reader with place := c.bufRing.place c.bufRing.rp } }, .none)
  | .unmap =>
    let buf := c.bufInfo c.reader.place
    (if buf.preMapped then c else { c with unmapped := c.unmapped ++ [(buf.pAddr, buf.len)] }, .none)
  | .fetch =>
    ({ c with reader := { c.reader with bufAddr := (c.bufInfo c.reader.place).cbBuf } }, .none)
  | .delBuf => ({ c with bufRing := c.bufRing.mhiDelRingElement }, .none)
  | .delTre => ({ c with treRing := c.treRing.mhiDelRingElement }, .none)
  | .notify => ({ c with results := c.results ++ [c.result] }, .none)
  | .pendingDec =>
    ({ c with
      counted := c.counted - 1
      reader := { c.reader with owed := if pendingPkts - 1 = 0 then [.put] else [] } }, .dec)

/-- The place behind the element that an event points to. -/
def devRp (c : Chan β) (ev : Event) : Nat :=
  let rp := c.treRing.mhiToVirtual ev.ptr + c.treRing.elSize
  if c.treRing.base + c.treRing.len ≤ rp then c.treRing.base else rp

/-- `parse_xfer_event`, up to its loop -/
def parseXferEvent (c : Chan β) (pmState : Nat) (ev : Event) : Chan β :=
  if !c.enabled then c
  else if ev.isXfer then
    { c with reader := { c.reader with phase := .loop ev (c.devRp ev) } }
  else if ev.isDb then
    if c.treRing.wp ≠ c.treRing.rp && mhiDbAccessValid pmState then c.ringDb else c
  else c

/-! ## Steps -/

/-- What can happen next on a channel. -/
inductive Act (β : Type) where
  /-- The client queues a buffer. -/
  | call (call : Call β)
  /-- The thread that does so goes on. -/
  | send (map : Option Nat)
  /-- The next event is handled. -/
  | handle
  /-- The thread that gives buffers back goes on. -/
  | read
  /-- `mhi_pm_m0_transition` comes to this channel. -/
  | m0Ring
  /-- The modem has taken `k + 1` more elements from the ring. -/
  | complete (k code len : Nat)
  /-- The modem wants the doorbell to be rung. -/
  | outOfBuffers (code : Nat)
  /-- `__mhi_unprepare_channel` sets `MHI_CH_STATE_DISABLED`. -/
  | disable
  /-- It calls `mhi_reset_chan`, which makes all events of the channel stale. -/
  | reset

/-- One operation of one of the sides. -/
def step (pmState : Nat) (pendingPkts : Int) (c : Chan β) : Act β → Option (Chan β × Effect)
  | .call call =>
    if c.sender.ops = [] ∧ c.sender.owed = [] then
      match c.queueXfer pmState call with
      | .ok c' => some (c', .none)
      | .error _ => some (c, .none)
    else none
  | .send map =>
    match c.sender.owed, c.sender.ops, c.sender.call with
    | v :: owed, _, _ => some ({ c with sender := { c.sender with owed } }, .vote v)
    | [], op :: ops, some call =>
      some (sendOp { c with sender := { c.sender with ops } } pmState pendingPkts map call op)
    | _, _, _ => none
  | .handle =>
    match c.events with
    | ev :: events =>
      if c.reader.phase = .idle then some (parseXferEvent { c with events } pmState ev, .none)
      else none
    | [] => none
  | .read =>
    match c.reader.owed, c.reader.ops with
    | v :: owed, _ => some ({ c with reader := { c.reader with owed } }, .vote v)
    | [], op :: ops => some (readOp { c with reader := { c.reader with ops } } pendingPkts op)
    | [], [] =>
      match c.reader.phase with
      | .loop _ devRp =>
        some (if c.treRing.rp ≠ devRp then
          { c with reader := { c.reader with ops := loopProgram c.dir } }
        else { c with reader := { c.reader with phase := .idle } }, .none)
      | .reset =>
        some (if c.treRing.rp ≠ c.treRing.wp then
          { c with reader := { c.reader with ops := resetProgram c.dir } }
        else { c with reader := { c.reader with phase := .closed } }, .none)
      | .idle | .closed => none
  | .m0Ring =>
    if c.toRing then
      let c := { c with toRing := false }
      some (if c.treRing.wp ≠ c.treRing.rp then c.ringDb else c, .none)
    else none
  | .complete k code len =>
    let n := MhiRing.getUsedRingElements c.treRing.elSize (c.treRing.phys c.taken)
      c.treRing.ctxtWp c.treRing.elements
    let ev : Event := ⟨c.treRing.phys (c.taken + k), code, len⟩
    if k < n ∧ ev.isXfer ∧ c.reader.phase ≠ .reset ∧ c.reader.phase ≠ .closed then
      some ({ c with events := c.events ++ [ev], taken := c.taken + k + 1 }, .none)
    else none
  | .outOfBuffers code =>
    let ev : Event := ⟨0, code, 0⟩
    if ev.isDb then some ({ c with events := c.events ++ [ev] }, .none) else none
  | .disable =>
    if c.enabled ∧ c.reader.phase = .idle then some ({ c with enabled := false }, .none) else none
  | .reset =>
    if !c.enabled ∧ c.reader.phase = .idle then
      some ({ c with events := [], reader := { c.reader with phase := .reset } }, .none)
    else none

end Chan

end OpenwrtFeed.Mhi
