import OpenwrtFeed.Mhi.Channel

/-!
# Event rings

The event rings of the data channels.  The modem writes events into the ring, moves the read pointer
in the context and raises an interrupt; `mhi_msi_handlr` looks whether there is something to do and
schedules the tasklet or, for the ring that the network device polls, NAPI; and
`mhi_process_data_event_ring` takes the events one by one, gives each element back to the modem, and
looks again whether there are more before it leaves.

The pointers are those of a ring that starts full: all elements but one belong to the modem, and for
each event that is handled the host moves both pointers by one (`mhi_recycle_ev_ring_element`).

Modem, interrupt handler and tasklet run at the same time, one access to shared memory after
another.  `mhi_mark_stale_events`, which is called when a channel is closed, holds the lock that
`mhi_ev_task` and `mhi_poll` hold, so it is one step, which is not taken in the middle of theirs.
-/

set_option autoImplicit false

namespace OpenwrtFeed.Mhi

/-- `enum MHI_PKT_TYPE`, as far as `mhi_process_data_event_ring` tells the types apart -/
inductive PktType where
  | tx
  | rscTx
  | stale
  | other (type : Nat)
  deriving DecidableEq, Repr

/-- An element of an event ring. -/
structure RingEvent where
  ptr : Nat
  dword0 : Nat
  type : PktType
  chid : Nat
  deriving DecidableEq, Repr

namespace RingEvent

/-- The element after `MHI_TRE_EV_DWORD1` with `MHI_PKT_TYPE_STALE_EVENT` was stored in it. -/
def stale (e : RingEvent) : RingEvent := { e with type := .stale }

/-- What `mhi_mark_stale_events` makes of an element. -/
def mark (chan : Nat) (e : RingEvent) : RingEvent :=
  if e.type = .tx ∧ e.chid = chan then e.stale else e

/-- Whether the element is handed to `parse_xfer_event` or `parse_rsc_event`. -/
def isParsed (e : RingEvent) : Bool := e.type = .tx || e.type = .rscTx

end RingEvent

/-- Who calls `mhi_process_data_event_ring`. -/
inductive EvTask where
  /-- `mhi_ev_task` -/
  | tasklet
  /-- `mhi_netdev_poll`, for a ring with `cl_manage` -/
  | napi (budget : Nat)
  deriving DecidableEq, Repr

/-- The argument `event_quota`. -/
def EvTask.quota : EvTask → Nat
  | .tasklet => 2 ^ 32 - 1
  | .napi budget => budget

/-- Where `mhi_process_data_event_ring` is. -/
inductive EvReader where
  | idle
  /-- before `er_ctxt->rp` is read -/
  | fetch (quota count : Nat)
  /-- before the condition of the loop -/
  | test (quota devRp count : Nat)
  /-- behind the event, before `mhi_recycle_ev_ring_element` -/
  | recycle (quota devRp count : Nat)
  /-- behind the loop -/
  | leave (count : Nat)
  deriving DecidableEq, Repr

structure EvRing where
  task : EvTask
  ring : MhiRing
  /-- `er_ctxt->rp` -/
  ctxtRp : Nat
  mem : Nat → RingEvent
  /-- The write pointer, as far as the modem knows it. -/
  known : Nat
  /-- Whether the modem has still to raise the interrupt. -/
  owed : Bool
  /-- Whether the interrupt is raised and not handled yet. -/
  msi : Bool
  /-- The `dev_rp` of `mhi_msi_handlr`, while it runs. -/
  irq : Option Nat
  /-- `TASKLET_STATE_SCHED` or `NAPI_STATE_SCHED` -/
  sched : Bool
  /-- `NAPI_STATE_MISSED` -/
  missed : Bool
  reader : EvReader
  /-- All events that the modem has written. -/
  posted : List RingEvent
  /-- All events that were taken from the ring, as they were then. -/
  handled : List RingEvent

inductive EvRing.Act where
  /-- The modem writes an event. -/
  | post (e : RingEvent)
  /-- The modem gets to know the write pointer, from the doorbell or from the context. -/
  | learn
  | raise
  | irqRead
  | irqTest
  /-- The tasklet or the poll begins; `access` says whether `MHI_EVENT_ACCESS_INVALID` lets it. -/
  | start (access : Bool)
  /-- The next operation of `mhi_process_data_event_ring`. -/
  | read
  | markStale (chan : Nat)
  deriving DecidableEq, Repr

namespace EvRing

/-- `mhi_msi_handlr`, when there is something to do. -/
def schedule (w : EvRing) : EvRing :=
  match w.task with
  | .tasklet => { w with sched := true }
  | .napi _ => if w.sched then { w with missed := true } else { w with sched := true }

/-- `napi_complete` -/
def napiComplete (w : EvRing) : EvRing := { w with sched := w.missed, missed := false }

/-- The end of the tasklet, or of `mhi_netdev_poll` with this `rx_work`. -/
def finish (w : EvRing) (rxWork : Nat) : EvRing :=
  match w.task with
  | .tasklet => { w with reader := .idle }
  | .napi budget =>
    if rxWork < budget then { w.napiComplete with reader := .idle } else { w with reader := .idle }

/-- The beginning of the tasklet or of the poll. -/
def begin (w : EvRing) (access : Bool) : EvRing :=
  let w := match w.task with
    | .tasklet => { w with sched := false }
    | .napi _ => w
  if access then { w with reader := .fetch w.task.quota 0 }
  else match w.task with
    | .tasklet => w
    -- the error is returned, and `mhi_netdev_poll` gives up
    | .napi _ => w.napiComplete

/-- An iteration of the loop in `mhi_mark_stale_events`: the element and the pointer. -/
def markOne (ring : MhiRing) (chan : Nat) (mem : Nat → RingEvent) (localRp : Nat) :
    (Nat → RingEvent) × Nat :=
  let place := ring.place localRp
  let localRp := localRp + ring.elSize
  (Function.update mem place ((mem place).mark chan),
    if localRp = ring.base + ring.len then ring.base else localRp)

/-- The loop in `mhi_mark_stale_events`, for as many elements as a ring has at most. -/
def markLoop (ring : MhiRing) (chan devRp : Nat) :
    Nat → (Nat → RingEvent) × Nat → (Nat → RingEvent)
  | 0, s => s.1
  | fuel + 1, s =>
    if devRp = s.2 then s.1 else markLoop ring chan devRp fuel (markOne ring chan s.1 s.2)

/-- `mhi_mark_stale_events` -/
def mhiMarkStaleEvents (w : EvRing) (chan : Nat) : EvRing :=
  { w with
    mem := markLoop w.ring chan (w.ring.mhiToVirtual w.ctxtRp) w.ring.elements (w.mem, w.ring.rp) }

/-- The modem writes an event and moves its pointer. -/
def modemPost (w : EvRing) (e : RingEvent) : EvRing :=
  let rp := w.ctxtRp + w.ring.elSize
  { w with
    mem := Function.update w.mem (w.ring.place (w.ring.mhiToVirtual w.ctxtRp)) e
    ctxtRp := if w.ring.iommuBase + w.ring.len ≤ rp then w.ring.iommuBase else rp
    posted := w.posted ++ [e], owed := true }

/-- One operation of `mhi_process_data_event_ring`. -/
def readOp (w : EvRing) : Option EvRing :=
  match w.reader with
  | .idle => none
  | .fetch quota count =>
    some { w with reader := .test quota (w.ring.mhiToVirtual w.ctxtRp) count }
  | .test quota devRp count =>
    if devRp ≠ w.ring.rp ∧ 0 < quota then
      let e := w.mem (w.ring.place w.ring.rp)
      let quota := if e.isParsed then quota - 1 else quota
      some { w with handled := w.handled ++ [e], reader := .recycle quota devRp count }
    else
      some { w with reader := .leave count }
  | .recycle quota devRp count =>
    let ring := w.ring.mhiRecycleEvRingElement
    some { w with
      ring
      reader :=
        if ring.rp = devRp ∨ quota = 0 then .fetch quota (count + 1)
        else .test quota devRp (count + 1) }
  | .leave count => some (w.finish count)

/-- One step of one of the parties. -/
def step (w : EvRing) : Act → Option EvRing
  | .post e => if w.ctxtRp ≠ w.known then some (w.modemPost e) else none
  | .learn => some { w with known := w.ring.ctxtWp }
  | .raise => if w.owed then some { w with owed := false, msi := true } else none
  | .irqRead =>
    if w.msi ∧ w.irq = none then
      some { w with msi := false, irq := some (w.ring.mhiToVirtual w.ctxtRp) }
    else none
  | .irqTest =>
    match w.irq with
    | some devRp =>
      let w := { w with irq := none }
      some (if w.ring.rp = devRp then w else w.schedule)
    | none => none
  | .start access => if w.sched ∧ w.reader = .idle then some (w.begin access) else none
  | .read => w.readOp
  | .markStale chan => if w.reader = .idle then some (w.mhiMarkStaleEvents chan) else none

/-- The place and the size of the ring, and who reads it. -/
structure Setup where
  task : EvTask
  quota_pos : 0 < task.quota
  iommuBase : Nat
  base : Nat
  elSize : Nat
  elements : Nat
  elSize_pos : 0 < elSize
  elements_pos : 0 < elements
  base_lt : base + elSize * elements < 2 ^ 64
  iommu_lt : iommuBase + elSize * elements < 2 ^ 64

/-- A ring to which `mhi_pm_mission_mode_transition` or `mhi_ready_state_transition` has added its
elements. -/
def init (s : Setup) (mem : Nat → RingEvent) : EvRing where
  task := s.task
  ring :=
    { iommuBase := s.iommuBase
      ctxtWp := s.iommuBase + s.elSize * s.elements - s.elSize
      base := s.base
      rp := s.base
      wp := s.base + s.elSize * s.elements - s.elSize
      elSize := s.elSize
      len := s.elSize * s.elements
      elements := s.elements }
  ctxtRp := s.iommuBase
  mem
  -- until the doorbell the modem has nothing
  known := s.iommuBase
  owed := false
  msi := false
  irq := none
  sched := false
  missed := false
  reader := .idle
  posted := []
  handled := []

end EvRing

end OpenwrtFeed.Mhi
