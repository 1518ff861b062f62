import Mathlib.Data.List.Perm.Basic
import Mathlib.Algebra.Ring.Nat
import Mathlib.Data.Int.Basic
import OpenwrtFeed.Lib.Trace
import OpenwrtFeed.Mhi.Frame

/-!
# Uplink aggregation

The transmit side of `qmi_wwan_q.c`, the driver for modems on USB.  `rmnet_vnd_start_xmit` makes a
map header for a packet, and `rmnet_usb_tx_agg` copies header and packet behind those of the packets
before it, into one buffer that is handed to the USB device when it is full, when the last one went
long ago, or when a packet in it is urgent.  What is not handed over then waits for a timer, whose
callback schedules `rmnet_usb_tx_agg_work`.

Four parties take turns: the thread in `rmnet_vnd_start_xmit` (there is one for a device at a time,
the network stack sees to that), the timer, the worker, and `qma_setting_store`, which turns the
aggregation on.  What `agg_lock` protects is one step; everything between two critical sections is
steps of its own, also the two stores of `qma_setting_store`, since `netif_tx_lock_bh` is called for
another device there.

A buffer is the list of what was put into it.  Three fields of the state are there for the
statements only: `accepted` and `dropped` say what became of the packets, and `sent` is what
`dev_queue_xmit` was called with.
-/

set_option autoImplicit false

namespace OpenwrtFeed.Usb

open Mhi

/-! ## Headers -/

/-- How many bytes of padding `add_qhdr_v5` adds.  The `add_qhdr` of this driver counts the link
layer header in as well, so it pads as `Mhi.padding` does. -/
def paddingFrom (skb : SkBuff) (ipOffset : Nat) : Nat :=
  let pad := (skb.len - ipOffset) % 4
  if pad = 0 then 0 else if skb.tail.length < 4 - pad then 0 else 4 - pad

/-- `add_qhdr` with a `hdr_data`: the packet with its padding, and the header. -/
def addQhdr (skb : SkBuff) (muxId : UInt8) (ipOffset : Nat) : SkBuff × List UInt8 :=
  let pad := padding skb
  let skb := skb.put pad
  (skb, [UInt8.ofNat pad, muxId] ++ be16 (skb.len - ipOffset))

/-- `add_qhdr_v5` with a `hdr_data`.  The bit-fields of this driver have the same layout on either
kind of host. -/
def addQhdrV5 (skb : SkBuff) (muxId : UInt8) (ipOffset : Nat) : SkBuff × List UInt8 :=
  let pad := paddingFrom skb ipOffset
  let skb := skb.put pad
  (skb, [RmnetMapHeader.flags .little pad true false, muxId] ++ be16 (skb.len - ipOffset) ++
    [RmnetMapV5CsumHeader.flags .little false RmnetMapV5CsumHeader.csumOffload, 0, 0, 0])

/-- The arguments of `rmnet_usb_tx_agg`. -/
structure Call where
  skb : SkBuff
  /-- `skb->protocol`, in host order -/
  protocol : Nat
  hdrData : List UInt8
  ipOffset : Nat
  /-- The packet, without the link layer header and the padding. -/
  packet : List UInt8
  deriving DecidableEq, Repr

/-- What is put into a buffer for one packet. -/
structure Put where
  packet : List UInt8
  bytes : List UInt8
  deriving DecidableEq, Repr

/-- The header and the rest of the packet, as the two calls of `memcpy` copy them. -/
def Call.put (c : Call) : Put := ⟨c.packet, c.hdrData ++ c.skb.data.drop c.ipOffset⟩

/-- A device `wwan0_N`, as far as the transmit side looks at it. -/
structure QmapNet where
  muxId : UInt8
  qmapVersion : Nat
  /-- Whether its type is `ARPHRD_ETHER`; it is `ARPHRD_RAWIP` unless bridged. -/
  ether : Bool := false
  bridgeMode : Bool := false
  deriving DecidableEq, Repr

/-- `bridge_mode_tx_fixup`: the new `bridge_mac`, and whether the packet may pass.  The answer to an
ARP request goes back into the network stack. -/
def bridgeModeTxFixup (skb : SkBuff) (bridgeMac : List UInt8) : List UInt8 × Bool :=
  let proto := ntohs (skb.byte 12) (skb.byte 13)
  if proto = 0x0806 then (bridgeMac, false)
  else
    let dhcp := proto = 0x0800 ∧ skb.byte 23 = 17 ∧ skb.slice 26 4 = [0, 0, 0, 0] ∧
      skb.slice 30 4 = [0xff, 0xff, 0xff, 0xff]
    let bridgeMac := if dhcp then skb.slice 6 6 else bridgeMac
    (bridgeMac, skb.slice 6 6 = bridgeMac)

/-- The branches of `rmnet_vnd_start_xmit` on the version. -/
def QmapNet.addHeaders (dev : QmapNet) (skb : SkBuff) (protocol : Nat) : Option Call :=
  let ipOffset := if dev.ether then 14 else 0
  let packet := skb.data.drop ipOffset
  if dev.qmapVersion = 5 then
    let (skb, hdrData) := addQhdr skb dev.muxId ipOffset
    some { skb, protocol, hdrData, ipOffset, packet }
  else if dev.qmapVersion = 9 then
    let (skb, hdrData) := addQhdrV5 skb dev.muxId ipOffset
    some { skb, protocol, hdrData, ipOffset, packet }
  else
    none

/-- `rmnet_usb_tx_agg_skip`: whether a packet is urgent.  The offset is that of a packet behind its
headers, but the headers of this `skb` are not in front of it. -/
def rmnetUsbTxAggSkip (skb : SkBuff) (protocol offset : Nat) : Bool :=
  let psh (th : Nat) := (skb.byte (th + 13)).toNat.testBit 3
  if protocol = 0x0800 then
    if skb.byte (offset + 9) = 6 then psh (offset + 20) else skb.byte (offset + 9) = 1
  else if protocol = 0x86dd then
    if skb.byte (offset + 6) = 6 then psh (offset + 40)
    else skb.byte (offset + 6) = 58 ||
      skb.byte (offset + 6) = 44 && skb.byte (offset + 40) = 58
  else
    false

/-- The offset that `rmnet_usb_tx_agg` computes from the header. -/
def Call.offset (c : Call) : Nat :=
  RmnetMapHeader.size +
    if RmnetMapHeader.nextHdr .little (c.hdrData.getD 0 0) then RmnetMapV5CsumHeader.size else 0

/-! ## The state -/

/-- `struct timespec64` -/
structure Timespec where
  tvSec : Int
  tvNsec : Int
  deriving DecidableEq, Repr

/-- `timespec64_sub`, of which the result is normalised. -/
def timespec64Sub (lhs rhs : Timespec) : Timespec :=
  let nsec := lhs.tvNsec - rhs.tvNsec
  ⟨lhs.tvSec - rhs.tvSec + nsec / 1000000000, nsec % 1000000000⟩

/-- The comparison of a difference with one of the two limits. -/
def Timespec.above (diff : Timespec) (limit : Int) : Bool := 0 < diff.tvSec || limit < diff.tvNsec

/-- A buffer: the size it was allocated with, and what was put into it. -/
structure AggSkb where
  size : Nat
  puts : List Put
  deriving DecidableEq, Repr

namespace AggSkb

/-- The bytes in the buffer. -/
def data (b : AggSkb) : List UInt8 := b.puts.flatMap Put.bytes

/-- `agg_skb->len` -/
def len (b : AggSkb) : Nat := b.data.length

/-- The two calls of `skb_put` for a packet, and what is copied there. -/
def put (b : AggSkb) (p : Put) : AggSkb := { b with puts := b.puts ++ [p] }

end AggSkb

/-- `struct tx_agg_ctx`, as far as the transmit side looks at it -/
structure TxAggCtx where
  ulDataAggregationMaxDatagrams : Nat
  ulDataAggregationMaxSize : Nat
  deriving DecidableEq, Repr

/-- Where the thread in `rmnet_usb_tx_agg` is. -/
inductive Xmit where
  | idle
  /-- before the test of `ul_data_aggregation_max_datagrams` -/
  | call (c : Call)
  /-- before `dev_queue_xmit` of a packet that is not aggregated at all -/
  | direct (b : AggSkb)
  /-- at the label `new_packet` -/
  | newPacket (c : Call)
  /-- behind the lock, with a buffer and perhaps the packet that did not fit into it -/
  | send (b : AggSkb) (skb : Option Call)
  /-- before the test of `priv->agg_skb` at the end -/
  | look
  /-- before the test of the timer -/
  | ask
  deriving DecidableEq, Repr

/-- Where `rmnet_usb_tx_agg_work` is. -/
inductive Worker where
  | idle
  | started
  /-- behind the lock, with a buffer -/
  | send (b : AggSkb)
  deriving DecidableEq, Repr

structure Uplink where
  dev : QmapNet
  bridgeMac : List UInt8
  txCtx : TxAggCtx
  aggTimeLimit : Int
  aggBypassTime : Int
  aggSkb : Option AggSkb
  aggCount : Nat
  aggTime : Timespec
  /-- `hrtimer_is_queued` -/
  timer : Bool
  /-- Whether the timer has expired and its callback has not come to `schedule_work`. -/
  callback : Bool
  /-- Whether the work is pending. -/
  pending : Bool
  work : Worker
  xmit : Xmit
  /-- The size that `qma_setting_store` has still to store. -/
  setting : Option Nat
  accepted : List Put
  dropped : List Put
  sent : List AggSkb
  deriving DecidableEq, Repr

inductive Act where
  /-- A call of `rmnet_vnd_start_xmit`; `stopped` says whether the queue of the USB device is. -/
  | startXmit (skb : SkBuff) (protocol : Nat) (stopped : Bool)
  | enter (alloc : Bool)
  | pass (now : Timespec) (xmitMore alloc alloc' : Bool)
  | xmitSend
  | look
  | ask
  | timerExpires
  | timerCb
  | workStart
  | workTake (now : Timespec)
  | workSend
  | settingStore (maxDatagrams maxSize : Nat)
  | settingSize
  /-- The two parameters of the module are written. -/
  | param (aggTimeLimit aggBypassTime : Int)
  deriving DecidableEq, Repr

namespace Uplink

/-- A device after `qmap_register_device`. -/
def start (dev : QmapNet) (bridgeMac : List UInt8) (now : Timespec) : Uplink where
  dev
  bridgeMac
  txCtx := ⟨1, 1500⟩
  aggTimeLimit := 1000000
  aggBypassTime := 10000000
  aggSkb := none
  aggCount := 0
  aggTime := now
  timer := false
  callback := false
  pending := false
  work := .idle
  xmit := .idle
  setting := none
  accepted := []
  dropped := []
  sent := []

/-- `rmnet_vnd_start_xmit` until it calls `rmnet_usb_tx_agg`. -/
def rmnetVndStartXmit (w : Uplink) (skb : SkBuff) (protocol : Nat) (stopped : Bool) : Uplink :=
  if stopped then w
  else
    let (bridgeMac, passes) :=
      if w.dev.ether && w.dev.bridgeMode then bridgeModeTxFixup skb w.bridgeMac
      else (w.bridgeMac, true)
    let w := { w with bridgeMac }
    if !passes then w
    else match w.dev.addHeaders skb protocol with
      | none => w
      | some c => { w with xmit := .call c, accepted := w.accepted ++ [c.put] }

/-- The buffer for a packet that goes alone. -/
def alone (c : Call) : AggSkb := ⟨c.skb.len + c.hdrData.length, [c.put]⟩

/-- `rmnet_usb_tx_agg` until the label `new_packet`. -/
def enter (w : Uplink) (c : Call) (alloc : Bool) : Uplink :=
  if w.txCtx.ulDataAggregationMaxDatagrams = 1 then
    if alloc then { w with xmit := .direct (alone c) }
    else { w with xmit := .idle, dropped := w.dropped ++ [c.put] }
  else
    { w with xmit := .newPacket c }

/-- The critical section of `rmnet_usb_tx_agg`.  The two allocations are that of a buffer to
aggregate in and that of a buffer for this packet alone. -/
def pass (w : Uplink) (c : Call) (now : Timespec) (xmitMore alloc alloc' : Bool) : Uplink :=
  let diff := timespec64Sub now w.aggTime
  let skip := !xmitMore && rmnetUsbTxAggSkip c.skb c.protocol c.offset
  match w.aggSkb with
  | some b =>
    if b.len + c.skb.len + c.hdrData.length < w.txCtx.ulDataAggregationMaxSize then
      let b := b.put c.put
      let count := w.aggCount + 1
      if diff.above w.aggTimeLimit || count = w.txCtx.ulDataAggregationMaxDatagrams || skip then
        { w with aggSkb := none, aggCount := 0, aggTime := now, xmit := .send b none }
      else
        { w with aggSkb := some b, aggCount := count, xmit := .look }
    else
      { w with aggSkb := none, aggCount := 0, aggTime := now, xmit := .send b (some c) }
  | none =>
    if !(diff.above w.aggBypassTime || skip) && alloc then
      { w with
        aggSkb := some ⟨w.txCtx.ulDataAggregationMaxSize, [c.put]⟩, aggCount := w.aggCount + 1
        xmit := .look }
    else if alloc' then
      { w with aggTime := now, xmit := .send (alone c) none }
    else
      { w with aggTime := now, dropped := w.dropped ++ [c.put], xmit := .look }

/-- The critical section of `rmnet_usb_tx_agg_work`. -/
def workTake (w : Uplink) (now : Timespec) : Uplink :=
  match w.aggSkb with
  | some b => { w with aggSkb := none, aggCount := 0, aggTime := now, work := .send b }
  | none => { w with work := .idle }

/-- `qma_setting_store` until it has stored the number of datagrams. -/
def qmaSettingStore (w : Uplink) (maxDatagrams maxSize : Nat) : Uplink :=
  if w.txCtx.ulDataAggregationMaxDatagrams = 1 ∧ 1 < maxDatagrams then
    { w with
      txCtx := { w.txCtx with ulDataAggregationMaxDatagrams := maxDatagrams }
      setting := some maxSize }
  else
    w

/-- One step of one of the parties. -/
def step (w : Uplink) : Act → Option Uplink
  | .startXmit skb protocol stopped =>
    if w.xmit = .idle then some (w.rmnetVndStartXmit skb protocol stopped) else none
  | .enter alloc =>
    match w.xmit with
    | .call c => some (w.enter c alloc)
    | _ => none
  | .pass now xmitMore alloc alloc' =>
    match w.xmit with
    | .newPacket c => some (w.pass c now xmitMore alloc alloc')
    | _ => none
  | .xmitSend =>
    match w.xmit with
    | .direct b => some { w with xmit := .idle, sent := w.sent ++ [b] }
    | .send b (some c) => some { w with xmit := .newPacket c, sent := w.sent ++ [b] }
    | .send b none => some { w with xmit := .look, sent := w.sent ++ [b] }
    | _ => none
  | .look =>
    if w.xmit = .look then some { w with xmit := if w.aggSkb.isSome then .ask else .idle } else none
  | .ask => if w.xmit = .ask then some { w with xmit := .idle, timer := true } else none
  | .timerExpires =>
    if w.timer ∧ !w.callback then some { w with timer := false, callback := true } else none
  | .timerCb => if w.callback then some { w with callback := false, pending := true } else none
  | .workStart =>
    if w.pending ∧ w.work = .idle then some { w with pending := false, work := .started } else none
  | .workTake now => if w.work = .started then some (w.workTake now) else none
  | .workSend =>
    match w.work with
    | .send b => some { w with work := .idle, sent := w.sent ++ [b] }
    | _ => none
  | .settingStore maxDatagrams maxSize =>
    if w.setting = none then some (w.qmaSettingStore maxDatagrams maxSize) else none
  | .settingSize =>
    match w.setting with
    | some size =>
      some { w with txCtx := { w.txCtx with ulDataAggregationMaxSize := size }, setting := none }
    | none => none
  | .param aggTimeLimit aggBypassTime => some { w with aggTimeLimit, aggBypassTime }

end Uplink

end OpenwrtFeed.Usb
