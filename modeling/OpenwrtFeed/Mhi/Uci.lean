import Mathlib.Data.List.Basic
import Mathlib.Logic.Function.Basic
import OpenwrtFeed.Lib.Circular
import OpenwrtFeed.Lib.Trace

/-!
# The character devices

`mhi_uci.c` makes a file of a channel that transfers bytes, as for AT commands, QMI or the
diagnosis.  This is its inbound side.  The device has one buffer more than the channel has
descriptors.  `mhi_queue_inbound` gives all but one of them to the modem, `mhi_dl_xfer_cb` puts a
buffer that has come back into the list of those to be read, and `mhi_uci_read` copies them to the
user piece by piece.

There are two ways for a buffer to get back to the modem.

* For the channels of DUN, QMI and MBIM `mhi_dl_xfer_cb` copies what it has got, and queues as many
  buffers as there is room for, from the index `wp_trb` on.
* For all others `mhi_uci_read` queues a buffer when it has finished one: not the same, but the one
  before it, since that is the one that is next in the order of the array.

`mhi_dl_xfer_cb` counts through the same array, and if the modem returns another buffer than the one
it has come to, it sets `rx_error`, and from then on neither reading nor writing does anything.

The callback, which is called in the tasklet of the event ring, runs at the same time as a reader. 
There is one reader at a time, because of `r_mutex`, and it does three things one after another: it
takes a buffer, under the lock; it copies from it, without the lock; and it queues the next one,
under the lock again.  The modem may write to any buffer that it has, at any time.

A channel returns its buffers in the order in which they were queued, so it is a queue here.
-/

set_option autoImplicit false

namespace OpenwrtFeed.Mhi

/-- `struct uci_buf` -/
inductive UciBuf where
  /-- An element of the array `uci_dev->uci_buf`, in whose page the data are. -/
  | page (nrTrb len : Nat)
  /-- A copy of the data, with `page = NULL`. -/
  | copy (data : Nat → UInt8) (len : Nat)

def UciBuf.len : UciBuf → Nat
  | .page _ len => len
  | .copy _ len => len

/-- Where `mhi_uci_read` is. -/
inductive UciReader where
  | idle
  /-- before `copy_to_user` -/
  | copy (count : Nat)
  /-- behind it, with nothing left in the buffer -/
  | recycle
  deriving DecidableEq, Repr

structure UciDev where
  mtu : Nat
  /-- Whether `dl_chan_id` is `MHI_CLIENT_DUN_IN`, `MHI_CLIENT_QMI_IN` or `MHI_CLIENT_MBIM_IN`. -/
  copies : Bool
  /-- How many descriptors the channel has. -/
  descriptors : Nat
  /-- The memory of the elements of `uci_buf`. -/
  pages : Nat → Nat → UInt8
  nrTrbs : Nat
  rpTrb : Nat
  wpTrb : Nat
  /-- The buffers that the modem has, each by its index in `uci_buf`. -/
  ring : List Nat
  pending : List UciBuf
  curBuf : Option UciBuf
  rxSize : Nat
  rxError : Nat
  enabled : Bool
  refCount : Nat
  /-- While `queue_inbound` is set, how often the loop of `mhi_queue_inbound` has still to run. -/
  queueInbound : Option Nat
  reader : UciReader
  /-- How many buffers were ever queued. -/
  queued : Nat
  /-- What the modem has sent, buffer by buffer. -/
  got : List (List UInt8)
  /-- How many buffers the reader has finished. -/
  finished : Nat
  /-- What was copied to the user. -/
  delivered : List UInt8

inductive UciDev.Act where
  /-- The modem writes to one of its buffers. -/
  | scribble (nrTrb : Nat) (data : Nat → UInt8)
  /-- The callback for the next buffer.  `alloc` says whether `kmalloc` succeeds, and `accepted` how
  many buffers `mhi_queue_transfer` accepts in the loop. -/
  | complete (bytesXferd : Nat) (notConn alloc : Bool) (accepted : Nat)
  /-- An iteration of `mhi_queue_inbound`. -/
  | queue
  /-- `mhi_uci_open` returns to the first client. -/
  | opened
  /-- `mhi_uci_open` for another client -/
  | attach
  /-- `mhi_uci_release` for any but the last one -/
  | detach
  /-- `mhi_uci_read`, up to the copying -/
  | take (count : Nat)
  /-- `copy_to_user`, which could not copy `left` of the bytes.  That is then what `mhi_uci_read`
  returns. -/
  | copyToUser (left : Nat)
  /-- The rest of `mhi_uci_read`, if the buffer is finished. -/
  | recycle (accepted : Bool)
  /-- `mhi_uci_remove` -/
  | disable

namespace UciDev

/-- A piece of what is in a buffer. -/
def bytes (w : UciDev) (b : UciBuf) (start len : Nat) : List UInt8 :=
  match b with
  | .page nrTrb _ => (List.range len).map fun k ↦ w.pages nrTrb (start + k)
  | .copy data _ => (List.range len).map fun k ↦ data (start + k)

/-- `mhi_get_no_free_descriptors` -/
def mhiGetNoFreeDescriptors (w : UciDev) : Nat := w.descriptors - w.ring.length

/-- `mhi_queue_transfer`, if it succeeds -/
def mhiQueueTransfer (w : UciDev) (nrTrb : Nat) : UciDev :=
  { w with ring := w.ring ++ [nrTrb], queued := w.queued + 1 }

/-- How `rp_trb` and `wp_trb` move. -/
def advance (nrTrbs i : Nat) : Nat := if i + 1 = nrTrbs then 0 else i + 1

/-- An iteration of the loops in `mhi_queue_inbound` and in `mhi_dl_xfer_cb`. -/
def queueNext (w : UciDev) : UciDev :=
  { w.mhiQueueTransfer w.wpTrb with wpTrb := advance w.nrTrbs w.wpTrb }

/-- The loop in `mhi_dl_xfer_cb`. -/
def refill (w : UciDev) : Nat → UciDev
  | 0 => w
  | n + 1 => w.queueNext.refill n

/-- The part of `mhi_dl_xfer_cb` that holds the lock. -/
def putPending (w : UciDev) (rpTrb bytesXferd : Nat) (alloc : Bool) (accepted : Nat) : UciDev :=
  if w.copies then
    let skipBuf : Bool := w.refCount = 1 ∧ w.queueInbound = none
    let buf : List UciBuf := if !skipBuf && alloc then [.copy (w.pages rpTrb) bytesXferd] else []
    let w := if w.queueInbound = none then w.refill (min accepted w.mhiGetNoFreeDescriptors) else w
    { w with pending := w.pending ++ buf }
  else
    { w with pending := w.pending ++ [.page rpTrb bytesXferd] }

/-- `mhi_dl_xfer_cb` -/
def mhiDlXferCb (w : UciDev) (bufAddr bytesXferd : Nat) (notConn alloc : Bool) (accepted : Nat) :
    UciDev :=
  let rpTrb := w.rpTrb
  if bufAddr ≠ rpTrb then { w with rxError := w.rxError + 1 }
  else
    let w := { w with rpTrb := advance w.nrTrbs rpTrb }
    if notConn then w
    else if w.mtu < bytesXferd ∨ bytesXferd = 0 then w
    else w.putPending rpTrb bytesXferd alloc accepted

/-- `mhi_uci_read`, up to the copying.  If there is nothing to be read, it waits. -/
def readTake (w : UciDev) (count : Nat) : Option UciDev :=
  match w.curBuf, w.pending with
  | some _, _ => some { w with reader := .copy count }
  | none, [] => none
  | none, b :: pending =>
    some { w with curBuf := some b, rxSize := b.len, pending, reader := .copy count }

/-- `copy_to_user` in `mhi_uci_read`, and what follows.  If it has copied a part only, `rx_size`
stays as it is. -/
def readCopy (w : UciDev) (b : UciBuf) (count left : Nat) : UciDev :=
  let toCopy := min count w.rxSize
  let w := { w with
    delivered := w.delivered ++ w.bytes b (b.len - w.rxSize) (toCopy - left) }
  if left ≠ 0 then { w with reader := .idle }
  else
    { w with
      rxSize := w.rxSize - toCopy
      reader := if w.rxSize - toCopy = 0 then .recycle else .idle }

/-- The end of `mhi_uci_read`, with a buffer that is finished. -/
def readRecycle (w : UciDev) (b : UciBuf) (accepted : Bool) : UciDev :=
  let w := { w with curBuf := none, reader := .idle, finished := w.finished + 1 }
  match b with
  | .page nrTrb _ =>
    if w.enabled && accepted then
      w.mhiQueueTransfer (if nrTrb = 0 then w.nrTrbs - 1 else nrTrb - 1)
    else w
  | .copy .. => w

/-- One step of one of the parties. -/
def step (w : UciDev) : Act → Option UciDev
  | .scribble nrTrb data =>
    if nrTrb ∈ w.ring then some { w with pages := Function.update w.pages nrTrb data } else none
  | .complete bytesXferd notConn alloc accepted =>
    match w.ring with
    | [] => none
    | nrTrb :: ring =>
      let got := w.got ++ [w.bytes (.page nrTrb bytesXferd) 0 bytesXferd]
      some ({ w with ring, got }.mhiDlXferCb nrTrb bytesXferd notConn alloc accepted)
  | .queue =>
    match w.queueInbound with
    | some (i + 1) => some { w.queueNext with queueInbound := some i }
    | _ => none
  | .opened =>
    if w.queueInbound = some 0 then
      -- `QUEC_MHI_UCI_ALWAYS_OPEN`
      some { w with queueInbound := none, refCount := w.refCount + 1 }
    else none
  | .attach =>
    if w.queueInbound = none ∧ w.enabled then some { w with refCount := w.refCount + 1 } else none
  | .detach =>
    if w.queueInbound = none ∧ 1 < w.refCount then some { w with refCount := w.refCount - 1 }
    else none
  | .take count =>
    if w.queueInbound = none ∧ w.reader = .idle ∧ w.rxError = 0 ∧ w.enabled then w.readTake count
    else none
  | .copyToUser left =>
    match w.reader, w.curBuf with
    | .copy count, some b =>
      if left ≤ min count w.rxSize then some (w.readCopy b count left) else none
    | _, _ => none
  | .recycle accepted =>
    match w.reader, w.curBuf with
    | .recycle, some b => some (w.readRecycle b accepted)
    | _, _ => none
  | .disable => some { w with enabled := false }

/-- A channel that `mhi_uci_open` has prepared, with the memory for its buffers. -/
structure Setup where
  mtu : Nat
  copies : Bool
  descriptors : Nat
  descriptors_pos : 0 < descriptors

def init (s : Setup) (pages : Nat → Nat → UInt8) : UciDev where
  mtu := s.mtu
  copies := s.copies
  descriptors := s.descriptors
  pages
  nrTrbs := s.descriptors + 1
  rpTrb := 0
  wpTrb := 0
  ring := []
  pending := []
  curBuf := none
  rxSize := 0
  rxError := 0
  enabled := true
  refCount := 1
  queueInbound := some s.descriptors
  reader := .idle
  queued := 0
  got := []
  finished := 0
  delivered := []

end UciDev

end OpenwrtFeed.Mhi
