import OpenwrtFeed.Mhi.Receive
import Mathlib.Data.List.Range

/-!
# The MBIM receive handler

With a modem in MBIM mode a transfer is an NTB: a header (NTH16) that says where the first NDP16 is,
and NDPs anywhere in the block, each with the table of its datagrams and the offset of the next NDP.
`rmnet_mbim_rx_handler` of `mhi_netdev_quectel.c` follows this chain of offsets and copies each
datagram into a buffer of its own for the child that the signature of its NDP names.  `add_mbim_hdr`
is the other direction; it makes a block of one datagram.

The offsets, lengths and sessions all come from the wire, and several of them are compared with
something else than what they are used for.  So the state of the model also carries what the handler
touches on its way: which bytes of the block it has read, which slots of the table of children it
has looked at and which of the pointers found there it has followed, and which buffers it was given.
Nothing depends on these records; they are there to be talked about.

Following a `NULL` pointer is the end of everything, not of the loop: the handler does not come to
its `error` label then, and `oops` says so.
-/

set_option autoImplicit false

namespace OpenwrtFeed.Mhi

/-! ## Fields of the block -/

/-- The 16-bit value of two bytes in little-endian order. -/
def SkBuff.le16 (skb : SkBuff) (i : Nat) : Nat :=
  (skb.byte i).toNat + 256 * (skb.byte (i + 1)).toNat

/-- A 16-bit field of the block that is read as it is, without `le16_to_cpu`. -/
def SkBuff.raw16 (host : Host) (skb : SkBuff) (i : Nat) : Nat :=
  match host with
  | .little => skb.le16 i
  | .big => ntohs (skb.byte i) (skb.byte (i + 1))

/-- `sizeof(struct usb_cdc_ncm_nth16)`. -/
def nth16Size : Nat := 12

/-- `sizeof(struct usb_cdc_ncm_ndp16)`. -/
def ndp16Size : Nat := 8

/-- `sizeof(struct usb_cdc_ncm_dpe16)`. -/
def dpe16Size : Nat := 4

/-- The bytes of `USB_CDC_NCM_NTH16_SIGN`. -/
def nth16Sign : List UInt8 := [0x4e, 0x43, 0x4d, 0x48]

/-- The first three bytes of `USB_CDC_MBIM_NDP16_IPS_SIGN`; the fourth is the session. -/
def ipsSign : List UInt8 := [0x49, 0x50, 0x53]

/-- The same of `USB_CDC_MBIM_NDP16_DSS_SIGN`. -/
def dssSign : List UInt8 := [0x44, 0x53, 0x53]

/-- `mbim_ctx.rx_max`, which is also `mhi_netdev->mru` of an MBIM device. -/
def rxMax : Nat := 1024 * 32

/-! ## The device -/

/-- A child interface, as far as the handler looks at it. -/
structure MbimChild where
  /-- Whether its type is `ARPHRD_ETHER`; it is `ARPHRD_RAWIP` on the NSS path. -/
  ether : Bool := true
  devAddr : List UInt8 := List.replicate 6 0
  bridgeMode : Bool := false
  bridgeMac : List UInt8 := List.replicate 6 0
  deriving DecidableEq, Repr

/-- The Ethernet header put in front of a datagram, with `bridge_mode_rx_fixup` applied to it. -/
def MbimChild.macHeader (c : MbimChild) (protocol : Protocol) : Option (List UInt8) :=
  if c.ether then
    some ((if c.bridgeMode then c.bridgeMac else c.devAddr) ++ defaultModemAddr ++ protocol.bytes)
  else none

/-- What the handler reads or writes of a `struct mhi_netdev`, and the module parameter
`qmap_mode`. -/
structure MbimNetdev where
  qmapMode : Nat
  mbimMuxId : Nat
  /-- The array has eight slots, and a slot without a child holds `NULL`.  At an index behind them a
  read finds whatever the memory holds. -/
  mpQmapNetDev : Nat → Option MbimChild
  /-- The field `mbim_ctx.rx_seq`. -/
  rxSeq : UInt16 := 0
  /-- The counter `stats.alloc_failed`. -/
  allocFailed : UInt32 := 0

/-- The variables of the handler, and what it has touched. -/
structure MbimState where
  dev : MbimNetdev
  ndpoffset : Nat := 0
  /-- The packets copied so far, `skb_chain`. -/
  chain : List Buffer := []
  /-- How many buffers were asked for. -/
  allocs : Nat := 0
  /-- A `NULL` pointer was followed. -/
  oops : Bool := false
  /-- The requests for a buffer that succeeded. -/
  granted : List Nat := []
  /-- The offsets into the block that were read. -/
  reads : List Nat := []
  /-- The indices into `mpQmapNetDev` that were used. -/
  slots : List Nat := []
  /-- The slots whose pointer was followed. -/
  followed : List Nat := []

/-- The bytes from `off` on are read. -/
def MbimState.read (s : MbimState) (off n : Nat) : MbimState :=
  { s with reads := s.reads ++ (List.range n).map (off + ·) }

/-! ## The loops -/

/-- The session that the signature of an NDP names: `tci`. -/
def ndpTci (skb : SkBuff) (off : Nat) : Option Nat :=
  if skb.slice off 3 = ipsSign then some (skb.byte (off + 3)).toNat
  else if skb.slice off 3 = dssSign then some ((skb.byte (off + 3)).toNat + 256)
  else none

/-- What the handler finds at an offset that it takes for the one of an NDP. -/
inductive Ndp where
  /-- It is not in the block. -/
  | outside
  /-- Its length is too small, or the block is too short for so many entries. -/
  | length
  /-- Its signature is not known. -/
  | signature
  /-- Its session is none of this device. -/
  | session
  /-- It has a table of `nframes` entries, for the child in the slot. -/
  | table (slot nframes : Nat)
  deriving DecidableEq, Repr

/-- The checks of the outer loop, in their order. -/
def ndp (dev : MbimNetdev) (skb : SkBuff) (off : Nat) : Ndp :=
  let wLength := skb.le16 (off + 4)
  let nframes := (wLength - ndp16Size) / dpe16Size
  if skb.len < off + ndp16Size then .outside
  else if wLength < 0x10 then .length
  else if skb.len < ndp16Size + nframes * dpe16Size then .length
  else match ndpTci skb off with
    | none => .signature
    | some tci =>
      -- the subtractions are of unsigned values
      if (dev.qmapMode = 1 ∧ tci ≠ dev.mbimMuxId) ∨
          (1 < dev.qmapMode ∧ dev.qmapMode < toU32 (tci - dev.mbimMuxId)) then .session
      else .table (if dev.qmapMode = 1 then 0 else toU32 (tci - 1 - dev.mbimMuxId)) nframes

/-- The loop over the table of an NDP, from an entry on that is at `p`.  `.stop` is the jump to
`error`. -/
def mbimDatagrams (alloc : Nat → Bool) (skb : SkBuff) (slot : Nat) :
    Nat → Nat → MbimState → Loop.Exit MbimState
  | 0, _, s => .next s
  | nframes + 1, p, s =>
    let offset := skb.le16 p
    let skbLen := skb.le16 (p + 2)
    let s := s.read p dpe16Size
    if offset = 0 ∨ skbLen = 0 then .next s
    else if skb.len < offset + skbLen ∨ rxMax < skbLen then .stop s
    else if alloc s.allocs then
      let buffer := s.allocs
      let s := { s.read offset 1 with allocs := s.allocs + 1, granted := s.granted ++ [buffer] }
      match protocolOf (skb.byte offset) with
      | none => .stop s
      | some protocol =>
        let s := { s.read offset skbLen with followed := s.followed ++ [slot] }
        match s.dev.mpQmapNetDev slot with
        | none => .stop { s with oops := true }
        | some c =>
          mbimDatagrams alloc skb slot nframes (p + dpe16Size) { s with
            chain := s.chain ++
              [⟨buffer, ⟨slot, protocol, skb.slice offset skbLen, c.macHeader protocol⟩⟩] }
    else
      .stop { s with
        allocs := s.allocs + 1
        dev := { s.dev with allocFailed := s.dev.allocFailed + 1 } }

/-- The length and the signature of an NDP were read, and the child of its session was looked up. -/
def MbimState.lookUp (s : MbimState) (slot : Nat) : MbimState :=
  { (s.read (s.ndpoffset + 4) 2).read s.ndpoffset 4 with slots := s.slots ++ [slot] }

/-- One iteration of the loop over the NDPs. -/
def mbimBody (alloc : Nat → Bool) (skb : SkBuff) (s : MbimState) : Loop.Exit MbimState :=
  let off := s.ndpoffset
  match ndp s.dev skb off with
  | .outside => .stop s
  | .length => .stop (s.read (off + 4) 2)
  | .signature | .session => .stop ((s.read (off + 4) 2).read off 4)
  | .table slot nframes =>
    match mbimDatagrams alloc skb slot nframes (off + ndp16Size) (s.lookUp slot) with
    | .stop s => .stop s
    | .next s => .next { s.read (off + 6) 2 with ndpoffset := skb.le16 (off + 6) }

/-- The condition of that loop. -/
def mbimCond (s : MbimState) : Bool := 0 < s.ndpoffset

/-- What comes before the loop: the header of the block.  The offset of the first NDP is not
converted from the byte order of the block. -/
def mbimHeader (host : Host) (dev : MbimNetdev) (skb : SkBuff) : Loop.Exit MbimState :=
  let s : MbimState := { dev }
  if skb.len < nth16Size + ndp16Size then .stop s
  else
    let s := s.read 0 4
    if skb.slice 0 4 ≠ nth16Sign then .stop s
    else
      let s := s.read 8 2
      if rxMax < skb.le16 8 then .stop s
      else
        let s := (s.read 6 2).read 10 2
        .next { s with
          dev := { dev with rxSeq := UInt16.ofNat (skb.le16 6) + 1 }
          ndpoffset := skb.raw16 host 10 }

/-- `rmnet_mbim_rx_handler`: the state in which it comes to `error`, or follows a `NULL` pointer.
In the first case the packets in `chain` are then passed to `netif_receive_skb`, in order. -/
def rmnetMbimRxHandler (host : Host) (alloc : Nat → Bool) (fuel : Nat) (dev : MbimNetdev)
    (skb : SkBuff) : Option MbimState :=
  match mbimHeader host dev skb with
  | .stop s => some s
  | .next s => Loop.run mbimCond (mbimBody alloc skb) fuel s

/-- What the handler passes to `netif_receive_skb`. -/
def MbimState.delivered (s : MbimState) : List Buffer := if s.oops then [] else s.chain

end OpenwrtFeed.Mhi
