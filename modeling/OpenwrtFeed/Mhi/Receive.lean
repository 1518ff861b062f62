import OpenwrtFeed.Lib.Loop
import OpenwrtFeed.Mhi.Frame
import Mathlib.Logic.Function.Basic
import Mathlib.Data.Int.Basic

/-!
# The QMAP receive handler

`rmnet_qmi_rx_handler` of `mhi_netdev_quectel.c`: the modem sends several frames in one buffer, and
the handler takes them off its front one by one.  A data frame is copied into a buffer of its own
for the child interface its mux id names; a command frame is executed and perhaps acknowledged; and
at the first frame that makes no sense the rest of the aggregate is dropped.  What was copied until
then is handed to the network stack in order, on every way out of the loop.

Lengths are C integers of several kinds.  `skb_len` is an `int` from which an unsigned setting is
subtracted and which is compared with an unsigned MTU, so only its value modulo `2 ^ 32` is ever
looked at (`toU32`), and that is also how a mux id below `0x81` is turned away.

The main result, `rx_delivers_tx`, is that the handler inverts the transmit side: any sequence of
datagrams, each framed for some channel with a live child, comes out again as it was.  The induction
is on the sequence; `rxBody_frame` is one frame of it.
-/

set_option autoImplicit false

namespace OpenwrtFeed.Mhi

/-- An `int` converted to an unsigned value of 32 bits. -/
def toU32 (z : Int) : Nat := (z % 2 ^ 32).toNat

theorem toU32_of_nonneg {n : Nat} (h : n < 2 ^ 32) : toU32 (n : Int) = n := by
  rw [toU32, Int.emod_eq_of_lt (by omega) (by omega)]
  rfl

/-! ## The device -/

/-- `mhi_netdev->mru` of a QMI device. -/
def mru : Nat := 15 * 1024

/-- `mhi_netdev->max_mtu` of a QMI device. -/
def maxMtu : Nat := mru - (RmnetMapV5CsumHeader.size + RmnetMapHeader.size)

/-- A child interface, as far as the receive handler looks at it. -/
structure Child where
  mtu : Nat
  /-- Neither the kernel (`max_mtu`) nor `rmnet_vnd_change_mtu` lets the MTU go beyond this. -/
  mtu_le : mtu ≤ maxMtu
  /-- Whether its type is `ARPHRD_ETHER`; it is `ARPHRD_RAWIP` on the NSS path. -/
  ether : Bool := true
  devAddr : List UInt8 := List.replicate 6 0
  bridgeMode : Bool := false
  bridgeMac : List UInt8 := List.replicate 6 0

/-- The fields of a `struct mhi_netdev` that the receive handler reads or writes. -/
structure MhiNetdev where
  qmapMode : Nat
  qmapVersion : Nat
  dlMinimumPadding : Nat
  /-- The array has eight slots, and a slot without a child holds `NULL`.  Only a `qmap_mode` above
  eight leads behind them, where a read finds whatever the memory holds. -/
  mpQmapNetDev : Nat → Option Child
  flowControl : BitVec 32
  /-- The counters `rmnet_map_command_stats`. -/
  commandStats : Nat → UInt32
  /-- The counter `stats.alloc_failed`. -/
  allocFailed : UInt32

/-- The protocol of a received packet. -/
inductive Protocol where
  | ip
  | ipv6
  deriving DecidableEq, Repr

/-- The two bytes of an Ethernet type. -/
def Protocol.bytes : Protocol → List UInt8
  | .ip => [0x08, 0x00]
  | .ipv6 => [0x86, 0xdd]

/-- A packet handed to the network stack. -/
structure Packet where
  /-- The slot of the child it is received on. -/
  dev : Nat
  protocol : Protocol
  data : List UInt8
  /-- The link layer header in front of the data, of an Ethernet device. -/
  mac : Option (List UInt8)
  deriving DecidableEq, Repr

/-- A packet in the buffer that a request for one has answered. -/
structure Buffer where
  request : Nat
  packet : Packet
  deriving DecidableEq, Repr

/-! ## Commands -/

/-- The values of `command_name` that the driver knows. -/
def flowDisable : Nat := 1

/-- See `flowDisable`. -/
def flowEnable : Nat := 2

/-- The index at which unknown commands are counted. -/
def commandUnknown : Nat := 9

/-- `RMNET_MAP_COMMAND_ENUM_LENGTH`: the number of counters. -/
def commandEnumLength : Nat := 10

/-- What `rmnet_data_map_command` may answer. -/
inductive CommandResult where
  | ack
  | unsupported
  deriving DecidableEq, Repr

/-- The value of `cmd_type` in an acknowledgement, which is all that is ever sent. -/
def CommandResult.type : CommandResult → Nat
  | .ack => 1
  | .unsupported => 2

/-- `sizeof(struct rmnet_map_control_command)`. -/
def controlCommandSize : Nat := 16

/-- A byte with the two bits of `cmd_type` replaced. -/
def setCmdType (host : Host) (type : Nat) (b : UInt8) : UInt8 :=
  match host with
  | .little => UInt8.ofNat (b.toNat / 4 * 4 + type % 4)
  | .big => UInt8.ofNat (type % 4 * 64 + b.toNat % 64)

/-- The bytes that `rmnet_map_send_ack` sends back: header and command as received, but for the
type. -/
def ackBytes (host : Host) (type : Nat) (skb : SkBuff) : List UInt8 :=
  (skb.slice 0 (RmnetMapHeader.size + controlCommandSize)).modify (RmnetMapHeader.size + 1)
    (setCmdType host type)

/-- `rmnet_map_do_flow_control`.  Here the channel is a byte, so the subtraction wraps. -/
def rmnetMapDoFlowControl (dev : MhiNetdev) (skb : SkBuff) (enable : Bool) :
    MhiNetdev × CommandResult :=
  let muxId := (skb.byte 1 - UInt8.ofNat quectelQmapMuxId).toNat
  if dev.qmapMode ≤ muxId then (dev, .unsupported)
  else match dev.mpQmapNetDev muxId with
    | none => (dev, .unsupported)
    | some _ =>
      if enable then ({ dev with flowControl := dev.flowControl ||| (1#32 <<< muxId) }, .ack)
      else ({ dev with flowControl := dev.flowControl &&& ~~~(1#32 <<< muxId) }, .ack)

/-- The effect on the device of `rmnet_data_map_command`, and its answer. -/
def rmnetDataMapCommand (dev : MhiNetdev) (skb : SkBuff) : MhiNetdev × CommandResult :=
  let commandName := (skb.byte RmnetMapHeader.size).toNat
  let count (dev : MhiNetdev) (i : Nat) : MhiNetdev :=
    { dev with commandStats := Function.update dev.commandStats i (dev.commandStats i + 1) }
  let dev := if commandName < commandEnumLength then count dev commandName else dev
  if commandName = flowEnable then rmnetMapDoFlowControl dev skb true
  else if commandName = flowDisable then rmnetMapDoFlowControl dev skb false
  else (count dev commandUnknown, .unsupported)

/-! ## The loop -/

/-- The variables of the handler's loop. -/
structure RxState where
  dev : MhiNetdev
  skbIn : SkBuff
  /-- The packets copied so far, each in its buffer. -/
  skbChain : List Buffer := []
  /-- Acknowledgements passed to `dev_queue_xmit`. -/
  sent : List (List UInt8) := []
  /-- How many buffers were asked for. -/
  allocs : Nat := 0

def RxState.chain (s : RxState) : List Packet := s.skbChain.map Buffer.packet

/-- The protocol that the first byte of a datagram stands for. -/
def protocolOf (b : UInt8) : Option Protocol :=
  if b &&& 0xf0 = 0x40 then some .ip
  else if b &&& 0xf0 = 0x60 then some .ipv6
  else none

/-- The setting is looked at with one version only. -/
def MhiNetdev.minimumPadding (dev : MhiNetdev) : Nat :=
  if dev.qmapVersion = 9 then dev.dlMinimumPadding else 0

/-- `default_modem_addr`. -/
def defaultModemAddr : List UInt8 := [0x02, 0x50, 0xf3, 0x00, 0x00, 0x00]

/-- The Ethernet header put in front of a datagram, with `bridge_mode_rx_fixup` applied to it. -/
def Child.macHeader (c : Child) (protocol : Protocol) : Option (List UInt8) :=
  if c.ether then
    some ((if c.bridgeMode then c.bridgeMac else c.devAddr) ++ defaultModemAddr ++ protocol.bytes)
  else none

/-- A command frame: its effect on the device, and the acknowledgement unless there is no buffer for
it. -/
def rxCommand (host : Host) (alloc : Nat → Bool) (s : RxState) : RxState :=
  match rmnetDataMapCommand s.dev s.skbIn with
  | (dev, .unsupported) => { s with dev }
  | (dev, .ack) =>
    let sent := if alloc s.allocs then [ackBytes host CommandResult.ack.type s.skbIn] else []
    { s with dev, allocs := s.allocs + 1, sent := s.sent ++ sent }

/-- One iteration of the loop in `rmnet_qmi_rx_handler`.  `alloc k` tells whether the `k`-th request
for a buffer succeeds; `.stop` is the jump to `error_pkt`. -/
def rxBody (host : Host) (alloc : Nat → Bool) (s : RxState) : Loop.Exit RxState :=
  let skbIn := s.skbIn
  let flags := skbIn.byte 0
  let pktLen := ntohs (skbIn.byte 2) (skbIn.byte 3)
  let hdrSize := RmnetMapHeader.size +
    (if RmnetMapHeader.nextHdr host flags then RmnetMapV5CsumHeader.size else 0)
  let skbLen := toU32 (pktLen - RmnetMapHeader.padLen host flags - s.dev.minimumPadding)
  let muxId : Int := (skbIn.byte 1).toNat - quectelQmapMuxId
  -- where `goto skip_pkt` leads
  let skipPkt (s : RxState) := Loop.Exit.next { s with skbIn := s.skbIn.pull (pktLen + hdrSize) }
  if s.dev.qmapMode ≤ toU32 muxId then .stop s
  else match s.dev.mpQmapNetDev muxId.natAbs with
    | none => skipPkt s
    | some qmapNet =>
      if qmapNet.mtu < skbLen then .stop s
      else if skbIn.len < pktLen + hdrSize then .stop s
      else if RmnetMapHeader.cdBit host flags then skipPkt (rxCommand host alloc s)
      else match protocolOf (skbIn.byte hdrSize) with
        | none => .stop s
        | some protocol =>
          if alloc s.allocs then
            skipPkt { s with
              allocs := s.allocs + 1
              skbChain := s.skbChain ++ [⟨s.allocs, ⟨muxId.natAbs, protocol,
                skbIn.slice hdrSize skbLen, qmapNet.macHeader protocol⟩⟩] }
          else
            .stop { s with
              allocs := s.allocs + 1
              dev := { s.dev with allocFailed := s.dev.allocFailed + 1 } }

/-- The condition of the loop: there is more than a header left. -/
def rxCond (s : RxState) : Bool := RmnetMapHeader.size < s.skbIn.len

/-- `rmnet_qmi_rx_handler`: the state behind the loop.  Its `skbChain` is what `netif_receive_skb`
is then called with, in order. -/
def rmnetQmiRxHandler (host : Host) (alloc : Nat → Bool) (fuel : Nat) (dev : MhiNetdev)
    (skbIn : SkBuff) : Option RxState :=
  Loop.run rxCond (rxBody host alloc) fuel { dev, skbIn }

/-! ## One frame -/

theorem protocolOf_ofNat : ∀ n < 256, n / 16 = 4 ∨ n / 16 = 6 →
    (protocolOf (UInt8.ofNat n)).isSome := by
  decide +kernel

/-- The mux id of a channel names that channel again. -/
theorem muxId_sub {i : Nat} (h : i < 8) :
    ((UInt8.ofNat (quectelQmapMuxId + i)).toNat : Int) - quectelQmapMuxId = i := by
  rw [UInt8.toNat_ofNat', quectelQmapMuxId]
  omega

/-- A byte of an aggregate that lies in its first frame. -/
theorem byte_of_data {skb : SkBuff} {bytes rest : List UInt8}
    (h : skb.data = bytes ++ rest) {i : Nat}
    (hi : i < bytes.length) : skb.byte i = bytes.getD i 0 := by
  have hlt : i < skb.len := by
    rw [SkBuff.len, h, List.length_append]
    omega
  rw [SkBuff.byte_of_lt _ hlt, h, List.getD_eq_getElem?_getD, List.getD_eq_getElem?_getD,
    List.getElem?_append_left hi]

/-- **One iteration takes one data frame off the front of the aggregate** and appends its datagram
to the chain. -/
theorem rxBody_frame {host : Host} {alloc : Nat → Bool} {s : RxState} {i : Nat} {c : Child}
    {protocol : Protocol} {d bytes rest : List UInt8} (hmode : s.dev.qmapMode ≤ 8)
    (hpad : s.dev.minimumPadding = 0) (hi : i < s.dev.qmapMode) (hc : s.dev.mpQmapNetDev i = some c)
    (hpos : 0 < d.length) (hmtu : d.length ≤ c.mtu)
    (hproto : protocolOf (d.getD 0 0) = some protocol)
    (hframe : IsFrame host (UInt8.ofNat (quectelQmapMuxId + i)) d bytes)
    (hdata : s.skbIn.data = bytes ++ rest) (halloc : alloc s.allocs = true) :
    rxBody host alloc s = .next { s with
      skbIn := ⟨rest, s.skbIn.tail⟩
      allocs := s.allocs + 1
      skbChain := s.skbChain ++ [⟨s.allocs, ⟨i, protocol, d, c.macHeader protocol⟩⟩] } := by
  obtain ⟨b₀, b₂, b₃, ext, pad, rfl, hcd, hpadlen, hext, hlen⟩ := hframe
  have hbyte : ∀ k < 4 + ext.length + d.length, s.skbIn.byte k =
      (b₀ :: UInt8.ofNat (quectelQmapMuxId + i) :: b₂ :: b₃ :: (ext ++ d ++ pad)).getD k 0 := by
    intro k hk
    refine byte_of_data hdata ?_
    simp only [List.length_cons, List.length_append]
    omega
  -- the aggregate as headers, datagram and the rest
  have hsplit : s.skbIn.data =
      ([b₀, UInt8.ofNat (quectelQmapMuxId + i), b₂, b₃] ++ ext) ++ (d ++ (pad ++ rest)) := by
    rw [hdata]
    simp only [List.cons_append, List.nil_append, List.append_assoc]
  have hhead : ([b₀, UInt8.ofNat (quectelQmapMuxId + i), b₂, b₃] ++ ext).length =
    4 + ext.length := by
    rw [List.length_append, List.length_cons, List.length_cons, List.length_cons,
      List.length_singleton]
  have hlen_in : s.skbIn.len = 4 + ext.length + d.length + pad.length + rest.length := by
    rw [SkBuff.len, hdata]
    simp only [List.length_cons, List.length_append]
    omega
  have hsize : RmnetMapHeader.size +
      (if RmnetMapHeader.nextHdr host b₀ then RmnetMapV5CsumHeader.size else 0) =
        4 + ext.length := by
    rw [← hext, RmnetMapHeader.size]
  have hskbLen : toU32 ((d.length + pad.length : Nat) - (pad.length : Nat) - (0 : Nat)) =
    d.length := by
    have hle := c.mtu_le
    rw [show ((d.length + pad.length : Nat) : Int) - (pad.length : Nat) - (0 : Nat) =
      d.length by omega]
    refine toU32_of_nonneg ?_
    simp only [maxMtu, mru, RmnetMapV5CsumHeader.size, RmnetMapHeader.size] at hle
    omega
  have hfirst : s.skbIn.byte (4 + ext.length) = d.getD 0 0 := by
    rw [SkBuff.byte_of_lt _ (by omega), hsplit, List.getD_append_right _ _ _ _ (by omega), hhead,
      Nat.sub_self, List.getD_append _ _ _ _ hpos]
  have hslice : s.skbIn.slice (4 + ext.length) d.length = d := by
    rw [SkBuff.slice_eq _ (by omega), hsplit, ← hhead, List.drop_left, List.take_left]
  have hpull : s.skbIn.pull (d.length + pad.length + (4 + ext.length)) = ⟨rest, s.skbIn.tail⟩ := by
    rw [SkBuff.pull, if_pos (by omega), hsplit, ← List.append_assoc d, ← List.append_assoc,
      List.drop_left' (by rw [List.length_append, hhead, List.length_append]; omega)]
  simp only [rxBody, hbyte 0 (by omega), hbyte 1 (by omega), hbyte 2 (by omega), hbyte 3 (by omega),
    List.getD_cons_zero, List.getD_cons_succ, hlen, hpadlen, hpad, hsize, hskbLen,
    muxId_sub (hi.trans_le hmode), Int.natAbs_natCast, hc, hcd, hfirst, hproto, hslice,
      hpull, halloc]
  rw [toU32_of_nonneg (by omega), if_neg (by omega), if_neg (by omega), if_neg (by omega)]
  rfl

/-! ## A whole aggregate -/

/-- A packet that a child of `dev` transmits: a datagram of some IP version that fits the child's
MTU, in a buffer with any tailroom. -/
structure Outgoing (dev : MhiNetdev) where
  channel : Nat
  channel_lt : channel < dev.qmapMode
  child : Child
  live : dev.mpQmapNetDev channel = some child
  skb : SkBuff
  pos : 1 ≤ skb.len
  le_mtu : skb.len ≤ child.mtu
  version : (skb.data.getD 0 0).toNat / 16 = 4 ∨ (skb.data.getD 0 0).toNat / 16 = 6

/-- The frame that leaves the child: its channel decides the mux id, the device the version. -/
def Outgoing.frame {dev : MhiNetdev} (host : Host) (o : Outgoing dev) : Option SkBuff :=
  addHeaders host dev.qmapVersion o.skb (UInt8.ofNat (quectelQmapMuxId + o.channel))

variable {dev : MhiNetdev}

theorem Outgoing.isFrame {o : Outgoing dev} {out : SkBuff} (h : o.frame .little = some out) :
    IsFrame .little (UInt8.ofNat (quectelQmapMuxId + o.channel)) o.skb.data out.data := by
  have hle := o.child.mtu_le
  have hmtu := o.le_mtu
  simp only [maxMtu, mru, RmnetMapV5CsumHeader.size, RmnetMapHeader.size] at hle
  exact isFrame_addHeaders h (by omega)

theorem Outgoing.exists_protocol (o : Outgoing dev) :
    ∃ protocol, protocolOf (o.skb.data.getD 0 0) = some protocol := by
  have h := protocolOf_ofNat _ (o.skb.data.getD 0 0).toNat_lt o.version
  rw [UInt8.ofNat_toNat] at h
  exact Option.isSome_iff_exists.1 h

theorem IsFrame.length {host : Host} {muxId : UInt8} {d bytes : List UInt8}
    (h : IsFrame host muxId d bytes) (hd : 0 < d.length) : RmnetMapHeader.size < bytes.length := by
  obtain ⟨b₀, b₂, b₃, ext, pad, rfl, -⟩ := h
  simp only [RmnetMapHeader.size, List.length_cons, List.length_append]
  omega

/-- The loop on a sequence of frames, from any point of a run on. -/
theorem run_frames {alloc : Nat → Bool} (halloc : ∀ k, alloc k = true) (hmode : dev.qmapMode ≤ 8)
    (hpad : dev.minimumPadding = 0) (items : List (Outgoing dev)) :
    ∀ (frames : List SkBuff) (s : RxState) (fuel : Nat),
      items.mapM (Outgoing.frame .little) = some frames →
      s.dev = dev → s.skbIn.data = (frames.map SkBuff.data).flatten → items.length ≤ fuel →
      ∃ t, Loop.run rxCond (rxBody .little alloc) fuel s = some t ∧ t.dev = dev ∧ t.sent = s.sent ∧
        t.chain.map (fun p ↦ (p.dev, p.data)) = s.chain.map (fun p ↦ (p.dev, p.data)) ++
          items.map (fun o ↦ (o.channel, o.skb.data)) := by
  induction items with
  | nil =>
    intro frames s fuel hframes hdev hdata hfuel
    obtain rfl : frames = [] := by simpa using hframes.symm
    have hcond : rxCond s = false := by simp [rxCond, SkBuff.len, hdata]
    exact ⟨s, Loop.run_done hcond fuel, hdev, rfl, by simp⟩
  | cons o items ih =>
    intro frames s fuel hframes hdev hdata hfuel
    obtain ⟨out, hout, outs, houts, rfl⟩ : ∃ out, o.frame .little = some out ∧
        ∃ outs, items.mapM (Outgoing.frame .little) = some outs ∧ frames = out :: outs := by
      simp only [List.mapM_cons, Option.bind_eq_bind, Option.bind_eq_some_iff, Option.pure_def,
        Option.some.injEq] at hframes
      obtain ⟨out, hout, outs, houts, hcons⟩ := hframes
      exact ⟨out, hout, outs, houts, hcons.symm⟩
    obtain ⟨protocol, hproto⟩ := o.exists_protocol
    obtain ⟨fuel, rfl⟩ : ∃ k, fuel = k + 1 := ⟨fuel - 1, by simp at hfuel; omega⟩
    have hframe := o.isFrame hout
    rw [List.map_cons, List.flatten_cons] at hdata
    have hcond : rxCond s = true := by
      have := hframe.length o.pos
      simp only [rxCond, SkBuff.len, hdata, List.length_append, decide_eq_true_eq]
      omega
    have hbody := rxBody_frame (by rwa [hdev]) (by rwa [hdev]) (by rw [hdev]; exact o.channel_lt)
      (by rw [hdev]; exact o.live) o.pos o.le_mtu hproto hframe hdata (halloc s.allocs)
    rw [Loop.run_next hcond hbody]
    obtain ⟨t, hrun, htdev, hsent, hchain⟩ := ih outs
      { s with
        skbIn := ⟨(outs.map SkBuff.data).flatten, s.skbIn.tail⟩
        allocs := s.allocs + 1
        skbChain := s.skbChain ++
          [⟨s.allocs, ⟨o.channel, protocol, o.skb.data, o.child.macHeader protocol⟩⟩] }
      fuel houts hdev rfl (by simpa using hfuel)
    refine ⟨t, hrun, htdev, hsent, ?_⟩
    rw [hchain]
    simp only [RxState.chain, List.map_append, List.map_cons, List.map_nil, List.append_assoc,
      List.singleton_append]

/-- With a version that the transmit side knows, every packet gets its headers. -/
theorem exists_frames (hversion : dev.qmapVersion = 5 ∨ dev.qmapVersion = 9)
    (items : List (Outgoing dev)) :
    ∃ frames, items.mapM (Outgoing.frame .little) = some frames := by
  have hone : ∀ o : Outgoing dev, ∃ out, o.frame .little = some out := by
    intro o
    rcases hversion with h | h
    · exact ⟨_, by rw [Outgoing.frame, addHeaders, if_pos h]⟩
    · exact ⟨_, by rw [Outgoing.frame, addHeaders, if_neg (by omega), if_pos h]⟩
  induction items with
  | nil => exact ⟨[], rfl⟩
  | cons o items ih =>
    obtain ⟨out, hout⟩ := hone o
    obtain ⟨outs, houts⟩ := ih
    exact ⟨out :: outs, by simp [List.mapM_cons, hout, houts]⟩

/-- **Transmit and receive agree.**  Whatever sequence of datagrams the children send, the handler
takes the concatenation of their frames apart again: it delivers that sequence, each datagram as it
was and to the child it came from, and does nothing else.  As many iterations as there are datagrams
suffice, and it does not matter what follows the aggregate in the receive buffer. -/
theorem rx_delivers_tx (dev : MhiNetdev) (hmode : 1 ≤ dev.qmapMode ∧ dev.qmapMode ≤ 8)
    (hversion : dev.qmapVersion = 5 ∨ dev.qmapVersion = 9 ∧ dev.dlMinimumPadding = 0)
    (alloc : Nat → Bool) (halloc : ∀ k, alloc k = true) (items : List (Outgoing dev)) :
    ∃ frames, items.mapM (Outgoing.frame .little) = some frames ∧
      ∀ tail fuel, items.length ≤ fuel →
        ∃ s, rmnetQmiRxHandler .little alloc fuel dev ⟨(frames.map SkBuff.data).flatten,
          tail⟩ = some s ∧
          s.chain.map (fun p ↦ (p.dev, p.data)) = items.map (fun o ↦ (o.channel, o.skb.data)) ∧
          s.sent = [] ∧ s.dev = dev := by
  obtain ⟨frames, hframes⟩ := exists_frames (hversion.imp_right And.left) items
  have hpad : dev.minimumPadding = 0 := by
    rw [MhiNetdev.minimumPadding]
    split
    · omega
    · rfl
  refine ⟨frames, hframes, fun tail fuel hfuel ↦ ?_⟩
  obtain ⟨s, hrun, hdev, hsent, hchain⟩ :=
    run_frames halloc hmode.2 hpad items frames
      { dev, skbIn := ⟨(frames.map SkBuff.data).flatten, tail⟩ } fuel hframes rfl rfl hfuel
  exact ⟨s, hrun, by simpa [RxState.chain] using hchain, hsent, hdev⟩

/-- A device with two children, of the kind that uses checksum headers. -/
def twoChannels : MhiNetdev where
  qmapMode := 2
  qmapVersion := 9
  dlMinimumPadding := 0
  mpQmapNetDev := fun i ↦ if i < 2 then some { mtu := 1500, mtu_le := by decide } else none
  flowControl := 0
  commandStats := fun _ ↦ 0
  allocFailed := 0

/-- An IPv4 datagram in a buffer with tailroom, and an IPv6 one in a buffer without. -/
def twoDatagrams : List (Outgoing twoChannels) :=
  [{ channel := 0, channel_lt := by decide,
     child := { mtu := 1500, mtu_le := by decide }, live := rfl,
     skb := ⟨[0x45, 1, 2, 3, 4], [7, 7, 7, 7]⟩, pos := by decide, le_mtu := by decide,
     version := by decide },
   { channel := 1, channel_lt := by decide,
     child := { mtu := 1500, mtu_le := by decide }, live := rfl,
     skb := ⟨[0x60], []⟩, pos := by decide, le_mtu := by decide, version := by decide }]

theorem rx_delivers_tx_two : ∃ s, rmnetQmiRxHandler .little (fun _ ↦ true) 2 twoChannels
      ⟨[0x43, 0x81, 0, 8, 4, 0, 0, 0, 0x45, 1, 2, 3, 4, 7, 7, 7,
        0x40, 0x82, 0, 1, 4, 0, 0, 0, 0x60], [9]⟩ = some s ∧
    s.chain.map (fun p ↦ (p.dev, p.data)) = [(0, [0x45, 1, 2, 3, 4]), (1, [0x60])] := by
  obtain ⟨frames, hframes, h⟩ := rx_delivers_tx twoChannels (by decide) (by decide) (fun _ ↦ true)
    (fun _ ↦ rfl) twoDatagrams
  have hbytes : (frames.map SkBuff.data).flatten =
    [0x43, 0x81, 0, 8, 4, 0, 0, 0, 0x45, 1, 2, 3, 4, 7, 7, 7,
      0x40, 0x82, 0, 1, 4, 0, 0, 0, 0x60] := by
    obtain rfl := Option.some.inj hframes
    decide
  obtain ⟨s, hrun, hchain, -⟩ := h [9] 2 (by decide)
  rw [hbytes] at hrun
  exact ⟨s, hrun, hchain⟩

end OpenwrtFeed.Mhi
