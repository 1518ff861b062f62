import OpenwrtFeed.Mhi.Decode
import OpenwrtFeed.Usb.Aggregate

/-!
# Taking aggregates apart

`qmap_packet_decode` of `qmi_wwan_q.c` is the receive side of the USB driver.  It goes through an
aggregate as `rmnet_qmi_rx_handler` of the PCIe driver does, with the same checks in the same order,
but it does not execute commands, and its bit-fields have one layout on all hosts.

`decode_agrees` is that the two drivers make the same packets of the same aggregate, and that the
one does not end where the other does not.  `aggregate_decodes` is that the format is the one that
the transmit side writes: whatever was aggregated in whatever way, every buffer that was sent comes
apart into the packets that were put into it.
-/

set_option autoImplicit false

namespace OpenwrtFeed.Usb

open Mhi

/-- A device `wwan0_N`, as far as the receive side looks at it. -/
structure RxNet where
  mtu : Nat
  ether : Bool := false
  devAddr : List UInt8 := List.replicate 6 0
  bridgeMode : Bool := false
  bridgeMac : List UInt8 := List.replicate 6 0

/-- The Ethernet header put in front of a packet, with `bridge_mode_rx_fixup` applied to it. -/
def RxNet.macHeader (net : RxNet) (protocol : Protocol) : Option (List UInt8) :=
  if net.ether then
    some ((if net.bridgeMode then net.bridgeMac else net.devAddr) ++ defaultModemAddr ++
      protocol.bytes)
  else none

/-- `sQmiWwanQmap`, as far as the receive side looks at it -/
structure QmiWwanQmap where
  qmapMode : Nat
  qmapVersion : Nat
  dlMinimumPadding : Nat
  mpQmapNetDev : Nat → Option RxNet

/-- The setting is looked at with one version only. -/
def QmiWwanQmap.minimumPadding (dev : QmiWwanQmap) : Nat :=
  if dev.qmapVersion = 9 then dev.dlMinimumPadding else 0

/-- The variables of the loop. -/
structure DecodeState where
  skbIn : SkBuff
  skbChain : List Packet := []
  /-- How many buffers were asked for. -/
  allocs : Nat := 0

/-- One iteration of the loop in `qmap_packet_decode`; `.stop` is the jump to `error_pkt`. -/
def decodeBody (dev : QmiWwanQmap) (alloc : Nat → Bool) (s : DecodeState) :
    Loop.Exit DecodeState :=
  let skbIn := s.skbIn
  let flags := skbIn.byte 0
  let pktLen := ntohs (skbIn.byte 2) (skbIn.byte 3)
  let hdrSize := RmnetMapHeader.size +
    (if RmnetMapHeader.nextHdr .little flags then RmnetMapV5CsumHeader.size else 0)
  let skbLen := toU32 (pktLen - RmnetMapHeader.padLen .little flags - dev.minimumPadding)
  let muxId : Int := (skbIn.byte 1).toNat - quectelQmapMuxId
  -- where `goto skip_pkt` leads
  let skipPkt (s : DecodeState) :=
    Loop.Exit.next { s with skbIn := s.skbIn.pull (pktLen + hdrSize) }
  if dev.qmapMode ≤ toU32 muxId then .stop s
  else match dev.mpQmapNetDev muxId.natAbs with
    | none => skipPkt s
    | some qmapNet =>
      if qmapNet.mtu < skbLen then .stop s
      else if skbIn.len < pktLen + hdrSize then .stop s
      else if RmnetMapHeader.cdBit .little flags then skipPkt s
      else match protocolOf (skbIn.byte hdrSize) with
        | none => .stop s
        | some protocol =>
          if alloc s.allocs then
            skipPkt { s with
              allocs := s.allocs + 1
              skbChain := s.skbChain ++ [⟨muxId.natAbs, protocol, skbIn.slice hdrSize skbLen,
                qmapNet.macHeader protocol⟩] }
          else
            .stop { s with allocs := s.allocs + 1 }

/-- The condition of the loop: there is more than a header left. -/
def decodeCond (s : DecodeState) : Bool := RmnetMapHeader.size < s.skbIn.len

/-- `qmap_packet_decode`: the state behind the loop, of which `skb_chain` is handed on. -/
def qmapPacketDecode (dev : QmiWwanQmap) (alloc : Nat → Bool) (fuel : Nat) (skbIn : SkBuff) :
    Option DecodeState :=
  Loop.run decodeCond (decodeBody dev alloc) fuel { skbIn }

/-! ## The two drivers -/

/-- The same device behind the other bus. -/
def RxNet.ofChild (c : Child) : RxNet := ⟨c.mtu, c.ether, c.devAddr, c.bridgeMode, c.bridgeMac⟩

def QmiWwanQmap.ofMhi (dev : MhiNetdev) : QmiWwanQmap where
  qmapMode := dev.qmapMode
  qmapVersion := dev.qmapVersion
  dlMinimumPadding := dev.dlMinimumPadding
  mpQmapNetDev := fun i ↦ (dev.mpQmapNetDev i).map RxNet.ofChild

/-- The two loops are at the same place. -/
structure InStep (dev : MhiNetdev) (s : DecodeState) (t : RxState) : Prop where
  skbIn : t.skbIn = s.skbIn
  chain : t.chain = s.skbChain
  settings : SameSettings dev t.dev

/-- What an iteration does, in the words of the other driver. -/
theorem decodeBody_eq (dev : MhiNetdev) (s : DecodeState) :
    decodeBody (.ofMhi dev) (fun _ ↦ true) s = match front .little dev s.skbIn with
      | .unknown | .tooLong | .truncated | .notIp => .stop s
      | .free | .command => .next { s with skbIn := skipPkt .little s.skbIn }
      | .data c protocol => .next { s with
          skbIn := skipPkt .little s.skbIn
          allocs := s.allocs + 1
          skbChain := s.skbChain ++ [⟨(frameMuxId s.skbIn).natAbs, protocol,
            s.skbIn.slice (hdrSize .little s.skbIn) (skbLen .little dev s.skbIn),
            c.macHeader protocol⟩] } := by
  have hpad : (QmiWwanQmap.ofMhi dev).minimumPadding = dev.minimumPadding := rfl
  have hmode : (QmiWwanQmap.ofMhi dev).qmapMode = dev.qmapMode := rfl
  have hnet : ∀ i, (QmiWwanQmap.ofMhi dev).mpQmapNetDev i =
    (dev.mpQmapNetDev i).map RxNet.ofChild := fun _ ↦ rfl
  simp only [decodeBody, hpad, hmode, hnet, ← pktLen.eq_1, ← hdrSize.eq_1, ← framePad.eq_1,
    ← skbLen.eq_1, ← frameMuxId.eq_1, ← frameSize.eq_1, ← skipPkt.eq_1, front]
  by_cases hmode : dev.qmapMode ≤ toU32 (frameMuxId s.skbIn)
  · simp only [if_pos hmode]
  simp only [if_neg hmode]
  rcases dev.mpQmapNetDev (frameMuxId s.skbIn).natAbs with _ | c
  · rfl
  simp only [Option.map_some, RxNet.ofChild]
  by_cases hmtu : c.mtu < skbLen .little dev s.skbIn
  · simp only [if_pos hmtu]
  by_cases hlen : s.skbIn.len < frameSize .little s.skbIn
  · simp only [if_neg hmtu, if_pos hlen]
  by_cases hcd : RmnetMapHeader.cdBit .little (s.skbIn.byte 0) = true
  · simp only [if_neg hmtu, if_neg hlen, if_pos hcd]
  simp only [if_neg hmtu, if_neg hlen, if_neg hcd]
  rcases protocolOf (s.skbIn.byte (hdrSize .little s.skbIn)) with _ | protocol
  · rfl
  · rfl

/-- One iteration of each. -/
theorem InStep.body {dev : MhiNetdev} {s : DecodeState} {t : RxState} (h : InStep dev s t) :
    (∃ s' t', decodeBody (.ofMhi dev) (fun _ ↦ true) s = .next s' ∧
        rxBody .little (fun _ ↦ true) t = .next t' ∧ InStep dev s' t') ∨
      ∃ s' t', decodeBody (.ofMhi dev) (fun _ ↦ true) s = .stop s' ∧
        rxBody .little (fun _ ↦ true) t = .stop t' ∧ t'.chain = s'.skbChain := by
  have hs := decodeBody_eq dev s
  have ht := rxBody_eq .little (fun _ ↦ true) t
  rw [h.settings.front_eq, h.skbIn] at ht
  revert hs ht
  rcases front .little dev s.skbIn with _ | _ | _ | _ | _ | _ | ⟨c, protocol⟩ <;> intro hs ht
  case unknown | tooLong | truncated | notIp => exact .inr ⟨_, _, hs, ht, h.chain⟩
  case free => exact .inl ⟨_, _, hs, ht, ⟨rfl, h.chain, h.settings⟩⟩
  case command =>
    obtain ⟨-, hchain, hset⟩ := rxCommand_frame .little (fun _ ↦ true) t
    exact .inl ⟨_, _, hs, ht, ⟨rfl, (congrArg (List.map Buffer.packet) hchain).trans h.chain,
      h.settings.trans hset⟩⟩
  case data =>
    refine .inl ⟨_, _, hs, ht, ⟨?_, ?_, h.settings⟩⟩
    · rw [afterData, h.skbIn]
    · rw [afterData_chain, packetOf, h.skbIn, h.chain, h.settings.skbLen_eq]

/-- **The two drivers agree.**  As long as there is memory, the receive side of the USB driver makes
of every aggregate the packets that the one of the PCIe driver makes of it, whatever the settings
and the table of devices, and it does not come to an end exactly where the other does not. -/
theorem decode_agrees (dev : MhiNetdev) (skb : SkBuff) (fuel : Nat) :
    (qmapPacketDecode (.ofMhi dev) (fun _ ↦ true) fuel skb).map (·.skbChain) =
      (rmnetQmiRxHandler .little (fun _ ↦ true) fuel dev skb).map (·.chain) := by
  have hrel : Option.Rel (fun s t ↦ t.chain = s.skbChain)
      (Loop.run decodeCond (decodeBody (.ofMhi dev) fun _ ↦ true) fuel { skbIn := skb })
      (Loop.run rxCond (rxBody .little fun _ ↦ true) fuel { dev, skbIn := skb }) :=
    Loop.run_lockstep (R := InStep dev) (fun s t h ↦ h.chain)
      (fun s t h ↦ by rw [decodeCond, rxCond, h.skbIn]) (fun s t h _ ↦ h.body)
      ⟨rfl, rfl, .refl dev⟩ fuel
  rw [qmapPacketDecode, rmnetQmiRxHandler]
  revert hrel
  generalize Loop.run decodeCond _ fuel _ = r
  generalize Loop.run rxCond _ fuel _ = r'
  intro hrel
  cases hrel with
  | none => rfl
  | some h => exact congrArg some h.symm

/-! ## Frames of the transmit side -/

theorem paddingFrom_lt (skb : SkBuff) (ipOffset : Nat) : paddingFrom skb ipOffset < 4 := by
  rw [paddingFrom]
  split
  · omega
  · split <;> omega

theorem paddingFrom_le_tail (skb : SkBuff) (ipOffset : Nat) :
    paddingFrom skb ipOffset ≤ skb.tail.length := by
  rw [paddingFrom]
  split
  · omega
  · split <;> omega

/-- A header and the padded packet behind it, whatever amount of padding it says. -/
theorem isFrame_of_header (muxId : UInt8) (ext : List UInt8) {skb : SkBuff} {b₀ : UInt8}
    {pad ipOffset : Nat} (hoff : ipOffset ≤ skb.len) (hlen : skb.len + 3 < 65536) (hpad : pad < 4)
    (htail : pad ≤ skb.tail.length) (hcd : RmnetMapHeader.cdBit .little b₀ = false)
    (hlenpad : RmnetMapHeader.padLen .little b₀ = pad)
    (hext : ext.length =
      if RmnetMapHeader.nextHdr .little b₀ then RmnetMapV5CsumHeader.size else 0) :
    IsFrame .little muxId (skb.data.drop ipOffset)
      ([b₀, muxId] ++ be16 ((skb.put pad).len - ipOffset) ++ ext ++
        (skb.put pad).data.drop ipOffset) := by
  have hput := length_put skb htail
  have htake : (skb.tail.take pad).length = pad := by rw [List.length_take]; omega
  have hdrop : (skb.put pad).data.drop ipOffset = skb.data.drop ipOffset ++ skb.tail.take pad := by
    rw [SkBuff.put, List.drop_append_of_le_length (by rwa [SkBuff.len] at hoff)]
  refine ⟨b₀, .ofNat (((skb.put pad).len - ipOffset) / 256), .ofNat ((skb.put pad).len - ipOffset),
    ext, skb.tail.take pad, ?_, hcd, ?_, hext, ?_⟩
  · rw [hdrop]
    simp only [be16, List.cons_append, List.nil_append, List.append_assoc]
  · rw [hlenpad, htake]
  · rw [ntohs_be16 (by omega), hput, htake, List.length_drop]
    rw [SkBuff.len] at hoff ⊢
    omega

/-- What is put into a buffer for a packet is a frame with it. -/
theorem isFrame_put {dev : QmapNet} {skb : SkBuff} {protocol : Nat} {c : Call}
    (h : dev.addHeaders skb protocol = some c) (hoff : dev.ether = true → 14 ≤ skb.len)
    (hlen : skb.len + 3 < 65536) : IsFrame .little dev.muxId c.put.packet c.put.bytes := by
  have hoff' : (if dev.ether = true then 14 else 0) ≤ skb.len := by
    split
    · exact hoff ‹_›
    · exact Nat.zero_le _
  rw [QmapNet.addHeaders] at h
  split at h
  · obtain rfl := Option.some.inj h
    obtain ⟨hcd, hpad, hnext⟩ := flags_of_pad _ (padding_lt skb)
    have hframe := isFrame_of_header dev.muxId [] hoff' hlen (padding_lt skb) (padding_le_tail skb)
      hcd hpad (by rw [hnext]; rfl)
    simpa [Call.put, addQhdr] using hframe
  · split at h
    · obtain rfl := Option.some.inj h
      have hlt := paddingFrom_lt skb (if dev.ether = true then 14 else 0)
      obtain ⟨hcd, hpad, hnext⟩ := flags_of_pad_v5 .little _ hlt
      have hframe := isFrame_of_header dev.muxId
        [RmnetMapV5CsumHeader.flags .little false RmnetMapV5CsumHeader.csumOffload, 0, 0, 0] hoff'
        hlen hlt (paddingFrom_le_tail skb _) hcd hpad (by rw [hnext]; rfl)
      simpa [Call.put, addQhdrV5] using hframe
    · exact absurd h (by simp)

/-! ## One frame -/

/-- What the receive side reads of a frame at the front of a buffer. -/
theorem frame_parses {skb : SkBuff} {muxId : UInt8} {d bytes rest : List UInt8}
    (h : IsFrame .little muxId d bytes) (hdata : skb.data = bytes ++ rest) (hpos : 0 < d.length) :
    frameMuxId skb = (muxId.toNat : Int) - quectelQmapMuxId ∧
      pktLen skb = d.length + framePad .little skb ∧
      RmnetMapHeader.cdBit .little (skb.byte 0) = false ∧
      frameSize .little skb ≤ skb.len ∧ skb.byte (hdrSize .little skb) = d.getD 0 0 ∧
      skb.slice (hdrSize .little skb) d.length = d ∧
      skipPkt .little skb = ⟨rest, skb.tail⟩ := by
  obtain ⟨b₀, b₂, b₃, ext, pad, rfl, hcd, hpad, hext, hlen⟩ := h
  -- the buffer as headers, packet and the rest
  have hsplit : skb.data = ([b₀, muxId, b₂, b₃] ++ ext) ++ (d ++ (pad ++ rest)) := by
    rw [hdata]
    simp only [List.cons_append, List.nil_append, List.append_assoc]
  have hhead : ([b₀, muxId, b₂, b₃] ++ ext).length = 4 + ext.length := by
    simp only [List.length_append, List.length_cons, List.length_nil]
  have hlen_in : skb.len = 4 + ext.length + d.length + pad.length + rest.length := by
    rw [SkBuff.len, hsplit, List.length_append, hhead]
    simp only [List.length_append]
    omega
  have hbyte : ∀ k < 4, skb.byte k = [b₀, muxId, b₂, b₃].getD k 0 := by
    intro k hk
    rw [SkBuff.byte_of_lt _ (by omega), hsplit, List.append_assoc,
      List.getD_append _ _ _ _ (by simpa using hk)]
  have hb₀ : skb.byte 0 = b₀ := hbyte 0 (by omega)
  have hb₁ : skb.byte 1 = muxId := hbyte 1 (by omega)
  have hb₂ : skb.byte 2 = b₂ := hbyte 2 (by omega)
  have hb₃ : skb.byte 3 = b₃ := hbyte 3 (by omega)
  have hhdr : hdrSize .little skb = 4 + ext.length := by
    rw [hdrSize, hb₀, hext, RmnetMapHeader.size]
  have hpkt : pktLen skb = d.length + pad.length := by rw [pktLen, hb₂, hb₃, hlen]
  have hfpad : framePad .little skb = pad.length := by rw [framePad, hb₀, hpad]
  have hsize : frameSize .little skb = 4 + ext.length + d.length + pad.length := by
    rw [frameSize, hpkt, hhdr]
    omega
  refine ⟨by rw [frameMuxId, hb₁], by rw [hpkt, hfpad], by rw [hb₀, hcd], by omega, ?_, ?_, ?_⟩
  · rw [hhdr, SkBuff.byte_of_lt _ (by omega), hsplit, List.getD_append_right _ _ _ _ (by omega),
      hhead, Nat.sub_self, List.getD_append _ _ _ _ hpos]
  · rw [hhdr, SkBuff.slice_eq _ (by omega), hsplit, ← hhead, List.drop_left, List.take_left]
  · rw [skipPkt, SkBuff.pull, if_pos (by omega), hsplit, ← List.append_assoc d,
      ← List.append_assoc, List.drop_left' ?_]
    rw [List.length_append, hhead, List.length_append]
    omega

/-- A device with a channel that is in use. -/
structure Receives (dev : QmiWwanQmap) (i : Nat) (net : RxNet) : Prop where
  lt : i < dev.qmapMode
  /-- There are only so many mux ids. -/
  mode_le : dev.qmapMode ≤ 0x7f
  live : dev.mpQmapNetDev i = some net
  mtu_lt : net.mtu < 2 ^ 32
  padding : dev.minimumPadding = 0

/-- **One iteration takes one frame off the front** and appends its packet to the chain. -/
theorem decodeBody_frame {dev : QmiWwanQmap} {i : Nat} {net : RxNet} {protocol : Protocol}
    {d bytes rest : List UInt8} {s : DecodeState} (hr : Receives dev i net) (hpos : 0 < d.length)
    (hmtu : d.length ≤ net.mtu) (hproto : protocolOf (d.getD 0 0) = some protocol)
    (hframe : IsFrame .little (UInt8.ofNat (quectelQmapMuxId + i)) d bytes)
    (hdata : s.skbIn.data = bytes ++ rest) :
    decodeBody dev (fun _ ↦ true) s = .next { s with
      skbIn := ⟨rest, s.skbIn.tail⟩
      allocs := s.allocs + 1
      skbChain := s.skbChain ++ [⟨i, protocol, d, net.macHeader protocol⟩] } := by
  obtain ⟨hmux, hpkt, hcd, hsize, hfirst, hslice, hskip⟩ := frame_parses hframe hdata hpos
  have hlt := hr.lt
  have hle := hr.mode_le
  have hmtu_lt := hr.mtu_lt
  have hmux' : frameMuxId s.skbIn = i := by
    rw [hmux, UInt8.toNat_ofNat', quectelQmapMuxId]
    omega
  have hlen : toU32 ((pktLen s.skbIn : Int) - framePad .little s.skbIn - (0 : Nat)) = d.length := by
    rw [show (pktLen s.skbIn : Int) - framePad .little s.skbIn - (0 : Nat) = d.length by omega]
    exact toU32_of_nonneg (by omega)
  simp only [decodeBody, hr.padding, ← pktLen.eq_1, ← hdrSize.eq_1, ← framePad.eq_1,
    ← frameMuxId.eq_1, ← frameSize.eq_1, ← skipPkt.eq_1, hmux', Int.natAbs_natCast, hr.live, hlen,
    hcd, hfirst, hproto, hslice, hskip]
  rw [toU32_of_nonneg (by omega), if_neg (by omega), if_neg (by omega), if_neg (by omega)]
  rfl

/-! ## Whole aggregates -/

/-- What is known of a packet with its header. -/
structure Readable (muxId : UInt8) (mtu : Nat) (p : Put) : Prop where
  frame : IsFrame .little muxId p.packet p.bytes
  pos : 0 < p.packet.length
  le_mtu : p.packet.length ≤ mtu
  protocol : (protocolOf (p.packet.getD 0 0)).isSome = true

/-- The loop on a sequence of frames, from any point of a run on. -/
theorem run_puts {dev : QmiWwanQmap} {i : Nat} {net : RxNet} (hr : Receives dev i net)
    (puts : List Put)
    (hputs : ∀ p ∈ puts, Readable (UInt8.ofNat (quectelQmapMuxId + i)) net.mtu p) :
    ∀ (s : DecodeState) (fuel : Nat), s.skbIn.data = puts.flatMap Put.bytes → puts.length ≤ fuel →
      ∃ t, Loop.run decodeCond (decodeBody dev fun _ ↦ true) fuel s = some t ∧
        t.skbChain.map (fun p ↦ (p.dev, p.data)) =
          s.skbChain.map (fun p ↦ (p.dev, p.data)) ++ puts.map fun p ↦ (i, p.packet) := by
  induction puts with
  | nil =>
    intro s fuel hdata _
    have hcond : decodeCond s = false := by simp [decodeCond, SkBuff.len, hdata]
    exact ⟨s, Loop.run_done hcond fuel, by simp⟩
  | cons p puts ih =>
    intro s fuel hdata hfuel
    obtain ⟨hp, hrest⟩ := List.forall_mem_cons.mp hputs
    obtain ⟨fuel, rfl⟩ : ∃ k, fuel = k + 1 := ⟨fuel - 1, by simp at hfuel; omega⟩
    obtain ⟨protocol, hproto⟩ := Option.isSome_iff_exists.mp hp.protocol
    rw [List.flatMap_cons] at hdata
    have hcond : decodeCond s = true := by
      have hlen := hp.frame.length hp.pos
      simp only [decodeCond, SkBuff.len, hdata, List.length_append, decide_eq_true_eq]
      omega
    rw [Loop.run_next hcond (decodeBody_frame hr hp.pos hp.le_mtu hproto hp.frame hdata)]
    obtain ⟨t, hrun, hchain⟩ := ih hrest
      { s with
        skbIn := ⟨puts.flatMap Put.bytes, s.skbIn.tail⟩
        allocs := s.allocs + 1
        skbChain := s.skbChain ++ [⟨i, protocol, p.packet, net.macHeader protocol⟩] }
      fuel rfl (by simpa using hfuel)
    refine ⟨t, hrun, ?_⟩
    rw [hchain, List.map_append, List.map_cons, List.map_nil, List.append_assoc, List.map_cons,
      List.singleton_append]

/-- What the network stack hands to a device: an IP packet that is no longer than the MTU, behind a
whole link layer header if the device has one. -/
def proper (dev : QmapNet) (mtu : Nat) : Act → Bool
  | .startXmit skb _ _ =>
    let ipOffset := if dev.ether then 14 else 0
    let packet := skb.data.drop ipOffset
    ipOffset ≤ skb.len && skb.len + 3 < 65536 && 0 < packet.length && packet.length ≤ mtu &&
      (protocolOf (packet.getD 0 0)).isSome
  | _ => true

namespace Uplink

variable {w w' : Uplink} {a : Act}

/-- A packet is accepted with the headers of its device, and no step changes the device. -/
theorem step_accepts (h : step w a = some w') :
    w'.dev = w.dev ∧ (w'.accepted = w.accepted ∨
      ∃ skb protocol stopped c, a = .startXmit skb protocol stopped ∧
        w.dev.addHeaders skb protocol = some c ∧ w'.accepted = w.accepted ++ [c.put]) := by
  cases a with
  | startXmit skb protocol stopped =>
    obtain ⟨-, rfl⟩ := Trace.of_guard h
    rcases startXmit_cases w skb protocol stopped with ⟨_, he⟩ | ⟨_, c, hc, he⟩
    · rw [he]
      exact ⟨rfl, .inl rfl⟩
    · rw [he]
      exact ⟨rfl, .inr ⟨skb, protocol, stopped, c, rfl, hc, rfl⟩⟩
  | enter alloc =>
    obtain ⟨c, -, rfl⟩ := enter_inv h
    rcases enter_cases w c alloc with ⟨-, ⟨he, -⟩ | ⟨he, -⟩⟩ | ⟨-, he⟩ <;> rw [he] <;>
      exact ⟨rfl, .inl rfl⟩
  | pass now xmitMore alloc alloc' =>
    obtain ⟨c, -, rfl⟩ := pass_inv h
    have hpass := pass_passes w c now xmitMore alloc alloc'
    generalize w.pass c now xmitMore alloc alloc' = w' at hpass ⊢
    cases hpass <;> exact ⟨rfl, .inl rfl⟩
  | xmitSend =>
    obtain ⟨b, x, -, -, -, -, rfl⟩ := xmitSend_inv h
    exact ⟨rfl, .inl rfl⟩
  | workTake now =>
    obtain ⟨-, rfl⟩ := Trace.of_guard h
    rw [workTake]
    split <;> exact ⟨rfl, .inl rfl⟩
  | workSend =>
    obtain ⟨b, -, rfl⟩ := workSend_inv h
    exact ⟨rfl, .inl rfl⟩
  | settingStore maxDatagrams maxSize =>
    obtain ⟨-, rfl⟩ := Trace.of_guard h
    rw [qmaSettingStore]
    split <;> exact ⟨rfl, .inl rfl⟩
  | settingSize =>
    obtain ⟨size, -, rfl⟩ := settingSize_inv h
    exact ⟨rfl, .inl rfl⟩
  | param aggTimeLimit aggBypassTime =>
    obtain rfl := Option.some.inj h
    exact ⟨rfl, .inl rfl⟩
  | look | ask | timerExpires | timerCb | workStart =>
    obtain ⟨-, rfl⟩ := Trace.of_guard h
    exact ⟨rfl, .inl rfl⟩

theorem readable_put {dev : QmapNet} {mtu : Nat} {skb : SkBuff} {protocol : Nat} {stopped : Bool}
    {c : Call} (hp : proper dev mtu (.startXmit skb protocol stopped) = true)
    (hc : dev.addHeaders skb protocol = some c) : Readable dev.muxId mtu c.put := by
  simp only [proper, Bool.and_eq_true, decide_eq_true_eq] at hp
  obtain ⟨⟨⟨⟨hoff, hlen⟩, hpos⟩, hle⟩, hproto⟩ := hp
  have hpacket : c.put.packet = skb.data.drop (if dev.ether = true then 14 else 0) := by
    rw [QmapNet.addHeaders] at hc
    split at hc
    · obtain rfl := Option.some.inj hc
      rfl
    · split at hc
      · obtain rfl := Option.some.inj hc
        rfl
      · exact absurd hc (by simp)
  refine ⟨isFrame_put hc (fun he ↦ ?_) hlen, hpacket ▸ hpos, hpacket ▸ hle, hpacket ▸ hproto⟩
  rwa [if_pos he] at hoff

/-- **Every aggregate comes apart into what was put into it.**  However the packets of a device were
put together, if each was an IP packet no longer than the MTU, then the receive side of this driver
makes of each buffer that was sent the packets in it, in their order, on the channel of the device,
and nothing else; it does not matter what follows in the buffer. -/
theorem aggregate_decodes (dev : QmapNet) (bridgeMac : List UInt8) (now : Timespec) (as : List Act)
    (w : Uplink) (h : Trace.run step (start dev bridgeMac now) as = some w) (peer : QmiWwanQmap)
    (i : Nat) (net : RxNet) (hr : Receives peer i net)
    (hmux : dev.muxId = UInt8.ofNat (quectelQmapMuxId + i))
    (hproper : ∀ a ∈ as, proper dev net.mtu a = true) (b : AggSkb) (hb : b ∈ w.sent)
    (tail : List UInt8) (fuel : Nat) (hfuel : b.puts.length ≤ fuel) :
    ∃ s, qmapPacketDecode peer (fun _ ↦ true) fuel ⟨b.data, tail⟩ = some s ∧
      s.skbChain.map (fun p ↦ (p.dev, p.data)) = b.puts.map fun p ↦ (i, p.packet) := by
  have hinv : w.dev = dev ∧ ∀ p ∈ w.accepted, Readable dev.muxId net.mtu p := by
    refine Trace.run_invariant (P := fun a ↦ proper dev net.mtu a = true)
      (I := fun w ↦ w.dev = dev ∧ ∀ p ∈ w.accepted, Readable dev.muxId net.mtu p) ?_
      ⟨rfl, fun _ h ↦ absurd h List.not_mem_nil⟩ hproper h
    rintro u a v hp ⟨hdev, hacc⟩ hstep
    obtain ⟨hdev', hacc' | ⟨skb, protocol, stopped, c, rfl, hc, hacc'⟩⟩ := step_accepts hstep
    · exact ⟨hdev'.trans hdev, hacc' ▸ hacc⟩
    · refine ⟨hdev'.trans hdev, fun p hp' ↦ ?_⟩
      rw [hacc'] at hp'
      rcases List.mem_append.mp hp' with hp' | hp'
      · exact hacc p hp'
      · rw [List.mem_singleton.mp hp']
        exact readable_put hp (hdev ▸ hc)
  have hperm := conserved_run h
  have hputs : ∀ p ∈ b.puts, Readable (UInt8.ofNat (quectelQmapMuxId + i)) net.mtu p := by
    intro p hp
    refine hmux ▸ hinv.2 p (hperm.mem_iff.mpr ?_)
    have hmem : p ∈ w.queue.sent.flatten :=
      List.mem_flatten.mpr ⟨b.puts, List.mem_map.mpr ⟨b, hb, rfl⟩, hp⟩
    simp only [List.mem_append]
    exact .inl (.inl (.inl (.inl hmem)))
  obtain ⟨s, hrun, hchain⟩ :=
    run_puts hr b.puts hputs { skbIn := ⟨b.data, tail⟩ } fuel rfl hfuel
  exact ⟨s, hrun, hchain⟩

/-- A device with one channel, for raw IP. -/
def samplePeer : QmiWwanQmap where
  qmapMode := 1
  qmapVersion := 9
  dlMinimumPadding := 0
  mpQmapNetDev := fun i ↦ if i = 0 then some { mtu := 1500 } else none

theorem aggregate_decodes_sample :
    ∃ b s, sampleSent.sent = [b] ∧
      qmapPacketDecode samplePeer (fun _ ↦ true) 2 ⟨b.data, []⟩ = some s ∧
      s.skbChain.map (fun p ↦ (p.dev, p.data)) = [(0, sampleSkb.data), (0, sampleSkb.data)] := by
  obtain ⟨b, hb, hputs⟩ : ∃ b, sampleSent.sent = [b] ∧
      b.puts.map (·.packet) = [sampleSkb.data, sampleSkb.data] :=
    ⟨sampleSent.sent.headD ⟨0, []⟩, by decide +kernel, by decide +kernel⟩
  have hlen : b.puts.length = 2 := by simpa using congrArg List.length hputs
  obtain ⟨s, hrun, hchain⟩ := aggregate_decodes sampleDev [] ⟨0, 0⟩ sampleActs sampleSent
    (Trace.eq_some_getD (by decide +kernel)) samplePeer 0 { mtu := 1500 }
    ⟨by decide, by decide, rfl, by decide, rfl⟩ rfl (by decide +kernel) b (by simp [hb]) [] 2
    (by omega)
  refine ⟨b, s, hb, hrun, hchain.trans ?_⟩
  have hmap : b.puts.map (fun p ↦ (0, p.packet)) = (b.puts.map (·.packet)).map fun d ↦ (0, d) := by
    rw [List.map_map]
    rfl
  rw [hmap, hputs]
  rfl

end Uplink

end OpenwrtFeed.Usb
