import OpenwrtFeed.Lib.ByteOrder
import OpenwrtFeed.Mhi.Decode
import OpenwrtFeed.Mhi.Session

/-!
# The wire and the byte order of the host

What the modem sends and expects does not depend on the machine that the driver runs on, so every
field of a header has to be converted once on its way.  Most of them are: `cpu_to_le16`, `htons` and
the like are all over `mhi_netdev_quectel.c`.  Three kinds are not.  The first byte of a QMAP header
and of a checksum header are bit-fields, of which there is only one declaration; the offset and the
length of the datagram in an NDP are assigned as they are; and so is the offset of the first NDP
read, next to fields that are converted.

`wireFormat_same` compares the two kinds of hosts.  Of the frames that are sent, those of version 9
and the MBIM blocks are never the same, and the others always are.  An aggregate or a block that is
received is taken for the same packets if the two hosts come to the same at each of its frames, or
at its first NDP; and if they do not, and one of them finds a packet there, then what they deliver
is different, but for frames that the other one takes for a command and blocks with an NDP at both
offsets.
-/

set_option autoImplicit false

namespace OpenwrtFeed.Mhi

/-! ## Fields in memory -/

/-- The order in which the host keeps the bytes of a number. -/
def Host.order : Host → ByteOrder
  | .little => .little
  | .big => .big

/-- The value `USB_CDC_NCM_NTH16_SIGN`. -/
def usbCdcNcmNth16Sign : Nat := 0x484d434e

/-- The value `USB_CDC_MBIM_NDP16_IPS_SIGN`. -/
def usbCdcMbimNdp16IpsSign : Nat := 0x00535049

namespace Host

/-- `add_qhdr`, assignment by assignment. -/
def addQhdr (host : Host) (skb : SkBuff) (muxId : UInt8) : SkBuff :=
  let pad := padding skb
  let skb := skb.put pad
  -- `skb_push` has added the size that is subtracted here
  let pktLen := host.order.cpuToBe 2 (skb.len + RmnetMapHeader.size - RmnetMapHeader.size)
  skb.push ([UInt8.ofNat pad, muxId] ++ host.order.store 2 pktLen)

/-- `add_qhdr_v5`, assignment by assignment. -/
def addQhdrV5 (host : Host) (skb : SkBuff) (muxId : UInt8) : SkBuff :=
  let mapDatalen := skb.len
  let pad := padding skb
  let skb := skb.put pad
  skb.push (
    -- `pad_len`, `next_hdr` and `cd_bit`
    [UInt8.ofNat (host.order.pack [(6, pad), (1, 1), (1, 0)]), muxId] ++
      host.order.store 2 (host.order.cpuToBe 2 (mapDatalen + pad)) ++
    -- `next_hdr` and `header_type`, then `hw_reserved` and `csum_valid_required`
    [UInt8.ofNat (host.order.pack [(1, 0), (7, RmnetMapV5CsumHeader.csumOffload)]),
      UInt8.ofNat (host.order.pack [(7, 0), (1, 0)])] ++ host.order.store 2 0)

/-- The QMAP branch of `rmnet_vnd_start_xmit`. -/
def addHeaders (host : Host) (qmapVersion : Nat) (skb : SkBuff) (muxId : UInt8) : Option SkBuff :=
  if qmapVersion = 5 then some (host.addQhdr skb muxId)
  else if qmapVersion = 9 then some (host.addQhdrV5 skb muxId)
  else none

/-- `add_mbim_hdr`, assignment by assignment. -/
def addMbimHdr (host : Host) (qmapMode : Nat) (headroom : List UInt8) (skb : SkBuff)
    (muxId : UInt8) : Option SkBuff :=
  let tci := if 1 < qmapMode then muxId.toNat + 1 else muxId.toNat
  let skbLen := skb.len
  if headroom.length < mbimHdrSize then none
  else
    let uncovered := headroom.drop (headroom.length - mbimHdrSize)
    let sign := (host.order.store 4 (host.order.cpuToLe 4 usbCdcMbimNdp16IpsSign)).set 3
      (UInt8.ofNat tci)
    some (skb.push (
      host.order.store 4 (host.order.cpuToLe 4 usbCdcNcmNth16Sign) ++
      host.order.store 2 (host.order.cpuToLe 2 nth16Size) ++
      (uncovered.drop 6).take 2 ++
      host.order.store 2 (host.order.cpuToLe 2 (skb.len + mbimHdrSize)) ++
      host.order.store 2 (host.order.cpuToLe 2 nth16Size) ++
      sign ++
      host.order.store 2 (host.order.cpuToLe 2 (ndp16Size + dpe16Size * 2)) ++
      host.order.store 2 0 ++
      -- the entries are not converted
      host.order.store 2 mbimHdrSize ++ host.order.store 2 skbLen ++
      host.order.store 2 0 ++ host.order.store 2 0))

end Host

/-! ### The frames and blocks of the other files are these -/

theorem store_cpuToBe_two (host : Host) (n : Nat) :
    host.order.store 2 (host.order.cpuToBe 2 n) = be16 n :=
  host.order.store_cpuToBe 2 n

theorem store_cpuToLe_two (host : Host) (n : Nat) :
    host.order.store 2 (host.order.cpuToLe 2 n) = le16Bytes n :=
  host.order.store_cpuToLe 2 n

theorem store_two (host : Host) (n : Nat) : host.order.store 2 n = raw16Bytes host n := by
  rcases host <;> rfl

theorem flags_eq_pack (host : Host) (pad : Nat) (nextHdr cdBit : Bool) :
    UInt8.ofNat (host.order.pack [(6, pad), (1, nextHdr.toNat), (1, cdBit.toNat)]) =
      RmnetMapHeader.flags host pad nextHdr cdBit := by
  have hnext := nextHdr.toNat_lt
  have hcd := cdBit.toNat_lt
  rcases host
  · refine congrArg UInt8.ofNat ?_
    show pad % 2 ^ 6 +
      2 ^ 6 * (nextHdr.toNat % 2 ^ 1 + 2 ^ 1 * (cdBit.toNat % 2 ^ 1 + 2 ^ 1 * 0)) = _
    omega
  · refine congrArg UInt8.ofNat ?_
    show cdBit.toNat % 2 ^ 1 +
      2 ^ 1 * (nextHdr.toNat % 2 ^ 1 + 2 ^ 1 * (pad % 2 ^ 6 + 2 ^ 6 * 0)) = _
    omega

theorem csumFlags_eq_pack (host : Host) (nextHdr : Bool) (headerType : Nat) :
    UInt8.ofNat (host.order.pack [(1, nextHdr.toNat), (7, headerType)]) =
      RmnetMapV5CsumHeader.flags host nextHdr headerType := by
  have hnext := nextHdr.toNat_lt
  rcases host
  · refine congrArg UInt8.ofNat ?_
    show nextHdr.toNat % 2 ^ 1 + 2 ^ 1 * (headerType % 2 ^ 7 + 2 ^ 7 * 0) = _
    omega
  · refine congrArg UInt8.ofNat ?_
    show headerType % 2 ^ 7 + 2 ^ 7 * (nextHdr.toNat % 2 ^ 1 + 2 ^ 1 * 0) = _
    omega

theorem Host.addQhdr_eq (host : Host) (skb : SkBuff) (muxId : UInt8) :
    host.addQhdr skb muxId = Mhi.addQhdr skb muxId := by
  simp only [Host.addQhdr, Nat.add_sub_cancel, store_cpuToBe_two]
  rfl

theorem Host.addQhdrV5_eq (host : Host) (skb : SkBuff) (muxId : UInt8) :
    host.addQhdrV5 skb muxId = Mhi.addQhdrV5 host skb muxId := by
  have hflags := flags_eq_pack host (padding skb) true false
  have hcsum := csumFlags_eq_pack host false RmnetMapV5CsumHeader.csumOffload
  have hrest : UInt8.ofNat (host.order.pack [(7, 0), (1, 0)]) :: host.order.store 2 0 =
      [0, 0, 0] := by
    rcases host <;> rfl
  rw [Bool.toNat_true, Bool.toNat_false] at hflags
  rw [Bool.toNat_false] at hcsum
  simp only [Host.addQhdrV5, store_cpuToBe_two, hflags, hcsum, List.append_assoc, List.cons_append,
    List.nil_append, hrest]
  rfl

theorem store_nth16Sign (host : Host) :
    host.order.store 4 (host.order.cpuToLe 4 usbCdcNcmNth16Sign) = nth16Sign := by
  rw [ByteOrder.store_cpuToLe]
  rfl

theorem store_ipsSign (host : Host) (tci : UInt8) :
    (host.order.store 4 (host.order.cpuToLe 4 usbCdcMbimNdp16IpsSign)).set 3 tci =
      ipsSign ++ [tci] := by
  rw [ByteOrder.store_cpuToLe]
  rfl

theorem Host.addMbimHdr_eq (host : Host) (qmapMode : Nat) (headroom : List UInt8) (skb : SkBuff)
    (muxId : UInt8) : host.addMbimHdr qmapMode headroom skb muxId =
      Mhi.addMbimHdr host qmapMode headroom skb muxId := by
  have hzero : raw16Bytes host 0 = le16Bytes 0 := by rcases host <;> rfl
  simp only [Host.addMbimHdr, Mhi.addMbimHdr, store_nth16Sign, store_ipsSign, store_cpuToLe_two]
  simp only [store_two, hzero, List.append_assoc]

/-! ### So are the fields that the handlers read -/

section Fields

variable (host : Host) (skb : SkBuff) (i : Nat) (b : UInt8)

theorem ntohs_eq_load (hi lo : UInt8) :
    host.order.cpuToBe 2 (host.order.load [hi, lo]) = ntohs hi lo := by
  refine (host.order.cpuToBe_load [hi, lo]).trans ?_
  show lo.toNat + 256 * (hi.toNat + 256 * 0) = hi.toNat * 256 + lo.toNat
  omega

theorem le16_eq_load :
    host.order.cpuToLe 2 (host.order.load [skb.byte i, skb.byte (i + 1)]) = skb.le16 i :=
  host.order.cpuToLe_load [skb.byte i, skb.byte (i + 1)]

theorem raw16_eq_load : host.order.load [skb.byte i, skb.byte (i + 1)] = skb.raw16 host i := by
  rcases host
  · rfl
  · show (skb.byte (i + 1)).toNat + 256 * ((skb.byte i).toNat + 256 * 0) =
      (skb.byte i).toNat * 256 + (skb.byte (i + 1)).toNat
    omega

theorem padLen_eq_field : RmnetMapHeader.padLen host b = host.order.field [6, 1, 1] 0 b.toNat := by
  have hlt := b.toNat_lt
  rcases host
  · show b.toNat % 64 = b.toNat / 2 ^ 0 % 2 ^ 6
    omega
  · show b.toNat / 4 = b.toNat / 2 ^ 2 % 2 ^ 6
    omega

theorem nextHdr_eq_field :
    (RmnetMapHeader.nextHdr host b).toNat = host.order.field [6, 1, 1] 1 b.toNat := by
  rcases host
  · exact Nat.toNat_testBit b.toNat 6
  · exact Nat.toNat_testBit b.toNat 1

theorem cdBit_eq_field :
    (RmnetMapHeader.cdBit host b).toNat = host.order.field [6, 1, 1] 2 b.toNat := by
  rcases host
  · exact Nat.toNat_testBit b.toNat 7
  · exact Nat.toNat_testBit b.toNat 0

end Fields

/-! ## What is sent -/

theorem flags_ne_of_pad : ∀ pad < 4,
    RmnetMapHeader.flags .little pad true false ≠ RmnetMapHeader.flags .big pad true false := by
  decide

/-- The first byte of a frame of version 9 is never the same. -/
theorem addQhdrV5_ne (skb : SkBuff) (muxId : UInt8) :
    (Host.little.addQhdrV5 skb muxId).data ≠ (Host.big.addQhdrV5 skb muxId).data := by
  rw [Host.addQhdrV5_eq, Host.addQhdrV5_eq]
  intro h
  exact flags_ne_of_pad _ (padding_lt skb) (List.cons.inj h).1

theorem addHeaders_same_iff (qmapVersion : Nat) (skb : SkBuff) (muxId : UInt8) :
    (Host.little.addHeaders qmapVersion skb muxId).map SkBuff.data =
        (Host.big.addHeaders qmapVersion skb muxId).map SkBuff.data ↔ qmapVersion ≠ 9 := by
  rw [Host.addHeaders, Host.addHeaders]
  by_cases h5 : qmapVersion = 5
  · rw [if_pos h5, if_pos h5, Host.addQhdr_eq, Host.addQhdr_eq]
    exact iff_of_true rfl (by omega)
  · rw [if_neg h5, if_neg h5]
    by_cases h9 : qmapVersion = 9
    · rw [if_pos h9, if_pos h9]
      exact iff_of_false (fun h ↦ addQhdrV5_ne skb muxId (Option.some.inj h)) (fun h ↦ h h9)
    · rw [if_neg h9, if_neg h9]
      exact iff_of_true rfl h9

/-- The offset of the datagram is never the same. -/
theorem addMbimHdr_same_iff (qmapMode : Nat) (headroom : List UInt8) (skb : SkBuff)
    (muxId : UInt8) :
    (Host.little.addMbimHdr qmapMode headroom skb muxId).map SkBuff.data =
        (Host.big.addMbimHdr qmapMode headroom skb muxId).map SkBuff.data ↔
      headroom.length < mbimHdrSize := by
  rw [Host.addMbimHdr_eq, Host.addMbimHdr_eq, addMbimHdr, addMbimHdr]
  by_cases hroom : headroom.length < mbimHdrSize
  · rw [if_pos hroom, if_pos hroom]
    exact iff_of_true rfl hroom
  · rw [if_neg hroom, if_neg hroom]
    refine iff_of_false (fun h ↦ ?_) hroom
    have hdata := Option.some.inj h
    simp only [SkBuff.push, List.append_assoc, List.append_cancel_left_eq] at hdata
    exact absurd (List.cons.inj hdata).1 (by decide)

/-! ## An aggregate that is received -/

/-- The handler returns and has delivered these packets. -/
def QmiDelivers (host : Host) (alloc : Nat → Bool) (dev : MhiNetdev) (skb : SkBuff)
    (packets : List Packet) : Prop :=
  ∃ fuel r, rmnetQmiRxHandler host alloc fuel dev skb = some r ∧ r.chain = packets

/-- Both hosts deliver the same. -/
def QmiSame (alloc : Nat → Bool) (dev : MhiNetdev) (skb : SkBuff) : Prop :=
  ∀ packets, QmiDelivers .little alloc dev skb packets ↔ QmiDelivers .big alloc dev skb packets

/-- The handler goes on behind the frame, and there is no packet in it. -/
def Front.Silent : Front → Prop
  | .free | .command => True
  | .unknown | .tooLong | .truncated | .notIp | .data _ _ => False

/-- Both hosts come to the same at the frame: its first byte reads the same, or both refuse the
frame, or both go on behind it without a packet and the size of its headers is the same. -/
def Alike (dev : MhiNetdev) (cur : SkBuff) : Prop :=
  (cur.byte 0 = 0x00 ∨ cur.byte 0 = 0xff) ∨
  (¬ (front .little dev cur).Passes ∧ ¬ (front .big dev cur).Passes) ∨
  ((front .little dev cur).Silent ∧ (front .big dev cur).Silent ∧
    RmnetMapHeader.nextHdr .little (cur.byte 0) = RmnetMapHeader.nextHdr .big (cur.byte 0))

/-- The buffers at whose front both hosts have the same frame, one frame that is alike after
another. -/
inductive CommonStart (dev : MhiNetdev) (skb : SkBuff) : SkBuff → Prop
  | first : CommonStart dev skb skb
  | next {cur : SkBuff} (h : CommonStart dev skb cur) (hlen : RmnetMapHeader.size < cur.len)
      (hpass : (front .little dev cur).Passes) (halike : Alike dev cur) :
      CommonStart dev skb (skipPkt .little cur)

/-- States that are the same but for the acknowledgements, which have a field in bits too. -/
structure SameRest (s t : RxState) : Prop where
  dev : t.dev = s.dev
  skbIn : t.skbIn = s.skbIn
  skbChain : t.skbChain = s.skbChain
  allocs : t.allocs = s.allocs

theorem SameRest.chain {s t : RxState} (h : SameRest s t) : t.chain = s.chain :=
  congrArg (List.map Buffer.packet) h.skbChain

variable {alloc : Nat → Bool} {dev : MhiNetdev} {skb cur : SkBuff}

section Alike

/-- The two bytes that read the same. -/
theorem fields_of_same {b : UInt8} (h : b = 0x00 ∨ b = 0xff) :
    RmnetMapHeader.padLen .little b = RmnetMapHeader.padLen .big b ∧
      RmnetMapHeader.nextHdr .little b = RmnetMapHeader.nextHdr .big b ∧
      RmnetMapHeader.cdBit .little b = RmnetMapHeader.cdBit .big b := by
  rcases h with rfl | rfl <;> decide

/-- If it is a command for neither of them, the padding reads the same in one byte only. -/
theorem padLen_ne : ∀ n < 256, n ≠ 0 →
    RmnetMapHeader.cdBit .little (UInt8.ofNat n) = false →
    RmnetMapHeader.cdBit .big (UInt8.ofNat n) = false →
    RmnetMapHeader.padLen .little (UInt8.ofNat n) ≠ RmnetMapHeader.padLen .big (UInt8.ofNat n) := by
  decide +kernel

theorem hdrSize_of_nextHdr
    (h : RmnetMapHeader.nextHdr .little (cur.byte 0) = RmnetMapHeader.nextHdr .big (cur.byte 0)) :
    hdrSize .little cur = hdrSize .big cur := by
  rw [hdrSize, hdrSize, h]

theorem skipPkt_of_nextHdr
    (h : RmnetMapHeader.nextHdr .little (cur.byte 0) = RmnetMapHeader.nextHdr .big (cur.byte 0)) :
    skipPkt .little cur = skipPkt .big cur := by
  rw [skipPkt, skipPkt, frameSize, frameSize, hdrSize_of_nextHdr h]

theorem skbLen_of_same (h : cur.byte 0 = 0x00 ∨ cur.byte 0 = 0xff) :
    skbLen .little dev cur = skbLen .big dev cur := by
  rw [skbLen, skbLen, framePad, framePad, (fields_of_same h).1]

theorem front_of_same (dev : MhiNetdev) (h : cur.byte 0 = 0x00 ∨ cur.byte 0 = 0xff) :
    front .little dev cur = front .big dev cur := by
  obtain ⟨-, hnext, hcd⟩ := fields_of_same h
  rw [front, front, skbLen_of_same h, frameSize, frameSize, hdrSize_of_nextHdr hnext, hcd]

theorem SameSettings.alike {dev' : MhiNetdev} (h : SameSettings dev dev') :
    Alike dev' cur ↔ Alike dev cur := by
  rw [Alike, Alike, h.front_eq, h.front_eq]

/-- Whether there is a child in the slot does not depend on the header. -/
theorem front_free_iff (host : Host) : front host dev cur = .free ↔
    toU32 (frameMuxId cur) < dev.qmapMode ∧ dev.mpQmapNetDev (frameMuxId cur).natAbs = none := by
  rw [front]
  by_cases hmode : dev.qmapMode ≤ toU32 (frameMuxId cur)
  · rw [if_pos hmode]
    exact iff_of_false (by simp) (fun h ↦ absurd h.1 (by omega))
  · rw [if_neg hmode]
    rcases dev.mpQmapNetDev (frameMuxId cur).natAbs with _ | c
    · exact iff_of_true rfl ⟨by omega, rfl⟩
    · refine iff_of_false (fun h ↦ ?_) (by simp)
      dsimp only at h
      split at h
      · exact absurd h (by simp)
      · split at h
        · exact absurd h (by simp)
        · split at h
          · exact absurd h (by simp)
          · split at h <;> exact absurd h (by simp)

/-- Frames without a packet are of one kind for both. -/
theorem front_of_silent (h : (front .little dev cur).Silent) (h' : (front .big dev cur).Silent) :
    front .little dev cur = front .big dev cur := by
  have hkind : ∀ {f : Front}, f.Silent → f = .free ∨ f = .command := by
    intro f hf
    rcases f with _ | _ | _ | _ | _ | _ | ⟨c, protocol⟩
    case free => exact .inl rfl
    case command => exact .inr rfl
    all_goals exact absurd hf id
  rcases hkind h with hl | hl <;> rcases hkind h' with hb | hb
  · rw [hl, hb]
  · have hfree := (front_free_iff .big).mpr ((front_free_iff .little).mp hl)
    exact absurd (hfree.symm.trans hb) (by simp)
  · have hfree := (front_free_iff .little).mpr ((front_free_iff .big).mp hb)
    exact absurd (hfree.symm.trans hl) (by simp)
  · rw [hl, hb]

theorem SameRest.exists_eq {s t : RxState} (h : SameRest s t) : ∃ sent, t = { s with sent } := by
  obtain ⟨hdev, hskbIn, hskbChain, hallocs⟩ := h
  refine ⟨t.sent, ?_⟩
  rw [← hdev, ← hskbIn, ← hskbChain, ← hallocs]

theorem sameRest_command (alloc : Nat → Bool) (s : RxState) (sent : List (List UInt8)) :
    SameRest (rxCommand .little alloc s) (rxCommand .big alloc { s with sent }) := by
  rw [rxCommand, rxCommand]
  rcases rmnetDataMapCommand s.dev s.skbIn with ⟨dev, _ | _⟩
  · exact ⟨rfl, rfl, rfl, rfl⟩
  · exact ⟨rfl, rfl, rfl, rfl⟩

theorem rxBody_of_not_passes {host : Host} {s : RxState}
    (h : ¬ (front host s.dev s.skbIn).Passes) : rxBody host alloc s = .stop s := by
  rw [rxBody_eq]
  revert h
  rcases front host s.dev s.skbIn with _ | _ | _ | _ | _ | _ | ⟨c, protocol⟩ <;> intro h
  case free | command | data => exact absurd trivial h
  all_goals rfl

/-- A frame without a packet that both hosts take for the same. -/
theorem rxBody_silent {s : RxState} (sent : List (List UInt8))
    (hf : front .little s.dev s.skbIn = front .big s.dev s.skbIn)
    (hsilent : (front .big s.dev s.skbIn).Silent)
    (hnext : RmnetMapHeader.nextHdr .little (s.skbIn.byte 0) =
      RmnetMapHeader.nextHdr .big (s.skbIn.byte 0)) :
    ∃ s' t', rxBody .little alloc s = .next s' ∧
      rxBody .big alloc { s with sent } = .next t' ∧ SameRest s' t' := by
  have hlittle := rxBody_eq .little alloc s
  have hbig := rxBody_eq .big alloc { s with sent }
  have hskip := skipPkt_of_nextHdr hnext
  dsimp only at hbig
  rw [hf] at hlittle
  revert hlittle hbig hsilent
  rcases front .big s.dev s.skbIn with _ | _ | _ | _ | _ | _ | ⟨c, protocol⟩ <;>
    intro hsilent hlittle hbig
  case free => exact ⟨_, _, hlittle, hbig, rfl, hskip.symm, rfl, rfl⟩
  case command =>
    have hcmd := sameRest_command alloc s sent
    exact ⟨_, _, hlittle, hbig, hcmd.dev, hskip.symm, hcmd.skbChain, hcmd.allocs⟩
  all_goals exact absurd hsilent id

/-- A packet that both hosts find at the same place. -/
theorem rxBody_packet {s : RxState} (sent : List (List UInt8)) {c : Child} {protocol : Protocol}
    (hsame : s.skbIn.byte 0 = 0x00 ∨ s.skbIn.byte 0 = 0xff)
    (hf : front .big s.dev s.skbIn = .data c protocol) :
    (∃ s' t', rxBody .little alloc s = .next s' ∧
      rxBody .big alloc { s with sent } = .next t' ∧ SameRest s' t') ∨
    ∃ s' t', rxBody .little alloc s = .stop s' ∧
      rxBody .big alloc { s with sent } = .stop t' ∧ SameRest s' t' := by
  have hnext := (fields_of_same hsame).2.1
  have hlittle := rxBody_eq .little alloc s
  have hbig := rxBody_eq .big alloc { s with sent }
  dsimp only at hbig
  rw [front_of_same s.dev hsame, hf] at hlittle
  rw [hf] at hbig
  dsimp only at hlittle hbig
  by_cases halloc : alloc s.allocs = true
  · rw [if_pos halloc] at hlittle hbig
    have hpacket : packetOf .big { s with sent } c protocol = packetOf .little s c protocol := by
      rw [packetOf, packetOf]
      dsimp only
      rw [hdrSize_of_nextHdr hnext, skbLen_of_same hsame]
    exact .inl ⟨_, _, hlittle, hbig, rfl, (skipPkt_of_nextHdr hnext).symm,
      congrArg (s.skbChain ++ [⟨s.allocs, ·⟩]) hpacket, rfl⟩
  · rw [if_neg halloc] at hlittle hbig
    exact .inr ⟨_, _, hlittle, hbig, rfl, rfl, rfl, rfl⟩

/-- **One iteration on each host**, at a frame that is alike. -/
theorem rxBody_alike (alloc : Nat → Bool) {s t : RxState} (h : SameRest s t)
    (halike : Alike s.dev s.skbIn) :
    (∃ s' t', rxBody .little alloc s = .next s' ∧ rxBody .big alloc t = .next t' ∧
      SameRest s' t') ∨
    ∃ s' t', rxBody .little alloc s = .stop s' ∧ rxBody .big alloc t = .stop t' ∧
      SameRest s' t' := by
  obtain ⟨sent, rfl⟩ := h.exists_eq
  have hrefuse : ¬ (front .little s.dev s.skbIn).Passes → ¬ (front .big s.dev s.skbIn).Passes →
      ∃ s' t', rxBody .little alloc s = .stop s' ∧ rxBody .big alloc { s with sent } = .stop t' ∧
        SameRest s' t' := fun hl hb ↦
    ⟨s, { s with sent }, rxBody_of_not_passes hl, rxBody_of_not_passes (s := { s with sent }) hb, h⟩
  rcases halike with hsame | ⟨hl, hb⟩ | ⟨hl, hb, hnext⟩
  · have hfront := front_of_same s.dev hsame
    have hnext := (fields_of_same hsame).2.1
    rcases hf : front .big s.dev s.skbIn with _ | _ | _ | _ | _ | _ | ⟨c, protocol⟩
    case free | command => exact .inl (rxBody_silent sent hfront (hf ▸ trivial) hnext)
    case data => exact rxBody_packet sent hsame hf
    all_goals exact .inr (hrefuse (by rw [hfront, hf]; exact id) (by rw [hf]; exact id))
  · exact .inr (hrefuse hl hb)
  · exact .inl (rxBody_silent sent (front_of_silent hl hb) hb hnext)

end Alike

/-- If all frames are alike, the hosts go in step. -/
theorem qmi_lockstep (alloc : Nat → Bool)
    (h : ∀ cur, CommonStart dev skb cur → RmnetMapHeader.size < cur.len → Alike dev cur)
    (fuel : Nat) :
    Option.Rel SameRest (rmnetQmiRxHandler .little alloc fuel dev skb)
      (rmnetQmiRxHandler .big alloc fuel dev skb) := by
  refine Loop.run_lockstep
    (R := fun s t ↦ CommonStart dev skb s.skbIn ∧ SameSettings dev s.dev ∧ SameRest s t)
    (fun _ _ hR ↦ hR.2.2) (fun s t hR ↦ by rw [rxCond, rxCond, hR.2.2.skbIn]) ?_
    ⟨.first, .refl dev, rfl, rfl, rfl, rfl⟩ fuel
  rintro s t ⟨hstart, hset, hrest⟩ hcond
  have hlen : RmnetMapHeader.size < s.skbIn.len := of_decide_eq_true hcond
  have halike := h _ hstart hlen
  rcases rxBody_alike alloc hrest (hset.alike.mpr halike) with ⟨s', t', hs, ht, hrest'⟩ | hstop
  · obtain ⟨-, hpass, hskb, hset'⟩ := iterates_cases ⟨hcond, hs⟩
    rw [hset.front_eq] at hpass
    exact .inl ⟨s', t', hs, ht, hskb ▸ .next hstart hlen hpass halike, hset.trans hset', hrest'⟩
  · exact .inr hstop

theorem qmiDelivers_iff {host : Host} {packets : List Packet} :
    QmiDelivers host alloc dev skb packets ↔
      ∃ fuel, (rmnetQmiRxHandler host alloc fuel dev skb).map RxState.chain = some packets := by
  simp only [QmiDelivers, Option.map_eq_some_iff]

/-- **If all frames are alike**, both hosts deliver the same. -/
theorem qmiSame_of_alike (alloc : Nat → Bool)
    (h : ∀ cur, CommonStart dev skb cur → RmnetMapHeader.size < cur.len → Alike dev cur) :
    QmiSame alloc dev skb := by
  have hchain : ∀ fuel, (rmnetQmiRxHandler .little alloc fuel dev skb).map RxState.chain =
      (rmnetQmiRxHandler .big alloc fuel dev skb).map RxState.chain := by
    intro fuel
    have hrel := qmi_lockstep alloc h fuel
    generalize rmnetQmiRxHandler .little alloc fuel dev skb = o at hrel ⊢
    generalize rmnetQmiRxHandler .big alloc fuel dev skb = o' at hrel ⊢
    cases hrel with
    | none => rfl
    | some hrest => exact congrArg some hrest.chain.symm
  intro packets
  simp only [qmiDelivers_iff, hchain]

/-! ### Frames that are not alike -/

/-- The other kind of host. -/
def Host.other : Host → Host
  | .little => .big
  | .big => .little

/-- With enough buffers, both hosts come to every common frame, and have the same packets by
then. -/
theorem CommonStart.visits (h : CommonStart dev skb cur) :
    ∃ s t, RxVisits .little (fun _ ↦ true) dev skb s ∧ RxVisits .big (fun _ ↦ true) dev skb t ∧
      SameRest s t ∧ s.skbIn = cur ∧ SameSettings dev s.dev := by
  induction h with
  | first => exact ⟨_, _, .refl, .refl, ⟨rfl, rfl, rfl, rfl⟩, rfl, .refl dev⟩
  | next _ hlen hpass halike ih =>
    obtain ⟨s, t, hs, ht, hrest, rfl, hset⟩ := ih
    rw [← hset.front_eq] at hpass
    obtain ⟨s', hiter⟩ := exists_iterates hlen hpass
    obtain ⟨-, -, hskb, hset'⟩ := iterates_cases hiter
    rcases rxBody_alike (fun _ ↦ true) hrest (hset.alike.mpr halike) with
      ⟨s'', t', hs', ht', hrest'⟩ | ⟨s'', t', hs', -, -⟩
    · obtain rfl := Loop.Exit.next.inj (hiter.2.symm.trans hs')
      have hcond : rxCond t = true := by
        have hcond := hiter.1
        rw [rxCond] at hcond ⊢
        rwa [hrest.skbIn]
      exact ⟨s', t', hs.tail hiter, ht.tail ⟨hcond, ht'⟩, hrest', hskb, hset.trans hset'⟩
    · exact absurd (hiter.2.symm.trans hs') (by simp)

/-- What is on the chain stays there. -/
theorem chain_prefix {host : Host} {s r : RxState} {fuel : Nat}
    (h : Loop.run rxCond (rxBody host alloc) fuel s = some r) : s.chain <+: r.chain := by
  have hacc := Loop.run_accumulates RxState.chain (fun t ↦ (rxPacket host alloc t).toList)
    (fun t t' _ hb ↦ rxBody_chain (.inl hb)) (fun t t' _ hb ↦ rxBody_chain (.inr hb)) h
  rw [hacc]
  exact List.prefix_append _ _

/-- The packet in a frame that the handler comes to is delivered after those before it. -/
theorem QmiDelivers.of_data {host : Host} {s : RxState} {c : Child} {protocol : Protocol}
    {packets : List Packet} (h : QmiDelivers host (fun _ ↦ true) dev skb packets)
    (hs : RxVisits host (fun _ ↦ true) dev skb s) (hlen : RmnetMapHeader.size < s.skbIn.len)
    (hf : front host s.dev s.skbIn = .data c protocol) :
    s.chain ++ [packetOf host s c protocol] <+: packets := by
  obtain ⟨fuel, r, hr, rfl⟩ := h
  have hbody := rxBody_eq host (fun _ ↦ true) s
  rw [hf] at hbody
  have hiter : Loop.Iterates rxCond (rxBody host fun _ ↦ true) s (afterData host s c protocol) :=
    ⟨decide_eq_true hlen, hbody.trans (if_pos rfl)⟩
  obtain ⟨fuel', hr'⟩ := (Loop.Visits.exists_run_iff (hs.tail hiter)).mp ⟨fuel, hr⟩
  rw [← afterData_chain]
  exact chain_prefix hr'

/-- A frame that is refused is the end. -/
theorem qmiDelivers_of_refused {host : Host} {s : RxState}
    (hs : RxVisits host (fun _ ↦ true) dev skb s) (hlen : RmnetMapHeader.size < s.skbIn.len)
    (hf : ¬ (front host s.dev s.skbIn).Passes) :
    QmiDelivers host (fun _ ↦ true) dev skb s.chain := by
  have hcond : rxCond s = true := decide_eq_true hlen
  obtain ⟨fuel, hr⟩ := (Loop.Visits.exists_run_iff hs).mpr
    ⟨1, Loop.run_stop hcond (rxBody_of_not_passes hf) 0⟩
  exact ⟨fuel, s, hr, rfl⟩

theorem padLen_other_ne {host : Host} {b : UInt8} (hb : b ≠ 0x00)
    (hcd : RmnetMapHeader.cdBit host b = false)
    (hcd' : RmnetMapHeader.cdBit host.other b = false) :
    RmnetMapHeader.padLen host b ≠ RmnetMapHeader.padLen host.other b := by
  have hne := padLen_ne b.toNat b.toNat_lt fun h ↦ hb (UInt8.toNat_inj.mp h)
  rw [UInt8.ofNat_toNat] at hne
  rcases host
  · exact hne hcd hcd'
  · exact (hne hcd' hcd).symm

theorem cdBit_of_data {host : Host} {c : Child} {protocol : Protocol}
    (h : front host dev cur = .data c protocol) :
    RmnetMapHeader.cdBit host (cur.byte 0) = false := by
  obtain ⟨-, c', -, -, -, heq⟩ := front_complete (h ▸ trivial : (front host dev cur).Complete)
  rw [h] at heq
  split at heq
  · exact absurd heq (by simp)
  · rename_i hcd
    exact Bool.eq_false_iff.mpr hcd

/-- Two packets of one frame, with another padding, have different lengths. -/
theorem skbLen_other_ne {host : Host} {c c' : Child} {protocol protocol' : Protocol}
    (hb : cur.byte 0 ≠ 0x00) (h : front host dev cur = .data c protocol)
    (h' : front host.other dev cur = .data c' protocol') :
    skbLen host dev cur ≠ skbLen host.other dev cur := by
  have hpad := padLen_other_ne hb (cdBit_of_data h) (cdBit_of_data h')
  have hlt := framePad_lt host cur
  have hlt' := framePad_lt host.other cur
  rw [framePad] at hlt hlt'
  rw [skbLen, skbLen, framePad, framePad, toU32, toU32]
  omega

/-- **If a frame is not alike** and there is a packet in it for one of the hosts, what they deliver
is not the same, unless the other one takes the frame for a command. -/
theorem not_same_of_data {host : Host} {s t : RxState} {c : Child} {protocol : Protocol}
    (hs : RxVisits host (fun _ ↦ true) dev skb s)
    (ht : RxVisits host.other (fun _ ↦ true) dev skb t) (hdev : t.dev = s.dev)
    (hskb : t.skbIn = s.skbIn) (hchain : t.chain = s.chain)
    (hlen : RmnetMapHeader.size < s.skbIn.len) (hb : s.skbIn.byte 0 ≠ 0x00)
    (hf : front host s.dev s.skbIn = .data c protocol)
    (hcommand : front host.other s.dev s.skbIn ≠ .command)
    (hends : ∃ packets, QmiDelivers host (fun _ ↦ true) dev skb packets) :
    ¬ ∀ packets, QmiDelivers host (fun _ ↦ true) dev skb packets ↔
      QmiDelivers host.other (fun _ ↦ true) dev skb packets := by
  intro hsame
  obtain ⟨hmode, c', hc', -⟩ := front_complete (hf ▸ trivial : (front host s.dev s.skbIn).Complete)
  have hfree : front host.other s.dev s.skbIn ≠ .free := by
    rw [Ne, front_free_iff, hc']
    simp
  have hlen' : RmnetMapHeader.size < t.skbIn.len := by rwa [hskb]
  by_cases hpass : (front host.other s.dev s.skbIn).Passes
  · -- both find a packet, of different lengths
    rcases hf' : front host.other s.dev s.skbIn with _ | _ | _ | _ | _ | _ | ⟨c'', protocol'⟩
    case data =>
      obtain ⟨packets, hpackets⟩ := hends
      obtain ⟨l, hl⟩ := hpackets.of_data hs hlen hf
      obtain ⟨l', hl'⟩ := ((hsame packets).mp hpackets).of_data ht hlen'
        (by rw [hdev, hskb]; exact hf')
      rw [← hl, hchain, List.append_assoc, List.append_assoc, List.append_cancel_left_eq] at hl'
      have hdata := congrArg (fun p : Packet ↦ p.data.length) (List.cons.inj hl').1
      simp only [packetOf, SkBuff.slice, List.length_map, List.length_range, hdev, hskb] at hdata
      exact skbLen_other_ne hb hf hf' hdata.symm
    case free => exact hfree hf'
    case command => exact hcommand hf'
    all_goals
      rw [hf'] at hpass
      exact hpass
  · have hstop := qmiDelivers_of_refused ht hlen' (by rwa [hdev, hskb])
    obtain ⟨l, hl⟩ := ((hsame _).mpr hstop).of_data hs hlen hf
    have hcount := congrArg List.length hl
    rw [List.length_append, List.length_append, hchain, List.length_singleton] at hcount
    omega

theorem command_of_data (hsame : QmiSame (fun _ ↦ true) dev skb)
    (hends : ∃ packets, QmiDelivers .little (fun _ ↦ true) dev skb packets)
    (hcur : CommonStart dev skb cur) (hlen : RmnetMapHeader.size < cur.len)
    (halike : ¬ Alike dev cur) {host : Host} {c : Child} {protocol : Protocol}
    (hf : front host dev cur = .data c protocol) : front host.other dev cur = .command := by
  obtain ⟨s, t, hs, ht, hrest, rfl, hset⟩ := hcur.visits
  have hb : s.skbIn.byte 0 ≠ 0x00 := fun hb ↦ halike (.inl (.inl hb))
  by_contra hcommand
  rw [← hset.front_eq] at hf hcommand
  rcases host
  · exact not_same_of_data hs ht hrest.dev hrest.skbIn hrest.chain hlen hb hf hcommand hends hsame
  · obtain ⟨packets, hpackets⟩ := hends
    rw [← hrest.dev, ← hrest.skbIn] at hf hcommand
    rw [← hrest.skbIn] at hlen hb
    exact not_same_of_data ht hs hrest.dev.symm hrest.skbIn.symm hrest.chain.symm hlen hb hf
      hcommand ⟨packets, (hsame packets).mp hpackets⟩ fun packets ↦ (hsame packets).symm

/-! ## A block that is received -/

/-- The handler returns and has delivered these packets. -/
def MbimDelivers (host : Host) (alloc : Nat → Bool) (dev : MbimNetdev) (skb : SkBuff)
    (packets : List Packet) : Prop :=
  ∃ fuel r, rmnetMbimRxHandler host alloc fuel dev skb = some r ∧ r.oops = false ∧
    r.delivered.map Buffer.packet = packets

/-- Both hosts deliver the same. -/
def MbimSame (alloc : Nat → Bool) (dev : MbimNetdev) (skb : SkBuff) : Prop :=
  ∀ packets, MbimDelivers .little alloc dev skb packets ↔ MbimDelivers .big alloc dev skb packets

/-- There is an NDP for a session of the device at the offset. -/
def NdpAt (dev : MbimNetdev) (skb : SkBuff) (off : Nat) : Prop :=
  ∃ slot n, ndp dev skb off = .table slot n

/-- Its table begins with a packet, and there is a child for it. -/
def PacketAt (dev : MbimNetdev) (skb : SkBuff) (off : Nat) : Prop :=
  ∃ slot n protocol c, ndp dev skb off = .table slot (n + 1) ∧
    entry skb (off + ndp16Size) = .packet protocol ∧ dev.mpQmapNetDev slot = some c

section Mbim

variable {dev : MbimNetdev}

theorem raw16_of_same (h : skb.byte 10 = skb.byte 11) :
    skb.raw16 .little 10 = skb.raw16 .big 10 := by
  simp only [SkBuff.raw16, SkBuff.le16, ntohs, Nat.reduceAdd, h]
  omega

theorem raw16_pos_iff (host : Host) : 0 < skb.raw16 host 10 ↔ 0 < skb.raw16 host.other 10 := by
  rcases host <;> simp only [Host.other, SkBuff.raw16, SkBuff.le16, ntohs] <;> omega

/-- Nothing else of the header depends on the host. -/
theorem mbimHandler_of_same (alloc : Nat → Bool) (fuel : Nat) (dev : MbimNetdev)
    (h : HeaderOk skb → skb.byte 10 = skb.byte 11) :
    rmnetMbimRxHandler .little alloc fuel dev skb = rmnetMbimRxHandler .big alloc fuel dev skb := by
  have hheader : mbimHeader .little dev skb = mbimHeader .big dev skb := by
    by_cases hok : HeaderOk skb
    · rw [mbimHeader_of_ok hok, mbimHeader_of_ok hok, mbimFirst, mbimFirst, raw16_of_same (h hok)]
    · simp only [mbimHeader]
      split
      · rfl
      · split
        · rfl
        · split
          · rfl
          · rename_i hlen hsign hmax
            exact absurd ⟨by omega, not_not.mp hsign, by omega⟩ hok
  rw [rmnetMbimRxHandler, rmnetMbimRxHandler, hheader]

/-- Without an NDP at the first offset, nothing is delivered. -/
theorem mbimDelivers_of_not_ndpAt {host : Host} (alloc : Nat → Bool) (hok : HeaderOk skb)
    (hpos : 0 < skb.raw16 host 10) (h : ¬ NdpAt dev skb (skb.raw16 host 10))
    (packets : List Packet) : MbimDelivers host alloc dev skb packets ↔ packets = [] := by
  have hcond : mbimCond (mbimFirst host dev skb) = true := decide_eq_true hpos
  obtain ⟨r, hstop, hoops, hnone⟩ : ∃ r, mbimBody alloc skb (mbimFirst host dev skb) = .stop r ∧
      r.oops = false ∧ r.delivered = [] := by
    have hndp : ∀ slot n, ndp (mbimFirst host dev skb).dev skb (skb.raw16 host 10) ≠
        .table slot n := fun slot n hn ↦ h ⟨slot, n, hn⟩
    rw [mbimBody]
    dsimp only [mbimFirst] at hndp ⊢
    rcases hn : ndp { dev with rxSeq := UInt16.ofNat (skb.le16 6) + 1 } skb (skb.raw16 host 10) with
      _ | _ | _ | _ | ⟨slot, n⟩
    case table => exact absurd hn (hndp slot n)
    all_goals exact ⟨_, rfl, rfl, rfl⟩
  have hrun : ∀ fuel, rmnetMbimRxHandler host alloc fuel dev skb =
      Loop.run mbimCond (mbimBody alloc skb) fuel (mbimFirst host dev skb) := by
    intro fuel
    rw [rmnetMbimRxHandler, mbimHeader_of_ok hok]
  refine ⟨?_, ?_⟩
  · rintro ⟨fuel, r', hr', -, rfl⟩
    rw [hrun] at hr'
    rw [Loop.run_unique hr' (Loop.run_stop hcond hstop 0), hnone]
    rfl
  · rintro rfl
    refine ⟨1, r, ?_, hoops, by rw [hnone]; rfl⟩
    rw [hrun]
    exact Loop.run_stop hcond hstop 0

/-- **If the offset of the first NDP reads the same**, or leads to none on either host, both deliver
the same. -/
theorem mbimSame_of_alike (alloc : Nat → Bool) (h : HeaderOk skb → skb.byte 10 = skb.byte 11 ∨
      ¬ NdpAt dev skb (skb.raw16 .little 10) ∧ ¬ NdpAt dev skb (skb.raw16 .big 10)) :
    MbimSame alloc dev skb := by
  by_cases hsame : HeaderOk skb → skb.byte 10 = skb.byte 11
  · intro packets
    simp only [MbimDelivers, mbimHandler_of_same alloc _ dev hsame]
  · obtain ⟨hok, hne⟩ := Classical.not_imp.mp hsame
    have hpos : 0 < skb.raw16 .little 10 := by
      refine Nat.pos_of_ne_zero fun hzero ↦ hne (UInt8.toNat_inj.mp ?_)
      simp only [SkBuff.raw16, SkBuff.le16, Nat.reduceAdd] at hzero
      omega
    have hpos' : 0 < skb.raw16 .big 10 := (raw16_pos_iff .little).mp hpos
    obtain ⟨hl, hb⟩ := (h hok).resolve_left hne
    intro packets
    rw [mbimDelivers_of_not_ndpAt alloc hok hpos hl,
      mbimDelivers_of_not_ndpAt alloc hok hpos' hb]

/-! ### Blocks with another offset -/

/-- What is on the chain stays there. -/
theorem mbimDatagrams_prefix (alloc : Nat → Bool) (skb : SkBuff) (slot n p : Nat) (s : MbimState) :
    s.chain <+: (mbimDatagrams alloc skb slot n p s).state.chain := by
  induction n generalizing p s with
  | zero => exact List.prefix_refl _
  | succ n ih =>
    rw [mbimDatagrams_succ]
    rcases entry skb p with _ | _ | _ | protocol <;> dsimp only
    case last | invalid => exact List.prefix_refl _
    case notIp => split <;> exact List.prefix_refl _
    case packet =>
      split
      · split
        · exact List.prefix_refl _
        · rename_i c _
          have hqueued : s.chain <+: (queued skb slot p protocol c s).chain :=
            List.prefix_append _ _
          exact hqueued.trans (ih _ _)
      · exact List.prefix_refl _

/-- Behind its table, an NDP puts nothing on the chain. -/
theorem mbimBody_chain {s : MbimState} {slot n : Nat}
    (h : ndp s.dev skb s.ndpoffset = .table slot n) :
    (mbimBody alloc skb s).state.chain =
      (mbimDatagrams alloc skb slot n (s.ndpoffset + ndp16Size) (s.lookUp slot)).state.chain := by
  rw [mbimBody, h]
  dsimp only
  split
  · rename_i hd
    rw [hd]
  · rename_i hd
    rw [hd]
    rfl

theorem mbimBody_prefix (alloc : Nat → Bool) (skb : SkBuff) (s : MbimState) :
    s.chain <+: (mbimBody alloc skb s).state.chain := by
  rcases hn : ndp s.dev skb s.ndpoffset with _ | _ | _ | _ | ⟨slot, n⟩
  case table =>
    rw [mbimBody_chain hn]
    exact mbimDatagrams_prefix alloc skb slot n (s.ndpoffset + ndp16Size) (s.lookUp slot)
  all_goals
    rw [mbimBody, hn]
    exact List.prefix_refl _

/-- The first packet of a block is delivered, or the handler does not return. -/
theorem mbimDelivers_ne_nil {host : Host} {packets : List Packet} (hok : HeaderOk skb)
    (hpos : 0 < skb.raw16 host 10) (h : PacketAt dev skb (skb.raw16 host 10))
    (hd : MbimDelivers host (fun _ ↦ true) dev skb packets) : packets ≠ [] := by
  obtain ⟨slot, n, protocol, c, hndp, hentry, hc⟩ := h
  obtain ⟨fuel, r, hr, hoops, rfl⟩ := hd
  rw [rmnetMbimRxHandler, mbimHeader_of_ok hok] at hr
  have hcond : mbimCond (mbimFirst host dev skb) = true := decide_eq_true hpos
  have hne : r.chain ≠ [] := by
    refine Loop.run_invariant_of_first (I := fun s ↦ s.chain ≠ []) (fun s _ hs ↦ ?_) hcond ?_ hr
    · intro hnil
      have hprefix := mbimBody_prefix (fun _ ↦ true) skb s
      rw [hnil] at hprefix
      exact hs (List.prefix_nil.mp hprefix)
    · have htable : ndp (mbimFirst host dev skb).dev skb (mbimFirst host dev skb).ndpoffset =
          .table slot (n + 1) := hndp
      have hchild : ((mbimFirst host dev skb).lookUp slot).dev.mpQmapNetDev slot = some c := hc
      rw [mbimBody_chain htable, mbimDatagrams_succ,
        show (mbimFirst host dev skb).ndpoffset = skb.raw16 host 10 from rfl, hentry]
      dsimp only
      rw [if_pos rfl, hchild]
      dsimp only
      have hprefix := mbimDatagrams_prefix (fun _ ↦ true) skb slot n
        (skb.raw16 host 10 + ndp16Size + dpe16Size)
        (queued skb slot (skb.raw16 host 10 + ndp16Size) protocol c
          ((mbimFirst host dev skb).lookUp slot))
      intro hnil
      exact absurd (List.prefix_nil.mp (hnil ▸ hprefix)) (by simp [queued])
  rw [MbimState.delivered, hoops]
  simpa using hne

/-- **If the offset reads differently** and leads one of the hosts to a packet, what they deliver is
not the same, unless it leads the other one to an NDP too. -/
theorem ndpAt_of_packetAt (hsame : MbimSame (fun _ ↦ true) dev skb) (hok : HeaderOk skb)
    {host : Host} (hpos : 0 < skb.raw16 host 10) (h : PacketAt dev skb (skb.raw16 host 10)) :
    NdpAt dev skb (skb.raw16 host.other 10) := by
  by_contra hnone
  have hnil := (mbimDelivers_of_not_ndpAt (fun _ ↦ true) hok ((raw16_pos_iff host).mp hpos) hnone
    []).mpr rfl
  refine mbimDelivers_ne_nil hok hpos h ?_ rfl
  rcases host
  · exact (hsame []).mpr hnil
  · exact (hsame []).mp hnil

end Mbim

/-! ## Both directions -/

/-- **The wire and the host.**  What is sent is the same on both kinds of hosts if and only if it is
not a frame of version 9, and not a block.  What is received is delivered as the same packets if
every frame of the aggregate is alike, or if the offset of the first NDP reads the same or leads to
none.  Conversely, the first frame that is not alike is delivered by no host unless the other one
takes it for a command, and an offset that reads differently leads no host to a packet unless it
leads the other one to an NDP. -/
theorem wireFormat_same (qmapVersion qmapMode : Nat) (headroom : List UInt8) (skb : SkBuff)
    (muxId : UInt8) (dev : MhiNetdev) (aggregate : SkBuff) (mbimDev : MbimNetdev) (ntb : SkBuff) :
    ((Host.little.addHeaders qmapVersion skb muxId).map SkBuff.data =
        (Host.big.addHeaders qmapVersion skb muxId).map SkBuff.data ↔ qmapVersion ≠ 9) ∧
    ((Host.little.addMbimHdr qmapMode headroom skb muxId).map SkBuff.data =
        (Host.big.addMbimHdr qmapMode headroom skb muxId).map SkBuff.data ↔
      headroom.length < mbimHdrSize) ∧
    (((∀ cur, CommonStart dev aggregate cur → RmnetMapHeader.size < cur.len → Alike dev cur) →
        ∀ alloc, QmiSame alloc dev aggregate) ∧
      (QmiSame (fun _ ↦ true) dev aggregate →
        (∃ packets, QmiDelivers .little (fun _ ↦ true) dev aggregate packets) →
        ∀ cur, CommonStart dev aggregate cur → RmnetMapHeader.size < cur.len → ¬ Alike dev cur →
        ∀ host c protocol, front host dev cur = .data c protocol →
          front host.other dev cur = .command)) ∧
    (((HeaderOk ntb → ntb.byte 10 = ntb.byte 11 ∨
          ¬ NdpAt mbimDev ntb (ntb.raw16 .little 10) ∧ ¬ NdpAt mbimDev ntb (ntb.raw16 .big 10)) →
        ∀ alloc, MbimSame alloc mbimDev ntb) ∧
      (MbimSame (fun _ ↦ true) mbimDev ntb → HeaderOk ntb → ∀ host, 0 < ntb.raw16 host 10 →
        PacketAt mbimDev ntb (ntb.raw16 host 10) →
          NdpAt mbimDev ntb (ntb.raw16 host.other 10))) := by
  refine ⟨addHeaders_same_iff qmapVersion skb muxId, addMbimHdr_same_iff qmapMode headroom skb muxId,
    ⟨fun h alloc ↦ ?_, ?_⟩, fun h alloc ↦ ?_, ?_⟩
  · exact qmiSame_of_alike alloc h
  · intro hsame hends cur hcur hlen halike host c protocol hf
    exact command_of_data hsame hends hcur hlen halike hf
  · exact mbimSame_of_alike alloc h
  · intro hsame hok host hpos hpacket
    exact ndpAt_of_packetAt hsame hok hpos hpacket

/-- A frame without padding and checksum header. -/
def plainFrame : SkBuff := ⟨[0x00, 0x82, 0, 2, 0x45, 1], [9]⟩

/-- Another one, with padding. -/
def paddedFrame : SkBuff := ⟨[0x03, 0x82, 0, 4, 0x45, 7, 7, 7], []⟩

/-- A block with one datagram. -/
def datagramBlock : SkBuff where
  data := [0x4e, 0x43, 0x4d, 0x48, 0x0c, 0, 0, 0, 0x1d, 0, 0x0c, 0,
    0x49, 0x50, 0x53, 0, 0x10, 0, 0, 0, 0x1c, 0, 1, 0, 0, 0, 0, 0, 0x45]

/-- A frame without padding is a packet on both hosts. -/
theorem wireFormat_same_plain :
    (∃ packets, QmiDelivers .little (fun _ ↦ true) twoChannels plainFrame packets ∧
      QmiDelivers .big (fun _ ↦ true) twoChannels plainFrame packets ∧ packets.length = 1) ∧
    (Host.little.addHeaders 5 plainFrame 0x81).map SkBuff.data =
      (Host.big.addHeaders 5 plainFrame 0x81).map SkBuff.data := by
  have hcommon : ∀ cur, CommonStart twoChannels plainFrame cur →
      cur = plainFrame ∨ cur.len = 0 := by
    intro cur hcur
    induction hcur with
    | first => exact .inl rfl
    | next _ hlen _ _ ih =>
      rcases ih with rfl | hzero
      · exact .inr (by decide)
      · omega
  have halike : ∀ cur, CommonStart twoChannels plainFrame cur → RmnetMapHeader.size < cur.len →
      Alike twoChannels cur := by
    intro cur hcur hlen
    rcases hcommon cur hcur with rfl | hzero
    · exact .inl (.inl (by decide))
    · omega
  obtain ⟨hsent, -, ⟨hreceived, -⟩, -⟩ := wireFormat_same 5 1 [] plainFrame 0x81 twoChannels
    plainFrame oneSession datagramBlock
  have hsame := hreceived halike fun _ ↦ true
  have hf : front .little twoChannels plainFrame =
      .data { mtu := 1500, mtu_le := by decide } .ip := by decide
  have hbody := rxBody_eq .little (fun _ ↦ true) { dev := twoChannels, skbIn := plainFrame }
  rw [hf] at hbody
  have hcond : rxCond { dev := twoChannels, skbIn := plainFrame } = true := by decide
  have hrun := (Loop.run_next hcond (hbody.trans (if_pos rfl)) 0).trans
    (Loop.run_done (by decide) 0)
  have hlittle : QmiDelivers .little (fun _ ↦ true) twoChannels plainFrame _ := ⟨1, _, hrun, rfl⟩
  exact ⟨⟨_, hlittle, (hsame _).mp hlittle, rfl⟩, hsent.mpr (by decide)⟩

/-- A short datagram is not sent the same, and neither a padded frame nor a block is received the
same. -/
theorem wireFormat_depends :
    (Host.little.addHeaders 9 ⟨[0x45], []⟩ 0x81).map SkBuff.data ≠
      (Host.big.addHeaders 9 ⟨[0x45], []⟩ 0x81).map SkBuff.data ∧
    (Host.little.addMbimHdr 1 (List.replicate 28 0) ⟨[0x45], []⟩ 0).map SkBuff.data ≠
      (Host.big.addMbimHdr 1 (List.replicate 28 0) ⟨[0x45], []⟩ 0).map SkBuff.data ∧
    ¬ QmiSame (fun _ ↦ true) twoChannels paddedFrame ∧
    ¬ MbimSame (fun _ ↦ true) oneSession datagramBlock := by
  refine ⟨by decide, by decide, fun h ↦ ?_, fun h ↦ ?_⟩
  · have hlittle : front .little twoChannels paddedFrame =
        .data { mtu := 1500, mtu_le := by decide } .ip := by decide
    have hbig : front .big twoChannels paddedFrame = .truncated := by decide
    have hnone : QmiDelivers .big (fun _ ↦ true) twoChannels paddedFrame [] :=
      qmiDelivers_of_refused .refl (by decide) (by rw [hbig]; exact id)
    have hfirst := ((h []).mpr hnone).of_data .refl (by decide) hlittle
    exact absurd (List.prefix_nil.mp hfirst) (by simp)
  · have hok : HeaderOk datagramBlock := ⟨by decide, by decide, by decide⟩
    have hpacket : PacketAt oneSession datagramBlock (datagramBlock.raw16 .little 10) :=
      ⟨0, 1, .ip, {}, by decide, by decide, rfl⟩
    have hbig : ndp oneSession datagramBlock (datagramBlock.raw16 .big 10) = .outside := by decide
    obtain ⟨slot, n, hn⟩ := ndpAt_of_packetAt h hok (by decide) hpacket
    exact absurd (hbig.symm.trans hn) (by simp)

end OpenwrtFeed.Mhi
