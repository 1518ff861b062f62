import OpenwrtFeed.Mhi.Ntb

/-!
# An MBIM block and back

`add_mbim_hdr` of `mhi_netdev_quectel.c` makes a block of one datagram: header, NDP and a table of
two entries, the second of which ends it, are put in front of it.  The session in the NDP is derived
from the mux id that the child got when it was registered, which counts from the base of the
sessions, and with several channels it is one more; `rmnet_mbim_rx_handler` goes the other way.

`mbim_delivers_tx` says that the two agree: a block that is received back is delivered to the child
it came from, as it was.
-/

set_option autoImplicit false

namespace OpenwrtFeed.Mhi

/-! ## Adding the header -/

/-- The two bytes of a 16-bit value in little-endian order. -/
def le16Bytes (n : Nat) : List UInt8 := [UInt8.ofNat n, UInt8.ofNat (n / 256)]

/-- The two bytes of a 16-bit field that is assigned as it is, without `cpu_to_le16`. -/
def raw16Bytes (host : Host) (n : Nat) : List UInt8 :=
  match host with
  | .little => le16Bytes n
  | .big => be16 n

/-- `sizeof(struct mhi_mbim_hdr)`: header, NDP and two entries. -/
def mbimHdrSize : Nat := nth16Size + ndp16Size + 2 * dpe16Size

/-- `mhi_netdev->max_mtu` of an MBIM device. -/
def mbimMaxMtu : Nat := rxMax - mbimHdrSize

/-- `add_mbim_hdr`.  The sequence number is not written, so it is what the headroom held there. -/
def addMbimHdr (host : Host) (qmapMode : Nat) (headroom : List UInt8) (skb : SkBuff)
    (muxId : UInt8) :
    Option SkBuff :=
  let tci := if 1 < qmapMode then muxId.toNat + 1 else muxId.toNat
  if headroom.length < mbimHdrSize then none
  else
    let uncovered := headroom.drop (headroom.length - mbimHdrSize)
    let len := skb.len + mbimHdrSize
    some (skb.push (
      -- `nth16`
      nth16Sign ++ le16Bytes nth16Size ++ (uncovered.drop 6).take 2 ++ le16Bytes len ++
        le16Bytes nth16Size ++
      -- `ndp16`
      ipsSign ++ [UInt8.ofNat tci] ++ le16Bytes (ndp16Size + dpe16Size * 2) ++ le16Bytes 0 ++
      -- `dpe16[0]` and `dpe16[1]`
      raw16Bytes host mbimHdrSize ++ raw16Bytes host skb.len ++ raw16Bytes host 0 ++
        raw16Bytes host 0))

/-! ## Reading it back -/

/-- The block of a datagram of `n` bytes, up to the datagram; `a` and `b` are the sequence
number. -/
def blockHeader (a b tci : UInt8) (n : Nat) : List UInt8 :=
  [0x4e, 0x43, 0x4d, 0x48, 12, 0, a, b, UInt8.ofNat (n + 28), UInt8.ofNat ((n + 28) / 256), 12, 0,
    0x49, 0x50, 0x53, tci, 16, 0, 0, 0,
    28, 0, UInt8.ofNat n, UInt8.ofNat (n / 256), 0, 0, 0, 0]

/-- On a little-endian host that is the header which is added. -/
theorem addMbimHdr_eq (qmapMode : Nat) {headroom : List UInt8} (skb : SkBuff) (muxId : UInt8)
    (hroom : mbimHdrSize ≤ headroom.length) :
    ∃ a b, addMbimHdr .little qmapMode headroom skb muxId = some (skb.push (blockHeader a b
      (UInt8.ofNat (if 1 < qmapMode then muxId.toNat + 1 else muxId.toNat)) skb.len)) := by
  have hlen : ((headroom.drop (headroom.length - mbimHdrSize)).drop 6).length = 22 := by
    rw [List.length_drop, List.length_drop]
    simp only [mbimHdrSize, nth16Size, ndp16Size, dpe16Size] at hroom ⊢
    omega
  obtain ⟨a, b, rest, hseq⟩ : ∃ a b rest,
      (headroom.drop (headroom.length - mbimHdrSize)).drop 6 = a :: b :: rest := by
    rcases h : (headroom.drop (headroom.length - mbimHdrSize)).drop 6 with _ | ⟨a, _ | ⟨b, rest⟩⟩
    · rw [h] at hlen
      exact absurd hlen (by simp)
    · rw [h] at hlen
      exact absurd hlen (by simp)
    · exact ⟨a, b, rest, rfl⟩
  refine ⟨a, b, ?_⟩
  rw [addMbimHdr, if_neg (by omega)]
  dsimp only
  rw [hseq]
  rfl

section Block

variable {blk : SkBuff} {a b tci : UInt8} {d : List UInt8}

theorem byte_header (hblk : blk.data = blockHeader a b tci d.length ++ d) {k : Nat} (hk : k < 28) :
    blk.byte k = (blockHeader a b tci d.length).getD k 0 :=
  byte_of_data hblk hk

theorem len_block (hblk : blk.data = blockHeader a b tci d.length ++ d) :
    blk.len = 28 + d.length := by
  rw [SkBuff.len, hblk, List.length_append]
  rfl

/-- Reading back a 16-bit field. -/
theorem le16_ofNat {n k : Nat} (hn : n < 65536) (h₀ : blk.byte k = UInt8.ofNat n)
    (h₁ : blk.byte (k + 1) = UInt8.ofNat (n / 256)) : blk.le16 k = n := by
  rw [SkBuff.le16, h₀, h₁, UInt8.toNat_ofNat', UInt8.toNat_ofNat']
  omega

theorem headerOk_block (hblk : blk.data = blockHeader a b tci d.length ++ d)
    (hle : d.length ≤ mbimMaxMtu) : HeaderOk blk := by
  have hmax : d.length + 28 ≤ rxMax := by
    simp only [mbimMaxMtu, rxMax, mbimHdrSize, nth16Size, ndp16Size, dpe16Size] at hle ⊢
    omega
  have hlen : blk.le16 8 = d.length + 28 := by
    refine le16_ofNat ?_ (byte_header hblk (by decide)) (byte_header hblk (by decide))
    rw [rxMax] at hmax
    omega
  refine ⟨?_, ?_, by rwa [hlen]⟩
  · rw [len_block hblk, nth16Size, ndp16Size]
    omega
  · show [blk.byte 0, blk.byte 1, blk.byte 2, blk.byte 3] = nth16Sign
    rw [byte_header hblk (by decide), byte_header hblk (by decide), byte_header hblk (by decide),
      byte_header hblk (by decide)]
    rfl

theorem ndpTci_block (hblk : blk.data = blockHeader a b tci d.length ++ d) :
    ndpTci blk 12 = some tci.toNat := by
  have hsign : blk.slice 12 3 = ipsSign := by
    show [blk.byte 12, blk.byte 13, blk.byte 14] = ipsSign
    rw [byte_header hblk (by decide), byte_header hblk (by decide), byte_header hblk (by decide)]
    rfl
  rw [ndpTci, if_pos hsign, byte_header hblk (by decide)]
  rfl

/-- The NDP of the block has two entries and is for the child whose session it names. -/
theorem ndp_block {dev : MbimNetdev} {i : Nat} (hrange : SessionRange dev) (hi : i < dev.qmapMode)
    (hblk : blk.data = blockHeader a b tci d.length ++ d)
    (htci : tci.toNat = dev.mbimMuxId + i + if 1 < dev.qmapMode then 1 else 0) :
    ndp dev blk 12 = .table i 2 := by
  have hlen := len_block hblk
  have hwlen : blk.le16 (12 + 4) = 16 :=
    le16_ofNat (by decide) (byte_header hblk (by decide)) (byte_header hblk (by decide))
  obtain ⟨hmode, hmux⟩ := hrange
  simp only [ndp, ndpTci_block hblk, hwlen, hlen, ndp16Size, dpe16Size]
  rw [if_neg (by omega), if_neg (by decide), if_neg (by omega)]
  by_cases hone : dev.qmapMode = 1
  · obtain rfl : i = 0 := by omega
    rw [if_neg (by omega)] at htci
    rw [if_neg (by omega), if_pos hone]
  · rw [if_pos (by omega)] at htci
    have hslot : toU32 ((tci.toNat : Int) - 1 - dev.mbimMuxId) = i := by
      rw [htci, toU32]
      omega
    have hsession : toU32 ((tci.toNat : Int) - dev.mbimMuxId) = i + 1 := by
      rw [htci, toU32]
      omega
    rw [hsession, if_neg (by omega), if_neg hone, hslot]

/-- The first entry is the datagram, the second ends the table. -/
theorem entry_block (hblk : blk.data = blockHeader a b tci d.length ++ d) (hpos : 1 ≤ d.length)
    (hle : d.length ≤ mbimMaxMtu) {protocol : Protocol}
    (hproto : protocolOf (d.getD 0 0) = some protocol) :
    blk.le16 20 = 28 ∧ blk.le16 22 = d.length ∧ entry blk 20 = .packet protocol ∧
      entry blk 24 = .last := by
  have hmax : d.length + 28 ≤ rxMax := by
    simp only [mbimMaxMtu, rxMax, mbimHdrSize, nth16Size, ndp16Size, dpe16Size] at hle ⊢
    omega
  have hlen := len_block hblk
  have hoff : blk.le16 20 = 28 :=
    le16_ofNat (by decide) (byte_header hblk (by decide)) (byte_header hblk (by decide))
  have hdlen : blk.le16 22 = d.length := by
    refine le16_ofNat ?_ (byte_header hblk (by decide)) (byte_header hblk (by decide))
    rw [rxMax] at hmax
    omega
  have hlast : blk.le16 24 = 0 :=
    le16_ofNat (by decide) (byte_header hblk (by decide)) (byte_header hblk (by decide))
  have hfirst : blk.byte 28 = d.getD 0 0 := by
    rw [SkBuff.byte_of_lt _ (by omega), hblk, List.getD_append_right _ _ _ _ (by exact le_rfl)]
    rfl
  refine ⟨hoff, hdlen, ?_, ?_⟩
  · rw [entry, hoff, hdlen, if_neg (by omega), if_neg (by omega), hfirst, hproto]
  · rw [entry, hlast, if_pos (.inl rfl)]

end Block

/-! ## A block and back -/

/-- A packet that a child of an MBIM device transmits: a datagram of some IP version that fits the
largest MTU, in a buffer with room for the header. -/
structure MbimOutgoing (dev : MbimNetdev) where
  channel : Nat
  channel_lt : channel < dev.qmapMode
  child : MbimChild
  live : dev.mpQmapNetDev channel = some child
  skb : SkBuff
  pos : 1 ≤ skb.len
  le_max : skb.len ≤ mbimMaxMtu
  version : (skb.data.getD 0 0).toNat / 16 = 4 ∨ (skb.data.getD 0 0).toNat / 16 = 6
  headroom : List UInt8
  room : mbimHdrSize ≤ headroom.length

/-- The block that `rmnet_vnd_start_xmit` makes of it: the mux id of a child counts from the base of
the sessions. -/
def MbimOutgoing.block {dev : MbimNetdev} (host : Host) (o : MbimOutgoing dev) : Option SkBuff :=
  addMbimHdr host dev.qmapMode o.headroom o.skb (UInt8.ofNat (dev.mbimMuxId + o.channel))

variable {dev : MbimNetdev}

/-- The session in the block of a child. -/
theorem tci_block (hrange : SessionRange dev) {i : Nat} (hi : i < dev.qmapMode) :
    (UInt8.ofNat (if 1 < dev.qmapMode then (UInt8.ofNat (dev.mbimMuxId + i)).toNat + 1
      else (UInt8.ofNat (dev.mbimMuxId + i)).toNat)).toNat =
      dev.mbimMuxId + i + if 1 < dev.qmapMode then 1 else 0 := by
  obtain ⟨hmode, hmux⟩ := hrange
  split <;> simp only [UInt8.toNat_ofNat'] <;> omega

theorem MbimOutgoing.exists_protocol (o : MbimOutgoing dev) :
    ∃ protocol, protocolOf (o.skb.data.getD 0 0) = some protocol := by
  have h := protocolOf_ofNat _ (o.skb.data.getD 0 0).toNat_lt o.version
  rw [UInt8.ofNat_toNat] at h
  exact Option.isSome_iff_exists.1 h

section Block

variable {alloc : Nat → Bool} {blk : SkBuff} {a b tci : UInt8} {d : List UInt8} {i : Nat}
  {c : MbimChild} {protocol : Protocol}

/-- The table of such a block: a datagram that is queued, and the end. -/
theorem datagrams_block (halloc : ∀ k, alloc k = true)
    (hblk : blk.data = blockHeader a b tci d.length ++ d) (hpos : 1 ≤ d.length)
    (hle : d.length ≤ mbimMaxMtu) (hproto : protocolOf (d.getD 0 0) = some protocol)
    {s : MbimState} (hs : s.dev.mpQmapNetDev i = some c) :
    mbimDatagrams alloc blk i 2 (12 + ndp16Size) s =
      .next ((queued blk i 20 protocol c s).read 24 dpe16Size) := by
  obtain ⟨-, -, hentry, hlast⟩ := entry_block hblk hpos hle hproto
  rw [ndp16Size, mbimDatagrams_succ, hentry]
  dsimp only
  rw [if_pos (halloc _), hs]
  dsimp only
  rw [dpe16Size, mbimDatagrams_succ, hlast]
  rfl

/-- Its only iteration. -/
theorem mbimBody_block (hrange : SessionRange dev) (halloc : ∀ k, alloc k = true)
    (hi : i < dev.qmapMode) (hc : dev.mpQmapNetDev i = some c)
    (hblk : blk.data = blockHeader a b tci d.length ++ d)
    (htci : tci.toNat = dev.mbimMuxId + i + if 1 < dev.qmapMode then 1 else 0)
    (hpos : 1 ≤ d.length) (hle : d.length ≤ mbimMaxMtu)
    (hproto : protocolOf (d.getD 0 0) = some protocol) {s : MbimState} (hs : s.ndpoffset = 12)
    (hdev : s.dev = (mbimFirst .little dev blk).dev) :
    mbimBody alloc blk s = .next
      { ((queued blk i 20 protocol c (s.lookUp i)).read 24 dpe16Size).read (12 + 6) 2 with
        ndpoffset := 0 } := by
  have hnext : blk.le16 (12 + 6) = 0 :=
    le16_ofNat (by decide) (byte_header hblk (by decide)) (byte_header hblk (by decide))
  have hndp : ndp s.dev blk 12 = .table i 2 := by
    have hndp := ndp_block hrange hi hblk htci
    rw [hdev]
    exact hndp
  have hlive : (s.lookUp i).dev.mpQmapNetDev i = some c := by
    show s.dev.mpQmapNetDev i = some c
    rw [hdev]
    exact hc
  rw [mbimBody, hs, hndp]
  dsimp only
  rw [datagrams_block halloc hblk hpos hle hproto hlive, hnext]

/-- What the handler makes of such a block: one iteration, with one datagram in it. -/
theorem rx_block (hrange : SessionRange dev) (halloc : ∀ k, alloc k = true)
    (hi : i < dev.qmapMode) (hc : dev.mpQmapNetDev i = some c)
    (hblk : blk.data = blockHeader a b tci d.length ++ d)
    (htci : tci.toNat = dev.mbimMuxId + i + if 1 < dev.qmapMode then 1 else 0)
    (hpos : 1 ≤ d.length) (hle : d.length ≤ mbimMaxMtu)
    (hproto : protocolOf (d.getD 0 0) = some protocol) (fuel : Nat) :
    ∃ r, rmnetMbimRxHandler .little alloc (fuel + 1) dev blk = some r ∧ r.oops = false ∧
      r.chain = [⟨0, ⟨i, protocol, d, c.macHeader protocol⟩⟩] := by
  obtain ⟨hoff, hlen, -, -⟩ := entry_block hblk hpos hle hproto
  have hfirst : blk.raw16 .little 10 = 12 :=
    le16_ofNat (by decide) (byte_header hblk (by decide)) (byte_header hblk (by decide))
  have hslice : blk.slice 28 d.length = d := by
    have hdrop : blk.data.drop 28 = d := by
      rw [hblk]
      rfl
    rw [SkBuff.slice_eq _ (by rw [len_block hblk]), hdrop, List.take_length]
  rw [rmnetMbimRxHandler, mbimHeader_of_ok (headerOk_block hblk hle)]
  dsimp only
  have hcond : mbimCond (mbimFirst .little dev blk) = true := by
    show decide (0 < blk.raw16 .little 10) = true
    rw [hfirst]
    rfl
  have hbody := mbimBody_block hrange halloc hi hc hblk htci hpos hle hproto
    (s := mbimFirst .little dev blk) hfirst rfl
  rw [Loop.run_next hcond hbody, Loop.run_done (by rfl)]
  refine ⟨_, rfl, rfl, ?_⟩
  show [Buffer.mk 0 ⟨i, protocol, blk.slice (blk.le16 20) (blk.le16 22), c.macHeader protocol⟩] = _
  rw [hoff, hlen, hslice]

end Block

/-- **Transmit and receive agree.**  The block that a child makes of a datagram, received back by
the device, is delivered once, to that child and as it was, whatever follows it in the receive
buffer. -/
theorem mbim_delivers_tx (dev : MbimNetdev) (hrange : SessionRange dev) (alloc : Nat → Bool)
    (halloc : ∀ k, alloc k = true) (o : MbimOutgoing dev) :
    ∃ block, o.block .little = some block ∧
      ∀ tail fuel, 1 ≤ fuel →
        ∃ r, rmnetMbimRxHandler .little alloc fuel dev ⟨block.data, tail⟩ = some r ∧
          r.oops = false ∧
          r.delivered.map (fun b ↦ (b.packet.dev, b.packet.data)) = [(o.channel, o.skb.data)] := by
  obtain ⟨a, b, hblock⟩ := addMbimHdr_eq dev.qmapMode o.skb
    (UInt8.ofNat (dev.mbimMuxId + o.channel)) o.room
  refine ⟨_, hblock, fun tail fuel hfuel ↦ ?_⟩
  obtain ⟨protocol, hproto⟩ := o.exists_protocol
  obtain ⟨fuel, rfl⟩ : ∃ k, fuel = k + 1 := ⟨fuel - 1, by omega⟩
  obtain ⟨r, hr, hoops, hchain⟩ := rx_block hrange halloc o.channel_lt o.live
    (rfl : (SkBuff.mk (o.skb.push (blockHeader a b _ o.skb.len)).data tail).data = _)
    (tci_block hrange o.channel_lt) o.pos o.le_max hproto fuel
  refine ⟨r, hr, hoops, ?_⟩
  rw [MbimState.delivered, hoops, hchain]
  rfl

/-- One byte for the last of eight children of a device whose sessions begin at 112. -/
theorem mbim_delivers_tx_last : ∃ r,
    rmnetMbimRxHandler .little (fun _ ↦ true) 1
      { qmapMode := 8, mbimMuxId := 112, mpQmapNetDev := fun _ ↦ some {} }
      ⟨[0x4e, 0x43, 0x4d, 0x48, 12, 0, 9, 9, 29, 0, 12, 0, 0x49, 0x50, 0x53, 120, 16, 0, 0, 0,
        28, 0, 1, 0, 0, 0, 0, 0, 0x45], []⟩ = some r ∧
    r.delivered.map (fun b ↦ (b.packet.dev, b.packet.data)) = [(7, [0x45])] := by
  obtain ⟨block, hblock, h⟩ := mbim_delivers_tx
    { qmapMode := 8, mbimMuxId := 112, mpQmapNetDev := fun _ ↦ some {} } ⟨by decide, by decide⟩
    (fun _ ↦ true) (fun _ ↦ rfl)
    { channel := 7, channel_lt := by decide, child := {}, live := rfl, skb := ⟨[0x45], []⟩,
      pos := by decide, le_max := by decide, version := by decide, headroom := List.replicate 28 9,
      room := by decide }
  obtain ⟨r, hr, -, hdelivered⟩ := h [] 1 le_rfl
  have hdata : block.data =
    [0x4e, 0x43, 0x4d, 0x48, 12, 0, 9, 9, 29, 0, 12, 0, 0x49, 0x50, 0x53, 120,
      16, 0, 0, 0, 28, 0, 1, 0, 0, 0, 0, 0, 0x45] := by
    obtain rfl := Option.some.inj hblock
    decide
  rw [hdata] at hr
  exact ⟨r, hr, hdelivered⟩

end OpenwrtFeed.Mhi
