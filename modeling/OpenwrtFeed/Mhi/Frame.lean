import Mathlib.Data.List.Basic
import Mathlib.Data.Nat.Bitwise
import Mathlib.Tactic.Ring

/-!
# QMAP frames

The transmit side of `mhi_netdev_quectel.c`: a datagram leaves a child interface with a map header
in front of it (`add_qhdr`), for the newer modems followed by a checksum header (`add_qhdr_v5`), and
with up to three bytes of padding behind it.

The padding is not written: `__skb_put` moves the end of the data over whatever the tailroom holds,
and it is left out when the tailroom is too small.  So a buffer is its data together with the bytes
of its tailroom, and everything below is stated for any such bytes.

The two header structures are C bit-fields, and where a compiler puts the first of them depends on
the byte order of the host; `Host` says which, and the field readers and writers take it as an
argument.  `IsFrame` is what the two kinds of frames have in common, which is all that the receiver
looks at.
-/

set_option autoImplicit false

namespace OpenwrtFeed.Mhi

/-! ## Socket buffers -/

/-- A socket buffer: its data, and the bytes of its tailroom. -/
structure SkBuff where
  data : List UInt8
  tail : List UInt8 := []
  deriving DecidableEq, Repr

namespace SkBuff

/-- The field `skb->len`. -/
def len (skb : SkBuff) : Nat := skb.data.length

/-- The byte at an offset from `skb->data`.  Offsets from `skb->len` on lie in the tailroom, and
behind that a read finds nothing of the buffer. -/
def byte (skb : SkBuff) (i : Nat) : UInt8 := (skb.data ++ skb.tail).getD i 0

/-- What `memcpy` copies out of a buffer. -/
def slice (skb : SkBuff) (off n : Nat) : List UInt8 := (List.range n).map fun k ↦ skb.byte (off + k)

/-- `__skb_put`. -/
def put (skb : SkBuff) (n : Nat) : SkBuff := ⟨skb.data ++ skb.tail.take n, skb.tail.drop n⟩

/-- `skb_push`, together with the bytes that are then written there. -/
def push (skb : SkBuff) (bytes : List UInt8) : SkBuff := ⟨bytes ++ skb.data, skb.tail⟩

/-- `skb_pull`.  It returns `NULL` and does nothing when there are fewer bytes than that. -/
def pull (skb : SkBuff) (n : Nat) : SkBuff :=
  if n ≤ skb.len then ⟨skb.data.drop n, skb.tail⟩ else skb

theorem byte_of_lt (skb : SkBuff) {i : Nat} (h : i < skb.len) : skb.byte i = skb.data.getD i 0 := by
  rw [byte, List.getD_eq_getElem?_getD, List.getD_eq_getElem?_getD, List.getElem?_append_left h]

/-- A copy that stays inside the data copies a part of the data. -/
theorem slice_eq (skb : SkBuff) {off n : Nat} (h : off + n ≤ skb.len) :
    skb.slice off n = (skb.data.drop off).take n := by
  have hlen : ((skb.data.drop off).take n).length = n := by
    rw [List.length_take, List.length_drop]
    rw [len] at h
    omega
  refine List.ext_getElem (by rw [hlen, slice, List.length_map, List.length_range]) fun i h₁ h₂ ↦ ?_
  have hi : off + i < skb.data.length := by
    rw [hlen] at h₂
    rw [len] at h
    omega
  simp only [slice, List.getElem_map, List.getElem_range, List.getElem_take, List.getElem_drop]
  rw [byte_of_lt _ hi, List.getD_eq_getElem?_getD, List.getElem?_eq_getElem hi, Option.getD_some]

end SkBuff

/-! ## Headers -/

/-- The byte order of the machine the driver runs on. -/
inductive Host where
  | little
  | big
  deriving DecidableEq, Repr

/-- The two bytes of a 16-bit value in network order. -/
def be16 (n : Nat) : List UInt8 := [UInt8.ofNat (n / 256), UInt8.ofNat n]

/-- The 16-bit value of two bytes in network order. -/
def ntohs (hi lo : UInt8) : Nat := hi.toNat * 256 + lo.toNat

theorem ntohs_be16 {n : Nat} (h : n < 65536) :
    ntohs (UInt8.ofNat (n / 256)) (UInt8.ofNat n) = n := by
  simp only [ntohs, UInt8.toNat_ofNat']
  omega

namespace RmnetMapHeader

/-- The first byte of a `struct rmnet_map_header`: bit-fields of six, one and one bits. -/
def flags (host : Host) (padLen : Nat) (nextHdr cdBit : Bool) : UInt8 :=
  match host with
  | .little => UInt8.ofNat (padLen % 64 + 64 * nextHdr.toNat + 128 * cdBit.toNat)
  | .big => UInt8.ofNat (4 * (padLen % 64) + 2 * nextHdr.toNat + cdBit.toNat)

/-- The field `pad_len`. -/
def padLen (host : Host) (b : UInt8) : Nat :=
  match host with
  | .little => b.toNat % 64
  | .big => b.toNat / 4

/-- The field `next_hdr`. -/
def nextHdr (host : Host) (b : UInt8) : Bool :=
  match host with
  | .little => b.toNat.testBit 6
  | .big => b.toNat.testBit 1

/-- The field `cd_bit`. -/
def cdBit (host : Host) (b : UInt8) : Bool :=
  match host with
  | .little => b.toNat.testBit 7
  | .big => b.toNat.testBit 0

/-- `sizeof(struct rmnet_map_header)`, which is also that of a `struct qmap_hdr`. -/
def size : Nat := 4

end RmnetMapHeader

namespace RmnetMapV5CsumHeader

/-- The value `RMNET_MAP_HEADER_TYPE_CSUM_OFFLOAD`. -/
def csumOffload : Nat := 2

/-- The first byte of a `struct rmnet_map_v5_csum_header`: bit-fields of one and seven bits. -/
def flags (host : Host) (nextHdr : Bool) (headerType : Nat) : UInt8 :=
  match host with
  | .little => UInt8.ofNat (nextHdr.toNat + 2 * (headerType % 128))
  | .big => UInt8.ofNat (128 * nextHdr.toNat + headerType % 128)

/-- `sizeof(struct rmnet_map_v5_csum_header)`. -/
def size : Nat := 4

end RmnetMapV5CsumHeader

/-- `QUECTEL_QMAP_MUX_ID`: the mux id of channel 0. -/
def quectelQmapMuxId : Nat := 0x81

/-! ## Adding the headers -/

/-- How many bytes of padding `add_qhdr` and `add_qhdr_v5` add. -/
def padding (skb : SkBuff) : Nat :=
  let pad := skb.len % 4
  if pad = 0 then 0 else if skb.tail.length < 4 - pad then 0 else 4 - pad

/-- `add_qhdr`. -/
def addQhdr (skb : SkBuff) (muxId : UInt8) : SkBuff :=
  let pad := padding skb
  let skb := skb.put pad
  skb.push ([UInt8.ofNat pad, muxId] ++ be16 skb.len)

/-- `add_qhdr_v5`.  The length in the header counts neither of the two headers. -/
def addQhdrV5 (host : Host) (skb : SkBuff) (muxId : UInt8) : SkBuff :=
  let mapDatalen := skb.len
  let pad := padding skb
  let skb := skb.put pad
  skb.push (
    [RmnetMapHeader.flags host pad true false, muxId] ++ be16 (mapDatalen + pad) ++
    [RmnetMapV5CsumHeader.flags host false RmnetMapV5CsumHeader.csumOffload, 0, 0, 0])

/-- The QMAP branch of `rmnet_vnd_start_xmit`: the version of the channel decides between the two
kinds of frames, and with any other version the packet is dropped. -/
def addHeaders (host : Host) (qmapVersion : Nat) (skb : SkBuff) (muxId : UInt8) : Option SkBuff :=
  if qmapVersion = 5 then some (addQhdr skb muxId)
  else if qmapVersion = 9 then some (addQhdrV5 host skb muxId)
  else none

theorem padding_lt (skb : SkBuff) : padding skb < 4 := by
  rw [padding]
  split
  · omega
  · split <;> omega

theorem padding_le_tail (skb : SkBuff) : padding skb ≤ skb.tail.length := by
  rw [padding]
  split
  · omega
  · split <;> omega

theorem length_put (skb : SkBuff) {n : Nat} (h : n ≤ skb.tail.length) :
    (skb.put n).len = skb.len + n := by
  simp [SkBuff.put, SkBuff.len, h]

/-! ## What a receiver sees -/

/-- The bytes of a data frame for channel `muxId`: the headers, the datagram `d` and some
padding. -/
structure IsFrame (host : Host) (muxId : UInt8) (d bytes : List UInt8) : Prop where
  exists_eq : ∃ b₀ b₂ b₃ ext pad, bytes = b₀ :: muxId :: b₂ :: b₃ :: (ext ++ d ++ pad) ∧
    RmnetMapHeader.cdBit host b₀ = false ∧ RmnetMapHeader.padLen host b₀ = pad.length ∧
    ext.length = (if RmnetMapHeader.nextHdr host b₀ then RmnetMapV5CsumHeader.size else 0) ∧
    ntohs b₂ b₃ = d.length + pad.length

/-- On a little-endian host the fields of a first byte with nothing but a short padding in it. -/
theorem flags_of_pad : ∀ pad < 4,
    RmnetMapHeader.cdBit .little (UInt8.ofNat pad) = false ∧
    RmnetMapHeader.padLen .little (UInt8.ofNat pad) = pad ∧
    RmnetMapHeader.nextHdr .little (UInt8.ofNat pad) = false := by
  decide

/-- Reading back the bit-fields that `add_qhdr_v5` writes. -/
theorem flags_of_pad_v5 (host : Host) : ∀ pad < 4,
    RmnetMapHeader.cdBit host (RmnetMapHeader.flags host pad true false) = false ∧
    RmnetMapHeader.padLen host (RmnetMapHeader.flags host pad true false) = pad ∧
    RmnetMapHeader.nextHdr host (RmnetMapHeader.flags host pad true false) = true := by
  cases host <;> decide

/-- The padding that `__skb_put` adds is as long as asked for. -/
theorem length_take_padding (skb : SkBuff) :
    (skb.tail.take (padding skb)).length = padding skb := by
  rw [List.length_take]
  have := padding_le_tail skb
  omega

/-- What `add_qhdr` makes of a datagram is a frame with it. -/
theorem isFrame_addQhdr (skb : SkBuff) (muxId : UInt8) (h : skb.len + 3 < 65536) :
    IsFrame .little muxId skb.data (addQhdr skb muxId).data := by
  obtain ⟨hcd, hpad, hnext⟩ := flags_of_pad _ (padding_lt skb)
  have hlen := length_put skb (padding_le_tail skb)
  have hlt := padding_lt skb
  refine ⟨UInt8.ofNat (padding skb), _, _, [], skb.tail.take (padding skb), rfl, hcd, ?_, ?_, ?_⟩
  · rw [hpad, length_take_padding]
  · rw [hnext]
    rfl
  · rw [ntohs_be16 (by omega), hlen, length_take_padding, SkBuff.len]

/-- What `add_qhdr_v5` makes of a datagram is a frame with it, on either kind of host. -/
theorem isFrame_addQhdrV5 (host : Host) (skb : SkBuff) (muxId : UInt8) (h : skb.len + 3 < 65536) :
    IsFrame host muxId skb.data (addQhdrV5 host skb muxId).data := by
  obtain ⟨hcd, hpad, hnext⟩ := flags_of_pad_v5 host _ (padding_lt skb)
  have hlt := padding_lt skb
  refine ⟨RmnetMapHeader.flags host (padding skb) true false, _, _,
    [RmnetMapV5CsumHeader.flags host false RmnetMapV5CsumHeader.csumOffload, 0, 0, 0],
    skb.tail.take (padding skb), rfl, hcd, ?_, ?_, ?_⟩
  · rw [hpad, length_take_padding]
  · rw [hnext]
    rfl
  · rw [ntohs_be16 (by omega), length_take_padding, SkBuff.len]

theorem isFrame_addHeaders {qmapVersion : Nat} {skb out : SkBuff} {muxId : UInt8}
    (hout : addHeaders .little qmapVersion skb muxId = some out) (h : skb.len + 3 < 65536) :
    IsFrame .little muxId skb.data out.data := by
  rw [addHeaders] at hout
  split at hout
  · obtain rfl := Option.some.inj hout
    exact isFrame_addQhdr skb muxId h
  · split at hout
    · obtain rfl := Option.some.inj hout
      exact isFrame_addQhdrV5 .little skb muxId h
    · exact absurd hout (by simp)

end OpenwrtFeed.Mhi
