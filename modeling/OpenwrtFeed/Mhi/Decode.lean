import OpenwrtFeed.Mhi.Receive

/-!
# What the QMAP receive handler makes of any aggregate

The aggregate comes from the modem, so nothing is known about it: not where its frames end, not
which channels they name, and not whether what they announce is there.  This file is about the
handler `rmnetQmiRxHandler` on all of them.

`front` says what an iteration finds at the front of the buffer, in the order in which the handler
looks.  It depends on the buffer and on the settings of the device only, and `rxBody_eq` is the body
of the loop in terms of it: every result below is a case analysis of seven cases.  `FrameStart`
walks along the aggregate in the same terms, so that what is said of every iteration of a run can be
said of the aggregate.

There are two results, on two lengths that the handler takes from the wire.

* A frame for a slot without a child is skipped before its length is looked at, and `skb_pull` does
  nothing if the buffer is shorter than that: `rx_ends_iff` says that the loop ends if and only if
  it comes to no such frame.
* The length of the packet is what is left of the announced length after a padding that the frame
  itself announces and one that an ioctl sets.  `rx_reads_iff` says when a packet stays inside its
  frame and when the handler stays inside the buffer.
-/

set_option autoImplicit false

namespace OpenwrtFeed.Mhi

/-! ## The frame at the front -/

deriving instance DecidableEq for Child

section Front

variable (host : Host) (dev : MhiNetdev) (skb : SkBuff)

/-- The field `pkt_len`. -/
def pktLen : Nat := ntohs (skb.byte 2) (skb.byte 3)

/-- The variable `hdr_size`. -/
def hdrSize : Nat :=
  RmnetMapHeader.size +
    (if RmnetMapHeader.nextHdr host (skb.byte 0) then RmnetMapV5CsumHeader.size else 0)

/-- How far the frame reaches, headers included, as it says itself. -/
def frameSize : Nat := pktLen skb + hdrSize host skb

/-- The field `pad_len`. -/
def framePad : Nat := RmnetMapHeader.padLen host (skb.byte 0)

/-- The variable `skb_len`, when it is compared with an MTU or used as a size. -/
def skbLen : Nat := toU32 (pktLen skb - framePad host skb - dev.minimumPadding)

/-- The variable `mux_id`, before `abs`. -/
def frameMuxId : Int := (skb.byte 1).toNat - quectelQmapMuxId

/-- What an iteration finds at the front of the buffer. -/
inductive Front where
  /-- The mux id names no channel. -/
  | unknown
  /-- There is no child in the slot of the channel. -/
  | free
  /-- The packet is longer than the MTU of the child. -/
  | tooLong
  /-- The frame is longer than the rest of the buffer. -/
  | truncated
  | command
  /-- The packet is of neither version of the internet protocol. -/
  | notIp
  | data (c : Child) (protocol : Protocol)
  deriving DecidableEq

/-- The checks of an iteration, in their order. -/
def front : Front :=
  if dev.qmapMode ≤ toU32 (frameMuxId skb) then .unknown
  else match dev.mpQmapNetDev (frameMuxId skb).natAbs with
    | none => .free
    | some c =>
      if c.mtu < skbLen host dev skb then .tooLong
      else if skb.len < frameSize host skb then .truncated
      else if RmnetMapHeader.cdBit host (skb.byte 0) then .command
      else match protocolOf (skb.byte (hdrSize host skb)) with
        | none => .notIp
        | some protocol => .data c protocol

/-- Whether an iteration goes on behind the frame, as long as there are buffers. -/
def Front.Passes : Front → Prop
  | .free | .command | .data _ _ => True
  | .unknown | .tooLong | .truncated | .notIp => False

/-- Whether the frame is in the buffer and passes the checks of its channel. -/
def Front.Complete : Front → Prop
  | .command | .notIp | .data _ _ => True
  | .unknown | .free | .tooLong | .truncated => False

/-- The buffer at `skip_pkt`. -/
def skipPkt : SkBuff := skb.pull (frameSize host skb)

end Front

/-- The settings of a device that decide what becomes of a frame.  No iteration changes them. -/
structure SameSettings (dev dev' : MhiNetdev) : Prop where
  qmapMode : dev'.qmapMode = dev.qmapMode
  qmapVersion : dev'.qmapVersion = dev.qmapVersion
  dlMinimumPadding : dev'.dlMinimumPadding = dev.dlMinimumPadding
  mpQmapNetDev : dev'.mpQmapNetDev = dev.mpQmapNetDev

theorem SameSettings.refl (dev : MhiNetdev) : SameSettings dev dev := ⟨rfl, rfl, rfl, rfl⟩

theorem SameSettings.trans {dev dev' dev'' : MhiNetdev} (h : SameSettings dev dev')
    (h' : SameSettings dev' dev'') : SameSettings dev dev'' :=
  ⟨h'.1.trans h.1, h'.2.trans h.2, h'.3.trans h.3, h'.4.trans h.4⟩

variable {host : Host} {alloc : Nat → Bool} {dev dev' : MhiNetdev} {skb : SkBuff}

theorem SameSettings.minimumPadding (h : SameSettings dev dev') :
    dev'.minimumPadding = dev.minimumPadding := by
  rw [MhiNetdev.minimumPadding, MhiNetdev.minimumPadding, h.qmapVersion, h.dlMinimumPadding]

theorem SameSettings.skbLen_eq (h : SameSettings dev dev') (host : Host) (skb : SkBuff) :
    skbLen host dev' skb = skbLen host dev skb := by
  rw [skbLen, skbLen, h.minimumPadding]

theorem SameSettings.front_eq (h : SameSettings dev dev') (host : Host) (skb : SkBuff) :
    front host dev' skb = front host dev skb := by
  rw [front, front, h.qmapMode, h.mpQmapNetDev, h.skbLen_eq]

theorem rmnetMapDoFlowControl_settings (dev : MhiNetdev) (skb : SkBuff) (enable : Bool) :
    SameSettings dev (rmnetMapDoFlowControl dev skb enable).1 := by
  simp only [rmnetMapDoFlowControl]
  split
  · exact .refl dev
  · split
    · exact .refl dev
    · split <;> exact ⟨rfl, rfl, rfl, rfl⟩

/-- The field `command_name`. -/
def commandName (skb : SkBuff) : Nat := (skb.byte RmnetMapHeader.size).toNat

/-- What `rmnet_data_map_command` does, up to its counters. -/
theorem rmnetDataMapCommand_eq (dev : MhiNetdev) (skb : SkBuff) :
    ∃ stats, rmnetDataMapCommand dev skb =
      if commandName skb = flowEnable then
        rmnetMapDoFlowControl { dev with commandStats := stats } skb true
      else if commandName skb = flowDisable then
        rmnetMapDoFlowControl { dev with commandStats := stats } skb false
      else ({ dev with commandStats := stats }, .unsupported) := by
  simp only [rmnetDataMapCommand, ← commandName.eq_1]
  by_cases hen : commandName skb = flowEnable
  · simp only [if_pos hen]
    rw [if_pos (by rw [hen]; decide)]
    exact ⟨_, rfl⟩
  by_cases hdis : commandName skb = flowDisable
  · simp only [if_neg hen, if_pos hdis]
    rw [if_pos (by rw [hdis]; decide)]
    exact ⟨_, rfl⟩
  simp only [if_neg hen, if_neg hdis]
  by_cases hlt : commandName skb < commandEnumLength
  · simp only [if_pos hlt]
    exact ⟨_, rfl⟩
  · simp only [if_neg hlt]
    exact ⟨_, rfl⟩

theorem rmnetDataMapCommand_settings (dev : MhiNetdev) (skb : SkBuff) :
    SameSettings dev (rmnetDataMapCommand dev skb).1 := by
  obtain ⟨stats, heq⟩ := rmnetDataMapCommand_eq dev skb
  have hstats : SameSettings dev { dev with commandStats := stats } := ⟨rfl, rfl, rfl, rfl⟩
  rw [heq]
  split
  · exact hstats.trans (rmnetMapDoFlowControl_settings _ skb true)
  · split
    · exact hstats.trans (rmnetMapDoFlowControl_settings _ skb false)
    · exact hstats

/-- What a command frame leaves alone. -/
theorem rxCommand_frame (host : Host) (alloc : Nat → Bool) (s : RxState) :
    (rxCommand host alloc s).skbIn = s.skbIn ∧ (rxCommand host alloc s).skbChain = s.skbChain ∧
      SameSettings s.dev (rxCommand host alloc s).dev := by
  have h := rmnetDataMapCommand_settings s.dev s.skbIn
  rw [rxCommand]
  split <;> rename_i heq <;> rw [heq] at h <;> exact ⟨rfl, rfl, h⟩

/-- What the checks have made sure of. -/
theorem front_complete {cur : SkBuff} (h : (front host dev cur).Complete) :
    toU32 (frameMuxId cur) < dev.qmapMode ∧ ∃ c, dev.mpQmapNetDev (frameMuxId cur).natAbs = some c ∧
      skbLen host dev cur ≤ c.mtu ∧ frameSize host cur ≤ cur.len ∧
      front host dev cur =
        if RmnetMapHeader.cdBit host (cur.byte 0) then .command
        else match protocolOf (cur.byte (hdrSize host cur)) with
          | none => .notIp
          | some protocol => .data c protocol := by
  by_cases hmode : dev.qmapMode ≤ toU32 (frameMuxId cur)
  · exact absurd h (by rw [front, if_pos hmode]; exact id)
  rw [front, if_neg hmode] at h ⊢
  refine ⟨not_le.1 hmode, ?_⟩
  revert h
  rcases dev.mpQmapNetDev (frameMuxId cur).natAbs with _ | c <;> intro h
  · exact absurd h id
  · refine ⟨c, rfl, ?_⟩
    dsimp only at h ⊢
    by_cases hmtu : c.mtu < skbLen host dev cur
    · exact absurd h (by rw [if_pos hmtu]; exact id)
    rw [if_neg hmtu] at h ⊢
    by_cases hlen : cur.len < frameSize host cur
    · exact absurd h (by rw [if_pos hlen]; exact id)
    exact ⟨not_lt.1 hmtu, not_lt.1 hlen, if_neg hlen⟩

/-- All frames that pass are in the buffer, except perhaps those for a free slot. -/
theorem Front.Passes.complete {f : Front} (h : f.Passes) (hfree : f ≠ .free) : f.Complete := by
  cases f
  case free => exact absurd rfl hfree
  case notIp => exact absurd h id
  all_goals exact h

/-! ## One iteration -/

/-- The packet that an iteration makes of a data frame. -/
def packetOf (host : Host) (s : RxState) (c : Child) (protocol : Protocol) : Packet :=
  ⟨(frameMuxId s.skbIn).natAbs, protocol,
    s.skbIn.slice (hdrSize host s.skbIn) (skbLen host s.dev s.skbIn), c.macHeader protocol⟩

/-- The state behind a data frame. -/
def afterData (host : Host) (s : RxState) (c : Child) (protocol : Protocol) : RxState :=
  { s with
    skbIn := skipPkt host s.skbIn
    allocs := s.allocs + 1
    skbChain := s.skbChain ++ [⟨s.allocs, packetOf host s c protocol⟩] }

theorem afterData_chain (host : Host) (s : RxState) (c : Child) (protocol : Protocol) :
    (afterData host s c protocol).chain = s.chain ++ [packetOf host s c protocol] := by
  rw [RxState.chain, afterData, List.map_append]
  rfl

/-- The state behind a data frame for which there was no buffer. -/
def afterFailure (s : RxState) : RxState :=
  { s with
    allocs := s.allocs + 1
    dev := { s.dev with allocFailed := s.dev.allocFailed + 1 } }

/-- **What an iteration does**, by what it finds at the front of the buffer. -/
theorem rxBody_eq (host : Host) (alloc : Nat → Bool) (s : RxState) :
    rxBody host alloc s = match front host s.dev s.skbIn with
      | .unknown | .tooLong | .truncated | .notIp => .stop s
      | .free => .next { s with skbIn := skipPkt host s.skbIn }
      | .command => .next { rxCommand host alloc s with skbIn := skipPkt host s.skbIn }
      | .data c protocol =>
        if alloc s.allocs then .next (afterData host s c protocol) else .stop (afterFailure s) := by
  have hskb : (rxCommand host alloc s).skbIn = s.skbIn := (rxCommand_frame host alloc s).1
  simp only [rxBody, ← pktLen.eq_1, ← hdrSize.eq_1, ← framePad.eq_1, ← skbLen.eq_1,
    ← frameMuxId.eq_1,
    ← frameSize.eq_1, hskb, ← skipPkt.eq_1, front]
  by_cases hmode : s.dev.qmapMode ≤ toU32 (frameMuxId s.skbIn)
  · simp only [if_pos hmode]
  simp only [if_neg hmode]
  rcases s.dev.mpQmapNetDev (frameMuxId s.skbIn).natAbs with _ | c
  · rfl
  by_cases hmtu : c.mtu < skbLen host s.dev s.skbIn
  · simp only [if_pos hmtu]
  by_cases hlen : s.skbIn.len < frameSize host s.skbIn
  · simp only [if_neg hmtu, if_pos hlen]
  by_cases hcd : RmnetMapHeader.cdBit host (s.skbIn.byte 0) = true
  · simp only [if_neg hmtu, if_neg hlen, if_pos hcd]
  simp only [if_neg hmtu, if_neg hlen, if_neg hcd]
  rcases protocolOf (s.skbIn.byte (hdrSize host s.skbIn)) with _ | protocol
  · rfl
  · rfl

/-- The packet, if any, that an iteration appends to the chain. -/
def rxPacket (host : Host) (alloc : Nat → Bool) (s : RxState) : Option Packet :=
  match front host s.dev s.skbIn with
  | .data c protocol => if alloc s.allocs then some (packetOf host s c protocol) else none
  | _ => none

/-- That packet in its buffer. -/
def rxBuffer (host : Host) (alloc : Nat → Bool) (s : RxState) : Option Buffer :=
  (rxPacket host alloc s).map fun p ↦ ⟨s.allocs, p⟩

theorem rxBuffer_packet (s : RxState) :
    (rxBuffer host alloc s).toList.map Buffer.packet = (rxPacket host alloc s).toList := by
  rw [rxBuffer]
  rcases rxPacket host alloc s with _ | p <;> rfl

/-- However an iteration ends, it appends its buffer to the chain. -/
theorem rxBody_skbChain {s s' : RxState}
    (h : rxBody host alloc s = .next s' ∨ rxBody host alloc s = .stop s') :
    s'.skbChain = s.skbChain ++ (rxBuffer host alloc s).toList := by
  have hcommand := (rxCommand_frame host alloc s).2.1
  rw [rxBody_eq] at h
  rw [rxBuffer, rxPacket]
  revert h
  rcases front host s.dev s.skbIn with _ | _ | _ | _ | _ | _ | ⟨c, protocol⟩ <;> dsimp only
  case command =>
    rintro (h | h)
    · obtain rfl := Loop.Exit.next.inj h
      rw [Option.map_none, Option.toList_none, List.append_nil]
      exact hcommand
    · exact absurd h (by simp)
  case data =>
    split
    · rintro (h | h)
      · obtain rfl := Loop.Exit.next.inj h
        rfl
      · exact absurd h (by simp)
    · rintro (h | h)
      · exact absurd h (by simp)
      · obtain rfl := Loop.Exit.stop.inj h
        exact (List.append_nil _).symm
  case free =>
    rintro (h | h)
    · obtain rfl := Loop.Exit.next.inj h
      exact (List.append_nil _).symm
    · exact absurd h (by simp)
  all_goals
    rintro (h | h)
    · exact absurd h (by simp)
    · obtain rfl := Loop.Exit.stop.inj h
      exact (List.append_nil _).symm

/-- So it appends its packet to those copied so far. -/
theorem rxBody_chain {s s' : RxState}
    (h : rxBody host alloc s = .next s' ∨ rxBody host alloc s = .stop s') :
    s'.chain = s.chain ++ (rxPacket host alloc s).toList := by
  rw [RxState.chain, rxBody_skbChain h, List.map_append, rxBuffer_packet]
  rfl

/-- An iteration that comes back to the condition has gone on behind its frame. -/
theorem iterates_cases {s s' : RxState} (h : Loop.Iterates rxCond (rxBody host alloc) s s') :
    RmnetMapHeader.size < s.skbIn.len ∧ (front host s.dev s.skbIn).Passes ∧
      s'.skbIn = skipPkt host s.skbIn ∧ SameSettings s.dev s'.dev := by
  obtain ⟨hcond, hbody⟩ := h
  refine ⟨of_decide_eq_true hcond, ?_⟩
  rw [rxBody_eq] at hbody
  split at hbody
  all_goals rename_i heq
  case h_1 | h_2 | h_3 | h_4 => exact absurd hbody (by simp)
  case h_5 =>
    obtain rfl := Loop.Exit.next.inj hbody
    exact ⟨heq ▸ trivial, rfl, .refl _⟩
  case h_6 =>
    obtain rfl := Loop.Exit.next.inj hbody
    exact ⟨heq ▸ trivial, rfl, (rxCommand_frame host alloc s).2.2⟩
  case h_7 =>
    split at hbody
    · obtain rfl := Loop.Exit.next.inj hbody
      exact ⟨heq ▸ trivial, rfl, .refl _⟩
    · exact absurd hbody (by simp)

/-- As long as there are buffers, a frame that may pass is passed. -/
theorem exists_iterates {s : RxState} (hlen : RmnetMapHeader.size < s.skbIn.len)
    (hpass : (front host s.dev s.skbIn).Passes) :
    ∃ s', Loop.Iterates rxCond (rxBody host fun _ ↦ true) s s' := by
  have hbody := rxBody_eq host (fun _ ↦ true) s
  revert hbody hpass
  rcases front host s.dev s.skbIn with _ | _ | _ | _ | _ | _ | ⟨c, protocol⟩ <;>
    intro hpass hbody
  case unknown | tooLong | truncated | notIp => exact absurd hpass id
  case free | command => exact ⟨_, decide_eq_true hlen, hbody⟩
  case data => exact ⟨_, decide_eq_true hlen, hbody.trans (if_pos rfl)⟩

/-! ## Along the aggregate -/

/-- The buffers that have a frame of the aggregate at their front: each frame that may be passed
leads to the next.  Behind a frame for a free slot this need not be another place, see `skipPkt`. -/
inductive FrameStart (host : Host) (dev : MhiNetdev) (skb : SkBuff) : SkBuff → Prop
  | first : FrameStart host dev skb skb
  | next {cur : SkBuff} (h : FrameStart host dev skb cur) (hlen : RmnetMapHeader.size < cur.len)
      (hpass : (front host dev cur).Passes) : FrameStart host dev skb (skipPkt host cur)

/-- The states that the handler comes by on an aggregate. -/
def RxVisits (host : Host) (alloc : Nat → Bool) (dev : MhiNetdev) (skb : SkBuff) (t : RxState) :
    Prop :=
  Loop.Visits rxCond (rxBody host alloc) { dev, skbIn := skb } t

/-- Every iteration is at the start of a frame. -/
theorem RxVisits.frameStart {t : RxState} (h : RxVisits host alloc dev skb t) :
    FrameStart host dev skb t.skbIn ∧ SameSettings dev t.dev := by
  induction h with
  | refl => exact ⟨.first, .refl dev⟩
  | tail _ hstep ih =>
    obtain ⟨hlen, hpass, hskb, hdev⟩ := iterates_cases hstep
    rw [ih.2.front_eq] at hpass
    exact ⟨hskb ▸ .next ih.1 hlen hpass, ih.2.trans hdev⟩

/-- With enough buffers, there is an iteration at the start of every frame. -/
theorem FrameStart.visits {cur : SkBuff} (h : FrameStart host dev skb cur) :
    ∃ t, RxVisits host (fun _ ↦ true) dev skb t ∧ t.skbIn = cur ∧ SameSettings dev t.dev := by
  induction h with
  | first => exact ⟨_, .refl, rfl, .refl dev⟩
  | next _ hlen hpass ih =>
    obtain ⟨t, ht, rfl, hdev⟩ := ih
    rw [← hdev.front_eq] at hpass
    obtain ⟨t', hstep⟩ := exists_iterates hlen hpass
    obtain ⟨-, -, hskb, hdev'⟩ := iterates_cases hstep
    exact ⟨t', ht.tail hstep, hskb, hdev.trans hdev'⟩

/-! ## Whether the loop ends -/

/-- The length of a buffer behind `skb_pull`. -/
theorem len_pull (skb : SkBuff) (n : Nat) :
    (skb.pull n).len = if n ≤ skb.len then skb.len - n else skb.len := by
  rw [SkBuff.pull]
  split
  · rw [SkBuff.len, SkBuff.len, List.length_drop]
  · rfl

theorem hdrSize_pos (host : Host) (skb : SkBuff) : 0 < hdrSize host skb := by
  rw [hdrSize, RmnetMapHeader.size]
  omega

/-- A frame that is in the buffer is taken off it. -/
theorem len_skipPkt_lt {cur : SkBuff} (h : frameSize host cur ≤ cur.len) :
    (skipPkt host cur).len < cur.len := by
  have hpos := hdrSize_pos host cur
  rw [skipPkt, len_pull, if_pos h]
  rw [frameSize] at h ⊢
  omega

/-- A frame that is not is not. -/
theorem skipPkt_of_lt {cur : SkBuff} (h : cur.len < frameSize host cur) :
    skipPkt host cur = cur := by
  rw [skipPkt, SkBuff.pull, if_neg (by omega)]

/-- A frame for a free slot that is longer than the rest of the buffer is looked at again and
again. -/
theorem rx_hangs {cur : SkBuff} (hcur : FrameStart host dev skb cur)
    (hlen : RmnetMapHeader.size < cur.len) (hfree : front host dev cur = .free)
    (hlt : cur.len < frameSize host cur) :
    ¬ ∃ fuel t, rmnetQmiRxHandler host (fun _ ↦ true) fuel dev skb = some t := by
  intro hends
  obtain ⟨t, ht, rfl, hdev⟩ := hcur.visits
  rw [← hdev.front_eq] at hfree
  have hbody := rxBody_eq host (fun _ ↦ true) t
  rw [hfree, skipPkt_of_lt hlt] at hbody
  have hsame : ∀ s, s = t → ∃ s', Loop.Iterates rxCond (rxBody host fun _ ↦ true) s s' ∧ s' = t :=
    fun s hs ↦ ⟨t, ⟨hs ▸ decide_eq_true hlen, hs ▸ hbody⟩, rfl⟩
  exact Loop.not_ends_of_invariant hsame rfl (Loop.Visits.ends ht hends)

/-- **When the handler ends.**  Whatever the aggregate, the settings and the table of children: each
iteration that does not leave the loop takes something off the buffer, and the loop ends, if and
only if every frame it comes to whose channel has no child is in the buffer as far as it says it
reaches. -/
theorem rx_ends_iff (host : Host) (dev : MhiNetdev) (skb : SkBuff) :
    (∀ alloc,
      (∃ fuel t, rmnetQmiRxHandler host alloc fuel dev skb = some t) ∧
      ∀ t t', RxVisits host alloc dev skb t → rxCond t = true → rxBody host alloc t = .next t' →
        t'.skbIn.len < t.skbIn.len) ↔
    ∀ cur, FrameStart host dev skb cur → RmnetMapHeader.size < cur.len →
      front host dev cur = .free → frameSize host cur ≤ cur.len := by
  constructor
  · intro h cur hcur hlen hfree
    by_contra hlt
    exact rx_hangs hcur hlen hfree (not_le.1 hlt) (h fun _ ↦ true).1
  · intro h alloc
    have hshorter : ∀ t t', RxVisits host alloc dev skb t →
        Loop.Iterates rxCond (rxBody host alloc) t t' → t'.skbIn.len < t.skbIn.len := by
      intro t t' ht hstep
      obtain ⟨hlen, hpass, hskb, -⟩ := iterates_cases hstep
      obtain ⟨hstart, hdev⟩ := ht.frameStart
      rw [hdev.front_eq] at hpass
      rw [hskb]
      refine len_skipPkt_lt ?_
      by_cases hfree : front host dev t.skbIn = .free
      · exact h _ hstart hlen hfree
      · obtain ⟨-, c, -, -, hle, -⟩ := front_complete (hpass.complete hfree)
        exact hle
    exact ⟨Loop.ends_of_measure (fun t : RxState ↦ t.skbIn.len) hshorter,
      fun t t' ht hcond hbody ↦ hshorter t t' ht ⟨hcond, hbody⟩⟩

/-- A device whose only child could not be registered. -/
def noChild : MhiNetdev where
  qmapMode := 1
  qmapVersion := 5
  dlMinimumPadding := 0
  mpQmapNetDev := fun _ ↦ none
  flowControl := 0
  commandStats := fun _ ↦ 0
  allocFailed := 0

/-- One byte of a frame that announces nine. -/
theorem rx_hangs_on_short_frame : ¬ ∃ fuel t, rmnetQmiRxHandler .little (fun _ ↦ true) fuel noChild
    ⟨[0, 0x81, 0, 9, 0x45], []⟩ = some t :=
  rx_hangs .first (by decide) rfl (by decide)

/-! ## What is read -/

/-- The field `header_type` of the checksum header. -/
def RmnetMapV5CsumHeader.headerType (host : Host) (b : UInt8) : Nat :=
  match host with
  | .little => b.toNat / 2
  | .big => b.toNat % 128

/-- The offsets of the checksum header that are looked at once a packet has been copied. -/
def csumReads (host : Host) (skb : SkBuff) : List Nat :=
  if RmnetMapHeader.nextHdr host (skb.byte 0) then
    -- `csum_valid_required` is read only if `header_type` is the right one
    if RmnetMapV5CsumHeader.headerType host (skb.byte 4) =
      RmnetMapV5CsumHeader.csumOffload then [4, 5]
    else [4]
  else []

/-- The part of the buffer that an iteration copies into a packet of its own: offset and length. -/
def rxCopies (host : Host) (alloc : Nat → Bool) (s : RxState) : Option (Nat × Nat) :=
  match front host s.dev s.skbIn with
  | .data _ _ =>
    if alloc s.allocs then some (hdrSize host s.skbIn, skbLen host s.dev s.skbIn) else none
  | _ => none

/-- The offsets into the buffer that an iteration reads, without those of a command. -/
def rxReads (host : Host) (alloc : Nat → Bool) (s : RxState) : List Nat :=
  [0, 1, 2, 3] ++
  (match front host s.dev s.skbIn with
    | .notIp | .data _ _ => [hdrSize host s.skbIn]
    | _ => []) ++
  match rxCopies host alloc s with
  | some (off, n) => (List.range n).map (off + ·) ++ csumReads host s.skbIn
  | none => []

/-- What an iteration finds depends on the header, and on the first byte behind the headers if it
gets as far as that. -/
theorem front_congr {cur cur' : SkBuff} (hlen : cur'.len = cur.len)
    (hhead : ∀ i < 4, cur'.byte i = cur.byte i)
    (hfirst : (front host dev cur).Complete → front host dev cur ≠ .command →
      cur'.byte (hdrSize host cur) = cur.byte (hdrSize host cur)) :
    front host dev cur' = front host dev cur := by
  have hmux : frameMuxId cur' = frameMuxId cur := by rw [frameMuxId, frameMuxId, hhead 1 (by omega)]
  have hsize : hdrSize host cur' = hdrSize host cur := by rw [hdrSize, hdrSize, hhead 0 (by omega)]
  have hpkt : pktLen cur' = pktLen cur := by
    rw [pktLen, pktLen, hhead 2 (by omega), hhead 3 (by omega)]
  have hskb : skbLen host dev cur' = skbLen host dev cur := by
    rw [skbLen, skbLen, framePad, framePad, hpkt, hhead 0 (by omega)]
  by_cases hbyte : cur'.byte (hdrSize host cur) = cur.byte (hdrSize host cur)
  · rw [front, front, hmux, hskb, hlen, frameSize, frameSize, hpkt, hsize,
      hhead 0 (by omega), hbyte]
  · -- then the iteration does not get as far as that byte
    have hdead : (front host dev cur).Complete → front host dev cur = .command := by
      intro hc
      by_contra hne
      exact hbyte (hfirst hc hne)
    rw [front] at hdead
    rw [front, front, hmux, hskb, hlen, frameSize, frameSize, hpkt, hsize, hhead 0 (by omega)]
    by_cases hmode : dev.qmapMode ≤ toU32 (frameMuxId cur)
    · rw [if_pos hmode, if_pos hmode]
    rw [if_neg hmode] at hdead ⊢
    rw [if_neg hmode]
    revert hdead
    rcases dev.mpQmapNetDev (frameMuxId cur).natAbs with _ | c <;> intro hdead
    · rfl
    dsimp only at hdead ⊢
    by_cases hmtu : c.mtu < skbLen host dev cur
    · rw [if_pos hmtu, if_pos hmtu]
    by_cases hlt : cur.len < frameSize host cur
    · rw [if_neg hmtu, if_neg hmtu]
      rw [frameSize] at hlt
      rw [if_pos hlt, if_pos hlt]
    by_cases hcd : RmnetMapHeader.cdBit host (cur.byte 0) = true
    · rw [if_pos hcd, if_pos hcd]
    · rw [if_neg hmtu, if_neg hlt, if_neg hcd] at hdead
      rcases hp : protocolOf (cur.byte (hdrSize host cur)) with _ | protocol <;> rw [hp] at hdead
      · exact absurd (hdead trivial) (by simp)
      · exact absurd (hdead trivial) (by simp)

theorem slice_congr {cur cur' : SkBuff} {off n : Nat}
    (h : ∀ i ∈ (List.range n).map (off + ·), cur'.byte i = cur.byte i) :
    cur'.slice off n = cur.slice off n :=
  List.map_congr_left fun k hk ↦ h _ (List.mem_map.2 ⟨k, hk, rfl⟩)

/-- **The packet that an iteration makes depends on nothing but what it reads**: with the same bytes
at these offsets it is the same. -/
theorem rxPacket_congr {s : RxState} {cur' : SkBuff} (hlen : cur'.len = s.skbIn.len)
    (h : ∀ i ∈ rxReads host alloc s, cur'.byte i = s.skbIn.byte i) :
    rxPacket host alloc { s with skbIn := cur' } = rxPacket host alloc s := by
  have hhead : ∀ i < 4, cur'.byte i = s.skbIn.byte i := by
    intro i hi
    refine h i ?_
    rw [rxReads, List.append_assoc, List.mem_append]
    refine .inl ?_
    simp only [List.mem_cons, List.not_mem_nil, or_false]
    omega
  have hfront : front host s.dev cur' = front host s.dev s.skbIn := by
    refine front_congr hlen hhead fun hc hne ↦ h _ ?_
    rw [rxReads, List.append_assoc, List.mem_append, List.mem_append]
    refine .inr (.inl ?_)
    revert hc hne
    rcases front host s.dev s.skbIn with _ | _ | _ | _ | _ | _ | ⟨c, protocol⟩ <;> intro hc hne
    case command => exact absurd rfl hne
    case notIp | data => exact List.mem_singleton_self _
    all_goals exact absurd hc id
  rw [rxPacket, rxPacket, hfront]
  split
  · rename_i c protocol heq
    split
    · rename_i halloc
      have hcopy : rxCopies host alloc s =
          some (hdrSize host s.skbIn, skbLen host s.dev s.skbIn) := by
        rw [rxCopies, heq]
        exact if_pos halloc
      have hsize : hdrSize host cur' = hdrSize host s.skbIn := by
        rw [hdrSize, hdrSize, hhead 0 (by omega)]
      have hskb : skbLen host s.dev cur' = skbLen host s.dev s.skbIn := by
        rw [skbLen, skbLen, framePad, framePad, pktLen, pktLen, hhead 0 (by omega),
          hhead 2 (by omega), hhead 3 (by omega)]
      have hslice : cur'.slice (hdrSize host s.skbIn) (skbLen host s.dev s.skbIn) =
          s.skbIn.slice (hdrSize host s.skbIn) (skbLen host s.dev s.skbIn) := by
        refine slice_congr fun i hi ↦ h i ?_
        rw [rxReads, hcopy]
        exact List.mem_append_right _ (List.mem_append_left _ hi)
      rw [packetOf, packetOf, hsize, hskb, hslice, frameMuxId, frameMuxId, hhead 1 (by omega)]
    · rfl
  · rfl

/-- The handler reads only the aggregate, and makes packets only of what is a packet in it. -/
structure ReadsInside (host : Host) (dev : MhiNetdev) (skb : SkBuff) : Prop where
  /-- No iteration reads at or behind the end of the buffer. -/
  reads : ∀ alloc t, RxVisits host alloc dev skb t → rxCond t = true →
    ∀ i ∈ rxReads host alloc t, i < t.skbIn.len
  /-- What an iteration copies begins behind the headers of its frame and ends before its
  padding. -/
  copies : ∀ alloc t off n, RxVisits host alloc dev skb t → rxCond t = true →
    rxCopies host alloc t = some (off, n) →
    hdrSize host t.skbIn ≤ off ∧ off + n + framePad host t.skbIn ≤ frameSize host t.skbIn
  /-- Every packet delivered is a part of the aggregate of that kind. -/
  delivered : ∀ alloc fuel r, rmnetQmiRxHandler host alloc fuel dev skb = some r →
    ∀ p ∈ r.chain, ∃ k off n cur, cur = SkBuff.mk (skb.data.drop k) skb.tail ∧
      FrameStart host dev skb cur ∧ hdrSize host cur ≤ off ∧
      off + n + framePad host cur ≤ frameSize host cur ∧ k + frameSize host cur ≤ skb.len ∧
      p.data = (skb.data.drop (k + off)).take n

/-- What the aggregate has to be like for that. -/
def FrameInside (host : Host) (dev : MhiNetdev) (cur : SkBuff) : Prop :=
  match front host dev cur with
  | .notIp => hdrSize host cur < cur.len
  | .data _ _ =>
    hdrSize host cur < cur.len ∧ framePad host cur + dev.minimumPadding ≤ pktLen cur
  | _ => True

/-- What is at the front of the buffer is a part of the aggregate. -/
theorem FrameStart.exists_drop {cur : SkBuff} (h : FrameStart host dev skb cur) :
    ∃ k ≤ skb.len, cur = ⟨skb.data.drop k, skb.tail⟩ := by
  induction h with
  | first => exact ⟨0, Nat.zero_le _, by rw [List.drop_zero]⟩
  | next _ hlen _ ih =>
    obtain ⟨k, hk, rfl⟩ := ih
    rw [skipPkt, SkBuff.pull]
    split
    · rename_i hle
      refine ⟨k + frameSize host ⟨skb.data.drop k, skb.tail⟩, ?_, by rw [List.drop_drop]⟩
      rw [SkBuff.len] at hle ⊢
      simp only [List.length_drop] at hle
      rw [SkBuff.len] at hk
      omega
    · exact ⟨k, hk, rfl⟩

theorem pktLen_lt (skb : SkBuff) : pktLen skb < 2 ^ 16 := by
  have h₂ := (skb.byte 2).toNat_lt
  have h₃ := (skb.byte 3).toNat_lt
  rw [pktLen, ntohs]
  omega

theorem framePad_lt (host : Host) (skb : SkBuff) : framePad host skb < 2 ^ 6 := by
  have h := (skb.byte 0).toNat_lt
  cases host <;> simp only [framePad, RmnetMapHeader.padLen] <;> omega

/-- What is known of a data frame. -/
theorem front_data {cur : SkBuff} {c : Child} {protocol : Protocol}
    (h : front host dev cur = .data c protocol) :
    skbLen host dev cur ≤ c.mtu ∧ frameSize host cur ≤ cur.len := by
  obtain ⟨-, c', -, hmtu, hlen, heq⟩ := front_complete (h ▸ trivial : (front host dev cur).Complete)
  rw [h] at heq
  split at heq
  · exact absurd heq (by simp)
  · split at heq
    · exact absurd heq (by simp)
    · obtain ⟨rfl, -⟩ := Front.data.inj heq
      exact ⟨hmtu, hlen⟩

/-- **The length of a packet** that is let through is what it should be, or else the subtraction has
wrapped and it reaches into the padding at least: the MTU is too small for anything between. -/
theorem skbLen_le_iff {cur : SkBuff} {c : Child} {protocol : Protocol}
    (hset : dev.dlMinimumPadding < 2 ^ 32) (h : front host dev cur = .data c protocol) :
    skbLen host dev cur + framePad host cur ≤ pktLen cur ↔
      framePad host cur + dev.minimumPadding ≤ pktLen cur := by
  have hmtu := (front_data h).1
  have hle := c.mtu_le
  have hpkt := pktLen_lt cur
  have hpad := framePad_lt host cur
  have hmin : dev.minimumPadding < 2 ^ 32 := by
    rw [MhiNetdev.minimumPadding]
    split <;> omega
  simp only [maxMtu, mru, RmnetMapV5CsumHeader.size, RmnetMapHeader.size] at hle
  rw [skbLen, toU32] at hmtu ⊢
  omega

theorem hdrSize_of_csumReads {cur : SkBuff} {i : Nat} (h : i ∈ csumReads host cur) :
    i < hdrSize host cur := by
  rw [csumReads] at h
  split at h
  · rename_i hnext
    rw [hdrSize, if_pos hnext, RmnetMapHeader.size, RmnetMapV5CsumHeader.size]
    split at h <;> simp only [List.mem_cons, List.not_mem_nil, or_false] at h <;> omega
  · exact absurd h (by simp)

theorem rxCopies_eq_some {t : RxState} {off n : Nat} (h : rxCopies host alloc t = some (off, n)) :
    alloc t.allocs = true ∧ off = hdrSize host t.skbIn ∧ n = skbLen host t.dev t.skbIn ∧
      ∃ c protocol, front host t.dev t.skbIn = .data c protocol := by
  rw [rxCopies] at h
  split at h
  · rename_i c protocol heq
    split at h
    · rename_i halloc
      obtain ⟨rfl, rfl⟩ := Prod.mk.inj (Option.some.inj h)
      exact ⟨halloc, rfl, rfl, c, protocol, heq⟩
    · exact absurd h (by simp)
  · exact absurd h (by simp)

/-- A data frame as it should be is copied from between its headers and its padding. -/
theorem copies_inside {t : RxState} {off n : Nat} (hset : t.dev.dlMinimumPadding < 2 ^ 32)
    (hin : FrameInside host t.dev t.skbIn) (h : rxCopies host alloc t = some (off, n)) :
    hdrSize host t.skbIn ≤ off ∧ off + n + framePad host t.skbIn ≤ frameSize host t.skbIn := by
  obtain ⟨-, rfl, rfl, c, protocol, heq⟩ := rxCopies_eq_some h
  rw [FrameInside, heq] at hin
  have hle := (skbLen_le_iff hset heq).2 hin.2
  rw [frameSize]
  omega

/-- A frame as it should be is all that an iteration reads. -/
theorem reads_inside {t : RxState} (hset : t.dev.dlMinimumPadding < 2 ^ 32)
    (hcond : rxCond t = true)
    (hin : FrameInside host t.dev t.skbIn) {i : Nat} (hi : i ∈ rxReads host alloc t) :
    i < t.skbIn.len := by
  have hlen : RmnetMapHeader.size < t.skbIn.len := of_decide_eq_true hcond
  rw [RmnetMapHeader.size] at hlen
  rw [rxReads, List.mem_append, List.mem_append] at hi
  rcases hi with (hi | hi) | hi
  · simp only [List.mem_cons, List.not_mem_nil, or_false] at hi
    omega
  · rw [FrameInside] at hin
    split at hi
    all_goals rename_i heq
    case h_1 => rwa [heq, ← List.mem_singleton.1 hi] at hin
    case h_2 =>
      rw [heq, ← List.mem_singleton.1 hi] at hin
      exact hin.1
    case h_3 => exact absurd hi (by simp)
  · split at hi
    · rename_i off n hcopy
      obtain ⟨hoff, hend⟩ := copies_inside hset hin hcopy
      obtain ⟨-, -, -, c, protocol, heq⟩ := rxCopies_eq_some hcopy
      have hle := (front_data heq).2
      rcases List.mem_append.1 hi with hi | hi
      · obtain ⟨k, hk, rfl⟩ := List.mem_map.1 hi
        rw [List.mem_range] at hk
        omega
      · have := hdrSize_of_csumReads hi
        omega
    · exact absurd hi (by simp)

/-- A packet is what the iteration copies. -/
theorem rxCopies_of_rxPacket {t : RxState} {p : Packet} (h : rxPacket host alloc t = some p) :
    ∃ off n, rxCopies host alloc t = some (off, n) ∧ p.data = t.skbIn.slice off n := by
  rw [rxPacket] at h
  rw [rxCopies]
  split at h
  · split at h
    · rename_i halloc
      obtain rfl := Option.some.inj h
      exact ⟨_, _, if_pos halloc, rfl⟩
    · exact absurd h (by simp)
  · exact absurd h (by simp)

/-- The packets on the chain are what iterations so far have copied. -/
theorem RxVisits.chain {t : RxState} (h : RxVisits host alloc dev skb t) :
    ∀ p ∈ t.chain, ∃ u off n, RxVisits host alloc dev skb u ∧ rxCond u = true ∧
      rxCopies host alloc u = some (off, n) ∧ p.data = u.skbIn.slice off n := by
  induction h with
  | refl => exact fun p hp ↦ absurd hp (by simp [RxState.chain])
  | @tail t t' ht hstep ih =>
    intro p hp
    rw [rxBody_chain (.inl hstep.2), List.mem_append] at hp
    rcases hp with hp | hp
    · exact ih p hp
    · obtain ⟨off, n, hcopy, hdata⟩ := rxCopies_of_rxPacket (Option.mem_toList.1 hp)
      exact ⟨t, off, n, ht, hstep.1, hcopy, hdata⟩

/-- So are those on the chain behind the loop. -/
theorem rx_chain {fuel : Nat} {r : RxState}
    (h : rmnetQmiRxHandler host alloc fuel dev skb = some r) :
    ∀ p ∈ r.chain, ∃ u off n, RxVisits host alloc dev skb u ∧ rxCond u = true ∧
      rxCopies host alloc u = some (off, n) ∧ p.data = u.skbIn.slice off n := by
  rcases Loop.run_cases h with ⟨hr, -⟩ | ⟨t, ht, hcond, hstop⟩
  · exact RxVisits.chain hr
  · intro p hp
    rw [rxBody_chain (.inr hstop), List.mem_append] at hp
    rcases hp with hp | hp
    · exact RxVisits.chain ht p hp
    · obtain ⟨off, n, hcopy, hdata⟩ := rxCopies_of_rxPacket (Option.mem_toList.1 hp)
      exact ⟨t, off, n, ht, hcond, hcopy, hdata⟩

theorem SameSettings.frameInside (h : SameSettings dev dev') (cur : SkBuff) :
    FrameInside host dev' cur ↔ FrameInside host dev cur := by
  rw [FrameInside, FrameInside, h.front_eq, h.minimumPadding]

/-- **When the handler reads only what it should.**  Whatever the aggregate, the table of children
and the setting: no iteration reads behind the buffer, and every packet lies between the headers and
the padding of its frame, if and only if every data frame that the handler comes to has a byte
behind its headers, and announces at least the padding that it and the setting take off. -/
theorem rx_reads_iff (host : Host) (dev : MhiNetdev) (skb : SkBuff)
    (hset : dev.dlMinimumPadding < 2 ^ 32) :
    ReadsInside host dev skb ↔
      ∀ cur, FrameStart host dev skb cur → RmnetMapHeader.size < cur.len →
        FrameInside host dev cur := by
  constructor
  · intro h cur hcur hlen
    obtain ⟨t, ht, rfl, hdev⟩ := hcur.visits
    have hcond : rxCond t = true := decide_eq_true hlen
    rw [← hdev.frameInside, FrameInside]
    split
    all_goals rename_i heq
    case h_1 =>
      refine h.reads _ t ht hcond _ ?_
      rw [rxReads, heq]
      simp
    case h_2 =>
      have hcopy : rxCopies host (fun _ ↦ true) t =
          some (hdrSize host t.skbIn, skbLen host t.dev t.skbIn) := by
        rw [rxCopies, heq]
        rfl
      refine ⟨h.reads _ t ht hcond _ ?_, ?_⟩
      · rw [rxReads, heq]
        simp
      · obtain ⟨-, hend⟩ := h.copies _ t _ _ ht hcond hcopy
        rw [← skbLen_le_iff (by rw [hdev.dlMinimumPadding]; exact hset) heq]
        rw [frameSize] at hend
        omega
    case h_3 => trivial
  · intro h
    have hin : ∀ alloc t, RxVisits host alloc dev skb t → rxCond t = true →
        FrameInside host t.dev t.skbIn ∧ t.dev.dlMinimumPadding < 2 ^ 32 := by
      intro alloc t ht hcond
      obtain ⟨hstart, hdev⟩ := ht.frameStart
      rw [hdev.frameInside, hdev.dlMinimumPadding]
      exact ⟨h _ hstart (of_decide_eq_true hcond), hset⟩
    refine ⟨fun alloc t ht hcond i hi ↦ ?_, fun alloc t off n ht hcond hcopy ↦ ?_, ?_⟩
    · exact reads_inside (hin alloc t ht hcond).2 hcond (hin alloc t ht hcond).1 hi
    · exact copies_inside (hin alloc t ht hcond).2 (hin alloc t ht hcond).1 hcopy
    · intro alloc fuel r hr p hp
      obtain ⟨t, off, n, ht, hcond, hcopy, hdata⟩ := rx_chain hr p hp
      obtain ⟨hoff, hend⟩ := copies_inside (hin alloc t ht hcond).2 (hin alloc t ht hcond).1 hcopy
      obtain ⟨-, -, -, c, protocol, heq⟩ := rxCopies_eq_some hcopy
      have hle := (front_data heq).2
      have hstart := ht.frameStart.1
      obtain ⟨k, hk, hcur⟩ := hstart.exists_drop
      have hlen : t.skbIn.len = skb.len - k := by
        rw [hcur, SkBuff.len, SkBuff.len, List.length_drop]
      refine ⟨k, off, n, t.skbIn, hcur, hstart, hoff, hend, by omega, ?_⟩
      rw [hdata, SkBuff.slice_eq _ (by omega), hcur, List.drop_drop]

/-- On a device with one child, an aggregate of one frame, with nothing behind its headers but the
end of the buffer. -/
theorem rx_reads_behind_empty_packet :
    ¬ ReadsInside .little { twoChannels with qmapMode := 1 }
      ⟨[0x40, 0x81, 0, 0, 4, 0, 0, 0], []⟩ := by
  intro h
  have := h.reads (fun _ ↦ true) _ .refl (by decide) 8 (by decide)
  exact absurd this (by decide)

/-- An aggregate that is as it should be: a command, and a packet of one byte with padding. -/
theorem rx_reads_two_frames : ReadsInside .little twoChannels
    ⟨[0x80, 0x81, 0, 1, 9, 0x43, 0x82, 0, 4, 4, 0, 0, 0, 0x45, 0, 0, 0], []⟩ := by
  refine (rx_reads_iff .little twoChannels _ (by decide)).2 fun cur hcur hlen ↦ ?_
  have hstarts : cur = ⟨[0x80, 0x81, 0, 1, 9, 0x43, 0x82, 0, 4, 4, 0, 0, 0, 0x45, 0, 0, 0], []⟩ ∨
      cur = ⟨[0x43, 0x82, 0, 4, 4, 0, 0, 0, 0x45, 0, 0, 0], []⟩ ∨ cur = ⟨[], []⟩ := by
    clear hlen
    induction hcur with
    | first => exact .inl rfl
    | next _ hlen _ ih =>
      rcases ih with rfl | rfl | rfl
      · exact .inr (.inl (by decide))
      · exact .inr (.inr (by decide))
      · exact absurd hlen (by decide)
  rcases hstarts with rfl | rfl | rfl
  · exact trivial
  · exact ⟨by decide, by decide⟩
  · exact absurd hlen (by decide)

end OpenwrtFeed.Mhi
