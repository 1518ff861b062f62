import OpenwrtFeed.Mhi.Decode

/-!
# Flow control commands

A frame with the command bit is not for a child but for the driver: the modem asks it to stop or to
resume a channel, and expects the command back as an acknowledgement.  `rmnet_data_map_command` is
called in the middle of the receive loop, once the channel of the frame and its length are known to
be good.

It works out the channel a second time, as a byte and not as an `int` (`muxId_eq` says that this is
the same for every frame that gets there), and it reads a command of sixteen bytes whatever length
the frame has.  So what `CommandOk` asks for, that only the channel named by the frame is touched
and that only the frame is sent back, holds of exactly those runs in which every command that is
carried out is as long as a command (`rx_commands_iff`).
-/

set_option autoImplicit false

namespace OpenwrtFeed.Mhi

variable {host : Host} {alloc : Nat → Bool} {dev : MhiNetdev} {skb : SkBuff}

/-! ## One command -/

/-- The frame asks to resume or to stop its channel. -/
def IsFlowCommand (skb : SkBuff) : Prop :=
  commandName skb = flowEnable ∨ commandName skb = flowDisable

instance (skb : SkBuff) : Decidable (IsFlowCommand skb) :=
  inferInstanceAs (Decidable (_ ∨ _))

/-- The frame at the front of the buffer, as long as it says it is. -/
def frameBytes (host : Host) (skb : SkBuff) : List UInt8 := skb.data.take (frameSize host skb)

/-- The header and the command of a frame, with the type of an acknowledgement. -/
def ackOf (host : Host) (skb : SkBuff) : List UInt8 :=
  ((frameBytes host skb).take (RmnetMapHeader.size + controlCommandSize)).modify
    (RmnetMapHeader.size + 1) (setCmdType host CommandResult.ack.type)

/-- The frame is a command that the driver carries out. -/
def Accepted (host : Host) (s : RxState) : Prop :=
  front host s.dev s.skbIn = .command ∧ IsFlowCommand s.skbIn

/-- What an iteration with a command frame at the front of the buffer may do. -/
structure CommandOk (host : Host) (s s' : RxState) : Prop where
  /-- Nothing else of the device changes, but for the counters. -/
  dev_eq : s'.dev =
    { s.dev with flowControl := s'.dev.flowControl, commandStats := s'.dev.commandStats }
  /-- The bit of the channel is what an accepted command says. -/
  own : Accepted host s →
    s'.dev.flowControl.getLsbD (frameMuxId s.skbIn).natAbs =
      decide (commandName s.skbIn = flowEnable)
  /-- No other bit changes. -/
  others : ∀ j, ¬ (Accepted host s ∧ j = (frameMuxId s.skbIn).natAbs) →
    s'.dev.flowControl.getLsbD j = s.dev.flowControl.getLsbD j
  /-- An accepted command is acknowledged, by itself. -/
  sent_of_accepted : Accepted host s → s'.sent = s.sent ++ [ackOf host s.skbIn]
  sent_of_not_accepted : ¬ Accepted host s → s'.sent = s.sent

/-- Setting or clearing one bit. -/
theorem getLsbD_flow (x : BitVec 32) {c : Nat} (hc : c < 32) (enable : Bool) (j : Nat) :
    (if enable then x ||| (1#32 <<< c) else x &&& ~~~(1#32 <<< c)).getLsbD j =
      if j = c then enable else x.getLsbD j := by
  have hbit : (1#32 <<< c).getLsbD j = decide (j = c) := by
    rw [BitVec.getLsbD_shiftLeft, BitVec.getLsbD_one]
    by_cases hj : j = c
    · simp [hj, hc]
    · by_cases hlt : j < c
      · simp [hlt, hj]
      · have hne : j - c ≠ 0 := by omega
        simp [hne, hj]
  rcases enable with _ | _
  · rw [if_neg (by decide), BitVec.getLsbD_and, BitVec.getLsbD_not, hbit]
    rcases Nat.lt_or_ge j 32 with hlt | hge
    · by_cases hj : j = c <;> simp [hj, hlt]
    · rw [BitVec.getLsbD_of_ge x j hge, Bool.false_and, if_neg (by omega)]
  · rw [if_pos rfl, BitVec.getLsbD_or, hbit]
    by_cases hj : j = c <;> simp [hj]

/-- The channel, as a byte and as an `int`. -/
theorem muxId_eq (hmode : dev.qmapMode ≤ 8) (h : toU32 (frameMuxId skb) < dev.qmapMode) :
    (skb.byte 1 - UInt8.ofNat quectelQmapMuxId).toNat = (frameMuxId skb).natAbs := by
  have hlt := (skb.byte 1).toNat_lt
  rw [frameMuxId, quectelQmapMuxId, toU32] at h
  rw [frameMuxId, quectelQmapMuxId, UInt8.toNat_sub, UInt8.toNat_ofNat']
  omega

/-- `rmnet_map_do_flow_control` on a frame that has passed the checks of the handler. -/
theorem rmnetMapDoFlowControl_eq (dev : MhiNetdev) (hmode : dev.qmapMode ≤ 8)
    (h : toU32 (frameMuxId skb) < dev.qmapMode) {c : Child}
    (hc : dev.mpQmapNetDev (frameMuxId skb).natAbs = some c) (enable : Bool) :
    ∃ flow, rmnetMapDoFlowControl dev skb enable = ({ dev with flowControl := flow }, .ack) ∧
      ∀ j, flow.getLsbD j = if j = (frameMuxId skb).natAbs then enable
        else dev.flowControl.getLsbD j := by
  have hlt : (frameMuxId skb).natAbs < dev.qmapMode := by
    have := (skb.byte 1).toNat_lt
    rw [frameMuxId, quectelQmapMuxId, toU32] at h
    rw [frameMuxId, quectelQmapMuxId]
    omega
  simp only [rmnetMapDoFlowControl, muxId_eq hmode h, hc]
  rw [if_neg (by omega)]
  refine ⟨_, ?_, getLsbD_flow dev.flowControl (by omega) enable⟩
  cases enable <;> rfl

/-- A frame that the handler takes for a command has a channel with a child, and is in the
buffer. -/
theorem front_command (h : front host dev skb = .command) :
    toU32 (frameMuxId skb) < dev.qmapMode ∧ frameSize host skb ≤ skb.len ∧
      ∃ c, dev.mpQmapNetDev (frameMuxId skb).natAbs = some c := by
  obtain ⟨hmode, c, hc, -, hlen, -⟩ := front_complete (h ▸ trivial : (front host dev skb).Complete)
  exact ⟨hmode, hlen, c, hc⟩

theorem cdBit_of_front (h : front host dev skb = .command) :
    RmnetMapHeader.cdBit host (skb.byte 0) = true := by
  obtain ⟨-, c, -, -, -, heq⟩ := front_complete (h ▸ trivial : (front host dev skb).Complete)
  rw [h] at heq
  split at heq
  · assumption
  · split at heq <;> exact absurd heq (by simp)

/-- A command that asks for nothing is counted. -/
theorem rxCommand_of_not_flow (host : Host) (alloc : Nat → Bool) {s : RxState}
    (h : ¬ IsFlowCommand s.skbIn) :
    ∃ stats, rxCommand host alloc s = { s with dev := { s.dev with commandStats := stats } } := by
  obtain ⟨stats, heq⟩ := rmnetDataMapCommand_eq s.dev s.skbIn
  rw [IsFlowCommand, not_or] at h
  rw [if_neg h.1, if_neg h.2] at heq
  exact ⟨stats, by rw [rxCommand, heq]⟩

/-- A flow command changes the bit of its channel, and is sent back if there is a buffer for it. -/
theorem rxCommand_of_flow (alloc : Nat → Bool) {s : RxState} (hmode : s.dev.qmapMode ≤ 8)
    (hfront : front host s.dev s.skbIn = .command) (h : IsFlowCommand s.skbIn) :
    ∃ stats flow,
      rxCommand host alloc s =
        { s with
          dev := { s.dev with commandStats := stats, flowControl := flow }
          allocs := s.allocs + 1
          sent := s.sent ++
            if alloc s.allocs then [ackBytes host CommandResult.ack.type s.skbIn] else [] } ∧
      ∀ j, flow.getLsbD j = if j = (frameMuxId s.skbIn).natAbs
        then decide (commandName s.skbIn = flowEnable) else s.dev.flowControl.getLsbD j := by
  obtain ⟨hlt, -, c, hc⟩ := front_command hfront
  obtain ⟨stats, heq⟩ := rmnetDataMapCommand_eq s.dev s.skbIn
  have hcommand : rmnetDataMapCommand s.dev s.skbIn =
      rmnetMapDoFlowControl { s.dev with commandStats := stats } s.skbIn
        (decide (commandName s.skbIn = flowEnable)) := by
    rw [heq]
    rcases h with hen | hdis
    · rw [if_pos hen, hen]
      rfl
    · rw [if_neg (by rw [hdis]; decide), if_pos hdis, hdis]
      rfl
  obtain ⟨flow, hflow, hbits⟩ := rmnetMapDoFlowControl_eq
    { s.dev with commandStats := stats } hmode hlt hc (decide (commandName s.skbIn = flowEnable))
  exact ⟨stats, flow, by rw [rxCommand, hcommand, hflow], hbits⟩

/-- **The acknowledgement** is the frame with another type if and only if the frame is long
enough. -/
theorem ackBytes_eq_iff (h : frameSize host skb ≤ skb.len) :
    ackBytes host CommandResult.ack.type skb = ackOf host skb ↔
      RmnetMapHeader.size + controlCommandSize ≤ frameSize host skb := by
  constructor
  · intro heq
    have hlen := congrArg List.length heq
    simp only [ackBytes, ackOf, frameBytes, List.length_modify, SkBuff.slice, List.length_map,
      List.length_range, List.length_take] at hlen
    omega
  · intro hle
    rw [ackBytes, ackOf, frameBytes, SkBuff.slice_eq _ (by omega), List.drop_zero, List.take_take,
      Nat.min_eq_left hle]

/-! ## Every command of a run -/

/-- A frame with the command bit is never taken for a packet. -/
theorem front_of_cdBit (hcd : RmnetMapHeader.cdBit host (skb.byte 0) = true)
    (h : (front host dev skb).Complete) : front host dev skb = .command := by
  obtain ⟨-, c, -, -, -, heq⟩ := front_complete h
  rw [heq, if_pos hcd]

/-- What an iteration does to the device and sends, if the frame is not accepted. -/
theorem rxBody_of_not_accepted {s s' : RxState}
    (hcd : RmnetMapHeader.cdBit host (s.skbIn.byte 0) = true)
    (hbody : rxBody host alloc s = .next s' ∨ rxBody host alloc s = .stop s')
    (hacc : ¬ Accepted host s) :
    ∃ stats, s'.dev = { s.dev with commandStats := stats } ∧ s'.sent = s.sent := by
  have hcomplete : (front host s.dev s.skbIn).Complete → front host s.dev s.skbIn = .command :=
    front_of_cdBit hcd
  rw [Accepted, not_and] at hacc
  rw [rxBody_eq] at hbody
  revert hbody hacc hcomplete
  rcases front host s.dev s.skbIn with _ | _ | _ | _ | _ | _ | ⟨c, protocol⟩ <;>
    intro hbody hacc hcomplete
  case free =>
    rcases hbody with h | h
    · obtain rfl := Loop.Exit.next.inj h
      exact ⟨_, rfl, rfl⟩
    · exact absurd h (by simp)
  case command =>
    obtain ⟨stats, heq⟩ := rxCommand_of_not_flow host alloc (hacc rfl)
    rcases hbody with h | h
    · obtain rfl := Loop.Exit.next.inj h
      exact ⟨stats, by rw [heq], by rw [heq]⟩
    · exact absurd h (by simp)
  case notIp | data => exact absurd (hcomplete trivial) (by simp)
  all_goals
    rcases hbody with h | h
    · exact absurd h (by simp)
    · obtain rfl := Loop.Exit.stop.inj h
      exact ⟨_, rfl, rfl⟩

/-- What an iteration does with a command that it accepts. -/
theorem rxBody_of_accepted {s s' : RxState} (hmode : s.dev.qmapMode ≤ 8)
    (hbody : rxBody host alloc s = .next s' ∨ rxBody host alloc s = .stop s')
    (hacc : Accepted host s) :
    ∃ stats flow, s'.dev = { s.dev with commandStats := stats, flowControl := flow } ∧
      s'.sent = s.sent ++
        (if alloc s.allocs then [ackBytes host CommandResult.ack.type s.skbIn] else []) ∧
      ∀ j, flow.getLsbD j = if j = (frameMuxId s.skbIn).natAbs
        then decide (commandName s.skbIn = flowEnable) else s.dev.flowControl.getLsbD j := by
  obtain ⟨stats, flow, heq, hbits⟩ := rxCommand_of_flow alloc hmode hacc.1 hacc.2
  rw [rxBody_eq, hacc.1] at hbody
  rcases hbody with h | h
  · obtain rfl := Loop.Exit.next.inj h
    exact ⟨stats, flow, by rw [heq], by rw [heq], hbits⟩
  · exact absurd h (by simp)

theorem ack_sent_iff {s : RxState} (hacc : Accepted host s) :
    s.sent ++ (if alloc s.allocs then [ackBytes host CommandResult.ack.type s.skbIn] else []) =
        s.sent ++ [ackOf host s.skbIn] ↔
      alloc s.allocs = true ∧ RmnetMapHeader.size + controlCommandSize ≤
        frameSize host s.skbIn := by
  rw [List.append_cancel_left_eq, ← ackBytes_eq_iff (front_command hacc.1).2.1]
  by_cases halloc : alloc s.allocs = true
  · rw [if_pos halloc, List.cons.injEq]
    simp [halloc]
  · rw [if_neg halloc]
    simp [halloc]

/-- **When commands keep to their channel and their frame.**  In a run of the handler, every command
frame changes at most the bit of its own channel, as it says, and is answered exactly if it is a
flow command for a channel with a child, by its own header and command, if and only if for each such
flow command there is a buffer and its frame announces a whole command. -/
theorem rx_commands_iff (host : Host) (alloc : Nat → Bool) (dev : MhiNetdev) (skb : SkBuff)
    (hmode : dev.qmapMode ≤ 8) :
    (∀ t t', RxVisits host alloc dev skb t → rxCond t = true →
      RmnetMapHeader.cdBit host (t.skbIn.byte 0) = true →
      rxBody host alloc t = .next t' ∨ rxBody host alloc t = .stop t' → CommandOk host t t') ↔
    ∀ t, RxVisits host alloc dev skb t → rxCond t = true → Accepted host t →
      alloc t.allocs = true ∧ RmnetMapHeader.size + controlCommandSize ≤
        frameSize host t.skbIn := by
  constructor
  · intro h t ht hcond hacc
    have hbody := rxBody_eq host alloc t
    rw [hacc.1] at hbody
    have hcd := cdBit_of_front hacc.1
    have hmode' : t.dev.qmapMode ≤ 8 := by rwa [ht.frameStart.2.qmapMode]
    obtain ⟨stats, flow, -, hsent, -⟩ := rxBody_of_accepted hmode' (.inl hbody) hacc
    rw [← ack_sent_iff hacc, ← hsent]
    exact (h t _ ht hcond hcd (.inl hbody)).sent_of_accepted hacc
  · intro h t t' ht hcond hcd hbody
    by_cases hacc : Accepted host t
    · have hmode' : t.dev.qmapMode ≤ 8 := by rwa [ht.frameStart.2.qmapMode]
      obtain ⟨stats, flow, hdev, hsent, hbits⟩ := rxBody_of_accepted hmode' hbody hacc
      refine ⟨by rw [hdev], fun _ ↦ ?_, fun j hj ↦ ?_, fun _ ↦ ?_, fun hn ↦ absurd hacc hn⟩
      · rw [hdev, hbits, if_pos rfl]
      · rw [hdev, hbits, if_neg fun hj' ↦ hj ⟨hacc, hj'⟩]
      · rw [hsent, ack_sent_iff hacc]
        exact h t ht hcond hacc
    · obtain ⟨stats, hdev, hsent⟩ := rxBody_of_not_accepted hcd hbody hacc
      exact ⟨by rw [hdev], fun hn ↦ absurd hn hacc, fun j _ ↦ by rw [hdev],
        fun hn ↦ absurd hn hacc, fun _ ↦ hsent⟩

/-- A flow command of one byte, followed by the start of another frame, which goes into the
acknowledgement. -/
theorem rx_commands_short_frame :
    ¬ ∀ t t', RxVisits .little (fun _ ↦ true) twoChannels
        ⟨[0x80, 0x81, 0, 1, 2, 0x00, 0x82, 0, 1, 0x45], []⟩ t → rxCond t = true →
      RmnetMapHeader.cdBit .little (t.skbIn.byte 0) = true →
      rxBody .little (fun _ ↦ true) t = .next t' ∨ rxBody .little (fun _ ↦ true) t = .stop t' →
      CommandOk .little t t' := by
  intro h
  have hacc : Accepted .little
      { dev := twoChannels, skbIn := ⟨[0x80, 0x81, 0, 1, 2, 0x00, 0x82, 0, 1, 0x45], []⟩ } :=
    ⟨by decide, .inl (by decide)⟩
  have hbody := rxBody_eq .little (fun _ ↦ true)
    { dev := twoChannels, skbIn := ⟨[0x80, 0x81, 0, 1, 2, 0x00, 0x82, 0, 1, 0x45], []⟩ }
  rw [hacc.1] at hbody
  have hok := (h _ _ .refl (by decide) (by decide) (.inl hbody)).sent_of_accepted hacc
  exact absurd hok (by decide)

/-- A whole flow command, and what follows it. -/
theorem rx_commands_whole_frame :
    twoChannels.qmapMode ≤ 8 ∧ ∀ t t', RxVisits .little (fun _ ↦ true) twoChannels
        ⟨[0x80, 0x82, 0, 16, 1, 0, 0, 0, 0, 0, 0, 7, 0, 0, 0, 0, 0, 0, 0, 0, 0, 0x81], []⟩ t →
      rxCond t = true → RmnetMapHeader.cdBit .little (t.skbIn.byte 0) = true →
      rxBody .little (fun _ ↦ true) t = .next t' ∨ rxBody .little (fun _ ↦ true) t = .stop t' →
      CommandOk .little t t' := by
  have hmode : twoChannels.qmapMode ≤ 8 := by decide
  refine ⟨hmode, (rx_commands_iff .little (fun _ ↦ true) twoChannels _ hmode).2
    fun t ht hcond _ ↦ ?_⟩
  refine ⟨rfl, ?_⟩
  have hstart := ht.frameStart.1
  have hlen : RmnetMapHeader.size < t.skbIn.len := of_decide_eq_true hcond
  generalize t.skbIn = cur at hstart hlen ⊢
  have hcur :
      cur = ⟨[0x80, 0x82, 0, 16, 1, 0, 0, 0, 0, 0, 0, 7, 0, 0, 0, 0, 0, 0, 0, 0, 0, 0x81], []⟩ ∨
        cur = ⟨[0, 0x81], []⟩ := by
    clear hlen
    induction hstart with
    | first => exact .inl rfl
    | next _ hlen _ ih =>
      rcases ih with rfl | rfl
      · exact .inr (by decide)
      · exact absurd hlen (by decide)
  rcases hcur with rfl | rfl
  · decide
  · exact absurd hlen (by decide)

end OpenwrtFeed.Mhi
