import OpenwrtFeed.Mhi.Mbim

/-!
# What the MBIM receive handler makes of any block

Nothing is known about a block that comes from the modem.  `entry` and `tablePasses` say in terms of
the block what the handler makes of the table of an NDP, as long as there are buffers, and `ndpNext`
where it goes from there; `NdpStart` are the offsets at which it takes an NDP for granted.  What one
iteration does is proved along the table, by induction on its entries, once for each of the
questions asked below; what a run does then follows from the chain of the NDPs.

* `mbim_ends_iff`: the handler ends if and only if the chain does not come back to an NDP.
* `mbim_inside_iff`: it stays inside the block and the table of children if and only if all the
  tables that it walks along are in the block and have a child.
* `mbim_delivers_iff`: every buffer that it was given is delivered, if and only if no datagram that
  it comes to is of another protocol.
-/

set_option autoImplicit false

namespace OpenwrtFeed.Mhi

/-! ## Entries of a table -/

/-- What the handler makes of an entry. -/
inductive Entry where
  /-- It is the end of the table. -/
  | last
  /-- The datagram is not in the block, or too long. -/
  | invalid
  /-- The datagram is of neither version of the internet protocol. -/
  | notIp
  | packet (protocol : Protocol)
  deriving DecidableEq, Repr

/-- The checks of the inner loop, in their order. -/
def entry (skb : SkBuff) (p : Nat) : Entry :=
  if skb.le16 p = 0 ∨ skb.le16 (p + 2) = 0 then .last
  else if skb.len < skb.le16 p + skb.le16 (p + 2) ∨ rxMax < skb.le16 (p + 2) then .invalid
  else match protocolOf (skb.byte (skb.le16 p)) with
    | none => .notIp
    | some protocol => .packet protocol

/-- The state once an entry was read and a buffer was there for its datagram. -/
def granted (skb : SkBuff) (p : Nat) (s : MbimState) : MbimState :=
  { (s.read p dpe16Size).read (skb.le16 p) 1 with
    allocs := s.allocs + 1, granted := s.granted ++ [s.allocs] }

/-- The state once an entry was read and no buffer was there for its datagram. -/
def refused (p : Nat) (s : MbimState) : MbimState :=
  { s.read p dpe16Size with
    allocs := s.allocs + 1, dev := { s.dev with allocFailed := s.dev.allocFailed + 1 } }

/-- The state once a datagram was copied and its child is about to be looked at. -/
def copied (skb : SkBuff) (slot p : Nat) (s : MbimState) : MbimState :=
  { (granted skb p s).read (skb.le16 p) (skb.le16 (p + 2)) with followed := s.followed ++ [slot] }

/-- The state once a datagram was queued. -/
def queued (skb : SkBuff) (slot p : Nat) (protocol : Protocol) (c : MbimChild) (s : MbimState) :
    MbimState :=
  { copied skb slot p s with
    chain := s.chain ++ [⟨s.allocs, ⟨slot, protocol, skb.slice (skb.le16 p) (skb.le16 (p + 2)),
      c.macHeader protocol⟩⟩] }

variable {alloc : Nat → Bool} {skb : SkBuff} {slot : Nat}

/-- **What the inner loop does with an entry.** -/
theorem mbimDatagrams_succ (alloc : Nat → Bool) (skb : SkBuff) (slot n p : Nat) (s : MbimState) :
    mbimDatagrams alloc skb slot (n + 1) p s =
      match entry skb p with
      | .last => .next (s.read p dpe16Size)
      | .invalid => .stop (s.read p dpe16Size)
      | .notIp => if alloc s.allocs then .stop (granted skb p s) else .stop (refused p s)
      | .packet protocol =>
        if alloc s.allocs then
          match s.dev.mpQmapNetDev slot with
          | none => .stop { copied skb slot p s with oops := true }
          | some c =>
            mbimDatagrams alloc skb slot n (p + dpe16Size) (queued skb slot p protocol c s)
        else .stop (refused p s) := by
  rw [mbimDatagrams, entry]
  by_cases hlast : skb.le16 p = 0 ∨ skb.le16 (p + 2) = 0
  · simp only [if_pos hlast]
  simp only [if_neg hlast]
  by_cases hbad : skb.len < skb.le16 p + skb.le16 (p + 2) ∨ rxMax < skb.le16 (p + 2)
  · simp only [if_pos hbad]
  simp only [if_neg hbad]
  rcases protocolOf (skb.byte (skb.le16 p)) with _ | protocol
  · rfl
  · rfl

/-! ## The chain of the NDPs -/

/-- Whether the handler comes to the end of a table, as long as there are buffers. -/
def tablePasses (skb : SkBuff) (live : Bool) : Nat → Nat → Bool
  | 0, _ => true
  | n + 1, p =>
    match entry skb p with
    | .last => true
    | .invalid | .notIp => false
    | .packet _ => live && tablePasses skb live n (p + dpe16Size)

/-- Where an NDP leads, if the handler gets through it. -/
def ndpNext (dev : MbimNetdev) (skb : SkBuff) (off : Nat) : Option Nat :=
  if off = 0 then none
  else match ndp dev skb off with
    | .table slot n =>
      if tablePasses skb (dev.mpQmapNetDev slot).isSome n (off + ndp16Size) then
        some (skb.le16 (off + 6))
      else none
    | _ => none

/-- The header of the block is accepted. -/
def HeaderOk (skb : SkBuff) : Prop :=
  nth16Size + ndp16Size ≤ skb.len ∧ skb.slice 0 4 = nth16Sign ∧ skb.le16 8 ≤ rxMax

/-- An NDP leads to another. -/
def NdpStep (dev : MbimNetdev) (skb : SkBuff) (off off' : Nat) : Prop :=
  ndpNext dev skb off = some off'

/-- The handler comes to an offset at which it expects an NDP. -/
def NdpStart (host : Host) (dev : MbimNetdev) (skb : SkBuff) (off : Nat) : Prop :=
  HeaderOk skb ∧ Relation.ReflTransGen (NdpStep dev skb) (skb.raw16 host 10) off

/-- The state in which the loop begins. -/
def mbimFirst (host : Host) (dev : MbimNetdev) (skb : SkBuff) : MbimState where
  dev := { dev with rxSeq := UInt16.ofNat (skb.le16 6) + 1 }
  ndpoffset := skb.raw16 host 10
  reads := [0, 1, 2, 3, 8, 9, 6, 7, 10, 11]

variable {host : Host} {dev : MbimNetdev}

theorem mbimHeader_of_ok (h : HeaderOk skb) :
    mbimHeader host dev skb = .next (mbimFirst host dev skb) := by
  obtain ⟨hlen, hsign, hmax⟩ := h
  rw [mbimHeader, if_neg (by omega)]
  dsimp only
  rw [if_neg (not_not.2 hsign), if_neg (by omega)]
  rfl

/-- A header that is not accepted is the end. -/
theorem mbimHeader_of_not_ok (host : Host) (dev : MbimNetdev) (h : ¬ HeaderOk skb) :
    mbimHeader host dev skb = .stop { dev } ∨
      mbimHeader host dev skb = .stop (({ dev } : MbimState).read 0 4) ∧
        nth16Size + ndp16Size ≤ skb.len ∨
      mbimHeader host dev skb = .stop ((({ dev } : MbimState).read 0 4).read 8 2) ∧
        nth16Size + ndp16Size ≤ skb.len := by
  rw [mbimHeader]
  by_cases hlen : skb.len < nth16Size + ndp16Size
  · exact .inl (if_pos hlen)
  rw [if_neg hlen]
  dsimp only
  by_cases hsign : skb.slice 0 4 = nth16Sign
  · have hmax : rxMax < skb.le16 8 := not_le.1 fun hmax ↦ h ⟨not_lt.1 hlen, hsign, hmax⟩
    rw [if_neg (not_not.2 hsign), if_pos hmax]
    exact .inr (.inr ⟨rfl, not_lt.1 hlen⟩)
  · rw [if_pos hsign]
    exact .inr (.inl ⟨rfl, not_lt.1 hlen⟩)

/-- A walk along a table that comes to its end leaves the device as it is. -/
theorem mbimDatagrams_next {n p : Nat} {s s' : MbimState}
    (h : mbimDatagrams alloc skb slot n p s = .next s') :
    s'.dev = s.dev ∧ s'.oops = s.oops ∧
      tablePasses skb (s.dev.mpQmapNetDev slot).isSome n p = true := by
  induction n generalizing p s with
  | zero =>
    obtain rfl := Loop.Exit.next.inj h
    exact ⟨rfl, rfl, rfl⟩
  | succ n ih =>
    rw [mbimDatagrams_succ] at h
    rw [tablePasses]
    revert h
    rcases entry skb p with _ | _ | _ | protocol <;> intro h <;> dsimp only at h ⊢
    case last =>
      obtain rfl := Loop.Exit.next.inj h
      exact ⟨rfl, rfl, rfl⟩
    case invalid => exact absurd h (by simp)
    case notIp => split at h <;> exact absurd h (by simp)
    case packet =>
      split at h
      · split at h
        · exact absurd h (by simp)
        · rename_i c hc
          obtain ⟨hdev, hoops, hpass⟩ := ih h
          rw [show (queued skb slot p protocol c s).dev = s.dev from rfl, hc] at hpass
          exact ⟨hdev, hoops, by rwa [hc]⟩
      · exact absurd h (by simp)

/-- With enough buffers, a table that may be passed is passed. -/
theorem exists_mbimDatagrams_next {n p : Nat} {s : MbimState}
    (h : tablePasses skb (s.dev.mpQmapNetDev slot).isSome n p = true) :
    ∃ s', mbimDatagrams (fun _ ↦ true) skb slot n p s = .next s' := by
  induction n generalizing p s with
  | zero => exact ⟨s, rfl⟩
  | succ n ih =>
    rw [tablePasses] at h
    rw [mbimDatagrams_succ]
    revert h
    rcases entry skb p with _ | _ | _ | protocol <;> intro h <;> dsimp only at h ⊢
    case last => exact ⟨_, rfl⟩
    case invalid | notIp => exact absurd h (by simp)
    case packet =>
      rw [Bool.and_eq_true, Option.isSome_iff_exists] at h
      obtain ⟨⟨c, hc⟩, hpass⟩ := h
      rw [if_pos rfl, hc]
      exact ih hpass

/-- An iteration of the outer loop follows the chain. -/
theorem mbim_iterates {s s' : MbimState} (h : Loop.Iterates mbimCond (mbimBody alloc skb) s s') :
    NdpStep s.dev skb s.ndpoffset s'.ndpoffset ∧ s'.dev = s.dev ∧ s'.oops = s.oops := by
  obtain ⟨hcond, hbody⟩ := h
  have hpos : s.ndpoffset ≠ 0 := (of_decide_eq_true hcond).ne'
  rw [mbimBody] at hbody
  rw [NdpStep, ndpNext, if_neg hpos]
  revert hbody
  rcases ndp s.dev skb s.ndpoffset with _ | _ | _ | _ | ⟨slot, n⟩ <;> intro hbody <;>
    dsimp only at hbody ⊢
  case table =>
    split at hbody
    · exact absurd hbody (by simp)
    · rename_i u hu
      obtain ⟨hdev, hoops, hpass⟩ := mbimDatagrams_next hu
      obtain rfl := Loop.Exit.next.inj hbody
      exact ⟨if_pos hpass, hdev, hoops⟩
  all_goals exact absurd hbody (by simp)

/-- With enough buffers, the chain is followed. -/
theorem exists_mbim_iterates {s : MbimState} {off : Nat} (h : NdpStep s.dev skb s.ndpoffset off) :
    ∃ s', Loop.Iterates mbimCond (mbimBody (fun _ ↦ true) skb) s s' ∧ s'.ndpoffset = off := by
  rw [NdpStep, ndpNext] at h
  split at h
  · exact absurd h (by simp)
  · rename_i hpos
    split at h
    · rename_i slot n hndp
      split at h
      · rename_i hpass
        obtain ⟨s', hs'⟩ := exists_mbimDatagrams_next (s := s.lookUp slot) hpass
        refine ⟨{ s'.read (s.ndpoffset + 6) 2 with ndpoffset := skb.le16 (s.ndpoffset + 6) },
          ⟨decide_eq_true (Nat.pos_of_ne_zero hpos), ?_⟩, Option.some.inj h⟩
        rw [mbimBody, hndp]
        dsimp only
        rw [hs']
      · exact absurd h (by simp)
    · exact absurd h (by simp)

/-- The states that the outer loop comes by. -/
def MbimVisits (host : Host) (alloc : Nat → Bool) (dev : MbimNetdev) (skb : SkBuff)
    (t : MbimState) :
    Prop :=
  Loop.Visits mbimCond (mbimBody alloc skb) (mbimFirst host dev skb) t

/-- The chain does not depend on the counters of the device. -/
theorem ndpStep_first (off off' : Nat) :
    NdpStep (mbimFirst host dev skb).dev skb off off' ↔ NdpStep dev skb off off' := Iff.rfl

/-- Every iteration is at an NDP of the chain. -/
theorem MbimVisits.ndpStart {t : MbimState} (hok : HeaderOk skb)
    (h : MbimVisits host alloc dev skb t) :
    NdpStart host dev skb t.ndpoffset ∧ t.dev = (mbimFirst host dev skb).dev := by
  induction h with
  | refl => exact ⟨⟨hok, .refl⟩, rfl⟩
  | tail _ hstep ih =>
    obtain ⟨hndp, hdev, -⟩ := mbim_iterates hstep
    rw [ih.2, ndpStep_first] at hndp
    exact ⟨⟨hok, ih.1.2.tail hndp⟩, hdev.trans ih.2⟩

/-- With enough buffers, there is an iteration at every NDP of the chain. -/
theorem NdpStart.visits {off : Nat} (h : NdpStart host dev skb off) :
    ∃ t, MbimVisits host (fun _ ↦ true) dev skb t ∧ t.ndpoffset = off ∧
      t.dev = (mbimFirst host dev skb).dev := by
  obtain ⟨hok, hpath⟩ := h
  induction hpath with
  | refl => exact ⟨_, .refl, rfl, rfl⟩
  | tail _ hndp ih =>
    obtain ⟨t, ht, rfl, hdev⟩ := ih
    rw [← ndpStep_first, ← hdev] at hndp
    obtain ⟨t', hstep, hoff⟩ := exists_mbim_iterates hndp
    exact ⟨t', ht.tail hstep, hoff, (mbim_iterates hstep).2.1.trans hdev⟩

/-! ## Whether the loop ends -/

theorem SkBuff.le16_lt (skb : SkBuff) (i : Nat) : skb.le16 i < 65536 := by
  have h₀ := (skb.byte i).toNat_lt
  have h₁ := (skb.byte (i + 1)).toNat_lt
  rw [le16]
  omega

theorem SkBuff.raw16_lt (host : Host) (skb : SkBuff) (i : Nat) : skb.raw16 host i < 65536 := by
  cases host
  · exact skb.le16_lt i
  · have h₀ := (skb.byte i).toNat_lt
    have h₁ := (skb.byte (i + 1)).toNat_lt
    simp only [raw16, ntohs]
    omega

theorem ndpStep_lt {off off' : Nat} (h : NdpStep dev skb off off') : off' < 65536 := by
  rw [NdpStep, ndpNext] at h
  split at h
  · exact absurd h (by simp)
  · split at h
    · split at h
      · exact Option.some.inj h ▸ skb.le16_lt _
      · exact absurd h (by simp)
    · exact absurd h (by simp)

theorem NdpStart.lt {off : Nat} (h : NdpStart host dev skb off) : off < 65536 := by
  obtain ⟨-, hpath⟩ := h
  induction hpath with
  | refl => exact skb.raw16_lt host 10
  | tail _ hndp _ => exact ndpStep_lt hndp

/-- A chain that leads back to one of its NDPs is followed forever. -/
theorem mbim_hangs {off : Nat} (h : NdpStart host dev skb off)
    (hback : Relation.TransGen (NdpStep dev skb) off off) :
    ¬ ∃ fuel t, rmnetMbimRxHandler host (fun _ ↦ true) fuel dev skb = some t := by
  rintro ⟨fuel, r, hr⟩
  rw [rmnetMbimRxHandler, mbimHeader_of_ok h.1] at hr
  obtain ⟨t, ht, rfl, hdev⟩ := h.visits
  -- from an NDP that the chain leads back to, it leads to another one of that kind
  have hinv : ∀ u : MbimState, Relation.TransGen (NdpStep u.dev skb) u.ndpoffset u.ndpoffset →
      ∃ u', Loop.Iterates mbimCond (mbimBody (fun _ ↦ true) skb) u u' ∧
        Relation.TransGen (NdpStep u'.dev skb) u'.ndpoffset u'.ndpoffset := by
    intro u hu
    obtain ⟨off, hstep, hrest⟩ := Relation.TransGen.head'_iff.1 hu
    obtain ⟨u', hiter, rfl⟩ := exists_mbim_iterates hstep
    refine ⟨u', hiter, ?_⟩
    rw [(mbim_iterates hiter).2.1]
    exact Relation.TransGen.tail' hrest hstep
  refine Loop.not_ends_of_invariant hinv (s := t) ?_ (Loop.Visits.ends ht ⟨fuel, r, hr⟩)
  rw [hdev]
  exact hback

/-- **When the handler ends.**  Whatever the block and the device: the handler ends if and only if
the chain of NDPs that it follows leads back to none of them. -/
theorem mbim_ends_iff (host : Host) (dev : MbimNetdev) (skb : SkBuff) :
    (∀ alloc, ∃ fuel t, rmnetMbimRxHandler host alloc fuel dev skb = some t) ↔
      ∀ off, NdpStart host dev skb off → ¬ Relation.TransGen (NdpStep dev skb) off off := by
  constructor
  · intro h off hoff hback
    exact mbim_hangs hoff hback (h fun _ ↦ true)
  · intro h alloc
    by_cases hok : HeaderOk skb
    · have hends : Loop.Ends mbimCond (mbimBody alloc skb) (mbimFirst host dev skb) := by
        refine Loop.ends_of_acyclic MbimState.ndpoffset (fun t t' ht hiter ↦ ?_) ?_
          fun off hoff ↦ h off ⟨hok, hoff⟩
        · rw [← ndpStep_first, ← (MbimVisits.ndpStart hok ht).2]
          exact (mbim_iterates hiter).1
        · exact (Set.finite_lt_nat 65536).subset fun off hoff ↦ NdpStart.lt ⟨hok, hoff⟩
      obtain ⟨fuel, r, hr⟩ := hends
      exact ⟨fuel, r, by rw [rmnetMbimRxHandler, mbimHeader_of_ok hok]; exact hr⟩
    · rcases mbimHeader_of_not_ok host dev hok with heq | ⟨heq, -⟩ | ⟨heq, -⟩
      all_goals exact ⟨0, _, by rw [rmnetMbimRxHandler, heq]⟩

/-- A device with one child. -/
def oneSession : MbimNetdev where
  qmapMode := 1
  mbimMuxId := 0
  mpQmapNetDev := fun i ↦ if i = 0 then some {} else none

/-- A block of one empty NDP, which says that the next one is where it is itself. -/
def loopBlock : SkBuff where
  data := [0x4e, 0x43, 0x4d, 0x48, 0x0c, 0, 0, 0, 0x1c, 0, 0x0c, 0,
    0x49, 0x50, 0x53, 0, 0x10, 0, 0x0c, 0, 0, 0, 0, 0, 0, 0, 0, 0]

theorem mbim_hangs_on_loop :
    ¬ ∃ fuel t, rmnetMbimRxHandler .little (fun _ ↦ true) fuel oneSession loopBlock = some t := by
  have hok : HeaderOk loopBlock := ⟨by decide, by decide, by decide⟩
  have hstep : NdpStep oneSession loopBlock 12 12 := by
    rw [NdpStep]
    decide
  exact mbim_hangs ⟨hok, .refl⟩ (.single hstep)

/-! ## What is touched -/

/-- The handler has stayed inside the block and the table of children. -/
structure Inside (dev : MbimNetdev) (skb : SkBuff) (s : MbimState) : Prop where
  reads : ∀ i ∈ s.reads, i < skb.len
  slots : ∀ i ∈ s.slots, i < dev.qmapMode
  followed : ∀ i ∈ s.followed, dev.mpQmapNetDev i ≠ none

/-- The entries of a table that the handler comes to are in the block, and their datagrams have a
child. -/
def TableInside (skb : SkBuff) (live : Bool) : Nat → Nat → Prop
  | 0, _ => True
  | n + 1, p =>
    p + dpe16Size ≤ skb.len ∧
    match entry skb p with
    | .packet _ => live = true ∧ TableInside skb live n (p + dpe16Size)
    | _ => True

/-- What an NDP has to be like: with several channels its session is not the base of the sessions,
which belongs to no child, and its table is as it should be. -/
def NdpInside (dev : MbimNetdev) (skb : SkBuff) (off : Nat) : Prop :=
  match ndp dev skb off with
  | .table slot n =>
    (dev.qmapMode = 1 ∨ ndpTci skb off ≠ some dev.mbimMuxId) ∧
      TableInside skb (dev.mpQmapNetDev slot).isSome n (off + ndp16Size)
  | _ => True

/-- The sessions that a device may have. -/
structure SessionRange (dev : MbimNetdev) : Prop where
  mode : 1 ≤ dev.qmapMode ∧ dev.qmapMode ≤ 8
  mux : dev.mbimMuxId = 0 ∨ dev.mbimMuxId = 112

theorem ndpTci_lt {off tci : Nat} (h : ndpTci skb off = some tci) : tci < 512 := by
  have hlt := (skb.byte (off + 3)).toNat_lt
  rw [ndpTci] at h
  split at h
  · have := Option.some.inj h
    omega
  · split at h
    · have := Option.some.inj h
      omega
    · exact absurd h (by simp)

/-- The check of the session lets one slot too many through. -/
theorem slot_lt_iff {off slot n : Nat} (hrange : SessionRange dev)
    (h : ndp dev skb off = .table slot n) :
    slot < dev.qmapMode ↔ dev.qmapMode = 1 ∨ ndpTci skb off ≠ some dev.mbimMuxId := by
  obtain ⟨hmode, hmux⟩ := hrange
  simp only [ndp] at h
  split at h
  · exact absurd h (by simp)
  split at h
  · exact absurd h (by simp)
  split at h
  · exact absurd h (by simp)
  split at h
  · exact absurd h (by simp)
  rename_i tci htci
  have hlt := ndpTci_lt htci
  split at h
  · exact absurd h (by simp)
  rename_i hsession
  obtain ⟨rfl, -⟩ := Ndp.table.inj h
  rw [not_or, toU32] at hsession
  rw [htci, ne_eq, Option.some.injEq]
  by_cases hone : dev.qmapMode = 1
  · rw [if_pos hone]
    omega
  · rw [if_neg hone, toU32]
    rcases hmux with hmux | hmux <;> rw [hmux] at hsession ⊢ <;> omega

/-- Reading what is in the block is all right. -/
theorem Inside.read {s : MbimState} (h : Inside dev skb s) {off n : Nat} (hle : off + n ≤ skb.len) :
    Inside dev skb (s.read off n) := by
  refine ⟨fun i hi ↦ ?_, h.slots, h.followed⟩
  rcases List.mem_append.1 hi with hi | hi
  · exact h.reads i hi
  · obtain ⟨k, hk, rfl⟩ := List.mem_map.1 hi
    rw [List.mem_range] at hk
    omega

/-- What a valid entry says about its datagram. -/
theorem entry_valid {p : Nat} (h : entry skb p ≠ .last) (h' : entry skb p ≠ .invalid) :
    skb.le16 p + skb.le16 (p + 2) ≤ skb.len ∧ 1 ≤ skb.le16 (p + 2) := by
  rw [entry] at h h'
  by_cases hlast : skb.le16 p = 0 ∨ skb.le16 (p + 2) = 0
  · exact absurd (if_pos hlast) h
  rw [if_neg hlast] at h'
  by_cases hbad : skb.len < skb.le16 p + skb.le16 (p + 2) ∨ rxMax < skb.le16 (p + 2)
  · exact absurd (if_pos hbad) h'
  · omega

/-- Along a table that is as it should be the handler stays inside. -/
theorem mbimDatagrams_inside {n p : Nat} {s : MbimState}
    (htable : s.dev.mpQmapNetDev = dev.mpQmapNetDev)
    (hin : TableInside skb (dev.mpQmapNetDev slot).isSome n p) (hs : Inside dev skb s) :
    Inside dev skb (mbimDatagrams alloc skb slot n p s).state := by
  induction n generalizing p s with
  | zero => exact hs
  | succ n ih =>
    obtain ⟨hp, hin⟩ := hin
    have hread := hs.read hp
    have hvalid := @entry_valid skb p
    rw [mbimDatagrams_succ]
    revert hin hvalid
    rcases entry skb p with _ | _ | _ | protocol <;> intro hin hvalid <;> dsimp only at hin ⊢
    case last | invalid => exact hread
    case notIp =>
      obtain ⟨hle, hpos⟩ := hvalid (by simp) (by simp)
      split
      · have hfirst : Inside dev skb ((s.read p dpe16Size).read (skb.le16 p) 1) :=
          hread.read (by omega)
        exact ⟨hfirst.reads, hs.slots, hs.followed⟩
      · exact ⟨hread.reads, hs.slots, hs.followed⟩
    case packet =>
      obtain ⟨hle, hpos⟩ := hvalid (by simp) (by simp)
      obtain ⟨hlive, hin⟩ := hin
      have hcopied : Inside dev skb (copied skb slot p s) := by
        refine ⟨((hread.read (by omega)).read hle).reads, hs.slots, fun i hi ↦ ?_⟩
        rcases List.mem_append.1 hi with hi | hi
        · exact hs.followed i hi
        · rw [List.mem_singleton.1 hi]
          exact Option.isSome_iff_ne_none.1 hlive
      split
      · split
        · exact ⟨hcopied.reads, hcopied.slots, hcopied.followed⟩
        · exact ih htable hin ⟨hcopied.reads, hcopied.slots, hcopied.followed⟩
      · exact ⟨hread.reads, hs.slots, hs.followed⟩

/-- What was touched before is not forgotten. -/
theorem Inside.of_subset {s s' : MbimState} (h : Inside dev skb s') (hreads : s.reads ⊆ s'.reads)
    (hslots : s.slots ⊆ s'.slots) (hfollowed : s.followed ⊆ s'.followed) : Inside dev skb s :=
  ⟨fun i hi ↦ h.reads i (hreads hi), fun i hi ↦ h.slots i (hslots hi),
    fun i hi ↦ h.followed i (hfollowed hi)⟩

/-- Where reading was all right, the last byte was in the block. -/
theorem Inside.le_of_read {s : MbimState} {off n : Nat} (h : Inside dev skb (s.read off (n + 1))) :
    off + (n + 1) ≤ skb.len := by
  have hmem : off + n ∈ (s.read off (n + 1)).reads :=
    List.mem_append_right _ (List.mem_map.2 ⟨n, List.mem_range.2 (by omega), rfl⟩)
  exact h.reads _ hmem

/-- With enough buffers, the handler walks all along a table and stays inside only if the table is
as it should be. -/
theorem tableInside_of_inside {n p : Nat} {s : MbimState}
    (htable : s.dev.mpQmapNetDev = dev.mpQmapNetDev)
    (h : Inside dev skb (mbimDatagrams (fun _ ↦ true) skb slot n p s).state) :
    Inside dev skb s ∧ TableInside skb (dev.mpQmapNetDev slot).isSome n p := by
  induction n generalizing p s with
  | zero => exact ⟨h, trivial⟩
  | succ n ih =>
    -- what is left of the entry, whatever it is
    have hentry : ∀ s' : MbimState, Inside dev skb s' → (s.read p dpe16Size).reads ⊆ s'.reads →
        s.slots ⊆ s'.slots → s.followed ⊆ s'.followed →
        Inside dev skb s ∧ p + dpe16Size ≤ skb.len := by
      intro s' hs' hreads hslots hfollowed
      have hread : Inside dev skb (s.read p dpe16Size) := hs'.of_subset hreads hslots hfollowed
      exact ⟨hread.of_subset (List.subset_append_left _ _) (fun _ ↦ id) fun _ ↦ id,
        hread.le_of_read⟩
    have hgranted : (s.read p dpe16Size).reads ⊆ (granted skb p s).reads :=
      List.subset_append_left _ _
    have hcopied : (s.read p dpe16Size).reads ⊆ (copied skb slot p s).reads :=
      fun _ hi ↦ List.mem_append_left _ (hgranted hi)
    rw [mbimDatagrams_succ] at h
    rw [TableInside]
    revert h
    rcases entry skb p with _ | _ | _ | protocol <;> intro h <;> dsimp only at h ⊢
    case last | invalid =>
      obtain ⟨hs, hp⟩ := hentry _ h (fun _ ↦ id) (fun _ ↦ id) fun _ ↦ id
      exact ⟨hs, hp, trivial⟩
    case notIp =>
      obtain ⟨hs, hp⟩ := hentry _ h hgranted (fun _ ↦ id) fun _ ↦ id
      exact ⟨hs, hp, trivial⟩
    case packet =>
      rw [if_pos rfl, htable] at h
      rcases hc : dev.mpQmapNetDev slot with _ | c <;> rw [hc] at h <;> dsimp only at h
      · have hslot := h.followed slot (List.mem_append_right _ (List.mem_singleton_self slot))
        exact absurd hc hslot
      · obtain ⟨hq, htail⟩ := ih (s := queued skb slot p protocol c s) htable h
        obtain ⟨hs, hp⟩ := hentry _ hq hcopied (fun _ ↦ id) (List.subset_append_left _ _)
        exact ⟨hs, hp, rfl, hc ▸ htail⟩

/-- An NDP that is not outside the block is inside it. -/
theorem ndp_ne_outside {off : Nat} (h : ndp dev skb off ≠ .outside) :
    off + ndp16Size ≤ skb.len := by
  by_contra hlt
  exact h (if_pos (not_le.1 hlt))

/-- At an NDP that is as it should be an iteration stays inside. -/
theorem mbimBody_inside {s : MbimState} (hrange : SessionRange dev)
    (hdev : s.dev = (mbimFirst host dev skb).dev)
    (hin : NdpInside dev skb s.ndpoffset) (hs : Inside dev skb s) :
    Inside dev skb (mbimBody alloc skb s).state := by
  have hndp : ndp s.dev skb s.ndpoffset = ndp dev skb s.ndpoffset := by rw [hdev]; rfl
  have hplace := @ndp_ne_outside skb dev s.ndpoffset
  have hslot := fun slot n ↦ @slot_lt_iff skb dev s.ndpoffset slot n hrange
  rw [NdpInside] at hin
  rw [mbimBody, hndp]
  revert hin hplace hslot
  rcases ndp dev skb s.ndpoffset with _ | _ | _ | _ | ⟨slot, n⟩ <;> intro hin hplace hslot <;>
    dsimp only at hin ⊢
  case outside => exact hs
  all_goals
    have hle := hplace (by simp)
    rw [ndp16Size] at hle
    have hlen : Inside dev skb (s.read (s.ndpoffset + 4) 2) := hs.read (by omega)
  case length => exact hlen
  all_goals
    have hsign : Inside dev skb ((s.read (s.ndpoffset + 4) 2).read s.ndpoffset 4) :=
      hlen.read (by omega)
  case signature | session => exact hsign
  case table =>
    have hopen : Inside dev skb (s.lookUp slot) := by
      refine ⟨hsign.reads, fun i hi ↦ ?_, hsign.followed⟩
      rcases List.mem_append.1 hi with hi | hi
      · exact hs.slots i hi
      · exact List.mem_singleton.1 hi ▸ (hslot slot n rfl).2 hin.1
    have htable : s.dev.mpQmapNetDev = dev.mpQmapNetDev := by rw [hdev]; rfl
    have hwalk : Inside dev skb
        (mbimDatagrams alloc skb slot n (s.ndpoffset + ndp16Size) (s.lookUp slot)).state :=
      mbimDatagrams_inside htable hin.2 hopen
    split
    · rename_i u hu
      rwa [hu] at hwalk
    · rename_i u hu
      rw [hu] at hwalk
      have hnext : Inside dev skb (u.read (s.ndpoffset + 6) 2) := hwalk.read (by omega)
      exact ⟨hnext.reads, hnext.slots, hnext.followed⟩

/-- With enough buffers, an iteration stays inside only at an NDP that is as it should be. -/
theorem ndpInside_of_inside {s : MbimState} (hrange : SessionRange dev)
    (hdev : s.dev = (mbimFirst host dev skb).dev)
    (h : Inside dev skb (mbimBody (fun _ ↦ true) skb s).state) : NdpInside dev skb s.ndpoffset := by
  have hndp : ndp s.dev skb s.ndpoffset = ndp dev skb s.ndpoffset := by rw [hdev]; rfl
  have htable : s.dev.mpQmapNetDev = dev.mpQmapNetDev := by rw [hdev]; rfl
  have hslot := fun slot n ↦ @slot_lt_iff skb dev s.ndpoffset slot n hrange
  rw [mbimBody, hndp] at h
  rw [NdpInside]
  revert h hslot
  rcases ndp dev skb s.ndpoffset with _ | _ | _ | _ | ⟨slot, n⟩ <;> intro h hslot <;>
    dsimp only at h ⊢
  have hwalk : Inside dev skb
      (mbimDatagrams (fun _ ↦ true) skb slot n (s.ndpoffset + ndp16Size)
        (s.lookUp slot)).state := by
    split at h
    · rename_i u hu
      rwa [hu]
    · rename_i u hu
      rw [hu]
      exact Inside.of_subset h (List.subset_append_left _ _) (fun _ ↦ id) fun _ ↦ id
  obtain ⟨hopen, htail⟩ := tableInside_of_inside (s := s.lookUp slot) htable hwalk
  refine ⟨(hslot slot n rfl).1 ?_, htail⟩
  exact hopen.slots slot (List.mem_append_right _ (List.mem_singleton_self slot))

/-- The states that the handler comes to: between its iterations, and when it is done. -/
def MbimReaches (host : Host) (alloc : Nat → Bool) (dev : MbimNetdev) (skb : SkBuff)
    (t : MbimState) :
    Prop :=
  (HeaderOk skb ∧ MbimVisits host alloc dev skb t) ∨
    ∃ fuel, rmnetMbimRxHandler host alloc fuel dev skb = some t

/-- How the handler is done. -/
theorem mbim_done {fuel : Nat} {r : MbimState} (hok : HeaderOk skb)
    (h : rmnetMbimRxHandler host alloc fuel dev skb = some r) :
    MbimVisits host alloc dev skb r ∨
      ∃ t, MbimVisits host alloc dev skb t ∧ mbimCond t = true ∧
        mbimBody alloc skb t = .stop r := by
  rw [rmnetMbimRxHandler, mbimHeader_of_ok hok] at h
  exact (Loop.run_cases h).imp_left And.left

/-- The state with which any iteration ends is one that the handler comes to. -/
theorem MbimVisits.reaches {t : MbimState} (hok : HeaderOk skb)
    (h : MbimVisits host alloc dev skb t) (hcond : mbimCond t = true) :
    MbimReaches host alloc dev skb (mbimBody alloc skb t).state := by
  rcases hbody : mbimBody alloc skb t with u | u
  · exact .inl ⟨hok, h.tail ⟨hcond, hbody⟩⟩
  · obtain ⟨fuel, hfuel⟩ := (Loop.Visits.exists_run_iff h).mpr
      ⟨1, Loop.run_stop hcond hbody 0⟩
    refine .inr ⟨fuel, ?_⟩
    rw [rmnetMbimRxHandler, mbimHeader_of_ok hok]
    exact hfuel

theorem mbimFirst_inside (hok : HeaderOk skb) : Inside dev skb (mbimFirst host dev skb) := by
  have hlen := hok.1
  rw [nth16Size, ndp16Size] at hlen
  refine ⟨fun i hi ↦ ?_, fun i hi ↦ absurd hi (by simp [mbimFirst]),
    fun i hi ↦ absurd hi (by simp [mbimFirst])⟩
  simp only [mbimFirst, List.mem_cons, List.not_mem_nil, or_false] at hi
  omega

/-- A block whose header is not accepted is not read any further. -/
theorem inside_of_not_ok {fuel : Nat} {r : MbimState} (hok : ¬ HeaderOk skb)
    (h : rmnetMbimRxHandler host alloc fuel dev skb = some r) : Inside dev skb r := by
  have hnone : Inside dev skb { dev } :=
    ⟨fun i hi ↦ absurd hi (by simp), fun i hi ↦ absurd hi (by simp), fun i hi ↦ absurd hi (by simp)⟩
  rcases mbimHeader_of_not_ok host dev hok with heq | ⟨heq, hle⟩ | ⟨heq, hle⟩ <;>
    rw [rmnetMbimRxHandler, heq] at h <;> obtain rfl := Option.some.inj h
  · exact hnone
  · rw [nth16Size, ndp16Size] at hle
    exact hnone.read (by omega)
  · rw [nth16Size, ndp16Size] at hle
    exact (hnone.read (by omega)).read (by omega)

/-- **When the handler stays inside.**  Whatever the block and the table of children: every byte
that the handler reads is in the block, every slot that it looks up is one of the channels, and
every pointer that it follows is one to a child, if and only if each NDP it comes to names a session
above the base (if there are several channels), has the entries it walks along in the block, and has
a child if one of these is a datagram. -/
theorem mbim_inside_iff (host : Host) (dev : MbimNetdev) (skb : SkBuff)
    (hrange : SessionRange dev) :
    (∀ alloc t, MbimReaches host alloc dev skb t → Inside dev skb t) ↔
      ∀ off, NdpStart host dev skb off → 0 < off → NdpInside dev skb off := by
  constructor
  · intro h off hoff hpos
    obtain ⟨t, ht, rfl, hdev⟩ := hoff.visits
    exact ndpInside_of_inside hrange hdev (h _ _ (ht.reaches hoff.1 (decide_eq_true hpos)))
  · intro h alloc t ht
    -- an iteration keeps inside, as its NDP is one of the chain
    have hstep : ∀ u, HeaderOk skb → MbimVisits host alloc dev skb u → mbimCond u = true →
        Inside dev skb u → Inside dev skb (mbimBody alloc skb u).state := by
      intro u hok hu hcond hin
      obtain ⟨hstart, hdev⟩ := hu.ndpStart hok
      exact mbimBody_inside hrange hdev (h _ hstart (of_decide_eq_true hcond)) hin
    have hvisits : ∀ u, HeaderOk skb → MbimVisits host alloc dev skb u → Inside dev skb u := by
      intro u hok hu
      induction hu with
      | refl => exact mbimFirst_inside hok
      | tail hu hiter ih =>
        have := hstep _ hok hu hiter.1 ih
        rwa [hiter.2] at this
    rcases ht with ⟨hok, ht⟩ | ⟨fuel, hr⟩
    · exact hvisits t hok ht
    · by_cases hok : HeaderOk skb
      · rcases mbim_done hok hr with ht | ⟨u, hu, hcond, hstop⟩
        · exact hvisits t hok ht
        · have := hstep u hok hu hcond (hvisits u hok hu)
          rwa [hstop] at this
      · exact inside_of_not_ok hok hr

/-- A device with two children. -/
def twoSessions : MbimNetdev where
  qmapMode := 2
  mbimMuxId := 0
  mpQmapNetDev := fun i ↦ if i < 2 then some {} else none

/-- A block with an empty table for session 0, which is the session of a device with one channel. -/
def baseBlock : SkBuff where
  data := [0x4e, 0x43, 0x4d, 0x48, 0x0c, 0, 0, 0, 0x1c, 0, 0x0c, 0,
    0x49, 0x50, 0x53, 0, 0x10, 0, 0, 0, 0, 0, 0, 0, 0, 0, 0, 0]

theorem mbim_base_session_outside :
    ¬ ∀ alloc t, MbimReaches .little alloc twoSessions baseBlock t →
      Inside twoSessions baseBlock t := by
  intro h
  have hok : HeaderOk baseBlock := ⟨by decide, by decide, by decide⟩
  have hreach : MbimReaches .little (fun _ ↦ true) twoSessions baseBlock
      (mbimBody (fun _ ↦ true) baseBlock (mbimFirst .little twoSessions baseBlock)).state :=
    MbimVisits.reaches hok .refl (by decide)
  exact absurd ((h _ _ hreach).slots 4294967295 (by decide)) (by decide)

/-- A block with one datagram, for the second child. -/
def secondBlock : SkBuff where
  data := [0x4e, 0x43, 0x4d, 0x48, 0x0c, 0, 0, 0, 0x1e, 0, 0x0c, 0,
    0x49, 0x50, 0x53, 2, 0x10, 0, 0, 0, 0x1c, 0, 2, 0, 0, 0, 0, 0, 0x45, 7]

theorem mbim_second_session_inside :
    SessionRange twoSessions ∧ ∀ alloc t, MbimReaches .little alloc twoSessions secondBlock t →
      Inside twoSessions secondBlock t := by
  have hrange : SessionRange twoSessions := ⟨by decide, by decide⟩
  refine ⟨hrange, (mbim_inside_iff .little twoSessions secondBlock hrange).2
    fun off hoff hpos ↦ ?_⟩
  have hoffs : off = 12 ∨ off = 0 := by
    clear hpos
    obtain ⟨-, hpath⟩ := hoff
    induction hpath with
    | refl => exact .inl (by decide)
    | tail _ hstep ih =>
      rcases ih with rfl | rfl
      · rw [NdpStep, show ndpNext twoSessions secondBlock 12 = some 0 by decide] at hstep
        exact .inr (Option.some.inj hstep).symm
      · rw [NdpStep, show ndpNext twoSessions secondBlock 0 = none by decide] at hstep
        exact absurd hstep (by simp)
  rcases hoffs with rfl | rfl
  · rw [NdpInside, show ndp twoSessions secondBlock 12 = .table 1 2 by decide]
    refine ⟨.inr (by decide), by decide, ?_⟩
    rw [show entry secondBlock (12 + ndp16Size) = .packet .ip by decide]
    refine ⟨rfl, by decide, ?_⟩
    rw [show entry secondBlock (12 + ndp16Size + dpe16Size) = .last by decide]
    exact trivial
  · exact absurd hpos (by decide)

/-! ## What becomes of the buffers -/

/-- Every buffer that was given is in the chain, in order and once. -/
structure Balanced (s : MbimState) : Prop where
  chain : s.chain.map Buffer.request = s.granted
  increasing : s.granted.Pairwise (· < ·)
  lt : ∀ k ∈ s.granted, k < s.allocs

/-- No entry of a table that the handler comes to is a datagram of another protocol. -/
def TableClean (skb : SkBuff) (live : Bool) : Nat → Nat → Prop
  | 0, _ => True
  | n + 1, p =>
    match entry skb p with
    | .notIp => False
    | .packet _ => live = true → TableClean skb live n (p + dpe16Size)
    | .last | .invalid => True

/-- The same of all the entries of an NDP. -/
def NdpClean (dev : MbimNetdev) (skb : SkBuff) (off : Nat) : Prop :=
  match ndp dev skb off with
  | .table slot n => TableClean skb (dev.mpQmapNetDev slot).isSome n (off + ndp16Size)
  | _ => True

theorem balanced_queued {s : MbimState} (h : Balanced s) (p : Nat) (protocol : Protocol)
    (c : MbimChild) : Balanced (queued skb slot p protocol c s) := by
  refine ⟨?_, ?_, ?_⟩
  · show (s.chain ++ [_]).map Buffer.request = s.granted ++ [s.allocs]
    rw [List.map_append, h.chain]
    rfl
  · show (s.granted ++ [s.allocs]).Pairwise (· < ·)
    refine List.pairwise_append.2 ⟨h.increasing, List.pairwise_singleton _ _, fun a ha b hb ↦ ?_⟩
    exact List.mem_singleton.1 hb ▸ h.lt a ha
  · intro k hk
    show k < s.allocs + 1
    rcases List.mem_append.1 hk with hk | hk
    · have := h.lt k hk
      omega
    · rw [List.mem_singleton.1 hk]
      omega

theorem balanced_refused {s : MbimState} (h : Balanced s) (p : Nat) : Balanced (refused p s) :=
  ⟨h.chain, h.increasing, fun k hk ↦ (h.lt k hk).trans (Nat.lt_succ_self _)⟩

/-- Along a table without such a datagram no buffer is lost, whichever buffers there are. -/
theorem mbimDatagrams_balanced {n p : Nat} {s : MbimState}
    (hclean : TableClean skb (s.dev.mpQmapNetDev slot).isSome n p) (hs : Balanced s) :
    (mbimDatagrams alloc skb slot n p s).state.oops = true ∨
      Balanced (mbimDatagrams alloc skb slot n p s).state := by
  induction n generalizing p s with
  | zero => exact .inr hs
  | succ n ih =>
    rw [TableClean] at hclean
    rw [mbimDatagrams_succ]
    revert hclean
    rcases entry skb p with _ | _ | _ | protocol <;> intro hclean <;> dsimp only at hclean ⊢
    case last | invalid => exact .inr ⟨hs.chain, hs.increasing, hs.lt⟩
    case packet =>
      split
      · split
        · exact .inl rfl
        · rename_i c hc
          exact ih (s := queued skb slot p protocol c s) (hclean (by rw [hc]; rfl))
            (balanced_queued hs p protocol c)
      · exact .inr (balanced_refused hs p)

/-- A table that the handler gets through has no such datagram. -/
theorem tableClean_of_passes {live : Bool} {n p : Nat} (h : tablePasses skb live n p = true) :
    TableClean skb live n p := by
  induction n generalizing p with
  | zero => exact trivial
  | succ n ih =>
    rw [tablePasses] at h
    rw [TableClean]
    revert h
    rcases entry skb p with _ | _ | _ | protocol <;> intro h <;> dsimp only at h ⊢
    case notIp => exact absurd h (by simp)
    case packet => exact fun _ ↦ ih (Bool.and_eq_true_iff.1 h).2

/-- With enough buffers, no buffer is lost along a table only if it has no such datagram. -/
theorem tableClean_of_chain {n p : Nat} {s : MbimState} (hs : Balanced s) (hoops : s.oops = false)
    (h : (mbimDatagrams (fun _ ↦ true) skb slot n p s).state.oops = false →
      (mbimDatagrams (fun _ ↦ true) skb slot n p s).state.chain.map Buffer.request =
        (mbimDatagrams (fun _ ↦ true) skb slot n p s).state.granted) :
    TableClean skb (s.dev.mpQmapNetDev slot).isSome n p := by
  induction n generalizing p s with
  | zero => exact trivial
  | succ n ih =>
    rw [mbimDatagrams_succ] at h
    rw [TableClean]
    revert h
    rcases entry skb p with _ | _ | _ | protocol <;> intro h <;> dsimp only at h ⊢
    case notIp =>
      have hlen := congrArg List.length (h hoops)
      have hlen' := congrArg List.length hs.chain
      simp only [if_true, Loop.Exit.state, granted, MbimState.read, List.length_map,
        List.length_append,
        List.length_singleton] at hlen hlen'
      omega
    case packet =>
      rw [if_pos rfl] at h
      intro hlive
      obtain ⟨c, hc⟩ := Option.isSome_iff_exists.1 hlive
      rw [hc] at h
      exact ih (s := queued skb slot p protocol c s) (balanced_queued hs p protocol c) hoops h

/-- The same of an iteration. -/
theorem mbimBody_balanced (alloc : Nat → Bool) {s : MbimState}
    (hdev : s.dev = (mbimFirst host dev skb).dev)
    (hclean : NdpClean dev skb s.ndpoffset) (hs : Balanced s) :
    (mbimBody alloc skb s).state.oops = true ∨ Balanced (mbimBody alloc skb s).state := by
  have hndp : ndp s.dev skb s.ndpoffset = ndp dev skb s.ndpoffset := by rw [hdev]; rfl
  have htable : s.dev.mpQmapNetDev = dev.mpQmapNetDev := by rw [hdev]; rfl
  rw [NdpClean] at hclean
  rw [mbimBody, hndp]
  revert hclean
  rcases ndp dev skb s.ndpoffset with _ | _ | _ | _ | ⟨slot, n⟩ <;> intro hclean <;>
    dsimp only at hclean ⊢
  case table =>
    rw [← htable] at hclean
    have hlook : Balanced (s.lookUp slot) := ⟨hs.chain, hs.increasing, hs.lt⟩
    have hwalk := @mbimDatagrams_balanced alloc skb slot n (s.ndpoffset + ndp16Size) (s.lookUp slot)
      hclean hlook
    split
    · rename_i u hu
      rwa [hu] at hwalk
    · rename_i u hu
      rw [hu] at hwalk
      exact hwalk.imp id fun hu ↦ ⟨hu.chain, hu.increasing, hu.lt⟩
  all_goals exact .inr ⟨hs.chain, hs.increasing, hs.lt⟩

/-- An NDP that leads to another has no such datagram. -/
theorem ndpClean_of_step {off off' : Nat} (h : NdpStep dev skb off off') :
    NdpClean dev skb off := by
  rw [NdpStep, ndpNext] at h
  rw [NdpClean]
  split at h
  · exact absurd h (by simp)
  · split at h
    · split at h
      · rename_i hpass
        exact tableClean_of_passes hpass
      · exact absurd h (by simp)
    · exact absurd h (by simp)

/-- Between the iterations no buffer is lost: an iteration that loses one leaves the loop. -/
theorem MbimVisits.balanced {t : MbimState} (hok : HeaderOk skb)
    (h : MbimVisits host alloc dev skb t) :
    Balanced t ∧ t.oops = false := by
  induction h with
  | refl => exact ⟨⟨rfl, List.Pairwise.nil, fun k hk ↦ absurd hk (by simp [mbimFirst])⟩, rfl⟩
  | @tail t t' ht hstep ih =>
    obtain ⟨hndp, -, hoops⟩ := mbim_iterates hstep
    have hdev := (MbimVisits.ndpStart hok ht).2
    rw [hdev, ndpStep_first] at hndp
    have hoops' : t'.oops = false := hoops.trans ih.2
    have hbody := mbimBody_balanced alloc hdev (ndpClean_of_step hndp) ih.1
    rw [hstep.2] at hbody
    rcases hbody with h | h
    · exact absurd h (by rw [Loop.Exit.state, hoops']; decide)
    · exact ⟨h, hoops'⟩

/-- With enough buffers, an iteration that leaves the loop loses no buffer only if its NDP has no
such datagram. -/
theorem ndpClean_of_chain {s u : MbimState} (hdev : s.dev = (mbimFirst host dev skb).dev)
    (hs : Balanced s) (hoops : s.oops = false) (hstop : mbimBody (fun _ ↦ true) skb s = .stop u)
    (h : u.oops = false → u.chain.map Buffer.request = u.granted) :
    NdpClean dev skb s.ndpoffset := by
  have hndp : ndp s.dev skb s.ndpoffset = ndp dev skb s.ndpoffset := by rw [hdev]; rfl
  have htable : s.dev.mpQmapNetDev = dev.mpQmapNetDev := by rw [hdev]; rfl
  rw [mbimBody, hndp] at hstop
  rw [NdpClean]
  revert hstop
  rcases ndp dev skb s.ndpoffset with _ | _ | _ | _ | ⟨slot, n⟩ <;> intro hstop <;>
    dsimp only at hstop ⊢
  have hlook : Balanced (s.lookUp slot) := ⟨hs.chain, hs.increasing, hs.lt⟩
  split at hstop
  · rename_i v hv
    obtain rfl := Loop.Exit.stop.inj hstop
    rw [← htable]
    refine tableClean_of_chain (s := s.lookUp slot) hlook hoops ?_
    rwa [hv]
  · exact absurd hstop (by simp)

/-- **When no buffer is lost.**  Whatever the block and the device, and whichever buffers there are:
when the handler is done, the packets it delivers are in all the buffers that it was given, once
each and in order, if and only if no datagram that it comes to is of another protocol. -/
theorem mbim_delivers_iff (host : Host) (dev : MbimNetdev) (skb : SkBuff) :
    (∀ alloc fuel r, rmnetMbimRxHandler host alloc fuel dev skb = some r → r.oops = false →
      r.delivered.map Buffer.request = r.granted ∧ r.granted.Pairwise (· < ·)) ↔
      ∀ off, NdpStart host dev skb off → 0 < off → NdpClean dev skb off := by
  have hdelivered : ∀ r : MbimState, r.oops = false → r.delivered = r.chain := by
    intro r hr
    rw [MbimState.delivered, hr]
    rfl
  constructor
  · intro h off hoff hpos
    obtain ⟨t, ht, rfl, hdev⟩ := hoff.visits
    obtain ⟨hbal, hoops⟩ := ht.balanced hoff.1
    have hcond : mbimCond t = true := decide_eq_true hpos
    rcases hbody : mbimBody (fun _ ↦ true) skb t with u | u
    · have hstep := (mbim_iterates ⟨hcond, hbody⟩).1
      rw [hdev, ndpStep_first] at hstep
      exact ndpClean_of_step hstep
    · obtain ⟨fuel, hfuel⟩ := (Loop.Visits.exists_run_iff ht).mpr
        ⟨1, Loop.run_stop hcond hbody 0⟩
      refine ndpClean_of_chain hdev hbal hoops hbody fun hu ↦ ?_
      have hrun : rmnetMbimRxHandler host (fun _ ↦ true) fuel dev skb = some u := by
        rw [rmnetMbimRxHandler, mbimHeader_of_ok hoff.1]
        exact hfuel
      have := (h _ _ _ hrun hu).1
      rwa [hdelivered u hu] at this
  · intro h alloc fuel r hr hoops
    rw [hdelivered r hoops]
    by_cases hok : HeaderOk skb
    · have hbal : Balanced r := by
        rcases mbim_done hok hr with ht | ⟨t, ht, hcond, hstop⟩
        · exact (ht.balanced hok).1
        · obtain ⟨hstart, hdev⟩ := ht.ndpStart hok
          have hbody := mbimBody_balanced alloc hdev
            (h _ hstart (of_decide_eq_true hcond)) (ht.balanced hok).1
          rw [hstop] at hbody
          exact hbody.resolve_left (by rw [Loop.Exit.state, hoops]; decide)
      exact ⟨hbal.chain, hbal.increasing⟩
    · rcases mbimHeader_of_not_ok host dev hok with heq | ⟨heq, -⟩ | ⟨heq, -⟩ <;>
        rw [rmnetMbimRxHandler, heq] at hr <;> obtain rfl := Option.some.inj hr <;>
        exact ⟨rfl, .nil⟩

end OpenwrtFeed.Mhi
