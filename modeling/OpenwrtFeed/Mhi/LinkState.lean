import OpenwrtFeed.Lib.Dotted
import OpenwrtFeed.Mhi.Command

/-!
# Link state and carrier

Which of the channels have a data call is told to the driver from outside: by a number that is
written to the attribute `link_state`, or passed to an ioctl, which makes a text of it and goes the
same way.  `n` is the start of a call on channel `n`, `0x80 + n` is its end, channels being counted
from one.  The driver keeps a bit for each channel, and the carrier of an interface says whether it
is connected.

The carrier is set in two places.  `link_state_store` gives a child the bit of its own channel, and
the parent the union of all bits; `rmnet_vnd_open` gives a child that is brought up the carrier of
the parent.  So a child that is brought up while another channel has a call looks connected without
a call of its own.  `linkState_iff` says that, apart from a number that does not fit the variable it
is read into, this is all that can go wrong in any sequence of calls, ends of calls and restarts of
interfaces.
-/

set_option autoImplicit false

namespace OpenwrtFeed.Mhi

/-! ## Numbers in a text -/

/-- The value of a digit, in any base up to sixteen. -/
def digitValue (c : Char) : Option Nat :=
  if '0' ≤ c ∧ c ≤ '9' then some (c.toNat - '0'.toNat)
  else if 'a' ≤ c ∧ c ≤ 'f' then some (c.toNat - 'a'.toNat + 10)
  else if 'A' ≤ c ∧ c ≤ 'F' then some (c.toNat - 'A'.toNat + 10)
  else none

/-- Reading digits up to the first character that is none of the base. -/
def parseInteger (base : Nat) : List Char → Nat → Nat
  | [], acc => acc
  | c :: s, acc =>
    match digitValue c with
    | none => acc
    | some d => if d < base then parseInteger base s (base * acc + d) else acc

/-- The number that `simple_strtoul` finds at the beginning of a text if no base is given.  Its
value is this number modulo `2 ^ 32` or `2 ^ 64`, as wide as a `long` is. -/
def simpleStrtoul : List Char → Nat
  | '0' :: x :: d :: s =>
    if (x = 'x' ∨ x = 'X') ∧ (digitValue d).isSome then parseInteger 16 (d :: s) 0
    else parseInteger 8 ('0' :: x :: d :: s) 0
  | '0' :: s => parseInteger 8 ('0' :: s) 0
  | s => parseInteger 10 s 0

/-! ## The driver -/

/-- What the functions of this file read or write of a `struct mhi_netdev` and of its devices. -/
structure LinkDev where
  qmapMode : Nat
  linkState : BitVec 32
  /-- The flag `IFF_UP` of the parent. -/
  up : Bool
  /-- The carrier of the parent. -/
  carrier : Bool
  /-- The carriers of the children; `none` where the array holds `NULL`. -/
  mpQmapNetDev : Nat → Option Bool

/-- `netif_carrier_on` and `netif_carrier_off` of a child. -/
def LinkDev.setCarrier (s : LinkDev) (i : Nat) (on : Bool) : LinkDev :=
  { s with mpQmapNetDev := Function.update s.mpQmapNetDev i ((s.mpQmapNetDev i).map fun _ ↦ on) }

/-- `link_state_store`. -/
def linkStateStore (s : LinkDev) (buf : List Char) : LinkDev :=
  -- an `unsigned long` is assigned to an `unsigned`
  let linkState := BitVec.ofNat 32 (simpleStrtoul buf)
  let oldLink := s.linkState
  let offsetId := if 1 < s.qmapMode then (linkState &&& 0xf#32) - 1#32 else 0#32
  let bit := 1#32 <<< offsetId.toNat
  let s : LinkDev :=
    if 1 < s.qmapMode then
      if 0 < linkState.toNat ∧ linkState.toNat ≤ s.qmapMode then
        { s with linkState := s.linkState ||| bit }
      else if 0x80 < linkState.toNat ∧ linkState.toNat ≤ (0x80 + s.qmapMode) % 2 ^ 32 then
        { s with linkState := s.linkState &&& ~~~bit }
      else s
    else { s with linkState := if linkState = 0#32 then 0#32 else 1#32 }
  if oldLink = s.linkState then s
  else { s with carrier := decide (s.linkState ≠ 0#32) }.setCarrier offsetId.toNat
    (s.linkState.getLsbD offsetId.toNat)

/-- The command `0x89F1` of `qmap_ndo_do_ioctl`, once `copy_from_user` has got the value. -/
def qmapNdoDoIoctl (s : LinkDev) (linkState : BitVec 32) : LinkDev :=
  linkStateStore s (Nat.toDigits 10 linkState.toNat)

/-- `rmnet_vnd_open`; without a result it is `-ENETDOWN`. -/
def rmnetVndOpen (s : LinkDev) (i : Nat) : Option LinkDev :=
  if !s.up then none
  else some (if s.carrier then s.setCarrier i true else s)

/-- `rmnet_vnd_stop`. -/
def rmnetVndStop (s : LinkDev) (i : Nat) : LinkDev := s.setCarrier i false

/-! ## Runs -/

/-- What happens to a device with `mode` children. -/
inductive LinkEvent (mode : Nat) where
  /-- A text is written to the attribute. -/
  | store (buf : List Char)
  | ioctl (linkState : BitVec 32)
  /-- A child is brought up. -/
  | opens (i : Fin mode)
  /-- A child is taken down. -/
  | stops (i : Fin mode)
  deriving DecidableEq, Repr

variable {mode : Nat}

def LinkDev.step (s : LinkDev) : LinkEvent mode → LinkDev
  | .store buf => linkStateStore s buf
  | .ioctl linkState => qmapNdoDoIoctl s linkState
  | .opens i => (rmnetVndOpen s i).getD s
  | .stops i => rmnetVndStop s i

def LinkDev.run (s : LinkDev) (es : List (LinkEvent mode)) : LinkDev := es.foldl LinkDev.step s

/-- A device with all its children, when its own interface has been brought up. -/
def LinkDev.registered (mode : Nat) : LinkDev where
  qmapMode := mode
  linkState := 0#32
  up := true
  carrier := false
  mpQmapNetDev := fun i ↦ if i < mode then some false else none

/-- The channel that a number names, and whether its call starts. -/
def linkCall (mode n : Nat) : Option (Nat × Bool) :=
  if 0 < n ∧ n ≤ mode then some (n - 1, true)
  else if 0x80 < n ∧ n ≤ 0x80 + mode then some (n - 0x81, false)
  else none

/-- The number that is written. -/
def LinkEvent.number : LinkEvent mode → Option Nat
  | .store buf => some (simpleStrtoul buf)
  | .ioctl linkState => some linkState.toNat
  | .opens _ => none
  | .stops _ => none

/-- What is asked of each step, from `s` to `s'`. -/
structure Lawful (mode : Nat) (e : LinkEvent mode) (s s' : LinkDev) : Prop where
  /-- There are bits for the channels only. -/
  range : ∀ j, mode ≤ j → s'.linkState.getLsbD j = false
  /-- A bit changes only if it is the one of the channel that is named. -/
  own : ∀ j, s'.linkState.getLsbD j ≠ s.linkState.getLsbD j →
    ∃ n on, e.number = some n ∧ linkCall mode n = some (j, on)
  /-- A child with a carrier has a call. -/
  carrier : ∀ i, s'.mpQmapNetDev i = some true → s'.linkState.getLsbD i = true

/-- Nothing goes wrong in a step from `s`: a child is not brought up while only others have a call,
and a number of more than 32 bits does not change anything. -/
def LinkDev.Permits (s : LinkDev) : LinkEvent mode → Prop
  | .store buf => 2 ^ 32 ≤ simpleStrtoul buf → ∀ j on,
      linkCall mode (simpleStrtoul buf % 2 ^ 32) = some (j, on) → s.linkState.getLsbD j = on
  | .opens i => s.linkState ≠ 0#32 → s.linkState.getLsbD i = true
  | .ioctl _ => True
  | .stops _ => True

/-! ## What is written -/

theorem digitValue_of_isDigit {c : Char} (h : c.isDigit = true) :
    digitValue c = some (c.toNat - '0'.toNat) ∧ c.toNat - '0'.toNat < 10 := by
  have hc : '0' ≤ c ∧ c ≤ '9' := by
    simp only [Char.isDigit, Bool.and_eq_true, decide_eq_true_eq] at h
    exact h
  refine ⟨if_pos hc, ?_⟩
  have hle : c.toNat ≤ '9'.toNat := hc.2
  have h9 : '9'.toNat = 57 := rfl
  have h0 : '0'.toNat = 48 := rfl
  omega

/-- Decimal digits are read to the end. -/
theorem parseInteger_digits {s : List Char} (h : ∀ c ∈ s, c.isDigit = true) (acc : Nat) :
    parseInteger 10 s acc = Nat.ofDigitChars 10 s acc := by
  induction s generalizing acc with
  | nil => rfl
  | cons c s ih =>
    obtain ⟨hval, hlt⟩ := digitValue_of_isDigit (h c List.mem_cons_self)
    rw [parseInteger, hval]
    dsimp only
    rw [if_pos hlt, ih fun c hc ↦ h c (List.mem_cons_of_mem _ hc)]
    rfl

/-- The ioctl hands on the number that it is given. -/
theorem simpleStrtoul_toDigits (n : Nat) : simpleStrtoul (Nat.toDigits 10 n) = n := by
  rcases Nat.eq_zero_or_pos n with rfl | hpos
  · rfl
  · have hhead := Dotted.head?_toDigits hpos
    have hread : parseInteger 10 (Nat.toDigits 10 n) 0 = n := by
      rw [parseInteger_digits fun c hc ↦ Dotted.isDigit_of_mem hc]
      exact Nat.ofDigitChars_ten_toDigits
    rw [simpleStrtoul]
    · exact hread
    · intro x d s hs
      rw [hs] at hhead
      exact hhead rfl
    · intro s hs
      rw [hs] at hhead
      exact hhead rfl

theorem linkCall_lt {n j : Nat} {on : Bool} (h : linkCall mode n = some (j, on)) : j < mode := by
  rw [linkCall] at h
  split at h
  · obtain ⟨rfl, -⟩ := Prod.mk.inj (Option.some.inj h)
    omega
  · split at h
    · obtain ⟨rfl, -⟩ := Prod.mk.inj (Option.some.inj h)
      omega
    · exact absurd h (by simp)

/-- A number of more than 32 bits names nothing. -/
theorem linkCall_of_ge (h8 : mode ≤ 8) {n : Nat} (h : 2 ^ 32 ≤ n) : linkCall mode n = none := by
  rw [linkCall, if_neg (by omega), if_neg (by omega)]

/-- The variable `offset_id` for the two numbers of a channel. -/
theorem offsetId_eq : ∀ j < 8,
    ((BitVec.ofNat 32 (j + 1) &&& 0xf#32) - 1#32).toNat = j ∧
    ((BitVec.ofNat 32 (j + 0x81) &&& 0xf#32) - 1#32).toNat = j := by
  decide

/-- The start or the end of a call on a channel. -/
def LinkDev.call (s : LinkDev) (j : Nat) (on : Bool) : LinkDev :=
  let linkState := if on then s.linkState ||| (1#32 <<< j) else s.linkState &&& ~~~(1#32 <<< j)
  if s.linkState = linkState then { s with linkState }
  else { s with linkState, carrier := decide (linkState ≠ 0#32) }.setCarrier j
    (linkState.getLsbD j)

/-- `link_state_store`, by the number that is left of the one in the text. -/
theorem linkStateStore_eq {s : LinkDev} (h2 : 2 ≤ s.qmapMode) (h8 : s.qmapMode ≤ 8)
    (buf : List Char) :
    linkStateStore s buf = match linkCall s.qmapMode (simpleStrtoul buf % 2 ^ 32) with
      | none => s
      | some (j, on) => s.call j on := by
  have hnum : BitVec.ofNat 32 (simpleStrtoul buf) =
      BitVec.ofNat 32 (simpleStrtoul buf % 2 ^ 32) := by
    refine BitVec.eq_of_toNat_eq ?_
    rw [BitVec.toNat_ofNat, BitVec.toNat_ofNat, Nat.mod_mod]
  have hlt : simpleStrtoul buf % 2 ^ 32 < 2 ^ 32 := Nat.mod_lt _ (by decide)
  rw [linkStateStore, hnum]
  generalize simpleStrtoul buf % 2 ^ 32 = v at hlt ⊢
  have hv : (BitVec.ofNat 32 v).toNat = v := by rw [BitVec.toNat_ofNat, Nat.mod_eq_of_lt hlt]
  have hsum : (0x80 + s.qmapMode) % 2 ^ 32 = 0x80 + s.qmapMode := Nat.mod_eq_of_lt (by omega)
  have hone : 1 < s.qmapMode := h2
  simp only [hv, hsum, linkCall, if_pos hone]
  by_cases hon : 0 < v ∧ v ≤ s.qmapMode
  · obtain ⟨j, rfl⟩ : ∃ j, v = j + 1 := ⟨v - 1, by omega⟩
    rw [if_pos hon, if_pos hon, (offsetId_eq j (by omega)).1]
    rfl
  · rw [if_neg hon, if_neg hon]
    by_cases hoff : 0x80 < v ∧ v ≤ 0x80 + s.qmapMode
    · obtain ⟨j, rfl⟩ : ∃ j, v = j + 0x81 := ⟨v - 0x81, by omega⟩
      rw [if_pos hoff, if_pos hoff, (offsetId_eq j (by omega)).2, Nat.add_sub_cancel]
      rfl
    · rw [if_neg hoff, if_neg hoff, if_pos rfl]

/-! ## One step -/

/-- What holds at all times: the carrier of the parent says whether there is any call. -/
structure Tracks (mode : Nat) (s : LinkDev) : Prop where
  qmapMode : s.qmapMode = mode
  up : s.up = true
  carrier : s.carrier = decide (s.linkState ≠ 0#32)
  registered : ∀ i, (s.mpQmapNetDev i).isSome = decide (i < mode)
  range : ∀ j, mode ≤ j → s.linkState.getLsbD j = false

/-- A child with a carrier has a call. -/
def CarrierOk (s : LinkDev) : Prop :=
  ∀ i, s.mpQmapNetDev i = some true → s.linkState.getLsbD i = true

variable {s : LinkDev}

theorem setCarrier_self (s : LinkDev) (i : Nat) (on : Bool) :
    (s.setCarrier i on).mpQmapNetDev i = (s.mpQmapNetDev i).map fun _ ↦ on :=
  Function.update_self _ _ _

theorem setCarrier_of_ne (s : LinkDev) {i j : Nat} (hj : j ≠ i) (on : Bool) :
    (s.setCarrier i on).mpQmapNetDev j = s.mpQmapNetDev j :=
  Function.update_of_ne hj _ _

theorem setCarrier_isSome (s : LinkDev) (i : Nat) (on : Bool) (j : Nat) :
    ((s.setCarrier i on).mpQmapNetDev j).isSome = (s.mpQmapNetDev j).isSome := by
  by_cases hj : j = i
  · rw [hj, setCarrier_self, Option.isSome_map]
  · rw [setCarrier_of_ne s hj]

theorem Tracks.setCarrier (h : Tracks mode s) (i : Nat) (on : Bool) :
    Tracks mode (s.setCarrier i on) where
  qmapMode := h.qmapMode
  up := h.up
  carrier := h.carrier
  registered j := by rw [setCarrier_isSome, h.registered]
  range := h.range

/-- A call changes nothing, or the bit of its channel and the carriers of the child and the
parent. -/
theorem call_cases (s : LinkDev) {j : Nat} (hj : j < 32) (on : Bool) :
    (s.call j on = s ∧ s.linkState.getLsbD j = on) ∨
      ∃ linkState : BitVec 32,
        (∀ k, linkState.getLsbD k = if k = j then on else s.linkState.getLsbD k) ∧
        s.linkState.getLsbD j ≠ on ∧
        s.call j on =
          { s with linkState, carrier := decide (linkState ≠ 0#32) }.setCarrier j on := by
  have hbits := getLsbD_flow s.linkState hj on
  rw [LinkDev.call]
  generalize (if on then s.linkState ||| (1#32 <<< j) else s.linkState &&& ~~~(1#32 <<< j)) =
    linkState at hbits ⊢
  have hself : linkState.getLsbD j = on := by rw [hbits, if_pos rfl]
  by_cases heq : s.linkState = linkState
  · rw [if_pos heq, ← heq]
    exact .inl ⟨rfl, by rw [heq, hself]⟩
  · refine .inr ⟨linkState, hbits, fun hon ↦ heq ?_, by rw [if_neg heq, hself]⟩
    refine BitVec.eq_of_getLsbD_eq fun k _ ↦ ?_
    rw [hbits]
    split
    · rename_i hk
      rw [hk, hon]
    · rfl

theorem getLsbD_call (s : LinkDev) {j : Nat} (hj : j < 32) (on : Bool) (k : Nat) :
    (s.call j on).linkState.getLsbD k = if k = j then on else s.linkState.getLsbD k := by
  rcases call_cases s hj on with ⟨heq, hon⟩ | ⟨linkState, hbits, -, heq⟩
  · rw [heq]
    split
    · rename_i hk
      rw [hk, hon]
    · rfl
  · rw [heq]
    exact hbits k

theorem eq_of_call_changed {j k : Nat} (hj : j < 32) {on : Bool}
    (h : (s.call j on).linkState.getLsbD k ≠ s.linkState.getLsbD k) :
    k = j ∧ s.linkState.getLsbD j ≠ on := by
  rw [getLsbD_call s hj] at h
  by_cases hkj : k = j
  · rw [if_pos hkj, hkj] at h
    exact ⟨hkj, h.symm⟩
  · rw [if_neg hkj] at h
    exact absurd rfl h

theorem Tracks.call (h : Tracks mode s) {j : Nat} (hj : j < mode) (h8 : mode ≤ 8) (on : Bool) :
    Tracks mode (s.call j on) := by
  rcases call_cases s (show j < 32 by omega) on with ⟨heq, -⟩ | ⟨linkState, hbits, -, heq⟩
  · rwa [heq]
  · have hrange : ∀ k, mode ≤ k → linkState.getLsbD k = false := by
      intro k hk
      rw [hbits, if_neg (by omega), h.range k hk]
    have hs : Tracks mode { s with linkState, carrier := decide (linkState ≠ 0#32) } :=
      ⟨h.qmapMode, h.up, rfl, h.registered, hrange⟩
    rw [heq]
    exact hs.setCarrier j on

theorem CarrierOk.call (h : CarrierOk s) {j : Nat} (hj : j < 32) (on : Bool) :
    CarrierOk (s.call j on) := by
  rcases call_cases s hj on with ⟨heq, -⟩ | ⟨linkState, hbits, -, heq⟩
  · rwa [heq]
  · rw [heq]
    intro i hi
    show linkState.getLsbD i = true
    rw [hbits]
    by_cases hij : i = j
    · rw [hij, setCarrier_self] at hi
      obtain ⟨-, -, hon⟩ := Option.map_eq_some_iff.mp hi
      rw [if_pos hij, hon]
    · rw [setCarrier_of_ne _ hij] at hi
      rw [if_neg hij, h i hi]

/-- The call that a step makes, if it makes one. -/
def LinkEvent.call : LinkEvent mode → Option (Nat × Bool)
  | .store buf => linkCall mode (simpleStrtoul buf % 2 ^ 32)
  | .ioctl linkState => linkCall mode linkState.toNat
  | .opens _ => none
  | .stops _ => none

/-- All that a step can do. -/
theorem step_cases (h : Tracks mode s) (h2 : 2 ≤ mode) (h8 : mode ≤ 8) (e : LinkEvent mode) :
    (∃ j on, e.call = some (j, on) ∧ j < mode ∧ s.step e = s.call j on) ∨
    (∃ i : Fin mode, e = .opens i ∧ s.linkState ≠ 0#32 ∧ s.step e = s.setCarrier i true) ∨
    (∃ i : Fin mode, e = .stops i ∧ s.step e = s.setCarrier i false) ∨
    (e.call = none ∧ (∀ i, e = .opens i → s.linkState = 0#32) ∧ s.step e = s) := by
  have hstore : ∀ buf, linkStateStore s buf =
      match linkCall mode (simpleStrtoul buf % 2 ^ 32) with
      | none => s
      | some (j, on) => s.call j on := by
    intro buf
    rw [linkStateStore_eq (by rwa [h.qmapMode]) (by rwa [h.qmapMode]), h.qmapMode]
  cases e with
  | store buf =>
    rw [LinkDev.step, hstore, LinkEvent.call]
    rcases hcall : linkCall mode (simpleStrtoul buf % 2 ^ 32) with _ | ⟨j, on⟩
    · exact .inr (.inr (.inr ⟨rfl, by simp, rfl⟩))
    · exact .inl ⟨j, on, rfl, linkCall_lt hcall, rfl⟩
  | ioctl linkState =>
    rw [LinkDev.step, qmapNdoDoIoctl, hstore, LinkEvent.call, simpleStrtoul_toDigits,
      Nat.mod_eq_of_lt linkState.isLt]
    rcases hcall : linkCall mode linkState.toNat with _ | ⟨j, on⟩
    · exact .inr (.inr (.inr ⟨rfl, by simp, rfl⟩))
    · exact .inl ⟨j, on, rfl, linkCall_lt hcall, rfl⟩
  | opens i =>
    have hstep : s.step (.opens i) = if s.carrier then s.setCarrier i true else s := by
      rw [LinkDev.step, rmnetVndOpen, h.up]
      rfl
    by_cases hlink : s.linkState = 0#32
    · refine .inr (.inr (.inr ⟨rfl, fun _ _ ↦ hlink, ?_⟩))
      rw [hstep, h.carrier, hlink]
      rfl
    · refine .inr (.inl ⟨i, rfl, hlink, ?_⟩)
      rw [hstep, h.carrier, if_pos (decide_eq_true hlink)]
  | stops i => exact .inr (.inr (.inl ⟨i, rfl, rfl⟩))

theorem Tracks.step (h : Tracks mode s) (h2 : 2 ≤ mode) (h8 : mode ≤ 8) (e : LinkEvent mode) :
    Tracks mode (s.step e) := by
  rcases step_cases h h2 h8 e with ⟨j, on, -, hj, heq⟩ | ⟨i, -, -, heq⟩ | ⟨i, -, heq⟩ | ⟨-, -, heq⟩
  · rw [heq]
    exact h.call hj h8 on
  · rw [heq]
    exact h.setCarrier i true
  · rw [heq]
    exact h.setCarrier i false
  · rwa [heq]

/-- Setting one carrier leaves the others as they are. -/
theorem carrierOk_setCarrier (h : CarrierOk s) (i : Nat) (on : Bool) :
    CarrierOk (s.setCarrier i on) ↔
      (on = true → (s.mpQmapNetDev i).isSome = true → s.linkState.getLsbD i = true) := by
  constructor
  · rintro hok rfl hsome
    refine hok i ?_
    obtain ⟨b, hb⟩ := Option.isSome_iff_exists.mp hsome
    rw [setCarrier_self, hb]
    rfl
  · intro hon k hk
    show s.linkState.getLsbD k = true
    by_cases hki : k = i
    · rw [hki, setCarrier_self] at hk
      obtain ⟨b, hb, hbon⟩ := Option.map_eq_some_iff.mp hk
      rw [hki]
      exact hon hbon (by rw [hb]; rfl)
    · rw [setCarrier_of_ne s hki] at hk
      exact h k hk

/-- The call is one that the number names, unless the number is too large. -/
theorem number_of_call {e : LinkEvent mode} {j : Nat} {on : Bool} (h : e.call = some (j, on)) :
    (∃ n, e.number = some n ∧ linkCall mode n = some (j, on)) ∨
      ∃ buf, e = .store buf ∧ 2 ^ 32 ≤ simpleStrtoul buf := by
  cases e with
  | store buf =>
    rcases Nat.lt_or_ge (simpleStrtoul buf) (2 ^ 32) with hlt | hge
    · rw [LinkEvent.call, Nat.mod_eq_of_lt hlt] at h
      exact .inl ⟨_, rfl, h⟩
    · exact .inr ⟨buf, rfl, hge⟩
  | ioctl linkState => exact .inl ⟨_, rfl, h⟩
  | opens i => exact absurd h (by simp [LinkEvent.call])
  | stops i => exact absurd h (by simp [LinkEvent.call])

/-- A call is harmless exactly if the number that it comes from names it, or if it changes
nothing. -/
theorem own_call_iff (h8 : mode ≤ 8) {e : LinkEvent mode} {j : Nat} {on : Bool}
    (hcall : e.call = some (j, on)) (hj : j < mode) :
    (∀ k, (s.call j on).linkState.getLsbD k ≠ s.linkState.getLsbD k →
      ∃ n on', e.number = some n ∧ linkCall mode n = some (k, on')) ↔ s.Permits e := by
  have h32 : j < 32 := by omega
  rcases number_of_call hcall with ⟨n, hn, hlink⟩ | ⟨buf, rfl, hge⟩
  · refine iff_of_true (fun k hk ↦ ?_) ?_
    · obtain ⟨rfl, -⟩ := eq_of_call_changed h32 hk
      exact ⟨n, on, hn, hlink⟩
    · cases e with
      | store buf =>
        intro hge
        obtain rfl := Option.some.inj hn
        rw [linkCall_of_ge h8 hge] at hlink
        exact absurd hlink (by simp)
      | ioctl linkState => trivial
      | opens i => exact absurd hn (by simp [LinkEvent.number])
      | stops i => trivial
  · have hcall : linkCall mode (simpleStrtoul buf % 2 ^ 32) = some (j, on) := hcall
    constructor
    · intro hown _ k on' hk
      obtain ⟨rfl, rfl⟩ := Prod.mk.inj (Option.some.inj (hcall.symm.trans hk))
      by_contra hne
      obtain ⟨n, on', hn, hlink⟩ := hown j
        (by rw [getLsbD_call s h32, if_pos rfl]; exact Ne.symm hne)
      obtain rfl := Option.some.inj hn
      rw [linkCall_of_ge h8 hge] at hlink
      exact absurd hlink (by simp)
    · intro hpermits k hk
      exact absurd (hpermits hge j on hcall) (eq_of_call_changed h32 hk).2

/-- **One step** is as it should be exactly if nothing goes wrong in it. -/
theorem lawful_iff (h : Tracks mode s) (hok : CarrierOk s) (h2 : 2 ≤ mode) (h8 : mode ≤ 8)
    (e : LinkEvent mode) : Lawful mode e s (s.step e) ↔ s.Permits e := by
  have hrange := (h.step h2 h8 e).range
  rcases step_cases h h2 h8 e with ⟨j, on, hcall, hj, heq⟩ | ⟨i, rfl, hlink, heq⟩ |
    ⟨i, rfl, heq⟩ | ⟨hnone, hopens, heq⟩
  · rw [heq] at hrange ⊢
    rw [← own_call_iff h8 hcall hj]
    exact ⟨fun hlaw ↦ hlaw.own, fun hown ↦ ⟨hrange, hown, hok.call (by omega) on⟩⟩
  · -- the child gets the carrier of the parent
    rw [heq] at hrange ⊢
    have hchild := carrierOk_setCarrier hok i true
    have hsome : (s.mpQmapNetDev i).isSome = true := by rw [h.registered, decide_eq_true i.isLt]
    constructor
    · intro hlaw _
      exact hchild.mp hlaw.carrier rfl hsome
    · intro hpermits
      exact ⟨hrange, fun k hk ↦ absurd rfl hk, hchild.mpr fun _ _ ↦ hpermits hlink⟩
  · rw [heq] at hrange ⊢
    refine iff_of_true ⟨hrange, fun k hk ↦ absurd rfl hk, ?_⟩ trivial
    exact (carrierOk_setCarrier hok i false).mpr (by simp)
  · rw [heq] at hrange ⊢
    refine iff_of_true ⟨hrange, fun k hk ↦ absurd rfl hk, hok⟩ ?_
    cases e with
    | store buf =>
      intro _ j on hcall
      rw [show linkCall mode (simpleStrtoul buf % 2 ^ 32) = none from hnone] at hcall
      exact absurd hcall (by simp)
    | ioctl linkState => trivial
    | opens i => exact fun hlink ↦ absurd (hopens i rfl) hlink
    | stops i => trivial

/-! ## Every run -/

theorem run_concat (s : LinkDev) (es : List (LinkEvent mode)) (e : LinkEvent mode) :
    s.run (es ++ [e]) = (s.run es).step e := by
  rw [LinkDev.run, LinkDev.run, List.foldl_append]
  rfl

theorem tracks_registered (mode : Nat) : Tracks mode (.registered mode) where
  qmapMode := rfl
  up := rfl
  carrier := rfl
  registered i := by
    show (if i < mode then some false else none : Option Bool).isSome = decide (i < mode)
    by_cases hi : i < mode
    · rw [if_pos hi, decide_eq_true hi]
      rfl
    · rw [if_neg hi, decide_eq_false hi]
      rfl
  range j _ := by
    show (0#32).getLsbD j = false
    exact BitVec.getLsbD_zero

theorem carrierOk_registered (mode : Nat) : CarrierOk (.registered mode) := by
  intro i hi
  have hi : (if i < mode then some false else none) = some true := hi
  split at hi
  · exact absurd (Option.some.inj hi) (by decide)
  · exact absurd hi (by simp)

theorem Tracks.run (h : Tracks mode s) (h2 : 2 ≤ mode) (h8 : mode ≤ 8)
    (es : List (LinkEvent mode)) : Tracks mode (s.run es) := by
  induction es using List.reverseRecOn with
  | nil => exact h
  | append_singleton es e ih =>
    rw [run_concat]
    exact ih.step h2 h8 e

/-- A bit changes only by a call on its channel. -/
theorem call_of_changed (h : Tracks mode s) (h2 : 2 ≤ mode) (h8 : mode ≤ 8) {e : LinkEvent mode}
    {k : Nat} (hk : (s.step e).linkState.getLsbD k ≠ s.linkState.getLsbD k) :
    ∃ on, e.call = some (k, on) := by
  rcases step_cases h h2 h8 e with ⟨j, on, hcall, hj, heq⟩ | ⟨i, -, -, heq⟩ | ⟨i, -, heq⟩ |
    ⟨-, -, heq⟩
  · rw [heq] at hk
    obtain ⟨rfl, -⟩ := eq_of_call_changed (by omega) hk
    exact ⟨on, hcall⟩
  all_goals
    rw [heq] at hk
    exact absurd rfl hk

/-- **Carrier and calls.**  From a device with all its children on, in every sequence of writes,
opens and stops: there are bits for the channels only, and a bit changes only by a number that names
its channel modulo `2 ^ 32`.  And each step is as it should be, also with the number as it is
written and with the carriers of the children, if and only if no child is brought up while there are
calls but none on its channel, and no number of more than 32 bits changes anything. -/
theorem linkState_iff (mode : Nat) (h2 : 2 ≤ mode) (h8 : mode ≤ 8) (es : List (LinkEvent mode)) :
    (∀ pre e, pre ++ [e] <+: es →
      (∀ j, mode ≤ j → ((LinkDev.registered mode).run (pre ++ [e])).linkState.getLsbD j = false) ∧
      ∀ j, ((LinkDev.registered mode).run (pre ++ [e])).linkState.getLsbD j ≠
          ((LinkDev.registered mode).run pre).linkState.getLsbD j →
        ∃ on, e.call = some (j, on)) ∧
    ((∀ pre e, pre ++ [e] <+: es → Lawful mode e ((LinkDev.registered mode).run pre)
        ((LinkDev.registered mode).run (pre ++ [e]))) ↔
      ∀ pre e, pre ++ [e] <+: es → ((LinkDev.registered mode).run pre).Permits e) := by
  have htracks : ∀ pre : List (LinkEvent mode), Tracks mode ((LinkDev.registered mode).run pre) :=
    (tracks_registered mode).run h2 h8
  refine ⟨fun pre e _ ↦ ⟨(htracks _).range, fun j hj ↦ ?_⟩, fun hlaw pre e hpre ↦ ?_,
    fun hpermits ↦ ?_⟩
  · rw [run_concat] at hj
    exact call_of_changed (htracks pre) h2 h8 hj
  · -- the carriers were right before this step
    have hok : CarrierOk ((LinkDev.registered mode).run pre) := by
      rcases List.eq_nil_or_concat pre with rfl | ⟨pre, e', rfl⟩
      · exact carrierOk_registered mode
      · rw [List.concat_eq_append] at hpre ⊢
        exact (hlaw pre e' ((List.prefix_append _ _).trans hpre)).carrier
    rw [← lawful_iff (htracks pre) hok h2 h8, ← run_concat]
    exact hlaw pre e hpre
  · have hok : ∀ pre, pre <+: es → CarrierOk ((LinkDev.registered mode).run pre) := by
      intro pre
      induction pre using List.reverseRecOn with
      | nil => exact fun _ ↦ carrierOk_registered mode
      | append_singleton pre e ih =>
        intro hpre
        rw [run_concat]
        exact ((lawful_iff (htracks pre) (ih ((List.prefix_append _ _).trans hpre)) h2 h8 e).mpr
          (hpermits pre e hpre)).carrier
    intro pre e hpre
    rw [run_concat]
    exact (lawful_iff (htracks pre) (hok pre ((List.prefix_append _ _).trans hpre)) h2 h8 e).mpr
      (hpermits pre e hpre)

/-- Both children are brought up after a call on the second channel has been reported by the ioctl,
the first one too early. -/
def earlyChild : List (LinkEvent 2) := [.ioctl 2#32, .opens 1, .opens 0]

/-- A call on the second channel, and its child is brought up. -/
theorem linkState_iff_own_child :
    Lawful 2 (.opens 1) ((LinkDev.registered 2).run (earlyChild.take 1))
      ((LinkDev.registered 2).run (earlyChild.take 1 ++ [.opens 1])) := by
  refine (linkState_iff 2 le_rfl (by decide) (earlyChild.take 2)).2.mpr ?_ _ _ (List.prefix_refl _)
  rintro pre e ⟨t, ht⟩
  rcases pre with _ | ⟨a, _ | ⟨b, pre⟩⟩
  · obtain ⟨rfl, -⟩ := List.cons.inj ht
    trivial
  · obtain ⟨rfl, hrest⟩ := List.cons.inj ht
    obtain ⟨rfl, -⟩ := List.cons.inj hrest
    intro _
    decide
  · have hlen := congrArg List.length ht
    simp only [List.length_append, List.length_cons, earlyChild, List.take, List.length_nil] at hlen
    omega

/-- The child of the first channel has a carrier then, and no call. -/
theorem early_child_has_carrier : ¬ ∀ pre e, pre ++ [e] <+: earlyChild →
    Lawful 2 e ((LinkDev.registered 2).run pre) ((LinkDev.registered 2).run (pre ++ [e])) := by
  intro h
  have hlaw := h (earlyChild.take 2) (.opens 0) (List.prefix_refl _)
  exact absurd (hlaw.carrier 0 (by decide)) (by decide)

end OpenwrtFeed.Mhi
