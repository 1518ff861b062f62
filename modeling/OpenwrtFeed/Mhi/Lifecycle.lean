import OpenwrtFeed.Lib.Custody
import OpenwrtFeed.Mhi.Frame

/-!
# The table of child interfaces

`mhi_netdev_probe` makes one child interface per channel and enters it into `mpQmapNetDev` and
`rmnet_info`; `mhi_netdev_remove` takes the children out of the table and down again.  Every call
that may fail does so as the `Outcome` of its channel says.

The table is meant to hold, at each of its eight places, nothing or a child that is alive.  Two
things work against that.  The number of channels is a module parameter that nobody compares with
eight.  And `rmnet_vnd_register_device` returns `NULL` when there is no memory for the device, but
the device it has just freed when a later call fails, so that the probe loop enters it and
`mhi_netdev_remove` frees it again.  `lifecycle_iff` says that there is nothing else: the table is
kept properly exactly when neither happens.

A device is identified by the channel it is made for, of which there is one allocation each, and its
past is its part of the log (`Custody.history`), so a freed device stays freed even if its memory is
used again.  What a write behind the eight places does to the rest of the structure is not modelled;
that it happens is what `written` is for.
-/

set_option autoImplicit false

namespace OpenwrtFeed.Mhi

/-! ## Devices -/

/-- The network devices of one modem: its own, and one for each channel. -/
inductive Dev where
  | ndev
  | child (i : Nat)
  deriving DecidableEq, Repr

/-- A call that makes or unmakes something of a device. -/
inductive DevEvent where
  | alloc
  | allocStats
  | register
  | nssCreate
  | rxHandlerRegister
  | rxHandlerUnregister
  | nssFree
  | freeStats
  | unregister
  | free
  deriving DecidableEq, Repr

/-- The fields of a `struct qmap_priv` and the name of its device. -/
structure Priv where
  name : String
  muxId : UInt8
  useQcaNss : Bool
  deriving DecidableEq, Repr

/-- `enum mhi_net_type`, by the channel and the parameter `mhi_mbim_enabled`. -/
inductive NetType where
  | rmnet
  | mbim
  | ether
  deriving DecidableEq, Repr

/-- Which of the calls for one channel succeed. -/
structure Outcome where
  allocEtherdev : Bool := true
  allocPcpuStats : Bool := true
  registerNetdev : Bool := true
  nssCreate : Bool := true
  deriving DecidableEq, Repr

/-- What decides the course of `mhi_netdev_probe`. -/
structure ProbeInput where
  netType : NetType
  /-- The module parameter. -/
  qmapMode : Nat
  /-- Whether the modem is one of those whose MBIM sessions start at `MBIM_MUX_ID_SDX7X`. -/
  sdx7x : Bool := false
  /-- Whether `rmnet_nss` is there. -/
  nssCb : Bool := false
  bridgeMode : Nat := 0
  /-- The name of the modem's own device. -/
  ndevName : String := "rmnet_mhi0"
  outcome : Nat → Outcome

/-- The channels of the device; there is one if it is not a QMAP device at all. -/
def ProbeInput.channels (inp : ProbeInput) : Nat :=
  match inp.netType with
  | .ether => 1
  | _ => inp.qmapMode

/-- The field `mbim_mux_id`. -/
def ProbeInput.mbimMuxId (inp : ProbeInput) : Nat := if inp.sdx7x then 112 else 0

/-- The mux id of channel 0. -/
def ProbeInput.muxBase (inp : ProbeInput) : Nat :=
  match inp.netType with
  | .mbim => inp.mbimMuxId
  | _ => quectelQmapMuxId

/-- The mux id of a channel. -/
def ProbeInput.muxId (inp : ProbeInput) (i : Nat) : UInt8 := UInt8.ofNat (inp.muxBase + i)

/-- The name `sprintf` makes for a child. -/
def ProbeInput.childName (inp : ProbeInput) (i : Nat) : String :=
  String.ofList (inp.ndevName.toList.take 12) ++ "." ++ toString (i % 256 + 1)

/-- Whether a child is to use NSS: there is one, and the child is not in bridge mode. -/
def ProbeInput.useNss (inp : ProbeInput) (i : Nat) : Bool :=
  inp.nssCb && !inp.bridgeMode.testBit (i % 256)

/-- The table of children, and what was done to which device. -/
structure Children where
  mpQmapNetDev : Nat → Option Dev := fun _ ↦ none
  /-- The names in `rmnet_info`; `none` where none was written. -/
  ifname : Nat → Option String := fun _ ↦ none
  /-- The mux ids in `rmnet_info`. -/
  muxId : Nat → Option UInt8 := fun _ ↦ none
  /-- The places of these arrays that were written. -/
  written : List Nat := []
  priv : Nat → Priv := fun _ ↦ ⟨"", 0, false⟩
  log : List (Dev × DevEvent) := []

/-- Some calls on one device. -/
def Children.call (s : Children) (d : Dev) (events : List DevEvent) : Children :=
  { s with log := s.log ++ Custody.burst d events }

/-! ## The driver -/

/-- `rmnet_vnd_register_device`. -/
def rmnetVndRegisterDevice (inp : ProbeInput) (s : Children) (i : Nat) (muxId : UInt8) :
    Children × Option Dev :=
  let qmapNet := Dev.child i
  if !(inp.outcome i).allocEtherdev then (s, none)
  else
    let s := s.call qmapNet [.alloc]
    let s := { s with priv := Function.update s.priv i ⟨inp.childName i, muxId, false⟩ }
    if !(inp.outcome i).allocPcpuStats then
      -- `out_free_newdev`
      (s.call qmapNet [.free], some qmapNet)
    else
      let s := s.call qmapNet [.allocStats]
      if !(inp.outcome i).registerNetdev then (s.call qmapNet [.free], some qmapNet)
      else
        let s := s.call qmapNet [.register]
        if inp.useNss i && (inp.outcome i).nssCreate then
          let s := s.call qmapNet [.nssCreate]
          let s := { s with priv := Function.update s.priv i { s.priv i with useQcaNss := true } }
          (s.call qmapNet [.rxHandlerRegister], some qmapNet)
        else (s, some qmapNet)

/-- One iteration of the loop in `mhi_netdev_probe`. -/
def probeChannel (inp : ProbeInput) (s : Children) (i : Nat) : Children :=
  let muxId := inp.muxId i
  let (s, dev) := rmnetVndRegisterDevice inp s i muxId
  let s := { s with
    mpQmapNetDev := Function.update s.mpQmapNetDev i dev
    written := s.written ++ [i] }
  if dev.isSome then
    { s with
      ifname := Function.update s.ifname i (some (s.priv i).name)
      muxId := Function.update s.muxId i (some muxId)
      written := s.written ++ [i] }
  else s

/-- `mhi_netdev_probe`, from the point where the modem's own device is registered. -/
def mhiNetdevProbe (inp : ProbeInput) : Children :=
  let s : Children := Children.call {} .ndev [.alloc, .register]
  match inp.netType with
  | .ether =>
    { s with
      mpQmapNetDev := Function.update s.mpQmapNetDev 0 (some .ndev)
      written := s.written ++ [0] }
  | _ => ((List.range inp.channels).foldl (probeChannel inp) s).call .ndev [.rxHandlerRegister]

/-- `rmnet_vnd_unregister_device`. -/
def rmnetVndUnregisterDevice (inp : ProbeInput) (s : Children) (i : Nat) : Children :=
  let s := if inp.nssCb && (s.priv i).useQcaNss then s.call (.child i)
    [.rxHandlerUnregister, .nssFree]
    else s
  s.call (.child i) [.freeStats, .unregister, .free]

/-- One iteration of the loop in `mhi_netdev_remove`. -/
def removeChannel (inp : ProbeInput) (s : Children) (i : Nat) : Children :=
  let s := match s.mpQmapNetDev i with
    | some (.child j) => rmnetVndUnregisterDevice inp s j
    | some .ndev => s
    | none => s
  { s with mpQmapNetDev := Function.update s.mpQmapNetDev i none }

/-- `mhi_netdev_remove`. -/
def mhiNetdevRemove (inp : ProbeInput) (s : Children) : Children :=
  let s := (List.range inp.channels).foldl (removeChannel inp) s
  let s := match inp.netType with
    | .ether => s
    | _ => s.call .ndev [.rxHandlerUnregister]
  s.call .ndev [.unregister, .freeStats, .free]

/-! ## What the table is meant to be -/

/-- A device is registered, and not freed. -/
def Children.Alive (s : Children) (d : Dev) : Prop :=
  .register ∈ Custody.history s.log d ∧ .unregister ∉ Custody.history s.log d ∧
    .free ∉ Custody.history s.log d

instance (s : Children) (d : Dev) : Decidable (s.Alive d) :=
  inferInstanceAs (Decidable (_ ∧ _ ∧ _))

/-- The table is kept properly: after the probe, and after the removal that follows it. -/
structure Kept (inp : ProbeInput) : Prop where
  in_bounds : ∀ i ∈ (mhiNetdevProbe inp).written, i < 8
  alive : ∀ i d, (mhiNetdevProbe inp).mpQmapNetDev i = some d → (mhiNetdevProbe inp).Alive d
  named : ∀ i name, (mhiNetdevProbe inp).ifname i = some name →
    (mhiNetdevProbe inp).mpQmapNetDev i = some (.child i) ∧
      (mhiNetdevProbe inp).Alive (.child i) ∧ name = inp.childName i ∧
      ∃ m, (mhiNetdevProbe inp).muxId i = some m ∧ m.toNat = inp.muxBase + i
  removed : ∀ i, .register ∈ Custody.history (mhiNetdevProbe inp).log (.child i) →
    (Custody.history (mhiNetdevRemove inp (mhiNetdevProbe inp)).log (.child i)).count
        .unregister = 1 ∧
      (Custody.history (mhiNetdevRemove inp (mhiNetdevProbe inp)).log (.child i)).count .free = 1
  nss_freed : ∀ i, .nssCreate ∈ Custody.history (mhiNetdevProbe inp).log (.child i) →
    (Custody.history (mhiNetdevRemove inp (mhiNetdevProbe inp)).log (.child i)).count .nssFree = 1

/-! ## One channel -/

/-- Whether a child gets a context. -/
def ProbeInput.created (inp : ProbeInput) (i : Nat) : Bool :=
  inp.useNss i && (inp.outcome i).nssCreate

/-- The calls that the probe makes for one channel. -/
def birth (inp : ProbeInput) (i : Nat) : List DevEvent :=
  if !(inp.outcome i).allocEtherdev then []
  else if !(inp.outcome i).allocPcpuStats then [.alloc, .free]
  else if !(inp.outcome i).registerNetdev then [.alloc, .allocStats, .free]
  else [.alloc, .allocStats, .register] ++
    if inp.created i then [.nssCreate, .rxHandlerRegister] else []

/-- The calls that the removal makes for one channel, depending on `use_qca_nss`. -/
def death (useQcaNss : Bool) : List DevEvent :=
  (if useQcaNss then [.rxHandlerUnregister, .nssFree] else []) ++ [.freeStats, .unregister, .free]

/-- What `rmnet_vnd_register_device` returns, and all that it changes. -/
structure RegisterSpec (inp : ProbeInput) (s : Children) (i : Nat) (muxId : UInt8)
    (r : Children × Option Dev) : Prop where
  dev : r.2 = if (inp.outcome i).allocEtherdev then some (.child i) else none
  slots : r.1.mpQmapNetDev = s.mpQmapNetDev
  ifname : r.1.ifname = s.ifname
  muxIds : r.1.muxId = s.muxId
  written : r.1.written = s.written
  name : (inp.outcome i).allocEtherdev = true → (r.1.priv i).name = inp.childName i
  priv_other : ∀ j, j ≠ i → r.1.priv j = s.priv j
  life : r.1.log = s.log ++ Custody.burst (.child i) (birth inp i)
  useQcaNss : (inp.outcome i).allocEtherdev = true → (inp.outcome i).allocPcpuStats = true →
    (inp.outcome i).registerNetdev = true → (r.1.priv i).useQcaNss = inp.created i

theorem rmnetVndRegisterDevice_spec (inp : ProbeInput) (s : Children) (i : Nat) (muxId : UInt8) :
    RegisterSpec inp s i muxId (rmnetVndRegisterDevice inp s i muxId) := by
  unfold rmnetVndRegisterDevice
  cases ha : (inp.outcome i).allocEtherdev with
  | false => constructor <;> simp [ha, birth, Custody.burst]
  | true =>
    cases hs : (inp.outcome i).allocPcpuStats with
    | false => constructor <;> simp +contextual [ha, hs, birth, Custody.burst, Children.call,
            Function.update_of_ne]
    | true =>
      cases hr : (inp.outcome i).registerNetdev with
      | false => constructor <;> simp +contextual [ha, hs, hr, birth, Custody.burst, Children.call,
            Function.update_of_ne]
      | true =>
        cases hc : inp.created i with
        | false =>
          have hc' : (inp.useNss i && (inp.outcome i).nssCreate) = false := hc
          constructor <;> simp +contextual [ha, hs, hr, hc, hc', birth, Custody.burst,
            Children.call,
            Function.update_of_ne]
        | true =>
          have hc' : (inp.useNss i && (inp.outcome i).nssCreate) = true := hc
          constructor <;> simp +contextual [ha, hs, hr, hc, hc', birth, Custody.burst,
            Children.call,
            Function.update_of_ne]

/-- The calls for one channel show in the past of its own child only. -/
theorem RegisterSpec.history {inp : ProbeInput} {s : Children} {i : Nat} {muxId : UInt8}
    {r : Children × Option Dev} (h : RegisterSpec inp s i muxId r) (j : Nat) :
    Custody.history r.1.log (.child j) =
      Custody.history s.log (.child j) ++ if j = i then birth inp i else [] := by
  rw [h.life]
  by_cases hj : j = i
  · rw [hj, Custody.history_append_self, if_pos rfl]
  · rw [Custody.history_append_of_ne _ (by simpa using Ne.symm hj), if_neg hj, List.append_nil]

/-! ## The probe loop -/

/-- The table after the first `n` channels. -/
structure Probed (inp : ProbeInput) (n : Nat) (s : Children) : Prop where
  slot : ∀ i, s.mpQmapNetDev i =
    if i < n ∧ (inp.outcome i).allocEtherdev = true then some (.child i) else none
  ifname : ∀ i, s.ifname i =
    if i < n ∧ (inp.outcome i).allocEtherdev = true then some (inp.childName i) else none
  muxId : ∀ i, s.muxId i =
    if i < n ∧ (inp.outcome i).allocEtherdev = true then some (inp.muxId i) else none
  written : ∀ i, i ∈ s.written ↔ i < n
  life : ∀ i, Custody.history s.log (.child i) = if i < n then birth inp i else []
  useQcaNss : ∀ i < n, (inp.outcome i).allocEtherdev = true →
    (inp.outcome i).allocPcpuStats = true → (inp.outcome i).registerNetdev = true →
    (s.priv i).useQcaNss = inp.created i

theorem probed_zero (inp : ProbeInput) :
    Probed inp 0 (Children.call {} .ndev [.alloc, .register]) := by
  constructor <;> simp [Children.call, Custody.history, Custody.burst]

/-- A loop that fills place `n` in its `n`-th iteration has filled the first `n`. -/
theorem update_filled {α : Type} {n : Nat} {p : Nat → Bool} {f : Nat → Option α} {g : Nat → α}
    (hf : ∀ i, f i = if i < n ∧ p i = true then some (g i) else none) (v : Option α)
    (hv : v = if p n = true then some (g n) else none) (i : Nat) :
    Function.update f n v i = if i < n + 1 ∧ p i = true then some (g i) else none := by
  by_cases hi : i = n
  · subst hi
    rw [Function.update_self, hv]
    simp
  · have hlt : i < n + 1 ↔ i < n := by omega
    rw [Function.update_of_ne hi, hf]
    simp only [hlt]

theorem probed_succ {inp : ProbeInput} {n : Nat} {s : Children} (h : Probed inp n s) :
    Probed inp (n + 1) (probeChannel inp s n) := by
  have hreg := rmnetVndRegisterDevice_spec inp s n (inp.muxId n)
  have hlife : ∀ i,
      Custody.history (rmnetVndRegisterDevice inp s n (inp.muxId n)).1.log (.child i) =
      if i < n + 1 then birth inp i else [] := by
    intro i
    rw [hreg.history, h.life]
    rcases Nat.lt_trichotomy i n with hi | hi | hi
    · rw [if_pos hi, if_neg (by omega), if_pos (by omega), List.append_nil]
    · subst hi
      rw [if_neg (by omega), if_pos rfl, if_pos (by omega), List.nil_append]
    · rw [if_neg (by omega), if_neg (by omega), if_neg (by omega), List.append_nil]
  have huse : ∀ i < n + 1, (inp.outcome i).allocEtherdev = true →
      (inp.outcome i).allocPcpuStats = true → (inp.outcome i).registerNetdev = true →
      ((rmnetVndRegisterDevice inp s n (inp.muxId n)).1.priv i).useQcaNss = inp.created i := by
    intro i hi
    by_cases hin : i = n
    · exact hin ▸ hreg.useQcaNss
    · rw [hreg.priv_other i hin]
      exact h.useQcaNss i (by omega)
  unfold probeChannel
  dsimp only
  cases ha : (inp.outcome n).allocEtherdev with
  | false =>
    have hdev : (rmnetVndRegisterDevice inp s n (inp.muxId n)).2 = none := by rw [hreg.dev, ha]; rfl
    rw [hdev, if_neg (by decide)]
    refine ⟨?_, ?_, ?_, ?_, hlife, huse⟩
    · rw [hreg.slots]
      exact update_filled h.slot _ (by rw [ha]; rfl)
    · intro i
      rw [hreg.ifname, ← Function.update_eq_self n s.ifname]
      exact update_filled h.ifname _ (by rw [h.ifname, ha]; simp) i
    · intro i
      rw [hreg.muxIds, ← Function.update_eq_self n s.muxId]
      exact update_filled h.muxId _ (by rw [h.muxId, ha]; simp) i
    · intro i
      rw [hreg.written, List.mem_append, List.mem_singleton, h.written]
      omega
  | true =>
    have hdev : (rmnetVndRegisterDevice inp s n (inp.muxId n)).2 = some (.child n) := by
      rw [hreg.dev, ha]; rfl
    rw [hdev, if_pos Option.isSome_some]
    refine ⟨?_, ?_, ?_, ?_, hlife, huse⟩
    · rw [hreg.slots]
      exact update_filled h.slot _ (by rw [ha]; rfl)
    · rw [hreg.ifname, hreg.name ha]
      exact update_filled h.ifname _ (by rw [ha]; rfl)
    · rw [hreg.muxIds]
      exact update_filled h.muxId _ (by rw [ha]; rfl)
    · intro i
      rw [hreg.written, List.mem_append, List.mem_append, List.mem_singleton, h.written]
      omega

/-- **The probe loop**, for any number of channels. -/
theorem probed_foldl (inp : ProbeInput) (n : Nat) : Probed inp n
    ((List.range n).foldl (probeChannel inp) (Children.call {} .ndev [.alloc, .register])) := by
  induction n with
  | zero => exact probed_zero inp
  | succ n ih =>
    rw [List.range_succ, List.foldl_append]
    exact probed_succ ih

/-! ## The loop of the removal -/

/-- The table after the first `n` of `N` channels were removed. -/
structure Removed (inp : ProbeInput) (N n : Nat) (s : Children) : Prop where
  slot : ∀ i, s.mpQmapNetDev i =
    if n ≤ i ∧ i < N ∧ (inp.outcome i).allocEtherdev = true then some (.child i) else none
  life : ∀ i < N, Custody.history s.log (.child i) = birth inp i ++
    if i < n ∧ (inp.outcome i).allocEtherdev = true then death (inp.nssCb && (s.priv i).useQcaNss)
    else []
  useQcaNss : ∀ i < N, (inp.outcome i).allocEtherdev = true →
    (inp.outcome i).allocPcpuStats = true → (inp.outcome i).registerNetdev = true →
    (s.priv i).useQcaNss = inp.created i

theorem rmnetVndUnregisterDevice_log (inp : ProbeInput) (s : Children) (i : Nat) :
    rmnetVndUnregisterDevice inp s i =
      s.call (.child i) (death (inp.nssCb && (s.priv i).useQcaNss)) := by
  rw [rmnetVndUnregisterDevice, death]
  cases inp.nssCb && (s.priv i).useQcaNss <;> simp [Children.call, Custody.burst]

theorem removed_succ {inp : ProbeInput} {N n : Nat} {s : Children} (hn : n < N)
    (h : Removed inp N n s) : Removed inp N (n + 1) (removeChannel inp s n) := by
  have hslot : ∀ i, Function.update s.mpQmapNetDev n none i =
      if n + 1 ≤ i ∧ i < N ∧ (inp.outcome i).allocEtherdev = true then some (.child i)
      else none := by
    intro i
    by_cases hi : i = n
    · subst hi
      rw [Function.update_self, if_neg (by omega)]
    · have hle : n + 1 ≤ i ↔ n ≤ i := by omega
      rw [Function.update_of_ne hi, h.slot]
      simp only [hle]
  unfold removeChannel
  rw [h.slot n]
  cases ha : (inp.outcome n).allocEtherdev with
  | false =>
    rw [if_neg (by simp)]
    refine ⟨hslot, fun i hi ↦ ?_, h.useQcaNss⟩
    dsimp only
    rw [h.life i hi]
    by_cases hin : i = n
    · subst hin
      rw [if_neg (by omega), if_neg (by simp [ha])]
    · have hlt : i < n + 1 ↔ i < n := by omega
      simp only [hlt]
  | true =>
    rw [if_pos ⟨Nat.le_refl n, hn, rfl⟩]
    dsimp only
    rw [rmnetVndUnregisterDevice_log]
    refine ⟨hslot, fun i hi ↦ ?_, h.useQcaNss⟩
    dsimp only [Children.call]
    by_cases hin : i = n
    · subst hin
      rw [Custody.history_append_self, h.life i hi, if_neg (by omega), if_pos ⟨by omega, ha⟩,
        List.append_nil]
    · have hlt : i < n + 1 ↔ i < n := by omega
      rw [Custody.history_append_of_ne _ (by simpa using Ne.symm hin), h.life i hi]
      simp only [hlt]

theorem removed_foldl {inp : ProbeInput} {N : Nat} {s : Children} (h : Removed inp N 0 s) (n : Nat)
    (hn : n ≤ N) : Removed inp N n ((List.range n).foldl (removeChannel inp) s) := by
  induction n with
  | zero => exact h
  | succ n ih =>
    rw [List.range_succ, List.foldl_append]
    exact removed_succ (by omega) (ih (by omega))

/-! ## The whole life of the table -/

/-- The calls on the modem's own device do not show in the past of a child. -/
theorem history_ndev (s : Children) (events : List DevEvent) (i : Nat) :
    Custody.history (s.call .ndev events).log (.child i) = Custody.history s.log (.child i) :=
  Custody.history_append_of_ne s.log (by simp) events

theorem mhiNetdevProbe_eq {inp : ProbeInput} (h : inp.netType ≠ .ether) :
    mhiNetdevProbe inp = ((List.range inp.qmapMode).foldl (probeChannel inp)
      (Children.call {} .ndev [.alloc, .register])).call .ndev [.rxHandlerRegister] := by
  unfold mhiNetdevProbe ProbeInput.channels
  cases hnet : inp.netType <;> simp_all

/-- The past of a child after the probe. -/
theorem history_probe {inp : ProbeInput} (h : inp.netType ≠ .ether) (i : Nat) :
    Custody.history (mhiNetdevProbe inp).log (.child i) =
      if i < inp.qmapMode then birth inp i else [] := by
  rw [mhiNetdevProbe_eq h, history_ndev]
  exact (probed_foldl inp inp.qmapMode).life i

/-- The past of a child after the removal. -/
theorem history_remove {inp : ProbeInput} (h : inp.netType ≠ .ether) {i : Nat}
    (hi : i < inp.qmapMode)
    (ha : (inp.outcome i).allocEtherdev = true) (hs : (inp.outcome i).allocPcpuStats = true)
    (hr : (inp.outcome i).registerNetdev = true) :
    Custody.history (mhiNetdevRemove inp (mhiNetdevProbe inp)).log (.child i) =
      birth inp i ++ death (inp.nssCb && inp.created i) := by
  have hprobed := probed_foldl inp inp.qmapMode
  have hstart : Removed inp inp.qmapMode 0 (mhiNetdevProbe inp) := by
    rw [mhiNetdevProbe_eq h]
    refine ⟨fun i ↦ ?_, fun i hi ↦ ?_, hprobed.useQcaNss⟩
    · refine (hprobed.slot i).trans ?_
      simp only [Nat.zero_le, true_and]
    · rw [history_ndev, hprobed.life, if_pos hi, if_neg (by omega), List.append_nil]
  have hend := removed_foldl hstart inp.qmapMode (Nat.le_refl _)
  have hchannels : inp.channels = inp.qmapMode := by
    unfold ProbeInput.channels
    cases hnet : inp.netType <;> simp_all
  have hlog : Custody.history (mhiNetdevRemove inp (mhiNetdevProbe inp)).log (.child i) =
      Custody.history ((List.range inp.qmapMode).foldl (removeChannel inp) (mhiNetdevProbe inp)).log
        (.child i) := by
    unfold mhiNetdevRemove
    rw [hchannels]
    dsimp only
    rw [history_ndev]
    split
    · rfl
    · rw [history_ndev]
  rw [hlog, hend.life i hi, if_pos ⟨hi, ha⟩, hend.useQcaNss i hi ha hs hr]

/-- A child whose registration succeeded got through all the calls before it. -/
theorem register_mem_birth {inp : ProbeInput} {i : Nat} (h : .register ∈ birth inp i) :
    (inp.outcome i).allocEtherdev = true ∧ (inp.outcome i).allocPcpuStats = true ∧
      (inp.outcome i).registerNetdev = true := by
  rw [birth] at h
  split at h
  · exact absurd h (by simp)
  · split at h
    · exact absurd h (by simp)
    · split at h
      · exact absurd h (by simp)
      · simp_all

theorem nssCreate_mem_birth {inp : ProbeInput} {i : Nat} (h : .nssCreate ∈ birth inp i) :
    .register ∈ birth inp i ∧ inp.created i = true := by
  rw [birth] at h ⊢
  split at h
  · exact absurd h (by simp)
  · split at h
    · exact absurd h (by simp)
    · split at h
      · exact absurd h (by simp)
      · cases hc : inp.created i <;> simp_all

theorem birth_eq {inp : ProbeInput} {i : Nat} (ha : (inp.outcome i).allocEtherdev = true)
    (hs : (inp.outcome i).allocPcpuStats = true) (hr : (inp.outcome i).registerNetdev = true) :
    birth inp i = [.alloc, .allocStats, .register] ++
      if inp.created i then [.nssCreate, .rxHandlerRegister] else [] := by
  simp [birth, ha, hs, hr]

/-- A child that got through all the calls is alive. -/
theorem alive_of_birth {inp : ProbeInput} (h : inp.netType ≠ .ether) {i : Nat}
    (hi : i < inp.qmapMode)
    (ha : (inp.outcome i).allocEtherdev = true) (hs : (inp.outcome i).allocPcpuStats = true)
    (hr : (inp.outcome i).registerNetdev = true) : (mhiNetdevProbe inp).Alive (.child i) := by
  rw [Children.Alive, history_probe h, if_pos hi, birth_eq ha hs hr]
  cases inp.created i <;> decide

theorem muxId_toNat (inp : ProbeInput) {i : Nat} (hi : i < 8) :
    (inp.muxId i).toNat = inp.muxBase + i := by
  have hbase : inp.muxBase ≤ 0x81 := by
    unfold ProbeInput.muxBase ProbeInput.mbimMuxId quectelQmapMuxId
    split
    · split <;> omega
    · omega
  rw [ProbeInput.muxId, UInt8.toNat_ofNat']
  omega

/-- Without channels of its own the device keeps its table properly. -/
theorem kept_of_ether {inp : ProbeInput} (h : inp.netType = .ether) : Kept inp := by
  have hprobe : mhiNetdevProbe inp = { Children.call {} .ndev [.alloc, .register] with
      mpQmapNetDev := Function.update (fun _ ↦ none) 0 (some .ndev), written := [0] } := by
    unfold mhiNetdevProbe
    rw [h]
    rfl
  have hnone : ∀ i, Custody.history (mhiNetdevProbe inp).log (.child i) = [] := by
    intro i
    rw [hprobe]
    exact history_ndev {} _ i
  refine ⟨fun i hi ↦ ?_, fun i d hd ↦ ?_, fun i name hname ↦ ?_, fun i hi ↦ ?_, fun i hi ↦ ?_⟩
  · rw [hprobe] at hi
    simp_all
  · rw [hprobe] at hd ⊢
    by_cases hi : i = 0
    · subst hi
      obtain rfl : Dev.ndev = d := by simpa using hd
      decide
    · simp [hi] at hd
  · rw [hprobe] at hname
    exact absurd hname (by simp [Children.call])
  · rw [hnone] at hi
    exact absurd hi (by simp)
  · rw [hnone] at hi
    exact absurd hi (by simp)

/-- If no more than eight channels are made, and no call fails for a child once it is allocated, the
table is kept properly. -/
theorem kept_of_registered {inp : ProbeInput} (h : inp.netType ≠ .ether) (hmode : inp.qmapMode ≤ 8)
    (hok : ∀ i < inp.qmapMode, (inp.outcome i).allocEtherdev = true →
      (inp.outcome i).allocPcpuStats = true ∧ (inp.outcome i).registerNetdev = true) :
    Kept inp := by
  have hprobed := probed_foldl inp inp.qmapMode
  have hslot : ∀ i d, (mhiNetdevProbe inp).mpQmapNetDev i = some d →
      i < inp.qmapMode ∧ (inp.outcome i).allocEtherdev = true ∧ d = .child i := by
    intro i d hd
    rw [mhiNetdevProbe_eq h] at hd
    have hd' := (hprobed.slot i).symm.trans hd
    split at hd'
    · rename_i hi
      exact ⟨hi.1, hi.2, (Option.some.inj hd').symm⟩
    · exact absurd hd' (by simp)
  have hregistered : ∀ i, .register ∈ Custody.history (mhiNetdevProbe inp).log (.child i) →
      i < inp.qmapMode ∧ .register ∈ birth inp i := by
    intro i hi
    rw [history_probe h] at hi
    split at hi
    · exact ⟨‹_›, hi⟩
    · exact absurd hi (by simp)
  refine ⟨fun i hi ↦ ?_, fun i d hd ↦ ?_, fun i name hname ↦ ?_, fun i hi ↦ ?_, fun i hi ↦ ?_⟩
  · rw [mhiNetdevProbe_eq h] at hi
    have := (hprobed.written i).1 hi
    omega
  · obtain ⟨hi, ha, rfl⟩ := hslot i d hd
    obtain ⟨hs, hr⟩ := hok i hi ha
    exact alive_of_birth h hi ha hs hr
  · rw [mhiNetdevProbe_eq h] at hname
    have hname' := (hprobed.ifname i).symm.trans hname
    split at hname'
    · rename_i hi
      obtain ⟨hs, hr⟩ := hok i hi.1 hi.2
      refine ⟨?_, alive_of_birth h hi.1 hi.2 hs hr, (Option.some.inj hname').symm, inp.muxId i, ?_,
        muxId_toNat inp (by omega)⟩
      · rw [mhiNetdevProbe_eq h]
        exact (hprobed.slot i).trans (if_pos hi)
      · rw [mhiNetdevProbe_eq h]
        exact (hprobed.muxId i).trans (if_pos hi)
    · exact absurd hname' (by simp)
  · obtain ⟨hlt, hmem⟩ := hregistered i hi
    obtain ⟨ha, hs, hr⟩ := register_mem_birth hmem
    rw [history_remove h hlt ha hs hr, birth_eq ha hs hr]
    cases inp.created i <;> cases inp.nssCb <;> decide
  · rw [history_probe h] at hi
    split at hi
    · rename_i hlt
      obtain ⟨hmem, hc⟩ := nssCreate_mem_birth hi
      obtain ⟨ha, hs, hr⟩ := register_mem_birth hmem
      have hcb : inp.nssCb = true := by
        simp only [ProbeInput.created, ProbeInput.useNss, Bool.and_eq_true] at hc
        exact hc.1.1
      rw [history_remove h hlt ha hs hr, birth_eq ha hs hr, hc, hcb]
      decide
    · exact absurd hi (by simp)

/-- **When the table of children is kept properly**: always for a device without channels, and
otherwise exactly if there are at most eight channels and, for each child that is allocated at all,
the allocation of its statistics and its registration succeed. -/
theorem lifecycle_iff (inp : ProbeInput) : Kept inp ↔ inp.netType = .ether ∨
    inp.qmapMode ≤ 8 ∧ ∀ i < inp.qmapMode, (inp.outcome i).allocEtherdev = true →
      (inp.outcome i).allocPcpuStats = true ∧ (inp.outcome i).registerNetdev = true := by
  constructor
  · intro hkept
    by_cases h : inp.netType = .ether
    · exact .inl h
    have hprobed := probed_foldl inp inp.qmapMode
    refine .inr ⟨?_, fun i hi ha ↦ ?_⟩
    · by_contra hmode
      have hwritten : 8 ∈ (mhiNetdevProbe inp).written := by
        rw [mhiNetdevProbe_eq h]
        exact (hprobed.written 8).2 (by omega)
      exact absurd (hkept.in_bounds 8 hwritten) (by omega)
    · have hslot : (mhiNetdevProbe inp).mpQmapNetDev i = some (.child i) := by
        rw [mhiNetdevProbe_eq h]
        exact (hprobed.slot i).trans (if_pos ⟨hi, ha⟩)
      have halive := (hkept.alive i _ hslot).1
      rw [history_probe h, if_pos hi] at halive
      exact (register_mem_birth halive).2
  · rintro (h | ⟨hmode, hok⟩)
    · exact kept_of_ether h
    · by_cases h : inp.netType = .ether
      · exact kept_of_ether h
      · exact kept_of_registered h hmode hok

/-- One channel, whose name is taken. -/
def nameTaken : ProbeInput where
  netType := .rmnet
  qmapMode := 1
  outcome := fun _ ↦ { registerNetdev := false }

/-- The table then holds a device that was freed. -/
theorem lifecycle_fails_for_taken_name : ¬ Kept nameTaken := by
  intro hkept
  have halive := (hkept.alive 0 (.child 0) rfl).1
  exact absurd halive (by decide)

end OpenwrtFeed.Mhi
