import Mathlib.Logic.Function.Basic
import OpenwrtFeed.Lib.Trace

/-!
# Stopping and waking the transmit queues

How `mhi_netdev_quectel.c` keeps the ring of the uplink from getting full.  `mhi_netdev_xmit` stops
the queue of the device, and those of the devices on top of it, when fewer than 16 descriptors are
free; `mhi_netdev_xfer_ul_cb` wakes them when more than 32 are, if it finds the queue of the device
stopped.  A device on top of it stops its own queue too, in `rmnet_vnd_start_xmit`, when it finds
the one below stopped.

The callback is called in the tasklet of the event ring, and nothing keeps it from running at the
same time as the other two.  A device's own transmit function runs once at a time, and not while its
queue is stopped.
-/

set_option autoImplicit false

namespace OpenwrtFeed.Mhi

/-- Where `mhi_netdev_xmit` is. -/
inductive XmitPhase where
  | idle
  /-- in the loop that stops the queues on top, and the own one behind it -/
  | stopQmap (i : Nat)
  /-- before `mhi_queue_transfer` -/
  | queue
  deriving DecidableEq, Repr

/-- Where `mhi_netdev_xfer_ul_cb` is. -/
inductive UlCbPhase where
  | idle
  /-- before `netif_queue_stopped` -/
  | test
  /-- before `mhi_get_no_free_descriptors` -/
  | count
  | wakeDev
  | wakeQmap (i : Nat)
  deriving DecidableEq, Repr

/-- Where `rmnet_vnd_start_xmit` is. -/
inductive VndPhase where
  | idle
  /-- before it looks at the device below -/
  | test
  /-- before `netif_stop_queue` -/
  | stop
  deriving DecidableEq, Repr

structure TxFlow where
  /-- How many descriptors the channel has. -/
  descriptors : Nat
  /-- How many of them are in use. -/
  used : Nat
  qmapMode : Nat
  /-- Whether there is a device `mpQmapNetDev[i]`. -/
  qmapNet : Nat → Bool
  /-- Whether the queue of the device is stopped. -/
  stopped : Bool
  /-- Whether the queue of `mpQmapNetDev[i]` is. -/
  qmapStopped : Nat → Bool
  xmit : XmitPhase
  ulCb : UlCbPhase
  /-- The same for each `mpQmapNetDev[i]`. -/
  vnd : Nat → VndPhase

inductive TxFlow.Act where
  /-- `rmnet_vnd_start_xmit` is called. -/
  | vndStartXmit (i : Nat)
  /-- Its next operation. -/
  | vndStep (i : Nat)
  /-- The beginning of `mhi_netdev_xmit`. -/
  | xmit
  /-- The next operation of its loop. -/
  | stop
  /-- `mhi_queue_transfer`; `accepted` says whether it succeeds if there is a descriptor. -/
  | queue (accepted : Bool)
  /-- The modem has sent a packet; `ok` says whether `transaction_status` is 0. -/
  | complete (ok : Bool)
  /-- The next operation of `mhi_netdev_xfer_ul_cb`. -/
  | callback
  deriving DecidableEq, Repr

namespace TxFlow

/-- `mhi_get_no_free_descriptors` -/
def free (w : TxFlow) : Nat := w.descriptors - w.used

/-- `netif_stop_queue` and `netif_wake_queue` of a device on top -/
def setQmapStopped (w : TxFlow) (i : Nat) (stopped : Bool) : TxFlow :=
  { w with qmapStopped := Function.update w.qmapStopped i stopped }

/-- An operation of `mhi_netdev_xfer_ul_cb`, as long as the device is enabled. -/
def mhiNetdevXferUlCb (w : TxFlow) : Option TxFlow :=
  match w.ulCb with
  | .idle => none
  | .test => some { w with ulCb := if w.stopped then .count else .idle }
  | .count => some { w with ulCb := if 32 < w.free then .wakeDev else .idle }
  | .wakeDev => some { w with stopped := false, ulCb := .wakeQmap 0 }
  | .wakeQmap i =>
    if i < w.qmapMode then
      let w := if w.qmapNet i then w.setQmapStopped i false else w
      some { w with ulCb := .wakeQmap (i + 1) }
    else some { w with ulCb := .idle }

/-- An operation of the loop in `mhi_netdev_xmit`. -/
def stopQueues (w : TxFlow) (i : Nat) : TxFlow :=
  if i < w.qmapMode then
    let w := if w.qmapNet i then w.setQmapStopped i true else w
    { w with xmit := .stopQmap (i + 1) }
  else { w with stopped := true, xmit := .queue }

/-- An operation of `rmnet_vnd_start_xmit`. -/
def rmnetVndStartXmit (w : TxFlow) (i : Nat) : Option TxFlow :=
  match w.vnd i with
  | .idle => none
  | .test => some { w with vnd := Function.update w.vnd i (if w.stopped then .stop else .idle) }
  | .stop => some { w.setQmapStopped i true with vnd := Function.update w.vnd i .idle }

/-- One step of one of the parties. -/
def step (w : TxFlow) : Act → Option TxFlow
  | .vndStartXmit i =>
    if i < w.qmapMode ∧ w.qmapNet i ∧ w.qmapStopped i = false ∧ w.vnd i = .idle then
      some { w with vnd := Function.update w.vnd i .test }
    else none
  | .vndStep i => w.rmnetVndStartXmit i
  | .xmit =>
    if w.stopped = false ∧ w.xmit = .idle then
      some { w with xmit := if w.free < 16 then .stopQmap 0 else .queue }
    else none
  | .stop =>
    match w.xmit with
    | .stopQmap i => some (w.stopQueues i)
    | _ => none
  | .queue accepted =>
    if w.xmit = .queue then
      some { w with
        xmit := .idle
        used := if 0 < w.free ∧ accepted then w.used + 1 else w.used }
    else none
  | .complete ok =>
    if 0 < w.used ∧ w.ulCb = .idle then
      some { w with used := w.used - 1, ulCb := if ok then .test else .idle }
    else none
  | .callback => w.mhiNetdevXferUlCb

/-- A device that has been opened, with these devices on top of it. -/
def init (descriptors qmapMode : Nat) (qmapNet : Nat → Bool) : TxFlow where
  descriptors
  used := 0
  qmapMode
  qmapNet
  stopped := false
  qmapStopped _ := false
  xmit := .idle
  ulCb := .idle
  vnd _ := .idle

variable {w w' : TxFlow} {a : Act}

/-! ## The ring never gets full -/

/-- How many descriptors are free, by where the two functions are. -/
structure Room (w : TxFlow) : Prop where
  used_le : w.used ≤ w.descriptors
  idle : w.xmit = .idle → w.stopped = true ∨ 15 ≤ w.free
  stopping : ∀ i, w.xmit = .stopQmap i → w.stopped = false ∧ 15 ≤ w.free
  queue : w.xmit = .queue → 15 ≤ w.free ∧ (w.stopped = true ∨ 16 ≤ w.free)
  /-- The queue that the callback has found stopped is stopped until it wakes it. -/
  count : w.ulCb = .count ∨ w.ulCb = .wakeDev → w.stopped = true
  wake : w.ulCb = .wakeDev → 32 ≤ w.free ∧ (w.xmit = .queue → 33 ≤ w.free)

theorem stop_inv (h : step w .stop = some w') :
    ∃ i, w.xmit = .stopQmap i ∧ w.stopQueues i = w' := by
  rw [step] at h
  split at h
  · rename_i i hx
    exact ⟨i, hx, Option.some.inj h⟩
  · exact absurd h (by simp)

/-- What an operation of the callback does. -/
inductive Calls (w : TxFlow) : TxFlow → Prop where
  | test (hcb : w.ulCb = .test) :
    Calls w { w with ulCb := if w.stopped then .count else .idle }
  | count (hcb : w.ulCb = .count) :
    Calls w { w with ulCb := if 32 < w.free then .wakeDev else .idle }
  | wakeDev (hcb : w.ulCb = .wakeDev) : Calls w { w with stopped := false, ulCb := .wakeQmap 0 }
  | wakeQmap (i : Nat) (hcb : w.ulCb = .wakeQmap i) (hi : i < w.qmapMode) (qmapStopped : Nat → Bool)
    (hother : ∀ j, j ≠ i → qmapStopped j = w.qmapStopped j)
    (hwoken : w.qmapNet i = true → qmapStopped i = false) :
    Calls w { w with qmapStopped, ulCb := .wakeQmap (i + 1) }
  | done (i : Nat) (hcb : w.ulCb = .wakeQmap i) (hi : w.qmapMode ≤ i) :
    Calls w { w with ulCb := .idle }

theorem callback_calls (h : w.mhiNetdevXferUlCb = some w') : Calls w w' := by
  rw [mhiNetdevXferUlCb] at h
  split at h
  · exact absurd h (by simp)
  · rename_i hcb
    obtain rfl := Option.some.inj h
    exact .test hcb
  · rename_i hcb
    obtain rfl := Option.some.inj h
    exact .count hcb
  · rename_i hcb
    obtain rfl := Option.some.inj h
    exact .wakeDev hcb
  · rename_i i hcb
    split at h
    · rename_i hi
      obtain rfl := Option.some.inj h
      cases hnet : w.qmapNet i with
      | true =>
        exact .wakeQmap i hcb hi _ (fun j hj ↦ Function.update_of_ne hj _ _)
          fun _ ↦ Function.update_self _ _ _
      | false => exact .wakeQmap i hcb hi _ (fun _ _ ↦ rfl) fun h ↦ by simp [hnet] at h
    · rename_i hi
      obtain rfl := Option.some.inj h
      exact .done i hcb (Nat.le_of_not_lt hi)

theorem Room.calls (h : w.Room) (hc : Calls w w') : w'.Room := by
  cases hc with
  | test hcb =>
    refine ⟨h.used_le, h.idle, h.stopping, h.queue, fun hcb' ↦ ?_, fun hcb' ↦ ?_⟩
    · cases hst : w.stopped with
      | true => rfl
      | false => simp [hst] at hcb'
    · cases hst : w.stopped <;> simp [hst] at hcb'
  | count hcb =>
    have hst := h.count (.inl hcb)
    refine ⟨h.used_le, h.idle, h.stopping, h.queue, fun _ ↦ hst, fun hcb' ↦ ?_⟩
    by_cases hfree : 32 < w.free
    · exact ⟨Nat.le_of_lt hfree, fun _ ↦ hfree⟩
    · simp [hfree] at hcb'
  | wakeDev hcb =>
    have hst := h.count (.inr hcb)
    have hfree := (h.wake hcb).1
    refine ⟨h.used_le, fun _ ↦ .inr ?_, fun i hx ↦ ?_, fun hx ↦ ⟨?_, .inr ?_⟩, by simp, by simp⟩
    · exact Nat.le_trans (by simp) hfree
    · exact absurd (hst.symm.trans (h.stopping i hx).1) (by simp)
    · exact Nat.le_trans (by simp) hfree
    · exact Nat.le_trans (by simp) hfree
  | wakeQmap i hcb hi qmapStopped =>
    exact ⟨h.used_le, h.idle, h.stopping, h.queue, by simp, by simp⟩
  | done i hcb hi =>
    exact ⟨h.used_le, h.idle, h.stopping, h.queue, by simp, by simp⟩

theorem stopQueues_cases (w : TxFlow) (i : Nat) :
    (∃ qmapStopped, w.stopQueues i = { w with qmapStopped, xmit := .stopQmap (i + 1) }) ∨
      w.stopQueues i = { w with stopped := true, xmit := .queue } := by
  rw [stopQueues]
  split
  · cases w.qmapNet i with
    | true | false => exact .inl ⟨_, rfl⟩
  · exact .inr rfl

/-- What an operation of `rmnet_vnd_start_xmit` does. -/
theorem vndStep_inv {i : Nat} (h : w.rmnetVndStartXmit i = some w') :
    w.vnd i = .test ∧
        { w with vnd := Function.update w.vnd i (if w.stopped then .stop else .idle) } = w' ∨
      w.vnd i = .stop ∧
        { w.setQmapStopped i true with vnd := Function.update w.vnd i .idle } = w' := by
  rw [rmnetVndStartXmit] at h
  split at h
  · exact absurd h (by simp)
  · rename_i hv
    exact .inl ⟨hv, Option.some.inj h⟩
  · rename_i hv
    exact .inr ⟨hv, Option.some.inj h⟩

theorem Room.step (h : w.Room) (hs : step w a = some w') : w'.Room := by
  have hused := h.used_le
  cases a with
  | vndStartXmit i =>
    obtain ⟨-, rfl⟩ := Trace.of_guard hs
    exact ⟨h.used_le, h.idle, h.stopping, h.queue, h.count, h.wake⟩
  | vndStep i =>
    obtain ⟨-, rfl⟩ | ⟨-, rfl⟩ := vndStep_inv hs <;>
      exact ⟨h.used_le, h.idle, h.stopping, h.queue, h.count, h.wake⟩
  | xmit =>
    obtain ⟨⟨hst, hx⟩, rfl⟩ := Trace.of_guard hs
    have hfree := (h.idle hx).resolve_left (by simp [hst])
    have hquiet : ¬ (w.ulCb = .count ∨ w.ulCb = .wakeDev) := fun hcb ↦
      absurd (hst.symm.trans (h.count hcb)) (by simp)
    refine ⟨hused, fun hx' ↦ ?_, fun i hx' ↦ ⟨hst, hfree⟩, fun hx' ↦ ⟨hfree, .inr ?_⟩,
      fun hcb ↦ absurd hcb hquiet, fun hcb ↦ absurd (.inr hcb) hquiet⟩
    · by_cases hlow : w.free < 16 <;> simp [hlow] at hx'
    · by_cases hlow : w.free < 16
      · simp [hlow] at hx'
      · exact Nat.le_of_not_lt hlow
  | stop =>
    obtain ⟨i, hx, rfl⟩ := stop_inv hs
    obtain ⟨hst, hfree⟩ := h.stopping i hx
    have hquiet : ¬ (w.ulCb = .count ∨ w.ulCb = .wakeDev) := fun hcb ↦
      absurd (hst.symm.trans (h.count hcb)) (by simp)
    obtain ⟨qmapStopped, he⟩ | he := stopQueues_cases w i <;> rw [he]
    · exact ⟨hused, by simp, fun _ _ ↦ ⟨hst, hfree⟩, by simp, fun hcb ↦ absurd hcb hquiet,
        fun hcb ↦ absurd (.inr hcb) hquiet⟩
    · exact ⟨hused, by simp, by simp, fun _ ↦ ⟨hfree, .inl rfl⟩, fun _ ↦ rfl,
        fun hcb ↦ absurd (.inr hcb) hquiet⟩
  | queue accepted =>
    obtain ⟨hx, rfl⟩ := Trace.of_guard hs
    obtain ⟨hfree, hst⟩ := h.queue hx
    have hfree' : w.free - 1 ≤ w.descriptors -
        (if 0 < w.free ∧ accepted = true then w.used + 1 else w.used) := by
      rw [free]
      split <;> omega
    refine ⟨?_, fun _ ↦ ?_, by simp, by simp, h.count, fun hcb ↦ ⟨?_, by simp⟩⟩
    · show (if 0 < w.free ∧ accepted = true then w.used + 1 else w.used) ≤ w.descriptors
      rw [free] at hfree ⊢
      split <;> omega
    · refine hst.imp_right fun h16 ↦ Nat.le_trans ?_ hfree'
      omega
    · have h33 := (h.wake hcb).2 hx
      exact Nat.le_trans (by omega) hfree'
  | complete ok =>
    obtain ⟨⟨hpos, hcb⟩, rfl⟩ := Trace.of_guard hs
    have hfree : w.free ≤ w.descriptors - (w.used - 1) := Nat.sub_le_sub_left (Nat.sub_le _ _) _
    refine ⟨Nat.le_trans (Nat.sub_le _ _) hused, fun hx ↦ ?_, fun i hx ↦ ?_, fun hx ↦ ?_, ?_, ?_⟩
    · exact (h.idle hx).imp_right fun h15 ↦ Nat.le_trans h15 hfree
    · exact ⟨(h.stopping i hx).1, Nat.le_trans (h.stopping i hx).2 hfree⟩
    · obtain ⟨h15, hst⟩ := h.queue hx
      exact ⟨Nat.le_trans h15 hfree, hst.imp_right fun h16 ↦ Nat.le_trans h16 hfree⟩
    · cases ok <;> simp
    · cases ok <;> simp
  | callback => exact h.calls (callback_calls hs)

theorem init_room {descriptors : Nat} (h : 33 ≤ descriptors) (qmapMode : Nat)
    (qmapNet : Nat → Bool) :
    (init descriptors qmapMode qmapNet).Room :=
  ⟨Nat.zero_le _, fun _ ↦ .inr (Nat.le_trans (by simp) h), by simp [init], by simp [init],
    by simp [init], by simp [init]⟩

/-- **The ring never gets full.**  Whatever the order in which packets are sent, the modem completes
them and the callback wakes the queues, whenever `mhi_netdev_xmit` comes to `mhi_queue_transfer`
there are at least 15 descriptors. -/
theorem never_full (descriptors qmapMode : Nat) (hmany : 33 ≤ descriptors) (qmapNet : Nat → Bool)
    (as : List Act) (h : Trace.run step (init descriptors qmapMode qmapNet) as = some w)
    (hx : w.xmit = .queue) : w.used + 15 ≤ w.descriptors := by
  have hroom := Trace.run_invariant (I := Room) (P := fun _ ↦ True) (fun _ _ _ _ hI hs ↦ hI.step hs)
    (init_room hmany qmapMode qmapNet) (fun _ _ ↦ trivial) h
  have hfree := (hroom.queue hx).1
  rw [free] at hfree
  omega

def sampleStart : TxFlow := init 33 1 fun _ ↦ true

/-- A ring of 33 descriptors is filled until the queues are stopped, while a packet of the device on
top is on its way. -/
def sampleFill : List Act :=
  (List.replicate 18 [Act.xmit, .queue true]).flatten ++ [.vndStartXmit 0, .xmit, .stop, .stop]

theorem never_full_sample : ∃ w, Trace.run step sampleStart sampleFill = some w ∧
    w.stopped = true ∧ w.used + 15 ≤ w.descriptors := by
  have hrun : Trace.run step sampleStart sampleFill =
      some ((Trace.run step sampleStart sampleFill).getD sampleStart) :=
    Trace.eq_some_getD (by decide +kernel)
  refine ⟨_, hrun, by decide +kernel, ?_⟩
  exact never_full 33 1 (Nat.le_refl _) (fun _ ↦ true) sampleFill hrun (by decide +kernel)

/-! ## The queues do not stay stopped -/

/-- What a step has to be like if no queue is to stay stopped: packets are accepted and sent, and
the callback does not pass a device that is about to stop its own queue. -/
def careful (w : TxFlow) : Act → Bool
  | .queue accepted => accepted
  | .complete ok => ok
  | .callback =>
    match w.ulCb with
    | .wakeQmap i => w.vnd i ≠ .stop
    | _ => true
  | _ => true

/-- Who is going to wake a queue that is stopped. -/
structure Live (w : TxFlow) : Prop where
  many : 33 ≤ w.descriptors
  dev : w.stopped = true → w.xmit = .queue ∨ 0 < w.used ∨
    (w.ulCb = .test ∨ w.ulCb = .count) ∧ 32 < w.free ∨ w.ulCb = .wakeDev
  qmap : ∀ i < w.qmapMode, w.qmapNet i = true → w.qmapStopped i = true ∨ w.vnd i = .stop →
    w.stopped = true ∨ (∃ k, w.xmit = .stopQmap k) ∨ ∃ j ≤ i, w.ulCb = .wakeQmap j

theorem Live.calls (h : w.Live) (hcare : w.careful .callback = true) (hc : Calls w w') :
    w'.Live := by
  have hdev := h.dev
  have hqmap := h.qmap
  cases hc with
  | test hcb =>
    simp only [hcb] at hdev hqmap
    refine ⟨h.many, fun hst ↦ ?_, fun i hi hnet hs ↦ ?_⟩
    · have hst' : w.stopped = true := hst
      have hor : w.xmit = .queue ∨ 0 < w.used ∨ 32 < w.free := by simpa using hdev hst'
      refine hor.imp_right (Or.imp_right fun hfree ↦ .inl ⟨.inr ?_, hfree⟩)
      simp [hst']
    · rcases hqmap i hi hnet hs with hst | hx | ⟨j, -, hj⟩
      · exact .inl hst
      · exact .inr (.inl hx)
      · exact absurd hj (by simp)
  | count hcb =>
    simp only [hcb] at hdev hqmap
    refine ⟨h.many, fun hst ↦ ?_, fun i hi hnet hs ↦ ?_⟩
    · by_cases hfree : 32 < w.free
      · exact .inr (.inr (.inr (by simp [hfree])))
      · have hst' := hdev hst
        simpa [hfree] using hst'
    · rcases hqmap i hi hnet hs with hst | hx | ⟨j, -, hj⟩
      · exact .inl hst
      · exact .inr (.inl hx)
      · exact absurd hj (by simp)
  | wakeDev hcb =>
    exact ⟨h.many, by simp, fun i _ _ _ ↦ .inr (.inr ⟨0, Nat.zero_le _, rfl⟩)⟩
  | wakeQmap k hcb hk qmapStopped hother hwoken =>
    have hvnd : w.vnd k ≠ .stop := by simpa [careful, hcb] using hcare
    simp only [hcb] at hdev hqmap
    refine ⟨h.many, fun hst ↦ ?_, fun i hi hnet hs ↦ ?_⟩
    · simpa using hdev hst
    · have hs' : qmapStopped i = true ∨ w.vnd i = .stop := hs
      rcases Decidable.em (i = k) with rfl | hne
      · -- it has just been woken
        exact absurd hs' (by simp [hwoken hnet, hvnd])
      · rw [hother i hne] at hs'
        rcases hqmap i hi hnet hs' with hst | hx | ⟨j, hj, hjk⟩
        · exact .inl hst
        · exact .inr (.inl hx)
        · obtain rfl : k = j := by simpa using hjk
          exact .inr (.inr ⟨k + 1, by omega, rfl⟩)
  | done k hcb hk =>
    simp only [hcb] at hdev hqmap
    refine ⟨h.many, fun hst ↦ by simpa using hdev hst, fun i hi hnet hs ↦ ?_⟩
    have hi' : i < w.qmapMode := hi
    rcases hqmap i hi hnet hs with hst | hx | ⟨j, hj, hjk⟩
    · exact .inl hst
    · exact .inr (.inl hx)
    · obtain rfl : k = j := by simpa using hjk
      omega

/-- A device on top goes on. -/
theorem Live.vndStep (h : w.Live) {i : Nat} (hs : w.rmnetVndStartXmit i = some w') : w'.Live := by
  obtain ⟨hv, rfl⟩ | ⟨hv, rfl⟩ := vndStep_inv hs
  · refine ⟨h.many, h.dev, fun k hk hnet hor ↦ ?_⟩
    cases hst : w.stopped with
    | true => exact .inl rfl
    | false =>
      have hor' : w.qmapStopped k = true ∨
          Function.update w.vnd i (if w.stopped then .stop else .idle) k = .stop := hor
      have hold := h.qmap k hk hnet
      rw [hst] at hold hor'
      refine hold (hor'.imp_right fun hk' ↦ ?_)
      rcases Decidable.em (k = i) with rfl | hne
      · simp at hk'
      · rwa [Function.update_of_ne hne] at hk'
  · refine ⟨h.many, h.dev, fun k hk hnet hor ↦ h.qmap k hk hnet ?_⟩
    have hor' : Function.update w.qmapStopped i true k = true ∨
        Function.update w.vnd i .idle k = .stop := hor
    rcases Decidable.em (k = i) with rfl | hne
    · exact .inr hv
    · rwa [Function.update_of_ne hne, Function.update_of_ne hne] at hor'

theorem Live.step (h : w.Live) (hroom : w.Room) (hcare : w.careful a = true)
    (hs : step w a = some w') : w'.Live := by
  have hmany := h.many
  cases a with
  | vndStartXmit i =>
    obtain ⟨⟨-, -, -, hidle⟩, rfl⟩ := Trace.of_guard hs
    refine ⟨h.many, h.dev, fun k hk hnet hor ↦ h.qmap k hk hnet ?_⟩
    have hor' : w.qmapStopped k = true ∨ Function.update w.vnd i .test k = .stop := hor
    refine hor'.imp_right fun hk' ↦ ?_
    rcases Decidable.em (k = i) with rfl | hne
    · simp at hk'
    · rwa [Function.update_of_ne hne] at hk'
  | vndStep i => exact h.vndStep hs
  | xmit =>
    obtain ⟨⟨hst, hx⟩, rfl⟩ := Trace.of_guard hs
    refine ⟨h.many, fun hst' ↦ absurd (hst.symm.trans hst') (by simp), fun i hi hnet hor ↦ ?_⟩
    rcases h.qmap i hi hnet hor with hst' | ⟨k, hk⟩ | hcb
    · exact absurd (hst.symm.trans hst') (by simp)
    · exact absurd (hx.symm.trans hk) (by simp)
    · exact .inr (.inr hcb)
  | stop =>
    obtain ⟨i, hx, rfl⟩ := stop_inv hs
    obtain ⟨hst, -⟩ := hroom.stopping i hx
    obtain ⟨qmapStopped, he⟩ | he := stopQueues_cases w i <;> rw [he]
    · exact ⟨h.many, fun hst' ↦ absurd (hst.symm.trans hst') (by simp),
        fun _ _ _ _ ↦ .inr (.inl ⟨i + 1, rfl⟩)⟩
    · exact ⟨h.many, fun _ ↦ .inl rfl, fun _ _ _ _ ↦ .inl rfl⟩
  | queue accepted =>
    obtain ⟨hx, rfl⟩ := Trace.of_guard hs
    obtain rfl : accepted = true := hcare
    have hfree := (hroom.queue hx).1
    refine ⟨h.many, fun _ ↦ .inr (.inl ?_), fun i hi hnet hor ↦ ?_⟩
    · show 0 < if 0 < w.free ∧ true = true then w.used + 1 else w.used
      rw [if_pos ⟨by omega, rfl⟩]
      exact Nat.succ_pos _
    · rcases h.qmap i hi hnet hor with hst | ⟨k, hk⟩ | hcb
      · exact .inl hst
      · exact absurd (hx.symm.trans hk) (by simp)
      · exact .inr (.inr hcb)
  | complete ok =>
    obtain ⟨⟨hpos, hcb⟩, rfl⟩ := Trace.of_guard hs
    obtain rfl : ok = true := hcare
    refine ⟨h.many, fun hst ↦ ?_, fun i hi hnet hor ↦ ?_⟩
    · rcases Nat.lt_or_ge 1 w.used with hmore | hlast
      · exact .inr (.inl (show 0 < w.used - 1 by omega))
      · refine .inr (.inr (.inl ⟨.inl rfl, ?_⟩))
        show 32 < w.descriptors - (w.used - 1)
        omega
    · rcases h.qmap i hi hnet hor with hst | hx | ⟨j, -, hj⟩
      · exact .inl hst
      · exact .inr (.inl hx)
      · exact absurd (hcb.symm.trans hj) (by simp)
  | callback => exact h.calls hcare (callback_calls hs)

theorem init_live {descriptors : Nat} (h : 33 ≤ descriptors) (qmapMode : Nat)
    (qmapNet : Nat → Bool) :
    (init descriptors qmapMode qmapNet).Live :=
  ⟨h, by simp [init], by simp [init]⟩

/-- **No queue stays stopped.**  As long as packets are accepted and sent, and the callback passes
no device that is about to stop its own queue: when nothing is on the ring, and neither
`mhi_netdev_xmit` nor the callback is in the middle of anything, all queues are awake. -/
theorem never_stalls (descriptors qmapMode : Nat) (hmany : 33 ≤ descriptors) (qmapNet : Nat → Bool)
    (as : List Act)
    (hcare : Trace.always step careful (init descriptors qmapMode qmapNet) as = true)
    (h : Trace.run step (init descriptors qmapMode qmapNet) as = some w) (hused : w.used = 0)
    (hx : w.xmit = .idle) (hcb : w.ulCb = .idle) :
    w.stopped = false ∧ ∀ i < w.qmapMode, w.qmapNet i = true → w.qmapStopped i = false := by
  obtain ⟨-, hlive⟩ := Trace.run_invariant_of (I := fun w ↦ w.Room ∧ w.Live)
    (fun _ _ _ hC hI hs ↦ ⟨hI.1.step hs, hI.2.step hI.1 hC hs⟩)
    ⟨init_room hmany qmapMode qmapNet, init_live hmany qmapMode qmapNet⟩ hcare h
  have hdev : w.stopped = false := by
    cases hst : w.stopped with
    | false => rfl
    | true => simpa [hused, hx, hcb] using hlive.dev hst
  refine ⟨hdev, fun i hi hnet ↦ ?_⟩
  cases hst : w.qmapStopped i with
  | false => rfl
  | true => simpa [hdev, hx, hcb] using hlive.qmap i hi hnet (.inl hst)

/-- The last packet is queued, the device on top stops its queue as well, and all packets are sent.
-/
def sampleDrain : List Act :=
  sampleFill ++ [.queue true, .vndStep 0, .vndStep 0] ++
    (List.replicate 18 [Act.complete true, .callback, .callback]).flatten ++
    [.complete true, .callback, .callback, .callback, .callback, .callback]

def sampleDrained : TxFlow := (Trace.run step sampleStart sampleDrain).getD sampleStart

theorem never_stalls_sample :
    sampleDrained.stopped = false ∧ sampleDrained.qmapStopped 0 = false := by
  have hstalls := never_stalls 33 1 (Nat.le_refl _) (fun _ ↦ true) sampleDrain (w := sampleDrained)
    (by decide +kernel) (Trace.eq_some_getD (by decide +kernel)) (by decide +kernel)
    (by decide +kernel) (by decide +kernel)
  exact ⟨hstalls.1, hstalls.2 0 (by decide +kernel) (by decide +kernel)⟩

/-- If the callback comes between the two, the device on top stops its queue for good: nothing is on
the ring any more, and the queue below is awake. -/
example : (Trace.run step sampleStart (sampleFill ++ [.queue true, .vndStep 0] ++
    (List.replicate 18 [Act.complete true, .callback, .callback]).flatten ++
    [.complete true, .callback, .callback, .callback, .callback, .callback, .vndStep 0])).map
      (fun w ↦ (w.used, w.stopped, w.qmapStopped 0)) = some (0, false, true) := by
  decide +kernel

end TxFlow

end OpenwrtFeed.Mhi
