import Mathlib.Data.List.Forall2
import OpenwrtFeed.Mhi.Events

/-!
# Every event is handled once

What the loop of `mhi_process_data_event_ring` sees of the events.  The pointers of the host, of the
modem and of the loop itself each stand for a number of events (`Placed`); hence the modem never
writes over an event that is still in the ring, and the loop never takes one that is not written
yet.  So the ring is a queue: the modem puts events at its end, the loop takes the first one, and
`mhi_mark_stale_events` changes those in between (`Does`).

Only `MHI_PKT_TYPE_TX_EVENT` is marked.  An event of the type `MHI_PKT_TYPE_RSC_TX_EVENT` is handled
as it was written, also when its channel was closed.
-/

set_option autoImplicit false

namespace OpenwrtFeed.Mhi

/-- The local variable `dev_rp`, where the loop has one. -/
def EvReader.devRp? : EvReader → Option Nat
  | .test _ devRp _ => some devRp
  | .recycle _ devRp _ => some devRp
  | _ => none

/-- Whether the reader has taken an event and not given its element back. -/
def EvReader.holds : EvReader → Bool
  | .recycle .. => true
  | _ => false

namespace EvRing

variable {w w' : EvRing} {a : Act}

/-! ## The pointers -/

/-- How many elements were given back to the modem. -/
def recycled (w : EvRing) : Nat := w.handled.length - w.reader.holds.toNat

/-- The pointers of the ring, of the modem and of the loop, by the number of events that they stand
for. -/
structure Placed (w : EvRing) : Prop where
  ring_at : w.ring.At w.recycled (w.recycled + w.ring.elements - 1)
  ctxtWp_eq : w.ring.ctxtWp = w.ring.phys (w.recycled + w.ring.elements - 1)
  ctxtRp_eq : w.ctxtRp = w.ring.phys w.posted.length
  known_eq : ∃ k, w.known = w.ring.phys k ∧ w.posted.length ≤ k ∧
    k ≤ w.recycled + w.ring.elements - 1
  handled_le : w.handled.length ≤ w.posted.length
  holds : w.reader.holds = true → 0 < w.handled.length
  devRp_eq : ∀ d, w.reader.devRp? = some d →
    ∃ p, d = w.ring.slot p ∧ w.handled.length ≤ p ∧ p ≤ w.posted.length

theorem recycled_le (w : EvRing) : w.recycled ≤ w.handled.length := Nat.sub_le _ _

theorem Placed.posted_lt (h : w.Placed) : w.posted.length < w.recycled + w.ring.elements := by
  obtain ⟨k, -, hk, hk'⟩ := h.known_eq
  have hpos := h.ring_at.elements_pos
  omega

/-- The modem's pointer, as the host sees it. -/
theorem Placed.devRp (h : w.Placed) :
    w.ring.mhiToVirtual w.ctxtRp = w.ring.slot w.posted.length := by
  rw [h.ctxtRp_eq, h.ring_at.toLies.toVirtual_phys]

/-- A step that touches neither pointers nor the place where the loop is. -/
theorem Placed.of_reader (h : w.Placed) {mem : Nat → RingEvent} {owed msi sched missed : Bool}
    {irq : Option Nat} {reader : EvReader} (hholds : reader.holds = w.reader.holds)
    (hdev : ∀ d, reader.devRp? = some d →
      ∃ p, d = w.ring.slot p ∧ w.handled.length ≤ p ∧ p ≤ w.posted.length) :
    { w with mem, owed, msi, sched, missed, irq, reader }.Placed := by
  have hrec : { w with mem, owed, msi, sched, missed, irq, reader }.recycled = w.recycled := by
    simp only [recycled, hholds]
  refine ⟨?_, ?_, h.ctxtRp_eq, ?_, h.handled_le, fun hh ↦ h.holds (hholds ▸ hh), hdev⟩
  · rw [hrec]
    exact h.ring_at
  · rw [hrec]
    exact h.ctxtWp_eq
  · rw [hrec]
    exact h.known_eq

/-- What an operation of `mhi_process_data_event_ring` does. -/
inductive Reads (w : EvRing) : EvRing → Prop where
  | fetch (quota count : Nat) (hr : w.reader = .fetch quota count) :
    Reads w { w with reader := .test quota (w.ring.mhiToVirtual w.ctxtRp) count }
  | take (quota quota' devRp count : Nat) (hr : w.reader = .test quota devRp count)
    (hne : devRp ≠ w.ring.rp) (hle : quota' ≤ quota) (hlt : quota ≤ quota' + 1) :
    Reads w { w with
      handled := w.handled ++ [w.mem (w.ring.place w.ring.rp)]
      reader := .recycle quota' devRp count }
  | stop (quota devRp count : Nat) (hr : w.reader = .test quota devRp count)
    (hend : devRp = w.ring.rp ∨ quota = 0) : Reads w { w with reader := .leave count }
  | again (quota devRp count : Nat) (hr : w.reader = .recycle quota devRp count) :
    Reads w { w with
      ring := w.ring.mhiRecycleEvRingElement, reader := .fetch quota (count + 1) }
  | next (quota devRp count : Nat) (hr : w.reader = .recycle quota devRp count)
    (hne : w.ring.mhiRecycleEvRingElement.rp ≠ devRp) :
    Reads w { w with
      ring := w.ring.mhiRecycleEvRingElement, reader := .test quota devRp (count + 1) }
  | leave (count : Nat) (hr : w.reader = .leave count) : Reads w (w.finish count)

theorem readOp_reads (h : w.readOp = some w') : Reads w w' := by
  rw [readOp] at h
  cases hr : w.reader with
  | idle => simp [hr] at h
  | fetch quota count =>
    simp only [hr, Option.some.injEq] at h
    subst h
    exact .fetch quota count hr
  | test quota devRp count =>
    simp only [hr] at h
    split at h
    · rename_i hgo
      obtain rfl := Option.some.inj h
      refine .take quota _ devRp count hr hgo.1 ?_ ?_ <;> split <;> omega
    · rename_i hstop
      obtain rfl := Option.some.inj h
      refine .stop quota devRp count hr ?_
      by_cases hd : devRp = w.ring.rp
      · exact .inl hd
      · exact .inr (Nat.eq_zero_of_not_pos fun hpos ↦ hstop ⟨hd, hpos⟩)
  | recycle quota devRp count =>
    simp only [hr, Option.some.injEq] at h
    subst h
    split
    · exact .again quota devRp count hr
    · rename_i hgo
      exact .next quota devRp count hr fun he ↦ hgo (.inl he)
  | leave count =>
    simp only [hr, Option.some.injEq] at h
    subst h
    exact .leave count hr

/-- What the end of the task leaves alone. -/
theorem finish_eq (w : EvRing) (rxWork : Nat) :
    ∃ sched missed, w.finish rxWork = { w with sched, missed, reader := .idle } := by
  rw [finish]
  split
  · exact ⟨_, _, rfl⟩
  · split <;> exact ⟨_, _, rfl⟩

theorem schedule_eq (w : EvRing) : ∃ sched missed, w.schedule = { w with sched, missed } := by
  rw [schedule]
  split
  · exact ⟨_, _, rfl⟩
  · split <;> exact ⟨_, _, rfl⟩

theorem begin_eq (w : EvRing) (access : Bool) :
    ∃ sched missed, w.begin access = { w with sched, missed } ∨
      access = true ∧
        w.begin access = { w with sched, missed, reader := .fetch w.task.quota 0 } := by
  obtain ⟨task, _⟩ := w
  cases task with
  | tasklet => cases access with
    | true => exact ⟨_, _, .inr ⟨rfl, rfl⟩⟩
    | false => exact ⟨_, _, .inl rfl⟩
  | napi budget => cases access with
    | true => exact ⟨_, _, .inr ⟨rfl, rfl⟩⟩
    | false => exact ⟨_, _, .inl rfl⟩

/-- The element goes back to the modem. -/
theorem Placed.recycle (h : w.Placed) (hh : w.reader.holds = true) {reader : EvReader}
    (hr : reader.holds = false)
    (hdev : ∀ d, reader.devRp? = some d →
      ∃ p, d = w.ring.slot p ∧ w.handled.length ≤ p ∧ p ≤ w.posted.length) :
    { w with ring := w.ring.mhiRecycleEvRingElement, reader }.Placed := by
  have hpos := h.holds hh
  have hpos' := h.ring_at.elements_pos
  have hrec : w.recycled = w.handled.length - 1 := by rw [recycled, hh]; rfl
  have hrec' : { w with ring := w.ring.mhiRecycleEvRingElement, reader }.recycled =
      w.handled.length := by
    rw [recycled, hr]
    rfl
  have hnext : w.recycled + w.ring.elements - 1 + 1 = w.handled.length + w.ring.elements - 1 := by
    omega
  have hat := h.ring_at.recycle
  have hctxt : w.ring.mhiRecycleEvRingElement.ctxtWp =
      w.ring.phys (w.recycled + w.ring.elements - 1 + 1) := h.ring_at.add.ctxtWp_ringDb
  rw [hnext] at hat hctxt
  refine ⟨?_, ?_, h.ctxtRp_eq, ?_, h.handled_le, fun hh' ↦ ?_, hdev⟩
  · rw [hrec']
    rwa [hrec, Nat.sub_add_cancel hpos] at hat
  · rw [hrec']
    exact hctxt
  · obtain ⟨k, hk, hge, hle⟩ := h.known_eq
    refine ⟨k, hk, hge, ?_⟩
    rw [hrec']
    show k ≤ w.handled.length + w.ring.elements - 1
    omega
  · exact absurd (hr.symm.trans hh') (by simp)

theorem Placed.reads (h : w.Placed) (hr : Reads w w') : w'.Placed := by
  cases hr with
  | fetch quota count hr =>
    refine h.of_reader (by rw [hr]; rfl) fun d hd ↦ ?_
    obtain rfl := Option.some.inj hd
    exact ⟨w.posted.length, h.devRp, h.handled_le, Nat.le_refl _⟩
  | take quota quota' devRp count hr hne =>
    obtain ⟨p, rfl, hge, hle⟩ := h.devRp_eq devRp (by rw [hr]; rfl)
    have hrec : w.recycled = w.handled.length := by rw [recycled, hr]; rfl
    have hlt : w.handled.length < p := by
      refine Nat.lt_of_le_of_ne hge fun he ↦ hne ?_
      rw [h.ring_at.rp_eq, hrec, he]
    have hrec' : { w with
        handled := w.handled ++ [w.mem (w.ring.place w.ring.rp)]
        reader := .recycle quota' (w.ring.slot p) count }.recycled = w.recycled := by
      rw [hrec]
      simp [recycled, EvReader.holds]
    refine ⟨?_, ?_, h.ctxtRp_eq, ?_, ?_, ?_, ?_⟩
    · rw [hrec']
      exact h.ring_at
    · rw [hrec']
      exact h.ctxtWp_eq
    · rw [hrec']
      exact h.known_eq
    · simpa using Nat.succ_le_of_lt (Nat.lt_of_lt_of_le hlt hle)
    · simp
    · intro d hd
      obtain rfl := Option.some.inj hd
      exact ⟨p, rfl, by simpa using Nat.succ_le_of_lt hlt, hle⟩
  | stop quota devRp count hr =>
    exact h.of_reader (by rw [hr]; rfl) fun d hd ↦ absurd hd (by simp [EvReader.devRp?])
  | again quota devRp count hr =>
    exact h.recycle (by rw [hr]; rfl) rfl fun d hd ↦ absurd hd (by simp [EvReader.devRp?])
  | next quota devRp count hr =>
    refine h.recycle (by rw [hr]; rfl) rfl fun d hd ↦ h.devRp_eq d ?_
    rw [hr]
    exact hd
  | leave count hr =>
    obtain ⟨sched, missed, he⟩ := finish_eq w count
    rw [he]
    exact h.of_reader (by rw [hr]; rfl) fun d hd ↦ absurd hd (by simp [EvReader.devRp?])

/-- The modem writes an event only if there is an element for it. -/
theorem Placed.room (h : w.Placed) (hne : w.ctxtRp ≠ w.known) :
    ∃ k, w.known = w.ring.phys k ∧ w.posted.length < k ∧ k ≤ w.recycled + w.ring.elements - 1 := by
  obtain ⟨k, hk, hge, hle⟩ := h.known_eq
  refine ⟨k, hk, Nat.lt_of_le_of_ne hge fun he ↦ hne ?_, hle⟩
  rw [h.ctxtRp_eq, hk, he]

/-- The modem moves its pointer by one element. -/
theorem Placed.modemPost (h : w.Placed) (hne : w.ctxtRp ≠ w.known) (e : RingEvent) :
    (w.modemPost e).Placed := by
  obtain ⟨k, hk, hlt, hle⟩ := h.room hne
  have hrp : (w.modemPost e).ctxtRp = w.ring.phys (w.posted.length + 1) := by
    show (if w.ring.iommuBase + w.ring.len ≤ w.ctxtRp + w.ring.elSize then w.ring.iommuBase
      else w.ctxtRp + w.ring.elSize) = _
    rw [h.ctxtRp_eq]
    -- a ring of the same kind, where the modem sees it
    exact @MhiRing.Lies.slot_succ { w.ring with base := w.ring.iommuBase }
      ⟨h.ring_at.elSize_pos, h.ring_at.elements_pos, h.ring_at.len_eq, h.ring_at.iommu_lt,
        h.ring_at.iommu_lt⟩ w.posted.length
  refine ⟨h.ring_at, h.ctxtWp_eq, ?_, ⟨k, hk, ?_, hle⟩, ?_, h.holds, fun d hd ↦ ?_⟩
  · rw [hrp]
    show _ = w.ring.phys (w.posted ++ [e]).length
    rw [List.length_append, List.length_singleton]
  · show (w.posted ++ [e]).length ≤ k
    rw [List.length_append, List.length_singleton]
    exact hlt
  · show w.handled.length ≤ (w.posted ++ [e]).length
    rw [List.length_append]
    exact Nat.le_add_right_of_le h.handled_le
  · obtain ⟨p, hp, hge, hle'⟩ := h.devRp_eq d hd
    refine ⟨p, hp, hge, ?_⟩
    show p ≤ (w.posted ++ [e]).length
    rw [List.length_append]
    exact Nat.le_add_right_of_le hle'

theorem irqTest_inv (h : step w .irqTest = some w') :
    ∃ devRp, w.irq = some devRp ∧
      (w.ring.rp = devRp ∧ { w with irq := none } = w' ∨
        w.ring.rp ≠ devRp ∧ { w with irq := none }.schedule = w') := by
  cases hirq : w.irq with
  | none => simp [step, hirq] at h
  | some devRp =>
    simp only [step, hirq, Option.some.injEq] at h
    refine ⟨devRp, rfl, ?_⟩
    split at h
    · rename_i heq
      exact .inl ⟨heq, h⟩
    · rename_i hne
      exact .inr ⟨hne, h⟩

theorem Placed.step (h : w.Placed) (hs : step w a = some w') : w'.Placed := by
  have hdev := h.devRp_eq
  cases a with
  | post e =>
    obtain ⟨hne, rfl⟩ := Trace.of_guard hs
    exact h.modemPost hne e
  | learn =>
    obtain rfl := Option.some.inj hs
    have hlt := h.posted_lt
    exact ⟨h.ring_at, h.ctxtWp_eq, h.ctxtRp_eq,
      ⟨_, h.ctxtWp_eq, Nat.le_sub_one_of_lt hlt, Nat.le_refl _⟩, h.handled_le, h.holds, hdev⟩
  | raise =>
    obtain ⟨-, rfl⟩ := Trace.of_guard hs
    exact h.of_reader rfl hdev
  | irqRead =>
    obtain ⟨-, rfl⟩ := Trace.of_guard hs
    exact h.of_reader rfl hdev
  | irqTest =>
    obtain ⟨devRp, -, ⟨-, rfl⟩ | ⟨-, rfl⟩⟩ := irqTest_inv hs
    · exact h.of_reader rfl hdev
    · obtain ⟨sched, missed, he⟩ := schedule_eq { w with irq := none }
      rw [he]
      exact h.of_reader rfl hdev
  | start access =>
    obtain ⟨⟨-, hidle⟩, rfl⟩ := Trace.of_guard hs
    obtain ⟨sched, missed, he | ⟨-, he⟩⟩ := begin_eq w access
    · rw [he]
      exact h.of_reader rfl hdev
    · rw [he]
      exact h.of_reader (by rw [hidle]; rfl) fun d hd ↦
        absurd hd (by simp [EvReader.devRp?])
  | read => exact h.reads (readOp_reads hs)
  | markStale chan =>
    obtain ⟨-, rfl⟩ := Trace.of_guard hs
    exact h.of_reader rfl hdev

/-! ## The events -/

/-- The events that are in the ring. -/
def pending (w : EvRing) : List RingEvent :=
  Circular.contents w.ring.elements w.mem w.handled.length w.posted.length

/-- All events, those that were handled as they were then, and the others as they are now. -/
def events (w : EvRing) : List RingEvent := w.handled ++ w.pending

theorem Placed.length_events (h : w.Placed) : w.events.length = w.posted.length := by
  rw [events, List.length_append, pending, Circular.length_contents]
  exact Nat.add_sub_cancel' h.handled_le

/-- The loop marks the elements from the one pointer to the other, and no others. -/
theorem markLoop_spec {ring : MhiRing} (hl : ring.Lies) (chan : Nat) {p : Nat} :
    ∀ (fuel : Nat) (mem : Nat → RingEvent) (r : Nat), r ≤ p → p < r + ring.elements →
      p ≤ r + fuel →
      (∀ i, r ≤ i → i < p → markLoop ring chan (ring.slot p) fuel (mem, ring.slot r)
        (i % ring.elements) = (mem (i % ring.elements)).mark chan) ∧
      ∀ j, (∀ i, r ≤ i → i < p → i % ring.elements ≠ j) →
        markLoop ring chan (ring.slot p) fuel (mem, ring.slot r) j = mem j := by
  intro fuel
  induction fuel with
  | zero =>
    intro mem r hle _ hfuel
    exact ⟨fun i hi hip ↦ by omega, fun j _ ↦ rfl⟩
  | succ fuel ih =>
    intro mem r hle hlt hfuel
    by_cases hrp : r = p
    · subst hrp
      have hstop : markLoop ring chan (ring.slot r) (fuel + 1) (mem, ring.slot r) = mem :=
        if_pos rfl
      exact ⟨fun i hi hip ↦ by omega, fun j _ ↦ by rw [hstop]⟩
    · have hne : ring.slot p ≠ ring.slot r := fun he ↦ hrp ((hl.slot_eq hle hlt).mp he.symm)
      -- the pointer never goes beyond the end, so the two ways to turn are the same
      have hturn : (if ring.slot r + ring.elSize = ring.base + ring.len then ring.base
          else ring.slot r + ring.elSize) = ring.slot (r + 1) := by
        rw [← hl.slot_succ r]
        have hoff := hl.offset_lt r
        have hslot : ring.slot r = ring.base + ring.elSize * (r % ring.elements) := rfl
        refine ite_congr (propext ⟨fun h ↦ h ▸ Nat.le_refl _, fun h ↦ by omega⟩) (fun _ ↦ rfl)
          fun _ ↦ rfl
      have hstep : markLoop ring chan (ring.slot p) (fuel + 1) (mem, ring.slot r) =
          markLoop ring chan (ring.slot p) fuel
            (Function.update mem (r % ring.elements) ((mem (r % ring.elements)).mark chan),
              ring.slot (r + 1)) := by
        rw [markLoop, if_neg hne]
        simp only [markOne, hturn, hl.place_slot]
      obtain ⟨hin, hout⟩ :=
        ih (Function.update mem (r % ring.elements) ((mem (r % ring.elements)).mark chan)) (r + 1)
          (by omega) (by omega) (by omega)
      have hother : ∀ i, r + 1 ≤ i → i < p → i % ring.elements ≠ r % ring.elements := by
        intro i hi hip he
        have := Circular.eq_of_mod_eq (n := ring.elements) (show r ≤ i by omega) (by omega) he.symm
        omega
      rw [hstep]
      refine ⟨fun i hi hip ↦ ?_, fun j hj ↦ ?_⟩
      · rcases Nat.eq_or_lt_of_le hi with rfl | hi'
        · rw [hout _ hother, Function.update_self]
        · rw [hin i hi' hip, Function.update_of_ne (hother i hi' hip)]
      · rw [hout j fun i hi hip ↦ hj i (by omega) hip, Function.update_of_ne]
        exact (hj r (Nat.le_refl _) (by omega)).symm

/-- What `mhi_mark_stale_events` does to the events that are in the ring. -/
theorem Placed.markStale (h : w.Placed) (hidle : w.reader = .idle) (chan i : Nat)
    (hi : w.handled.length ≤ i) (hip : i < w.posted.length) :
    (w.mhiMarkStaleEvents chan).mem (i % w.ring.elements) =
      (w.mem (i % w.ring.elements)).mark chan := by
  have hrec : w.recycled = w.handled.length := by rw [recycled, hidle]; rfl
  have hlt := h.posted_lt
  have hspec := markLoop_spec h.ring_at.toLies chan w.ring.elements w.mem w.handled.length
    h.handled_le (hrec ▸ hlt) (by omega)
  show markLoop w.ring chan (w.ring.mhiToVirtual w.ctxtRp) w.ring.elements (w.mem, w.ring.rp)
    (i % w.ring.elements) = _
  rw [h.devRp, h.ring_at.rp_eq, hrec]
  exact hspec.1 i hi hip

/-- The modem does not write over an event that is in the ring. -/
theorem Placed.pending_post (h : w.Placed) (hne : w.ctxtRp ≠ w.known) (e : RingEvent) :
    (w.modemPost e).pending = w.pending ++ [e] := by
  obtain ⟨k, -, hlt, hle⟩ := h.room hne
  have hrec := recycled_le w
  show Circular.contents w.ring.elements
    (Function.update w.mem (w.ring.place (w.ring.mhiToVirtual w.ctxtRp)) e) w.handled.length
    (w.posted ++ [e]).length = _
  rw [h.devRp, h.ring_at.toLies.place_slot, List.length_append, List.length_singleton]
  exact Circular.contents_concat h.handled_le (by omega) e

/-- The loop takes the first of the events. -/
theorem Placed.pending_take (h : w.Placed) {quota devRp count : Nat}
    (hr : w.reader = .test quota devRp count) (hne : devRp ≠ w.ring.rp) :
    w.pending = w.mem (w.ring.place w.ring.rp) ::
      Circular.contents w.ring.elements w.mem (w.handled.length + 1) w.posted.length := by
  obtain ⟨p, rfl, hge, hle⟩ := h.devRp_eq devRp (by rw [hr]; rfl)
  have hrec : w.recycled = w.handled.length := by rw [recycled, hr]; rfl
  have hrp : w.ring.rp = w.ring.slot w.handled.length := by rw [h.ring_at.rp_eq, hrec]
  have hlt : w.handled.length < w.posted.length :=
    Nat.lt_of_lt_of_le (Nat.lt_of_le_of_ne hge fun he ↦ hne (by rw [hrp, he])) hle
  rw [hrp, h.ring_at.toLies.place_slot]
  exact Circular.contents_cons hlt

theorem Placed.events_markStale (h : w.Placed) (hidle : w.reader = .idle) (chan : Nat) :
    (w.mhiMarkStaleEvents chan).events = w.handled ++ w.pending.map (RingEvent.mark chan) :=
  congrArg (w.handled ++ ·) (Circular.contents_map fun i hi hip ↦ h.markStale hidle chan i hi hip)

/-- What becomes of the events in a step. -/
inductive Does (w w' : EvRing) : Act → Prop where
  | post (e : RingEvent) (hevents : w'.events = w.events ++ [e])
    (hposted : w'.posted = w.posted ++ [e]) : Does w w' (.post e)
  | mark (chan : Nat) (hevents : w'.events = w.handled ++ w.pending.map (RingEvent.mark chan))
    (hposted : w'.posted = w.posted) : Does w w' (.markStale chan)
  | other (a : Act) (hevents : w'.events = w.events) (hposted : w'.posted = w.posted) : Does w w' a

/-- A step in which neither the memory nor the lists change. -/
theorem Does.of_eq (hring : w'.ring.elements = w.ring.elements) (hmem : w'.mem = w.mem)
    (hposted : w'.posted = w.posted) (hhandled : w'.handled = w.handled) : Does w w' a :=
  .other a (by rw [events, events, pending, pending, hring, hmem, hposted, hhandled]) hposted

theorem reads_does (h : w.Placed) (hr : Reads w w') : Does w w' .read := by
  cases hr with
  | fetch | stop | again | next => exact .of_eq rfl rfl rfl rfl
  | leave count =>
    obtain ⟨sched, missed, he⟩ := finish_eq w count
    rw [he]
    exact .of_eq rfl rfl rfl rfl
  | take quota quota' devRp count hr hne =>
    refine .other _ ?_ rfl
    have hpending := h.pending_take hr hne
    simp only [events, hpending]
    simp only [pending, List.length_append, List.length_singleton, List.append_assoc,
      List.singleton_append]

theorem step_does (h : w.Placed) (hs : step w a = some w') : Does w w' a := by
  cases a with
  | post e =>
    obtain ⟨hne, rfl⟩ := Trace.of_guard hs
    refine .post e ?_ rfl
    rw [events, events, h.pending_post hne, ← List.append_assoc]
    rfl
  | learn =>
    obtain rfl := Option.some.inj hs
    exact .of_eq rfl rfl rfl rfl
  | raise | irqRead =>
    obtain ⟨-, rfl⟩ := Trace.of_guard hs
    exact .of_eq rfl rfl rfl rfl
  | irqTest =>
    obtain ⟨devRp, -, ⟨-, rfl⟩ | ⟨-, rfl⟩⟩ := irqTest_inv hs
    · exact .of_eq rfl rfl rfl rfl
    · obtain ⟨sched, missed, he⟩ := schedule_eq { w with irq := none }
      rw [he]
      exact .of_eq rfl rfl rfl rfl
  | start access =>
    obtain ⟨-, rfl⟩ := Trace.of_guard hs
    obtain ⟨sched, missed, he | ⟨-, he⟩⟩ := begin_eq w access <;> rw [he] <;>
      exact .of_eq rfl rfl rfl rfl
  | read => exact reads_does h (readOp_reads hs)
  | markStale chan =>
    obtain ⟨hidle, rfl⟩ := Trace.of_guard hs
    exact .mark chan (h.events_markStale hidle chan) rfl

/-- An event as it was written, or marked as stale since, when its channel was closed. -/
def Marked (closed : Nat → Prop) (e e' : RingEvent) : Prop :=
  e = e' ∨ e'.type = .tx ∧ closed e'.chid ∧ e = e'.stale

theorem Marked.mark {closed : Nat → Prop} {e e' : RingEvent} (h : Marked closed e e') {chan : Nat}
    (hchan : closed chan) : Marked closed (e.mark chan) e' := by
  rw [RingEvent.mark]
  split
  · rename_i htx
    rcases h with rfl | ⟨-, -, rfl⟩
    · exact .inr ⟨htx.1, htx.2 ▸ hchan, rfl⟩
    · exact absurd htx.1 (by simp [RingEvent.stale])
  · exact h

/-- The events are those that were written, in this order. -/
theorem Does.marked {closed : Nat → Prop} (hd : Does w w' a)
    (ha : ∀ chan, a = .markStale chan → closed chan)
    (h : List.Forall₂ (Marked closed) w.events w.posted) :
    List.Forall₂ (Marked closed) w'.events w'.posted := by
  cases hd with
  | post e hevents hposted =>
    rw [hevents, hposted]
    exact List.rel_append h (.cons (.inl rfl) .nil)
  | mark chan hevents hposted =>
    rw [hevents, hposted]
    have hhandled := List.forall₂_take w.handled.length h
    have hpending := List.forall₂_drop w.handled.length h
    rw [events, List.take_left] at hhandled
    rw [events, List.drop_left] at hpending
    rw [← List.take_append_drop w.handled.length w.posted]
    refine List.rel_append hhandled (List.forall₂_map_left_iff.mpr (hpending.imp fun e e' he ↦ ?_))
    exact he.mark (ha chan rfl)
  | other _ hevents hposted =>
    rw [hevents, hposted]
    exact h

/-- The size of the ring and the one who reads it stay the same. -/
theorem step_same (hs : step w a = some w') :
    w'.ring.elements = w.ring.elements ∧ w'.task = w.task := by
  cases a with
  | learn =>
    obtain rfl := Option.some.inj hs
    exact ⟨rfl, rfl⟩
  | post | raise | irqRead | markStale =>
    obtain ⟨-, rfl⟩ := Trace.of_guard hs
    exact ⟨rfl, rfl⟩
  | irqTest =>
    obtain ⟨devRp, -, ⟨-, rfl⟩ | ⟨-, rfl⟩⟩ := irqTest_inv hs
    · exact ⟨rfl, rfl⟩
    · obtain ⟨sched, missed, he⟩ := schedule_eq { w with irq := none }
      rw [he]
      exact ⟨rfl, rfl⟩
  | start access =>
    obtain ⟨-, rfl⟩ := Trace.of_guard hs
    obtain ⟨sched, missed, he | ⟨-, he⟩⟩ := begin_eq w access <;> rw [he] <;> exact ⟨rfl, rfl⟩
  | read =>
    cases readOp_reads hs with
    | fetch | take | stop | again | next => exact ⟨rfl, rfl⟩
    | leave count =>
      obtain ⟨sched, missed, he⟩ := finish_eq w count
      rw [he]
      exact ⟨rfl, rfl⟩

theorem init_placed (s : Setup) (mem : Nat → RingEvent) : (init s mem).Placed := by
  have hpos := s.elements_pos
  have hlies : (init s mem).ring.Lies :=
    ⟨s.elSize_pos, s.elements_pos, rfl, s.base_lt, s.iommu_lt⟩
  have hmul : s.elSize * (s.elements - 1) + s.elSize = s.elSize * s.elements := by
    rw [← Nat.mul_succ, Nat.succ_eq_add_one, Nat.sub_add_cancel hpos]
  have hlast : (0 + s.elements - 1) % s.elements = s.elements - 1 := by
    rw [Nat.zero_add]
    exact Nat.mod_eq_of_lt (by omega)
  refine ⟨⟨hlies, ?_, ?_⟩, ?_, ?_, ⟨0, ?_, Nat.le_refl _, Nat.zero_le _⟩, Nat.le_refl _, ?_, ?_⟩
  · show s.base = s.base + s.elSize * (0 % s.elements)
    rw [Nat.zero_mod, Nat.mul_zero, Nat.add_zero]
  · show s.base + s.elSize * s.elements - s.elSize =
      s.base + s.elSize * ((0 + s.elements - 1) % s.elements)
    rw [hlast]
    omega
  · show s.iommuBase + s.elSize * s.elements - s.elSize =
      s.iommuBase + s.elSize * ((0 + s.elements - 1) % s.elements)
    rw [hlast]
    omega
  · show s.iommuBase = s.iommuBase + s.elSize * (0 % s.elements)
    rw [Nat.zero_mod, Nat.mul_zero, Nat.add_zero]
  · show s.iommuBase = s.iommuBase + s.elSize * (0 % s.elements)
    rw [Nat.zero_mod, Nat.mul_zero, Nat.add_zero]
  · exact fun h ↦ absurd h Bool.false_ne_true
  · exact fun d hd ↦ absurd hd (by simp [init, EvReader.devRp?])

theorem run_placed {s : Setup} {mem : Nat → RingEvent} {as : List Act}
    (h : Trace.run step (init s mem) as = some w) : w.Placed :=
  Trace.run_invariant (P := fun _ ↦ True) (fun _ _ _ _ hw hs ↦ hw.step hs) (init_placed s mem)
    (fun _ _ ↦ trivial) h

/-! A ring of four elements that is polled, with a channel that is closed. -/

def sampleSetup : Setup where
  task := .napi 1
  quota_pos := Nat.one_pos
  iommuBase := 0x10000
  base := 0x4000
  elSize := 16
  elements := 4
  elSize_pos := by decide
  elements_pos := by decide
  base_lt := by decide
  iommu_lt := by decide

def sampleInit : EvRing := init sampleSetup fun _ ↦ ⟨0, 0, .stale, 0⟩

/-- Two events for the channel 101 and one for the channel 100, of which the first is handled. -/
def sampleActs : List Act :=
  [.learn, .post ⟨0, 1, .tx, 101⟩, .raise, .irqRead, .irqTest, .post ⟨16, 2, .tx, 101⟩, .start true,
    .read, .read, .read, .post ⟨32, 3, .tx, 100⟩, .read, .read, .read]

def sampleHandled : EvRing := (Trace.run step sampleInit sampleActs).getD sampleInit

/-- The channel 101 is closed, and NAPI polls again. -/
def sampleClosed : EvRing :=
  (Trace.run step (sampleHandled.mhiMarkStaleEvents 101)
    [.start true, .read, .read, .read, .read, .read]).getD sampleInit

/-- Every event that the modem writes is handled at most once, in the order in which they are
written, and as it was written unless it was marked when its channel was closed; and those that are
not handled yet are in the ring, in which there is always a place left. -/
theorem events_once (s : Setup) (mem : Nat → RingEvent) (as : List Act)
    (h : Trace.run step (init s mem) as = some w) :
    List.Forall₂ (Marked fun chan ↦ .markStale chan ∈ as) (w.handled ++ w.pending) w.posted ∧
      w.pending.length < s.elements := by
  have hinv := Trace.run_invariant (I := fun w ↦ w.Placed ∧ w.ring.elements = s.elements ∧
      List.Forall₂ (Marked fun chan ↦ .markStale chan ∈ as) w.events w.posted) (P := (· ∈ as))
    (fun w a w' ha hI hs ↦ ⟨hI.1.step hs, ?_, (step_does hI.1 hs).marked ?_ hI.2.2⟩)
    ⟨init_placed s mem, rfl, .nil⟩ (fun _ ha ↦ ha) h
  · refine ⟨hinv.2.2, ?_⟩
    rw [pending, Circular.length_contents]
    have hlt := hinv.1.posted_lt
    have hrec := recycled_le w
    have hpos := s.elements_pos
    omega
  · exact (step_same hs).1.trans hI.2.1
  · rintro chan rfl
    exact ha

theorem events_once_sample : sampleHandled.handled.length = 1 ∧
    List.Forall₂ (Marked fun _ ↦ False) (sampleHandled.handled ++ sampleHandled.pending)
      sampleHandled.posted := by
  have honce := events_once sampleSetup _ sampleActs (w := sampleHandled)
    (Trace.eq_some_getD (by decide +kernel))
  refine ⟨by decide +kernel, honce.1.imp fun e e' he ↦ he.imp_right fun hm ↦ ?_⟩
  exact absurd hm.2.1 (by simp [sampleActs])

/-- An event that is not one of an open channel. -/
def Dropped (chan : Nat) (e : RingEvent) : Prop := ¬ (e.type = .tx ∧ e.chid = chan)

theorem dropped_mark (chan : Nat) (e : RingEvent) : Dropped chan (e.mark chan) := by
  rw [RingEvent.mark]
  split
  · exact fun h ↦ absurd h.1 (by simp [RingEvent.stale])
  · assumption

theorem Dropped.mark {chan : Nat} {e : RingEvent} (h : Dropped chan e) (chan' : Nat) :
    Dropped chan (e.mark chan') := by
  rw [RingEvent.mark]
  split
  · exact fun h ↦ absurd h.1 (by simp [RingEvent.stale])
  · exact h

/-- The events from number `lo` up to number `hi` are dropped. -/
def DroppedIn (w : EvRing) (chan lo hi : Nat) : Prop :=
  hi ≤ w.posted.length ∧
    ∀ i e, lo ≤ i → i < hi → w.events[i]? = some e → Dropped chan e

theorem DroppedIn.does {chan lo hi : Nat} (h : w.DroppedIn chan lo hi) (hp : w.Placed)
    (hd : Does w w' a) : w'.DroppedIn chan lo hi := by
  obtain ⟨hhi, hev⟩ := h
  cases hd with
  | post e hevents hposted =>
    refine ⟨?_, fun i e' hlo hi' he' ↦ hev i e' hlo hi' ?_⟩
    · rw [hposted, List.length_append]
      exact Nat.le_add_right_of_le hhi
    · rwa [hevents, List.getElem?_append_left (by rw [hp.length_events]; omega)] at he'
  | mark chan' hevents hposted =>
    refine ⟨hposted ▸ hhi, fun i e' hlo hi' he' ↦ ?_⟩
    rw [hevents] at he'
    have hold := hev i
    rw [events] at hold
    rcases Nat.lt_or_ge i w.handled.length with hlt | hge
    · rw [List.getElem?_append_left hlt] at he' hold
      exact hold e' hlo hi' he'
    · rw [List.getElem?_append_right hge] at he' hold
      rw [List.getElem?_map] at he'
      obtain ⟨e, he, rfl⟩ := Option.map_eq_some_iff.mp he'
      exact (hold e hlo hi' he).mark chan'
  | other _ hevents hposted =>
    rw [DroppedIn, hevents, hposted]
    exact ⟨hhi, hev⟩

theorem DroppedIn.run {chan lo hi : Nat} {as : List Act} (h : w.DroppedIn chan lo hi)
    (hp : w.Placed) (hrun : Trace.run step w as = some w') : w'.DroppedIn chan lo hi := by
  have hinv := Trace.run_invariant (I := fun w ↦ w.Placed ∧ w.DroppedIn chan lo hi)
    (P := fun _ ↦ True) (fun u b u' _ hI hs ↦ ⟨hI.1.step hs, hI.2.does hI.1 (step_does hI.1 hs)⟩)
    ⟨hp, h⟩ (fun _ _ ↦ trivial) hrun
  exact hinv.2

/-- When a channel is closed, no completion that is in the ring at that time is ever given to it. -/
theorem closed_not_completed (s : Setup) (mem : Nat → RingEvent) {before after : List Act}
    {chan : Nat} {u v : EvRing} (hu : Trace.run step (init s mem) before = some u)
    (hv : step u (.markStale chan) = some v) (hw : Trace.run step v after = some w) (i : Nat)
    (hlo : u.handled.length ≤ i) (hhi : i < u.posted.length) (e : RingEvent)
    (he : w.handled[i]? = some e) : ¬ (e.type = .tx ∧ e.chid = chan) := by
  have hp := run_placed hu
  have hdropped : v.DroppedIn chan u.handled.length u.posted.length := by
    obtain ⟨hidle, rfl⟩ := Trace.of_guard hv
    refine ⟨Nat.le_refl _, fun j e' hlo' _ he' ↦ ?_⟩
    rw [hp.events_markStale hidle, List.getElem?_append_right hlo', List.getElem?_map] at he'
    obtain ⟨e'', -, rfl⟩ := Option.map_eq_some_iff.mp he'
    exact dropped_mark chan e''
  obtain ⟨-, hev⟩ := hdropped.run (hp.step hv) hw
  refine hev i e hlo hhi ?_
  obtain ⟨hlt, -⟩ := List.getElem?_eq_some_iff.mp he
  rw [events, List.getElem?_append_left hlt, he]

theorem closed_not_completed_sample : ∃ e, sampleClosed.handled[1]? = some e ∧ e.chid = 101 ∧
    e.type ≠ .tx := by
  obtain ⟨e, he⟩ := Option.isSome_iff_exists.mp
    (show (sampleClosed.handled[1]?).isSome = true by decide +kernel)
  have hchid : (sampleClosed.handled[1]?).map RingEvent.chid = some 101 := by decide +kernel
  rw [he] at hchid
  have hchid' : e.chid = 101 := Option.some.inj hchid
  have hu : Trace.run step sampleInit sampleActs = some sampleHandled :=
    Trace.eq_some_getD (by decide +kernel)
  have hidle : sampleHandled.reader = .idle := by decide +kernel
  have hv : step sampleHandled (.markStale 101) = some (sampleHandled.mhiMarkStaleEvents 101) := by
    rw [step, if_pos hidle]
  have hclosed := closed_not_completed sampleSetup _ hu hv (w := sampleClosed)
    (Trace.eq_some_getD (by decide +kernel)) 1 (by decide +kernel) (by decide +kernel) e he
  exact ⟨e, he, hchid', fun htx ↦ hclosed ⟨htx, hchid'⟩⟩

end EvRing

end OpenwrtFeed.Mhi
