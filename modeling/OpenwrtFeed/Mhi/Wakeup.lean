import OpenwrtFeed.Mhi.Polling

/-!
# No event is forgotten

The loop of `mhi_process_data_event_ring` leaves when it has come to the pointer that it has read,
and an event that the modem writes after that is seen only if somebody brings the task to look
again.  The handler of the interrupt does not do so if it finds the ring empty, and NAPI does not
poll again after `napi_complete`.  `Watched` says why there is always somebody: the modem, who has
still to raise an interrupt, the interrupt, or the scheduler.

There are two things that must not happen.  If `MHI_EVENT_ACCESS_INVALID` turns the task away, it is
gone, and so is a tasklet that has used up its `U32_MAX` events.
-/

set_option autoImplicit false

namespace OpenwrtFeed.Mhi

namespace EvRing

variable {w w' : EvRing} {a : Act}

/-! ## Somebody is on the way -/

/-- Whether the task will run again. -/
def again (w : EvRing) : Bool :=
  match w.task, w.reader with
  | .napi _, .idle => w.sched
  | .napi _, _ => w.missed
  | .tasklet, _ => w.sched

/-- The modem, the interrupt or the scheduler will bring the task to look at the ring. -/
def Woken (w : EvRing) : Prop :=
  w.owed = true ∨ w.msi = true ∨ w.irq = some (w.ring.slot w.posted.length) ∨ w.again = true

/-- What the loop has counted. -/
def Counts (w : EvRing) : EvReader → Prop
  | .idle => True
  | .fetch quota count => w.task.quota ≤ quota + count ∧ count ≤ w.handled.length
  | .test quota _ count => w.task.quota ≤ quota + count ∧ count ≤ w.handled.length
  | .recycle quota _ count => w.task.quota ≤ quota + (count + 1) ∧ count + 1 ≤ w.handled.length
  | .leave count => count ≤ w.handled.length

/-- Why no event is forgotten, by where the loop is. -/
def Alert (w : EvRing) : EvReader → Prop
  | .idle => w.handled.length < w.posted.length →
    w.Woken ∨ w.task = .tasklet ∧ w.task.quota ≤ w.handled.length
  | .fetch .. => True
  | .test _ devRp _ => devRp ≠ w.ring.slot w.posted.length → w.Woken
  | .recycle _ devRp _ => devRp ≠ w.ring.slot w.posted.length → w.Woken
  | .leave count => w.handled.length < w.posted.length → w.Woken ∨ w.task.quota ≤ count

structure Watched (w : EvRing) : Prop where
  /-- A poll is scheduled until it is complete. -/
  sched : ∀ budget, w.task = .napi budget → w.reader ≠ .idle → w.sched = true
  counts : w.Counts w.reader
  alert : w.Alert w.reader

/-- A step after which at least as many are on the way. -/
theorem Alert.mono {r : EvReader} (h : w.Alert r) (htask : w'.task = w.task)
    (hslot : w'.ring.slot w'.posted.length = w.ring.slot w.posted.length)
    (hposted : w'.posted.length = w.posted.length) (hhandled : w'.handled.length = w.handled.length)
    (hwoken : w.Woken → w'.Woken) : w'.Alert r := by
  cases r with
  | idle =>
    intro hlt
    rw [hhandled, hposted] at hlt
    rw [htask, hhandled]
    exact (h hlt).imp_left hwoken
  | fetch => trivial
  | test quota devRp count | recycle quota devRp count =>
    intro hne
    rw [hslot] at hne
    exact hwoken (h hne)
  | leave count =>
    intro hlt
    rw [hhandled, hposted] at hlt
    rw [htask]
    exact (h hlt).imp_left hwoken

theorem Alert.of_woken (h : w.Woken) (r : EvReader) : w.Alert r := by
  cases r with
  | idle => exact fun _ ↦ .inl h
  | fetch => trivial
  | test | recycle => exact fun _ ↦ h
  | leave => exact fun _ ↦ .inl h

/-- If there is nothing left, nobody needs to come. -/
theorem Alert.of_none (h : w.Placed) (hnone : w.recycled = w.posted.length) : w.Alert w.reader := by
  have hrec := recycled_le w
  have hle := h.handled_le
  have hdev := h.devRp_eq
  cases hr : w.reader with
  | idle => exact fun hlt ↦ absurd hlt (by omega)
  | fetch => trivial
  | test quota devRp count | recycle quota devRp count =>
    obtain ⟨p, rfl, hge, hle'⟩ := hdev devRp (by rw [hr]; rfl)
    intro hne
    exact absurd (congrArg w.ring.slot (show p = w.posted.length by omega)) hne
  | leave count => exact fun hlt ↦ absurd hlt (by omega)

/-- Between two looks at the ring, an operation wakes nobody and lets nobody sleep. -/
theorem Woken.of_busy {quota devRp count : Nat} {reader : EvReader} (h : w.Woken)
    (hr : w.reader = .test quota devRp count ∨ w.reader = .recycle quota devRp count)
    (hbusy : reader ≠ .idle) {ring : MhiRing}
    (hslot : ring.slot w.posted.length = w.ring.slot w.posted.length) {handled : List RingEvent} :
    { w with reader, ring, handled }.Woken := by
  rw [Woken, hslot]
  refine h.imp_right (Or.imp_right (Or.imp_right fun hagain ↦ ?_))
  rw [again] at hagain ⊢
  cases htask' : w.task with
  | tasklet => simpa [htask'] using hagain
  | napi budget =>
    have hmiss : w.missed = true := by
      rcases hr with hr | hr <;> simpa [htask', hr] using hagain
    cases reader with
    | idle => exact absurd rfl hbusy
    | _ => exact hmiss

/-- The loop ends at the modem's pointer, or because it has taken as many events as it may. -/
theorem Watched.stop (hw : w.Watched) (h : w.Placed) {quota devRp count : Nat}
    (hr : w.reader = .test quota devRp count) (hend : devRp = w.ring.rp ∨ quota = 0)
    (hlt : w.handled.length < w.posted.length) :
    { w with reader := .leave count }.Woken ∨ w.task.quota ≤ count := by
  have hrec : w.recycled = w.handled.length := by rw [recycled, hr]; rfl
  rcases hend with hend | hend
  · obtain ⟨p, hp, hge, hle⟩ := h.devRp_eq devRp (by rw [hr]; rfl)
    have hposted := h.posted_lt
    have hne : devRp ≠ w.ring.slot w.posted.length := by
      rw [hend, h.ring_at.rp_eq, hrec]
      intro he
      have := (h.ring_at.toLies.slot_eq h.handled_le (by omega)).mp he
      omega
    have halert := hw.alert
    rw [hr] at halert
    exact .inl ((halert hne).of_busy (.inl hr) (by simp) rfl)
  · have hcounts := hw.counts
    rw [hr] at hcounts
    have hle : w.task.quota ≤ quota + count := hcounts.1
    exact .inr (by omega)

/-- The task has ended, and it runs again if it has to. -/
theorem Watched.finish (hw : w.Watched) {count : Nat} (hr : w.reader = .leave count) :
    (w.finish count).Watched := by
  have hcounts := hw.counts
  have halert := hw.alert
  rw [hr] at hcounts halert
  have hcount : count ≤ w.handled.length := hcounts
  cases htask : w.task with
  | tasklet =>
    have hfin : w.finish count = { w with reader := .idle } := by rw [EvRing.finish, htask]
    rw [hfin]
    refine ⟨fun b hb hne ↦ absurd rfl hne, trivial, fun hlt ↦ ?_⟩
    rcases halert hlt with hwoken | hquota
    · refine .inl (hwoken.imp_right (Or.imp_right (Or.imp_right fun hagain ↦ ?_)))
      simpa [again, htask] using hagain
    · exact .inr ⟨htask, Nat.le_trans hquota hcount⟩
  | napi budget =>
    have hquota : w.task.quota = budget := by rw [htask]; rfl
    by_cases hlt : count < budget
    · have hfin : w.finish count = { w.napiComplete with reader := .idle } := by
        simp only [EvRing.finish, htask, if_pos hlt]
      rw [hfin]
      refine ⟨fun b hb hne ↦ absurd rfl hne, trivial, fun hlt' ↦ .inl ?_⟩
      rcases halert hlt' with hwoken | hle
      · refine hwoken.imp_right (Or.imp_right (Or.imp_right fun hagain ↦ ?_))
        simpa [again, napiComplete, htask, hr] using hagain
      · omega
    · have hfin : w.finish count = { w with reader := .idle } := by
        simp only [EvRing.finish, htask, if_neg hlt]
      rw [hfin]
      refine ⟨fun b hb hne ↦ absurd rfl hne, trivial, fun _ ↦ .inl (.inr (.inr (.inr ?_)))⟩
      -- the budget is used up, and NAPI polls again
      have hsched := hw.sched budget htask (by rw [hr]; simp)
      simpa [again, htask] using hsched

theorem Watched.reads (hw : w.Watched) (h : w.Placed) (hr : Reads w w') : w'.Watched := by
  have hcounts := hw.counts
  have halert := hw.alert
  cases hr with
  | fetch quota count hr =>
    rw [hr] at hcounts
    exact ⟨fun b hb _ ↦ hw.sched b hb (by simp [hr]), hcounts, fun hne ↦ absurd h.devRp hne⟩
  | take quota quota' devRp count hr hne hle hlt =>
    rw [hr] at hcounts halert
    refine ⟨fun b hb _ ↦ hw.sched b hb (by simp [hr]), ?_, fun hne' ↦ ?_⟩
    · have hc : w.task.quota ≤ quota + count ∧ count ≤ w.handled.length := hcounts
      show w.task.quota ≤ quota' + (count + 1) ∧
        count + 1 ≤ (w.handled ++ [w.mem (w.ring.place w.ring.rp)]).length
      rw [List.length_append, List.length_singleton]
      omega
    · exact (halert hne').of_busy (.inl hr) (by simp) rfl
  | stop quota devRp count hr hend =>
    rw [hr] at hcounts
    exact ⟨fun b hb _ ↦ hw.sched b hb (by simp [hr]), hcounts.2, fun hlt ↦ hw.stop h hr hend hlt⟩
  | again quota devRp count hr =>
    rw [hr] at hcounts
    exact ⟨fun b hb _ ↦ hw.sched b hb (by simp [hr]), hcounts, trivial⟩
  | next quota devRp count hr hne =>
    rw [hr] at hcounts halert
    refine ⟨fun b hb _ ↦ hw.sched b hb (by simp [hr]), hcounts, fun hne' ↦ ?_⟩
    refine (halert hne').of_busy (.inr hr) ?_ ?_
    · simp
    · rfl
  | leave count hr => exact hw.finish hr

/-- After the interrupt the task will run. -/
theorem schedule_again
    (hsched : ∀ budget, w.task = .napi budget → w.reader ≠ .idle → w.sched = true) :
    w.schedule.again = true := by
  rw [schedule]
  cases htask : w.task with
  | tasklet => simp [again]
  | napi budget =>
    cases hs : w.sched with
    | false =>
      have hidle : w.reader = .idle := by
        by_contra hne
        exact Bool.false_ne_true (hs.symm.trans (hsched budget htask hne))
      simp [again, hidle]
    | true => cases hr : w.reader <;> simp [again]

theorem Watched.interrupt (hw : w.Watched) : { w with irq := none }.schedule.Watched := by
  have hagain := schedule_again (w := { w with irq := none }) hw.sched
  obtain ⟨sched, missed, he⟩ := schedule_eq { w with irq := none }
  refine ⟨fun b hb hne ↦ ?_, ?_, .of_woken (.inr (.inr (.inr hagain))) _⟩
  · have hb' : w.task = .napi b := by rwa [he] at hb
    have hne' : w.reader ≠ .idle := by rwa [he] at hne
    simp [EvRing.schedule, hb', hw.sched b hb' hne']
  · rw [he]
    exact hw.counts

/-- The handler has found no event: either there is none, or it has looked too early. -/
theorem Watched.return (hw : w.Watched) (h : w.Placed) {devRp : Nat} (hirq : w.irq = some devRp)
    (hrp : w.ring.rp = devRp) : { w with irq := none }.Watched := by
  refine ⟨hw.sched, hw.counts, ?_⟩
  have hle := Nat.le_trans (recycled_le w) h.handled_le
  by_cases hnone : w.recycled = w.posted.length
  · exact .of_none (h.of_reader rfl h.devRp_eq) hnone
  · refine hw.alert.mono rfl rfl rfl rfl ?_
    rintro (howed | hmsi | hlast | hagain)
    · exact .inl howed
    · exact .inr (.inl hmsi)
    · rw [hirq, ← hrp, h.ring_at.rp_eq, Option.some.injEq,
        h.ring_at.toLies.slot_eq hle h.posted_lt] at hlast
      exact absurd hlast hnone
    · exact .inr (.inr (.inr hagain))

theorem Watched.begin (hw : w.Watched) (hsched : w.sched = true) : (w.begin true).Watched := by
  have hcounts : w.task.quota ≤ w.task.quota + 0 ∧ 0 ≤ w.handled.length :=
    ⟨Nat.le_refl _, Nat.zero_le _⟩
  obtain ⟨task, _⟩ := w
  cases task with
  | tasklet => exact ⟨fun b hb ↦ (nomatch hb), hcounts, trivial⟩
  | napi budget => exact ⟨fun _ _ _ ↦ hsched, hcounts, trivial⟩

/-- Nobody is told to go, as long as the driver may read the ring when its task runs. -/
theorem Watched.step (hw : w.Watched) (h : w.Placed) (ha : a ≠ .start false)
    (hs : step w a = some w') : w'.Watched := by
  cases a with
  | post e =>
    obtain ⟨-, rfl⟩ := Trace.of_guard hs
    exact ⟨hw.sched, hw.counts, .of_woken (.inl rfl) _⟩
  | learn =>
    obtain rfl := Option.some.inj hs
    exact ⟨hw.sched, hw.counts, hw.alert.mono rfl rfl rfl rfl id⟩
  | raise =>
    obtain ⟨-, rfl⟩ := Trace.of_guard hs
    exact ⟨hw.sched, hw.counts, .of_woken (.inr (.inl rfl)) _⟩
  | irqRead =>
    obtain ⟨-, rfl⟩ := Trace.of_guard hs
    exact ⟨hw.sched, hw.counts, .of_woken (.inr (.inr (.inl (congrArg some h.devRp)))) _⟩
  | irqTest =>
    obtain ⟨devRp, hirq, ⟨hrp, rfl⟩ | ⟨-, rfl⟩⟩ := irqTest_inv hs
    · exact hw.return h hirq hrp
    · exact hw.interrupt
  | start access =>
    obtain ⟨⟨hsched, -⟩, rfl⟩ := Trace.of_guard hs
    cases access with
    | false => exact absurd rfl ha
    | true => exact hw.begin hsched
  | read => exact hw.reads h (readOp_reads hs)
  | markStale chan =>
    obtain ⟨-, rfl⟩ := Trace.of_guard hs
    exact ⟨hw.sched, hw.counts, hw.alert.mono rfl rfl rfl rfl id⟩

/-! ## How much there is to do -/

/-- How often the task is to begin, as far as it is known. -/
def starts (w : EvRing) : Nat :=
  match w.task with
  | .tasklet => w.sched.toNat
  | .napi _ => w.missed.toNat + if w.reader = .idle then w.sched.toNat else 0

/-- A poll that has used up its budget begins again. -/
def restart (task : EvTask) (count : Nat) : Nat :=
  match task with
  | .tasklet => 0
  | .napi budget => if count < budget then 0 else 4

/-- How far the loop is from its end, if there are no events. -/
def ahead (task : EvTask) : EvReader → Nat
  | .idle => 0
  | .leave count => 1 + restart task count
  | .test _ _ count => 2 + restart task count
  | .fetch _ count => 3 + restart task count
  | .recycle _ _ count => 4 + restart task (count + 1)

/-- A bound for the number of steps that follow. -/
def work (w : EvRing) : Nat :=
  7 * w.owed.toNat + 6 * w.msi.toNat + 5 * w.irq.isSome.toNat + 4 * w.starts +
    8 * (w.posted.length - w.handled.length) + ahead w.task w.reader

/-- What holds as long as the driver may read the ring. -/
structure Alive (s : Setup) (w : EvRing) : Prop where
  placed : w.Placed
  watched : w.Watched
  task_eq : w.task = s.task

theorem Alive.step {s : Setup} (h : w.Alive s) (ha : a ≠ .start false) (hs : step w a = some w') :
    w'.Alive s :=
  ⟨h.placed.step hs, h.watched.step h.placed ha hs, (step_same hs).2.trans h.task_eq⟩

end EvRing

end OpenwrtFeed.Mhi
