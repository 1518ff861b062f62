import OpenwrtFeed.Usb.Aggregate

/-!
# Aggregates are sent

What stands in an open buffer goes out without another packet having to come: somebody will always
see to it.  After `rmnet_usb_tx_agg` has put a packet into the buffer, it looks at the end whether a
buffer is open and the timer is not queued, and then starts the timer.  It looks without the lock,
and the timer and the worker may be anywhere at that time; `Wakes` is why this is enough.

The second part is about the memory behind a buffer.  What is put into an open buffer is compared
with the setting as it is now, the buffer has the size that the setting had before, and the first
packet is not compared with anything.
-/

set_option autoImplicit false

namespace OpenwrtFeed.Usb

/-! ## How much is left to do -/

/-- How much a call of `rmnet_usb_tx_agg` has still to do, at most, with the timer that it may
start.  A packet for which an open buffer is too small comes to the label `new_packet` again, and
then there is none. -/
def Xmit.ahead (opened : Bool) : Xmit → Nat
  | .idle => 0
  | .direct _ => 1
  | .ask => 6
  | .look => 7
  | .send _ none => 8
  | .newPacket _ => if opened then 11 else 9
  | .send _ (some _) => 10
  | .call _ => 12

/-- How much the worker has still to do. -/
def Worker.ahead : Worker → Nat
  | .idle => 0
  | .send _ => 1
  | .started => 2

theorem Xmit.ahead_le (opened : Bool) (x : Xmit) : x.ahead opened ≤ 12 := by
  cases x with
  | send b skb => cases skb <;> simp [Xmit.ahead]
  | newPacket c => cases opened <;> simp [Xmit.ahead]
  | _ => simp [Xmit.ahead]

theorem Xmit.ahead_closed (opened : Bool) (x : Xmit) : x.ahead false ≤ x.ahead opened := by
  cases x with
  | newPacket c => cases opened <;> simp [Xmit.ahead]
  | send b skb => cases skb <;> exact Nat.le_refl _
  | _ => exact Nat.le_refl _

namespace Uplink

variable {w w' : Uplink} {a : Act}

/-! ## Somebody sees to it -/

/-- If a buffer is open, then the timer or the worker is on its way to it, or `rmnet_usb_tx_agg` has
still to start the timer. -/
def Wakes (w : Uplink) : Prop :=
  w.aggSkb ≠ none →
    w.timer = true ∨ w.callback = true ∨ w.pending = true ∨ w.work = .started ∨
      w.xmit = .look ∨ w.xmit = .ask

/-- A step that leaves all of them on their way. -/
theorem Wakes.of_eq (hw : w.Wakes) (hagg : w'.aggSkb = w.aggSkb) (htimer : w'.timer = w.timer)
    (hcallback : w'.callback = w.callback) (hpending : w'.pending = w.pending)
    (hwork : w.work = .started → w'.work = .started)
    (hxmit : w.xmit = .look ∨ w.xmit = .ask → w'.xmit = .look ∨ w'.xmit = .ask) : w'.Wakes := by
  intro hne
  rcases hw (hagg ▸ hne) with h | h | h | h | h
  · exact .inl (htimer.trans h)
  · exact .inr (.inl (hcallback.trans h))
  · exact .inr (.inr (.inl (hpending.trans h)))
  · exact .inr (.inr (.inr (.inl (hwork h))))
  · exact .inr (.inr (.inr (.inr (hxmit h))))

theorem Wakes.step (hw : w.Wakes) (hc : w.Counts) (h : step w a = some w') : w'.Wakes := by
  cases a with
  | startXmit skb protocol stopped =>
    obtain ⟨hidle, rfl⟩ := Trace.of_guard h
    rcases startXmit_cases w skb protocol stopped with ⟨_, he⟩ | ⟨_, c, -, he⟩ <;> rw [he] <;>
      exact hw.of_eq rfl rfl rfl rfl id (by simp [hidle])
  | enter alloc =>
    obtain ⟨c, hx, rfl⟩ := enter_inv h
    rcases enter_cases w c alloc with ⟨-, ⟨he, -⟩ | ⟨he, -⟩⟩ | ⟨-, he⟩ <;> rw [he] <;>
      exact hw.of_eq rfl rfl rfl rfl id (by simp [hx])
  | pass now xmitMore alloc alloc' =>
    obtain ⟨c, hx, rfl⟩ := pass_inv h
    have hp := pass_passes w c now xmitMore alloc alloc'
    generalize w.pass c now xmitMore alloc alloc' = w' at hp ⊢
    cases hp with
    | append | first | fails => exact fun _ ↦ .inr (.inr (.inr (.inr (.inl rfl))))
    | last | full | alone => exact fun hne ↦ absurd rfl hne
  | xmitSend =>
    obtain ⟨b, x, hhand, -, -, -, rfl⟩ := xmitSend_inv h
    exact fun hne ↦ absurd (hc.apart (by simp [hhand])) hne
  | look =>
    obtain ⟨hx, rfl⟩ := Trace.of_guard h
    intro hne
    exact .inr (.inr (.inr (.inr (.inr (if_pos (Option.isSome_iff_ne_none.mpr hne))))))
  | ask =>
    obtain ⟨hx, rfl⟩ := Trace.of_guard h
    exact fun _ ↦ .inl rfl
  | timerExpires =>
    obtain ⟨-, rfl⟩ := Trace.of_guard h
    exact fun _ ↦ .inr (.inl rfl)
  | timerCb =>
    obtain ⟨-, rfl⟩ := Trace.of_guard h
    exact fun _ ↦ .inr (.inr (.inl rfl))
  | workStart =>
    obtain ⟨-, rfl⟩ := Trace.of_guard h
    exact fun _ ↦ .inr (.inr (.inr (.inl rfl)))
  | workTake now =>
    obtain ⟨hwork, rfl⟩ := Trace.of_guard h
    rw [workTake]
    cases w.aggSkb with
    | none | some => exact fun hne ↦ absurd rfl hne
  | workSend =>
    obtain ⟨b, hwork, rfl⟩ := workSend_inv h
    exact hw.of_eq rfl rfl rfl rfl (by simp [hwork]) id
  | settingStore maxDatagrams maxSize =>
    obtain ⟨-, rfl⟩ := Trace.of_guard h
    rw [qmaSettingStore]
    split
    · exact hw.of_eq rfl rfl rfl rfl id id
    · exact hw
  | settingSize =>
    obtain ⟨size, -, rfl⟩ := settingSize_inv h
    exact hw.of_eq rfl rfl rfl rfl id id
  | param aggTimeLimit aggBypassTime =>
    obtain rfl := Option.some.inj h
    exact hw.of_eq rfl rfl rfl rfl id id

/-! ## What is under way comes to an end -/

/-- The steps that need something from outside: a packet, or somebody who changes a setting. -/
def fromOutside : Act → Bool
  | .startXmit .. => true
  | .settingStore .. => true
  | .settingSize => true
  | .param .. => true
  | _ => false

/-- Whether the memory that a step may ask for last is there. -/
def hasMemory : Act → Bool
  | .enter alloc => alloc
  | .pass _ _ _ alloc' => alloc'
  | _ => true

theorem Wakes.run {as : List Act} (hw : w.Wakes) (hc : w.Counts)
    (h : Trace.run Uplink.step w as = some w') : w'.Wakes := by
  have hinv : w'.Counts ∧ w'.Wakes :=
    Trace.run_invariant (I := fun w ↦ w.Counts ∧ w.Wakes) (P := fun _ ↦ True)
      (fun _ _ _ _ hw h ↦ ⟨hw.1.step h, hw.2.step hw.1 h⟩) ⟨hc, hw⟩ (fun _ _ ↦ trivial) h
  exact hinv.2

/-- How much there is still to do, at most: each of the timer, its callback and the work leads to
the next one. -/
def ahead (w : Uplink) : Nat :=
  Xmit.ahead w.aggSkb.isSome w.xmit + Worker.ahead w.work + 3 * w.pending.toNat +
    4 * w.callback.toNat + 5 * w.timer.toNat

theorem ahead_le (w : Uplink) : w.ahead ≤ 26 := by
  have hx := Xmit.ahead_le w.aggSkb.isSome w.xmit
  have hwork : Worker.ahead w.work ≤ 2 := by cases w.work <;> simp [Worker.ahead]
  have hpending := Bool.toNat_le w.pending
  have hcallback := Bool.toNat_le w.callback
  have htimer := Bool.toNat_le w.timer
  rw [ahead]
  omega

/-- A critical section brings the call nearer to its end, whatever it does. -/
theorem Passes.ahead_lt {c : Call} {now : Timespec} (hx : w.xmit = .newPacket c)
    (h : Passes w c now w') : w'.ahead < w.ahead := by
  cases h with
  | append b hb | last b hb | full b hb => simp [ahead, Xmit.ahead, hx, hb]
  | first hb | alone hb | fails hb => simp [ahead, Xmit.ahead, hx, hb]

/-- Each of these steps brings the end nearer. -/
theorem ahead_step (hc : w.Counts) (ha : fromOutside a = false) (h : step w a = some w') :
    w'.ahead < w.ahead := by
  cases a with
  | startXmit | settingStore | settingSize | param => exact absurd ha (by simp [fromOutside])
  | enter alloc =>
    obtain ⟨c, hx, rfl⟩ := enter_inv h
    rcases enter_cases w c alloc with ⟨-, ⟨he, -⟩ | ⟨he, -⟩⟩ | ⟨-, he⟩
    · simp [he, ahead, Xmit.ahead, hx]
    · simp [he, ahead, Xmit.ahead, hx]
    · have hle : (if w.aggSkb.isSome = true then 11 else 9) < 12 := by split <;> decide
      simp only [he, ahead, Xmit.ahead, hx]
      omega
  | pass now xmitMore alloc alloc' =>
    obtain ⟨c, hx, rfl⟩ := pass_inv h
    exact (pass_passes w c now xmitMore alloc alloc').ahead_lt hx
  | xmitSend =>
    have happ := hc.apart
    cases hx : w.xmit with
    | direct b =>
      obtain rfl : _ = w' := by simpa [step, hx] using h
      simp [ahead, Xmit.ahead, hx]
    | send b skb =>
      have hnone : w.aggSkb = none := happ (by simp [hx, Xmit.hand])
      cases skb with
      | none =>
        obtain rfl : _ = w' := by simpa [step, hx] using h
        simp [ahead, Xmit.ahead, hx]
      | some c =>
        obtain rfl : _ = w' := by simpa [step, hx] using h
        simp [ahead, Xmit.ahead, hx, hnone]
    | _ => simp [step, hx] at h
  | look =>
    obtain ⟨hx, rfl⟩ := Trace.of_guard h
    cases w.aggSkb <;> simp [ahead, Xmit.ahead, hx]
  | ask =>
    obtain ⟨hx, rfl⟩ := Trace.of_guard h
    simp only [ahead, Xmit.ahead, hx, Bool.toNat_true]
    omega
  | timerExpires =>
    obtain ⟨⟨htimer, hcallback⟩, rfl⟩ := Trace.of_guard h
    have hoff : w.callback = false := by simpa using hcallback
    simp [ahead, htimer, hoff]
  | timerCb =>
    obtain ⟨hcallback, rfl⟩ := Trace.of_guard h
    simp only [ahead, hcallback, Bool.toNat_true, Bool.toNat_false]
    omega
  | workStart =>
    obtain ⟨⟨hpending, hwork⟩, rfl⟩ := Trace.of_guard h
    simp [ahead, Worker.ahead, hpending, hwork]
  | workTake now =>
    obtain ⟨hwork, rfl⟩ := Trace.of_guard h
    have hclosed := Xmit.ahead_closed w.aggSkb.isSome w.xmit
    rw [workTake]
    cases hb : w.aggSkb with
    | none => simp [ahead, Worker.ahead, hwork, hb]
    | some b =>
      rw [hb] at hclosed
      simp only [ahead, Worker.ahead, hwork, hb, Option.isSome_none]
      omega
  | workSend =>
    obtain ⟨b, hwork, rfl⟩ := workSend_inv h
    simp [ahead, Worker.ahead, hwork]

/-! ## The buffer goes out -/

/-- With memory left, a packet is not dropped. -/
theorem pass_dropped (w : Uplink) (c : Call) (now : Timespec) (xmitMore alloc : Bool) :
    (w.pass c now xmitMore alloc true).dropped = w.dropped := by
  rw [pass]
  cases w.aggSkb with
  | some b =>
    dsimp only
    split <;> [split; skip] <;> rfl
  | none =>
    dsimp only
    split <;> rfl

theorem Passes.accepted {c : Call} {now : Timespec} (h : Passes w c now w') :
    w'.accepted = w.accepted := by
  cases h <;> rfl

/-- No packet comes in by these steps, and with memory left none is dropped. -/
theorem step_accepted (ha : fromOutside a = false) (h : step w a = some w') :
    w'.accepted = w.accepted ∧ (hasMemory a = true → w'.dropped = w.dropped) := by
  cases a with
  | startXmit | settingStore | settingSize | param => exact absurd ha (by simp [fromOutside])
  | enter alloc =>
    obtain ⟨c, hx, rfl⟩ := enter_inv h
    rcases enter_cases w c alloc with ⟨-, ⟨he, -⟩ | ⟨he, hfail⟩⟩ | ⟨-, he⟩
    · rw [he]
      exact ⟨rfl, fun _ ↦ rfl⟩
    · rw [he]
      exact ⟨rfl, fun hm ↦ absurd (hfail.symm.trans hm) (by simp)⟩
    · rw [he]
      exact ⟨rfl, fun _ ↦ rfl⟩
  | pass now xmitMore alloc alloc' =>
    obtain ⟨c, hx, rfl⟩ := pass_inv h
    refine ⟨(pass_passes w c now xmitMore alloc alloc').accepted, fun hm ↦ ?_⟩
    obtain rfl : alloc' = true := hm
    exact pass_dropped w c now xmitMore alloc
  | xmitSend =>
    obtain ⟨b, x, -, -, -, -, rfl⟩ := xmitSend_inv h
    exact ⟨rfl, fun _ ↦ rfl⟩
  | look | ask | timerExpires | timerCb | workStart =>
    obtain ⟨-, rfl⟩ := Trace.of_guard h
    exact ⟨rfl, fun _ ↦ rfl⟩
  | workTake now =>
    obtain ⟨-, rfl⟩ := Trace.of_guard h
    rw [workTake]
    cases w.aggSkb <;> exact ⟨rfl, fun _ ↦ rfl⟩
  | workSend =>
    obtain ⟨b, -, rfl⟩ := workSend_inv h
    exact ⟨rfl, fun _ ↦ rfl⟩

/-- Nobody is on the way to a buffer. -/
structure Resting (w : Uplink) : Prop where
  xmit : w.xmit = .idle
  work : w.work = .idle
  timer : w.timer = false
  callback : w.callback = false
  pending : w.pending = false

/-- Whoever is on the way can go on. -/
theorem resting_of_stuck (hstuck : ∀ a, fromOutside a = false → step w a = none) : w.Resting where
  xmit := by
    cases hx : w.xmit with
    | idle => rfl
    | call c => exact absurd (hstuck (.enter true) rfl) (by simp [step, hx])
    | direct b => exact absurd (hstuck .xmitSend rfl) (by simp [step, hx])
    | newPacket c => exact absurd (hstuck (.pass ⟨0, 0⟩ true true true) rfl) (by simp [step, hx])
    | send b skb => cases skb <;> exact absurd (hstuck .xmitSend rfl) (by simp [step, hx])
    | look => exact absurd (hstuck .look rfl) (by simp [step, hx])
    | ask => exact absurd (hstuck .ask rfl) (by simp [step, hx])
  work := by
    cases hwork : w.work with
    | idle => rfl
    | started => exact absurd (hstuck (.workTake ⟨0, 0⟩) rfl) (by simp [step, hwork])
    | send b => exact absurd (hstuck .workSend rfl) (by simp [step, hwork])
  timer := by
    have hcallback := hstuck .timerCb rfl
    have htimer := hstuck .timerExpires rfl
    by_contra hne
    simp_all [step]
  callback := by
    have hcallback := hstuck .timerCb rfl
    by_contra hne
    simp_all [step]
  pending := by
    have hstart := hstuck .workStart rfl
    have htake := hstuck (.workTake ⟨0, 0⟩) rfl
    have hsend := hstuck .workSend rfl
    by_contra hne
    cases hwork : w.work <;> simp_all [step]

/-- Then there is none. -/
theorem Resting.aggSkb (h : w.Resting) (hw : w.Wakes) : w.aggSkb = none := by
  by_contra hne
  have hon := hw hne
  rw [h.timer, h.callback, h.pending, h.work, h.xmit] at hon
  simp at hon

/-- **Nothing is left in a buffer.**  From every state of every run, without another packet and
without anybody changing a setting, the calls, the timer and the worker come to an end after at most
26 steps, in whatever order they go on and whichever allocations succeed.  When none of them can do
anything, nobody is on the way, no buffer is open, and every packet that was not dropped is in a
buffer that was sent, once; and with memory left no further one was dropped. -/
theorem everything_sent (dev : QmapNet) (bridgeMac : List UInt8) (now : Timespec) (as : List Act)
    (w : Uplink) (h : Trace.run step (start dev bridgeMac now) as = some w) (bs : List Act)
    (w' : Uplink) (hbs : ∀ b ∈ bs, fromOutside b = false) (h' : Trace.run step w bs = some w') :
    bs.length ≤ 26 ∧ ((∀ b ∈ bs, hasMemory b = true) → w'.dropped = w.dropped) ∧
      ((∀ b, fromOutside b = false → step w' b = none) →
        w'.Resting ∧ w'.aggSkb = none ∧
          w.accepted.Perm (w'.sent.flatMap AggSkb.puts ++ w'.dropped)) := by
  have hc := (counts_start dev bridgeMac now).run h
  have hwakes : w.Wakes :=
    Wakes.run (w := start dev bridgeMac now) (fun hne ↦ absurd rfl hne)
      (counts_start dev bridgeMac now) h
  refine ⟨?_, fun hmemory ↦ ?_, fun hstuck ↦ ?_⟩
  · have hlen := Trace.run_length_le (I := Counts) ahead
      (fun u b u' hb hI (hs : step u b = some u') ↦ ⟨hI.step hs, ahead_step hI hb hs⟩) hc hbs h'
    have hle := ahead_le w
    omega
  · exact Trace.run_invariant (I := fun u ↦ u.dropped = w.dropped)
      (P := fun b ↦ fromOutside b = false ∧ hasMemory b = true)
      (fun u b u' hb hI hs ↦ ((step_accepted hb.1 hs).2 hb.2).trans hI) rfl
      (fun b hb ↦ ⟨hbs b hb, hmemory b hb⟩) h'
  · have hrest := resting_of_stuck hstuck
    have hnone := hrest.aggSkb (hwakes.run hc h')
    refine ⟨hrest, hnone, ?_⟩
    have hacc : w'.accepted = w.accepted :=
      Trace.run_invariant (I := fun u ↦ u.accepted = w.accepted)
        (fun u b u' hb hI hs ↦ (step_accepted hb hs).1.trans hI) rfl hbs h'
    have hall : Trace.run step (start dev bridgeMac now) (as ++ bs) = some w' := by
      rw [Trace.run_append, h]
      exact h'
    have hperm := conserved_run hall
    simpa [Batching.Queue.Conserved, queue, hrest.xmit, hrest.work, hnone, hacc, Xmit.pending,
      Xmit.hand, Worker.hand, List.flatMap] using hperm

/-- Two packets are under way, one of them in an open buffer. -/
def sampleOpen : Uplink :=
  (Trace.run step sampleStart (sampleActs.take 9)).getD sampleStart

/-- The allocations that are still to come fail. -/
def sampleFlush : List Act :=
  [.timerExpires, .timerCb, .workStart, .workTake ⟨0, 0⟩, .pass ⟨20, 0⟩ false false false,
    .workSend, .look]

def sampleFlushed : Uplink := (Trace.run step sampleOpen sampleFlush).getD sampleOpen

theorem everything_sent_sample : sampleFlushed.Resting ∧
    sampleOpen.accepted.Perm (sampleFlushed.sent.flatMap AggSkb.puts ++ sampleFlushed.dropped) ∧
    sampleFlushed.sent.map (·.puts.length) = [1] ∧ sampleFlushed.dropped.length = 1 := by
  have hrest : sampleFlushed.xmit = .idle ∧ sampleFlushed.work = .idle ∧
      sampleFlushed.timer = false ∧ sampleFlushed.callback = false ∧
      sampleFlushed.pending = false := by
    decide +kernel
  obtain ⟨hx, hwork, htimer, hcallback, hpending⟩ := hrest
  have hend := (everything_sent sampleDev [] ⟨0, 0⟩ (sampleActs.take 9) sampleOpen
    (Trace.eq_some_getD (by decide +kernel)) sampleFlush sampleFlushed (by decide)
    (Trace.eq_some_getD (by decide +kernel))).2.2 fun b hb ↦ by
      cases b <;> simp_all [step, fromOutside]
  exact ⟨hend.1, hend.2.2, by decide +kernel, by decide +kernel⟩

/-! ## The memory behind a buffer -/

/-- What a step has to be like if the buffers are to hold what is put into them: `rmnet_usb_tx_agg`
may not look at the settings between the two stores of `qma_setting_store`, and may not open a
buffer for a packet that does not fit into it. -/
def careful (w : Uplink) : Act → Bool
  | .enter _ => w.setting = none
  | .pass now xmitMore alloc alloc' =>
    match w.xmit, w.aggSkb with
    | .newPacket c, none =>
      (w.pass c now xmitMore alloc alloc').aggSkb = none ||
        c.put.bytes.length ≤ w.txCtx.ulDataAggregationMaxSize
    | _, _ => true
  | _ => true

/-- No buffer has more in it than it was allocated for. -/
structure Fits (w : Uplink) : Prop where
  closed : ∀ b ∈ w.closed, b.len ≤ b.size
  open_le : ∀ b, w.aggSkb = some b → b.len ≤ b.size ∧ b.size = w.txCtx.ulDataAggregationMaxSize
  /-- Between the two stores nothing is aggregated. -/
  setting : w.setting ≠ none → w.aggSkb = none ∧ ¬ w.xmit.aggregates

theorem Call.length_put_le (c : Call) :
    c.put.bytes.length ≤ c.skb.len + c.hdrData.length := by
  simp only [Call.put, List.length_append, List.length_drop, Mhi.SkBuff.len]
  omega

theorem AggSkb.len_put (b : AggSkb) (p : Put) : (b.put p).len = b.len + p.bytes.length := by
  simp [AggSkb.len, AggSkb.data, AggSkb.put]

theorem alone_fits (c : Call) : (alone c).len ≤ (alone c).size := by
  simpa [AggSkb.len, AggSkb.data, alone] using Call.length_put_le c

theorem Fits.of_eq (hw : w.Fits) (htx : w'.txCtx = w.txCtx) (hagg : w'.aggSkb = w.aggSkb)
    (hset : w'.setting = w.setting) (hclosed : ∀ b ∈ w'.closed, b ∈ w.closed)
    (hon : w'.xmit.aggregates → w.xmit.aggregates) : w'.Fits := by
  refine ⟨fun b hb ↦ hw.closed b (hclosed b hb), fun b hb ↦ ?_, fun h ↦ ?_⟩
  · rw [htx]
    exact hw.open_le b (hagg ▸ hb)
  · obtain ⟨hnone, hoff⟩ := hw.setting (hset ▸ h)
    exact ⟨hagg.trans hnone, fun h ↦ hoff (hon h)⟩

theorem Fits.passes {c : Call} {now : Timespec} (hw : w.Fits) (hx : w.xmit = .newPacket c)
    (hfirst : w.aggSkb = none → w'.aggSkb = none ∨
      c.put.bytes.length ≤ w.txCtx.ulDataAggregationMaxSize)
    (h : Passes w c now w') : w'.Fits := by
  have hset : w.setting = none := by
    by_contra hne
    exact (hw.setting hne).2 (by rw [hx]; trivial)
  have hold : ∀ b ∈ w.sent ++ w.work.hand, b.len ≤ b.size :=
    fun b hb ↦ hw.closed b (List.mem_append_left _ hb)
  have hnew : ∀ b', b'.len ≤ b'.size → ∀ b ∈ w.sent ++ w.work.hand ++ [b'], b.len ≤ b.size := by
    intro b' hb' b hb
    rcases List.mem_append.mp hb with hb | hb
    · exact hold b hb
    · rwa [List.mem_singleton.mp hb]
  have hput : ∀ b : AggSkb,
      b.len + c.skb.len + c.hdrData.length < w.txCtx.ulDataAggregationMaxSize →
      (b.put c.put).len ≤ w.txCtx.ulDataAggregationMaxSize := by
    intro b hfits
    have hle := Call.length_put_le c
    rw [AggSkb.len_put]
    omega
  cases h with
  | append b hb hfits =>
    refine ⟨fun b hb ↦ hold b (by simpa [Uplink.closed, Xmit.hand] using hb), fun b' hb' ↦ ?_,
      fun h ↦ absurd hset h⟩
    obtain rfl := Option.some.inj hb'
    have hsize := (hw.open_le b hb).2
    exact ⟨hsize ▸ hput b hfits, hsize⟩
  | last b hb hfits =>
    have hsize := (hw.open_le b hb).2
    exact ⟨hnew (b.put c.put) (hsize ▸ hput b hfits), fun b hb ↦ absurd hb (by simp),
      fun h ↦ absurd hset h⟩
  | full b hb =>
    exact ⟨hnew b (hw.open_le b hb).1, fun b hb ↦ absurd hb (by simp), fun h ↦ absurd hset h⟩
  | first hb =>
    refine ⟨fun b hb ↦ hold b (by simpa [Uplink.closed, Xmit.hand] using hb), fun b' hb' ↦ ?_,
      fun h ↦ absurd hset h⟩
    obtain rfl := Option.some.inj hb'
    exact ⟨by simpa [AggSkb.len, AggSkb.data] using (hfirst hb).resolve_left (by simp), rfl⟩
  | alone hb =>
    exact ⟨hnew (Uplink.alone c) (alone_fits c), fun b hb ↦ absurd hb (by simp),
      fun h ↦ absurd hset h⟩
  | fails hb =>
    exact ⟨fun b hb ↦ hold b (by simpa [Uplink.closed, Xmit.hand] using hb),
      fun b hb ↦ absurd hb (by simp), fun h ↦ absurd hset h⟩

theorem Fits.enter {c : Call} (hw : w.Fits) (hx : w.xmit = .call c) (hset : w.setting = none)
    (alloc : Bool) : (w.enter c alloc).Fits := by
  have hclosed : w.closed = w.sent ++ w.work.hand := by simp [Uplink.closed, hx, Xmit.hand]
  rcases enter_cases w c alloc with ⟨-, ⟨he, -⟩ | ⟨he, -⟩⟩ | ⟨-, he⟩
  · rw [he]
    refine ⟨fun b hb ↦ ?_, hw.open_le, fun h ↦ absurd hset h⟩
    rcases List.mem_append.mp hb with hb | hb
    · exact hw.closed b (hclosed ▸ hb)
    · rw [List.mem_singleton.mp hb]
      exact alone_fits c
  · rw [he]
    refine hw.of_eq rfl rfl rfl (fun b hb ↦ ?_) fun h ↦ h.elim
    simpa [Uplink.closed, hx, Xmit.hand] using hb
  · rw [he]
    refine ⟨fun b hb ↦ hw.closed b ?_, hw.open_le, fun h ↦ absurd hset h⟩
    simpa [Uplink.closed, hx, Xmit.hand] using hb

theorem Fits.workTake (hw : w.Fits) (hwork : w.work = .started) (now : Timespec) :
    (w.workTake now).Fits := by
  rw [Uplink.workTake]
  cases hb : w.aggSkb with
  | none =>
    refine hw.of_eq rfl hb.symm rfl (fun b hb ↦ ?_) id
    simpa [Uplink.closed, hwork, Worker.hand] using hb
  | some b =>
    refine ⟨fun b' hb' ↦ ?_, fun b hb ↦ absurd hb (by simp),
      fun h ↦ absurd ((hw.setting h).1.symm.trans hb) (by simp)⟩
    simp only [Uplink.closed, Worker.hand, List.mem_append, List.mem_singleton] at hb'
    rcases hb' with (hb' | rfl) | hb'
    · exact hw.closed b' (by simp [Uplink.closed, hb'])
    · exact (hw.open_le b' hb).1
    · exact hw.closed b' (by simp [Uplink.closed, hb'])

theorem Fits.step (hw : w.Fits) (hc : w.Counts) (ha : w.careful a = true) (h : step w a = some w') :
    w'.Fits := by
  cases a with
  | startXmit skb protocol stopped =>
    obtain ⟨hidle, rfl⟩ := Trace.of_guard h
    rcases startXmit_cases w skb protocol stopped with ⟨_, he⟩ | ⟨_, c, -, he⟩
    · rw [he]
      exact hw.of_eq rfl rfl rfl (fun _ ↦ id) id
    · rw [he]
      refine hw.of_eq rfl rfl rfl (fun b hb ↦ ?_) fun h ↦ h.elim
      simpa [Uplink.closed, hidle, Xmit.hand] using hb
  | enter alloc =>
    obtain ⟨c, hx, rfl⟩ := enter_inv h
    exact hw.enter hx (by simpa [careful] using ha) alloc
  | pass now xmitMore alloc alloc' =>
    obtain ⟨c, hx, rfl⟩ := pass_inv h
    refine hw.passes hx (fun hb ↦ ?_) (pass_passes w c now xmitMore alloc alloc')
    simpa [careful, hx, hb] using ha
  | xmitSend =>
    obtain ⟨b, x, hhand, hx, -, hon, rfl⟩ := xmitSend_inv h
    refine hw.of_eq rfl rfl rfl (fun b hb ↦ ?_) hon
    simp only [Uplink.closed, hx, hhand, List.mem_append, List.mem_singleton,
      List.not_mem_nil] at hb ⊢
    tauto
  | look =>
    obtain ⟨hx, rfl⟩ := Trace.of_guard h
    cases hb : w.aggSkb with
    | none | some =>
      refine hw.of_eq rfl hb.symm rfl (fun b hb ↦ ?_) fun h ↦ h.elim
      simpa [Uplink.closed, hx, Xmit.hand] using hb
  | ask =>
    obtain ⟨hx, rfl⟩ := Trace.of_guard h
    refine hw.of_eq rfl rfl rfl (fun b hb ↦ ?_) fun h ↦ h.elim
    simpa [Uplink.closed, hx, Xmit.hand] using hb
  | timerExpires | timerCb =>
    obtain ⟨-, rfl⟩ := Trace.of_guard h
    exact hw.of_eq rfl rfl rfl (fun _ ↦ id) id
  | workStart =>
    obtain ⟨⟨-, hwork⟩, rfl⟩ := Trace.of_guard h
    refine hw.of_eq rfl rfl rfl (fun b hb ↦ ?_) id
    simpa [Uplink.closed, hwork, Worker.hand] using hb
  | workTake now =>
    obtain ⟨hwork, rfl⟩ := Trace.of_guard h
    exact hw.workTake hwork now
  | workSend =>
    obtain ⟨b, hwork, rfl⟩ := workSend_inv h
    refine hw.of_eq rfl rfl rfl (fun b hb ↦ ?_) id
    simp only [Uplink.closed, hwork, Worker.hand, List.mem_append, List.mem_singleton,
      List.not_mem_nil, or_false] at hb ⊢
    tauto
  | settingStore maxDatagrams maxSize =>
    obtain ⟨-, rfl⟩ := Trace.of_guard h
    rw [qmaSettingStore]
    split
    · rename_i hset
      -- the aggregation was off until now
      have hnone := hc.off hset.1
      exact ⟨hw.closed, fun b hb ↦ absurd (hnone.symm.trans hb) (by simp),
        fun _ ↦ ⟨hnone, fun hon ↦ hc.on hon hset.1⟩⟩
    · exact hw
  | settingSize =>
    obtain ⟨size, hset, rfl⟩ := settingSize_inv h
    have hnone := (hw.setting (by simp [hset])).1
    exact ⟨hw.closed, fun b hb ↦ absurd (hnone.symm.trans hb) (by simp), fun h ↦ absurd rfl h⟩
  | param aggTimeLimit aggBypassTime =>
    obtain rfl := Option.some.inj h
    exact hw.of_eq rfl rfl rfl (fun _ ↦ id) id

/-- **What is put into a buffer fits.**  In every run in which no call of `rmnet_usb_tx_agg` looks
at the settings between the two stores of `qma_setting_store`, and no buffer is opened for a packet
that is larger than `ul_data_aggregation_max_size`, no buffer has more bytes in it than it was
allocated for, and none has more packets in it than `ul_data_aggregation_max_datagrams`. -/
theorem buffers_hold (dev : QmapNet) (bridgeMac : List UInt8) (now : Timespec) (as : List Act)
    (w : Uplink) (h : Trace.run step (start dev bridgeMac now) as = some w)
    (hcareful : Trace.always step careful (start dev bridgeMac now) as = true) :
    (∀ b ∈ w.closed, b.len ≤ b.size ∧ b.puts.length ≤ w.txCtx.ulDataAggregationMaxDatagrams) ∧
      ∀ b, w.aggSkb = some b →
        b.len ≤ b.size ∧ b.puts.length < w.txCtx.ulDataAggregationMaxDatagrams := by
  have hinv : w.Counts ∧ w.Fits := by
    refine Trace.run_invariant_of (I := fun w ↦ w.Counts ∧ w.Fits)
      (fun u a v ha hu hstep ↦ ⟨hu.1.step hstep, hu.2.step hu.1 ha hstep⟩) ⟨?_, ?_⟩ hcareful h
    · exact counts_start dev bridgeMac now
    · exact ⟨fun _ h ↦ absurd h List.not_mem_nil, fun _ h ↦ absurd h (by simp [start]),
        fun h ↦ absurd rfl h⟩
  obtain ⟨hc, hf⟩ := hinv
  exact ⟨fun b hb ↦ ⟨hf.closed b hb, hc.le b hb⟩,
    fun b hb ↦ ⟨(hf.open_le b hb).1, (hc.count_some b hb).2.2⟩⟩

theorem buffers_hold_sample : sampleSent.sent ≠ [] ∧
    ∀ b ∈ sampleSent.sent, b.len ≤ b.size ∧ b.puts.length ≤ 8 := by
  have hold := buffers_hold sampleDev [] ⟨0, 0⟩ sampleActs sampleSent
    (Trace.eq_some_getD (by decide +kernel)) (by decide +kernel)
  have hsent : sampleSent.closed = sampleSent.sent ∧
    sampleSent.txCtx.ulDataAggregationMaxDatagrams = 8 := by decide +kernel
  rw [hsent.1, hsent.2] at hold
  exact ⟨by decide +kernel, hold.1⟩

/-- A packet of 1000 bytes between the two stores and another one behind them: there are 2016 bytes
in a buffer of 1500. -/
example : ((Trace.run step sampleStart
    [.settingStore 8 4096, .startXmit ⟨0x45 :: List.replicate 999 0, []⟩ 0x0800 false, .enter true,
      .pass ⟨0, 0⟩ false true true, .settingSize, .look, .ask,
      .startXmit ⟨0x45 :: List.replicate 999 0, []⟩ 0x0800 false, .enter true,
      .pass ⟨0, 0⟩ false true true]).bind (·.aggSkb)).map (fun b ↦ (b.size, b.len)) =
    some (1500, 2016) := by
  decide +kernel

end Uplink

end OpenwrtFeed.Usb
