import OpenwrtFeed.Lib.Batching
import OpenwrtFeed.Usb.Uplink

/-!
# No packet is lost in an aggregate

The uplink of `qmi_wwan_q.c` is a system for batching, as `Batching` has it: every step of one of
the four parties is some moves of such a system (`step_does`), and so every packet is in one place
at any time.

For the order this is not enough.  The worker takes the buffer under the lock and hands it over when
it has left the lock, and `rmnet_usb_tx_agg` may fill a new buffer and hand it over before that.  In
the runs in which it does not, the packets stay in order (`packets_in_order`).
-/

set_option autoImplicit false

namespace OpenwrtFeed.Usb

open Batching

/-- The packet that `rmnet_usb_tx_agg` has not copied yet. -/
def Xmit.pending : Xmit → List Put
  | .call c => [c.put]
  | .newPacket c => [c.put]
  | .send _ (some c) => [c.put]
  | _ => []

/-- The buffer that `rmnet_usb_tx_agg` has taken. -/
def Xmit.hand : Xmit → List AggSkb
  | .direct b => [b]
  | .send b _ => [b]
  | _ => []

/-- The thread has decided to aggregate and has its packet still. -/
def Xmit.aggregates : Xmit → Prop
  | .newPacket _ => True
  | .send _ (some _) => True
  | _ => False

/-- The buffer that the worker has taken. -/
def Worker.hand : Worker → List AggSkb
  | .send b => [b]
  | _ => []

namespace Uplink

variable {w w' : Uplink} {a : Act}

/-- The uplink as a system for batching: `agg_skb` is the open batch.  What the worker has in its
hands is older than what the other thread has. -/
def queue (w : Uplink) : Queue Put where
  accepted := w.accepted
  pending := w.xmit.pending
  batch := (w.aggSkb.map AggSkb.puts).getD []
  hands := (w.work.hand ++ w.xmit.hand).map AggSkb.puts
  sent := w.sent.map AggSkb.puts
  dropped := w.dropped

/-- While `rmnet_usb_tx_agg` has a buffer in its hands, there is none to be taken. -/
def Apart (w : Uplink) : Prop := w.xmit.hand ≠ [] → w.aggSkb = none

/-- `rmnet_usb_tx_agg` sends a buffer while the worker has an older one. -/
def overtakes (w : Uplink) (a : Act) : Bool := a = .xmitSend && !w.work.hand.isEmpty

/-! ## What a step can do -/

theorem enter_inv {alloc : Bool} (h : step w (.enter alloc) = some w') :
    ∃ c, w.xmit = .call c ∧ w.enter c alloc = w' := by
  cases hx : w.xmit with
  | call c =>
    simp only [step, hx, Option.some.injEq] at h
    exact ⟨c, rfl, h⟩
  | _ => simp [step, hx] at h

theorem pass_inv {now : Timespec} {xmitMore alloc alloc' : Bool}
    (h : step w (.pass now xmitMore alloc alloc') = some w') :
    ∃ c, w.xmit = .newPacket c ∧ w.pass c now xmitMore alloc alloc' = w' := by
  cases hx : w.xmit with
  | newPacket c =>
    simp only [step, hx, Option.some.injEq] at h
    exact ⟨c, rfl, h⟩
  | _ => simp [step, hx] at h

/-- When a buffer was sent, the thread goes on with the packet that it has, if it has one. -/
theorem xmitSend_inv (h : step w .xmitSend = some w') :
    ∃ b x, w.xmit.hand = [b] ∧ x.hand = [] ∧ x.pending = w.xmit.pending ∧
      (x.aggregates → w.xmit.aggregates) ∧ { w with xmit := x, sent := w.sent ++ [b] } = w' := by
  cases hx : w.xmit with
  | direct b =>
    simp only [step, hx, Option.some.injEq] at h
    exact ⟨b, .idle, rfl, rfl, rfl, False.elim, h⟩
  | send b skb =>
    cases skb with
    | none =>
      simp only [step, hx, Option.some.injEq] at h
      exact ⟨b, .look, rfl, rfl, rfl, False.elim, h⟩
    | some c =>
      simp only [step, hx, Option.some.injEq] at h
      exact ⟨b, .newPacket c, rfl, rfl, rfl, id, h⟩
  | _ => simp [step, hx] at h

theorem workSend_inv (h : step w .workSend = some w') :
    ∃ b, w.work = .send b ∧ { w with work := .idle, sent := w.sent ++ [b] } = w' := by
  cases hwork : w.work with
  | send b =>
    simp only [step, hwork, Option.some.injEq] at h
    exact ⟨b, rfl, h⟩
  | _ => simp [step, hwork] at h

theorem settingSize_inv (h : step w .settingSize = some w') :
    ∃ size, w.setting = some size ∧
      { w with txCtx := { w.txCtx with ulDataAggregationMaxSize := size }, setting := none } =
        w' := by
  cases hset : w.setting with
  | some size =>
    simp only [step, hset, Option.some.injEq] at h
    exact ⟨size, rfl, h⟩
  | none => simp [step, hset] at h

/-- What a call of `rmnet_vnd_start_xmit` does. -/
theorem startXmit_cases (w : Uplink) (skb : Mhi.SkBuff) (protocol : Nat) (stopped : Bool) :
    (∃ bridgeMac, w.rmnetVndStartXmit skb protocol stopped = { w with bridgeMac }) ∨
      ∃ bridgeMac c, w.dev.addHeaders skb protocol = some c ∧
        w.rmnetVndStartXmit skb protocol stopped =
          { w with bridgeMac, xmit := .call c, accepted := w.accepted ++ [c.put] } := by
  rw [rmnetVndStartXmit]
  split
  · exact .inl ⟨w.bridgeMac, rfl⟩
  · generalize (if (w.dev.ether && w.dev.bridgeMode) = true then _ else _) = fixup
    dsimp only
    split
    · exact .inl ⟨_, rfl⟩
    · cases hc : w.dev.addHeaders skb protocol with
      | none => exact .inl ⟨_, rfl⟩
      | some c => exact .inr ⟨_, c, rfl, rfl⟩

/-- What a critical section of `rmnet_usb_tx_agg` does. -/
inductive Passes (w : Uplink) (c : Call) (now : Timespec) : Uplink → Prop where
  | append (b : AggSkb) (hb : w.aggSkb = some b)
    (hfits : b.len + c.skb.len + c.hdrData.length < w.txCtx.ulDataAggregationMaxSize)
    (hcount : w.aggCount + 1 ≠ w.txCtx.ulDataAggregationMaxDatagrams) :
    Passes w c now { w with
      aggSkb := some (b.put c.put), aggCount := w.aggCount + 1, xmit := .look }
  | last (b : AggSkb) (hb : w.aggSkb = some b)
    (hfits : b.len + c.skb.len + c.hdrData.length < w.txCtx.ulDataAggregationMaxSize) :
    Passes w c now { w with
      aggSkb := none, aggCount := 0, aggTime := now, xmit := .send (b.put c.put) none }
  | full (b : AggSkb) (hb : w.aggSkb = some b) :
    Passes w c now { w with
      aggSkb := none, aggCount := 0, aggTime := now, xmit := .send b (some c) }
  | first (hb : w.aggSkb = none) :
    Passes w c now { w with
      aggSkb := some ⟨w.txCtx.ulDataAggregationMaxSize, [c.put]⟩, aggCount := w.aggCount + 1
      xmit := .look }
  | alone (hb : w.aggSkb = none) :
    Passes w c now { w with
      aggSkb := none, aggTime := now, xmit := .send (alone c) none }
  | fails (hb : w.aggSkb = none) :
    Passes w c now { w with
      aggSkb := none, aggTime := now, dropped := w.dropped ++ [c.put], xmit := .look }

theorem pass_passes (w : Uplink) (c : Call) (now : Timespec) (xmitMore alloc alloc' : Bool) :
    Passes w c now (w.pass c now xmitMore alloc alloc') := by
  rw [pass]
  cases hb : w.aggSkb with
  | some b =>
    dsimp only
    split
    · rename_i hfits
      split
      · exact .last b hb hfits
      · rename_i hready
        simp only [Bool.or_eq_true, decide_eq_true_eq, not_or] at hready
        exact .append b hb hfits hready.1.2
    · exact .full b hb
  | none =>
    dsimp only
    split
    · exact .first hb
    · split
      · exact .alone hb
      · exact .fails hb

theorem Passes.apart {c : Call} {now : Timespec} (h : Passes w c now w') : w'.Apart := by
  cases h with
  | append b | first | fails => exact fun hne ↦ absurd rfl hne
  | last b | full b | alone => exact fun _ ↦ rfl

theorem Passes.does {turn : Prop} {c : Call} {now : Timespec} (hx : w.xmit = .newPacket c)
    (h : Passes w c now w') : Does turn w.queue w'.queue := by
  have hp : w.queue.pending = [c.put] := by rw [queue, hx]; rfl
  cases h with
  | append b hb | first hb =>
    refine .one ?_
    convert Moves.keep w.queue c.put [] hp using 1
    simp [queue, hb, hx, Xmit.pending, Xmit.hand, AggSkb.put]
  | last b hb | alone hb =>
    refine .more (.keep w.queue c.put [] hp) (.one ?_)
    convert Moves.close _ using 1
    simp [queue, hb, hx, Xmit.pending, Xmit.hand, AggSkb.put, Uplink.alone]
  | full b hb =>
    refine .one ?_
    convert Moves.close _ using 1
    simp [queue, hb, hx, Xmit.pending, Xmit.hand]
  | fails hb =>
    refine .one ?_
    convert Moves.drop w.queue c.put [] hp using 1
    simp [queue, hb, hx, Xmit.pending, Xmit.hand]

theorem enter_cases (w : Uplink) (c : Call) (alloc : Bool) :
    w.txCtx.ulDataAggregationMaxDatagrams = 1 ∧
        (w.enter c alloc = { w with xmit := .direct (alone c) } ∧ alloc = true ∨
          w.enter c alloc = { w with xmit := .idle, dropped := w.dropped ++ [c.put] } ∧
            alloc = false) ∨
      w.txCtx.ulDataAggregationMaxDatagrams ≠ 1 ∧
        w.enter c alloc = { w with xmit := .newPacket c } := by
  rw [enter]
  split
  · rename_i hone
    refine .inl ⟨hone, ?_⟩
    cases alloc with
    | true => exact .inl ⟨rfl, rfl⟩
    | false => exact .inr ⟨rfl, rfl⟩
  · rename_i hone
    exact .inr ⟨hone, rfl⟩

theorem enter_does {turn : Prop} {c : Call} (hx : w.xmit = .call c) (hb : w.aggSkb = none ∨
    w.txCtx.ulDataAggregationMaxDatagrams ≠ 1) (alloc : Bool) :
    Does turn w.queue (w.enter c alloc).queue := by
  have hp : w.queue.pending = [c.put] := by rw [queue, hx]; rfl
  rcases enter_cases w c alloc with ⟨hone, ⟨he, -⟩ | ⟨he, -⟩⟩ | ⟨-, he⟩
  · have hb' := hb.resolve_right (not_not.mpr hone)
    rw [he]
    refine .more (.keep w.queue c.put [] hp) (.one ?_)
    convert Moves.close _ using 1
    simp [queue, hb', hx, Xmit.pending, Xmit.hand, Uplink.alone]
  · rw [he]
    refine .one ?_
    convert Moves.drop w.queue c.put [] hp using 1
    simp [queue, hx, Xmit.pending, Xmit.hand]
  · rw [he]
    convert Does.rest _ using 1
    simp [queue, hx, Xmit.pending, Xmit.hand]

theorem xmitSend_does {turn : Prop} {b : AggSkb} {x : Xmit} (hhand : w.xmit.hand = [b])
    (hx : x.hand = []) (hpending : x.pending = w.xmit.pending)
    (hturn : turn → w.work.hand.map AggSkb.puts = []) :
    Does turn w.queue { w with xmit := x, sent := w.sent ++ [b] }.queue := by
  refine .one ?_
  convert Moves.send w.queue (w.work.hand.map AggSkb.puts) b.puts [] ?_ hturn using 1
  · simp [queue, hx, hpending]
  · simp [queue, hhand]

/-- Every step is some moves of the system for batching, in turn unless it overtakes. -/
theorem step_does (turn : Prop) (hw : w.Apart)
    (hone : w.txCtx.ulDataAggregationMaxDatagrams = 1 → w.aggSkb = none)
    (h : step w a = some w') (hturn : turn → w.overtakes a = false) :
    Does turn w.queue w'.queue := by
  cases a with
  | startXmit skb protocol stopped =>
    obtain ⟨hidle, rfl⟩ := Trace.of_guard h
    rcases startXmit_cases w skb protocol stopped with ⟨_, he⟩ | ⟨_, c, -, he⟩
    · rw [he]
      exact .rest _
    · rw [he]
      refine .one ?_
      convert Moves.accept w.queue c.put using 1
      simp [queue, hidle, Xmit.pending, Xmit.hand]
  | enter alloc =>
    obtain ⟨c, hx, rfl⟩ := enter_inv h
    refine enter_does hx ?_ alloc
    by_cases h1 : w.txCtx.ulDataAggregationMaxDatagrams = 1
    · exact .inl (hone h1)
    · exact .inr h1
  | pass now xmitMore alloc alloc' =>
    obtain ⟨c, hx, rfl⟩ := pass_inv h
    exact (pass_passes w c now xmitMore alloc alloc').does hx
  | xmitSend =>
    obtain ⟨b, x, hhand, hx, hpending, -, rfl⟩ := xmitSend_inv h
    refine xmitSend_does hhand hx hpending fun ht ↦ ?_
    simpa [overtakes] using hturn ht
  | look =>
    obtain ⟨hx, rfl⟩ := Trace.of_guard h
    convert Does.rest _ using 1
    cases hb : w.aggSkb <;> simp [queue, hb, hx, Xmit.pending, Xmit.hand]
  | ask =>
    obtain ⟨hx, rfl⟩ := Trace.of_guard h
    convert Does.rest _ using 1
    simp [queue, hx, Xmit.pending, Xmit.hand]
  | timerExpires | timerCb =>
    obtain ⟨-, rfl⟩ := Trace.of_guard h
    exact .rest _
  | workStart =>
    obtain ⟨⟨-, hwork⟩, rfl⟩ := Trace.of_guard h
    convert Does.rest _ using 1
    simp [queue, hwork, Worker.hand]
  | workTake now =>
    obtain ⟨hwork, rfl⟩ := Trace.of_guard h
    rw [workTake]
    cases hb : w.aggSkb with
    | none =>
      convert Does.rest _ using 1
      simp [queue, hb, hwork, Worker.hand]
    | some b =>
      have hhand : w.xmit.hand = [] := by
        by_contra hne
        exact absurd ((hw hne).symm.trans hb) (by simp)
      refine .one ?_
      convert Moves.close _ using 1
      simp [queue, hb, hwork, hhand, Worker.hand]
  | workSend =>
    obtain ⟨b, hwork, rfl⟩ := workSend_inv h
    refine .one ?_
    convert Moves.send w.queue [] b.puts (w.xmit.hand.map AggSkb.puts) ?_ fun _ ↦ rfl using 1
    · simp [queue, Worker.hand]
    · simp [queue, hwork, Worker.hand]
  | settingStore maxDatagrams maxSize =>
    obtain ⟨-, rfl⟩ := Trace.of_guard h
    rw [qmaSettingStore]
    split <;> exact .rest _
  | settingSize =>
    obtain ⟨size, -, rfl⟩ := settingSize_inv h
    exact .rest _
  | param aggTimeLimit aggBypassTime =>
    obtain rfl := Option.some.inj h
    exact .rest _

/-! ## How many packets are in a buffer -/

/-- The buffers that are not open any more. -/
def closed (w : Uplink) : List AggSkb := w.sent ++ w.work.hand ++ w.xmit.hand

/-- What is always true of `agg_count` and of the number of packets in a buffer. -/
structure Counts (w : Uplink) : Prop where
  apart : w.Apart
  pos : 0 < w.txCtx.ulDataAggregationMaxDatagrams
  /-- A thread that comes to the label has seen that the aggregation is on. -/
  on : w.xmit.aggregates → w.txCtx.ulDataAggregationMaxDatagrams ≠ 1
  count_none : w.aggSkb = none → w.aggCount = 0
  count_some : ∀ b, w.aggSkb = some b → w.aggCount = b.puts.length ∧ 0 < b.puts.length ∧
    b.puts.length < w.txCtx.ulDataAggregationMaxDatagrams
  le : ∀ b ∈ w.closed, b.puts.length ≤ w.txCtx.ulDataAggregationMaxDatagrams

theorem Counts.off (hw : w.Counts) (hone : w.txCtx.ulDataAggregationMaxDatagrams = 1) :
    w.aggSkb = none := by
  cases hb : w.aggSkb with
  | none => rfl
  | some b =>
    have hsome := hw.count_some b hb
    omega

/-- A step that changes neither the open buffer nor the settings, and closes none. -/
theorem Counts.of_eq (hw : w.Counts) (htx : w'.txCtx = w.txCtx) (hagg : w'.aggSkb = w.aggSkb)
    (hcount : w'.aggCount = w.aggCount) (hclosed : ∀ b ∈ w'.closed, b ∈ w.closed)
    (hhand : w'.xmit.hand ≠ [] → w.xmit.hand ≠ [])
    (hon : w'.xmit.aggregates → w.xmit.aggregates) : w'.Counts := by
  refine ⟨fun h ↦ hagg.trans (hw.apart (hhand h)), htx ▸ hw.pos, fun h ↦ htx ▸ hw.on (hon h),
    fun h ↦ hcount.trans (hw.count_none (hagg ▸ h)), fun b hb ↦ ?_, fun b hb ↦ ?_⟩
  · rw [hcount, htx]
    exact hw.count_some b (hagg ▸ hb)
  · rw [htx]
    exact hw.le b (hclosed b hb)

theorem Counts.passes {c : Call} {now : Timespec} (hw : w.Counts) (hx : w.xmit = .newPacket c)
    (h : Passes w c now w') : w'.Counts := by
  have hon : 1 < w.txCtx.ulDataAggregationMaxDatagrams := by
    have h1 := hw.on (by rw [hx]; trivial)
    have h0 := hw.pos
    omega
  have hle : ∀ b ∈ w.sent ++ w.work.hand,
      b.puts.length ≤ w.txCtx.ulDataAggregationMaxDatagrams :=
    fun b hb ↦ hw.le b (List.mem_append_left _ hb)
  have hle' : ∀ b', b'.puts.length ≤ w.txCtx.ulDataAggregationMaxDatagrams →
      ∀ b ∈ w.sent ++ w.work.hand ++ [b'],
        b.puts.length ≤ w.txCtx.ulDataAggregationMaxDatagrams := by
    intro b' hb' b hb
    rcases List.mem_append.mp hb with hb | hb
    · exact hle b hb
    · rwa [List.mem_singleton.mp hb]
  have hapart := h.apart
  cases h with
  | append b hb hfits hcount =>
    obtain ⟨hlen, -, hlt⟩ := hw.count_some b hb
    refine ⟨hapart, hw.pos, fun h ↦ h.elim, fun h ↦ absurd h (by simp), ?_,
      fun b hb ↦ hle b (by simpa [closed, Xmit.hand] using hb)⟩
    intro b' hb'
    obtain rfl := Option.some.inj hb'
    simp only [AggSkb.put, List.length_append, List.length_singleton]
    omega
  | last b hb =>
    obtain ⟨-, -, hlt⟩ := hw.count_some b hb
    refine ⟨hapart, hw.pos, fun h ↦ h.elim, fun _ ↦ rfl, fun b hb ↦ absurd hb (by simp),
      hle' (b.put c.put) ?_⟩
    simpa [AggSkb.put] using Nat.succ_le_of_lt hlt
  | full b hb =>
    obtain ⟨-, -, hlt⟩ := hw.count_some b hb
    refine ⟨hapart, hw.pos, fun _ ↦ by dsimp only; omega, fun _ ↦ rfl,
      fun b hb ↦ absurd hb (by simp), hle' b (by omega)⟩
  | first hb =>
    have h0 := hw.count_none hb
    refine ⟨hapart, hw.pos, fun h ↦ h.elim, fun h ↦ absurd h (by simp), ?_,
      fun b hb ↦ hle b (by simpa [closed, Xmit.hand] using hb)⟩
    intro b hb
    obtain rfl := Option.some.inj hb
    simp only [List.length_singleton]
    omega
  | alone hb =>
    refine ⟨hapart, hw.pos, fun h ↦ h.elim, fun _ ↦ hw.count_none hb, fun b hb ↦ absurd hb (by simp),
      hle' (Uplink.alone c) ?_⟩
    simpa [Uplink.alone] using Nat.succ_le_of_lt hw.pos
  | fails hb =>
    exact ⟨hapart, hw.pos, fun h ↦ h.elim, fun _ ↦ hw.count_none hb, fun b hb ↦ absurd hb (by simp),
      fun b hb ↦ hle b (by simpa [closed, Xmit.hand] using hb)⟩

theorem Counts.enter {c : Call} (hw : w.Counts) (hx : w.xmit = .call c) (alloc : Bool) :
    (w.enter c alloc).Counts := by
  have hclosed : w.closed = w.sent ++ w.work.hand := by simp [closed, hx, Xmit.hand]
  rcases enter_cases w c alloc with ⟨hone, ⟨he, -⟩ | ⟨he, -⟩⟩ | ⟨hne, he⟩
  · rw [he]
    refine ⟨fun _ ↦ hw.off hone, hw.pos, fun h ↦ h.elim, hw.count_none, hw.count_some, ?_⟩
    intro b hb
    rcases List.mem_append.mp hb with hb | hb
    · exact hw.le b (hclosed ▸ hb)
    · rw [List.mem_singleton.mp hb]
      exact hw.pos
  · rw [he]
    refine hw.of_eq rfl rfl rfl (fun b hb ↦ ?_) (fun h ↦ absurd rfl h) fun h ↦ h.elim
    simpa [closed, hx, Xmit.hand] using hb
  · rw [he]
    refine ⟨fun h ↦ absurd rfl h, hw.pos, fun _ ↦ hne, hw.count_none, hw.count_some, ?_⟩
    intro b hb
    exact hw.le b (by simpa [closed, hx, Xmit.hand] using hb)

theorem Counts.workTake (hw : w.Counts) (hwork : w.work = .started) (now : Timespec) :
    (w.workTake now).Counts := by
  rw [Uplink.workTake]
  cases hb : w.aggSkb with
  | none =>
    refine hw.of_eq rfl hb.symm rfl (fun b hb ↦ ?_) id id
    simpa [closed, hwork, Worker.hand] using hb
  | some b =>
    obtain ⟨-, -, hlt⟩ := hw.count_some b hb
    refine ⟨fun _ ↦ rfl, hw.pos, hw.on, fun _ ↦ rfl, fun b hb ↦ absurd hb (by simp), ?_⟩
    intro b' hb'
    simp only [closed, Worker.hand, List.mem_append, List.mem_singleton] at hb'
    rcases hb' with (hb' | rfl) | hb'
    · exact hw.le b' (by simp [closed, hb'])
    · exact Nat.le_of_lt hlt
    · exact hw.le b' (by simp [closed, hb'])

theorem Counts.settingStore (hw : w.Counts) (maxDatagrams maxSize : Nat) :
    (w.qmaSettingStore maxDatagrams maxSize).Counts := by
  rw [qmaSettingStore]
  split
  · rename_i hset
    obtain ⟨hone, hlt⟩ := hset
    refine ⟨hw.apart, Nat.zero_lt_of_lt hlt, fun h ↦ absurd hone (hw.on h), hw.count_none,
      fun b hb ↦ absurd ((hw.off hone).symm.trans hb) (by simp), fun b hb ↦ ?_⟩
    exact (hw.le b hb).trans (hone ▸ Nat.le_of_lt hlt)
  · exact hw

theorem Counts.step (hw : w.Counts) (h : step w a = some w') : w'.Counts := by
  cases a with
  | startXmit skb protocol stopped =>
    obtain ⟨hidle, rfl⟩ := Trace.of_guard h
    rcases startXmit_cases w skb protocol stopped with ⟨_, he⟩ | ⟨_, c, -, he⟩
    · rw [he]
      exact hw.of_eq rfl rfl rfl (fun _ ↦ id) id id
    · rw [he]
      refine hw.of_eq rfl rfl rfl (fun b hb ↦ ?_) (fun h ↦ absurd rfl h) fun h ↦ h.elim
      simpa [closed, hidle, Xmit.hand] using hb
  | enter alloc =>
    obtain ⟨c, hx, rfl⟩ := enter_inv h
    exact hw.enter hx alloc
  | pass now xmitMore alloc alloc' =>
    obtain ⟨c, hx, rfl⟩ := pass_inv h
    exact hw.passes hx (pass_passes w c now xmitMore alloc alloc')
  | xmitSend =>
    obtain ⟨b, x, hhand, hx, -, hon, rfl⟩ := xmitSend_inv h
    refine hw.of_eq rfl rfl rfl (fun b hb ↦ ?_) (fun h ↦ absurd hx h) hon
    simp only [closed, hx, hhand, List.mem_append, List.mem_singleton, List.not_mem_nil] at hb ⊢
    tauto
  | look =>
    obtain ⟨hx, rfl⟩ := Trace.of_guard h
    cases hb : w.aggSkb with
    | none | some =>
      refine hw.of_eq rfl hb.symm rfl (fun b hb ↦ ?_) (fun h ↦ absurd rfl h) fun h ↦ h.elim
      simpa [closed, hx, Xmit.hand] using hb
  | ask =>
    obtain ⟨hx, rfl⟩ := Trace.of_guard h
    refine hw.of_eq rfl rfl rfl (fun b hb ↦ ?_) (fun h ↦ absurd rfl h) fun h ↦ h.elim
    simpa [closed, hx, Xmit.hand] using hb
  | timerExpires | timerCb =>
    obtain ⟨-, rfl⟩ := Trace.of_guard h
    exact hw.of_eq rfl rfl rfl (fun _ ↦ id) id id
  | workStart =>
    obtain ⟨⟨-, hwork⟩, rfl⟩ := Trace.of_guard h
    refine hw.of_eq rfl rfl rfl (fun b hb ↦ ?_) id id
    simpa [closed, hwork, Worker.hand] using hb
  | workTake now =>
    obtain ⟨hwork, rfl⟩ := Trace.of_guard h
    exact hw.workTake hwork now
  | workSend =>
    obtain ⟨b, hwork, rfl⟩ := workSend_inv h
    refine hw.of_eq rfl rfl rfl (fun b hb ↦ ?_) id id
    simp only [closed, hwork, Worker.hand, List.mem_append, List.mem_singleton, List.not_mem_nil,
      or_false] at hb ⊢
    tauto
  | settingStore maxDatagrams maxSize =>
    obtain ⟨-, rfl⟩ := Trace.of_guard h
    exact hw.settingStore maxDatagrams maxSize
  | settingSize =>
    obtain ⟨size, -, rfl⟩ := settingSize_inv h
    exact ⟨hw.apart, hw.pos, hw.on, hw.count_none, hw.count_some, hw.le⟩
  | param aggTimeLimit aggBypassTime =>
    obtain rfl := Option.some.inj h
    exact hw.of_eq rfl rfl rfl (fun _ ↦ id) id id

theorem counts_start (dev : QmapNet) (bridgeMac : List UInt8) (now : Timespec) :
    (start dev bridgeMac now).Counts :=
  ⟨fun _ ↦ rfl, Nat.one_pos, fun h ↦ h.elim, fun _ ↦ rfl, fun _ h ↦ absurd h (by simp [start]),
    fun _ h ↦ absurd h List.not_mem_nil⟩

theorem Counts.run {as : List Act} (hw : w.Counts) (h : Trace.run Uplink.step w as = some w') :
    w'.Counts :=
  Trace.run_invariant (P := fun _ ↦ True) (fun _ _ _ _ hw h ↦ hw.step h) hw (fun _ _ ↦ trivial) h

/-! ## Whole runs -/

theorem conserved_run {dev : QmapNet} {bridgeMac : List UInt8} {now : Timespec} {as : List Act}
    (h : Trace.run step (start dev bridgeMac now) as = some w) : w.queue.Conserved := by
  have hinv : w.Counts ∧ w.queue.Conserved := by
    refine Trace.run_invariant (I := fun w ↦ w.Counts ∧ w.queue.Conserved) (P := fun _ ↦ True)
      ?_ ⟨counts_start dev bridgeMac now, List.Perm.refl []⟩ (fun _ _ ↦ trivial) h
    intro u a v _ hu hstep
    refine ⟨hu.1.step hstep, ?_⟩
    exact (step_does False hu.1.apart hu.1.off hstep False.elim).conserved hu.2
  exact hinv.2

section Sample

/-- An IPv4 packet of twenty bytes, of no protocol in particular. -/
def sampleSkb : Mhi.SkBuff := ⟨0x45 :: List.replicate 19 0, []⟩

def sampleDev : QmapNet where
  muxId := 0x81
  qmapVersion := 9

/-- Two packets into one buffer, which the worker sends. -/
def sampleActs : List Act :=
  [.settingStore 8 4096, .settingSize, .startXmit sampleSkb 0x0800 false, .enter true,
    .pass ⟨0, 0⟩ false true true, .look, .ask, .startXmit sampleSkb 0x0800 false, .enter true,
    .timerExpires, .pass ⟨0, 0⟩ false true true, .timerCb, .look, .workStart, .workTake ⟨0, 0⟩,
    .ask, .workSend]

def sampleStart : Uplink := start sampleDev [] ⟨0, 0⟩

def sampleSent : Uplink := (Trace.run step sampleStart sampleActs).getD sampleStart

end Sample

/-- **No packet is lost, and none goes twice.**  Whatever the order of the steps, every packet that
`rmnet_usb_tx_agg` was called with is in a buffer that was sent or that a thread is about to send,
or in the open buffer, or is still to be copied, or was dropped when no memory was left, and it is
in one of these places only. -/
theorem packets_conserved (dev : QmapNet) (bridgeMac : List UInt8) (now : Timespec) (as : List Act)
    (w : Uplink) (h : Trace.run step (start dev bridgeMac now) as = some w) :
    w.accepted.Perm (w.closed.flatMap AggSkb.puts ++ (w.aggSkb.map AggSkb.puts).getD [] ++
      w.xmit.pending ++ w.dropped) := by
  have hperm := conserved_run h
  simpa [Queue.Conserved, queue, closed, List.flatMap] using hperm

theorem packets_conserved_sample :
    sampleSent.accepted.Perm (sampleSent.sent.flatMap AggSkb.puts) ∧
      sampleSent.accepted.length = 2 := by
  have hperm := packets_conserved sampleDev [] ⟨0, 0⟩ sampleActs sampleSent
    (Trace.eq_some_getD (by decide +kernel))
  have hrest : sampleSent.closed = sampleSent.sent ∧ sampleSent.aggSkb = none ∧
    sampleSent.xmit.pending = [] ∧ sampleSent.dropped = [] := by decide +kernel
  obtain ⟨hclosed, hagg, hpending, hdropped⟩ := hrest
  rw [hclosed, hagg, hpending, hdropped] at hperm
  exact ⟨by simpa using hperm, by decide +kernel⟩

/-- **The order of the packets.**  In every run in which `rmnet_usb_tx_agg` does not send a buffer
while the worker, which has left the lock before it, is about to send an older one, the packets go
out in the order in which they came. -/
theorem packets_in_order (dev : QmapNet) (bridgeMac : List UInt8) (now : Timespec) (as : List Act)
    (w : Uplink) (h : Trace.run step (start dev bridgeMac now) as = some w)
    (hturn : Trace.always step (fun u a ↦ !u.overtakes a) (start dev bridgeMac now) as = true) :
    (w.closed.flatMap AggSkb.puts ++ (w.aggSkb.map AggSkb.puts).getD [] ++
      w.xmit.pending).Sublist w.accepted := by
  have hinv : w.Counts ∧ w.queue.InOrder := by
    refine Trace.run_invariant_of (I := fun w ↦ w.Counts ∧ w.queue.InOrder)
      ?_ ⟨counts_start dev bridgeMac now, List.Sublist.refl []⟩ hturn h
    intro u a v ha hu hstep
    refine ⟨hu.1.step hstep, ?_⟩
    have hturn' : u.overtakes a = false := by simpa using ha
    exact (step_does True hu.1.apart hu.1.off hstep fun _ ↦ hturn').inOrder hu.2
  have hsub := hinv.2
  simpa [Queue.InOrder, queue, closed, List.flatMap] using hsub

theorem packets_in_order_sample :
    (sampleSent.sent.flatMap AggSkb.puts).Sublist sampleSent.accepted ∧
      sampleSent.sent.map (·.puts.length) = [2] := by
  have hsub := packets_in_order sampleDev [] ⟨0, 0⟩ sampleActs sampleSent
    (Trace.eq_some_getD (by decide +kernel)) (by decide +kernel)
  have hrest : sampleSent.closed = sampleSent.sent ∧ sampleSent.aggSkb = none ∧
    sampleSent.xmit.pending = [] := by decide +kernel
  obtain ⟨hclosed, hagg, hpending⟩ := hrest
  rw [hclosed, hagg, hpending] at hsub
  exact ⟨by simpa using hsub, by decide +kernel⟩

end Uplink

end OpenwrtFeed.Usb
