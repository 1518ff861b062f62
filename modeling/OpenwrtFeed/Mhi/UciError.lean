import Mathlib.Data.Nat.Find
import OpenwrtFeed.Mhi.UciRead

/-!
# An empty transfer ends a device

Where the buffers are not copied, a transfer that is empty or longer than the MTU is not put into
the list of those to be read.  Hence no reader ever finishes its buffer, no other buffer is queued
in its turn, and from there on the modem gets the buffers one index later than `mhi_dl_xfer_cb`
expects them.  It finds that out a round later: `Skipped` says what the ring looks like until then. 
`rx_error` is never reset, so after that nothing can be read any more.
-/

set_option autoImplicit false

namespace OpenwrtFeed.Mhi

namespace UciDev

variable {w w' : UciDev} {a : Act} {d : Nat}

/-- What a step has to be like here: transfers may be empty or too long, but the channel is not
closed and `mhi_queue_transfer` accepts what is queued. -/
def Act.steady : Act → Bool
  | .complete _ notConn _ _ => !notConn
  | .recycle accepted => accepted
  | .disable => false
  | _ => true

/-- A transfer that is put into the list. -/
def Fits (mtu : Nat) (chunk : List UInt8) : Prop := 0 < chunk.length ∧ chunk.length ≤ mtu

theorem length_bytes_page (w : UciDev) (nrTrb len start n : Nat) :
    (w.bytes (.page nrTrb len) start n).length = n := by
  rw [bytes, List.length_map, List.length_range]

/-- What `mhi_dl_xfer_cb` does where the buffers are not copied. -/
theorem complete_inv {bytesXferd accepted : Nat} {notConn alloc : Bool} (hc : w.copies = false)
    (hs : step w (.complete bytesXferd notConn alloc accepted) = some w') :
    ∃ nrTrb ring chunk, w.ring = nrTrb :: ring ∧
      (nrTrb ≠ w.rpTrb ∧
          { w with ring, got := w.got ++ [chunk], rxError := w.rxError + 1 } = w' ∨
        nrTrb = w.rpTrb ∧ (notConn = true ∨ ¬ Fits w.mtu chunk) ∧
          { w with ring, got := w.got ++ [chunk], rpTrb := advance w.nrTrbs w.rpTrb } = w' ∨
        nrTrb = w.rpTrb ∧ Fits w.mtu chunk ∧
          { w with
            ring, got := w.got ++ [chunk], rpTrb := advance w.nrTrbs w.rpTrb
            pending := w.pending ++ [.page w.rpTrb chunk.length] } = w') := by
  rw [step] at hs
  split at hs
  · exact absurd hs (by simp)
  · rename_i nrTrb ring hr
    have hlen := length_bytes_page w nrTrb bytesXferd 0 bytesXferd
    refine ⟨nrTrb, ring, w.bytes (.page nrTrb bytesXferd) 0 bytesXferd, hr, ?_⟩
    rw [Option.some.injEq, mhiDlXferCb] at hs
    by_cases hne : nrTrb = w.rpTrb
    · by_cases hdrop : notConn = true ∨ w.mtu < bytesXferd ∨ bytesXferd = 0
      · refine .inr (.inl ⟨hne, hdrop.imp_right fun hbad hfit ↦ ?_, ?_⟩)
        · rw [Fits, hlen] at hfit
          omega
        · rw [← hs]
          rcases hdrop with rfl | hbad
          · simp [hne]
          · simp [hne, hbad]
      · obtain ⟨hconn, hfit⟩ := not_or.mp hdrop
        refine .inr (.inr ⟨hne, ?_, ?_⟩)
        · rw [Fits, hlen]
          omega
        · rw [← hs, hlen]
          simp [hne, hconn, hfit, putPending, hc]
    · refine .inl ⟨hne, ?_⟩
      rw [← hs]
      simp [hne]

/-- These are the buffers from number `f` on, without number `d`, and perhaps without others after
it. -/
def Waits (d : Nat) (w : UciDev) (f : Nat) (bs : List UciBuf) : Prop :=
  ∃ late : List Nat, bs.map UciBuf.nrTrb? =
      (Circular.places w.nrTrbs f d ++ late.map (· % w.nrTrbs)).map some ∧
    ∀ k ∈ late, d < k ∧ k < w.got.length

/-- The state after the transfer number `d` was dropped, up to a round later. -/
structure Skipped (d : Nat) (w : UciDev) : Prop where
  nrTrbs_eq : w.nrTrbs = w.descriptors + 1
  lt_got : d < w.got.length
  got_le : w.got.length ≤ d + w.descriptors
  got_le_queued : w.got.length ≤ w.queued
  rpTrb_eq : w.rpTrb = w.got.length % w.nrTrbs
  wpTrb_eq : w.queueInbound ≠ none → w.wpTrb = w.queued % w.nrTrbs
  opening : ∀ i, w.queueInbound = some i → w.queued + i = w.descriptors ∧
    w.finished = 0 ∧ w.reader = .idle
  returned : w.queueInbound = none → w.queued = w.descriptors + w.finished
  ring_eq : w.queued ≤ d + w.descriptors →
    w.ring = Circular.places w.nrTrbs w.got.length w.queued
  /-- The buffer behind these has not the index that is expected. -/
  ring_next : d + w.descriptors < w.queued → ∃ i rest,
    w.ring = Circular.places w.nrTrbs w.got.length (d + w.descriptors) ++ i :: rest ∧
      i ≠ (d + w.descriptors) % w.nrTrbs
  waits : Waits d w w.finished w.bufs

/-- The transfer is dropped. -/
theorem Ordered.skip (h : w.Ordered) (hc : w.copies = false) {nrTrb : Nat} {ring : List Nat}
    (hr : w.ring = nrTrb :: ring) (chunk : List UInt8) :
    Skipped w.got.length
      { w with ring, got := w.got ++ [chunk], rpTrb := advance w.nrTrbs w.rpTrb } := by
  obtain ⟨-, hlt, hring⟩ := h.head_eq hr
  have hroom := h.room
  have hlen : (w.got ++ [chunk]).length = w.got.length + 1 := by
    rw [List.length_append, List.length_singleton]
  refine ⟨h.nrTrbs_eq, ?_, ?_, ?_, ?_, fun hq ↦ h.wpTrb_eq (.inr hq), h.opening, h.returned hc,
    fun _ ↦ ?_, fun hlt' ↦ absurd hlt' (Nat.not_lt.mpr hroom), [], ?_, by simp⟩ <;> simp only [hlen]
  · exact Nat.lt_succ_self _
  · omega
  · exact hlt
  · rw [h.rpTrb_eq]
    exact advance_mod (h.nrTrbs_eq ▸ Nat.succ_pos _) _
  · exact hring
  · rw [List.map_nil, List.append_nil]
    exact h.paged hc

/-- Until a round is over, the callback finds the buffer that it expects. -/
theorem Skipped.head_eq (h : w.Skipped d) (hlt : w.got.length < d + w.descriptors) {nrTrb : Nat}
    {ring : List Nat} (hr : w.ring = nrTrb :: ring) :
    nrTrb = w.rpTrb ∧ w.got.length < w.queued ∧
      (w.queued ≤ d + w.descriptors →
        ring = Circular.places w.nrTrbs (w.got.length + 1) w.queued) ∧
      (d + w.descriptors < w.queued → ∃ i rest,
        ring = Circular.places w.nrTrbs (w.got.length + 1) (d + w.descriptors) ++ i :: rest ∧
          i ≠ (d + w.descriptors) % w.nrTrbs) := by
  rw [h.rpTrb_eq]
  rcases Nat.lt_or_ge (d + w.descriptors) w.queued with hq | hq
  · obtain ⟨i, rest, hring, hi⟩ := h.ring_next hq
    rw [hr, Circular.places_cons hlt, List.cons_append, List.cons.injEq] at hring
    exact ⟨hring.1, by omega, fun hle ↦ absurd hq (Nat.not_lt.mpr hle),
      fun _ ↦ ⟨i, rest, hring.2, hi⟩⟩
  · have hring := h.ring_eq hq
    have hlt' : w.got.length < w.queued := by
      by_contra hge
      have hlen := congrArg List.length hring
      rw [hr, Circular.length_places, List.length_cons] at hlen
      omega
    rw [hr, Circular.places_cons hlt', List.cons.injEq] at hring
    exact ⟨hring.1, hlt', fun _ ↦ hring.2, fun hlt ↦ absurd hlt (Nat.not_lt.mpr hq)⟩

/-- A round later, it does not. -/
theorem Skipped.head_ne (h : w.Skipped d) (hge : w.got.length = d + w.descriptors) {nrTrb : Nat}
    {ring : List Nat} (hr : w.ring = nrTrb :: ring) : nrTrb ≠ w.rpTrb := by
  have hnil : ∀ n m, Circular.places n m m = [] := fun n m ↦ by simp [Circular.places]
  rw [h.rpTrb_eq, hge]
  rcases Nat.lt_or_ge (d + w.descriptors) w.queued with hq | hq
  · obtain ⟨i, rest, hring, hi⟩ := h.ring_next hq
    rw [hr, hge, hnil, List.nil_append, List.cons.injEq] at hring
    rw [hring.1]
    exact hi
  · have hring := h.ring_eq hq
    have hle := h.got_le_queued
    rw [hr, show w.queued = w.got.length by omega, hnil] at hring
    exact absurd hring (by simp)

/-- The next transfer is dropped too, or put into the list. -/
theorem Skipped.arrive (h : w.Skipped d) (hlt : w.got.length < d + w.descriptors) {nrTrb : Nat}
    {ring : List Nat} (hr : w.ring = nrTrb :: ring) (chunk : List UInt8) {put : List UciBuf}
    (hput : put = [] ∨ ∃ len, put = [.page w.rpTrb len]) :
    Skipped d { w with
      ring, got := w.got ++ [chunk], rpTrb := advance w.nrTrbs w.rpTrb
      pending := w.pending ++ put } := by
  obtain ⟨-, hlt', hring, hnext⟩ := h.head_eq hlt hr
  have hlen : (w.got ++ [chunk]).length = w.got.length + 1 := by
    rw [List.length_append, List.length_singleton]
  have hgot := h.lt_got
  refine ⟨h.nrTrbs_eq, ?_, ?_, ?_, ?_, h.wpTrb_eq, h.opening, h.returned, ?_, ?_, ?_⟩ <;>
    simp only [hlen]
  · omega
  · exact hlt
  · exact hlt'
  · rw [h.rpTrb_eq]
    exact advance_mod (h.nrTrbs_eq ▸ Nat.succ_pos _) _
  · exact hring
  · exact hnext
  · obtain ⟨late, hbufs, hlate⟩ := h.waits
    have happend : ∀ put, { w with
        ring, got := w.got ++ [chunk], rpTrb := advance w.nrTrbs w.rpTrb
        pending := w.pending ++ put }.bufs = w.bufs ++ put := by
      intro put
      rw [bufs, bufs, List.append_assoc]
    rw [happend, Waits, List.map_append, hbufs]
    simp only [hlen]
    rcases hput with rfl | ⟨len, rfl⟩
    · refine ⟨late, by rw [List.map_nil, List.append_nil], fun k hk ↦ ?_⟩
      obtain ⟨hdk, hkg⟩ := hlate k hk
      omega
    · refine ⟨late ++ [w.got.length], ?_, fun k hk ↦ ?_⟩
      · simp only [List.map_append, List.append_assoc, List.map_cons, List.map_nil, UciBuf.nrTrb?,
          h.rpTrb_eq]
      · rcases List.mem_append.mp hk with hk | hk
        · obtain ⟨hdk, hkg⟩ := hlate k hk
          omega
        · rw [List.mem_singleton.mp hk]
          omega

theorem Skipped.of_bufs (h : w.Skipped d) {reader : UciReader} {curBuf : Option UciBuf}
    {pending : List UciBuf} (hbufs : curBuf.toList ++ pending = w.bufs)
    (hq : w.queueInbound = none) (rxSize : Nat) (delivered : List UInt8) :
    Skipped d { w with reader, curBuf, pending, rxSize, delivered } := by
  refine ⟨h.nrTrbs_eq, h.lt_got, h.got_le, h.got_le_queued, h.rpTrb_eq, h.wpTrb_eq,
    fun i hi ↦ absurd (hq.symm.trans hi) (by simp), h.returned, h.ring_eq, h.ring_next, ?_⟩
  obtain ⟨late, hb, hlate⟩ := h.waits
  exact ⟨late, (congrArg (List.map UciBuf.nrTrb?) hbufs).trans hb, hlate⟩

theorem Skipped.queueInbound_of_busy (h : w.Skipped d) (hr : w.reader ≠ .idle) :
    w.queueInbound = none := by
  cases hq : w.queueInbound with
  | none => rfl
  | some i => exact absurd (h.opening i hq).2.2 hr

/-- What the reader finishes first. -/
theorem Skipped.first (h : w.Skipped d) {b : UciBuf} (hcur : w.curBuf = some b) :
    ∃ k len, b = .page (k % w.nrTrbs) len ∧
      (k = w.finished ∧ w.finished < d ∨ d ≤ w.finished ∧ d < k ∧ k < w.got.length) ∧
      Waits d w (w.finished + 1) w.pending := by
  have hpage : ∀ k, b.nrTrb? = some (k % w.nrTrbs) → ∃ len, b = .page (k % w.nrTrbs) len := by
    intro k hk
    cases b with
    | page nrTrb len => exact ⟨len, by rw [Option.some.inj hk]⟩
    | copy data len => exact absurd hk (by simp [UciBuf.nrTrb?])
  obtain ⟨late, hbufs, hlate⟩ := h.waits
  rw [bufs, hcur, Option.toList_some, List.singleton_append, List.map_cons] at hbufs
  rcases Nat.lt_or_ge w.finished d with hlt | hge
  · rw [Circular.places_cons hlt, List.cons_append, List.map_cons, List.cons.injEq] at hbufs
    obtain ⟨len, hb⟩ := hpage _ hbufs.1
    exact ⟨w.finished, len, hb, .inl ⟨rfl, hlt⟩, late, hbufs.2, hlate⟩
  · have hnil : ∀ f, d ≤ f → Circular.places w.nrTrbs f d = [] := fun f hf ↦ by
      simp [Circular.places, Nat.sub_eq_zero_of_le hf]
    rw [hnil _ hge, List.nil_append] at hbufs
    cases late with
    | nil => exact absurd hbufs (by simp)
    | cons k late =>
      rw [List.map_cons, List.map_cons, List.cons.injEq] at hbufs
      obtain ⟨len, hb⟩ := hpage k hbufs.1
      refine ⟨k, len, hb, .inr ⟨hge, hlate k List.mem_cons_self⟩, late, ?_,
        fun j hj ↦ hlate j (List.mem_cons_of_mem _ hj)⟩
      rw [hnil _ (Nat.le_succ_of_le hge), List.nil_append]
      exact hbufs.2

/-- The reader has finished a buffer: the one that it queues has the index that is expected only if
it was one before the gap. -/
theorem Skipped.recycle (h : w.Skipped d) {b : UciBuf} (hcur : w.curBuf = some b)
    (hq : w.queueInbound = none) (hen : w.enabled = true) : Skipped d (w.readRecycle b true) := by
  obtain ⟨k, len, rfl, hk, hwaits⟩ := h.first hcur
  have hret := h.returned hq
  have hgot := h.got_le_queued
  have hw' : w.readRecycle (.page (k % w.nrTrbs) len) true =
      { w with
        curBuf := none, reader := .idle, finished := w.finished + 1, queued := w.queued + 1
        ring := w.ring ++ [(w.descriptors + k) % w.nrTrbs] } := by
    have hbefore := Circular.before_mod w.descriptors k
    simp only [readRecycle, hen, Bool.true_and, if_true, mhiQueueTransfer, h.nrTrbs_eq,
      Nat.add_sub_cancel, hbefore]
  rw [hw']
  refine ⟨h.nrTrbs_eq, h.lt_got, h.got_le, Nat.le_succ_of_le hgot, h.rpTrb_eq,
    fun hq' ↦ absurd hq hq', fun i hi ↦ absurd (hq.symm.trans hi) (by simp), fun _ ↦ ?_,
    fun hle ↦ ?_, fun hlt ↦ ?_, hwaits⟩
  · show w.queued + 1 = w.descriptors + (w.finished + 1)
    omega
  · have hle' : w.queued + 1 ≤ d + w.descriptors := hle
    obtain ⟨rfl, -⟩ := hk.resolve_right fun hbad ↦ by omega
    show w.ring ++ [(w.descriptors + w.finished) % w.nrTrbs] =
      Circular.places w.nrTrbs w.got.length (w.queued + 1)
    rw [Circular.places_concat hgot, h.ring_eq (Nat.le_of_succ_le hle'), hret]
  · have hlt' : d + w.descriptors < w.queued + 1 := hlt
    obtain ⟨-, hdk, hkg⟩ := hk.resolve_left fun hbad ↦ by omega
    show ∃ i rest, w.ring ++ [(w.descriptors + k) % w.nrTrbs] =
      Circular.places w.nrTrbs w.got.length (d + w.descriptors) ++ i :: rest ∧
        i ≠ (d + w.descriptors) % w.nrTrbs
    rcases Nat.lt_or_ge (d + w.descriptors) w.queued with hlt'' | hge
    · obtain ⟨i, rest, hring, hi⟩ := h.ring_next hlt''
      refine ⟨i, rest ++ [(w.descriptors + k) % w.nrTrbs], ?_, hi⟩
      rw [hring, List.append_assoc, List.cons_append]
    · have heq : w.queued = d + w.descriptors := by omega
      refine ⟨(w.descriptors + k) % w.nrTrbs, [], ?_, fun hmod ↦ ?_⟩
      · rw [h.ring_eq hge, heq]
      · have hle := h.got_le
        have hn := h.nrTrbs_eq
        rw [Nat.add_comm d] at hmod
        have := Circular.eq_of_mod_eq (show w.descriptors + d ≤ w.descriptors + k by omega)
          (by omega)
          hmod.symm
        omega

theorem Skipped.queue (h : w.Skipped d) {i : Nat} (hq : w.queueInbound = some (i + 1)) :
    Skipped d { w.queueNext with queueInbound := some i } := by
  obtain ⟨hcount, hfin, hidle⟩ := h.opening (i + 1) hq
  have hwp := h.wpTrb_eq (by simp [hq])
  have hn : 0 < w.nrTrbs := h.nrTrbs_eq ▸ Nat.succ_pos _
  refine ⟨h.nrTrbs_eq, h.lt_got, h.got_le, Nat.le_succ_of_le h.got_le_queued, h.rpTrb_eq,
    fun _ ↦ ?_, fun j hj ↦ ?_, fun hq' ↦ absurd hq' (by simp), fun hle ↦ ?_, fun hlt ↦ ?_, h.waits⟩
  · show advance w.nrTrbs w.wpTrb = (w.queued + 1) % w.nrTrbs
    rw [hwp]
    exact advance_mod hn _
  · obtain rfl := Option.some.inj hj
    refine ⟨?_, hfin, hidle⟩
    show w.queued + 1 + i = w.descriptors
    omega
  · have hle' : w.queued + 1 ≤ d + w.descriptors := hle
    show w.ring ++ [w.wpTrb] = Circular.places w.nrTrbs w.got.length (w.queued + 1)
    rw [Circular.places_concat h.got_le_queued, hwp, h.ring_eq (Nat.le_of_succ_le hle')]
  · have hlt' : d + w.descriptors < w.queued + 1 := hlt
    omega

/-! ## Runs -/

def Act.isComplete : Act → Bool
  | .complete .. => true
  | _ => false

/-- What no step changes. -/
structure Same (w w' : UciDev) : Prop where
  copies : w'.copies = w.copies
  mtu : w'.mtu = w.mtu
  descriptors : w'.descriptors = w.descriptors

/-- What all steps but the callback leave alone. -/
structure Quiet (w w' : UciDev) : Prop extends Same w w' where
  got : w'.got = w.got
  rxError : w'.rxError = w.rxError

theorem step_quiet (ha : a.isComplete = false) (hs : step w a = some w') :
    Quiet w w' ∧ (a.steady = true → w'.enabled = w.enabled) := by
  cases a with
  | complete => exact absurd ha (by simp [Act.isComplete])
  | scribble | opened | attach | detach =>
    obtain ⟨-, rfl⟩ := Trace.of_guard hs
    exact ⟨⟨⟨rfl, rfl, rfl⟩, rfl, rfl⟩, fun _ ↦ rfl⟩
  | queue =>
    obtain ⟨i, -, rfl⟩ := queue_inv hs
    exact ⟨⟨⟨rfl, rfl, rfl⟩, rfl, rfl⟩, fun _ ↦ rfl⟩
  | take count =>
    obtain ⟨-, htake⟩ := Option.ite_none_right_eq_some.mp hs
    obtain rfl | ⟨b, pending, -, -, rfl⟩ := take_inv htake <;>
      exact ⟨⟨⟨rfl, rfl, rfl⟩, rfl, rfl⟩, fun _ ↦ rfl⟩
  | copyToUser left =>
    obtain ⟨count, b, -, -, -, rfl⟩ := copyToUser_inv hs
    obtain ⟨_, _, _, he⟩ := readCopy_eq w b count left
    rw [he]
    exact ⟨⟨⟨rfl, rfl, rfl⟩, rfl, rfl⟩, fun _ ↦ rfl⟩
  | recycle accepted =>
    obtain ⟨-, b, -, rfl⟩ := recycle_inv hs
    cases b with
    | page nrTrb len =>
      rw [readRecycle]
      split <;> exact ⟨⟨⟨rfl, rfl, rfl⟩, rfl, rfl⟩, fun _ ↦ rfl⟩
    | copy => exact ⟨⟨⟨rfl, rfl, rfl⟩, rfl, rfl⟩, fun _ ↦ rfl⟩
  | disable =>
    obtain rfl := Option.some.inj hs
    exact ⟨⟨⟨rfl, rfl, rfl⟩, rfl, rfl⟩, fun ha ↦ absurd ha (by simp [Act.steady])⟩

/-- What the callback does, in any case. -/
theorem complete_grows {bytesXferd accepted : Nat} {notConn alloc : Bool} (hc : w.copies = false)
    (hs : step w (.complete bytesXferd notConn alloc accepted) = some w') :
    Same w w' ∧ w'.enabled = w.enabled ∧ w.rxError ≤ w'.rxError := by
  obtain ⟨nrTrb, ring, chunk, -, ⟨-, rfl⟩ | ⟨-, -, rfl⟩ | ⟨-, -, rfl⟩⟩ := complete_inv hc hs
  · exact ⟨⟨rfl, rfl, rfl⟩, rfl, Nat.le_succ _⟩
  · exact ⟨⟨rfl, rfl, rfl⟩, rfl, Nat.le_refl _⟩
  · exact ⟨⟨rfl, rfl, rfl⟩, rfl, Nat.le_refl _⟩

/-- The gap stays, until it is noticed. -/
theorem Skipped.step (h : w.Skipped d) (hc : w.copies = false) (hen : w.enabled = true)
    (ha : a.steady = true) (hs : step w a = some w') : w'.Skipped d ∨ 0 < w'.rxError := by
  cases a with
  | complete bytesXferd notConn alloc accepted =>
    obtain ⟨nrTrb, ring, chunk, hr, hcase⟩ := complete_inv hc hs
    obtain ⟨hne, rfl⟩ | ⟨heq, -, rfl⟩ | ⟨heq, -, rfl⟩ := hcase
    · exact .inr (Nat.succ_pos _)
    all_goals
      have hlt : w.got.length < d + w.descriptors :=
        Nat.lt_of_le_of_ne h.got_le fun hge ↦ h.head_ne hge hr heq
    · have harrive := h.arrive hlt hr chunk (.inl rfl)
      rw [List.append_nil] at harrive
      exact .inl harrive
    · exact .inl (h.arrive hlt hr chunk (.inr ⟨_, rfl⟩))
  | queue =>
    obtain ⟨i, hq, rfl⟩ := queue_inv hs
    exact .inl (h.queue hq)
  | opened =>
    obtain ⟨hq, rfl⟩ := Trace.of_guard hs
    obtain ⟨hcount, hfin, -⟩ := h.opening 0 hq
    refine .inl ⟨h.nrTrbs_eq, h.lt_got, h.got_le, h.got_le_queued, h.rpTrb_eq,
      fun hq' ↦ absurd rfl hq', fun i hi ↦ absurd hi (by simp), fun _ ↦ ?_, h.ring_eq, h.ring_next,
      h.waits⟩
    show w.queued = w.descriptors + w.finished
    omega
  | scribble | attach | detach =>
    obtain ⟨-, rfl⟩ := Trace.of_guard hs
    exact .inl ⟨h.nrTrbs_eq, h.lt_got, h.got_le, h.got_le_queued, h.rpTrb_eq, h.wpTrb_eq, h.opening,
      h.returned, h.ring_eq, h.ring_next, h.waits⟩
  | take count =>
    obtain ⟨⟨hq, -⟩, htake⟩ := Option.ite_none_right_eq_some.mp hs
    obtain rfl | ⟨b, pending, hcur, hp, rfl⟩ := take_inv htake
    · exact .inl (h.of_bufs rfl hq _ _)
    · exact .inl (h.of_bufs (by rw [bufs, hcur, hp]; rfl) hq _ _)
  | copyToUser left =>
    obtain ⟨count, b, hr, -, -, rfl⟩ := copyToUser_inv hs
    have hq := h.queueInbound_of_busy (by simp [hr])
    obtain ⟨_, _, _, he⟩ := readCopy_eq w b count left
    rw [he]
    exact .inl (h.of_bufs rfl hq _ _)
  | recycle accepted =>
    obtain rfl : accepted = true := ha
    obtain ⟨hr, b, hcur, rfl⟩ := recycle_inv hs
    exact .inl (h.recycle hcur (h.queueInbound_of_busy (by simp [hr])) hen)
  | disable => exact absurd ha (by simp [Act.steady])

/-- What becomes of a device, as far as the transfer number `d` decides it. -/
inductive Fate (d : Nat) (w : UciDev) : Prop where
  | broken (h : 0 < w.rxError)
  | earlier (j : Nat) (chunk : List UInt8) (hj : j < d) (hget : w.got[j]? = some chunk)
    (hfit : ¬ Fits w.mtu chunk)
  | fits (chunk : List UInt8) (hget : w.got[d]? = some chunk) (hfit : Fits w.mtu chunk)
  | before (hle : w.got.length ≤ d) (h : w.Ordered)
  | skipped (h : w.Skipped d)

theorem getElem?_append_of_some {α : Type} {l : List α} {i : Nat} {x : α} (h : l[i]? = some x)
    (y : α) : (l ++ [y])[i]? = some x := by
  rw [List.getElem?_append_left (List.getElem?_eq_some_iff.mp h).1]
  exact h

theorem Fate.complete (h : w.Fate d) (hc : w.copies = false) (hen : w.enabled = true)
    {bytesXferd accepted : Nat} {alloc : Bool}
    (hs : step w (.complete bytesXferd false alloc accepted) = some w') : w'.Fate d := by
  obtain ⟨nrTrb, ring, chunk, hr, hcase⟩ := complete_inv hc hs
  have hgot : w'.got = w.got ++ [chunk] := by
    obtain ⟨-, rfl⟩ | ⟨-, -, rfl⟩ | ⟨-, -, rfl⟩ := hcase <;> rfl
  obtain ⟨⟨-, hmtu, -⟩, -, herr⟩ := complete_grows hc hs
  cases h with
  | broken hpos => exact .broken (Nat.lt_of_lt_of_le hpos herr)
  | earlier j old hj hget hfit =>
    exact .earlier j old hj (hgot ▸ getElem?_append_of_some hget chunk) (hmtu ▸ hfit)
  | fits old hget hfit => exact .fits old (hgot ▸ getElem?_append_of_some hget chunk) (hmtu ▸ hfit)
  | skipped hskip =>
    rcases hskip.step hc hen rfl hs with hskip' | hpos
    · exact .skipped hskip'
    · exact .broken hpos
  | before hle ho =>
    have hget : w'.got[w.got.length]? = some chunk := by rw [hgot, List.getElem?_concat_length]
    obtain ⟨-, rfl⟩ | ⟨-, hdrop, rfl⟩ | ⟨-, hfit, rfl⟩ := hcase
    · exact .broken (Nat.succ_pos _)
    · have hfit : ¬ Fits w.mtu chunk := hdrop.resolve_left Bool.false_ne_true
      rcases Nat.lt_or_eq_of_le hle with hlt | rfl
      · exact .earlier w.got.length chunk hlt hget hfit
      · exact .skipped (ho.skip hc hr chunk)
    · rcases Nat.lt_or_eq_of_le hle with hlt | rfl
      · refine .before ?_ (ho.arrive hr hc chunk chunk.length)
        rw [hgot, List.length_append]
        exact hlt
      · exact .fits chunk hget hfit

theorem Fate.step (h : w.Fate d) (hc : w.copies = false) (hen : w.enabled = true)
    (ha : a.steady = true) (hs : step w a = some w') : w'.Fate d := by
  cases hcomp : a.isComplete with
  | true =>
    cases a with
    | complete bytesXferd notConn alloc accepted =>
      obtain rfl : notConn = false := by simpa [Act.steady] using ha
      exact h.complete hc hen hs
    | _ => exact absurd hcomp (by simp [Act.isComplete])
  | false =>
    obtain ⟨hquiet, -⟩ := step_quiet hcomp hs
    cases h with
    | broken hpos => exact .broken (hquiet.rxError ▸ hpos)
    | earlier j chunk hj hget hfit =>
      exact .earlier j chunk hj (hquiet.got ▸ hget) (hquiet.mtu ▸ hfit)
    | fits chunk hget hfit => exact .fits chunk (hquiet.got ▸ hget) (hquiet.mtu ▸ hfit)
    | skipped hskip => exact (hskip.step hc hen ha hs).elim .skipped .broken
    | before hle ho =>
      have hcare : w.careful a = true := by
        cases a with
        | complete => exact absurd hcomp (by simp [Act.isComplete])
        | recycle | disable => exact ha
        | _ => rfl
      exact .before (hquiet.got ▸ hle) (ho.step hen hcare hs)

/-- What holds in a run of such steps. -/
structure Runs (s : Setup) (d : Nat) (w : UciDev) : Prop where
  copies_eq : w.copies = false
  enabled_eq : w.enabled = true
  mtu_eq : w.mtu = s.mtu
  descriptors_eq : w.descriptors = s.descriptors
  fate : w.Fate d

theorem Runs.step {s : Setup} (h : w.Runs s d) (ha : a.steady = true) (hs : step w a = some w') :
    w'.Runs s d := by
  have hfate := h.fate.step h.copies_eq h.enabled_eq ha hs
  have hsame : Same w w' ∧ w'.enabled = w.enabled := by
    cases hcomp : a.isComplete with
    | true =>
      cases a with
      | complete =>
        obtain ⟨hsame, hen, -⟩ := complete_grows h.copies_eq hs
        exact ⟨hsame, hen⟩
      | _ => exact absurd hcomp (by simp [Act.isComplete])
    | false =>
      obtain ⟨hquiet, hen⟩ := step_quiet hcomp hs
      exact ⟨hquiet.toSame, hen ha⟩
  obtain ⟨⟨hcopies, hmtu, hdesc⟩, hen⟩ := hsame
  exact ⟨hcopies.trans h.copies_eq, hen.trans h.enabled_eq, hmtu.trans h.mtu_eq,
    hdesc.trans h.descriptors_eq, hfate⟩

end UciDev

end OpenwrtFeed.Mhi
