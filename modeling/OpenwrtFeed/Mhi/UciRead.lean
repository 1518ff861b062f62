import OpenwrtFeed.Mhi.Uci

/-!
# What is read is what the modem has sent

The two sides of a device count through the array of its buffers without telling each other where
they are.  `Ordered` says why they agree: the `j`-th buffer that is ever queued is the one with the
index `j % nr_trbs`, whoever queues it, and so is the `j`-th that comes back.  A reader that
finishes the `f`-th buffer queues the one with the number `descriptors + f`, which has the index
before that of the `f`-th.  The buffers that wait for a reader and those that the modem has are less
than a round apart, so the modem cannot write to what is still to be read.

This needs every buffer that comes back to be put into the list.
-/

set_option autoImplicit false

namespace OpenwrtFeed.Mhi

/-- The index of a buffer that is not a copy. -/
def UciBuf.nrTrb? : UciBuf → Option Nat
  | .page nrTrb _ => some nrTrb
  | .copy .. => none

namespace UciDev

variable {w w' : UciDev} {a : Act}

/-! ## Pieces of a buffer -/

theorem bytes_add (w : UciDev) (b : UciBuf) (start m n : Nat) :
    w.bytes b start (m + n) = w.bytes b start m ++ w.bytes b (start + m) n := by
  cases b with
  | page nrTrb len | copy data len =>
    simp only [bytes, List.range_add, List.map_append, List.map_map]
    refine congrArg _ (List.map_congr_left fun k _ ↦ ?_)
    simp only [Function.comp, Nat.add_assoc]

/-- What is in a buffer depends only on its own page. -/
theorem bytes_congr {b : UciBuf} (h : ∀ i, b.nrTrb? = some i → w'.pages i = w.pages i)
    (start len : Nat) : w'.bytes b start len = w.bytes b start len := by
  cases b with
  | page nrTrb _ =>
    rw [bytes, bytes, h nrTrb rfl]
  | copy => rfl

/-- The buffers that wait for a reader. -/
def bufs (w : UciDev) : List UciBuf := w.curBuf.toList ++ w.pending

/-- What is left in the buffer that is being read. -/
def rest (w : UciDev) : List UInt8 :=
  match w.curBuf with
  | some b => w.bytes b (b.len - w.rxSize) w.rxSize
  | none => []

/-- What is still to be read. -/
def unread (w : UciDev) : List UInt8 := w.rest ++ w.pending.flatMap fun b ↦ w.bytes b 0 b.len

theorem unread_congr (hcur : w'.curBuf = w.curBuf) (hrx : w'.rxSize = w.rxSize)
    (hpending : w'.pending = w.pending)
    (h : ∀ b ∈ w.bufs, ∀ i, b.nrTrb? = some i → w'.pages i = w.pages i) :
    w'.unread = w.unread := by
  have hrest : w'.rest = w.rest := by
    rw [rest, rest, hcur, hrx]
    cases hc : w.curBuf with
    | none => rfl
    | some b => exact bytes_congr (h b (by simp [bufs, hc])) _ _
  rw [unread, unread, hrest, hpending]
  refine congrArg _ (List.flatMap_congr fun b hb ↦ bytes_congr (h b ?_) _ _)
  exact List.mem_append_right _ hb

/-! ## The order of the buffers -/

theorem advance_mod {n : Nat} (hn : 0 < n) (k : Nat) : advance n (k % n) = (k + 1) % n := by
  have hlt := Nat.mod_lt k hn
  rw [← Circular.next_mod hn, advance, Circular.next]
  exact ite_congr (propext (by omega)) (fun _ ↦ rfl) fun _ ↦ rfl

/-- Both sides count the same buffers. -/
structure Ordered (w : UciDev) : Prop where
  nrTrbs_eq : w.nrTrbs = w.descriptors + 1
  ring_eq : w.ring = Circular.places w.nrTrbs w.got.length w.queued
  got_le : w.got.length ≤ w.queued
  room : w.queued ≤ w.got.length + w.descriptors
  rpTrb_eq : w.rpTrb = w.got.length % w.nrTrbs
  wpTrb_eq : w.copies = true ∨ w.queueInbound ≠ none → w.wpTrb = w.queued % w.nrTrbs
  opening : ∀ i, w.queueInbound = some i → w.queued + i = w.descriptors ∧
    w.finished = 0 ∧ w.reader = .idle
  paged : w.copies = false → w.bufs.map UciBuf.nrTrb? =
    (Circular.places w.nrTrbs w.finished w.got.length).map some
  finished_le : w.copies = false → w.finished ≤ w.got.length
  returned : w.copies = false → w.queueInbound = none →
    w.queued = w.descriptors + w.finished
  copied : w.copies = true → ∀ b ∈ w.bufs, b.nrTrb? = none

/-- What is to be read is in none of the buffers that the modem has. -/
theorem Ordered.not_mem_ring (h : w.Ordered) {b : UciBuf} (hb : b ∈ w.bufs) {i : Nat}
    (hi : b.nrTrb? = some i) : i ∉ w.ring := by
  cases hc : w.copies with
  | true => exact absurd (hi.symm.trans (h.copied hc b hb)) (by simp)
  | false =>
    have hmem : some i ∈ (Circular.places w.nrTrbs w.finished w.got.length).map some := by
      rw [← h.paged hc, ← hi]
      exact List.mem_map_of_mem hb
    obtain ⟨j, hj, hji⟩ := List.mem_map.mp hmem
    obtain rfl := Option.some.inj hji
    rw [h.ring_eq]
    refine Circular.not_mem_places ?_ hj
    rw [h.nrTrbs_eq]
    cases hq : w.queueInbound with
    | none => have := h.returned hc hq; omega
    | some k => have := (h.opening k hq).1; omega

/-- The next buffer in the order of the array is queued. -/
theorem Ordered.queueNext (h : w.Ordered) (hroom : w.queued < w.got.length + w.descriptors)
    (hcount : w.copies = true ∨ w.queueInbound ≠ none) {q : Option Nat}
    (hq : ∀ i, q = some i → w.queued + 1 + i = w.descriptors ∧ w.finished = 0 ∧ w.reader = .idle)
    (hpaged : w.copies = false → q ≠ none) : { w.queueNext with queueInbound := q }.Ordered where
  nrTrbs_eq := h.nrTrbs_eq
  ring_eq := by
    show w.ring ++ [w.wpTrb] = Circular.places w.nrTrbs w.got.length (w.queued + 1)
    rw [Circular.places_concat h.got_le, h.wpTrb_eq hcount, h.ring_eq]
  got_le := Nat.le_succ_of_le h.got_le
  room := hroom
  rpTrb_eq := h.rpTrb_eq
  wpTrb_eq := fun _ ↦ by
    show advance w.nrTrbs w.wpTrb = (w.queued + 1) % w.nrTrbs
    rw [h.wpTrb_eq hcount]
    exact advance_mod (h.nrTrbs_eq ▸ Nat.succ_pos _) _
  opening := hq
  paged := h.paged
  finished_le := h.finished_le
  returned := fun hc hn ↦ absurd hn (hpaged hc)
  copied := h.copied

theorem refill_eq (w : UciDev) (n : Nat) :
    ∃ ring queued wpTrb, w.refill n = { w with ring, queued, wpTrb } := by
  induction n generalizing w with
  | zero => exact ⟨_, _, _, rfl⟩
  | succ n ih =>
    obtain ⟨ring, queued, wpTrb, he⟩ := ih w.queueNext
    exact ⟨ring, queued, wpTrb, he⟩

theorem Ordered.refill (h : w.Ordered) (hc : w.copies = true) (hq : w.queueInbound = none) {n : Nat}
    (hn : w.queued + n ≤ w.got.length + w.descriptors) : (w.refill n).Ordered := by
  induction n generalizing w with
  | zero => exact h
  | succ n ih =>
    have hnext : w.queueNext.Ordered :=
      h.queueNext (q := w.queueInbound) (by omega) (.inl hc) (fun i hi ↦ by simp [hq] at hi)
        fun hc' ↦ by simp [hc] at hc'
    refine ih hnext hc hq ?_
    show w.queued + 1 + n ≤ w.got.length + w.descriptors
    omega

/-- How many descriptors are free. -/
theorem Ordered.free (h : w.Ordered) :
    w.queued + w.mhiGetNoFreeDescriptors = w.got.length + w.descriptors := by
  have hle := h.got_le
  have hroom := h.room
  rw [mhiGetNoFreeDescriptors, h.ring_eq, Circular.length_places]
  omega

/-- The buffer that comes back is the one that `mhi_dl_xfer_cb` has come to. -/
theorem Ordered.head_eq (h : w.Ordered) {nrTrb : Nat} {ring : List Nat}
    (hr : w.ring = nrTrb :: ring) :
    nrTrb = w.rpTrb ∧ w.got.length < w.queued ∧
      ring = Circular.places w.nrTrbs (w.got.length + 1) w.queued := by
  have hring := h.ring_eq
  have hlt : w.got.length < w.queued := by
    by_contra hge
    have hlen := congrArg List.length hring
    rw [hr, Circular.length_places, List.length_cons] at hlen
    omega
  rw [hr, Circular.places_cons hlt, List.cons.injEq] at hring
  exact ⟨hring.1.trans h.rpTrb_eq.symm, hlt, hring.2⟩

/-- A buffer is put into the list as it is. -/
theorem Ordered.arrive (h : w.Ordered) {nrTrb : Nat} {ring : List Nat}
    (hr : w.ring = nrTrb :: ring) (hc : w.copies = false) (chunk : List UInt8) (bytesXferd : Nat) :
    { w with
      ring, got := w.got ++ [chunk], rpTrb := advance w.nrTrbs w.rpTrb
      pending := w.pending ++ [UciBuf.page w.rpTrb bytesXferd] }.Ordered := by
  obtain ⟨-, hlt, hring⟩ := h.head_eq hr
  have hlen : (w.got ++ [chunk]).length = w.got.length + 1 := by
    rw [List.length_append, List.length_singleton]
  have hroom := h.room
  refine ⟨h.nrTrbs_eq, ?_, ?_, ?_, ?_, h.wpTrb_eq, h.opening, fun _ ↦ ?_, fun _ ↦ ?_, h.returned,
    fun hc' ↦ absurd (hc.symm.trans hc') (by simp)⟩ <;> simp only [hlen]
  · exact hring
  · exact hlt
  · omega
  · rw [h.rpTrb_eq]
    exact advance_mod (h.nrTrbs_eq ▸ Nat.succ_pos _) _
  · rw [Circular.places_concat (h.finished_le hc), List.map_append, ← h.paged hc, bufs, bufs,
      ← List.append_assoc, List.map_append, h.rpTrb_eq]
    rfl
  · exact Nat.le_succ_of_le (h.finished_le hc)

/-- A buffer comes back, of which a copy will be made. -/
theorem Ordered.arrive_copy (h : w.Ordered) {nrTrb : Nat} {ring : List Nat}
    (hr : w.ring = nrTrb :: ring) (hc : w.copies = true) (chunk : List UInt8) :
    { w with ring, got := w.got ++ [chunk], rpTrb := advance w.nrTrbs w.rpTrb }.Ordered := by
  obtain ⟨-, hlt, hring⟩ := h.head_eq hr
  have hlen : (w.got ++ [chunk]).length = w.got.length + 1 := by
    rw [List.length_append, List.length_singleton]
  have hroom := h.room
  refine ⟨h.nrTrbs_eq, ?_, ?_, ?_, ?_, h.wpTrb_eq, h.opening,
    fun hc' ↦ absurd (hc.symm.trans hc') (by simp), fun hc' ↦ absurd (hc.symm.trans hc') (by simp),
    h.returned, h.copied⟩ <;> simp only [hlen]
  · exact hring
  · exact hlt
  · omega
  · rw [h.rpTrb_eq]
    exact advance_mod (h.nrTrbs_eq ▸ Nat.succ_pos _) _

theorem Ordered.push_copy (h : w.Ordered) (hc : w.copies = true) (data : Nat → UInt8) (len : Nat) :
    { w with pending := w.pending ++ [UciBuf.copy data len] }.Ordered := by
  refine ⟨h.nrTrbs_eq, h.ring_eq, h.got_le, h.room, h.rpTrb_eq, h.wpTrb_eq, h.opening,
    fun hc' ↦ absurd (hc.symm.trans hc') (by simp), fun hc' ↦ absurd (hc.symm.trans hc') (by simp),
    h.returned, fun _ b hb ↦ ?_⟩
  rw [bufs, ← List.append_assoc] at hb
  rcases List.mem_append.mp hb with hb | hb
  · exact h.copied hc b hb
  · rw [List.mem_singleton.mp hb]
    rfl

/-- A copy is put into the list, and the modem gets new buffers. -/
theorem Ordered.putPending (h : w.Ordered) (hc : w.copies = true)
    (hkeep : w.refCount ≠ 1 ∨ w.queueInbound ≠ none) (rpTrb bytesXferd accepted : Nat) :
    (w.putPending rpTrb bytesXferd true accepted).Ordered ∧
      ∃ ring queued wpTrb, w.putPending rpTrb bytesXferd true accepted =
        { w with
          ring, queued, wpTrb, pending := w.pending ++ [.copy (w.pages rpTrb) bytesXferd] } := by
  have hskip : ¬ (w.refCount = 1 ∧ w.queueInbound = none) := fun hs ↦
    hkeep.elim (absurd hs.1) (absurd hs.2)
  by_cases hq : w.queueInbound = none
  · have hput : w.putPending rpTrb bytesXferd true accepted =
        { w.refill (min accepted w.mhiGetNoFreeDescriptors) with
          pending := (w.refill (min accepted w.mhiGetNoFreeDescriptors)).pending ++
            [.copy (w.pages rpTrb) bytesXferd] } := by
      simp only [UciDev.putPending, hc, if_true, hskip, if_pos hq]
      rfl
    have hfill := h.refill hc hq (n := min accepted w.mhiGetNoFreeDescriptors)
      (Nat.le_trans (Nat.add_le_add_left (Nat.min_le_right _ _) _) (Nat.le_of_eq h.free))
    obtain ⟨ring, queued, wpTrb, he⟩ := refill_eq w (min accepted w.mhiGetNoFreeDescriptors)
    rw [hput]
    rw [he] at hfill ⊢
    exact ⟨hfill.push_copy hc _ _, ring, queued, wpTrb, rfl⟩
  · have hput : w.putPending rpTrb bytesXferd true accepted =
        { w with pending := w.pending ++ [.copy (w.pages rpTrb) bytesXferd] } := by
      simp only [UciDev.putPending, hc, if_true, hskip, if_neg hq]
      rfl
    rw [hput]
    exact ⟨h.push_copy hc _ _, w.ring, w.queued, w.wpTrb, rfl⟩

/-- What a step has to be like if nothing is to be lost: what comes back is neither empty nor too
long, there is memory for the copy and somebody for whom to make it, and a buffer that is to be
queued is accepted. -/
def careful (w : UciDev) : Act → Bool
  | .complete bytesXferd notConn alloc _ =>
    !notConn && decide (0 < bytesXferd ∧ bytesXferd ≤ w.mtu) &&
      (!w.copies || alloc && decide (w.refCount ≠ 1 ∨ w.queueInbound ≠ none))
  | .recycle accepted => accepted
  | .disable => false
  | _ => true

/-- `copy_to_user` has copied all or nothing. -/
def whole (w : UciDev) : Act → Bool
  | .copyToUser left =>
    match w.reader with
    | .copy count => left = 0 || left = min count w.rxSize
    | _ => true
  | _ => true

/-- What a step leaves alone that only brings a buffer. -/
structure Brings (w w' : UciDev) (b : UciBuf) : Prop where
  pages : w'.pages = w.pages
  curBuf : w'.curBuf = w.curBuf
  rxSize : w'.rxSize = w.rxSize
  rxError : w'.rxError = w.rxError
  reader : w'.reader = w.reader
  enabled : w'.enabled = w.enabled
  delivered : w'.delivered = w.delivered
  pending : w'.pending = w.pending ++ [b]
  got : w'.got = w.got ++ [w.bytes b 0 b.len]

theorem Ordered.complete (h : w.Ordered) {bytesXferd accepted : Nat} {notConn alloc : Bool}
    (hcare : w.careful (.complete bytesXferd notConn alloc accepted) = true)
    (hs : step w (.complete bytesXferd notConn alloc accepted) = some w') :
    w'.Ordered ∧ ∃ b, Brings w w' b := by
  simp only [careful, Bool.and_eq_true, Bool.not_eq_true', decide_eq_true_eq, Bool.or_eq_true]
    at hcare
  obtain ⟨⟨rfl, hpos, hle⟩, hkeep⟩ := hcare
  cases hr : w.ring with
  | nil => simp [step, hr] at hs
  | cons nrTrb ring =>
    obtain ⟨rfl, -⟩ := h.head_eq hr
    have hw' : { w with
        ring, got := w.got ++ [w.bytes (.page w.rpTrb bytesXferd) 0 bytesXferd]
        rpTrb := advance w.nrTrbs w.rpTrb }.putPending w.rpTrb bytesXferd alloc accepted = w' := by
      simp only [step, hr, Option.some.injEq] at hs
      rw [← hs, mhiDlXferCb]
      simp [Nat.not_lt.mpr hle, Nat.pos_iff_ne_zero.mp hpos]
    rw [← hw']
    rcases Bool.eq_false_or_eq_true w.copies with hc | hc
    · obtain ⟨rfl, hkeep'⟩ : alloc = true ∧ (w.refCount ≠ 1 ∨ w.queueInbound ≠ none) := by
        simpa [hc] using hkeep
      have harrive := h.arrive_copy hr hc (w.bytes (.page w.rpTrb bytesXferd) 0 bytesXferd)
      obtain ⟨hord, ring', queued, wpTrb, he⟩ :=
        harrive.putPending hc hkeep' w.rpTrb bytesXferd accepted
      refine ⟨hord, .copy (w.pages w.rpTrb) bytesXferd, ?_⟩
      rw [he]
      exact ⟨rfl, rfl, rfl, rfl, rfl, rfl, rfl, rfl, rfl⟩
    · rw [UciDev.putPending, if_neg (by simp [hc])]
      exact ⟨h.arrive hr hc _ bytesXferd, .page w.rpTrb bytesXferd, rfl, rfl, rfl, rfl, rfl, rfl,
        rfl, rfl, rfl⟩

/-- A callback gives the modem as many buffers as there is room for. -/
theorem length_refill (w : UciDev) (n : Nat) : (w.refill n).ring.length = w.ring.length + n := by
  induction n generalizing w with
  | zero => rfl
  | succ n ih =>
    rw [refill, ih, queueNext, mhiQueueTransfer, List.length_append, List.length_singleton]
    omega

/-- Where copies are made, the modem has all the buffers again behind the callback. -/
theorem Ordered.complete_full (h : w.Ordered) (hc : w.copies = true) (hq : w.queueInbound = none)
    {bytesXferd accepted : Nat} {notConn alloc : Bool} (haccepted : w.descriptors ≤ accepted)
    (hcare : w.careful (.complete bytesXferd notConn alloc accepted) = true)
    (hs : step w (.complete bytesXferd notConn alloc accepted) = some w') :
    w'.ring.length = w.descriptors := by
  simp only [careful, Bool.and_eq_true, Bool.not_eq_true', decide_eq_true_eq] at hcare
  obtain ⟨⟨rfl, hpos, hle⟩, -⟩ := hcare
  cases hr : w.ring with
  | nil => simp [step, hr] at hs
  | cons nrTrb ring =>
    obtain ⟨rfl, hlt, hring⟩ := h.head_eq hr
    have hlen : ring.length ≤ w.descriptors := by
      rw [hring, Circular.length_places]
      have hroom := h.room
      omega
    simp only [step, hr, Option.some.injEq] at hs
    rw [← hs, mhiDlXferCb]
    simp only [ne_eq, not_true_eq_false, if_false, Bool.false_eq_true, Nat.not_lt.mpr hle,
      Nat.pos_iff_ne_zero.mp hpos, or_self, UciDev.putPending, hc, if_true, hq, length_refill,
      mhiGetNoFreeDescriptors]
    omega

/-- A step in which only the place of the reader changes. -/
theorem Ordered.of_bufs (h : w.Ordered) {reader : UciReader} {curBuf : Option UciBuf}
    {pending : List UciBuf} (hbufs : curBuf.toList ++ pending = w.bufs)
    (hq : w.queueInbound = none) (rxSize : Nat) (delivered : List UInt8) :
    { w with reader, curBuf, pending, rxSize, delivered }.Ordered where
  nrTrbs_eq := h.nrTrbs_eq
  ring_eq := h.ring_eq
  got_le := h.got_le
  room := h.room
  rpTrb_eq := h.rpTrb_eq
  wpTrb_eq := h.wpTrb_eq
  opening := fun i hi ↦ absurd (hq.symm.trans hi) (by simp)
  paged := fun hc ↦ (congrArg (List.map UciBuf.nrTrb?) hbufs).trans (h.paged hc)
  finished_le := h.finished_le
  returned := h.returned
  copied := fun hc b hb ↦ h.copied hc b (hbufs ▸ hb)

/-- The reader has finished a buffer, and the modem gets the next one. -/
theorem Ordered.recycle (h : w.Ordered) {b : UciBuf} (hq : w.queueInbound = none)
    (hb : w.curBuf = some b) (hen : w.enabled = true) : (w.readRecycle b true).Ordered := by
  have hbufs : w.bufs = b :: w.pending := by rw [bufs, hb]; rfl
  rcases Bool.eq_false_or_eq_true w.copies with hc | hc
  · -- a copy is only freed
    have hnone := h.copied hc b (by rw [hbufs]; exact List.mem_cons_self)
    obtain ⟨data, len, rfl⟩ : ∃ data len, b = .copy data len := by
      cases b with
      | page nrTrb len => exact absurd hnone (by simp [UciBuf.nrTrb?])
      | copy data len => exact ⟨data, len, rfl⟩
    refine ⟨h.nrTrbs_eq, h.ring_eq, h.got_le, h.room, h.rpTrb_eq, h.wpTrb_eq,
      fun i hi ↦ absurd (hq.symm.trans hi) (by simp),
      fun hc' ↦ absurd (hc.symm.trans hc') (by simp),
      fun hc' ↦ absurd (hc.symm.trans hc') (by simp),
      fun hc' ↦ absurd (hc.symm.trans hc') (by simp),
      fun _ b' hb' ↦ h.copied hc b' ?_⟩
    rw [hbufs]
    exact List.mem_cons_of_mem _ hb'
  · have hret := h.returned hc hq
    have hroom := h.room
    have hpaged := h.paged hc
    have hlt : w.finished < w.got.length := by
      by_contra hge
      have hlen := congrArg List.length hpaged
      rw [hbufs, List.length_map, List.length_map, Circular.length_places, List.length_cons] at hlen
      omega
    rw [hbufs, Circular.places_cons hlt, List.map_cons, List.map_cons, List.cons.injEq] at hpaged
    obtain ⟨len, rfl⟩ : ∃ len, b = .page (w.finished % w.nrTrbs) len := by
      cases b with
      | page nrTrb len => exact ⟨len, by rw [Option.some.inj hpaged.1]⟩
      | copy data len => exact absurd hpaged.1 (by simp [UciBuf.nrTrb?])
    have hw' : w.readRecycle (.page (w.finished % w.nrTrbs) len) true =
        { w with
          curBuf := none, reader := .idle, finished := w.finished + 1, queued := w.queued + 1
          ring := w.ring ++ [w.queued % w.nrTrbs] } := by
      have hbefore := Circular.before_mod w.descriptors w.finished
      rw [← hret] at hbefore
      simp only [readRecycle, hen, Bool.true_and, if_true, mhiQueueTransfer, h.nrTrbs_eq,
        Nat.add_sub_cancel, hbefore]
    rw [hw']
    refine ⟨h.nrTrbs_eq, ?_, Nat.le_succ_of_le h.got_le, ?_, h.rpTrb_eq, fun hcount ↦ ?_,
      fun i hi ↦ absurd (hq.symm.trans hi) (by simp), fun _ ↦ hpaged.2, fun _ ↦ hlt, fun _ _ ↦ ?_,
      fun hc' ↦ absurd (hc.symm.trans hc') (by simp)⟩
    · show w.ring ++ [w.queued % w.nrTrbs] = Circular.places w.nrTrbs w.got.length (w.queued + 1)
      rw [Circular.places_concat h.got_le, h.ring_eq]
    · show w.queued + 1 ≤ w.got.length + w.descriptors
      omega
    · exact hcount.elim (fun hc' ↦ absurd (hc.symm.trans hc') (by simp)) (fun hq' ↦ absurd hq hq')
    · show w.queued + 1 = w.descriptors + (w.finished + 1)
      omega

/-- Nothing is lost on the way to the user. -/
structure Streams (w : UciDev) : Prop where
  rxSize_le : ∀ b, w.curBuf = some b → w.rxSize ≤ b.len
  rxSize_eq : w.reader = .recycle → w.rxSize = 0
  rxError_eq : w.rxError = 0
  enabled_eq : w.enabled = true
  stream : w.delivered ++ w.unread = w.got.flatten

theorem Streams.brings (h : w.Streams) {b : UciBuf} (hb : Brings w w' b) : w'.Streams := by
  have hbytes : ∀ c start len, w'.bytes c start len = w.bytes c start len :=
    fun c ↦ bytes_congr fun i _ ↦ congrFun hb.pages i
  have hrest : w'.rest = w.rest := by
    rw [rest, rest, hb.curBuf, hb.rxSize]
    cases w.curBuf with
    | none => rfl
    | some c => exact hbytes c _ _
  have hunread : w'.unread = w.unread ++ w.bytes b 0 b.len := by
    rw [unread, unread, hrest, hb.pending, List.flatMap_append, ← List.append_assoc]
    simp only [hbytes, List.flatMap_singleton]
  refine ⟨?_, ?_, hb.rxError.trans h.rxError_eq, hb.enabled.trans h.enabled_eq, ?_⟩
  · rw [hb.curBuf, hb.rxSize]
    exact h.rxSize_le
  · rw [hb.reader, hb.rxSize]
    exact h.rxSize_eq
  · rw [hunread, hb.delivered, hb.got, List.flatten_append, ← h.stream, List.append_assoc]
    simp only [List.flatten_cons, List.flatten_nil, List.append_nil]

/-- The reader takes the next buffer. -/
theorem Streams.take (h : w.Streams) {b : UciBuf} {pending : List UciBuf} (hcur : w.curBuf = none)
    (hpending : w.pending = b :: pending) (count : Nat) :
    { w with curBuf := some b, rxSize := b.len, pending, reader := .copy count }.Streams := by
  refine ⟨fun c hc ↦ ?_, fun hr ↦ absurd hr (by simp), h.rxError_eq, h.enabled_eq, ?_⟩
  · obtain rfl : b = c := Option.some.inj hc
    exact Nat.le_refl _
  · show w.delivered ++ (w.bytes b (b.len - b.len) b.len ++
      pending.flatMap fun b ↦ w.bytes b 0 b.len) = w.got.flatten
    rw [← h.stream, unread, rest, hcur, hpending, List.flatMap_cons, Nat.sub_self, List.nil_append]

theorem readCopy_zero (w : UciDev) (b : UciBuf) (count : Nat) :
    w.readCopy b count 0 = { w with
      delivered := w.delivered ++ w.bytes b (b.len - w.rxSize) (min count w.rxSize)
      rxSize := w.rxSize - min count w.rxSize
      reader := if w.rxSize - min count w.rxSize = 0 then .recycle else .idle } := rfl

/-- The reader copies a piece of the buffer. -/
theorem Streams.readCopy (h : w.Streams) {b : UciBuf} (hcur : w.curBuf = some b) (count : Nat) :
    (w.readCopy b count 0).Streams := by
  have hle := h.rxSize_le b hcur
  have hmin := Nat.min_le_right count w.rxSize
  refine ⟨fun c hc ↦ ?_, fun hr ↦ ?_, h.rxError_eq, h.enabled_eq, ?_⟩
  · exact Nat.le_trans (Nat.sub_le _ _) (h.rxSize_le c hc)
  · show w.rxSize - min count w.rxSize = 0
    by_contra hne
    simp [readCopy_zero, if_neg hne] at hr
  · have hrest : w.rest = w.bytes b (b.len - w.rxSize) (min count w.rxSize) ++
        (w.readCopy b count 0).rest := by
      have hsplit : w.rxSize = min count w.rxSize + (w.rxSize - min count w.rxSize) := by omega
      have hstart : b.len - (w.rxSize - min count w.rxSize) =
          b.len - w.rxSize + min count w.rxSize := by omega
      have hrest' : (w.readCopy b count 0).rest =
          w.bytes b (b.len - (w.rxSize - min count w.rxSize)) (w.rxSize - min count w.rxSize) := by
        simp only [rest, readCopy_zero, hcur]
        rfl
      rw [hrest', hstart, ← bytes_add, ← hsplit, rest, hcur]
    have hunread : w.unread = w.bytes b (b.len - w.rxSize) (min count w.rxSize) ++
        (w.readCopy b count 0).unread := by
      rw [unread, unread, hrest, List.append_assoc]
      rfl
    show (w.delivered ++ w.bytes b (b.len - w.rxSize) (min count w.rxSize)) ++
      (w.readCopy b count 0).unread = w.got.flatten
    rw [← h.stream, hunread, List.append_assoc]

/-- The reader copies nothing. -/
theorem Streams.readFault (h : w.Streams) (b : UciBuf) {count left : Nat} (hne : left ≠ 0)
    (hleft : left = min count w.rxSize) : (w.readCopy b count left).Streams := by
  have hnil : w.bytes b (b.len - w.rxSize) 0 = [] := by cases b <;> rfl
  rw [UciDev.readCopy, ← hleft, Nat.sub_self, hnil, List.append_nil]
  simp only [if_pos hne]
  exact ⟨h.rxSize_le, fun hr ↦ absurd hr (by simp), h.rxError_eq, h.enabled_eq, h.stream⟩

/-- The reader has finished the buffer. -/
theorem Streams.readRecycle (h : w.Streams) {b : UciBuf} (hcur : w.curBuf = some b)
    (hr : w.reader = .recycle) (accepted : Bool) : (w.readRecycle b accepted).Streams := by
  have hrest : w.rest = [] := by
    rw [rest, hcur, h.rxSize_eq hr]
    cases b with
    | page | copy => rfl
  have hsame : ∃ ring queued, w.readRecycle b accepted =
      { w with curBuf := none, reader := .idle, finished := w.finished + 1, ring, queued } := by
    cases b with
    | page nrTrb len =>
      rw [UciDev.readRecycle]
      split <;> exact ⟨_, _, rfl⟩
    | copy data len => exact ⟨_, _, rfl⟩
  obtain ⟨ring, queued, he⟩ := hsame
  rw [he]
  refine ⟨fun c hc ↦ absurd hc (by simp), fun hr ↦ absurd hr (by simp), h.rxError_eq,
    h.enabled_eq, ?_⟩
  rw [← h.stream, unread, unread, hrest]
  rfl

/-! ## Steps -/

theorem queue_inv (h : step w .queue = some w') :
    ∃ i, w.queueInbound = some (i + 1) ∧ { w.queueNext with queueInbound := some i } = w' := by
  rw [UciDev.step] at h
  split at h
  · rename_i i hq
    exact ⟨i, hq, Option.some.inj h⟩
  · exact absurd h (by simp)

theorem take_inv {count : Nat} (h : w.readTake count = some w') :
    { w with reader := .copy count } = w' ∨
      ∃ b pending, w.curBuf = none ∧ w.pending = b :: pending ∧
        { w with curBuf := some b, rxSize := b.len, pending, reader := .copy count } = w' := by
  rw [readTake] at h
  split at h
  · exact .inl (Option.some.inj h)
  · exact absurd h (by simp)
  · rename_i b pending hcur hp
    exact .inr ⟨b, pending, hcur, hp, Option.some.inj h⟩

theorem copyToUser_inv {left : Nat} (h : step w (.copyToUser left) = some w') :
    ∃ count b, w.reader = .copy count ∧ w.curBuf = some b ∧ left ≤ min count w.rxSize ∧
      w.readCopy b count left = w' := by
  rw [UciDev.step] at h
  split at h
  · rename_i count b hr hcur
    obtain ⟨hle, rfl⟩ := Trace.of_guard h
    exact ⟨count, b, hr, hcur, hle, rfl⟩
  · exact absurd h (by simp)

/-- What copying leaves alone. -/
theorem readCopy_eq (w : UciDev) (b : UciBuf) (count left : Nat) :
    ∃ reader rxSize delivered, w.readCopy b count left = { w with reader, rxSize, delivered } := by
  rw [readCopy]
  dsimp only
  split <;> exact ⟨_, _, _, rfl⟩

theorem recycle_inv {accepted : Bool} (h : step w (.recycle accepted) = some w') :
    w.reader = .recycle ∧ ∃ b, w.curBuf = some b ∧ w.readRecycle b accepted = w' := by
  rw [UciDev.step] at h
  split at h
  · rename_i b hr hcur
    exact ⟨hr, b, hcur, Option.some.inj h⟩
  · exact absurd h (by simp)

theorem Ordered.queueInbound_of_busy (h : w.Ordered) (hr : w.reader ≠ .idle) :
    w.queueInbound = none := by
  cases hq : w.queueInbound with
  | none => rfl
  | some i => exact absurd (h.opening i hq).2.2 hr

theorem Ordered.step (h : w.Ordered) (hen : w.enabled = true) (hcare : w.careful a = true)
    (hs : step w a = some w') : w'.Ordered := by
  cases a with
  | complete => exact (h.complete hcare hs).1
  | queue =>
    obtain ⟨i, hq, rfl⟩ := queue_inv hs
    obtain ⟨hcount, hfin, hidle⟩ := h.opening (i + 1) hq
    have hroom := h.got_le
    refine h.queueNext (by omega) (.inr (by simp [hq])) (fun j hj ↦ ?_) (by simp)
    obtain rfl := Option.some.inj hj
    exact ⟨by omega, hfin, hidle⟩
  | opened =>
    obtain ⟨hq, rfl⟩ := Trace.of_guard hs
    obtain ⟨hcount, hfin, -⟩ := h.opening 0 hq
    refine ⟨h.nrTrbs_eq, h.ring_eq, h.got_le, h.room, h.rpTrb_eq, fun _ ↦ ?_, fun i hi ↦ ?_,
      h.paged, h.finished_le, fun _ _ ↦ ?_, h.copied⟩
    · exact h.wpTrb_eq (.inr (by simp [hq]))
    · exact absurd hi (by simp)
    · show w.queued = w.descriptors + w.finished
      omega
  | scribble | attach | detach =>
    obtain ⟨-, rfl⟩ := Trace.of_guard hs
    exact ⟨h.nrTrbs_eq, h.ring_eq, h.got_le, h.room, h.rpTrb_eq, h.wpTrb_eq, h.opening, h.paged,
      h.finished_le, h.returned, h.copied⟩
  | take count =>
    obtain ⟨⟨hq, -⟩, htake⟩ := Option.ite_none_right_eq_some.mp hs
    obtain rfl | ⟨b, pending, hcur, hp, rfl⟩ := take_inv htake
    · exact h.of_bufs rfl hq _ _
    · exact h.of_bufs (by rw [bufs, hcur, hp]; rfl) hq _ _
  | copyToUser left =>
    obtain ⟨count, b, hr, -, -, rfl⟩ := copyToUser_inv hs
    have hq := h.queueInbound_of_busy (by simp [hr])
    obtain ⟨_, _, _, he⟩ := readCopy_eq w b count left
    rw [he]
    exact h.of_bufs rfl hq _ _
  | recycle accepted =>
    obtain rfl : accepted = true := hcare
    obtain ⟨hr, b, hcur, rfl⟩ := recycle_inv hs
    exact h.recycle (h.queueInbound_of_busy (by simp [hr])) hcur hen
  | disable => exact absurd hcare (by simp [careful])

/-- The modem writes only to its own buffers. -/
theorem Streams.scribble (h : w.Streams) (ho : w.Ordered) {nrTrb : Nat} (hmem : nrTrb ∈ w.ring)
    (data : Nat → UInt8) : { w with pages := Function.update w.pages nrTrb data }.Streams := by
  refine ⟨h.rxSize_le, h.rxSize_eq, h.rxError_eq, h.enabled_eq, ?_⟩
  have hunread : { w with pages := Function.update w.pages nrTrb data }.unread = w.unread := by
    refine unread_congr rfl rfl rfl fun b hb i hi ↦
      Function.update_of_ne (fun heq ↦ ?_) data w.pages
    exact ho.not_mem_ring hb hi (heq ▸ hmem)
  rw [hunread]
  exact h.stream

theorem Streams.step (h : w.Streams) (ho : w.Ordered) (hcare : w.careful a = true)
    (hwhole : w.whole a = true) (hs : step w a = some w') : w'.Streams := by
  cases a with
  | scribble nrTrb data =>
    obtain ⟨hmem, rfl⟩ := Trace.of_guard hs
    exact h.scribble ho hmem data
  | complete =>
    obtain ⟨-, b, hb⟩ := ho.complete hcare hs
    exact h.brings hb
  | queue =>
    obtain ⟨i, -, rfl⟩ := queue_inv hs
    exact ⟨h.rxSize_le, h.rxSize_eq, h.rxError_eq, h.enabled_eq, h.stream⟩
  | opened | attach | detach =>
    obtain ⟨-, rfl⟩ := Trace.of_guard hs
    exact ⟨h.rxSize_le, h.rxSize_eq, h.rxError_eq, h.enabled_eq, h.stream⟩
  | take count =>
    obtain ⟨-, htake⟩ := Option.ite_none_right_eq_some.mp hs
    obtain rfl | ⟨b, pending, hcur, hp, rfl⟩ := take_inv htake
    · exact ⟨h.rxSize_le, fun hr ↦ absurd hr (by simp), h.rxError_eq, h.enabled_eq, h.stream⟩
    · exact h.take hcur hp count
  | copyToUser left =>
    obtain ⟨count, b, hr, hcur, -, rfl⟩ := copyToUser_inv hs
    by_cases hleft : left = 0
    · rw [hleft]
      exact h.readCopy hcur count
    · refine h.readFault b hleft ?_
      simpa [whole, hr, hleft] using hwhole
  | recycle accepted =>
    obtain ⟨hr, b, hcur, rfl⟩ := recycle_inv hs
    exact h.readRecycle hcur hr accepted
  | disable => exact absurd hcare (by simp [careful])

theorem init_ordered (s : Setup) (pages : Nat → Nat → UInt8) : (init s pages).Ordered := by
  refine ⟨rfl, rfl, Nat.le_refl _, Nat.zero_le _, rfl, fun _ ↦ rfl, fun i hi ↦ ?_, fun _ ↦ rfl,
    fun _ ↦ Nat.le_refl _, fun _ hq ↦ absurd hq (by simp [init]), fun _ b hb ↦ ?_⟩
  · obtain rfl := Option.some.inj hi
    exact ⟨Nat.zero_add _, rfl, rfl⟩
  · exact absurd hb (by simp [bufs, init])

theorem init_streams (s : Setup) (pages : Nat → Nat → UInt8) : (init s pages).Streams :=
  ⟨fun b hb ↦ absurd hb (by simp [init]), fun _ ↦ rfl, rfl, rfl, rfl⟩

theorem Ordered.length_bufs (h : w.Ordered) (hc : w.copies = false) :
    w.bufs.length = w.got.length - w.finished := by
  have hlen := congrArg List.length (h.paged hc)
  rwa [List.length_map, List.length_map, Circular.length_places] at hlen

/-- **A device is a stream of bytes.**  Whatever the modem, its callbacks and a reader do at the
same time, as long as the steps are `careful` and `whole`: what was copied to the user and what is
still to be read is what the modem has sent, byte by byte, and `rx_error` is not set.  None of the
buffers gets lost once the device is open.  Where they are not copied, those that the modem has and
those that wait for a reader are as many as there are descriptors; where they are, the modem has as
many as there are descriptors behind each callback in which all are accepted. -/
theorem reads_stream (s : Setup) (pages : Nat → Nat → UInt8) (as : List Act)
    (hcare : Trace.always step (fun w a ↦ w.careful a && w.whole a) (init s pages) as = true)
    (h : Trace.run step (init s pages) as = some w) :
    w.delivered ++ w.unread = w.got.flatten ∧ w.rxError = 0 ∧
      (w.queueInbound = none →
        (w.copies = false → w.ring.length + w.bufs.length = w.descriptors) ∧
          (w.copies = true → ∀ bytesXferd notConn alloc accepted w', w.descriptors ≤ accepted →
            w.careful (.complete bytesXferd notConn alloc accepted) = true →
            step w (.complete bytesXferd notConn alloc accepted) = some w' →
            w'.ring.length = w.descriptors)) := by
  obtain ⟨ho, hs⟩ := Trace.run_invariant_of (I := fun w ↦ w.Ordered ∧ w.Streams)
    (fun u a v hC hI hs ↦ by
      obtain ⟨hcare, hwhole⟩ := Bool.and_eq_true_iff.mp hC
      exact ⟨hI.1.step hI.2.enabled_eq hcare hs, hI.2.step hI.1 hcare hwhole hs⟩)
    ⟨init_ordered s pages, init_streams s pages⟩ hcare h
  refine ⟨hs.stream, hs.rxError_eq, fun hq ↦ ⟨fun hc ↦ ?_, fun hc _ _ _ _ _ haccepted hcare hs ↦
    ho.complete_full hc hq haccepted hcare hs⟩⟩
  have hret := ho.returned hc hq
  have hfin := ho.finished_le hc
  have hgot := ho.got_le
  rw [ho.length_bufs hc, ho.ring_eq, Circular.length_places]
  omega

def sampleSetup : Setup where
  mtu := 4
  copies := false
  descriptors := 2
  descriptors_pos := Nat.two_pos

/-- Two buffers, of three bytes and of two, of which the first four bytes are read. -/
def sampleActs : List Act :=
  [.queue, .queue, .opened, .attach, .scribble 0 fun k ↦ [7, 8, 9].getD k 0,
    .complete 3 false true 0, .take 2, .copyToUser 0, .scribble 1 fun k ↦ [5, 6].getD k 0, .take 2,
    .copyToUser 0, .complete 2 false true 0, .recycle true, .scribble 2 fun _ ↦ 1, .take 1, .copyToUser 0]

def sampleRead : UciDev :=
  (Trace.run step (init sampleSetup fun _ _ ↦ 0) sampleActs).getD (init sampleSetup fun _ _ ↦ 0)

theorem reads_stream_sample : sampleRead.delivered = [7, 8, 9, 5] ∧
    sampleRead.delivered ++ sampleRead.unread = [7, 8, 9, 5, 6] := by
  have hstream := reads_stream sampleSetup (fun _ _ ↦ 0) sampleActs (w := sampleRead)
    (by decide +kernel) (Trace.eq_some_getD (by decide +kernel))
  exact ⟨by decide +kernel, hstream.1.trans (by decide +kernel)⟩

/-- A reader that gets a part of the first buffer only and reads it again. -/
example : ((Trace.run step (init sampleSetup fun _ _ ↦ 0)
    [.queue, .queue, .opened, .attach, .scribble 0 fun k ↦ [7, 8, 9].getD k 0,
      .complete 3 false true 0, .take 3, .copyToUser 2, .take 3, .copyToUser 0]).map
    (·.delivered)) = some [7, 7, 8, 9] := by
  decide +kernel

end UciDev

end OpenwrtFeed.Mhi
