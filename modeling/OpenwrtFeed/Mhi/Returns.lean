import OpenwrtFeed.Mhi.Transfer

/-!
# What comes back from a channel

What the elements of the two rings hold, and what the client gets back.  `Stored` is the invariant,
on top of `Placed`.

The client's buffers come back in the order in which they were queued, each of them once, whatever
the order in which the threads and the modem take their steps.  What makes it work is that a ring is
full when one place is still free: a buffer's description is read after its place was given up, and
the place is not used again before the next one is given up, too.
-/

set_option autoImplicit false

namespace OpenwrtFeed.Mhi

namespace Chan

variable {β : Type} {c c' : Chan β}

/-! ## What the rings hold -/

/-- What is left to `unmap_single` of a buffer. -/
def mapping (xferType : XferType) (q : Call β × Nat) : Option (Nat × Nat) :=
  if xferType = .dma then none else some (q.2, q.1.len)

/-- What is in the rings, and what has come back. -/
structure Stored (c : Chan β) : Prop where
  bufs : Circular.Keeps c.treRing.elements c.bufInfo
    (c.queued.map fun q ↦ info c.xferType q.1 q.2) c.results.length c.queued.length
  tres : Circular.Keeps c.treRing.elements c.tre
    (c.queued.map fun q ↦ describes c.xferType c.intmod q.1 q.2) c.results.length c.queued.length
  preMapped : c.xferType ≠ .dma → ∀ i, (c.bufInfo i).preMapped = false
  written : .addTre ∈ c.sender.ops → .note ∉ c.sender.ops → ∀ call, c.sender.call = some call →
    c.bufInfo (c.queued.length % c.treRing.elements) = info c.xferType call c.sender.pAddr
  described : .addTre ∈ c.sender.ops → .describe ∉ c.sender.ops →
    ∀ call, c.sender.call = some call → c.tre (c.queued.length % c.treRing.elements) =
      describes c.xferType c.intmod call c.sender.pAddr
  place : .notify ∈ c.reader.ops → .point ∉ c.reader.ops →
    c.reader.place = c.results.length % c.treRing.elements
  fetched : .notify ∈ c.reader.ops → .fetch ∉ c.reader.ops →
    c.reader.bufAddr = (c.queued[c.results.length]?).map fun q ↦ q.1.buf
  results_eq : c.results.map (·.bufAddr) =
    (c.queued.take c.results.length).map fun q ↦ some q.1.buf
  unmapped_eq : c.unmapped = (c.queued.take (c.given .unmap)).filterMap (mapping c.xferType)

/-- Nothing of this depends on where the pointers are, as long as the rings keep their size. -/
theorem Stored.congr (h : c.Stored) (treRing bufRing : MhiRing)
    (hsize : treRing.elements = c.treRing.elements) (owed owed' : List Vote) (enabled toRing : Bool)
    (phase : Phase) (events : List Event) (taken rung : Nat) (counted : Int) :
    Stored { c with
      treRing, bufRing, enabled, toRing, events, taken, rung, counted
      sender := { c.sender with owed }
      reader := { c.reader with phase, owed := owed' } } := by
  constructor
  case bufs => exact hsize ▸ h.bufs
  case tres => exact hsize ▸ h.tres
  case preMapped => exact h.preMapped
  case written => exact hsize ▸ h.written
  case described => exact hsize ▸ h.described
  case place => exact hsize ▸ h.place
  case fetched => exact h.fetched
  case results_eq => exact h.results_eq
  case unmapped_eq => exact h.unmapped_eq

theorem Stored.popSend {op : SendOp} {ops : List SendOp} (h : c.Stored)
    (hops : c.sender.ops = op :: ops) (hnote : .note ≠ op) (hdescribe : .describe ≠ op) :
    Stored { c with sender := { c.sender with ops } } where
  bufs := h.bufs
  tres := h.tres
  preMapped := h.preMapped
  written hmem hnot := by
    refine h.written ?_ ?_ <;> rw [hops]
    · exact List.mem_cons_of_mem op hmem
    · exact List.not_mem_cons_of_ne_of_not_mem hnote hnot
  described hmem hnot := by
    refine h.described ?_ ?_ <;> rw [hops]
    · exact List.mem_cons_of_mem op hmem
    · exact List.not_mem_cons_of_ne_of_not_mem hdescribe hnot
  place := h.place
  fetched := h.fetched
  results_eq := h.results_eq
  unmapped_eq := h.unmapped_eq

/-- The description of a buffer is written to a place that is not in use. -/
theorem Stored.note {ops : List SendOp} (hp : c.Placed) (h : c.Stored)
    (hops : c.sender.ops = .note :: ops) (buf : MhiBufInfo β) (pAddr : Nat) {call : Call β}
    (hcall : c.sender.call = some call) (hbuf : buf = info c.xferType call pAddr) :
    Stored { c with
      bufInfo := Function.update c.bufInfo (c.bufRing.place c.bufRing.wp) buf
      sender := { c.sender with ops, pAddr } } := by
  have hok := hp.sendOk hops
  have hmem : ∀ {x}, x ∈ ops → x ∈ c.sender.ops := fun hx ↦ by
    rw [hops]
    exact List.mem_cons_of_mem _ hx
  have hwp := hp.place_wp (hmem hok.2.2.1) (hmem hok.2.2.2)
  have hroom := hp.room' (hmem hok.2.2.1)
  constructor
  case bufs =>
    show Circular.Keeps _ (Function.update c.bufInfo (c.bufRing.place c.bufRing.wp) buf) _ _ _
    rw [hwp]
    exact h.bufs.update hroom buf
  case tres => exact h.tres
  case preMapped =>
    intro hne i
    show (Function.update c.bufInfo (c.bufRing.place c.bufRing.wp) buf i).preMapped = false
    rw [Function.update_apply]
    split
    · rw [hbuf]
      simpa [info] using hne
    · exact h.preMapped hne i
  case written =>
    intro _ _ call' hcall'
    show Function.update c.bufInfo (c.bufRing.place c.bufRing.wp) buf _ = _
    rw [hwp, Function.update_self, hbuf]
    obtain rfl := Option.some.inj (hcall.symm.trans hcall')
    rfl
  case described => exact fun _ hnot ↦ absurd hok.2.1 hnot
  case place => exact h.place
  case fetched => exact h.fetched
  case results_eq => exact h.results_eq
  case unmapped_eq => exact h.unmapped_eq

/-- If it could not be mapped, the place is left in disorder, but it is still not in use. -/
theorem Stored.abort {ops : List SendOp} (hp : c.Placed) (h : c.Stored)
    (hops : c.sender.ops = .note :: ops) (buf : MhiBufInfo β)
    (hbuf : c.xferType ≠ .dma → buf.preMapped = false) :
    Stored { c with
      bufInfo := Function.update c.bufInfo (c.bufRing.place c.bufRing.wp) buf
      sender := { c.sender with ops := [] } } := by
  have hok := hp.sendOk hops
  have hmem : ∀ {x}, x ∈ ops → x ∈ c.sender.ops := fun hx ↦ by
    rw [hops]
    exact List.mem_cons_of_mem _ hx
  have hwp := hp.place_wp (hmem hok.2.2.1) (hmem hok.2.2.2)
  have hroom := hp.room' (hmem hok.2.2.1)
  constructor
  case bufs =>
    show Circular.Keeps _ (Function.update c.bufInfo (c.bufRing.place c.bufRing.wp) buf) _ _ _
    rw [hwp]
    exact h.bufs.update hroom buf
  case tres => exact h.tres
  case preMapped =>
    intro hne i
    show (Function.update c.bufInfo (c.bufRing.place c.bufRing.wp) buf i).preMapped = false
    rw [Function.update_apply]
    split
    · exact hbuf hne
    · exact h.preMapped hne i
  case written => exact fun hx ↦ absurd hx List.not_mem_nil
  case described => exact fun hx ↦ absurd hx List.not_mem_nil
  case place => exact h.place
  case fetched => exact h.fetched
  case results_eq => exact h.results_eq
  case unmapped_eq => exact h.unmapped_eq

theorem Stored.describe {ops : List SendOp} (hp : c.Placed) (h : c.Stored)
    (hops : c.sender.ops = .describe :: ops) (tre : MhiTre) {call : Call β}
    (hcall : c.sender.call = some call)
    (htre : tre = describes c.xferType c.intmod call c.sender.pAddr) :
    Stored { c with
      tre := Function.update c.tre (c.treRing.place c.treRing.wp) tre
      sender := { c.sender with ops } } := by
  have hok := hp.sendOk hops
  have hmem : ∀ {x}, x ∈ ops → x ∈ c.sender.ops := fun hx ↦ by
    rw [hops]
    exact List.mem_cons_of_mem _ hx
  have hwp : c.treRing.place c.treRing.wp = c.queued.length % c.treRing.elements := by
    rw [hp.tre_at.wp_eq, hp.tre_at.toLies.place_slot]
  have hroom := hp.room' (hmem hok.2.2.1)
  constructor
  case bufs => exact h.bufs
  case tres =>
    show Circular.Keeps _ (Function.update c.tre (c.treRing.place c.treRing.wp) tre) _ _ _
    rw [hwp]
    exact h.tres.update hroom tre
  case preMapped => exact h.preMapped
  case written =>
    refine fun hx hnot ↦ h.written (hmem hx) ?_
    rw [hops]
    exact List.not_mem_cons_of_ne_of_not_mem (by simp) hnot
  case described =>
    intro _ _ call' hcall'
    show Function.update c.tre (c.treRing.place c.treRing.wp) tre _ = _
    rw [hwp, Function.update_self, htre]
    obtain rfl := Option.some.inj (hcall.symm.trans hcall')
    rfl
  case place => exact h.place
  case fetched => exact h.fetched
  case results_eq => exact h.results_eq
  case unmapped_eq => exact h.unmapped_eq

/-- What has been written is in the queue when the pointer moves. -/
theorem Stored.addTre {ops : List SendOp} (hp : c.Placed) (h : c.Stored)
    (hops : c.sender.ops = .addTre :: ops) {call : Call β} (hcall : c.sender.call = some call) :
    Stored { c with
      sender := { c.sender with ops }
      treRing := c.treRing.mhiAddRingElement
      queued := c.queued ++ [(call, c.sender.pAddr)] } := by
  have hok := hp.sendOk hops
  have hmem : .addTre ∈ c.sender.ops := by
    rw [hops]
    exact List.mem_cons_self
  have hnote : .note ∉ c.sender.ops := by
    rw [hops]
    exact List.not_mem_cons_of_ne_of_not_mem (by simp) hok.2.1
  have hdescribe : .describe ∉ c.sender.ops := by
    rw [hops]
    exact List.not_mem_cons_of_ne_of_not_mem (by simp) hok.2.2.1
  have hlen := hp.results_le.1
  have hnext := hp.next
  constructor
  case bufs =>
    show Circular.Keeps _ _ ((c.queued ++ [(call, c.sender.pAddr)]).map _) _
      (c.queued ++ [(call, c.sender.pAddr)]).length
    rw [List.map_append, List.length_append]
    exact h.bufs.concat (by simp) (h.written hmem hnote call hcall)
  case tres =>
    show Circular.Keeps _ _ ((c.queued ++ [(call, c.sender.pAddr)]).map _) _
      (c.queued ++ [(call, c.sender.pAddr)]).length
    rw [List.map_append, List.length_append]
    exact h.tres.concat (by simp) (h.described hmem hdescribe call hcall)
  case preMapped => exact h.preMapped
  case written => exact fun hx ↦ absurd hx hok.1
  case described => exact fun hx ↦ absurd hx hok.1
  case place => exact h.place
  case fetched =>
    intro hx hnot
    show c.reader.bufAddr = ((c.queued ++ _)[c.results.length]?).map _
    rw [List.getElem?_append_left (hnext hx)]
    exact h.fetched hx hnot
  case results_eq =>
    show c.results.map _ = ((c.queued ++ _).take c.results.length).map _
    rw [List.take_append_of_le_length hlen]
    exact h.results_eq
  case unmapped_eq =>
    show c.unmapped = ((c.queued ++ _).take (c.given .unmap)).filterMap _
    rw [List.take_append_of_le_length ?_]
    · exact h.unmapped_eq
    · by_cases hx : .notify ∈ c.reader.ops
      · have hbounds := hp.given_bounds (x := .unmap) (by simp)
        have := hnext hx
        omega
      · have hu : .unmap ∉ c.reader.ops := fun hu ↦ hx (notify_mem hp.read hu (by simp))
        rw [given, left_of_not_mem hx, left_of_not_mem hu]
        exact hlen

theorem Stored.sendOp {op : SendOp} {ops : List SendOp} {call : Call β} (hp : c.Placed)
    (h : c.Stored) (hops : c.sender.ops = op :: ops) (hcall : c.sender.call = some call)
    (pmState : Nat) (pendingPkts : Int) (map : Option Nat) :
    Stored
      (sendOp { c with sender := { c.sender with ops } } pmState pendingPkts map call op).1 := by
  cases op with
  | rouse =>
    have hpop := h.popSend hops (by simp) (by simp)
    simp only [Chan.sendOp]
    split
    · exact hpop.congr _ _ rfl _ _ _ _ _ _ _ _ _
    · exact hpop
  | note =>
    have hpre : c.xferType ≠ .dma →
        (c.bufInfo (c.bufRing.place c.bufRing.wp)).preMapped = false :=
      fun hne ↦ h.preMapped hne _
    simp only [Chan.sendOp]
    split
    · rename_i hx
      exact h.note hp hops _ call.dmaAddr hcall (by simp [info, hx])
    all_goals
      rename_i hx
      have hne : c.xferType ≠ .dma := by simp [hx]
      split
      · exact h.note hp hops _ _ hcall (by simp [info, hx, hpre hne])
      · exact h.abort hp hops _ hpre
  | describe =>
    have hok := hp.sendOk hops
    have htre : .addTre ∈ c.sender.ops := by
      rw [hops]
      exact List.mem_cons_of_mem _ hok.2.2.1
    have hbuf : .addBuf ∈ c.sender.ops := by
      rw [hops]
      exact List.mem_cons_of_mem _ hok.2.2.2
    have hnote : .note ∉ c.sender.ops := by
      rw [hops]
      exact List.not_mem_cons_of_ne_of_not_mem (by simp) hok.2.1
    have hwritten : c.bufInfo (c.bufRing.place c.bufRing.wp) =
        info c.xferType call c.sender.pAddr := by
      rw [hp.place_wp htre hbuf]
      exact h.written htre hnote call hcall
    refine h.describe hp hops _ hcall ?_
    simp only [hwritten]
    rfl
  | pendingInc =>
    have hpop := h.popSend hops (by simp) (by simp)
    simp only [Chan.sendOp]
    split
    · exact hpop.congr _ _ rfl _ _ _ _ _ _ _ _ _
    · exact hpop
  | addTre => exact h.addTre hp hops hcall
  | addBuf =>
    exact (h.popSend hops (by simp) (by simp)).congr _ c.bufRing.mhiAddRingElement rfl
      _ _ _ _ _ _ _ _ _
  | doorbell =>
    have hpop := h.popSend hops (by simp) (by simp)
    simp only [Chan.sendOp]
    split
    · exact hpop.congr c.treRing.ringDb _ rfl _ _ _ _ _ _ _ _ _
    · exact hpop

/-- The description of the buffer that is being given back. -/
theorem Stored.bufInfo_place (hp : c.Placed) (h : c.Stored) (hnotify : .notify ∈ c.reader.ops)
    (hpoint : .point ∉ c.reader.ops) :
    ∃ q, c.queued[c.results.length]? = some q ∧
      c.bufInfo c.reader.place = info c.xferType q.1 q.2 := by
  have hnext := hp.next hnotify
  have hkeep := h.bufs c.results.length (Nat.le_refl _) hnext
  rw [List.getElem?_map] at hkeep
  obtain ⟨q, hq, hinfo⟩ := Option.map_eq_some_iff.mp hkeep
  refine ⟨q, hq, ?_⟩
  rw [h.place hnotify hpoint]
  exact hinfo.symm

theorem Stored.popRead {op : ReadOp} {ops : List ReadOp} (h : c.Stored)
    (hops : c.reader.ops = op :: ops) (hpoint : .point ≠ op) (hfetch : .fetch ≠ op)
    (hunmap : .unmap ≠ op) (hnotify : .notify ≠ op) :
    Stored { c with reader := { c.reader with ops } } where
  bufs := h.bufs
  tres := h.tres
  preMapped := h.preMapped
  written := h.written
  described := h.described
  place hmem hnot := by
    refine h.place ?_ ?_ <;> rw [hops]
    · exact List.mem_cons_of_mem op hmem
    · exact List.not_mem_cons_of_ne_of_not_mem hpoint hnot
  fetched hmem hnot := by
    refine h.fetched ?_ ?_ <;> rw [hops]
    · exact List.mem_cons_of_mem op hmem
    · exact List.not_mem_cons_of_ne_of_not_mem hfetch hnot
  results_eq := h.results_eq
  unmapped_eq := by
    rw [given_pop_of_ne hops hnotify hunmap]
    exact h.unmapped_eq

theorem Stored.point {ops : List ReadOp} (hp : c.Placed) (h : c.Stored)
    (hops : c.reader.ops = .point :: ops) :
    Stored { c with
      reader := { c.reader with ops, place := c.bufRing.place c.bufRing.rp } } := by
  have hok := hp.readOk hops
  have hgiven : c.given .delBuf = c.results.length := by
    rw [given, hops, left_cons_of_ne (by simp), left_cons_of_ne (by simp),
      left_of_mem hok.2.2.2.1, left_of_mem hok.2.2.2.2.2, Nat.add_sub_cancel]
  constructor
  case bufs => exact h.bufs
  case tres => exact h.tres
  case preMapped => exact h.preMapped
  case written => exact h.written
  case described => exact h.described
  case place =>
    intro _ _
    show c.bufRing.place c.bufRing.rp = _
    rw [hp.buf_at.rp_eq, hgiven, hp.buf_at.toLies.place_slot, hp.elements_eq]
  case fetched => exact fun _ hnot ↦ absurd hok.2.2.1 hnot
  case results_eq => exact h.results_eq
  case unmapped_eq =>
    have hsame : given { c with
        reader := { c.reader with ops, place := c.bufRing.place c.bufRing.rp } } .unmap =
        c.given .unmap := given_pop_of_ne hops (by simp) (by simp)
    rw [hsame]
    exact h.unmapped_eq

theorem Stored.fetch {ops : List ReadOp} (hp : c.Placed) (h : c.Stored)
    (hops : c.reader.ops = .fetch :: ops) :
    Stored { c with
      reader := { c.reader with ops, bufAddr := (c.bufInfo c.reader.place).cbBuf } } := by
  have hok := hp.readOk hops
  have hmem : ∀ {x}, x ∈ ops → x ∈ c.reader.ops := fun hx ↦ by
    rw [hops]
    exact List.mem_cons_of_mem _ hx
  have hpoint : .point ∉ c.reader.ops := by
    rw [hops]
    exact List.not_mem_cons_of_ne_of_not_mem (by simp) hok.2.1
  obtain ⟨q, hq, hinfo⟩ := h.bufInfo_place hp (hmem hok.2.2) hpoint
  constructor
  case bufs => exact h.bufs
  case tres => exact h.tres
  case preMapped => exact h.preMapped
  case written => exact h.written
  case described => exact h.described
  case place => exact fun hx _ ↦ h.place (hmem hx) hpoint
  case fetched =>
    intro _ _
    show (c.bufInfo c.reader.place).cbBuf = (c.queued[c.results.length]?).map _
    rw [hinfo, hq]
    rfl
  case results_eq => exact h.results_eq
  case unmapped_eq =>
    have hsame : given { c with
        reader := { c.reader with ops, bufAddr := (c.bufInfo c.reader.place).cbBuf } } .unmap =
        c.given .unmap := given_pop_of_ne hops (by simp) (by simp)
    rw [hsame]
    exact h.unmapped_eq

theorem Stored.unmap {ops : List ReadOp} (hp : c.Placed) (h : c.Stored)
    (hops : c.reader.ops = .unmap :: ops) (pendingPkts : Int) :
    Stored (readOp { c with reader := { c.reader with ops } } pendingPkts .unmap).1 := by
  have hok := hp.readOk hops
  have hmem : ∀ {x}, x ∈ ops → x ∈ c.reader.ops := fun hx ↦ by
    rw [hops]
    exact List.mem_cons_of_mem _ hx
  have hpoint : .point ∉ c.reader.ops := by
    rw [hops]
    exact List.not_mem_cons_of_ne_of_not_mem (by simp) hok.2.1
  obtain ⟨q, hq, hinfo⟩ := h.bufInfo_place hp (hmem hok.2.2) hpoint
  obtain ⟨hold, hnew⟩ := given_pop hops hok.1 hok.2.2
  have hunmapped := h.unmapped_eq
  rw [hold] at hunmapped
  -- one more buffer is unmapped, unless the client has mapped it
  have hstep : ∀ u, u = c.unmapped ++ (mapping c.xferType q).toList →
      Stored { c with reader := { c.reader with ops }, unmapped := u } := by
    intro u hu
    constructor
    case bufs => exact h.bufs
    case tres => exact h.tres
    case preMapped => exact h.preMapped
    case written => exact h.written
    case described => exact h.described
    case place => exact fun hx _ ↦ h.place (hmem hx) hpoint
    case fetched =>
      intro hx hnot
      refine h.fetched (hmem hx) ?_
      rw [hops]
      exact List.not_mem_cons_of_ne_of_not_mem (by simp) hnot
    case results_eq => exact h.results_eq
    case unmapped_eq =>
      have heq : given { c with reader := { c.reader with ops }, unmapped := u } .unmap =
          c.results.length + 1 := hnew
      rw [heq]
      show u = (c.queued.take (c.results.length + 1)).filterMap _
      rw [List.take_add_one, List.filterMap_append, ← hunmapped, hq, hu]
      cases hm : mapping c.xferType q <;> simp [hm]
  simp only [readOp, hinfo]
  split
  · rename_i hpre
    have hdma : c.xferType = .dma := by simpa [info] using hpre
    exact hstep _ (by simp [mapping, hdma])
  · rename_i hpre
    have hdma : c.xferType ≠ .dma := by simpa [info] using hpre
    exact hstep _ (by simp [mapping, hdma, info])

theorem Stored.notify {ops : List ReadOp} (hp : c.Placed) (h : c.Stored)
    (hops : c.reader.ops = .notify :: ops) (r : MhiResult β) (hr : r.bufAddr = c.reader.bufAddr) :
    Stored { c with reader := { c.reader with ops }, results := c.results ++ [r] } := by
  have hok := hp.readOk hops
  have hmem : .notify ∈ c.reader.ops := by
    rw [hops]
    exact List.mem_cons_self
  have hfetch : .fetch ∉ c.reader.ops := by
    rw [hops]
    exact List.not_mem_cons_of_ne_of_not_mem (by simp) hok.2.2.2.1
  have hnext := hp.next hmem
  have hlen : (c.results ++ [r]).length = c.results.length + 1 := by simp
  constructor
  case bufs =>
    rw [hlen]
    exact h.bufs.mono (Nat.le_succ _) (Nat.le_refl _)
  case tres =>
    rw [hlen]
    exact h.tres.mono (Nat.le_succ _) (Nat.le_refl _)
  case preMapped => exact h.preMapped
  case written => exact h.written
  case described => exact h.described
  case place => exact fun hx ↦ absurd hx hok.1
  case fetched => exact fun hx ↦ absurd hx hok.1
  case results_eq =>
    rw [hlen]
    show (c.results ++ [r]).map _ = (c.queued.take (c.results.length + 1)).map _
    rw [List.map_append, h.results_eq, List.take_add_one, List.map_append]
    congr 1
    have hfetched := h.fetched hmem hfetch
    rw [List.getElem?_eq_getElem hnext] at hfetched ⊢
    simp [hr, hfetched]
  case unmapped_eq =>
    have hsame := given_notify hops hok.1 r (x := .unmap) (by simp)
    rw [hsame]
    exact h.unmapped_eq

theorem Stored.readOp {op : ReadOp} {ops : List ReadOp} (hp : c.Placed) (h : c.Stored)
    (hops : c.reader.ops = op :: ops) (pendingPkts : Int) :
    Stored (readOp { c with reader := { c.reader with ops } } pendingPkts op).1 := by
  cases op with
  | point =>
    have hpoint := h.point hp hops
    exact hpoint
  | unmap => exact h.unmap hp hops pendingPkts
  | fetch =>
    have hfetch := h.fetch hp hops
    exact hfetch
  | delBuf =>
    exact (h.popRead hops (by simp) (by simp) (by simp) (by simp)).congr _
      c.bufRing.mhiDelRingElement rfl _ _ _ _ _ _ _ _ _
  | delTre =>
    exact (h.popRead hops (by simp) (by simp) (by simp) (by simp)).congr
      c.treRing.mhiDelRingElement _ rfl _ _ _ _ _ _ _ _ _
  | notify =>
    refine h.notify hp hops _ ?_
    rw [result]
    split <;> rfl
  | pendingDec =>
    exact (h.popRead hops (by simp) (by simp) (by simp) (by simp)).congr _ _ rfl _ _ _ _ _ _ _ _ _

theorem Stored.round (h : c.Stored) (hops : c.reader.ops = []) {p : List ReadOp}
    (hpoint : .point ∈ p) (hfetch : .fetch ∈ p) (hunmap : .unmap ∈ p) (hnotify : .notify ∈ p) :
    Stored { c with reader := { c.reader with ops := p } } := by
  constructor
  case bufs => exact h.bufs
  case tres => exact h.tres
  case preMapped => exact h.preMapped
  case written => exact h.written
  case described => exact h.described
  case place => exact fun _ hnot ↦ absurd hpoint hnot
  case fetched => exact fun _ hnot ↦ absurd hfetch hnot
  case results_eq => exact h.results_eq
  case unmapped_eq =>
    have hsame : given { c with reader := { c.reader with ops := p } } .unmap = c.given .unmap := by
      rw [given_of_nil hops, given]
      show c.results.length + left p .notify - left p .unmap = _
      rw [left_of_mem hnotify, left_of_mem hunmap, Nat.add_sub_cancel]
    rw [hsame]
    exact h.unmapped_eq

theorem Stored.accept (h : c.Stored) (call : Call β) :
    Stored { c with
      sender := { c.sender with call := some call, ops := sendProgram c.xferType } } := by
  have hnote : .note ∈ sendProgram c.xferType := by cases c.xferType <;> simp [sendProgram]
  have hdescribe : .describe ∈ sendProgram c.xferType := by cases c.xferType <;> simp [sendProgram]
  exact ⟨h.bufs, h.tres, h.preMapped, fun _ hnot ↦ absurd hnote hnot,
    fun _ hnot ↦ absurd hdescribe hnot, h.place, h.fetched, h.results_eq, h.unmapped_eq⟩

theorem Stored.handle (h : c.Stored) (ev : Event) (events : List Event) (pmState : Nat) :
    Stored (parseXferEvent { c with events } pmState ev) := by
  have hskip : Stored { c with events } := h.congr _ _ rfl _ _ _ _ _ events _ _ _
  rw [parseXferEvent]
  split
  · exact hskip
  · split
    · exact hskip.congr _ _ rfl _ _ _ _ (.loop ev (c.devRp ev)) _ _ _ _
    · split
      · split
        · exact hskip.congr c.treRing.ringDb _ rfl _ _ _ _ _ _ _ _ _
        · exact hskip
      · exact hskip

theorem Stored.step {pmState : Nat} {pendingPkts : Int} {e : Effect} (hp : c.Placed) (h : c.Stored)
    (hd : Does pmState pendingPkts c c' e) : c'.Stored := by
  cases hd with
  | refuse => exact h
  | accept call _ _ _ => exact h.accept call
  | send op ops call map _ hops hcall => exact h.sendOp hp hops hcall pmState pendingPkts map
  | handle ev events _ _ => exact h.handle ev events pmState
  | read op ops _ hops => exact h.readOp hp hops pendingPkts
  | iterate ev devRp _ hops _ _ =>
    refine h.round hops ?_ ?_ ?_ ?_ <;> cases c.dir <;> simp [loopProgram]
  | iterateReset _ hops _ _ =>
    refine h.round hops ?_ ?_ ?_ ?_ <;> cases c.dir <;> simp [resetProgram]
  | m0Ring _ _ => exact h.congr c.treRing.ringDb _ rfl _ _ _ _ _ _ _ _ _
  | _ => exact h.congr _ _ rfl _ _ _ _ _ _ _ _ _

/-! ## Runs -/

/-- How a channel is set up: the two rings lie somewhere in the memory, and they have the same
number of elements. -/
structure Setup where
  dir : Dir
  xferType : XferType
  intmod : Bool
  treRing : MhiRing
  bufRing : MhiRing
  tre_lies : treRing.Lies
  buf_lies : bufRing.Lies
  elements_eq : bufRing.elements = treRing.elements

/-- `mhi_init_chan_ctxt`, for a channel that is enabled afterwards.  `tre` is what the memory of the
ring happens to hold. -/
def mhiInitChanCtxt (s : Setup) (tre : Nat → MhiTre) : Chan β where
  dir := s.dir
  xferType := s.xferType
  intmod := s.intmod
  enabled := true
  treRing := { s.treRing with
    rp := s.treRing.base, wp := s.treRing.base, ctxtWp := s.treRing.iommuBase }
  bufRing := { s.bufRing with rp := s.bufRing.base, wp := s.bufRing.base }
  tre
  bufInfo _ := {}
  sender := {}
  reader := {}
  toRing := false
  events := []
  taken := 0
  rung := 0
  queued := []
  unmapped := []
  results := []
  counted := 0

theorem placed_init (s : Setup) (tre : Nat → MhiTre) : (mhiInitChanCtxt s tre : Chan β).Placed where
  send := List.nil_suffix
  read := List.nil_suffix
  elements_eq := s.elements_eq
  tre_at :=
    { toLies := ⟨s.tre_lies.1, s.tre_lies.2, s.tre_lies.3, s.tre_lies.4, s.tre_lies.5⟩
      rp_eq := by simp [mhiInitChanCtxt, given, left, MhiRing.slot]
      wp_eq := by simp [mhiInitChanCtxt, MhiRing.slot] }
  buf_at :=
    { toLies := ⟨s.buf_lies.1, s.buf_lies.2, s.buf_lies.3, s.buf_lies.4, s.buf_lies.5⟩
      rp_eq := by simp [mhiInitChanCtxt, given, left, MhiRing.slot]
      wp_eq := by simp [mhiInitChanCtxt, noted, left, MhiRing.slot] }
  le := Nat.le_refl 0
  lt := Nat.lt_of_lt_of_eq s.tre_lies.elements_pos (Nat.zero_add _).symm
  room hmem := absurd hmem List.not_mem_nil
  added hmem := absurd hmem List.not_mem_nil
  next hmem := absurd hmem List.not_mem_nil
  ctxt := by simp [mhiInitChanCtxt, MhiRing.phys]
  taken_le := Nat.le_refl 0
  rung_le := Nat.le_refl 0
  ge _ _ := Nat.le_refl 0
  follows _ := rfl

theorem stored_init (s : Setup) (tre : Nat → MhiTre) : (mhiInitChanCtxt s tre : Chan β).Stored where
  bufs _ _ hlt := absurd hlt (Nat.not_lt_zero _)
  tres _ _ hlt := absurd hlt (Nat.not_lt_zero _)
  preMapped _ _ := rfl
  written hmem := absurd hmem List.not_mem_nil
  described hmem := absurd hmem List.not_mem_nil
  place hmem := absurd hmem List.not_mem_nil
  fetched hmem := absurd hmem List.not_mem_nil
  results_eq := rfl
  unmapped_eq := rfl

/-- One step, with the power state and the counter of the controller as they are at that moment.
They are shared with other channels, so they may be anything. -/
def next (c : Chan β) (a : Nat × Int × Act β) : Option (Chan β) :=
  (c.step a.1 a.2.1 a.2.2).map Prod.fst

/-- All that is known of every state of a run. -/
def Sound (c : Chan β) : Prop := c.Placed ∧ c.Stored

theorem Sound.next {a : Nat × Int × Act β} (h : c.Sound) (hstep : c.next a = some c') :
    c'.Sound := by
  obtain ⟨⟨d, e⟩, hd, rfl⟩ := Option.map_eq_some_iff.mp hstep
  have hdoes := does_of_step hd
  exact ⟨h.1.step hdoes, h.2.step h.1 hdoes⟩

theorem Sound.run {as : List (Nat × Int × Act β)} (h : c.Sound)
    (hrun : Trace.run Chan.next c as = some c') : c'.Sound :=
  Trace.run_invariant (P := fun _ ↦ True) (fun _ _ _ _ hs hstep ↦ hs.next hstep) h
    (fun _ _ ↦ trivial) hrun

theorem sound_init (s : Setup) (tre : Nat → MhiTre) : (mhiInitChanCtxt s tre : Chan β).Sound :=
  ⟨placed_init s tre, stored_init s tre⟩

/-- A channel with rings of four elements. -/
def sampleSetup : Setup where
  dir := .toDevice
  xferType := .skb
  intmod := false
  treRing := ⟨0x1000, 0, 0x8000, 0, 0, 16, 64, 4⟩
  bufRing := ⟨0, 0, 0x9000, 0, 0, 32, 128, 4⟩
  tre_lies := ⟨by decide, by decide, by decide, by decide, by decide⟩
  buf_lies := ⟨by decide, by decide, by decide, by decide, by decide⟩
  elements_eq := rfl

/-- Three buffers are queued, in the state `MHI_PM_M0`, and between them one that cannot be
mapped. -/
def sampleQueue : List (Nat × Int × Act Nat) :=
  (4, 0, .call { buf := 7, len := 1500 }) :: List.replicate 8 (4, 0, .send (some 0x5000)) ++
    (4, 1, .call { buf := 8, len := 60 }) :: List.replicate 7 (4, 1, .send (some 0x6000)) ++
    (4, 2, .call { buf := 9, len := 900 }) :: List.replicate 2 (4, 2, .send none) ++
    (4, 2, .call { buf := 10, len := 300 }) :: List.replicate 7 (4, 2, .send (some 0x7000))

def sampleStart : Chan Nat := mhiInitChanCtxt sampleSetup fun _ ↦ ⟨0, 0, 0⟩

/-- **Every buffer comes back once, and in order.**  Whatever the order of the steps, the buffers
that the client got back are the first ones that it has queued, and exactly these, and possibly the
next one, were unmapped, unless the client has mapped them itself. -/
theorem buffers_return (s : Setup) (tre : Nat → MhiTre) (as : List (Nat × Int × Act β)) (c : Chan β)
    (h : Trace.run Chan.next (mhiInitChanCtxt s tre) as = some c) :
    c.results.map (·.bufAddr) <+: c.queued.map (fun q ↦ some q.1.buf) ∧
      (c.queued.take c.results.length).filterMap (mapping c.xferType) <+: c.unmapped ∧
      c.unmapped <+: (c.queued.take (c.results.length + 1)).filterMap (mapping c.xferType) := by
  obtain ⟨hplaced, hstored⟩ := (sound_init s tre).run h
  have hbounds := hplaced.given_bounds (x := .unmap) (by simp)
  refine ⟨?_, ?_, ?_⟩
  · rw [hstored.results_eq]
    exact (List.take_prefix _ _).map _
  · rw [hstored.unmapped_eq]
    exact (List.take_prefix_take_left hbounds.1).filterMap _
  · rw [hstored.unmapped_eq]
    exact (List.take_prefix_take_left hbounds.2).filterMap _

/-- The modem is done with the first two of them, of which it tells in one event. -/
def sampleTaken : List (Nat × Int × Act Nat) := sampleQueue ++ [(4, 3, .complete 1 2 1500)]

/-- This event is handled. -/
def sampleDone : List (Nat × Int × Act Nat) :=
  sampleTaken ++ (4, 3, .handle) :: List.replicate 17 (4, 3, .read)

def sampleReturned : Chan Nat := (Trace.run Chan.next sampleStart sampleDone).getD sampleStart

theorem buffers_return_sample : sampleReturned.results.map (·.bufAddr) = [some 7, some 8] ∧
    sampleReturned.unmapped = [(0x5000, 1500), (0x6000, 60)] ∧
    sampleReturned.results.map (·.bufAddr) <+: sampleReturned.queued.map (fun q ↦ some q.1.buf) :=
  ⟨by decide +kernel, by decide +kernel, (buffers_return sampleSetup (fun _ ↦ ⟨0, 0, 0⟩) sampleDone
    sampleReturned (Trace.eq_some_getD (by decide +kernel))).1⟩

/-- **The modem finds what was queued.**  As long as the channel is not reset, each element that the
modem may look at, which are those from where it is up to what the doorbell has told it, describes a
buffer that was queued and has not come back. -/
theorem modem_finds (s : Setup) (tre : Nat → MhiTre) (as : List (Nat × Int × Act β)) (c : Chan β)
    (h : Trace.run Chan.next (mhiInitChanCtxt s tre) as = some c)
    (hreset : c.reader.phase ≠ .reset) (hclosed : c.reader.phase ≠ .closed) (k : Nat)
    (hk : k < MhiRing.getUsedRingElements c.treRing.elSize (c.treRing.phys c.taken)
      c.treRing.ctxtWp c.treRing.elements) :
    ∃ q, c.queued[c.taken + k]? = some q ∧ c.results.length ≤ c.taken + k ∧
      c.tre ((c.taken + k) % c.treRing.elements) = describes c.xferType c.intmod q.1 q.2 := by
  obtain ⟨hplaced, hstored⟩ := (sound_init s tre).run h
  have hge := hplaced.ge hreset hclosed
  have hlt := hplaced.lt
  have hrung := hplaced.rung_le
  have htaken := hplaced.taken_le
  have hbounds := hplaced.given_bounds (x := .delTre) (by simp)
  rw [hplaced.ctxt, hplaced.tre_at.toLies.used_phys htaken (by omega)] at hk
  have hkeep := hstored.tres (c.taken + k) (by omega) (by omega)
  rw [List.getElem?_map] at hkeep
  obtain ⟨q, hq, htre⟩ := Option.map_eq_some_iff.mp hkeep
  exact ⟨q, hq, by omega, htre.symm⟩

/-- The modem has looked at the first buffer only. -/
def sampleLooking : List (Nat × Int × Act Nat) := sampleQueue ++ [(4, 3, .complete 0 2 1500)]

def sampleLooked : Chan Nat := (Trace.run Chan.next sampleStart sampleLooking).getD sampleStart

theorem modem_finds_sample : ∃ q, sampleLooked.queued[2]? = some q ∧ q.1.buf = 10 ∧
    sampleLooked.tre 2 = describes .skb false q.1 q.2 := by
  obtain ⟨q, hq, -, htre⟩ := modem_finds sampleSetup (fun _ ↦ ⟨0, 0, 0⟩) sampleLooking sampleLooked
    (Trace.eq_some_getD (by decide +kernel)) (by decide +kernel) (by decide +kernel) 1
    (by decide +kernel)
  have hbuf : sampleLooked.queued[2]?.map (fun q ↦ q.1.buf) = some 10 := by decide +kernel
  have htaken : sampleLooked.taken = 1 := by decide +kernel
  rw [htaken] at hq htre
  rw [hq] at hbuf
  exact ⟨q, hq, Option.some.inj hbuf, htre⟩

/-! ## Progress -/

/-- What the thread that gives buffers back does not touch. -/
structure Same (c c' : Chan β) : Prop where
  queued_eq : c'.queued = c.queued
  events_eq : c'.events = c.events
  taken_eq : c'.taken = c.taken
  enabled_eq : c'.enabled = c.enabled
  xferType_eq : c'.xferType = c.xferType

theorem Same.trans {d : Chan β} (h : Same c c') (h' : Same c' d) : Same c d :=
  ⟨h'.1.trans h.1, h'.2.trans h.2, h'.3.trans h.3, h'.4.trans h.4, h'.5.trans h.5⟩

theorem readOp_same (c : Chan β) (pendingPkts : Int) (op : ReadOp) :
    Same c (readOp c pendingPkts op).1 := by
  cases op with
  | unmap =>
    simp only [readOp]
    split <;> exact ⟨rfl, rfl, rfl, rfl, rfl⟩
  | _ => exact ⟨rfl, rfl, rfl, rfl, rfl⟩

/-- An operation goes on in the same loop, and it is counted by `notify` only. -/
theorem readOp_reader (c : Chan β) (pendingPkts : Int) (op : ReadOp) (howed : c.reader.owed = []) :
    (readOp c pendingPkts op).1.reader.phase = c.reader.phase ∧
      (readOp c pendingPkts op).1.reader.ops = c.reader.ops ∧
      (readOp c pendingPkts op).1.reader.owed.length ≤ 1 ∧
      (readOp c pendingPkts op).1.results.length =
        c.results.length + if op = .notify then 1 else 0 := by
  cases op with
  | unmap =>
    simp only [readOp]
    split <;> simp [howed]
  | pendingDec =>
    simp only [readOp]
    refine ⟨trivial, trivial, ?_, by simp⟩
    split <;> simp
  | _ => simp [readOp, howed]

/-- How much the thread that gives buffers back has still to do, at most. -/
def work (c : Chan β) : Nat :=
  20 * (c.queued.length - c.results.length - left c.reader.ops .notify) + 2 * c.reader.ops.length +
    c.reader.owed.length

/-- In a loop, the thread that gives buffers back can always go on, and it comes nearer to the end
of the loop. -/
theorem read_progress (h : c.Sound) (pmState : Nat) (pendingPkts : Int)
    (hphase : (∃ ev devRp, c.reader.phase = .loop ev devRp) ∨ c.reader.phase = .reset) :
    ∃ c', c.next (pmState, pendingPkts, .read) = some c' ∧ Same c c' ∧
      (c'.reader.phase = c.reader.phase ∧ c'.work < c.work ∨
        (∃ ev devRp, c.reader.phase = .loop ev devRp) ∧ c'.reader.phase = .idle ∨
        c.reader.phase = .reset ∧ c'.reader.phase = .closed ∧
          c'.results.length = c'.queued.length) := by
  have hsame : ∀ r, Same c { c with reader := r } := fun r ↦ ⟨rfl, rfl, rfl, rfl, rfl⟩
  cases howed : c.reader.owed with
  | cons v owed =>
    refine ⟨{ c with reader := { c.reader with owed } }, ?_, hsame _, .inl ⟨rfl, ?_⟩⟩
    · simp [next, step, howed]
    · simp [work, howed]
  | nil =>
    cases hops : c.reader.ops with
    | cons op ops =>
      obtain ⟨hph, hop, how, hlen⟩ :=
        readOp_reader { c with reader := { c.reader with ops } } pendingPkts op howed
      have hsame' := (hsame { c.reader with ops }).trans (readOp_same _ pendingPkts op)
      have hstep : c.next (pmState, pendingPkts, .read) =
          some (readOp { c with reader := { c.reader with ops } } pendingPkts op).1 := by
        simp [next, step, howed, hops]
      generalize (readOp { c with reader := { c.reader with ops } } pendingPkts op).1 = d at *
      refine ⟨d, hstep, hsame', .inl ⟨hph, ?_⟩⟩
      have hlen' : d.results.length = c.results.length + if op = .notify then 1 else 0 := hlen
      have hop' : d.reader.ops = ops := hop
      -- the operation is gone; what it may leave behind is one vote
      have hleft : left (op :: ops) .notify = left ops .notify + if op = .notify then 1 else 0 := by
        by_cases hn : op = .notify
        · subst hn
          rw [left_of_mem List.mem_cons_self, left_of_not_mem (h.1.readOk hops).1, if_pos rfl]
        · rw [left_cons_of_ne (Ne.symm hn), if_neg hn, Nat.add_zero]
      rw [work, work, hop', hlen', hsame'.queued_eq, howed, hops, hleft]
      simp only [List.length_cons, List.length_nil]
      omega
    | nil =>
      have hresults := given_of_nil hops .delTre
      rcases hphase with ⟨ev, devRp, hp⟩ | hp
      · by_cases hrp : c.treRing.rp = devRp
        · refine ⟨{ c with reader := { c.reader with phase := .idle } }, ?_, hsame _,
            .inr (.inl ⟨⟨ev, devRp, hp⟩, rfl⟩)⟩
          simp [next, step, howed, hops, hp, hrp]
        · have hplaced := h.1.iterate hp hops hrp
          refine ⟨{ c with reader := { c.reader with ops := loopProgram c.dir } }, ?_, hsame _,
            .inl ⟨rfl, ?_⟩⟩
          · simp [next, step, howed, hops, hp, hrp]
          · have hmem : .notify ∈ loopProgram c.dir := by cases c.dir <;> simp [loopProgram]
            have hlen : (loopProgram c.dir).length ≤ 7 := by cases c.dir <;> simp [loopProgram]
            have hnext : c.results.length < c.queued.length := hplaced.next hmem
            simp only [work, left_of_mem hmem, hops, left_of_not_mem List.not_mem_nil,
              List.length_nil]
            omega
      · by_cases hrp : c.treRing.rp = c.treRing.wp
        · refine ⟨{ c with reader := { c.reader with phase := .closed } }, ?_, hsame _,
            .inr (.inr ⟨hp, rfl, ?_⟩)⟩
          · simp [next, step, howed, hops, hp, hrp]
          · rw [← hresults]
            exact (h.1.tre_at.rp_eq_wp_iff h.1.le h.1.lt).mp hrp
        · have hplaced := h.1.iterateReset hp hops hrp
          refine ⟨{ c with reader := { c.reader with ops := resetProgram c.dir } }, ?_, hsame _,
            .inl ⟨rfl, ?_⟩⟩
          · simp [next, step, howed, hops, hp, hrp]
          · have hmem : .notify ∈ resetProgram c.dir := by cases c.dir <;> simp [resetProgram]
            have hlen : (resetProgram c.dir).length ≤ 7 := by cases c.dir <;> simp [resetProgram]
            have hnext : c.results.length < c.queued.length := hplaced.next hmem
            simp only [work, left_of_mem hmem, hops, left_of_not_mem List.not_mem_nil,
              List.length_nil]
            omega

/-- A loop comes to its end when its thread runs. -/
theorem read_drain (h : c.Sound)
    (hphase : (∃ ev devRp, c.reader.phase = .loop ev devRp) ∨ c.reader.phase = .reset) :
    ∃ as c', (∀ a ∈ as, a.2.2 = Act.read) ∧ Trace.run Chan.next c as = some c' ∧ Same c c' ∧
      ((∃ ev devRp, c.reader.phase = .loop ev devRp) ∧ c'.reader.phase = .idle ∨
        c.reader.phase = .reset ∧ c'.reader.phase = .closed ∧
          c'.results.length = c'.queued.length) := by
  generalize hw : c.work = n
  induction n using Nat.strongRecOn generalizing c with
  | ind n ih =>
    obtain ⟨d, hstep, hsame, ⟨hp, hlt⟩ | hend⟩ :=
      read_progress h 0 0 hphase
    · rw [hw] at hlt
      obtain ⟨as, e, has, hrun, hsame', hend⟩ := ih d.work hlt (h.next hstep) (hp ▸ hphase) rfl
      refine ⟨(0, 0, .read) :: as, e, ?_, ?_, hsame.trans hsame', hp ▸ hend⟩
      · exact List.forall_mem_cons.mpr ⟨rfl, has⟩
      · rw [Trace.run, hstep]
        exact hrun
    · refine ⟨[(0, 0, .read)], d, by simp, ?_, hsame, hend⟩
      rw [Trace.run, hstep]
      rfl

theorem parseXferEvent_same (c : Chan β) (pmState : Nat) (ev : Event) :
    Same c (parseXferEvent c pmState ev) := by
  rw [parseXferEvent]
  split
  · exact ⟨rfl, rfl, rfl, rfl, rfl⟩
  · split
    · exact ⟨rfl, rfl, rfl, rfl, rfl⟩
    · split
      · split <;> exact ⟨rfl, rfl, rfl, rfl, rfl⟩
      · exact ⟨rfl, rfl, rfl, rfl, rfl⟩

/-- An event leads to the loop, or nowhere. -/
theorem parseXferEvent_phase (c : Chan β) (pmState : Nat) (ev : Event)
    (hidle : c.reader.phase = .idle) :
    (∃ ev' devRp, (parseXferEvent c pmState ev).reader.phase = .loop ev' devRp) ∨
      (parseXferEvent c pmState ev).reader.phase = .idle := by
  rw [parseXferEvent]
  split
  · exact .inr hidle
  · split
    · exact .inl ⟨_, _, rfl⟩
    · split
      · split
        · exact .inr hidle
        · exact .inr hidle
      · exact .inr hidle

/-- From the next event on, the thread comes to the end of its events. -/
theorem handle_drain (h : c.Sound) (hidle : c.reader.phase = .idle) :
    ∃ bs c', (∀ b ∈ bs, b.2.2 = Act.read ∨ b.2.2 = Act.handle) ∧
      Trace.run Chan.next c bs = some c' ∧ c'.reader.phase = .idle ∧ c'.events = [] ∧
      c'.queued = c.queued ∧ c'.taken = c.taken ∧ c'.enabled = c.enabled := by
  generalize hevs : c.events = evs
  induction evs generalizing c with
  | nil => exact ⟨[], c, by simp, rfl, hidle, hevs, rfl, rfl, rfl⟩
  | cons ev evs ih =>
    have hstep : c.next (0, 0, .handle) = some (parseXferEvent { c with events := evs } 0 ev) := by
      simp [next, step, hevs, hidle]
    have hsound := h.next hstep
    have hsame := parseXferEvent_same { c with events := evs } 0 ev
    have hphase := parseXferEvent_phase { c with events := evs } 0 ev hidle
    generalize parseXferEvent { c with events := evs } 0 ev = d at *
    -- the loop for this event, if there is one, runs to its end first
    obtain ⟨as, e, has, hrun, hidle', hevents, hqueued, htaken, henabled⟩ :
        ∃ as e, (∀ a ∈ as, a.2.2 = Act.read) ∧ Trace.run Chan.next d as = some e ∧
          e.reader.phase = .idle ∧ e.events = evs ∧ e.queued = c.queued ∧ e.taken = c.taken ∧
          e.enabled = c.enabled := by
      rcases hphase with ⟨ev', devRp, hp⟩ | hp
      · obtain ⟨as, e, has, hrun, hsame', ⟨-, hp'⟩ | ⟨hp', -⟩⟩ :=
          read_drain hsound (.inl ⟨ev', devRp, hp⟩)
        · exact ⟨as, e, has, hrun, hp', hsame'.2.trans hsame.2, hsame'.1.trans hsame.1,
            hsame'.3.trans hsame.3, hsame'.4.trans hsame.4⟩
        · exact absurd (hp.symm.trans hp') (by simp)
      · exact ⟨[], d, by simp, rfl, hp, hsame.2, hsame.1, hsame.3, hsame.4⟩
    obtain ⟨bs, f, hbs, hrun', hp, hnil, hq, ht, hen⟩ := ih (hsound.run hrun) hidle' hevents
    refine ⟨(0, 0, .handle) :: (as ++ bs), f, ?_, ?_, hp, hnil, hq.trans hqueued, ht.trans htaken,
      hen.trans henabled⟩
    · intro b hb
      rcases List.mem_cons.mp hb with rfl | hb
      · exact .inr rfl
      · rcases List.mem_append.mp hb with hb | hb
        · exact .inl (has b hb)
        · exact hbs b hb
    · rw [Trace.run, hstep]
      show Trace.run Chan.next d (as ++ bs) = some f
      rw [Trace.run_append, hrun]
      exact hrun'

/-- **Nothing that the modem is done with is kept.**  From every state of an open channel, when its
events are handled, the client has got back exactly the buffers that the modem has taken. -/
theorem events_return (s : Setup) (tre : Nat → MhiTre) (as : List (Nat × Int × Act β)) (c : Chan β)
    (h : Trace.run Chan.next (mhiInitChanCtxt s tre) as = some c) (hen : c.enabled = true)
    (hreset : c.reader.phase ≠ .reset) (hclosed : c.reader.phase ≠ .closed) :
    ∃ bs c', (∀ b ∈ bs, b.2.2 = Act.read ∨ b.2.2 = Act.handle) ∧
      Trace.run Chan.next c bs = some c' ∧ c'.reader.phase = .idle ∧ c'.events = [] ∧
      c'.results.map (·.bufAddr) = (c.queued.take c.taken).map (fun q ↦ some q.1.buf) := by
  have hsound := (sound_init s tre).run h
  -- to the end of the loop that the thread is in
  obtain ⟨as, d, has, hrun, hidle, hsame⟩ : ∃ as d, (∀ a ∈ as, a.2.2 = Act.read) ∧
      Trace.run Chan.next c as = some d ∧ d.reader.phase = .idle ∧ Same c d := by
    cases hp : c.reader.phase with
    | idle => exact ⟨[], c, by simp, rfl, hp, ⟨rfl, rfl, rfl, rfl, rfl⟩⟩
    | loop ev devRp =>
      obtain ⟨as, d, has, hrun, hsame, ⟨-, hp'⟩ | ⟨hp', -⟩⟩ :=
        read_drain hsound (.inl ⟨ev, devRp, hp⟩)
      · exact ⟨as, d, has, hrun, hp', hsame⟩
      · exact absurd (hp.symm.trans hp') (by simp)
    | reset => exact absurd hp hreset
    | closed => exact absurd hp hclosed
  obtain ⟨bs, e, hbs, hrun', hidle', hnil, hqueued, htaken, henabled⟩ :=
    handle_drain (hsound.run hrun) hidle
  obtain ⟨hplaced, hstored⟩ := (hsound.run hrun).run hrun'
  have hlen : e.results.length = c.taken := by
    have hfollows := hplaced.follows
    rw [hidle', hnil, given_of_nil (hplaced.ops_eq_nil (.inl hidle'))] at hfollows
    have hdue := hfollows (by rw [henabled, hsame.enabled_eq, hen])
    rw [← hsame.taken_eq, ← htaken]
    exact hdue
  refine ⟨as ++ bs, e, ?_, ?_, hidle', hnil, ?_⟩
  · intro b hb
    rcases List.mem_append.mp hb with hb | hb
    · exact .inl (has b hb)
    · exact hbs b hb
  · rw [Trace.run_append, hrun]
    exact hrun'
  · rw [hstored.results_eq, hlen, hqueued, hsame.queued_eq]

/-- The event of the two buffers is not handled yet. -/
def sampleWaiting : Chan Nat := (Trace.run Chan.next sampleStart sampleTaken).getD sampleStart

theorem events_return_sample : ∃ bs c', (∀ b ∈ bs, b.2.2 = Act.read ∨ b.2.2 = Act.handle) ∧
    Trace.run Chan.next sampleWaiting bs = some c' ∧ c'.events = [] ∧
    c'.results.map (·.bufAddr) = [some 7, some 8] := by
  obtain ⟨bs, d, hbs, hrun, -, hevents, hresults⟩ := events_return sampleSetup (fun _ ↦ ⟨0, 0, 0⟩)
    sampleTaken sampleWaiting (Trace.eq_some_getD (by decide +kernel)) (by decide +kernel)
    (by decide +kernel) (by decide +kernel)
  have htaken : (sampleWaiting.queued.take sampleWaiting.taken).map (fun q ↦ some q.1.buf) =
    [some 7, some 8] := by decide +kernel
  exact ⟨bs, d, hbs, hrun, hevents, hresults.trans htaken⟩

end Chan

end OpenwrtFeed.Mhi
