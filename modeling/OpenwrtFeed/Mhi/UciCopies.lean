import OpenwrtFeed.Mhi.UciMemory

/-!
# The copies in the lists of the character devices

What becomes of the data between `mhi_dl_xfer_cb` and `mhi_uci_read`.  Most channels put the buffer
of the array itself into the list of the device.  On DUN, QMI and MBIM it is a copy (`tmp_buf`),
which `mhi_uci_read` frees when it has read it to its end.  Nobody else does: neither
`mhi_uci_release` nor `mhi_uci_remove` looks at the list, and a device that is freed leaves its
copies behind.

`mhi_uci_poll`, `mhi_uci_write` and `mhi_uci_read` also look at the MHI device, without a lock that
`mhi_uci_remove` takes, and an open file does not keep it.  So they are steps of their own here, and
the MHI device is freed at some time after `mhi_uci_remove`.
-/

set_option autoImplicit false

namespace OpenwrtFeed.Mhi

/-- What is in the list of a device: a buffer of its array, or a copy. -/
inductive UciItem where
  | page
  | copy (c : Nat)
  deriving DecidableEq, Repr

@[simp] def UciItem.copyOf : UciItem → Option Nat
  | .page => none
  | .copy c => some c

/-- The `dl_chan` of a device, with the calls of `mhi_uci_read` and `mhi_uci_write` that are under
way. -/
structure UciChan where
  pending : List UciItem
  curBuf : Option UciItem
  /-- The `uci_buf` of the `mhi_uci_read` that copies to the user. -/
  reading : Option UciItem
  /-- Whether a `mhi_uci_write` has found the device enabled, and looks at the MHI device next. -/
  writing : Bool
  deriving DecidableEq, Repr

namespace UciChan

/-- The `struct uci_dev` is new. -/
def fresh : UciChan := ⟨[], none, none, false⟩

def copies (ch : UciChan) : List Nat := (ch.curBuf.toList ++ ch.pending).filterMap UciItem.copyOf

def busy (ch : UciChan) : Bool := ch.reading.isSome || ch.writing

end UciChan

inductive CopyFault where
  /-- A buffer of the array of a device is used after `kfree`. -/
  | usedPage (d : Nat)
  /-- A copy is used after `kfree`. -/
  | usedCopy (c : Nat)
  /-- A copy is freed again. -/
  | freedAgain (c : Nat)
  /-- A `struct mhi_device` is used after it was freed. -/
  | usedMhi (m : Nat)
  deriving DecidableEq, Repr

structure UciMem where
  drv : UciDrv
  /-- Whether the inbound channel of an MHI device is that of DUN, QMI or MBIM. -/
  copying : Nat → Bool
  chan : Nat → UciChan
  /-- The copies that are allocated. -/
  copies : List Nat
  nextCopy : Nat
  /-- The MHI devices that were freed. -/
  destroyed : Nat → Bool
  faults : List CopyFault

/-- How `mhi_dl_xfer_cb` ends. -/
inductive DlXfer where
  /-- Before it looks at the list. -/
  | dropped
  /-- There is data; `alloc` says whether `kmalloc` of the copy succeeds. -/
  | data (alloc : Bool)
  deriving DecidableEq, Repr

/-- What is done with an open file. -/
inductive UciUse where
  | ioctl
  | poll
  /-- `mhi_uci_read` takes a buffer. -/
  | read
  /-- The rest of it; `finished` says whether the buffer has been read to its end. -/
  | readEnd (finished : Bool)
  /-- `mhi_uci_write` finds that the device is enabled. -/
  | write
  /-- It looks at the MHI device; `more` says whether it will do so again if it is not disabled. -/
  | writeOn (more : Bool)
  deriving DecidableEq, Repr

inductive UciMem.Act where
  /-- A step of `mhi_uci_probe`, or all of `mhi_uci_open`, `mhi_uci_release` or `mhi_uci_remove` -/
  | drv (a : UciDrv.Act)
  | callback (m : Nat) (result : DlXfer)
  | use (d : Nat) (u : UciUse)
  /-- The last reference to an MHI device is dropped. -/
  | destroy (m : Nat)
  deriving DecidableEq, Repr

namespace UciMem

def Act.node : Act → Option UciDrv.Act
  | .drv a => some a
  | .callback m _ => some (.callback m)
  | .use d _ => some (.use d)
  | .destroy _ => none

def fault (w : UciMem) (f : CopyFault) : UciMem := { w with faults := f :: w.faults }

def setChan (w : UciMem) (d : Nat) (ch : UciChan) : UciMem :=
  { w with chan := Function.update w.chan d ch }

@[simp] theorem setChan_copies (w : UciMem) (d : Nat) (ch : UciChan) :
    (w.setChan d ch).copies = w.copies := rfl

@[simp] theorem setChan_destroyed (w : UciMem) (d : Nat) (ch : UciChan) :
    (w.setChan d ch).destroyed = w.destroyed := rfl

def touchMhi (w : UciMem) (m : Nat) : UciMem :=
  if w.destroyed m then w.fault (.usedMhi m) else w

def touchItem (w : UciMem) (d : Nat) (uciBuf : Option Nat) : UciItem → UciMem
  | .page => if uciBuf.any (· ∈ w.drv.bufs) then w else w.fault (.usedPage d)
  | .copy c => if c ∈ w.copies then w else w.fault (.usedCopy c)

/-- `kfree` of a copy. -/
def freeCopy (w : UciMem) (c : Nat) : UciMem :=
  if c ∈ w.copies then { w with copies := w.copies.erase c } else w.fault (.freedAgain c)

/-- The end of `mhi_dl_xfer_cb` -/
def putPending (w : UciMem) (d : Nat) (n : UciNode) (alloc : Bool) : UciMem :=
  let ch := w.chan d
  if w.copying n.mhiDev then
    -- `skip_buf`: the device was opened once, and is not open now
    if n.refCount = 1 ∨ alloc = false then w
    else
      { w.setChan d { ch with pending := ch.pending ++ [.copy w.nextCopy] } with
        copies := w.nextCopy :: w.copies
        nextCopy := w.nextCopy + 1 }
  else w.setChan d { ch with pending := ch.pending ++ [.page] }

/-- `mhi_dl_xfer_cb`; what it does with the array is in `UciDrv.mhiDlXferCb`. -/
def mhiDlXferCb (w : UciMem) (m : Nat) : DlXfer → UciMem
  | .dropped => w
  | .data alloc =>
    match w.drv.devdata m with
    | none => w
    | some d =>
      match w.drv.dev d with
      | none => w
      | some n => if n.uciBuf.isSome then w.putPending d n alloc else w

/-- `mhi_uci_read`, until it drops the lock. -/
def readTake (w : UciMem) (d : Nat) (n : UciNode) : Option UciMem :=
  let ch := w.chan d
  if n.enabled = true ∧ ch.reading = none then
    match ch.curBuf, ch.pending with
    | some i, _ => some (w.setChan d { ch with reading := some i })
    | none, i :: rest =>
      some (w.setChan d { ch with pending := rest, curBuf := some i, reading := some i })
    | none, [] => none
  else none

/-- `mhi_uci_read` from `copy_to_user` on -/
def readEnd (w : UciMem) (d : Nat) (n : UciNode) (i : UciItem) (finished : Bool) : UciMem :=
  let ch := w.chan d
  let w := w.touchItem d n.uciBuf i
  if finished = false then w.setChan d { ch with reading := none }
  else
    let w := w.setChan d { ch with curBuf := none, reading := none }
    if n.enabled then
      match i with
      | .page => (w.touchItem d n.uciBuf .page).touchMhi n.mhiDev
      | .copy c => w.freeCopy c
    else
      -- `MSG_ERR`
      w.touchMhi n.mhiDev

/-- What is done with a file whose device is there. -/
def useNode (w : UciMem) (d : Nat) (n : UciNode) : UciUse → Option UciMem
  | .ioctl => some (if n.enabled then w.touchMhi n.mhiDev else w)
  | .poll => some (w.touchMhi n.mhiDev)
  | .read => w.readTake d n
  | .readEnd finished => (w.chan d).reading.map fun i ↦ w.readEnd d n i finished
  | .write =>
    if n.enabled = true ∧ (w.chan d).writing = false then
      some (w.setChan d { w.chan d with writing := true })
    else none
  | .writeOn more =>
    if (w.chan d).writing then
      some ((w.touchMhi n.mhiDev).setChan d { w.chan d with writing := more && n.enabled })
    else none

/-- Which steps of the driver can be taken.  A file is not released while it is being read or
written, and nobody probes an MHI device that was freed. -/
def admits (w : UciMem) : UciDrv.Act → Bool
  | .probe m _ => !w.destroyed m
  | .release d => !(w.chan d).busy || decide (1 < w.drv.files.count d)
  | .use _ | .callback _ => false
  | _ => true

/-- What a step of the driver does to the lists: `INIT_LIST_HEAD` in `mhi_uci_probe`, and what the
last `mhi_uci_release` does. -/
def chanAfter (w : UciMem) : UciDrv.Act → Nat → UciChan
  | .create _ => Function.update w.chan w.drv.nextDev .fresh
  | .release d =>
    if ((w.drv.dev d).any fun n ↦ n.refCount = 1) = true then
      Function.update w.chan d { w.chan d with curBuf := none }
    else w.chan
  | _ => w.chan

def step (w : UciMem) : Act → Option UciMem
  | .drv a =>
    if w.admits a then (w.drv.step a).map fun drv ↦ { w with drv, chan := w.chanAfter a } else none
  | .callback m result =>
    (w.drv.step (.callback m)).map fun drv ↦ { w with drv }.mhiDlXferCb m result
  | .use d u =>
    (w.drv.step (.use d)).bind fun drv ↦
      match drv.dev d with
      | none => some { w with drv }
      | some n => { w with drv }.useNode d n u
  | .destroy m =>
    if w.drv.devdata m = none ∧ m ∉ w.drv.probing.map Prod.fst then
      some { w with destroyed := Function.update w.destroyed m true }
    else none

/-- The driver when the module has been loaded. -/
def init (copying : Nat → Bool) : UciMem where
  drv := UciDrv.init
  copying
  chan _ := .fresh
  copies := []
  nextCopy := 0
  destroyed _ := false
  faults := []

end UciMem

/-! ## What a step of the driver does to its devices -/

namespace UciDrv

variable {w w' : UciDrv} {a : Act}

/-- The device that a step frees. -/
def frees (w : UciDrv) : Act → Option Nat
  | .release d =>
    if ((w.dev d).any fun n ↦ n.refCount = 1 ∧ n.enabled = false) = true then some d else none
  | .remove m => (w.devdata m).filter fun d ↦ (w.dev d).any fun n ↦ n.refCount ≤ 1
  | _ => none

def Exists (w : UciDrv) (d : Nat) : Prop := ∃ n, w.dev d = some n

theorem exists_of_any {p : UciNode → Bool} {d : Nat} (h : (w.dev d).any p = true) : w.Exists d := by
  cases hd : w.dev d with
  | none => simp [hd] at h
  | some n => exact ⟨n, hd⟩

theorem exists_of_frees {d : Nat} (h : w.frees a = some d) : w.Exists d := by
  cases a with
  | release e =>
    obtain ⟨hany, rfl⟩ := Trace.of_guard h
    exact exists_of_any hany
  | remove m => exact exists_of_any (Option.filter_eq_some_iff.mp h).2
  | _ => exact absurd h (by simp [frees])

theorem exists_update {d e : Nat} {n : UciNode} {n' : UciNode} (hd : w.dev d = some n) :
    (∃ x, Function.update w.dev d (some n') e = some x) ↔ w.Exists e := by
  have hiff : (∃ x, Function.update w.dev d (some n') e = some x ∧ True) ↔
      ∃ x, w.dev e = some x ∧ True := exists_update_iff hd Iff.rfl
  simpa [Exists] using hiff

theorem exists_freed {d e : Nat} :
    (∃ x, Function.update w.dev d none e = some x) ↔ w.Exists e ∧ e ≠ d := by
  rcases Decidable.em (e = d) with rfl | hne
  · simp
  · simp [Exists, hne]

theorem use_inv (h : w.Counted) {d : Nat} (hs : step w (.use d) = some w') :
    d ∈ w.files ∧ w' = w ∧ w.Exists d := by
  obtain ⟨hfile, rfl⟩ := Trace.of_guard hs
  obtain ⟨n, hd⟩ := h.filed d hfile
  rw [hd]
  exact ⟨hfile, rfl, n, hd⟩

theorem callback_inv (h : w.Counted) (ho : w.Owned) {m : Nat}
    (hs : step w (.callback m) = some w') : w' = w := by
  cases step_does h hs with
  | stay => rfl
  | callback _ d n b hm hd hen hdev hbuf hfree => exact absurd (ho.live hd hbuf) hfree

/-- A step that frees no device and makes none. -/
theorem exists_iff_of_keeps {e : Nat} (hfrees : w.frees a = none) (hcreate : ∀ m, a ≠ .create m)
    (h : w'.Exists e ↔ w.Exists e) :
    w'.Exists e ↔ w.Exists e ∧ w.frees a ≠ some e ∨ (∃ m, a = .create m) ∧ e = w.nextDev := by
  simp [h, hfrees, hcreate]

/-- A step that frees the device `d`. -/
theorem exists_iff_of_frees {d e : Nat} (hfrees : w.frees a = some d) (hcreate : ∀ m, a ≠ .create m)
    (h : w'.Exists e ↔ w.Exists e ∧ e ≠ d) :
    w'.Exists e ↔ w.Exists e ∧ w.frees a ≠ some e ∨ (∃ m, a = .create m) ∧ e = w.nextDev := by
  simp [h, hfrees, hcreate, eq_comm (a := d)]

/-- Which devices there are after a step. -/
theorem exists_step_iff (h : w.Counted) (hs : step w a = some w') (e : Nat) :
    w'.Exists e ↔ w.Exists e ∧ w.frees a ≠ some e ∨ (∃ m, a = .create m) ∧ e = w.nextDev := by
  cases a with
  | probe m alloc =>
    refine exists_iff_of_keeps rfl (by simp) ?_
    cases step_does h hs with
    | stay => rfl
    | probe => rfl
  | create m =>
    obtain ⟨minor, -, rfl⟩ := Option.map_eq_some_iff.mp hs
    rcases Decidable.em (e = w.nextDev) with rfl | hne
    · simp [Exists, mhiUciProbe]
    · simp [Exists, mhiUciProbe, frees, hne]
  | openFile minor prepare inbound =>
    refine exists_iff_of_keeps rfl (by simp) ?_
    cases step_does h hs with
    | stay => rfl
    | attach _ _ _ d n hd => exact exists_update hd
    | start _ d n hd => exact exists_update hd
    | fail _ _ d n hd => exact exists_update hd
  | use d =>
    obtain ⟨-, rfl, -⟩ := use_inv h hs
    exact exists_iff_of_keeps rfl (by simp) Iff.rfl
  | callback m =>
    refine exists_iff_of_keeps rfl (by simp) ?_
    cases step_does h hs with
    | stay => rfl
    | callback => rfl
  | release d =>
    obtain ⟨hfile, rfl⟩ := Trace.of_guard hs
    obtain ⟨n, hd, ⟨hmore, he⟩ | ⟨hdis, hone, he⟩⟩ := release_cases h hfile
    · refine exists_iff_of_keeps ?_ (by simp) ?_
      · rw [frees, hd]
        simp [show n.refCount ≠ 1 by omega]
      · rw [he]
        exact exists_update hd
    · refine exists_iff_of_frees (d := d) ?_ (by simp) ?_
      · rw [frees, hd]
        simp [hone, hdis]
      · obtain ⟨bufs, faults, hfree, -⟩ :=
          freeUciBuf_eq { w with files := w.files.erase d } n.uciBuf
        rw [he, hfree]
        exact exists_freed
  | remove m =>
    cases step_does h hs with
    | stay _ hstay => exact absurd rfl (hstay m)
    | remove _ d n hm hd hen hdev hfiled =>
      refine exists_iff_of_keeps ?_ (by simp) (exists_update hd)
      rw [frees, hm]
      simp [hd, hfiled]
    | free _ d n hm hd hen hdev hclosed =>
      refine exists_iff_of_frees ?_ (by simp) exists_freed
      rw [frees, hm]
      simp [hd, hclosed]

/-- A file is closed by `mhi_uci_release` only. -/
theorem mem_files_step (h : w.Counted) (hs : step w a = some w') {d : Nat} (hd : d ∈ w.files)
    (hmore : a = .release d → 1 < w.files.count d) : d ∈ w'.files := by
  have herase : ∀ e, a = .release e → d ∈ w.files.erase e := by
    intro e ha
    rcases Decidable.em (d = e) with rfl | hne
    · have hcount := hmore ha
      rw [← List.count_pos_iff, List.count_erase_self]
      omega
    · exact (List.mem_erase_of_ne hne).mpr hd
  cases step_does h hs with
  | attach | start => exact List.mem_cons_of_mem _ hd
  | release e => exact herase e rfl
  | last e n =>
    obtain ⟨bufs, faults, hfree, -⟩ := freeUciBuf_eq { w with files := w.files.erase e } n.uciBuf
    rw [hfree]
    exact herase e rfl
  | _ => exact hd

/-- An MHI device is bound by the rest of `mhi_uci_probe` only. -/
theorem devdata_step (h : w.Counted) (hs : step w a = some w') {m d : Nat}
    (hm : w'.devdata m = some d) : w.devdata m = some d ∨ m ∈ w.probing.map Prod.fst := by
  cases step_does h hs with
  | create m' minor hmem =>
    rcases Decidable.em (m = m') with rfl | hne
    · exact .inr (List.mem_map_of_mem hmem)
    · exact .inl (of_update_ne hm hne)
  | remove m' | free m' =>
    rcases Decidable.em (m = m') with rfl | hne
    · exact absurd hm (by simp [freeDev])
    · exact .inl (of_update_ne hm hne)
  | last e n =>
    obtain ⟨bufs, faults, hfree, -⟩ := freeUciBuf_eq { w with files := w.files.erase e } n.uciBuf
    rw [hfree] at hm
    exact .inl hm
  | _ => exact .inl hm

theorem probing_step (h : w.Counted) (hs : step w a = some w') {m : Nat}
    (hm : m ∈ w'.probing.map Prod.fst) :
    m ∈ w.probing.map Prod.fst ∨ ∃ alloc, a = .probe m alloc := by
  cases step_does h hs with
  | probe m' =>
    rcases List.mem_cons.mp hm with rfl | hm
    · exact .inr ⟨true, rfl⟩
    · exact .inl hm
  | create m' =>
    obtain ⟨p, hp, rfl⟩ := List.mem_map.mp hm
    exact .inl (List.mem_map_of_mem (List.mem_filter.mp hp).1)
  | last e n =>
    obtain ⟨bufs, faults, hfree, -⟩ := freeUciBuf_eq { w with files := w.files.erase e } n.uciBuf
    rw [hfree] at hm
    exact .inl hm
  | _ => exact .inl hm

end UciDrv

/-! ## The lists -/

namespace UciChan

@[simp] theorem copies_fresh : fresh.copies = [] := rfl

theorem copies_concat (ch : UciChan) (i : UciItem) :
    { ch with pending := ch.pending ++ [i] }.copies = ch.copies ++ i.copyOf.toList := by
  cases i <;> simp [copies]

theorem copies_take {ch : UciChan} {i : UciItem} {rest : List UciItem} (hcur : ch.curBuf = none)
    (hp : ch.pending = i :: rest) (r : Option UciItem) :
    { ch with pending := rest, curBuf := some i, reading := r }.copies = ch.copies := by
  simp [copies, hcur, hp]

/-- The copies in the list, and the one that is being read. -/
theorem copies_cur {ch : UciChan} {i : UciItem} (hcur : ch.curBuf = some i)
    (r : Option UciItem) :
    ch.copies = i.copyOf.toList ++ { ch with curBuf := none, reading := r }.copies := by
  cases i <;> simp [copies, hcur, List.filterMap_cons]

end UciChan

/-! ## Who frees the copies -/

namespace UciMem

variable {w w' : UciMem} {a : Act}

def Holds (w : UciMem) (d c : Nat) : Prop := w.drv.Exists d ∧ c ∈ (w.chan d).copies

/-- A copy that is in no list any more. -/
def Lost (w : UciMem) : Prop := Ownership.Lost w.Holds w.copies

/-- Whether `mhi_queue_inbound` succeeds. -/
def queuesInbound (w : UciMem) (a : Act) : Bool := a.node.all w.drv.queuesInbound

/-- Whether a device that is removed is open, if it was ever opened. -/
def removedOpen (w : UciMem) (a : Act) : Bool := a.node.all w.drv.removedOpen

/-- Whether a call that looks at the MHI device comes before it is freed. -/
def usesBound (w : UciMem) : Act → Bool
  | .use d .poll | .use d (.writeOn _) | .use d (.readEnd true) =>
    !((w.drv.dev d).any fun n ↦ w.destroyed n.mhiDev)
  | _ => true

/-- Whether a device that is freed has no copies in its list, and a `mhi_uci_read` that has finished
a copy finds the device enabled. -/
def keepsCopies (w : UciMem) : Act → Bool
  | .drv a => (w.drv.frees a).all fun d ↦ (w.chan d).copies = []
  | .use d (.readEnd true) =>
    (w.drv.dev d).any (·.enabled) || (((w.chan d).reading.bind UciItem.copyOf).isNone : Bool)
  | _ => true

/-- Whether a step is not one of those that these four are about. -/
def plain (w : UciMem) (a : Act) : Bool := w.removedOpen a && w.usesBound a && w.keepsCopies a

structure Kept (w : UciMem) : Prop where
  counted : w.drv.Counted
  arrays : w.drv.Owned
  owned : Ownership.Owned w.Holds w.copies w.nextCopy
  once : ∀ d, (w.chan d).copies.Nodup
  reading : ∀ d i, (w.chan d).reading = some i → (w.chan d).curBuf = some i
  filed : ∀ d, (w.chan d).busy = true → d ∈ w.drv.files
  bound : ∀ m d, w.drv.devdata m = some d → w.destroyed m = false
  probed : ∀ m, m ∈ w.drv.probing.map Prod.fst → w.destroyed m = false
  faults_eq : ∀ f ∈ w.faults, ∃ m, f = .usedMhi m

/-- What a step comes to. -/
structure Lands (w : UciMem) (a : Act) (w' : UciMem) : Prop where
  kept : w'.Kept
  arrays : w'.drv.Lost ↔ w.drv.Lost ∨ w.removedOpen a = false
  lost : w'.Lost ↔ w.Lost ∨ w.keepsCopies a = false
  faults : w'.faults ≠ [] ↔ w.faults ≠ [] ∨ w.usesBound a = false

theorem Lands.of_eq (hplain : w.plain a = true) (hkept : w'.Kept) (hdrv : w'.drv = w.drv)
    (hlost : w'.Lost ↔ w.Lost) (hfaults : w'.faults = w.faults) : Lands w a w' := by
  rw [plain, Bool.and_eq_true, Bool.and_eq_true] at hplain
  obtain ⟨⟨hopen, hbound⟩, hkeeps⟩ := hplain
  refine ⟨hkept, ?_, ?_, ?_⟩
  · simp [hdrv, hopen]
  · simp [hlost, hkeeps]
  · simp [hfaults, hbound]

theorem Kept.stay (h : w.Kept) (hplain : w.plain a = true) : Lands w a w :=
  .of_eq hplain h rfl Iff.rfl rfl

/-! ### Steps of the driver -/

theorem copies_chanAfter (h : w.Kept) {a : UciDrv.Act} {drv : UciDrv}
    (hs : w.drv.step a = some drv) {d : Nat} (hd : w.drv.Exists d)
    (hkept : w.drv.frees a ≠ some d) :
    w.chanAfter a d = w.chan d := by
  cases a with
  | create m =>
    obtain ⟨n, hn⟩ := hd
    exact Function.update_of_ne (Nat.ne_of_lt (h.counted.fresh d n hn)) _ _
  | release e =>
    rw [chanAfter]
    split
    · rename_i hone
      refine Function.update_of_ne ?_ _ _
      rintro rfl
      obtain ⟨hfile, -⟩ := Trace.of_guard hs
      obtain ⟨n, hn, ⟨hmore, -⟩ | ⟨hdis, hone', -⟩⟩ := UciDrv.release_cases h.counted hfile
      · simp only [hn, Option.any_some, decide_eq_true_eq] at hone
        omega
      · exact hkept (by simp [UciDrv.frees, hn, hone', hdis])
    · rfl
  | _ => rfl

theorem Kept.holds_step_iff (h : w.Kept) {a : UciDrv.Act} {drv : UciDrv}
    (hs : w.drv.step a = some drv) (d c : Nat) :
    { w with drv, chan := w.chanAfter a }.Holds d c ↔ w.Holds d c ∧ w.drv.frees a ≠ some d := by
  show drv.Exists d ∧ c ∈ (w.chanAfter a d).copies ↔ _
  rw [UciDrv.exists_step_iff h.counted hs]
  constructor
  · rintro ⟨⟨hd, hkept⟩ | ⟨⟨m, rfl⟩, rfl⟩, hc⟩
    · rw [copies_chanAfter h hs hd hkept] at hc
      exact ⟨⟨hd, hc⟩, hkept⟩
    · simp [chanAfter] at hc
  · rintro ⟨⟨hd, hc⟩, hkept⟩
    refine ⟨.inl ⟨hd, hkept⟩, ?_⟩
    rwa [copies_chanAfter h hs hd hkept]

/-- Who frees a device lets go of its copies. -/
theorem Kept.drops_iff (h : w.Kept) {a : UciDrv.Act} {drv : UciDrv}
    (hs : w.drv.step a = some drv) :
    (∃ d c, w.Holds d c ∧ ¬ { w with drv, chan := w.chanAfter a }.Holds d c) ↔
      w.keepsCopies (.drv a) = false := by
  have hholds := h.holds_step_iff hs
  constructor
  · rintro ⟨d, c, hc, hnot⟩
    have hfrees : w.drv.frees a = some d := by
      by_contra hne
      exact hnot ((hholds d c).mpr ⟨hc, hne⟩)
    simp [keepsCopies, hfrees, List.ne_nil_of_mem hc.2]
  · intro hkeeps
    obtain ⟨d, hfrees, hcopies⟩ : ∃ d, w.drv.frees a = some d ∧ (w.chan d).copies ≠ [] := by
      cases hfrees : w.drv.frees a with
      | none => simp [keepsCopies, hfrees] at hkeeps
      | some d => exact ⟨d, rfl, by simpa [keepsCopies, hfrees] using hkeeps⟩
    obtain ⟨c, hc⟩ := List.exists_mem_of_ne_nil _ hcopies
    exact ⟨d, c, ⟨UciDrv.exists_of_frees hfrees, hc⟩, fun hnot ↦ ((hholds d c).mp hnot).2 hfrees⟩

theorem Kept.chanAfter_cases (h : w.Kept) {a : UciDrv.Act} {drv : UciDrv}
    (hs : w.drv.step a = some drv) (hadm : w.admits a = true) (d : Nat) :
    w.chanAfter a d = w.chan d ∨ w.chanAfter a d = .fresh ∨
      (w.chan d).busy = false ∧ w.chanAfter a d = { w.chan d with curBuf := none } := by
  cases a with
  | create m =>
    rcases Decidable.em (d = w.drv.nextDev) with rfl | hne
    · exact .inr (.inl (Function.update_self _ _ _))
    · exact .inl (Function.update_of_ne hne _ _)
  | release e =>
    rw [chanAfter]
    split
    · rename_i hone
      rcases Decidable.em (d = e) with rfl | hne
      · refine .inr (.inr ⟨?_, Function.update_self _ _ _⟩)
        obtain ⟨hfile, -⟩ := Trace.of_guard hs
        have hcount : 0 < w.drv.files.count d := List.count_pos_iff.mpr hfile
        obtain ⟨n, hn, ⟨hmore, -⟩ | ⟨hdis, -⟩⟩ := UciDrv.release_cases h.counted hfile
        · simp only [hn, Option.any_some, decide_eq_true_eq] at hone
          omega
        · -- it is the last file, so nobody reads or writes it
          simp only [hn, Option.any_some, decide_eq_true_eq] at hone
          have hrefs := (h.counted.removed d n hn hdis).1
          rw [admits, Bool.or_eq_true, decide_eq_true_eq, Bool.not_eq_true'] at hadm
          exact hadm.resolve_right (by omega)
      · exact .inl (Function.update_of_ne hne _ _)
    · exact .inl rfl
  | _ => exact .inl rfl

theorem Kept.drv_step (h : w.Kept) {a : UciDrv.Act} {drv : UciDrv}
    (hs : w.drv.step a = some drv) (hadm : w.admits a = true)
    (hqueues : w.drv.queuesInbound a = true) :
    Lands w (.drv a) { w with drv, chan := w.chanAfter a } := by
  obtain ⟨harrays, hlostArray⟩ :=
    h.arrays.does h.counted hqueues (UciDrv.step_does h.counted hs)
  have hholds := h.holds_step_iff hs
  obtain ⟨howned, hlost⟩ := h.owned.drop fun d c hc ↦ ((hholds d c).mp hc).1
  have hchan := h.chanAfter_cases hs hadm
  refine ⟨⟨h.counted.step hs, harrays, howned, fun d ↦ ?_, fun d i hi ↦ ?_, fun d hbusy ↦ ?_,
    fun m d hm ↦ ?_, fun m hm ↦ ?_, h.faults_eq⟩, hlostArray, ?_, ?_⟩
  · show (w.chanAfter a d).copies.Nodup
    obtain he | he | ⟨-, he⟩ := hchan d
    · exact he ▸ h.once d
    · simp [he]
    · rw [he]
      exact (h.once d).sublist ((List.sublist_append_right _ _).filterMap _)
  · change (w.chanAfter a d).reading = some i at hi
    show (w.chanAfter a d).curBuf = some i
    obtain he | he | ⟨hidle, he⟩ := hchan d
    · rw [he] at hi ⊢
      exact h.reading d i hi
    · simp [he, UciChan.fresh] at hi
    · rw [he] at hi
      simp [UciChan.busy, show (w.chan d).reading = some i from hi] at hidle
  · change (w.chanAfter a d).busy = true at hbusy
    have hbusy' : (w.chan d).busy = true := by
      obtain he | he | ⟨hidle, he⟩ := hchan d
      · rwa [he] at hbusy
      · simp [he, UciChan.fresh, UciChan.busy] at hbusy
      · rw [he] at hbusy
        exact hbusy
    refine UciDrv.mem_files_step h.counted hs (h.filed d hbusy') ?_
    rintro rfl
    simpa [admits, hbusy'] using hadm
  · obtain hm | hm := UciDrv.devdata_step h.counted hs hm
    · exact h.bound m d hm
    · exact h.probed m hm
  · obtain hm | ⟨alloc, rfl⟩ := UciDrv.probing_step h.counted hs hm
    · exact h.probed m hm
    · simpa [admits] using hadm
  · exact hlost.trans (or_congr_right (h.drops_iff hs))
  · simp [usesBound]

/-! ### One list is changed -/

section SetChan

variable {d : Nat} {ch : UciChan}

theorem holds_setChan (w : UciMem) (d : Nat) (ch : UciChan) (e c : Nat) :
    (w.setChan d ch).Holds e c ↔
      w.drv.Exists e ∧ c ∈ if e = d then ch.copies else (w.chan e).copies := by
  rw [Holds, setChan]
  dsimp only
  rw [Function.update_apply]
  split <;> rfl

theorem setChan_forall {p : Nat → UciChan → Prop} (hnew : p d ch) (hold : ∀ e, p e (w.chan e))
    (e : Nat) : p e ((w.setChan d ch).chan e) := by
  show p e (Function.update w.chan d ch e)
  rcases Decidable.em (e = d) with rfl | hne
  · rwa [Function.update_self]
  · rw [Function.update_of_ne hne]
    exact hold e

theorem Kept.setChan (h : w.Kept) (honce : ch.copies.Nodup)
    (hread : ∀ i, ch.reading = some i → ch.curBuf = some i)
    (hfiled : ch.busy = true → d ∈ w.drv.files) {copies : List Nat} {nextCopy : Nat}
    (howned : Ownership.Owned (w.setChan d ch).Holds copies nextCopy) :
    { w.setChan d ch with copies, nextCopy }.Kept where
  counted := h.counted
  arrays := h.arrays
  owned := howned
  once := setChan_forall (p := fun _ c ↦ c.copies.Nodup) honce h.once
  reading := setChan_forall (p := fun _ c ↦ ∀ i, c.reading = some i → c.curBuf = some i) hread
    h.reading
  filed := setChan_forall (p := fun e c ↦ c.busy = true → e ∈ w.drv.files) hfiled h.filed
  bound := h.bound
  probed := h.probed
  faults_eq := h.faults_eq

/-- The list keeps its copies. -/
theorem Kept.rearrange (h : w.Kept) (d : Nat) (ch : UciChan)
    (hcopies : ch.copies = (w.chan d).copies)
    (hread : ∀ i, ch.reading = some i → ch.curBuf = some i)
    (hfiled : ch.busy = true → d ∈ w.drv.files) :
    (w.setChan d ch).Kept ∧ ((w.setChan d ch).Lost ↔ w.Lost) := by
  have hholds : ∀ e c, (w.setChan d ch).Holds e c ↔ w.Holds e c := fun e c ↦ by
    rw [holds_setChan, Holds]
    rcases Decidable.em (e = d) with rfl | hne
    · rw [if_pos rfl, hcopies]
    · rw [if_neg hne]
  obtain ⟨howned, hlost⟩ := h.owned.congr hholds
  exact ⟨h.setChan (hcopies ▸ h.once d) hread hfiled howned, hlost⟩

theorem Kept.rearrange_lands (h : w.Kept) (hplain : w.plain a = true) (d : Nat) (ch : UciChan)
    (hcopies : ch.copies = (w.chan d).copies)
    (hread : ∀ i, ch.reading = some i → ch.curBuf = some i)
    (hfiled : ch.busy = true → d ∈ w.drv.files) : Lands w a (w.setChan d ch) := by
  obtain ⟨hkept, hlost⟩ := h.rearrange d ch hcopies hread hfiled
  exact .of_eq hplain hkept rfl hlost rfl

/-- `mhi_dl_xfer_cb` allocates a copy. -/
theorem Kept.put (h : w.Kept) (hd : w.drv.Exists d)
    (hcopies : ch.copies = (w.chan d).copies ++ [w.nextCopy])
    (hread : ∀ i, ch.reading = some i → ch.curBuf = some i)
    (hfiled : ch.busy = true → d ∈ w.drv.files)
    (hw' : w' = { w.setChan d ch with
      copies := w.nextCopy :: w.copies
      nextCopy := w.nextCopy + 1 }) : w'.Kept ∧ (w'.Lost ↔ w.Lost) := by
  subst hw'
  have hholds : ∀ e c, (w.setChan d ch).Holds e c ↔ e = d ∧ c = w.nextCopy ∨ w.Holds e c := by
    intro e c
    rw [holds_setChan, Holds]
    rcases Decidable.em (e = d) with rfl | hne
    · rw [if_pos rfl, hcopies]
      simp [hd, or_comm]
    · simp [hne]
  obtain ⟨howned, hlost⟩ := h.owned.alloc hholds
  refine ⟨h.setChan ?_ hread hfiled howned, hlost⟩
  rw [hcopies]
  refine List.nodup_append.mpr ⟨h.once d, by simp, fun c hc x hx ↦ ?_⟩
  obtain rfl := List.mem_singleton.mp hx
  exact Nat.ne_of_lt (h.owned.fresh c (h.owned.live d c ⟨hd, hc⟩))

/-- `mhi_uci_read` frees a copy. -/
theorem Kept.finish (h : w.Kept) (hd : w.drv.Exists d) {c : Nat}
    (hcopies : (w.chan d).copies = c :: ch.copies)
    (hread : ∀ i, ch.reading = some i → ch.curBuf = some i)
    (hfiled : ch.busy = true → d ∈ w.drv.files)
    (hw' : w' = { w.setChan d ch with copies := w.copies.erase c }) :
    w'.Kept ∧ (w'.Lost ↔ w.Lost) := by
  subst hw'
  have honce := h.once d
  rw [hcopies, List.nodup_cons] at honce
  have hhold : w.Holds d c := ⟨hd, hcopies ▸ List.mem_cons_self⟩
  have hholds : ∀ e x, (w.setChan d ch).Holds e x ↔ x ≠ c ∧ w.Holds e x := by
    intro e x
    rw [holds_setChan, Holds]
    rcases Decidable.em (e = d) with rfl | hne
    · rw [if_pos rfl, hcopies, List.mem_cons]
      constructor
      · rintro ⟨he, hx⟩
        exact ⟨ne_of_mem_of_not_mem hx honce.1, he, .inr hx⟩
      · rintro ⟨hx, he, hor⟩
        exact ⟨he, hor.resolve_left hx⟩
    · rw [if_neg hne]
      refine ⟨fun hx ↦ ⟨?_, hx⟩, And.right⟩
      rintro rfl
      exact hne (h.owned.alone e d x hx hhold)
  obtain ⟨howned, hlost⟩ := h.owned.free hhold hholds
  exact ⟨h.setChan honce.2 hread hfiled howned, hlost⟩

/-- `mhi_uci_read` does not free it if the device is disabled. -/
theorem Kept.leave (h : w.Kept) (hd : w.drv.Exists d) {c : Nat}
    (hcopies : (w.chan d).copies = c :: ch.copies)
    (hread : ∀ i, ch.reading = some i → ch.curBuf = some i)
    (hfiled : ch.busy = true → d ∈ w.drv.files) :
    (w.setChan d ch).Kept ∧ (w.setChan d ch).Lost := by
  have honce := h.once d
  rw [hcopies, List.nodup_cons] at honce
  have hsub : ∀ e x, (w.setChan d ch).Holds e x → w.Holds e x := by
    intro e x hx
    rw [holds_setChan] at hx
    rcases Decidable.em (e = d) with rfl | hne
    · rw [if_pos rfl] at hx
      exact ⟨hx.1, hcopies ▸ List.mem_cons_of_mem _ hx.2⟩
    · rwa [if_neg hne] at hx
  obtain ⟨howned, hlost⟩ := h.owned.drop hsub
  refine ⟨h.setChan honce.2 hread hfiled howned, hlost.mpr (.inr ⟨d, c, ?_, ?_⟩)⟩
  · exact ⟨hd, hcopies ▸ List.mem_cons_self⟩
  · rw [holds_setChan, if_pos rfl]
    exact fun hc ↦ honce.1 hc.2

end SetChan

/-! ### What is looked at -/

theorem Kept.touchMhi (h : w.Kept) (m : Nat) : ∃ faults, w.touchMhi m = { w with faults } ∧
    { w with faults }.Kept ∧ (faults ≠ [] ↔ w.faults ≠ [] ∨ w.destroyed m = true) := by
  rw [UciMem.touchMhi]
  split
  · rename_i hfreed
    refine ⟨.usedMhi m :: w.faults, rfl, { h with faults_eq := fun f hf ↦ ?_ }, by simp [hfreed]⟩
    obtain rfl | hf := List.mem_cons.mp hf
    · exact ⟨m, rfl⟩
    · exact h.faults_eq f hf
  · rename_i hfreed
    exact ⟨w.faults, rfl, h, by simp [hfreed]⟩

section Use

variable {d : Nat} {n : UciNode}

/-- The MHI device of a device that is bound has not been freed. -/
theorem Kept.touchMhi_of_enabled (h : w.Kept) (hd : w.drv.dev d = some n)
    (hen : n.enabled = true) : w.destroyed n.mhiDev = false :=
  h.bound n.mhiDev d ((h.counted.bound n.mhiDev d).mpr ⟨n, hd, hen, rfl⟩)

/-- A device that is open has its array. -/
theorem Kept.touchPage (h : w.Kept) (hd : w.drv.dev d = some n) (hfile : d ∈ w.drv.files) :
    w.touchItem d n.uciBuf .page = w := by
  have hcount : 0 < w.drv.files.count d := List.count_pos_iff.mpr hfile
  have hpos : 0 < n.refCount := by
    cases hen : n.enabled with
    | true =>
      have hrefs := h.counted.refs d n hd hen
      omega
    | false => exact (h.counted.removed d n hd hen).2
  obtain ⟨b, hb⟩ := h.arrays.has d n hd hpos
  have hlive := h.arrays.live hd hb
  rw [touchItem, if_pos (by simpa [hb] using hlive)]

theorem Kept.touchItem (h : w.Kept) (hd : w.drv.dev d = some n) (hfile : d ∈ w.drv.files)
    {i : UciItem} (hcur : (w.chan d).curBuf = some i) : w.touchItem d n.uciBuf i = w := by
  cases i with
  | page => exact h.touchPage hd hfile
  | copy c =>
    refine if_pos (h.owned.live d c ⟨⟨n, hd⟩, ?_⟩)
    rw [UciChan.copies_cur hcur none]
    exact List.mem_cons_self

/-- The last thing that a call does is to look at the MHI device. -/
theorem Lands.touch {u : UciMem} (hopen : w.removedOpen a = true) (hu : u.Kept)
    (hdrv : u.drv = w.drv) (hlost : u.Lost ↔ w.Lost ∨ w.keepsCopies a = false)
    (hfaults : u.faults = w.faults) {m : Nat} (hbound : w.usesBound a = !u.destroyed m) :
    Lands w a (u.touchMhi m) := by
  obtain ⟨faults, he, hkept, hmore⟩ := hu.touchMhi m
  rw [he]
  refine ⟨hkept, ?_, hlost, ?_⟩
  · simp [hdrv, hopen]
  rw [hbound, ← hfaults, Bool.not_eq_false']
  exact hmore

theorem touchMhi_setChan (w : UciMem) (m d : Nat) (ch : UciChan) :
    (w.touchMhi m).setChan d ch = (w.setChan d ch).touchMhi m := by
  rw [UciMem.touchMhi, UciMem.touchMhi, setChan_destroyed]
  split <;> rfl

theorem Kept.read_step (h : w.Kept) (hfile : d ∈ w.drv.files)
    (hs : w.readTake d n = some w') : Lands w (.use d .read) w' := by
  rw [readTake] at hs
  split at hs
  · split at hs
    · rename_i _ i hcur
      obtain rfl := Option.some.inj hs
      exact h.rearrange_lands rfl d { w.chan d with reading := some i } rfl
        (fun j hj ↦ hcur.trans hj) (fun _ ↦ hfile)
    · rename_i i rest hcur hpending
      obtain rfl := Option.some.inj hs
      exact h.rearrange_lands rfl d
        { w.chan d with pending := rest, curBuf := some i, reading := some i }
        (UciChan.copies_take hcur hpending _) (fun j hj ↦ hj) (fun _ ↦ hfile)
    · exact absurd hs (by simp)
  · exact absurd hs (by simp)

/-- `mhi_uci_read` has copied what it wanted. -/
theorem Kept.readEnd_step (h : w.Kept) (hd : w.drv.dev d = some n) (hfile : d ∈ w.drv.files)
    {i : UciItem} (hi : (w.chan d).reading = some i) (finished : Bool) :
    Lands w (.use d (.readEnd finished)) (w.readEnd d n i finished) := by
  have hcur := h.reading d i hi
  rw [UciMem.readEnd, h.touchItem hd hfile hcur]
  cases finished with
  | false =>
    rw [if_pos rfl]
    exact h.rearrange_lands rfl d { w.chan d with reading := none } rfl
      (fun j hj ↦ absurd hj (by simp)) (fun _ ↦ hfile)
  | true =>
    rw [if_neg (by simp)]
    have hcopies := UciChan.copies_cur hcur none
    have hread : ∀ j, (none : Option UciItem) = some j → (none : Option UciItem) = some j :=
      fun _ hj ↦ hj
    cases hen : n.enabled with
    | true =>
      have hdev := h.touchMhi_of_enabled hd hen
      have hplain : w.plain (.use d (.readEnd true)) = true := by
        have hopen : w.removedOpen (.use d (.readEnd true)) = true := rfl
        simp [plain, hopen, usesBound, keepsCopies, hd, hen, hdev]
      rw [if_pos rfl]
      cases i with
      | page =>
        obtain ⟨hkept, hlost⟩ := h.rearrange d _ hcopies.symm hread fun _ ↦ hfile
        dsimp only
        rw [hkept.touchPage hd hfile, UciMem.touchMhi, setChan_destroyed, hdev]
        exact .of_eq hplain hkept rfl hlost rfl
      | copy c =>
        have hhold : w.Holds d c := ⟨⟨n, hd⟩, hcopies ▸ List.mem_cons_self⟩
        obtain ⟨hkept, hlost⟩ := h.finish ⟨n, hd⟩ hcopies hread (fun _ ↦ hfile) rfl
        dsimp only
        rw [freeCopy, setChan_copies, if_pos (h.owned.live d c hhold)]
        exact .of_eq hplain hkept rfl hlost rfl
    | false =>
      have hbound : w.usesBound (.use d (.readEnd true)) = !w.destroyed n.mhiDev := by
        simp [usesBound, hd]
      rw [if_neg (by simp)]
      cases i with
      | page =>
        obtain ⟨hkept, hlost⟩ := h.rearrange d _ hcopies.symm hread fun _ ↦ hfile
        have hkeeps : w.keepsCopies (.use d (.readEnd true)) = true := by
          simp [keepsCopies, hi]
        exact .touch (w := w) rfl hkept rfl (by simp [hlost, hkeeps]) rfl hbound
      | copy c =>
        obtain ⟨hkept, hlost⟩ := h.leave ⟨n, hd⟩ hcopies hread fun _ ↦ hfile
        have hkeeps : w.keepsCopies (.use d (.readEnd true)) = false := by
          simp [keepsCopies, hd, hen, hi]
        exact .touch (w := w) rfl hkept rfl (by simp [hlost, hkeeps]) rfl hbound

theorem Kept.use_step (h : w.Kept) (hd : w.drv.dev d = some n) (hfile : d ∈ w.drv.files)
    {u : UciUse} (hs : w.useNode d n u = some w') : Lands w (.use d u) w' := by
  cases u with
  | ioctl =>
    obtain rfl := Option.some.inj hs
    split
    · rename_i hen
      rw [UciMem.touchMhi, h.touchMhi_of_enabled hd hen]
      exact h.stay rfl
    · exact h.stay rfl
  | poll =>
    obtain rfl := Option.some.inj hs
    exact .touch (w := w) rfl h rfl (by simp [keepsCopies]) rfl (by simp [usesBound, hd])
  | read => exact h.read_step hfile hs
  | readEnd finished =>
    obtain ⟨i, hi, rfl⟩ := Option.map_eq_some_iff.mp hs
    exact h.readEnd_step hd hfile hi finished
  | write =>
    obtain ⟨-, rfl⟩ := Trace.of_guard hs
    exact h.rearrange_lands rfl d { w.chan d with writing := true } rfl (h.reading d) fun _ ↦ hfile
  | writeOn more =>
    obtain ⟨-, rfl⟩ := Trace.of_guard hs
    obtain ⟨hkept, hlost⟩ := h.rearrange d
      { w.chan d with writing := more && n.enabled } rfl (h.reading d) (fun _ ↦ hfile)
    rw [touchMhi_setChan]
    exact .touch (w := w) rfl hkept rfl (by simp [hlost, keepsCopies]) rfl (by simp [usesBound, hd])

theorem Kept.put_step (h : w.Kept) {m : Nat} (hd : w.drv.dev d = some n) (alloc : Bool) :
    Lands w (.callback m (.data alloc)) (w.putPending d n alloc) := by
  rw [putPending]
  dsimp only
  split
  · split
    · exact h.stay rfl
    · obtain ⟨hkept, hlost⟩ := h.put ⟨n, hd⟩ (UciChan.copies_concat _ (.copy w.nextCopy))
        (h.reading d) (h.filed d) rfl
      exact .of_eq rfl hkept rfl hlost rfl
  · exact h.rearrange_lands rfl d { w.chan d with pending := (w.chan d).pending ++ [.page] }
      ((UciChan.copies_concat _ .page).trans (List.append_nil _)) (h.reading d) (h.filed d)

/-- `mhi_dl_xfer_cb` -/
theorem Kept.callback_step (h : w.Kept) (m : Nat) (result : DlXfer) :
    Lands w (.callback m result) (w.mhiDlXferCb m result) := by
  have hsame : Lands w (.callback m result) w := h.stay rfl
  cases result with
  | dropped => exact hsame
  | data alloc =>
    rw [UciMem.mhiDlXferCb]
    split
    · exact hsame
    · rename_i d hm
      split
      · exact hsame
      · rename_i n hd
        split
        · exact h.put_step hd alloc
        · exact hsame

end Use

/-! ### Runs -/

theorem Kept.step (h : w.Kept) (hqueues : w.queuesInbound a = true) (hs : w.step a = some w') :
    Lands w a w' := by
  cases a with
  | drv a =>
    rw [UciMem.step] at hs
    split at hs
    · rename_i hadm
      obtain ⟨drv, hdrv, rfl⟩ := Option.map_eq_some_iff.mp hs
      exact h.drv_step hdrv hadm hqueues
    · exact absurd hs (by simp)
  | callback m result =>
    obtain ⟨drv, hdrv, rfl⟩ := Option.map_eq_some_iff.mp hs
    obtain rfl := UciDrv.callback_inv h.counted h.arrays hdrv
    exact h.callback_step m result
  | use d u =>
    obtain ⟨drv, hdrv, hu⟩ := Option.bind_eq_some_iff.mp hs
    obtain ⟨hfile, rfl, n, hd⟩ := UciDrv.use_inv h.counted hdrv
    rw [hd] at hu
    exact h.use_step hd hfile hu
  | destroy m =>
    obtain ⟨⟨hm, hprobing⟩, rfl⟩ := Trace.of_guard hs
    have hne : ∀ {m'}, m' ≠ m → w.destroyed m' = false →
        Function.update w.destroyed m true m' = false := fun hne hm' ↦
      (Function.update_of_ne hne _ _).trans hm'
    refine .of_eq rfl
      { h with bound := fun m' d hd ↦ ?_, probed := fun m' hm' ↦ ?_ } rfl Iff.rfl rfl
    · refine hne ?_ (h.bound m' d hd)
      rintro rfl
      exact absurd hd (by simp [hm])
    · refine hne ?_ (h.probed m' hm')
      rintro rfl
      exact hprobing hm'

theorem init_kept (copying : Nat → Bool) : (init copying).Kept where
  counted := UciDrv.init_counted
  arrays := UciDrv.init_owned
  owned := ⟨by simp [init, Holds], by simp [init, Holds], by simp [init], by simp [init]⟩
  once := by simp [init]
  reading := by simp [init, UciChan.fresh]
  filed := by simp [init, UciChan.fresh, UciChan.busy]
  bound := by simp [init]
  probed := by simp [init]
  faults_eq := by simp [init]

/-- **What is left behind.**  In every run in which `mhi_queue_inbound` does not fail, no device, no
array and no copy is used or freed after it was freed.  An MHI device is, exactly when a call that
looks at it comes after it was freed: a file that is still open does not keep it.  When all files
are closed and all devices removed, no device is left and every minor is free again.  The arrays
have then been freed if and only if no device was removed that had been opened and was not open any
more, and the copies if and only if no device was freed with copies in its list and no
`mhi_uci_read` finished one after the device was removed. -/
theorem memory_freed_iff (copying : Nat → Bool) (as : List Act)
    (hqueues : Trace.always step queuesInbound (init copying) as = true)
    (h : Trace.run step (init copying) as = some w) :
    w.drv.faults = [] ∧ (∀ f ∈ w.faults, ∃ m, f = .usedMhi m) ∧
      (w.faults = [] ↔ Trace.always step usesBound (init copying) as = true) ∧
      ((∀ m, w.drv.devdata m = none) → w.drv.files = [] →
        (∀ d, w.drv.dev d = none) ∧ (∀ i, w.drv.uciMinors i = false) ∧
          (w.drv.bufs = [] ↔ Trace.always step removedOpen (init copying) as = true) ∧
          (w.copies = [] ↔ Trace.always step keepsCopies (init copying) as = true)) := by
  have hstep : ∀ u b v, queuesInbound u b = true → u.Kept → step u b = some v → Lands u b v :=
    fun _ _ _ hb hu hs ↦ hu.step hb hs
  have hinit := init_kept copying
  have hkept := Trace.run_invariant_of (fun u b v hb hu hs ↦ (hstep u b v hb hu hs).kept) hinit
    hqueues h
  have hmarks : ∀ {M : UciMem → Prop} {C : UciMem → Act → Bool},
      (∀ u b v, Lands u b v → (M v ↔ M u ∨ C u b = false)) → ¬ M (init copying) →
        (¬ M w ↔ Trace.always step C (init copying) as = true) := by
    intro M C hmark hnot
    rw [Trace.run_marks (fun u b v hb hu hs ↦ ⟨(hstep u b v hb hu hs).kept,
      hmark u b v (hstep u b v hb hu hs)⟩) hinit hqueues h, or_iff_right hnot, Bool.not_eq_false]
  refine ⟨hkept.arrays.faults_eq, hkept.faults_eq, ?_, fun hunbound hclosed ↦ ?_⟩
  · have hfaults := hmarks (M := fun u ↦ u.faults ≠ []) (fun _ _ _ hl ↦ hl.faults)
      (by simp [init])
    rwa [not_ne_iff] at hfaults
  · have hnone := hkept.counted.dev_eq_none hunbound hclosed
    refine ⟨hnone, hkept.counted.uciMinors_eq hnone, ?_, ?_⟩
    · have hbufs := hmarks (M := fun u ↦ u.drv.Lost) (fun _ _ _ hl ↦ hl.arrays)
        Ownership.not_lost_nil
      rwa [UciDrv.Lost, Ownership.lost_iff_of_none (by simp [UciDrv.Owns, hnone]),
        not_ne_iff] at hbufs
    · have hcopies := hmarks (M := Lost) (fun _ _ _ hl ↦ hl.lost) Ownership.not_lost_nil
      rwa [Lost, Ownership.lost_iff_of_none (by simp [Holds, UciDrv.Exists, hnone]),
        not_ne_iff] at hcopies

/-- Of two copies one is read.  Then the device is removed, and the file polled before it is
closed. -/
def sampleClosed : List Act :=
  [.drv (.probe 5 true), .drv (.create 5), .drv (.openFile 0 0 .queued), .callback 5 (.data true),
    .callback 5 (.data true), .use 0 .read, .use 0 (.readEnd true), .drv (.remove 5), .destroy 5,
    .use 0 .poll, .drv (.release 0)]

def sampleLeft : UciMem :=
  (Trace.run step (init fun m ↦ m == 5) sampleClosed).getD (init fun _ ↦ false)

theorem memory_freed_iff_sample : sampleLeft.drv.faults = [] ∧ sampleLeft.faults ≠ [] ∧
    sampleLeft.drv.bufs = [] ∧ sampleLeft.copies ≠ [] := by
  obtain ⟨hfaults, -, hbound, hfreed⟩ := memory_freed_iff (fun m ↦ m == 5) sampleClosed
    (w := sampleLeft) (by decide +kernel) (Trace.eq_some_getD (by decide +kernel))
  have hunbound : ∀ m, sampleLeft.drv.devdata m = none := by
    intro m
    show Function.update (Function.update (fun _ ↦ none) 5 (some 0)) 5 none m = none
    simp [Function.update_apply]
  obtain ⟨-, -, harrays, hcopies⟩ := hfreed hunbound (by decide +kernel)
  refine ⟨hfaults, fun hnil ↦ ?_, harrays.mpr (by decide +kernel), fun hnil ↦ ?_⟩
  · exact absurd (hbound.mp hnil) (by decide +kernel)
  · exact absurd (hcopies.mp hnil) (by decide +kernel)

end UciMem

end OpenwrtFeed.Mhi
