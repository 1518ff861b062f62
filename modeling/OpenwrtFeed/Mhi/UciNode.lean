import Mathlib.Data.List.Count
import Mathlib.Logic.Function.Basic
import OpenwrtFeed.Lib.Trace

/-!
# The nodes of the character devices

How long the devices of `mhi_uci.c` live.  `mhi_uci_probe` makes one for each channel, with a minor
that is free.  The first `mhi_uci_open` starts the channel and allocates the buffers, and counts
twice, so that closing the file does not stop the channel again (`QUEC_MHI_UCI_ALWAYS_OPEN`);
`mhi_uci_remove` takes that back.  The device is freed by `mhi_uci_remove`, or by the
`mhi_uci_release` of the last file if that comes later.

All of this is done under locks, except that `mhi_uci_probe` looks for a free minor before it takes
any, so that is a step of its own.  Memory gets a new name each time it is allocated, and what is
done with memory that was freed is kept in `faults`.  The lists of the devices and the MHI devices
are in `UciMem`, on top of this.
-/

set_option autoImplicit false

namespace OpenwrtFeed.Mhi

/-- What there is in `struct uci_dev` about its own life. -/
structure UciNode where
  /-- `MINOR(devt)` -/
  minor : Nat
  mhiDev : Nat
  refCount : Nat
  enabled : Bool
  /-- The array of buffers, together with their pages. -/
  uciBuf : Option Nat
  deriving DecidableEq, Repr

/-- How `mhi_queue_inbound` ends. -/
inductive Inbound where
  | queued
  /-- `kmalloc_array` fails. -/
  | noArray
  /-- `alloc_pages` fails for one of the buffers but the last. -/
  | noPage
  /-- `alloc_pages` fails for the last one, or `mhi_queue_transfer` does. -/
  | refused (errno : Nat)
  deriving DecidableEq, Repr

def Inbound.ret : Inbound → Int
  | .queued => 0
  | .noArray => -12
  | .noPage => -12
  | .refused errno => -(errno + 1)

inductive UciFault where
  /-- A `struct uci_dev` is used after `kfree`. -/
  | usedDev (d : Nat)
  /-- An array of buffers is used after `kfree`. -/
  | usedBuf (b : Nat)
  /-- An array of buffers is freed again. -/
  | freedAgain (b : Nat)
  /-- The pages of an array are freed, not all of which were allocated. -/
  | neverSet (b : Nat)
  deriving DecidableEq, Repr

structure UciDrv where
  uciMinors : Nat → Bool
  /-- `mhi_uci_drv.head` -/
  head : List Nat
  /-- The `struct uci_dev` that are allocated. -/
  dev : Nat → Option UciNode
  nextDev : Nat
  /-- `mhi_device_get_devdata` of the MHI devices that the driver is bound to. -/
  devdata : Nat → Option Nat
  /-- Whether the channels of an MHI device are started. -/
  started : Nat → Bool
  /-- The MHI devices whose `mhi_uci_probe` has found a minor. -/
  probing : List (Nat × Nat)
  /-- The `private_data` of the open files. -/
  files : List Nat
  /-- The arrays of buffers that are allocated. -/
  bufs : List Nat
  nextBuf : Nat
  faults : List UciFault

inductive UciDrv.Act where
  /-- The beginning of `mhi_uci_probe`; `alloc` says whether `kzalloc` succeeds. -/
  | probe (m : Nat) (alloc : Bool)
  /-- The rest of it. -/
  | create (m : Nat)
  /-- `mhi_uci_open`, with what `mhi_prepare_for_transfer` and `mhi_queue_inbound` return. -/
  | openFile (minor : Nat) (prepare : Int) (inbound : Inbound)
  /-- `mhi_uci_read`, `mhi_uci_write`, `mhi_uci_poll` or `mhi_uci_ioctl` of an open file -/
  | use (d : Nat)
  /-- `mhi_dl_xfer_cb` -/
  | callback (m : Nat)
  | release (d : Nat)
  | remove (m : Nat)
  deriving DecidableEq, Repr

namespace UciDrv

def fault (w : UciDrv) (f : UciFault) : UciDrv := { w with faults := f :: w.faults }

def setDev (w : UciDrv) (d : Nat) (n : UciNode) : UciDrv :=
  { w with dev := Function.update w.dev d (some n) }

/-- `clear_bit` and `kfree` -/
def freeDev (w : UciDrv) (d minor : Nat) : UciDrv :=
  { w with
    dev := Function.update w.dev d none
    uciMinors := Function.update w.uciMinors minor false }

/-- The loop of `__free_pages`, and `kfree` of the array. -/
def freeUciBuf (w : UciDrv) : Option Nat → UciDrv
  | none => w
  | some b => if b ∈ w.bufs then { w with bufs := w.bufs.erase b } else w.fault (.freedAgain b)

def findFirstZeroBit (w : UciDrv) : Option Nat := (List.range 64).find? fun i ↦ !w.uciMinors i

/-- The rest of `mhi_uci_probe`. -/
def mhiUciProbe (w : UciDrv) (m minor : Nat) : UciDrv :=
  { w with
    dev := Function.update w.dev w.nextDev
      (some { minor, mhiDev := m, refCount := 0, enabled := true, uciBuf := none })
    nextDev := w.nextDev + 1
    uciMinors := Function.update w.uciMinors minor true
    devdata := Function.update w.devdata m (some w.nextDev)
    head := w.nextDev :: w.head
    probing := w.probing.filter fun p ↦ p.1 ≠ m }

/-- The loop over the list in `mhi_uci_open`.  It cannot get past a device that was freed. -/
def lookup (w : UciDrv) (minor : Nat) : Option Nat :=
  w.head.find? fun d ↦ (w.dev d).all fun n ↦ n.minor = minor

/-- What `mhi_queue_inbound` allocates. -/
def mhiQueueInbound (w : UciDrv) (n : UciNode) (inbound : Inbound) : UciDrv × UciNode :=
  match n.uciBuf, inbound with
  | some _, _ => (w, n)
  | none, .noArray => (w, n)
  | none, _ =>
    ({ w with bufs := w.nextBuf :: w.bufs, nextBuf := w.nextBuf + 1 },
      { n with uciBuf := some w.nextBuf })

/-- The label `error_rx_queue` of `mhi_uci_open`. -/
def errorRxQueue (w : UciDrv) (n : UciNode) (inbound : Inbound) : UciDrv :=
  let w := { w with started := Function.update w.started n.mhiDev false }
  let w :=
    match n.uciBuf, inbound with
    | some b, .noPage => w.fault (.neverSet b)
    | _, _ => w
  w.freeUciBuf n.uciBuf

/-- `mhi_uci_open` for the first file, from `mhi_prepare_for_transfer` on -/
def startNode (w : UciDrv) (d : Nat) (n : UciNode) (prepare : Int) (inbound : Inbound) :
    UciDrv × Int :=
  if prepare ≠ 0 then (w, prepare)
  else
    let w := { w with started := Function.update w.started n.mhiDev true }
    let (w, n) := w.mhiQueueInbound { n with refCount := 1 } inbound
    if inbound.ret ≠ 0 then ((w.setDev d n).errorRxQueue n inbound, inbound.ret)
    else ({ w.setDev d { n with refCount := 2 } with files := d :: w.files }, 0)

def mhiUciOpen (w : UciDrv) (minor : Nat) (prepare : Int) (inbound : Inbound) : UciDrv × Int :=
  match w.lookup minor with
  | none => (w, -5)
  | some d =>
    match w.dev d with
    | none => (w.fault (.usedDev d), -5)
    | some n =>
      if n.enabled = false then (w, -5)
      else if n.refCount + 1 = 1 then w.startNode d n prepare inbound
      else
        ({ w.setDev d { n with refCount := n.refCount + 1 } with files := d :: w.files }, 0)

def mhiUciRelease (w : UciDrv) (d : Nat) : UciDrv :=
  let w := { w with files := w.files.erase d }
  match w.dev d with
  | none => w.fault (.usedDev d)
  | some n =>
    let n := { n with refCount := n.refCount - 1 }
    if n.refCount ≠ 0 then w.setDev d n
    else
      let w :=
        if n.enabled then { w with started := Function.update w.started n.mhiDev false } else w
      let w := w.freeUciBuf n.uciBuf
      if n.enabled = false then w.freeDev d n.minor else w.setDev d n

/-- `mhi_uci_remove`, with what `mhi_driver_remove` does before -/
def mhiUciRemove (w : UciDrv) (m d : Nat) : UciDrv :=
  let w := { w with
    started := Function.update w.started m false
    devdata := Function.update w.devdata m none }
  match w.dev d with
  | none => w.fault (.usedDev d)
  | some n =>
    let w := { w with head := w.head.erase d }
    let n := { n with enabled := false, refCount := n.refCount - 1 }
    if n.refCount = 0 then w.freeDev d n.minor else w.setDev d n

/-- What `mhi_dl_xfer_cb` touches. -/
def mhiDlXferCb (w : UciDrv) (d : Nat) : UciDrv :=
  match w.dev d with
  | none => w.fault (.usedDev d)
  | some n =>
    match n.uciBuf with
    | none => w
    | some b => if b ∈ w.bufs then w else w.fault (.usedBuf b)

def step (w : UciDrv) : Act → Option UciDrv
  | .probe m alloc =>
    if w.devdata m = none ∧ m ∉ w.probing.map Prod.fst then
      some (match alloc, w.findFirstZeroBit with
        | true, some minor => { w with probing := (m, minor) :: w.probing }
        | _, _ => w)
    else none
  | .create m => (w.probing.lookup m).map fun minor ↦ w.mhiUciProbe m minor
  | .openFile minor prepare inbound => some (w.mhiUciOpen minor prepare inbound).1
  | .use d =>
    if d ∈ w.files then some (if (w.dev d).isSome then w else w.fault (.usedDev d)) else none
  | .callback m => if w.started m then (w.devdata m).map w.mhiDlXferCb else none
  | .release d => if d ∈ w.files then some (w.mhiUciRelease d) else none
  | .remove m => (w.devdata m).map fun d ↦ w.mhiUciRemove m d

/-- The driver when the module has been loaded. -/
def init : UciDrv where
  uciMinors _ := false
  head := []
  dev _ := none
  nextDev := 0
  devdata _ := none
  started _ := false
  probing := []
  files := []
  bufs := []
  nextBuf := 0
  faults := []

variable {w w' : UciDrv} {a : Act}

/-! ## How the files are counted -/

/-- What holds in every run, whatever fails. -/
structure Counted (w : UciDrv) : Prop where
  listed : ∀ d, d ∈ w.head ↔ ∃ n, w.dev d = some n ∧ n.enabled = true
  nodup : w.head.Nodup
  bound : ∀ m d, w.devdata m = some d ↔ ∃ n, w.dev d = some n ∧ n.enabled = true ∧ n.mhiDev = m
  filed : ∀ d ∈ w.files, ∃ n, w.dev d = some n
  /-- A device that is bound is counted once more than it is open, if it has ever been opened. -/
  refs : ∀ d n, w.dev d = some n → n.enabled = true →
    n.refCount = w.files.count d + 1 ∨
      n.refCount = 0 ∧ w.files.count d = 0 ∧ n.uciBuf = none ∧ w.started n.mhiDev = false
  removed : ∀ d n, w.dev d = some n → n.enabled = false →
    n.refCount = w.files.count d ∧ 0 < n.refCount
  stopped : ∀ m, w.devdata m = none → w.started m = false
  probed : ∀ m minor, (m, minor) ∈ w.probing → w.devdata m = none
  marked : ∀ i, w.uciMinors i = true → ∃ d n, w.dev d = some n ∧ n.minor = i
  fresh : ∀ d n, w.dev d = some n → d < w.nextDev
  unused : ∀ d, .usedDev d ∉ w.faults

/-- What a step does. -/
inductive Does (w : UciDrv) : Act → UciDrv → Prop where
  | stay (a : Act) (hstay : ∀ m, a ≠ .remove m) : Does w a w
  | probe (m minor : Nat) (hm : w.devdata m = none) (hfree : w.findFirstZeroBit = some minor) :
    Does w (.probe m true) { w with probing := (m, minor) :: w.probing }
  | create (m minor : Nat) (hm : (m, minor) ∈ w.probing) :
    Does w (.create m) (w.mhiUciProbe m minor)
  | attach (minor : Nat) (prepare : Int) (inbound : Inbound) (d : Nat) (n : UciNode)
    (hd : w.dev d = some n) (hen : n.enabled = true) (hpos : 0 < n.refCount) :
    Does w (.openFile minor prepare inbound)
      { w.setDev d { n with refCount := n.refCount + 1 } with files := d :: w.files }
  | start (minor d : Nat) (n : UciNode) (hd : w.dev d = some n) (hen : n.enabled = true)
    (hzero : n.refCount = 0) (hbuf : n.uciBuf = none) :
    Does w (.openFile minor 0 .queued)
      { w with
        dev := Function.update w.dev d (some { n with refCount := 2, uciBuf := some w.nextBuf })
        started := Function.update w.started n.mhiDev true
        files := d :: w.files
        bufs := w.nextBuf :: w.bufs
        nextBuf := w.nextBuf + 1 }
  | fail (minor : Nat) (inbound : Inbound) (d : Nat) (n : UciNode) (hd : w.dev d = some n)
    (hen : n.enabled = true) (hzero : n.refCount = 0) (hbuf : n.uciBuf = none)
    (hfail : inbound.ret ≠ 0) (uciBuf : Option Nat) (bufs : List Nat) (nextBuf : Nat)
    (faults : List UciFault) (hunused : ∀ d, .usedDev d ∈ faults → .usedDev d ∈ w.faults) :
    Does w (.openFile minor 0 inbound)
      { w with
        dev := Function.update w.dev d (some { n with refCount := 1, uciBuf })
        started := Function.update w.started n.mhiDev false
        bufs, nextBuf, faults }
  | callback (m d : Nat) (n : UciNode) (b : Nat) (hm : w.started m = true)
    (hd : w.dev d = some n) (hen : n.enabled = true) (hdev : n.mhiDev = m)
    (hbuf : n.uciBuf = some b) (hfree : b ∉ w.bufs) :
    Does w (.callback m) (w.fault (.usedBuf b))
  | release (d : Nat) (n : UciNode) (hfile : d ∈ w.files) (hd : w.dev d = some n)
    (hmore : 1 < n.refCount) :
    Does w (.release d)
      { w.setDev d { n with refCount := n.refCount - 1 } with files := w.files.erase d }
  | last (d : Nat) (n : UciNode) (hfile : d ∈ w.files) (hd : w.dev d = some n)
    (hdis : n.enabled = false) (hone : n.refCount = 1) :
    Does w (.release d)
      (({ w with files := w.files.erase d }.freeUciBuf n.uciBuf).freeDev d n.minor)
  | remove (m d : Nat) (n : UciNode) (hm : w.devdata m = some d) (hd : w.dev d = some n)
    (hen : n.enabled = true) (hdev : n.mhiDev = m) (hfiled : 1 < n.refCount) :
    Does w (.remove m)
      { w with
        dev := Function.update w.dev d
          (some { n with enabled := false, refCount := n.refCount - 1 })
        started := Function.update w.started m false
        devdata := Function.update w.devdata m none
        head := w.head.erase d }
  | free (m d : Nat) (n : UciNode) (hm : w.devdata m = some d) (hd : w.dev d = some n)
    (hen : n.enabled = true) (hdev : n.mhiDev = m) (hclosed : n.refCount ≤ 1) :
    Does w (.remove m)
      ({ w with
        started := Function.update w.started m false
        devdata := Function.update w.devdata m none
        head := w.head.erase d }.freeDev d n.minor)

/-- The device that `mhi_uci_open` finds. -/
theorem Counted.lookup (h : w.Counted) {minor d : Nat} (hl : w.lookup minor = some d) :
    ∃ n, w.dev d = some n ∧ n.enabled = true ∧ n.minor = minor := by
  obtain ⟨n, hd, hen⟩ := (h.listed d).mp (List.mem_of_find?_eq_some hl)
  have hall := List.find?_some hl
  rw [hd, Option.all_some, decide_eq_true_eq] at hall
  exact ⟨n, hd, hen, hall⟩

theorem freeUciBuf_eq (w : UciDrv) (uciBuf : Option Nat) : ∃ bufs faults,
    w.freeUciBuf uciBuf = { w with bufs, faults } ∧
      ∀ d, .usedDev d ∈ faults → .usedDev d ∈ w.faults := by
  cases uciBuf with
  | none => exact ⟨w.bufs, w.faults, rfl, fun _ hd ↦ hd⟩
  | some b =>
    rw [freeUciBuf]
    split
    · exact ⟨_, w.faults, rfl, fun _ hd ↦ hd⟩
    · exact ⟨w.bufs, _, rfl, fun d hd ↦ by simpa using hd⟩

/-- `mhi_queue_inbound` and `error_rx_queue`, one after the other. -/
theorem errorRxQueue_eq (w : UciDrv) (d : Nat) {n : UciNode} (hbuf : n.uciBuf = none)
    (inbound : Inbound) : ∃ uciBuf bufs nextBuf faults,
      ((w.mhiQueueInbound n inbound).1.setDev d (w.mhiQueueInbound n inbound).2).errorRxQueue
        (w.mhiQueueInbound n inbound).2 inbound =
          { w with
            dev := Function.update w.dev d (some { n with uciBuf })
            started := Function.update w.started n.mhiDev false
            bufs, nextBuf, faults } ∧
        ∀ e, .usedDev e ∈ faults → .usedDev e ∈ w.faults := by
  obtain ⟨minor, mhiDev, refCount, enabled, uciBuf⟩ := n
  obtain rfl : uciBuf = none := hbuf
  cases inbound with
  | noArray => exact ⟨none, w.bufs, w.nextBuf, w.faults, rfl, fun _ he ↦ he⟩
  | noPage =>
    refine ⟨some w.nextBuf, w.bufs, w.nextBuf + 1, .neverSet w.nextBuf :: w.faults, ?_, ?_⟩
    · simp [mhiQueueInbound, errorRxQueue, freeUciBuf, setDev, fault]
    · intro e he
      simpa using he
  | queued | refused errno =>
    refine ⟨some w.nextBuf, w.bufs, w.nextBuf + 1, w.faults, ?_, fun _ he ↦ he⟩
    simp [mhiQueueInbound, errorRxQueue, freeUciBuf, setDev]

theorem startNode_does (minor d : Nat) {n : UciNode} (hd : w.dev d = some n)
    (hen : n.enabled = true) (hzero : n.refCount = 0) (hbuf : n.uciBuf = none) (prepare : Int)
    (inbound : Inbound) :
    Does w (.openFile minor prepare inbound) (w.startNode d n prepare inbound).1 := by
  rw [startNode]
  split
  · exact .stay _ (by simp)
  · rename_i hprepare
    obtain rfl : prepare = 0 := not_not.mp hprepare
    dsimp only
    split
    · rename_i hfail
      obtain ⟨uciBuf, bufs, nextBuf, faults, he, hunused⟩ := errorRxQueue_eq
        { w with started := Function.update w.started n.mhiDev true } d
        (n := { n with refCount := 1 }) hbuf inbound
      rw [he]
      have hdoes := Does.fail minor inbound d n hd hen hzero hbuf hfail uciBuf bufs nextBuf faults
        hunused
      simpa using hdoes
    · rename_i hqueued
      obtain rfl : inbound = .queued := by
        cases inbound <;> simp [Inbound.ret] at hqueued ⊢
        omega
      obtain ⟨minor', mhiDev, refCount, enabled, uciBuf⟩ := n
      obtain rfl : uciBuf = none := hbuf
      exact .start minor d ⟨minor', mhiDev, refCount, enabled, none⟩ hd hen hzero rfl

theorem open_does (h : w.Counted) (minor : Nat) (prepare : Int) (inbound : Inbound) :
    Does w (.openFile minor prepare inbound) (w.mhiUciOpen minor prepare inbound).1 := by
  rw [mhiUciOpen]
  split
  · exact .stay _ (by simp)
  · rename_i d hl
    obtain ⟨n, hd, hen, -⟩ := h.lookup hl
    rw [hd]
    dsimp only
    rw [if_neg (by simp [hen])]
    split
    · rename_i hone
      have hzero : n.refCount = 0 := Nat.succ.inj hone
      have hidle := (h.refs d n hd hen).resolve_left (by omega)
      exact startNode_does minor d hd hen hzero hidle.2.2.1 prepare inbound
    · rename_i hmore
      exact .attach minor prepare inbound d n hd hen (by omega)

/-- What `mhi_uci_release` comes to: a device that is bound is counted once more, so only one that
was removed is ever closed for good. -/
theorem release_cases (h : w.Counted) {d : Nat} (hfile : d ∈ w.files) : ∃ n, w.dev d = some n ∧
    (1 < n.refCount ∧ w.mhiUciRelease d =
        { w.setDev d { n with refCount := n.refCount - 1 } with files := w.files.erase d } ∨
      n.enabled = false ∧ n.refCount = 1 ∧ w.mhiUciRelease d =
        ({ w with files := w.files.erase d }.freeUciBuf n.uciBuf).freeDev d n.minor) := by
  have hcount : 0 < w.files.count d := List.count_pos_iff.mpr hfile
  obtain ⟨n, hd⟩ := h.filed d hfile
  refine ⟨n, hd, ?_⟩
  rw [mhiUciRelease]
  dsimp only
  rw [hd]
  dsimp only
  split
  · rename_i hmore
    exact .inl ⟨by omega, rfl⟩
  · rename_i hlast
    have hdis : n.enabled = false := by
      cases hen : n.enabled with
      | false => rfl
      | true =>
        have hrefs := h.refs d n hd hen
        omega
    have hpos := (h.removed d n hd hdis).2
    rw [if_pos hdis, if_neg (show ¬ n.enabled = true by simp [hdis])]
    exact .inr ⟨hdis, by omega, rfl⟩

theorem release_does (h : w.Counted) {d : Nat} (hfile : d ∈ w.files) :
    Does w (.release d) (w.mhiUciRelease d) := by
  obtain ⟨n, hd, ⟨hmore, he⟩ | ⟨hdis, hone, he⟩⟩ := release_cases h hfile
  · rw [he]
    exact .release d n hfile hd hmore
  · rw [he]
    exact .last d n hfile hd hdis hone

theorem remove_does (h : w.Counted) {m d : Nat} (hm : w.devdata m = some d) :
    Does w (.remove m) (w.mhiUciRemove m d) := by
  obtain ⟨n, hd, hen, hdev⟩ := (h.bound m d).mp hm
  rw [mhiUciRemove]
  dsimp only
  rw [hd]
  dsimp only
  split
  · exact .free m d n hm hd hen hdev (by omega)
  · exact .remove m d n hm hd hen hdev (by omega)

theorem callback_does (h : w.Counted) {m d : Nat} (hst : w.started m = true)
    (hm : w.devdata m = some d) : Does w (.callback m) (w.mhiDlXferCb d) := by
  obtain ⟨n, hd, hen, hdev⟩ := (h.bound m d).mp hm
  rw [mhiDlXferCb, hd]
  dsimp only
  split
  · exact .stay _ (by simp)
  · rename_i b hbuf
    split
    · exact .stay _ (by simp)
    · rename_i hfree
      exact .callback m d n b hst hd hen hdev hbuf hfree

theorem mem_of_lookup {α β : Type} [BEq α] [LawfulBEq α] {a : α} {b : β} {l : List (α × β)}
    (h : l.lookup a = some b) : (a, b) ∈ l := by
  obtain ⟨l₁, l₂, rfl, -⟩ := List.lookup_eq_some_iff.mp h
  simp

theorem step_does (h : w.Counted) (hs : step w a = some w') : Does w a w' := by
  cases a with
  | probe m alloc =>
    obtain ⟨hm, rfl⟩ := Trace.of_guard hs
    cases alloc with
    | false => exact .stay _ (by simp)
    | true =>
      cases hfree : w.findFirstZeroBit with
      | none => exact .stay _ (by simp)
      | some minor => exact .probe m minor hm.1 hfree
  | create m =>
    obtain ⟨minor, hl, rfl⟩ := Option.map_eq_some_iff.mp hs
    exact .create m minor (mem_of_lookup hl)
  | openFile minor prepare inbound =>
    obtain rfl := Option.some.inj hs
    exact open_does h minor prepare inbound
  | use d =>
    obtain ⟨hfile, rfl⟩ := Trace.of_guard hs
    obtain ⟨n, hd⟩ := h.filed d hfile
    rw [hd]
    exact .stay _ (by simp)
  | callback m =>
    rw [step] at hs
    split at hs
    · rename_i hst
      obtain ⟨d, hm, rfl⟩ := Option.map_eq_some_iff.mp hs
      exact callback_does h hst hm
    · exact absurd hs (by simp)
  | release d =>
    obtain ⟨hfile, rfl⟩ := Trace.of_guard hs
    exact release_does h hfile
  | remove m =>
    obtain ⟨d, hm, rfl⟩ := Option.map_eq_some_iff.mp hs
    exact remove_does h hm

/-! ## What the counting comes to -/

section Update

variable {d e m : Nat} {n n' : UciNode}

/-- A property that the new contents of a device share with the old ones. -/
theorem exists_update_iff (hd : w.dev d = some n) {p : UciNode → Prop} (hp : p n' ↔ p n) :
    (∃ x, Function.update w.dev d (some n') e = some x ∧ p x) ↔ ∃ x, w.dev e = some x ∧ p x := by
  rcases Decidable.em (e = d) with rfl | hne
  · simp [hd, hp]
  · rw [Function.update_of_ne hne]

/-- A device that is left after another one has been changed. -/
theorem eq_of_update {o : Option UciNode} {x : UciNode} (h : Function.update w.dev d o e = some x) :
    e = d ∧ o = some x ∨ e ≠ d ∧ w.dev e = some x := by
  rcases Decidable.em (e = d) with rfl | hne
  · exact .inl ⟨rfl, by simpa using h⟩
  · exact .inr ⟨hne, by rwa [Function.update_of_ne hne] at h⟩

theorem of_update_ne {β : Type} {f : Nat → β} {i j : Nat} {v y : β}
    (h : Function.update f i v j = y) (hne : j ≠ i) : f j = y := by
  rwa [Function.update_of_ne hne] at h

/-- A device that is bound is the only one of its channels. -/
theorem Counted.eq_of_mhiDev (h : w.Counted) {x : UciNode} (hd : w.dev d = some n)
    (hen : n.enabled = true) (he : w.dev e = some x) (hen' : x.enabled = true)
    (hdev : x.mhiDev = n.mhiDev) : e = d := by
  have hd' := (h.bound n.mhiDev d).mpr ⟨n, hd, hen, rfl⟩
  have he' := (h.bound n.mhiDev e).mpr ⟨x, he, hen', hdev⟩
  exact Option.some.inj (he'.symm.trans hd')

/-- A device that stays bound, or stays unbound, is counted again. -/
theorem Counted.recount (h : w.Counted) (hd : w.dev d = some n) (n' : UciNode)
    (hminor : n'.minor = n.minor) (hen : n'.enabled = n.enabled) (hdev : n'.mhiDev = n.mhiDev)
    {files : List Nat}
    (hother : ∀ e, e ≠ d → files.count e = w.files.count e)
    (hrefs : n.enabled = true → n'.refCount = files.count d + 1)
    (hremoved : n.enabled = false → n'.refCount = files.count d ∧ 0 < n'.refCount)
    {started : Nat → Bool} (hst : ∀ m, w.devdata m ≠ some d → started m = w.started m)
    (bufs : List Nat) (nextBuf : Nat) {faults : List UciFault}
    (hunused : ∀ e, .usedDev e ∈ faults → .usedDev e ∈ w.faults) :
    { w with
      dev := Function.update w.dev d (some n')
      files, started, bufs, nextBuf, faults }.Counted := by
  refine ⟨fun e ↦ ?_, h.nodup, fun m e ↦ ?_, fun e he ↦ ?_, fun e x hx hx' ↦ ?_,
    fun e x hx hx' ↦ ?_, fun m hm ↦ ?_, h.probed, fun i hi ↦ ?_, fun e x hx ↦ ?_,
    fun e he ↦ h.unused e (hunused e he)⟩
  · rw [h.listed e]
    exact (exists_update_iff hd (p := fun x ↦ x.enabled = true) (by rw [hen])).symm
  · rw [h.bound m e]
    exact (exists_update_iff hd (p := fun x ↦ x.enabled = true ∧ x.mhiDev = m)
      (by rw [hen, hdev])).symm
  · rcases Decidable.em (e = d) with rfl | hne
    · exact ⟨n', Function.update_self _ _ _⟩
    · have hcount := List.count_pos_iff.mpr he
      rw [hother e hne] at hcount
      obtain ⟨x, hx⟩ := h.filed e (List.count_pos_iff.mp hcount)
      exact ⟨x, (Function.update_of_ne hne _ _).trans hx⟩
  · obtain ⟨rfl, hn⟩ | ⟨hne, hx⟩ := eq_of_update hx
    · obtain rfl := Option.some.inj hn
      exact .inl (hrefs (hen.symm.trans hx'))
    · have hm := (h.bound x.mhiDev e).mpr ⟨x, hx, hx', rfl⟩
      have hst' := hst x.mhiDev fun hm' ↦ hne (Option.some.inj (hm.symm.trans hm'))
      show x.refCount = files.count e + 1 ∨
        x.refCount = 0 ∧ files.count e = 0 ∧ x.uciBuf = none ∧ started x.mhiDev = false
      rw [hother e hne, hst']
      exact h.refs e x hx hx'
  · obtain ⟨rfl, hn⟩ | ⟨hne, hx⟩ := eq_of_update hx
    · obtain rfl := Option.some.inj hn
      exact hremoved (hen.symm.trans hx')
    · show x.refCount = files.count e ∧ 0 < x.refCount
      rw [hother e hne]
      exact h.removed e x hx hx'
  · have hm' : w.devdata m = none := hm
    exact (hst m (by simp [hm'])).trans (h.stopped m hm')
  · obtain ⟨e, he⟩ := h.marked i hi
    exact ⟨e, (exists_update_iff hd (p := fun x ↦ x.minor = i) (by rw [hminor])).mpr he⟩
  · obtain ⟨rfl, -⟩ | ⟨-, hx⟩ := eq_of_update hx
    · exact h.fresh e n hd
    · exact h.fresh e x hx

/-- `mhi_uci_remove`: the device is freed, or kept for the files that are open. -/
theorem Counted.unbind (h : w.Counted) (hd : w.dev d = some n) (hen : n.enabled = true)
    {o : Option UciNode}
    (hkept : ∀ x, o = some x → x.enabled = false ∧ x.minor = n.minor ∧
      x.refCount = w.files.count d ∧ 0 < x.refCount)
    (hfreed : o = none → d ∉ w.files) {uciMinors : Nat → Bool}
    (hminors : ∀ i, uciMinors i = true → w.uciMinors i = true ∧ (o = none → i ≠ n.minor)) :
    { w with
      dev := Function.update w.dev d o
      started := Function.update w.started n.mhiDev false
      devdata := Function.update w.devdata n.mhiDev none
      head := w.head.erase d
      uciMinors }.Counted := by
  have hdis : ∀ x, o = some x → x.enabled ≠ true := fun x hx ↦ by simp [(hkept x hx).1]
  have hm := (h.bound n.mhiDev d).mpr ⟨n, hd, hen, rfl⟩
  refine ⟨fun e ↦ ?_, h.nodup.erase d, fun m e ↦ ?_, fun e he ↦ ?_, fun e x hx hx' ↦ ?_,
    fun e x hx hx' ↦ ?_, fun m hm' ↦ ?_, fun m minor hp ↦ ?_, fun i hi ↦ ?_, fun e x hx ↦ ?_,
    h.unused⟩
  · rw [h.nodup.mem_erase_iff, h.listed e]
    constructor
    · rintro ⟨hne, x, hx, hx'⟩
      exact ⟨x, (Function.update_of_ne hne _ _).trans hx, hx'⟩
    · rintro ⟨x, hx, hx'⟩
      obtain ⟨-, ho⟩ | ⟨hne, hx⟩ := eq_of_update hx
      · exact absurd hx' (hdis x ho)
      · exact ⟨hne, x, hx, hx'⟩
  · constructor
    · intro hm'
      rcases Decidable.em (m = n.mhiDev) with rfl | hne
      · simp at hm'
      · obtain ⟨x, hx, hx', rfl⟩ := (h.bound m e).mp (of_update_ne hm' hne)
        have hed : e ≠ d := by
          rintro rfl
          exact hne (congrArg UciNode.mhiDev (Option.some.inj (hx.symm.trans hd)))
        exact ⟨x, (Function.update_of_ne hed _ _).trans hx, hx', rfl⟩
    · rintro ⟨x, hx, hx', rfl⟩
      obtain ⟨-, ho⟩ | ⟨hne, hx⟩ := eq_of_update hx
      · exact absurd hx' (hdis x ho)
      · have hdev : x.mhiDev ≠ n.mhiDev := fun hdev ↦ hne (h.eq_of_mhiDev hd hen hx hx' hdev)
        exact (Function.update_of_ne hdev _ _).trans ((h.bound x.mhiDev e).mpr ⟨x, hx, hx', rfl⟩)
  · rcases Decidable.em (e = d) with rfl | hne
    · cases ho : o with
      | none => exact absurd he (hfreed ho)
      | some x => exact ⟨x, Function.update_self _ _ _⟩
    · obtain ⟨x, hx⟩ := h.filed e he
      exact ⟨x, (Function.update_of_ne hne _ _).trans hx⟩
  · obtain ⟨-, ho⟩ | ⟨hne, hx⟩ := eq_of_update hx
    · exact absurd hx' (hdis x ho)
    · have hdev : x.mhiDev ≠ n.mhiDev := fun hdev ↦ hne (h.eq_of_mhiDev hd hen hx hx' hdev)
      show x.refCount = w.files.count e + 1 ∨ x.refCount = 0 ∧ w.files.count e = 0 ∧
        x.uciBuf = none ∧ Function.update w.started n.mhiDev false x.mhiDev = false
      rw [Function.update_of_ne hdev]
      exact h.refs e x hx hx'
  · obtain ⟨rfl, ho⟩ | ⟨-, hx⟩ := eq_of_update hx
    · exact (hkept x ho).2.2
    · exact h.removed e x hx hx'
  · rcases Decidable.em (m = n.mhiDev) with rfl | hne
    · exact Function.update_self _ _ _
    · exact (Function.update_of_ne hne _ _).trans (h.stopped m (of_update_ne hm' hne))
  · rcases Decidable.em (m = n.mhiDev) with rfl | hne
    · exact Function.update_self _ _ _
    · exact (Function.update_of_ne hne _ _).trans (h.probed m minor hp)
  · obtain ⟨hi', hfree⟩ := hminors i hi
    obtain ⟨e, x, hx, rfl⟩ := h.marked i hi'
    rcases Decidable.em (e = d) with rfl | hne
    · obtain rfl := Option.some.inj (hx.symm.trans hd)
      cases ho : o with
      | none => exact absurd rfl (hfree ho)
      | some y => exact ⟨e, y, Function.update_self _ _ _, (hkept y ho).2.1⟩
    · exact ⟨e, x, (Function.update_of_ne hne _ _).trans hx, rfl⟩
  · obtain ⟨rfl, -⟩ | ⟨-, hx⟩ := eq_of_update hx
    · exact h.fresh e n hd
    · exact h.fresh e x hx

/-- `mhi_uci_release` of the last file of a device that was removed. -/
theorem Counted.last (h : w.Counted) (hfile : d ∈ w.files) (hd : w.dev d = some n)
    (hdis : n.enabled = false) (hone : n.refCount = 1) (bufs : List Nat) {faults : List UciFault}
    (hunused : ∀ e, .usedDev e ∈ faults → .usedDev e ∈ w.faults) :
    { w with
      dev := Function.update w.dev d none
      uciMinors := Function.update w.uciMinors n.minor false
      files := w.files.erase d
      bufs, faults }.Counted := by
  have hcount : w.files.count d = 1 := (h.removed d n hd hdis).1.symm.trans hone
  have hother : ∀ e, e ≠ d → (w.files.erase d).count e = w.files.count e := fun e hne ↦
    List.count_erase_of_ne hne
  have hsome : ∀ {p : UciNode → Prop} {e : Nat}, (p n → False) →
      ((∃ x, Function.update w.dev d none e = some x ∧ p x) ↔ ∃ x, w.dev e = some x ∧ p x) := by
    intro p e hp
    rcases Decidable.em (e = d) with rfl | hne
    · simpa [hd] using hp
    · rw [Function.update_of_ne hne]
  refine ⟨fun e ↦ ?_, h.nodup, fun m e ↦ ?_, fun e he ↦ ?_, fun e x hx hx' ↦ ?_,
    fun e x hx hx' ↦ ?_, h.stopped, h.probed, fun i hi ↦ ?_, fun e x hx ↦ ?_,
    fun e he ↦ h.unused e (hunused e he)⟩
  · rw [h.listed e]
    exact (hsome (p := fun x ↦ x.enabled = true) (by simp [hdis])).symm
  · rw [h.bound m e]
    exact (hsome (p := fun x ↦ x.enabled = true ∧ x.mhiDev = m) (by simp [hdis])).symm
  · have hne : e ≠ d := by
      rintro rfl
      have hpos := List.count_pos_iff.mpr he
      rw [List.count_erase_self] at hpos
      omega
    obtain ⟨x, hx⟩ := h.filed e (List.mem_of_mem_erase he)
    exact ⟨x, (Function.update_of_ne hne _ _).trans hx⟩
  · obtain ⟨-, ho⟩ | ⟨hne, hx⟩ := eq_of_update hx
    · simp at ho
    · show x.refCount = (w.files.erase d).count e + 1 ∨ x.refCount = 0 ∧
        (w.files.erase d).count e = 0 ∧ x.uciBuf = none ∧ w.started x.mhiDev = false
      rw [hother e hne]
      exact h.refs e x hx hx'
  · obtain ⟨-, ho⟩ | ⟨hne, hx⟩ := eq_of_update hx
    · simp at ho
    · show x.refCount = (w.files.erase d).count e ∧ 0 < x.refCount
      rw [hother e hne]
      exact h.removed e x hx hx'
  · rcases Decidable.em (i = n.minor) with rfl | hne
    · simp at hi
    · obtain ⟨e, he⟩ := h.marked i (of_update_ne hi hne)
      exact ⟨e, (hsome (p := fun x ↦ x.minor = i) fun hx ↦ hne hx.symm).mpr he⟩
  · obtain ⟨-, ho⟩ | ⟨-, hx⟩ := eq_of_update hx
    · simp at ho
    · exact h.fresh e x hx

theorem Counted.create (h : w.Counted) {minor : Nat} (hm : (m, minor) ∈ w.probing) :
    (w.mhiUciProbe m minor).Counted := by
  have hnew : w.dev w.nextDev = none := by
    cases hd : w.dev w.nextDev with
    | none => rfl
    | some x => exact absurd (h.fresh _ x hd) (Nat.lt_irrefl _)
  have hnone : w.devdata m = none := h.probed m minor hm
  have hfree : w.nextDev ∉ w.files := fun hfile ↦ by
    obtain ⟨x, hx⟩ := h.filed _ hfile
    simp [hnew] at hx
  have hne : ∀ {e x}, w.dev e = some x → e ≠ w.nextDev := by
    rintro e x hx rfl
    simp [hnew] at hx
  refine ⟨fun e ↦ ?_, ?_, fun m' e ↦ ?_, fun e he ↦ ?_, fun e x hx hx' ↦ ?_, fun e x hx hx' ↦ ?_,
    fun m' hm' ↦ ?_, fun m' k hp ↦ ?_, fun i hi ↦ ?_, fun e x hx ↦ ?_, h.unused⟩
  · show e ∈ w.nextDev :: w.head ↔ ∃ x, Function.update w.dev w.nextDev _ e = some x ∧ _
    rw [List.mem_cons, h.listed e]
    rcases Decidable.em (e = w.nextDev) with rfl | hne'
    · simp
    · simp [hne']
  · refine List.nodup_cons.mpr ⟨fun hmem ↦ ?_, h.nodup⟩
    obtain ⟨x, hx, -⟩ := (h.listed _).mp hmem
    exact hne hx rfl
  · show Function.update w.devdata m (some w.nextDev) m' = some e ↔
      ∃ x, Function.update w.dev w.nextDev _ e = some x ∧ _
    rcases Decidable.em (e = w.nextDev) with rfl | hne'
    · rcases Decidable.em (m' = m) with rfl | hm'
      · simp
      · rw [Function.update_of_ne hm', Function.update_self, h.bound]
        simp [hnew, Ne.symm hm']
    · rw [Function.update_of_ne hne', ← h.bound]
      rcases Decidable.em (m' = m) with rfl | hm'
      · simp [hnone, Ne.symm hne']
      · rw [Function.update_of_ne hm']
  · obtain ⟨x, hx⟩ := h.filed e he
    exact ⟨x, (Function.update_of_ne (hne hx) _ _).trans hx⟩
  · obtain ⟨rfl, hn⟩ | ⟨hne', hx⟩ := eq_of_update hx
    · obtain rfl := Option.some.inj hn
      exact .inr ⟨rfl, List.count_eq_zero.mpr hfree, rfl, h.stopped m hnone⟩
    · exact h.refs e x hx hx'
  · obtain ⟨rfl, hn⟩ | ⟨hne', hx⟩ := eq_of_update hx
    · obtain rfl := Option.some.inj hn
      simp at hx'
    · exact h.removed e x hx hx'
  · rcases Decidable.em (m' = m) with rfl | hne'
    · simp [mhiUciProbe] at hm'
    · exact h.stopped m' (of_update_ne hm' hne')
  · obtain ⟨hp', hne'⟩ := List.mem_filter.mp hp
    exact (Function.update_of_ne (by simpa using hne') _ _).trans (h.probed m' k hp')
  · rcases Decidable.em (i = minor) with rfl | hne'
    · exact ⟨w.nextDev, _, Function.update_self _ _ _, rfl⟩
    · obtain ⟨e, x, hx, hminor⟩ := h.marked i (of_update_ne hi hne')
      exact ⟨e, x, (Function.update_of_ne (hne hx) _ _).trans hx, hminor⟩
  · obtain ⟨rfl, -⟩ | ⟨-, hx⟩ := eq_of_update hx
    · exact Nat.lt_succ_self _
    · exact Nat.lt_succ_of_lt (h.fresh e x hx)

end Update

theorem Counted.does (h : w.Counted) (hdo : Does w a w') : w'.Counted := by
  cases hdo with
  | stay => exact h
  | probe m minor hm hfree =>
    refine ⟨h.listed, h.nodup, h.bound, h.filed, h.refs, h.removed, h.stopped, fun m' k hp ↦ ?_,
      h.marked, h.fresh, h.unused⟩
    rcases List.mem_cons.mp hp with heq | hp
    · obtain ⟨rfl, -⟩ := Prod.mk.inj heq
      exact hm
    · exact h.probed m' k hp
  | create m minor hm => exact h.create hm
  | attach minor prepare inbound d n hd hen hpos =>
    have hrefs := h.refs d n hd hen
    refine h.recount hd { n with refCount := n.refCount + 1 } rfl rfl rfl
      (fun e hne ↦ List.count_cons_of_ne (Ne.symm hne)) (fun _ ↦ ?_)
      (fun hdis ↦ absurd (hen.symm.trans hdis) (by simp)) (fun _ _ ↦ rfl) _ _ fun _ he ↦ he
    show n.refCount + 1 = (d :: w.files).count d + 1
    rw [List.count_cons_self]
    omega
  | start minor d n hd hen hzero hbuf =>
    have hm := (h.bound n.mhiDev d).mpr ⟨n, hd, hen, rfl⟩
    have hrefs := h.refs d n hd hen
    refine h.recount hd { n with refCount := 2, uciBuf := some w.nextBuf } rfl rfl rfl
      (fun e hne ↦ List.count_cons_of_ne (Ne.symm hne)) (fun _ ↦ ?_)
      (fun hdis ↦ absurd (hen.symm.trans hdis) (by simp)) (fun m hne ↦ ?_) _ _ fun _ he ↦ he
    · show 2 = (d :: w.files).count d + 1
      rw [List.count_cons_self]
      omega
    · refine Function.update_of_ne ?_ _ _
      rintro rfl
      exact hne hm
  | fail minor inbound d n hd hen hzero hbuf hfail uciBuf bufs nextBuf faults hunused =>
    have hm := (h.bound n.mhiDev d).mpr ⟨n, hd, hen, rfl⟩
    have hrefs := h.refs d n hd hen
    refine h.recount hd { n with refCount := 1, uciBuf } rfl rfl rfl (fun _ _ ↦ rfl) (fun _ ↦ ?_)
      (fun hdis ↦ absurd (hen.symm.trans hdis) (by simp)) (fun m hne ↦ ?_) _ _ hunused
    · show 1 = w.files.count d + 1
      omega
    · refine Function.update_of_ne ?_ _ _
      rintro rfl
      exact hne hm
  | callback m d n b =>
    exact ⟨h.listed, h.nodup, h.bound, h.filed, h.refs, h.removed, h.stopped, h.probed, h.marked,
      h.fresh, fun e he ↦ h.unused e (by simpa [fault] using he)⟩
  | release d n hfile hd hmore =>
    have hcount : 0 < w.files.count d := List.count_pos_iff.mpr hfile
    refine h.recount hd { n with refCount := n.refCount - 1 } rfl rfl rfl
      (fun e hne ↦ List.count_erase_of_ne hne) (fun hen ↦ ?_)
      (fun hdis ↦ ?_) (fun _ _ ↦ rfl) _ _ fun _ he ↦ he
    · have hrefs := h.refs d n hd hen
      show n.refCount - 1 = (w.files.erase d).count d + 1
      rw [List.count_erase_self]
      omega
    · have hrefs := h.removed d n hd hdis
      show n.refCount - 1 = (w.files.erase d).count d ∧ 0 < n.refCount - 1
      rw [List.count_erase_self]
      omega
  | last d n hfile hd hdis hone =>
    obtain ⟨bufs, faults, he, hunused⟩ :=
      freeUciBuf_eq { w with files := w.files.erase d } n.uciBuf
    rw [he]
    exact h.last hfile hd hdis hone bufs hunused
  | remove m d n hm hd hen hdev hfiled =>
    subst hdev
    have hrefs := h.refs d n hd hen
    refine h.unbind hd hen (fun x hx ↦ ?_) (by simp) fun i hi ↦ ⟨hi, by simp⟩
    obtain rfl := Option.some.inj hx
    exact ⟨rfl, rfl, show n.refCount - 1 = _ by omega, show 0 < n.refCount - 1 by omega⟩
  | free m d n hm hd hen hdev hclosed =>
    subst hdev
    have hrefs := h.refs d n hd hen
    refine h.unbind hd hen (by simp) (fun _ hfile ↦ ?_) fun i hi ↦ ?_
    · have hcount := List.count_pos_iff.mpr hfile
      omega
    · rcases Decidable.em (i = n.minor) with rfl | hne
      · simp at hi
      · exact ⟨by rwa [Function.update_of_ne hne] at hi, fun _ ↦ hne⟩

theorem Counted.step (h : w.Counted) (hs : step w a = some w') : w'.Counted :=
  h.does (step_does h hs)

theorem init_counted : init.Counted :=
  ⟨by simp [init], by simp [init], by simp [init], by simp [init], by simp [init], by simp [init],
    by simp [init], by simp [init], by simp [init], by simp [init], by simp [init]⟩

theorem run_counted {as : List Act} (h : Trace.run UciDrv.step init as = some w) : w.Counted :=
  Trace.run_invariant (I := Counted) (P := fun _ ↦ True) (fun _ _ _ _ hI hs ↦ hI.step hs)
    init_counted (fun _ _ ↦ trivial) h

/-- **A device lives as long as one of its files.**  In every run, whatever fails, no device is used
after it was freed; each open file has its device, which is counted; and a device that was removed
is kept only for files that are open. -/
theorem nodes_kept (as : List Act) (h : Trace.run step init as = some w) :
    (∀ d, .usedDev d ∉ w.faults) ∧ (∀ d ∈ w.files, ∃ n, w.dev d = some n ∧ 0 < n.refCount) ∧
      ∀ d n, w.dev d = some n → n.enabled = false → d ∈ w.files := by
  have hc := run_counted h
  refine ⟨hc.unused, fun d hfile ↦ ?_, fun d n hd hdis ↦ ?_⟩
  · obtain ⟨n, hd⟩ := hc.filed d hfile
    have hcount := List.count_pos_iff.mpr hfile
    refine ⟨n, hd, ?_⟩
    cases hen : n.enabled with
    | true =>
      have hrefs := hc.refs d n hd hen
      omega
    | false => exact (hc.removed d n hd hen).2
  · obtain ⟨hcount, hpos⟩ := hc.removed d n hd hdis
    exact List.count_pos_iff.mp (hcount ▸ hpos)

/-- A device is opened twice, and removed before the first of the files is closed. -/
def sampleActs : List Act :=
  [.probe 5 true, .create 5, .openFile 0 0 .queued, .openFile 0 0 .queued, .callback 5, .remove 5,
    .release 0, .use 0]

def sampleRemoved : UciDrv := (Trace.run step init sampleActs).getD init

theorem nodes_kept_sample : sampleRemoved.files = [0] ∧
    ∃ n, sampleRemoved.dev 0 = some n ∧ 0 < n.refCount := by
  have hfiles : sampleRemoved.files = [0] := by decide +kernel
  have hkept := nodes_kept sampleActs (w := sampleRemoved) (Trace.eq_some_getD (by decide +kernel))
  exact ⟨hfiles, hkept.2.1 0 (by simp [hfiles])⟩

/-! ## The minors -/

/-- Whether no two calls of `mhi_uci_probe` overlap. -/
def probesAlone (w : UciDrv) : Act → Bool
  | .probe _ _ => w.probing.isEmpty
  | _ => true

structure Numbered (w : UciDrv) : Prop where
  bit : ∀ d n, w.dev d = some n → w.uciMinors n.minor = true ∧ n.minor < 64
  alone : ∀ d e n x, w.dev d = some n → w.dev e = some x → n.minor = x.minor → d = e
  free : ∀ m k, (m, k) ∈ w.probing → w.uciMinors k = false ∧ k < 64
  one : w.probing.length ≤ 1

/-- Devices that have the minors that some devices had before. -/
theorem Numbered.of_dev (h : w.Numbered) {dev : Nat → Option UciNode}
    (hdev : ∀ e x, dev e = some x → ∃ n, w.dev e = some n ∧ n.minor = x.minor)
    {uciMinors : Nat → Bool}
    (hbits : ∀ e x, dev e = some x → w.uciMinors x.minor = true → uciMinors x.minor = true)
    (hfree : ∀ i, uciMinors i = true → w.uciMinors i = true) {head files bufs : List Nat}
    {devdata : Nat → Option Nat} {started : Nat → Bool} {nextBuf : Nat} {faults : List UciFault} :
    { w with
      dev, uciMinors, head, files, bufs, devdata, started, nextBuf, faults }.Numbered := by
  refine ⟨fun e x hx ↦ ?_, fun d e n x hn hx heq ↦ ?_, fun m k hp ↦ ?_, h.one⟩
  · obtain ⟨n, hn, hminor⟩ := hdev e x hx
    obtain ⟨hb, hlt⟩ := h.bit e n hn
    rw [hminor] at hb hlt
    exact ⟨hbits e x hx hb, hlt⟩
  · obtain ⟨n', hn', hminor⟩ := hdev d n hn
    obtain ⟨x', hx', hminor'⟩ := hdev e x hx
    exact h.alone d e n' x' hn' hx' (hminor.trans (heq.trans hminor'.symm))
  · obtain ⟨hb, hlt⟩ := h.free m k hp
    refine ⟨?_, hlt⟩
    show uciMinors k = false
    cases hk : uciMinors k with
    | false => rfl
    | true => exact absurd ((hfree k hk).symm.trans hb) (by simp)

/-- A device keeps its minor. -/
theorem Numbered.set (h : w.Numbered) {d : Nat} {n : UciNode} (hd : w.dev d = some n) (n' : UciNode)
    (hminor : n'.minor = n.minor) {head files bufs : List Nat} {devdata : Nat → Option Nat}
    {started : Nat → Bool} {nextBuf : Nat} {faults : List UciFault} :
    { w with
      dev := Function.update w.dev d (some n')
      head, files, bufs, devdata, started, nextBuf, faults }.Numbered := by
  refine h.of_dev (fun e x hx ↦ ?_) (fun _ _ _ hb ↦ hb) fun _ hi ↦ hi
  obtain ⟨rfl, hn⟩ | ⟨-, hx⟩ := eq_of_update hx
  · obtain rfl := Option.some.inj hn
    exact ⟨n, hd, hminor.symm⟩
  · exact ⟨x, hx, rfl⟩

/-- A device is freed, and its minor with it. -/
theorem Numbered.unset (h : w.Numbered) {d : Nat} {n : UciNode} (hd : w.dev d = some n)
    {head files bufs : List Nat} {devdata : Nat → Option Nat} {started : Nat → Bool}
    {faults : List UciFault} :
    { w with
      dev := Function.update w.dev d none
      uciMinors := Function.update w.uciMinors n.minor false
      head, files, bufs, devdata, started, faults }.Numbered := by
  have hleft : ∀ e x, Function.update w.dev d none e = some x → e ≠ d ∧ w.dev e = some x := by
    intro e x hx
    obtain ⟨-, ho⟩ | hx := eq_of_update hx
    · simp at ho
    · exact hx
  refine h.of_dev (fun e x hx ↦ ⟨x, (hleft e x hx).2, rfl⟩) (fun e x hx hb ↦ ?_) fun i hi ↦ ?_
  · obtain ⟨hne, hx⟩ := hleft e x hx
    exact (Function.update_of_ne (fun heq ↦ hne (h.alone e d x n hx hd heq)) _ _).trans hb
  · rcases Decidable.em (i = n.minor) with rfl | hne
    · simp at hi
    · rwa [Function.update_of_ne hne] at hi

theorem Numbered.create (h : w.Numbered) {m minor : Nat} (hm : (m, minor) ∈ w.probing) :
    (w.mhiUciProbe m minor).Numbered := by
  obtain ⟨hbit, hlt⟩ := h.free m minor hm
  have hother : ∀ {e x}, w.dev e = some x → x.minor ≠ minor := by
    rintro e x hx rfl
    exact absurd ((h.bit e x hx).1.symm.trans hbit) (by simp)
  have hnone : (w.mhiUciProbe m minor).probing = [] := by
    obtain ⟨p, hp⟩ : ∃ p, w.probing = [p] := by
      have hpos := List.length_pos_of_mem hm
      exact List.length_eq_one_iff.mp (Nat.le_antisymm h.one hpos)
    rw [hp, List.mem_singleton] at hm
    simp [mhiUciProbe, hp, ← hm]
  refine ⟨fun e x hx ↦ ?_, fun d e n x hn hx heq ↦ ?_, by simp [hnone], by simp [hnone]⟩
  · obtain ⟨rfl, hn⟩ | ⟨-, hx⟩ := eq_of_update hx
    · obtain rfl := Option.some.inj hn
      exact ⟨Function.update_self _ _ _, hlt⟩
    · obtain ⟨hb, hx'⟩ := h.bit e x hx
      exact ⟨(Function.update_of_ne (hother hx) _ _).trans hb, hx'⟩
  · obtain ⟨rfl, ho⟩ | ⟨-, hn⟩ := eq_of_update hn
    · obtain rfl := Option.some.inj ho
      obtain ⟨rfl, -⟩ | ⟨-, hx⟩ := eq_of_update hx
      · rfl
      · exact absurd heq.symm (hother hx)
    · obtain ⟨rfl, ho⟩ | ⟨-, hx⟩ := eq_of_update hx
      · obtain rfl := Option.some.inj ho
        exact absurd heq (hother hn)
      · exact h.alone d e n x hn hx heq

theorem Numbered.does (h : w.Numbered) (halone : w.probesAlone a = true) (hdo : Does w a w') :
    w'.Numbered := by
  cases hdo with
  | stay => exact h
  | probe m minor hm hfree =>
    have hnil : w.probing = [] := List.isEmpty_iff.mp halone
    have hlt := List.mem_range.mp (List.mem_of_find?_eq_some hfree)
    have hbit := List.find?_some hfree
    refine ⟨h.bit, h.alone, fun m' k hp ↦ ?_, by simp [hnil]⟩
    obtain ⟨-, rfl⟩ : m' = m ∧ k = minor := by simpa [hnil] using hp
    exact ⟨by simpa using hbit, hlt⟩
  | create m minor hm => exact h.create hm
  | attach minor prepare inbound d n hd => exact h.set hd { n with refCount := n.refCount + 1 } rfl
  | start minor d n hd => exact h.set hd { n with refCount := 2, uciBuf := some w.nextBuf } rfl
  | fail minor inbound d n hd hen hzero hbuf hfail uciBuf =>
    exact h.set hd { n with refCount := 1, uciBuf } rfl
  | callback => exact ⟨h.bit, h.alone, h.free, h.one⟩
  | release d n hfile hd => exact h.set hd { n with refCount := n.refCount - 1 } rfl
  | last d n hfile hd =>
    obtain ⟨bufs, faults, he, -⟩ := freeUciBuf_eq { w with files := w.files.erase d } n.uciBuf
    rw [he]
    exact h.unset hd
  | remove m d n hm hd =>
    exact h.set hd { n with enabled := false, refCount := n.refCount - 1 } rfl
  | free m d n hm hd => exact h.unset hd

/-- **A minor belongs to one device.**  In every run in which no two calls of `mhi_uci_probe`
overlap, no two devices have the same minor, also those that were removed and are still open, and
`mhi_uci_open` finds each device that is bound by its own. -/
theorem minors_unique (as : List Act) (halone : Trace.always step probesAlone init as = true)
    (h : Trace.run step init as = some w) :
    (∀ d e n x, w.dev d = some n → w.dev e = some x → n.minor = x.minor → d = e) ∧
      ∀ d n, w.dev d = some n → n.enabled = true →
        n.minor < 64 ∧ w.lookup n.minor = some d := by
  obtain ⟨hc, hn⟩ := Trace.run_invariant_of (I := fun w ↦ w.Counted ∧ w.Numbered)
    (fun _ _ _ hC hI hs ↦ ⟨hI.1.step hs, hI.2.does hC (step_does hI.1 hs)⟩)
    ⟨init_counted, by simp [init], by simp [init], by simp [init], by simp [init]⟩ halone h
  refine ⟨hn.alone, fun d n hd hen ↦ ⟨(hn.bit d n hd).2, ?_⟩⟩
  have hmem : d ∈ w.head := (hc.listed d).mpr ⟨n, hd, hen⟩
  cases hl : w.lookup n.minor with
  | none =>
    have hnot := List.find?_eq_none.mp hl d hmem
    simp [hd] at hnot
  | some e =>
    obtain ⟨x, hx, -, hminor⟩ := hc.lookup hl
    rw [hn.alone e d x n hx hd hminor]

/-- Two devices, the first of which is removed while it is open. -/
def sampleTwo : List Act :=
  [.probe 5 true, .create 5, .openFile 0 0 .queued, .remove 5, .probe 6 true, .create 6]

theorem minors_unique_sample : ((Trace.run step init sampleTwo).getD init).lookup 1 = some 1 := by
  have hunique := minors_unique sampleTwo (w := (Trace.run step init sampleTwo).getD init)
    (by decide +kernel) (Trace.eq_some_getD (by decide +kernel))
  exact (hunique.2 1 ⟨1, 6, 0, true, none⟩ (by decide +kernel) rfl).2

end UciDrv

end OpenwrtFeed.Mhi
