import OpenwrtFeed.Lib.Ownership
import OpenwrtFeed.Mhi.UciNode

/-!
# The buffers of the character devices

What becomes of the buffers that the first `mhi_uci_open` of a device allocates.  They are freed by
the last `mhi_uci_release`, and that is the last one only if the device was removed before: as long
as it is bound, it is counted once more.  `mhi_uci_remove` itself does not free them, so they are
lost if the device is removed when its files are closed.

If `mhi_queue_inbound` fails, `mhi_uci_open` frees the buffers and stops the channel again, but it
leaves the count as it is.  The next `mhi_uci_open` is not the first any more, so nothing starts the
channel.
-/

set_option autoImplicit false

namespace OpenwrtFeed.Mhi

namespace UciDrv

variable {w w' : UciDrv} {a : Act}

/-! ## Who frees the buffers -/

/-- Whether `mhi_queue_inbound` succeeds. -/
def queuesInbound (_ : UciDrv) : Act → Bool
  | .openFile _ _ inbound => inbound = .queued
  | _ => true

/-- Whether a device that is removed is open, if it was ever opened. -/
def removedOpen (w : UciDrv) : Act → Bool
  | .remove m => ((w.devdata m).bind w.dev).all fun n ↦ n.refCount ≠ 1
  | _ => true

def Owns (w : UciDrv) (d b : Nat) : Prop := ∃ n, w.dev d = some n ∧ n.uciBuf = some b

/-- An array that no device has any more. -/
def Lost (w : UciDrv) : Prop := Ownership.Lost w.Owns w.bufs

structure Owned (w : UciDrv) : Prop where
  owned : Ownership.Owned w.Owns w.bufs w.nextBuf
  has : ∀ d n, w.dev d = some n → 0 < n.refCount → ∃ b, n.uciBuf = some b
  faults_eq : w.faults = []

theorem Owned.live (h : w.Owned) {d : Nat} {n : UciNode} (hd : w.dev d = some n)
    {b : Nat} (hb : n.uciBuf = some b) : b ∈ w.bufs :=
  h.owned.live d b ⟨n, hd, hb⟩

/-- All arrays stay with their devices. -/
theorem Owned.of_owns (h : w.Owned) (howns : ∀ d b, w'.Owns d b ↔ w.Owns d b)
    (hhas : ∀ d n, w'.dev d = some n → 0 < n.refCount → ∃ b, n.uciBuf = some b)
    (hbufs : w'.bufs = w.bufs) (hnext : w'.nextBuf = w.nextBuf) (hfaults : w'.faults = w.faults) :
    w'.Owned ∧ (w'.Lost ↔ w.Lost) := by
  obtain ⟨howned, hlost⟩ := h.owned.congr howns
  refine ⟨⟨?_, hhas, hfaults ▸ h.faults_eq⟩, ?_⟩
  · rwa [hbufs, hnext]
  · rwa [Lost, hbufs]

/-- A device that has its array already is changed. -/
theorem Owned.set (h : w.Owned) {d : Nat} {n : UciNode} (hd : w.dev d = some n)
    (hpos : 0 < n.refCount) (n' : UciNode) (hbuf : n'.uciBuf = n.uciBuf) {head files : List Nat}
    {devdata : Nat → Option Nat} {started : Nat → Bool}
    (hw' : w' = { w with
      dev := Function.update w.dev d (some n')
      head, files, devdata, started }) : w'.Owned ∧ (w'.Lost ↔ w.Lost) := by
  subst hw'
  refine h.of_owns (fun e b ↦ ?_) (fun e x hx hpos' ↦ ?_) rfl rfl rfl
  · exact exists_update_iff hd (p := fun x ↦ x.uciBuf = some b) (by rw [hbuf])
  · obtain ⟨-, hn⟩ | ⟨-, hx⟩ := eq_of_update hx
    · obtain rfl := Option.some.inj hn
      rw [hbuf]
      exact h.has d n hd hpos
    · exact h.has e x hx hpos'

theorem Owned.create (h : w.Owned) (hc : w.Counted) (m minor : Nat) :
    (w.mhiUciProbe m minor).Owned ∧ ((w.mhiUciProbe m minor).Lost ↔ w.Lost) := by
  refine h.of_owns (fun e b ↦ ⟨?_, ?_⟩) (fun e x hx hpos ↦ ?_) rfl rfl rfl
  · rintro ⟨x, hx, hb⟩
    obtain ⟨-, hn⟩ | ⟨-, hx⟩ := eq_of_update hx
    · obtain rfl := Option.some.inj hn
      simp at hb
    · exact ⟨x, hx, hb⟩
  · rintro ⟨x, hx, hb⟩
    have hne : e ≠ w.nextDev := Nat.ne_of_lt (hc.fresh e x hx)
    exact ⟨x, (Function.update_of_ne hne _ _).trans hx, hb⟩
  · obtain ⟨-, hn⟩ | ⟨-, hx⟩ := eq_of_update hx
    · obtain rfl := Option.some.inj hn
      simp at hpos
    · exact h.has e x hx hpos

/-- The first file of a device is opened. -/
theorem Owned.start (h : w.Owned) {d : Nat} {n n' : UciNode} (hd : w.dev d = some n)
    (hbuf : n.uciBuf = none) (hw' : w'.dev = Function.update w.dev d (some n'))
    (hbuf' : n'.uciBuf = some w.nextBuf) (hbufs : w'.bufs = w.nextBuf :: w.bufs)
    (hnext : w'.nextBuf = w.nextBuf + 1) (hfaults : w'.faults = w.faults) :
    w'.Owned ∧ (w'.Lost ↔ w.Lost) := by
  have howns : ∀ e b, w'.Owns e b ↔ e = d ∧ b = w.nextBuf ∨ w.Owns e b := by
    intro e b
    rw [Owns, hw']
    rcases Decidable.em (e = d) with rfl | hne
    · simp [Owns, hd, hbuf, hbuf', eq_comm]
    · simp [Owns, hne]
  obtain ⟨howned, hlost⟩ := h.owned.alloc howns
  refine ⟨⟨?_, fun e x hx hpos ↦ ?_, hfaults ▸ h.faults_eq⟩, ?_⟩
  · rwa [hbufs, hnext]
  · rw [hw'] at hx
    obtain ⟨-, hn⟩ | ⟨-, hx⟩ := eq_of_update hx
    · obtain rfl := Option.some.inj hn
      exact ⟨_, hbuf'⟩
    · exact h.has e x hx hpos
  · rwa [Lost, hbufs]

section Free

variable {d : Nat} {n : UciNode}

theorem owns_freed (hw' : w'.dev = Function.update w.dev d none) (e b : Nat) :
    w'.Owns e b ↔ e ≠ d ∧ w.Owns e b := by
  rw [Owns, hw']
  rcases Decidable.em (e = d) with rfl | hne
  · simp
  · simp [Owns, hne]

theorem Owned.has_freed (h : w.Owned) (hw' : w'.dev = Function.update w.dev d none) (e : Nat)
    (x : UciNode) (hx : w'.dev e = some x) (hpos : 0 < x.refCount) : ∃ b, x.uciBuf = some b := by
  rw [hw'] at hx
  obtain ⟨-, ho⟩ | ⟨-, hx⟩ := eq_of_update hx
  · simp at ho
  · exact h.has e x hx hpos

/-- `mhi_uci_remove` frees the device. -/
theorem Owned.free (h : w.Owned) (hd : w.dev d = some n)
    (hzero : n.refCount ≠ 1 → n.uciBuf = none) (hw' : w'.dev = Function.update w.dev d none)
    (hbufs : w'.bufs = w.bufs) (hnext : w'.nextBuf = w.nextBuf) (hfaults : w'.faults = w.faults) :
    w'.Owned ∧ (w'.Lost ↔ w.Lost ∨ n.refCount = 1) := by
  have howns := owns_freed hw'
  obtain ⟨howned, hlost⟩ := h.owned.drop fun e b hb ↦ ((howns e b).mp hb).2
  have hgone : (∃ e b, w.Owns e b ∧ ¬ w'.Owns e b) ↔ n.refCount = 1 := by
    constructor
    · rintro ⟨e, b, hb, hnot⟩
      obtain rfl : e = d := by
        by_contra hne
        exact hnot ((howns e b).mpr ⟨hne, hb⟩)
      obtain ⟨x, hx, hxb⟩ := hb
      obtain rfl := Option.some.inj (hx.symm.trans hd)
      by_contra hne
      simp [hzero hne] at hxb
    · intro hone
      obtain ⟨b, hb⟩ := h.has d n hd (by omega)
      exact ⟨d, b, ⟨n, hd, hb⟩, fun hnot ↦ ((howns d b).mp hnot).1 rfl⟩
  refine ⟨⟨?_, h.has_freed hw', hfaults ▸ h.faults_eq⟩, ?_⟩
  · rwa [hbufs, hnext]
  · rw [Lost, hbufs, hlost, hgone]
    rfl

/-- `mhi_uci_release` frees the device together with its array. -/
theorem Owned.last (h : w.Owned) (hd : w.dev d = some n) {b : Nat} (hb : n.uciBuf = some b)
    (hw' : w'.dev = Function.update w.dev d none) (hbufs : w'.bufs = w.bufs.erase b)
    (hnext : w'.nextBuf = w.nextBuf) (hfaults : w'.faults = w.faults) :
    w'.Owned ∧ (w'.Lost ↔ w.Lost) := by
  have hown : w.Owns d b := ⟨n, hd, hb⟩
  have howns : ∀ e c, w'.Owns e c ↔ c ≠ b ∧ w.Owns e c := by
    intro e c
    rw [owns_freed hw']
    refine and_congr_left fun hc ↦ not_congr ⟨?_, ?_⟩
    · rintro rfl
      obtain ⟨x, hx, hxc⟩ := hc
      obtain rfl := Option.some.inj (hx.symm.trans hd)
      exact Option.some.inj (hxc.symm.trans hb)
    · rintro rfl
      exact h.owned.alone e d c hc hown
  obtain ⟨howned, hlost⟩ := h.owned.free hown howns
  refine ⟨⟨?_, h.has_freed hw', hfaults ▸ h.faults_eq⟩, ?_⟩
  · rwa [hbufs, hnext]
  · rwa [Lost, hbufs]

end Free

theorem removedOpen_of_ne (ha : ∀ m, a ≠ .remove m) : w.removedOpen a = true := by
  cases a with
  | remove m => exact absurd rfl (ha m)
  | _ => rfl

/-- A step that removes nothing. -/
theorem lost_iff_of_ne (ha : ∀ m, a ≠ .remove m) (h : w'.Lost ↔ w.Lost) :
    w'.Lost ↔ w.Lost ∨ w.removedOpen a = false := by
  rw [h, removedOpen_of_ne ha]
  simp

theorem removedOpen_eq_false_iff {m d : Nat} {n : UciNode} (hm : w.devdata m = some d)
    (hd : w.dev d = some n) : w.removedOpen (.remove m) = false ↔ n.refCount = 1 := by
  simp [removedOpen, hm, hd]

/-- An array is lost exactly when a device is removed that was opened and is not open any more. -/
theorem Owned.does (h : w.Owned) (hc : w.Counted) (hqueues : w.queuesInbound a = true)
    (hdo : Does w a w') : w'.Owned ∧ (w'.Lost ↔ w.Lost ∨ w.removedOpen a = false) := by
  cases hdo with
  | stay _ hstay => exact ⟨h, lost_iff_of_ne hstay Iff.rfl⟩
  | probe m minor hm hfree =>
    exact And.imp_right (lost_iff_of_ne (by simp))
      (h.of_owns (fun _ _ ↦ Iff.rfl) h.has rfl rfl rfl)
  | create m minor hm =>
    exact And.imp_right (lost_iff_of_ne (by simp)) (h.create hc m minor)
  | attach minor prepare inbound d n hd hen hpos =>
    exact And.imp_right (lost_iff_of_ne (by simp))
      (h.set hd hpos { n with refCount := n.refCount + 1 } rfl rfl)
  | start minor d n hd hen hzero hbuf =>
    exact And.imp_right (lost_iff_of_ne (by simp)) (h.start hd hbuf rfl rfl rfl rfl rfl)
  | fail minor inbound d n hd hen hzero hbuf hfail =>
    obtain rfl : inbound = .queued := by simpa [queuesInbound] using hqueues
    exact absurd rfl hfail
  | callback m d n b hm hd hen hdev hbuf hfree => exact absurd (h.live hd hbuf) hfree
  | release d n hfile hd hmore =>
    exact And.imp_right (lost_iff_of_ne (by simp))
      (h.set hd (Nat.zero_lt_of_lt hmore) { n with refCount := n.refCount - 1 } rfl rfl)
  | last d n hfile hd hdis hone =>
    obtain ⟨b, hb⟩ := h.has d n hd (by omega)
    have hfree : { w with files := w.files.erase d }.freeUciBuf n.uciBuf =
        { w with files := w.files.erase d, bufs := w.bufs.erase b } := by
      rw [hb, freeUciBuf, if_pos (h.live hd hb)]
    rw [hfree]
    exact And.imp_right (lost_iff_of_ne (by simp)) (h.last hd hb rfl rfl rfl rfl)
  | remove m d n hm hd hen hdev hfiled =>
    rw [removedOpen_eq_false_iff hm hd]
    refine And.imp_right (fun hsame ↦ ?_) (h.set hd (Nat.zero_lt_of_lt hfiled)
      { n with enabled := false, refCount := n.refCount - 1 } rfl rfl)
    rw [hsame]
    exact ⟨.inl, fun hor ↦ hor.elim id fun hone ↦ by omega⟩
  | free m d n hm hd hen hdev hclosed =>
    rw [removedOpen_eq_false_iff hm hd]
    refine h.free hd (fun hne ↦ ?_) rfl rfl rfl rfl
    exact ((hc.refs d n hd hen).resolve_left (by omega)).2.2.1

theorem init_owned : init.Owned :=
  ⟨⟨by simp [init, Owns], by simp [init, Owns], by simp [init], by simp [init]⟩, by simp [init],
    rfl⟩

/-- When all files are closed and all devices removed, there is no device left. -/
theorem Counted.dev_eq_none (h : w.Counted) (hunbound : ∀ m, w.devdata m = none)
    (hclosed : w.files = []) (d : Nat) : w.dev d = none := by
  cases hd : w.dev d with
  | none => rfl
  | some n =>
    cases hen : n.enabled with
    | true =>
      have hm := (h.bound n.mhiDev d).mpr ⟨n, hd, hen, rfl⟩
      simp [hunbound] at hm
    | false =>
      have hrefs := h.removed d n hd hen
      simp [hclosed] at hrefs
      omega

theorem Counted.uciMinors_eq (h : w.Counted) (hnone : ∀ d, w.dev d = none) (i : Nat) :
    w.uciMinors i = false := by
  cases hi : w.uciMinors i with
  | false => rfl
  | true =>
    obtain ⟨d, n, hd, -⟩ := h.marked i hi
    simp [hnone] at hd

/-! ## When the first file cannot be opened -/

/-- A device whose channel nothing starts any more. -/
structure Dead (d : Nat) (w : UciDrv) : Prop where
  old : d < w.nextDev
  counted : ∀ n, w.dev d = some n → n.enabled = true → 0 < n.refCount ∧ w.started n.mhiDev = false

/-- Another device is changed, or this one is counted again. -/
theorem Dead.set {d : Nat} (h : Dead d w) {e : Nat} {x : UciNode} {o : Option UciNode}
    (hx : w.dev e = some x)
    (hsame : ∀ n, o = some n → n.enabled = true → x.enabled = true ∧ n.mhiDev = x.mhiDev ∧
      (0 < x.refCount → 0 < n.refCount))
    (hw' : w'.dev = Function.update w.dev e o)
    (hst : ∀ n, w.dev d = some n → n.enabled = true → w.started n.mhiDev = false →
      w'.started n.mhiDev = false)
    (hnext : w'.nextDev = w.nextDev) : Dead d w' := by
  refine ⟨hnext ▸ h.old, fun n hn hen ↦ ?_⟩
  rw [hw'] at hn
  obtain ⟨rfl, ho⟩ | ⟨-, hn⟩ := eq_of_update hn
  · obtain ⟨hen', hdev, hpos⟩ := hsame n ho hen
    obtain ⟨hpos', hst'⟩ := h.counted x hx hen'
    rw [hdev]
    exact ⟨hpos hpos', hst x hx hen' hst'⟩
  · obtain ⟨hpos, hst'⟩ := h.counted n hn hen
    exact ⟨hpos, hst n hn hen hst'⟩

theorem update_false (f : Nat → Bool) (i : Nat) {j : Nat} (h : f j = false) :
    Function.update f i false j = false := by
  rw [Function.update_apply, h, ite_self]

theorem Dead.does {d : Nat} (h : Dead d w) (hc : w.Counted) (hdo : Does w a w') : Dead d w' := by
  cases hdo with
  | stay => exact h
  | probe => exact ⟨h.old, h.counted⟩
  | create m minor hm =>
    exact ⟨Nat.lt_succ_of_lt h.old, fun n hn hen ↦
      h.counted n (of_update_ne hn (Nat.ne_of_lt h.old)) hen⟩
  | attach minor prepare inbound e x hx hen hpos =>
    refine h.set hx (fun n ho _ ↦ ?_) rfl (fun _ _ _ hst ↦ hst) rfl
    obtain rfl := Option.some.inj ho
    exact ⟨hen, rfl, fun _ ↦ Nat.succ_pos _⟩
  | start minor e x hx hen hzero hbuf =>
    refine h.set hx (fun n ho _ ↦ ?_) rfl (fun n hn hen' hst ↦ ?_) rfl
    · obtain rfl := Option.some.inj ho
      exact ⟨hen, rfl, fun _ ↦ Nat.succ_pos _⟩
    · have hne : n.mhiDev ≠ x.mhiDev := by
        intro hdev
        obtain rfl := hc.eq_of_mhiDev hx hen hn hen' hdev
        obtain rfl := Option.some.inj (hn.symm.trans hx)
        exact absurd (h.counted n hn hen').1 (by omega)
      exact (Function.update_of_ne hne _ _).trans hst
  | fail minor inbound e x hx hen hzero hbuf hfail =>
    refine h.set hx (fun n ho _ ↦ ?_) rfl (fun n _ _ hst ↦ update_false _ _ hst) rfl
    obtain rfl := Option.some.inj ho
    exact ⟨hen, rfl, fun _ ↦ Nat.succ_pos _⟩
  | callback => exact ⟨h.old, h.counted⟩
  | release e x hfile hx hmore =>
    refine h.set hx (fun n ho hen ↦ ?_) rfl (fun _ _ _ hst ↦ hst) rfl
    obtain rfl := Option.some.inj ho
    exact ⟨hen, rfl, fun _ ↦ show 0 < x.refCount - 1 by omega⟩
  | last e x hfile hx hdis hone =>
    obtain ⟨bufs, faults, he, -⟩ := freeUciBuf_eq { w with files := w.files.erase e } x.uciBuf
    rw [he]
    exact h.set hx (o := none) (by simp) rfl (fun _ _ _ hst ↦ hst) rfl
  | remove m e x hm hx hen hdev hfiled =>
    refine h.set hx (fun n ho hen' ↦ ?_) rfl (fun n _ _ hst ↦ update_false _ _ hst) rfl
    obtain rfl := Option.some.inj ho
    simp at hen'
  | free m e x hm hx hen hdev hclosed =>
    exact h.set hx (o := none) (by simp) rfl (fun n _ _ hst ↦ update_false _ _ hst) rfl

/-- `mhi_uci_open` fails after the channel was started. -/
theorem Counted.open_fails (h : w.Counted) {minor d : Nat} (hl : w.lookup minor = some d)
    {inbound : Inbound} (hfail : (w.mhiUciOpen minor 0 inbound).2 ≠ 0) :
    Dead d (w.mhiUciOpen minor 0 inbound).1 := by
  obtain ⟨n, hd, hen, -⟩ := h.lookup hl
  have hopen : w.mhiUciOpen minor 0 inbound =
      if n.refCount + 1 = 1 then w.startNode d n 0 inbound
      else
        ({ w.setDev d { n with refCount := n.refCount + 1 } with files := d :: w.files }, 0) := by
    rw [mhiUciOpen, hl]
    dsimp only
    rw [hd]
    dsimp only
    rw [if_neg (by simp [hen])]
  rw [hopen] at hfail ⊢
  split at hfail
  · rename_i hone
    have hbuf := ((h.refs d n hd hen).resolve_left (by omega)).2.2.1
    rw [if_pos hone]
    rw [startNode, if_neg (by simp)] at hfail ⊢
    dsimp only at hfail ⊢
    split at hfail
    · rename_i hret
      rw [if_pos hret]
      obtain ⟨uciBuf, bufs, nextBuf, faults, he, -⟩ := errorRxQueue_eq
        { w with started := Function.update w.started n.mhiDev true } d
        (n := { n with refCount := 1 }) hbuf inbound
      rw [he]
      refine ⟨h.fresh d n hd, fun x hx _ ↦ ?_⟩
      obtain ⟨-, ho⟩ | ⟨hne, -⟩ := eq_of_update hx
      · obtain rfl := Option.some.inj ho
        exact ⟨Nat.one_pos, Function.update_self _ _ _⟩
      · exact absurd rfl hne
    · exact absurd rfl hfail
  · exact absurd rfl hfail

/-- **A device that could not be opened stays dead.**  If `mhi_uci_open` has found a device and
started its channel, and then fails, there is no run in which the channel of this device is started
again; and as long as the device is bound, every further `mhi_uci_open` of it succeeds. -/
theorem failed_open_dead (as : List Act) (h : Trace.run step init as = some w) (minor d : Nat)
    (hl : w.lookup minor = some d) (inbound : Inbound)
    (hfail : (w.mhiUciOpen minor 0 inbound).2 ≠ 0) (bs : List Act)
    (h' : Trace.run step (w.mhiUciOpen minor 0 inbound).1 bs = some w') :
    (∀ n, w'.dev d = some n → n.enabled = true → w'.started n.mhiDev = false) ∧
      ∀ k prepare inbound', w'.lookup k = some d → (w'.mhiUciOpen k prepare inbound').2 = 0 := by
  have hc := run_counted h
  obtain ⟨hc', hdead⟩ := Trace.run_invariant (I := fun u ↦ u.Counted ∧ Dead d u)
    (P := fun _ ↦ True)
    (fun _ _ _ _ hI hs ↦ ⟨hI.1.step hs, hI.2.does hI.1 (step_does hI.1 hs)⟩)
    ⟨hc.does (open_does hc minor 0 inbound), hc.open_fails hl hfail⟩ (fun _ _ ↦ trivial) h'
  refine ⟨fun n hn hen ↦ (hdead.counted n hn hen).2, fun k prepare inbound' hk ↦ ?_⟩
  obtain ⟨n, hn, hen, -⟩ := hc'.lookup hk
  have hpos := (hdead.counted n hn hen).1
  rw [mhiUciOpen, hk]
  dsimp only
  rw [hn]
  dsimp only
  rw [if_neg (by simp [hen]), if_neg (by omega)]

def sampleProbed : UciDrv := (Trace.run step init [.probe 5 true, .create 5]).getD init

theorem failed_open_dead_sample :
    ((sampleProbed.mhiUciOpen 0 0 (.refused 4)).1.mhiUciOpen 0 0 .queued).2 = 0 := by
  have hdead := failed_open_dead [.probe 5 true, .create 5] (w := sampleProbed)
    (Trace.eq_some_getD (by decide +kernel)) 0 0 (by decide +kernel) (.refused 4)
    (by decide +kernel) [] rfl
  exact hdead.2 0 0 .queued (by decide +kernel)

/-- If it is open when it is removed, its buffers are freed a second time. -/
example : ((Trace.run step init [.probe 5 true, .create 5, .openFile 0 0 (.refused 4),
    .openFile 0 0 .queued, .remove 5, .release 0]).map UciDrv.faults) = some [.freedAgain 0] := by
  decide +kernel

end UciDrv

end OpenwrtFeed.Mhi
