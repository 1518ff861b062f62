import Mathlib.Algebra.Order.BigOperators.Group.Finset
import OpenwrtFeed.Lib.Votes
import OpenwrtFeed.Mhi.Returns

/-!
# The channels of a controller

What the channels of a controller share: the power state, the counter `pending_pkts` of the buffers
that are on their way to the modem, and the votes against suspending it.  The thread whose buffer is
the first one calls `runtime_get`, and the one that gives the last one back calls `runtime_put`.

`mhi_queue_buf` counts a buffer after it has queued it, and `mhi_pm_m0_transition` may ring the
doorbell in between, so that the counter can be negative for a moment.
-/

set_option autoImplicit false

namespace OpenwrtFeed.Mhi

/-- What an operation adds to `pending_pkts`. -/
def Effect.count : Effect → Int
  | .inc => 1
  | .dec => -1
  | .none | .vote _ => 0

/-- What a call of `runtime_get` or `runtime_put` adds to the votes. -/
def Vote.value : Vote → Int
  | .get => 1
  | .put => -1

def Effect.voted : Effect → Int
  | .vote v => v.value
  | .none | .inc | .dec => 0

namespace Chan

variable {β : Type} {c c' : Chan β}

/-! ## What a channel counts and owes -/

/-- The votes that a thread has still to cast. -/
def votesOf (owed : List Vote) : Int := (owed.map Vote.value).foldr (· + ·) 0

/-- The votes that the threads of a channel have still to cast. -/
def owes (c : Chan β) : Int := votesOf c.sender.owed + votesOf c.reader.owed

/-- What an operation of a channel counts is what it does to the counter, and whoever changes
whether there are any buffers on their way owes a vote for it. -/
structure Pays (c : Chan β) (pendingPkts : Int) (c' : Chan β) (e : Effect) : Prop where
  counted_eq : c'.counted = c.counted + e.count
  owes_eq : c'.owes + e.voted =
    c.owes + (Votes.wanted (pendingPkts + e.count) - Votes.wanted pendingPkts)

theorem Pays.of_eq {pendingPkts : Int} (hcounted : c'.counted = c.counted)
    (howes : c'.owes = c.owes) : Pays c pendingPkts c' .none := by
  constructor
  · simp [hcounted, Effect.count]
  · simp [howes, Effect.count, Effect.voted]

theorem sendOp_pays (c : Chan β) (pmState : Nat) (pendingPkts : Int) (map : Option Nat)
    (call : Call β) (op : SendOp) (howed : c.sender.owed = []) :
    Pays c pendingPkts (sendOp c pmState pendingPkts map call op).1
      (sendOp c pmState pendingPkts map call op).2 := by
  cases op with
  | rouse =>
    simp only [sendOp]
    split
    · exact .of_eq rfl (by simp [owes, howed, votesOf, Vote.value])
    · exact .of_eq rfl rfl
  | note =>
    simp only [sendOp]
    split
    · exact .of_eq rfl rfl
    · split <;> exact .of_eq rfl rfl
    · split <;> exact .of_eq rfl rfl
  | pendingInc =>
    simp only [sendOp]
    split
    · refine ⟨rfl, ?_⟩
      simp only [owes, howed, Effect.count, Effect.voted, Votes.wanted_succ]
      split
      · simp [votesOf, Vote.value]
        omega
      · simp [votesOf]
    · exact .of_eq rfl rfl
  | doorbell =>
    simp only [sendOp]
    split <;> exact .of_eq rfl rfl
  | describe | addTre | addBuf => exact .of_eq rfl rfl

theorem readOp_pays (c : Chan β) (pendingPkts : Int) (op : ReadOp) (howed : c.reader.owed = []) :
    Pays c pendingPkts (readOp c pendingPkts op).1 (readOp c pendingPkts op).2 := by
  cases op with
  | unmap =>
    simp only [readOp]
    split <;> exact .of_eq rfl rfl
  | pendingDec =>
    refine ⟨rfl, ?_⟩
    simp only [readOp, owes, howed, Effect.count, Effect.voted, Votes.wanted_pred]
    split <;> simp [votesOf, Vote.value]
  | _ => exact .of_eq rfl rfl

theorem does_pays {pmState : Nat} {pendingPkts : Int} {e : Effect}
    (hd : Does pmState pendingPkts c c' e) : Pays c pendingPkts c' e := by
  cases hd with
  | send op ops call map howed _ _ =>
    obtain ⟨hcounted, howes⟩ := sendOp_pays { c with sender := { c.sender with ops } } pmState
      pendingPkts map call op howed
    exact ⟨hcounted, howes⟩
  | read op ops howed _ =>
    obtain ⟨hcounted, howes⟩ :=
      readOp_pays { c with reader := { c.reader with ops } } pendingPkts op
      howed
    exact ⟨hcounted, howes⟩
  | sendVote v owed howed =>
    refine ⟨by simp [Effect.count], ?_⟩
    simp only [owes, howed, votesOf, Effect.count, Effect.voted, List.map_cons, List.foldr_cons,
      Int.add_zero]
    omega
  | readVote v owed howed =>
    refine ⟨by simp [Effect.count], ?_⟩
    simp only [owes, howed, votesOf, Effect.count, Effect.voted, List.map_cons, List.foldr_cons,
      Int.add_zero]
    omega
  | handle ev events _ _ =>
    rw [parseXferEvent]
    split
    · exact .of_eq rfl rfl
    · split
      · exact .of_eq rfl rfl
      · split
        · split <;> exact .of_eq rfl rfl
        · exact .of_eq rfl rfl
  | _ => exact .of_eq rfl rfl

/-- How many buffers a channel to the modem has counted and not counted off again. -/
def outstanding (c : Chan β) : Int :=
  (c.queued.length + left c.sender.ops .addTre - left c.sender.ops .pendingInc : Int) -
    (c.results.length + left c.reader.ops .notify - left c.reader.ops .pendingDec)

/-- Only buffers to the modem are counted. -/
def Counts (c : Chan β) : Prop := c.counted = if c.dir = .toDevice then c.outstanding else 0

theorem pendingInc_mem {ops : List SendOp} {xferType : XferType}
    (h : .note :: ops <:+ sendProgram xferType) : .pendingInc ∈ ops := by
  cases xferType <;> simp [sendProgram, List.suffix_cons_iff] at h <;> simp [h]

theorem dir_of_pendingDec {ops : List ReadOp} (h : .pendingDec :: ops <:+ c.readProgram) :
    c.dir = .toDevice := by
  rw [readProgram] at h
  split at h
  · cases hd : c.dir with
    | toDevice => rfl
    | fromDevice => simp [hd, loopProgram, List.suffix_cons_iff] at h
  · cases hd : c.dir with
    | toDevice => rfl
    | fromDevice => simp [hd, resetProgram, List.suffix_cons_iff] at h
  · simp at h
  · simp at h

theorem Counts.of_eq (h : c.Counts) (hcounted : c'.counted = c.counted) (hdir : c'.dir = c.dir)
    (hout : c'.outstanding = c.outstanding) : c'.Counts := by
  rw [Counts, hcounted, hdir, hout]
  exact h

theorem Counts.sendOp {op : SendOp} {ops : List SendOp} (hp : c.Placed) (h : c.Counts)
    (hops : c.sender.ops = op :: ops) (pmState : Nat) (pendingPkts : Int) (map : Option Nat)
    (call : Call β) :
    Counts
      (sendOp { c with sender := { c.sender with ops } } pmState pendingPkts map call op).1 := by
  have hok := hp.sendOk hops
  have hpop : .addTre ≠ op → .pendingInc ≠ op →
      Counts { c with sender := { c.sender with ops } } := by
    intro htre hinc
    refine h.of_eq rfl rfl ?_
    simp only [outstanding, hops, left_cons_of_ne htre, left_cons_of_ne hinc]
  cases op with
  | rouse =>
    have := hpop (by simp) (by simp)
    simp only [Chan.sendOp]
    split
    · exact this
    · exact this
  | note =>
    have hsame := hpop (by simp) (by simp)
    have habort : Counts { c with sender := { c.sender with ops := [] } } := by
      refine h.of_eq rfl rfl ?_
      have hinc := pendingInc_mem (hops ▸ hp.send)
      simp only [outstanding, hops, left_of_mem (List.mem_cons_of_mem _ hinc),
        left_of_mem (List.mem_cons_of_mem _ hok.2.2.1), left_of_not_mem List.not_mem_nil]
      omega
    simp only [Chan.sendOp]
    split
    · exact hsame
    · split
      · exact hsame
      · exact habort
    · split
      · exact hsame
      · exact habort
  | describe => exact hpop (by simp) (by simp)
  | pendingInc =>
    have hleft : left ops .addTre = left c.sender.ops .addTre ∧ left c.sender.ops .pendingInc = 1 ∧
        left ops .pendingInc = 0 := by
      rw [hops, left_cons_of_ne (by simp), left_of_mem List.mem_cons_self, left_of_not_mem hok.1]
      exact ⟨rfl, rfl, rfl⟩
    simp only [Chan.sendOp]
    split
    · rename_i hdir
      rw [Counts, if_pos hdir] at h ⊢
      simp only [outstanding] at h ⊢
      rw [h]
      omega
    · rename_i hdir
      rw [Counts, if_neg hdir] at h ⊢
      exact h
  | addTre =>
    refine h.of_eq rfl rfl ?_
    have hinc : left ops .pendingInc = left c.sender.ops .pendingInc := by
      rw [hops, left_cons_of_ne (by simp)]
    simp only [outstanding, Chan.sendOp, List.length_append, List.length_singleton, hinc,
      left_of_not_mem hok.1]
    rw [hops, left_of_mem List.mem_cons_self]
    omega
  | addBuf => exact hpop (by simp) (by simp)
  | doorbell =>
    have := hpop (by simp) (by simp)
    simp only [Chan.sendOp]
    split
    · exact this
    · exact this

theorem Counts.readOp {op : ReadOp} {ops : List ReadOp} (hp : c.Placed) (h : c.Counts)
    (hops : c.reader.ops = op :: ops) (pendingPkts : Int) :
    Counts (readOp { c with reader := { c.reader with ops } } pendingPkts op).1 := by
  have hok := hp.readOk hops
  have hpop : .notify ≠ op → .pendingDec ≠ op →
      Counts { c with reader := { c.reader with ops } } := by
    intro hnotify hdec
    refine h.of_eq rfl rfl ?_
    simp only [outstanding, hops, left_cons_of_ne hnotify, left_cons_of_ne hdec]
  cases op with
  | point | fetch | delBuf | delTre => exact hpop (by simp) (by simp)
  | unmap =>
    have := hpop (by simp) (by simp)
    simp only [Chan.readOp]
    split
    · exact this
    · exact this
  | notify =>
    refine h.of_eq rfl rfl ?_
    have hdec : left ops .pendingDec = left c.reader.ops .pendingDec := by
      rw [hops, left_cons_of_ne (by simp)]
    simp only [outstanding, Chan.readOp, List.length_append, List.length_singleton, hdec,
      left_of_not_mem hok.1]
    rw [hops, left_of_mem List.mem_cons_self]
    omega
  | pendingDec =>
    have hdir := dir_of_pendingDec (hops ▸ hp.read)
    have hleft : left ops .notify = left c.reader.ops .notify ∧ left c.reader.ops .pendingDec = 1 ∧
        left ops .pendingDec = 0 := by
      rw [hops, left_cons_of_ne (by simp), left_of_mem List.mem_cons_self, left_of_not_mem hok.1]
      exact ⟨rfl, rfl, rfl⟩
    simp only [Chan.readOp]
    rw [Counts, if_pos hdir] at h ⊢
    simp only [outstanding] at h ⊢
    rw [h]
    omega

theorem Counts.step {pmState : Nat} {pendingPkts : Int} {e : Effect} (hp : c.Placed) (h : c.Counts)
    (hd : Does pmState pendingPkts c c' e) : c'.Counts := by
  cases hd with
  | accept call hops _ _ =>
    refine h.of_eq rfl rfl ?_
    have htre : left (sendProgram c.xferType) .addTre = 1 := by cases c.xferType <;> rfl
    have hinc : left (sendProgram c.xferType) .pendingInc = 1 := by cases c.xferType <;> rfl
    simp only [outstanding, hops, htre, hinc, left_of_not_mem List.not_mem_nil]
    omega
  | send op ops call map _ hops _ => exact h.sendOp hp hops pmState pendingPkts map call
  | handle ev events _ _ =>
    rw [parseXferEvent]
    split
    · exact h
    · split
      · exact h
      · split
        · split
          · exact h
          · exact h
        · exact h
  | read op ops _ hops => exact h.readOp hp hops pendingPkts
  | iterate ev devRp _ hops _ _ =>
    rw [Counts] at h ⊢
    simp only [outstanding, hops, left_of_not_mem List.not_mem_nil] at h ⊢
    rw [h]
    cases c.dir <;> simp [loopProgram, left]
  | iterateReset _ hops _ _ =>
    rw [Counts] at h ⊢
    simp only [outstanding, hops, left_of_not_mem List.not_mem_nil] at h ⊢
    rw [h]
    cases c.dir <;> simp [resetProgram, left]
  | _ => exact h

/-! ## The doorbell -/

/-- If the doorbell may be rung, then the modem knows of all that was queued, or somebody is still
going to ring. -/
def Rung (c : Chan β) : Prop :=
  c.toRing = true ∨ c.rung = c.queued.length ∨
    (.doorbell ∈ c.sender.ops ∧ .addTre ∉ c.sender.ops)

/-- The modem does not have to be told of an empty ring. -/
theorem Placed.rung_of_empty (h : c.Placed) (hreset : c.reader.phase ≠ .reset)
    (hclosed : c.reader.phase ≠ .closed) (hrp : c.treRing.wp = c.treRing.rp) :
    c.rung = c.queued.length := by
  have heq := (h.tre_at.rp_eq_wp_iff h.le h.lt).mp hrp.symm
  have hge := h.ge hreset hclosed
  have htaken := h.taken_le
  have hrung := h.rung_le
  omega

theorem Rung.sendOp {op : SendOp} {ops : List SendOp} {pmState : Nat} (hp : c.Placed) (h : c.Rung)
    (hdb : mhiDbAccessValid pmState = true) (hops : c.sender.ops = op :: ops) (pendingPkts : Int)
    (map : Option Nat) (call : Call β) :
    Rung (sendOp { c with sender := { c.sender with ops } } pmState pendingPkts map call op).1 := by
  have hok := hp.sendOk hops
  have hpop : op ≠ .doorbell → op ≠ .addTre → Rung { c with sender := { c.sender with ops } } := by
    intro hne hne'
    rcases h with hring | hrung | ⟨hmem, hnot⟩
    · exact .inl hring
    · exact .inr (.inl hrung)
    · rw [hops] at hmem hnot
      refine .inr (.inr ⟨(List.mem_cons.mp hmem).resolve_left (Ne.symm hne), ?_⟩)
      exact fun hx ↦ hnot (List.mem_cons_of_mem _ hx)
  cases op with
  | rouse =>
    have := hpop (by simp) (by simp)
    simp only [Chan.sendOp]
    split
    · exact this
    · exact this
  | note =>
    have hsame := hpop (by simp) (by simp)
    -- nothing was queued since the call began
    have habort : Rung { c with sender := { c.sender with ops := [] } } := by
      rcases h with hring | hrung | ⟨-, hnot⟩
      · exact .inl hring
      · exact .inr (.inl hrung)
      · rw [hops] at hnot
        exact absurd (List.mem_cons_of_mem _ hok.2.2.1) hnot
    simp only [Chan.sendOp]
    split
    · exact hsame
    · split
      · exact hsame
      · exact habort
    · split
      · exact hsame
      · exact habort
  | describe | addBuf => exact hpop (by simp) (by simp)
  | pendingInc =>
    have := hpop (by simp) (by simp)
    simp only [Chan.sendOp]
    split
    · exact this
    · exact this
  | addTre => exact .inr (.inr ⟨hok.2.2.2.2, hok.1⟩)
  | doorbell =>
    simp only [Chan.sendOp, if_pos hdb]
    exact .inr (.inl rfl)

theorem Rung.readOp (h : c.Rung) (ops : List ReadOp) (pendingPkts : Int) (op : ReadOp) :
    Rung (readOp { c with reader := { c.reader with ops } } pendingPkts op).1 := by
  cases op with
  | unmap =>
    simp only [Chan.readOp]
    split
    · exact h
    · exact h
  | _ => exact h

theorem Rung.step {pmState : Nat} {pendingPkts : Int} {e : Effect} (hp : c.Placed) (h : c.Rung)
    (hreset : c.reader.phase ≠ .reset) (hclosed : c.reader.phase ≠ .closed)
    (hdb : mhiDbAccessValid pmState = true) (hd : Does pmState pendingPkts c c' e) : c'.Rung := by
  cases hd with
  | accept call hops _ _ =>
    rcases h with hring | hrung | ⟨hmem, -⟩
    · exact .inl hring
    · exact .inr (.inl hrung)
    · rw [hops] at hmem
      exact absurd hmem List.not_mem_nil
  | send op ops call map _ hops _ => exact h.sendOp hp hdb hops pendingPkts map call
  | handle ev events _ _ =>
    rw [parseXferEvent]
    split
    · exact h
    · split
      · exact h
      · split
        · split
          · exact .inr (.inl rfl)
          · exact h
        · exact h
  | read op ops _ _ => exact h.readOp ops pendingPkts op
  | m0Ring _ _ => exact .inr (.inl rfl)
  | m0Skip _ hrp => exact .inr (.inl (hp.rung_of_empty hreset hclosed hrp))
  | _ => exact h

/-- A channel that is being reset is not opened again. -/
theorem phase_of_step {pmState : Nat} {pendingPkts : Int} {e : Effect}
    (hd : Does pmState pendingPkts c c' e) (hreset : c'.reader.phase ≠ .reset)
    (hclosed : c'.reader.phase ≠ .closed) :
    c.reader.phase ≠ .reset ∧ c.reader.phase ≠ .closed := by
  cases hd with
  | send op ops call map _ _ _ =>
    have hreader : (sendOp { c with sender := { c.sender with ops } } pmState pendingPkts map call
        op).1.reader = c.reader := by
      cases op <;> simp only [sendOp] <;> (repeat' split) <;> rfl
    rw [hreader] at hreset hclosed
    exact ⟨hreset, hclosed⟩
  | read op ops howed _ =>
    have hphase := (readOp_reader { c with reader := { c.reader with ops } } pendingPkts op howed).1
    rw [hphase] at hreset hclosed
    exact ⟨hreset, hclosed⟩
  | handle _ _ _ hidle | disable _ hidle | reset _ hidle => simp [hidle]
  | iterate _ _ hphase _ _ _ | leave _ _ hphase _ _ _ => simp [hphase]
  | close _ _ _ _ => exact absurd rfl hclosed
  | _ => exact ⟨hreset, hclosed⟩

end Chan

/-! ## The controller -/

/-- What the channels share, and the channels. -/
structure Controller (ι β : Type) where
  pmState : PmState
  pendingPkts : Int
  /-- How often `runtime_get` was called, less how often `runtime_put` was. -/
  votes : Int
  chans : ι → Chan β

namespace Controller

variable {ι β : Type}

/-- What can happen next: something on a channel, or a change of the power state. -/
inductive Act (ι β : Type) where
  | chan (i : ι) (a : Chan.Act β)
  /-- The state is set to another one than `MHI_PM_M0`. -/
  | pm (s : PmState)
  /-- `mhi_pm_m0_transition` sets the state, and will then come to the channels. -/
  | m0

/-- One step of a channel, or of the power management. -/
def step [DecidableEq ι] (w : Controller ι β) : Act ι β → Option (Controller ι β)
  | .chan i a => ((w.chans i).step w.pmState.bit w.pendingPkts a).map fun r ↦
    { w with
      pendingPkts := w.pendingPkts + r.2.count
      votes := w.votes + r.2.voted
      chans := Function.update w.chans i r.1 }
  | .pm s => if s ≠ .m0 then some { w with pmState := s } else none
  | .m0 => some { w with
      pmState := .m0
      chans := fun i ↦ { w.chans i with toRing := true } }

/-- A controller whose channels were just set up. -/
def start (s : ι → Chan.Setup) (tre : ι → Nat → MhiTre) : Controller ι β where
  pmState := .por
  pendingPkts := 0
  votes := 0
  chans i := Chan.mhiInitChanCtxt (s i) (tre i)

variable [Fintype ι]

/-- What holds of the channels of a controller, and of the counter and the votes. -/
structure Sound (w : Controller ι β) : Prop where
  placed : ∀ i, (w.chans i).Placed
  counts : ∀ i, (w.chans i).Counts
  rung : ∀ i, mhiDbAccessValid w.pmState.bit = true → (w.chans i).reader.phase ≠ .reset →
    (w.chans i).reader.phase ≠ .closed → (w.chans i).Rung
  balanced : Votes.Balanced w.pendingPkts w.votes (fun i ↦ (w.chans i).counted)
    fun i ↦ (w.chans i).owes

theorem Sound.start (s : ι → Chan.Setup) (tre : ι → Nat → MhiTre) :
    (start s tre : Controller ι β).Sound where
  placed i := Chan.placed_init (s i) (tre i)
  counts i := by
    simp [Chan.Counts, Chan.outstanding, Controller.start, Chan.mhiInitChanCtxt, Chan.left]
  rung _ h := absurd ((mhiDbAccessValid_bit .por).mp h) (by simp)
  balanced := by
    constructor
    · simp [Controller.start, Chan.mhiInitChanCtxt]
    · simp [Controller.start, Chan.mhiInitChanCtxt, Chan.owes, Chan.votesOf, Votes.wanted]

variable [DecidableEq ι]

/-- A step of one channel leaves the other channels alone. -/
theorem Sound.chan {w : Controller ι β} (h : w.Sound) (i : ι) {c : Chan β} {e : Effect}
    (hd : Chan.Does w.pmState.bit w.pendingPkts (w.chans i) c e) :
    Sound { w with
      pendingPkts := w.pendingPkts + e.count
      votes := w.votes + e.voted
      chans := Function.update w.chans i c } where
  placed j := by
    show (Function.update w.chans i c j).Placed
    rw [Function.update_apply]
    split
    · exact (h.placed i).step hd
    · exact h.placed j
  counts j := by
    show (Function.update w.chans i c j).Counts
    rw [Function.update_apply]
    split
    · exact (h.counts i).step (h.placed i) hd
    · exact h.counts j
  rung j hdb hreset hclosed := by
    show (Function.update w.chans i c j).Rung
    replace hreset : (Function.update w.chans i c j).reader.phase ≠ .reset := hreset
    replace hclosed : (Function.update w.chans i c j).reader.phase ≠ .closed := hclosed
    rw [Function.update_apply] at hreset hclosed ⊢
    split
    · rename_i hji
      rw [if_pos hji] at hreset hclosed
      obtain ⟨hr, hc⟩ := Chan.phase_of_step hd hreset hclosed
      exact (h.rung i hdb hr hc).step (h.placed i) hr hc hdb hd
    · rename_i hji
      rw [if_neg hji] at hreset hclosed
      exact h.rung j hdb hreset hclosed
  balanced := by
    obtain ⟨hcounted, howes⟩ := Chan.does_pays hd
    have hbal := h.balanced.update i howes
    have hshare : (fun j ↦ (Function.update w.chans i c j).counted) =
        Function.update (fun j ↦ (w.chans j).counted) i ((w.chans i).counted + e.count) := by
      rw [← hcounted]
      exact Function.comp_update (fun c : Chan β ↦ c.counted) w.chans i c
    have howed : (fun j ↦ (Function.update w.chans i c j).owes) =
        Function.update (fun j ↦ (w.chans j).owes) i c.owes :=
      Function.comp_update (fun c : Chan β ↦ c.owes) w.chans i c
    show Votes.Balanced _ _ (fun j ↦ (Function.update w.chans i c j).counted)
      fun j ↦ (Function.update w.chans i c j).owes
    rw [hshare, howed]
    exact hbal

theorem Sound.step {w w' : Controller ι β} {a : Act ι β} (h : w.Sound) (hs : w.step a = some w') :
    w'.Sound := by
  cases a with
  | chan i a =>
    obtain ⟨⟨c, e⟩, hstep, rfl⟩ := Option.map_eq_some_iff.mp hs
    exact h.chan i (Chan.does_of_step hstep)
  | pm s =>
    obtain ⟨hne, rfl⟩ := Trace.of_guard hs
    exact ⟨h.placed, h.counts, fun _ hdb ↦ absurd ((mhiDbAccessValid_bit s).mp hdb) hne, h.balanced⟩
  | m0 =>
    obtain rfl := Option.some.inj hs
    exact ⟨fun i ↦ (h.placed i).congr _ _ _ _ _ _ _ _ true _ _, h.counts,
      fun _ _ _ _ ↦ .inl rfl, h.balanced⟩

theorem Sound.run {w w' : Controller ι β} {as : List (Act ι β)} (h : w.Sound)
    (hrun : Trace.run Controller.step w as = some w') : w'.Sound :=
  Trace.run_invariant (P := fun _ ↦ True) (fun _ _ _ _ hs hstep ↦ hs.step hstep) h
    (fun _ _ ↦ trivial) hrun

omit [Fintype ι] in
/-- What the power management does, in the terms of `Power`, the controller can follow, and the
channels wait for `mhi_pm_m0_transition` only where it was called. -/
theorem follows_power {p p' : Power} {a : Power.Act} (hp : p.Known) (h : p.step a = some p')
    {w : Controller ι β} (hw : p.pmState = w.pmState.bit) :
    ∃ bs w', Trace.run step w bs = some w' ∧ p'.pmState = w'.pmState.bit ∧
      (bs = [] ∨ (∃ s, s ≠ .m0 ∧ bs = [.pm s]) ∨ (a = .m0 ∧ bs = [.m0])) := by
  obtain ⟨s, -, hbit⟩ := hp.step h
  by_cases hs : s = .m0
  · subst hs
    rcases hp.m0_of_step h hbit with heq | rfl
    · exact ⟨[], w, rfl, (hbit.trans heq.symm).trans hw, .inl rfl⟩
    · exact ⟨[.m0], _, rfl, hbit, .inr (.inr ⟨rfl, rfl⟩)⟩
  · exact ⟨[.pm s], { w with pmState := s }, by simp [Trace.run, step, hs], hbit,
      .inr (.inl ⟨s, hs, rfl⟩)⟩

/-- Nobody is in the middle of anything. -/
def Idle (w : Controller ι β) : Prop := ∀ i,
  (w.chans i).sender.ops = [] ∧ (w.chans i).sender.owed = [] ∧ (w.chans i).reader.ops = [] ∧
    (w.chans i).reader.owed = []

/-- **The modem is kept awake exactly as long as there is something on its way to it.**  Whatever
the order in which the threads of all channels count, ask and release, when none of them is in the
middle of anything, `pending_pkts` is the number of buffers to the modem that have not come back,
and the votes are balanced if and only if there are none. -/
theorem votes_balanced (s : ι → Chan.Setup) (tre : ι → Nat → MhiTre) (as : List (Act ι β))
    (w : Controller ι β) (h : Trace.run step (start s tre) as = some w) (hidle : w.Idle) :
    w.pendingPkts = ∑ i, (if (w.chans i).dir = .toDevice then
        ((w.chans i).queued.length - (w.chans i).results.length : Int) else 0) ∧
      w.votes = (if 0 < w.pendingPkts then 1 else 0) ∧
      (w.votes = 0 ↔ ∀ i, (w.chans i).dir = .toDevice →
        (w.chans i).results.length = (w.chans i).queued.length) := by
  have hsound := (Sound.start s tre).run h
  have hcount : ∀ i, (w.chans i).counted = if (w.chans i).dir = .toDevice then
      ((w.chans i).queued.length - (w.chans i).results.length : Int) else 0 := by
    intro i
    obtain ⟨hops, -, hops', -⟩ := hidle i
    have hc := hsound.counts i
    rw [Chan.Counts, Chan.outstanding, hops, hops'] at hc
    rw [hc]
    simp [Chan.left]
  have hpending : w.pendingPkts = ∑ i, (if (w.chans i).dir = .toDevice then
      ((w.chans i).queued.length - (w.chans i).results.length : Int) else 0) := by
    rw [hsound.balanced.count_eq]
    exact Finset.sum_congr rfl fun i _ ↦ hcount i
  have hvotes : w.votes = Votes.wanted w.pendingPkts := by
    refine hsound.balanced.votes_of_idle fun i ↦ ?_
    obtain ⟨-, howed, -, howed'⟩ := hidle i
    rw [Chan.owes, howed, howed']
    rfl
  have hnonneg : ∀ i, 0 ≤ (if (w.chans i).dir = .toDevice then
      ((w.chans i).queued.length - (w.chans i).results.length : Int) else 0) := by
    intro i
    have hle := (hsound.placed i).results_le.1
    split <;> omega
  refine ⟨hpending, hvotes, ?_⟩
  rw [hvotes, Votes.wanted]
  constructor
  · intro hzero i hdir
    have hle := (hsound.placed i).results_le.1
    have hpos : ¬ 0 < w.pendingPkts := fun hpos ↦ by simp [hpos] at hzero
    have hsingle := Finset.single_le_sum (fun j _ ↦ hnonneg j) (Finset.mem_univ i)
    rw [← hpending, if_pos hdir] at hsingle
    omega
  · intro hall
    rw [if_neg]
    rw [hpending, Finset.sum_eq_zero]
    · exact Int.lt_irrefl 0
    · intro i _
      split
      · rename_i hdir
        have := hall i hdir
        omega
      · rfl

/-- A buffer is queued to the first of two channels, in the state `MHI_PM_M0`. -/
def sampleActs : List (Act Bool Nat) :=
  .m0 :: .chan false .m0Ring :: .chan false (.call { buf := 7, len := 1500 }) ::
    List.replicate 8 (.chan false (.send (some 0x5000)))

def sampleStart : Controller Bool Nat := start (fun _ ↦ Chan.sampleSetup) fun _ _ ↦ ⟨0, 0, 0⟩

def sampleQueued : Controller Bool Nat :=
  (Trace.run step sampleStart sampleActs).getD sampleStart

theorem votes_balanced_sample : sampleQueued.pendingPkts = 1 ∧ sampleQueued.votes = 1 := by
  have hbal := votes_balanced (fun _ ↦ Chan.sampleSetup) (fun _ _ ↦ ⟨0, 0, 0⟩) sampleActs
    sampleQueued (Trace.eq_some_getD (by decide +kernel)) (by rw [Idle]; decide +kernel)
  have hone : sampleQueued.pendingPkts = 1 := by decide +kernel
  exact ⟨hone, hbal.2.1.trans (by rw [hone]; rfl)⟩

/-- **No doorbell is missed.**  In the state `MHI_PM_M0`, once `mhi_pm_m0_transition` has come to a
channel that is open and nobody is queueing to it, the modem knows of everything that was queued:
from where the modem is, the context shows it all the elements that it has not taken yet. -/
theorem doorbell_rung (s : ι → Chan.Setup) (tre : ι → Nat → MhiTre) (as : List (Act ι β))
    (w : Controller ι β) (h : Trace.run step (start s tre) as = some w) (hpm : w.pmState = .m0)
    (i : ι) (hreset : (w.chans i).reader.phase ≠ .reset)
    (hclosed : (w.chans i).reader.phase ≠ .closed) (hops : (w.chans i).sender.ops = [])
    (hring : (w.chans i).toRing = false) :
    (w.chans i).treRing.ctxtWp = (w.chans i).treRing.phys (w.chans i).queued.length ∧
      MhiRing.getUsedRingElements (w.chans i).treRing.elSize
        ((w.chans i).treRing.phys (w.chans i).taken) (w.chans i).treRing.ctxtWp
        (w.chans i).treRing.elements = (w.chans i).queued.length - (w.chans i).taken := by
  have hsound := (Sound.start s tre).run h
  have hp := hsound.placed i
  have hge := hp.ge hreset hclosed
  have hlt := hp.lt
  have htaken := hp.taken_le
  have hctxt := hp.ctxt
  have hrung : (w.chans i).rung = (w.chans i).queued.length := by
    have hdb := (mhiDbAccessValid_bit w.pmState).mpr hpm
    rcases hsound.rung i hdb hreset hclosed with hr | hr | ⟨hmem, -⟩
    · exact absurd (hring.symm.trans hr) (by simp)
    · exact hr
    · rw [hops] at hmem
      exact absurd hmem List.not_mem_nil
  rw [hrung] at hctxt htaken
  refine ⟨hctxt, ?_⟩
  rw [hctxt]
  exact hp.tre_at.toLies.used_phys htaken (by omega)

theorem doorbell_rung_sample : (sampleQueued.chans false).treRing.ctxtWp =
    (sampleQueued.chans false).treRing.phys 1 :=
  (doorbell_rung (fun _ ↦ Chan.sampleSetup) (fun _ _ ↦ ⟨0, 0, 0⟩) sampleActs sampleQueued
    (Trace.eq_some_getD (by decide +kernel)) (by decide +kernel) false (by decide +kernel)
    (by decide +kernel) (by decide +kernel) (by decide +kernel)).1

end Controller

end OpenwrtFeed.Mhi
