import Mathlib.Data.List.Basic
import OpenwrtFeed.Lib.Trace

/-!
# Power states

The state machine of `mhi_pm.c`.  `pm_state` is a word with one bit for each state, and
`mhi_tryset_pm_state` sets it to another state if the table of transitions allows it.  It is called
by many threads, each of which holds `pm_lock` for one such call only: the tasklet that hears of the
modem's own states, the interrupt handlers, the worker that recovers from a system error, the one
that waits for the modem to become ready, whoever turns the modem on and off, and the `ioctl` that
writes an image.

The worker and `mhi_power_down` share `mhi_pm_disable_transition`, which has two halves.  `pm_mutex`
is free between them, so that the halves of one call and of the other can come in any order that the
table lets pass.
-/

set_option autoImplicit false

namespace OpenwrtFeed.Mhi

/-! ## The table of transitions -/

/-- The states of `enum MHI_PM_STATE`, in the order of their bits. -/
inductive PmState where
  | disable
  | por
  | m0
  | m2
  | m3Enter
  | m3
  | m3Exit
  | fwDlErr
  | sysErrDetect
  | sysErrProcess
  | shutdownProcess
  | ldErrFatalDetect
  deriving DecidableEq, Repr

namespace PmState

/-- The bits of `enum MHI_PM_STATE`. -/
def bit : PmState → Nat
  | disable => 1 <<< 0
  | por => 1 <<< 1
  | m0 => 1 <<< 2
  | m2 => 1 <<< 3
  | m3Enter => 1 <<< 4
  | m3 => 1 <<< 5
  | m3Exit => 1 <<< 6
  | fwDlErr => 1 <<< 7
  | sysErrDetect => 1 <<< 8
  | sysErrProcess => 1 <<< 9
  | shutdownProcess => 1 <<< 10
  | ldErrFatalDetect => 1 <<< 11

/-- Several states in one word. -/
def bits (states : List PmState) : Nat := states.foldl (fun w s ↦ w ||| s.bit) 0

/-- The states that may follow a state. -/
def toStates : PmState → List PmState
  | disable => [por]
  | por => [por, disable, m0, sysErrDetect, shutdownProcess, ldErrFatalDetect, fwDlErr]
  | m0 => [m2, m3Enter, sysErrDetect, shutdownProcess, ldErrFatalDetect, fwDlErr]
  | m2 => [m0, sysErrDetect, shutdownProcess, ldErrFatalDetect]
  | m3Enter => [m3, sysErrDetect, shutdownProcess, ldErrFatalDetect]
  | m3 => [m3Exit, sysErrDetect, shutdownProcess, ldErrFatalDetect]
  | m3Exit => [m0, sysErrDetect, shutdownProcess, ldErrFatalDetect]
  | fwDlErr => [fwDlErr, sysErrDetect, shutdownProcess, ldErrFatalDetect]
  | sysErrDetect => [sysErrProcess, shutdownProcess, ldErrFatalDetect]
  | sysErrProcess => [por, shutdownProcess, ldErrFatalDetect]
  | shutdownProcess => [disable, ldErrFatalDetect]
  | ldErrFatalDetect => [ldErrFatalDetect, shutdownProcess]

end PmState

/-- `mhi_state_transitions`: pairs of `from_state` and `to_states` -/
def mhiStateTransitions : List (Nat × Nat) :=
  [.disable, .por, .m0, .m2, .m3Enter, .m3, .m3Exit, .fwDlErr, .sysErrDetect, .sysErrProcess,
    .shutdownProcess, .ldErrFatalDetect].map fun s : PmState ↦ (s.bit, PmState.bits s.toStates)

/-- `find_last_bit` of a word of 32 bits. -/
def findLastBit (w : Nat) : Nat := if w = 0 then 32 else Nat.log2 w

/-- `mhi_tryset_pm_state`, on the state `curState` of the controller -/
def mhiTrysetPmState (curState state : Nat) : Nat :=
  match mhiStateTransitions[findLastBit curState]? with
  | none => curState
  | some (fromState, toStates) =>
    if fromState ≠ curState then curState
    else if toStates &&& state = 0 then curState
    else state

/-- `MHI_REG_ACCESS_VALID` -/
def mhiRegAccessValid (pmState : Nat) : Bool :=
  pmState &&& PmState.bits [.por, .m0, .m2, .m3Enter, .m3Exit, .sysErrDetect, .sysErrProcess,
    .shutdownProcess, .fwDlErr] ≠ 0

/-- `MHI_PM_IN_ERROR_STATE` -/
def mhiPmInErrorState (pmState : Nat) : Bool := PmState.fwDlErr.bit ≤ pmState

/-- `MHI_PM_IN_FATAL_STATE` -/
def mhiPmInFatalState (pmState : Nat) : Bool := pmState = PmState.ldErrFatalDetect.bit

/-- `MHI_DB_ACCESS_VALID` -/
def mhiDbAccessValid (pmState : Nat) : Bool := pmState &&& PmState.m0.bit ≠ 0

/-- `MHI_EVENT_ACCESS_INVALID` -/
def mhiEventAccessInvalid (pmState : Nat) : Bool :=
  pmState = PmState.disable.bit || mhiPmInErrorState pmState

/-- `MHI_PM_IN_SUSPEND_STATE` -/
def mhiPmInSuspendState (pmState : Nat) : Bool := pmState &&& PmState.bits [.m3Enter, .m3] ≠ 0

theorem PmState.bit_injective {s t : PmState} (h : s.bit = t.bit) : s = t := by
  cases s <;> cases t <;> first | rfl | exact absurd h (by decide)

/-- What `mhi_tryset_pm_state` does, in terms of states. -/
theorem mhiTrysetPmState_bit (s t : PmState) :
    mhiTrysetPmState s.bit t.bit = (if t ∈ s.toStates then t else s).bit := by
  cases s <;> cases t <;> rfl

/-- The doorbells may be rung in one state only. -/
theorem mhiDbAccessValid_bit (s : PmState) : mhiDbAccessValid s.bit = true ↔ s = .m0 := by
  cases s <;> decide

/-! ## The threads -/

/-- `enum mhi_ee` -/
inductive MhiEe where
  | pbl
  | sbl
  | amss
  | rddm
  | wfw
  | pthru
  | edl
  | fp
  | disableTransition
  | max
  deriving DecidableEq, Repr

/-- `MHI_IN_PBL` -/
def mhiInPbl (ee : MhiEe) : Bool := ee = .pbl || ee = .pthru || ee = .edl

/-- `enum mhi_dev_state` -/
inductive MhiDevState where
  | reset
  | ready
  | m0
  | m1
  | m2
  | m3
  | bhi
  | sysErr
  | max
  deriving DecidableEq, Repr

/-- How far a call of `mhi_pm_disable_transition` has come: it has been entered, it is in its first
half and holds `pm_mutex`, it is between the halves, and the work items have been flushed. -/
inductive Half where
  | idle
  | entered
  | first
  | between
  | flushed
  deriving DecidableEq, Repr

/-- How far a call of `BhiWrite` has come: the image is still to be handed over, the modem is
loading it, it has loaded it, and `dev_state` was reset. -/
inductive BhiCall where
  | image
  | loading
  | loaded
  | resetDone
  deriving DecidableEq, Repr

/-- The controller, its work items, and where the threads are. -/
structure Power where
  pmState : Nat
  devState : MhiDevState
  ee : MhiEe
  /-- `syserr_worker` is scheduled. -/
  syserrWork : Bool
  /-- `ready_worker` is scheduled. -/
  readyWork : Bool
  /-- How often `MHI_ST_TRANSITION_READY` is in `transition_list`. -/
  readyItems : Nat
  /-- The call of `mhi_pm_disable_transition` by `mhi_pm_sys_err_worker`. -/
  worker : Half
  /-- The call by `mhi_power_down`. -/
  down : Half
  /-- `mhi_async_power_up` holds `pm_mutex`. -/
  up : Bool
  /-- The threads that found `MHI_PM_SYS_ERR_DETECT` set after their own call of
  `mhi_tryset_pm_state` and have not done anything about it yet.  The interrupt handler remembers
  the environment that it has read. -/
  duties : List (Option MhiEe)
  /-- `MHI_CB_FATAL_ERROR` was reported since a system error was detected. -/
  told : Bool
  /-- The calls of `BhiWrite` by `mhi_cntrl_ioctl`, which takes neither `pm_mutex` nor anything else
  that the others wait for. -/
  bhi : List BhiCall

/-- What the threads do, one section under `pm_lock` at a time. -/
inductive Power.Act where
  | upBegin
  | upFail
  | upEnd (ee : MhiEe)
  | readyWorker (ee : MhiEe)
  | stWorkerReady (ready : Bool)
  | setEe (ee : MhiEe)
  | m0
  | m1
  | m3
  | suspend
  | resume
  | detect
  | intvec (state : MhiDevState) (ee : MhiEe)
  | duty (i : Nat)
  | workerStart
  | workerFirst
  | workerReset (ok : Bool)
  | workerFlush
  | workerSecond (edl ready : Bool)
  | downForce
  | downStart
  | downFirst
  | downReset
  | downFlush
  | downSecond
  | ioctl
  | bhiWrite (i : Nat) (ok : Bool)
  deriving DecidableEq, Repr

namespace Power

/-- The call of `mhi_tryset_pm_state`. -/
def tryset (w : Power) (state : PmState) : Power :=
  { w with pmState := mhiTrysetPmState w.pmState state.bit }

/-- `pm_mutex` is free. -/
def mutexFree (w : Power) : Bool := w.worker ≠ .first && w.down ≠ .first && !w.up

/-- `mhi_ready_state_transition`; `ready` says how the wait for the modem ended -/
def mhiReadyStateTransition (w : Power) (ready : Bool) : Power :=
  if mhiPmInFatalState w.pmState then w
  else if !ready then w
  else { w.tryset .por with devState := .ready }

/-- `mhi_pm_ready_worker`, with the environment that the modem is in -/
def mhiPmReadyWorker (w : Power) (ee : MhiEe) : Power :=
  if w.devState ≠ .reset then w
  else match if mhiRegAccessValid w.pmState then ee else .max with
    | .pthru => { w with readyWork := true }
    | .amss | .sbl => { w with readyItems := w.readyItems + 1 }
    | _ => w

/-- How a system error is detected where a state change event tells of it, where an interrupt comes
without an event, and by `mhi_debugfs_trigger_reset`.  Whoever finds the state set schedules the
worker. -/
def detected (w : Power) (duty : Option MhiEe) : Power :=
  let told := if w.pmState = PmState.sysErrDetect.bit then w.told else false
  let w := { w.tryset .sysErrDetect with told }
  if w.pmState = PmState.sysErrDetect.bit then { w with duties := duty :: w.duties } else w

/-- `mhi_intvec_threaded_handlr`, while it holds the lock -/
def mhiIntvecThreadedHandlr (w : Power) (state : MhiDevState) (ee : MhiEe) : Power :=
  if mhiRegAccessValid w.pmState && state = .sysErr then
    if w.pmState ≠ PmState.sysErrDetect.bit then w.detected (some ee) else w
  else w

/-- What follows for whoever has detected a system error. -/
def discharge (w : Power) : Option MhiEe → Power
  | none => { w with syserrWork := true }
  | some ee =>
    if w.ee ≠ ee then { w with syserrWork := true }
    else if mhiInPbl ee then { w with told := true }
    else { w with syserrWork := true }

/-- The beginning of the first half of `mhi_pm_disable_transition`, up to the end of `pm_lock`. -/
def firstHalf (w : Power) (transitionState : PmState) : Power :=
  let w := w.tryset transitionState
  if w.pmState = transitionState.bit then
    { w with ee := .disableTransition, devState := .reset }
  else w

/-- The next section of a call of `BhiWrite`.  `ok` says whether the image could be copied, whether
the modem has taken it, or how the wait for the modem ended. -/
def bhiWriteOn (w : Power) (ok : Bool) : BhiCall → Power
  | .image =>
    if ok && mhiRegAccessValid w.pmState then { w with bhi := .loading :: w.bhi } else w
  | .loading =>
    if !mhiPmInErrorState w.pmState && ok then { w with bhi := .loaded :: w.bhi } else w
  | .loaded => { w with devState := .reset, bhi := .resetDone :: w.bhi }
  | .resetDone => w.mhiReadyStateTransition ok

/-- One section of one thread. -/
def step (w : Power) : Act → Option Power
  | .upBegin =>
    if w.mutexFree then
      some { w with pmState := PmState.disable.bit, devState := .reset, up := true }
    else none
  | .upFail => if w.up then some { w with up := false } else none
  | .upEnd ee =>
    if w.up then
      let w := { w with pmState := PmState.por.bit, ee := .max, up := false }
      some (if mhiInPbl ee then { w with readyWork := true }
        else { w with readyItems := w.readyItems + 1 })
    else none
  | .readyWorker ee =>
    if w.readyWork then some (mhiPmReadyWorker { w with readyWork := false } ee) else none
  | .stWorkerReady ready =>
    if 0 < w.readyItems then
      some (mhiReadyStateTransition { w with readyItems := w.readyItems - 1 } ready)
    else none
  | .setEe ee => some { w with ee }
  -- `mhi_pm_m0_transition`, `mhi_pm_m1_transition` and `mhi_pm_m3_transition`
  | .m0 => some { w.tryset .m0 with devState := .m0 }
  | .m1 =>
    let w := w.tryset .m2
    some (if w.pmState = PmState.m2.bit then { w with devState := .m2 } else w)
  | .m3 => some { w.tryset .m3 with devState := .m3 }
  -- `mhi_pm_suspend` and `mhi_pm_resume`
  | .suspend => some (w.tryset .m3Enter)
  | .resume => some (w.tryset .m3Exit)
  | .detect => some (w.detected none)
  | .intvec state ee => some (w.mhiIntvecThreadedHandlr state ee)
  | .duty i => w.duties[i]?.map (discharge { w with duties := w.duties.eraseIdx i })
  | .workerStart =>
    if w.syserrWork && w.worker = .idle then
      some { w with syserrWork := false, worker := .entered }
    else none
  | .workerFirst =>
    if w.worker = .entered && w.mutexFree then
      let w := w.firstHalf .sysErrProcess
      some { w with worker :=
        if w.pmState = PmState.sysErrProcess.bit then .first else .idle }
    else none
  | .workerReset ok =>
    if w.worker = .first then some { w with worker := if ok then .between else .idle } else none
  | .workerFlush =>
    if w.worker = .between && w.readyItems = 0 && !w.readyWork then
      some { w with worker := .flushed }
    else none
  | .workerSecond edl ready =>
    if w.worker = .flushed && w.mutexFree then
      let w := { w with worker := .idle }
      some (if edl then { w.tryset .por with ee := .edl } else w.mhiReadyStateTransition ready)
    else none
  | .downForce =>
    if w.down = .idle && w.mutexFree then
      some { w.tryset .ldErrFatalDetect with down := .entered }
    else none
  | .downStart => if w.down = .idle then some { w with down := .entered } else none
  | .downFirst =>
    if w.down = .entered && w.mutexFree then
      let w := w.firstHalf .shutdownProcess
      some { w with down := if w.pmState = PmState.shutdownProcess.bit then .first else .idle }
    else none
  | .downReset => if w.down = .first then some { w with down := .between } else none
  | .downFlush =>
    if w.down = .between && w.readyItems = 0 && !w.readyWork then
      some { w with down := .flushed }
    else none
  | .downSecond =>
    if w.down = .flushed && w.mutexFree then some { w.tryset .disable with down := .idle } else none
  | .ioctl => some (if w.ee = .edl then { w with bhi := .image :: w.bhi } else w)
  | .bhiWrite i ok => w.bhi[i]?.map (bhiWriteOn { w with bhi := w.bhi.eraseIdx i } ok)

/-- A controller that was never turned on.  Nothing has set `pm_state` yet. -/
def off : Power where
  pmState := 0
  devState := .reset
  ee := .max
  syserrWork := false
  readyWork := false
  readyItems := 0
  worker := .idle
  down := .idle
  up := false
  duties := []
  told := false
  bhi := []

/-! ## What a step does to the state -/

variable {w w' : Power} {a : Act}

theorem readyTransition_pmState (w : Power) (ready : Bool) :
    (w.mhiReadyStateTransition ready).pmState = w.pmState ∨
      (w.mhiReadyStateTransition ready).pmState = mhiTrysetPmState w.pmState PmState.por.bit := by
  rw [mhiReadyStateTransition]
  split
  · exact .inl rfl
  · split
    · exact .inl rfl
    · exact .inr rfl

@[simp]
theorem readyWorker_pmState (w : Power) (ee : MhiEe) :
    (w.mhiPmReadyWorker ee).pmState = w.pmState := by
  rw [mhiPmReadyWorker]
  split
  · rfl
  · split <;> rfl

@[simp]
theorem detected_pmState (w : Power) (d : Option MhiEe) :
    (w.detected d).pmState = mhiTrysetPmState w.pmState PmState.sysErrDetect.bit := by
  simp only [detected]
  split <;> rfl

@[simp]
theorem discharge_pmState (w : Power) (d : Option MhiEe) : (w.discharge d).pmState = w.pmState := by
  rcases d with _ | ee
  · rfl
  · rw [discharge]
    split
    · rfl
    · split <;> rfl

@[simp]
theorem firstHalf_pmState (w : Power) (s : PmState) :
    (w.firstHalf s).pmState = mhiTrysetPmState w.pmState s.bit := by
  simp only [firstHalf]
  split <;> rfl

theorem intvec_pmState (w : Power) (state : MhiDevState) (ee : MhiEe) :
    (w.mhiIntvecThreadedHandlr state ee).pmState = w.pmState ∨
      (w.mhiIntvecThreadedHandlr state ee).pmState =
        mhiTrysetPmState w.pmState PmState.sysErrDetect.bit := by
  rw [mhiIntvecThreadedHandlr]
  split
  · split
    · exact .inr (detected_pmState w _)
    · exact .inl rfl
  · exact .inl rfl

theorem bhiWriteOn_pmState (w : Power) (ok : Bool) (c : BhiCall) :
    (w.bhiWriteOn ok c).pmState = w.pmState ∨
      c = .resetDone ∧
        (w.bhiWriteOn ok c).pmState = mhiTrysetPmState w.pmState PmState.por.bit := by
  cases c with
  | image | loading =>
    rw [bhiWriteOn]
    split <;> exact .inl rfl
  | loaded => exact .inl rfl
  | resetDone => exact (readyTransition_pmState w ok).imp_right fun h ↦ ⟨rfl, h⟩

/-- The actions that try to set `MHI_PM_POR`. -/
def readies (w : Power) : Act → Bool
  | .stWorkerReady _ | .workerSecond _ _ => true
  | .bhiWrite i _ => w.bhi[i]? = some .resetDone
  | _ => false

/-- The actions that try to set a state of the levels L2 and L3. -/
def Act.shuts : Act → Bool
  | .downForce | .downFirst => true
  | _ => false

/-- The actions that try to set `MHI_PM_SYS_ERR_DETECT`. -/
def Act.detects : Act → Bool
  | .detect | .intvec _ _ => true
  | _ => false

/-- The ways in which a step can change the state. -/
inductive Moves (w : Power) (a : Act) (w' : Power) : Prop
  | stays (h : w'.pmState = w.pmState)
  | tries (t : PmState) (h : w'.pmState = mhiTrysetPmState w.pmState t.bit) (hfw : t ≠ .fwDlErr)
      (hpor : t = .por → w.readies a = true)
      (hshut : t = .shutdownProcess ∨ t = .ldErrFatalDetect → a.shuts = true)
      (hdetect : t = .sysErrDetect → a.detects = true) (hm0 : t = .m0 → a = .m0)
  | disabled (ha : a = .upBegin) (h : w'.pmState = PmState.disable.bit)
  | reset (ee : MhiEe) (ha : a = .upEnd ee) (hup : w.up = true) (h : w'.pmState = PmState.por.bit)

theorem moves_of_step (h : w.step a = some w') : Moves w a w' := by
  cases a with
  | upBegin =>
    obtain ⟨-, rfl⟩ := Trace.of_guard h
    exact .disabled rfl rfl
  | upFail =>
    obtain ⟨-, rfl⟩ := Trace.of_guard h
    exact .stays rfl
  | upEnd ee =>
    obtain ⟨hup, rfl⟩ := Trace.of_guard h
    refine .reset ee rfl hup ?_
    split <;> rfl
  | readyWorker ee =>
    obtain ⟨-, rfl⟩ := Trace.of_guard h
    exact .stays (readyWorker_pmState _ ee)
  | stWorkerReady ready =>
    obtain ⟨-, rfl⟩ := Trace.of_guard h
    rcases readyTransition_pmState { w with readyItems := w.readyItems - 1 } ready with heq | heq
    · exact .stays heq
    · exact .tries .por heq (by simp) (fun _ ↦ rfl) (by simp) (by simp) (by simp)
  | setEe ee =>
    obtain rfl := Option.some.inj h
    exact .stays rfl
  | m0 =>
    obtain rfl := Option.some.inj h
    exact .tries .m0 rfl (by simp) (by simp) (by simp) (by simp) (fun _ ↦ rfl)
  | m1 =>
    obtain rfl := Option.some.inj h
    refine .tries .m2 ?_ (by simp) (by simp) (by simp) (by simp) (by simp)
    split <;> rfl
  | m3 =>
    obtain rfl := Option.some.inj h
    exact .tries .m3 rfl (by simp) (by simp) (by simp) (by simp) (by simp)
  | suspend =>
    obtain rfl := Option.some.inj h
    exact .tries .m3Enter rfl (by simp) (by simp) (by simp) (by simp) (by simp)
  | resume =>
    obtain rfl := Option.some.inj h
    exact .tries .m3Exit rfl (by simp) (by simp) (by simp) (by simp) (by simp)
  | detect =>
    obtain rfl := Option.some.inj h
    exact .tries .sysErrDetect (detected_pmState w none) (by simp) (by simp) (by simp)
      (fun _ ↦ rfl) (by simp)
  | intvec state ee =>
    obtain rfl := Option.some.inj h
    rcases intvec_pmState w state ee with heq | heq
    · exact .stays heq
    · exact .tries .sysErrDetect heq (by simp) (by simp) (by simp) (fun _ ↦ rfl) (by simp)
  | duty i =>
    obtain ⟨d, -, rfl⟩ := Option.map_eq_some_iff.mp h
    exact .stays (discharge_pmState _ d)
  | workerStart =>
    obtain ⟨-, rfl⟩ := Trace.of_guard h
    exact .stays rfl
  | workerFirst =>
    obtain ⟨-, rfl⟩ := Trace.of_guard h
    exact .tries .sysErrProcess (firstHalf_pmState w _) (by simp) (by simp) (by simp) (by simp)
      (by simp)
  | workerReset ok =>
    obtain ⟨-, rfl⟩ := Trace.of_guard h
    exact .stays rfl
  | workerFlush =>
    obtain ⟨-, rfl⟩ := Trace.of_guard h
    exact .stays rfl
  | workerSecond edl ready =>
    obtain ⟨-, rfl⟩ := Trace.of_guard h
    cases edl with
    | true => exact .tries .por rfl (by simp) (fun _ ↦ rfl) (by simp) (by simp) (by simp)
    | false =>
      rcases readyTransition_pmState { w with worker := .idle } ready with heq | heq
      · exact .stays heq
      · exact .tries .por heq (by simp) (fun _ ↦ rfl) (by simp) (by simp) (by simp)
  | downForce =>
    obtain ⟨-, rfl⟩ := Trace.of_guard h
    exact .tries .ldErrFatalDetect rfl (by simp) (by simp) (fun _ ↦ rfl) (by simp) (by simp)
  | downStart =>
    obtain ⟨-, rfl⟩ := Trace.of_guard h
    exact .stays rfl
  | downFirst =>
    obtain ⟨-, rfl⟩ := Trace.of_guard h
    exact .tries .shutdownProcess (firstHalf_pmState w _) (by simp) (by simp) (fun _ ↦ rfl)
      (by simp) (by simp)
  | downReset =>
    obtain ⟨-, rfl⟩ := Trace.of_guard h
    exact .stays rfl
  | downFlush =>
    obtain ⟨-, rfl⟩ := Trace.of_guard h
    exact .stays rfl
  | downSecond =>
    obtain ⟨-, rfl⟩ := Trace.of_guard h
    exact .tries .disable rfl (by simp) (by simp) (by simp) (by simp) (by simp)
  | ioctl =>
    obtain rfl := Option.some.inj h
    refine .stays ?_
    split <;> rfl
  | bhiWrite i ok =>
    obtain ⟨c, hc, rfl⟩ := Option.map_eq_some_iff.mp h
    rcases bhiWriteOn_pmState { w with bhi := w.bhi.eraseIdx i } ok c with heq | ⟨rfl, heq⟩
    · exact .stays heq
    · exact .tries .por heq (by simp) (fun _ ↦ by simp [readies, hc]) (by simp) (by simp) (by simp)

/-! ## The states of a run -/

/-- The state is one of the states.  No thread reports a failed download. -/
def Known (w : Power) : Prop := ∃ s : PmState, s ≠ .fwDlErr ∧ w.pmState = s.bit

/-- The state is one of the states, or it was never set. -/
def Valid (w : Power) : Prop := w.pmState = 0 ∨ w.Known

theorem tryset_zero (t : PmState) : mhiTrysetPmState 0 t.bit = 0 := rfl

theorem Known.step (hw : w.Known) (h : w.step a = some w') : w'.Known := by
  obtain ⟨s, hs, hbit⟩ := hw
  cases moves_of_step h with
  | stays heq => exact ⟨s, hs, heq.trans hbit⟩
  | disabled _ heq => exact ⟨.disable, by simp, heq⟩
  | reset _ _ _ heq => exact ⟨.por, by simp, heq⟩
  | tries t heq hfw _ _ _ _ =>
    rw [hbit, mhiTrysetPmState_bit] at heq
    refine ⟨_, ?_, heq⟩
    split
    · exact hfw
    · exact hs

theorem Valid.step (hw : w.Valid) (h : w.step a = some w') : w'.Valid := by
  rcases hw with hz | hk
  · cases moves_of_step h with
    | stays heq => exact .inl (heq.trans hz)
    | disabled _ heq => exact .inr ⟨.disable, by simp, heq⟩
    | reset _ _ _ heq => exact .inr ⟨.por, by simp, heq⟩
    | tries t heq _ _ _ _ _ =>
      left
      rw [heq, hz, tryset_zero]
  · exact .inr (hk.step h)

/-- `MHI_PM_M0` is entered by `mhi_pm_m0_transition` only. -/
theorem Known.m0_of_step (hw : w.Known) (h : w.step a = some w')
    (hm0 : w'.pmState = PmState.m0.bit) : w.pmState = PmState.m0.bit ∨ a = .m0 := by
  obtain ⟨s, -, hbit⟩ := hw
  cases moves_of_step h with
  | stays heq => exact .inl (heq.symm.trans hm0)
  | disabled _ heq => exact absurd (PmState.bit_injective (heq.symm.trans hm0)) (by simp)
  | reset _ _ _ heq => exact absurd (PmState.bit_injective (heq.symm.trans hm0)) (by simp)
  | tries t heq _ _ _ _ ht =>
    rw [hm0, hbit, mhiTrysetPmState_bit] at heq
    have hs := PmState.bit_injective heq
    split at hs
    · exact .inr (ht hs.symm)
    · exact .inl (by rw [hbit, ← hs])

/-- The levels L1 to L3, and the state in which the modem is off. -/
def Down (w : Power) : Prop := mhiEventAccessInvalid w.pmState = true

/-- The levels L2 and L3. -/
def Shut (w : Power) : Prop :=
  w.pmState = PmState.shutdownProcess.bit ∨ w.pmState = PmState.ldErrFatalDetect.bit

theorem mem_toStates_of_down {s t : PmState} (hs : mhiEventAccessInvalid s.bit = true)
    (ht : t ∈ s.toStates) : mhiEventAccessInvalid t.bit = true ∨ t = .por := by
  revert ht hs
  cases s <;> cases t <;> decide

theorem mem_toStates_of_shut {s t : PmState}
    (hs : s = .shutdownProcess ∨ s = .ldErrFatalDetect) (ht : t ∈ s.toStates) :
    (t = .shutdownProcess ∨ t = .ldErrFatalDetect) ∨ t = .disable := by
  revert ht hs
  cases s <;> cases t <;> decide

/-- An error is left for `MHI_PM_POR` only. -/
theorem Down.step (hv : w.Valid) (hd : w.Down) (h : w.step a = some w') :
    w'.Down ∨ w'.pmState = PmState.por.bit := by
  cases moves_of_step h with
  | stays heq => exact .inl (by rwa [Down, heq])
  | disabled _ heq => exact .inl (by rw [Down, heq]; rfl)
  | reset _ _ _ heq => exact .inr heq
  | tries t heq _ _ _ _ _ =>
    rcases hv with hz | ⟨s, -, hbit⟩
    · exact .inl (by rwa [Down, heq, hz, tryset_zero, ← hz])
    · rw [Down, hbit] at hd
      rw [hbit, mhiTrysetPmState_bit] at heq
      by_cases ht : t ∈ s.toStates
      · rw [if_pos ht] at heq
        rcases mem_toStates_of_down hd ht with hdown | rfl
        · exact .inl (by rwa [Down, heq])
        · exact .inr heq
      · rw [if_neg ht] at heq
        exact .inl (by rwa [Down, heq])

/-! ## What a step leaves alone -/

theorem readyTransition_frame (w : Power) (ready : Bool) :
    ∃ pmState devState, w.mhiReadyStateTransition ready = { w with pmState, devState } := by
  rw [mhiReadyStateTransition]
  split
  · exact ⟨_, _, rfl⟩
  · split
    · exact ⟨_, _, rfl⟩
    · exact ⟨_, _, rfl⟩

theorem readyWorker_frame (w : Power) (ee : MhiEe) :
    ∃ readyWork readyItems, w.mhiPmReadyWorker ee = { w with readyWork, readyItems } := by
  rw [mhiPmReadyWorker]
  split
  · exact ⟨_, _, rfl⟩
  · split <;> exact ⟨_, _, rfl⟩

theorem detected_frame (w : Power) (d : Option MhiEe) :
    ∃ pmState told duties, w.detected d = { w with pmState, told, duties } := by
  simp only [detected]
  split
  · exact ⟨_, _, _, rfl⟩
  · exact ⟨_, _, _, rfl⟩

theorem intvec_frame (w : Power) (state : MhiDevState) (ee : MhiEe) :
    ∃ pmState told duties,
      w.mhiIntvecThreadedHandlr state ee = { w with pmState, told, duties } := by
  rw [mhiIntvecThreadedHandlr]
  split
  · split
    · exact detected_frame w _
    · exact ⟨_, _, _, rfl⟩
  · exact ⟨_, _, _, rfl⟩

theorem discharge_frame (w : Power) (d : Option MhiEe) :
    ∃ syserrWork told, w.discharge d = { w with syserrWork, told } := by
  rcases d with _ | ee
  · exact ⟨_, _, rfl⟩
  · rw [discharge]
    split
    · exact ⟨_, _, rfl⟩
    · split <;> exact ⟨_, _, rfl⟩

theorem firstHalf_frame (w : Power) (s : PmState) :
    ∃ pmState ee devState, w.firstHalf s = { w with pmState, ee, devState } := by
  simp only [firstHalf]
  split
  · exact ⟨_, _, _, rfl⟩
  · exact ⟨_, _, _, rfl⟩

theorem bhiWriteOn_frame (w : Power) (ok : Bool) (c : BhiCall) :
    ∃ pmState devState bhi, w.bhiWriteOn ok c = { w with pmState, devState, bhi } := by
  cases c with
  | image | loading =>
    rw [bhiWriteOn]
    split <;> exact ⟨_, _, _, rfl⟩
  | loaded => exact ⟨_, _, _, rfl⟩
  | resetDone =>
    obtain ⟨pmState, devState, heq⟩ := readyTransition_frame w ok
    exact ⟨pmState, devState, w.bhi, heq⟩

/-- Who is turning the modem on goes on with it, and in the meantime nobody turns it off. -/
theorem step_up (h : w.step a = some w') (hup : w'.up = true) :
    a = .upBegin ∨ (w.up = true ∧ a.shuts = false) := by
  cases a with
  | upBegin => exact .inl rfl
  | upFail =>
    obtain ⟨-, rfl⟩ := Trace.of_guard h
    exact absurd hup (by simp)
  | upEnd ee =>
    obtain ⟨-, rfl⟩ := Trace.of_guard h
    exact absurd hup (by split <;> simp)
  | readyWorker ee =>
    obtain ⟨-, rfl⟩ := Trace.of_guard h
    obtain ⟨_, _, heq⟩ := readyWorker_frame { w with readyWork := false } ee
    rw [heq] at hup
    exact .inr ⟨hup, rfl⟩
  | stWorkerReady ready =>
    obtain ⟨-, rfl⟩ := Trace.of_guard h
    obtain ⟨_, _, heq⟩ :=
      readyTransition_frame { w with readyItems := w.readyItems - 1 } ready
    rw [heq] at hup
    exact .inr ⟨hup, rfl⟩
  | setEe ee =>
    obtain rfl := Option.some.inj h
    exact .inr ⟨hup, rfl⟩
  | m0 =>
    obtain rfl := Option.some.inj h
    exact .inr ⟨hup, rfl⟩
  | m1 =>
    obtain rfl := Option.some.inj h
    refine .inr ⟨?_, rfl⟩
    split at hup <;> exact hup
  | m3 =>
    obtain rfl := Option.some.inj h
    exact .inr ⟨hup, rfl⟩
  | suspend =>
    obtain rfl := Option.some.inj h
    exact .inr ⟨hup, rfl⟩
  | resume =>
    obtain rfl := Option.some.inj h
    exact .inr ⟨hup, rfl⟩
  | detect =>
    obtain rfl := Option.some.inj h
    obtain ⟨_, _, _, heq⟩ := detected_frame w none
    rw [heq] at hup
    exact .inr ⟨hup, rfl⟩
  | intvec state ee =>
    obtain rfl := Option.some.inj h
    obtain ⟨_, _, _, heq⟩ := intvec_frame w state ee
    rw [heq] at hup
    exact .inr ⟨hup, rfl⟩
  | duty i =>
    obtain ⟨d, -, rfl⟩ := Option.map_eq_some_iff.mp h
    obtain ⟨_, _, heq⟩ := discharge_frame { w with duties := w.duties.eraseIdx i } d
    rw [heq] at hup
    exact .inr ⟨hup, rfl⟩
  | workerStart | workerReset | workerFlush | downStart | downReset | downFlush =>
    obtain ⟨-, rfl⟩ := Trace.of_guard h
    exact .inr ⟨hup, rfl⟩
  | workerFirst =>
    obtain ⟨-, rfl⟩ := Trace.of_guard h
    obtain ⟨_, _, _, heq⟩ := firstHalf_frame w .sysErrProcess
    rw [heq] at hup
    exact .inr ⟨hup, rfl⟩
  | workerSecond edl ready =>
    obtain ⟨-, rfl⟩ := Trace.of_guard h
    refine .inr ⟨?_, rfl⟩
    obtain ⟨_, _, heq⟩ := readyTransition_frame { w with worker := .idle } ready
    rw [heq] at hup
    split at hup <;> exact hup
  | downForce =>
    obtain ⟨hfree, rfl⟩ := Trace.of_guard h
    have hfalse : w.up = false := by simp_all [mutexFree]
    exact absurd hup (by simp [tryset, hfalse])
  | downFirst =>
    obtain ⟨hfree, rfl⟩ := Trace.of_guard h
    have hfalse : w.up = false := by simp_all [mutexFree]
    obtain ⟨_, _, _, heq⟩ := firstHalf_frame w .shutdownProcess
    rw [heq] at hup
    exact absurd hup (by simp [hfalse])
  | downSecond =>
    obtain ⟨-, rfl⟩ := Trace.of_guard h
    exact .inr ⟨hup, rfl⟩
  | ioctl =>
    obtain rfl := Option.some.inj h
    refine .inr ⟨?_, rfl⟩
    split at hup <;> exact hup
  | bhiWrite i ok =>
    obtain ⟨c, -, rfl⟩ := Option.map_eq_some_iff.mp h
    obtain ⟨_, _, _, heq⟩ := bhiWriteOn_frame { w with bhi := w.bhi.eraseIdx i } ok c
    rw [heq] at hup
    exact .inr ⟨hup, rfl⟩

/-- While the modem is being turned on, it is not being turned off. -/
def UpAlone (w : Power) : Prop := w.up = true → ¬ w.Shut

theorem shut_bit_iff {s : PmState} (h : w.pmState = s.bit) :
    w.Shut ↔ s = .shutdownProcess ∨ s = .ldErrFatalDetect := by
  rw [Shut, h]
  constructor
  · rintro (heq | heq)
    · exact .inl (PmState.bit_injective heq)
    · exact .inr (PmState.bit_injective heq)
  · rintro (rfl | rfl)
    · exact .inl rfl
    · exact .inr rfl

theorem UpAlone.step (hv : w.Valid) (hw : w.UpAlone) (h : w.step a = some w') : w'.UpAlone := by
  intro hup
  rcases step_up h hup with rfl | ⟨hup', hshuts⟩
  · obtain ⟨-, rfl⟩ := Trace.of_guard h
    exact fun hshut ↦ by simpa using (shut_bit_iff (s := .disable) rfl).mp hshut
  · have hnot := hw hup'
    cases moves_of_step h with
    | stays heq => rwa [Shut, heq]
    | disabled _ heq => simp [shut_bit_iff heq]
    | reset _ _ _ heq => simp [shut_bit_iff heq]
    | tries t heq _ _ hshut _ _ =>
      rcases hv with hz | ⟨s, -, hbit⟩
      · rwa [Shut, heq, hz, tryset_zero, ← hz]
      · rw [hbit, mhiTrysetPmState_bit] at heq
        rw [shut_bit_iff hbit] at hnot
        rw [shut_bit_iff heq]
        split
        · intro ht
          rw [hshut ht] at hshuts
          exact absurd hshuts (by simp)
        · exact hnot

/-- A shutdown is left for `MHI_PM_DISABLE` only. -/
theorem Shut.step (hv : w.Valid) (hu : w.UpAlone) (hs : w.Shut) (h : w.step a = some w') :
    w'.Shut ∨ w'.pmState = PmState.disable.bit := by
  cases moves_of_step h with
  | stays heq => exact .inl (by rwa [Shut, heq])
  | disabled _ heq => exact .inr heq
  | reset _ _ hup _ => exact absurd hs (hu hup)
  | tries t heq _ _ _ _ _ =>
    rcases hv with hz | ⟨s, -, hbit⟩
    · rw [Shut, hz] at hs
      exact absurd hs (by decide)
    · rw [hbit, mhiTrysetPmState_bit] at heq
      have hs' := (shut_bit_iff hbit).mp hs
      by_cases ht : t ∈ s.toStates
      · rw [if_pos ht] at heq
        rcases mem_toStates_of_shut hs' ht with hshut | rfl
        · exact .inl ((shut_bit_iff heq).mpr hshut)
        · exact .inr heq
      · rw [if_neg ht] at heq
        exact .inl ((shut_bit_iff heq).mpr hs')

/-! ## Recovery -/

/-- What is known of every state of a run. -/
def Sound (w : Power) : Prop := w.Valid ∧ w.UpAlone

theorem Sound.run {as : List Act} (hw : w.Sound) (h : Trace.run step w as = some w') : w'.Sound :=
  Trace.run_invariant (P := fun _ ↦ True)
    (fun _ _ _ _ hs h ↦ ⟨hs.1.step h, hs.2.step hs.1 h⟩) hw (fun _ _ ↦ trivial) h

theorem off_sound : off.Sound := ⟨.inl rfl, fun h ↦ absurd h (by decide)⟩

/-- A run that leaves the errors behind comes by `MHI_PM_POR`. -/
theorem Down.run {as : List Act} (hs : w.Sound) (hd : w.Down)
    (h : Trace.run Power.step w as = some w') (hup : ¬ w'.Down) :
    ∃ before after v, as = before ++ after ∧ Trace.run Power.step w before = some v ∧
      v.pmState = PmState.por.bit ∧ Trace.run Power.step v after = some w' := by
  obtain ⟨before, a, after, u, v, rfl, hu, hv, hend, hdown, hnot⟩ := Trace.run_breaks hd hup h
  have hpor := (hdown.step (hs.run hu).1 hv).resolve_left hnot
  refine ⟨before ++ [a], after, v, by simp, ?_, hpor, hend⟩
  rw [Trace.run_append, hu]
  simp [Trace.run, hv]

/-- A run that leaves a shutdown behind comes by `MHI_PM_DISABLE` first. -/
theorem Shut.run {as : List Act} (hs : w.Sound) (hd : w.Shut)
    (h : Trace.run Power.step w as = some w') (hup : ¬ w'.Shut) :
    ∃ before after v, as = before ++ after ∧ Trace.run Power.step w before = some v ∧
      v.pmState = PmState.disable.bit ∧ Trace.run Power.step v after = some w' := by
  obtain ⟨before, a, after, u, v, rfl, hu, hv, hend, hshut, hnot⟩ := Trace.run_breaks hd hup h
  have hsound := hs.run hu
  have hdis := (hshut.step hsound.1 hsound.2 hv).resolve_left hnot
  refine ⟨before ++ [a], after, v, by simp, ?_, hdis, hend⟩
  rw [Trace.run_append, hu]
  simp [Trace.run, hv]

theorem Shut.down (h : w.Shut) : w.Down := by
  rcases h with h | h
  · rw [Down, h]
    rfl
  · rw [Down, h]
    rfl

/-- Before the modem is turned on for the first time nothing sets the state. -/
theorem run_unset {as : List Act} (h : Trace.run Power.step off as = some w)
    (hnone : Act.upBegin ∉ as) : w.pmState = 0 := by
  have hinv : w.pmState = 0 ∧ w.up = false := by
    refine Trace.run_invariant (I := fun w ↦ w.pmState = 0 ∧ w.up = false) (P := (· ≠ .upBegin))
      (fun u a v ha hu hstep ↦ ?_) ⟨rfl, rfl⟩ (fun a ha ↦ ?_) h
    · obtain ⟨hzero, hup⟩ := hu
      refine ⟨?_, eq_false_of_ne_true fun hv ↦ ?_⟩
      · cases moves_of_step hstep with
        | stays heq => exact heq.trans hzero
        | disabled hbegin _ => exact absurd hbegin ha
        | reset _ _ hu _ => exact absurd (hup.symm.trans hu) (by simp)
        | tries t heq _ _ _ _ _ => rw [heq, hzero, tryset_zero]
      · rcases step_up hstep hv with hbegin | ⟨hu, -⟩
        · exact ha hbegin
        · exact absurd (hup.symm.trans hu) (by simp)
    · rintro rfl
      exact hnone ha
  exact hinv.1

/-- From then on it is one of the states. -/
theorem run_known {as : List Act} (h : Trace.run Power.step off as = some w)
    (hbegin : Act.upBegin ∈ as) : w.Known := by
  obtain ⟨before, after, rfl⟩ := List.append_of_mem hbegin
  rw [Trace.run_append] at h
  obtain ⟨u, -, h⟩ := Option.bind_eq_some_iff.mp h
  rw [Trace.run] at h
  obtain ⟨v, hv, h⟩ := Option.bind_eq_some_iff.mp h
  have hknown : v.Known := by
    obtain ⟨-, rfl⟩ := Trace.of_guard hv
    exact ⟨.disable, by simp, rfl⟩
  exact Trace.run_invariant (P := fun _ ↦ True) (fun _ _ _ _ hk h ↦ Known.step hk h) hknown
    (fun _ _ ↦ trivial) h

/-- **The way back.**  However the threads take turns, the state is always one of the states of the
table from the first `mhi_async_power_up` on, and was never set before; after an error the modem
works again only by way of `MHI_PM_POR`, and after a shutdown or the loss of the link only by way of
`MHI_PM_DISABLE` and then `MHI_PM_POR`. -/
theorem recovery (before : List Act) (w : Power) (hw : Trace.run Power.step off before = some w) :
    (Act.upBegin ∉ before → w.pmState = 0) ∧ (Act.upBegin ∈ before → w.Known) ∧
    ∀ after w', Trace.run Power.step w after = some w' → w.Down → ¬ w'.Down →
      (∃ as bs v, after = as ++ bs ∧ Trace.run Power.step w as = some v ∧
        v.pmState = PmState.por.bit ∧ Trace.run Power.step v bs = some w') ∧
      (w.Shut → ∃ as bs cs u v, after = as ++ bs ++ cs ∧ Trace.run Power.step w as = some u ∧
        u.pmState = PmState.disable.bit ∧ Trace.run Power.step u bs = some v ∧
        v.pmState = PmState.por.bit ∧ Trace.run Power.step v cs = some w') := by
  have hs := off_sound.run hw
  refine ⟨run_unset hw, run_known hw, fun after w' hw' hdown hup ↦
    ⟨hdown.run hs hw' hup, fun hshut ↦ ?_⟩⟩
  obtain ⟨as, bs, u, rfl, hu, hdis, hend⟩ := hshut.run hs hw' (fun h ↦ hup h.down)
  have hd : u.Down := by
    rw [Down, hdis]
    rfl
  obtain ⟨bs, cs, v, rfl, hv, hpor, hend⟩ := hd.run (hs.run hu) hend hup
  exact ⟨as, bs, cs, u, v, (List.append_assoc _ _ _).symm, hu, hdis, hv, hpor, hend⟩

/-- The modem is turned on, has a system error, and is turned off while the worker is at work. -/
def sampleShutdown : List Act :=
  [.upBegin, .upEnd .amss, .stWorkerReady true, .m0, .detect, .duty 0, .workerStart, .workerFirst,
    .downStart, .workerReset true, .downFirst]

/-- It is turned on again. -/
def sampleRestart : List Act :=
  [.downReset, .downFlush, .downSecond, .upBegin, .upEnd .amss, .stWorkerReady true, .m0]

def sampleShut : Power := (Trace.run step off sampleShutdown).getD off

def sampleRestarted : Power := (Trace.run step sampleShut sampleRestart).getD off

theorem recovery_restart : sampleShut.Known ∧
    ∃ as bs cs u v, sampleRestart = as ++ bs ++ cs ∧
      Trace.run step sampleShut as = some u ∧ u.pmState = PmState.disable.bit ∧
      Trace.run step u bs = some v ∧ v.pmState = PmState.por.bit ∧
      Trace.run step v cs = some sampleRestarted := by
  obtain ⟨-, hknown, hback⟩ := recovery sampleShutdown sampleShut rfl
  have hup : ¬ sampleRestarted.Down := fun h ↦
    absurd (show mhiEventAccessInvalid PmState.m0.bit = true from h) (by decide)
  exact ⟨hknown (by decide), (hback sampleRestart sampleRestarted rfl rfl hup).2 (.inl rfl)⟩

/-! ## Errors that nobody looks at -/

/-- Somebody is going to deal with a system error, or the controller driver was told of it. -/
def Handled (w : Power) : Prop :=
  w.pmState = PmState.sysErrDetect.bit →
    w.syserrWork = true ∨ w.duties ≠ [] ∨ w.worker = .entered ∨ w.told = true

theorem Handled.of_eq (hw : w.Handled) (hpm : w'.pmState = PmState.sysErrDetect.bit →
    w.pmState = PmState.sysErrDetect.bit) (hwork : w'.syserrWork = w.syserrWork)
    (hduties : w'.duties = w.duties) (hworker : w.worker = .entered → w'.worker = .entered)
    (htold : w'.told = w.told) : w'.Handled := by
  intro hdetect
  rw [hwork, hduties, htold]
  rcases hw (hpm hdetect) with h | h | h | h
  · exact .inl h
  · exact .inr (.inl h)
  · exact .inr (.inr (.inl (hworker h)))
  · exact .inr (.inr (.inr h))

/-- Only who looks for errors finds one. -/
theorem eq_of_detect (hv : w.Valid) (ha : a.detects = false) (h : w.step a = some w')
    (hdetect : w'.pmState = PmState.sysErrDetect.bit) : w.pmState = PmState.sysErrDetect.bit := by
  cases moves_of_step h with
  | stays heq => rwa [← heq]
  | disabled _ heq => exact absurd (PmState.bit_injective (heq.symm.trans hdetect)) (by simp)
  | reset _ _ _ heq => exact absurd (PmState.bit_injective (heq.symm.trans hdetect)) (by simp)
  | tries t heq _ _ _ ht _ =>
    rcases hv with hz | ⟨s, -, hbit⟩
    · rw [heq, hz, tryset_zero] at hdetect
      exact absurd hdetect (by decide)
    · rw [heq, hbit, mhiTrysetPmState_bit] at hdetect
      have hs := PmState.bit_injective hdetect
      split at hs
      · rw [ht hs] at ha
        exact absurd ha (by simp)
      · rw [hbit, hs]

theorem detected_handled (w : Power) (d : Option MhiEe) : (w.detected d).Handled := by
  intro hdetect
  rw [detected_pmState] at hdetect
  have hset : (w.tryset .sysErrDetect).pmState = PmState.sysErrDetect.bit := hdetect
  right
  left
  simp [detected, hset]

theorem discharge_handled (w : Power) (d : Option MhiEe) : (w.discharge d).Handled := by
  intro
  rcases d with _ | ee
  · exact .inl rfl
  · rw [discharge]
    split
    · exact .inl rfl
    · split
      · exact .inr (.inr (.inr rfl))
      · exact .inl rfl

/-- The worker does not stop before it has dealt with the error. -/
theorem firstHalf_not_detect (hv : w.Valid) :
    (w.firstHalf .sysErrProcess).pmState ≠ PmState.sysErrDetect.bit := by
  rw [firstHalf_pmState]
  rcases hv with hz | ⟨s, -, hbit⟩
  · rw [hz, tryset_zero]
    decide
  · rw [hbit, mhiTrysetPmState_bit]
    intro h
    have hs := PmState.bit_injective h
    split at hs
    · exact absurd hs (by simp)
    · rename_i hmem
      exact hmem (by simp [hs, PmState.toStates])

theorem Handled.step (hv : w.Valid) (hw : w.Handled) (h : w.step a = some w') : w'.Handled := by
  cases hd : a.detects with
  | true =>
    cases a with
    | detect =>
      obtain rfl := Option.some.inj h
      exact detected_handled w none
    | intvec state ee =>
      obtain rfl := Option.some.inj h
      rw [mhiIntvecThreadedHandlr]
      split
      · split
        · exact detected_handled w _
        · exact hw
      · exact hw
    | _ => exact absurd hd (by simp [Act.detects])
  | false =>
    have hpm := eq_of_detect hv hd h
    cases a with
    | detect | intvec => exact absurd hd (by simp [Act.detects])
    | upBegin | upFail =>
      obtain ⟨-, rfl⟩ := Trace.of_guard h
      exact hw.of_eq hpm rfl rfl id rfl
    | upEnd ee =>
      obtain ⟨-, rfl⟩ := Trace.of_guard h
      refine hw.of_eq hpm ?_ ?_ ?_ ?_ <;> split <;> first | rfl | exact id
    | readyWorker ee =>
      obtain ⟨-, rfl⟩ := Trace.of_guard h
      obtain ⟨_, _, heq⟩ := readyWorker_frame { w with readyWork := false } ee
      rw [heq] at hpm ⊢
      exact hw.of_eq hpm rfl rfl id rfl
    | stWorkerReady ready =>
      obtain ⟨-, rfl⟩ := Trace.of_guard h
      obtain ⟨_, _, heq⟩ :=
        readyTransition_frame { w with readyItems := w.readyItems - 1 } ready
      rw [heq] at hpm ⊢
      exact hw.of_eq hpm rfl rfl id rfl
    | setEe | m0 | m3 | suspend | resume =>
      obtain rfl := Option.some.inj h
      exact hw.of_eq hpm rfl rfl id rfl
    | m1 =>
      obtain rfl := Option.some.inj h
      refine hw.of_eq hpm ?_ ?_ ?_ ?_ <;> split <;> first | rfl | exact id
    | duty i =>
      obtain ⟨d, -, rfl⟩ := Option.map_eq_some_iff.mp h
      exact discharge_handled _ d
    | workerStart =>
      obtain ⟨-, rfl⟩ := Trace.of_guard h
      exact fun _ ↦ .inr (.inr (.inl rfl))
    | workerFirst =>
      obtain ⟨-, rfl⟩ := Trace.of_guard h
      exact fun hdetect ↦ absurd hdetect (firstHalf_not_detect hv)
    | workerReset =>
      obtain ⟨hg, rfl⟩ := Trace.of_guard h
      exact hw.of_eq hpm rfl rfl (fun he ↦ absurd (he.symm.trans hg) (by simp)) rfl
    | workerFlush =>
      obtain ⟨hg, rfl⟩ := Trace.of_guard h
      refine hw.of_eq hpm rfl rfl (fun he ↦ ?_) rfl
      simp [he] at hg
    | workerSecond edl ready =>
      obtain ⟨hg, rfl⟩ := Trace.of_guard h
      have hne : w.worker = .entered → False := fun he ↦ by simp [he] at hg
      obtain ⟨_, _, heq⟩ := readyTransition_frame { w with worker := .idle } ready
      rw [heq] at hpm ⊢
      refine hw.of_eq hpm ?_ ?_ (fun he ↦ (hne he).elim) ?_ <;> split <;> rfl
    | downForce | downStart | downReset | downFlush | downSecond =>
      obtain ⟨-, rfl⟩ := Trace.of_guard h
      exact hw.of_eq hpm rfl rfl id rfl
    | downFirst =>
      obtain ⟨-, rfl⟩ := Trace.of_guard h
      obtain ⟨_, _, _, heq⟩ := firstHalf_frame w .shutdownProcess
      simp only [heq] at hpm ⊢
      exact hw.of_eq hpm rfl rfl id rfl
    | ioctl =>
      obtain rfl := Option.some.inj h
      refine hw.of_eq hpm ?_ ?_ ?_ ?_ <;> split <;> first | rfl | exact id
    | bhiWrite i ok =>
      obtain ⟨c, -, rfl⟩ := Option.map_eq_some_iff.mp h
      obtain ⟨_, _, _, heq⟩ := bhiWriteOn_frame { w with bhi := w.bhi.eraseIdx i } ok c
      rw [heq] at hpm ⊢
      exact hw.of_eq hpm rfl rfl id rfl

/-- **No error is forgotten.**  In every run, as long as the state says that a system error was
detected, the worker is scheduled or has just started, or a thread has still to schedule it, or the
controller driver was told of a fatal error. -/
theorem error_handled (as : List Act) (w : Power) (h : Trace.run step off as = some w) :
    w.Handled := by
  have hinv : w.Valid ∧ w.Handled := by
    refine Trace.run_invariant (I := fun w ↦ w.Valid ∧ w.Handled) (P := fun _ ↦ True)
      (fun _ _ _ _ hs h ↦ ⟨hs.1.step h, hs.2.step hs.1 h⟩) ⟨off_sound.1, ?_⟩ (fun _ _ ↦ trivial) h
    exact fun h ↦ absurd h (by decide)
  exact hinv.2

theorem error_handled_detected :
    ((Trace.run step off (sampleShutdown.take 5)).getD off).pmState = PmState.sysErrDetect.bit ∧
      ((Trace.run step off (sampleShutdown.take 5)).getD off).Handled :=
  ⟨rfl, error_handled (sampleShutdown.take 5) _ rfl⟩

/-! ## The end of a shutdown -/

/-- The modem is off, and nobody is left who would try to set `MHI_PM_POR`. -/
structure Quiet (w : Power) : Prop where
  pmState_eq : w.pmState = PmState.disable.bit
  worker_eq : w.worker = .idle ∨ w.worker = .entered
  readyItems_eq : w.readyItems = 0
  up_eq : w.up = false
  bhi_eq : ∀ c ∈ w.bhi, c = .image

/-- From `MHI_PM_DISABLE` there is no other way. -/
theorem disable_of_tries {t : PmState} (hw : w.pmState = PmState.disable.bit)
    (h : w'.pmState = mhiTrysetPmState w.pmState t.bit) (ht : t ≠ .por) :
    w'.pmState = PmState.disable.bit := by
  rw [h, hw, mhiTrysetPmState_bit, if_neg]
  simpa [PmState.toStates] using ht

/-- The registers must not be read in this state, so the worker learns nothing. -/
theorem readyWorker_of_disable (hw : w.pmState = PmState.disable.bit) (ee : MhiEe) :
    w.mhiPmReadyWorker ee = w := by
  have hreg : mhiRegAccessValid w.pmState = false := by
    rw [hw]
    rfl
  rw [mhiPmReadyWorker, hreg]
  split <;> rfl

theorem Quiet.not_readies (hw : w.Quiet) (h : w.step a = some w') : w.readies a = false := by
  cases a with
  | bhiWrite i ok =>
    refine decide_eq_false fun hc ↦ ?_
    exact absurd (hw.bhi_eq _ (List.mem_of_getElem? hc)) (by simp)
  | stWorkerReady ready =>
    obtain ⟨hg, -⟩ := Trace.of_guard h
    have := hw.readyItems_eq
    omega
  | workerSecond edl ready =>
    obtain ⟨hg, -⟩ := Trace.of_guard h
    rcases hw.worker_eq with he | he <;> simp [he] at hg
  | _ => rfl

theorem Quiet.pmState_step (hw : w.Quiet) (ha : a ≠ .upBegin) (h : w.step a = some w') :
    w'.pmState = PmState.disable.bit := by
  cases moves_of_step h with
  | stays heq => exact heq.trans hw.pmState_eq
  | disabled hup _ => exact absurd hup ha
  | reset _ _ hup _ => exact absurd (hw.up_eq.symm.trans hup) (by simp)
  | tries t heq _ hpor _ _ _ =>
    refine disable_of_tries hw.pmState_eq heq fun ht ↦ ?_
    exact absurd ((hw.not_readies h).symm.trans (hpor ht)) (by simp)

theorem Quiet.step (hw : w.Quiet) (ha : a ≠ .upBegin) (h : w.step a = some w') : w'.Quiet := by
  have hpm := hw.pmState_step ha h
  have hready := hw.not_readies h
  obtain ⟨hdis, hworker, hitems, hup, hbhi⟩ := hw
  cases a with
  | upBegin => exact absurd rfl ha
  | stWorkerReady | workerSecond => exact absurd hready (by simp [readies])
  | upFail =>
    obtain ⟨hg, -⟩ := Trace.of_guard h
    exact absurd (hup.symm.trans hg) (by simp)
  | upEnd ee =>
    obtain ⟨hg, -⟩ := Trace.of_guard h
    exact absurd (hup.symm.trans hg) (by simp)
  | readyWorker ee =>
    obtain ⟨-, rfl⟩ := Trace.of_guard h
    rw [readyWorker_of_disable (w := { w with readyWork := false }) hdis]
    exact ⟨hdis, hworker, hitems, hup, hbhi⟩
  | setEe | m0 | m3 | suspend | resume =>
    obtain rfl := Option.some.inj h
    exact ⟨hpm, hworker, hitems, hup, hbhi⟩
  | m1 =>
    obtain rfl := Option.some.inj h
    refine ⟨hpm, ?_, ?_, ?_, ?_⟩ <;> split <;> assumption
  | detect =>
    obtain rfl := Option.some.inj h
    obtain ⟨_, _, _, heq⟩ := detected_frame w none
    rw [heq] at hpm ⊢
    exact ⟨hpm, hworker, hitems, hup, hbhi⟩
  | intvec state ee =>
    obtain rfl := Option.some.inj h
    obtain ⟨_, _, _, heq⟩ := intvec_frame w state ee
    rw [heq] at hpm ⊢
    exact ⟨hpm, hworker, hitems, hup, hbhi⟩
  | duty i =>
    obtain ⟨d, -, rfl⟩ := Option.map_eq_some_iff.mp h
    obtain ⟨_, _, heq⟩ := discharge_frame { w with duties := w.duties.eraseIdx i } d
    rw [heq] at hpm ⊢
    exact ⟨hpm, hworker, hitems, hup, hbhi⟩
  | workerStart =>
    obtain ⟨-, rfl⟩ := Trace.of_guard h
    exact ⟨hpm, .inr rfl, hitems, hup, hbhi⟩
  | workerFirst =>
    obtain ⟨-, rfl⟩ := Trace.of_guard h
    obtain ⟨_, _, _, heq⟩ := firstHalf_frame w .sysErrProcess
    simp only [heq] at hpm ⊢
    refine ⟨hpm, .inl (if_neg ?_), hitems, hup, hbhi⟩
    rw [hpm]
    decide
  | workerReset ok =>
    obtain ⟨hg, -⟩ := Trace.of_guard h
    rcases hworker with he | he <;> simp [he] at hg
  | workerFlush =>
    obtain ⟨hg, -⟩ := Trace.of_guard h
    rcases hworker with he | he <;> simp [he] at hg
  | downForce | downStart | downReset | downFlush | downSecond =>
    obtain ⟨-, rfl⟩ := Trace.of_guard h
    exact ⟨hpm, hworker, hitems, hup, hbhi⟩
  | downFirst =>
    obtain ⟨-, rfl⟩ := Trace.of_guard h
    obtain ⟨_, _, _, heq⟩ := firstHalf_frame w .shutdownProcess
    simp only [heq] at hpm ⊢
    exact ⟨hpm, hworker, hitems, hup, hbhi⟩
  | ioctl =>
    obtain rfl := Option.some.inj h
    refine ⟨hpm, ?_, ?_, ?_, fun c hc ↦ ?_⟩
    case refine_4 =>
      split at hc
      · exact (List.mem_cons.mp hc).elim id (hbhi c)
      · exact hbhi c hc
    all_goals split <;> assumption
  | bhiWrite i ok =>
    obtain ⟨c, hc, rfl⟩ := Option.map_eq_some_iff.mp h
    obtain rfl := hbhi c (List.mem_of_getElem? hc)
    -- the registers must not be written, and that is the end of the call
    have hreg : (ok && mhiRegAccessValid w.pmState) = false := by
      rw [hdis]
      exact Bool.and_false ok
    simp only [bhiWriteOn, hreg, Bool.false_eq_true, if_false]
    exact ⟨hdis, hworker, hitems, hup, fun c hc ↦ hbhi c (List.mem_of_mem_eraseIdx hc)⟩

/-- What the worker has still to do when the modem is off. -/
def rest (w : Power) : List Act :=
  (if w.readyWork then [.readyWorker .max] else []) ++
    match w.worker with
    | .first => [.workerReset true, .workerFlush, .workerSecond true true]
    | .between => [.workerFlush, .workerSecond true true]
    | _ => [.workerSecond true true]

end Power

end OpenwrtFeed.Mhi
