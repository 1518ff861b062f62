import Mathlib.Data.List.Nodup
import OpenwrtFeed.Lib.Shell

/-!
# The watchdog of a build stage

`run_watched` of `build-images.sh` starts a stage of the build in the background and stops it with
`stage_kill` if it has been silent for too long.  A `world` stage that was stopped is started once
more, with `-j1`, and by then nothing of the first try may be left: "the second, serial try hung on
the very fakeroot processes of the first".

The stage is started as `( setsid make … ) &`, and `$!` is the number of the subshell.  The comment
there says that this is also the number of the process group.  But the subshell stays in the group
of the script, and the group that `setsid` makes has the number of its own process, the child of the
subshell.  So `kill -9 -- -$!` is addressed to a group that does not exist (`Sane`), and what
is stopped is the subshell, and every process whose command line looks like `fakeroot` or
`faked`.  `gone_iff` says what this leaves alive.

The stage and the script take turns in any order.  The processes of the stage do what the kernel
lets them do; the script is a sequence of steps, among them one for each directory of `/proc`.
-/

set_option autoImplicit false

namespace OpenwrtFeed
namespace Watchdog

open Shell

/-! ## Processes -/

/-- A live process of the stage. -/
structure Proc where
  pid : Nat
  group : Nat
  session : Nat
  /-- `/proc/<pid>/cmdline`, the arguments separated by blanks. -/
  cmdline : Str
  deriving DecidableEq, Repr

/-- What the script knows when it has started the stage. -/
structure Launch where
  of ::
  /-- `mk=$!`, the subshell. -/
  mk : Nat
  /-- The process group of the script. -/
  group : Nat
  /-- The session of the script. -/
  session : Nat
  /-- A new process does not get a number that is in use for a group. -/
  mk_ne_group : mk ≠ group

/-- Where the script is. -/
inductive Line
  /-- `while kill -0 "$mk"` -/
  | test
  /-- `sleep`, and the question whether the stage hangs -/
  | poll
  /-- `kill -9 -- "-$pid"` -/
  | killGroup
  /-- `kill -9 "$pid"` -/
  | killPid
  /-- `for d in /proc/[0-9]*`, the list being made -/
  | list
  /-- the same, with these directories to come -/
  | visit (rest : List Nat)
  /-- `kill -9 "${d#/proc/}"` -/
  | kill (pid : Nat) (rest : List Nat)
  /-- `echo 124 > "$rcfile"` -/
  | write
  /-- `wait "$mk"` -/
  | wait
  /-- `run_watched` has returned. -/
  | returned (rc : Nat)
  /-- The stage `world-j1` has been started. -/
  | retry
  deriving DecidableEq, Repr

structure World where
  /-- The live processes of the stage, the subshell among them. -/
  procs : List Proc
  /-- What the subshell has started. -/
  child : Option Nat
  rcfile : Option Nat
  line : Line
  deriving DecidableEq, Repr

/-- What can happen next. -/
inductive Act
  /-- The subshell starts `setsid`. -/
  | spawn (c : Nat)
  /-- The subshell writes the status of what it has started, and ends. -/
  | report (rc : Nat)
  | fork (p c : Nat)
  | exec (p : Nat) (cmdline : Str)
  | setsid (p : Nat)
  | setpgid (p g : Nat)
  | exit (p : Nat)
  /-- The script sleeps, and finds out whether the stage hangs. -/
  | poll (hangs : Bool)
  /-- The script lists the directories of `/proc`. -/
  | list (pids : List Nat)
  /-- The script does what is next. -/
  | next
  deriving DecidableEq, Repr

/-- `*fakeroot*apk\ mkpkg* | *bin/faked*` -/
def leftOver (cmdline : Str) : Bool :=
  let s := captured cmdline
  Glob.accepts (Glob.parse "*fakeroot*apk\\ mkpkg*".toList) s ||
    Glob.accepts (Glob.parse "*bin/faked*".toList) s

namespace World

def alive (w : World) (p : Nat) : Bool := w.procs.any (·.pid = p)

/-- `SIGKILL` for the processes with `f`. -/
def slay (w : World) (f : Proc → Bool) : World := { w with procs := w.procs.filter fun p ↦ !f p }

/-- What a process changes about itself. -/
def modify (w : World) (p : Nat) (f : Proc → Proc) : World :=
  { w with procs := w.procs.map fun q ↦ if q.pid = p then f q else q }

/-- A number that is not in use.  The numbers are given out in turn, so the number of the subshell
does not come back while the stage is running. -/
def unused (l : Launch) (w : World) (c : Nat) : Bool :=
  c ≠ l.mk && c ≠ l.group && w.procs.all fun q ↦ c ≠ q.pid && c ≠ q.group && c ≠ q.session

/-- One step of the script, or of a process of the stage.  The subshell itself does nothing but
`spawn` and `report`. -/
def step (l : Launch) (w : World) : Act → Option World
  | .spawn c =>
    if w.child.isNone && w.unused l c then
      (w.procs.find? (·.pid = l.mk)).map fun q ↦
        { w with procs := w.procs ++ [{ q with pid := c }], child := some c }
    else none
  | .report rc =>
    if w.alive l.mk && w.child.any fun c ↦ !w.alive c then
      some { w.slay (·.pid = l.mk) with rcfile := some rc }
    else none
  | .fork p c =>
    if p ≠ l.mk && w.unused l c then
      (w.procs.find? (·.pid = p)).map fun q ↦
        { w with procs := w.procs ++ [{ q with pid := c }] }
    else none
  | .exec p cmdline =>
    if p ≠ l.mk && w.alive p then some (w.modify p fun q ↦ { q with cmdline := cmdline }) else none
  | .setsid p =>
    -- not for the leader of a group
    if p ≠ l.mk && w.alive p && w.procs.all (·.group ≠ p) then
      some (w.modify p fun q ↦ { q with group := p, session := p })
    else none
  | .setpgid p g =>
    -- a group of one's own, or one of the same session
    if p ≠ l.mk && (w.procs.find? (·.pid = p)).any fun q ↦
        g = p || (q.session = l.session && g = l.group) ||
          w.procs.any fun r ↦ r.session = q.session && r.group = g then
      some (w.modify p fun q ↦ { q with group := g })
    else none
  | .exit p =>
    if p ≠ l.mk && w.alive p then some (w.slay (·.pid = p)) else none
  | .poll hangs =>
    if w.line = .poll then some { w with line := if hangs then .killGroup else .test } else none
  | .list pids =>
    if w.line = .list && w.procs.all fun q ↦ pids.contains q.pid then
      some { w with line := .visit pids }
    else none
  | .next =>
    match w.line with
    | .test => some { w with line := if w.alive l.mk then .poll else .wait }
    | .killGroup => some { w.slay (·.group = l.mk) with line := .killPid }
    | .killPid => some { w.slay (·.pid = l.mk) with line := .list }
    | .visit [] => some { w with line := .write }
    | .visit (p :: rest) =>
      -- a directory that has gone, or belongs to another program, is of no account here
      if w.procs.any fun q ↦ q.pid = p && leftOver q.cmdline then
        some { w with line := .kill p rest }
      else some { w with line := .visit rest }
    | .kill p rest => some { w.slay (·.pid = p) with line := .visit rest }
    | .write => some { w with rcfile := some 124, line := .wait }
    | .wait => if w.alive l.mk then none else some { w with line := .returned (w.rcfile.getD 1) }
    | .returned rc => if rc = 124 then some { w with line := .retry } else none
    | _ => none

/-- A sequence of steps. -/
def run (l : Launch) : World → List Act → Option World
  | w, [] => some w
  | w, a :: as => (w.step l a).bind fun v ↦ v.run l as

end World

/-- After `( setsid … ) &`.  The subshell is a copy of the script, and in its group. -/
def Launch.start (l : Launch) (cmdline : Str) : World where
  procs := [⟨l.mk, l.group, l.session, cmdline⟩]
  child := none
  rcfile := none
  line := .test

/-! ## What a step does to the processes -/

section

variable {l : Launch} {w w' : World} {a : Act}

theorem mem_slay {f : Proc → Bool} {q : Proc} :
    q ∈ (w.slay f).procs ↔ q ∈ w.procs ∧ f q = false := by
  rw [World.slay, List.mem_filter, Bool.not_eq_true']

theorem mem_modify {p : Nat} {f : Proc → Proc} {q : Proc} (h : q ∈ (w.modify p f).procs) :
    ∃ r ∈ w.procs, q = if r.pid = p then f r else r := by
  obtain ⟨r, hr, rfl⟩ := List.mem_map.mp h
  exact ⟨r, hr, rfl⟩

/-- What a step can do.  The lines of the script after one another are in `World.step` itself. -/
inductive Does (l : Launch) (w : World) : Act → World → Prop
  | spawn (c : Nat) (q : Proc) (hc : w.unused l c = true) (hq : q ∈ w.procs) :
      Does l w (.spawn c) { w with procs := w.procs ++ [{ q with pid := c }], child := some c }
  | report (rc : Nat) : Does l w (.report rc) { w.slay (·.pid = l.mk) with rcfile := some rc }
  | fork (p c : Nat) (q : Proc) (hc : w.unused l c = true) (hq : q ∈ w.procs) :
      Does l w (.fork p c) { w with procs := w.procs ++ [{ q with pid := c }] }
  | exec (p : Nat) (cmdline : Str) :
      Does l w (.exec p cmdline) (w.modify p fun q ↦ { q with cmdline := cmdline })
  | setsid (p : Nat) (hp : p ≠ l.mk) :
      Does l w (.setsid p) (w.modify p fun q ↦ { q with group := p, session := p })
  | setpgid (p g : Nat) (hp : p ≠ l.mk)
      (hg : g = p ∨ g = l.group ∨ ∃ r ∈ w.procs, r.group = g) :
      Does l w (.setpgid p g) (w.modify p fun q ↦ { q with group := g })
  | exit (p : Nat) : Does l w (.exit p) (w.slay (·.pid = p))
  | poll (hangs : Bool) (hline : w.line = .poll) :
      Does l w (.poll hangs) { w with line := if hangs then .killGroup else .test }
  | list (pids : List Nat) (hline : w.line = .list) (hall : ∀ q ∈ w.procs, q.pid ∈ pids) :
      Does l w (.list pids) { w with line := .visit pids }
  | next (w' : World) (h : w.step l .next = some w') : Does l w .next w'

theorem does_of_step (h : w.step l a = some w') : Does l w a w' := by
  cases a with
  | next => exact .next w' h
  | spawn c =>
    simp only [World.step, Option.ite_none_right_eq_some, Bool.and_eq_true] at h
    obtain ⟨hc, h⟩ := h
    obtain ⟨q, hq, rfl⟩ := Option.map_eq_some_iff.mp h
    exact .spawn c q hc.2 (List.mem_of_find?_eq_some hq)
  | report rc =>
    simp only [World.step, Option.ite_none_right_eq_some, Option.some.injEq] at h
    obtain ⟨-, rfl⟩ := h
    exact .report rc
  | fork p c =>
    simp only [World.step, Option.ite_none_right_eq_some, Bool.and_eq_true] at h
    obtain ⟨hc, h⟩ := h
    obtain ⟨q, hq, rfl⟩ := Option.map_eq_some_iff.mp h
    exact .fork p c q hc.2 (List.mem_of_find?_eq_some hq)
  | exec p cmdline =>
    simp only [World.step, Option.ite_none_right_eq_some, Option.some.injEq] at h
    obtain ⟨-, rfl⟩ := h
    exact .exec p cmdline
  | setsid p =>
    simp only [World.step, Option.ite_none_right_eq_some, Option.some.injEq, Bool.and_eq_true,
      decide_eq_true_eq] at h
    obtain ⟨hp, rfl⟩ := h
    exact .setsid p hp.1.1
  | setpgid p g =>
    simp only [World.step, Option.ite_none_right_eq_some, Option.some.injEq, Bool.and_eq_true,
      decide_eq_true_eq, Option.any_eq_true, Bool.or_eq_true, List.any_eq_true] at h
    obtain ⟨⟨hp, q, -, hg⟩, rfl⟩ := h
    refine .setpgid p g hp ?_
    rcases hg with (hg | ⟨-, hg⟩) | ⟨r, hr, -, hg⟩
    · exact .inl hg
    · exact .inr (.inl hg)
    · exact .inr (.inr ⟨r, hr, hg⟩)
  | exit p =>
    simp only [World.step, Option.ite_none_right_eq_some, Option.some.injEq] at h
    obtain ⟨-, rfl⟩ := h
    exact .exit p
  | poll hangs =>
    simp only [World.step, Option.ite_none_right_eq_some, Option.some.injEq] at h
    obtain ⟨hline, rfl⟩ := h
    exact .poll hangs hline
  | list pids =>
    simp only [World.step, Option.ite_none_right_eq_some, Option.some.injEq, Bool.and_eq_true,
      decide_eq_true_eq, List.all_eq_true, List.contains_eq_mem] at h
    obtain ⟨hlist, rfl⟩ := h
    exact .list pids hlist.1 hlist.2

/-- No two live processes have the same number, and none is in the group that `kill -9 -- -$mk` is
addressed to. -/
structure Sane (l : Launch) (w : World) : Prop where
  nodup : (w.procs.map Proc.pid).Nodup
  groupless : ∀ q ∈ w.procs, q.group ≠ l.mk

theorem Sane.unique (h : Sane l w) {q r : Proc} (hq : q ∈ w.procs) (hr : r ∈ w.procs)
    (hpid : q.pid = r.pid) : q = r := List.inj_on_of_nodup_map h.nodup hq hr hpid

theorem Sane.slay (h : Sane l w) (f : Proc → Bool) : Sane l (w.slay f) where
  nodup := h.nodup.sublist (List.filter_sublist.map Proc.pid)
  groupless q hq := h.groupless q (mem_slay.mp hq).1

theorem Sane.modify (h : Sane l w) {p : Nat} {f : Proc → Proc} (hpid : ∀ q, (f q).pid = q.pid)
    (hgroup : ∀ q ∈ w.procs, (f q).group ≠ l.mk) : Sane l (w.modify p f) where
  nodup := by
    have hmap : (w.modify p f).procs.map Proc.pid = w.procs.map Proc.pid := by
      rw [World.modify, List.map_map]
      refine List.map_congr_left fun q _ ↦ ?_
      rw [Function.comp_apply]
      split
      · exact hpid q
      · rfl
    rw [hmap]
    exact h.nodup
  groupless q hq := by
    obtain ⟨r, hr, rfl⟩ := mem_modify hq
    split
    · exact hgroup r hr
    · exact h.groupless r hr

theorem Sane.append (h : Sane l w) {c : Nat} {q : Proc} (hc : w.unused l c = true)
    (hq : q ∈ w.procs) {child : Option Nat} :
    Sane l { w with procs := w.procs ++ [{ q with pid := c }], child := child } where
  nodup := by
    rw [World.unused, Bool.and_eq_true, List.all_eq_true] at hc
    rw [List.map_append, List.nodup_append]
    refine ⟨h.nodup, List.nodup_singleton c, ?_⟩
    rintro x hx y hy rfl
    obtain ⟨r, hr, rfl⟩ := List.mem_map.mp hx
    have hne := hc.2 r hr
    simp_all
  groupless r hr := by
    rcases List.mem_append.mp hr with hr | hr
    · exact h.groupless r hr
    · rw [List.mem_singleton.mp hr]
      exact h.groupless q hq

theorem Sane.of_procs (h : Sane l w) (hp : w'.procs = w.procs) : Sane l w' where
  nodup := hp ▸ h.nodup
  groupless := hp ▸ h.groupless

/-- The script stops a process for its group, for its number, or in the loop over `/proc`. -/
def Struck (l : Launch) (w : World) (q : Proc) : Prop :=
  q.group = l.mk ∨ q.pid = l.mk ∨ ∃ rest, w.line = .kill q.pid rest

/-- What the script does to the processes is to stop some of them. -/
theorem next_procs (h : w.step l .next = some w') :
    ∃ f, w'.procs = (w.slay f).procs ∧ ∀ q, f q = true → Struck l w q := by
  have hnone : ∃ f, w.procs = (w.slay f).procs ∧ ∀ q, f q = true → Struck l w q :=
    ⟨fun _ ↦ false, by simp [World.slay], by simp⟩
  cases hline : w.line with
  | test | write =>
    simp only [World.step, hline, Option.some.injEq] at h
    subst h
    exact hnone
  | poll | list | retry => simp [World.step, hline] at h
  | killGroup =>
    simp only [World.step, hline, Option.some.injEq] at h
    subst h
    exact ⟨_, rfl, fun q hq ↦ .inl (of_decide_eq_true hq)⟩
  | killPid =>
    simp only [World.step, hline, Option.some.injEq] at h
    subst h
    exact ⟨_, rfl, fun q hq ↦ .inr (.inl (of_decide_eq_true hq))⟩
  | visit rest =>
    cases rest with
    | nil =>
      simp only [World.step, hline, Option.some.injEq] at h
      subst h
      exact hnone
    | cons p rest =>
      simp only [World.step, hline] at h
      split at h
      · obtain rfl := Option.some.inj h
        exact hnone
      · obtain rfl := Option.some.inj h
        exact hnone
  | kill p rest =>
    simp only [World.step, hline, Option.some.injEq] at h
    subst h
    refine ⟨_, rfl, fun q hq ↦ .inr (.inr ⟨rest, ?_⟩)⟩
    rw [hline, of_decide_eq_true hq]
  | wait =>
    simp only [World.step, hline] at h
    split at h
    · cases h
    · obtain rfl := Option.some.inj h
      exact hnone
  | returned rc =>
    simp only [World.step, hline] at h
    split at h
    · obtain rfl := Option.some.inj h
      exact hnone
    · cases h

theorem Sane.step (hs : Sane l w) (h : w.step l a = some w') : Sane l w' := by
  cases does_of_step h with
  | spawn c q hc hq => exact hs.append hc hq
  | report rc => exact (hs.slay _).of_procs rfl
  | fork p c q hc hq => exact hs.append hc hq
  | exec p cmdline => exact hs.modify (fun _ ↦ rfl) hs.groupless
  | setsid p hp => exact hs.modify (fun _ ↦ rfl) fun _ _ ↦ hp
  | setpgid p g hp hg =>
    refine hs.modify (fun _ ↦ rfl) fun _ _ ↦ ?_
    rcases hg with rfl | rfl | ⟨r, hr, rfl⟩
    · exact hp
    · exact l.mk_ne_group.symm
    · exact hs.groupless r hr
  | exit p => exact hs.slay _
  | poll hangs => exact hs.of_procs rfl
  | list pids => exact hs.of_procs rfl
  | next =>
    obtain ⟨f, hf, -⟩ := next_procs h
    exact (hs.slay f).of_procs hf

theorem Sane.start (l : Launch) (cmdline : Str) : Sane l (l.start cmdline) where
  nodup := List.nodup_singleton _
  groupless q hq := by
    rw [List.mem_singleton.mp hq]
    exact l.mk_ne_group.symm

/-! ## From the moment the watchdog fires -/

/-- The stage starts a process or a program. -/
def Act.starts : Act → Bool
  | .spawn _ | .fork _ _ | .exec _ _ => true
  | _ => false

/-- As long as nothing is started, the processes are the same ones, less those that end or are
stopped. -/
theorem calm_procs (h : w.step l a = some w') (hc : a.starts = false) :
    ∃ g f, w'.procs = (w.slay f).procs.map g ∧
      (∀ q, (g q).pid = q.pid ∧ (g q).cmdline = q.cmdline) ∧
      (∀ q, f q = true → Struck l w q ∨ a = .exit q.pid) ∧ ∀ q, a = .exit q.pid → f q = true := by
  have hmodify : ∀ p (g : Proc → Proc), (∀ q, (g q).pid = q.pid ∧ (g q).cmdline = q.cmdline) →
      (∀ q, a ≠ .exit q) → ∃ g' f, (w.modify p g).procs = (w.slay f).procs.map g' ∧
        (∀ q, (g' q).pid = q.pid ∧ (g' q).cmdline = q.cmdline) ∧
        (∀ q, f q = true → Struck l w q ∨ a = .exit q.pid) ∧
        ∀ q, a = .exit q.pid → f q = true := by
    intro p g hg ha
    refine ⟨fun q ↦ if q.pid = p then g q else q, fun _ ↦ false, ?_, fun q ↦ ?_, by simp,
      fun q hq ↦ absurd hq (ha q.pid)⟩
    · simp [World.modify, World.slay]
    · dsimp only
      split
      · exact hg q
      · exact ⟨rfl, rfl⟩
  cases does_of_step h with
  | spawn | fork | exec => simp [Act.starts] at hc
  | report rc =>
    exact ⟨id, _, (List.map_id _).symm, by simp,
      fun q hq ↦ .inl (.inr (.inl (of_decide_eq_true hq))), by simp⟩
  | setsid p => exact hmodify p _ (fun _ ↦ ⟨rfl, rfl⟩) (by simp)
  | setpgid p g => exact hmodify p _ (fun _ ↦ ⟨rfl, rfl⟩) (by simp)
  | exit p =>
    refine ⟨id, _, (List.map_id _).symm, by simp, fun q hq ↦ .inr ?_, fun q hq ↦ ?_⟩
    · rw [of_decide_eq_true hq]
    · exact decide_eq_true (Act.exit.inj hq).symm
  | poll | list =>
    exact ⟨id, fun _ ↦ false, by simp [World.slay], by simp, by simp, by simp⟩
  | next =>
    obtain ⟨f, hf, hstruck⟩ := next_procs h
    exact ⟨id, f, by rw [hf, List.map_id], by simp, fun q hq ↦ .inl (hstruck q hq), by simp⟩

/-- Where a live process was before. -/
theorem origin_step (h : w.step l a = some w') (hc : a.starts = false) {y : Proc}
    (hy : y ∈ w'.procs) :
    a ≠ .exit y.pid ∧ ∃ x ∈ w.procs, x.pid = y.pid ∧ x.cmdline = y.cmdline := by
  obtain ⟨g, f, hprocs, hg, -, hexit⟩ := calm_procs h hc
  rw [hprocs] at hy
  obtain ⟨x, hx, rfl⟩ := List.mem_map.mp hy
  obtain ⟨hx, hf⟩ := mem_slay.mp hx
  refine ⟨fun ha ↦ ?_, x, hx, (hg x).1.symm, (hg x).2.symm⟩
  rw [(hg x).1] at ha
  rw [hexit x ha] at hf
  cases hf

/-- What becomes of a process that is neither stopped nor ends. -/
theorem survives_step (h : w.step l a = some w') (hc : a.starts = false) {x : Proc}
    (hx : x ∈ w.procs) (hstruck : ¬Struck l w x) (hexit : a ≠ .exit x.pid) :
    ∃ y ∈ w'.procs, y.pid = x.pid ∧ y.cmdline = x.cmdline := by
  obtain ⟨g, f, hprocs, hg, hf, -⟩ := calm_procs h hc
  have hfx : f x = false := by
    by_contra hc
    rcases hf x (by simpa using hc) with hc | hc
    · exact hstruck hc
    · exact hexit hc
  refine ⟨g x, ?_, hg x⟩
  rw [hprocs]
  exact List.mem_map_of_mem (mem_slay.mpr ⟨hx, hfx⟩)

/-- The loop over `/proc` has still to come to the process. -/
def Line.due (line : Line) (p : Nat) : Prop :=
  match line with
  | .killGroup | .killPid | .list => True
  | .visit rest => p ∈ rest
  | .kill q rest => p = q ∨ p ∈ rest
  | _ => False

/-- `kill -9 "$pid"` is done. -/
def Line.late : Line → Bool
  | .killGroup | .killPid => false
  | _ => true

/-- The script is in `stage_kill` or behind it. -/
def Line.fired : Line → Bool
  | .test | .poll => false
  | _ => true

/-- What holds from the moment the watchdog fires. -/
structure Purge (l : Launch) (w : World) : Prop where
  sane : Sane l w
  fired : w.line.fired = true
  /-- The loop comes to every process that it has to stop. -/
  due : ∀ q ∈ w.procs, leftOver q.cmdline = true → w.line.due q.pid
  /-- It stops no other. -/
  aimed : ∀ p rest, w.line = .kill p rest → ∀ q ∈ w.procs, q.pid = p → leftOver q.cmdline = true
  subshell : w.line.late = true → ∀ q ∈ w.procs, q.pid ≠ l.mk

/-- A step of the stage leaves the script where it is. -/
theorem Purge.of_line (hp : Purge l w) (h : w.step l a = some w') (hc : a.starts = false)
    (hline : w'.line = w.line) : Purge l w' where
  sane := hp.sane.step h
  fired := hline ▸ hp.fired
  due y hy hleft := by
    obtain ⟨-, x, hx, hpid, hcmd⟩ := origin_step h hc hy
    rw [hline, ← hpid]
    exact hp.due x hx (hcmd ▸ hleft)
  aimed p rest hl y hy hyp := by
    obtain ⟨-, x, hx, hpid, hcmd⟩ := origin_step h hc hy
    rw [← hcmd]
    exact hp.aimed p rest (hline ▸ hl) x hx (hpid.trans hyp)
  subshell hl y hy := by
    obtain ⟨-, x, hx, hpid, -⟩ := origin_step h hc hy
    rw [← hpid]
    exact hp.subshell (hline ▸ hl) x hx

/-- From `kill -9 "$pid"` on, a step of the script that stops nothing keeps what has been reached. -/
theorem Purge.of_procs (hp : Purge l w) (hsane : Sane l w') (hlate : w.line.late = true)
    (hprocs : w'.procs = w.procs) (hfired : w'.line.fired = true)
    (hdue : ∀ q ∈ w.procs, leftOver q.cmdline = true → w.line.due q.pid → w'.line.due q.pid)
    (haimed : ∀ p rest, w'.line = .kill p rest →
      ∀ q ∈ w.procs, q.pid = p → leftOver q.cmdline = true) : Purge l w' where
  sane := hsane
  fired := hfired
  due q hq hleft := by
    rw [hprocs] at hq
    exact hdue q hq hleft (hp.due q hq hleft)
  aimed p rest hl q hq := haimed p rest hl q (hprocs ▸ hq)
  subshell _ q hq := hp.subshell hlate q (hprocs ▸ hq)

theorem Purge.next (hp : Purge l w) (h : w.step l .next = some w') : Purge l w' := by
  have hsane := hp.sane.step h
  cases hline : w.line with
  | test | poll =>
    have := hp.fired
    simp [hline, Line.fired] at this
  | list | retry => simp [World.step, hline] at h
  | killGroup =>
    simp only [World.step, hline, Option.some.injEq] at h
    subst h
    exact ⟨hsane, rfl, fun _ _ _ ↦ trivial, by simp, by simp [Line.late]⟩
  | killPid =>
    simp only [World.step, hline, Option.some.injEq] at h
    subst h
    refine ⟨hsane, rfl, fun _ _ _ ↦ trivial, by simp, fun _ q hq ↦ ?_⟩
    exact of_decide_eq_false (mem_slay.mp hq).2
  | visit rest =>
    have hlate : w.line.late = true := by
      rw [hline]
      rfl
    cases rest with
    | nil =>
      simp only [World.step, hline, Option.some.injEq] at h
      subst h
      refine hp.of_procs hsane hlate rfl rfl (fun q _ _ hdue ↦ ?_) (by simp)
      rw [hline] at hdue
      exact absurd hdue List.not_mem_nil
    | cons p rest =>
      simp only [World.step, hline] at h
      split at h
      · rename_i hany
        obtain rfl := Option.some.inj h
        refine hp.of_procs hsane hlate rfl rfl (fun q _ _ hdue ↦ ?_) ?_
        · rw [hline] at hdue
          exact List.mem_cons.mp hdue
        · intro p' rest' heq q hq hqp
          obtain ⟨rfl, rfl⟩ := Line.kill.inj heq
          simp only [List.any_eq_true, Bool.and_eq_true, decide_eq_true_eq] at hany
          obtain ⟨r, hr, hrp, hleft⟩ := hany
          rwa [hp.sane.unique hq hr (hqp.trans hrp.symm)]
      · rename_i hany
        obtain rfl := Option.some.inj h
        refine hp.of_procs hsane hlate rfl rfl (fun q hq hleft hdue ↦ ?_) (by simp)
        rw [hline] at hdue
        rcases List.mem_cons.mp hdue with hqp | hmem
        · refine absurd (List.any_eq_true.mpr ⟨q, hq, ?_⟩) hany
          rw [decide_eq_true hqp, hleft]
          rfl
        · exact hmem
  | kill p rest =>
    simp only [World.step, hline, Option.some.injEq] at h
    subst h
    refine ⟨hsane, rfl, fun q hq hleft ↦ ?_, by simp, fun _ q hq ↦ ?_⟩
    · obtain ⟨hq, hne⟩ := mem_slay.mp hq
      have hdue := hp.due q hq hleft
      rw [hline] at hdue
      exact hdue.resolve_left (of_decide_eq_false hne)
    · exact hp.subshell (by rw [hline]; rfl) q (mem_slay.mp hq).1
  | write =>
    simp only [World.step, hline, Option.some.injEq] at h
    subst h
    refine hp.of_procs hsane (by rw [hline]; rfl) rfl rfl (fun q _ _ hdue ↦ ?_) (by simp)
    rwa [hline] at hdue
  | wait =>
    simp only [World.step, hline] at h
    split at h
    · cases h
    · obtain rfl := Option.some.inj h
      refine hp.of_procs hsane (by rw [hline]; rfl) rfl rfl (fun q _ _ hdue ↦ ?_) (by simp)
      rwa [hline] at hdue
  | returned rc =>
    simp only [World.step, hline] at h
    split at h
    · obtain rfl := Option.some.inj h
      refine hp.of_procs hsane (by rw [hline]; rfl) rfl rfl (fun q _ _ hdue ↦ ?_) (by simp)
      rwa [hline] at hdue
    · cases h

theorem Purge.step (hp : Purge l w) (h : w.step l a = some w') (hc : a.starts = false) :
    Purge l w' := by
  cases does_of_step h with
  | spawn | fork | exec => simp [Act.starts] at hc
  | report | setsid | setpgid | exit => exact hp.of_line h hc rfl
  | poll hangs hline =>
    have hfired := hp.fired
    simp [hline, Line.fired] at hfired
  | list pids hline hall =>
    exact ⟨hp.sane.step h, rfl, fun q hq _ ↦ hall q hq, by simp,
      fun _ ↦ hp.subshell (by rw [hline]; rfl)⟩
  | next => exact hp.next h

/-! ## Whole runs -/

theorem Sane.run {as : List Act} (hs : Sane l w) (h : w.run l as = some w') : Sane l w' := by
  induction as generalizing w with
  | nil =>
    obtain rfl := Option.some.inj h
    exact hs
  | cons a as ih =>
    obtain ⟨v, hv, hrun⟩ := Option.bind_eq_some_iff.mp h
    exact ih (hs.step hv) hrun

theorem Purge.run {as : List Act} (hp : Purge l w) (h : w.run l as = some w')
    (hc : ∀ a ∈ as, a.starts = false) : Purge l w' := by
  induction as generalizing w with
  | nil =>
    obtain rfl := Option.some.inj h
    exact hp
  | cons a as ih =>
    obtain ⟨v, hv, hrun⟩ := Option.bind_eq_some_iff.mp h
    rw [List.forall_mem_cons] at hc
    exact ih (hp.step hv hc.1) hrun hc.2

theorem origin_run {as : List Act} (h : w.run l as = some w') (hc : ∀ a ∈ as, a.starts = false)
    {y : Proc} (hy : y ∈ w'.procs) :
    .exit y.pid ∉ as ∧ ∃ x ∈ w.procs, x.pid = y.pid ∧ x.cmdline = y.cmdline := by
  induction as generalizing w with
  | nil =>
    obtain rfl := Option.some.inj h
    exact ⟨List.not_mem_nil, y, hy, rfl, rfl⟩
  | cons a as ih =>
    obtain ⟨v, hv, hrun⟩ := Option.bind_eq_some_iff.mp h
    rw [List.forall_mem_cons] at hc
    obtain ⟨hexit, x, hx, hpid, hcmd⟩ := ih hrun hc.2
    obtain ⟨hne, z, hz, hzpid, hzcmd⟩ := origin_step hv hc.1 hx
    rw [hpid] at hne
    exact ⟨by simp [hne.symm, hexit], z, hz, hzpid.trans hpid, hzcmd.trans hcmd⟩

/-- A process that the loop does not look for is alive until it ends by itself: the signal to the
group does not reach it. -/
theorem survives_run {as : List Act} (hp : Purge l w) (h : w.run l as = some w')
    (hc : ∀ a ∈ as, a.starts = false) {x : Proc} (hx : x ∈ w.procs) (hmk : x.pid ≠ l.mk)
    (hleft : leftOver x.cmdline = false) (hexit : .exit x.pid ∉ as) :
    ∃ y ∈ w'.procs, y.pid = x.pid := by
  induction as generalizing w x with
  | nil =>
    obtain rfl := Option.some.inj h
    exact ⟨x, hx, rfl⟩
  | cons a as ih =>
    obtain ⟨v, hv, hrun⟩ := Option.bind_eq_some_iff.mp h
    rw [List.forall_mem_cons] at hc
    rw [List.mem_cons, not_or] at hexit
    have hstruck : ¬Struck l w x := by
      rintro (hg | hg | ⟨rest, hg⟩)
      · exact hp.sane.groupless x hx hg
      · exact hmk hg
      · rw [hp.aimed _ rest hg x hx rfl] at hleft
        cases hleft
    obtain ⟨y, hy, hpid, hcmd⟩ := survives_step hv hc.1 hx hstruck (Ne.symm hexit.1)
    rw [← hpid] at hmk hexit
    obtain ⟨z, hz, hzpid⟩ := ih (hp.step hv hc.1) hrun hc.2 hy hmk (hcmd ▸ hleft) hexit.2
    exact ⟨z, hz, hzpid.trans hpid⟩

end

/-- **What is left of a stage.**  If the stage starts nothing any more once the watchdog has fired,
then nothing of it is alive at the second try exactly if every process it had then is the subshell,
or one the loop over `/proc` looks for, or ends by itself. -/
theorem gone_iff (l : Launch) (cmdline : Str) (before after : List Act) (w w' : World)
    (hbefore : (l.start cmdline).run l before = some w) (hfire : w.line = .killGroup)
    (hafter : w.run l after = some w') (hretry : w'.line = .retry)
    (hcalm : ∀ a ∈ after, a.starts = false) :
    w'.procs = [] ↔
      ∀ q ∈ w.procs, q.pid = l.mk ∨ leftOver q.cmdline = true ∨ .exit q.pid ∈ after := by
  have hp : Purge l w :=
    { sane := (Sane.start l cmdline).run hbefore
      fired := by rw [hfire]; rfl
      due := fun _ _ _ ↦ by rw [hfire]; trivial
      aimed := by simp [hfire]
      subshell := by simp [hfire, Line.late] }
  have hp' := hp.run hafter hcalm
  constructor
  · intro hnil q hq
    by_contra hc
    simp only [not_or, Bool.not_eq_true] at hc
    obtain ⟨y, hy, -⟩ := survives_run hp hafter hcalm hq hc.1 hc.2.1 hc.2.2
    rw [hnil] at hy
    exact absurd hy List.not_mem_nil
  · intro hall
    refine List.eq_nil_iff_forall_not_mem.mpr fun y hy ↦ ?_
    obtain ⟨hexit, x, hx, hpid, hcmd⟩ := origin_run hafter hcalm hy
    rcases hall x hx with hmk | hleft | hmem
    · exact hp'.subshell (by rw [hretry]; rfl) y hy (hpid.symm.trans hmk)
    · have hdue := hp'.due y hy (hcmd ▸ hleft)
      rw [hretry] at hdue
      exact hdue
    · exact hexit (hpid ▸ hmem)

/-- The script has the numbers 1, the subshell 2. -/
def sampleLaunch : Launch := ⟨2, 1, 1, by decide⟩

/-- The subshell starts process 3, which becomes `cmdline` and hangs. -/
def sampleBefore (cmdline : String) : List Act :=
  [.spawn 3, .setsid 3, .exec 3 cmdline.toList, .next, .poll true]

/-- The watchdog does its work. -/
def sampleAfter : List Act := [.next, .next, .list [1, 2, 3]] ++ List.replicate 7 .next

/-- The same stage when the watchdog fires. -/
def sampleFired (cmdline : String) : World where
  procs := [⟨2, 1, 1, []⟩, ⟨3, 3, 3, cmdline.toList⟩]
  child := some 3
  rcfile := none
  line := .killGroup

/-- A stage that is a `faked` is stopped. -/
theorem gone_iff_faked :
    (sampleLaunch.start []).run sampleLaunch (sampleBefore "/sdk/bin/faked") =
        some (sampleFired "/sdk/bin/faked") ∧
      (sampleFired "/sdk/bin/faked").run sampleLaunch (sampleAfter ++ [Act.next]) =
        some ⟨[], some 3, some 124, .retry⟩ ∧
      ((⟨[], some 3, some 124, .retry⟩ : World).procs = [] ↔
        ∀ q ∈ (sampleFired "/sdk/bin/faked").procs, q.pid = sampleLaunch.mk ∨
          leftOver q.cmdline = true ∨ Act.exit q.pid ∈ sampleAfter ++ [Act.next]) := by
  have hbefore : (sampleLaunch.start []).run sampleLaunch (sampleBefore "/sdk/bin/faked") =
    some (sampleFired "/sdk/bin/faked") := by decide
  have hafter : (sampleFired "/sdk/bin/faked").run sampleLaunch (sampleAfter ++ [Act.next]) =
    some ⟨[], some 3, some 124, .retry⟩ := by decide
  exact ⟨hbefore, hafter, gone_iff sampleLaunch [] _ _ _ _ hbefore rfl hafter rfl (by decide)⟩

/-- Every process is in the session that `setsid` made, or a `fakeroot` or `faked`. -/
def World.contained (l : Launch) (w : World) : Bool :=
  w.procs.all fun q ↦ q.pid = l.mk || w.child = some q.pid || w.child = some q.session ||
    leftOver q.cmdline

/-- A stage that is a `make` is not stopped. -/
theorem make_survives :
    ¬∀ (l : Launch) (cmdline : Str) (as : List Act) (w' : World),
      (l.start cmdline).run l as = some w' → .poll true ∈ as →
      (∀ bs ∈ as.inits, ((l.start cmdline).run l bs).all (·.contained l) = true) →
      w'.line = .retry → w'.procs = [] := by
  intro h
  have hprocs := h sampleLaunch [] (sampleBefore "make -j8 BUILD_LOG=1" ++ sampleAfter)
    ⟨[⟨3, 3, 3, "make -j8 BUILD_LOG=1".toList⟩], some 3, some 124, .retry⟩ (by decide) (by decide)
    (by decide) (by decide)
  cases hprocs

end Watchdog
end OpenwrtFeed
