import OpenwrtFeed.Lib.Atomic
import OpenwrtFeed.Pages.Apply

/-!
# Getting onto the branch

Any number of runs of `publish-pages.sh` work on one branch.  Each reads the branch, applies its
request to what it read and pushes the result with a lease on the commit it started from; whoever
loses starts again, up to `ATTEMPTS` times.  `Step` is that loop, one step at a time, for all runs
together and in any order:

* `fetch`, `clone`, `init` — the three ways `fetch_site` succeeds: refreshing the clone of an
  earlier attempt, cloning, or starting from nothing when there is no branch;
* `fetchFail` — `fetch_site` returns 1 from any of its commands.  What it leaves behind in `$SITE`
  and `$OLD` is not said: the next attempt must not depend on it;
* `apply`, `applyFail` — `apply_changes` goes through, or ends the script under `set -e`;
* `unchanged`, `push`, `refuse` — the ways out of `commit_and_push`.  The push is git's
  compare-and-swap: it goes through only if the branch is still at `$OLD`, an empty `$OLD` meaning
  that there is none.  A refusal can have any reason;
* `retry`, `giveUp` — the end of an attempt that failed.

`World.pushed` records the successful pushes.  The invariant (`Run.Ok`) is about single runs: after
reading, the working copy is the commit the lease names; after applying, it is the request applied
to that commit, with nothing of an earlier attempt in it.  With it every successful push is one
atomic update of the branch (`step_refines`), and `no_lost_update` is what that means for a run.
-/

set_option autoImplicit false

namespace OpenwrtFeed

open Shell DirTree Relation

/-! ## Runs and the branch -/

/-- A commit of the branch.  It has no parents; its name is a hash of all that is in it, so two
commits of one name are one. -/
structure Commit where
  tree : Site
  msg : Str
  date : Nat

/-- What is served: nothing as long as there is no branch. -/
def content : Option Commit → Site
  | none => Tree.empty
  | some c => c.tree

/-- Where a run is in the attempt loop. -/
inductive Phase
  /-- about to call `fetch_site` -/
  | reading
  /-- `fetch_site` returned 0 -/
  | read
  /-- `apply_changes` is through -/
  | applied
  /-- the attempt failed -/
  | failed
  | exited (code : Nat)
  deriving DecidableEq

/-- The state of one run. -/
structure Run where
  phase : Phase
  /-- `attempt` -/
  attempt : Nat
  /-- `$SITE/.git` is there and has a `HEAD`. -/
  repo : Bool
  /-- `OLD`, `none` if it is empty. -/
  old : Option Commit
  /-- `$SITE` -/
  site : Site

/-- A run at its start.  With no attempts at all it gives up at once. -/
def Run.start (attempts : Nat) : Run where
  phase := if attempts = 0 then .exited 1 else .reading
  attempt := 1
  repo := false
  old := none
  site := Tree.empty

/-- The branch, the runs, and the pushes that went through, in order. -/
structure World (ι : Type) where
  branch : Option Commit
  runs : ι → Run
  pushed : List (ι × Commit)

variable {ι : Type}

def World.start (attempts : ι → Nat) (b : Option Commit) : World ι where
  branch := b
  runs i := Run.start (attempts i)
  pushed := []

variable [DecidableEq ι]

/-- Run `i` goes on as `r`. -/
def World.set (w : World ι) (i : ι) (r : Run) : World ι :=
  { w with runs := Function.update w.runs i r }

/-- One step of one run.  The summary that the script writes behind a push is taken to succeed. -/
inductive Step (E : Env) (req : ι → Request) (attempts : ι → Nat) : World ι → World ι → Prop
  | fetch (w : World ι) (i : ι) (c : Commit) (hp : (w.runs i).phase = .reading)
      (hr : (w.runs i).repo = true) (hb : w.branch = some c) :
      Step E req attempts w
        (w.set i { w.runs i with phase := .read, old := some c, site := c.tree })
  | clone (w : World ι) (i : ι) (c : Commit) (hp : (w.runs i).phase = .reading)
      (hr : (w.runs i).repo = false) (hb : w.branch = some c) :
      Step E req attempts w
        (w.set i { w.runs i with phase := .read, repo := true, old := some c, site := c.tree })
  | init (w : World ι) (i : ι) (hp : (w.runs i).phase = .reading) (hr : (w.runs i).repo = false)
      (hb : w.branch = none) :
      Step E req attempts w
        (w.set i { w.runs i with phase := .read, old := none, site := Tree.empty })
  | fetchFail (w : World ι) (i : ι) (repo : Bool) (old : Option Commit) (site : Site)
      (hp : (w.runs i).phase = .reading) :
      Step E req attempts w
        (w.set i { w.runs i with phase := .failed, repo := repo, old := old, site := site })
  | apply (w : World ι) (i : ι) (t : Site) (hp : (w.runs i).phase = .read)
      (ht : applyChanges E (req i) (w.runs i).site = some t) :
      Step E req attempts w (w.set i { w.runs i with phase := .applied, site := t })
  | applyFail (w : World ι) (i : ι) (site : Site) (hp : (w.runs i).phase = .read) :
      Step E req attempts w (w.set i { w.runs i with phase := .exited 1, site := site })
  | unchanged (w : World ι) (i : ι) (c : Commit) (hp : (w.runs i).phase = .applied)
      (ho : (w.runs i).old = some c) (hc : (w.runs i).site = c.tree) :
      Step E req attempts w (w.set i { w.runs i with phase := .exited 0 })
  | push (w : World ι) (i : ι) (date : Nat) (hp : (w.runs i).phase = .applied)
      (hc : ∀ c, (w.runs i).old = some c → (w.runs i).site ≠ c.tree)
      (hb : w.branch = (w.runs i).old) :
      Step E req attempts w
        { w.set i { w.runs i with phase := .exited 0 } with
          branch := some ⟨(w.runs i).site, (req i).msg, date⟩
          pushed := w.pushed ++ [(i, ⟨(w.runs i).site, (req i).msg, date⟩)] }
  | refuse (w : World ι) (i : ι) (hp : (w.runs i).phase = .applied) :
      Step E req attempts w (w.set i { w.runs i with phase := .failed })
  | retry (w : World ι) (i : ι) (hp : (w.runs i).phase = .failed)
      (ha : (w.runs i).attempt < attempts i) :
      Step E req attempts w
        (w.set i { w.runs i with phase := .reading, attempt := (w.runs i).attempt + 1 })
  | giveUp (w : World ι) (i : ι) (hp : (w.runs i).phase = .failed)
      (ha : attempts i ≤ (w.runs i).attempt) :
      Step E req attempts w (w.set i { w.runs i with phase := .exited 1 })

/-! ## The invariant -/

/-- What a run knows: after reading, its working copy is the commit it holds the lease on; after
applying, it is its request applied to that commit. -/
structure Run.Ok (E : Env) (r : Request) (s : Run) : Prop where
  read : s.phase = .read → s.site = content s.old
  applied : s.phase = .applied → applyChanges E r (content s.old) = some s.site

theorem Run.Ok.of_phase {E : Env} {r : Request} {s : Run} (h : s.phase ≠ .read)
    (h' : s.phase ≠ .applied) : s.Ok E r :=
  ⟨fun hc ↦ absurd hc h, fun hc ↦ absurd hc h'⟩

theorem Run.Ok.of_read {E : Env} {r : Request} {s : Run} (hp : s.phase = .read)
    (h : s.site = content s.old) : s.Ok E r :=
  ⟨fun _ ↦ h, fun hc ↦ absurd (hp.symm.trans hc) (by decide)⟩

theorem Run.Ok.of_applied {E : Env} {r : Request} {s : Run} (hp : s.phase = .applied)
    (h : applyChanges E r (content s.old) = some s.site) : s.Ok E r :=
  ⟨fun hc ↦ absurd (hp.symm.trans hc) (by decide), fun _ ↦ h⟩

/-- The invariant of the loop. -/
structure World.Inv (E : Env) (req : ι → Request) (w : World ι) : Prop where
  ok : ∀ i, (w.runs i).Ok E (req i)
  /-- Whoever has pushed has left with success. -/
  left : ∀ p ∈ w.pushed, (w.runs p.1).phase = .exited 0
  nodup : (w.pushed.map Prod.fst).Nodup

section Start

omit [DecidableEq ι]

theorem inv_start {E : Env} {req : ι → Request} (attempts : ι → Nat) (b : Option Commit) :
    (World.start attempts b).Inv E req where
  ok i := by
    constructor
    · intro h
      simp only [World.start, Run.start] at h ⊢
      rfl
    · intro h
      simp only [World.start, Run.start] at h
      split at h <;> cases h
  left p hp := by cases hp
  nodup := List.nodup_nil

end Start

section Invariant

variable {E : Env} {req : ι → Request} {attempts : ι → Nat} {w w' : World ι}

theorem World.set_runs (w : World ι) (i j : ι) (r : Run) :
    (w.set i r).runs j = if j = i then r else w.runs j :=
  Function.update_apply w.runs i r j

/-- A step of a run that has not pushed and does not push now. -/
theorem World.Inv.set (hw : w.Inv E req) {i : ι} {r : Run} (hr : r.Ok E (req i))
    (hleft : (w.runs i).phase ≠ .exited 0) : (w.set i r).Inv E req where
  ok j := by
    rw [World.set_runs]
    split
    · rename_i h; rw [h]; exact hr
    · exact hw.ok j
  left p hp := by
    have hne : p.1 ≠ i := by
      intro h
      exact hleft (h ▸ hw.left p hp)
    rw [World.set_runs, if_neg hne]
    exact hw.left p hp
  nodup := hw.nodup

theorem inv_step (hw : w.Inv E req) (h : Step E req attempts w w') : w'.Inv E req := by
  cases h with
  | fetch i c hp hr hb => exact hw.set (.of_read rfl rfl) (by rw [hp]; decide)
  | clone i c hp hr hb => exact hw.set (.of_read rfl rfl) (by rw [hp]; decide)
  | init i hp hr hb => exact hw.set (.of_read rfl rfl) (by rw [hp]; decide)
  | fetchFail i repo old site hp =>
    exact hw.set (.of_phase (by simp) (by simp)) (by rw [hp]; decide)
  | apply i t hp ht =>
    refine hw.set (.of_applied rfl ?_) (by rw [hp]; decide)
    rw [← (hw.ok i).read hp]
    exact ht
  | applyFail i site hp =>
    exact hw.set (.of_phase (by simp) (by simp)) (by rw [hp]; decide)
  | unchanged i c hp ho hc =>
    exact hw.set (.of_phase (by simp) (by simp)) (by rw [hp]; decide)
  | push i date hp hc hb =>
    have hset := hw.set (i := i) (r := { w.runs i with phase := .exited 0 })
      (.of_phase (by simp) (by simp)) (by rw [hp]; decide)
    have hi : i ∉ w.pushed.map Prod.fst := by
      intro hmem
      obtain ⟨p, hp', rfl⟩ := List.mem_map.mp hmem
      have := hw.left p hp'
      rw [hp] at this
      cases this
    refine ⟨hset.ok, fun p hmem ↦ ?_, ?_⟩
    · rcases List.mem_append.mp hmem with hold | hnew
      · exact hset.left p hold
      · rw [List.mem_singleton] at hnew
        subst hnew
        simp [World.set]
    · rw [List.map_append, List.nodup_append]
      refine ⟨hw.nodup, by simp, ?_⟩
      rintro a ha b hb rfl
      rw [List.map_singleton, List.mem_singleton] at hb
      subst hb
      exact hi ha
  | refuse i hp => exact hw.set (.of_phase (by simp) (by simp)) (by rw [hp]; decide)
  | retry i hp ha => exact hw.set (.of_phase (by simp) (by simp)) (by rw [hp]; decide)
  | giveUp i hp ha => exact hw.set (.of_phase (by simp) (by simp)) (by rw [hp]; decide)

/-! ## The branch is updated atomically -/

/-- The branch as a store. -/
def World.store (w : World ι) : Atomic.Store ι Site where
  state := content w.branch
  log := w.pushed.map fun p ↦ (p.1, p.2.tree)

/-- Every step is an update of the branch or leaves it alone. -/
theorem step_refines (hw : w.Inv E req) (h : Step E req attempts w w') :
    ReflTransGen (Atomic.Step fun i t ↦ applyChanges E (req i) t) w.store w'.store := by
  cases h with
  | push i date hp hc hb =>
    refine .single ?_
    have happ := (hw.ok i).applied hp
    rw [← hb] at happ
    have hcommit : Atomic.Step (fun i t ↦ applyChanges E (req i) t) w.store _ :=
      .commit w.store i _ happ
    simpa [World.store, World.set, content] using hcommit
  | _ => exact .refl

end Invariant

/-- **No lost update.**  Whatever the runs do and in whatever order they do it, after the `k`-th
successful push the branch is what the first `k` requests make of the initial one, in the order of
the pushes.  A run that left with an error has pushed nothing, and what a run is about to push is
its request applied to the commit it holds the lease on, however many attempts came before. -/
theorem no_lost_update (E : Env) (req : ι → Request) (attempts : ι → Nat) (b : Option Commit)
    {w : World ι} (h : ReflTransGen (Step E req attempts) (World.start attempts b) w) :
    content w.branch = Atomic.stateAfter (content b) w.store.log w.pushed.length ∧
      (∀ k ≤ w.pushed.length,
        ((w.pushed.take k).map Prod.fst).foldlM (fun t i ↦ applyChanges E (req i) t) (content b) =
          some (Atomic.stateAfter (content b) w.store.log k)) ∧
      (w.pushed.map Prod.fst).Nodup ∧
      (∀ i code, (w.runs i).phase = .exited code → code ≠ 0 → i ∉ w.pushed.map Prod.fst) ∧
      ∀ i, (w.runs i).phase = .applied →
        applyChanges E (req i) (content (w.runs i).old) = some (w.runs i).site := by
  obtain ⟨hinv, hrun⟩ := map_run (f := World.store) (fun _ _ hw h ↦ inv_step hw h)
    (fun _ _ hw h ↦ step_refines hw h) (inv_start attempts b) h
  have hspec := Atomic.run_spec _ (content b) hrun
  have hlen : w.store.log.length = w.pushed.length := by simp [World.store]
  refine ⟨?_, fun k hk ↦ ?_, hinv.nodup, ?_, fun i ↦ (hinv.ok i).applied⟩
  · rw [← hlen]
    exact hspec.state_eq
  · rw [← hspec.prefix_eq k (hlen ▸ hk), World.store, ← List.map_take, List.map_map]
    rfl
  · rintro i code hi hne hmem
    obtain ⟨p, hp, rfl⟩ := List.mem_map.mp hmem
    rw [hinv.left p hp] at hi
    cases hi
    exact hne rfl

/-! ### Two runs at once -/

/-- The requests of two runs. -/
def raceRequest (i : Bool) : Request :=
  toolRequest (if i then "stable".toList else "main".toList)

/-- Two runs that start on a missing branch; the second one loses the race, and wins the next. -/
theorem no_lost_update_race : ∃ w : World Bool,
    ReflTransGen (Step sampleEnv raceRequest fun _ ↦ 10) (World.start (fun _ ↦ 10) none) w ∧
    w.pushed.map Prod.fst = [false, true] ∧
      some (content w.branch) =
        (applyChanges sampleEnv (raceRequest false) Tree.empty >>=
          applyChanges sampleEnv (raceRequest true)) := by
  let req := raceRequest
  obtain ⟨t₁, h₁⟩ : ∃ t, applyChanges sampleEnv (req false) Tree.empty = some t :=
    Option.isSome_iff_exists.mp (by decide +kernel)
  obtain ⟨t₂, h₂⟩ : ∃ t, applyChanges sampleEnv (req true) Tree.empty = some t :=
    Option.isSome_iff_exists.mp (by decide +kernel)
  have hboth : (applyChanges sampleEnv (req false) Tree.empty >>=
      applyChanges sampleEnv (req true)).isSome = true := by decide +kernel
  obtain ⟨t₃, h₃⟩ : ∃ t, applyChanges sampleEnv (req true) t₁ = some t := by
    rw [h₁] at hboth
    exact Option.isSome_iff_exists.mp hboth
  have hne : t₃ ≠ t₁ := by
    have hstamp : ((applyChanges sampleEnv (req false) Tree.empty >>=
          applyChanges sampleEnv (req true)).map fun t ↦ t.has ["tools".toList, "stable".toList]) ≠
        (applyChanges sampleEnv (req false) Tree.empty).map fun t ↦
          t.has ["tools".toList, "stable".toList] := by decide +kernel
    rintro rfl
    rw [h₁] at hstamp
    exact hstamp (by simp [h₃])
  let w₀ : World Bool := World.start (fun _ ↦ 10) none
  let w₁ := w₀.set false { w₀.runs false with phase := .read, old := none, site := Tree.empty }
  let w₂ := w₁.set true { w₁.runs true with phase := .read, old := none, site := Tree.empty }
  let w₃ := w₂.set false { w₂.runs false with phase := .applied, site := t₁ }
  let w₄ := w₃.set true { w₃.runs true with phase := .applied, site := t₂ }
  let c₁ : Commit := ⟨t₁, (req false).msg, 0⟩
  let w₅ : World Bool :=
    { w₄.set false { w₄.runs false with phase := .exited 0 } with
      branch := some c₁, pushed := [(false, c₁)] }
  let w₆ := w₅.set true { w₅.runs true with phase := .failed }
  let w₇ := w₆.set true { w₆.runs true with phase := .reading, attempt := 2 }
  let w₈ := w₇.set true
    { w₇.runs true with phase := .read, repo := true, old := some c₁, site := t₁ }
  let w₉ := w₈.set true { w₈.runs true with phase := .applied, site := t₃ }
  let c₂ : Commit := ⟨t₃, (req true).msg, 0⟩
  let w : World Bool :=
    { w₉.set true { w₉.runs true with phase := .exited 0 } with
      branch := some c₂, pushed := [(false, c₁), (true, c₂)] }
  have hrun : ReflTransGen (Step sampleEnv req fun _ ↦ 10) w₀ w := by
    refine .head (Step.init w₀ false rfl rfl rfl) (.head (Step.init w₁ true rfl rfl rfl) ?_)
    refine .head (Step.apply w₂ false t₁ rfl h₁) (.head (Step.apply w₃ true t₂ rfl h₂) ?_)
    refine .head (Step.push w₄ false 0 rfl (fun c hc ↦ by cases hc) rfl) ?_
    refine .head (Step.refuse w₅ true rfl)
      (.head (Step.retry w₆ true rfl (show 1 < 10 by decide)) ?_)
    refine .head (Step.clone w₇ true c₁ rfl rfl rfl) (.head (Step.apply w₈ true t₃ rfl h₃) ?_)
    exact .single (Step.push w₉ true 0 rfl (fun c hc ↦ by cases hc; exact hne) rfl)
  refine ⟨w, hrun, rfl, ?_⟩
  have hall : [false, true].foldlM (fun t i ↦ applyChanges sampleEnv (req i) t) Tree.empty =
      some t₃ := (no_lost_update sampleEnv req (fun _ ↦ 10) none hrun).2.1 2 (Nat.le_refl 2)
  simp only [List.foldlM_cons, List.foldlM_nil, bind_pure] at hall
  exact hall.symm

end OpenwrtFeed
