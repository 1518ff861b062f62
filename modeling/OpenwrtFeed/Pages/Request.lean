import OpenwrtFeed.Pages.Apply
import Mathlib.Algebra.Group.Nat.Defs

/-!
# From a command line to a request

The first half of `publish-pages.sh`: the arguments are read (`parseArgs`), every destination is
checked (`checkDest`), every pair has to pass a guard, and what is left is written down as
`ACCEPTED`, one string for each pair: the absolute path of the source, an equals sign, the
destination.  `apply_changes` takes these strings apart again, at the first equals sign.

The working directory is part of the absolute path and nobody looks at its name, so the two halves
that come out need not be the two that went in.  `exact_iff` says when a call does what it was asked
to and nothing else: if and only if the strings can be taken apart.  `checkDest_inside` is the part
that always holds: whatever passes the check is a path strictly inside of the site.

There are no symbolic links here, on the site or on the machine.
-/

set_option autoImplicit false

namespace OpenwrtFeed

open Shell DirTree

/-! ## Arguments -/

/-- How the script leaves before it touches the branch. -/
inductive Exit
  /-- `die` -/
  | die (msg : Str)
  /-- `--help` -/
  | help
  /-- There is nothing to publish. -/
  | nothing
  /-- `${name:?msg}` -/
  | unset (name msg : Str)
  deriving DecidableEq

def die {α : Type} (msg : Str) : Except Exit α := .error (.die ("publish-pages: ".toList ++ msg))

/-- What the arguments say. -/
structure Options where
  msg : Str := []
  channel : Str := "-".toList
  keys : Str := []
  removes : List Str := []
  pairs : List Str := []
  keepRules : List Str := []
  deriving DecidableEq

def quoted (s : Str) : Str := '\'' :: s ++ ['\'']

/-- `--keep` -/
def Options.keep (o : Options) (v : Str) : Except Exit Options :=
  let bad := die ("--keep wants PATTERN=<number>, got ".toList ++ quoted v)
  if Glob.accepts (Glob.parse "*=*[!0-9]*".toList) v ||
    Glob.accepts (Glob.parse "*=".toList) v then bad
  else if Glob.accepts (Glob.parse "*=*".toList) v then
    .ok { o with keepRules := o.keepRules ++ [v] }
  else bad

/-- The options that take an argument, and what they do with it. -/
def Options.withArg (o : Options) (a : Str) : Option (Str → Except Exit Options) :=
  if a = "-m".toList then some fun v ↦ .ok { o with msg := v }
  else if a = "--channel".toList then some fun v ↦ .ok { o with channel := v }
  else if a = "--keys".toList then some fun v ↦ .ok { o with keys := v }
  else if a = "--remove".toList then some fun v ↦ .ok { o with removes := o.removes ++ [v] }
  else if a = "--keep".toList then some o.keep
  else none

/-- Every other word. -/
def Options.word (o : Options) (a : Str) : Except Exit Options :=
  if a = "-h".toList ∨ a = "--help".toList then .error .help
  else if a.head? = some '-' then die ("unknown option ".toList ++ a)
  else if '=' ∈ a then .ok { o with pairs := o.pairs ++ [a] }
  else die ("expected SRC=DEST, got ".toList ++ quoted a)

/-- The loop over the arguments. -/
def parseArgs : Options → List Str → Except Exit Options
  | o, [] => .ok o
  | o, [a] => match o.withArg a with
    | some _ => die (a ++ " needs an argument".toList)
    | none => o.word a
  | o, a :: v :: rest => match o.withArg a with
    | some f => f v >>= fun o ↦ parseArgs o rest
    | none => o.word a >>= fun o ↦ parseArgs o (v :: rest)

/-- A `--keep` rule, taken apart by `keep_for`.  A number that does not fit makes the comparison
with 1 fail, which is as good as 1. -/
def keepRule (rule : Str) : Str × Nat :=
  let n := (afterLast '=' rule).foldl (fun n c ↦ 10 * n + (c.toNat - '0'.toNat)) 0
  (beforeLast '=' rule, if n < 2 ^ 63 then n else 1)

/-! ## Destinations -/

/-- `check_dest` -/
def checkDest (s : Str) : Except Exit Str :=
  let d := stripSuffix ['/'] (stripPrefix ['.', '/'] s)
  if ["//", "*/../*", "*/./*", "/.git/*"].any fun p ↦
      Glob.accepts (Glob.parse p.toList) ('/' :: (d ++ ['/'])) then
    die ("bad destination ".toList ++ quoted s)
  else if d.head? = some '/' then die ("destination must be relative: ".toList ++ quoted s)
  else .ok d

/-! ## Pairs -/

/-- One call of the script: where, with what, and on which machine. -/
structure Call where
  /-- The file system. -/
  host : Site
  /-- `$PWD` -/
  cwd : Str
  args : List Str
  /-- `PRIVATE_KEY` -/
  privateKey : Str
  /-- `PAGES_ALLOW_UNSIGNED` -/
  allowUnsigned : Str
  /-- `PAGES_REMOTE` -/
  remote : Str
  /-- `GITHUB_REPOSITORY` -/
  repository : Str
  /-- `PAGES_STAMP_SHA`, `GITHUB_SHA` and `git rev-parse HEAD` -/
  shas : List Str
  /-- `PAGES_STAMP_RUN` and `GITHUB_RUN_ID` -/
  runs : List Str
  now : Str

/-- One component on the way to a directory. -/
def stepInto (host : Site) (p : Path) (n : Str) : Option Path :=
  if n = ['.'] then some p
  else if n = ['.', '.'] then some p.dropLast
  else if host.isDir (p ++ [n]) = true then some (p ++ [n])
  else none

/-- The directory `s` stands for, if `[ -d s ]`. -/
def Call.dirAt (c : Call) (s : Str) : Option Path :=
  if s = [] then none
  else do
    let p ← (components s).foldlM (stepInto c.host)
      (if s.head? = some '/' then [] else components c.cwd)
    if c.host.isDir p = true then some p else none

/-- `find src -type f -name pat`, for the directory at `p`.  Two names `find` takes for the
beginning of an expression. -/
def Call.finds (c : Call) (src : Str) (p : Path) (pat : Str) : Bool :=
  src ≠ ['('] && src ≠ ['!'] && decide (∃ q ∈ c.host.dom, p <+: q ∧ c.host.isFile q = true ∧
    Glob.accepts (Glob.parse pat) (q.getLastD []) = true)

/-- The guard of a destination; what is missing if it fails. -/
def Call.guard (c : Call) (src : Str) (p : Path) (dest : Str) : Option Str :=
  if Glob.accepts (Glob.parse "images/*".toList) dest then
    if c.finds src p "*sysupgrade*".toList then none else some "no sysupgrade image in ".toList
  else if Glob.accepts (Glob.parse "tools/*".toList) dest then
    if c.finds src p "*".toList then none else some "no file in ".toList
  else if c.host.isFile (p ++ [adbName]) then none else some "no packages.adb in ".toList

/-- A pair that passed: the directory and the checked destination. -/
structure Accepted where
  src : Path
  dest : Str
  deriving DecidableEq

/-- A pair that did not, and what is said about it. -/
structure Skipped where
  dest : Str
  warning : Str
  deriving DecidableEq

/-- A call that passed validation. -/
structure Plan where
  opts : Options
  accepted : List Accepted := []
  skipped : List Skipped := []
  /-- `REMOVE_OK` -/
  removes : List Str := []
  /-- `KEYS` -/
  keys : Option Str := none
  deriving DecidableEq

/-- `::warning::` -/
def keepsState (reason dest : Str) : Skipped :=
  ⟨dest, "::warning::publish-pages: ".toList ++ reason ++ ", ".toList ++ dest ++
    " keeps its published state".toList⟩

/-- One round of the validation loop. -/
def Call.validatePair (c : Call) (v : Plan) (pair : Str) : Except Exit Plan := do
  let src := beforeFirst '=' pair
  let dest ← checkDest (afterFirst '=' pair)
  match c.dirAt src with
  | none => .ok { v with skipped := v.skipped ++
    [keepsState (src ++ " does not exist".toList) dest] }
  | some p => match c.guard src p dest with
    | some missing => .ok { v with skipped := v.skipped ++ [keepsState (missing ++ src) dest] }
    | none => .ok { v with accepted := v.accepted ++ [⟨p, dest⟩] }

/-- `KEYS`, as an absolute path. -/
def Call.keysDir (c : Call) (keys : Str) : Except Exit (Option Str) :=
  if keys = [] then .ok none
  else match c.dirAt keys with
    | none => die ("--keys ".toList ++ keys ++ " is not a directory".toList)
    | some p => .ok (some (captured (absPath p)))

/-- The first half of the script, up to what it has to say about nothing to publish. -/
def Call.plan (c : Call) : Except Exit Plan := do
  let o ← parseArgs {} c.args
  if o.msg = [] then die "-m MSG is required".toList
  else do
    let v ← o.pairs.foldlM c.validatePair { opts := o }
    let removes ← o.removes.mapM checkDest
    let keys ← c.keysDir o.keys
    if v.accepted = [] ∧ removes = [] ∧ keys = none then .error .nothing
    else .ok { v with removes := removes, keys := keys }

/-- An element of `ACCEPTED`. -/
def Accepted.entry (a : Accepted) : Str := captured (absPath a.src) ++ '=' :: a.dest

/-- `${a:-${b:-…}}` -/
def orElse (names : List Str) (default : Str) : Str := (names.find? (· ≠ [])).getD default

/-- What the second half of the script works with. -/
def Plan.request (v : Plan) (c : Call) : Request where
  removes := v.removes
  accepted := v.accepted.map Accepted.entry
  keepRules := v.opts.keepRules.map keepRule
  keys := v.keys.map fun k ↦ c.host.sub (components k)
  stamp := ⟨c.now, v.opts.channel, orElse c.shas "unknown".toList, orElse c.runs "local".toList⟩
  signed := c.privateKey ≠ []
  msg := v.opts.msg
  source s := if c.host.isDir (components s) = true then some (c.host.sub (components s)) else none

/-- Some accepted destination keeps several versions. -/
def Request.needsKey (r : Request) : Bool :=
  r.accepted.any fun p ↦ 1 < keepFor r.keepRules (afterFirst '=' p)

/-- The whole way to the first attempt. -/
def Call.request (c : Call) : Except Exit Request := do
  let v ← c.plan
  let r := v.request c
  if c.remote = [] ∧ c.repository = [] then
    .error (.unset "GITHUB_REPOSITORY".toList "set GITHUB_REPOSITORY or PAGES_REMOTE".toList)
  else if r.needsKey ∧ c.privateKey = [] ∧ c.allowUnsigned ≠ ['1'] then
    die ("--keep N>1 rebuilds the index and needs PRIVATE_KEY ".toList ++
      "(PAGES_ALLOW_UNSIGNED=1 to accept an unsigned one)".toList)
  else .ok r

/-! ## What passes the check -/

/-- A path strictly inside of the site and not in its repository. -/
structure Inside (d : Path) : Prop where
  nonempty : d ≠ []
  dot : ['.'] ∉ d
  dotdot : ['.', '.'] ∉ d
  git : d.head? ≠ some ".git".toList

/-- **What passes the check lies strictly inside of the site.** -/
theorem checkDest_inside {s d : Str} (h : checkDest s = .ok d) : Inside (components d) := by
  rw [checkDest] at h
  split at h
  · cases h
  · rename_i hbad
    split at h
    · cases h
    · rename_i hrel
      cases h
      generalize stripSuffix ['/'] (stripPrefix ['.', '/'] s) = d at hbad hrel ⊢
      rw [Bool.not_eq_true, List.any_eq_false] at hbad
      have hroot : d ≠ [] := by
        rintro rfl
        exact hbad "//" (by simp) (by decide)
      have hdotdot : ¬"/../".toList <:+: '/' :: (d ++ ['/']) := fun hc ↦
        hbad "*/../*" (by simp)
          ((Glob.accepts_star_lit_star (s := "/../".toList) (by decide)).mpr hc)
      have hdot : ¬"/./".toList <:+: '/' :: (d ++ ['/']) := fun hc ↦
        hbad "*/./*" (by simp) ((Glob.accepts_star_lit_star (s := "/./".toList) (by decide)).mpr hc)
      have hgit : ¬"/.git/".toList <+: '/' :: (d ++ ['/']) := fun hc ↦
        hbad "/.git/*" (by simp) ((Glob.accepts_lit_star (s := "/.git/".toList) (by decide)).mpr hc)
      obtain ⟨f, fs, hfs, hf⟩ := components_head hroot hrel
      refine ⟨by simp [hfs], fun hc ↦ hdot (components_between hc),
        fun hc ↦ hdotdot (components_between hc), ?_⟩
      rw [hfs, List.head?_cons]
      rintro ⟨⟩
      exact hgit (List.cons_prefix_cons.mpr ⟨rfl, hf⟩)

/-- Components that `pwd` can print. -/
def Names (p : Path) : Prop := ∀ n ∈ p, n ≠ [] ∧ '/' ∉ n

theorem stepInto_names {host : Site} {p p' : Path} {n : Str} (hp : Names p) (hn : n ≠ [] ∧ '/' ∉ n)
    (h : stepInto host p n = some p') : Names p' := by
  rw [stepInto] at h
  split at h
  · cases h; exact hp
  · split at h
    · cases h; exact fun m hm ↦ hp m (List.mem_of_mem_dropLast hm)
    · split at h
      · cases h
        intro m hm
        rcases List.mem_append.mp hm with hm | hm
        · exact hp m hm
        · rw [List.mem_singleton.mp hm]
          exact hn
      · cases h

theorem dirAt_spec {c : Call} {s : Str} {p : Path} (h : c.dirAt s = some p) :
    Names p ∧ c.host.isDir p = true := by
  rw [Call.dirAt] at h
  split at h
  · cases h
  · obtain ⟨q, hq, h⟩ := Option.bind_eq_some_iff.mp h
    split at h
    · rename_i hdir
      cases h
      refine ⟨?_, hdir⟩
      have hwalk : ∀ (ns : List Str) (q₀ : Path), (∀ n ∈ ns, n ≠ [] ∧ '/' ∉ n) → Names q₀ →
          ns.foldlM (stepInto c.host) q₀ = some p → Names p := by
        intro ns
        induction ns with
        | nil => rintro q₀ - hq₀ ⟨⟩; exact hq₀
        | cons n ns ih =>
          intro q₀ hns hq₀ h
          rw [List.foldlM_cons] at h
          obtain ⟨q₁, h₁, h⟩ := Option.bind_eq_some_iff.mp h
          exact ih q₁ (fun m hm ↦ hns m (List.mem_cons_of_mem n hm))
            (stepInto_names hq₀ (hns n List.mem_cons_self) h₁) h
      refine hwalk _ _ (fun n hn ↦ mem_components hn) ?_ hq
      split
      · exact fun n hn ↦ by cases hn
      · exact fun n hn ↦ mem_components hn
    · cases h

/-- What is known of an accepted pair. -/
structure Accepted.Ok (c : Call) (a : Accepted) : Prop where
  names : Names a.src
  isDir : c.host.isDir a.src = true
  inside : Inside (components a.dest)

/-- A pair is accepted with a directory and a checked destination, or it is skipped. -/
theorem validatePair_cases {c : Call} {v v' : Plan} {pair : Str}
    (h : c.validatePair v pair = .ok v') :
    (∃ a : Accepted, a.Ok c ∧ v' = { v with accepted := v.accepted ++ [a] }) ∨
      ∃ s : Skipped, v' = { v with skipped := v.skipped ++ [s] } := by
  rw [Call.validatePair] at h
  cases hd : checkDest (afterFirst '=' pair) with
  | error e => rw [hd] at h; cases h
  | ok dest =>
    rw [hd] at h
    simp only [Except.bind, bind] at h
    split at h
    · cases h; exact .inr ⟨_, rfl⟩
    · rename_i p hp
      split at h
      · cases h; exact .inr ⟨_, rfl⟩
      · cases h
        exact .inl ⟨⟨p, dest⟩, ⟨(dirAt_spec hp).1, (dirAt_spec hp).2, checkDest_inside hd⟩, rfl⟩

theorem foldlM_validatePair_ok {c : Call} {pairs : List Str} {v v' : Plan}
    (hv : ∀ a ∈ v.accepted, a.Ok c) (h : pairs.foldlM c.validatePair v = .ok v') :
    ∀ a ∈ v'.accepted, a.Ok c := by
  induction pairs generalizing v with
  | nil => cases h; exact hv
  | cons p ps ih =>
    rw [List.foldlM_cons] at h
    cases h₁ : c.validatePair v p with
    | error e => rw [h₁] at h; cases h
    | ok v₁ =>
      rw [h₁] at h
      refine ih ?_ h
      rcases validatePair_cases h₁ with ⟨a, ha, rfl⟩ | ⟨s, rfl⟩
      · intro b hb
        rcases List.mem_append.mp hb with hb | hb
        · exact hv b hb
        · rw [List.mem_singleton.mp hb]
          exact ha
      · exact hv

theorem plan_ok {c : Call} {v : Plan} (h : c.plan = .ok v) : ∀ a ∈ v.accepted, a.Ok c := by
  rw [Call.plan] at h
  cases ho : parseArgs {} c.args with
  | error e => rw [ho] at h; cases h
  | ok o =>
    rw [ho] at h
    simp only [Except.bind, bind] at h
    split at h
    · cases h
    · split at h
      · cases h
      · rename_i v₀ hv₀
        split at h
        · cases h
        · split at h
          · cases h
          · split at h
            · cases h
            · cases h
              show ∀ a ∈ v₀.accepted, a.Ok c
              exact foldlM_validatePair_ok (v := { opts := o }) (fun a ha ↦ by cases ha) hv₀

/-! ## What a call does -/

/-- The two halves `apply_changes` takes an entry apart into: where the files come from, and the
destination. -/
def target (entry : Str) : Path × Str := (components (beforeFirst '=' entry), afterFirst '=' entry)

/-- What was asked for: the removals, and then every accepted destination replaced with what is in
the directory of its own pair. -/
def Plan.asked (E : Env) (v : Plan) (c : Call) (t : Site) : Option Site :=
  v.accepted.foldlM (fun t a ↦ do
    let u ← replace t (components a.dest) (c.host.sub a.src)
    finish E (v.request c) a.dest t u) (v.removes.foldl remove t)

/-- A path nobody asked to change. -/
structure Plan.Spares (v : Plan) (q : Path) : Prop where
  accepted : ∀ a ∈ v.accepted, ¬components a.dest <+: q
  removes : ∀ d ∈ v.removes, ¬components d <+: q
  keys : ¬[keysName] <+: q
  nojekyll : q ≠ [nojekyllName]
  index : q.getLast? ≠ some indexName

/-- The call does exactly what it was asked to. -/
structure Plan.Exact (E : Env) (v : Plan) (c : Call) : Prop where
  /-- What `apply_changes` deletes and rewrites are the accepted destinations, each with the source
  of its own pair. -/
  targets : (v.request c).accepted.map target = v.accepted.map fun a ↦ (a.src, a.dest)
  /-- Each of them is filled from that source. -/
  filled : ∀ t, applyDests E (v.request c) t = v.asked E c t
  /-- All of them lie strictly inside of the site. -/
  inside : ∀ p ∈ (v.request c).accepted, Inside (destOf p)
  /-- A skipped destination keeps its files. -/
  skipped : ∀ t t', applyChanges E (v.request c) t = some t' → ∀ s ∈ v.skipped,
    ∀ q, components s.dest <+: q → v.Spares q →
      ∀ x, t'.get q = some (.file x) ↔ t.get q = some (.file x)
  /-- So does every other path. -/
  frame : ∀ t t', applyChanges E (v.request c) t = some t' → ∀ q, v.Spares q →
    ∀ x, t'.get q = some (.file x) ↔ t.get q = some (.file x)

/-- The absolute path of the source survives being written down and taken apart. -/
def Accepted.Splits (a : Accepted) : Prop :=
  '=' ∉ absPath a.src ∧ (absPath a.src).getLast? ≠ some '\n'

theorem target_entry {a : Accepted} (hn : Names a.src) (ha : a.Splits) :
    target a.entry = (a.src, a.dest) := by
  rw [target, Accepted.entry, captured_eq_self ha.2, beforeFirst_append ha.1,
    afterFirst_append ha.1, components_absPath hn]

/-- A separator in the path moves the cut, a newline at its end is lost. -/
theorem splits_of_target_entry {a : Accepted} (hn : Names a.src)
    (h : target a.entry = (a.src, a.dest)) : a.Splits := by
  rw [target, Prod.mk.injEq] at h
  obtain ⟨hsrc, hdest⟩ := h
  have heq : '=' ∉ captured (absPath a.src) := afterFirst_append_iff.mp hdest
  rw [Accepted.entry, beforeFirst_append heq] at hsrc
  obtain ⟨n, hcap⟩ := eq_captured_append (absPath a.src)
  have hn0 : n = 0 := by
    have hflat := congrArg (fun p ↦ (List.flatten p).length)
      (hsrc.trans (components_absPath hn).symm)
    have hnl : (List.replicate n '\n').filter (· ≠ '/') = List.replicate n '\n' := by
      rw [List.filter_eq_self]
      intro x hx
      rw [List.eq_of_mem_replicate hx]
      decide
    simp only [components_flatten] at hflat
    rw [hcap, List.filter_append, List.length_append, ← hcap, hnl, List.length_replicate] at hflat
    omega
  rw [hn0, List.replicate_zero, List.append_nil] at hcap
  refine ⟨by rw [hcap]; exact heq, ?_⟩
  rw [hcap]
  exact captured_getLast? _

theorem publish_entry {E : Env} {c : Call} {v : Plan} {a : Accepted} (ha : a.Ok c)
    (hs : a.Splits) (t : Site) :
    publish E (v.request c) t a.entry = (do
      let u ← replace t (components a.dest) (c.host.sub a.src)
      finish E (v.request c) a.dest t u) := by
  have ht := target_entry ha.names hs
  rw [target, Prod.mk.injEq] at ht
  rw [publish, publishTo, ht.2]
  simp only [Plan.request, ht.1, ha.isDir]
  rfl

/-- **Exactly when a call replaces what it was asked to.**  Whatever the arguments and wherever the
script is started: if and only if no accepted source has an equals sign in its absolute path or a
newline at its end. -/
theorem exact_iff (E : Env) (c : Call) {v : Plan} (h : c.plan = .ok v) :
    v.Exact E c ↔ ∀ a ∈ v.accepted, a.Splits := by
  have hok := plan_ok h
  constructor
  · intro hx a ha
    have htargets := hx.targets
    rw [Plan.request, List.map_map] at htargets
    exact splits_of_target_entry (hok a ha).names (List.map_inj_left.mp htargets a ha)
  · intro hs
    have htarget : ∀ a ∈ v.accepted, target a.entry = (a.src, a.dest) := fun a ha ↦
      target_entry (hok a ha).names (hs a ha)
    have hdest : ∀ a ∈ v.accepted, destOf a.entry = components a.dest := fun a ha ↦
      congrArg (fun x : Path × Str ↦ components x.2) (htarget a ha)
    have hframe : ∀ t t', applyChanges E (v.request c) t = some t' → ∀ q, v.Spares q →
        ∀ x, t'.get q = some (.file x) ↔ t.get q = some (.file x) := by
      intro t t' happ q hq x
      refine applyChanges_file_iff happ ⟨hq.removes, ?_, fun _ ↦ hq.keys, hq.nojekyll, hq.index⟩ x
      intro p hp
      obtain ⟨a, ha, rfl⟩ := List.mem_map.mp hp
      rw [hdest a ha]
      exact hq.accepted a ha
    refine ⟨?_, ?_, ?_, fun t t' happ _ _ q _ hq x ↦ hframe t t' happ q hq x, hframe⟩
    · rw [Plan.request, List.map_map]
      exact List.map_congr_left htarget
    · intro t
      rw [applyDests, Plan.asked]
      show (v.accepted.map Accepted.entry).foldlM _ _ = _
      rw [List.foldlM_map]
      exact foldlM_congr _ fun u a ha ↦ publish_entry (hok a ha) (hs a ha) u
    · intro p hp
      obtain ⟨a, ha, rfl⟩ := List.mem_map.mp hp
      rw [hdest a ha]
      exact (hok a ha).inside

/-! ### Started from two directories -/

/-- A build of one tree in `out`, published from `cwd`. -/
def treeCall (cwd : Str) : Call where
  host :=
    (((Tree.empty : Site).mkdirs (components cwd ++ ["out".toList])).bind fun t ↦
      t.write (components cwd ++ ["out".toList, adbName]) (.bytes ['x'])).getD Tree.empty
  cwd := cwd
  args := ["-m".toList, "packages".toList, "out=main/25.12/x86_64".toList]
  privateKey := []
  allowUnsigned := []
  remote := "/srv/feed.git".toList
  repository := []
  shas := ["c0ffee".toList]
  runs := []
  now := "2026-10-05T10:00:00Z".toList

/-- The plan of such a call, with the directory it finds. -/
def treePlan (src : Path) : Plan where
  opts := { msg := "packages".toList, pairs := ["out=main/25.12/x86_64".toList] }
  accepted := [⟨src, "main/25.12/x86_64".toList⟩]

theorem exact_iff_home :
    (treeCall "/home/ci".toList).plan =
        .ok (treePlan ["home".toList, "ci".toList, "out".toList]) ∧
      (treePlan ["home".toList, "ci".toList, "out".toList]).Exact sampleEnv
        (treeCall "/home/ci".toList) := by
  have h : (treeCall "/home/ci".toList).plan =
      .ok (treePlan ["home".toList, "ci".toList, "out".toList]) := by rfl
  refine ⟨h, (exact_iff sampleEnv _ h).mpr ?_⟩
  intro a ha
  rw [List.mem_singleton.mp ha]
  exact ⟨by decide, by decide⟩

/-- Started from `/tmp/a=b`, the same call deletes `b/out=main/25.12/x86_64` and fills it with what
is in `/tmp/a`. -/
theorem exact_fails_for_equals_sign :
    (treeCall "/tmp/a=b".toList).plan =
        .ok (treePlan ["tmp".toList, "a=b".toList, "out".toList]) ∧
      ((treePlan ["tmp".toList, "a=b".toList, "out".toList]).request
          (treeCall "/tmp/a=b".toList)).accepted.map target =
        [(["tmp".toList, "a".toList], "b/out=main/25.12/x86_64".toList)] ∧
      ¬(treePlan ["tmp".toList, "a=b".toList, "out".toList]).Exact sampleEnv
        (treeCall "/tmp/a=b".toList) := by
  refine ⟨by rfl, by rfl, fun hx ↦ ?_⟩
  have h := hx.targets
  revert h
  decide

end OpenwrtFeed
