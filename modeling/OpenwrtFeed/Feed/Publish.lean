import OpenwrtFeed.Pages.Request

/-!
# What the workflows publish

`publish-pages.sh` is told what goes where; this file is about those who tell it.
`publish-feed.sh` publishes the package trees of a build: it finds every `<release>/<arch>` with an
index in it and turns each into a pair for the channel of the build, for `stable` also into one for
the mirror `<release>/<arch>` that was there before there were channels.  The image workflow
publishes what its artifacts hold below `images/`.

`Job.request` is the whole way from either of them to what `apply_changes` works with.

The second half is about the destinations that come out at its end.  A source with an equals sign
in its path is cut in the wrong place (see `OpenwrtFeed.Pages.Request`), but what it is then
published as still has that equals sign in it, and not in its last component: such a destination
(`Odd`) is neither a tree of packages nor above one.  All others are the ones that were meant
(`accept_dest`).
-/

set_option autoImplicit false

namespace OpenwrtFeed

open Shell DirTree

/-! ## Arguments -/

/-- The variables the arguments of `publish-feed.sh` are read into. -/
structure FeedOptions where
  dir : Str := []
  channel : Str := []
  sha : Str := []
  run : Str := []
  tag : Str := []
  force : Bool := false
  deriving DecidableEq

def mainName : Str := "main".toList
def stableName : Str := "stable".toList
def imagesName : Str := "images".toList

def feedDie {α : Type} (msg : Str) : Except Exit α :=
  .error (.die ("publish-feed: ".toList ++ msg))

def isDigit (c : Char) : Bool := decide ('0' ≤ c) && decide (c ≤ '9')

/-- A line that matches `RELEASE_TAG_RE`: `20YY.MM.DD` or `20YY.MM.DD.N`. -/
def isReleaseTag : Str → Bool
  | '2' :: '0' :: y₁ :: y₂ :: '.' :: m₁ :: m₂ :: '.' :: d₁ :: d₂ :: rest =>
    [y₁, y₂, m₁, m₂, d₁, d₂].all isDigit &&
      match rest with
      | [] => true
      | '.' :: n => n ≠ [] && n.all isDigit
      | _ => false
  | _ => false

/-- `--dir` and the options that go with it. -/
def FeedOptions.withArg (o : FeedOptions) (a v : Str) : Except Exit FeedOptions :=
  if a = "--dir".toList then .ok { o with dir := v }
  else if a = "--channel".toList then .ok { o with channel := v }
  else if a = "--sha".toList then .ok { o with sha := v }
  else if a = "--run".toList then .ok { o with run := v }
  else if a = "--tag".toList then .ok { o with tag := v }
  else feedDie ("unknown argument ".toList ++ a)

/-- The loop over the arguments of the form that starts with `--dir`. -/
def FeedOptions.dirArgs : FeedOptions → List Str → Except Exit FeedOptions
  | o, [] => .ok o
  | o, [a] =>
    if a = "--force".toList then .ok { o with force := true }
    else feedDie (a ++ " needs an argument".toList)
  | o, a :: v :: rest =>
    if a = "--force".toList then dirArgs { o with force := true } (v :: rest)
    else o.withArg a v >>= fun o ↦ dirArgs o rest

/-- What `gh` knows about the runs of the repository. -/
structure Gh where
  /-- Name, branch and commit of a run. -/
  info : Str → Option (Str × Str × Str)
  /-- Every run has a commit. -/
  commit : ∀ run x, info run = some x → x.2.2 ≠ []
  /-- The directory its artifacts have been downloaded to. -/
  download : Str → Option Str

/-- One call of `publish-feed.sh`. -/
structure FeedCall where
  /-- Where and with what it is started. -/
  machine : Call
  /-- `$0` -/
  self : Str
  /-- The checkout the script is part of. -/
  root : Str
  /-- `KEEP_VERSIONS` -/
  keepVersions : Str
  /-- `gh`, if it is installed. -/
  gh : Option Gh

/-- The first form: channel, commit and artifacts of a finished run. -/
def FeedCall.runForm (c : FeedCall) (run : Str) (rest : List Str) : Except Exit FeedOptions :=
  if rest.any (· ≠ "--force".toList) then
    feedDie ("usage: ".toList ++ c.self ++ " <run-id> [--force]".toList)
  else match c.gh with
    | none => feedDie ("the gh CLI is needed to fetch run ".toList ++ run)
    | some gh => match gh.info run with
      | none => feedDie ("run ".toList ++ run ++ " not found in ".toList ++
          orElse [c.machine.repository] "ddimension/openwrt-repo".toList)
      | some (name, branch, sha) =>
        if name ≠ "build".toList then
          feedDie ("run ".toList ++ run ++ " is a ".toList ++ quoted name ++
            " run, not a feed build".toList)
        else
          let o : FeedOptions :=
            { channel := branch, sha := sha, run := run, force := !rest.isEmpty }
          let tagged := (lines branch).any isReleaseTag
          if !tagged && branch = stableName then
            feedDie ("run ".toList ++ run ++
              " built the stable branch, which publishes nothing — ".toList
              ++ "release a tag (scripts/release-stable.sh)".toList)
          else match gh.download run with
            | none => feedDie ("no repo-* artifacts on run ".toList ++ run ++
                " (they expire after 30 days)".toList)
            | some dir => .ok <|
                if tagged then { o with dir := dir, tag := branch, channel := stableName }
                else { o with dir := dir }

/-- The second form: everything is in the arguments. -/
def FeedCall.dirForm (c : FeedCall) (args : List Str) : Except Exit FeedOptions := do
  let o ← FeedOptions.dirArgs {} args
  if o.dir = [] ∨ o.channel = [] ∨ o.sha = [] then feedDie "--dir needs --channel and --sha".toList
  else if c.machine.dirAt o.dir = none then feedDie (o.dir ++ " is not a directory".toList)
  else .ok o

/-- What has to be true of the options whatever the remote says. -/
def FeedOptions.check (o : FeedOptions) : Except Exit FeedOptions :=
  if o.channel ≠ mainName ∧ o.channel ≠ stableName then
    feedDie (quoted o.channel ++ " is not a channel (main or stable)".toList)
  else if o.channel = stableName ∧ o.tag = [] then
    feedDie ("stable publishes only from a release tag (--tag); ".toList ++
      "a stable branch build publishes nothing".toList)
  else if o.channel = stableName ∧ (lines o.tag).any isReleaseTag = false then
    feedDie (quoted o.tag ++ " is not a release tag (YYYY.MM.DD[.N])".toList)
  else .ok o

/-- The arguments of a call, in either form. -/
def FeedCall.read (c : FeedCall) : Except Exit FeedOptions :=
  let usage := feedDie ("usage: ".toList ++ c.self ++
    " <run-id> | --dir DIR --channel C --sha SHA [--run ID]".toList)
  match c.machine.args with
  | a :: rest =>
    if a = "--dir".toList then c.dirForm (a :: rest)
    else if a.head?.any isDigit then c.runForm a rest
    else usage
  | [] => usage

/-- The arguments of a call, read and checked. -/
def FeedCall.options (c : FeedCall) : Except Exit FeedOptions := c.read >>= FeedOptions.check

/-! ## Trees and pairs -/

/-- What `find dir` prints for the path `q` below `dir`. -/
def findName (dir : Str) (q : Path) : Str :=
  if q = [] then dir
  else (if dir.getLast? = some '/' then dir else dir ++ ['/']) ++ ['/'].intercalate q

/-- `find` takes this for the beginning of an expression. -/
def isExpression (s : Str) : Bool := s = ['('] || s = ['!'] || (s.head? = some '-' && s ≠ ['-'])

/-- `find dir … | sort`, line by line, for the tests `test`. -/
def Call.findLines (c : Call) (dir : Str) (test : Site → Path → Bool) : List Str :=
  match c.dirAt dir with
  | none => []
  | some p =>
    if isExpression dir then []
    else
      let t := c.host.sub p
      let found := (sorted (t.dom.filter fun q ↦ test t q)).flatMap fun q ↦
        (findName dir q).splitOn '\n'
      found.insertionSort (· ≤ ·)

/-- `find "$DIR" -name packages.adb | sort` -/
def Call.adbs (c : Call) (dir : Str) : List Str :=
  c.findLines dir fun _ q ↦ (if q = [] then afterLast '/' dir else q.getLastD []) = adbName

/-- `find "$DIR/tools" -mindepth 1 -maxdepth 1 -type d | sort` -/
def Call.toolDirs (c : Call) (dir : Str) : List Str :=
  c.findLines (dir ++ '/' :: toolsName) fun t q ↦ q.length = 1 && t.isDir q

/-- The directory an index was found in. -/
def adbDir (adb : Str) : Str := stripSuffix "/packages.adb".toList adb

/-- `arch` -/
def archOf (d : Str) : Str := afterLast '/' d

/-- `rel` -/
def relOf (d : Str) : Str := afterLast '/' (beforeLast '/' d)

/-- The pairs of one tree. -/
def treePairs (channel d : Str) : List Str :=
  (d ++ '=' :: (channel ++ '/' :: (relOf d ++ '/' :: archOf d))) ::
    if channel = stableName then [d ++ '=' :: (relOf d ++ '/' :: archOf d)] else []

/-- The pair of one directory of host tools. -/
def toolPair (channel td : Str) : Str :=
  td ++ '=' :: (toolsName ++ '/' :: (channel ++ '/' :: afterLast '/' td))

/-- The trees of a build. -/
def FeedCall.trees (c : FeedCall) (o : FeedOptions) : List Str :=
  (c.machine.adbs o.dir).map adbDir

/-- `pairs` -/
def FeedCall.pairs (c : FeedCall) (o : FeedOptions) : List Str :=
  (c.trees o).flatMap (treePairs o.channel) ++
    (c.machine.toolDirs o.dir).map (toolPair o.channel)

/-- `${x:+…}` -/
def ifSet (x text : Str) : Str := if x = [] then [] else text

/-- The call of `publish-pages.sh`. -/
def FeedCall.pages (c : FeedCall) (o : FeedOptions) : Call :=
  let n := orElse [c.keepVersions] "10".toList
  { c.machine with
    args := ["-m".toList, "packages (".toList ++ o.channel ++ ") @ ".toList ++ o.sha ++
          ifSet o.run (" (run ".toList ++ o.run ++ ")".toList),
        "--channel".toList, o.channel, "--keys".toList, c.root ++ "/keys".toList,
        "--keep".toList, "main/*=".toList ++ n, "--keep".toList, "stable/*=".toList ++ n] ++
      c.pairs o
    repository := orElse [c.machine.repository] "ddimension/openwrt-repo".toList
    shas := o.sha :: c.machine.shas.tail
    runs := orElse (o.run :: c.machine.runs.tail) "local".toList :: c.machine.runs.tail }

/-- The step of the image workflow that publishes. -/
structure ImageCall where
  machine : Call
  /-- The names of the artifacts below `dl`. -/
  artifacts : List Str
  /-- `FEED_CHANNEL` -/
  feedChannel : Str

def groupOf (artifact : Str) : Str := beforeLast '-' (stripPrefix "images-".toList artifact)
def baseOf (artifact : Str) : Str := afterLast '-' (stripPrefix "images-".toList artifact)

/-- The pair of one artifact. -/
def imagePair (artifact : Str) : Str :=
  ("staging".toList ++ '/' :: (groupOf artifact ++ '/' :: baseOf artifact)) ++
    '=' :: (imagesName ++ '/' :: (groupOf artifact ++ '/' :: baseOf artifact))

/-- Its call of `publish-pages.sh`. -/
def ImageCall.pages (c : ImageCall) : Call :=
  { c.machine with
    args := ["-m".toList, "images @ ".toList ++ c.machine.shas.headD [] ++ " (".toList ++
        c.feedChannel ++ ")".toList, "--channel".toList, c.feedChannel] ++
      c.artifacts.map imagePair }

/-- Whoever publishes. -/
inductive Job
  | feed (c : FeedCall) (o : FeedOptions) (h : c.options = .ok o)
  | images (c : ImageCall)

/-- Its call of `publish-pages.sh`. -/
def Job.pages : Job → Call
  | .feed c o _ => c.pages o
  | .images c => c.pages

/-- The pairs it passes on. -/
def Job.pairs : Job → List Str
  | .feed c o _ => c.pairs o
  | .images c => c.artifacts.map imagePair

/-- What comes of it; nothing if there are no pairs. -/
def Job.request (j : Job) : Except Exit Request :=
  match j, j.pairs with
  | .feed _ o _, [] =>
    feedDie ("no package trees (<release>/<arch>/packages.adb) under ".toList ++ o.dir)
  | .images _, [] => .error .nothing
  | _, _ :: _ => j.pages.request

/-! ## What is accepted -/

/-- What the validation makes of one pair. -/
def Call.accept (c : Call) (pair : Str) : Option Accepted :=
  match checkDest (afterFirst '=' pair), c.dirAt (beforeFirst '=' pair) with
  | .ok dest, some p =>
    if c.guard (beforeFirst '=' pair) p dest = none then some ⟨p, dest⟩ else none
  | _, _ => none

theorem accept_eq_some {c : Call} {pair : Str} {a : Accepted} :
    c.accept pair = some a ↔ checkDest (afterFirst '=' pair) = .ok a.dest ∧
      c.dirAt (beforeFirst '=' pair) = some a.src ∧
      c.guard (beforeFirst '=' pair) a.src a.dest = none := by
  rw [Call.accept]
  constructor
  · intro h
    split at h
    · rename_i dest p hdest hp
      split at h
      · rename_i hg
        cases h
        exact ⟨hdest, hp, hg⟩
      · cases h
    · cases h
  · rintro ⟨hdest, hp, hg⟩
    rw [hdest, hp]
    simp only
    rw [if_pos hg]

theorem validatePair_accept {c : Call} {v v' : Plan} {pair : Str}
    (h : c.validatePair v pair = .ok v') :
    v'.accepted = v.accepted ++ (c.accept pair).toList ∧ v'.opts = v.opts ∧
      ∃ d, checkDest (afterFirst '=' pair) = .ok d := by
  rw [Call.validatePair] at h
  rw [Call.accept]
  cases hd : checkDest (afterFirst '=' pair) with
  | error e => rw [hd] at h; cases h
  | ok dest =>
    rw [hd] at h
    simp only [Except.bind, bind] at h
    cases hp : c.dirAt (beforeFirst '=' pair) with
    | none => rw [hp] at h; cases h; simp
    | some p =>
      rw [hp] at h
      simp only at h
      cases hg : c.guard (beforeFirst '=' pair) p dest with
      | none => rw [hg] at h; cases h; simp [hg]
      | some missing => rw [hg] at h; cases h; simp [hg]

theorem foldlM_validatePair_accept {c : Call} {pairs : List Str} {v v' : Plan}
    (h : pairs.foldlM c.validatePair v = .ok v') :
    v'.accepted = v.accepted ++ pairs.filterMap c.accept ∧ v'.opts = v.opts ∧
      ∀ p ∈ pairs, ∃ d, checkDest (afterFirst '=' p) = .ok d := by
  induction pairs generalizing v with
  | nil => cases h; simp
  | cons p ps ih =>
    rw [List.foldlM_cons] at h
    cases h₁ : c.validatePair v p with
    | error e => rw [h₁] at h; cases h
    | ok v₁ =>
      rw [h₁] at h
      obtain ⟨hacc, hopts, hd⟩ := validatePair_accept h₁
      obtain ⟨hacc', hopts', hds⟩ := ih h
      refine ⟨?_, hopts'.trans hopts, List.forall_mem_cons.mpr ⟨hd, hds⟩⟩
      rw [hacc', hacc, List.append_assoc, List.filterMap_cons]
      cases c.accept p <;> rfl

/-- The parts of a call that passed validation. -/
structure Call.Planned (c : Call) (v : Plan) : Prop where
  opts : parseArgs {} c.args = .ok v.opts
  accepted : v.accepted = v.opts.pairs.filterMap c.accept
  checked : ∀ p ∈ v.opts.pairs, ∃ d, checkDest (afterFirst '=' p) = .ok d
  removes : v.opts.removes.mapM checkDest = .ok v.removes

theorem planned_of_plan {c : Call} {v : Plan} (h : c.plan = .ok v) : c.Planned v := by
  rw [Call.plan] at h
  cases ho : parseArgs {} c.args with
  | error e => rw [ho] at h; cases h
  | ok o =>
    rw [ho] at h
    simp only [Except.bind, bind] at h
    split at h
    · cases h
    · cases hv : o.pairs.foldlM c.validatePair { opts := o } with
      | error e => rw [hv] at h; cases h
      | ok v₀ =>
        cases hr : o.removes.mapM checkDest with
        | error e => rw [hv, hr] at h; cases h
        | ok removes =>
          rw [hv, hr] at h
          simp only at h
          split at h
          · cases h
          · split at h
            · cases h
            · cases h
              obtain ⟨hacc, hopts, hds⟩ := foldlM_validatePair_accept hv
              have hopts : v₀.opts = o := hopts
              refine ⟨ho.trans (by rw [hopts]), ?_, ?_, ?_⟩
              · rw [hopts]; exact hacc
              · rw [hopts]; exact hds
              · rw [hopts]; exact hr

/-- Words with an equals sign are pairs, all of them. -/
theorem parseArgs_pairs {o o' : Options} {ws : List Str} (hws : ∀ w ∈ ws, '=' ∈ w)
    (h : parseArgs o ws = .ok o') : o' = { o with pairs := o.pairs ++ ws } := by
  have hnone : ∀ (o : Options) (w : Str), '=' ∈ w → o.withArg w = none := by
    intro o w hw
    have hne : ∀ s : Str, '=' ∉ s → w ≠ s := fun s hs hc ↦ hs (hc ▸ hw)
    rw [Options.withArg, if_neg (hne _ (by decide)), if_neg (hne _ (by decide)),
      if_neg (hne _ (by decide)), if_neg (hne _ (by decide)), if_neg (hne _ (by decide))]
  have hword : ∀ {o o' : Options} {w : Str}, '=' ∈ w → o.word w = .ok o' →
      o' = { o with pairs := o.pairs ++ [w] } := by
    intro o o' w hw h
    rw [Options.word] at h
    split at h
    · cases h
    · split at h
      · cases h
      · cases h
        rfl
  induction ws generalizing o with
  | nil => rw [parseArgs] at h; cases h; simp
  | cons w ws ih =>
    have hw := hws w List.mem_cons_self
    cases ws with
    | nil =>
      rw [parseArgs, hnone o w hw] at h
      exact hword hw h
    | cons w' ws =>
      rw [parseArgs, hnone o w hw] at h
      simp only at h
      cases h₁ : o.word w with
      | error e => rw [h₁] at h; cases h
      | ok o₁ =>
        rw [h₁] at h
        rw [ih (fun x hx ↦ hws x (List.mem_cons_of_mem w hx)) h, hword hw h₁]
        simp

/-- A number that `--keep` takes has no equals sign in it. -/
theorem keep_ok {o o' : Options} {pat n : Str} (h : o.keep (pat ++ '=' :: n) = .ok o') :
    o' = { o with keepRules := o.keepRules ++ [pat ++ '=' :: n] } ∧ '=' ∉ n := by
  rw [Options.keep] at h
  split at h
  · cases h
  · rename_i hbad
    split at h
    · cases h
      refine ⟨rfl, fun hn ↦ hbad ?_⟩
      obtain ⟨x, y, rfl⟩ := List.append_of_mem hn
      have hparse : Glob.parse "*=*[!0-9]*".toList =
          [.any, .lit '=', .any, .set true [('0', '9')], .any] := by decide
      rw [Bool.or_eq_true]
      refine .inl ?_
      rw [hparse, Glob.accepts_any]
      refine ⟨'=' :: (x ++ '=' :: y), List.suffix_append pat _, ?_⟩
      rw [Glob.accepts, beq_self_eq_true, Bool.true_and, Glob.accepts_any]
      refine ⟨'=' :: y, List.suffix_append x _, ?_⟩
      have hdigit : ([('0', '9')].any (fun r : Char × Char ↦
          decide (r.1 ≤ '=') && decide ('=' ≤ r.2)) != true) = true := by decide
      rw [Glob.accepts, hdigit, Bool.true_and]
      exact (Glob.accepts_any [] y).mpr ⟨[], List.nil_suffix, rfl⟩
    · cases h

theorem keepRule_fst {pat n : Str} (hn : '=' ∉ n) : (keepRule (pat ++ '=' :: n)).1 = pat :=
  beforeLast_append hn pat

/-- What the arguments of a job amount to. -/
structure Job.Reads (j : Job) (o : Options) : Prop where
  pairs : o.pairs = j.pairs
  removes : o.removes = []
  /-- Only trees below `main/` and `stable/` keep old versions. -/
  keepRules : ∀ r ∈ o.keepRules.map keepRule, r.1 = "main/*".toList ∨ r.1 = "stable/*".toList

theorem mem_pairs {j : Job} {p : Str} (h : p ∈ j.pairs) : '=' ∈ p := by
  have hmem : ∀ d y : Str, '=' ∈ d ++ '=' :: y := fun d y ↦
    List.mem_append_right d List.mem_cons_self
  cases j with
  | feed c o ho =>
    rcases List.mem_append.mp h with h | h
    · obtain ⟨d, -, h⟩ := List.mem_flatMap.mp h
      rw [treePairs] at h
      rcases List.mem_cons.mp h with rfl | h
      · exact hmem _ _
      · split at h
        · rw [List.mem_singleton.mp h]
          exact hmem _ _
        · cases h
    · obtain ⟨td, -, rfl⟩ := List.mem_map.mp h
      exact hmem _ _
  | images c =>
    obtain ⟨art, -, rfl⟩ := List.mem_map.mp h
    exact hmem _ _

/-- An option that only stores its argument. -/
theorem parseArgs_option {o : Options} {a v : Str} {rest : List Str} {f : Str → Options}
    (h : o.withArg a = some fun v ↦ .ok (f v)) :
    parseArgs o (a :: v :: rest) = parseArgs (f v) rest := by
  rw [parseArgs, h]
  rfl

theorem parseArgs_keep {o o' : Options} {p n : Str} {rest : List Str}
    (h : parseArgs o ("--keep".toList :: (p ++ '=' :: n) :: rest) = .ok o') :
    parseArgs { o with keepRules := o.keepRules ++ [p ++ '=' :: n] } rest = .ok o' ∧ '=' ∉ n := by
  have harg : o.withArg "--keep".toList = some o.keep := rfl
  rw [parseArgs, harg] at h
  cases hk : o.keep (p ++ '=' :: n) with
  | error e => simp only [hk] at h; cases h
  | ok o₁ =>
    simp only [hk] at h
    obtain ⟨rfl, hn⟩ := keep_ok hk
    exact ⟨h, hn⟩

theorem job_reads {j : Job} {o : Options} (h : parseArgs {} j.pages.args = .ok o) : j.Reads o := by
  have hws : ∀ w ∈ j.pairs, '=' ∈ w := fun w hw ↦ mem_pairs hw
  cases j with
  | feed c f hf =>
    simp only [Job.pages, FeedCall.pages, List.cons_append, List.nil_append] at h
    generalize orElse [c.keepVersions] "10".toList = n at h
    rw [parseArgs_option (f := fun v ↦ { msg := v }) rfl,
      parseArgs_option (f := fun v ↦ { msg := _, channel := v }) rfl,
      parseArgs_option (f := fun v ↦ { msg := _, channel := _, keys := v }) rfl] at h
    obtain ⟨h, -⟩ := parseArgs_keep (p := "main/*".toList) h
    obtain ⟨h, hn⟩ := parseArgs_keep (p := "stable/*".toList) h
    rw [parseArgs_pairs hws h]
    refine ⟨rfl, rfl, fun r hr ↦ ?_⟩
    rcases List.mem_cons.mp hr with rfl | hr
    · exact .inl (keepRule_fst hn)
    · rw [List.mem_singleton.mp hr]
      exact .inr (keepRule_fst hn)
  | images c =>
    simp only [Job.pages, ImageCall.pages, List.cons_append, List.nil_append] at h
    rw [parseArgs_option (f := fun v ↦ { msg := v }) rfl,
      parseArgs_option (f := fun v ↦ { msg := _, channel := v }) rfl] at h
    rw [parseArgs_pairs hws h]
    exact ⟨rfl, rfl, fun r hr ↦ by cases hr⟩

/-! ## Destinations -/

/-- A destination that a source with an equals sign in its path has left its mark on. -/
def Odd (d : Path) : Prop := ∃ x ∈ d.dropLast, '=' ∈ x

/-- Such a destination is not above a file of a directory without equals signs. -/
theorem Odd.not_above {d e : Path} (h : Odd d) (he : ∀ x ∈ e, '=' ∉ x) (n : Str) :
    ¬d <+: e ++ [n] := by
  rintro hpre
  obtain ⟨x, hx, heq⟩ := h
  have hlen : d.dropLast.length ≤ e.length := by
    have := hpre.length_le
    rw [List.length_append, List.length_singleton] at this
    rw [List.length_dropLast]
    omega
  have hpre' : d.dropLast <+: e :=
    List.prefix_of_prefix_length_le ((List.dropLast_prefix d).trans hpre)
      (List.prefix_append e [n]) hlen
  exact he x (hpre'.subset hx) heq

theorem odd_components {u v : Str} (hu : '=' ∈ u) (hv : components v ≠ []) :
    Odd (components (u ++ '/' :: v)) := by
  obtain ⟨x, hx, heq⟩ := exists_mem_components (by decide) hu
  refine ⟨x, ?_, heq⟩
  rw [components_slash, List.dropLast_append_of_ne_nil hv]
  exact List.mem_append_left _ hx

theorem checkDest_eq {s d : Str} (h : checkDest s = .ok d) :
    d = stripSuffix ['/'] (stripPrefix ['.', '/'] s) := by
  rw [checkDest] at h
  split at h
  · cases h
  · split at h
    · cases h
    · cases h; rfl

/-- What stands before an equals sign keeps it, whatever is cut off at the front. -/
theorem stripPrefix_dot_append (z y : Str) :
    ∃ z', stripPrefix ['.', '/'] (z ++ '=' :: y) = z' ++ '=' :: y := by
  rw [stripPrefix]
  split
  · rename_i h
    rcases z with _ | ⟨a, _ | ⟨b, z⟩⟩
    · simp at h
    · simp at h
    · exact ⟨z, rfl⟩
  · exact ⟨z, rfl⟩

/-- The destination the check lets through, with what the first split puts in front of it. -/
theorem checkDest_pair {d u v dest : Str} (hdot : ¬['.', '/'] <+: u ++ '/' :: v)
    (h : checkDest (afterFirst '=' (d ++ '=' :: (u ++ '/' :: v))) = .ok dest) :
    ∃ w, ('=' ∉ d ∧ w = [] ∨ '=' ∈ w) ∧ dest = stripSuffix ['/'] (w ++ (u ++ '/' :: v)) := by
  rw [checkDest_eq h]
  by_cases hd : '=' ∈ d
  · rw [afterFirst_append_of_mem hd]
    obtain ⟨z, hz⟩ := stripPrefix_dot_append (afterFirst '=' d) (u ++ '/' :: v)
    exact ⟨z ++ ['='], .inr (by simp), by rw [hz]; simp⟩
  · refine ⟨[], .inl ⟨hd, rfl⟩, ?_⟩
    rw [afterFirst_append hd, stripPrefix, if_neg hdot]
    rfl

/-- **Where an accepted pair goes.**  To the destination it was given, unless an equals sign in the
path of the source comes first. -/
theorem accept_dest {c : Call} {d u v : Str} {a : Accepted}
    (hdot : ¬['.', '/'] <+: u ++ '/' :: v) (h : c.accept (d ++ '=' :: (u ++ '/' :: v)) = some a) :
    (∃ w, '=' ∈ w ∧ destOf a.entry = components (w ++ (u ++ '/' :: v))) ∨
      '=' ∉ d ∧ '=' ∉ captured (absPath a.src) ∧ a.dest = stripSuffix ['/'] (u ++ '/' :: v) ∧
        destOf a.entry = components (u ++ '/' :: v) := by
  obtain ⟨hcheck, -, -⟩ := accept_eq_some.mp h
  obtain ⟨w, hw, hdest⟩ := checkDest_pair hdot hcheck
  rw [destOf, Accepted.entry]
  by_cases hA : '=' ∈ captured (absPath a.src)
  · refine .inl ⟨afterFirst '=' (captured (absPath a.src)) ++ ['='] ++ w, by simp, ?_⟩
    rw [afterFirst_append_of_mem hA, hdest, ← List.singleton_append, ← List.append_assoc,
      components_append_stripSlash, ← List.append_assoc]
  · rw [afterFirst_append hA, hdest, ← List.nil_append (stripSuffix _ _),
      components_append_stripSlash, List.nil_append]
    rcases hw with ⟨hd, rfl⟩ | hw
    · exact .inr ⟨hd, hA, rfl, rfl⟩
    · exact .inl ⟨w, hw, rfl⟩

/-- In short: it is odd or it is the right one. -/
theorem odd_or_dest {c : Call} {d u v : Str} {a : Accepted} (hv : components v ≠ [])
    (hdot : ¬['.', '/'] <+: u ++ '/' :: v) (h : c.accept (d ++ '=' :: (u ++ '/' :: v)) = some a) :
    Odd (destOf a.entry) ∨ '=' ∉ d ∧ '=' ∉ captured (absPath a.src) ∧
      destOf a.entry = components (u ++ '/' :: v) := by
  rcases accept_dest hdot h with ⟨w, hw, hdest⟩ | ⟨hd, hA, -, hdest⟩
  · left
    rw [hdest, ← List.append_assoc]
    exact odd_components (List.mem_append_left u hw) hv
  · exact .inr ⟨hd, hA, hdest⟩

/-! ## The jobs -/

/-- The directories the site has for itself. -/
def reserved : List Str := [mainName, stableName, imagesName, toolsName, keysName]

/-- Every tree has a release and an architecture, and no release is called like a directory of the
site; every artifact has a base. -/
def Job.Named : Job → Prop
  | .feed c o _ => ∀ d ∈ c.trees o, relOf d ≠ [] ∧ archOf d ≠ [] ∧ relOf d ∉ reserved
  | .images c => ∀ art ∈ c.artifacts, components (baseOf art) ≠ []

theorem dirForm_sha {c : FeedCall} {args : List Str} {o : FeedOptions}
    (h : c.dirForm args = .ok o) : o.sha ≠ [] := by
  rw [FeedCall.dirForm] at h
  cases ho : FeedOptions.dirArgs {} args with
  | error e => rw [ho] at h; cases h
  | ok o₁ =>
    rw [ho] at h
    simp only [Except.bind, bind] at h
    split at h
    · cases h
    · rename_i hempty
      split at h
      · cases h
      · cases h
        exact fun hc ↦ hempty (.inr (.inr hc))

theorem runForm_sha {c : FeedCall} {run : Str} {rest : List Str} {o : FeedOptions}
    (h : c.runForm run rest = .ok o) : o.sha ≠ [] := by
  rw [FeedCall.runForm] at h
  split at h
  · cases h
  · split at h
    · cases h
    · rename_i gh hgh
      split at h
      · cases h
      · rename_i name branch sha hinfo
        have hsha := gh.commit run _ hinfo
        split at h
        · cases h
        · simp only at h
          split at h
          · cases h
          · split at h
            · cases h
            · cases h
              split <;> exact hsha

/-- What is known of the options of a call that goes on. -/
structure FeedOptions.Ok (o : FeedOptions) : Prop where
  channel : o.channel = mainName ∨ o.channel = stableName
  sha : o.sha ≠ []
  tag : o.channel = stableName → (lines o.tag).any isReleaseTag = true

theorem options_ok {c : FeedCall} {o : FeedOptions} (h : c.options = .ok o) : o.Ok := by
  rw [FeedCall.options] at h
  cases hr : c.read with
  | error e => rw [hr] at h; cases h
  | ok o₁ =>
    have hsha : o₁.sha ≠ [] := by
      rw [FeedCall.read] at hr
      split at hr
      · split at hr
        · exact dirForm_sha hr
        · split at hr
          · exact runForm_sha hr
          · cases hr
      · cases hr
    rw [hr] at h
    have h : o₁.check = .ok o := h
    rw [FeedOptions.check] at h
    split at h
    · cases h
    · rename_i hch
      split at h
      · cases h
      · split at h
        · cases h
        · rename_i htag
          cases h
          refine ⟨?_, hsha, fun hstable ↦ ?_⟩
          · by_contra hc
            exact hch (not_or.mp hc)
          · by_contra hc
            exact htag ⟨hstable, by simpa using hc⟩

theorem options_channel {c : FeedCall} {o : FeedOptions} (h : c.options = .ok o) :
    o.channel = mainName ∨ o.channel = stableName := (options_ok h).channel

theorem not_dotSlash {n : Str} (hn : '/' ∉ n) (hdot : n ≠ ['.']) (t : Str) :
    ¬['.', '/'] <+: n ++ '/' :: t := by
  rintro ⟨r, hr⟩
  rcases n with _ | ⟨a, _ | ⟨b, n⟩⟩
  · simp at hr
  · simp at hr
    exact hdot (by rw [← hr.1])
  · simp at hr
    exact hn (by simp [← hr.2.1])

theorem channel_not_dotSlash {c : FeedCall} {o : FeedOptions} (h : c.options = .ok o) (t : Str) :
    ¬['.', '/'] <+: o.channel ++ '/' :: t := by
  refine not_dotSlash ?_ ?_ t
  · rcases options_channel h with h | h <;> rw [h] <;> decide
  · rcases options_channel h with h | h <;> rw [h] <;> decide

theorem relOf_noSlash (d : Str) : '/' ∉ relOf d := by
  rw [relOf, afterLast, List.mem_reverse]
  exact beforeFirst_notMem _ _

theorem archOf_noSlash (d : Str) : '/' ∉ archOf d := by
  rw [archOf, afterLast, List.mem_reverse]
  exact beforeFirst_notMem _ _

section Jobs

variable {c : FeedCall} {o : FeedOptions} {ho : c.options = .ok o} {v : Plan} {d : Str}

theorem treePair_mem (hd : d ∈ c.trees o) {p : Str} (hp : p ∈ treePairs o.channel d) :
    p ∈ c.pairs o :=
  List.mem_append_left _ (List.mem_flatMap.mpr ⟨d, hd, hp⟩)

/-- The tree of a job that passed validation: the names in it are names of directories. -/
theorem tree_inside (h : (Job.feed c o ho).pages.plan = .ok v) (hd : d ∈ c.trees o)
    (hrel : relOf d ≠ []) (harch : archOf d ≠ []) :
    ∀ n ∈ [relOf d, archOf d], n ≠ ['.'] ∧ n ≠ ['.', '.'] := by
  have hplan := planned_of_plan h
  obtain ⟨dest, hdest⟩ := hplan.checked _ (by
    rw [(job_reads hplan.opts).pairs]
    exact treePair_mem hd List.mem_cons_self)
  obtain ⟨w, -, heq⟩ := checkDest_pair (channel_not_dotSlash ho _) hdest
  have hin := checkDest_inside hdest
  have hcomp : ∀ n ∈ [relOf d, archOf d], n ∈ components dest := by
    intro n hn
    rw [heq, ← List.nil_append (stripSuffix _ _), components_append_stripSlash, List.nil_append,
      ← List.append_assoc, components_slash, components_slash,
      components_of_name hrel (relOf_noSlash d), components_of_name harch (archOf_noSlash d)]
    exact List.mem_append_right _ hn
  exact fun n hn ↦ ⟨fun hc ↦ hin.dot (hc ▸ hcomp n hn), fun hc ↦ hin.dotdot (hc ▸ hcomp n hn)⟩

theorem mem_accepted {j : Job} (h : j.pages.plan = .ok v) {a : Accepted} :
    a ∈ v.accepted ↔ ∃ p ∈ j.pairs, j.pages.accept p = some a := by
  have hplan := planned_of_plan h
  rw [hplan.accepted, (job_reads hplan.opts).pairs, List.mem_filterMap]

theorem components_channelName (ho : c.options = .ok o) : components o.channel = [o.channel] := by
  rcases options_channel ho with h | h <;> rw [h] <;> decide

theorem components_channel (ho : c.options = .ok o) (hrel : relOf d ≠ []) (harch : archOf d ≠ []) :
    components (o.channel ++ '/' :: (relOf d ++ '/' :: archOf d)) =
      [o.channel, relOf d, archOf d] := by
  rw [components_slash, components_slash, components_of_name hrel (relOf_noSlash d),
    components_of_name harch (archOf_noSlash d), components_channelName ho]
  rfl

theorem components_mirror (hrel : relOf d ≠ []) (harch : archOf d ≠ []) :
    components (relOf d ++ '/' :: archOf d) = [relOf d, archOf d] := by
  rw [components_slash, components_of_name hrel (relOf_noSlash d),
    components_of_name harch (archOf_noSlash d)]
  rfl

/-- Where the pairs of one tree go. -/
theorem tree_dest (h : (Job.feed c o ho).pages.plan = .ok v) (hd : d ∈ c.trees o)
    (hrel : relOf d ≠ []) (harch : archOf d ≠ []) {p : Str} (hp : p ∈ treePairs o.channel d)
    {a : Accepted} (ha : (c.pages o).accept p = some a) :
    Odd (destOf a.entry) ∨ destOf a.entry = [o.channel, relOf d, archOf d] ∨
      o.channel = stableName ∧ destOf a.entry = [relOf d, archOf d] := by
  have hv : components (archOf d) ≠ [] := by
    rw [components_of_name harch (archOf_noSlash d)]
    simp
  rcases List.mem_cons.mp hp with rfl | hp
  · rcases odd_or_dest (by rw [components_mirror hrel harch]; simp)
      (channel_not_dotSlash ho _) ha with
      hodd | ⟨-, -, hdest⟩
    · exact .inl hodd
    · exact .inr (.inl (hdest.trans (components_channel ho hrel harch)))
  · split at hp
    · rename_i hch
      rw [List.mem_singleton.mp hp] at ha
      have hdot : relOf d ≠ ['.'] := (tree_inside h hd hrel harch _ List.mem_cons_self).1
      rcases odd_or_dest hv (not_dotSlash (relOf_noSlash d) hdot _) ha with hodd | ⟨-, -, hdest⟩
      · exact .inl hodd
      · exact .inr (.inr ⟨hch, hdest.trans (components_mirror hrel harch)⟩)
    · cases hp

/-- Where the host tools go. -/
theorem tool_dest (ho : c.options = .ok o) {td : Str} {a : Accepted}
    (ha : (c.pages o).accept (toolPair o.channel td) = some a) :
    Odd (destOf a.entry) ∨ (destOf a.entry).head? = some toolsName := by
  have hch : components (o.channel ++ '/' :: afterLast '/' td) ≠ [] := by
    rw [components_slash, components_channelName ho]
    simp
  rcases odd_or_dest hch (not_dotSlash (n := toolsName) (by decide) (by decide) _) ha with
    hodd | ⟨-, -, hdest⟩
  · exact .inl hodd
  · right
    rw [hdest, components_slash]
    rfl

/-- **Where a job publishes.**  What is not odd is below `tools/` or `images/`, or it is one of the
trees of a build. -/
theorem job_dest {j : Job} (hj : j.Named) (h : j.pages.plan = .ok v) {a : Accepted}
    (ha : a ∈ v.accepted) :
    Odd (destOf a.entry) ∨ (destOf a.entry).head? = some toolsName ∨
      (destOf a.entry).head? = some imagesName ∨
      ∃ c o ho d, j = .feed c o ho ∧ d ∈ c.trees o ∧
        (destOf a.entry = [o.channel, relOf d, archOf d] ∨
          o.channel = stableName ∧ destOf a.entry = [relOf d, archOf d]) := by
  obtain ⟨p, hp, hacc⟩ := (mem_accepted h).mp ha
  cases j with
  | feed c o ho =>
    rcases List.mem_append.mp hp with hp | hp
    · obtain ⟨d, hd, hp⟩ := List.mem_flatMap.mp hp
      obtain ⟨hrel, harch, -⟩ := hj d hd
      rcases tree_dest h hd hrel harch hp hacc with hodd | hdest
      · exact .inl hodd
      · exact .inr (.inr (.inr ⟨c, o, ho, d, rfl, hd, hdest⟩))
    · obtain ⟨td, -, rfl⟩ := List.mem_map.mp hp
      rcases tool_dest ho hacc with hodd | htools
      · exact .inl hodd
      · exact .inr (.inl htools)
  | images c =>
    obtain ⟨art, hart, rfl⟩ := List.mem_map.mp hp
    have hbase : components (groupOf art ++ '/' :: baseOf art) ≠ [] := by
      rw [components_slash]
      exact List.append_ne_nil_of_right_ne_nil _ (hj art hart)
    rcases odd_or_dest hbase (not_dotSlash (n := imagesName) (by decide) (by decide) _) hacc with
      hodd | ⟨-, -, hdest⟩
    · exact .inl hodd
    · refine .inr (.inr (.inl ?_))
      rw [hdest, components_slash]
      rfl

end Jobs

/-! ## What a job leaves alone -/

/-- A call that gets as far as the branch has passed validation. -/
theorem call_plan {c : Call} {r : Request} (h : c.request = .ok r) :
    ∃ v, c.plan = .ok v ∧ r = v.request c := by
  rw [Call.request] at h
  cases hv : c.plan with
  | error e => rw [hv] at h; cases h
  | ok v =>
    rw [hv] at h
    simp only [Except.bind, bind] at h
    split at h
    · cases h
    · split at h
      · cases h
      · cases h
        exact ⟨v, rfl, rfl⟩

theorem job_plan {j : Job} {r : Request} (h : j.request = .ok r) :
    ∃ v, j.pages.plan = .ok v ∧ r = v.request j.pages := by
  unfold Job.request at h
  split at h
  · cases h
  · cases h
  · exact call_plan h

theorem job_removes {j : Job} {r : Request} (h : j.request = .ok r) : r.removes = [] := by
  obtain ⟨v, hv, rfl⟩ := job_plan h
  have hplan := planned_of_plan hv
  have hrem := hplan.removes
  rw [(job_reads hplan.opts).removes, List.mapM_nil] at hrem
  exact (Except.ok.inj hrem).symm

/-- The trees of a build, as destinations. -/
def Job.treeDests : Job → List Path
  | .feed c o _ => (c.trees o).flatMap fun d ↦
      [o.channel, relOf d, archOf d] :: if o.channel = stableName then [[relOf d, archOf d]] else []
  | .images _ => []

/-- **What a job leaves alone.**  A file in a directory that is not one of its trees and not below
one, and that is neither odd nor of the site itself. -/
theorem job_untouched {j : Job} (hj : j.Named) {r : Request} (hr : j.request = .ok r) {x : Str}
    {e : Path} (he : ∀ y ∈ x :: e, '=' ∉ y) (hx : x ∉ [imagesName, toolsName, keysName]) {n : Str}
    (hn : n ≠ indexName) (htree : ∀ d ∈ j.treeDests, ¬d <+: x :: e ++ [n]) :
    Untouched r (x :: e ++ [n]) where
  removes d hd := by
    rw [job_removes hr] at hd
    cases hd
  accepted p hp := by
    obtain ⟨v, hv, rfl⟩ := job_plan hr
    obtain ⟨a, ha, rfl⟩ := List.mem_map.mp hp
    have hhead : ∀ y ∈ [imagesName, toolsName], (destOf a.entry).head? = some y →
        ¬destOf a.entry <+: x :: e ++ [n] := by
      intro y hy hhead hpre
      obtain ⟨l, hl⟩ := List.head?_eq_some_iff.mp hhead
      rw [hl, List.cons_append, List.cons_prefix_cons] at hpre
      exact hx (by rw [← hpre.1]; exact List.mem_of_mem_dropLast hy)
    rcases job_dest hj hv ha with hodd | htools | himages | ⟨c, o, ho, d, rfl, hd, hdest⟩
    · exact hodd.not_above he n
    · exact hhead toolsName (by simp) htools
    · exact hhead imagesName (by simp) himages
    · refine htree _ (List.mem_flatMap.mpr ⟨d, hd, ?_⟩)
      rcases hdest with hdest | ⟨hch, hdest⟩
      · rw [hdest]; exact List.mem_cons_self
      · rw [hdest, if_pos hch]; simp
  keys _ hpre := by
    rw [List.cons_append, List.cons_prefix_cons] at hpre
    exact hx (by rw [← hpre.1]; simp)
  nojekyll h := by
    have := congrArg List.length h
    simp at this
  index h := by
    rw [List.getLast?_concat] at h
    exact hn (Option.some.inj h)

end OpenwrtFeed
