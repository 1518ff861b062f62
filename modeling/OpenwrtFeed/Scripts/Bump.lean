import OpenwrtFeed.Feed.Rollback
import OpenwrtFeed.Lib.Assignments

/-!
# Bumping a package

`scripts/bump-source.sh` pins a package to a commit of its source: it derives a version from the
tags below the commit, writes version, release and commit into the package's `Makefile`, and has
`scripts/update-hashes.sh` compute the matching `PKG_MIRROR_HASH`.  That script runs the download
and the check of the package in an SDK container and looks at what they print.  If it fails, the old
`Makefile` is put back: "never a new version with the old hash".

What decides is the text of the log, not how the two `make` commands end (`classify`).  A hash in
the log is taken, one of three error messages is a failure, and everything else counts as a
confirmation of the hash that is there, also when `make` stopped with an error of another wording.
Besides, every edit is a `sed` that changes the lines it finds, so a `Makefile` without the line
that is to be changed comes out without the value, and one with another assignment behind it, of a
form that `sed` does not look for, with the wrong value for `make`.  `bump_iff` says exactly when
the promise is kept.
-/

set_option autoImplicit false

namespace OpenwrtFeed

open Shell Assignments

/-! ## The keys -/

def pkgVersion : Str := "PKG_VERSION".toList
def pkgRelease : Str := "PKG_RELEASE".toList
def pkgSourceVersion : Str := "PKG_SOURCE_VERSION".toList
def pkgSourceDate : Str := "PKG_SOURCE_DATE".toList
def pkgMirrorHash : Str := "PKG_MIRROR_HASH".toList
def pkgName : Str := "PKG_NAME".toList
def pkgSource : Str := "PKG_SOURCE".toList

/-- The keys whose lines a bump may change. -/
def bumpKeys : List Str := [pkgVersion, pkgRelease, pkgSourceVersion, pkgSourceDate, pkgMirrorHash]

/-! ## `update-hashes.sh` -/

/-- What happens in the SDK container. -/
structure SdkRun where
  /-- Whether `docker run` exits with 0, that is, whether `inner.sh` comes to its end. -/
  docker : Bool
  /-- The exit status of `make …/download`. -/
  download : Nat
  /-- The exit status of `make …/check`. -/
  check : Nat
  /-- What the two print. -/
  raw : List Line
  deriving DecidableEq, Repr

/-- A digit of a hash. -/
def isHexDigit (c : Char) : Bool := ('0' ≤ c && c ≤ '9') || ('a' ≤ c && c ≤ 'f')

/-- The hash in `(set to|got) [0-9a-f]{64}`, at the start of a text. -/
def hashAt (s : Str) : Option Str :=
  let rest := if "set to ".toList <+: s then some (s.drop 7)
    else if "got ".toList <+: s then some (s.drop 4)
    else none
  rest.bind fun r ↦
    if 64 ≤ r.length ∧ (r.take 64).all isHexDigit then some (r.take 64) else none

/-- All the hashes that `grep -o` finds, in order.  No match can begin inside another one. -/
def hashes (raw : List Line) : List Str := raw.flatMap fun l ↦ l.tails.filterMap hashAt

/-- A line with one of the error messages that `inner.sh` knows. -/
def isErrorLine (l : Line) : Bool :=
  l.tails.any (fun t ↦ "No space left on device".toList <+: t) ||
  l.tails.any (fun t ↦ "Error ".toList <+: t && ((t.drop 6).head?.any fun c ↦
    '0' ≤ c && c ≤ '9')) ||
  "ERROR:".toList <+: l

/-- What `inner.sh` writes into `hashes.txt`. -/
inductive Verdict where
  | computed (hash : Str)
  | failed
  | keep
  deriving DecidableEq, Repr

/-- The classification loop of `inner.sh`, for one package. -/
def classify (raw : List Line) : Verdict :=
  match (hashes raw).getLast? with
  | some out => .computed out
  | none => if raw.any isErrorLine then .failed else .keep

/-- The rewriting of the `Makefile` in `update-hashes.sh`. -/
def writeHash (hash : Str) (mk : List Line) : List Line :=
  setOrAppend (assignedNow pkgMirrorHash) (assignedNow pkgSource) (setLine pkgMirrorHash hash) mk

/-- `update-hashes.sh` for one package: `none` if it exits with an error. -/
def updateHashes (sdk : SdkRun) (mk : List Line) : Option (List Line) :=
  if !sdk.docker then none
  else match classify sdk.raw with
    | .failed => none
    | .keep => some mk
    | .computed hash => some (writeHash hash mk)

/-! ## `bump-source.sh` -/

/-- The answer of `git describe --long`. -/
structure Describe where
  tag : Str
  distance : Nat
  /-- The abbreviated name of the commit. -/
  short : Str
  hex : short.all isHexDigit = true

/-- What it prints. -/
def Describe.text (d : Describe) : Str :=
  d.tag ++ '-' :: (toString d.distance).toList ++ "-g".toList ++ d.short

/-- What the source repository says about the ref. -/
structure Upstream where
  /-- The commit, if the ref names one. -/
  sha : Option Str
  hex : sha.all (fun s ↦ s.all isHexDigit) = true := by decide
  /-- Whether there is a branch `stable`. -/
  twoLines : Bool
  /-- Whether the commit is on the branch of the channel. -/
  onChannel : Bool
  /-- Described from the tags `v*-dev`. -/
  describeDev : Option Describe
  /-- Described from the tags `v[0-9]*` without a hyphen. -/
  describeRelease : Option Describe

/-- The pattern `"" | *[!0-9.]* | .* | *. | *..*` of what is not a version. -/
def badBase (base : Str) : Bool :=
  base.isEmpty || base.any (fun c ↦ !(('0' ≤ c && c ≤ '9') || c = '.')) ||
  base.head? = some '.' || base.getLast? = some '.' || base.tails.any ("..".toList <+: ·)

/-- The version for a description; `none` if the tag is not a version. -/
def deriveVersion (dev : Bool) (desc : Str) : Option Str :=
  let tag := trimShortest "-*-g*".toList desc
  let base := stripPrefix "v".toList tag
  let base := if dev then stripSuffix "-dev".toList base else base
  let dist := afterLast '-' (trimShortest "-g*".toList desc)
  if badBase base then none
  else if dev then some (base ++ "_pre".toList ++ dist)
  else if dist = "0".toList then some base
  else some (base ++ "_p".toList ++ dist)

/-- `verkey` -/
def verkey (v : Str) : Str :=
  if v.tails.any ("_pre".toList <+: ·) then
    trimShortest "_pre*".toList v ++ ".0.".toList ++ dropLongest "*_pre".toList v
  else if v.tails.any ("_p".toList <+: ·) then
    trimShortest "_p*".toList v ++ ".2.".toList ++ dropLongest "*_p".toList v
  else v ++ ".1.0".toList

/-- Digits, at least one. -/
def isNumber (s : Str) : Bool := !s.isEmpty && s.all fun c ↦ '0' ≤ c && c ≤ '9'

/-- `^[0-9]+(\.[0-9]+)*$` -/
def isDotted (s : Str) : Bool := (s.splitOn '.').all isNumber

/-- `^[0-9]+(\.[0-9]+)*(_pre[0-9]+|_p[0-9]+)?$` -/
def isOwnVersion (s : Str) : Bool :=
  isDotted s ||
  s.inits.any fun t ↦ isDotted t &&
    (("_pre".toList <+: s.drop t.length && isNumber (s.drop (t.length + 4))) ||
     ("_p".toList <+: s.drop t.length && isNumber (s.drop (t.length + 2))))

/-- What a bump is started with. -/
structure BumpInput where
  force : Bool
  /-- The channel is `main`, and not `stable`. -/
  onMain : Bool
  makefile : List Line
  /-- `none` if the source cannot be cloned. -/
  upstream : Option Upstream
  sdk : SdkRun
  /-- The first line that `sort -V` prints, of lines not all of which are numbers with dots. -/
  sortV : List Line → Line := fun ls ↦ ls.headD []
  /-- `grep -q` leaves at a line before the last one, and `printf` is stopped by the closed pipe. -/
  grepCut : Bool := false
  /-- `head -n1` leaves, and `sort` is stopped, when the old version has several lines. -/
  sortCut : Bool := false

/-- `sort -V | head -n1` -/
def BumpInput.lowest (b : BumpInput) (ls : List Line) : Line :=
  if ls.all isDotted then (ls.insertionSort fun x y ↦ sortKey x ≤ sortKey y).headD []
  else b.sortV ls

/-- Whether the script stops because the new version sorts not after the old one.  The old one may
have several lines. -/
def BumpInput.refuses (b : BumpInput) (oldVer ver : Str) : Bool :=
  let ls := lines oldVer
  -- a pipeline that is cut fails, because of `pipefail`; the second one then stops the script
  (ls.any isOwnVersion && !(b.grepCut && ls.dropLast.any isOwnVersion)) &&
    ((b.sortCut && 1 < ls.length) ||
      (b.lowest (lines (verkey oldVer ++ '\n' :: verkey ver)) = verkey ver && !b.force))

/-- What `sed -n 's/^KEY…//p'` prints, captured. -/
def sedValues (read : Line → Option Str) (mk : List Line) : Str :=
  captured (['\n'].intercalate (mk.filterMap read))

/-- Everything before the `Makefile` is edited: the version and the commit, or `none` if the script
stops with an error. -/
def BumpInput.accept (b : BumpInput) : Option (Str × Str) := do
  if !b.makefile.any fun l ↦ "PKG_SOURCE_PROTO:=git".toList <+: l then none
  else if (sedValues (assignedNow "PKG_SOURCE_URL".toList) b.makefile).isEmpty then none
  else
    let up ← b.upstream
    let sha ← up.sha
    if up.twoLines && !up.onChannel then none
    else
      let dev := up.twoLines && b.onMain
      let desc ← if dev then up.describeDev else up.describeRelease
      let ver ← deriveVersion dev desc.text
      let oldVer := sedValues (assigned pkgVersion) b.makefile
      if oldVer = ver then none
      else if b.refuses oldVer ver then none
      else some (ver, sha)

/-- The first call of `sed`: commit, release and date. -/
def editPins (sha : Str) (mk : List Line) : List Line :=
  let mk := replace (fun l ↦ (assigned pkgSourceVersion l).isSome) (setLine pkgSourceVersion sha) mk
  let mk := replace (fun l ↦ (assigned pkgRelease l).isSome) (setLine pkgRelease ['1']) mk
  delete (fun l ↦ (assigned pkgSourceDate l).isSome) mk

/-- The second one: the version is replaced, or added after the name. -/
def editVersion (ver : Str) (mk : List Line) : List Line :=
  setOrAppend (assigned pkgVersion) (assignedNow pkgName) (setLine pkgVersion ver) mk

/-- The edit of the `Makefile`. -/
def bumpEdit (ver sha : Str) (mk : List Line) : List Line := editVersion ver (editPins sha mk)

/-- `bump-source.sh` without `--dry-run`: whether it exits with 0, and the `Makefile` afterwards. -/
def bumpSource (b : BumpInput) : Bool × List Line :=
  match b.accept with
  | none => (false, b.makefile)
  | some (ver, sha) =>
    match updateHashes b.sdk (bumpEdit ver sha b.makefile) with
    | some mk => (true, mk)
    | none => (false, b.makefile)

/-! ## The promise -/

/-- A line that a bump may change. -/
def isBumpLine (l : Line) : Bool := bumpKeys.any fun key ↦ (assigned key l).isSome

/-- The other lines. -/
def otherLines (makefile : List Line) : List Line :=
  makefile.filterMap fun l ↦ if isBumpLine l then none else some l

/-- Both `make` commands came to their end. -/
structure SdkRun.Completed (sdk : SdkRun) : Prop where
  docker : sdk.docker = true
  download : sdk.download = 0
  check : sdk.check = 0

/-- The run reported this hash, as the last one if there are several. -/
def SdkRun.Reported (sdk : SdkRun) (hash : Str) : Prop := (hashes sdk.raw).getLast? = some hash

/-- A completed bump: nothing else was changed, `make` reads the new version, release and commit,
and the hash that it reads is one that a completed run of the SDK reported or, if it was there
before, had nothing to say about. -/
structure Bumped (b : BumpInput) (ver sha : Str) (makefile : List Line) : Prop where
  others : otherLines makefile = otherLines b.makefile
  version : makeReads pkgVersion none makefile = some ver
  release : makeReads pkgRelease none makefile = some ['1']
  commit : makeReads pkgSourceVersion none makefile = some sha
  completed : b.sdk.Completed
  hash : ∃ h, makeReads pkgMirrorHash none makefile = some h ∧ (b.sdk.Reported h ∨
    hashes b.sdk.raw = [] ∧ makeReads pkgMirrorHash none b.makefile = some h)

/-- "Never a new version with the old hash": the `Makefile` is as before and the script fails, or
the script succeeds and the bump is complete. -/
def Promise (b : BumpInput) : Prop :=
  ((bumpSource b).1 = false ∧ (bumpSource b).2 = b.makefile) ∨
    ((bumpSource b).1 = true ∧ ∃ ver sha, b.accept = some (ver, sha) ∧
    Bumped b ver sha (bumpSource b).2)

/-- The lines that the edits look for are there, and for `make` none behind them says otherwise; the
two `make` commands succeeded; and if they reported no hash, there was one before. -/
structure Bumpable (b : BumpInput) (ver sha : Str) : Prop where
  release : Settles (fun l ↦ (assigned pkgRelease l).isSome) pkgRelease ['1'] b.makefile
  commit : Settles (fun l ↦ (assigned pkgSourceVersion l).isSome) pkgSourceVersion sha b.makefile
  version : Settles (places (assigned pkgVersion) (assignedNow pkgName) b.makefile) pkgVersion ver
    b.makefile
  download : b.sdk.download = 0
  check : b.sdk.check = 0
  computed : ∀ h, b.sdk.Reported h →
    Settles (places (assignedNow pkgMirrorHash) (assignedNow pkgSource) b.makefile) pkgMirrorHash h
      b.makefile
  confirmed : hashes b.sdk.raw = [] → (makeReads pkgMirrorHash none b.makefile).isSome = true

/-! ## The edit

An edit for one key is invisible to whatever does not look at the lines with that key. -/

/-! What is written does not begin with a blank, so `make` reads it as it is. -/

theorem unindented_cons {c : Char} (hc : isBlank c = false) (s : Str) : Unindented (c :: s) :=
  List.dropWhile_cons_of_neg (by simp [hc])

theorem isBlank_of_hex {c : Char} (h : isHexDigit c = true) : isBlank c = false := by
  by_contra hb
  rw [Bool.not_eq_false, isBlank] at hb
  simp only [Bool.or_eq_true, beq_iff_eq] at hb
  obtain (rfl | rfl) | rfl := hb <;> exact absurd h (by decide)

theorem unindented_of_hex {s : Str} (h : s.all isHexDigit = true) : Unindented s := by
  cases s with
  | nil => rfl
  | cons c s => exact unindented_cons (isBlank_of_hex (List.all_eq_true.1 h c List.mem_cons_self)) s

theorem unindented_of_mem_hashes {raw : List Line} {h : Str} (hh : h ∈ hashes raw) :
    Unindented h := by
  obtain ⟨l, -, hl⟩ := List.mem_flatMap.1 hh
  obtain ⟨t, -, ht⟩ := List.mem_filterMap.1 hl
  rw [hashAt] at ht
  obtain ⟨r, -, hr⟩ := Option.bind_eq_some_iff.1 ht
  split at hr
  · rename_i hhex
    rw [← Option.some.inj hr]
    exact unindented_of_hex hhex.2
  · exact absurd hr (by simp)

theorem unindented_of_deriveVersion {dev : Bool} {desc ver : Str}
    (h : deriveVersion dev desc = some ver) : Unindented ver := by
  have happend : ∀ {base : Str}, badBase base = false → ∀ s, Unindented (base ++ s) := by
    intro base hbase s
    cases base with
    | nil => exact absurd hbase (by decide)
    | cons c base =>
      refine unindented_cons ?_ _
      simp only [badBase, List.any_cons, Bool.or_eq_false_iff] at hbase
      have hc := hbase.1.1.1.2.1
      by_contra hb
      rw [Bool.not_eq_false, isBlank] at hb
      simp only [Bool.or_eq_true, beq_iff_eq] at hb
      obtain (rfl | rfl) | rfl := hb <;> exact absurd hc (by decide)
  rw [deriveVersion] at h
  generalize (if dev = true then stripSuffix "-dev".toList (stripPrefix "v".toList
    (trimShortest "-*-g*".toList desc)) else stripPrefix "v".toList
      (trimShortest "-*-g*".toList desc)) = base at h
  split at h
  · exact absurd h (by simp)
  · rename_i hbase
    have hbase := happend (Bool.eq_false_of_not_eq_true hbase)
    split at h
    · rw [← Option.some.inj h, List.append_assoc]
      exact hbase _
    · split at h
      · rw [← Option.some.inj h, ← List.append_nil base]
        exact hbase _
      · rw [← Option.some.inj h, List.append_assoc]
        exact hbase _

/-- What the script writes into the `Makefile`. -/
theorem unindented_of_accept {b : BumpInput} {ver sha : Str} (h : b.accept = some (ver, sha)) :
    Unindented ver ∧ Unindented sha := by
  rw [BumpInput.accept] at h
  split at h
  · exact absurd h (by simp)
  split at h
  · exact absurd h (by simp)
  obtain ⟨up, -, h⟩ := Option.bind_eq_some_iff.1 h
  obtain ⟨sha', hsha, h⟩ := Option.bind_eq_some_iff.1 h
  split at h
  · exact absurd h (by simp)
  obtain ⟨dev, desc, ver', hver, h⟩ : ∃ dev desc ver', deriveVersion dev desc = some ver' ∧
      (if sedValues (assigned pkgVersion) b.makefile = ver' then none
        else if b.refuses (sedValues (assigned pkgVersion) b.makefile) ver' then none
        else some (ver', sha')) = some (ver, sha) := by
    extract_lets dev at h
    split at h
    · obtain ⟨desc, -, h⟩ := Option.bind_eq_some_iff.1 h
      obtain ⟨ver', hver, h⟩ := Option.bind_eq_some_iff.1 h
      exact ⟨_, _, ver', hver, h⟩
    · obtain ⟨desc, -, h⟩ := Option.bind_eq_some_iff.1 h
      obtain ⟨ver', hver, h⟩ := Option.bind_eq_some_iff.1 h
      exact ⟨_, _, ver', hver, h⟩
  split at h
  · exact absurd h (by simp)
  split at h
  · exact absurd h (by simp)
  obtain ⟨rfl, rfl⟩ := Prod.mk.inj (Option.some.inj h)
  have hhex := up.hex
  rw [hsha] at hhex
  exact ⟨unindented_of_deriveVersion hver, unindented_of_hex hhex⟩

/-- `f` sees nothing in the lines that assign to the key. -/
def Blind {β : Type} (key : Str) (f : Line → Option β) : Prop :=
  ∀ l, (assigned key l).isSome = true → f l = none

section
variable {β : Type} {f : Line → Option β}

theorem Blind.setLine {key : Str} (h : Blind key f) (v : Str) : f (setLine key v) = none :=
  h _ (by rw [assigned_setLine]; rfl)

theorem blind_assigned {key key' : Str} (hkey : plainKey key = true) (hkey' : plainKey key' = true)
    (hne : key ≠ key') : Blind key (assigned key') :=
  fun _ hl ↦ (reads_assigned hkey).disjoint (reads_assigned hkey') hne hl

theorem blind_assignedNow {key key' : Str} (hkey : plainKey key = true)
    (hkey' : plainKey key' = true) (hne : key ≠ key') : Blind key (assignedNow key') :=
  fun _ hl ↦ (reads_assigned hkey).disjoint (reads_assignedNow hkey') hne hl

theorem blind_makeAssign {key key' : Str} (hkey : plainKey key = true)
    (hkey' : plainKey key' = true) (hne : key ≠ key') : Blind key (makeAssign key') :=
  fun _ hl ↦ makeAssign_eq_none hkey hkey' hne hl

/-- `^KEY:=` is one of the forms of `^KEY[:?]?=`. -/
theorem Blind.now {key : Str} (h : Blind key f) (l : Line)
    (hl : (assignedNow key l).isSome = true) :
    f l = none := by
  obtain ⟨v, hv⟩ := Option.isSome_iff_exists.1 hl
  exact h l (by rw [assigned_of_assignedNow hv]; rfl)

theorem filterMap_writeHash (h : Blind pkgMirrorHash f) (hash : Str) (mk : List Line) :
    (writeHash hash mk).filterMap f = mk.filterMap f :=
  filterMap_setOrAppend h.now (h.setLine hash) mk

theorem filterMap_editVersion (h : Blind pkgVersion f) (ver : Str) (mk : List Line) :
    (editVersion ver mk).filterMap f = mk.filterMap f :=
  filterMap_setOrAppend h (h.setLine ver) mk

theorem filterMap_editPins (hr : Blind pkgRelease f) (hs : Blind pkgSourceVersion f)
    (hd : Blind pkgSourceDate f) (sha : Str) (mk : List Line) :
    (editPins sha mk).filterMap f = mk.filterMap f := by
  rw [editPins, filterMap_delete hd, filterMap_replace hr (hr.setLine _),
    filterMap_replace hs (hs.setLine _)]

end

/-- Lines that are not written, in an edit of another key. -/
theorem blind_mark {key key' : Str} {p : Line → Bool} (hkey : plainKey key = true)
    (hkey' : plainKey key' = true) (hne : key ≠ key')
    (hp : ∀ l, (assigned key l).isSome = true → p l = false) : Blind key (mark p key') := by
  intro l hl
  rw [mark, if_neg (by simp [hp l hl]), blind_makeAssign hkey hkey' hne l hl]
  rfl

/-- An edit of other keys does not change what becomes of a key that is written. -/
theorem settles_congr {p : Line → Bool} {key v : Str} {ls ls' : List Line}
    (h : ls'.filterMap (mark p key) = ls.filterMap (mark p key)) :
    Settles p key v ls' ↔ Settles p key v ls := by
  rw [settles_iff, h, settles_iff]

/-- The release is read back, -/
theorem release_bumpEdit_iff (ver sha : Str) (mk : List Line) :
    makeReads pkgRelease none (bumpEdit ver sha mk) = some ['1'] ↔
      Settles (fun l ↦ (assigned pkgRelease l).isSome) pkgRelease ['1'] mk := by
  have hdate : Blind pkgSourceDate (makeAssign pkgRelease) :=
    blind_makeAssign (by decide) (by decide) (by decide)
  have hsource : Blind pkgSourceVersion
      (mark (fun l ↦ (assigned pkgRelease l).isSome) pkgRelease) :=
    blind_mark (by decide) (by decide) (by decide) fun l hl ↦ by
      rw [blind_assigned (by decide) (by decide) (by decide) l hl]
      rfl
  rw [bumpEdit, makeReads_congr (filterMap_editVersion
    (blind_makeAssign (by decide) (by decide) (by decide)) ver _), editPins,
    makeReads_congr (filterMap_delete hdate _),
    makeReads_replace (makeAssign_setLine (by decide) (unindented_cons rfl [])),
    settles_congr (filterMap_replace hsource (hsource.setLine sha) mk)]

/-- the commit -/
theorem commit_bumpEdit_iff (ver : Str) {sha : Str} (hsha : Unindented sha) (mk : List Line) :
    makeReads pkgSourceVersion none (bumpEdit ver sha mk) = some sha ↔
      Settles (fun l ↦ (assigned pkgSourceVersion l).isSome) pkgSourceVersion sha mk := by
  have hrelease : Blind pkgRelease (makeAssign pkgSourceVersion) :=
    blind_makeAssign (by decide) (by decide) (by decide)
  have hdate : Blind pkgSourceDate (makeAssign pkgSourceVersion) :=
    blind_makeAssign (by decide) (by decide) (by decide)
  rw [bumpEdit, makeReads_congr (filterMap_editVersion
    (blind_makeAssign (by decide) (by decide) (by decide)) ver _), editPins,
    makeReads_congr (filterMap_delete hdate _),
    makeReads_congr (filterMap_replace hrelease (hrelease.setLine ['1']) _),
    makeReads_replace (makeAssign_setLine (by decide) hsha)]

/-- An edit that is invisible to both of them does not move the places. -/
theorem places_congr {read anchor : Line → Option Str} {ls ls' : List Line}
    (h : ls'.filterMap read = ls.filterMap read) :
    places read anchor ls' = places read anchor ls := by
  funext l
  rw [places, hasLine_congr h, places]

theorem blind_places {key : Str} {read anchor : Line → Option Str} (hread : Blind key read)
    (hanchor : Blind key anchor) (ls : List Line) {l : Line}
    (hl : (assigned key l).isSome = true) : places read anchor ls l = false := by
  rw [places, hread l hl, hanchor l hl]
  exact ite_self _

/-- and the version. -/
theorem version_bumpEdit_iff {ver : Str} (hver : Unindented ver) (sha : Str) (mk : List Line) :
    makeReads pkgVersion none (bumpEdit ver sha mk) = some ver ↔
      Settles (places (assigned pkgVersion) (assignedNow pkgName) mk) pkgVersion ver mk := by
  have hmark : ∀ {key : Str}, plainKey key = true → key ≠ pkgVersion → key ≠ pkgName →
      Blind key (mark (places (assigned pkgVersion) (assignedNow pkgName) mk) pkgVersion) :=
    fun hkey hv hn ↦ blind_mark hkey (by decide) hv fun l hl ↦
      blind_places (blind_assigned hkey (by decide) hv)
        (blind_assignedNow hkey (by decide) hn) mk hl
  have hname : ∀ l, (assignedNow pkgName l).isSome = true → makeAssign pkgVersion l = none :=
    (blind_makeAssign (by decide) (by decide) (by decide)).now
  have hread : (editPins sha mk).filterMap (assigned pkgVersion) =
      mk.filterMap (assigned pkgVersion) :=
    filterMap_editPins (blind_assigned (by decide) (by decide) (by decide))
      (blind_assigned (by decide) (by decide) (by decide))
      (blind_assigned (by decide) (by decide) (by decide)) sha mk
  rw [bumpEdit, editVersion, makeReads_setOrAppend (makeAssign_setLine (by decide) hver) hname,
    places_congr hread]
  exact settles_congr (filterMap_editPins (hmark (by decide) (by decide) (by decide))
    (hmark (by decide) (by decide) (by decide)) (hmark (by decide) (by decide) (by decide)) sha mk)

/-- What is blind for all keys of the edit does not see it. -/
theorem filterMap_bumpEdit {β : Type} {f : Line → Option β} (hv : Blind pkgVersion f)
    (hr : Blind pkgRelease f) (hs : Blind pkgSourceVersion f) (hd : Blind pkgSourceDate f)
    (ver sha : Str) (mk : List Line) : (bumpEdit ver sha mk).filterMap f = mk.filterMap f := by
  rw [bumpEdit, filterMap_editVersion hv, filterMap_editPins hr hs hd]

theorem hash_bumpEdit (ver sha : Str) (mk : List Line) :
    makeReads pkgMirrorHash none (bumpEdit ver sha mk) = makeReads pkgMirrorHash none mk :=
  makeReads_congr (filterMap_bumpEdit (blind_makeAssign (by decide) (by decide) (by decide))
    (blind_makeAssign (by decide) (by decide) (by decide))
    (blind_makeAssign (by decide) (by decide) (by decide))
    (blind_makeAssign (by decide) (by decide) (by decide)) ver sha mk) none

/-- A hash that is written is read back. -/
theorem hash_writeHash_iff {hash : Str} (hhash : Unindented hash) (ver sha : Str)
    (mk : List Line) :
    makeReads pkgMirrorHash none (writeHash hash (bumpEdit ver sha mk)) = some hash ↔
      Settles (places (assignedNow pkgMirrorHash) (assignedNow pkgSource) mk) pkgMirrorHash hash
        mk := by
  have hmark : ∀ {key : Str}, plainKey key = true → key ≠ pkgMirrorHash → key ≠ pkgSource →
      Blind key (mark (places (assignedNow pkgMirrorHash) (assignedNow pkgSource) mk)
        pkgMirrorHash) :=
    fun hkey hm hs ↦ blind_mark hkey (by decide) hm fun l hl ↦
      blind_places (blind_assignedNow hkey (by decide) hm) (blind_assignedNow hkey (by decide) hs)
        mk hl
  have hsource : ∀ l, (assignedNow pkgSource l).isSome = true → makeAssign pkgMirrorHash l = none :=
    (blind_makeAssign (by decide) (by decide) (by decide)).now
  have hread : (bumpEdit ver sha mk).filterMap (assignedNow pkgMirrorHash) =
      mk.filterMap (assignedNow pkgMirrorHash) :=
    filterMap_bumpEdit (blind_assignedNow (by decide) (by decide) (by decide))
      (blind_assignedNow (by decide) (by decide) (by decide))
      (blind_assignedNow (by decide) (by decide) (by decide))
      (blind_assignedNow (by decide) (by decide) (by decide)) ver sha mk
  rw [writeHash, makeReads_setOrAppend (makeAssign_setLine (by decide) hhash) hsource,
    places_congr hread]
  exact settles_congr (filterMap_bumpEdit (hmark (by decide) (by decide) (by decide))
    (hmark (by decide) (by decide) (by decide)) (hmark (by decide) (by decide) (by decide))
    (hmark (by decide) (by decide) (by decide)) ver sha mk)

theorem blind_otherLines {key : Str} (hkey : key ∈ bumpKeys) :
    Blind key fun l ↦ if isBumpLine l then none else some l := by
  intro l hl
  exact if_pos (List.any_eq_true.2 ⟨key, hkey, hl⟩)

theorem otherLines_bumpEdit (ver sha : Str) (mk : List Line) :
    otherLines (bumpEdit ver sha mk) = otherLines mk := by
  rw [otherLines, bumpEdit, filterMap_editVersion (blind_otherLines (by decide)),
    filterMap_editPins (blind_otherLines (by decide)) (blind_otherLines (by decide))
      (blind_otherLines (by decide)), otherLines]

/-! ## When the promise is kept -/

/-- What the log says, as a question about the hashes in it. -/
theorem classify_cases (raw : List Line) :
    (∃ h, (hashes raw).getLast? = some h ∧ hashes raw ≠ [] ∧ classify raw = .computed h) ∨
      hashes raw = [] ∧ (classify raw = .failed ∨ classify raw = .keep) := by
  rcases List.eq_nil_or_concat (hashes raw) with hnil | ⟨hs, h, hcat⟩
  · refine .inr ⟨hnil, ?_⟩
    rw [classify, hnil]
    by_cases herr : raw.any isErrorLine = true
    · exact .inl (if_pos herr)
    · exact .inr (if_neg herr)
  · have hlast : (hashes raw).getLast? = some h := by
      rw [hcat, List.concat_eq_append, List.getLast?_concat]
    refine .inl ⟨h, hlast, by rw [hcat]; simp, ?_⟩
    rw [classify, hlast]

/-- The part of a bump that does not depend on the hash. -/
theorem edited_iff (b : BumpInput) {ver sha : Str} (haccept : b.accept = some (ver, sha)) :
    (makeReads pkgVersion none (bumpEdit ver sha b.makefile) = some ver ∧
      makeReads pkgRelease none (bumpEdit ver sha b.makefile) = some ['1'] ∧
      makeReads pkgSourceVersion none (bumpEdit ver sha b.makefile) = some sha) ↔
    Settles (places (assigned pkgVersion) (assignedNow pkgName) b.makefile) pkgVersion ver
        b.makefile ∧
      Settles (fun l ↦ (assigned pkgRelease l).isSome) pkgRelease ['1'] b.makefile ∧
      Settles (fun l ↦ (assigned pkgSourceVersion l).isSome) pkgSourceVersion sha b.makefile := by
  obtain ⟨hver, hsha⟩ := unindented_of_accept haccept
  rw [version_bumpEdit_iff hver, release_bumpEdit_iff, commit_bumpEdit_iff ver hsha]

section Promise

variable {b : BumpInput} {ver sha : Str}

/-- If the log says nothing, the bump is complete exactly if the run really confirmed a hash. -/
theorem bumped_keep_iff (haccept : b.accept = some (ver, sha)) (hdocker : b.sdk.docker = true)
    (hnil : hashes b.sdk.raw = []) :
    Bumped b ver sha (bumpEdit ver sha b.makefile) ↔ Bumpable b ver sha := by
  have hnot : ∀ h, ¬ b.sdk.Reported h := fun h hreported ↦ by
    rw [SdkRun.Reported, hnil] at hreported
    exact absurd hreported (by simp)
  constructor
  · rintro ⟨-, hv, hr, hs, hcomplete, h, -, hreported | ⟨-, hh⟩⟩
    · exact absurd hreported (hnot h)
    · obtain ⟨hv, hr, hs⟩ := (edited_iff b haccept).1 ⟨hv, hr, hs⟩
      exact ⟨hr, hs, hv, hcomplete.download, hcomplete.check,
        fun h hreported ↦ absurd hreported (hnot h), fun _ ↦ by rw [hh]; rfl⟩
  · rintro ⟨hr, hs, hv, hdownload, hcheck, -, hconfirmed⟩
    obtain ⟨h, hh⟩ := Option.isSome_iff_exists.1 (hconfirmed hnil)
    obtain ⟨hv, hr, hs⟩ := (edited_iff b haccept).2 ⟨hv, hr, hs⟩
    exact ⟨otherLines_bumpEdit _ _ _, hv, hr, hs, ⟨hdocker, hdownload, hcheck⟩, h,
      (hash_bumpEdit _ _ _).trans hh, .inr ⟨hnil, hh⟩⟩

/-- If there is a hash in the log, it only has to be written. -/
theorem bumped_computed_iff {hash : Str} (haccept : b.accept = some (ver, sha))
    (hdocker : b.sdk.docker = true) (hlast : (hashes b.sdk.raw).getLast? = some hash)
    (hne : hashes b.sdk.raw ≠ []) :
    Bumped b ver sha (writeHash hash (bumpEdit ver sha b.makefile)) ↔ Bumpable b ver sha := by
  have hblind : ∀ {key : Str}, plainKey key = true → pkgMirrorHash ≠ key →
      makeReads key none (writeHash hash (bumpEdit ver sha b.makefile)) =
        makeReads key none (bumpEdit ver sha b.makefile) := fun hkey hne ↦
    makeReads_congr (filterMap_writeHash (blind_makeAssign (by decide) hkey hne) _ _) none
  have hversion : makeReads pkgVersion none (writeHash hash (bumpEdit ver sha b.makefile)) = _ :=
    hblind (by decide) (by decide)
  have hrelease : makeReads pkgRelease none (writeHash hash (bumpEdit ver sha b.makefile)) = _ :=
    hblind (by decide) (by decide)
  have hcommit :
      makeReads pkgSourceVersion none (writeHash hash (bumpEdit ver sha b.makefile)) = _ :=
    hblind (by decide) (by decide)
  have hhash := hash_writeHash_iff (unindented_of_mem_hashes (List.mem_of_getLast? hlast)) ver sha
    b.makefile
  constructor
  · rintro ⟨-, hv, hr, hs, hcomplete, h, hh, hor⟩
    rw [hversion] at hv
    rw [hrelease] at hr
    rw [hcommit] at hs
    obtain ⟨hv, hr, hs⟩ := (edited_iff b haccept).1 ⟨hv, hr, hs⟩
    have hreported := hor.resolve_right fun hnil ↦ hne hnil.1
    obtain rfl := Option.some.inj (hreported.symm.trans hlast)
    refine ⟨hr, hs, hv, hcomplete.download, hcomplete.check, fun h' hreported' ↦ ?_,
      fun hnil ↦ absurd hnil hne⟩
    obtain rfl := Option.some.inj (hreported'.symm.trans hreported)
    exact hhash.1 hh
  · rintro ⟨hr, hs, hv, hdownload, hcheck, hcomputed, -⟩
    obtain ⟨hv, hr, hs⟩ := (edited_iff b haccept).2 ⟨hv, hr, hs⟩
    refine ⟨?_, hversion.trans hv, hrelease.trans hr, hcommit.trans hs,
      ⟨hdocker, hdownload, hcheck⟩, hash, hhash.2 (hcomputed hash hlast), .inl hlast⟩
    rw [otherLines, filterMap_writeHash (blind_otherLines (by decide)), ← otherLines,
      otherLines_bumpEdit]

end Promise

/-- **When a bump keeps its promise.**  Always if the script stops before it edits the `Makefile`,
if the container does not come to its end, or if the log has no hash and one of the known errors in
it.  Otherwise exactly if both `make` commands succeeded and every line that the scripts write has
the last word, where for a log without a hash the `Makefile` needs to have one. -/
theorem bump_iff (b : BumpInput) : Promise b ↔
    ∀ ver sha, b.accept = some (ver, sha) → b.sdk.docker = true → classify b.sdk.raw ≠ .failed →
      Bumpable b ver sha := by
  rcases haccept : b.accept with _ | ⟨ver, sha⟩
  · have hbump : bumpSource b = (false, b.makefile) := by rw [bumpSource, haccept]
    rw [Promise, hbump]
    simp
  have hfail : updateHashes b.sdk (bumpEdit ver sha b.makefile) = none → Promise b := by
    intro hnone
    have hbump : bumpSource b = (false, b.makefile) := by
      rw [bumpSource, haccept]
      dsimp only
      rw [hnone]
    rw [Promise, hbump]
    exact .inl ⟨rfl, rfl⟩
  have hsucceed : ∀ makefile, updateHashes b.sdk (bumpEdit ver sha b.makefile) = some makefile →
      (Promise b ↔ Bumped b ver sha makefile) := by
    intro makefile hsome
    have hbump : bumpSource b = (true, makefile) := by
      rw [bumpSource, haccept]
      dsimp only
      rw [hsome]
    rw [Promise, hbump, haccept]
    simp
  have hall : ∀ P : Str → Str → Prop,
      (∀ v s, some (ver, sha) = some (v, s) → P v s) ↔ P ver sha := by
    intro P
    simp
  rw [hall fun v s ↦ b.sdk.docker = true → classify b.sdk.raw ≠ .failed → Bumpable b v s]
  rcases hdocker : b.sdk.docker with _ | _
  · have hnone : updateHashes b.sdk (bumpEdit ver sha b.makefile) = none := by
      rw [updateHashes, hdocker]
      rfl
    simp [hfail hnone]
  rcases classify_cases b.sdk.raw with ⟨h, hlast, hne, hclass⟩ | ⟨hnil, hclass | hclass⟩
  · have hsome : updateHashes b.sdk (bumpEdit ver sha b.makefile) =
        some (writeHash h (bumpEdit ver sha b.makefile)) := by
      rw [updateHashes, hdocker, hclass]
      rfl
    rw [hsucceed _ hsome, bumped_computed_iff haccept hdocker hlast hne]
    simp [hclass]
  · have hnone : updateHashes b.sdk (bumpEdit ver sha b.makefile) = none := by
      rw [updateHashes, hdocker, hclass]
      rfl
    simp [hfail hnone, hclass]
  · have hsome : updateHashes b.sdk (bumpEdit ver sha b.makefile) =
        some (bumpEdit ver sha b.makefile) := by
      rw [updateHashes, hdocker, hclass]
      rfl
    rw [hsucceed _ hsome, bumped_keep_iff haccept hdocker hnil]
    simp [hclass]

/-- A package whose target the SDK does not know: both commands stop at once with status 2, with a
message that is not one of those that are looked for. -/
def noRule : BumpInput where
  force := false
  onMain := false
  makefile := ["PKG_NAME:=wwand", "PKG_VERSION:=1.0.0", "PKG_RELEASE:=3", "PKG_SOURCE_PROTO:=git",
    "PKG_SOURCE_URL:=u", "PKG_SOURCE_VERSION:=aa", "PKG_MIRROR_HASH:=00"].map String.toList
  upstream := some
    { sha := some "bb".toList, twoLines := false, onChannel := false, describeDev := none
      describeRelease := some ⟨"v1.1.0".toList, 0, "bb".toList, by decide⟩ }
  sdk :=
    { docker := true, download := 2, check := 2
      raw := ["make: *** No rule to make target 'package/feeds/wwand/wwand/download'.  Stop.",
        "make: *** No rule to make target 'package/feeds/wwand/wwand/check'.  Stop."].map
          String.toList }

/-- The bump then succeeds, with the new version and the hash of the old one. -/
theorem bump_fails_for_no_rule : ¬ Promise noRule := by
  have hresult : (bumpSource noRule).1 = true := by decide +kernel
  rintro (⟨hfalse, -⟩ | ⟨-, ver, sha, -, hbumped⟩)
  · rw [hresult] at hfalse
    exact absurd hfalse (by decide)
  · exact absurd hbumped.completed.download (by decide)

end OpenwrtFeed
