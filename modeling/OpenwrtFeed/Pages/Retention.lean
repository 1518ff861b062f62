import OpenwrtFeed.Pages.Content

/-!
# Keeping the last versions of each package

`apk-retention.py` runs in one published directory.  It groups the package files by name, keeps the
newest `N` of each group in apk's order, deletes the rest, and then writes four files over what is
left: `versions.json`, `.versions.tsv`, `packages.adb` and `index.json`.

* `apkMatch` is the `APK` pattern, `pnameOf` the name the shell takes from a file name.
* `keepList` is the sorted list of files that survive: `sortGroup` orders one group newest first,
  the first `N` of each go into the list.
* `entryFor` is one entry of `versions.json`.  The name, version and size always come from the
  file; build time and publish record are only filled in where the old entry has none.
* `retain` is `main`.  It fails — and with it the publish — on anything Python would raise.

The sort is the stable one with apk's comparison.  Python's own algorithm may differ from it only
on a comparison that is not an order.
-/

set_option autoImplicit false

namespace OpenwrtFeed

open Shell DirTree

/-! ## File names of packages -/

/-- `.apk` -/
def apkExt : Str := ".apk".toList

/-- The zero of each run of ten decimal digits Unicode has besides the ASCII ones. -/
def decimalZeros : List Nat :=
  [0x660, 0x6f0, 0x7c0, 0x966, 0x9e6, 0xa66, 0xae6, 0xb66, 0xbe6, 0xc66, 0xce6, 0xd66, 0xde6,
    0xe50, 0xed0, 0xf20, 0x1040, 0x1090, 0x17e0, 0x1810, 0x1946, 0x19d0, 0x1a80, 0x1a90, 0x1b50,
    0x1bb0, 0x1c40, 0x1c50, 0xa620, 0xa8d0, 0xa900, 0xa9d0, 0xa9f0, 0xaa50, 0xabf0, 0xff10,
    0x104a0, 0x10d30, 0x11066, 0x110f0, 0x11136, 0x111d0, 0x112f0, 0x11450, 0x114d0, 0x11650,
    0x116c0, 0x11730, 0x118e0, 0x11950, 0x11c50, 0x11d50, 0x11da0, 0x11f50, 0x16a60, 0x16ac0,
    0x16b50, 0x1d7ce, 0x1d7d8, 0x1d7e2, 0x1d7ec, 0x1d7f6, 0x1e140, 0x1e2f0, 0x1e4f0, 0x1e950,
    0x1fbf0]

/-- `\d` -/
def isDecimal (c : Char) : Bool :=
  c.isDigit || decimalZeros.any fun z ↦ decide (z ≤ c.toNat) && decide (c.toNat < z + 10)

/-- `r` and at least one digit: the release part of a version. -/
def isRelease (s : Str) : Bool :=
  match s with
  | 'r' :: ds => !ds.isEmpty && ds.all isDecimal
  | _ => false

/-- `APK.match`: name and version of `<name>-<version>-r<n>.apk`.  A version carries no dash, so the
greedy name ends at the second dash from the right.  The name is one line, as `.` says, and `$` lets
one newline follow. -/
def apkMatch (f : Str) : Option (Str × Str) :=
  let l := stripSuffix ['\n'] f
  if apkExt <:+ l then
    let b := stripSuffix apkExt l
    let nv := beforeLast '-' b
    let rel := afterLast '-' b
    let name := beforeLast '-' nv
    let ver := afterLast '-' nv
    if '-' ∈ b ∧ '-' ∈ nv ∧ isRelease rel = true ∧ ver ≠ [] ∧ name ≠ [] ∧ '\n' ∉ name then
      some (name, ver ++ '-' :: rel)
    else none
  else none

/-- `${pname%-*-*}` of `${n%.apk}`: the last two dash-separated fields taken off, if there are
two. -/
def pnameOf (n : Str) : Str :=
  let b := stripSuffix apkExt n
  if '-' ∈ b ∧ '-' ∈ beforeLast '-' b then beforeLast '-' (beforeLast '-' b) else b

/-! ## Which files stay -/

/-- The files of one package with their versions, in the order of the listing. -/
def group (fs : List Str) (name : Str) : List (Str × Str) :=
  fs.filterMap fun f ↦
    match apkMatch f with
    | some (n, v) => if n = name then some (v, f) else none
    | none => none

/-- The package names of a listing, sorted. -/
def groupNames (fs : List Str) : List Str :=
  sorted ((fs.filterMap fun f ↦ (apkMatch f).map Prod.fst).toFinset)

/-- One group, newest first; files apk considers equal stay in the order of the listing. -/
def sortGroup (vcmp : Str → Str → Ordering) (g : List (Str × Str)) : List (Str × Str) :=
  g.insertionSort fun a b ↦ vcmp a.1 b.1 ≠ .lt

/-- The files of one package that stay. -/
def newest (vcmp : Str → Str → Ordering) (n : Nat) (fs : List Str) (name : Str) : List Str :=
  ((sortGroup vcmp (group fs name)).take n).map Prod.snd

/-- The files of one package that go. -/
def outdated (vcmp : Str → Str → Ordering) (n : Nat) (fs : List Str) (name : Str) : List Str :=
  ((sortGroup vcmp (group fs name)).drop n).map Prod.snd

/-- `keep`: the files that stay, sorted. -/
def keepList (vcmp : Str → Str → Ordering) (n : Nat) (fs : List Str) : List Str :=
  ((groupNames fs).flatMap (newest vcmp n fs)).insertionSort (· ≤ ·)

/-- `dropped`: the files that go. -/
def dropList (vcmp : Str → Str → Ordering) (n : Nat) (fs : List Str) : List Str :=
  (groupNames fs).flatMap (outdated vcmp n fs)

/-! ## `versions.json` -/

/-- `built_at`: the newest time the payload carries. -/
def builtAt (T : Tools) (c : Content) : Option (Option Nat) :=
  (T.mtimes (c.text T)).map List.max?

/-- Python's truth value of an optional number. -/
def truthy (o : Option Nat) : Bool := o.getD 0 ≠ 0

/-- Python's truth value of an optional text. -/
def filled (o : Option Str) : Bool := o.getD [] ≠ []

/-- `entry`: the old one, if there is one, with what the file itself says. -/
def entryBase (T : Tools) (old : Versions) (f name version : Str) (c : Content) : VersionEntry :=
  let blank : VersionEntry := ⟨name, version, c.size T, none, none, none, none, []⟩
  { (old.lookup f).getD blank with name := name, version := version, size := c.size T }

/-- `if not entry.get("built")` -/
def withBuilt (T : Tools) (c : Content) (e : VersionEntry) : Option VersionEntry :=
  if truthy e.built then some e
  else (builtAt T c).map fun b ↦ if truthy b then { e with built := b } else e

/-- `if not entry.get("published")` -/
def withPublished (pub : Stamp) (e : VersionEntry) : VersionEntry :=
  if filled e.published then e
  else { e with published := some pub.time, commit := some pub.sha, run := some pub.run }

/-- The entry of a file that stays. -/
def entryFor (T : Tools) (old : Versions) (pub : Stamp) (f : Str) (c : Content) :
    Option VersionEntry :=
  (apkMatch f).bind fun nv ↦
    (withBuilt T c (entryBase T old f nv.1 nv.2 c)).map (withPublished pub)

/-- `old`: what the previous `versions.json` says.  Over a value that is not an object the script
stumbles at the first file it looks up. -/
def oldVersions (T : Tools) (t : Site) (d : Path) (kept : List Str) : Option Versions :=
  match t.read (d ++ [versionsName]) with
  | none => some []
  | some c =>
    match c.loads T with
    | .unreadable => some []
    | .entries m => some m
    | .other => if kept = [] then some [] else none

/-- One line of `.versions.tsv`: file, version, build time, publish time. -/
def tsvLine (f : Str) (e : VersionEntry) : Str :=
  f ++ ['\t'] ++ e.version ++ ['\t'] ++
    (if truthy e.built then (Nat.repr (e.built.getD 0)).toList else []) ++ ['\t'] ++
    e.published.getD [] ++ ['\n']

/-- `.versions.tsv` -/
def tsvText (m : Versions) : Str := m.flatMap fun p ↦ tsvLine p.1 p.2

/-! ## `index.json` -/

/-- `d[k] = v` on an ordered dictionary. -/
def dictSet (k v : Str) : List (Str × Str) → List (Str × Str)
  | [] => [(k, v)]
  | (k', v') :: d => if k' = k then (k, v) :: d else (k', v') :: dictSet k v d

/-- `removesuffix` -/
def removesuffix (src suffix : Str) : Str := if suffix = [] then src else stripSuffix suffix src

/-- The name an index entry goes under: without its ABI version, which the first tag of that kind
gives. -/
def abiName (p : PkgInfo) : Str :=
  match p.tags.find? fun t ↦ "openwrt:abiversion=".toList.isPrefixOf t with
  | some t => removesuffix p.name (afterLast '=' t)
  | none => p.name

/-- `parse_apk` -/
def parseApk (ps : List PkgInfo) : List (Str × Str) :=
  ps.foldl (fun d p ↦ dictSet (abiName p) p.version d) []

/-! ## `main` -/

/-- `os.remove` -/
def osRemove (t : Site) (p : Path) : Option Site := if t.isFile p then some (t.rm p) else none

/-- What `apk mkndx` reads from the files it indexes. -/
def indexed (T : Tools) (t : Site) (d : Path) (kept : List Str) : Option (List (Str × PkgInfo)) :=
  kept.mapM fun f ↦ do
    let c ← t.read (d ++ [f])
    let i ← T.pkgInfo (c.text T)
    some (f, i)

/-- The entries of `versions.json` for the files that stay. -/
def entries (T : Tools) (t : Site) (d : Path) (old : Versions) (pub : Stamp) (kept : List Str) :
    Option Versions :=
  kept.mapM fun f ↦ do
    let c ← t.read (d ++ [f])
    let e ← entryFor T old pub f c
    some (f, e)

/-- Steps 3 to 5: the four files over the files that stay. -/
def reindex (T : Tools) (arch : Str) (signed : Bool) (pub : Stamp) (d : Path) (kept : List Str)
    (t : Site) : Option Site := do
  let old ← oldVersions T t d kept
  let m ← entries T t d old pub kept
  let t ← t.write (d ++ [versionsName]) (.versions m)
  let t ← t.write (d ++ [tsvName]) (.bytes (tsvText m))
  let ix ← indexed T t d kept
  let t ← t.write (d ++ [adbName]) (.adb signed ix)
  t.write (d ++ [indexJsonName]) (.indexJson arch (parseApk (T.adbOrder (ix.map Prod.snd))))

/-- Steps 1 and 2: the files that go. -/
def prune (d : Path) (gone : List Str) (t : Site) : Option Site :=
  gone.foldlM (fun t f ↦ osRemove t (d ++ [f])) t

/-- `apk-retention.py --dir d --keep n --arch arch [--key …]`, publishing as `pub`.
`apk-retention.sh` insists on an architecture and on a version to keep. -/
def retain (T : Tools) (n : Nat) (arch : Str) (signed : Bool) (pub : Stamp) (d : Path) (t : Site) :
    Option Site :=
  if arch = [] ∨ n = 0 then none
  else do
    let u ← prune d (dropList T.vcmp n (t.children d)) t
    reindex T arch signed pub d (keepList T.vcmp n (t.children d)) u

/-! ## What the lists are about -/

/-- The line a package's file name is, and the name and version on it. -/
theorem apkMatch_eq_some {f name v : Str} (h : apkMatch f = some (name, v)) :
    ∃ ver rel, stripSuffix ['\n'] f = name ++ '-' :: (ver ++ '-' :: rel) ++ apkExt ∧
      v = ver ++ '-' :: rel ∧ '-' ∉ ver ∧ '-' ∉ rel := by
  simp only [apkMatch] at h
  split at h
  · rename_i hext
    split at h
    · rename_i hc
      rw [Option.some.injEq, Prod.mk.injEq] at h
      obtain ⟨hname, hv⟩ := h
      have hf := stripSuffix_append_of_suffix hext
      generalize stripSuffix apkExt (stripSuffix ['\n'] f) = b at *
      refine ⟨afterLast '-' (beforeLast '-' b), afterLast '-' b, ?_, hv.symm,
        afterLast_notMem '-' _, afterLast_notMem '-' _⟩
      rw [← hf, ← hname]
      conv_lhs => rw [← beforeLast_cons_afterLast hc.1, ← beforeLast_cons_afterLast hc.2.1]
      simp
    · cases h
  · cases h

/-- The file name of a version, and the name the shell takes from it. -/
theorem eq_of_apkMatch {f name v : Str} (h : apkMatch f = some (name, v)) :
    (f = name ++ '-' :: (v ++ apkExt) ∨ f = name ++ '-' :: (v ++ apkExt) ++ ['\n']) ∧
      pnameOf f = name := by
  obtain ⟨ver, rel, hl, rfl, hver, hrel⟩ := apkMatch_eq_some h
  have hbase : name ++ '-' :: (ver ++ '-' :: rel) = (name ++ '-' :: ver) ++ '-' :: rel := by simp
  have hbefore : beforeLast '-' (name ++ '-' :: (ver ++ '-' :: rel)) = name ++ '-' :: ver := by
    rw [hbase, beforeLast_append hrel]
  by_cases hnl : ['\n'] <:+ f
  · have hf := stripSuffix_append_of_suffix hnl
    rw [hl] at hf
    refine ⟨.inr (by rw [← hf]; simp), ?_⟩
    -- the extension does not go, but the last dash is before it
    have hext : ¬apkExt <:+ f := by
      rw [← hf]
      intro hc
      have hlast := List.IsSuffix.getLast hc (by decide)
      rw [List.getLast_concat] at hlast
      exact absurd hlast (by decide)
    have hstrip : stripSuffix apkExt f =
        name ++ '-' :: (ver ++ '-' :: rel) ++ (apkExt ++ ['\n']) := by
      rw [stripSuffix, if_neg hext, ← hf, List.append_assoc]
    have hcut := beforeLast_append_of_mem (c := '-')
      (s := name ++ '-' :: (ver ++ '-' :: rel)) (t := apkExt ++ ['\n']) (by simp) (by decide)
    rw [hbefore] at hcut
    rw [pnameOf, hstrip]
    simp only [hcut, beforeLast_append hver]
    rw [if_pos]
    exact ⟨by simp, by simp⟩
  · rw [stripSuffix, if_neg hnl] at hl
    refine ⟨.inl (by rw [hl]; simp), ?_⟩
    rw [pnameOf, hl, stripSuffix_append]
    simp only [hbefore, beforeLast_append hver]
    rw [if_pos]
    exact ⟨by simp, by simp⟩

theorem eq_of_apkMatch_of_suffix {f name v : Str} (h : apkMatch f = some (name, v))
    (hext : apkExt <:+ f) : f = name ++ '-' :: (v ++ apkExt) := by
  refine (eq_of_apkMatch h).1.resolve_right ?_
  rintro rfl
  have hlast := List.IsSuffix.getLast hext (by decide)
  rw [List.getLast_concat] at hlast
  exact absurd hlast (by decide)

theorem mem_group {fs : List Str} {name v f : Str} :
    (v, f) ∈ group fs name ↔ f ∈ fs ∧ apkMatch f = some (name, v) := by
  rw [group, List.mem_filterMap]
  constructor
  · rintro ⟨g, hg, h⟩
    cases hm : apkMatch g with
    | none => rw [hm] at h; cases h
    | some nv =>
      rw [hm] at h
      simp only at h
      split at h
      · rename_i hn
        cases h
        exact ⟨hg, by rw [hm, ← hn]⟩
      · cases h
  · rintro ⟨hf, hm⟩
    exact ⟨f, hf, by simp [hm]⟩

/-- The files of the package in a listing. -/
def filesNamed (fs : List Str) (name : Str) : List Str :=
  fs.filter fun f ↦ (apkMatch f).map Prod.fst = some name

theorem mem_filesNamed {fs : List Str} {name f : Str} :
    f ∈ filesNamed fs name ↔ f ∈ fs ∧ ∃ v, apkMatch f = some (name, v) := by
  rw [filesNamed, List.mem_filter]
  simp

theorem filesNamed_nodup {fs : List Str} (hfs : fs.Nodup) (name : Str) :
    (filesNamed fs name).Nodup := hfs.filter _

/-- A group is the package's files, each with its version. -/
theorem map_snd_group (fs : List Str) (name : Str) :
    (group fs name).map Prod.snd = filesNamed fs name := by
  induction fs with
  | nil => rfl
  | cons f fs ih =>
    rw [group, filesNamed] at ih ⊢
    rw [List.filterMap_cons, List.filter_cons]
    rcases hm : apkMatch f with _ | ⟨q, v⟩
    · simpa using ih
    · by_cases hq : q = name
      · simpa [hq] using ih
      · simpa [hq] using ih

theorem mem_groupNames {fs : List Str} {name : Str} :
    name ∈ groupNames fs ↔ ∃ f ∈ fs, ∃ v, apkMatch f = some (name, v) := by
  simp [groupNames]

theorem sortGroup_perm (vcmp : Str → Str → Ordering) (g : List (Str × Str)) :
    (sortGroup vcmp g).Perm g := List.perm_insertionSort _ _

/-- What stays of a package is of that package. -/
theorem of_mem_newest {vcmp : Str → Str → Ordering} {n : Nat} {fs : List Str} {name f : Str}
    (h : f ∈ newest vcmp n fs name) : f ∈ fs ∧ ∃ v, apkMatch f = some (name, v) := by
  obtain ⟨⟨v, g⟩, hg, rfl⟩ := List.mem_map.mp h
  have hmem := mem_group.mp ((sortGroup_perm vcmp _).mem_iff.mp (List.mem_of_mem_take hg))
  exact ⟨hmem.1, v, hmem.2⟩

/-- So is what goes. -/
theorem of_mem_outdated {vcmp : Str → Str → Ordering} {n : Nat} {fs : List Str} {name f : Str}
    (h : f ∈ outdated vcmp n fs name) : f ∈ fs ∧ ∃ v, apkMatch f = some (name, v) := by
  obtain ⟨⟨v, g⟩, hg, rfl⟩ := List.mem_map.mp h
  have hmem := mem_group.mp ((sortGroup_perm vcmp _).mem_iff.mp (List.mem_of_mem_drop hg))
  exact ⟨hmem.1, v, hmem.2⟩

/-- Looking for a file in all packages is looking in its own. -/
theorem mem_flatMap_groupNames {fs : List Str} {sel : Str → List Str}
    (hsel : ∀ q, ∀ g ∈ sel q, g ∈ fs ∧ ∃ w, apkMatch g = some (q, w)) {f name v : Str}
    (hf : apkMatch f = some (name, v)) : f ∈ (groupNames fs).flatMap sel ↔ f ∈ sel name := by
  rw [List.mem_flatMap]
  constructor
  · rintro ⟨q, -, hq⟩
    obtain ⟨-, w, hw⟩ := hsel q f hq
    rw [hf, Option.some.injEq, Prod.mk.injEq] at hw
    rwa [hw.1]
  · intro h
    exact ⟨name, mem_groupNames.mpr ⟨f, (hsel name f h).1, v, hf⟩, h⟩

theorem mem_keepList {vcmp : Str → Str → Ordering} {n : Nat} {fs : List Str} {f name v : Str}
    (hf : apkMatch f = some (name, v)) : f ∈ keepList vcmp n fs ↔ f ∈ newest vcmp n fs name := by
  rw [keepList, (List.perm_insertionSort _ _).mem_iff]
  exact mem_flatMap_groupNames (fun _ _ hg ↦ of_mem_newest hg) hf

theorem mem_dropList {vcmp : Str → Str → Ordering} {n : Nat} {fs : List Str} {f name v : Str}
    (hf : apkMatch f = some (name, v)) : f ∈ dropList vcmp n fs ↔ f ∈ outdated vcmp n fs name :=
  mem_flatMap_groupNames (fun _ _ hg ↦ of_mem_outdated hg) hf

/-- Only package files are deleted. -/
theorem of_mem_dropList {vcmp : Str → Str → Ordering} {n : Nat} {fs : List Str} {f : Str}
    (h : f ∈ dropList vcmp n fs) : f ∈ fs ∧ (apkMatch f).isSome = true := by
  obtain ⟨name, -, h⟩ := List.mem_flatMap.mp h
  obtain ⟨hf, v, hv⟩ := of_mem_outdated h
  exact ⟨hf, by rw [hv]; rfl⟩

/-- Only package files are indexed. -/
theorem of_mem_keepList {vcmp : Str → Str → Ordering} {n : Nat} {fs : List Str} {f : Str}
    (h : f ∈ keepList vcmp n fs) : f ∈ fs ∧ (apkMatch f).isSome = true := by
  obtain ⟨name, -, h⟩ := List.mem_flatMap.mp ((List.perm_insertionSort _ _).mem_iff.mp h)
  obtain ⟨hf, v, hv⟩ := of_mem_newest h
  exact ⟨hf, by rw [hv]; rfl⟩

/-- Files that are no packages do not matter. -/
theorem group_filter (fs : List Str) :
    group (fs.filter fun f ↦ (apkMatch f).isSome) = group fs := by
  funext name
  rw [group, group, List.filterMap_filter]
  refine List.filterMap_congr fun f _ ↦ ?_
  cases apkMatch f <;> rfl

theorem groupNames_filter (fs : List Str) :
    groupNames (fs.filter fun f ↦ (apkMatch f).isSome) = groupNames fs := by
  rw [groupNames, groupNames, List.filterMap_filter]
  refine congrArg (fun l ↦ sorted (List.toFinset l)) (List.filterMap_congr fun f _ ↦ ?_)
  cases apkMatch f <;> rfl

/-- Two listings with the same package files are treated alike. -/
theorem keepList_congr {fs fs' : List Str}
    (h : (fs.filter fun f ↦ (apkMatch f).isSome) = fs'.filter fun f ↦ (apkMatch f).isSome)
    (vcmp : Str → Str → Ordering) (n : Nat) : keepList vcmp n fs = keepList vcmp n fs' := by
  have hg : group fs = group fs' := by rw [← group_filter fs, h, group_filter]
  have hn : newest vcmp n fs = newest vcmp n fs' := by funext name; rw [newest, newest, hg]
  rw [keepList, keepList, hn, ← groupNames_filter fs, h, groupNames_filter]

theorem dropList_congr {fs fs' : List Str}
    (h : (fs.filter fun f ↦ (apkMatch f).isSome) = fs'.filter fun f ↦ (apkMatch f).isSome)
    (vcmp : Str → Str → Ordering) (n : Nat) : dropList vcmp n fs = dropList vcmp n fs' := by
  have hg : group fs = group fs' := by rw [← group_filter fs, h, group_filter]
  have hn : outdated vcmp n fs = outdated vcmp n fs' := by funext name; rw [outdated, outdated, hg]
  rw [dropList, dropList, hn, ← groupNames_filter fs, h, groupNames_filter]

end OpenwrtFeed
