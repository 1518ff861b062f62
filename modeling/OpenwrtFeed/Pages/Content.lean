import OpenwrtFeed.Lib.Shell
import OpenwrtFeed.Lib.Tree

/-!
# The site and the files on it

The gh-pages branch is a directory tree of files.  Most of them the publisher only copies; the ones
it writes itself are kept in the form it writes them from, because that is the form it reads them
back in:

* `.published`, one line of four words (`Stamp`);
* `versions.json`, a map from file names to what is known about the file (`VersionEntry`);
* `packages.adb`, rebuilt by `apk mkndx` over a list of package files, and `index.json` after it;
* `index.html`, as the list of its pieces (`Frag`), so that its links can be told from its text.

`Content.text` is the text of a file.  Where it is up to a program that is not part of the
repository — Python's JSON writer, `apk` — it is taken from `Tools`, together with the few other
answers the scripts get from such programs.
-/

set_option autoImplicit false

namespace OpenwrtFeed

open Shell DirTree

/-! ## File contents -/

/-- What `.published` says about a directory: when, from which channel, from which commit and by
which run it was published. -/
structure Stamp where
  time : Str
  channel : Str
  sha : Str
  run : Str
  deriving DecidableEq, Repr

/-- The line `stamp` prints. -/
def Stamp.line (s : Stamp) : Str :=
  s.time ++ [' '] ++ s.channel ++ [' '] ++ s.sha ++ [' '] ++ s.run ++ ['\n']

/-- One entry of `versions.json`.  A field that the JSON object does not have is `none`; `other` is
whatever else an entry carries along. -/
structure VersionEntry where
  name : Str
  version : Str
  size : Nat
  built : Option Nat
  published : Option Str
  commit : Option Str
  run : Option Str
  other : List (Str × Str)
  deriving DecidableEq, Repr

/-- `versions.json`: an entry for each file name. -/
abbrev Versions := List (Str × VersionEntry)

/-- What `apk` knows about one package file: its name, its version and its tags. -/
structure PkgInfo where
  name : Str
  version : Str
  tags : List Str
  deriving DecidableEq, Repr

/-- A piece of a generated page. -/
inductive Frag
  | text (s : String)
  | str (s : Str)
  | link (href label : Str)
  deriving DecidableEq, Repr

/-- What a file on the site contains. -/
inductive Content
  /-- A file the publisher only copies. -/
  | bytes (b : Str)
  /-- `.published` -/
  | stamp (s : Stamp)
  /-- `versions.json` -/
  | versions (m : Versions)
  /-- `packages.adb`, rebuilt over the named files with or without a signing key. -/
  | adb (signed : Bool) (files : List (Str × PkgInfo))
  /-- `index.json`: an architecture, and a version for each package name. -/
  | indexJson (arch : Str) (packages : List (Str × Str))
  /-- `index.html` -/
  | page (fs : List Frag)
  deriving DecidableEq, Repr

/-- The site: the working copy of the branch, without `.git`. -/
abbrev Site := Tree Str Content

abbrev Path := List Str

/-! ## Programs outside the repository -/

/-- What became of reading a `versions.json`. -/
inductive Loaded
  /-- Not readable as JSON; `apk-retention.py` says so and goes on without it. -/
  | unreadable
  /-- An object of entries. -/
  | entries (m : Versions)
  /-- Some other JSON value, over which the script stumbles. -/
  | other

/-- The answers of the programs the scripts call. -/
structure Tools where
  /-- The text Python writes for a `versions.json`. -/
  versionsText : Versions → Str
  /-- Reading a `versions.json` that came from elsewhere. -/
  loadJson : Str → Loaded
  /-- The bytes of an index written by `apk mkndx`. -/
  adbText : Bool → List (Str × PkgInfo) → Str
  /-- The text of an `index.json`. -/
  indexText : Str → List (Str × Str) → Str
  /-- `apk version -t a b`, as `vcmp` reads it. -/
  vcmp : Str → Str → Ordering
  /-- The `mtime:` lines of `apk adbdump` on a package. -/
  mtimes : Str → Option (List Nat)
  /-- What `apk mkndx` reads from a package. -/
  pkgInfo : Str → Option PkgInfo
  /-- The order in which `apk adbdump` lists the entries of an index. -/
  adbOrder : List PkgInfo → List PkgInfo
  /-- `numfmt --to=iec --suffix=B` -/
  numfmt : Nat → Str
  /-- `date -u -d @… +%Y-%m-%d`, empty if `date` refuses. -/
  dateDay : Str → Str

/-- The text of a page. -/
def Frag.render : Frag → Str
  | .text s => s.toList
  | .str s => s
  | .link href label => "<a href=\"".toList ++ href ++ "\">".toList ++ label ++ "</a>".toList

/-- The text of a file. -/
def Content.text (T : Tools) : Content → Str
  | .bytes b => b
  | .stamp s => s.line
  | .versions m => T.versionsText m
  | .adb signed files => T.adbText signed files
  | .indexJson arch packages => T.indexText arch packages
  | .page fs => fs.flatMap Frag.render

/-- `stat -c%s`, `os.path.getsize`. -/
def Content.size (T : Tools) (c : Content) : Nat := (c.text T).length

/-- `json.load` on a file. -/
def Content.loads (T : Tools) : Content → Loaded
  | .versions m => .entries m
  | c => T.loadJson (c.text T)

/-! ## Names the scripts look for -/

/-- `.published` -/
def publishedName : Str := ".published".toList
/-- `index.html` -/
def indexName : Str := "index.html".toList
/-- `versions.json` -/
def versionsName : Str := "versions.json".toList
/-- `.versions.tsv` -/
def tsvName : Str := ".versions.tsv".toList
/-- `packages.adb` -/
def adbName : Str := "packages.adb".toList
/-- `index.json` -/
def indexJsonName : Str := "index.json".toList
/-- `keys` -/
def keysName : Str := "keys".toList
/-- `.nojekyll` -/
def nojekyllName : Str := ".nojekyll".toList

/-- The names `dir/*` expands to: everything that does not start with a dot, sorted. -/
def globAll (t : Site) (d : Path) : List Str := (t.children d).filter fun n ↦ n.head? ≠ some '.'

theorem mem_globAll {t : Site} {d : Path} {n : Str} :
    n ∈ globAll t d ↔ t.get (d ++ [n]) ≠ none ∧ n.head? ≠ some '.' := by
  simp [globAll]

end OpenwrtFeed
