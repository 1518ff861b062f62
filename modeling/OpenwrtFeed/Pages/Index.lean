import OpenwrtFeed.Pages.Content

/-!
# The directory indexes

GitHub Pages serves no listings, so every publish writes an `index.html` into every directory of the
site, including the ones it did not touch.  What a page says comes from the site alone:

* `fileTime` — a file is as old as the nearest `.published` at or above it;
* `dirTime` — a directory is as new as the newest `.published` inside it;
* `tsvRows` — in a tree with several versions of a package each file has its own dates, read from
  `.versions.tsv` the way `read` splits a line at tabs;
* `breadcrumb`, `landing` — the way up, and the start page with one cell for each tree.

`writeIndexes` goes through the directories one by one, writing each page next to the ones already
written.  The pages do not see one another: `pageOf_congr` says that a page is determined by what is
on the site apart from the `index.html` files, and from that `get_writeIndexes` describes the result
in one step, whatever the order.
-/

set_option autoImplicit false

namespace OpenwrtFeed

open Shell DirTree

/-! ## Dates -/

/-- The first word of a line. -/
def firstWord (s : Str) : Str := (words s).headD []

/-- `stamp_time`: the first word of the first line.  `read` fails on a file without a newline. -/
def stampTime (T : Tools) (t : Site) (p : Path) : Str :=
  match t.read p with
  | some c =>
    let s := c.text T
    if '\n' ∈ s then firstWord (beforeFirst '\n' s) else []
  | none => []

/-- `file_time`: the time of the nearest stamp at or above `d`. -/
def fileTime (T : Tools) (t : Site) (d : Path) : Str :=
  match d.inits.reverse.find? fun q ↦ t.has (q ++ [publishedName]) with
  | some q => stampTime T t (q ++ [publishedName])
  | none => []

/-- The `.published` files at or below `e`. -/
def stampsBelow (t : Site) (e : Path) : List Path :=
  sorted (t.dom.filter fun q ↦ e <+: q ∧ q.getLast? = some publishedName ∧ t.isFile q = true)

/-- A word that starts like a date: four digits and a dash. -/
def isDated (w : Str) : Bool :=
  decide (4 < w.length) && (w.take 4).all Char.isDigit && w[4]? == some '-'

/-- `dir_time`: the newest of the stamps at or below `e`. -/
def dirTime (T : Tools) (t : Site) (e : Path) : Str :=
  let texts := (stampsBelow t e).flatMap fun q ↦ ((t.read q).map (Content.text T)).getD []
  ((((lines texts).map firstWord).filter isDated).max?).getD []

/-- `day` -/
def day (s : Str) : Str := beforeFirst 'T' s

/-- `hm` -/
def hm (s : Str) : Str := (afterFirst 'T' s).take 5

/-! ## `.versions.tsv` -/

/-- One row of `.versions.tsv` as the shell has it: file, version, build time, publish time. -/
structure TsvRow where
  file : Str
  version : Str
  built : Str
  published : Str
  deriving DecidableEq, Repr

/-- The next field of a line: `read` takes a run of tabs for one separator. -/
def cutField (s : Str) : Str × Str :=
  let s := s.dropWhile (· == '\t')
  (s.takeWhile (· ≠ '\t'), s.dropWhile (· ≠ '\t'))

/-- `IFS=$'\t' read -r f ver built pub`. -/
def readRow (s : Str) : TsvRow :=
  let (f, s) := cutField s
  let (ver, s) := cutField s
  let (built, s) := cutField s
  ⟨f, ver, built, ((s.dropWhile (· == '\t')).reverse.dropWhile (· == '\t')).reverse⟩

/-- The rows the loop of `write_index` reads.  A last line without a newline is not read. -/
def tsvRows (s : Str) : List TsvRow :=
  ((s.splitOn '\n').dropLast.map readRow).filter fun r ↦ r.file ≠ []

/-- The row of a file; a later row replaces an earlier one. -/
def tsvRow (rows : List TsvRow) (n : Str) : TsvRow :=
  (rows.reverse.find? fun r ↦ r.file = n).getD ⟨n, [], [], []⟩

/-- The rows of the directory `d`. -/
def rowsOf (T : Tools) (t : Site) (d : Path) : List TsvRow :=
  match t.read (d ++ [tsvName]) with
  | some c => tsvRows (c.text T)
  | none => []

/-! ## The way up -/

/-- `n` times `../`, or `./` for none. -/
def hrefUp (n : Nat) : Str :=
  if n = 0 then "./".toList else (List.replicate n "../".toList).flatten

/-- `breadcrumb` -/
def breadcrumb (d : Path) : List Frag :=
  .link (hrefUp d.length) "openwrt-repo".toList ::
    d.zipIdx.flatMap fun p ↦ [.text " / ", .link (hrefUp (d.length - (p.2 + 1))) p.1]

/-! ## The start page -/

/-- The two channels. -/
def channels : List Str := ["stable".toList, "main".toList]

/-- `find d -mindepth 1 -maxdepth 1 -type d -printf '%f\n'`, if `d` is there. -/
def subdirs (t : Site) (d : Path) : List Str :=
  if t.isDir d = true then (t.children d).filter fun n ↦ t.isDir (d ++ [n]) else []

/-- `sort -u` on names, and the unquoted expansion they are then used in.  The words are taken as
they are: none of them is a pattern that matches something in the work directory. -/
def sortedWords (ns : List Str) : List Str := (sorted ns.toFinset).flatMap words

/-- `rels`: the releases either channel has. -/
def releases (t : Site) : List Str := sortedWords (channels.flatMap fun ch ↦ subdirs t [ch])

/-- `archs`: the architectures any of these releases has. -/
def archs (t : Site) : List Str :=
  sortedWords (channels.flatMap fun ch ↦ (releases t).flatMap fun r ↦ subdirs t [ch, r])

/-- A path as it stands in a link. -/
def joinPath (p : Path) : Str := ['/'].intercalate p

/-- `ddimension-feed.apk` -/
def feedApkName : Str := "ddimension-feed.apk".toList

/-- An empty table cell. -/
def dash : Frag := .text "<span class=\"dim\">—</span>"

/-- A cell of the feed table. -/
def feedCell (t : Site) (d : Path) : List Frag :=
  if t.isFile (d ++ [adbName]) = true then
    .link (joinPath d ++ ['/']) "tree".toList ::
      if t.isFile (d ++ [feedApkName]) = true then
        [.text " · ", .link (joinPath (d ++ [feedApkName])) feedApkName]
      else []
  else [dash]

/-- The columns of the feed table: each channel with each release. -/
def feedColumns (t : Site) : List (Str × Str) :=
  channels.flatMap fun ch ↦ (releases t).map fun r ↦ (ch, r)

/-- One row of the feed table. -/
def feedRow (t : Site) (a : Str) : List Frag :=
  let cell (c : Str × Str) : List Frag :=
    .text "<td>" :: (feedCell t [c.1, c.2, a]).concat (.text "</td>")
  .text "<tr><td>" :: .str a :: .text "</td>" ::
    ((feedColumns t).flatMap cell).concat (.text "</tr>")

/-- The head of the feed table. -/
def feedHead (t : Site) : List Frag :=
  let cell (c : Str × Str) : List Frag :=
    [.text "<th>", .str c.1, .text " · ", .str c.2, .text "</th>"]
  .text "<h2>Feeds</h2><table><tr><th>Arch</th>" ::
    ((feedColumns t).flatMap cell).concat (.text "</tr>")

/-- The feed table: a row for each architecture, a column for each channel and release. -/
def feedTable (t : Site) : List Frag :=
  feedHead t ++ ((archs t).flatMap (feedRow t)).concat (.text "</table>")

/-- `tools` -/
def toolsName : Str := "tools".toList

/-- The files of one tool directory, as links. -/
def toolCell (t : Site) (d : Path) : List Frag :=
  let fs := (globAll t d).filter fun n ↦
    t.isFile (d ++ [n]) && decide (n ≠ indexName ∧ n ≠ publishedName)
  match fs with
  | [] => [dash]
  | n :: ns =>
    .link (joinPath (d ++ [n])) n ::
      ns.flatMap fun m ↦ [.text " · ", .link (joinPath (d ++ [m])) m]

/-- What the tools are for. -/
def toolsIntro : List Frag :=
  [.text "<h2>Tools</h2>",
    .text ("<p><code>rsim-card</code> is what a <b>SIM host</b> needs — the machine whose reader "
      ++
      "holds the card for"),
    .text (" <code>option rsim_reader ssh:&lt;user&gt;@&lt;host&gt;:&lt;reader&gt;</code>. wwand runs " ++
      "it there <i>by name</i>,"),
    .text (" so it belongs in that machine&#39;s PATH; these builds are linked statically and need "
      ++
      "nothing installed:</p>"),
    .text "<pre>install -m755 rsim-card /usr/local/bin/rsim-card</pre>",
    .text "<table><tr><th>Channel</th><th>Arch</th><th>Tool</th></tr>"]

/-- One row of the tools table. -/
def toolRow (t : Site) (ch a : Str) : List Frag :=
  .text "<tr><td>" :: .str ch :: .text "</td><td>" :: .str a :: .text "</td><td>" ::
    (toolCell t [toolsName, ch, a]).concat (.text "</td></tr>")

/-- The tools table, once a tool has been published. -/
def toolsTable (t : Site) : List Frag :=
  if t.isDir [toolsName] = true then
    let rows (ch : Str) : List Frag :=
      (sortedWords (subdirs t [toolsName, ch])).flatMap (toolRow t ch)
    toolsIntro ++ (channels.flatMap rows).concat (.text "</table>")
  else []

/-- How to set a device up. -/
def setupText (siteUrl : Str) : List Frag :=
  [.text "<h2>Set up a device</h2>",
    .text ("<p>Install <code>ddimension-feed</code> once, by name, from the tree that matches the "
      ++
      "device —"),
    .text (" it carries the feed address and the signing key, and keeps both current with " ++
      "<code>apk upgrade</code>:</p>"),
    .text "<pre>apk --allow-untrusted \\\n  -X ", .str siteUrl,
    .text ("/stable/&lt;release&gt;/&lt;arch&gt;/packages.adb \\\n  add ddimension-feed\napk update\n" ++
      "apk add wwand luci-app-wwand</pre>"),
    .text ("<p><b>stable</b> = releases, <b>main</b> = development. A downloaded " ++
      "<code>ddimension-feed.apk</code>"),
    .text (" works too: <code>apk add --allow-untrusted ./ddimension-feed.apk &amp;&amp; apk update " ++
      "&amp;&amp; apk add ddimension-feed</code>"),
    .text (" — the last step turns the file install into a normal one, otherwise apk keeps it " ++
      "pinned and never upgrades it."),
    .text " Details: ",
    .link "https://github.com/ddimension/openwrt-repo#how-tos".toList "README".toList,
    .text ".</p>"]

/-- The sentence about the mirror, the images, the tools and the keys. -/
def aboutText (t : Site) : List Frag :=
  let tools : List Frag :=
    if t.isDir [toolsName] = true then
      [.text " host tools: ", .link "tools/".toList "tools/".toList, .text ","]
    else []
  .text ("<p>The top-level <code>&lt;release&gt;/</code> trees mirror <code>stable/</code> for " ++
      "devices set up") ::
    .text " before the channels existed. Device images: " ::
    .link "images/".toList "images/".toList :: .text "," ::
    (tools ++ [.text " signing keys:", .text " ", .link "keys/".toList "keys/".toList,
      .text ". Source: ",
      .link "https://github.com/ddimension/openwrt-repo".toList "ddimension/openwrt-repo".toList,
      .text ".</p>"])

/-- `landing` -/
def landing (siteUrl : Str) (t : Site) : List Frag :=
  if releases t = [] then []
  else
    setupText siteUrl ++ feedTable t ++ aboutText t ++
      (toolsTable t).concat (.text "<h2>Everything</h2>")

/-! ## A page -/

/-- The stylesheet every page carries. -/
def css : String :=
  (":root\x7bcolor-scheme:light dark;--fg:#1f2328;--bg:#fff;--mut:#59636e;--line:#d1d9e0;--acc:#0969da;--hi:rgba(127,127,127,.09)\x7d\n" ++
  "@media(prefers-color-scheme:dark)\x7b:root\x7b--fg:#e6edf3;--bg:#0d1117;--mut:#9198a1;--line:#3d444d;--acc:#4493f8\x7d\x7d\n" ++
  "body\x7bfont:14px/1.55 ui-monospace,SFMono-Regular,Menlo,Consolas,monospace;margin:2em auto;max-width:78em;padding:0 1.2em;color:var(--fg);background:var(--bg)\x7d\n" ++
  "a\x7bcolor:var(--acc);text-decoration:none\x7da:hover\x7btext-decoration:underline\x7d\n" ++
  "h1\x7bfont-size:1.25em;font-weight:600;border-bottom:1px solid var(--line);padding-bottom:.4em\x7d\n" ++
  "h2\x7bfont-size:1.05em;font-weight:600;margin-top:2em\x7d\n" ++
  "p\x7bcolor:var(--mut);max-width:62em\x7d\n" ++
  "code,pre\x7bbackground:var(--hi);border-radius:4px\x7dcode\x7bpadding:.1em .3em\x7dpre\x7bpadding:.8em 1em;overflow-x:auto\x7d\n" ++
  "table\x7bborder-collapse:collapse;margin:.5em 0\x7d\n" ++
  "th,td\x7bpadding:.3em 1.4em .3em 0;text-align:left;vertical-align:top\x7d\n" ++
  "th\x7bborder-bottom:1px solid var(--line);color:var(--mut);font-weight:600\x7d\n" ++
  "td.n\x7btext-align:right\x7dtr:hover td\x7bbackground:var(--hi)\x7d\n" ++
  ".dim\x7bcolor:var(--mut)\x7d")

/-- The row of one entry of the directory `d`. -/
def entryRow (T : Tools) (t : Site) (d : Path) (rows : List TsvRow) (ft : Str) (n : Str) :
    List Frag :=
  match t.get (d ++ [n]) with
  | some .dir =>
    let tm := dirTime T t (d ++ [n])
    [.text "<tr><td>", .link (n ++ ['/']) (n ++ ['/']), .text "</td><td></td><td>", .str (day tm),
      .text "</td><td>", .str (hm tm), .text "</td></tr>"]
  | some (.file c) =>
    let size := T.numfmt (c.size T)
    if rows ≠ [] then
      let r := tsvRow rows n
      let built := if r.built = [] then [] else T.dateDay r.built
      let pub := day r.published
      [.text "<tr><td>", .link n n, .text "</td><td>",
        if r.version = [] then dash else .str r.version,
        .text "</td><td class=\"n\">", .str size, .text "</td><td>",
        if built = [] then dash else .str built,
        .text "</td><td>", .str (if pub = [] then day ft else pub), .text "</td></tr>"]
    else
      [.text "<tr><td>", .link n n, .text "</td><td class=\"n\">", .str size, .text "</td><td>",
        .str (day ft), .text "</td><td>", .str (hm ft), .text "</td></tr>"]
  | none => []

/-- The head of a page. -/
def pageHead (d : Path) : List Frag :=
  .text "<!doctype html><meta charset=\"utf-8\">" ::
    .text "<meta name=\"viewport\" content=\"width=device-width,initial-scale=1\">" ::
    .text "<title>openwrt-repo/" :: .str (joinPath d) :: .text "</title><style>" :: .text css ::
    .text "</style>" :: .text "<h1>" :: (breadcrumb d).concat (.text "</h1>")

/-- The head of the listing, which has other columns where several versions are kept. -/
def tableHead (several : Bool) : List Frag :=
  if several then
    [.text "<p>Several versions of a package are kept here, newest first.",
      .text " To go back: <code>apk add &lt;package&gt;=&lt;version&gt;</code>",
      .text " — that pins it; <code>apk add &lt;package&gt;</code> lifts the pin again.</p>",
      .text ("<table><tr><th>Name</th><th>Version</th><th>Size</th><th>Built</th>" ++
        "<th>Published</th></tr>")]
  else [.text "<table><tr><th>Name</th><th>Size</th><th>Date</th><th>Time (UTC)</th></tr>"]

/-- The row that leads up. -/
def parentRow (d : Path) : List Frag :=
  if d = [] then []
  else
    [.text "<tr><td>", .link "../".toList "../".toList,
      .text "</td><td></td><td></td><td></td></tr>"]

/-- What `write_index` writes for the directory `d`. -/
def pageOf (T : Tools) (siteUrl : Str) (t : Site) (d : Path) : List Frag :=
  let rows := rowsOf T t d
  let names := (globAll t d).filter fun n ↦ n ≠ indexName
  pageHead d ++ (if d = [] then landing siteUrl t else []) ++ tableHead (rows ≠ []) ++
    parentRow d ++ (names.flatMap (entryRow T t d rows (fileTime T t d))).concat
      (.text "</table>\n")

/-- `write_index` -/
def writeIndex (T : Tools) (siteUrl : Str) (t : Site) (d : Path) : Option Site :=
  t.write (d ++ [indexName]) (.page (pageOf T siteUrl t d))

/-- `write_indexes` -/
def writeIndexes (T : Tools) (siteUrl : Str) (t : Site) : Option Site :=
  t.dirs.foldlM (writeIndex T siteUrl) t

/-! ## A page does not see the other pages -/

/-- The two sites differ at most in their `index.html` files. -/
structure SameButIndex (t u : Site) : Prop where
  get_eq : ∀ q, q.getLast? ≠ some indexName → t.get q = u.get q
  dir_iff : ∀ q, t.get q = some .dir ↔ u.get q = some .dir

theorem SameButIndex.refl (t : Site) : SameButIndex t t := ⟨fun _ _ ↦ rfl, fun _ ↦ Iff.rfl⟩

theorem SameButIndex.symm {t u : Site} (h : SameButIndex t u) : SameButIndex u t :=
  ⟨fun q hq ↦ (h.get_eq q hq).symm, fun q ↦ (h.dir_iff q).symm⟩

theorem SameButIndex.trans {t u v : Site} (h : SameButIndex t u) (h' : SameButIndex u v) :
    SameButIndex t v :=
  ⟨fun q hq ↦ (h.get_eq q hq).trans (h'.get_eq q hq), fun q ↦ (h.dir_iff q).trans (h'.dir_iff q)⟩

namespace SameButIndex

variable {t u : Site} (h : SameButIndex t u)
include h

theorem get_concat {n : Str} (hn : n ≠ indexName) (d : Path) :
    t.get (d ++ [n]) = u.get (d ++ [n]) :=
  h.get_eq _ (by simpa using hn)

theorem read_concat {n : Str} (hn : n ≠ indexName) (d : Path) :
    t.read (d ++ [n]) = u.read (d ++ [n]) := by
  simp only [Tree.read, h.get_concat hn]

theorem isFile_concat {n : Str} (hn : n ≠ indexName) (d : Path) :
    t.isFile (d ++ [n]) = u.isFile (d ++ [n]) := by
  simp only [Tree.isFile, h.get_concat hn]

theorem isDir_eq (q : Path) : t.isDir q = u.isDir q := by
  rw [Bool.eq_iff_iff, Tree.isDir_iff, Tree.isDir_iff, h.dir_iff]

theorem stampTime_eq (T : Tools) (q : Path) :
    stampTime T t (q ++ [publishedName]) = stampTime T u (q ++ [publishedName]) := by
  simp only [stampTime, h.read_concat (n := publishedName) (by decide)]

theorem fileTime_eq (T : Tools) (d : Path) : fileTime T t d = fileTime T u d := by
  have hhas : ∀ q : Path, t.has (q ++ [publishedName]) = u.has (q ++ [publishedName]) := fun q ↦ by
    simp only [Tree.has, h.get_concat (n := publishedName) (by decide)]
  simp only [fileTime, hhas, h.stampTime_eq]

/-- A `.published` is read alike on both sites. -/
theorem get_of_published {q : Path} (hq : q.getLast? = some publishedName) : t.get q = u.get q :=
  h.get_eq q (by rw [hq]; decide)

theorem stampsBelow_eq (e : Path) : stampsBelow t e = stampsBelow u e := by
  rw [stampsBelow, stampsBelow]
  congr 1
  ext q
  simp only [Finset.mem_filter, Tree.mem_dom, Tree.isFile_iff]
  refine and_congr_left_iff.mpr ?_ |>.trans (and_congr_right_iff.mpr ?_)
  · rintro ⟨-, hq, -⟩
    rw [h.get_of_published hq]
  · refine fun _ ↦ and_congr_right fun _ ↦ and_congr_right fun hq ↦ ?_
    rw [h.get_of_published hq]

theorem dirTime_eq (T : Tools) (e : Path) : dirTime T t e = dirTime T u e := by
  have htexts : ((stampsBelow t e).flatMap fun q ↦ ((t.read q).map (Content.text T)).getD []) =
      (stampsBelow u e).flatMap fun q ↦ ((u.read q).map (Content.text T)).getD [] := by
    rw [h.stampsBelow_eq]
    refine List.flatMap_congr fun q hq ↦ ?_
    rw [stampsBelow, mem_sorted, Finset.mem_filter] at hq
    simp only [Tree.read, h.get_of_published hq.2.2.1]
  simp only [dirTime, htexts]

theorem rowsOf_eq (T : Tools) (d : Path) : rowsOf T t d = rowsOf T u d := by
  simp only [rowsOf, h.read_concat (n := tsvName) (by decide)]

theorem subdirs_eq (d : Path) : subdirs t d = subdirs u d := by
  rw [subdirs, subdirs, h.isDir_eq]
  split
  · refine Tree.children_filter_congr fun n ↦ ?_
    rw [Tree.isDir_iff, Tree.isDir_iff, h.dir_iff]
    exact and_congr_left fun hd ↦ iff_of_true (by rw [(h.dir_iff _).mpr hd]; simp) (by simp [hd])
  · rfl

theorem releases_eq : releases t = releases u := by
  simp only [releases, h.subdirs_eq]

theorem archs_eq : archs t = archs u := by
  simp only [archs, h.releases_eq, h.subdirs_eq]

theorem feedCell_eq (d : Path) : feedCell t d = feedCell u d := by
  simp only [feedCell, h.isFile_concat (n := adbName) (by decide),
    h.isFile_concat (n := feedApkName) (by decide)]

theorem feedRow_eq : feedRow t = feedRow u := by
  funext a
  simp only [feedRow, feedColumns, h.releases_eq, h.feedCell_eq]

theorem feedTable_eq : feedTable t = feedTable u := by
  simp only [feedTable, feedHead, feedColumns, h.releases_eq, h.archs_eq, h.feedRow_eq]

/-- A listing without its `index.html`. -/
theorem names_eq (d : Path) (p p' : Str → Bool)
    (hp : ∀ n, n ≠ indexName → t.get (d ++ [n]) ≠ none → p n = p' n) :
    (globAll t d).filter (fun n ↦ p n && decide (n ≠ indexName)) =
      (globAll u d).filter fun n ↦ p' n && decide (n ≠ indexName) := by
  rw [globAll, globAll, List.filter_filter, List.filter_filter]
  refine Tree.children_filter_congr fun n ↦ ?_
  simp only [Bool.and_eq_true, decide_eq_true_eq]
  by_cases hn : n = indexName
  · simp [hn]
  · rw [← h.get_concat hn]
    refine and_congr_right fun hne ↦ ?_
    rw [hp n hn hne]

theorem toolCell_eq (d : Path) : toolCell t d = toolCell u d := by
  have hfs : ((globAll t d).filter fun n ↦
        t.isFile (d ++ [n]) && decide (n ≠ indexName ∧ n ≠ publishedName)) =
      (globAll u d).filter fun n ↦
        u.isFile (d ++ [n]) && decide (n ≠ indexName ∧ n ≠ publishedName) := by
    have := h.names_eq d (fun n ↦ t.isFile (d ++ [n]) && decide (n ≠ publishedName))
      (fun n ↦ u.isFile (d ++ [n]) && decide (n ≠ publishedName))
      fun n hn _ ↦ by rw [h.isFile_concat hn]
    simpa only [Bool.decide_and, Bool.and_assoc, Bool.and_comm (decide (_ ≠ indexName))] using this
  simp only [toolCell, hfs]

theorem toolRow_eq (ch : Str) : toolRow t ch = toolRow u ch := by
  funext a
  simp only [toolRow, h.toolCell_eq]

theorem landing_eq (siteUrl : Str) : landing siteUrl t = landing siteUrl u := by
  simp only [landing, aboutText, toolsTable, h.releases_eq, h.feedTable_eq, h.isDir_eq,
    h.subdirs_eq, h.toolRow_eq]

theorem entryRow_eq (T : Tools) (d : Path) (rows : List TsvRow) (ft : Str) {n : Str}
    (hn : n ≠ indexName) : entryRow T t d rows ft n = entryRow T u d rows ft n := by
  simp only [entryRow, h.get_concat hn, h.dirTime_eq]

/-- **A page is determined by the site without its pages.** -/
theorem pageOf_eq (T : Tools) (siteUrl : Str) (d : Path) :
    pageOf T siteUrl t d = pageOf T siteUrl u d := by
  have hnames : ((globAll t d).filter fun n ↦ n ≠ indexName) =
      (globAll u d).filter fun n ↦ n ≠ indexName := by
    simpa using h.names_eq d (fun _ ↦ true) (fun _ ↦ true) fun _ _ _ ↦ rfl
  have hrows : ∀ rows ft, (((globAll u d).filter fun n ↦ n ≠ indexName).flatMap
        (entryRow T t d rows ft)) =
      ((globAll u d).filter fun n ↦ n ≠ indexName).flatMap (entryRow T u d rows ft) := by
    intro rows ft
    refine List.flatMap_congr fun n hn ↦ h.entryRow_eq T d rows ft ?_
    simpa using (List.mem_filter.mp hn).2
  simp only [pageOf, hnames, hrows, h.landing_eq, h.rowsOf_eq, h.fileTime_eq]

end SameButIndex

/-! ## All pages at once -/

theorem sameButIndex_write {t t' : Site} {d : Path} {c : Content}
    (h : t.write (d ++ [indexName]) c = some t') : SameButIndex t t' := by
  have hw : t.writable (d ++ [indexName]) = true := by
    rw [← Tree.write_isSome (c := c), h]
    rfl
  refine ⟨fun q hq ↦ ?_, fun q ↦ ?_⟩
  · rw [Tree.get_write h, if_neg]
    rintro rfl
    simp at hq
  · rw [Tree.get_write h]
    by_cases hq : q = d ++ [indexName]
    · rw [if_pos hq, hq]
      exact iff_of_false (Tree.writable_iff.mp hw).2.2 (by simp)
    · rw [if_neg hq]

/-- The pages written so far, for any list of directories. -/
theorem get_foldlM_writeIndex {T : Tools} {siteUrl : Str} {t : Site} (ds : List Path) {u u' : Site}
    (hu : SameButIndex t u) (h : ds.foldlM (writeIndex T siteUrl) u = some u') :
    SameButIndex t u' ∧ ∀ q, u'.get q =
      if q.getLast? = some indexName ∧ q.dropLast ∈ ds then
        some (.file (.page (pageOf T siteUrl t q.dropLast)))
      else u.get q := by
  induction ds generalizing u with
  | nil =>
    cases h
    exact ⟨hu, fun q ↦ by simp⟩
  | cons d ds ih =>
    rw [List.foldlM_cons] at h
    obtain ⟨v, hv, hvu⟩ := Option.bind_eq_some_iff.mp h
    obtain ⟨hsame, hget⟩ := ih (hu.trans (sameButIndex_write hv)) hvu
    refine ⟨hsame, fun q ↦ ?_⟩
    rw [hget, Tree.get_write hv]
    by_cases hq : q = d ++ [indexName]
    · subst hq
      simp [hu.pageOf_eq]
    · have hqd : ¬(q.getLast? = some indexName ∧ q.dropLast = d) := by
        rintro ⟨hl, rfl⟩
        obtain ⟨q', rfl⟩ := List.getLast?_eq_some_iff.mp hl
        simp at hq
      rw [if_neg hq]
      by_cases hds : q.getLast? = some indexName ∧ q.dropLast ∈ ds
      · rw [if_pos hds, if_pos ⟨hds.1, List.mem_cons_of_mem d hds.2⟩]
      · rw [if_neg hds, if_neg]
        rintro ⟨hl, hm⟩
        rcases List.mem_cons.mp hm with hm | hm
        · exact hqd ⟨hl, hm⟩
        · exact hds ⟨hl, hm⟩

/-- No directory is called `index.html`. -/
def NoIndexDir (t : Site) : Prop := ∀ d : Path, t.get (d ++ [indexName]) ≠ some .dir

theorem foldlM_writeIndex_isSome {T : Tools} {siteUrl : Str} (ds : List Path) {u : Site} :
    (ds.foldlM (writeIndex T siteUrl) u).isSome = true ↔
      ∀ d ∈ ds, u.get d = some .dir ∧ u.get (d ++ [indexName]) ≠ some .dir := by
  induction ds generalizing u with
  | nil => simp
  | cons d ds ih =>
    rw [List.foldlM_cons, List.forall_mem_cons]
    have hw : u.writable (d ++ [indexName]) = true ↔
        u.get d = some .dir ∧ u.get (d ++ [indexName]) ≠ some .dir := by
      rw [Tree.writable_iff, List.dropLast_concat]
      simp
    cases hv : writeIndex T siteUrl u d with
    | none =>
      have hnot : ¬u.writable (d ++ [indexName]) = true := by
        rw [← Tree.write_isSome (c := .page (pageOf T siteUrl u d))]
        rw [writeIndex] at hv
        simp [hv]
      refine iff_of_false (by simp) fun hc ↦ hnot (hw.mpr hc.1)
    | some v =>
      have hyes : u.writable (d ++ [indexName]) = true := by
        rw [← Tree.write_isSome (c := .page (pageOf T siteUrl u d)), ← writeIndex, hv]
        rfl
      have hsame := sameButIndex_write hv
      rw [Option.bind_eq_bind, Option.bind_some, ih, and_iff_right (hw.mp hyes)]
      refine forall₂_congr fun e _ ↦ ?_
      rw [← hsame.dir_iff e, Ne, Ne, ← hsame.dir_iff (e ++ [indexName])]

theorem writeIndexes_isSome {T : Tools} {siteUrl : Str} {t : Site} :
    (writeIndexes T siteUrl t).isSome = true ↔ NoIndexDir t := by
  rw [writeIndexes, foldlM_writeIndex_isSome]
  constructor
  · intro h d hd
    have hdir : t.get d = some .dir := t.parent_dir d indexName (by rw [hd]; simp)
    exact (h d (Tree.mem_dirs.mpr hdir)).2 hd
  · intro h d hd
    exact ⟨Tree.mem_dirs.mp hd, h d⟩

/-- **What `write_indexes` leaves**: a page in every directory, and everything else as it was. -/
theorem get_writeIndexes {T : Tools} {siteUrl : Str} {t t' : Site}
    (h : writeIndexes T siteUrl t = some t') (q : Path) :
    t'.get q = if q.getLast? = some indexName ∧ t.get q.dropLast = some .dir then
        some (.file (.page (pageOf T siteUrl t q.dropLast)))
      else t.get q := by
  rw [(get_foldlM_writeIndex _ (SameButIndex.refl t) h).2]
  simp only [Tree.mem_dirs]

theorem sameButIndex_writeIndexes {T : Tools} {siteUrl : Str} {t t' : Site}
    (h : writeIndexes T siteUrl t = some t') : SameButIndex t t' :=
  (get_foldlM_writeIndex _ (SameButIndex.refl t) h).1

/-- Sites that differ only in their pages get the same pages. -/
theorem SameButIndex.writeIndexes_eq {t u : Site} (h : SameButIndex t u) (T : Tools)
    (siteUrl : Str) : writeIndexes T siteUrl t = writeIndexes T siteUrl u := by
  have hno : NoIndexDir t ↔ NoIndexDir u := forall_congr' fun d ↦ not_congr (h.dir_iff _)
  cases ht : writeIndexes T siteUrl t with
  | none =>
    cases hu : writeIndexes T siteUrl u with
    | none => rfl
    | some u' =>
      have hs : (writeIndexes T siteUrl t).isSome = true :=
        writeIndexes_isSome.mpr (hno.mpr (writeIndexes_isSome.mp (by rw [hu]; rfl)))
      rw [ht] at hs
      cases hs
  | some t' =>
    have hs : (writeIndexes T siteUrl u).isSome = true :=
      writeIndexes_isSome.mpr (hno.mp (writeIndexes_isSome.mp (by rw [ht]; rfl)))
    obtain ⟨u', hu⟩ := Option.isSome_iff_exists.mp hs
    rw [hu]
    refine congrArg _ (Tree.ext_get fun q ↦ ?_)
    rw [get_writeIndexes ht, get_writeIndexes hu, h.pageOf_eq]
    simp only [h.dir_iff]
    split
    · rfl
    · rename_i hq
      by_cases hl : q.getLast? = some indexName
      · -- an `index.html` outside of a directory: there is none on either site
        obtain ⟨d, rfl⟩ := List.getLast?_eq_some_iff.mp hl
        rw [List.dropLast_concat] at hq
        have hd : u.get d ≠ some .dir := fun hc ↦ hq ⟨hl, hc⟩
        have hu0 : u.get (d ++ [indexName]) = none := by
          by_contra hc
          exact hd (u.parent_dir d indexName hc)
        have ht0 : t.get (d ++ [indexName]) = none := by
          by_contra hc
          exact hd ((h.dir_iff d).mp (t.parent_dir d indexName hc))
        rw [hu0, ht0]
      · exact h.get_eq q hl

end OpenwrtFeed
