import OpenwrtFeed.Feed.Publish

/-!
# Publishing a finished run

`publish-feed.sh` is called in two ways.  The build passes a directory with the artifacts of all its
legs merged into one another; the repair path passes the number of a run, and `gh` puts each
artifact into a directory of its own.  What is published should be the same.

For the package trees it is: they are looked for at any depth, and a tree is named after the last
two directories above its index.  The host tools are looked for in `tools` and nowhere else, and in
the second layout `tools` is one level further down.  `repair_same_iff` says exactly when the two
ways agree.

The artifacts are what the build makes them: trees `<release>/<arch>` with an index in each, and
`tools/<arch>`.
-/

set_option autoImplicit false

namespace OpenwrtFeed

open Shell DirTree

/-! ## Layouts -/

/-- A name that means nothing to the shell, to `find` or to the cutting of a pair. -/
structure PlainName (n : Str) : Prop where
  ne_nil : n ≠ []
  slash : '/' ∉ n
  newline : '\n' ∉ n
  equals : '=' ∉ n
  dot : n ≠ ['.']
  dotdot : n ≠ ['.', '.']

/-- An artifact of one leg of the build, `repo-<release>-<arch>`. -/
structure Artifact where
  release : Str
  arch : Str
  files : Site
  release_plain : PlainName release
  arch_plain : PlainName arch
  plain : ∀ q, files.get q ≠ none → ∀ n ∈ q, PlainName n
  /-- An index lies in a tree, and nowhere else. -/
  index : ∀ q, files.get (q ++ [adbName]) ≠ none → ∃ rel arch, q = [rel, arch] ∧ rel ≠ toolsName

def Artifact.name (a : Artifact) : Str :=
  "repo-".toList ++ (a.release ++ '-' :: a.arch)

/-- `download-artifact` with `merge-multiple`: everything in one directory. -/
def Merged (arts : List Artifact) (t : Site) : Prop :=
  ∀ q, q ≠ [] → t.get q = arts.findSome? (·.files.get q)

/-- `gh run download`: a directory for each artifact. -/
def Isolated (arts : List Artifact) (t : Site) : Prop :=
  ∀ n q, t.get (n :: q) = (arts.find? (·.name = n)).bind (·.files.get q)

/-- `DIR` is the directory at `p`, and its name an ordinary one. -/
structure FeedCall.Lies (c : FeedCall) (o : FeedOptions) (p : Path) : Prop where
  dirAt : c.machine.dirAt o.dir = some p
  dash : o.dir.head? ≠ some '-'
  paren : o.dir ≠ ['('] ∧ o.dir ≠ ['!']
  newline : '\n' ∉ o.dir
  equals : '=' ∉ o.dir
  name : afterLast '/' o.dir ≠ adbName

/-- What `publish-pages.sh` is told: destinations, and what each is filled from. -/
def FeedCall.published (c : FeedCall) (o : FeedOptions) : Set (Str × Option Site) :=
  {x | ∃ pair ∈ c.pairs o, x = (afterFirst '=' pair,
    (c.machine.dirAt (beforeFirst '=' pair)).map c.machine.host.sub)}

/-! ## What `find` prints -/

section Find

variable {dir n : Str} {q : Path}

theorem intercalate_concat (hq : q ≠ []) :
    ['/'].intercalate (q ++ [n]) = ['/'].intercalate q ++ '/' :: n := by
  induction q with
  | nil => exact absurd rfl hq
  | cons a q ih =>
    rw [List.cons_append, List.intercalate_cons_of_ne_nil (by simp)]
    rcases q with _ | ⟨b, q⟩
    · simp
    · rw [ih (List.cons_ne_nil b q), List.intercalate_cons_of_ne_nil (List.cons_ne_nil b q)]
      simp

theorem findName_concat (hq : q ≠ []) : findName dir (q ++ [n]) = findName dir q ++ '/' :: n := by
  rw [findName, if_neg (by simp), findName, if_neg hq, intercalate_concat hq, List.append_assoc]

theorem mem_intercalate {x : Char} (h : x ∈ ['/'].intercalate q) : x = '/' ∨ ∃ m ∈ q, x ∈ m := by
  induction q using List.reverseRecOn with
  | nil => cases h
  | append_singleton q m ih =>
    by_cases hq : q = []
    · subst hq
      exact .inr ⟨m, by simp, by simpa using h⟩
    · rw [intercalate_concat hq] at h
      rcases List.mem_append.mp h with h | h
      · rcases ih h with h | ⟨m', hm', h⟩
        · exact .inl h
        · exact .inr ⟨m', List.mem_append_left [m] hm', h⟩
      · rcases List.mem_cons.mp h with h | h
        · exact .inl h
        · exact .inr ⟨m, by simp, h⟩

theorem notMem_findName {x : Char} (hx : x ≠ '/') (hdir : x ∉ dir) (hq : ∀ m ∈ q, x ∉ m) :
    x ∉ findName dir q := by
  intro h
  rw [findName] at h
  split at h
  · exact hdir h
  · rcases List.mem_append.mp h with h | h
    · split at h
      · exact hdir h
      · simp [hdir, hx] at h
    · rcases mem_intercalate h with h | ⟨m, hm, h⟩
      · exact hx h
      · exact hq m hm h

/-- The last name is what follows the last slash. -/
theorem findName_slash (dir : Str) (q : Path) (n : Str) :
    ∃ u, findName dir (q ++ [n]) = u ++ '/' :: n := by
  by_cases hq : q = []
  · subst hq
    rw [findName, if_neg (by simp), List.nil_append, List.intercalate_singleton]
    split
    · rename_i hlast
      obtain ⟨d, rfl⟩ := List.getLast?_eq_some_iff.mp hlast
      exact ⟨d, by simp⟩
    · exact ⟨dir, by simp⟩
  · exact ⟨findName dir q, findName_concat hq⟩

theorem components_findName (dir : Str) (hq : ∀ m ∈ q, PlainName m) :
    components (findName dir q) = components dir ++ q := by
  induction q using List.reverseRecOn with
  | nil => rw [findName, if_pos rfl, List.append_nil]
  | append_singleton q m ih =>
    have hm := hq m (by simp)
    have hname := components_of_name hm.ne_nil hm.slash
    by_cases hnil : q = []
    · subst hnil
      rw [findName, if_neg (by simp), List.nil_append, List.intercalate_singleton]
      split
      · rename_i hlast
        obtain ⟨d, rfl⟩ := List.getLast?_eq_some_iff.mp hlast
        rw [List.append_assoc, List.singleton_append, components_slash, components_slash, hname]
        simp [components]
      · rw [List.append_assoc, List.singleton_append, components_slash, hname]
    · rw [findName_concat hnil, components_slash, hname,
        ih fun m' hm' ↦ hq m' (List.mem_append_left [m] hm'), List.append_assoc]

theorem archOf_findName (hn : PlainName n) : archOf (findName dir (q ++ [n])) = n := by
  obtain ⟨u, hu⟩ := findName_slash dir q n
  rw [hu, archOf, afterLast_append hn.slash]

theorem archOf_tree {rel : Str} (hn : PlainName n) :
    archOf (findName dir (q ++ [rel, n])) = n := by
  have happ : q ++ [rel, n] = q ++ [rel] ++ [n] := by simp
  rw [happ, archOf_findName hn]

theorem relOf_findName {rel : Str} (hrel : PlainName rel) (hn : PlainName n) :
    relOf (findName dir (q ++ [rel, n])) = rel := by
  have happ : q ++ [rel, n] = q ++ [rel] ++ [n] := by simp
  obtain ⟨u, hu⟩ := findName_slash dir q rel
  rw [happ, findName_concat (by simp), relOf, beforeLast_append hn.slash, hu,
    afterLast_append hrel.slash]

theorem adbDir_findName (hq : q ≠ []) :
    adbDir (findName dir (q ++ [adbName])) = findName dir q := by
  rw [findName_concat hq]
  exact stripSuffix_append (findName dir q) ('/' :: adbName)

end Find

/-! ## What is published from a layout -/

theorem foldlM_stepInto {host : Site} {p q : Path} (hq : ∀ m ∈ q, PlainName m)
    (hdir : host.isDir (p ++ q) = true) : q.foldlM (stepInto host) p = some (p ++ q) := by
  induction q generalizing p with
  | nil => rw [List.append_nil]; rfl
  | cons m q ih =>
    have hm := hq m List.mem_cons_self
    have happ : p ++ m :: q = p ++ [m] ++ q := by simp
    rw [happ] at hdir
    have hstep : host.isDir (p ++ [m]) = true := by
      by_cases hnil : q = []
      · rwa [hnil, List.append_nil] at hdir
      · refine Tree.isDir_iff.mpr (Tree.dir_of_below (List.prefix_append _ q) ?_ ?_)
        · simpa using hnil
        · rw [Tree.isDir_iff.mp hdir]
          simp
    rw [List.foldlM_cons, stepInto, if_neg hm.dot, if_neg hm.dotdot, if_pos hstep, happ]
    exact ih (fun x hx ↦ hq x (List.mem_cons_of_mem m hx)) hdir

/-- From a directory on, the way is that of the further components. -/
theorem dirAt_append {c : Call} {dir r : Str} {p q : Path} (hp : c.dirAt dir = some p)
    (hq : components (dir ++ r) = components dir ++ q) :
    c.dirAt (dir ++ r) = (q.foldlM (stepInto c.host) p).bind fun p' ↦
      if c.host.isDir p' = true then some p' else none := by
  rw [Call.dirAt] at hp
  split at hp
  · cases hp
  · rename_i hne
    obtain ⟨p', hp', hp⟩ := Option.bind_eq_some_iff.mp hp
    split at hp
    · obtain rfl := Option.some.inj hp
      rw [Call.dirAt, if_neg (by simp [hne]), List.head?_append_of_ne_nil dir hne, hq,
        List.foldlM_append, Option.bind_eq_bind, hp', Option.bind_some]
    · cases hp

theorem dirAt_findName {c : Call} {dir : Str} {p q : Path} (hp : c.dirAt dir = some p)
    (hq : ∀ m ∈ q, PlainName m) (hdir : c.host.isDir (p ++ q) = true) :
    c.dirAt (findName dir q) = some (p ++ q) := by
  obtain ⟨r, hr⟩ : ∃ r, findName dir q = dir ++ r := by
    rw [findName]
    split
    · exact ⟨[], by simp⟩
    · split
      · exact ⟨_, rfl⟩
      · exact ⟨_, List.append_assoc _ _ _⟩
  have hcomp := components_findName dir hq
  rw [hr] at hcomp ⊢
  rw [dirAt_append hp hcomp, foldlM_stepInto hq hdir, Option.bind_some, if_pos hdir]

section Layout

variable {c : FeedCall} {o : FeedOptions} {p : Path} {t : Site}

/-- The names in a layout are plain, and every index lies at least two directories down. -/
structure Tidy (t : Site) : Prop where
  plain : ∀ q, t.get q ≠ none → ∀ n ∈ q, PlainName n
  index : ∀ q, t.get (q ++ [adbName]) ≠ none → ∃ q' rel arch, q = q' ++ [rel, arch]

theorem mem_findLines {m : Call} {dir : Str} {test : Site → Path → Bool}
    (hp : m.dirAt dir = some p) (hexp : isExpression dir = false) (hnl : '\n' ∉ dir)
    (ht : ∀ q, (m.host.sub p).get q ≠ none → ∀ n ∈ q, PlainName n) {s : Str} :
    s ∈ m.findLines dir test ↔
      ∃ q, (m.host.sub p).get q ≠ none ∧ test (m.host.sub p) q = true ∧ s = findName dir q := by
  have hsplit : ∀ q, (m.host.sub p).get q ≠ none →
      (findName dir q).splitOn '\n' = [findName dir q] := fun q hq ↦
    List.splitOn_eq_singleton
      (notMem_findName (by decide) hnl fun n hn ↦ (ht q hq n hn).newline)
  rw [Call.findLines, hp]
  simp only [hexp, Bool.false_eq_true, if_false, List.mem_insertionSort, List.mem_flatMap,
    mem_sorted, Finset.mem_filter, Tree.mem_dom]
  constructor
  · rintro ⟨q, ⟨hq, htest⟩, hs⟩
    rw [hsplit q hq, List.mem_singleton] at hs
    exact ⟨q, hq, htest, hs⟩
  · rintro ⟨q, hq, htest, rfl⟩
    refine ⟨q, ⟨hq, htest⟩, ?_⟩
    rw [hsplit q hq]
    exact List.mem_singleton_self _

theorem dir_not_expression (hp : c.Lies o p) : isExpression o.dir = false := by
  rw [isExpression]
  simp [hp.paren, hp.dash]

theorem mem_trees (hp : c.Lies o p) (ht : Tidy (c.machine.host.sub p)) {d : Str} :
    d ∈ c.trees o ↔ ∃ q rel arch, (c.machine.host.sub p).get (q ++ [rel, arch, adbName]) ≠ none ∧
      d = findName o.dir (q ++ [rel, arch]) := by
  rw [FeedCall.trees, List.mem_map]
  constructor
  · rintro ⟨s, hs, rfl⟩
    obtain ⟨q, hq, htest, rfl⟩ :=
      (mem_findLines hp.dirAt (dir_not_expression hp) hp.newline ht.plain).mp hs
    rw [decide_eq_true_eq] at htest
    split at htest
    · exact absurd htest hp.name
    · rename_i hne
      obtain ⟨q₀, n, rfl⟩ : ∃ q₀ n, q = q₀ ++ [n] :=
        ⟨_, _, (List.dropLast_append_getLast hne).symm⟩
      obtain rfl : n = adbName := by simpa using htest
      obtain ⟨q', rel, arch, rfl⟩ := ht.index q₀ hq
      rw [List.append_assoc] at hq
      exact ⟨q', rel, arch, hq, adbDir_findName (by simp)⟩
  · rintro ⟨q, rel, arch, hq, rfl⟩
    have happ : q ++ [rel, arch, adbName] = q ++ [rel, arch] ++ [adbName] := by simp
    refine ⟨findName o.dir (q ++ [rel, arch, adbName]), ?_, ?_⟩
    · refine (mem_findLines hp.dirAt (dir_not_expression hp) hp.newline ht.plain).mpr
        ⟨_, hq, ?_, rfl⟩
      rw [happ]
      simp
    · rw [happ, adbDir_findName (by simp)]

/-- What a pair with a directory of the layout as its source comes to. -/
theorem pair_published {m : Call} {dir : Str} (hp : m.dirAt dir = some p) (heq : '=' ∉ dir)
    {q : Path} (hplain : ∀ n ∈ q, PlainName n) (hq : m.host.isDir (p ++ q) = true) (dest : Str) :
    (afterFirst '=' (findName dir q ++ '=' :: dest),
      (m.dirAt (beforeFirst '=' (findName dir q ++ '=' :: dest))).map m.host.sub) =
        (dest, some (m.host.sub (p ++ q))) := by
  have heq' : '=' ∉ findName dir q :=
    notMem_findName (by decide) heq fun n hn ↦ (hplain n hn).equals
  rw [afterFirst_append heq', beforeFirst_append heq', dirAt_findName hp hplain hq,
    Option.map_some]

/-- Where the tree of a release goes. -/
def destinations (channel rel arch : Str) : List Str :=
  (channel ++ '/' :: (rel ++ '/' :: arch)) ::
    if channel = stableName then [rel ++ '/' :: arch] else []

theorem treePairs_eq (channel d : Str) :
    treePairs channel d =
      (destinations channel (relOf d) (archOf d)).map fun dest ↦ d ++ '=' :: dest := by
  rw [treePairs, destinations]
  split <;> rfl

/-- Where the host tools go. -/
def toolDest (channel arch : Str) : Str := toolsName ++ '/' :: (channel ++ '/' :: arch)

theorem dirAt_tools (hp : c.Lies o p) : c.machine.dirAt (o.dir ++ '/' :: toolsName) =
    if c.machine.host.isDir (p ++ [toolsName]) = true then some (p ++ [toolsName]) else none := by
  have hcomp : components (o.dir ++ '/' :: toolsName) = components o.dir ++ [toolsName] := by
    rw [components_slash]
    rfl
  rw [dirAt_append hp.dirAt hcomp]
  simp only [List.foldlM_cons, List.foldlM_nil, bind_pure]
  rw [stepInto, if_neg (by decide), if_neg (by decide)]
  split
  · rename_i h
    rw [Option.bind_some, if_pos h]
  · rfl

theorem toolsDir_not_expression (hp : c.Lies o p) :
    isExpression (o.dir ++ '/' :: toolsName) = false := by
  have hne : o.dir ≠ [] := fun hc ↦ by
    have hdir := hp.dirAt
    rw [hc, Call.dirAt, if_pos rfl] at hdir
    cases hdir
  have hlen : ∀ x : Char, o.dir ++ '/' :: toolsName ≠ [x] := by
    intro x hc
    have := congrArg List.length hc
    simp [toolsName] at this
  rw [isExpression, List.head?_append_of_ne_nil _ hne]
  simp [hlen, hp.dash]

theorem mem_toolDirs (hp : c.Lies o p) (ht : Tidy (c.machine.host.sub p)) {s : Str} :
    s ∈ c.machine.toolDirs o.dir ↔
      ∃ arch, (c.machine.host.sub p).get [toolsName, arch] = some .dir ∧
        s = findName (o.dir ++ '/' :: toolsName) [arch] := by
  obtain ⟨-, hdir⟩ := dirAt_spec hp.dirAt
  have hdirAt := dirAt_tools hp
  by_cases htools : c.machine.host.isDir (p ++ [toolsName]) = true
  · rw [if_pos htools] at hdirAt
    have hget : ∀ q, (c.machine.host.sub (p ++ [toolsName])).get q =
        (c.machine.host.sub p).get (toolsName :: q) := by
      intro q
      rw [Tree.get_sub htools, Tree.get_sub hdir, List.append_assoc, List.singleton_append]
    have hplain : ∀ q, (c.machine.host.sub (p ++ [toolsName])).get q ≠ none →
        ∀ n ∈ q, PlainName n := by
      intro q hq n hn
      rw [hget] at hq
      exact ht.plain _ hq n (List.mem_cons_of_mem _ hn)
    rw [Call.toolDirs, mem_findLines hdirAt (toolsDir_not_expression hp)
      (by simp [hp.newline]; decide) hplain]
    constructor
    · rintro ⟨q, -, htest, rfl⟩
      rw [Bool.and_eq_true, decide_eq_true_eq, Tree.isDir_iff, hget] at htest
      obtain ⟨arch, rfl⟩ := List.length_eq_one_iff.mp htest.1
      exact ⟨arch, htest.2, rfl⟩
    · rintro ⟨arch, harch, rfl⟩
      rw [← hget] at harch
      refine ⟨[arch], by simp [harch], ?_, rfl⟩
      rw [Bool.and_eq_true, Tree.isDir_iff]
      exact ⟨rfl, harch⟩
  · rw [if_neg htools] at hdirAt
    rw [Call.toolDirs, Call.findLines, hdirAt]
    refine iff_of_false List.not_mem_nil ?_
    rintro ⟨arch, harch, -⟩
    refine htools ?_
    rw [Tree.get_sub hdir] at harch
    rw [Tree.isDir_iff]
    exact c.machine.host.parent_dir _ arch (by rw [List.append_assoc]; simp [harch])

theorem tool_published (hp : c.Lies o p) (ht : Tidy (c.machine.host.sub p)) {arch : Str}
    (harch : (c.machine.host.sub p).get [toolsName, arch] = some .dir) :
    (afterFirst '=' (toolPair o.channel (findName (o.dir ++ '/' :: toolsName) [arch])),
      (c.machine.dirAt (beforeFirst '=' (toolPair o.channel
        (findName (o.dir ++ '/' :: toolsName) [arch])))).map c.machine.host.sub) =
      (toolDest o.channel arch, some ((c.machine.host.sub p).sub [toolsName, arch])) := by
  obtain ⟨-, hdir⟩ := dirAt_spec hp.dirAt
  have hplain : ∀ n ∈ [toolsName, arch], PlainName n := ht.plain _ (by simp [harch])
  have hname : afterLast '/' (findName (o.dir ++ '/' :: toolsName) [arch]) = arch :=
    archOf_findName (q := []) (hplain arch (by simp))
  have hisDir : c.machine.host.isDir (p ++ [toolsName, arch]) = true := by
    rw [Tree.isDir_iff, ← Tree.get_sub hdir]
    exact harch
  have happ : p ++ [toolsName] ++ [arch] = p ++ [toolsName, arch] := by simp
  have htools : c.machine.host.isDir (p ++ [toolsName]) = true := by
    rw [Tree.isDir_iff]
    refine c.machine.host.parent_dir _ arch ?_
    rw [happ, Tree.isDir_iff.mp hisDir]
    simp
  have hdirAt := dirAt_tools hp
  rw [if_pos htools] at hdirAt
  have hpair := pair_published hdirAt (q := [arch]) (by simp [hp.equals]; decide)
    (fun n hn ↦ hplain n (List.mem_cons_of_mem _ hn)) (by rw [happ]; exact hisDir)
    (toolDest o.channel arch)
  rw [happ, ← Tree.sub_sub hdir hisDir] at hpair
  rw [toolPair, hname]
  exact hpair

theorem mem_published (hp : c.Lies o p) (ht : Tidy (c.machine.host.sub p))
    {x : Str × Option Site} :
    x ∈ c.published o ↔
      (∃ q rel arch, (c.machine.host.sub p).get (q ++ [rel, arch, adbName]) ≠ none ∧
        x.1 ∈ destinations o.channel rel arch ∧
        x.2 = some ((c.machine.host.sub p).sub (q ++ [rel, arch]))) ∨
      ∃ arch, (c.machine.host.sub p).get [toolsName, arch] = some .dir ∧
        x = (toolDest o.channel arch, some ((c.machine.host.sub p).sub [toolsName, arch])) := by

  obtain ⟨-, hdir⟩ := dirAt_spec hp.dirAt
  have htree : ∀ q rel arch, (c.machine.host.sub p).get (q ++ [rel, arch, adbName]) ≠ none →
      c.machine.host.isDir (p ++ (q ++ [rel, arch])) = true ∧
        ∀ n ∈ q ++ [rel, arch], PlainName n := by
    intro q rel arch hq
    have happ : q ++ [rel, arch, adbName] = q ++ [rel, arch] ++ [adbName] := by simp
    rw [happ] at hq
    refine ⟨?_, fun n hn ↦ ht.plain _ hq n (List.mem_append_left _ hn)⟩
    rw [Tree.isDir_iff, ← Tree.get_sub hdir]
    exact Tree.parent_dir _ _ _ hq
  have hsub : ∀ q, c.machine.host.isDir (p ++ q) = true →
      c.machine.host.sub (p ++ q) = (c.machine.host.sub p).sub q := fun q hq ↦
    (Tree.sub_sub hdir hq).symm
  constructor
  · rintro ⟨pair, hpair, rfl⟩
    rcases List.mem_append.mp hpair with hpair | hpair
    · obtain ⟨d, hd, hpair⟩ := List.mem_flatMap.mp hpair
      obtain ⟨q, rel, arch, hq, rfl⟩ := (mem_trees hp ht).mp hd
      obtain ⟨hisDir, hplain⟩ := htree q rel arch hq
      rw [treePairs_eq, relOf_findName (hplain _ (by simp)) (hplain _ (by simp)),
        archOf_tree (hplain _ (by simp))] at hpair
      obtain ⟨dest, hdest, rfl⟩ := List.mem_map.mp hpair
      rw [pair_published hp.dirAt hp.equals hplain hisDir dest, hsub _ hisDir]
      exact .inl ⟨q, rel, arch, hq, hdest, rfl⟩
    · obtain ⟨td, htd, rfl⟩ := List.mem_map.mp hpair
      obtain ⟨arch, harch, rfl⟩ := (mem_toolDirs hp ht).mp htd
      refine .inr ⟨arch, harch, ?_⟩
      exact tool_published hp ht harch
  · rintro (⟨q, rel, arch, hq, hdest, hx⟩ | ⟨arch, harch, rfl⟩)
    · obtain ⟨hisDir, hplain⟩ := htree q rel arch hq
      refine ⟨findName o.dir (q ++ [rel, arch]) ++ '=' :: x.1, ?_, ?_⟩
      · refine treePair_mem ((mem_trees hp ht).mpr ⟨q, rel, arch, hq, rfl⟩) ?_
        rw [treePairs_eq, relOf_findName (hplain _ (by simp)) (hplain _ (by simp)),
          archOf_tree (hplain _ (by simp))]
        exact List.mem_map.mpr ⟨x.1, hdest, rfl⟩
      · rw [pair_published hp.dirAt hp.equals hplain hisDir x.1, hsub _ hisDir]
        exact Prod.ext rfl hx
    · refine ⟨toolPair o.channel (findName (o.dir ++ '/' :: toolsName) [arch]), ?_, ?_⟩
      · exact List.mem_append_right _ (List.mem_map_of_mem
          ((mem_toolDirs hp ht).mpr ⟨arch, harch, rfl⟩))
      · exact (tool_published hp ht harch).symm

end Layout

/-! ## The two layouts -/

section Layouts

variable {arts : List Artifact} {t : Site} {a b : Artifact} {q : Path}

/-- Artifacts that share a path have the same there. -/
def Agree (arts : List Artifact) : Prop :=
  ∀ a ∈ arts, ∀ b ∈ arts, ∀ q, a.files.get q ≠ none → b.files.get q ≠ none →
    a.files.get q = b.files.get q

theorem Artifact.name_plain (a : Artifact) : PlainName a.name := by
  have hmem : ∀ x : Char, x ∉ "repo-".toList → x ∉ a.release → x ≠ '-' → x ∉ a.arch →
      x ∉ a.name := by
    intro x h₁ h₂ h₃ h₄
    simp only [name, List.mem_append, List.mem_cons, not_or]
    exact ⟨h₁, h₂, h₃, h₄⟩
  have hr := a.release_plain
  have ha := a.arch_plain
  have hlen : ∀ s : Str, s.length < 5 → a.name ≠ s := by
    rintro s hs rfl
    simp [name] at hs
    omega
  exact ⟨hlen _ (by decide), hmem _ (by decide) hr.slash (by decide) ha.slash,
    hmem _ (by decide) hr.newline (by decide) ha.newline,
    hmem _ (by decide) hr.equals (by decide) ha.equals, hlen _ (by decide), hlen _ (by decide)⟩

theorem Artifact.name_ne (a : Artifact) {n : Str} (h : n.head? ≠ some 'r') : a.name ≠ n := by
  rintro rfl
  exact h rfl

theorem merged_get (ht : Merged arts t) (hq : q ≠ []) (h : t.get q ≠ none) :
    ∃ a ∈ arts, a.files.get q = t.get q := by
  obtain ⟨x, hx⟩ := Option.ne_none_iff_exists'.mp h
  rw [ht q hq] at hx
  obtain ⟨a, ha, hax⟩ := List.exists_of_findSome?_eq_some hx
  exact ⟨a, ha, by rw [ht q hq, hx, hax]⟩

theorem get_merged (ht : Merged arts t) (hagree : Agree arts) (ha : a ∈ arts) (hq : q ≠ [])
    (h : a.files.get q ≠ none) : t.get q = a.files.get q := by
  have hne : t.get q ≠ none := by
    rw [ht q hq, ne_eq, List.findSome?_eq_none_iff]
    exact fun hc ↦ h (hc a ha)
  obtain ⟨b, hb, hbq⟩ := merged_get ht hq hne
  rw [← hbq]
  exact hagree b hb a ha q (by rw [hbq]; exact hne) h

theorem isolated_get (ht : Isolated arts t) {n : Str} (h : t.get (n :: q) ≠ none) :
    ∃ a ∈ arts, a.name = n ∧ a.files.get q = t.get (n :: q) := by
  rw [ht] at h ⊢
  cases hf : arts.find? (·.name = n) with
  | none => simp [hf] at h
  | some a => exact ⟨a, List.mem_of_find?_eq_some hf, by simpa using List.find?_some hf, rfl⟩

theorem get_isolated (ht : Isolated arts t) (hnames : (arts.map Artifact.name).Nodup)
    (ha : a ∈ arts) : t.get (a.name :: q) = a.files.get q := by
  have hfind : arts.find? (·.name = a.name) = some a := by
    cases hf : arts.find? (·.name = a.name) with
    | none => simpa using List.find?_eq_none.mp hf a ha
    | some b =>
      have hb : b.name = a.name := by simpa using List.find?_some hf
      rw [List.inj_on_of_nodup_map hnames (List.mem_of_find?_eq_some hf) ha hb]
  rw [ht, hfind, Option.bind_some]

theorem merged_tidy (ht : Merged arts t) : Tidy t where
  plain q h n hn := by
    have hq : q ≠ [] := List.ne_nil_of_mem hn
    obtain ⟨a, -, haq⟩ := merged_get ht hq h
    exact a.plain q (by rw [haq]; exact h) n hn
  index q h := by
    obtain ⟨a, -, haq⟩ := merged_get ht (by simp) h
    obtain ⟨rel, arch, rfl, -⟩ := a.index q (by rw [haq]; exact h)
    exact ⟨[], rel, arch, rfl⟩

theorem isolated_tidy (ht : Isolated arts t) : Tidy t where
  plain q h n hn := by
    rcases q with _ | ⟨m, q⟩
    · cases hn
    · obtain ⟨a, -, rfl, haq⟩ := isolated_get ht h
      rcases List.mem_cons.mp hn with rfl | hn
      · exact a.name_plain
      · exact a.plain q (by rw [haq]; exact h) n hn
  index q h := by
    rcases q with _ | ⟨m, q⟩
    · obtain ⟨a, -, ha, -⟩ := isolated_get ht h
      exact absurd ha (a.name_ne (by decide))
    · rw [List.cons_append] at h
      obtain ⟨a, -, -, haq⟩ := isolated_get ht h
      obtain ⟨rel, arch, rfl, -⟩ := a.index q (by rw [haq]; exact h)
      exact ⟨[m], rel, arch, rfl⟩

/-- The index of a tree makes its directory one. -/
theorem Artifact.tree_isDir (a : Artifact) {rel arch : Str}
    (h : a.files.get [rel, arch, adbName] ≠ none) : a.files.isDir [rel, arch] = true :=
  Tree.isDir_iff.mpr (a.files.parent_dir [rel, arch] adbName h)

theorem sub_isolated (ht : Isolated arts t) (hnames : (arts.map Artifact.name).Nodup)
    (ha : a ∈ arts) {rel arch : Str} (h : a.files.get [rel, arch, adbName] ≠ none) :
    t.sub [a.name, rel, arch] = a.files.sub [rel, arch] := by
  have hdir := a.tree_isDir h
  have hdir' : t.isDir [a.name, rel, arch] = true := by
    rw [Tree.isDir_iff, get_isolated ht hnames ha]
    exact Tree.isDir_iff.mp hdir
  refine Tree.ext_get fun q ↦ ?_
  rw [Tree.get_sub hdir', Tree.get_sub hdir]
  exact get_isolated ht hnames ha

/-- `a` has all there is of the tree. -/
def Whole (arts : List Artifact) (a : Artifact) (rel arch : Str) : Prop :=
  ∀ b ∈ arts, ∀ q, b.files.get (rel :: arch :: q) ≠ none → a.files.get (rel :: arch :: q) ≠ none

theorem sub_merged_iff (ht : Merged arts t) (hagree : Agree arts) (ha : a ∈ arts) {rel arch : Str}
    (h : a.files.get [rel, arch, adbName] ≠ none) :
    t.sub [rel, arch] = a.files.sub [rel, arch] ↔ Whole arts a rel arch := by
  have hdir := a.tree_isDir h
  have hdir' : t.isDir [rel, arch] = true := by
    rw [Tree.isDir_iff, get_merged ht hagree ha (by simp) (by rw [Tree.isDir_iff.mp hdir]; simp)]
    exact Tree.isDir_iff.mp hdir
  constructor
  · intro heq b hb q hbq
    have hq := congrArg (fun u : Site ↦ u.get q) heq
    simp only [Tree.get_sub hdir', Tree.get_sub hdir, List.cons_append, List.nil_append] at hq
    rw [← hq, get_merged ht hagree hb (by simp) hbq]
    exact hbq
  · intro hwhole
    refine Tree.ext_get fun q ↦ ?_
    rw [Tree.get_sub hdir', Tree.get_sub hdir, List.cons_append, List.cons_append, List.nil_append]
    by_cases haq : a.files.get (rel :: arch :: q) = none
    · rw [haq]
      by_contra hc
      obtain ⟨b, hb, hbq⟩ := merged_get ht (by simp) hc
      exact hwhole b hb q (by rw [hbq]; exact hc) haq
    · exact get_merged ht hagree ha (by simp) haq

/-! ## What the two ways publish -/

/-- The destinations are those of the trees and the tools of the artifacts. -/
def FeedCall.InForm (c : FeedCall) (o : FeedOptions) (arts : List Artifact) : Prop :=
  ∀ x ∈ c.published o,
    (∃ a ∈ arts, ∃ rel arch, a.files.get [rel, arch, adbName] ≠ none ∧
      x.1 ∈ destinations o.channel rel arch) ∨
    ∃ a ∈ arts, ∃ arch, a.files.get [toolsName, arch] = some .dir ∧ x.1 = toolDest o.channel arch

theorem mem_published_merged {c : FeedCall} {o : FeedOptions} {p : Path} (hp : c.Lies o p)
    (ht : Merged arts (c.machine.host.sub p)) {x : Str × Option Site} :
    x ∈ c.published o ↔
      (∃ rel arch, (c.machine.host.sub p).get [rel, arch, adbName] ≠ none ∧
        x.1 ∈ destinations o.channel rel arch ∧
        x.2 = some ((c.machine.host.sub p).sub [rel, arch])) ∨
      ∃ arch, (c.machine.host.sub p).get [toolsName, arch] = some .dir ∧
        x = (toolDest o.channel arch, some ((c.machine.host.sub p).sub [toolsName, arch])) := by
  rw [mem_published hp (merged_tidy ht)]
  refine or_congr_left ⟨?_, fun ⟨rel, arch, h⟩ ↦ ⟨[], rel, arch, h⟩⟩
  rintro ⟨q, rel, arch, hget, h⟩
  have happ : q ++ [rel, arch, adbName] = q ++ [rel, arch] ++ [adbName] := by simp
  rw [happ] at hget
  obtain ⟨a, -, haq⟩ := merged_get ht (by simp) hget
  obtain ⟨rel', arch', heq, -⟩ := a.index _ (by rw [haq]; exact hget)
  obtain rfl : q = [] := by
    have hlen := congrArg List.length heq
    simp at hlen
    exact hlen
  exact ⟨rel, arch, hget, h⟩

theorem mem_published_isolated {c : FeedCall} {o : FeedOptions} {p : Path} (hp : c.Lies o p)
    (ht : Isolated arts (c.machine.host.sub p)) (hnames : (arts.map Artifact.name).Nodup)
    {x : Str × Option Site} :
    x ∈ c.published o ↔
      ∃ a ∈ arts, ∃ rel arch, a.files.get [rel, arch, adbName] ≠ none ∧
        x.1 ∈ destinations o.channel rel arch ∧ x.2 = some (a.files.sub [rel, arch]) := by
  rw [mem_published hp (isolated_tidy ht)]
  constructor
  · rintro (⟨q, rel, arch, hget, hdest, hx⟩ | ⟨arch, hget, -⟩)
    · rcases q with _ | ⟨n, q⟩
      · obtain ⟨a, -, -, haq⟩ := isolated_get ht hget
        obtain ⟨rel', arch', heq, -⟩ := a.index [arch] (by
          rw [List.singleton_append, haq]
          exact hget)
        simp at heq
      · have happ : n :: q ++ [rel, arch, adbName] = n :: (q ++ [rel, arch] ++ [adbName]) := by
          simp
        rw [happ] at hget
        obtain ⟨a, ha, rfl, haq⟩ := isolated_get ht hget
        rw [← haq] at hget
        obtain ⟨rel', arch', heq, -⟩ := a.index _ hget
        obtain rfl : q = [] := by
          have hlen := congrArg List.length heq
          simp at hlen
          exact hlen
        refine ⟨a, ha, rel, arch, hget, hdest, ?_⟩
        rw [hx]
        exact congrArg some (sub_isolated ht hnames ha hget)
    · obtain ⟨a, -, ha, -⟩ := isolated_get ht (by rw [hget]; simp)
      exact absurd ha (a.name_ne (by decide))
  · rintro ⟨a, ha, rel, arch, hget, hdest, hx⟩
    refine .inl ⟨[a.name], rel, arch, ?_, hdest, ?_⟩
    · rw [List.singleton_append, get_isolated ht hnames ha]
      exact hget
    · rw [hx]
      exact congrArg some (sub_isolated ht hnames ha hget).symm

end Layouts

section Repair

variable {o : FeedOptions} {rel arch : Str}

theorem components_plain {n : Str} (h : PlainName n) : components n = [n] :=
  components_of_name h.ne_nil h.slash

/-- A destination tells the release and the architecture. -/
theorem components_destination (hrel : PlainName rel) (harch : PlainName arch) {x ch : Str}
    (hch : components ch = [ch]) (hx : x ∈ destinations ch rel arch) :
    components x = [ch, rel, arch] ∨ components x = [rel, arch] := by
  rcases List.mem_cons.mp hx with rfl | hx
  · left
    rw [components_slash, components_slash, hch, components_plain hrel, components_plain harch]
    rfl
  · right
    split at hx
    · rw [List.mem_singleton.mp hx, components_slash, components_plain hrel,
        components_plain harch]
      rfl
    · cases hx

theorem components_toolDest (harch : PlainName arch) {ch : Str} (hch : components ch = [ch]) :
    components (toolDest ch arch) = [toolsName, ch, arch] := by
  rw [toolDest, components_slash, components_slash, hch, components_plain harch]
  rfl

theorem channel_ne_tools {c : FeedCall} (ho : c.options = .ok o) : o.channel ≠ toolsName := by
  rcases options_channel ho with h | h <;> rw [h] <;> decide

theorem Artifact.plain_tree (a : Artifact) (h : a.files.get [rel, arch, adbName] ≠ none) :
    PlainName rel ∧ PlainName arch :=
  ⟨a.plain _ h rel (by simp), a.plain _ h arch (by simp)⟩

variable {arts : List Artifact} {c c' : FeedCall} {o' : FeedOptions} {p p' : Path}

/-- If the two ways publish the same, then no artifact has host tools. -/
theorem no_tools_of_same (ho : c.options = .ok o) (hp : c.Lies o p) (hp' : c'.Lies o' p')
    (hch : o'.channel = o.channel) (hnames : (arts.map Artifact.name).Nodup) (hagree : Agree arts)
    (hm : Merged arts (c.machine.host.sub p)) (hi : Isolated arts (c'.machine.host.sub p'))
    (hsame : c.published o = c'.published o') {a : Artifact} (ha : a ∈ arts) (arch : Str) :
    a.files.get [toolsName, arch] ≠ some .dir := by
  intro hget
  have hgetm : (c.machine.host.sub p).get [toolsName, arch] = some .dir := by
    rw [get_merged hm hagree ha (by simp) (by simp [hget]), hget]
  have hmem := (mem_published_merged hp hm).mpr (.inr ⟨arch, hgetm, rfl⟩)
  rw [hsame, mem_published_isolated hp' hi hnames] at hmem
  obtain ⟨b, -, rel, arch', hb, hdest, -⟩ := hmem
  obtain ⟨hrel, harch'⟩ := b.plain_tree hb
  have harch : PlainName arch := a.plain _ (by rw [hget]; simp) arch (by simp)
  have hcomp := components_toolDest harch (components_channelName ho)
  rw [hch] at hdest
  rcases components_destination hrel harch' (components_channelName ho) hdest with h | h
  · rw [hcomp] at h
    exact absurd (List.cons.inj h).1.symm (channel_ne_tools ho)
  · rw [hcomp] at h
    have hlen := congrArg List.length h
    simp at hlen

/-- If the two ways publish the same, then every tree is whole in each artifact that has it. -/
theorem whole_of_same (ho : c.options = .ok o) (hp : c.Lies o p) (hp' : c'.Lies o' p')
    (hch : o'.channel = o.channel) (hnames : (arts.map Artifact.name).Nodup) (hagree : Agree arts)
    (hm : Merged arts (c.machine.host.sub p)) (hi : Isolated arts (c'.machine.host.sub p'))
    (hsame : c.published o = c'.published o') {a : Artifact} (ha : a ∈ arts)
    (hget : a.files.get [rel, arch, adbName] ≠ none) : Whole arts a rel arch := by
  obtain ⟨hrel, harch⟩ := a.plain_tree hget
  have hdest : o.channel ++ '/' :: (rel ++ '/' :: arch) ∈ destinations o.channel rel arch :=
    List.mem_cons_self
  have hcomp : components (o.channel ++ '/' :: (rel ++ '/' :: arch)) = [o.channel, rel, arch] := by
    rw [components_slash, components_slash, components_channelName ho, components_plain hrel,
      components_plain harch]
    rfl
  have hmem := (mem_published_isolated hp' hi hnames
    (x := (o.channel ++ '/' :: (rel ++ '/' :: arch), some (a.files.sub [rel, arch])))).mpr
    ⟨a, ha, rel, arch, hget, by rw [hch]; exact hdest, rfl⟩
  rw [← hsame, mem_published_merged hp hm] at hmem
  rcases hmem with ⟨rel', arch', hget', hdest', hsub⟩ | ⟨arch', hget', heq⟩
  · obtain ⟨b, -, hb⟩ := merged_get hm (by simp) hget'
    obtain ⟨hrel', harch'⟩ := b.plain_tree (by rw [hb]; exact hget')
    rcases components_destination hrel' harch' (components_channelName ho) hdest' with h | h
    · rw [hcomp] at h
      simp only [List.cons.injEq, and_true, true_and] at h
      obtain ⟨rfl, rfl⟩ := h
      exact (sub_merged_iff hm hagree ha hget).mp (Option.some.inj hsub).symm
    · rw [hcomp] at h
      have hlen := congrArg List.length h
      simp at hlen
  · have harch' : PlainName arch' := (merged_tidy hm).plain _ (by rw [hget']; simp) arch' (by simp)
    have h := congrArg (fun x : Str × Option Site ↦ components x.1) heq
    simp only [hcomp, components_toolDest harch' (components_channelName ho)] at h
    exact absurd (List.cons.inj h).1 (channel_ne_tools ho)

theorem inForm_merged (hp : c.Lies o p) (hm : Merged arts (c.machine.host.sub p)) :
    c.InForm o arts := by
  intro x hx
  rcases (mem_published_merged hp hm).mp hx with ⟨rel, arch, hget, hdest, -⟩ | ⟨arch, hget, rfl⟩
  · obtain ⟨a, ha, haq⟩ := merged_get hm (by simp) hget
    exact .inl ⟨a, ha, rel, arch, by rw [haq]; exact hget, hdest⟩
  · obtain ⟨a, ha, haq⟩ := merged_get (q := [toolsName, arch]) hm (by simp) (by simp [hget])
    exact .inr ⟨a, ha, arch, by rw [haq, hget], rfl⟩

theorem inForm_isolated (hp : c.Lies o p) (hi : Isolated arts (c.machine.host.sub p))
    (hnames : (arts.map Artifact.name).Nodup) : c.InForm o arts := by
  intro x hx
  obtain ⟨a, ha, rel, arch, hget, hdest, -⟩ := (mem_published_isolated hp hi hnames).mp hx
  exact .inl ⟨a, ha, rel, arch, hget, hdest⟩

/-- **When the repair publishes what the build would have.**  If and only if no artifact has host
tools, and no tree is spread over several artifacts. -/
theorem repair_same_iff (arts : List Artifact) (c c' : FeedCall) (o o' : FeedOptions) (p p' : Path)
    (ho : c.options = .ok o) (hp : c.Lies o p) (hp' : c'.Lies o' p')
    (hch : o'.channel = o.channel) (hnames : (arts.map Artifact.name).Nodup) (hagree : Agree arts)
    (hm : Merged arts (c.machine.host.sub p)) (hi : Isolated arts (c'.machine.host.sub p')) :
    (c.published o = c'.published o' ∧ c.InForm o arts ∧ c'.InForm o' arts) ↔
      (∀ a ∈ arts, ∀ arch, a.files.get [toolsName, arch] ≠ some .dir) ∧
        ∀ a ∈ arts, ∀ rel arch, a.files.get [rel, arch, adbName] ≠ none →
          Whole arts a rel arch := by
  constructor
  · rintro ⟨hsame, -, -⟩
    exact ⟨fun a ha arch ↦ no_tools_of_same ho hp hp' hch hnames hagree hm hi hsame ha arch,
      fun a ha rel arch h ↦ whole_of_same ho hp hp' hch hnames hagree hm hi hsame ha h⟩
  · rintro ⟨htools, hwhole⟩
    refine ⟨?_, inForm_merged hp hm, inForm_isolated hp' hi hnames⟩
    ext x
    rw [mem_published_merged hp hm, mem_published_isolated hp' hi hnames, hch]
    constructor
    · rintro (⟨rel, arch, hget, hdest, hx⟩ | ⟨arch, hget, -⟩)
      · obtain ⟨a, ha, haq⟩ := merged_get hm (by simp) hget
        have hgeta : a.files.get [rel, arch, adbName] ≠ none := by
          rw [haq]
          exact hget
        refine ⟨a, ha, rel, arch, hgeta, hdest, ?_⟩
        rw [hx, (sub_merged_iff hm hagree ha hgeta).mpr (hwhole a ha rel arch hgeta)]
      · obtain ⟨a, ha, haq⟩ := merged_get (q := [toolsName, arch]) hm (by simp) (by simp [hget])
        exact absurd (haq.trans hget) (htools a ha arch)
    · rintro ⟨a, ha, rel, arch, hget, hdest, hx⟩
      refine .inl ⟨rel, arch, ?_, hdest, ?_⟩
      · rw [get_merged hm hagree ha (by simp) hget]
        exact hget
      · rw [hx, (sub_merged_iff hm hagree ha hget).mpr (hwhole a ha rel arch hget)]

end Repair

/-! ### One leg -/

instance : DecidablePred PlainName := fun n ↦
  decidable_of_iff (n ≠ [] ∧ '/' ∉ n ∧ '\n' ∉ n ∧ '=' ∉ n ∧ n ≠ ['.'] ∧ n ≠ ['.', '.'])
    ⟨fun ⟨h₁, h₂, h₃, h₄, h₅, h₆⟩ ↦ ⟨h₁, h₂, h₃, h₄, h₅, h₆⟩,
      fun h ↦ ⟨h.ne_nil, h.slash, h.newline, h.equals, h.dot, h.dotdot⟩⟩

/-- The files below the directory at `p`, and nothing else. -/
def hostWith (p : Path) (s : Site) : Site :=
  (((Tree.empty : Site).mkdirs p).bind (·.graft p s)).getD Tree.empty

theorem get_hostWith (p : Path) (s : Site) (q : Path) :
    (hostWith p s).get q = if p <+: q then s.get (q.drop p.length)
      else if q <+: p then some .dir else none := by
  have hclear : (Tree.empty : Site).clear p = true := by
    rw [Tree.clear_iff]
    intro r _ c hc
    rw [Tree.get_empty] at hc
    split at hc <;> cases hc
  obtain ⟨t, ht⟩ := Option.isSome_iff_exists.mp (Tree.mkdirs_isSome.trans hclear)
  have hdir : t.isDir p = true := by
    rw [Tree.isDir_iff, Tree.get_mkdirs ht, if_pos List.prefix_rfl]
  obtain ⟨u, hu⟩ := Option.isSome_iff_exists.mp ((Tree.graft_isSome (s := s)).trans hdir)
  rw [hostWith, ht, Option.bind_some, hu, Option.getD_some, Tree.get_graft hu, Tree.get_mkdirs ht,
    Tree.get_empty]
  by_cases hpq : p <+: q
  · rw [if_pos hpq, if_pos hpq]
  · rw [if_neg hpq, if_neg hpq]
    by_cases hq : q = []
    · simp [hq]
    · simp [hq]

theorem sub_hostWith (p : Path) (s : Site) : (hostWith p s).sub p = s := by
  have hdir : (hostWith p s).isDir p = true := by
    rw [Tree.isDir_iff, get_hostWith, if_pos List.prefix_rfl, List.drop_length, s.root]
  refine Tree.ext_get fun q ↦ ?_
  rw [Tree.get_sub hdir, get_hostWith, if_pos (List.prefix_append p q), List.drop_left]

/-- The architectures of the two legs. -/
def legArch (arm : Bool) : Str := if arm then "aarch64".toList else "x86_64".toList

/-- A leg for `25.12`, with or without host tools. -/
def legFiles (arm tools : Bool) : Site :=
  let packages := (((Tree.empty : Site).mkdirs ["25.12".toList, legArch arm]).bind fun t ↦
    t.write ["25.12".toList, legArch arm, adbName] (.bytes (legArch arm))).getD Tree.empty
  if tools then
    ((packages.mkdirs [toolsName, legArch arm]).bind fun t ↦
      t.write [toolsName, legArch arm, "rsim-card".toList] (.bytes ['y'])).getD Tree.empty
  else packages

theorem legFiles_plain (arm tools : Bool) :
    ∀ q ∈ (legFiles arm tools).dom, ∀ n ∈ q, PlainName n := by
  cases arm <;> cases tools <;> decide +kernel

theorem legFiles_index (arm tools : Bool) : ∀ q ∈ (legFiles arm tools).dom,
    q.getLast? = some adbName → q = ["25.12".toList, legArch arm, adbName] := by
  cases arm <;> cases tools <;> decide +kernel

def leg (arm tools : Bool) : Artifact where
  release := "25.12".toList
  arch := legArch arm
  files := legFiles arm tools
  release_plain := by decide
  arch_plain := by cases arm <;> decide
  plain q hq := legFiles_plain arm tools q ((Tree.mem_dom _ q).mpr hq)
  index q hq := by
    have h : q ++ [adbName] = ["25.12".toList, legArch arm] ++ [adbName] :=
      legFiles_index arm tools _ ((Tree.mem_dom _ _).mpr hq) (by simp)
    obtain ⟨hq, -⟩ := List.append_inj' h rfl
    exact ⟨_, _, hq, by decide⟩

/-- One leg with host tools, or two without. -/
def legs (tools : Bool) : List Artifact :=
  if tools then [leg false true] else [leg false false, leg true false]

theorem legs_nodup (tools : Bool) : ((legs tools).map Artifact.name).Nodup := by
  cases tools <;> decide +kernel

/-- The artifacts agree if they do where one of them has something. -/
theorem agree_of_dom {arts : List Artifact} (h : ∀ a ∈ arts, ∀ b ∈ arts, ∀ q ∈ a.files.dom,
    b.files.get q ≠ none → a.files.get q = b.files.get q) : Agree arts :=
  fun a ha b hb q hq ↦ h a ha b hb q ((Tree.mem_dom _ q).mpr hq)

theorem legs_agree (tools : Bool) : Agree (legs tools) := by
  refine agree_of_dom ?_
  cases tools <;> decide +kernel

/-- The files of all legs in one directory. -/
def mergedFiles (tools : Bool) : Site :=
  if tools then legFiles false true
  else
    (((legFiles false false).mkdirs ["25.12".toList, legArch true]).bind fun t ↦
      t.write ["25.12".toList, legArch true, adbName] (.bytes (legArch true))).getD Tree.empty

/-- A tree has what is in the artifacts, if both sides do where either has something. -/
theorem merged_of_dom {arts : List Artifact} {t : Site}
    (ht : ∀ q ∈ t.dom, q ≠ [] → t.get q = arts.findSome? (·.files.get q))
    (ha : ∀ a ∈ arts, ∀ q ∈ a.files.dom, q ∈ t.dom) : Merged arts t := by
  intro q hq
  by_cases hqt : q ∈ t.dom
  · exact ht q hqt hq
  · have hnone : t.get q = none := by
      by_contra hc
      exact hqt ((Tree.mem_dom _ q).mpr hc)
    rw [hnone, eq_comm, List.findSome?_eq_none_iff]
    intro a haa
    by_contra hc
    exact hqt (ha a haa q ((Tree.mem_dom _ q).mpr hc))

theorem legs_merged (tools : Bool) : Merged (legs tools) (mergedFiles tools) := by
  refine merged_of_dom ?_ ?_ <;> cases tools <;> decide +kernel

/-- A directory for each leg. -/
def isolatedFiles (tools : Bool) : Site :=
  if tools then hostWith [(leg false true).name] (legFiles false true)
  else
    (((hostWith [(leg false false).name] (legFiles false false)).mkdirs
      [(leg true false).name]).bind fun t ↦
        t.graft [(leg true false).name] (legFiles true false)).getD Tree.empty

theorem isolated_of_dom {arts : List Artifact} {t : Site}
    (ht : ∀ p ∈ t.dom, ∀ n ∈ p.head?,
      t.get p = (arts.find? (·.name = n)).bind (·.files.get p.tail))
    (ha : ∀ a ∈ arts, ∀ q ∈ a.files.dom, a.name :: q ∈ t.dom) : Isolated arts t := by
  intro n q
  by_cases hqt : n :: q ∈ t.dom
  · exact ht _ hqt n rfl
  · have hnone : t.get (n :: q) = none := by
      by_contra hc
      exact hqt ((Tree.mem_dom _ _).mpr hc)
    rw [hnone, eq_comm, Option.bind_eq_none_iff]
    intro a hfind
    obtain rfl : a.name = n := by simpa using List.find?_some hfind
    by_contra hc
    exact hqt (ha a (List.mem_of_find?_eq_some hfind) q ((Tree.mem_dom _ q).mpr hc))

theorem legs_isolated (tools : Bool) : Isolated (legs tools) (isolatedFiles tools) := by
  refine isolated_of_dom ?_ ?_ <;> cases tools <;> decide +kernel

/-- The build passes `fresh`. -/
def buildCall (tools : Bool) : FeedCall where
  machine :=
    { treeCall "/w".toList with
      host := hostWith ["w".toList, "fresh".toList] (mergedFiles tools)
      args := ["--dir".toList, "fresh".toList, "--channel".toList, "main".toList,
        "--sha".toList, "c0ffee".toList] }
  self := "publish-feed.sh".toList
  root := "/w".toList
  keepVersions := []
  gh := none

def buildOptions : FeedOptions where
  dir := "fresh".toList
  channel := "main".toList
  sha := "c0ffee".toList

/-- The repair passes the number of the run. -/
def repairCall (tools : Bool) : FeedCall where
  machine :=
    { treeCall "/w".toList with
      host := hostWith ["tmp".toList, "dl".toList] (isolatedFiles tools)
      args := ["7".toList] }
  self := "publish-feed.sh".toList
  root := "/w".toList
  keepVersions := []
  gh := some
    { info := fun _ ↦ some ("build".toList, "main".toList, "c0ffee".toList)
      commit := by simp
      download := fun _ ↦ some "/tmp/dl".toList }

def repairOptions : FeedOptions where
  dir := "/tmp/dl".toList
  channel := "main".toList
  sha := "c0ffee".toList
  run := "7".toList

theorem buildCall_lies (tools : Bool) :
    (buildCall tools).Lies buildOptions ["w".toList, "fresh".toList] where
  dirAt := by cases tools <;> rfl
  dash := by decide
  paren := by decide
  newline := by decide
  equals := by decide
  name := by decide

theorem repairCall_lies (tools : Bool) :
    (repairCall tools).Lies repairOptions ["tmp".toList, "dl".toList] where
  dirAt := by cases tools <;> rfl
  dash := by decide
  paren := by decide
  newline := by decide
  equals := by decide
  name := by decide

/-- Two legs without host tools. -/
theorem repair_same_iff_leg :
    (repairCall false).options = .ok repairOptions ∧
      (buildCall false).published buildOptions = (repairCall false).published repairOptions := by
  refine ⟨by rfl, ?_⟩
  have h := (repair_same_iff (legs false) (buildCall false) (repairCall false) buildOptions
    repairOptions _ _ (by rfl) (buildCall_lies false) (repairCall_lies false) rfl
    (legs_nodup false) (legs_agree false) (by rw [buildCall, sub_hostWith]; exact legs_merged false)
    (by rw [repairCall, sub_hostWith]; exact legs_isolated false)).mpr ⟨?_, ?_⟩
  · exact h.1
  · intro a ha arch hget
    have hdom : ∀ a ∈ legs false, ∀ q ∈ a.files.dom, q.head? ≠ some toolsName := by decide +kernel
    exact hdom a ha [toolsName, arch] ((Tree.mem_dom _ _).mpr (by rw [hget]; simp)) rfl
  · -- neither leg has anything in the tree of the other one
    have htree : ∀ a ∈ legs false, ∀ b ∈ legs false, ∀ q ∈ a.files.dom, q.length = 3 →
        ∀ q' ∈ b.files.dom, q.take 2 <+: q' → q' ∈ a.files.dom := by decide +kernel
    intro a ha rel arch hget b hb q hq
    exact (Tree.mem_dom _ _).mp (htree a ha b hb _ ((Tree.mem_dom _ _).mpr hget) rfl _
      ((Tree.mem_dom _ _).mpr hq) (List.prefix_append [rel, arch] q))

/-- A leg with host tools. -/
theorem repair_without_tools :
    ¬∀ (arts : List Artifact) (c c' : FeedCall) (o o' : FeedOptions) (p p' : Path),
      c.options = .ok o → c'.options = .ok o' → c.Lies o p → c'.Lies o' p' →
      o'.channel = o.channel → (arts.map Artifact.name).Nodup → Agree arts →
      Merged arts (c.machine.host.sub p) → Isolated arts (c'.machine.host.sub p') →
      c.published o = c'.published o' ∧ c.InForm o arts ∧ c'.InForm o' arts := by
  intro h
  have hm : Merged (legs true)
      ((buildCall true).machine.host.sub ["w".toList, "fresh".toList]) := by
    rw [buildCall, sub_hostWith]
    exact legs_merged true
  have hi : Isolated (legs true)
      ((repairCall true).machine.host.sub ["tmp".toList, "dl".toList]) := by
    rw [repairCall, sub_hostWith]
    exact legs_isolated true
  obtain ⟨hsame, -⟩ := h (legs true) (buildCall true) (repairCall true) buildOptions repairOptions
    ["w".toList, "fresh".toList] ["tmp".toList, "dl".toList] (by rfl) (by rfl)
    (buildCall_lies true) (repairCall_lies true) rfl (legs_nodup true) (legs_agree true) hm hi
  exact no_tools_of_same (c := buildCall true) (by rfl) (buildCall_lies true)
    (repairCall_lies true) rfl (legs_nodup true) (legs_agree true) hm hi hsame
    (List.mem_singleton_self (leg false true)) "x86_64".toList (by decide +kernel)

end OpenwrtFeed
