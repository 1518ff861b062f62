import OpenwrtFeed.Feed.Publish
import OpenwrtFeed.Pages.Branch

/-!
# The mirror of the stable releases

Devices from before the channels read `<release>/<arch>`.  Every stable publish writes that tree
next to `stable/<release>/<arch>`, from the same directory; the one keeps old versions, the other
does not.

The two are written one after the other, so the invariant (`Shown`) holds between the trees of a
build, not between its pairs: `shown_tree` is the step from one tree to the next, `shown_job` the
one from commit to commit.  Nobody else writes there: `sameFiles_job`.  So what is shown is always
what the last of the runs that published this release has built (`current`), and
`mirror_shows_stable` says so for any number of runs of `publish-feed.sh` and of the image workflow
on one branch.

A release whose name has an equals sign in it cannot be published at all, because the path of its
tree is cut there; so what has been published has none (`plainNames_of_built`).
-/

set_option autoImplicit false

namespace OpenwrtFeed

open Shell DirTree Relation

/-! ## The two trees -/

def stableTree (rel arch : Str) : Path := [stableName, rel, arch]
def mirrorTree (rel arch : Str) : Path := [rel, arch]

/-- The files in the directory `d` are the same, its generated page apart. -/
def SameFiles (d : Path) (t t' : Site) : Prop :=
  ∀ n, n ≠ indexName → t'.read (d ++ [n]) = t.read (d ++ [n])

theorem SameFiles.refl (d : Path) (t : Site) : SameFiles d t t := fun _ _ ↦ rfl

theorem SameFiles.trans {d : Path} {t u v : Site} (h : SameFiles d t u) (h' : SameFiles d u v) :
    SameFiles d t v := fun n hn ↦ (h' n hn).trans (h n hn)

theorem read_congr {t t' : Site} {q : Path}
    (h : ∀ c, t'.get q = some (.file c) ↔ t.get q = some (.file c)) : t'.read q = t.read q :=
  Option.ext fun c ↦ by rw [Tree.read_eq_some, Tree.read_eq_some, h c]

/-- What the trees of a release show: nothing yet, or one build under its stamp. -/
inductive Shown (rel arch : Str) (t : Site) : Option (Stamp × Site) → Prop
  | nothing (hs : t.read (stableTree rel arch ++ [publishedName]) = none)
      (hm : t.read (mirrorTree rel arch ++ [publishedName]) = none) : Shown rel arch t none
  | build (s : Stamp) (src : Site)
      (hs : t.read (stableTree rel arch ++ [publishedName]) = some (.stamp s))
      (hm : t.read (mirrorTree rel arch ++ [publishedName]) = some (.stamp s))
      (hf : ∀ n, n ≠ publishedName → n ≠ indexName →
        t.read (mirrorTree rel arch ++ [n]) = src.read [n]) : Shown rel arch t (some (s, src))

theorem Shown.congr {rel arch : Str} {t t' : Site} {b : Option (Stamp × Site)}
    (h : Shown rel arch t b) (hs : SameFiles (stableTree rel arch) t t')
    (hm : SameFiles (mirrorTree rel arch) t t') : Shown rel arch t' b := by
  have hpub : publishedName ≠ indexName := by decide
  cases h with
  | nothing h₁ h₂ => exact .nothing ((hs _ hpub).trans h₁) ((hm _ hpub).trans h₂)
  | build s src h₁ h₂ hf =>
    exact .build s src ((hs _ hpub).trans h₁) ((hm _ hpub).trans h₂)
      fun n hn hn' ↦ (hm n hn').trans (hf n hn hn')

/-! ## Publishing one pair -/

section Pair

variable {E : Env} {r : Request} {t t' : Site} {pair : Str}

theorem publish_sameFiles (h : publish E r t pair = some t') {e : Path}
    (he : ∀ n, ¬destOf pair <+: e ++ [n]) : SameFiles e t t' := fun n _ ↦
  read_congr fun c ↦ publish_file_iff h (he n) c

theorem publish_stamp (h : publish E r t pair = some t') :
    t'.read (destOf pair ++ [publishedName]) = some (.stamp r.stamp) := by
  obtain ⟨src, u, -, -, hf⟩ := publish_eq_some h
  obtain ⟨x, -, hw⟩ := Option.bind_eq_some_iff.mp hf
  rw [Tree.read_eq_some, Tree.get_write hw, destOf, if_pos rfl]

/-- Where no old versions are kept, the files are those of the source. -/
theorem publish_files (h : publish E r t pair = some t')
    (hkeep : ¬1 < keepFor r.keepRules (afterFirst '=' pair)) :
    ∃ src, r.source (beforeFirst '=' pair) = some src ∧ ∀ n, n ≠ publishedName →
      t'.read (destOf pair ++ [n]) = src.read [n] := by
  obtain ⟨src, u, hsrc, hu, hf⟩ := publish_eq_some h
  refine ⟨src, hsrc, fun n hn ↦ ?_⟩
  rw [finish, if_neg hkeep] at hf
  have hw : u.write (destOf pair ++ [publishedName]) (.stamp r.stamp) = some t' := hf
  have hne : destOf pair ++ [n] ≠ destOf pair ++ [publishedName] := fun hc ↦
    hn (by simpa using hc)
  have hget : t'.get (destOf pair ++ [n]) = src.get [n] := by
    rw [Tree.get_write hw, if_neg hne, get_replace hu, if_pos (List.prefix_append _ _),
      List.drop_left]
  rw [Tree.read, Tree.read, hget]

end Pair

/-! ## The pairs of one tree -/

/-- A run of `publish-feed.sh` for a release. -/
def Job.IsStable : Job → Prop
  | .feed _ o _ => o.channel = stableName
  | .images _ => False

/-- What the tree `d` of a stable build publishes as this release: its files, if the pair for the
channel is accepted and goes there. -/
def FeedCall.builtFrom (c : FeedCall) (o : FeedOptions) (rel arch d : Str) : Option Site :=
  if relOf d = rel ∧ archOf d = arch then
    (((c.pages o).accept (d ++ '=' :: (o.channel ++ '/' :: (rel ++ '/' :: arch)))).filter fun a ↦
      destOf a.entry = stableTree rel arch).map fun a ↦ c.machine.host.sub a.src
  else none

/-- What a job publishes as this release, if it does.  Of several trees for it the last stays. -/
def Job.built (j : Job) (rel arch : Str) : Option Site :=
  match j with
  | .feed c o _ =>
    if o.channel = stableName then ((c.trees o).filterMap (c.builtFrom o rel arch)).getLast?
    else none
  | .images _ => none

theorem Job.built_of_not_isStable {j : Job} (h : ¬j.IsStable) (rel arch : Str) :
    j.built rel arch = none := by
  cases j with
  | feed c o ho => exact if_neg h
  | images c => rfl

/-- The names of a release and an architecture that can be published. -/
structure PlainNames (rel arch : Str) : Prop where
  relPlain : '=' ∉ rel
  archPlain : '=' ∉ arch
  relFree : rel ∉ reserved

theorem newline_notMem_trees {c : FeedCall} {o : FeedOptions} {d : Str} (hd : d ∈ c.trees o) :
    '\n' ∉ d := by
  obtain ⟨adb, hadb, rfl⟩ := List.mem_map.mp hd
  have hline : '\n' ∉ adb := by
    rw [Call.adbs, Call.findLines] at hadb
    split at hadb
    · cases hadb
    · split at hadb
      · cases hadb
      · rw [List.mem_insertionSort] at hadb
        obtain ⟨q, -, hq⟩ := List.mem_flatMap.mp hadb
        exact mem_splitOn_notMem hq
  rw [adbDir, stripSuffix]
  split
  · exact fun h ↦ hline (List.mem_of_mem_take h)
  · exact hline

/-- The name before the first slash. -/
theorem eq_of_slash {x n t : Str} (hx : '/' ∉ x) (hn : '/' ∉ n)
    (h : x ++ ['/'] <+: n ++ '/' :: t) : x = n := by
  obtain ⟨r, hr⟩ := h
  rw [List.append_assoc, List.singleton_append] at hr
  rw [← beforeFirst_append hx r, hr, beforeFirst_append hn t]

/-- Outside of `images/` and `tools/` the guard asks for an index. -/
theorem guard_tree {c : Call} {src n y : Str} {q : Path} (hn : '/' ∉ n) (hi : n ≠ imagesName)
    (ht : n ≠ toolsName) : c.guard src q (n ++ '/' :: y) =
      if c.host.isFile (q ++ [adbName]) then none else some "no packages.adb in ".toList := by
  have hi' : ¬Glob.accepts (Glob.parse "images/*".toList) (n ++ '/' :: y) = true := fun h ↦
    hi (eq_of_slash (by decide) hn
      ((Glob.accepts_lit_star (s := "images/".toList) (by decide)).mp h)).symm
  have ht' : ¬Glob.accepts (Glob.parse "tools/*".toList) (n ++ '/' :: y) = true := fun h ↦
    ht (eq_of_slash (by decide) hn
      ((Glob.accepts_lit_star (s := "tools/".toList) (by decide)).mp h)).symm
  rw [Call.guard, if_neg hi', if_neg ht']

theorem stripSlash_of_name {u v : Str} (hv : v ≠ []) (hslash : '/' ∉ v) :
    stripSuffix ['/'] (u ++ '/' :: v) = u ++ '/' :: v := by
  rw [stripSuffix, if_neg]
  rintro ⟨r, hr⟩
  obtain ⟨v, x, rfl⟩ : ∃ w x, v = w ++ [x] :=
    ⟨v.dropLast, v.getLast hv, (List.dropLast_append_getLast hv).symm⟩
  rw [← List.cons_append, ← List.append_assoc] at hr
  have hx : ['/'] = [x] := (List.append_inj' hr rfl).2
  exact hslash (List.mem_append_right v (by rw [← hx]; exact List.mem_singleton_self _))

section Tree

variable {c : FeedCall} {o : FeedOptions} {ho : c.options = .ok o} {v : Plan} {d : Str}

theorem accept_of_plain {c : Call} {d y dest : Str} (hd : '=' ∉ d) (hy : checkDest y = .ok dest) :
    c.accept (d ++ '=' :: y) = (c.dirAt d).bind fun q ↦
      if c.guard d q dest = none then some ⟨q, dest⟩ else none := by
  rw [Call.accept, afterFirst_append hd, beforeFirst_append hd, hy]
  cases c.dirAt d with
  | none => rfl
  | some q => rfl

/-- What the check makes of a destination that a tree is published to. -/
theorem checkDest_treePair (h : (Job.feed c o ho).pages.plan = .ok v) (hd : d ∈ c.trees o)
    (heq : '=' ∉ d) {y : Str} (hslash : stripSuffix ['/'] y = y) (hdot : ¬['.', '/'] <+: y)
    (hp : d ++ '=' :: y ∈ treePairs o.channel d) : checkDest y = .ok y := by
  have hplan := planned_of_plan h
  obtain ⟨dest, hdest⟩ := hplan.checked _ (by
    rw [(job_reads hplan.opts).pairs]
    exact treePair_mem hd hp)
  rw [afterFirst_append heq] at hdest
  rw [hdest, checkDest_eq hdest, stripPrefix, if_neg hdot, hslash]

/-- A pair of a tree is accepted exactly if the tree is there and has an index. -/
theorem accept_treePair (h : (Job.feed c o ho).pages.plan = .ok v) (hd : d ∈ c.trees o)
    (heq : '=' ∉ d) {n y : Str} (hn : '/' ∉ n) (hfree : n ∉ [imagesName, toolsName, ['.']])
    (hslash : stripSuffix ['/'] (n ++ '/' :: y) = n ++ '/' :: y)
    (hp : d ++ '=' :: (n ++ '/' :: y) ∈ treePairs o.channel d) :
    (c.pages o).accept (d ++ '=' :: (n ++ '/' :: y)) =
      (((c.pages o).dirAt d).filter fun q ↦ (c.pages o).host.isFile (q ++ [adbName])).map
        fun q ↦ ⟨q, n ++ '/' :: y⟩ := by
  simp only [List.mem_cons, List.not_mem_nil, or_false, not_or] at hfree
  obtain ⟨hi, ht, hdot⟩ := hfree
  rw [accept_of_plain heq (checkDest_treePair h hd heq hslash (not_dotSlash hn hdot y) hp)]
  cases (c.pages o).dirAt d with
  | none => rfl
  | some q =>
    rw [Option.bind_some, guard_tree hn hi ht, Option.filter_some]
    by_cases hfile : (c.pages o).host.isFile (q ++ [adbName]) = true
    · rw [if_pos hfile, if_pos hfile, if_pos rfl, Option.map_some]
    · rw [if_neg hfile, if_neg hfile, if_neg (by simp), Option.map_none]

/-- What is accepted of a tree is odd, unless there is no equals sign in the way. -/
theorem odd_or_plain (h : (Job.feed c o ho).pages.plan = .ok v) (hd : d ∈ c.trees o)
    (hrel : relOf d ≠ []) (harch : archOf d ≠ []) {p : Str} (hp : p ∈ treePairs o.channel d)
    {a : Accepted} (ha : (c.pages o).accept p = some a) :
    Odd (destOf a.entry) ∨ '=' ∉ d ∧ '=' ∉ captured (absPath a.src) := by
  have hdot : relOf d ≠ ['.'] := (tree_inside h hd hrel harch _ List.mem_cons_self).1
  rw [treePairs] at hp
  rcases List.mem_cons.mp hp with rfl | hp
  · have hv : components (relOf d ++ '/' :: archOf d) ≠ [] := by
      simp [components_mirror hrel harch]
    exact (odd_or_dest hv (channel_not_dotSlash ho _) ha).imp_right fun hx ↦ ⟨hx.1, hx.2.1⟩
  · split at hp
    · rw [List.mem_singleton.mp hp] at ha
      have hv : components (archOf d) ≠ [] := by
        simp [components_of_name harch (archOf_noSlash d)]
      exact (odd_or_dest hv (not_dotSlash (relOf_noSlash d) hdot _) ha).imp_right fun hx ↦
        ⟨hx.1, hx.2.1⟩
    · exact absurd hp List.not_mem_nil

/-- Both pairs of a tree are odd or left out, or both are accepted with the same directory. -/
theorem tree_twins (h : (Job.feed c o ho).pages.plan = .ok v) (hch : o.channel = stableName)
    (hd : d ∈ c.trees o) (hrel : relOf d ≠ []) (harch : archOf d ≠ [])
    (hfree : relOf d ∉ reserved) :
    (∀ p ∈ treePairs o.channel d, ∀ a, (c.pages o).accept p = some a → Odd (destOf a.entry)) ∨
      ∃ q, c.machine.dirAt d = some q ∧ '=' ∉ d ∧ '=' ∉ captured (absPath q) ∧
        (treePairs o.channel d).filterMap (c.pages o).accept =
          [⟨q, o.channel ++ '/' :: (relOf d ++ '/' :: archOf d)⟩,
            ⟨q, relOf d ++ '/' :: archOf d⟩] := by
  have hplain := fun p (hp : p ∈ treePairs o.channel d) a ha ↦
    odd_or_plain (a := a) h hd hrel harch hp ha
  by_cases heq : '=' ∈ d
  · exact .inl fun p hp a ha ↦ (hplain p hp a ha).resolve_right fun hx ↦ hx.1 heq
  have hpairs : treePairs o.channel d =
      [d ++ '=' :: (o.channel ++ '/' :: (relOf d ++ '/' :: archOf d)),
        d ++ '=' :: (relOf d ++ '/' :: archOf d)] := by rw [treePairs, if_pos hch]
  have hslash := stripSlash_of_name (u := relOf d) harch (archOf_noSlash d)
  have hslash' : stripSuffix ['/'] (o.channel ++ '/' :: (relOf d ++ '/' :: archOf d)) =
      o.channel ++ '/' :: (relOf d ++ '/' :: archOf d) := by
    rw [← List.cons_append, ← List.append_assoc]
    exact stripSlash_of_name harch (archOf_noSlash d)
  have hname : relOf d ∉ [imagesName, toolsName, ['.']] := by
    have hdot : relOf d ≠ ['.'] := (tree_inside h hd hrel harch _ List.mem_cons_self).1
    simp only [reserved, List.mem_cons, not_or] at hfree
    simp [hfree, hdot]
  have hacc₁ := accept_treePair h hd heq (n := o.channel) (by rw [hch]; decide)
    (by rw [hch]; decide) hslash' (by rw [hpairs]; exact List.mem_cons_self)
  have hacc₂ := accept_treePair h hd heq (relOf_noSlash d) hname hslash (by rw [hpairs]; simp)
  -- both are decided by the same test
  cases hq : ((c.pages o).dirAt d).filter fun q ↦ (c.pages o).host.isFile (q ++ [adbName]) with
  | none =>
    left
    intro p hp a ha
    rw [hq, Option.map_none] at hacc₁ hacc₂
    rw [hpairs] at hp
    rcases List.mem_cons.mp hp with rfl | hp
    · rw [hacc₁] at ha; cases ha
    · rw [List.mem_singleton.mp hp, hacc₂] at ha; cases ha
  | some q =>
    rw [hq, Option.map_some] at hacc₁ hacc₂
    by_cases hA : '=' ∈ captured (absPath q)
    · left
      intro p hp a ha
      refine (hplain p hp a ha).resolve_right fun hx ↦ hx.2 ?_
      rw [hpairs] at hp
      rcases List.mem_cons.mp hp with rfl | hp
      · rw [hacc₁] at ha; cases ha; exact hA
      · rw [List.mem_singleton.mp hp, hacc₂] at ha; cases ha; exact hA
    · refine .inr ⟨q, (Option.filter_eq_some_iff.mp hq).1, heq, hA, ?_⟩
      rw [hpairs, List.filterMap_cons, hacc₁, List.filterMap_cons, hacc₂]
      rfl

end Tree

/-- The last name on the way to a directory is the name of the directory. -/
theorem dirAt_concat {c : Call} {s n : Str} {l p : Path} (hs : components s = l ++ [n])
    (hn : n ≠ ['.'] ∧ n ≠ ['.', '.']) (h : c.dirAt s = some p) : ∃ q, p = q ++ [n] := by
  rw [Call.dirAt] at h
  split at h
  · cases h
  · obtain ⟨p₁, hp₁, h⟩ := Option.bind_eq_some_iff.mp h
    rw [hs, List.foldlM_append] at hp₁
    obtain ⟨q, -, hq⟩ := Option.bind_eq_some_iff.mp hp₁
    split at h
    · cases h
      simp only [List.foldlM_cons, List.foldlM_nil, bind_pure, stepInto, if_neg hn.1,
        if_neg hn.2] at hq
      split at hq
      · exact ⟨q, (Option.some.inj hq).symm⟩
      · cases hq
    · cases h

theorem components_archOf {d : Str} (h : archOf d ≠ []) : ∃ l, components d = l ++ [archOf d] := by
  by_cases hd : '/' ∈ d
  · refine ⟨components (beforeLast '/' d), ?_⟩
    conv_lhs => rw [← beforeLast_cons_afterLast hd]
    rw [components_slash, ← archOf, components_of_name h (archOf_noSlash d)]
  · have harch : archOf d = d := by
      rw [archOf, afterLast, beforeFirst_of_notMem (by simpa using hd), List.reverse_reverse]
    rw [harch] at h ⊢
    exact ⟨[], components_of_name h hd⟩

/-- The directory of a tree survives being written down. -/
theorem captured_tree {c : Call} {d : Str} {q : Path} (hd : '\n' ∉ d) (harch : archOf d ≠ [])
    (hin : archOf d ≠ ['.'] ∧ archOf d ≠ ['.', '.']) (h : c.dirAt d = some q) :
    captured (absPath q) = absPath q := by
  obtain ⟨l, hl⟩ := components_archOf harch
  obtain ⟨p, rfl⟩ := dirAt_concat hl hin h
  refine captured_eq_self fun hnl ↦ hd ?_
  obtain ⟨x, hx⟩ := suffix_absPath p (archOf d)
  rw [← hx, List.getLast?_append_of_ne_nil _ harch] at hnl
  obtain ⟨y, hy⟩ : archOf d <:+ d := by
    have hpre : beforeFirst '/' d.reverse <+: d.reverse := List.takeWhile_prefix _
    rw [← List.reverse_suffix, List.reverse_reverse] at hpre
    exact hpre
  rw [← hy]
  exact List.mem_append_right y (List.mem_of_getLast? hnl)

/-- Only the channels keep old versions. -/
theorem keepFor_mirror {rules : List (Str × Nat)} {rel arch : Str} (hslash : '/' ∉ rel)
    (hfree : rel ∉ reserved)
    (hrules : ∀ r ∈ rules, r.1 = "main/*".toList ∨ r.1 = "stable/*".toList) :
    keepFor rules (rel ++ '/' :: arch) = 1 := by
  have hnone : rules.find? (fun r ↦ Glob.accepts (Glob.parse r.1) (rel ++ '/' :: arch)) = none := by
    rw [List.find?_eq_none]
    intro r hr hacc
    rcases hrules r hr with h | h <;> rw [h] at hacc
    · have hpre := (Glob.accepts_lit_star (s := "main/".toList) (by decide)).mp hacc
      exact hfree (by rw [← eq_of_slash (x := mainName) (by decide) hslash hpre]; decide)
    · have hpre := (Glob.accepts_lit_star (s := "stable/".toList) (by decide)).mp hacc
      exact hfree (by rw [← eq_of_slash (x := stableName) (by decide) hslash hpre]; decide)
  rw [keepFor, hnone]
  rfl

/-! ## One tree after the other -/

theorem foldlM_publish_sameFiles {E : Env} {r : Request} {ps : List Str} {t t' : Site} {e : Path}
    (h : ps.foldlM (publish E r) t = some t') (he : ∀ p ∈ ps, ∀ n, ¬destOf p <+: e ++ [n]) :
    SameFiles e t t' := by
  induction ps generalizing t with
  | nil => cases h; exact .refl e _
  | cons p ps ih =>
    rw [List.foldlM_cons] at h
    obtain ⟨u, hu, h⟩ := Option.bind_eq_some_iff.mp h
    exact (publish_sameFiles hu (he p List.mem_cons_self)).trans
      (ih h fun p' hp' ↦ he p' (List.mem_cons_of_mem p hp'))

/-- Two elements with two results. -/
theorem filterMap_pair {α β : Type} {f : α → Option β} {x y : α} {a b : β}
    (h : [x, y].filterMap f = [a, b]) : f x = some a := by
  cases hx : f x <;> cases hy : f y <;> simp_all

/-- The last one of the results in a list, or what there was before. -/
theorem getLast?_filterMap_cons_or {α β : Type} (f : α → Option β) (a : α) (l : List α)
    (b : Option β) :
    ((a :: l).filterMap f).getLast?.or b = (l.filterMap f).getLast?.or ((f a).or b) := by
  rw [List.filterMap_cons]
  cases f a with
  | none => rfl
  | some x => cases h : (l.filterMap f).getLast? <;> simp [List.getLast?_cons, h]

section Shown

variable {E : Env} {c : FeedCall} {o : FeedOptions} {ho : c.options = .ok o} {v : Plan}
  {rel arch : Str} {t t' : Site} {b : Option (Stamp × Site)}

theorem PlainNames.stable_plain (hn : PlainNames rel arch) :
    ∀ y ∈ stableTree rel arch, '=' ∉ y := by
  intro y hy
  simp only [stableTree, List.mem_cons, List.not_mem_nil, or_false] at hy
  rcases hy with rfl | rfl | rfl
  · decide
  · exact hn.relPlain
  · exact hn.archPlain

theorem PlainNames.mirror_plain (hn : PlainNames rel arch) : ∀ y ∈ mirrorTree rel arch, '=' ∉ y :=
  fun y hy ↦ hn.stable_plain y (List.mem_cons_of_mem _ hy)

/-- A tree of another release is not above the trees of this one. -/
theorem not_above_stable {rel' arch' n : Str} (hrel' : rel' ∉ reserved)
    (hne : ¬(rel' = rel ∧ arch' = arch)) :
    ¬stableTree rel' arch' <+: stableTree rel arch ++ [n] ∧
      ¬mirrorTree rel' arch' <+: stableTree rel arch ++ [n] := by
  constructor
  · intro h
    simp only [stableTree, List.cons_append, List.nil_append, List.cons_prefix_cons] at h
    exact hne ⟨h.2.1, h.2.2.1⟩
  · intro h
    simp only [stableTree, mirrorTree, List.cons_append, List.nil_append,
      List.cons_prefix_cons] at h
    exact hrel' (by rw [h.1]; decide)

theorem not_above_mirror {rel' arch' n : Str} (hrel : rel ∉ reserved)
    (hne : ¬(rel' = rel ∧ arch' = arch)) :
    ¬stableTree rel' arch' <+: mirrorTree rel arch ++ [n] ∧
      ¬mirrorTree rel' arch' <+: mirrorTree rel arch ++ [n] := by
  constructor
  · intro h
    simp only [stableTree, mirrorTree, List.cons_append, List.nil_append,
      List.cons_prefix_cons] at h
    exact hrel (by rw [← h.1]; decide)
  · intro h
    simp only [mirrorTree, List.cons_append, List.nil_append, List.cons_prefix_cons] at h
    exact hne ⟨h.1, h.2.1⟩

/-- After both of its pairs a tree is shown. -/
theorem shown_build (h : (Job.feed c o ho).pages.plan = .ok v) {d : Str} (hd : d ∈ c.trees o)
    (hrel : relOf d ≠ []) (harch : archOf d ≠ []) (hfree : relOf d ∉ reserved) {q : Path}
    (hq : c.machine.dirAt d = some q) (hA : '=' ∉ captured (absPath q)) {y : Str}
    (hy : components y = stableTree (relOf d) (archOf d)) {u : Site}
    (hu : publish E (v.request (c.pages o)) t (Accepted.entry ⟨q, y⟩) = some u)
    (ht : publish E (v.request (c.pages o)) u
      (Accepted.entry ⟨q, relOf d ++ '/' :: archOf d⟩) = some t') :
    Shown (relOf d) (archOf d) t'
      (some ((v.request (c.pages o)).stamp, c.machine.host.sub q)) := by
  have hdest : ∀ y : Str, afterFirst '=' (Accepted.entry ⟨q, y⟩) = y := fun y ↦
    afterFirst_append hA y
  have hmirror : destOf (Accepted.entry ⟨q, relOf d ++ '/' :: archOf d⟩) =
      mirrorTree (relOf d) (archOf d) := by
    rw [destOf, hdest, components_mirror hrel harch]
    rfl
  have hsrc : (v.request (c.pages o)).source (captured (absPath q)) =
      some (c.machine.host.sub q) := by
    have hin := tree_inside h hd hrel harch (archOf d) (by simp)
    have hq' : Names q ∧ (c.pages o).host.isDir q = true := dirAt_spec hq
    simp only [captured_tree (newline_notMem_trees hd) harch hin hq, Plan.request,
      components_absPath hq'.1, if_pos hq'.2]
    rfl
  have hkeep : keepFor (v.request (c.pages o)).keepRules (relOf d ++ '/' :: archOf d) = 1 :=
    keepFor_mirror (relOf_noSlash d) hfree (job_reads (planned_of_plan h).opts).keepRules
  obtain ⟨src, hsrc', hfiles⟩ := publish_files ht (by rw [hdest, hkeep]; omega)
  rw [Accepted.entry, beforeFirst_append hA, hsrc] at hsrc'
  cases hsrc'
  have hstable := publish_stamp hu
  have hstamp := publish_stamp ht
  rw [destOf, hdest, hy] at hstable
  rw [hmirror] at hstamp hfiles
  refine .build _ _ ?_ hstamp fun n hn _ ↦ hfiles n hn
  rw [← hstable]
  refine publish_sameFiles ht (fun n hc ↦ ?_) _ (by decide)
  rw [hmirror] at hc
  simp only [stableTree, mirrorTree, List.cons_append, List.cons_prefix_cons] at hc
  exact hfree (by rw [hc.1]; decide)

/-- A tree whose pairs are odd publishes nothing of this release. -/
theorem builtFrom_of_odd (hn : PlainNames rel arch) {d : Str}
    (hodd : ∀ p ∈ treePairs o.channel d, ∀ a, (c.pages o).accept p = some a →
      Odd (destOf a.entry)) : c.builtFrom o rel arch d = none := by
  rw [FeedCall.builtFrom]
  split
  · rename_i hthis
    obtain ⟨rfl, rfl⟩ := hthis
    rw [Option.map_eq_none_iff, Option.filter_eq_none_iff]
    intro a ha hdest
    obtain ⟨x, hx, heq⟩ := hodd _ List.mem_cons_self a ha
    rw [of_decide_eq_true hdest] at hx
    exact hn.stable_plain x (List.dropLast_subset _ hx) heq
  · rfl

/-- **From one tree to the next.** -/
theorem shown_tree (h : (Job.feed c o ho).pages.plan = .ok v) (hj : (Job.feed c o ho).Named)
    (hch : o.channel = stableName) (hn : PlainNames rel arch) {d : Str} (hd : d ∈ c.trees o)
    (ht : (((treePairs o.channel d).filterMap (c.pages o).accept).map Accepted.entry).foldlM
      (publish E (v.request (c.pages o))) t = some t') (hb : Shown rel arch t b) :
    Shown rel arch t' (((c.builtFrom o rel arch d).map
      fun src ↦ ((v.request (c.pages o)).stamp, src)).or b) := by
  obtain ⟨hrel, harch, hfree⟩ := hj d hd
  have hsame : ∀ e : Path, (∀ a ∈ (treePairs o.channel d).filterMap (c.pages o).accept,
      ∀ n, ¬destOf a.entry <+: e ++ [n]) → SameFiles e t t' := fun e he ↦
    foldlM_publish_sameFiles ht fun p hp n ↦ by
      obtain ⟨a, ha, rfl⟩ := List.mem_map.mp hp
      exact he a ha n
  rcases tree_twins h hch hd hrel harch hfree with hodd | ⟨q, hq, -, hA, htwins⟩
  · have hodd' : ∀ a ∈ (treePairs o.channel d).filterMap (c.pages o).accept,
        Odd (destOf a.entry) := by
      intro a ha
      obtain ⟨p, hp, ha⟩ := List.mem_filterMap.mp ha
      exact hodd p hp a ha
    rw [builtFrom_of_odd hn hodd]
    exact hb.congr (hsame _ fun a ha n ↦ (hodd' a ha).not_above hn.stable_plain n)
      (hsame _ fun a ha n ↦ (hodd' a ha).not_above hn.mirror_plain n)
  · have hstable : components (o.channel ++ '/' :: (relOf d ++ '/' :: archOf d)) =
        stableTree (relOf d) (archOf d) := by
      rw [components_channel ho hrel harch, hch]
      rfl
    by_cases hthis : relOf d = rel ∧ archOf d = arch
    · obtain ⟨rfl, rfl⟩ := hthis
      rw [htwins] at ht
      simp only [List.map_cons, List.map_nil, List.foldlM_cons, List.foldlM_nil, bind_pure] at ht
      obtain ⟨u, hu, ht⟩ := Option.bind_eq_some_iff.mp ht
      have hacc := htwins
      rw [treePairs, if_pos hch] at hacc
      have hacc := filterMap_pair hacc
      have hdest : destOf (Accepted.entry
          ⟨q, o.channel ++ '/' :: (relOf d ++ '/' :: archOf d)⟩) =
            stableTree (relOf d) (archOf d) := by
        rw [destOf, Accepted.entry, afterFirst_append hA, hstable]
      rw [FeedCall.builtFrom, if_pos ⟨rfl, rfl⟩, hacc, Option.filter_some,
        if_pos (decide_eq_true hdest)]
      exact shown_build h hd hrel harch hfree hq hA hstable hu ht
    · have habove : ∀ e : Path, (∀ n, ¬stableTree (relOf d) (archOf d) <+: e ++ [n] ∧
          ¬mirrorTree (relOf d) (archOf d) <+: e ++ [n]) → SameFiles e t t' := by
        intro e he
        refine hsame e fun a ha n ↦ ?_
        rw [htwins] at ha
        rcases List.mem_cons.mp ha with rfl | ha
        · rw [destOf, Accepted.entry, afterFirst_append hA, hstable]
          exact (he n).1
        · rw [List.mem_singleton.mp ha, destOf, Accepted.entry, afterFirst_append hA,
            components_mirror hrel harch]
          exact (he n).2
      rw [FeedCall.builtFrom, if_neg hthis]
      exact hb.congr (habove _ fun n ↦ not_above_stable hfree hthis)
        (habove _ fun n ↦ not_above_mirror hn.relFree hthis)

/-- The pairs of all trees of a job, one tree after the other. -/
theorem shown_trees (h : (Job.feed c o ho).pages.plan = .ok v) (hj : (Job.feed c o ho).Named)
    (hch : o.channel = stableName) (hn : PlainNames rel arch) {ds : List Str}
    (hds : ∀ d ∈ ds, d ∈ c.trees o)
    (ht : (((ds.flatMap (treePairs o.channel)).filterMap (c.pages o).accept).map
      Accepted.entry).foldlM (publish E (v.request (c.pages o))) t = some t')
    (hb : Shown rel arch t b) :
    Shown rel arch t' ((ds.filterMap fun d ↦ (c.builtFrom o rel arch d).map
      fun src ↦ ((v.request (c.pages o)).stamp, src)).getLast?.or b) := by
  induction ds generalizing t b with
  | nil => cases ht; exact hb
  | cons d ds ih =>
    rw [List.flatMap_cons, List.filterMap_append, List.map_append, List.foldlM_append] at ht
    obtain ⟨u, hu, ht⟩ := Option.bind_eq_some_iff.mp ht
    rw [getLast?_filterMap_cons_or]
    exact ih (fun e he ↦ hds e (List.mem_cons_of_mem d he)) ht
      (shown_tree h hj hch hn (hds d List.mem_cons_self) hu hb)

/-! ## From commit to commit -/

variable {r : Request} {j : Job}

theorem applyChanges_sameFiles {x : Str} {e : Path} (hx : x ≠ keysName) {u : Site}
    (hu : applyDests E r t = some u) (h : applyChanges E r t = some t') :
    SameFiles (x :: e) u t' := fun n hn ↦ by
  have hget : t'.get (x :: e ++ [n]) = u.get (x :: e ++ [n]) := by
    refine applyChanges_get hu h (fun _ hpre ↦ ?_) (fun hc ↦ ?_) fun hc ↦ ?_
    · rw [List.cons_append, List.cons_prefix_cons] at hpre
      exact hx hpre.1.symm
    · have := congrArg List.length hc
      simp at this
    · rw [List.getLast?_concat] at hc
      exact hn (Option.some.inj hc)
  rw [Tree.read, Tree.read, hget]

/-- **From commit to commit.**  A stable publish shows its own build, or leaves what is shown. -/
theorem shown_job (hr : (Job.feed c o ho).request = .ok r) (hj : (Job.feed c o ho).Named)
    (hch : o.channel = stableName) (hn : PlainNames rel arch) (h : applyChanges E r t = some t')
    (hb : Shown rel arch t b) :
    Shown rel arch t' ((((Job.feed c o ho).built rel arch).map fun src ↦ (r.stamp, src)).or b) := by
  have hkeys : rel ≠ keysName := fun hc ↦ hn.relFree (by rw [hc]; decide)
  obtain ⟨u, -, -, hu, -⟩ := applyChanges_eq_some h
  have hrem := job_removes hr
  obtain ⟨v, hv, rfl⟩ := job_plan hr
  have hplan := planned_of_plan hv
  have hdests := hu
  rw [applyDests, hrem, List.foldl_nil] at hdests
  have hacc : (v.request (c.pages o)).accepted =
      (((c.trees o).flatMap (treePairs o.channel)).filterMap (c.pages o).accept).map
          Accepted.entry ++
        (((c.machine.toolDirs o.dir).map (toolPair o.channel)).filterMap (c.pages o).accept).map
          Accepted.entry := by
    rw [← List.map_append, ← List.filterMap_append]
    show v.accepted.map Accepted.entry = _
    rw [hplan.accepted, (job_reads hplan.opts).pairs]
    rfl
  rw [show (v.request (Job.feed c o ho).pages).accepted = _ from hacc, List.foldlM_append] at hdests
  obtain ⟨x, hx, htools⟩ := Option.bind_eq_some_iff.mp hdests
  have hb' := shown_trees hv hj hch hn (fun d hd ↦ hd) hx hb
  rw [← List.map_filterMap, List.getLast?_map] at hb'
  -- the host tools are elsewhere
  have htool : ∀ (y : Str) (e : Path), y ≠ toolsName → (∀ z ∈ y :: e, '=' ∉ z) →
      SameFiles (y :: e) x u := by
    intro y e hy he
    refine foldlM_publish_sameFiles htools fun p hp n ↦ ?_
    obtain ⟨a, ha, rfl⟩ := List.mem_map.mp hp
    obtain ⟨p, hp, ha⟩ := List.mem_filterMap.mp ha
    obtain ⟨td, -, rfl⟩ := List.mem_map.mp hp
    rcases tool_dest ho ha with hodd | hhead
    · exact hodd.not_above he n
    · obtain ⟨l, hl⟩ := List.head?_eq_some_iff.mp hhead
      rw [hl, List.cons_append, List.cons_prefix_cons]
      exact fun hc ↦ hy hc.1.symm
  rw [Job.built, if_pos hch]
  refine hb'.congr ?_ ?_
  · exact (htool _ _ (by decide) hn.stable_plain).trans
      (applyChanges_sameFiles (by decide) hu h)
  · refine (htool _ _ (fun hc ↦ hn.relFree ?_) hn.mirror_plain).trans
      (applyChanges_sameFiles hkeys hu h)
    rw [hc]; decide

/-- Nobody else changes what is shown. -/
theorem sameFiles_job (hr : j.request = .ok r) (hj : j.Named) (hns : ¬j.IsStable)
    (hn : PlainNames rel arch) (h : applyChanges E r t = some t') :
    SameFiles (stableTree rel arch) t t' ∧ SameFiles (mirrorTree rel arch) t t' := by
  have hmain : ∀ d ∈ j.treeDests, d.head? = some mainName := by
    intro d hd
    cases j with
    | feed c o ho =>
      obtain ⟨d', -, hd⟩ := List.mem_flatMap.mp hd
      rw [if_neg (show ¬o.channel = stableName from hns), List.mem_singleton] at hd
      rw [hd, List.head?_cons, (options_channel ho).resolve_right hns]
    | images c => cases hd
  have hsame : ∀ (x : Str) (e : Path), x ≠ mainName → x ∉ [imagesName, toolsName, keysName] →
      (∀ y ∈ x :: e, '=' ∉ y) → SameFiles (x :: e) t t' := by
    intro x e hx hx' he n hn'
    refine read_congr fun c ↦ applyChanges_file_iff h (job_untouched hj hr he hx' hn' ?_) c
    intro d hd hpre
    obtain ⟨l, hl⟩ := List.head?_eq_some_iff.mp (hmain d hd)
    rw [hl, List.cons_append, List.cons_prefix_cons] at hpre
    exact hx hpre.1.symm
  have hfree : ∀ x ∈ reserved, rel ≠ x := fun x hx hc ↦ hn.relFree (hc ▸ hx)
  refine ⟨hsame _ _ (by decide) (by decide) hn.stable_plain,
    hsame _ _ (hfree _ (by decide)) ?_ hn.mirror_plain⟩
  intro hc
  simp only [List.mem_cons, List.not_mem_nil, or_false] at hc
  rcases hc with hc | hc | hc <;> exact hfree _ (by decide) hc

end Shown

/-! ## On the branch -/

/-- A pair that goes where it should has no equals sign in its source. -/
theorem plain_of_accept {c : FeedCall} {o : FeedOptions} (ho : c.options = .ok o) {d : Str}
    (hrel : relOf d ≠ []) (harch : archOf d ≠ []) {a : Accepted}
    (ha : (c.pages o).accept (d ++ '=' :: (o.channel ++ '/' :: (relOf d ++ '/' :: archOf d))) =
      some a) (hdest : destOf a.entry = stableTree (relOf d) (archOf d)) : '=' ∉ d := by
  rcases accept_dest (channel_not_dotSlash ho _) ha with ⟨w, hw, hodd⟩ | ⟨heq, -⟩
  · exfalso
    rw [hdest, ← List.append_assoc, components_slash, components_mirror hrel harch] at hodd
    have hsplit : [stableName] ++ [relOf d, archOf d] =
        components (w ++ o.channel) ++ [relOf d, archOf d] := hodd
    have hcomp : [stableName] = components (w ++ o.channel) := (List.append_inj' hsplit rfl).1
    obtain ⟨x, hx, hxeq⟩ := exists_mem_components (by decide)
      (List.mem_append_left o.channel hw)
    rw [← hcomp, List.mem_singleton] at hx
    rw [hx] at hxeq
    revert hxeq
    decide
  · exact heq

/-- What has been published has no equals sign in its name. -/
theorem plainNames_of_built {j : Job} {rel arch : Str} (hj : j.Named)
    (h : (j.built rel arch).isSome = true) : PlainNames rel arch := by
  obtain ⟨src, h⟩ := Option.isSome_iff_exists.mp h
  cases j with
  | images c => exact absurd h (by simp [Job.built])
  | feed c o ho =>
    rw [Job.built] at h
    split at h
    · rename_i hch
      obtain ⟨d, hd, hbuilt⟩ := List.mem_filterMap.mp (List.mem_of_getLast? h)
      rw [FeedCall.builtFrom] at hbuilt
      split at hbuilt
      · rename_i hthis
        obtain ⟨rfl, rfl⟩ := hthis
        obtain ⟨a, hfilter, -⟩ := Option.map_eq_some_iff.mp hbuilt
        obtain ⟨ha, hdest⟩ := Option.filter_eq_some_iff.mp hfilter
        obtain ⟨hrel, harch, hfree⟩ := hj d hd
        have heq := plain_of_accept ho hrel harch ha (of_decide_eq_true hdest)
        exact ⟨fun hc ↦ heq (mem_of_mem_beforeLast (mem_of_mem_afterLast hc)),
          fun hc ↦ heq (mem_of_mem_afterLast hc), hfree⟩
      · exact absurd hbuilt (by simp)
    · exact absurd h (by simp)

section Branch

variable {ι : Type} {E : Env} {job : ι → Job} {req : ι → Request} {rel arch : Str}

/-- The last of the runs in a log that published this release, and what it published. -/
def current (job : ι → Job) (rel arch : Str) (log : List (ι × Site)) : Option (ι × Site) :=
  (log.filterMap fun p ↦ ((job p.1).built rel arch).map fun src ↦ (p.1, src)).getLast?

/-- What is true of the site `t` that run `i` pushed after `log`. -/
structure Mirrored (job : ι → Job) (req : ι → Request) (rel arch : Str) (log : List (ι × Site))
    (i : ι) (t : Site) : Prop where
  /-- From the first release on the mirror has the stamp of the last one, -/
  mirror : t.read (mirrorTree rel arch ++ [publishedName]) =
    (current job rel arch (log ++ [(i, t)])).map fun x ↦ .stamp (req x.1).stamp
  /-- the channel has the same, -/
  channel : t.read (stableTree rel arch ++ [publishedName]) =
    (current job rel arch (log ++ [(i, t)])).map fun x ↦ .stamp (req x.1).stamp
  /-- and the files of the mirror are those of this release. -/
  files : ∀ k src, current job rel arch (log ++ [(i, t)]) = some (k, src) →
    ∀ n, n ≠ publishedName → n ≠ indexName →
      t.read (mirrorTree rel arch ++ [n]) = src.read [n]
  /-- Whoever does not publish stable changes neither. -/
  others : ¬(job i).IsStable →
    SameFiles (stableTree rel arch) (Atomic.stateAfter Tree.empty log log.length) t ∧
      SameFiles (mirrorTree rel arch) (Atomic.stateAfter Tree.empty log log.length) t

/-- What the branch shows behind a log. -/
def shownAfter (job : ι → Job) (req : ι → Request) (rel arch : Str) (log : List (ι × Site)) :
    Option (Stamp × Site) := (current job rel arch log).map fun x ↦ ((req x.1).stamp, x.2)

theorem shownAfter_concat (log : List (ι × Site)) (i : ι) (t : Site) :
    shownAfter job req rel arch (log ++ [(i, t)]) =
      (((job i).built rel arch).map fun src ↦ ((req i).stamp, src)).or
        (shownAfter job req rel arch log) := by
  rw [shownAfter, current, List.filterMap_append]
  cases h : (job i).built rel arch with
  | none => simp [h, shownAfter, current]
  | some src => simp [h]

/-- The invariant of the branch. -/
structure BranchMirrored (job : ι → Job) (req : ι → Request) (rel arch : Str)
    (s : Atomic.Store ι Site) : Prop where
  state : s.state = Atomic.stateAfter Tree.empty s.log s.log.length
  shown : Shown rel arch s.state (shownAfter job req rel arch s.log)
  log : ∀ l i t l', s.log = l ++ (i, t) :: l' → Mirrored job req rel arch l i t

theorem branchMirrored_step (hreq : ∀ i, (job i).request = .ok (req i))
    (hjob : ∀ i, (job i).Named) (hn : PlainNames rel arch) {s s' : Atomic.Store ι Site}
    (hs : BranchMirrored job req rel arch s)
    (h : Atomic.Step (fun i t ↦ applyChanges E (req i) t) s s') :
    BranchMirrored job req rel arch s' := by
  cases h with | commit i t h => ?_
  have hothers : ¬(job i).IsStable →
      SameFiles (stableTree rel arch) s.state t ∧ SameFiles (mirrorTree rel arch) s.state t :=
    fun hns ↦ sameFiles_job (hreq i) (hjob i) hns hn h
  have hshown : Shown rel arch t (shownAfter job req rel arch (s.log ++ [(i, t)])) := by
    rw [shownAfter_concat]
    by_cases hstable : (job i).IsStable
    · have hr := hreq i
      have hj := hjob i
      cases hji : job i with
      | feed c o ho =>
        rw [hji] at hr hj hstable
        exact shown_job hr hj hstable hn h hs.shown
      | images c => rw [hji] at hstable; cases hstable
    · rw [(job i).built_of_not_isStable hstable]
      exact hs.shown.congr (hothers hstable).1 (hothers hstable).2
  refine ⟨?_, hshown, ?_⟩
  · rw [List.length_append, List.length_singleton, Atomic.stateAfter_last]
  · intro l k u l' hl
    rcases List.eq_nil_or_concat l' with rfl | ⟨l', x, rfl⟩
    · obtain ⟨rfl, hx⟩ := List.append_inj' hl rfl
      cases hx
      rw [shownAfter] at hshown
      cases hcur : current job rel arch (s.log ++ [(i, t)]) with
      | none =>
        rw [hcur, Option.map_none] at hshown
        cases hshown with
        | nothing h₁ h₂ =>
          refine ⟨by rw [h₂, hcur]; rfl, by rw [h₁, hcur]; rfl, fun k src hk ↦ ?_, ?_⟩
          · rw [hcur] at hk
            cases hk
          · rw [← hs.state]
            exact hothers
      | some x =>
        rw [hcur, Option.map_some] at hshown
        cases hshown with
        | build st src h₁ h₂ hf =>
          refine ⟨by rw [h₂, hcur]; rfl, by rw [h₁, hcur]; rfl, fun k src hk ↦ ?_, ?_⟩
          · rw [hcur] at hk
            cases hk
            exact hf
          · rw [← hs.state]
            exact hothers
    · rw [List.concat_eq_append, ← List.cons_append, ← List.append_assoc] at hl
      exact hs.log l k u l' (List.append_inj' hl rfl).1

theorem branchMirrored_start : BranchMirrored job req rel arch ⟨Tree.empty, []⟩ where
  state := rfl
  shown := by
    refine .nothing ?_ ?_
    · simp [Tree.read, Tree.get_empty]
    · simp [Tree.read, Tree.get_empty]
  log l i t l' h := by
    have := congrArg List.length h
    simp at this

/-- **The mirror shows the current stable release.**  Whatever is published and in whatever order it
gets there: of a release that has been published as stable, every commit that was ever pushed has in
the mirror and in the channel the stamp of the last run that published it until then, from the first
one on, and in the mirror the files of that run; and publishes of `main` and of images change
neither. -/
theorem mirror_shows_stable [DecidableEq ι] (E : Env) (attempts : ι → Nat)
    (hreq : ∀ i, (job i).request = .ok (req i)) (hjob : ∀ i, (job i).Named) {w : World ι}
    (h : ReflTransGen (Step E req attempts) (World.start attempts none) w)
    (hpub : ∃ p ∈ w.pushed, ((job p.1).built rel arch).isSome = true) :
    ∀ l i t l', w.store.log = l ++ (i, t) :: l' → Mirrored job req rel arch l i t := by
  obtain ⟨p, -, hp⟩ := hpub
  have hn := plainNames_of_built (hjob p.1) hp
  obtain ⟨-, hrun⟩ := map_run (f := World.store) (fun _ _ hw h ↦ inv_step hw h)
    (fun _ _ hw h ↦ step_refines hw h) (inv_start attempts none) h
  have hstep : ∀ s s', BranchMirrored job req rel arch s →
      Atomic.Step (fun i t ↦ applyChanges E (req i) t) s s' → BranchMirrored job req rel arch s' :=
    fun _ _ hs h ↦ branchMirrored_step hreq hjob hn hs h
  exact (invariant_run hstep branchMirrored_start hrun).log

end Branch

/-! ### A release -/

/-- A build with one tree in `/w/fresh`. -/
def releaseHost : Site :=
  ((((Tree.empty : Site).mkdirs (components "/w/fresh/25.12/x86_64".toList)).bind fun t ↦
    t.write (components "/w/fresh/25.12/x86_64/packages.adb".toList) (.bytes ['x'])).bind fun t ↦
    t.mkdirs (components "/w/keys".toList)).getD Tree.empty

def releaseCall : FeedCall where
  machine :=
    { treeCall "/w".toList with
      host := releaseHost
      args := ["--dir".toList, "fresh".toList, "--channel".toList, "stable".toList,
        "--sha".toList, "c0ffee".toList, "--run".toList, "7".toList,
        "--tag".toList, "2026.10.05".toList]
      privateKey := ['k'] }
  self := "publish-feed.sh".toList
  root := "/w".toList
  keepVersions := []
  gh := none

def releaseOptions : FeedOptions where
  dir := "fresh".toList
  channel := "stable".toList
  sha := "c0ffee".toList
  run := "7".toList
  tag := "2026.10.05".toList

def releaseJob : Job := .feed releaseCall releaseOptions (by rfl)

def releaseRequest : Request := releaseJob.request.toOption.getD (toolRequest [])

theorem releaseJob_request : releaseJob.request = .ok releaseRequest := by rfl

theorem releaseJob_named : releaseJob.Named := by
  have htrees : releaseCall.trees releaseOptions = ["fresh/25.12/x86_64".toList] := by
    decide +kernel
  intro d hd
  rw [htrees, List.mem_singleton] at hd
  subst hd
  decide

theorem releaseJob_built :
    (releaseJob.built "25.12".toList "x86_64".toList).isSome = true := by decide +kernel

/-- The first release on a branch that is not there yet. -/
theorem mirror_shows_stable_first : ∃ (w : World Unit) (t : Site),
    ReflTransGen (Step sampleEnv (fun _ ↦ releaseRequest) fun _ ↦ 10)
      (World.start (fun _ ↦ 10) none) w ∧ w.store.log = [((), t)] ∧
    Mirrored (fun _ ↦ releaseJob) (fun _ ↦ releaseRequest) "25.12".toList "x86_64".toList [] () t ∧
    t.read ["25.12".toList, "x86_64".toList, publishedName] =
      some (.stamp releaseRequest.stamp) := by
  have hsome : ((applyChanges sampleEnv releaseRequest Tree.empty).bind fun t ↦
      t.read ["25.12".toList, "x86_64".toList, publishedName]) =
        some (.stamp releaseRequest.stamp) := by decide +kernel
  obtain ⟨t, ht, hstamp⟩ := Option.bind_eq_some_iff.mp hsome
  let w₀ : World Unit := World.start (fun _ ↦ 10) none
  let w₁ := w₀.set () { w₀.runs () with phase := .read, old := none, site := Tree.empty }
  let w₂ := w₁.set () { w₁.runs () with phase := .applied, site := t }
  let c : Commit := ⟨t, releaseRequest.msg, 0⟩
  let w : World Unit :=
    { w₂.set () { w₂.runs () with phase := .exited 0 } with
      branch := some c, pushed := [((), c)] }
  have hrun : ReflTransGen (Step sampleEnv (fun _ ↦ releaseRequest) fun _ ↦ 10) w₀ w := by
    refine .head (Step.init w₀ () rfl rfl rfl) (.head (Step.apply w₁ () t rfl ht) ?_)
    exact .single (Step.push w₂ () 0 rfl (fun c hc ↦ by cases hc) rfl)
  refine ⟨w, t, hrun, rfl, ?_, hstamp⟩
  exact mirror_shows_stable sampleEnv (fun _ ↦ 10) (fun _ ↦ releaseJob_request)
    (fun _ ↦ releaseJob_named) hrun ⟨((), c), List.mem_singleton_self _, releaseJob_built⟩
    [] () t [] rfl

end OpenwrtFeed
