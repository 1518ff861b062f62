import OpenwrtFeed.Pages.Retained
import Mathlib.Data.Finset.Card
import Mathlib.Data.List.Chain

/-!
# What a publish carries over

Between the copy of the build and its retention the shell puts old package files back.  It wants to
do that for the packages the build still has, and asks with a pattern: is there anything called
`<name>-*.apk`?  That is not the same question.  The pattern also takes the files of every package
whose name goes on after a dash, and it looks at the directory as it is at that moment, with the old
files that are back already.

So an old file comes back exactly if it is at the end of a chain (`Linked`): the first file of the
chain finds something in the site with the build in place, each of the others finds the one before
it.  `restore_get` says so for the whole loop, `carriesOver_iff` compares it with what was wanted.

The second half follows a fresh file.  Nothing that is put back replaces it, but its retention
compares it with all of them, so it can go at once if the old files are ahead of it.
`publish_keeps_fresh` says when it does not.
-/

set_option autoImplicit false

namespace OpenwrtFeed

open Shell DirTree Ranking

/-! ## Chains -/

section Linked

variable {α : Type} (seed : α → Prop) (link : α → α → Prop)

/-- `n` is at the end of a chain in the list: the first of it is called for from outside, each of
the others by the one before it. -/
def Linked (ns : List α) (n : α) : Prop :=
  ∃ l, (l ++ [n]).Sublist ns ∧ (∀ m ∈ (l ++ [n]).head?, seed m) ∧ (l ++ [n]).IsChain link

variable {seed link} {ns : List α} {n k : α}

theorem Linked.mem (h : Linked seed link ns n) : n ∈ ns := by
  obtain ⟨l, hl, -⟩ := h
  exact hl.subset (by simp)

/-- One more name at the end of the list. -/
theorem linked_concat (hk : k ∉ ns) :
    Linked seed link (ns ++ [k]) n ↔
      Linked seed link ns n ∨ n = k ∧ (seed k ∨ ∃ m, Linked seed link ns m ∧ link m k) := by
  constructor
  · rintro ⟨l, hl, hhead, hchain⟩
    obtain ⟨a, b, hab, ha, hb⟩ := List.sublist_append_iff.mp hl
    rcases List.sublist_singleton.mp hb with rfl | rfl
    · rw [List.append_nil] at hab
      exact .inl ⟨l, hab ▸ ha, hhead, hchain⟩
    · obtain ⟨rfl, hnk⟩ := List.append_inj' hab rfl
      obtain rfl : n = k := by simpa using hnk
      refine .inr ⟨rfl, ?_⟩
      rcases List.eq_nil_or_concat' l with rfl | ⟨l, m, rfl⟩
      · exact .inl (hhead n (by simp))
      · obtain ⟨hchain', -, hlink⟩ := List.isChain_append.mp hchain
        refine .inr ⟨m, ⟨l, ha, fun x hx ↦ hhead x ?_, hchain'⟩, hlink m (by simp) n (by simp)⟩
        rw [List.head?_append_of_ne_nil _ (by simp)]
        exact hx
  · rintro (⟨l, hl, hhead, hchain⟩ | ⟨rfl, hseed | ⟨m, ⟨l, hl, hhead, hchain⟩, hlink⟩⟩)
    · exact ⟨l, hl.trans (List.sublist_append_left _ _), hhead, hchain⟩
    · exact ⟨[], List.sublist_append_right _ _, by simpa using hseed, List.IsChain.singleton _⟩
    · refine ⟨l ++ [m], hl.append (List.Sublist.refl _), fun x hx ↦ hhead x ?_, ?_⟩
      · rwa [List.head?_append_of_ne_nil _ (by simp)] at hx
      · refine List.isChain_append.mpr ⟨hchain, List.IsChain.singleton _, ?_⟩
        rintro x hx y hy
        obtain rfl : m = x := by simpa using hx
        obtain rfl : n = y := by simpa using hy
        exact hlink

end Linked

/-! ## The loop -/

/-- A path that a list of patterns matches, one for each component. -/
def PathMatches (pats : List Str) (p : Path) : Prop :=
  p.length = pats.length ∧ ∀ x ∈ pats.zip p, nameMatches x.1 x.2 = true

theorem globExists_iff {t : Site} {pats : List Str} :
    globExists t pats = true ↔ ∃ p, t.get p ≠ none ∧ PathMatches pats p := by
  rw [globExists, decide_eq_true_eq]
  exact exists_congr fun p ↦ and_congr_left fun _ ↦ t.mem_dom p

/-- Something on the site matches the pattern of an old file. -/
def Called (u : Site) (d : Path) (n : Str) : Prop := globExists u (d ++ [siblings n]) = true

/-- The file `m` in `d` matches the pattern of `n`. -/
def Calls (d : Path) (m n : Str) : Prop := PathMatches (d ++ [siblings n]) (d ++ [m])

/-- A path one below `d`. -/
theorem exists_concat {d p : Path} (hd : d <+: p) (hp : p.length = d.length + 1) :
    ∃ g, p = d ++ [g] := by
  obtain ⟨s, rfl⟩ := hd
  obtain ⟨g, rfl⟩ : ∃ g, s = [g] := List.length_eq_one_iff.mp (by simpa using hp)
  exact ⟨g, rfl⟩

section Loop

variable {old u v : Site} {d : Path}

/-- What the site has for a pattern once some of the old files are back. -/
theorem globExists_of_restored {S : Str → Prop} (hS : ∀ g, S g → v.get (d ++ [g]) ≠ none)
    (hnot : ∀ g, ¬S g → v.get (d ++ [g]) = u.get (d ++ [g]))
    (hframe : ∀ q, ¬d <+: q → v.get q = u.get q) (pat : Str) :
    globExists v (d ++ [pat]) = true ↔
      globExists u (d ++ [pat]) = true ∨ ∃ g, S g ∧ PathMatches (d ++ [pat]) (d ++ [g]) := by
  rw [globExists_iff, globExists_iff]
  constructor
  · rintro ⟨p, hp, hm⟩
    by_cases hd : d <+: p
    · obtain ⟨g, rfl⟩ := exists_concat hd (by simpa using hm.1)
      by_cases hg : S g
      · exact .inr ⟨g, hg, hm⟩
      · exact .inl ⟨_, hnot g hg ▸ hp, hm⟩
    · exact .inl ⟨p, hframe p hd ▸ hp, hm⟩
  · rintro (⟨p, hp, hm⟩ | ⟨g, hg, hm⟩)
    · refine ⟨p, ?_, hm⟩
      by_cases hd : d <+: p
      · obtain ⟨g, rfl⟩ := exists_concat hd (by simpa using hm.1)
        by_cases hg : S g
        · exact hS g hg
        · rwa [hnot g hg]
      · rwa [hframe p hd]
    · exact ⟨_, hS g hg, hm⟩

/-- **The loop.**  The old files at the end of a chain are back, with all that is in them if they
are directories, and nothing else has changed. -/
theorem foldlM_restoreOne_linked {ns : List Str} (hns : ns.Nodup)
    (hold : ∀ n ∈ ns, old.get (d ++ [n]) ≠ none) (h : ns.foldlM (restoreOne old d) u = some v)
    (g : Str) (l : Path) :
    (Linked (Called u d) (Calls d) (ns.filter fun n ↦ !u.has (d ++ [n])) g →
      v.get (d ++ g :: l) = old.get (d ++ g :: l)) ∧
      (¬Linked (Called u d) (Calls d) (ns.filter fun n ↦ !u.has (d ++ [n])) g →
        v.get (d ++ g :: l) = u.get (d ++ g :: l)) := by
  induction ns using List.reverseRecOn generalizing v g l with
  | nil =>
    obtain rfl := Option.some.inj h
    exact ⟨fun hl ↦ absurd hl.mem List.not_mem_nil, fun _ ↦ rfl⟩
  | append_singleton ns k ih =>
    rw [List.foldlM_append] at h
    obtain ⟨w, hw, hv⟩ := Option.bind_eq_some_iff.mp h
    simp only [List.foldlM_cons, List.foldlM_nil, bind_pure] at hv
    have hk : k ∉ ns := fun hc ↦ by simpa using (List.nodup_append.mp hns).2.2 k hc k
    have hold' : ∀ n ∈ ns, old.get (d ++ [n]) ≠ none := fun n hn ↦
      hold n (List.mem_append_left _ hn)
    have hih := ih (List.nodup_append.mp hns).1 hold' hw
    have hkl : ¬Linked (Called u d) (Calls d) (ns.filter fun n ↦ !u.has (d ++ [n])) k :=
      fun hc ↦ hk (List.mem_of_mem_filter hc.mem)
    have hwk : w.get (d ++ [k]) = u.get (d ++ [k]) := (hih k []).2 hkl
    rw [List.filter_append, get_restoreOne hv, hwk]
    by_cases hhas : u.has (d ++ [k]) = true
    · -- the build has a file of this name
      have hne : u.get (d ++ [k]) ≠ none := by
        rw [Tree.has] at hhas
        exact Option.isSome_iff_ne_none.mp hhas
      rw [List.filter_cons_of_neg (by simp [hhas]), List.filter_nil, List.append_nil,
        if_neg fun hc ↦ hne hc.2.1]
      exact hih g l
    · have hnone : u.get (d ++ [k]) = none := by simpa [Tree.has] using hhas
      rw [List.filter_cons_of_pos (by simp [hhas]), List.filter_nil,
        linked_concat fun hc ↦ hk (List.mem_of_mem_filter hc)]
      have hglob := globExists_of_restored
        (S := Linked (Called u d) (Calls d) (ns.filter fun n ↦ !u.has (d ++ [n])))
        (fun m hm ↦ by
          rw [(hih m []).1 hm]
          exact hold' m (List.mem_of_mem_filter hm.mem))
        (fun m hm ↦ (hih m []).2 hm)
        (fun q hq ↦ (FramedAt.foldlM ns fun n _ ↦ framedAt_restoreOne old d n).frame hw q hq)
        (siblings k)
      by_cases hgk : g = k
      · subst hgk
        have hiff : Called u d g ∨ (∃ m, Linked (Called u d) (Calls d)
            (ns.filter fun n ↦ !u.has (d ++ [n])) m ∧ Calls d m g) ↔
            globExists w (d ++ [siblings g]) = true := hglob.symm
        rw [hiff, (hih g l).2 hkl, hnone]
        refine ⟨fun hl ↦ if_pos ⟨rfl, rfl, ?_⟩, fun hl ↦ if_neg fun hc ↦ hl (.inr ⟨rfl, hc.2.2⟩)⟩
        exact (hl.resolve_left hkl).2
      · rw [if_neg fun hc ↦ hgk hc.1]
        refine ⟨fun hl ↦ (hih g l).1 (hl.resolve_right fun hc ↦ hgk hc.1),
          fun hl ↦ (hih g l).2 ?_⟩
        exact fun hc ↦ hl (.inl hc)

end Loop

/-! ## What was wanted -/

/-- The old files that the build does not replace. -/
def leftovers (old src : Site) (d : Path) : List Str :=
  (held old d).filter fun n ↦ !src.has [n]

theorem of_mem_leftovers {old src : Site} {d : Path} {n : Str} (h : n ∈ leftovers old src d) :
    old.get (d ++ [n]) ≠ none ∧ src.get [n] = none ∧ apkExt <:+ n ∧ n ≠ versionsName := by
  obtain ⟨hheld, hsrc⟩ := List.mem_filter.mp h
  obtain ⟨hall, hext⟩ := List.mem_filter.mp hheld
  refine ⟨(mem_globAll.mp hall).1, by simpa [Tree.has] using hsrc, by simpa using hext, ?_⟩
  rintro rfl
  exact versionsName_notMem_held old d hheld

/-- `n` is an old file of the package, and the build has nothing under that name. -/
structure OldFile (old src : Site) (d : Path) (n name : Str) : Prop where
  file : ∃ c, old.get (d ++ [n]) = some (.file c)
  name : ∃ ver, apkMatch n = some (name, ver)
  ext : apkExt <:+ n
  kept : src.get [n] = none

/-- The build has a file of the package. -/
def Produces (src : Site) (name : Str) : Prop :=
  ∃ f ver c, src.get [f] = some (.file c) ∧ apkMatch f = some (name, ver)

/-- What the loop is for: the shell and the script agree on the name of a package, and of the old
files those come back whose package the build still has. -/
structure CarriesOver (old src : Site) (d : Path) (v : Site) : Prop where
  names : ∀ f name ver, apkMatch f = some (name, ver) → pnameOf f = name
  carried : ∀ n name, OldFile old src d n name →
    (v.get (d ++ [n]) = old.get (d ++ [n]) ↔ Produces src name)

/-- An old file is at the end of a chain of old files.  `u` is the site with the build in place. -/
abbrev Chained (old src u : Site) (d : Path) (n : Str) : Prop :=
  Linked (Called u d) (Calls d) (leftovers old src d) n

/-- The pattern tells the packages of the build from those that have left: it finds every package
the build has (certainly so if neither the name nor the destination can be taken for a pattern), and
no chain leads to a file of any other package. -/
structure Separate (old src u : Site) (d : Path) : Prop where
  found : ∀ n name, OldFile old src d n name → Produces src name →
    (Findable d name ∧ ∃ f ver, src.get [f] ≠ none ∧ apkMatch f = some (name, ver) ∧ apkExt <:+ f) ∨
      Chained old src u d n
  gone : ∀ n name, OldFile old src d n name → ¬Produces src name → ¬Chained old src u d n

section Restore

variable {old src u v : Site} {d : Path} {n name : Str}

theorem held_nodup (old : Site) (d : Path) : (held old d).Nodup :=
  ((old.children_nodup d).filter _).filter _

/-- What the directory has under a name once the old files are back. -/
theorem restore_get (hu : replace old d src = some u) (h : restore old d u = some v)
    (hn : n ≠ versionsName) (l : Path) :
    (Chained old src u d n → v.get (d ++ n :: l) = old.get (d ++ n :: l)) ∧
      (¬Chained old src u d n → v.get (d ++ n :: l) = src.get (n :: l)) := by
  obtain ⟨w, hw, hv⟩ := Option.bind_eq_some_iff.mp h
  have hleft : (held old d).filter (fun n ↦ !u.has (d ++ [n])) = leftovers old src d := by
    simp only [leftovers, Tree.has, get_replace_concat hu]
  have hloop := foldlM_restoreOne_linked (held_nodup old d)
    (fun n hn ↦ (mem_globAll.mp (List.mem_of_mem_filter hn)).1) hw n l
  rw [hleft, get_replace hu, if_pos (List.prefix_append _ _), List.drop_left] at hloop
  rw [restoreVersions_frame hv fun hc ↦ hn (by simpa using congrArg (·.getD d.length []) hc)]
  exact hloop

theorem OldFile.ne_versionsName (ho : OldFile old src d n name) : n ≠ versionsName := by
  rintro rfl
  obtain ⟨ver, hver⟩ := ho.name
  cases hver

/-- **An old file comes back** exactly if it is at the end of a chain. -/
theorem OldFile.restored_iff (ho : OldFile old src d n name) (hu : replace old d src = some u)
    (h : restore old d u = some v) :
    v.get (d ++ [n]) = old.get (d ++ [n]) ↔ Chained old src u d n := by
  obtain ⟨hyes, hno⟩ := restore_get hu h ho.ne_versionsName []
  refine ⟨fun hv ↦ ?_, hyes⟩
  by_contra hc
  obtain ⟨c, hc'⟩ := ho.file
  rw [hno hc, ho.kept, hc'] at hv
  cases hv

/-- A name that is no pattern is found in the build itself. -/
theorem OldFile.chained_of_findable (ho : OldFile old src d n name)
    (hu : replace old d src = some u) (hp : Findable d name) {f ver : Str} (hf : src.get [f] ≠ none)
    (hm : apkMatch f = some (name, ver)) (hext : apkExt <:+ f) : Chained old src u d n := by
  obtain ⟨w, hw⟩ := ho.name
  obtain ⟨c, hc⟩ := ho.file
  have hheld : n ∈ held old d := (hp.mem_held hw ho.ext).mpr (by rw [hc]; simp)
  have hleft : n ∈ leftovers old src d := List.mem_filter.mpr ⟨hheld, by simp [Tree.has, ho.kept]⟩
  have hcalled : Called u d n := hp.globExists hm hext hw (by rwa [get_replace_concat hu])
  exact ⟨[], List.singleton_sublist.mpr hleft, by simpa using hcalled, List.IsChain.singleton _⟩

end Restore

/-- Old versions are carried over as they should be exactly if the pattern tells the packages of the
build from the others. -/
theorem carriesOver_iff {old src u v : Site} {d : Path} (hu : replace old d src = some u)
    (h : restore old d u = some v) : CarriesOver old src d v ↔ Separate old src u d := by
  constructor
  · intro hc
    refine ⟨fun n name ho hp ↦ .inr ?_, fun n name ho hp hch ↦ hp ?_⟩
    · exact (ho.restored_iff hu h).mp ((hc.carried n name ho).mpr hp)
    · exact (hc.carried n name ho).mp ((ho.restored_iff hu h).mpr hch)
  · intro hs
    refine ⟨fun f name ver hm ↦ (eq_of_apkMatch hm).2, fun n name ho ↦ ?_⟩
    rw [ho.restored_iff hu h]
    constructor
    · intro hch
      by_contra hp
      exact hs.gone n name ho hp hch
    · intro hp
      rcases hs.found n name ho hp with ⟨hfind, f, ver, hf, hm, hext⟩ | hch
      · exact ho.chained_of_findable hu hfind hf hm hext
      · exact hch

/-- A pair goes on from what the loop leaves. -/
theorem publish_of_restored {E : Env} {r : Request} {t src u v : Site} {pair : Str}
    (hn : 1 < keepFor r.keepRules (afterFirst '=' pair)) (hdir : t.isDir (destOf pair) = true)
    (hsrc : r.source (beforeFirst '=' pair) = some src)
    (hu : replace t (destOf pair) src = some u) (hv : restore t (destOf pair) u = some v) :
    publish E r t pair =
      (retain E.tools (keepFor r.keepRules (afterFirst '=' pair))
        (afterLast '/' (afterFirst '=' pair)) r.signed r.stamp (destOf pair) v).bind fun x ↦
          x.write (destOf pair ++ [publishedName]) (.stamp r.stamp) := by
  rw [destOf] at hdir hu hv
  simp only [publish, publishTo, hsrc, hu, finish, keepVersions, if_pos hn, if_pos hdir, hv,
    Option.bind_eq_bind, Option.bind_some, destOf]

/-- **Old versions are carried over for the packages the build still has** exactly if the pattern
tells these packages from the others: for any published site, any build and any destination that
keeps versions.  `v` is the site the pair goes on with once the old files are back. -/
theorem publish_carries_over_iff (E : Env) (r : Request) {t src u v : Site} {pair : Str}
    (hn : 1 < keepFor r.keepRules (afterFirst '=' pair)) (hdir : t.isDir (destOf pair) = true)
    (hsrc : r.source (beforeFirst '=' pair) = some src)
    (hu : replace t (destOf pair) src = some u) (hv : restore t (destOf pair) u = some v) :
    (publish E r t pair =
      (retain E.tools (keepFor r.keepRules (afterFirst '=' pair))
        (afterLast '/' (afterFirst '=' pair)) r.signed r.stamp (destOf pair) v).bind fun x ↦
          x.write (destOf pair ++ [publishedName]) (.stamp r.stamp)) ∧
      (CarriesOver t src (destOf pair) v ↔ Separate t src u (destOf pair)) :=
  ⟨publish_of_restored hn hdir hsrc hu hv, carriesOver_iff hu hv⟩

/-! ## The fresh files -/

/-- The file `g` is of the same package as `f` and ahead of it. -/
def isAhead (vcmp : Str → Str → Ordering) (f g : Str) : Bool :=
  match apkMatch f, apkMatch g with
  | some (p, v), some (q, w) => decide (p = q ∧ AheadOf vcmp (w, g) (v, f))
  | _, _ => false

/-- How many files of its package are ahead of `f`, in the old destination and in the build. -/
def rivals (vcmp : Str → Str → Ordering) (old src : Site) (d : Path) (f : Str) : Nat :=
  ((old.childSet d ∪ src.childSet []).filter fun g ↦ isAhead vcmp f g = true).card

theorem countP_group (vcmp : Str → Str → Ordering) {f name v : Str}
    (hm : apkMatch f = some (name, v)) (fs : List Str) :
    (group fs name).countP (fun a ↦ AheadOf vcmp a (v, f)) =
    (fs.filter (isAhead vcmp f)).length := by
  rw [group, List.countP_filterMap, ← List.countP_eq_length_filter]
  refine List.countP_congr fun g _ ↦ ?_
  simp only [isAhead, hm]
  rcases apkMatch g with _ | ⟨q, w⟩
  · simp
  · by_cases hq : q = name
    · simp [hq]
    · simp [hq, Ne.symm hq]

section Fresh

variable {old src u v : Site} {d : Path}

/-- The directory before its retention: what is there is old or fresh, and what is fresh is
there. -/
theorem restored_get (hu : replace old d src = some u)
    (h : (if old.isDir d = true then restore old d u else some u) = some v) {f : Str}
    (hf : f ≠ versionsName) :
    (src.get [f] ≠ none → v.get (d ++ [f]) = src.get [f]) ∧
      (v.get (d ++ [f]) ≠ none → old.get (d ++ [f]) ≠ none ∨ src.get [f] ≠ none) := by
  split at h
  · obtain ⟨hyes, hno⟩ := restore_get hu h hf []
    refine ⟨fun hsrc ↦ hno fun hc ↦ ?_, fun hv ↦ ?_⟩
    · exact hsrc (of_mem_leftovers hc.mem).2.1
    · by_cases hc : Chained old src u d f
      · exact .inl (hyes hc ▸ hv)
      · exact .inr (hno hc ▸ hv)
  · obtain rfl := Option.some.inj h
    rw [get_replace_concat hu]
    exact ⟨fun _ ↦ rfl, .inr⟩

/-- No more files are ahead of `f` than there are in both trees. -/
theorem length_ahead_le (vcmp : Str → Str → Ordering) (hu : replace old d src = some u)
    (h : (if old.isDir d = true then restore old d u else some u) = some v) (f : Str) :
    ((v.children d).filter (isAhead vcmp f)).length ≤ rivals vcmp old src d f := by
  rw [← List.toFinset_card_of_nodup ((v.children_nodup d).filter _)]
  refine Finset.card_le_card fun g hg ↦ ?_
  rw [List.mem_toFinset, List.mem_filter, Tree.mem_children] at hg
  obtain ⟨hget, hahead⟩ := hg
  have hne : g ≠ versionsName := by
    rintro rfl
    rw [isAhead, show apkMatch versionsName = none by decide] at hahead
    split at hahead <;> simp_all
  rw [Finset.mem_filter, Finset.mem_union, Tree.mem_childSet, Tree.mem_childSet, List.nil_append]
  exact ⟨(restored_get hu h hne).2 hget, hahead⟩

/-- The versions in the directory are those of the two trees. -/
theorem versionsIn_subset (hu : replace old d src = some u)
    (h : (if old.isDir d = true then restore old d u else some u) = some v) :
    versionsIn (v.children d) ⊆ versionsIn (old.children d ++ src.children []) := by
  rintro ver ⟨g, hg, name, hm⟩
  have hne : g ≠ versionsName := by
    rintro rfl
    cases hm
  refine ⟨g, ?_, name, hm⟩
  rw [List.mem_append, Tree.mem_children, Tree.mem_children, List.nil_append]
  exact (restored_get hu h hne).2 (Tree.mem_children.mp hg)

end Fresh

/-- The file is there, and the index names it. -/
def Published (t : Site) (d : Path) (f : Str) (c : Content) : Prop :=
  t.get (d ++ [f]) = some (.file c) ∧
    ∃ signed ix, t.get (d ++ [adbName]) = some (.file (.adb signed ix)) ∧ f ∈ ix.map Prod.fst

theorem Published.congr {t t' : Site} {d : Path} {f : Str} {c : Content} (h : Published t d f c)
    (hget : ∀ g, g = f ∨ g = adbName → t'.get (d ++ [g]) = t.get (d ++ [g])) :
    Published t' d f c := by
  rw [Published, hget f (.inl rfl), hget adbName (.inr rfl)]
  exact h

/-- **One pair.**  A fresh file is published if fewer than `N` files are ahead of it. -/
theorem publish_keeps_fresh {E : Env} {r : Request} {t t' src : Site} {pair : Str}
    (h : publish E r t pair = some t') (hn : 1 < keepFor r.keepRules (afterFirst '=' pair))
    (hsrc : r.source (beforeFirst '=' pair) = some src)
    (hord : PreorderOn E.tools.vcmp (versionsIn (t.children (destOf pair) ++ src.children [])))
    {f name v : Str} {c : Content} (hm : apkMatch f = some (name, v))
    (hf : src.get [f] = some (.file c))
    (hfew : rivals E.tools.vcmp t src (destOf pair) f < keepFor r.keepRules (afterFirst '=' pair)) :
    Published t' (destOf pair) f c := by
  obtain ⟨src', u, w, x, hsrc', hu, hw, hx, hstamp⟩ := publish_kept h hn
  obtain rfl : src = src' := Option.some.inj (hsrc.symm.trans hsrc')
  have hne : f ≠ versionsName := by
    rintro rfl
    cases hm
  have hget : w.get (destOf pair ++ [f]) = some (.file c) := by
    rw [(restored_get hu hw hne).1 (by rw [hf]; simp), hf]
  have hmem : f ∈ w.children (destOf pair) := Tree.mem_children.mpr (by rw [hget]; simp)
  have hkeep : f ∈ keepList E.tools.vcmp (keepFor r.keepRules (afterFirst '=' pair))
      (w.children (destOf pair)) := by
    rw [mem_keepList_iff_ahead (hord.mono (versionsIn_subset hu hw)) (w.children_pairwise _) _ hmem
      hm, countP_group _ hm]
    exact (length_ahead_le _ hu hw f).trans_lt hfew
  obtain ⟨m, ix, hwritten⟩ := retain_written hx
  obtain ⟨signed, hadb⟩ := hwritten.adb
  have hindex : Published x (destOf pair) f c := by
    refine ⟨by rw [retain_get hx hm, if_pos hkeep, hget], signed, ix, hadb, ?_⟩
    rw [hwritten.named, ← keepList_eq_packageFiles hx]
    exact hkeep
  refine hindex.congr fun g hg ↦ ?_
  rw [Tree.get_write hstamp, if_neg]
  intro hc
  have hgp : g = publishedName := by simpa using hc
  rcases hg with rfl | rfl
  · rw [hgp] at hm
    cases hm
  · exact absurd hgp (by decide)

/-- Pairs that go elsewhere leave a directory alone. -/
theorem foldlM_publish_get {E : Env} {r : Request} {d : Path} {ps : List Str} {t t' : Site}
    (hps : ∀ p ∈ ps, Apart (destOf p) d) (h : ps.foldlM (publish E r) t = some t') {q : Path}
    (hq : d <+: q) : t'.get q = t.get q := by
  induction ps generalizing t with
  | nil =>
    obtain rfl := Option.some.inj h
    rfl
  | cons p ps ih =>
    rw [List.foldlM_cons] at h
    obtain ⟨u, hu, h⟩ := Option.bind_eq_some_iff.mp h
    have hp := hps p List.mem_cons_self
    rw [ih (fun p' hp' ↦ hps p' (List.mem_cons_of_mem p hp')) h,
      publish_frame hu (hp.symm.not_below hq), if_neg fun hc ↦ hp.2 (hq.trans hc)]

/-- **A fresh file is published**, whatever the destination held, if fewer than `N` files of its
package are ahead of it in the old destination and the build together: with a higher version, or an
equal one under a smaller name.  `t₁` is the site when the pair's turn comes; later pairs of the
request and the keys go elsewhere. -/
theorem applyChanges_keeps_fresh (E : Env) (r : Request) {t t₁ t' src : Site} {ps qs : List Str}
    {pair : Str} (hacc : r.accepted = ps ++ pair :: qs)
    (hps : ps.foldlM (publish E r) (r.removes.foldl remove t) = some t₁)
    (hqs : ∀ p ∈ qs, Apart (destOf p) (destOf pair))
    (hkeys : r.keys ≠ none → Apart (destOf pair) [keysName])
    (hn : 1 < keepFor r.keepRules (afterFirst '=' pair))
    (hsrc : r.source (beforeFirst '=' pair) = some src)
    (hord : PreorderOn E.tools.vcmp (versionsIn (t₁.children (destOf pair) ++ src.children [])))
    (h : applyChanges E r t = some t') {f name v : Str} {c : Content}
    (hm : apkMatch f = some (name, v)) (hf : src.get [f] = some (.file c))
    (hfew : rivals E.tools.vcmp t₁ src (destOf pair) f <
    keepFor r.keepRules (afterFirst '=' pair)) :
    Published t' (destOf pair) f c := by
  obtain ⟨u, -, -, hu, -⟩ := applyChanges_eq_some h
  have hfold := hu
  rw [applyDests, hacc, List.foldlM_append, hps, Option.bind_eq_bind, Option.bind_some,
    List.foldlM_cons] at hfold
  obtain ⟨t₂, ht₂, hlater⟩ := Option.bind_eq_some_iff.mp hfold
  have hpub := publish_keeps_fresh ht₂ hn hsrc hord hm hf hfew
  refine hpub.congr fun g hg ↦ ?_
  have hgne : g ≠ indexName ∧ g ≠ nojekyllName := by
    rcases hg with rfl | rfl
    · refine ⟨?_, ?_⟩ <;> rintro rfl <;> cases hm
    · decide
  rw [applyChanges_get hu h (fun hk ↦ (hkeys hk).not_below (List.prefix_append _ _)) ?_ ?_,
    foldlM_publish_get hqs hlater (List.prefix_append _ _)]
  · intro hc
    have hlast := congrArg List.getLast? hc
    exact hgne.2 (by simpa using hlast)
  · simpa using hgne.1

/-! ### A package that has left, and a version that is too low -/

/-- A build with these files. -/
def buildOf (fs : List (String × String)) : Site := filesOf (("packages.adb", "i") :: fs)

/-- Publishing it to `main/25`, two versions being kept. -/
def freshRequest (fs : List (String × String)) : Request := packageRequest "main/25" fs "t2"

def feedDest : Path := destOf "/src=main/25".toList

/-- A site with these files in `main/25`. -/
def feedSite (fs : List (String × String)) : Site :=
  (replace Tree.empty feedDest (filesOf fs)).getD Tree.empty

/-- The site with the build in place, and with the old files back. -/
theorem exists_restored (fs : List (String × String)) (old : Site)
    (h : ((replace old feedDest (buildOf fs)).bind (restore old feedDest)).isSome = true) :
    ∃ u v, replace old feedDest (buildOf fs) = some u ∧ restore old feedDest u = some v := by
  obtain ⟨v, hv⟩ := Option.isSome_iff_exists.mp h
  obtain ⟨u, hu, hv⟩ := Option.bind_eq_some_iff.mp hv
  exact ⟨u, v, hu, hv⟩

/-- One old version of `wwand`. -/
def wwandSite : Site := feedSite [("wwand-1-r1.apk", "a")]

/-- A newer one in the build. -/
theorem publish_carries_over_iff_wwand : ∃ u v,
    replace wwandSite feedDest (buildOf [("wwand-2-r1.apk", "b")]) = some u ∧
      restore wwandSite feedDest u = some v ∧
      (CarriesOver wwandSite (buildOf [("wwand-2-r1.apk", "b")]) feedDest v ↔
        Separate wwandSite (buildOf [("wwand-2-r1.apk", "b")]) u feedDest) := by
  obtain ⟨u, v, hu, hv⟩ := exists_restored [("wwand-2-r1.apk", "b")] wwandSite (by decide +kernel)
  exact ⟨u, v, hu, hv, (publish_carries_over_iff sampleEnv (freshRequest [("wwand-2-r1.apk", "b")])
    (by decide +kernel) (by decide +kernel) rfl hu hv).2⟩

/-- **A package that left the feed stays**: `wwand` is gone from the build, but `wwand-qmi` is in
it, and `wwand-*.apk` takes its file. -/
theorem carries_over_departed : ∃ u v t',
    replace wwandSite feedDest (buildOf [("wwand-qmi-1-r1.apk", "b")]) = some u ∧
      restore wwandSite feedDest u = some v ∧
      ¬CarriesOver wwandSite (buildOf [("wwand-qmi-1-r1.apk", "b")]) feedDest v ∧
      applyChanges sampleEnv (freshRequest [("wwand-qmi-1-r1.apk", "b")]) wwandSite = some t' ∧
      t'.has (feedDest ++ ["wwand-1-r1.apk".toList]) = true := by
  obtain ⟨u, v, hu, hv⟩ := exists_restored [("wwand-qmi-1-r1.apk", "b")] wwandSite
    (by decide +kernel)
  have hrun : ((applyChanges sampleEnv (freshRequest [("wwand-qmi-1-r1.apk", "b")]) wwandSite).map
      fun t ↦ t.has (feedDest ++ ["wwand-1-r1.apk".toList])) = some true := by decide +kernel
  have hback : (((replace wwandSite feedDest (buildOf [("wwand-qmi-1-r1.apk", "b")])).bind
      (restore wwandSite feedDest)).map fun v ↦ v.read (feedDest ++ ["wwand-1-r1.apk".toList])) =
      some (some (.bytes "a".toList)) := by decide +kernel
  have hread : wwandSite.read (feedDest ++ ["wwand-1-r1.apk".toList]) =
      some (.bytes "a".toList) := by decide +kernel
  have hnone : (buildOf [("wwand-qmi-1-r1.apk", "b")]).has ["wwand-1-r1.apk".toList] = false := by
    decide +kernel
  rw [hu, Option.bind_some, hv, Option.map_some, Option.some.injEq] at hback
  obtain ⟨t', ht', hhas⟩ := Option.map_eq_some_iff.mp hrun
  refine ⟨u, v, t', hu, hv, fun hc ↦ ?_, ht', hhas⟩
  have hold : OldFile wwandSite (buildOf [("wwand-qmi-1-r1.apk", "b")]) feedDest
      "wwand-1-r1.apk".toList "wwand".toList :=
    ⟨⟨_, Tree.read_eq_some.mp hread⟩, ⟨"1-r1".toList, by decide⟩, by decide,
      by simpa [Tree.has] using hnone⟩
  have hsame := (Tree.read_eq_some.mp hback).trans (Tree.read_eq_some.mp hread).symm
  obtain ⟨f, ver, c, hf, hm⟩ := (hc.carried _ _ hold).mp hsame
  have hmem := filesOf_get (g := f) (by rw [show filesOf _ = buildOf _ from rfl, hf]; simp)
  simp only [List.map_cons, List.map_nil, List.mem_cons, List.not_mem_nil, or_false] at hmem
  have hname : (apkMatch f).map Prod.fst = some "wwand".toList := by rw [hm]; rfl
  rcases hmem with rfl | rfl <;> revert hname <;> decide

/-- One date version is ahead of the fresh one, which stays. -/
theorem applyChanges_keeps_fresh_wwand : ∃ t',
    applyChanges sampleEnv (freshRequest [("wwand-1.6.6-r1.apk", "x")])
        (feedSite [("wwand-2026.09.11-r1.apk", "a")]) = some t' ∧
      Published t' feedDest "wwand-1.6.6-r1.apk".toList (.bytes "x".toList) := by
  have hrun : (applyChanges sampleEnv (freshRequest [("wwand-1.6.6-r1.apk", "x")])
      (feedSite [("wwand-2026.09.11-r1.apk", "a")])).isSome = true := by decide +kernel
  obtain ⟨t', ht'⟩ := Option.isSome_iff_exists.mp hrun
  have hacc : (freshRequest [("wwand-1.6.6-r1.apk", "x")]).accepted =
      [] ++ "/src=main/25".toList :: [] := rfl
  have hord : ∀ s, PreorderOn sampleEnv.tools.vcmp s := fun s ↦ preorderOn_of_transCmp s
  have hread : (buildOf [("wwand-1.6.6-r1.apk", "x")]).read ["wwand-1.6.6-r1.apk".toList] =
      some (.bytes "x".toList) := by decide +kernel
  have hm : apkMatch "wwand-1.6.6-r1.apk".toList = some ("wwand".toList, "1.6.6-r1".toList) := by
    decide +kernel
  exact ⟨t', ht', applyChanges_keeps_fresh sampleEnv _ hacc rfl (fun p hp ↦ by cases hp)
    (fun hc ↦ absurd rfl hc) (by decide +kernel) rfl (hord _) ht' hm (Tree.read_eq_some.mp hread)
    (by decide +kernel)⟩

/-- A build to `main/25` and, in the same request, one to the directory above. -/
def aboveRequest : Request :=
  { freshRequest [("a-1-r1.apk", "x")] with
    accepted := ["/src=main/25".toList, "/above=main".toList]
    source := fun p ↦
      if p = "/above".toList then some (buildOf []) else some (buildOf [("a-1-r1.apk", "x")]) }

/-- A build to `keys`, and a key under the name of one of its files. -/
def keysRequest : Request :=
  { packageRequest "keys" [("a-1-r1.apk", "x")] "t2" with
    keys := some (oneFile "a-1-r1.apk".toList "k".toList) }

/-- **Three ways to lose a fresh file**: two date versions ahead of it, with two versions being
kept; a later pair that goes to a directory above; and a key of the same name. -/
theorem fresh_file_lost :
    (∃ t', applyChanges sampleEnv (freshRequest [("wwand-1.6.6-r1.apk", "x")])
        (feedSite [("wwand-2026.09.10-r1.apk", "a"), ("wwand-2026.09.11-r1.apk", "b")]) = some t' ∧
        ¬Published t' feedDest "wwand-1.6.6-r1.apk".toList (.bytes "x".toList)) ∧
      (∃ t', applyChanges sampleEnv aboveRequest Tree.empty = some t' ∧
        ¬Published t' feedDest "a-1-r1.apk".toList (.bytes "x".toList)) ∧
      ∃ t', applyChanges sampleEnv keysRequest Tree.empty = some t' ∧
        ¬Published t' [keysName] "a-1-r1.apk".toList (.bytes "x".toList) := by
  have hlost : ∀ {o : Option Site} {d : Path} {f : Str} {c : Content},
      (o.map fun t ↦ decide (t.read (d ++ [f]) = some c)) = some false →
      ∃ t', o = some t' ∧ ¬Published t' d f c := by
    intro o d f c h
    obtain ⟨t', ht', hread⟩ := Option.map_eq_some_iff.mp h
    exact ⟨t', ht', fun hp ↦ of_decide_eq_false hread (Tree.read_eq_some.mpr hp.1)⟩
  exact ⟨hlost (by decide +kernel), hlost (by decide +kernel), hlost (by decide +kernel)⟩

end OpenwrtFeed
