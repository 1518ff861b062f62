import OpenwrtFeed.Lib.Ranking
import OpenwrtFeed.Pages.Branch
import OpenwrtFeed.Pages.History

/-!
# What retention keeps, and what it says about it

`apk-retention.py` decides which files stay by a sort with an outside comparison, and then writes
four files from the list it got.  Here the list is described without the sort: a file stays exactly
if fewer than `N` files of its package are ahead of it (`mem_keepList_iff_ahead`), where ahead means
a higher version, or an equal one under a smaller name.

`Settled` is what the directory looks like afterwards: how many files of each package are left,
which ones, that everything else is as it was, and that `versions.json`, `.versions.tsv` and
`packages.adb` name exactly the files that are there.  `retained_settled` is the proof of it for any
directory, and for any comparison that is a total preorder on the versions in it.

If the script stops on the way, so does the publish: `RetentionFails` leads to nothing that could be
pushed.
-/

set_option autoImplicit false

namespace OpenwrtFeed

open Shell DirTree Ranking Relation

/-! ## Which files stay -/

/-- The versions of the packages in a listing. -/
def versionsIn (fs : List Str) : Set Str := {v | ∃ f ∈ fs, ∃ name, apkMatch f = some (name, v)}

/-- One version is ahead of another: higher, or equal and under a smaller file name. -/
abbrev AheadOf (vcmp : Str → Str → Ordering) : Str × Str → Str × Str → Prop :=
  Ahead (fun a b ↦ vcmp a.1 b.1) fun a b ↦ a.2 < b.2

theorem pairwise_group {fs : List Str} (hfs : fs.Pairwise (· < ·)) (name : Str) :
    (group fs name).Pairwise fun a b ↦ a.2 < b.2 := by
  have hmap := hfs.filter fun f ↦ (apkMatch f).map Prod.fst = some name
  rw [show fs.filter _ = _ from (map_snd_group fs name).symm, List.pairwise_map] at hmap
  exact hmap

theorem sortGroup_eq_ranked (vcmp : Str → Str → Ordering) (g : List (Str × Str)) :
    sortGroup vcmp g = ranked (fun a b ↦ vcmp a.1 b.1) g := rfl

section Order

variable {vcmp : Str → Str → Ordering} {fs : List Str}

theorem version_mem_of_mem_group {name : Str} {a : Str × Str} (ha : a ∈ group fs name) :
    a ∈ Set.preimage Prod.fst (versionsIn fs) := by
  obtain ⟨hf, hm⟩ := mem_group.mp ha
  exact ⟨a.2, hf, name, hm⟩

/-- **A file stays** if fewer than `n` of its package are ahead of it. -/
theorem mem_keepList_iff_ahead (hord : PreorderOn vcmp (versionsIn fs)) (hfs : fs.Pairwise (· < ·))
    (n : Nat) {f name v : Str} (hf : f ∈ fs) (hm : apkMatch f = some (name, v)) :
    f ∈ keepList vcmp n fs ↔
      (group fs name).countP (fun a ↦ AheadOf vcmp a (v, f)) < n := by
  have hmem : (v, f) ∈ group fs name := mem_group.mpr ⟨hf, hm⟩
  rw [← mem_take_ranked (hord.comap Prod.fst) (fun a b h ↦ lt_asymm h)
    (fun a ha ↦ version_mem_of_mem_group ha) (pairwise_group hfs name) hmem n, mem_keepList hm,
    newest, sortGroup_eq_ranked, List.mem_map]
  constructor
  · rintro ⟨⟨w, g⟩, hg, rfl⟩
    have hw := (mem_group.mp ((ranked_perm _).mem_iff.mp (List.mem_of_mem_take hg))).2
    rw [hm, Option.some.injEq, Prod.mk.injEq] at hw
    rwa [hw.2]
  · exact fun h ↦ ⟨(v, f), h, rfl⟩

/-- What stays is not below what goes. -/
theorem newest_not_below (hord : PreorderOn vcmp (versionsIn fs)) (hfs : fs.Pairwise (· < ·))
    {n : Nat} {name f v g w : Str} (hf : f ∈ outdated vcmp n fs name)
    (hfv : apkMatch f = some (name, v)) (hg : g ∈ newest vcmp n fs name)
    (hgw : apkMatch g = some (name, w)) : vcmp v w ≠ .gt := by
  have hp := pairwise_ranked (hord.comap Prod.fst) (fun a ha ↦ version_mem_of_mem_group ha)
    (pairwise_group hfs name)
  rw [← List.take_append_drop n (ranked _ _)] at hp
  obtain ⟨⟨v', f'⟩, hf', rfl⟩ := List.mem_map.mp hf
  obtain ⟨⟨w', g'⟩, hg', rfl⟩ := List.mem_map.mp hg
  have hahead := ((List.pairwise_append.mp hp).2.2 _ hg' _ hf').ne_lt
  have hf₁ := mem_group.mp ((ranked_perm _).mem_iff.mp (List.mem_of_mem_drop hf'))
  have hg₁ := mem_group.mp ((ranked_perm _).mem_iff.mp (List.mem_of_mem_take hg'))
  rw [hfv, Option.some.injEq, Prod.mk.injEq] at hf₁
  rw [hgw, Option.some.injEq, Prod.mk.injEq] at hg₁
  rw [← hf₁.2.2, ← hg₁.2.2] at hahead
  rw [hord.swap w ⟨_, hg₁.1, name, hgw⟩ v ⟨_, hf₁.1, name, hfv⟩]
  intro hc
  exact hahead (Ordering.swap_eq_gt.mp hc)

end Order

/-- Each file of a package stays or goes. -/
theorem mem_dropList_iff_notMem {vcmp : Str → Str → Ordering} {n : Nat} {fs : List Str}
    (hfs : fs.Nodup) {f name v : Str} (hf : f ∈ fs) (hm : apkMatch f = some (name, v)) :
    f ∈ dropList vcmp n fs ↔ f ∉ keepList vcmp n fs := by
  have hnodup : ((sortGroup vcmp (group fs name)).map Prod.snd).Nodup := by
    rw [((sortGroup_perm vcmp _).map Prod.snd).nodup_iff, map_snd_group]
    exact filesNamed_nodup hfs name
  have hmem : f ∈ (sortGroup vcmp (group fs name)).map Prod.snd := by
    rw [((sortGroup_perm vcmp _).map Prod.snd).mem_iff, map_snd_group]
    exact mem_filesNamed.mpr ⟨hf, v, hm⟩
  rw [mem_dropList hm, mem_keepList hm, newest, outdated, List.map_take, List.map_drop]
  rw [← List.take_append_drop n (List.map _ _)] at hnodup hmem
  constructor
  · intro hd hk
    exact (List.nodup_append.mp hnodup).2.2 f hk f hd rfl
  · exact fun hk ↦ (List.mem_append.mp hmem).resolve_left hk

theorem newest_length (vcmp : Str → Str → Ordering) (n : Nat) (fs : List Str) (name : Str) :
    (newest vcmp n fs name).length = min n (filesNamed fs name).length := by
  rw [newest, List.length_map, List.length_take, (sortGroup_perm vcmp _).length_eq,
    ← map_snd_group, List.length_map]

theorem newest_nodup (vcmp : Str → Str → Ordering) (n : Nat) {fs : List Str} (hfs : fs.Nodup)
    (name : Str) : (newest vcmp n fs name).Nodup := by
  rw [newest, List.map_take]
  refine List.Nodup.sublist (List.take_sublist _ _) ?_
  rw [((sortGroup_perm vcmp _).map Prod.snd).nodup_iff, map_snd_group]
  exact filesNamed_nodup hfs name

theorem outdated_nodup (vcmp : Str → Str → Ordering) (n : Nat) {fs : List Str} (hfs : fs.Nodup)
    (name : Str) : (outdated vcmp n fs name).Nodup := by
  rw [outdated, List.map_drop]
  refine List.Nodup.sublist (List.drop_sublist _ _) ?_
  rw [((sortGroup_perm vcmp _).map Prod.snd).nodup_iff, map_snd_group]
  exact filesNamed_nodup hfs name

/-- Files of each package, taken together: no file is of two packages. -/
theorem nodup_flatMap_groupNames {fs : List Str} {sel : Str → List Str}
    (hsel : ∀ q, ∀ g ∈ sel q, g ∈ fs ∧ ∃ w, apkMatch g = some (q, w)) (hnodup : ∀ q, (sel q).Nodup) :
    ((groupNames fs).flatMap sel).Nodup := by
  rw [List.nodup_flatMap]
  refine ⟨fun q _ ↦ hnodup q, ?_⟩
  refine (sorted_nodup _).imp fun {a b} hab ↦ List.disjoint_left.mpr fun f hfa hfb ↦ hab ?_
  obtain ⟨-, v, hv⟩ := hsel a f hfa
  obtain ⟨-, w, hw⟩ := hsel b f hfb
  rw [hv, Option.some.injEq, Prod.mk.injEq] at hw
  exact hw.1

/-- The list of what stays has every file once. -/
theorem keepList_nodup (vcmp : Str → Str → Ordering) (n : Nat) {fs : List Str} (hfs : fs.Nodup) :
    (keepList vcmp n fs).Nodup := by
  rw [keepList, (List.perm_insertionSort _ _).nodup_iff]
  exact nodup_flatMap_groupNames (fun _ _ ↦ of_mem_newest) (newest_nodup vcmp n hfs)

theorem group_filter_of (fs : List Str) (p : Str → Bool) (name : Str) :
    group (fs.filter p) name = (group fs name).filter fun a ↦ p a.2 := by
  rw [group, group, List.filterMap_filter, List.filter_filterMap]
  refine List.filterMap_congr fun f _ ↦ ?_
  rcases apkMatch f with _ | ⟨q, v⟩
  · simp
  · by_cases hq : q = name
    · simp [hq, Option.filter_some]
    · simp [hq]

/-- **What stays also stays among fewer files**, if it is all there. -/
theorem keepList_filter {vcmp : Str → Str → Ordering} {fs : List Str}
    (hord : PreorderOn vcmp (versionsIn fs)) (hfs : fs.Pairwise (· < ·)) {n : Nat} {p : Str → Bool}
    (hp : ∀ f ∈ keepList vcmp n fs, p f = true) :
    keepList vcmp n (fs.filter p) = keepList vcmp n fs := by
  have hnewest : ∀ name, newest vcmp n (fs.filter p) name = newest vcmp n fs name := by
    intro name
    rw [newest, newest, sortGroup_eq_ranked, sortGroup_eq_ranked, group_filter_of]
    refine congrArg _ (take_ranked_filter (hord.comap Prod.fst) (fun a b h ↦ lt_asymm h)
      (fun a ha ↦ version_mem_of_mem_group ha) (pairwise_group hfs name) fun a ha ↦ hp a.2 ?_)
    have hmem := mem_group.mp ((ranked_perm _).mem_iff.mp (List.mem_of_mem_take ha))
    rw [mem_keepList hmem.2, newest]
    exact List.mem_map_of_mem ha
  have hnodup : fs.Nodup := hfs.imp fun h ↦ ne_of_lt h
  have hperm : (keepList vcmp n (fs.filter p)).Perm (keepList vcmp n fs) := by
    rw [List.perm_ext_iff_of_nodup (keepList_nodup _ n (hnodup.filter p))
      (keepList_nodup _ n hnodup)]
    intro f
    rcases hm : apkMatch f with _ | ⟨name, v⟩
    · have hnot : ∀ fs, f ∉ keepList vcmp n fs := fun fs hc ↦ by
        have hsome := (of_mem_keepList hc).2
        rw [hm] at hsome
        cases hsome
      exact iff_of_false (hnot _) (hnot _)
    · rw [mem_keepList hm, mem_keepList hm, hnewest]
  exact List.Perm.eq_of_pairwise' (r := (· ≤ ·)) (List.pairwise_insertionSort _ _)
    (List.pairwise_insertionSort _ _) hperm

theorem dropList_nodup (vcmp : Str → Str → Ordering) (n : Nat) {fs : List Str} (hfs : fs.Nodup) :
    (dropList vcmp n fs).Nodup :=
  nodup_flatMap_groupNames (fun _ _ ↦ of_mem_outdated) (outdated_nodup vcmp n hfs)

/-! ## The files that are written -/

/-- The package files of a directory. -/
def packageFiles (t : Site) (d : Path) : List Str :=
  (t.children d).filter fun f ↦ (apkMatch f).isSome

/-- The entries a directory's `versions.json` has, none if there is nothing readable. -/
def recordsOf (T : Tools) (t : Site) (d : Path) : Versions :=
  match (t.read (d ++ [versionsName])).map (Content.loads T) with
  | some (.entries m) => m
  | _ => []

theorem mem_packageFiles {t : Site} {d : Path} {f : Str} :
    f ∈ packageFiles t d ↔ t.get (d ++ [f]) ≠ none ∧ ∃ name v, apkMatch f = some (name, v) := by
  rw [packageFiles, List.mem_filter, Tree.mem_children, Option.isSome_iff_exists, Prod.exists]

theorem packageFiles_nodup (t : Site) (d : Path) : (packageFiles t d).Nodup :=
  (t.children_nodup d).filter _

theorem oldVersions_eq_some {T : Tools} {t : Site} {d : Path} {kept : List Str} {old : Versions}
    (h : oldVersions T t d kept = some old) : old = recordsOf T t d := by
  rw [oldVersions] at h
  rw [recordsOf]
  rcases hr : t.read (d ++ [versionsName]) with _ | c <;> rw [hr] at h
  · exact (Option.some.inj h).symm
  · rw [Option.map_some]
    rcases hl : c.loads T with _ | m | _ <;> simp only [hl] at h
    · exact (Option.some.inj h).symm
    · exact (Option.some.inj h).symm
    · split at h
      · exact (Option.some.inj h).symm
      · cases h

/-- The version on an entry is the one in the file name, and the publish time is an old one or that
of this publish. -/
theorem entryFor_fields {T : Tools} {old : Versions} {pub : Stamp} {f : Str} {c : Content}
    {e : VersionEntry} (h : entryFor T old pub f c = some e) :
    (∃ name, apkMatch f = some (name, e.version)) ∧
      (e.published = some pub.time ∨ ∃ o, old.lookup f = some o ∧ e.published = o.published) := by
  obtain ⟨⟨name, version⟩, hm, h⟩ := Option.bind_eq_some_iff.mp h
  obtain ⟨e₁, he₁, rfl⟩ := Option.map_eq_some_iff.mp h
  have hbuilt : e₁.version = version ∧
      e₁.published = (entryBase T old f name version c).published := by
    rw [withBuilt] at he₁
    split at he₁
    · cases he₁; exact ⟨rfl, rfl⟩
    · obtain ⟨b, -, rfl⟩ := Option.map_eq_some_iff.mp he₁
      split <;> exact ⟨rfl, rfl⟩
  rw [withPublished]
  split
  · rename_i hfill
    refine ⟨⟨name, by rw [hm, hbuilt.1]⟩, .inr ?_⟩
    rw [hbuilt.2, entryBase] at hfill
    rcases ho : old.lookup f with _ | o
    · rw [ho] at hfill
      exact absurd hfill (by simp [filled])
    · exact ⟨o, rfl, by rw [hbuilt.2, entryBase, ho]; rfl⟩
  · exact ⟨⟨name, by rw [hm]; exact congrArg (fun x ↦ some (name, x)) hbuilt.1.symm⟩, .inl rfl⟩

/-- Every entry of `versions.json` is made from the old one and a file that is there. -/
theorem of_mem_entries {T : Tools} {t : Site} {d : Path} {old : Versions} {pub : Stamp}
    {kept : List Str} {m : Versions} (h : entries T t d old pub kept = some m)
    {p : Str × VersionEntry} (hp : p ∈ m) :
    ∃ c, t.read (d ++ [p.1]) = some c ∧ entryFor T old pub p.1 c = some p.2 := by
  rw [entries] at h
  induction kept generalizing m with
  | nil =>
    cases h
    cases hp
  | cons k kept ih =>
    rw [List.mapM_cons] at h
    obtain ⟨x, hx, h⟩ := Option.bind_eq_some_iff.mp h
    obtain ⟨m', hm', h⟩ := Option.bind_eq_some_iff.mp h
    cases h
    rcases List.mem_cons.mp hp with rfl | hp
    · obtain ⟨c, hc, hx⟩ := Option.bind_eq_some_iff.mp hx
      obtain ⟨e, he, hx⟩ := Option.bind_eq_some_iff.mp hx
      cases hx
      exact ⟨c, hc, he⟩
    · exact ih hm' hp

/-! ### Reading `.versions.tsv` back -/

/-- A line of `.versions.tsv` without its newline. -/
def tsvBody (f : Str) (e : VersionEntry) : Str :=
  f ++ '\t' :: (e.version ++ ['\t'] ++
    (if truthy e.built then (Nat.repr (e.built.getD 0)).toList else []) ++ ['\t'] ++
    e.published.getD [])

theorem tsvLine_eq (f : Str) (e : VersionEntry) : tsvLine f e = tsvBody f e ++ ['\n'] := by
  simp [tsvLine, tsvBody]

theorem newline_notMem_repr (n : Nat) : '\n' ∉ (Nat.repr n).toList := by
  rw [Nat.toList_repr]
  intro h
  exact absurd (Nat.isDigit_of_mem_toDigits (by decide) (by decide) h) (by decide)

theorem newline_notMem_tsvBody {f : Str} {e : VersionEntry} (hf : '\n' ∉ f)
    (hv : '\n' ∉ e.version) (hp : '\n' ∉ e.published.getD []) : '\n' ∉ tsvBody f e := by
  have hb : '\n' ∉ (if truthy e.built then (Nat.repr (e.built.getD 0)).toList else []) := by
    split
    · exact newline_notMem_repr _
    · simp
  simp only [tsvBody, List.mem_append, List.mem_cons, List.not_mem_nil, or_false, not_or]
  exact ⟨hf, by decide, ⟨⟨⟨hv, by decide⟩, hb⟩, by decide⟩, hp⟩

theorem readRow_file {f : Str} (hne : f ≠ []) (ht : '\t' ∉ f) (rest : Str) :
    (readRow (f ++ '\t' :: rest)).file = f := by
  obtain ⟨c, f, rfl⟩ := List.exists_cons_of_ne_nil hne
  rw [List.mem_cons, not_or] at ht
  have hc : (c == '\t') = false := by simpa using Ne.symm ht.1
  have hdrop : (c :: f ++ '\t' :: rest).dropWhile (· == '\t') = c :: f ++ '\t' :: rest := by
    rw [List.cons_append, List.dropWhile_cons_of_neg (by simp [hc])]
  simp only [readRow, cutField, hdrop]
  exact beforeFirst_append (by simpa using ht) rest

/-- The lines the shell reads are those that were written. -/
theorem tsvRows_eq_map {m : Versions} (h : ∀ p ∈ m, p.1 ≠ [] ∧ '\t' ∉ p.1 ∧ '\n' ∉ p.1 ∧
      '\n' ∉ p.2.version ∧ '\n' ∉ p.2.published.getD []) :
    tsvRows (tsvText m) = m.map fun p ↦ readRow (tsvBody p.1 p.2) := by
  induction m with
  | nil => rfl
  | cons p m ih =>
    obtain ⟨hne, ht, hf, hv, hp⟩ := h p List.mem_cons_self
    have hsplit : (tsvText (p :: m)).splitOn '\n' =
        tsvBody p.1 p.2 :: (tsvText m).splitOn '\n' := by
      rw [tsvText, List.flatMap_cons, tsvLine_eq, List.append_assoc, List.singleton_append,
        List.splitOn_append_cons_self, List.splitOn_eq_singleton (newline_notMem_tsvBody hf hv hp)]
      rfl
    have hrow : (readRow (tsvBody p.1 p.2)).file = p.1 := readRow_file hne ht _
    rw [tsvRows, hsplit, List.dropLast_cons_of_ne_nil (List.splitOn_ne_nil _ _), List.map_cons,
      List.filter_cons_of_pos (by simpa [hrow] using hne), List.map_cons]
    exact congrArg _ (ih fun q hq ↦ h q (List.mem_cons_of_mem p hq))

/-- The shell reads the rows that were written. -/
theorem tsvRows_tsvText {m : Versions} (h : ∀ p ∈ m, p.1 ≠ [] ∧ '\t' ∉ p.1 ∧ '\n' ∉ p.1 ∧
      '\n' ∉ p.2.version ∧ '\n' ∉ p.2.published.getD []) :
    (tsvRows (tsvText m)).map TsvRow.file = m.map Prod.fst := by
  rw [tsvRows_eq_map h, List.map_map]
  exact List.map_congr_left fun p hp ↦ readRow_file (h p hp).1 (h p hp).2.1 _

/-! ## The directory afterwards -/

/-- What is written about the files that are left. -/
structure Written (T : Tools) (pub : Stamp) (d : Path) (t t' : Site) (m : Versions)
    (ix : List (Str × PkgInfo)) : Prop where
  versions : t'.get (d ++ [versionsName]) = some (.file (.versions m))
  adb : ∃ signed, t'.get (d ++ [adbName]) = some (.file (.adb signed ix))
  tsv : t'.get (d ++ [tsvName]) = some (.file (.bytes (tsvText m)))
  keys : m.map Prod.fst = packageFiles t' d
  named : ix.map Prod.fst = packageFiles t' d
  /-- Without tabs and newlines the shell reads the same names. -/
  rows : (∀ f ∈ packageFiles t' d, '\t' ∉ f ∧ '\n' ∉ f) → '\n' ∉ pub.time →
    (∀ f o, (recordsOf T t d).lookup f = some o → '\n' ∉ o.published.getD []) →
    (rowsOf T t' d).map TsvRow.file = packageFiles t' d
  /-- A publish that is on record stays on record. -/
  records : ∀ f ∈ packageFiles t' d, ∃ e, m.lookup f = some e ∧
    ∀ o, (recordsOf T t d).lookup f = some o → filled o.published = true →
      e.published = o.published ∧ e.commit = o.commit ∧ e.run = o.run

/-- What a directory is like after its retention. -/
structure Settled (T : Tools) (n : Nat) (pub : Stamp) (d : Path) (t t' : Site) : Prop where
  count : ∀ name, (filesNamed (t'.children d) name).length =
    min n (filesNamed (t.children d) name).length
  files : ∀ f ∈ packageFiles t' d, ∃ c, t.get (d ++ [f]) = some (.file c) ∧
    t'.get (d ++ [f]) = some (.file c)
  top : ∀ name f v g w, apkMatch f = some (name, v) → apkMatch g = some (name, w) →
    f ∈ t.children d → f ∉ t'.children d → g ∈ t'.children d → T.vcmp v w ≠ .gt
  other : ∀ q, (∀ g, q = d ++ [g] → apkMatch g = none ∧ g ∉ indexFiles) → t'.get q = t.get q
  written : ∃ m ix, Written T pub d t t' m ix

section Settled

variable {T : Tools} {n : Nat} {arch : Str} {signed : Bool} {pub : Stamp} {d : Path} {t t' : Site}

/-- The package files afterwards are those that stay. -/
theorem retain_get (h : retain T n arch signed pub d t = some t') {f name v : Str}
    (hm : apkMatch f = some (name, v)) :
    t'.get (d ++ [f]) =
      if f ∈ keepList T.vcmp n (t.children d) then t.get (d ++ [f]) else none := by
  rw [(retain_eq_some h).1 f (by rw [hm]; rfl)]
  by_cases hf : f ∈ t.children d
  · simp only [mem_dropList_iff_notMem (t.children_nodup d) hf hm, ite_not]
  · have hnone : t.get (d ++ [f]) = none := by simpa using hf
    rw [hnone, ite_self, ite_self]

theorem retain_mem_children (h : retain T n arch signed pub d t = some t') {f name v : Str}
    (hm : apkMatch f = some (name, v)) :
    f ∈ t'.children d ↔ f ∈ keepList T.vcmp n (t.children d) := by
  rw [Tree.mem_children, retain_get h hm]
  split
  · rename_i hk
    exact iff_of_true (Tree.mem_children.mp (of_mem_keepList hk).1) hk
  · rename_i hk
    exact iff_of_false (fun hc ↦ hc rfl) hk

/-- The list the four files are written from is the listing itself. -/
theorem keepList_eq_packageFiles (h : retain T n arch signed pub d t = some t') :
    keepList T.vcmp n (t.children d) = packageFiles t' d := by
  refine List.Perm.eq_of_pairwise' (r := (· ≤ ·)) (List.pairwise_insertionSort _ _)
    ((sorted_pairwise _).filter _) ?_
  rw [List.perm_ext_iff_of_nodup (keepList_nodup _ n (t.children_nodup d))
    (packageFiles_nodup t' d)]
  intro f
  rw [mem_packageFiles, ← Tree.mem_children]
  constructor
  · intro hf
    obtain ⟨⟨name, v⟩, hm⟩ := Option.isSome_iff_exists.mp (of_mem_keepList hf).2
    exact ⟨(retain_mem_children h hm).mpr hf, name, v, hm⟩
  · rintro ⟨hf, name, v, hm⟩
    exact (retain_mem_children h hm).mp hf

theorem retain_count (h : retain T n arch signed pub d t = some t') (name : Str) :
    (filesNamed (t'.children d) name).length = min n (filesNamed (t.children d) name).length := by
  rw [← newest_length T.vcmp]
  refine List.Perm.length_eq ?_
  rw [List.perm_ext_iff_of_nodup (filesNamed_nodup (t'.children_nodup d) name)
    (newest_nodup T.vcmp n (t.children_nodup d) name)]
  intro f
  rw [mem_filesNamed]
  constructor
  · rintro ⟨hf, v, hm⟩
    exact (mem_keepList hm).mp ((retain_mem_children h hm).mp hf)
  · intro hf
    obtain ⟨-, v, hm⟩ := of_mem_newest hf
    exact ⟨(retain_mem_children h hm).mpr ((mem_keepList hm).mpr hf), v, hm⟩

/-- Nothing else is touched. -/
theorem retain_other (h : retain T n arch signed pub d t = some t') {q : Path}
    (hq : ∀ g, q = d ++ [g] → apkMatch g = none ∧ g ∉ indexFiles) : t'.get q = t.get q := by
  obtain ⟨-, u, hu, hre⟩ := retain_parts h
  obtain ⟨-, -, -, -, -, -, -, -, -, hother⟩ := reindex_eq_some hre
  rw [hother q, get_prune_path hu, if_neg]
  · rintro ⟨f, hf, rfl⟩
    have hm := (of_mem_dropList hf).2
    rw [(hq f rfl).1] at hm
    cases hm
  · exact fun g hg hc ↦ (hq g hc).2 hg

/-- The four files say what is there. -/
theorem retain_written (h : retain T n arch signed pub d t = some t') :
    ∃ m ix, Written T pub d t t' m ix := by
  obtain ⟨-, u, hu, hre⟩ := retain_parts h
  obtain ⟨old, m, ix, hold, hm, hix, hver, htsv, hadb, -⟩ := reindex_eq_some hre
  have hkept := keepList_eq_packageFiles h
  have hrecords : old = recordsOf T t d := by
    rw [oldVersions_eq_some hold, recordsOf, recordsOf, Tree.read, Tree.read, get_prune hu,
      if_neg versionsName_notMem_dropList]
  have hnames : m.map Prod.fst = packageFiles t' d := (entries_names hm).trans hkept
  refine ⟨m, ix, hver, ⟨signed, hadb⟩, htsv, hnames, hix.trans hkept, ?_, fun f hf ↦ ?_⟩
  · intro hnl htime hpub
    have hread : rowsOf T t' d = tsvRows (tsvText m) := by
      rw [rowsOf, Tree.read_eq_some.mpr htsv]
      rfl
    rw [hread, tsvRows_tsvText, hnames]
    intro p hp
    have hfile : p.1 ∈ packageFiles t' d := hnames ▸ List.mem_map_of_mem hp
    obtain ⟨c, -, hc⟩ := of_mem_entries hm hp
    obtain ⟨⟨name, hv⟩, hpublished⟩ := entryFor_fields hc
    refine ⟨?_, (hnl _ hfile).1, (hnl _ hfile).2, ?_, ?_⟩
    · intro hnil
      rw [hnil] at hv
      cases hv
    · intro hc
      refine (hnl _ hfile).2 ?_
      rcases (eq_of_apkMatch hv).1 with hf | hf <;> rw [hf] <;> simp [hc]
    · rcases hpublished with hpub' | ⟨o, ho, hpub'⟩
      · rw [hpub']
        exact htime
      · rw [hpub']
        exact hpub _ o (hrecords ▸ ho)
  · obtain ⟨c, e, -, he, hlook⟩ := (entries_lookup hm f).1 (hkept ▸ hf)
    exact ⟨e, hlook, fun o ho ↦ (entryFor_eq_some he).1 o (hrecords ▸ ho)⟩

theorem retain_files (h : retain T n arch signed pub d t = some t') {f : Str}
    (hf : f ∈ packageFiles t' d) :
    ∃ c, t.get (d ++ [f]) = some (.file c) ∧ t'.get (d ++ [f]) = some (.file c) := by
  obtain ⟨-, u, hu, hre⟩ := retain_parts h
  obtain ⟨old, m, -, -, hm, -⟩ := reindex_eq_some hre
  have hkeep := (keepList_eq_packageFiles h).symm ▸ hf
  obtain ⟨-, name, v, hfv⟩ := mem_packageFiles.mp hf
  obtain ⟨c, -, hc, -⟩ := (entries_lookup hm f).1 hkeep
  have hc := Tree.read_eq_some.mp hc
  have hdrop : f ∉ dropList T.vcmp n (t.children d) := by
    rw [mem_dropList_iff_notMem (t.children_nodup d) (of_mem_keepList hkeep).1 hfv]
    exact not_not.mpr hkeep
  rw [get_prune hu, if_neg hdrop] at hc
  exact ⟨c, hc, by rw [retain_get h hfv, if_pos hkeep, hc]⟩

/-- **Pruning and index agree.** -/
theorem retained_settled (hord : PreorderOn T.vcmp (versionsIn (t.children d)))
    (h : retain T n arch signed pub d t = some t') : Settled T n pub d t t' where
  count := retain_count h
  files _ := retain_files h
  top name f v g w hfv hgw hf hf' hg := by
    rw [retain_mem_children h hfv, ← mem_dropList_iff_notMem (t.children_nodup d) hf hfv] at hf'
    rw [retain_mem_children h hgw] at hg
    exact newest_not_below hord (t.children_pairwise d) ((mem_dropList hfv).mp hf') hfv
      ((mem_keepList hgw).mp hg) hgw
  other _ := retain_other h
  written := retain_written h

end Settled

/-! ## When it fails -/

/-- On the way through the request's pairs, from the site `t`, a retention does not finish. -/
def RetentionFails (E : Env) (r : Request) (t : Site) : Prop :=
  ∃ ps pair qs t₁ src u u₁, r.accepted = ps ++ pair :: qs ∧
    ps.foldlM (publish E r) (r.removes.foldl remove t) = some t₁ ∧
    1 < keepFor r.keepRules (afterFirst '=' pair) ∧
    r.source (beforeFirst '=' pair) = some src ∧ replace t₁ (destOf pair) src = some u ∧
    (if t₁.isDir (destOf pair) = true then restore t₁ (destOf pair) u else some u) = some u₁ ∧
    retain E.tools (keepFor r.keepRules (afterFirst '=' pair)) (afterLast '/' (afterFirst '=' pair))
      r.signed r.stamp (destOf pair) u₁ = none

/-- Then the script ends. -/
theorem RetentionFails.applyChanges_eq_none {E : Env} {r : Request} {t : Site}
    (h : RetentionFails E r t) : applyChanges E r t = none := by
  obtain ⟨ps, pair, qs, t₁, src, u, u₁, hacc, hps, hn, hsrc, hu, hrestore, hretain⟩ := h
  have hfinish : finish E r (afterFirst '=' pair) t₁ u = none := by
    simp only [finish, if_pos hn, keepVersions]
    rw [show components (afterFirst '=' pair) = destOf pair from rfl, hrestore, Option.bind_eq_bind,
      Option.bind_some, hretain]
    rfl
  have hpublish : publish E r t₁ pair = none := by
    rw [publish, publishTo, hsrc, Option.bind_eq_bind, Option.bind_some,
      show replace t₁ (components (afterFirst '=' pair)) src = some u from hu]
    exact hfinish
  rw [applyChanges, applyDests, hacc, List.foldlM_append, hps]
  simp only [Option.bind_eq_bind, Option.bind_some, List.foldlM_cons, hpublish, Option.bind_none]

section Branch

variable {ι : Type} [DecidableEq ι] {E : Env} {req : ι → Request} {attempts : ι → Nat}

/-- What the branch is made of: the commit it started with and what was pushed, each push a request
that went through. -/
structure World.Sound (E : Env) (req : ι → Request) (b : Option Commit) (w : World ι) : Prop where
  branch : w.branch = b ∨ ∃ p ∈ w.pushed, w.branch = some p.2
  pushed : ∀ p ∈ w.pushed, ∃ base, applyChanges E (req p.1) (content base) = some p.2.tree

theorem sound_step {b : Option Commit} {w w' : World ι} (hw : w.Inv E req) (hs : w.Sound E req b)
    (h : Step E req attempts w w') : w'.Sound E req b := by
  rcases h with _ | _ | _ | _ | _ | _ | _ | ⟨i, date, hp, hc, hb⟩ | _ | _ | _
  case push =>
    refine ⟨.inr ⟨_, List.mem_append_right _ (List.mem_singleton_self _), rfl⟩, fun p hmem ↦ ?_⟩
    rcases List.mem_append.mp hmem with hold | hnew
    · exact hs.pushed p hold
    · rw [List.mem_singleton] at hnew
      subst hnew
      exact ⟨(w.runs i).old, (hw.ok i).applied hp⟩
  all_goals exact ⟨hs.branch, hs.pushed⟩

theorem sound_run {b : Option Commit} {w : World ι}
    (h : ReflTransGen (Step E req attempts) (World.start attempts b) w) : w.Sound E req b := by
  have hboth : w.Inv E req ∧ w.Sound E req b := by
    induction h with
    | refl => exact ⟨inv_start attempts b, .inl rfl, fun p hp ↦ by cases hp⟩
    | tail _ hstep ih => exact ⟨inv_step ih.1 hstep, sound_step ih.1 ih.2 hstep⟩
  exact hboth.2

/-- Run `i` has not pushed and is about to apply its request to `s`, or has ended with an error. -/
structure World.Barred (i : ι) (s : Site) (w : World ι) : Prop where
  pushed : i ∉ w.pushed.map Prod.fst
  phase : (w.runs i).phase = .exited 1 ∨ (w.runs i).phase = .read ∧ (w.runs i).site = s

/-- A step of a run that is neither at its end nor about to apply is one of another run. -/
theorem World.Barred.other {w : World ι} {i j : ι} {s : Site} (h : w.Barred i s) {r : Run}
    (hread : (w.runs j).phase ≠ .read) (hexit : (w.runs j).phase ≠ .exited 1) :
    i ≠ j ∧ (w.set j r).Barred i s := by
  have hij : i ≠ j := by
    rintro rfl
    rcases h.phase with hphase | ⟨hphase, -⟩
    · exact hexit hphase
    · exact hread hphase
  refine ⟨hij, h.pushed, ?_⟩
  rw [World.set_runs, if_neg hij]
  exact h.phase

/-- A run whose retention fails can only end. -/
theorem barred_step {w w' : World ι} {i : ι} {s : Site} (hf : RetentionFails E (req i) s)
    (hw : w.Barred i s) (h : Step E req attempts w w') : w'.Barred i s := by
  rcases h with ⟨j, c, hj, -, -⟩ | ⟨j, c, hj, -, -⟩ | ⟨j, hj, -, -⟩ | ⟨j, -, -, -, hj⟩ |
    ⟨j, t, hj, ht⟩ | ⟨j, s, hj⟩ | ⟨j, c, hj, -, -⟩ | ⟨j, date, hj, -, -⟩ | ⟨j, hj⟩ | ⟨j, hj, -⟩ |
    ⟨j, hj, -⟩
  case apply =>
    refine ⟨hw.pushed, ?_⟩
    rw [World.set_runs]
    split
    · rename_i hij
      subst hij
      rcases hw.phase with hphase | ⟨-, hsite⟩
      · rw [hphase] at hj
        cases hj
      · rw [hsite, hf.applyChanges_eq_none] at ht
        cases ht
    · exact hw.phase
  case applyFail =>
    refine ⟨hw.pushed, ?_⟩
    rw [World.set_runs]
    split
    · exact .inl rfl
    · exact hw.phase
  case push =>
    obtain ⟨hij, hset⟩ := hw.other (j := j) (r := { w.runs j with phase := .exited 0 })
      (by rw [hj]; simp) (by rw [hj]; simp)
    refine ⟨?_, hset.phase⟩
    rw [List.map_append, List.mem_append, not_or]
    exact ⟨hw.pushed, by simpa using hij⟩
  all_goals exact (hw.other (by rw [hj]; simp) (by rw [hj]; simp)).2

/-- A run whose retention fails on the site it has read never pushes. -/
theorem pushes_nothing_of_fails {w w' : World ι} {i : ι} (hw : w.Inv E req)
    (hp : (w.runs i).phase = .read) (hf : RetentionFails E (req i) (w.runs i).site)
    (h : ReflTransGen (Step E req attempts) w w') : i ∉ w'.pushed.map Prod.fst := by
  have hbarred : w.Barred i (w.runs i).site := by
    refine ⟨fun hmem ↦ ?_, .inr ⟨hp, rfl⟩⟩
    obtain ⟨p, hpm, rfl⟩ := List.mem_map.mp hmem
    rw [hw.left p hpm] at hp
    cases hp
  have hstep : ∀ u v : World ι, u.Barred i (w.runs i).site → Step E req attempts u v →
      v.Barred i (w.runs i).site := fun u v hu ↦ barred_step hf hu
  exact (invariant_run hstep hbarred h).pushed

end Branch

/-- **Pruning and index agree.**  When the script finishes, in any directory and with any comparison
that is a total preorder on the versions in it, the directory is settled.  When it does not, the run
it belongs to pushes nothing; and whatever has been pushed came from a request all of whose
retentions had finished. -/
theorem retention_agrees (E : Env) :
    (∀ (n : Nat) (arch : Str) (signed : Bool) (pub : Stamp) (d : Path) (t t' : Site),
      PreorderOn E.tools.vcmp (versionsIn (t.children d)) →
      retain E.tools n arch signed pub d t = some t' → Settled E.tools n pub d t t') ∧
    ∀ (ι : Type) [DecidableEq ι] (req : ι → Request) (attempts : ι → Nat) (b : Option Commit)
      (w : World ι), ReflTransGen (Step E req attempts) (World.start attempts b) w →
      (∀ i, (w.runs i).phase = .read → RetentionFails E (req i) (w.runs i).site →
        ∀ w', ReflTransGen (Step E req attempts) w w' → i ∉ w'.pushed.map Prod.fst) ∧
      (w.branch = b ∨ ∃ p ∈ w.pushed, w.branch = some p.2) ∧
      ∀ p ∈ w.pushed, ∃ base, applyChanges E (req p.1) (content base) = some p.2.tree ∧
        ¬RetentionFails E (req p.1) (content base) := by
  refine ⟨fun n arch signed pub d t t' hord h ↦ retained_settled hord h, ?_⟩
  intro ι _ req attempts b w h
  have hstep : ∀ u v : World ι, u.Inv E req → Step E req attempts u v → v.Inv E req :=
    fun u v hu ↦ inv_step hu
  have hinv := invariant_run hstep (inv_start attempts b) h
  have hsound := sound_run h
  refine ⟨fun i hp hf w' h' ↦ pushes_nothing_of_fails hinv hp hf h', hsound.branch, fun p hp ↦ ?_⟩
  obtain ⟨base, hbase⟩ := hsound.pushed p hp
  refine ⟨base, hbase, fun hf ↦ ?_⟩
  rw [hf.applyChanges_eq_none] at hbase
  cases hbase

/-! ### A small instance -/

def sampleStamp : Stamp := ⟨"t2".toList, "main".toList, "c0ffee".toList, "2".toList⟩

/-- One version of each package stays. -/
def retainOne (t : Site) : Option Site :=
  retain sampleTools 1 "x86_64".toList false sampleStamp [] t

/-- The sample programs, with an `apk mkndx` that cannot read a package. -/
def brokenEnv : Env := { sampleEnv with tools := { sampleTools with pkgInfo := fun _ ↦ none } }

def brokenRequest : Request := packageRequest "main/25" [("a-1-r1.apk", "x")] "t1"

theorem retentionFails_broken : RetentionFails brokenEnv brokenRequest Tree.empty := by
  have hrun : ((brokenRequest.source "/src".toList).bind fun src ↦
      (replace Tree.empty (components "main/25".toList) src).map fun u ↦
        (retain brokenEnv.tools 2 "25".toList false brokenRequest.stamp
          (components "main/25".toList) u).isNone) = some true := by decide +kernel
  obtain ⟨src, hsrc, hrun⟩ := Option.bind_eq_some_iff.mp hrun
  obtain ⟨u, hu, hretain⟩ := Option.map_eq_some_iff.mp hrun
  exact ⟨[], "/src=main/25".toList, [], Tree.empty, src, u, u, rfl, rfl,
    by decide +kernel, hsrc, hu,
    by rw [if_neg (by decide +kernel)], Option.isNone_iff_eq_none.mp hretain⟩

/-- Three files, of which two stay; and a run whose retention fails. -/
theorem retention_agrees_small :
    (∃ t', retainOne (filesOf [("a-1-r1.apk", "x"), ("a-2-r1.apk", "y"), ("b-1-r1.apk", "z")]) =
        some t' ∧ packageFiles t' [] = ["a-2-r1.apk".toList, "b-1-r1.apk".toList] ∧
        Settled sampleTools 1 sampleStamp []
          (filesOf [("a-1-r1.apk", "x"), ("a-2-r1.apk", "y"), ("b-1-r1.apk", "z")]) t') ∧
      ∀ w : World Unit, ReflTransGen (Step brokenEnv (fun _ ↦ brokenRequest) fun _ ↦ 10)
        ((World.start (fun _ ↦ 10) none).set ()
          { Run.start 10 with phase := .read, old := none, site := Tree.empty }) w →
        () ∉ w.pushed.map Prod.fst := by
  constructor
  · have hrun : ((retainOne (filesOf [("a-1-r1.apk", "x"), ("a-2-r1.apk", "y"),
        ("b-1-r1.apk", "z")])).map fun t' ↦ packageFiles t' []) =
        some ["a-2-r1.apk".toList, "b-1-r1.apk".toList] := by decide +kernel
    obtain ⟨t', ht', hfiles⟩ := Option.map_eq_some_iff.mp hrun
    have hord : ∀ s, PreorderOn sampleEnv.tools.vcmp s := fun s ↦ preorderOn_of_transCmp s
    exact ⟨t', ht', hfiles, (retention_agrees sampleEnv).1 1 _ _ _ [] _ t' (hord _) ht'⟩
  · intro w hw
    have hread : ReflTransGen (Step brokenEnv (fun _ : Unit ↦ brokenRequest) fun _ ↦ 10)
        (World.start (fun _ ↦ 10) none) ((World.start (fun _ ↦ 10) none).set ()
          { Run.start 10 with phase := .read, old := none, site := Tree.empty }) :=
      .single (.init _ () rfl rfl rfl)
    exact ((retention_agrees brokenEnv).2 Unit _ _ none _ hread).1 () rfl retentionFails_broken w hw

/-- A directory whose only record has a commit and no publish time, as a run without `PUB_TIME`
leaves it. -/
def timelessSite : Site :=
  ((filesOf [("a-1-r1.apk", "x")]).write [versionsName] (.versions [("a-1-r1.apk".toList,
    ⟨"a".toList, "1-r1".toList, 1, some 1, some [], some "abc".toList, some "1".toList, []⟩)])).getD
    Tree.empty

/-- **Three things retention does not promise**: to keep a recorded commit without a publish time;
to write rows that can be told apart when a file name has a tab in it; and to leave alone a file
under one of the names it writes itself. -/
theorem retention_overwrites :
    (∃ t' o e, retainOne timelessSite = some t' ∧
        (recordsOf sampleTools timelessSite []).lookup "a-1-r1.apk".toList = some o ∧
        (recordsOf sampleTools t' []).lookup "a-1-r1.apk".toList = some e ∧
        o.commit = some "abc".toList ∧ e.commit = some "c0ffee".toList) ∧
      (∃ t', retainOne (filesOf [("a\tb-1-r1.apk", "x")]) = some t' ∧
        packageFiles t' [] = ["a\tb-1-r1.apk".toList] ∧
        (rowsOf sampleTools t' []).map TsvRow.file = ["a".toList]) ∧
      ∃ t', retainOne (filesOf [("packages.adb", "i")]) = some t' ∧ apkMatch adbName = none ∧
        t'.get [adbName] ≠ (filesOf [("packages.adb", "i")]).get [adbName] := by
  refine ⟨?_, ?_, ?_⟩
  · have hrun : ((retainOne timelessSite).map fun t' ↦
        ((recordsOf sampleTools timelessSite []).lookup "a-1-r1.apk".toList).bind fun o ↦
          ((recordsOf sampleTools t' []).lookup "a-1-r1.apk".toList).map fun e ↦
            (o.commit, e.commit)) =
        some (some (some "abc".toList, some "c0ffee".toList)) := by decide +kernel
    obtain ⟨t', ht', h⟩ := Option.map_eq_some_iff.mp hrun
    obtain ⟨o, ho, h⟩ := Option.bind_eq_some_iff.mp h
    obtain ⟨e, he, h⟩ := Option.map_eq_some_iff.mp h
    exact ⟨t', o, e, ht', ho, he, (Prod.mk.inj h).1, (Prod.mk.inj h).2⟩
  · have hrun : ((retainOne (filesOf [("a\tb-1-r1.apk", "x")])).map fun t' ↦
        (packageFiles t' [], (rowsOf sampleTools t' []).map TsvRow.file)) =
        some (["a\tb-1-r1.apk".toList], ["a".toList]) := by decide +kernel
    obtain ⟨t', ht', h⟩ := Option.map_eq_some_iff.mp hrun
    exact ⟨t', ht', (Prod.mk.inj h).1, (Prod.mk.inj h).2⟩
  · have hrun : ((retainOne (filesOf [("packages.adb", "i")])).map fun t' ↦
        decide (t'.read [adbName] = (filesOf [("packages.adb", "i")]).read [adbName])) =
        some false := by decide +kernel
    obtain ⟨t', ht', h⟩ := Option.map_eq_some_iff.mp hrun
    refine ⟨t', ht', by decide, fun hc ↦ of_decide_eq_false h ?_⟩
    rw [Tree.read, hc]
    rfl

end OpenwrtFeed
