import OpenwrtFeed.Pages.Retained

/-!
# The version in `index.json`

`index.json` gives one version for each package name.  It is made from a dump of `packages.adb` by
OpenWrt's own generator, "so the file stays what the SDK would have written".  The index of the SDK
has one version of a package; the one of a published tree has up to `N`, and the generator keeps
whichever it sees last.

In which order `apk adbdump` lists the entries is not said anywhere, and that order decides: the
files are named to `apk mkndx` in the order of their names, where `1.10` comes before `1.9`.
`namesNewest_iff` says that `index.json` is right if and only if the last entry that is listed for a
name has the highest version.  The names themselves are always right.
-/

set_option autoImplicit false

namespace OpenwrtFeed

open Shell DirTree

/-! ## What `index.json` should say -/

/-- What `apk` reads from a package file on the site. -/
def infoOf (T : Tools) (t : Site) (d : Path) (f : Str) : Option PkgInfo :=
  (t.read (d ++ [f])).bind fun c ↦ T.pkgInfo (c.text T)

/-- The packages of a directory are named once each, with the highest version there is. -/
structure PackagesNewest (T : Tools) (d : Path) (t : Site) (packages : List (Str × Str)) :
    Prop where
  once : (packages.map Prod.fst).Nodup
  names : ∀ k, k ∈ packages.map Prod.fst ↔
    ∃ f ∈ packageFiles t d, ∃ i, infoOf T t d f = some i ∧ abiName i = k
  version : ∀ p ∈ packages, ∃ f ∈ packageFiles t d, ∃ i, infoOf T t d f = some i ∧
    abiName i = p.1 ∧ i.version = p.2
  highest : ∀ p ∈ packages, ∀ f ∈ packageFiles t d, ∀ i, infoOf T t d f = some i →
    abiName i = p.1 → T.vcmp i.version p.2 ≠ .gt

/-- `index.json` names the newest versions. -/
def NamesNewest (T : Tools) (d : Path) (t : Site) : Prop :=
  ∃ arch packages, t.get (d ++ [indexJsonName]) = some (.file (.indexJson arch packages)) ∧
    PackagesNewest T d t packages

/-- What `apk adbdump` lists after retention in a directory. -/
def listed (T : Tools) (n : Nat) (d : Path) (t : Site) : List PkgInfo :=
  T.adbOrder ((keepList T.vcmp n (t.children d)).filterMap (infoOf T t d))

/-- Of the entries of a name the last one has the highest version. -/
def LastHighest (vcmp : Str → Str → Ordering) (ps : List PkgInfo) : Prop :=
  ∀ before p after, ps = before ++ p :: after → (∀ q ∈ after, abiName q ≠ abiName p) →
    ∀ q ∈ ps, abiName q = abiName p → vcmp q.version p.version ≠ .gt

/-! ## The generator -/

theorem map_fst_dictSet (k v : Str) (d : List (Str × Str)) :
    (dictSet k v d).map Prod.fst =
      if k ∈ d.map Prod.fst then d.map Prod.fst else d.map Prod.fst ++ [k] := by
  induction d with
  | nil => rfl
  | cons p d ih =>
    rw [dictSet]
    by_cases hk : p.1 = k
    · rw [if_pos hk, List.map_cons, List.map_cons, if_pos (by simp [hk]), hk]
    · rw [if_neg hk, List.map_cons, ih, List.map_cons]
      by_cases hmem : k ∈ d.map Prod.fst
      · rw [if_pos hmem, if_pos (List.mem_cons_of_mem _ hmem)]
      · rw [if_neg hmem, if_neg (by simpa [Ne.symm hk] using hmem), List.cons_append]

theorem dictSet_nodup {k v : Str} {d : List (Str × Str)} (h : (d.map Prod.fst).Nodup) :
    ((dictSet k v d).map Prod.fst).Nodup := by
  rw [map_fst_dictSet]
  split
  · exact h
  · rename_i hk
    exact List.nodup_append.mpr ⟨h, List.nodup_singleton k, fun a ha b hb hab ↦
      hk (List.mem_singleton.mp hb ▸ hab ▸ ha)⟩

/-- Setting a key replaces its value and no other. -/
theorem mem_dictSet {k v : Str} {d : List (Str × Str)} (h : (d.map Prod.fst).Nodup)
    {p : Str × Str} : p ∈ dictSet k v d ↔ p = (k, v) ∨ p.1 ≠ k ∧ p ∈ d := by
  induction d with
  | nil => simp [dictSet]
  | cons q d ih =>
    obtain ⟨hq, hd⟩ := List.nodup_cons.mp h
    rw [dictSet]
    by_cases hk : q.1 = k
    · rw [if_pos hk, List.mem_cons, List.mem_cons]
      refine or_congr_right ⟨fun hp ↦ ⟨fun hc ↦ hq ?_, .inr hp⟩, fun hp ↦ ?_⟩
      · rw [hk, ← hc]
        exact List.mem_map_of_mem hp
      · refine hp.2.resolve_left ?_
        rintro rfl
        exact hp.1 hk
    · rw [if_neg hk, List.mem_cons, ih hd, List.mem_cons]
      constructor
      · rintro (rfl | rfl | ⟨hp, hmem⟩)
        · exact .inr ⟨hk, .inl rfl⟩
        · exact .inl rfl
        · exact .inr ⟨hp, .inr hmem⟩
      · rintro (rfl | ⟨hp, rfl | hmem⟩)
        · exact .inr (.inl rfl)
        · exact .inl rfl
        · exact .inr (.inr ⟨hp, hmem⟩)

theorem parseApk_concat (ps : List PkgInfo) (p : PkgInfo) :
    parseApk (ps ++ [p]) = dictSet (abiName p) p.version (parseApk ps) := by
  rw [parseApk, List.foldl_concat]
  rfl

theorem parseApk_nodup (ps : List PkgInfo) : ((parseApk ps).map Prod.fst).Nodup := by
  induction ps using List.reverseRecOn with
  | nil => exact List.nodup_nil
  | append_singleton ps p ih =>
    rw [parseApk_concat]
    exact dictSet_nodup ih

/-- The generator keeps the last entry of each name. -/
theorem mem_parseApk {ps : List PkgInfo} {k v : Str} :
    (k, v) ∈ parseApk ps ↔ ∃ before p after, ps = before ++ p :: after ∧
      (∀ q ∈ after, abiName q ≠ k) ∧ abiName p = k ∧ p.version = v := by
  induction ps using List.reverseRecOn with
  | nil => simp [parseApk]
  | append_singleton ps p ih =>
    rw [parseApk_concat, mem_dictSet (parseApk_nodup ps), ih]
    constructor
    · rintro (heq | ⟨hne, before, q, after, rfl, hafter, hq, hv⟩)
      · obtain ⟨rfl, rfl⟩ := Prod.mk.inj heq
        exact ⟨ps, p, [], rfl, by simp, rfl, rfl⟩
      · refine ⟨before, q, after ++ [p], by simp, fun x hx ↦ ?_, hq, hv⟩
        rcases List.mem_append.mp hx with hx | hx
        · exact hafter x hx
        · rw [List.mem_singleton.mp hx]
          exact Ne.symm hne
    · rintro ⟨before, q, after, heq, hafter, rfl, rfl⟩
      rcases List.eq_nil_or_concat after with rfl | ⟨after, x, rfl⟩
      · obtain ⟨-, hpq⟩ := List.append_inj' heq rfl
        rw [List.singleton_inj.mp hpq]
        exact .inl rfl
      · rw [List.concat_eq_append] at heq hafter
        rw [← List.cons_append, ← List.append_assoc] at heq
        obtain ⟨hps, hpx⟩ := List.append_inj' heq rfl
        rw [List.singleton_inj.mp hpx]
        exact .inr ⟨Ne.symm (hafter x (by simp)), before, q, after, hps,
          fun y hy ↦ hafter y (List.mem_append_left _ hy), rfl, rfl⟩

theorem exists_last {ps : List PkgInfo} {p : PkgInfo} (hp : p ∈ ps) :
    ∃ v, (abiName p, v) ∈ parseApk ps := by
  induction ps using List.reverseRecOn with
  | nil => cases hp
  | append_singleton ps q ih =>
    rw [parseApk_concat]
    simp only [mem_dictSet (parseApk_nodup ps)]
    by_cases hq : abiName p = abiName q
    · exact ⟨q.version, .inl (by rw [hq])⟩
    · rcases List.mem_append.mp hp with hp | hp
      · obtain ⟨v, hv⟩ := ih hp
        exact ⟨v, .inr ⟨hq, hv⟩⟩
      · rw [List.mem_singleton.mp hp] at hq
        exact absurd rfl hq

/-! ## The file -/

theorem infoOf_congr (T : Tools) {t u : Site} {d : Path} {f : Str}
    (h : t.get (d ++ [f]) = u.get (d ++ [f])) : infoOf T t d f = infoOf T u d f := by
  rw [infoOf, infoOf, Tree.read, Tree.read, h]

/-- Indexing the files is reading them all. -/
theorem indexed_infos {T : Tools} {t : Site} {d : Path} {kept : List Str}
    {ix : List (Str × PkgInfo)} (h : indexed T t d kept = some ix) :
    ix.map Prod.snd = kept.filterMap (infoOf T t d) := by
  rw [indexed] at h
  induction kept generalizing ix with
  | nil => cases h; rfl
  | cons f kept ih =>
    rw [List.mapM_cons] at h
    obtain ⟨x, hx, h⟩ := Option.bind_eq_some_iff.mp h
    obtain ⟨ix', hix, h⟩ := Option.bind_eq_some_iff.mp h
    obtain ⟨c, hc, hx⟩ := Option.bind_eq_some_iff.mp hx
    obtain ⟨i, hi, hx⟩ := Option.bind_eq_some_iff.mp hx
    cases hx
    cases h
    have hinfo : infoOf T t d f = some i := by
      rw [infoOf, hc]
      exact hi
    rw [List.map_cons, List.filterMap_cons_some hinfo, ih hix]

section Retained

variable {T : Tools} {n : Nat} {arch : Str} {signed : Bool} {pub : Stamp} {d : Path} {t t' : Site}

/-- The files that stay are indexed as they are. -/
theorem retain_infoOf (h : retain T n arch signed pub d t = some t') {f : Str}
    (hf : f ∈ keepList T.vcmp n (t.children d)) : infoOf T t' d f = infoOf T t d f := by
  obtain ⟨⟨name, v⟩, hm⟩ := Option.isSome_iff_exists.mp (of_mem_keepList hf).2
  exact infoOf_congr T (by rw [retain_get h hm, if_pos hf])

theorem package_notMem_indexFiles {f : Str} (h : (apkMatch f).isSome = true) : f ∉ indexFiles := by
  intro hc
  have hnone : ∀ g ∈ indexFiles, apkMatch g = none := by decide
  rw [hnone f hc] at h
  cases h

/-- What is written into `index.json`. -/
theorem retain_indexJson (h : retain T n arch signed pub d t = some t') :
    t'.get (d ++ [indexJsonName]) = some (.file (.indexJson arch (parseApk (listed T n d t)))) := by
  obtain ⟨-, u, hu, hre⟩ := retain_parts h
  obtain ⟨old, -, hre⟩ := Option.bind_eq_some_iff.mp hre
  obtain ⟨m, -, hre⟩ := Option.bind_eq_some_iff.mp hre
  obtain ⟨t₁, h₁, hre⟩ := Option.bind_eq_some_iff.mp hre
  obtain ⟨t₂, h₂, hre⟩ := Option.bind_eq_some_iff.mp hre
  obtain ⟨ix, hix, hre⟩ := Option.bind_eq_some_iff.mp hre
  obtain ⟨t₃, h₃, hre⟩ := Option.bind_eq_some_iff.mp hre
  have hsame : ∀ f ∈ keepList T.vcmp n (t.children d), infoOf T t₂ d f = infoOf T t d f := by
    intro f hf
    obtain ⟨hmem, hsome⟩ := of_mem_keepList hf
    obtain ⟨⟨name, v⟩, hm⟩ := Option.isSome_iff_exists.mp hsome
    have hne : ∀ g ∈ indexFiles, d ++ [f] ≠ d ++ [g] := by
      intro g hg hc
      obtain rfl := List.singleton_inj.mp (List.append_cancel_left hc)
      exact package_notMem_indexFiles hsome hg
    have hdrop : f ∉ dropList T.vcmp n (t.children d) := by
      rw [mem_dropList_iff_notMem (t.children_nodup d) hmem hm]
      exact not_not.mpr hf
    refine infoOf_congr T ?_
    rw [Tree.get_write h₂, if_neg (hne _ (by simp [indexFiles])), Tree.get_write h₁,
      if_neg (hne _ (by simp [indexFiles])), get_prune hu, if_neg hdrop]
  rw [Tree.get_write hre, if_pos rfl, indexed_infos hix, listed, List.filterMap_congr hsame]

/-- An entry is listed for each file that stays, and no other. -/
theorem mem_listed (hperm : ∀ ps, (T.adbOrder ps).Perm ps)
    (h : retain T n arch signed pub d t = some t') {i : PkgInfo} :
    i ∈ listed T n d t ↔ ∃ f ∈ packageFiles t' d, infoOf T t' d f = some i := by
  rw [listed, (hperm _).mem_iff, List.mem_filterMap, ← keepList_eq_packageFiles h]
  constructor
  · rintro ⟨f, hf, hi⟩
    exact ⟨f, hf, by rw [retain_infoOf h hf, hi]⟩
  · rintro ⟨f, hf, hi⟩
    exact ⟨f, hf, by rw [← retain_infoOf h hf, hi]⟩

end Retained

/-- **When `index.json` names the newest versions.**  If and only if no entry that is listed for a
name has a version above that of the last one. -/
theorem namesNewest_iff {T : Tools} {n : Nat} {arch : Str} {signed : Bool} {pub : Stamp} {d : Path}
    {t t' : Site} (hperm : ∀ ps, (T.adbOrder ps).Perm ps)
    (h : retain T n arch signed pub d t = some t') :
    NamesNewest T d t' ↔ LastHighest T.vcmp (listed T n d t) := by
  have hfile := retain_indexJson h
  constructor
  · rintro ⟨arch', packages, hpackages, hnew⟩ before p after hps hafter q hq hname
    rw [hfile] at hpackages
    cases hpackages
    obtain ⟨f, hf, hi⟩ := (mem_listed hperm h).mp hq
    exact hnew.highest _ (mem_parseApk.mpr ⟨before, p, after, hps, hafter, rfl, rfl⟩) f hf q hi
      hname
  · intro hlast
    refine ⟨arch, _, hfile, parseApk_nodup _, fun k ↦ ⟨fun hk ↦ ?_, ?_⟩, ?_, ?_⟩
    · obtain ⟨⟨k, v⟩, hmem, rfl⟩ := List.mem_map.mp hk
      obtain ⟨before, p, after, hps, -, hname, -⟩ := mem_parseApk.mp hmem
      obtain ⟨f, hf, hi⟩ := (mem_listed hperm h).mp (hps ▸ by simp : p ∈ listed T n d t)
      exact ⟨f, hf, p, hi, hname⟩
    · rintro ⟨f, hf, i, hi, rfl⟩
      obtain ⟨v, hv⟩ := exists_last ((mem_listed hperm h).mpr ⟨f, hf, hi⟩)
      exact List.mem_map.mpr ⟨_, hv, rfl⟩
    · rintro ⟨k, v⟩ hmem
      obtain ⟨before, p, after, hps, -, hname, hversion⟩ := mem_parseApk.mp hmem
      obtain ⟨f, hf, hi⟩ := (mem_listed hperm h).mp (hps ▸ by simp : p ∈ listed T n d t)
      exact ⟨f, hf, p, hi, hname, hversion⟩
    · rintro ⟨k, v⟩ hmem f hf i hi rfl
      obtain ⟨before, p, after, hps, hafter, hname, rfl⟩ := mem_parseApk.mp hmem
      refine hlast before p after hps ?_ i ((mem_listed hperm h).mpr ⟨f, hf, hi⟩) hname.symm
      exact fun q hq ↦ hname ▸ hafter q hq

/-- Programs for versions whose minor number has one digit or two, and an index listed in some
order. -/
def minorTools (order : List PkgInfo → List PkgInfo) : Tools :=
  { sampleTools with
    vcmp := fun v w ↦ (compare v.length w.length).then (compare v w)
    pkgInfo := fun b ↦ some ⟨"a".toList, b, []⟩
    adbOrder := order }

/-- A package in the versions 1.9 and 1.10. -/
def minorSite : Site := filesOf [("a-1.9-r1.apk", "1.9-r1"), ("a-1.10-r1.apk", "1.10-r1")]

def minorRetain (order : List PkgInfo → List PkgInfo) : Option Site :=
  retain (minorTools order) 2 "x86_64".toList false sampleStamp [] minorSite

/-- One package whose highest version comes last. -/
theorem lastHighest_concat {vcmp : Str → Str → Ordering} {ps : List PkgInfo} {x : PkgInfo}
    (hname : ∀ q ∈ ps ++ [x], abiName q = abiName x)
    (hle : ∀ q ∈ ps ++ [x], vcmp q.version x.version ≠ .gt) : LastHighest vcmp (ps ++ [x]) := by
  intro before p after heq hafter q hq _
  rcases List.eq_nil_or_concat after with rfl | ⟨after, y, rfl⟩
  · obtain ⟨-, hp⟩ := List.append_inj' heq rfl
    rw [← List.singleton_inj.mp hp]
    exact hle q hq
  · -- another entry of the name comes after it
    have hp : p ∈ ps ++ [x] := by rw [heq]; simp
    have hy : y ∈ ps ++ [x] := by rw [heq]; simp
    exact absurd ((hname y hy).trans (hname p hp).symm) (hafter y (by simp))

/-- An index that is listed by version. -/
theorem namesNewest_iff_sorted :
    ∃ t', minorRetain List.reverse = some t' ∧ NamesNewest (minorTools List.reverse) [] t' := by
  obtain ⟨t', ht'⟩ := Option.isSome_iff_exists.mp
    (by decide : (minorRetain List.reverse).isSome = true)
  refine ⟨t', ht', (namesNewest_iff List.reverse_perm ht').mpr ?_⟩
  have hlisted : listed (minorTools List.reverse) 2 [] minorSite =
      [⟨"a".toList, "1.9-r1".toList, []⟩] ++ [⟨"a".toList, "1.10-r1".toList, []⟩] := by decide
  rw [hlisted]
  exact lastHighest_concat (by decide) (by decide)

/-- An index that is listed in the order in which the files were named. -/
theorem indexJson_below_newest :
    ¬∀ (T : Tools) (n : Nat) (arch : Str) (signed : Bool) (pub : Stamp) (d : Path) (t t' : Site),
      2 ≤ n → (∀ ps, (T.adbOrder ps).Perm ps) → retain T n arch signed pub d t = some t' →
      NamesNewest T d t' := by
  intro h
  obtain ⟨t', ht'⟩ := Option.isSome_iff_exists.mp (by decide : (minorRetain id).isSome = true)
  obtain ⟨arch, packages, hfile, hnew⟩ := h (minorTools id) 2 "x86_64".toList false sampleStamp []
    minorSite t' le_rfl (fun ps ↦ List.Perm.refl ps) ht'
  have hlisted : parseApk (listed (minorTools id) 2 [] minorSite) =
      [("a".toList, "1.9-r1".toList)] := by decide
  rw [retain_indexJson ht', hlisted] at hfile
  cases hfile
  have hkept : "a-1.10-r1.apk".toList ∈ packageFiles t' [] := by
    rw [← keepList_eq_packageFiles ht']
    decide
  have hinfo : infoOf (minorTools id) t' [] "a-1.10-r1.apk".toList =
      some ⟨"a".toList, "1.10-r1".toList, []⟩ := by
    rw [retain_infoOf ht' (keepList_eq_packageFiles ht' ▸ hkept)]
    decide
  exact hnew.highest _ (List.mem_singleton_self _) _ hkept _ hinfo (by decide) (by decide)

end OpenwrtFeed
