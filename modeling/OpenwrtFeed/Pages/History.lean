import OpenwrtFeed.Pages.Apply
import Mathlib.Data.List.Pairwise

/-!
# Going back to an older version

A destination that keeps `N` versions goes through three pieces of code at every publish: the shell
puts the old package files back next to the fresh ones (`restore`), `apk-retention.py` sorts each
package's files and deletes what is too old (`prune`), and it carries the records of `versions.json`
over (`reindex`).  This file follows one package through all of them.

A `Build` is one published version of the package: its file, and the stamp of the publish that
brought it.  `Kept d p bs t` says that the destination `d` holds exactly the files of the builds
`bs` and the record of each; `kept_run` that after any number of publishes `bs` are the last `N`
builds, whatever was published elsewhere in between.

The proof is one lemma for each piece (`get_foldlM_restoreOne`, `get_prune`, `reindex_eq_some`), put
together in `History.published`.
-/

set_option autoImplicit false

namespace OpenwrtFeed

open Shell DirTree Relation

/-! ## The pieces -/

theorem concat_prefix_append_cons {d : Path} {m n : Str} {l : Path} :
    d ++ [m] <+: d ++ n :: l ↔ m = n := by
  rw [List.prefix_append_right_inj, List.cons_prefix_cons]
  exact and_iff_left List.nil_prefix

theorem get_restoreOne {old t t' : Site} {d : Path} {n : Str} (h : restoreOne old d t n = some t')
    (g : Str) (l : Path) :
    t'.get (d ++ g :: l) =
      if g = n ∧ t.get (d ++ [n]) = none ∧ globExists t (d ++ [siblings n]) = true then
        old.get (d ++ g :: l)
      else t.get (d ++ g :: l) := by
  rw [restoreOne] at h
  split at h
  · rename_i hhas
    cases h
    rw [if_neg fun hc ↦ ?_]
    rw [Tree.has, hc.2.1] at hhas
    cases hhas
  · rename_i hhas
    have hnone : t.get (d ++ [n]) = none := by simpa [Tree.has] using hhas
    split at h
    · rename_i hglob
      rw [Tree.get_takeFrom h]
      simp only [concat_prefix_append_cons, hnone, hglob, and_true, eq_comm]
    · rename_i hglob
      cases h
      rw [if_neg fun hc ↦ hglob hc.2.2]

/-- A file of the old destination comes back if the build has none of that name but one of the same
package, called `f` here. -/
theorem get_foldlM_restoreOne {old : Site} {d : Path} {f g : Str} {ns : List Str} {t t' : Site}
    (hglob : ∀ v : Site, v.get (d ++ [f]) ≠ none → globExists v (d ++ [siblings g]) = true)
    (hf : t.get (d ++ [f]) ≠ none) (h : ns.foldlM (restoreOne old d) t = some t') :
    t'.get (d ++ [g]) =
      if g ∈ ns ∧ t.get (d ++ [g]) = none then old.get (d ++ [g]) else t.get (d ++ [g]) := by
  induction ns generalizing t with
  | nil => cases h; simp
  | cons n ns ih =>
    rw [List.foldlM_cons] at h
    obtain ⟨u, hu, h⟩ := Option.bind_eq_some_iff.mp h
    have hfu : u.get (d ++ [f]) ≠ none := by
      rw [get_restoreOne hu, if_neg]
      · exact hf
      · rintro ⟨rfl, hnone, -⟩
        exact hf hnone
    rw [ih hfu h, get_restoreOne hu]
    by_cases hgn : g = n
    · subst hgn
      rw [hglob t hf]
      by_cases hnone : t.get (d ++ [g]) = none
      · simp [hnone]
      · simp [hnone]
    · simp [hgn]

theorem versionsName_notMem_held (t : Site) (d : Path) : versionsName ∉ held t d := fun hc ↦ by
  have hext := (List.mem_filter.mp hc).2
  revert hext
  decide

theorem get_foldlM_restoreOne_of_notMem {old : Site} {d : Path} {g : Str} {ns : List Str}
    (hg : g ∉ ns) {t t' : Site} (h : ns.foldlM (restoreOne old d) t = some t') :
    t'.get (d ++ [g]) = t.get (d ++ [g]) := by
  induction ns generalizing t with
  | nil => cases h; rfl
  | cons n ns ih =>
    rw [List.foldlM_cons] at h
    obtain ⟨u, hu, h⟩ := Option.bind_eq_some_iff.mp h
    rw [List.mem_cons, not_or] at hg
    rw [ih hg.2 h, get_restoreOne hu, if_neg fun hc ↦ hg.1 hc.1]

theorem restoreVersions_frame {old t t' : Site} {d : Path} (h : restoreVersions old d t = some t')
    {q : Path} (hq : q ≠ d ++ [versionsName]) : t'.get q = t.get q := by
  rw [restoreVersions] at h
  cases ho : old.read (d ++ [versionsName]) with
  | none =>
    rw [ho] at h
    cases h
    rfl
  | some c =>
    rw [ho] at h
    simp only at h
    split at h
    · cases h
      rfl
    · rw [Tree.get_write h, if_neg hq]

theorem get_restoreVersions {old t t' : Site} {d : Path} (h : restoreVersions old d t = some t') :
    (∀ g, g ≠ versionsName → t'.get (d ++ [g]) = t.get (d ++ [g])) ∧
      (t.read (d ++ [versionsName]) = none →
        t'.read (d ++ [versionsName]) = old.read (d ++ [versionsName])) := by
  refine ⟨fun g hg ↦ restoreVersions_frame h (by simpa using hg), fun hnone ↦ ?_⟩
  rw [restoreVersions] at h
  cases ho : old.read (d ++ [versionsName]) with
  | none =>
    rw [ho] at h
    cases h
    exact hnone
  | some c =>
    rw [ho] at h
    simp only at h
    split at h
    · rename_i hfile
      obtain ⟨x, hx⟩ := Tree.isFile_iff.mp hfile
      rw [Tree.read_eq_some.mpr hx] at hnone
      cases hnone
    · rw [Tree.read_eq_some, Tree.get_write h, if_pos rfl]

/-- Only files are removed, so nothing else goes with them. -/
theorem get_prune_path {d : Path} {gone : List Str} {t t' : Site} (h : prune d gone t = some t')
    (q : Path) : t'.get q = if ∃ f ∈ gone, q = d ++ [f] then none else t.get q := by
  rw [prune] at h
  induction gone generalizing t with
  | nil => cases h; simp
  | cons f gone ih =>
    rw [List.foldlM_cons] at h
    obtain ⟨u, hu, h⟩ := Option.bind_eq_some_iff.mp h
    rw [osRemove] at hu
    split at hu
    · rename_i hfile
      cases hu
      obtain ⟨c, hc⟩ := Tree.isFile_iff.mp hfile
      have hrm : (t.rm (d ++ [f])).get q = if q = d ++ [f] then none else t.get q := by
        rw [Tree.get_rm]
        by_cases hq : q = d ++ [f]
        · simp [hq]
        · rw [if_neg hq]
          split
          · rename_i hbelow
            exact (Tree.get_eq_none_of_below hbelow.1 (Ne.symm hq) (by rw [hc]; simp)).symm
          · rfl
      rw [ih h, hrm]
      by_cases hq : q = d ++ [f]
      · simp [hq]
      · simp [hq]
    · cases hu

theorem get_prune {d : Path} {gone : List Str} {t t' : Site} (h : prune d gone t = some t')
    (g : Str) : t'.get (d ++ [g]) = if g ∈ gone then none else t.get (d ++ [g]) := by
  rw [get_prune_path h]
  simp

/-- The record of a file: what the old one says about the publish stays, else it is this one. -/
theorem entryFor_eq_some {T : Tools} {old : Versions} {pub : Stamp} {f : Str} {c : Content}
    {e : VersionEntry} (h : entryFor T old pub f c = some e) :
    (∀ o, old.lookup f = some o → filled o.published = true →
      e.published = o.published ∧ e.commit = o.commit ∧ e.run = o.run) ∧
      (old.lookup f = none →
        e.published = some pub.time ∧ e.commit = some pub.sha ∧ e.run = some pub.run) := by
  obtain ⟨⟨name, version⟩, -, h⟩ := Option.bind_eq_some_iff.mp h
  obtain ⟨e₁, he₁, rfl⟩ := Option.map_eq_some_iff.mp h
  have hbuilt : ∀ e₀ : VersionEntry, withBuilt T c e₀ = some e₁ →
      e₁.published = e₀.published ∧ e₁.commit = e₀.commit ∧ e₁.run = e₀.run := by
    intro e₀ h₀
    rw [withBuilt] at h₀
    split at h₀
    · cases h₀; exact ⟨rfl, rfl, rfl⟩
    · obtain ⟨b, -, rfl⟩ := Option.map_eq_some_iff.mp h₀
      split <;> exact ⟨rfl, rfl, rfl⟩
  obtain ⟨hp, hc, hr⟩ := hbuilt _ he₁
  refine ⟨fun o ho hfill ↦ ?_, fun hnone ↦ ?_⟩
  · simp only [entryBase, ho, Option.getD_some] at hp hc hr
    rw [withPublished, if_pos (by rw [hp]; exact hfill)]
    exact ⟨hp, hc, hr⟩
  · simp only [entryBase, hnone, Option.getD_none] at hp
    rw [withPublished, if_neg (by rw [hp]; simp [filled])]
    exact ⟨rfl, rfl, rfl⟩

theorem entries_lookup {T : Tools} {t : Site} {d : Path} {old : Versions} {pub : Stamp}
    {kept : List Str} {m : Versions} (h : entries T t d old pub kept = some m) (f : Str) :
    (f ∈ kept → ∃ c e, t.read (d ++ [f]) = some c ∧ entryFor T old pub f c = some e ∧
      m.lookup f = some e) ∧ (f ∉ kept → m.lookup f = none) := by
  rw [entries] at h
  induction kept generalizing m with
  | nil => cases h; exact ⟨fun hc ↦ absurd hc List.not_mem_nil, fun _ ↦ rfl⟩
  | cons k kept ih =>
    rw [List.mapM_cons] at h
    obtain ⟨⟨k', e⟩, hk, h⟩ := Option.bind_eq_some_iff.mp h
    obtain ⟨m', hm', h⟩ := Option.bind_eq_some_iff.mp h
    obtain ⟨c, hc, hk⟩ := Option.bind_eq_some_iff.mp hk
    obtain ⟨e', he', hk⟩ := Option.bind_eq_some_iff.mp hk
    cases hk
    cases h
    have ih' := ih hm'
    rw [List.lookup_cons]
    by_cases hfk : f = k
    · subst hfk
      refine ⟨fun _ ↦ ⟨c, e, hc, he', by simp⟩, fun hf ↦ absurd List.mem_cons_self hf⟩
    · have hne : (f == k) = false := by simpa using hfk
      rw [hne]
      refine ⟨fun hf ↦ ih'.1 ((List.mem_cons.mp hf).resolve_left hfk), fun hf ↦ ih'.2 ?_⟩
      exact fun hc ↦ hf (List.mem_cons_of_mem k hc)

/-- The names `reindex` writes. -/
def indexFiles : List Str := [versionsName, tsvName, adbName, indexJsonName]

/-- Looking something up for each name keeps the names. -/
theorem map_fst_of_mapM {β : Type} {F : Str → Option (Str × β)}
    (hF : ∀ f x, F f = some x → x.1 = f) {fs : List Str} {xs : List (Str × β)}
    (h : fs.mapM F = some xs) : xs.map Prod.fst = fs := by
  induction fs generalizing xs with
  | nil => cases h; rfl
  | cons f fs ih =>
    rw [List.mapM_cons] at h
    obtain ⟨x, hx, h⟩ := Option.bind_eq_some_iff.mp h
    obtain ⟨xs', hxs, h⟩ := Option.bind_eq_some_iff.mp h
    cases h
    rw [List.map_cons, hF f x hx, ih hxs]

theorem entries_names {T : Tools} {t : Site} {d : Path} {old : Versions} {pub : Stamp}
    {kept : List Str} {m : Versions} (h : entries T t d old pub kept = some m) :
    m.map Prod.fst = kept := by
  refine map_fst_of_mapM (fun f x hx ↦ ?_) h
  obtain ⟨c, -, hx⟩ := Option.bind_eq_some_iff.mp hx
  obtain ⟨e, -, hx⟩ := Option.bind_eq_some_iff.mp hx
  cases hx
  rfl

theorem indexed_names {T : Tools} {t : Site} {d : Path} {kept : List Str}
    {ix : List (Str × PkgInfo)} (h : indexed T t d kept = some ix) : ix.map Prod.fst = kept := by
  refine map_fst_of_mapM (fun f x hx ↦ ?_) h
  obtain ⟨c, -, hx⟩ := Option.bind_eq_some_iff.mp hx
  obtain ⟨i, -, hx⟩ := Option.bind_eq_some_iff.mp hx
  cases hx
  rfl

/-- The four files, over one list of names. -/
theorem reindex_eq_some {T : Tools} {arch : Str} {signed : Bool} {pub : Stamp} {d : Path}
    {kept : List Str} {t t' : Site} (h : reindex T arch signed pub d kept t = some t') :
    ∃ old m ix, oldVersions T t d kept = some old ∧ entries T t d old pub kept = some m ∧
      ix.map Prod.fst = kept ∧ t'.get (d ++ [versionsName]) = some (.file (.versions m)) ∧
      t'.get (d ++ [tsvName]) = some (.file (.bytes (tsvText m))) ∧
      t'.get (d ++ [adbName]) = some (.file (.adb signed ix)) ∧
      ∀ q, (∀ g ∈ indexFiles, q ≠ d ++ [g]) → t'.get q = t.get q := by
  obtain ⟨old, hold, h⟩ := Option.bind_eq_some_iff.mp h
  obtain ⟨m, hm, h⟩ := Option.bind_eq_some_iff.mp h
  obtain ⟨t₁, h₁, h⟩ := Option.bind_eq_some_iff.mp h
  obtain ⟨t₂, h₂, h⟩ := Option.bind_eq_some_iff.mp h
  obtain ⟨ix, hix, h⟩ := Option.bind_eq_some_iff.mp h
  obtain ⟨t₃, h₃, h⟩ := Option.bind_eq_some_iff.mp h
  have hwrite : ∀ {u u' : Site} {n g : Str} {c : Content}, u.write (d ++ [n]) c = some u' →
      g ≠ n → u'.get (d ++ [g]) = u.get (d ++ [g]) := by
    intro u u' n g c hu hg
    rw [Tree.get_write hu, if_neg]
    exact fun hc ↦ hg (by simpa using hc)
  refine ⟨old, m, ix, hold, hm, indexed_names hix, ?_, ?_, ?_, fun q hq ↦ ?_⟩
  · rw [hwrite h (by decide), hwrite h₃ (by decide), hwrite h₂ (by decide), Tree.get_write h₁,
      if_pos rfl]
  · rw [hwrite h (by decide), hwrite h₃ (by decide), Tree.get_write h₂, if_pos rfl]
  · rw [hwrite h (by decide), Tree.get_write h₃, if_pos rfl]
  · rw [indexFiles] at hq
    rw [Tree.get_write h, if_neg (hq _ (by simp)), Tree.get_write h₃, if_neg (hq _ (by simp)),
      Tree.get_write h₂, if_neg (hq _ (by simp)), Tree.get_write h₁, if_neg (hq _ (by simp))]

/-! ## One package -/

/-- One published version of a package. -/
structure Build where
  file : Str
  version : Str
  content : Content
  /-- The stamp of the publish that brought it. -/
  stamp : Stamp

/-- The build is one of the package `p`, in a file `<name>-<version>-r<n>.apk`. -/
structure Build.Of (p : Str) (b : Build) : Prop where
  name : apkMatch b.file = some (p, b.version)
  ext : apkExt <:+ b.file

/-- `b` is newer than `a`, in apk's order. -/
def Newer (vcmp : Str → Str → Ordering) (a b : Build) : Prop := vcmp a.version b.version = .lt

instance (vcmp : Str → Str → Ordering) : DecidableRel (Newer vcmp) := fun a b ↦
  inferInstanceAs (Decidable (vcmp a.version b.version = .lt))

/-- The last `n` of a list. -/
def lastN {α : Type} (n : Nat) (l : List α) : List α := l.drop (l.length - n)

theorem lastN_concat_lastN {α : Type} {n : Nat} (hn : 0 < n) (l : List α) (a : α) :
    lastN n (lastN n l ++ [a]) = lastN n (l ++ [a]) := by
  obtain ⟨m, rfl⟩ : ∃ m, n = m + 1 := ⟨n - 1, by omega⟩
  simp only [lastN, List.length_append, List.length_drop, List.length_singleton]
  rw [List.drop_append_of_le_length (by simp), List.drop_append_of_le_length (by omega),
    List.drop_drop]
  congr 2
  omega

section Order

variable {vcmp : Str → Str → Ordering} [Std.TransCmp vcmp]

theorem Newer.ne {a b : Build} (h : Newer vcmp a b) : a.version ≠ b.version := by
  intro hv
  have hself : vcmp b.version b.version = .eq := Std.ReflCmp.compare_self
  rw [Newer, hv, hself] at h
  cases h

theorem Newer.swap {a b : Build} (h : Newer vcmp a b) : vcmp b.version a.version = .gt := by
  have hswap : vcmp b.version a.version = (vcmp a.version b.version).swap :=
    Std.OrientedCmp.eq_swap
  rw [hswap, show vcmp a.version b.version = .lt from h]
  rfl

omit [Std.TransCmp vcmp] in
/-- Of two builds in order one is newer. -/
theorem newer_or_newer {bs : List Build} (hbs : bs.Pairwise (Newer vcmp)) {a b : Build}
    (ha : a ∈ bs) (hb : b ∈ bs) (hab : a ≠ b) : Newer vcmp a b ∨ Newer vcmp b a := by
  have hsymm : Std.Symm fun a b ↦ Newer vcmp a b ∨ Newer vcmp b a := ⟨fun _ _ h ↦ h.symm⟩
  exact (hbs.imp (S := fun a b ↦ Newer vcmp a b ∨ Newer vcmp b a) .inl).forall ha hb hab

/-- Sorting a group whose versions are all different. -/
theorem sortGroup_group {fs : List Str} (hfs : fs.Nodup) {p : Str} {bs : List Build}
    (hmem : ∀ g v, g ∈ fs ∧ apkMatch g = some (p, v) ↔ ∃ b ∈ bs, b.version = v ∧ b.file = g)
    (hbs : bs.Pairwise (Newer vcmp)) :
    sortGroup vcmp (group fs p) = (bs.map fun b ↦ (b.version, b.file)).reverse := by
  let le : Str × Str → Str × Str → Prop := fun a b ↦ vcmp a.1 b.1 ≠ .lt
  have htotal : Std.Total le := ⟨fun a b ↦ by
    by_cases h : vcmp a.1 b.1 = .lt
    · right
      have hswap : vcmp b.1 a.1 = (vcmp a.1 b.1).swap := Std.OrientedCmp.eq_swap
      show vcmp b.1 a.1 ≠ .lt
      rw [hswap, h]
      decide
    · exact .inl h⟩
  have htrans : IsTrans _ le := ⟨fun a b c hab hbc ↦ by
    have hac : (vcmp a.1 c.1).isGE = true := Std.TransCmp.isGE_trans
      (Ordering.isGE_iff_ne_lt.mpr hab) (Ordering.isGE_iff_ne_lt.mpr hbc)
    exact Ordering.isGE_iff_ne_lt.mp hac⟩
  have hgroup : (group fs p).Nodup := by
    refine List.Nodup.of_map Prod.snd ?_
    rw [map_snd_group]
    exact filesNamed_nodup hfs p
  have hnodup : (bs.map fun b ↦ (b.version, b.file)).Nodup := by
    rw [List.Nodup, List.pairwise_map]
    exact hbs.imp fun h hc ↦ h.ne (Prod.mk.inj hc).1
  have hsorted : (bs.map fun b ↦ (b.version, b.file)).reverse.Pairwise le := by
    rw [List.pairwise_reverse, List.pairwise_map]
    refine hbs.imp fun {a b} h ↦ ?_
    show vcmp b.version a.version ≠ .lt
    rw [h.swap]
    decide
  refine List.Perm.eq_of_pairwise ?_ (List.pairwise_insertionSort le _) hsorted ?_
  · rintro ⟨v, f⟩ ⟨w, g⟩ hf hg hle hge
    obtain ⟨a, ha, rfl, rfl⟩ := (hmem f v).mp
      (mem_group.mp ((sortGroup_perm vcmp _).mem_iff.mp hf))
    obtain ⟨b, hb, heq⟩ := List.mem_map.mp (List.mem_reverse.mp hg)
    cases heq
    by_cases hab : a = b
    · rw [hab]
    · rcases newer_or_newer hbs ha hb hab with h | h
      · exact absurd h hle
      · exact absurd h hge
  · refine (sortGroup_perm vcmp _).trans ?_
    rw [List.perm_ext_iff_of_nodup hgroup (List.nodup_reverse.mpr hnodup)]
    rintro ⟨v, f⟩
    rw [mem_group, hmem, List.mem_reverse, List.mem_map]
    simp

/-- Of a package's files the last `n` stay. -/
theorem mem_keepList_iff {fs : List Str} (hfs : fs.Nodup) {p : Str} {bs : List Build}
    (hmem : ∀ g v, g ∈ fs ∧ apkMatch g = some (p, v) ↔ ∃ b ∈ bs, b.version = v ∧ b.file = g)
    (hbs : bs.Pairwise (Newer vcmp)) (n : Nat) {g v : Str} (hg : apkMatch g = some (p, v)) :
    g ∈ keepList vcmp n fs ↔ ∃ b ∈ lastN n bs, b.file = g := by
  have hnew : newest vcmp n fs p = ((lastN n bs).map Build.file).reverse := by
    rw [newest, sortGroup_group hfs hmem hbs, List.take_reverse, List.length_map, ← List.map_drop,
      List.map_reverse, List.map_map]
    rfl
  rw [mem_keepList hg, hnew, List.mem_reverse, List.mem_map]

/-- The others go. -/
theorem mem_dropList_iff {fs : List Str} (hfs : fs.Nodup) {p : Str} {bs : List Build}
    (hmem : ∀ g v, g ∈ fs ∧ apkMatch g = some (p, v) ↔ ∃ b ∈ bs, b.version = v ∧ b.file = g)
    (hbs : bs.Pairwise (Newer vcmp)) (n : Nat) {g v : Str} (hg : apkMatch g = some (p, v)) :
    g ∈ dropList vcmp n fs ↔ g ∈ fs ∧ ¬∃ b ∈ lastN n bs, b.file = g := by
  have hout : outdated vcmp n fs p = ((bs.take (bs.length - n)).map Build.file).reverse := by
    rw [outdated, sortGroup_group hfs hmem hbs, List.drop_reverse, List.length_map, ← List.map_take,
      List.map_reverse, List.map_map]
    rfl
  rw [mem_dropList hg, hout, List.mem_reverse, List.mem_map]
  constructor
  · rintro ⟨a, ha, rfl⟩
    have hfile := (hmem _ _).mpr ⟨a, List.mem_of_mem_take ha, rfl, rfl⟩
    refine ⟨hfile.1, ?_⟩
    -- a build of the same name has the same version, so it is not a newer one
    rintro ⟨b, hb, hba⟩
    have hsplit : (bs.take (bs.length - n) ++ lastN n bs).Pairwise (Newer vcmp) := by
      rw [lastN, List.take_append_drop]
      exact hbs
    refine ((List.pairwise_append.mp hsplit).2.2 a ha b hb).ne ?_
    have hbfile := ((hmem _ _).mpr ⟨b, List.mem_of_mem_drop hb, rfl, rfl⟩).2
    rw [hba, hfile.2, Option.some.injEq, Prod.mk.injEq] at hbfile
    exact hbfile.2
  · rintro ⟨hgfs, hlast⟩
    obtain ⟨b, hb, -, rfl⟩ := (hmem g v).mp ⟨hgfs, hg⟩
    rw [← List.take_append_drop (bs.length - n) bs, List.mem_append] at hb
    rcases hb with hb | hb
    · exact ⟨b, hb, rfl⟩
    · exact absurd ⟨b, hb, rfl⟩ hlast

end Order

/-! ## What the destination holds -/

/-- The files of the package in `d` are those of the builds. -/
structure KeptFiles (d : Path) (p : Str) (bs : List Build) (t : Site) : Prop where
  files : ∀ b ∈ bs, t.get (d ++ [b.file]) = some (.file b.content)
  only : ∀ g v, apkMatch g = some (p, v) → t.get (d ++ [g]) ≠ none → ∃ b ∈ bs, b.file = g

/-- The records of the package in `versions.json` are those of the builds: the publish that brought
each of them. -/
structure Recorded (p : Str) (bs : List Build) (m : Versions) : Prop where
  records : ∀ b ∈ bs, ∃ e, m.lookup b.file = some e ∧ e.published = some b.stamp.time ∧
    e.commit = some b.stamp.sha ∧ e.run = some b.stamp.run
  only : ∀ g v e, apkMatch g = some (p, v) → m.lookup g = some e → ∃ b ∈ bs, b.file = g

/-- The destination holds exactly these builds of the package, and their records. -/
def Kept (d : Path) (p : Str) (bs : List Build) (t : Site) : Prop :=
  KeptFiles d p bs t ∧
    ∃ m, t.get (d ++ [versionsName]) = some (.file (.versions m)) ∧ Recorded p bs m

/-- The pair publishes the build: exactly one file of the package, and `n` versions are kept. -/
structure Brings (r : Request) (n : Nat) (p : Str) (pair : Str) (b : Build) : Prop where
  keep : keepFor r.keepRules (afterFirst '=' pair) = n
  stamp : b.stamp = r.stamp
  /-- The clock says something. -/
  time : b.stamp.time ≠ []
  of : b.Of p
  source : ∃ src, r.source (beforeFirst '=' pair) = some src ∧
    src.get [b.file] = some (.file b.content) ∧
    ∀ g v, apkMatch g = some (p, v) → src.get [g] ≠ none → g = b.file

/-- The build leaves `versions.json` to the publisher. -/
def NoVersions (r : Request) (pair : Str) : Prop :=
  ∀ src, r.source (beforeFirst '=' pair) = some src → src.read [versionsName] = none

/-- A name that can be looked for as a pattern. -/
structure Findable (d : Path) (p : Str) : Prop where
  dest : ∀ c ∈ d, Glob.bracketFree c = true
  package : Glob.bracketFree p = true
  dot : p.head? ≠ some '.'

theorem Findable.globExists {d : Path} {p f g v w : Str} (hp : Findable d p)
    (hf : apkMatch f = some (p, v)) (hext : apkExt <:+ f) (hg : apkMatch g = some (p, w)) {t : Site}
    (ht : t.get (d ++ [f]) ≠ none) : globExists t (d ++ [siblings g]) = true := by
  rw [OpenwrtFeed.globExists, decide_eq_true_eq]
  refine ⟨d ++ [f], (t.mem_dom _).mpr ht, by simp, ?_⟩
  rintro ⟨a, b⟩ hab
  rw [List.zip_append rfl, List.mem_append] at hab
  rcases hab with hab | hab
  · -- a component of the destination matches itself
    have heq : a = b := by
      obtain ⟨i, hi, he⟩ := List.mem_iff_getElem.mp hab
      simp at he
      rw [← he.1, ← he.2]
    subst heq
    have hself := Glob.accepts_self_append (s := a) [] (t := []) rfl
    rw [nameMatches, Bool.and_eq_true, ← List.append_nil a,
      Glob.parse_append_of_bracketFree (hp.dest a (List.of_mem_zip hab).1)]
    exact ⟨hself, by simp⟩
  · simp only [List.zip_cons_cons, List.zip_nil_right, List.mem_singleton, Prod.mk.injEq] at hab
    obtain ⟨rfl, rfl⟩ := hab
    have hname := eq_of_apkMatch_of_suffix hf hext
    have hpat : siblings g = p ++ "-*.apk".toList := by rw [siblings, (eq_of_apkMatch hg).2]
    rw [nameMatches, Bool.and_eq_true, hpat, hname,
      Glob.parse_append_of_bracketFree hp.package]
    refine ⟨Glob.accepts_self_append _ ?_, ?_⟩
    · have hrest : Glob.accepts (Glob.parse "*.apk".toList) (v ++ apkExt) = true :=
        (Glob.accepts_any _ _).mpr ⟨apkExt, List.suffix_append v apkExt, by decide⟩
      exact hrest
    · rw [decide_eq_true_eq]
      rcases p with _ | ⟨c, p⟩
      · simp
      · exact id

theorem apkMatch_notMem_indexFiles {g : Str} (h : (apkMatch g).isSome = true) :
    g ∉ indexFiles ∧ g ≠ publishedName := by
  refine ⟨fun hc ↦ ?_, ?_⟩
  · simp only [indexFiles, List.mem_cons, List.not_mem_nil, or_false] at hc
    rcases hc with rfl | rfl | rfl | rfl <;> revert h <;> decide
  · rintro rfl
    revert h
    decide

/-- What `$hold` has of the package: everything. -/
theorem Findable.mem_held {d : Path} {p g v : Str} (hp : Findable d p)
    (hg : apkMatch g = some (p, v)) (hext : apkExt <:+ g) {t : Site} :
    g ∈ held t d ↔ t.get (d ++ [g]) ≠ none := by
  have hname := eq_of_apkMatch_of_suffix hg hext
  have hdot : g.head? ≠ some '.' := by
    rw [hname]
    rcases p with _ | ⟨c, p⟩
    · simp
    · exact hp.dot
  rw [held, List.mem_filter, mem_globAll]
  simp [hext, hdot]

/-- The destination with the old versions back in it: of the package, what the build has and what
was there before. -/
theorem restored {old u u₁ src : Site} {d : Path} {p f v : Str} (hp : Findable d p)
    (hu : ∀ g, u.get (d ++ [g]) = src.get [g]) (hf : apkMatch f = some (p, v)) (hext : apkExt <:+ f)
    (hsrc : src.get [f] ≠ none) (hver : src.read [versionsName] = none)
    (h : (if old.isDir d = true then restore old d u else some u) = some u₁) :
    (∀ g w, apkMatch g = some (p, w) → u₁.get (d ++ [g]) =
      if src.get [g] = none ∧ apkExt <:+ g then old.get (d ++ [g]) else src.get [g]) ∧
      u₁.read (d ++ [versionsName]) = old.read (d ++ [versionsName]) := by
  have huver : u.read (d ++ [versionsName]) = none := by
    rw [Tree.read, hu]
    exact hver
  split at h
  · obtain ⟨u₀, h₀, h⟩ := Option.bind_eq_some_iff.mp h
    obtain ⟨hother, hversions⟩ := get_restoreVersions h
    refine ⟨fun g w hg ↦ ?_, ?_⟩
    · have hne : g ≠ versionsName := by
        rintro rfl
        cases hg
      rw [hother g hne, get_foldlM_restoreOne (fun v hv ↦ hp.globExists hf hext hg hv)
        (by rw [hu]; exact hsrc) h₀, hu]
      by_cases hgx : apkExt <:+ g
      · have hheld : g ∈ held old d ↔ old.get (d ++ [g]) ≠ none := hp.mem_held hg hgx
        by_cases hs : src.get [g] = none
        · by_cases ho : old.get (d ++ [g]) = none
          · simp [hs, ho]
          · simp [hs, hgx, hheld, ho]
        · simp [hs]
      · have hheld : g ∉ held old d := fun hc ↦ hgx (by simpa using (List.mem_filter.mp hc).2)
        simp [hheld, hgx]
    · refine hversions ?_
      rw [Tree.read, get_foldlM_restoreOne_of_notMem (versionsName_notMem_held old d) h₀]
      exact huver
  · rename_i hdir
    cases h
    have hnone : ∀ g, old.get (d ++ [g]) = none := by
      intro g
      by_contra hc
      exact hdir (Tree.isDir_iff.mpr (old.parent_dir d g hc))
    refine ⟨fun g w _ ↦ ?_, ?_⟩
    · rw [hu, hnone]
      split
      · rename_i hg; rw [hg.1]
      · rfl
    · rw [huver, Tree.read, hnone]

/-- The parts of a retention that went through. -/
theorem retain_parts {T : Tools} {n : Nat} {arch : Str} {signed : Bool} {pub : Stamp} {d : Path}
    {t t' : Site} (h : retain T n arch signed pub d t = some t') :
    0 < n ∧ ∃ u, prune d (dropList T.vcmp n (t.children d)) t = some u ∧
      reindex T arch signed pub d (keepList T.vcmp n (t.children d)) u = some t' := by
  rw [retain] at h
  split at h
  · cases h
  · rename_i hc
    rw [not_or] at hc
    exact ⟨Nat.pos_of_ne_zero hc.2, Option.bind_eq_some_iff.mp h⟩

theorem versionsName_notMem_dropList {vcmp : Str → Str → Ordering} {n : Nat} {fs : List Str} :
    versionsName ∉ dropList vcmp n fs := fun hc ↦
  absurd (of_mem_dropList hc).2 (by decide)

/-- What retention leaves in the directory. -/
theorem retain_eq_some {T : Tools} {n : Nat} {arch : Str} {signed : Bool} {pub : Stamp} {d : Path}
    {t t' : Site} (h : retain T n arch signed pub d t = some t') :
    (∀ g, (apkMatch g).isSome = true → t'.get (d ++ [g]) =
      if g ∈ dropList T.vcmp n (t.children d) then none else t.get (d ++ [g])) ∧
      ∃ u old m, u.read (d ++ [versionsName]) = t.read (d ++ [versionsName]) ∧
        oldVersions T u d (keepList T.vcmp n (t.children d)) = some old ∧
        entries T u d old pub (keepList T.vcmp n (t.children d)) = some m ∧
        t'.get (d ++ [versionsName]) = some (.file (.versions m)) := by
  obtain ⟨-, u, hu, hre⟩ := retain_parts h
  obtain ⟨old, m, ix, hold, hm, -, hver, -, -, hother⟩ := reindex_eq_some hre
  refine ⟨fun g hg ↦ ?_, u, old, m, ?_, hold, hm, hver⟩
  · rw [hother, get_prune hu]
    intro g' hg' hc
    have hgg : g = g' := by simpa using hc
    exact (apkMatch_notMem_indexFiles hg).1 (hgg ▸ hg')
  · rw [Tree.read, Tree.read, get_prune hu, if_neg versionsName_notMem_dropList]

/-! ## One publish after another -/

section Kept

variable {d : Path} {p : Str} {bs : List Build} {t : Site}

theorem KeptFiles.mem_children (h : KeptFiles d p bs t) (hof : ∀ b ∈ bs, b.Of p) (g w : Str) :
    g ∈ t.children d ∧ apkMatch g = some (p, w) ↔ ∃ b ∈ bs, b.version = w ∧ b.file = g := by
  rw [Tree.mem_children]
  constructor
  · rintro ⟨hg, hgw⟩
    obtain ⟨b, hb, rfl⟩ := h.only g w hgw hg
    have hv := (hof b hb).name
    rw [hgw, Option.some.injEq, Prod.mk.injEq] at hv
    exact ⟨b, hb, hv.2.symm, rfl⟩
  · rintro ⟨b, hb, rfl, rfl⟩
    refine ⟨?_, (hof b hb).name⟩
    rw [h.files b hb]
    simp

/-- Neither the stamp nor the page has anything to do with it. -/
theorem Kept.congr (h : Kept d p bs t) (hof : ∀ b ∈ bs, b.Of p) {t' : Site}
    (hget : ∀ g, g ≠ publishedName → g ≠ indexName → t'.get (d ++ [g]) = t.get (d ++ [g])) :
    Kept d p bs t' := by
  obtain ⟨hfiles, m, hm, hrec⟩ := h
  have hsame : ∀ g w, apkMatch g = some (p, w) → t'.get (d ++ [g]) = t.get (d ++ [g]) := by
    intro g w hg
    refine hget g ?_ ?_ <;> rintro rfl <;> cases hg
  refine ⟨⟨fun b hb ↦ ?_, fun g w hg hne ↦ ?_⟩, m, ?_, hrec⟩
  · rw [hsame _ _ (hof b hb).name, hfiles.files b hb]
  · rw [hsame g w hg] at hne
    exact hfiles.only g w hg hne
  · rw [hget _ (by decide) (by decide), hm]

/-- Retention keeps the last `n` of the files, and exactly these are indexed. -/
theorem KeptFiles.retain {T : Tools} [Std.TransCmp T.vcmp] {n : Nat} {t' : Site}
    (h : KeptFiles d p bs t) (hof : ∀ b ∈ bs, b.Of p) (hbs : bs.Pairwise (Newer T.vcmp))
    (hget : ∀ g, (apkMatch g).isSome = true → t'.get (d ++ [g]) =
      if g ∈ dropList T.vcmp n (t.children d) then none else t.get (d ++ [g])) :
    KeptFiles d p (lastN n bs) t' ∧ ∀ g w, apkMatch g = some (p, w) →
      (g ∈ keepList T.vcmp n (t.children d) ↔ ∃ b ∈ lastN n bs, b.file = g) := by
  have hnodup := t.children_nodup d
  have hmem := h.mem_children hof
  have hdrop : ∀ {g w}, apkMatch g = some (p, w) → (g ∈ dropList T.vcmp n (t.children d) ↔
      g ∈ t.children d ∧ ¬∃ b ∈ lastN n bs, b.file = g) := fun hg ↦
    mem_dropList_iff hnodup hmem hbs n hg
  refine ⟨⟨fun b hb ↦ ?_, fun g w hg hne ↦ ?_⟩, fun g w hg ↦ mem_keepList_iff hnodup hmem hbs n hg⟩
  · have hb' : b ∈ bs := List.mem_of_mem_drop hb
    rw [hget _ (by rw [(hof b hb').name]; rfl), if_neg, h.files b hb']
    exact fun hc ↦ ((hdrop (hof b hb').name).mp hc).2 ⟨b, hb, rfl⟩
  · rw [hget _ (by rw [hg]; rfl)] at hne
    split at hne
    · exact absurd rfl hne
    · rename_i hnot
      rw [hdrop hg] at hnot
      by_contra hc
      exact hnot ⟨Tree.mem_children.mpr hne, hc⟩

/-- The records after a publish: those of the old files stay, the new file gets one of its own. -/
theorem Recorded.entries {T : Tools} {u : Site} {old m : Versions} {pub : Stamp}
    {kept : List Str} {b : Build} {last : List Build} (h : Recorded p bs old)
    (hof : ∀ a ∈ bs, a.stamp.time ≠ []) (hb : b.stamp = pub) (hnew : ∀ a ∈ bs, a.file ≠ b.file)
    (hbp : b.Of p) (hlast : ∀ a ∈ last, a ∈ bs ++ [b])
    (hkept : ∀ g w, apkMatch g = some (p, w) → (g ∈ kept ↔ ∃ a ∈ last, a.file = g))
    (hlastOf : ∀ a ∈ last, a.Of p) (hm : entries T u d old pub kept = some m) :
    Recorded p last m := by
  refine ⟨fun a ha ↦ ?_, fun g w e hg he ↦ ?_⟩
  · obtain ⟨c, e, -, hentry, hlook⟩ := (entries_lookup hm a.file).1
      ((hkept _ _ (hlastOf a ha).name).mpr ⟨a, ha, rfl⟩)
    refine ⟨e, hlook, ?_⟩
    obtain ⟨hstays, hfresh⟩ := entryFor_eq_some hentry
    rcases List.mem_append.mp (hlast a ha) with hmem | hmem
    · obtain ⟨o, ho, h₁, h₂, h₃⟩ := h.records a hmem
      have hfill : filled o.published = true := by
        rw [h₁]
        simpa [filled] using hof a hmem
      obtain ⟨e₁, e₂, e₃⟩ := hstays o ho hfill
      exact ⟨e₁.trans h₁, e₂.trans h₂, e₃.trans h₃⟩
    · rw [List.mem_singleton.mp hmem, hb]
      refine hfresh ?_
      rw [List.mem_singleton.mp hmem]
      by_contra hc
      obtain ⟨o, ho⟩ := Option.ne_none_iff_exists'.mp hc
      obtain ⟨a', ha', hfile⟩ := h.only _ _ o hbp.name ho
      exact hnew a' ha' hfile
  · by_contra hc
    have hnot : g ∉ kept := fun hk ↦ hc ((hkept g w hg).mp hk)
    rw [(entries_lookup hm g).2 hnot] at he
    cases he

end Kept

/-- What is known after the builds of `hist` were published to `d`. -/
structure History (n : Nat) (d : Path) (p : Str) (hist : List Build) (t : Site) : Prop where
  of : ∀ b ∈ hist, b.Of p ∧ b.stamp.time ≠ []
  fresh : hist = [] → t.get d ≠ some .dir
  kept : hist ≠ [] → Kept d p (lastN n hist) t

namespace History

variable {n : Nat} {d : Path} {p : Str} {hist : List Build} {t : Site}

theorem files (h : History n d p hist t) : KeptFiles d p (lastN n hist) t := by
  by_cases hh : hist = []
  · subst hh
    refine ⟨fun b hb ↦ ?_, fun g v _ hg ↦ ?_⟩
    · cases List.mem_of_mem_drop hb
    · exact absurd (t.parent_dir d g hg) (h.fresh rfl)
  · exact (h.kept hh).1

/-- The records the next publish finds: none before the first one. -/
theorem recorded (h : History n d p hist t) {T : Tools} {u : Site} {kept : List Str}
    {old : Versions} (hu : u.read (d ++ [versionsName]) = t.read (d ++ [versionsName]))
    (hold : oldVersions T u d kept = some old) : Recorded p (lastN n hist) old := by
  rw [oldVersions, hu] at hold
  by_cases hh : hist = []
  · subst hh
    have hnone : t.get (d ++ [versionsName]) = none := by
      by_contra hc
      exact h.fresh rfl (t.parent_dir d _ hc)
    rw [Tree.read, hnone] at hold
    cases hold
    refine ⟨fun b hb ↦ ?_, fun g w e _ he ↦ ?_⟩
    · cases List.mem_of_mem_drop hb
    · cases he
  · obtain ⟨m, hm, hrec⟩ := (h.kept hh).2
    rw [Tree.read_eq_some.mpr hm] at hold
    cases hold
    exact hrec

/-- The build next to what was there: the kept builds and the new one. -/
theorem merged (h : History n d p hist t) {src u : Site} {b : Build} (hb : b.Of p)
    (hfile : src.get [b.file] = some (.file b.content))
    (hone : ∀ g v, apkMatch g = some (p, v) → src.get [g] ≠ none → g = b.file)
    (hnew : ∀ a ∈ lastN n hist, a.file ≠ b.file)
    (hnames : ∀ g w, apkMatch g = some (p, w) → u.get (d ++ [g]) =
      if src.get [g] = none ∧ apkExt <:+ g then t.get (d ++ [g]) else src.get [g]) :
    KeptFiles d p (lastN n hist ++ [b]) u := by
  refine ⟨fun a ha ↦ ?_, fun g w hg hne ↦ ?_⟩
  · rcases List.mem_append.mp ha with ha | ha
    · have haof := (h.of a (List.mem_of_mem_drop ha)).1
      have hnone : src.get [a.file] = none := by
        by_contra hc
        exact hnew a ha (hone _ _ haof.name hc)
      rw [hnames _ _ haof.name, if_pos ⟨hnone, haof.ext⟩, h.files.files a ha]
    · rw [List.mem_singleton.mp ha, hnames _ _ hb.name, if_neg (by rw [hfile]; simp), hfile]
  · rw [hnames g w hg] at hne
    split at hne
    · obtain ⟨a, ha, rfl⟩ := h.files.only g w hg hne
      exact ⟨a, List.mem_append_left _ ha, rfl⟩
    · exact ⟨b, by simp, (hone g w hg hne).symm⟩

/-- **One more publish.**  The build joins the kept ones, the oldest goes if there are too many, and
no record changes. -/
theorem published {E : Env} [Std.TransCmp E.tools.vcmp] {r : Request} (hn : 1 < n) {pair : Str}
    {b : Build} (hp : Findable (destOf pair) p) (hb : Brings r n p pair b) (hv : NoVersions r pair)
    {t' : Site} (hhist : (hist ++ [b]).Pairwise (Newer E.tools.vcmp))
    (h : History n (destOf pair) p hist t) (hpub : publish E r t pair = some t') :
    History n (destOf pair) p (hist ++ [b]) t' := by
  obtain ⟨src, u, u₁, u₂, hsrc, hu, hrestore, hretain, hstamp⟩ :=
    publish_kept hpub (by rw [hb.keep]; exact hn)
  rw [hb.keep] at hretain
  obtain ⟨src', hsrc', hfile, hone⟩ := hb.source
  rw [hsrc] at hsrc'
  cases hsrc'
  have hug : ∀ g, u.get (destOf pair ++ [g]) = src.get [g] := get_replace_concat hu
  -- the builds that are there once the old files are back
  have hof : ∀ a ∈ lastN n hist ++ [b], a.Of p := by
    intro a ha
    rcases List.mem_append.mp ha with ha | ha
    · exact (h.of a (List.mem_of_mem_drop ha)).1
    · rw [List.mem_singleton.mp ha]
      exact hb.of
  have hordered : (lastN n hist ++ [b]).Pairwise (Newer E.tools.vcmp) :=
    hhist.sublist ((List.drop_sublist _ _).append (List.Sublist.refl _))
  have hnew : ∀ a ∈ lastN n hist, a.file ≠ b.file := by
    intro a ha hab
    refine ((List.pairwise_append.mp hordered).2.2 a ha b (List.mem_singleton_self b)).ne ?_
    have hav := (hof a (List.mem_append_left _ ha)).name
    rw [hab, hb.of.name, Option.some.injEq, Prod.mk.injEq] at hav
    exact hav.2.symm
  have hlast : lastN n (lastN n hist ++ [b]) = lastN n (hist ++ [b]) :=
    lastN_concat_lastN (by omega) hist b
  -- restore, retain, stamp
  obtain ⟨hnames, hversions⟩ := restored hp hug hb.of.name hb.of.ext (by rw [hfile]; simp)
    (hv src hsrc) hrestore
  obtain ⟨hget, v, old, m, hvread, hold, hm, hmfile⟩ := retain_eq_some hretain
  obtain ⟨hfiles, hkeepList⟩ := (h.merged hb.of hfile hone hnew hnames).retain hof hordered hget
  have hrec : Recorded p (lastN n (lastN n hist ++ [b])) m :=
    (h.recorded (hvread.trans hversions) hold).entries
      (fun a ha ↦ (h.of a (List.mem_of_mem_drop ha)).2) hb.stamp hnew hb.of
      (fun a ha ↦ List.mem_of_mem_drop ha) hkeepList
      (fun a ha ↦ hof a (List.mem_of_mem_drop ha)) hm
  rw [hlast] at hfiles hrec
  have hkept : Kept (destOf pair) p (lastN n (hist ++ [b])) t' := by
    refine Kept.congr ⟨hfiles, m, hmfile, hrec⟩ (fun a ha ↦ ?_) fun g hg _ ↦ ?_
    · rw [← hlast] at ha
      exact hof a (List.mem_of_mem_drop ha)
    · rw [Tree.get_write hstamp, if_neg]
      exact fun hc ↦ hg (by simpa [destOf] using hc)
  refine ⟨fun a ha ↦ ?_, fun hc ↦ by simp at hc, fun _ ↦ hkept⟩
  rcases List.mem_append.mp ha with ha | ha
  · exact h.of a ha
  · rw [List.mem_singleton.mp ha]
    exact ⟨hb.of, hb.time⟩

/-- Whatever leaves the destination alone, its page apart, changes nothing. -/
theorem congr (h : History n d p hist t) {t' : Site}
    (hdir : t'.get d = some .dir ↔ t.get d = some .dir)
    (hget : ∀ g, g ≠ indexName → t'.get (d ++ [g]) = t.get (d ++ [g])) : History n d p hist t' where
  of := h.of
  fresh hh := fun hc ↦ h.fresh hh (hdir.mp hc)
  kept hh := (h.kept hh).congr (fun b hb ↦ (h.of b (List.mem_of_mem_drop hb)).1)
    fun g _ hg ↦ hget g hg

/-- A pair that goes elsewhere. -/
theorem other (h : History n d p hist t) {E : Env} {r : Request} {pair : Str}
    (hd : Apart (destOf pair) d) {t' : Site} (ht : publish E r t pair = some t') :
    History n d p hist t' := by
  have hsame : ∀ q, d <+: q → t'.get q = t.get q := by
    intro q hq
    rw [publish_frame ht (hd.symm.not_below hq), if_neg]
    exact fun hc ↦ hd.2 (hq.trans hc)
  refine h.congr (by rw [hsame d (List.prefix_refl d)]) fun g _ ↦ ?_
  exact hsame _ (List.prefix_append d [g])

/-- A removal elsewhere. -/
theorem removed (h : History n d p hist t) {e : Str} (hd : Apart (components e) d) :
    History n d p hist (remove t e) := by
  have hsame : ∀ q, d <+: q → (remove t e).get q = t.get q := by
    intro q hq
    rw [remove_eq_rm, Tree.get_rm, if_neg fun hc ↦ hd.symm.not_below hq hc.1]
  refine h.congr (by rw [hsame d (List.prefix_refl d)]) fun g _ ↦ ?_
  exact hsame _ (List.prefix_append d [g])

end History

/-! ## Any number of requests -/

/-- The pairs of a request, as the destination `d` sees them: each goes elsewhere or brings one
build of the package. -/
inductive Serves (r : Request) (n : Nat) (d : Path) (p : Str) : List Str → List Build → Prop
  | nil : Serves r n d p [] []
  | other {pair : Str} {pairs : List Str} {bs : List Build} (hd : Apart (destOf pair) d)
      (h : Serves r n d p pairs bs) : Serves r n d p (pair :: pairs) bs
  | build {pair : Str} {pairs : List Str} {b : Build} {bs : List Build} (hd : destOf pair = d)
      (hb : Brings r n p pair b) (hv : NoVersions r pair) (h : Serves r n d p pairs bs) :
      Serves r n d p (pair :: pairs) (b :: bs)

/-- One successful request, and the builds it brought to `d`. -/
inductive PublishStep (E : Env) (n : Nat) (d : Path) (p : Str) :
    Site × List Build → Site × List Build → Prop
  | apply (t t' : Site) (hist bs : List Build) (r : Request)
      (hremoves : ∀ e ∈ r.removes, Apart (components e) d)
      (hpairs : Serves r n d p r.accepted bs) (h : applyChanges E r t = some t') :
      PublishStep E n d p (t, hist) (t', hist ++ bs)

theorem History.serves {E : Env} [Std.TransCmp E.tools.vcmp] {r : Request} {n : Nat} (hn : 1 < n)
    {d : Path} {p : Str} (hp : Findable d p) {pairs : List Str} {bs hist : List Build}
    {t t' : Site} (hs : Serves r n d p pairs bs) (h : History n d p hist t)
    (hhist : (hist ++ bs).Pairwise (Newer E.tools.vcmp))
    (ht : pairs.foldlM (publish E r) t = some t') : History n d p (hist ++ bs) t' := by
  induction hs generalizing hist t with
  | nil => cases ht; rwa [List.append_nil]
  | other hd _ ih =>
    rw [List.foldlM_cons] at ht
    obtain ⟨u, hu, ht⟩ := Option.bind_eq_some_iff.mp ht
    exact ih (h.other hd hu) hhist ht
  | @build pair pairs b bs hd hb hv _ ih =>
    rw [List.foldlM_cons] at ht
    obtain ⟨u, hu, ht⟩ := Option.bind_eq_some_iff.mp ht
    rw [← List.singleton_append, ← List.append_assoc] at hhist ⊢
    subst hd
    exact ih (h.published hn hp hb hv (List.pairwise_append.mp hhist).1 hu) hhist ht

theorem touchNojekyll_dir_iff {t t' : Site} (h : touchNojekyll t = some t') (q : Path) :
    t'.get q = some .dir ↔ t.get q = some .dir := by
  rw [touchNojekyll] at h
  split at h
  · cases h; exact Iff.rfl
  · rename_i hhas
    rw [Tree.get_write h]
    split
    · rename_i hq
      refine iff_of_false (by simp) fun hc ↦ hhas ?_
      rw [Tree.has, ← hq, hc]
      rfl
    · exact Iff.rfl

theorem History.request {E : Env} [Std.TransCmp E.tools.vcmp] {r : Request} {n : Nat} (hn : 1 < n)
    {d : Path} {p : Str} (hp : Findable d p) (hkeys : Apart d [keysName]) {bs hist : List Build}
    {t t' : Site} (hremoves : ∀ e ∈ r.removes, Apart (components e) d)
    (hpairs : Serves r n d p r.accepted bs) (h : History n d p hist t)
    (hhist : (hist ++ bs).Pairwise (Newer E.tools.vcmp)) (ht : applyChanges E r t = some t') :
    History n d p (hist ++ bs) t' := by
  obtain ⟨u, v, x, hu, hv, hx, hw⟩ := applyChanges_eq_some ht
  have hremoved : ∀ (es : List Str) (t : Site), (∀ e ∈ es, Apart (components e) d) →
      History n d p hist t → History n d p hist (es.foldl remove t) := by
    intro es
    induction es with
    | nil => exact fun t _ h ↦ h
    | cons e es ih =>
      intro t hes h
      exact ih _ (fun e' he' ↦ hes e' (List.mem_cons_of_mem e he'))
        (h.removed (hes e List.mem_cons_self))
  have hdests := (hremoved _ t hremoves h).serves hn hp hpairs hhist hu
  have hbelow : ∀ q, d <+: q → ¬[keysName] <+: q := fun q hq ↦ hkeys.not_below hq
  refine hdests.congr ?_ fun g hg ↦ ?_
  · rw [← (sameButIndex_writeIndexes hw).dir_iff, touchNojekyll_dir_iff hx,
      overlayKeys_frame hv fun _ ↦ hbelow d (List.prefix_refl d)]
  · refine applyChanges_get hu ht (fun _ ↦
      hbelow _ (List.prefix_append d [g])) ?_ (by simpa using hg)
    intro hc
    have hd : d = [] := by
      rcases d with _ | ⟨a, d⟩
      · rfl
      · simp at hc
    rw [hd] at hkeys
    exact hkeys.1 List.nil_prefix

/-- **A device can go back.**  Whatever is published elsewhere in between: after any number of
publishes with `--keep n`, each with exactly one file of the package and each newer than the one
before, the destination holds exactly the files of the last `n` builds, each as it was built, and
`versions.json` says of each when, from which commit and by which run it was first published. -/
theorem kept_run (E : Env) [Std.TransCmp E.tools.vcmp] (n : Nat) (hn : 1 < n) (d : Path) (p : Str)
    (hp : Findable d p) (hkeys : Apart d [keysName]) {t₀ t : Site} {hist : List Build}
    (hfresh : t₀.get d ≠ some .dir)
    (h : ReflTransGen (PublishStep E n d p) (t₀, []) (t, hist))
    (hchain : hist.IsChain (Newer E.tools.vcmp)) (hne : hist ≠ []) :
    Kept d p (lastN n hist) t := by
  have htrans : IsTrans _ (Newer E.tools.vcmp) :=
    ⟨fun _ _ _ hab hbc ↦ Std.TransCmp.lt_trans hab hbc⟩
  have hinv : ∀ s, ReflTransGen (PublishStep E n d p) (t₀, []) s →
      s.2.Pairwise (Newer E.tools.vcmp) → History n d p s.2 s.1 := by
    intro s hs
    induction hs with
    | refl =>
      refine fun _ ↦ ⟨fun b hb ↦ ?_, fun _ ↦ hfresh, fun hc ↦ absurd rfl hc⟩
      cases hb
    | tail _ hstep ih =>
      intro hpair
      cases hstep with
      | apply t t' hist bs r hremoves hpairs ht =>
        exact (ih (List.pairwise_append.mp hpair).1).request hn hp hkeys hremoves hpairs hpair ht
  exact (hinv (t, hist) h hchain.pairwise).kept hne

/-! ### What has to be left out -/

/-- A version of the package `a`, one character long, and the request that publishes it. -/
def sampleBuild (p v time : String) : Build where
  file := (p ++ "-" ++ v ++ "-r1.apk").toList
  version := (v ++ "-r1").toList
  content := .bytes v.toList
  stamp := ⟨time.toList, "main".toList, "c0ffee".toList, "1".toList⟩

def buildRequest (dest p v time : String) (fs : List (String × String)) : Request :=
  packageRequest dest ((p ++ "-" ++ v ++ "-r1.apk", v) :: fs) time

/-- One request with one pair, with nothing said about where it goes if it is not to `d`. -/
def Stated (r : Request) (n : Nat) (d : Path) (p : Str) (bs : List Build) : Prop :=
  r.removes = [] ∧ ∃ pair, r.accepted = [pair] ∧
    (destOf pair ≠ d ∧ bs = [] ∨ destOf pair = d ∧ ∃ b, bs = [b] ∧ Brings r n p pair b)

/-- A run of such requests, with newer and newer builds, at the end of which some version or record
is not there. -/
def Loses (n : Nat) (d : Path) (p : Str) (steps : List (Request × List Build)) : Prop :=
  (∀ s ∈ steps, Stated s.1 n d p s.2) ∧
    (steps.flatMap Prod.snd).IsChain (Newer sampleTools.vcmp) ∧
    ∃ t, (steps.map Prod.fst).foldlM (fun t r ↦ applyChanges sampleEnv r t) Tree.empty = some t ∧
      ¬Kept d p (lastN n (steps.flatMap Prod.snd)) t

theorem filesOf_get {fs : List (String × String)} {g : Str} (h : (filesOf fs).get [g] ≠ none) :
    g ∈ fs.map fun f ↦ f.1.toList := by
  have hfold : ∀ (fs : List (String × String)) (t : Site),
      (fs.foldl (fun t f ↦ (t.write [f.1.toList] (.bytes f.2.toList)).getD t) t).get [g] ≠ none →
      t.get [g] ≠ none ∨ g ∈ fs.map fun f ↦ f.1.toList := by
    intro fs
    induction fs with
    | nil => exact fun t h ↦ .inl h
    | cons f fs ih =>
      intro t h
      rcases ih _ h with h | h
      · change ((t.write [f.1.toList] (.bytes f.2.toList)).getD t).get [g] ≠ none at h
        cases hw : t.write [f.1.toList] (.bytes f.2.toList) with
        | none => rw [hw] at h; exact .inl h
        | some u =>
          rw [hw, Option.getD_some, Tree.get_write hw] at h
          split at h
          · rename_i hg
            exact .inr (List.mem_cons.mpr (.inl (by simpa using hg)))
          · exact .inl h
      · exact .inr (List.mem_cons_of_mem _ h)
  rcases hfold fs Tree.empty h with h | h
  · rw [Tree.get_empty] at h
    simp at h
  · exact h

/-- The files of such a request. -/
def buildFiles (p v : String) (fs : List (String × String)) : List (String × String) :=
  ("packages.adb", "i") :: (p ++ "-" ++ v ++ "-r1.apk", v) :: fs

/-- What has to be checked for a request to bring its build. -/
theorem brings_build {dest p v time : String} {fs : List (String × String)}
    (hkeep : keepFor [("*".toList, 2)] (afterFirst '=' ("/src=".toList ++ dest.toList)) = 2 ∧
      beforeFirst '=' ("/src=".toList ++ dest.toList) = "/src".toList ∧ time.toList ≠ [])
    (hof : apkMatch (sampleBuild p v time).file = some (p.toList, (sampleBuild p v time).version) ∧
      apkExt <:+ (sampleBuild p v time).file)
    (hfile : (filesOf (buildFiles p v fs)).read [(sampleBuild p v time).file] =
      some (.bytes v.toList))
    (hone : ∀ g ∈ (buildFiles p v fs).map fun f ↦ f.1.toList,
      (apkMatch g).map Prod.fst = some p.toList → g = (sampleBuild p v time).file) :
    Brings (buildRequest dest p v time fs) 2 p.toList ("/src=".toList ++ dest.toList)
      (sampleBuild p v time) := by
  refine ⟨hkeep.1, rfl, hkeep.2.2, ⟨hof.1, hof.2⟩, filesOf (buildFiles p v fs), ?_,
    Tree.read_eq_some.mp hfile, fun g w hg hne ↦ ?_⟩
  · rw [hkeep.2.1]
    rfl
  · exact hone g (filesOf_get hne) (by rw [hg]; rfl)

theorem stated_build {dest p v time : String} {fs : List (String × String)} {d : Path}
    (hd : destOf ("/src=".toList ++ dest.toList) = d)
    (hb : Brings (buildRequest dest p v time fs) 2 p.toList ("/src=".toList ++ dest.toList)
      (sampleBuild p v time)) :
    Stated (buildRequest dest p v time fs) 2 d p.toList [sampleBuild p v time] :=
  ⟨rfl, _, rfl, .inr ⟨hd, _, rfl, hb⟩⟩

theorem serves_build {dest p v time : String} {fs : List (String × String)} {d : Path}
    (hd : destOf ("/src=".toList ++ dest.toList) = d)
    (hb : Brings (buildRequest dest p v time fs) 2 p.toList ("/src=".toList ++ dest.toList)
      (sampleBuild p v time))
    (hv : (filesOf (buildFiles p v fs)).read [versionsName] = none) :
    Serves (buildRequest dest p v time fs) 2 d p.toList (buildRequest dest p v time fs).accepted
      [sampleBuild p v time] := by
  refine .build hd hb (fun src hsrc ↦ ?_) .nil
  have hsome : ∀ s, (buildRequest dest p v time fs).source s =
      if s = "/src".toList then some (filesOf (buildFiles p v fs)) else none := fun s ↦ rfl
  rw [hsome] at hsrc
  split at hsrc
  · cases hsrc; exact hv
  · cases hsrc

instance : Std.TransCmp sampleEnv.tools.vcmp :=
  inferInstanceAs (Std.TransCmp (compare : Str → Str → Ordering))

/-- Two publishes of the package, with a host tool in between. -/
theorem kept_run_two : ∃ t,
    ([buildRequest "main/25" "a" "1" "t1" [], toolRequest "main".toList,
        buildRequest "main/25" "a" "2" "t2" []].foldlM
      (fun t r ↦ applyChanges sampleEnv r t) Tree.empty) = some t ∧
      Kept (components "main/25".toList) "a".toList
        [sampleBuild "a" "1" "t1", sampleBuild "a" "2" "t2"] t := by
  have hrun : ([buildRequest "main/25" "a" "1" "t1" [], toolRequest "main".toList,
        buildRequest "main/25" "a" "2" "t2" []].foldlM
      (fun t r ↦ applyChanges sampleEnv r t) Tree.empty).isSome = true := by decide +kernel
  obtain ⟨t, ht⟩ := Option.isSome_iff_exists.mp hrun
  refine ⟨t, ht, ?_⟩
  simp only [List.foldlM_cons, List.foldlM_nil, bind_pure] at ht
  obtain ⟨t₁, h₁, ht⟩ := Option.bind_eq_some_iff.mp ht
  obtain ⟨t₂, h₂, h₃⟩ := Option.bind_eq_some_iff.mp ht
  have hserves₁ : Serves (buildRequest "main/25" "a" "1" "t1" []) 2 (components "main/25".toList)
      "a".toList (buildRequest "main/25" "a" "1" "t1" []).accepted [sampleBuild "a" "1" "t1"] := by
    refine serves_build (by decide +kernel) ?_ (by decide +kernel)
    apply brings_build <;> decide +kernel
  have hserves₂ : Serves (buildRequest "main/25" "a" "2" "t2" []) 2 (components "main/25".toList)
      "a".toList (buildRequest "main/25" "a" "2" "t2" []).accepted [sampleBuild "a" "2" "t2"] := by
    refine serves_build (by decide +kernel) ?_ (by decide +kernel)
    apply brings_build <;> decide +kernel
  have hserves : Serves (toolRequest "main".toList) 2 (components "main/25".toList) "a".toList
      (toolRequest "main".toList).accepted [] := .other (by decide +kernel) .nil
  have hsteps : ReflTransGen (PublishStep sampleEnv 2 (components "main/25".toList) "a".toList)
      (Tree.empty, []) (t, [sampleBuild "a" "1" "t1", sampleBuild "a" "2" "t2"]) := by
    have hnone : ∀ {r : Request} {d : Path}, r.removes = [] →
        ∀ e ∈ r.removes, Apart (components e) d := fun hr e he ↦ by rw [hr] at he; cases he
    have step₁ := PublishStep.apply Tree.empty t₁ [] _ _ (hnone rfl) hserves₁ h₁
    have step₂ := PublishStep.apply t₁ t₂ [sampleBuild "a" "1" "t1"] _ _ (hnone rfl) hserves h₂
    have step₃ := PublishStep.apply t₂ t [sampleBuild "a" "1" "t1"] _ _ (hnone rfl) hserves₂ h₃
    exact .head step₁ (.head step₂ (.single step₃))
  refine kept_run sampleEnv 2 (by decide) _ _ ⟨by decide +kernel, by decide, by decide⟩
    (by decide +kernel) ?_ hsteps (by decide +kernel) (List.cons_ne_nil _ _)
  rw [Tree.get_empty, if_neg (by decide +kernel)]
  simp

/-- The file of a build is gone. -/
theorem loses_of_missing {n : Nat} {d : Path} {p : Str} {steps : List (Request × List Build)}
    (g : Str) (hst : ∀ s ∈ steps, Stated s.1 n d p s.2)
    (hchain : (steps.flatMap Prod.snd).IsChain (Newer sampleTools.vcmp))
    (hrun : (((steps.map Prod.fst).foldlM (fun t r ↦ applyChanges sampleEnv r t) Tree.empty).map
      fun t ↦ t.has (d ++ [g])) = some false)
    (hg : g ∈ (lastN n (steps.flatMap Prod.snd)).map Build.file) : Loses n d p steps := by
  obtain ⟨t, ht, hhas⟩ := Option.map_eq_some_iff.mp hrun
  refine ⟨hst, hchain, t, ht, fun hk ↦ ?_⟩
  obtain ⟨b, hb, rfl⟩ := List.mem_map.mp hg
  rw [Tree.has, hk.1.files b hb] at hhas
  cases hhas

/-- The publish time a `versions.json` has for a file. -/
def publishedOf : Content → Str → Option Str
  | .versions m, f => (m.lookup f).bind (·.published)
  | _, _ => none

/-- A request that publishes somewhere else. -/
theorem stated_elsewhere {r : Request} {n : Nat} {d : Path} {p : Str} (pair : Str)
    (hr : r.removes = []) (ha : r.accepted = [pair]) (hd : destOf pair ≠ d) : Stated r n d p [] :=
  ⟨hr, pair, ha, .inl ⟨hd, rfl⟩⟩

/-- With a `versions.json` of its own, a build is the record of all that came before. -/
theorem loses_own_versions :
    Loses 2 (components "main/25".toList) "a".toList
      [(buildRequest "main/25" "a" "1" "t1" [], [sampleBuild "a" "1" "t1"]),
        (buildRequest "main/25" "a" "2" "t2" [("versions.json", "x")],
          [sampleBuild "a" "2" "t2"])] := by
  refine ⟨List.forall_mem_cons.mpr ⟨?_, List.forall_mem_cons.mpr ⟨?_, List.forall_mem_nil _⟩⟩,
    by decide +kernel, ?_⟩
  · refine stated_build (by decide +kernel) ?_
    apply brings_build <;> decide +kernel
  · refine stated_build (by decide +kernel) ?_
    apply brings_build <;> decide +kernel
  -- the record of the first build names the second publish
  have hrun : (([buildRequest "main/25" "a" "1" "t1" [],
      buildRequest "main/25" "a" "2" "t2" [("versions.json", "x")]].foldlM
        (fun t r ↦ applyChanges sampleEnv r t) Tree.empty).bind fun t ↦
          (t.read (components "main/25/versions.json".toList)).bind fun c ↦
            publishedOf c "a-1-r1.apk".toList) = some "t2".toList := by decide +kernel
  obtain ⟨t, ht, hread⟩ := Option.bind_eq_some_iff.mp hrun
  refine ⟨t, ht, fun hk ↦ ?_⟩
  obtain ⟨m, hm, hrec⟩ := hk.2
  obtain ⟨e, he, hpub, -⟩ := hrec.records (sampleBuild "a" "1" "t1") List.mem_cons_self
  rw [show t.read (components "main/25/versions.json".toList) = some (.versions m) from
    Tree.read_eq_some.mpr hm, Option.bind_some, publishedOf] at hread
  rw [show m.lookup "a-1-r1.apk".toList = some e from he, Option.bind_some, hpub] at hread
  revert hread
  decide +kernel

/-- Among the keys there is a file that is called like a package. -/
theorem loses_keys :
    Loses 2 (components "keys".toList) "a".toList
      [(buildRequest "keys" "a" "1" "t1" [], [sampleBuild "a" "1" "t1"]),
        ({ toolRequest "main".toList with keys := some (oneFile "a-0-r1.apk".toList []) }, [])] :=
          by
  refine ⟨List.forall_mem_cons.mpr ⟨?_, List.forall_mem_cons.mpr ⟨?_, List.forall_mem_nil _⟩⟩,
    by decide +kernel, ?_⟩
  · refine stated_build (by decide +kernel) ?_
    apply brings_build <;> decide +kernel
  · exact stated_elsewhere "/src=tools/main/x86_64".toList rfl rfl (by decide +kernel)
  have hrun : (([buildRequest "keys" "a" "1" "t1" [],
      { toolRequest "main".toList with keys := some (oneFile "a-0-r1.apk".toList []) }].foldlM
        (fun t r ↦ applyChanges sampleEnv r t) Tree.empty).map fun t ↦
          t.has (components "keys/a-0-r1.apk".toList)) = some true := by decide +kernel
  obtain ⟨t, ht, hhas⟩ := Option.map_eq_some_iff.mp hrun
  refine ⟨t, ht, fun hk ↦ ?_⟩
  obtain ⟨b, hb, hfile⟩ := hk.1.only "a-0-r1.apk".toList "0-r1".toList (by decide +kernel)
    (Option.isSome_iff_ne_none.mp hhas)
  rw [List.mem_singleton.mp hb] at hfile
  revert hfile
  decide +kernel

/-- **Five ways to lose a version or a record**: a publish to a directory above; a build with a
`versions.json` of its own; a bracket in the name of the destination; a package whose name starts
with a dot; and the destination `keys`, where the keys go as well. -/
theorem loses_versions :
    Loses 2 (components "main/25".toList) "a".toList
        [(buildRequest "main/25" "a" "1" "t1" [], [sampleBuild "a" "1" "t1"]),
          (buildRequest "main" "b" "1" "t2" [], []),
          (buildRequest "main/25" "a" "2" "t3" [], [sampleBuild "a" "2" "t3"])] ∧
      Loses 2 (components "main/25".toList) "a".toList
        [(buildRequest "main/25" "a" "1" "t1" [], [sampleBuild "a" "1" "t1"]),
          (buildRequest "main/25" "a" "2" "t2" [("versions.json", "x")],
            [sampleBuild "a" "2" "t2"])] ∧
      Loses 2 (components "main/2[5]".toList) "a".toList
        [(buildRequest "main/2[5]" "a" "1" "t1" [], [sampleBuild "a" "1" "t1"]),
          (buildRequest "main/2[5]" "a" "2" "t2" [], [sampleBuild "a" "2" "t2"])] ∧
      Loses 2 (components "main/25".toList) ".a".toList
        [(buildRequest "main/25" ".a" "1" "t1" [], [sampleBuild ".a" "1" "t1"]),
          (buildRequest "main/25" ".a" "2" "t2" [], [sampleBuild ".a" "2" "t2"])] ∧
      Loses 2 (components "keys".toList) "a".toList
        [(buildRequest "keys" "a" "1" "t1" [], [sampleBuild "a" "1" "t1"]),
          ({ toolRequest "main".toList with keys := some (oneFile "a-0-r1.apk".toList []) }, [])] :=
            by
  refine ⟨loses_of_missing "a-1-r1.apk".toList ?_ (by decide +kernel) (by decide +kernel)
      (by decide +kernel), loses_own_versions,
    loses_of_missing "a-1-r1.apk".toList ?_ (by decide +kernel) (by decide +kernel)
      (by decide +kernel),
    loses_of_missing ".a-1-r1.apk".toList ?_ (by decide +kernel) (by decide +kernel)
      (by decide +kernel), loses_keys⟩
  · refine List.forall_mem_cons.mpr ⟨?_, List.forall_mem_cons.mpr ⟨?_, List.forall_mem_cons.mpr
      ⟨?_, List.forall_mem_nil _⟩⟩⟩
    · refine stated_build (by decide +kernel) ?_
      apply brings_build <;> decide +kernel
    · exact stated_elsewhere "/src=main".toList rfl rfl (by decide +kernel)
    · refine stated_build (by decide +kernel) ?_
      apply brings_build <;> decide +kernel
  · refine List.forall_mem_cons.mpr ⟨?_, List.forall_mem_cons.mpr ⟨?_, List.forall_mem_nil _⟩⟩
    all_goals
      refine stated_build (by decide +kernel) ?_
      apply brings_build <;> decide +kernel
  · refine List.forall_mem_cons.mpr ⟨?_, List.forall_mem_cons.mpr ⟨?_, List.forall_mem_nil _⟩⟩
    all_goals
      refine stated_build (by decide +kernel) ?_
      apply brings_build <;> decide +kernel

end OpenwrtFeed
