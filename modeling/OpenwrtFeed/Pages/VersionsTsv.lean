import OpenwrtFeed.Pages.Retained

/-!
# Writing and reading `.versions.tsv`

`apk-retention.py` writes a line of four fields with tabs between them for each file it keeps: the
file, its version, when it was built and when it was published.  `write_index` reads the lines with
`IFS=$'\t' read -r f ver built pub`.  A tab is white space for `read`, so two tabs in a row are one
separator, and tabs at the end are dropped: an empty field in the middle of a line is not there for
the reader, and what follows it moves up.

This happens to the build time, which a package without files does not have: its publish time is
then read as the build time.  `tsv_agrees_iff` says for which maps the reader gets what was written.
-/

set_option autoImplicit false

namespace OpenwrtFeed

open Shell DirTree

/-! ## One line -/

/-- The build time as it is written. -/
def builtText (e : VersionEntry) : Str :=
  if truthy e.built then (Nat.repr (e.built.getD 0)).toList else []

/-- The publish time as it is written. -/
def publishedText (e : VersionEntry) : Str := e.published.getD []

/-- What the reader should make of a line. -/
def rowOf (f : Str) (e : VersionEntry) : TsvRow := ⟨f, e.version, builtText e, publishedText e⟩

section Fields

variable {s w : Str}

/-- A field that is not empty is read up to the next tab. -/
theorem cutField_append (hw : w ≠ []) (ht : '\t' ∉ w) (rest : Str) :
    cutField (w ++ '\t' :: rest) = (w, '\t' :: rest) := by
  obtain ⟨c, w, rfl⟩ := List.exists_cons_of_ne_nil hw
  have hc : (c == '\t') = false := by
    rw [List.mem_cons, not_or] at ht
    simpa using Ne.symm ht.1
  have hdrop : (c :: w ++ '\t' :: rest).dropWhile (· == '\t') = c :: w ++ '\t' :: rest := by
    rw [List.cons_append, List.dropWhile_cons_of_neg (by simp [hc])]
  have hall : ∀ x ∈ c :: w, decide (x ≠ '\t') = true := fun x hx ↦
    decide_eq_true fun hxt ↦ ht (hxt ▸ hx)
  rw [cutField]
  simp only [hdrop]
  rw [List.takeWhile_append_of_pos hall, List.dropWhile_append_of_pos hall]
  simp

theorem cutField_tab (s : Str) : cutField ('\t' :: s) = cutField s := by
  rw [cutField, cutField, List.dropWhile_cons_of_pos (by simp)]

/-- Tabs at either end are lost. -/
def trimTabs (s : Str) : Str := ((s.dropWhile (· == '\t')).reverse.dropWhile (· == '\t')).reverse

theorem trimTabs_eq_self_iff (s : Str) :
    trimTabs s = s ↔ s.head? ≠ some '\t' ∧ s.getLast? ≠ some '\t' := by
  have hdrop : ∀ l : Str, l.dropWhile (· == '\t') = l ↔ l.head? ≠ some '\t' := by
    intro l
    cases l with
    | nil => simp
    | cons c l =>
      by_cases hc : c = '\t'
      · subst hc
        rw [List.dropWhile_cons_of_pos (by simp)]
        refine iff_of_false (fun h ↦ ?_) (by simp)
        have hlen := congrArg List.length h
        have hle := (List.dropWhile_sublist (· == '\t') (l := l)).length_le
        simp only [List.length_cons] at hlen
        omega
      · rw [List.dropWhile_cons_of_neg (by simpa using hc)]
        simp [hc]
  have hrev : s.getLast? = s.reverse.head? := by rw [List.head?_reverse]
  rw [hrev]
  constructor
  · intro h
    have hlen := congrArg List.length h
    rw [trimTabs, List.length_reverse] at hlen
    have h₁ := (List.dropWhile_sublist (· == '\t') (l := s)).length_le
    have h₂ := (List.dropWhile_sublist (· == '\t')
      (l := (s.dropWhile (· == '\t')).reverse)).length_le
    rw [List.length_reverse] at h₂
    have hfirst : s.dropWhile (· == '\t') = s :=
      (List.dropWhile_sublist (· == '\t')).eq_of_length (by omega)
    refine ⟨(hdrop s).mp hfirst, (hdrop _).mp ?_⟩
    rw [trimTabs, hfirst] at h
    rw [← List.reverse_inj, h, List.reverse_reverse]
  · rintro ⟨h₁, h₂⟩
    rw [trimTabs, (hdrop s).mpr h₁, (hdrop _).mpr h₂, List.reverse_reverse]

end Fields

theorem tab_notMem_builtText (e : VersionEntry) : '\t' ∉ builtText e := by
  rw [builtText]
  split
  · rw [Nat.toList_repr]
    intro h
    exact absurd (Nat.isDigit_of_mem_toDigits (by decide) (by decide) h) (by decide)
  · exact List.not_mem_nil

theorem builtText_eq_nil_iff (e : VersionEntry) : builtText e = [] ↔ truthy e.built = false := by
  rw [builtText]
  split
  · rename_i h
    rw [Nat.toList_repr]
    simp [h, Nat.toDigits_ne_nil]
  · rename_i h
    simpa using h

/-- A line on which the two sides agree: nothing is lost at the ends of the publish time, and it
does not move up. -/
def Legible (e : VersionEntry) : Prop :=
  (publishedText e).head? ≠ some '\t' ∧ (publishedText e).getLast? ≠ some '\t' ∧
    (truthy e.built = true ∨ publishedText e = [])

/-- **What is read from a line.** -/
theorem readRow_tsvBody_iff {f : Str} {e : VersionEntry} (hf : f ≠ []) (htf : '\t' ∉ f)
    (hv : e.version ≠ []) (htv : '\t' ∉ e.version) :
    readRow (tsvBody f e) = rowOf f e ↔ Legible e := by
  have hbody : tsvBody f e =
      f ++ '\t' :: (e.version ++ '\t' :: (builtText e ++ '\t' :: publishedText e)) := by
    simp [tsvBody, builtText, publishedText]
  have hread : readRow (tsvBody f e) =
      ⟨f, e.version, (cutField (builtText e ++ '\t' :: publishedText e)).1,
        trimTabs (cutField (builtText e ++ '\t' :: publishedText e)).2⟩ := by
    rw [hbody, readRow]
    simp only [cutField_append hf htf, cutField_tab, cutField_append hv htv]
    rfl
  rw [hread, rowOf, Legible]
  simp only [TsvRow.mk.injEq, true_and]
  by_cases hb : builtText e = []
  · -- the publish time moves up
    have hfalse := (builtText_eq_nil_iff e).mp hb
    rw [hb, List.nil_append, cutField_tab]
    simp only [hfalse, Bool.false_eq_true, false_or]
    constructor
    · rintro ⟨h₁, h₂⟩
      have hdrop : (publishedText e).dropWhile (· == '\t') = [] := by
        by_contra hne
        obtain ⟨c, l, hcl⟩ := List.exists_cons_of_ne_nil hne
        have hc : (c == '\t') = false := by
          have := List.head_dropWhile_not (· == '\t') hne
          simpa [hcl] using this
        rw [cutField, hcl, List.takeWhile_cons_of_pos (by simpa using hc)] at h₁
        cases h₁
      have hnil : publishedText e = [] := by
        rw [← h₂, cutField, hdrop]
        rfl
      rw [hnil]
      simp
    · rintro ⟨-, -, h⟩
      rw [h]
      exact ⟨rfl, rfl⟩
  · have htrue : truthy e.built = true := by
      by_contra hc
      exact hb ((builtText_eq_nil_iff e).mpr (by simpa using hc))
    have htrim : trimTabs ('\t' :: publishedText e) = trimTabs (publishedText e) := by
      rw [trimTabs, trimTabs, List.dropWhile_cons_of_pos (by simp)]
    rw [cutField_append hb (tab_notMem_builtText e)]
    simp only [true_and, htrue, true_or, and_true, htrim]
    exact trimTabs_eq_self_iff _

/-! ## The whole file -/

theorem newline_notMem_published {s : Str} (h : '\n' ∉ s) : '\n' ∉ (readRow s).published := by
  have hcut : ∀ t : Str, (cutField t).2.Sublist t := fun t ↦
    (List.dropWhile_sublist _).trans (List.dropWhile_sublist _)
  have htrim : ∀ t : Str, '\n' ∈ trimTabs t → '\n' ∈ t := by
    intro t ht
    rw [trimTabs, List.mem_reverse] at ht
    have := (List.dropWhile_sublist _).subset ht
    rw [List.mem_reverse] at this
    exact (List.dropWhile_sublist _).subset this
  intro hc
  refine h ?_
  have hmem := htrim _ (show '\n' ∈ trimTabs (cutField (cutField (cutField s).2).2).2 from hc)
  exact (((hcut _).trans (hcut _)).trans (hcut _)).subset hmem

/-- No row that is read has a newline in it. -/
theorem newline_notMem_tsvRow (s f : Str) : '\n' ∉ (tsvRow (tsvRows s) f).published := by
  rw [tsvRow]
  cases hf : (tsvRows s).reverse.find? fun r ↦ r.file = f with
  | none => exact List.not_mem_nil
  | some r =>
    have hr := List.mem_reverse.mp (List.mem_of_find?_eq_some hf)
    obtain ⟨line, hline, rfl⟩ := List.mem_map.mp (List.mem_of_mem_filter hr)
    exact newline_notMem_published (mem_splitOn_notMem (List.mem_of_mem_dropLast hline))

/-- The row of a file, if each file has one. -/
theorem tsvRow_map {m : Versions} {g : Str × VersionEntry → TsvRow}
    (hg : ∀ p ∈ m, (g p).file = p.1) (hkeys : (m.map Prod.fst).Nodup) {p : Str × VersionEntry}
    (hp : p ∈ m) : tsvRow (m.map g) p.1 = g p := by
  rw [tsvRow]
  cases hf : (m.map g).reverse.find? fun r ↦ r.file = p.1 with
  | none =>
    have hnone := List.find?_eq_none.mp hf (g p)
      (List.mem_reverse.mpr (List.mem_map_of_mem hp))
    exact absurd (hg p hp) (by simpa using hnone)
  | some r =>
    obtain ⟨q, hq, rfl⟩ := List.mem_map.mp (List.mem_reverse.mp (List.mem_of_find?_eq_some hf))
    have hfile : q.1 = p.1 := by
      have := List.find?_some hf
      rw [decide_eq_true_eq, hg q hq] at this
      exact this
    rw [List.inj_on_of_nodup_map hkeys hq hp hfile]
    rfl

/-- A map the script can write: the versions are those of the file names. -/
structure Writable (m : Versions) : Prop where
  keys : (m.map Prod.fst).Nodup
  versions : ∀ p ∈ m, ∃ name, apkMatch p.1 = some (name, p.2.version)
  tab : ∀ p ∈ m, '\t' ∉ p.1
  newline : ∀ p ∈ m, '\n' ∉ p.1

/-- The reader gets what was written. -/
structure ReadBack (m : Versions) : Prop where
  rows : ∀ p ∈ m, tsvRow (tsvRows (tsvText m)) p.1 = rowOf p.1 p.2
  count : (tsvRows (tsvText m)).length = m.length

section File

variable {m : Versions} {p : Str × VersionEntry}

theorem Writable.fields (h : Writable m) (hp : p ∈ m) :
    p.1 ≠ [] ∧ p.2.version ≠ [] ∧ '\t' ∉ p.2.version ∧ '\n' ∉ p.2.version := by
  obtain ⟨name, hm⟩ := h.versions p hp
  have hsub : ∀ c ∈ p.2.version, c ∈ p.1 := by
    intro c hc
    rcases (eq_of_apkMatch hm).1 with heq | heq <;> rw [heq] <;> simp [hc]
  obtain ⟨ver, rel, -, hv, -⟩ := apkMatch_eq_some hm
  have hne : p.2.version ≠ [] := by
    rw [hv]
    simp
  refine ⟨fun hnil ↦ ?_, hne, fun hc ↦ h.tab p hp (hsub _ hc), fun hc ↦ h.newline p hp (hsub _ hc)⟩
  obtain ⟨c, l, hcl⟩ := List.exists_cons_of_ne_nil hne
  have hc := hsub c (by rw [hcl]; exact List.mem_cons_self)
  rw [hnil] at hc
  cases hc

theorem Writable.tsvRows_eq (h : Writable m)
    (hpub : ∀ p ∈ m, '\n' ∉ publishedText p.2) :
    tsvRows (tsvText m) = m.map fun p ↦ readRow (tsvBody p.1 p.2) :=
  tsvRows_eq_map fun p hp ↦ ⟨(h.fields hp).1, h.tab p hp, h.newline p hp, (h.fields hp).2.2.2,
    hpub p hp⟩

theorem Writable.tsvRow_eq (h : Writable m) (hpub : ∀ p ∈ m, '\n' ∉ publishedText p.2)
    (hp : p ∈ m) : tsvRow (tsvRows (tsvText m)) p.1 = readRow (tsvBody p.1 p.2) := by
  rw [h.tsvRows_eq hpub]
  exact tsvRow_map (g := fun p ↦ readRow (tsvBody p.1 p.2))
    (fun q hq ↦ readRow_file (h.fields hq).1 (h.tab q hq) _) h.keys hp

end File

/-- **When writer and reader of `.versions.tsv` agree.**  Exactly if no publish time has a newline
in it or a tab at its ends, and every file with a publish time has a build time. -/
theorem tsv_agrees_iff (m : Versions) (h : Writable m) :
    ReadBack m ↔ ∀ p ∈ m, '\n' ∉ publishedText p.2 ∧ Legible p.2 := by
  have hrow : ∀ p ∈ m, readRow (tsvBody p.1 p.2) = rowOf p.1 p.2 ↔ Legible p.2 := fun p hp ↦
    readRow_tsvBody_iff (h.fields hp).1 (h.tab p hp) (h.fields hp).2.1 (h.fields hp).2.2.1
  constructor
  · intro hread
    have hpub : ∀ p ∈ m, '\n' ∉ publishedText p.2 := by
      intro p hp
      have hline := newline_notMem_tsvRow (tsvText m) p.1
      rw [hread.rows p hp] at hline
      exact hline
    intro p hp
    refine ⟨hpub p hp, (hrow p hp).mp ?_⟩
    rw [← h.tsvRow_eq hpub hp]
    exact hread.rows p hp
  · intro hleg
    have hpub : ∀ p ∈ m, '\n' ∉ publishedText p.2 := fun p hp ↦ (hleg p hp).1
    refine ⟨fun p hp ↦ ?_, ?_⟩
    · rw [h.tsvRow_eq hpub hp]
      exact (hrow p hp).mpr (hleg p hp).2
    · rw [h.tsvRows_eq hpub, List.length_map]

/-- Three files: with both times, with a build time, and with neither. -/
def sampleRows : Versions :=
  [("a-1-r1.apk".toList,
      ⟨['a'], "1-r1".toList, 7, some 5, some "2026-10-05T10:00:00Z".toList, none, none, []⟩),
    ("a-2-r1.apk".toList, ⟨['a'], "2-r1".toList, 7, some 6, none, none, none, []⟩),
    ("b-1-r2.apk".toList, ⟨['b'], "1-r2".toList, 8, none, none, none, none, []⟩)]

theorem sampleRows_writable : Writable sampleRows where
  keys := by decide
  versions := by
    simp only [sampleRows, List.forall_mem_cons, List.not_mem_nil, false_implies, implies_true,
      and_true]
    exact ⟨⟨['a'], by decide⟩, ⟨['a'], by decide⟩, ⟨['b'], by decide⟩⟩
  tab := by decide
  newline := by decide

theorem tsv_agrees_iff_built : Writable sampleRows ∧ ReadBack sampleRows := by
  refine ⟨sampleRows_writable, (tsv_agrees_iff _ sampleRows_writable).mpr ?_⟩
  simp only [sampleRows, List.forall_mem_cons, List.not_mem_nil, false_implies, implies_true,
    and_true]
  refine ⟨⟨by decide, ?_⟩, ⟨by decide, ?_⟩, by decide, ?_⟩
  · exact ⟨by decide, by decide, .inl rfl⟩
  · exact ⟨by decide, by decide, .inl rfl⟩
  · exact ⟨by decide, by decide, .inr rfl⟩

/-- A file with this build time, published at `now`. -/
def sampleRow (built : Option Nat) (now : String) : Versions :=
  [("a-1-r1.apk".toList,
    ⟨['a'], "1-r1".toList, 7, built, some now.toList, none, none, []⟩)]

theorem sampleRow_writable (built : Option Nat) (now : String) :
    Writable (sampleRow built now) where
  keys := List.nodup_singleton _
  versions p hp := by
    rw [List.mem_singleton.mp hp]
    refine ⟨['a'], ?_⟩
    show apkMatch "a-1-r1.apk".toList = some (['a'], "1-r1".toList)
    decide
  tab p hp := by
    rw [List.mem_singleton.mp hp]
    show '\t' ∉ "a-1-r1.apk".toList
    decide
  newline p hp := by
    rw [List.mem_singleton.mp hp]
    show '\n' ∉ "a-1-r1.apk".toList
    decide

/-- A package without files. -/
theorem tsv_moves_published_up : ¬∀ m : Versions, Writable m → ReadBack m := by
  intro h
  have hread := h _ (sampleRow_writable none "2026-10-05T10:00:00Z")
  have hrow := hread.rows _ (List.mem_singleton_self _)
  revert hrow
  decide

end OpenwrtFeed
