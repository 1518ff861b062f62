import OpenwrtFeed.Pages.Apply

/-!
# Two requests, in either order

Every publish writes the pages of the whole site again and merges what it finds in its destinations,
so it is not obvious that two publishes to different places do not get in each other's way.
`applyChanges_comm` says that they do not: if no destination of the one is nested with one of the
other, both orders give the same site, or both fail.

The argument has three parts.

* The destinations: each pair and each removal is an update at its own place, and updates at places
  that are apart commute (`applyDests_comm`).
* The pages: nothing but the page generator itself looks at an `index.html`, so whether the first
  request's pages are there when the second one starts makes no difference except in the pages
  (`related_applyDests`), and those are all written again at the end.
* The keys: published keys are left alone (`overlayKeys_of_published`).

The second part has an edge.  A directory called `index.html` ends the script, so if the first
request leaves one behind, it must still be there after the second (`dir_survives`).
-/

set_option autoImplicit false

namespace OpenwrtFeed

open Shell DirTree

/-! ## Nothing else reads the pages -/

theorem related_write (p : Path) (c : Content) :
    Related SameButIndex (fun t ↦ t.write p c) fun t ↦ t.write p c := fun t u h ↦ by
  have hw : t.writable p = u.writable p := by
    rw [Bool.eq_iff_iff, Tree.writable_iff, Tree.writable_iff, Ne, Ne, Ne, h.dir_iff, h.dir_iff]
  show Option.Rel SameButIndex (t.write p c) (u.write p c)
  cases ht : t.write p c with
  | none =>
    cases hu : u.write p c with
    | none => exact .none
    | some u' =>
      have hs : (t.write p c).isSome = true := by
        rw [Tree.write_isSome, hw, ← Tree.write_isSome (c := c), hu]
        rfl
      rw [ht] at hs
      cases hs
  | some t' =>
    have hs : (u.write p c).isSome = true := by
      rw [Tree.write_isSome, ← hw, ← Tree.write_isSome (c := c), ht]
      rfl
    obtain ⟨u', hu⟩ := Option.isSome_iff_exists.mp hs
    rw [hu]
    refine .some ⟨fun q hq ↦ ?_, fun q ↦ ?_⟩
    · rw [Tree.get_write ht, Tree.get_write hu, h.get_eq q hq]
    · rw [Tree.get_write ht, Tree.get_write hu]
      split
      · simp
      · exact h.dir_iff q

theorem SameButIndex.rm {t u : Site} (h : SameButIndex t u) (p : Path) :
    SameButIndex (t.rm p) (u.rm p) := by
  refine ⟨fun q hq ↦ ?_, fun q ↦ ?_⟩
  · rw [Tree.get_rm, Tree.get_rm, h.get_eq q hq]
  · rw [Tree.get_rm, Tree.get_rm]
    split
    · simp
    · exact h.dir_iff q

theorem SameButIndex.clearAbove_iff {t u : Site} (h : SameButIndex t u) {d : Path}
    (hd : indexName ∉ d) : ClearAbove d t ↔ ClearAbove d u := by
  refine forall₃_congr fun q hq _ ↦ ?_
  rw [h.get_eq q fun hc ↦ hd (hq.subset (List.mem_of_getLast? hc))]

theorem related_replace {d : Path} (hd : indexName ∉ d) (s : Site) :
    Related SameButIndex (fun t ↦ replace t d s) fun t ↦ replace t d s := fun t u h ↦ by
  show Option.Rel SameButIndex (replace t d s) (replace u d s)
  by_cases hc : ClearAbove d t
  · obtain ⟨t', ht⟩ := Option.isSome_iff_exists.mp (replace_isSome (s := s).mpr hc)
    obtain ⟨u', hu⟩ := Option.isSome_iff_exists.mp
      (replace_isSome (s := s).mpr ((h.clearAbove_iff hd).mp hc))
    rw [ht, hu]
    refine .some ⟨fun q hq ↦ ?_, fun q ↦ ?_⟩
    · rw [get_replace ht, get_replace hu, h.get_eq q hq]
    · rw [get_replace ht, get_replace hu]
      split
      · exact Iff.rfl
      · split
        · exact Iff.rfl
        · exact h.dir_iff q
  · have ht : replace t d s = none := by
      rw [← Option.not_isSome_iff_eq_none, replace_isSome]
      exact hc
    have hu : replace u d s = none := by
      rw [← Option.not_isSome_iff_eq_none, replace_isSome, ← h.clearAbove_iff hd]
      exact hc
    rw [ht, hu]
    exact .none

theorem related_takeFrom {old old' : Site} (ho : SameButIndex old old') (p : Path) :
    Related SameButIndex (fun t ↦ t.takeFrom old p) fun t ↦ t.takeFrom old' p := fun t u h ↦ by
  have hdir : t.isDir p.dropLast = u.isDir p.dropLast := by
    rw [Bool.eq_iff_iff, Tree.isDir_iff, Tree.isDir_iff, h.dir_iff]
  show Option.Rel SameButIndex (t.takeFrom old p) (u.takeFrom old' p)
  by_cases hc : p ≠ [] ∧ t.isDir p.dropLast = true
  · have hst : (t.takeFrom old p).isSome = true := Tree.takeFrom_isSome.mpr hc
    have hsu : (u.takeFrom old' p).isSome = true := Tree.takeFrom_isSome.mpr (hdir ▸ hc)
    obtain ⟨t', ht⟩ := Option.isSome_iff_exists.mp hst
    obtain ⟨u', hu⟩ := Option.isSome_iff_exists.mp hsu
    rw [ht, hu]
    refine .some ⟨fun q hq ↦ ?_, fun q ↦ ?_⟩
    · rw [Tree.get_takeFrom ht, Tree.get_takeFrom hu, h.get_eq q hq, ho.get_eq q hq]
    · rw [Tree.get_takeFrom ht, Tree.get_takeFrom hu]
      split
      · exact ho.dir_iff q
      · exact h.dir_iff q
  · have ht : t.takeFrom old p = none := by
      rw [← Option.not_isSome_iff_eq_none, Tree.takeFrom_isSome]
      exact hc
    have hu : u.takeFrom old' p = none := by
      rw [← Option.not_isSome_iff_eq_none, Tree.takeFrom_isSome, ← hdir]
      exact hc
    rw [ht, hu]
    exact .none

theorem ne_indexName_of_apkExt {n : Str} (h : apkExt <:+ n) : n ≠ indexName := by
  rintro rfl
  revert h
  decide

theorem ne_indexName_of_apkMatch {n : Str} (h : (apkMatch n).isSome = true) : n ≠ indexName := by
  rintro rfl
  revert h
  decide

/-- A package is never looked for under the name of a page. -/
theorem nameMatches_siblings {n m : Str} (h : nameMatches (siblings n) m = true) :
    m ≠ indexName := by
  rintro rfl
  have hpat : siblings n = (pnameOf n ++ "-*.ap".toList) ++ ['k'] := by simp [siblings]
  rw [nameMatches, Bool.and_eq_true, hpat] at h
  have hlast := Glob.getLast?_of_accepts (by decide) (by decide) h.1
  revert hlast
  decide

theorem SameButIndex.globExists_eq {t u : Site} (h : SameButIndex t u) (d : Path) (n : Str) :
    globExists t (d ++ [siblings n]) = globExists u (d ++ [siblings n]) := by
  have hone : ∀ {t u : Site}, SameButIndex t u → globExists t (d ++ [siblings n]) = true →
      globExists u (d ++ [siblings n]) = true := by
    intro t u h ht
    rw [globExists, decide_eq_true_eq] at ht ⊢
    obtain ⟨p, hp, hlen, hall⟩ := ht
    refine ⟨p, ?_, hlen, hall⟩
    rw [u.mem_dom, ← h.get_eq p, ← t.mem_dom]
    · exact hp
    · intro hl
      obtain ⟨q, rfl⟩ := List.getLast?_eq_some_iff.mp hl
      have hql : d.length = q.length := by simpa using hlen.symm
      rw [List.zip_append hql] at hall
      exact nameMatches_siblings (hall (siblings n, indexName) (by simp)) rfl
  rw [Bool.eq_iff_iff]
  exact ⟨hone h, hone h.symm⟩

theorem SameButIndex.held_eq {t u : Site} (h : SameButIndex t u) (d : Path) :
    held t d = held u d := by
  rw [held, held, globAll, globAll, List.filter_filter, List.filter_filter]
  refine Tree.children_filter_congr fun n ↦ ?_
  refine and_congr_left fun hn ↦ ?_
  have hext : apkExt <:+ n := by
    rw [Bool.and_eq_true] at hn
    simpa using hn.1
  rw [h.get_concat (ne_indexName_of_apkExt hext)]

theorem SameButIndex.packages_eq {t u : Site} (h : SameButIndex t u) (d : Path) :
    ((t.children d).filter fun f ↦ (apkMatch f).isSome) =
      (u.children d).filter fun f ↦ (apkMatch f).isSome := by
  refine Tree.children_filter_congr fun n ↦ and_congr_left fun hn ↦ ?_
  rw [h.get_concat (ne_indexName_of_apkMatch hn)]

theorem related_restoreOne {old old' : Site} (ho : SameButIndex old old') (d : Path) {n : Str}
    (hn : apkExt <:+ n) :
    Related SameButIndex (fun t ↦ restoreOne old d t n) fun t ↦ restoreOne old' d t n := by
  refine .ite (fun t u h ↦ ?_) .some (.ite (fun t u h ↦ h.globExists_eq d n) ?_ .some)
  · rw [Tree.has, Tree.has, h.get_concat (ne_indexName_of_apkExt hn)]
  · exact related_takeFrom ho (d ++ [n])

theorem related_restoreVersions {old old' : Site} (ho : SameButIndex old old') (d : Path) :
    Related SameButIndex (restoreVersions old d) (restoreVersions old' d) := by
  have hname : versionsName ≠ indexName := by decide
  have hread : old.read (d ++ [versionsName]) = old'.read (d ++ [versionsName]) :=
    ho.read_concat hname d
  unfold restoreVersions
  rw [hread]
  cases old'.read (d ++ [versionsName]) with
  | none => exact .some
  | some c => exact .ite (fun t u h ↦ h.isFile_concat hname d) .some (related_write _ c)

theorem related_restore {old old' : Site} (ho : SameButIndex old old') (d : Path) :
    Related SameButIndex (restore old d) (restore old' d) := by
  unfold restore
  rw [ho.held_eq d]
  refine .bind (.foldlM _ fun n hn ↦ related_restoreOne ho d ?_) (related_restoreVersions ho d)
  simpa using (List.mem_filter.mp hn).2

theorem SameButIndex.mapM_read {α : Type} {t u : Site} (h : SameButIndex t u) (d : Path)
    {fs : List Str} (hfs : ∀ f ∈ fs, f ≠ indexName) (k : Str → Content → Option α) :
    (fs.mapM fun f ↦ t.read (d ++ [f]) >>= k f) = fs.mapM fun f ↦ u.read (d ++ [f]) >>= k f := by
  induction fs with
  | nil => rfl
  | cons f fs ih =>
    rw [List.mapM_cons, List.mapM_cons, h.read_concat (hfs f List.mem_cons_self),
      ih fun g hg ↦ hfs g (List.mem_cons_of_mem f hg)]

theorem related_reindex (T : Tools) (arch : Str) (signed : Bool) (pub : Stamp) (d : Path)
    {kept : List Str} (hk : ∀ f ∈ kept, f ≠ indexName) :
    Related SameButIndex (reindex T arch signed pub d kept) (reindex T arch signed pub d kept) := by
  have hold : ∀ t u : Site, SameButIndex t u → oldVersions T t d kept = oldVersions T u d kept := by
    intro t u h
    have hread : t.read (d ++ [versionsName]) = u.read (d ++ [versionsName]) :=
      h.read_concat (by decide) d
    simp only [oldVersions, hread]
  refine .bindRead hold fun old ↦ .bindRead (fun t u h ↦ h.mapM_read d hk _) fun m ↦ ?_
  refine .bind (related_write _ _) (.bind (related_write _ _) ?_)
  refine .bindRead (fun t u h ↦ h.mapM_read d hk _) fun ix ↦ ?_
  exact .bind (related_write _ _) (related_write _ _)

theorem related_retain (T : Tools) (n : Nat) (arch : Str) (signed : Bool) (pub : Stamp) (d : Path) :
    Related SameButIndex (retain T n arch signed pub d) (retain T n arch signed pub d) := by
  have hlists : ∀ t u : Site, SameButIndex t u →
      (keepList T.vcmp n (t.children d), dropList T.vcmp n (t.children d)) =
        (keepList T.vcmp n (u.children d), dropList T.vcmp n (u.children d)) := fun t u h ↦ by
    rw [keepList_congr (h.packages_eq d), dropList_congr (h.packages_eq d)]
  unfold retain
  split
  · exact .none
  · intro t u h
    have hfs := hlists t u h
    rw [Prod.mk.injEq] at hfs
    show Option.Rel SameButIndex (prune d _ t >>= _) (prune d _ u >>= _)
    rw [hfs.1, hfs.2]
    refine Related.bind (.foldlM _ fun f hf ↦ ?_) (related_reindex T arch signed pub d ?_) t u h
    · have hne := ne_indexName_of_apkMatch (of_mem_dropList hf).2
      refine .ite (fun t u h ↦ h.isFile_concat hne d) (fun t u h ↦ .some (h.rm _)) .none
    · exact fun f hf ↦ ne_indexName_of_apkMatch (of_mem_keepList hf).2

theorem related_finish (E : Env) (r : Request) (dest : Str) {old old' : Site}
    (ho : SameButIndex old old') :
    Related SameButIndex (finish E r dest old) (finish E r dest old') := by
  have hdir : old.isDir (components dest) = old'.isDir (components dest) := by
    rw [Bool.eq_iff_iff, Tree.isDir_iff, Tree.isDir_iff, ho.dir_iff]
  refine .bind ?_ (related_write _ _)
  split
  · unfold keepVersions
    rw [hdir]
    refine .bind ?_ (related_retain _ _ _ _ _ _)
    split
    · exact related_restore ho _
    · exact .some
  · exact .some

/-- **A pair does not see the pages.** -/
theorem related_publish (E : Env) (r : Request) {pair : Str} (hd : indexName ∉ destOf pair) :
    Related SameButIndex (fun t ↦ publish E r t pair) fun t ↦ publish E r t pair := by
  intro t u h
  show Option.Rel SameButIndex (publish E r t pair) (publish E r u pair)
  rw [publish, publish, publishTo, publishTo]
  cases r.source (beforeFirst '=' pair) with
  | none => exact .none
  | some s => exact Related.bind (related_replace hd s) (related_finish E r _ h) t u h

theorem related_applyDests (E : Env) (r : Request) (hd : ∀ p ∈ r.accepted, indexName ∉ destOf p) :
    Related SameButIndex (applyDests E r) (applyDests E r) := by
  have hremove : ∀ (ds : List Str) (t u : Site), SameButIndex t u →
      SameButIndex (ds.foldl remove t) (ds.foldl remove u) := by
    intro ds
    induction ds with
    | nil => exact fun t u h ↦ h
    | cons d ds ih =>
      intro t u h
      rw [List.foldl_cons, List.foldl_cons, remove_eq_rm, remove_eq_rm]
      exact ih _ _ (h.rm _)
  intro t u h
  exact Related.foldlM _ (fun p hp ↦ related_publish E r (hd p hp)) _ _ (hremove _ t u h)

theorem related_touchNojekyll : Related SameButIndex touchNojekyll touchNojekyll := by
  refine .ite (fun t u h ↦ ?_) .some (related_write _ _)
  rw [Tree.has, Tree.has, h.get_eq [nojekyllName] (by decide)]

/-! ## Steps at places that are apart -/

/-- What a request does to destinations, step by step: `inl` is a removal, `inr` an accepted
pair. -/
def Request.steps (r : Request) : List (Str ⊕ Str) := r.removes.map .inl ++ r.accepted.map .inr

/-- One of these steps. -/
def act (E : Env) (r : Request) (t : Site) : Str ⊕ Str → Option Site
  | .inl d => some (remove t d)
  | .inr p => publish E r t p

/-- Where it works. -/
def place : Str ⊕ Str → Path
  | .inl d => components d
  | .inr p => destOf p

/-- The destinations of a request, published or removed. -/
def Request.dests (r : Request) : List Path := r.removes.map components ++ r.accepted.map destOf

theorem map_place_steps (r : Request) : r.steps.map place = r.dests := by
  rw [Request.steps, Request.dests, List.map_append, List.map_map, List.map_map]
  rfl

theorem place_mem_dests {r : Request} {a : Str ⊕ Str} (ha : a ∈ r.steps) : place a ∈ r.dests := by
  rw [← map_place_steps]
  exact List.mem_map_of_mem ha

theorem applyDests_eq_steps (E : Env) (r : Request) (t : Site) :
    applyDests E r t = r.steps.foldlM (act E r) t := by
  have hremove : ∀ (ds : List Str) (t : Site),
      (ds.map Sum.inl).foldlM (act E r) t = some (ds.foldl remove t) := by
    intro ds
    induction ds with
    | nil => exact fun t ↦ rfl
    | cons d ds ih => exact fun t ↦ ih (remove t d)
  rw [Request.steps, List.foldlM_append, hremove]
  show _ = (r.accepted.map Sum.inr).foldlM (act E r) (r.removes.foldl remove t)
  rw [List.foldlM_map]
  rfl

/-- Every kept destination of the request is free of pattern characters. -/
def Request.Plain (r : Request) : Prop := ∀ p ∈ r.accepted, PlainIfKept r p

theorem updatesAt_act {E : Env} {r : Request} (hr : r.Plain) {a : Str ⊕ Str} (ha : a ∈ r.steps) :
    UpdatesAt a.isRight (place a) fun t ↦ act E r t a := by
  rcases List.mem_append.mp ha with ha | ha
  · obtain ⟨d, -, rfl⟩ := List.mem_map.mp ha
    exact updatesAt_remove d
  · obtain ⟨p, hp, rfl⟩ := List.mem_map.mp ha
    exact updatesAt_publish E r (hr p hp)

theorem staysAt_act (E : Env) (r : Request) (a : Str ⊕ Str) :
    StaysAt a.isRight (place a) fun t ↦ act E r t a := by
  cases a with
  | inl d => exact (updatesAt_remove d).toStaysAt
  | inr p => exact staysAt_publish E r p

/-- **Destinations that are apart can be served in either order.** -/
theorem applyDests_comm {E : Env} {r₁ r₂ : Request} (h₁ : r₁.Plain) (h₂ : r₂.Plain)
    (hapart : ∀ d ∈ r₁.dests, ∀ e ∈ r₂.dests, Apart d e) (t : Site) :
    (applyDests E r₁ t >>= applyDests E r₂) = (applyDests E r₂ t >>= applyDests E r₁) := by
  have hd : ∀ r, applyDests E r = fun t ↦ r.steps.foldlM (act E r) t := fun r ↦
    funext (applyDests_eq_steps E r)
  rw [hd r₁, hd r₂]
  refine foldlM_foldlM_comm _ _ (fun a ha b hb s ↦ ?_) t
  exact (updatesAt_act h₁ ha).comm (updatesAt_act h₂ hb)
    (hapart _ (place_mem_dests ha) _ (place_mem_dests hb)) s

theorem updatesAt_touchNojekyll : UpdatesAt false [nojekyllName] touchNojekyll where
  frame {t t'} h q hq := by
    refine ⟨fun hc ↦ absurd hc (by simp), fun _ ↦ touchNojekyll_frame h ?_⟩
    rintro rfl
    exact hq (List.prefix_refl _)
  clear _ hc := absurd hc (by simp)
  congr {t u t'} hag _ h := by
    have hget : t.get [nojekyllName] = u.get [nojekyllName] := hag _ (List.prefix_refl _)
    have hhas : t.has [nojekyllName] = u.has [nojekyllName] := by rw [Tree.has, Tree.has, hget]
    rw [touchNojekyll, hhas] at h
    rw [touchNojekyll]
    split at h
    · rename_i hu
      cases h
      exact ⟨u, if_pos hu, hag⟩
    · rename_i hu
      have hs : (u.write [nojekyllName] (.bytes [])).isSome = true := by
        rw [Tree.write_isSome, Tree.writable_iff]
        refine ⟨by simp, u.root, fun hc ↦ hu ?_⟩
        rw [Tree.has, hc]
        rfl
      obtain ⟨u', hu'⟩ := Option.isSome_iff_exists.mp hs
      refine ⟨u', by rw [if_neg hu, hu'], fun q hq ↦ ?_⟩
      rw [Tree.get_write h, Tree.get_write hu', hag q hq]

theorem touchNojekyll_has {t t' : Site} (h : touchNojekyll t = some t') :
    t'.has [nojekyllName] = true := by
  rw [touchNojekyll] at h
  split at h
  · rename_i ht; cases h; exact ht
  · rw [Tree.has, Tree.get_write h, if_pos rfl]
    rfl

theorem touchNojekyll_of_has {t : Site} (h : t.has [nojekyllName] = true) :
    touchNojekyll t = some t := if_pos h

/-- It does not matter when `.nojekyll` is touched. -/
theorem applyDests_touchNojekyll {E : Env} {r : Request} (hr : r.Plain)
    (hn : ∀ d ∈ r.dests, Apart d [nojekyllName]) (t : Site) :
    (touchNojekyll t >>= applyDests E r) = (applyDests E r t >>= touchNojekyll) := by
  have hd : applyDests E r = fun t ↦ r.steps.foldlM (act E r) t := funext (applyDests_eq_steps E r)
  rw [hd]
  refine foldlM_comm _ (fun a ha s ↦ ?_) t
  exact updatesAt_touchNojekyll.comm (updatesAt_act hr ha) (hn _ (place_mem_dests ha)).symm s

/-! ## Directories called `index.html` -/

theorem concat_indexName_ne (x : Path) : x ++ [indexName] ≠ [nojekyllName] := by
  intro hc
  have hlast := congrArg List.getLast? hc
  rw [List.getLast?_concat] at hlast
  revert hlast
  decide

/-- A directory stays unless a destination holds it. -/
theorem foldlM_act_dir {E : Env} {r : Request} {as : List (Str ⊕ Str)} {t t' : Site} {x : Path}
    (h : as.foldlM (act E r) t = some t') (hx : t.get x = some .dir)
    (hd : ∀ a ∈ as, ¬place a <+: x) : t'.get x = some .dir := by
  induction as generalizing t with
  | nil => cases h; exact hx
  | cons a as ih =>
    rw [List.foldlM_cons] at h
    obtain ⟨u, hu, h⟩ := Option.bind_eq_some_iff.mp h
    refine ih h ?_ fun b hb ↦ hd b (List.mem_cons_of_mem a hb)
    exact (staysAt_act E r a).dir_of_dir hu hx (hd a List.mem_cons_self)

/-- What a request finds beside its destinations it leaves as it was. -/
theorem foldlM_act_get {E : Env} {r : Request} {as : List (Str ⊕ Str)} {t t' : Site} {x : Path}
    (h : as.foldlM (act E r) t = some t') (hd : ∀ a ∈ as, Apart (place a) x) :
    t'.get x = t.get x := by
  induction as generalizing t with
  | nil => cases h; rfl
  | cons a as ih =>
    rw [List.foldlM_cons] at h
    obtain ⟨u, hu, h⟩ := Option.bind_eq_some_iff.mp h
    rw [ih h fun b hb ↦ hd b (List.mem_cons_of_mem a hb)]
    exact ((staysAt_act E r a).agreeBelow (hd a List.mem_cons_self) hu x
      (List.prefix_refl x)).symm

/-- **A directory the first request makes is still there after the second.** -/
theorem dir_survives {E : Env} {r₁ r₂ : Request}
    (hapart : ∀ d ∈ r₁.dests, ∀ e ∈ r₂.dests, Apart d e) {t u w : Site} {x : Path}
    (hu : applyDests E r₁ t = some u) (hw : applyDests E r₂ u = some w)
    (ht : t.get x ≠ some .dir) (hx : u.get x = some .dir) : w.get x = some .dir := by
  rw [applyDests_eq_steps] at hu hw
  have hmade : ∃ a ∈ r₁.steps, ¬Apart (place a) x := by
    by_contra hc
    push Not at hc
    rw [foldlM_act_get hu hc] at hx
    exact ht hx
  obtain ⟨a, ha, hax⟩ := hmade
  refine foldlM_act_dir hw hx fun b hb hbx ↦ ?_
  have hab := hapart _ (place_mem_dests ha) _ (place_mem_dests hb)
  have hcomp : place a <+: x ∨ x <+: place a := by
    rw [Apart] at hax
    tauto
  rcases hcomp with hc | hc
  · exact hab.not_below hc hbx
  · exact hab.2 (hbx.trans hc)

/-- A request that publishes below an `index.html` leaves such a directory. -/
theorem exists_index_dir {E : Env} {r : Request} (hapart : r.dests.Pairwise Apart)
    {pair : Str} (hp : pair ∈ r.accepted) (hi : indexName ∈ destOf pair) {t u : Site}
    (hu : applyDests E r t = some u) :
    ∃ x : Path, x ++ [indexName] <+: destOf pair ∧ u.get (x ++ [indexName]) = some .dir := by
  obtain ⟨x, y, hxy⟩ := List.append_of_mem hi
  have hpre : x ++ [indexName] <+: destOf pair := ⟨y, by rw [hxy]; simp⟩
  refine ⟨x, hpre, ?_⟩
  have hmem : (.inr pair : Str ⊕ Str) ∈ r.steps :=
    List.mem_append_right _ (List.mem_map_of_mem hp)
  obtain ⟨as, bs, hsteps⟩ := List.append_of_mem hmem
  rw [applyDests_eq_steps, hsteps, List.foldlM_append] at hu
  obtain ⟨v, -, hu⟩ := Option.bind_eq_some_iff.mp hu
  rw [List.foldlM_cons] at hu
  obtain ⟨w, hw, hu⟩ := Option.bind_eq_some_iff.mp hu
  have hbs : ∀ b ∈ bs, Apart (destOf pair) (place b) := by
    rw [← map_place_steps, hsteps, List.map_append, List.map_cons, List.pairwise_append,
      List.pairwise_cons] at hapart
    exact fun b hb ↦ hapart.2.1.1 _ (List.mem_map_of_mem hb)
  refine foldlM_act_dir hu (publish_dir hw hpre) fun b hb hbx ↦ ?_
  exact (hbs b hb).2 (hbx.trans hpre)

/-! ## Published keys -/

/-- The key files of a request. -/
def keyFiles (k : Site) : List Str := (globAll k []).filter fun f ↦ k.isFile [f]

/-- The keys of the request are on the site, with the same bytes. -/
def KeysUnchanged (T : Tools) (r : Request) (t : Site) : Prop :=
  ∀ k, r.keys = some k → ∀ f ∈ keyFiles k,
    (t.read [keysName, f]).map (Content.text T) = (k.read [f]).map (Content.text T)

/-- So is their stamp, and none of them is taken for a page. -/
structure KeysPublished (T : Tools) (r : Request) (t : Site) : Prop where
  same : KeysUnchanged T r t
  stamp : r.keys ≠ none → t.isFile [keysName, publishedName] = true
  page : ∀ k, r.keys = some k → indexName ∉ keyFiles k

/-- The destination holds none of the files the keys of the request are compared with. -/
def Request.SparesKeys (r : Request) (d : Path) : Prop :=
  ∀ k, r.keys = some k → ∀ f ∈ publishedName :: keyFiles k, ¬d <+: [keysName, f]

/-- A key that is on the site is not copied. -/
theorem foldlM_overlayKey_of_same {T : Tools} {k t : Site} {fs : List Str}
    (hfs : ∀ f ∈ fs, k.isFile [f] = true ∧
      (t.read [keysName, f]).map (Content.text T) = (k.read [f]).map (Content.text T)) :
    fs.foldlM (overlayKey T k) (t, false) = some (t, false) := by
  induction fs with
  | nil => rfl
  | cons f fs ih =>
    obtain ⟨hfile, hsame⟩ := hfs f List.mem_cons_self
    have hone : overlayKey T k (t, false) f = some (t, false) := by
      obtain ⟨c, hc⟩ := Tree.isFile_iff.mp hfile
      have hread : k.read [f] = some c := Tree.read_eq_some.mpr hc
      rw [hread] at hsame
      rw [overlayKey, hread]
      exact if_pos hsame
    rw [List.foldlM_cons, hone]
    exact ih fun g hg ↦ hfs g (List.mem_cons_of_mem f hg)

/-- Keys that are there, next to a stamp, are left alone. -/
theorem overlayKeys_of_unchanged {E : Env} {r : Request} {t : Site}
    (h : KeysUnchanged E.tools r t)
    (hstamp : r.keys ≠ none → t.has [keysName, publishedName] = true) :
    overlayKeys E r t = some t := by
  rw [overlayKeys]
  cases hk : r.keys with
  | none => rfl
  | some k =>
    have hhas := hstamp (by rw [hk]; simp)
    have hdir : t.get [keysName] = some .dir := t.parent_dir [keysName] publishedName
      (Option.isSome_iff_ne_none.mp hhas)
    have hfold : (keyFiles k).foldlM (overlayKey E.tools k) (t, false) = some (t, false) :=
      foldlM_overlayKey_of_same fun f hf ↦ ⟨(List.mem_filter.mp hf).2, h k hk f hf⟩
    show (t.mkdirs [keysName] >>= _) = _
    rw [Tree.mkdirs_of_dir hdir]
    show ((keyFiles k).foldlM (overlayKey E.tools k) (t, false) >>= _) = _
    rw [hfold]
    show (if false || !t.has [keysName, publishedName] then _ else _) = _
    rw [hhas]
    rfl

/-- Published keys are left alone. -/
theorem overlayKeys_of_published {E : Env} {r : Request} {t : Site}
    (h : KeysPublished E.tools r t) : overlayKeys E r t = some t := by
  refine overlayKeys_of_unchanged h.same fun hk ↦ ?_
  obtain ⟨c, hc⟩ := Tree.isFile_iff.mp (h.stamp hk)
  rw [Tree.has, hc]
  rfl

/-- A site that has the same files under `keys` has the keys published too. -/
theorem KeysPublished.of_files {T : Tools} {r : Request} {t u : Site} (h : KeysPublished T r t)
    (hfile : ∀ k, r.keys = some k → ∀ f ∈ publishedName :: keyFiles k, ∀ c,
      u.get [keysName, f] = some (.file c) ↔ t.get [keysName, f] = some (.file c)) :
    KeysPublished T r u where
  same k hk f hf := by
    rw [← h.same k hk f hf]
    refine congrArg _ (Option.ext fun c ↦ ?_)
    rw [Tree.read_eq_some, Tree.read_eq_some]
    exact hfile k hk f (List.mem_cons_of_mem _ hf) c
  stamp hk := by
    obtain ⟨k, hk'⟩ := Option.ne_none_iff_exists'.mp hk
    obtain ⟨c, hc⟩ := Tree.isFile_iff.mp (h.stamp hk)
    exact Tree.isFile_iff.mpr ⟨c, (hfile k hk' _ List.mem_cons_self c).mpr hc⟩
  page := h.page

theorem KeysPublished.applyDests {E : Env} {r r' : Request} {t u : Site}
    (h : KeysPublished E.tools r t) (hd : ∀ d ∈ r'.dests, r.SparesKeys d)
    (hu : applyDests E r' t = some u) : KeysPublished E.tools r u := by
  refine h.of_files fun k hk f hf c ↦ applyDests_file_iff hu (fun d hdr ↦ ?_) (fun p hp ↦ ?_) c
  · exact hd _ (List.mem_append_left _ (List.mem_map_of_mem hdr)) k hk f hf
  · exact hd _ (List.mem_append_right _ (List.mem_map_of_mem hp)) k hk f hf

theorem KeysPublished.touchNojekyll {T : Tools} {r : Request} {t u : Site}
    (h : KeysPublished T r t) (hu : touchNojekyll t = some u) : KeysPublished T r u := by
  refine h.of_files fun k hk f hf c ↦ ?_
  rw [touchNojekyll_frame hu (by simp)]

theorem KeysPublished.sameButIndex {T : Tools} {r : Request} {t u : Site}
    (h : KeysPublished T r t) (hu : SameButIndex t u) : KeysPublished T r u := by
  refine h.of_files fun k hk f hf c ↦ ?_
  have hf' : f ≠ indexName := by
    rcases List.mem_cons.mp hf with rfl | hf
    · decide
    · rintro rfl
      exact h.page k hk hf
  rw [hu.get_eq [keysName, f] (by simpa using hf')]

/-! ## Either order -/

/-- What the requests have to do with each other, and with the files the script keeps for itself. -/
structure Independent (T : Tools) (r₁ r₂ : Request) (t : Site) : Prop where
  /-- No two destinations are the same or nested. -/
  apart : (r₁.dests ++ r₂.dests).Pairwise Apart
  /-- The keys are published, with their stamp. -/
  keys₁ : KeysPublished T r₁ t
  keys₂ : KeysPublished T r₂ t
  /-- No destination replaces them. -/
  spares : ∀ d ∈ r₁.dests ++ r₂.dests, r₁.SparesKeys d ∧ r₂.SparesKeys d
  /-- No destination has to do with `.nojekyll`. -/
  nojekyll : ∀ d ∈ r₁.dests ++ r₂.dests, Apart d [nojekyllName]
  plain₁ : r₁.Plain
  plain₂ : r₂.Plain
  /-- No directory of the site is called `index.html`. -/
  noIndexDir : NoIndexDir t

theorem Independent.symm {T : Tools} {r₁ r₂ : Request} {t : Site} (h : Independent T r₁ r₂ t) :
    Independent T r₂ r₁ t where
  apart := (List.pairwise_append_comm fun h ↦ Apart.symm h).mp h.apart
  keys₁ := h.keys₂
  keys₂ := h.keys₁
  spares d hd := (h.spares d (List.mem_append.mpr (List.mem_append.mp hd).symm)).symm
  nojekyll d hd := h.nojekyll d (List.mem_append.mpr (List.mem_append.mp hd).symm)
  plain₁ := h.plain₂
  plain₂ := h.plain₁
  noIndexDir := h.noIndexDir

/-- What comes after the destinations if the keys are published. -/
def settle (E : Env) (t : Site) : Option Site :=
  touchNojekyll t >>= writeIndexes E.tools E.siteUrl

theorem applyChanges_of_published {E : Env} {r : Request} {t : Site}
    (h : KeysPublished E.tools r t) (hd : ∀ d ∈ r.dests, r.SparesKeys d) :
    applyChanges E r t = applyDests E r t >>= settle E := by
  rw [applyChanges]
  cases hu : applyDests E r t with
  | none => rfl
  | some u =>
    show (overlayKeys E r u >>= _) = _
    rw [overlayKeys_of_published (h.applyDests hd hu)]
    rfl

section Order

variable {E : Env} {r₁ r₂ : Request} {t : Site} (h : Independent E.tools r₁ r₂ t)
include h

theorem Independent.cross : ∀ d ∈ r₁.dests, ∀ e ∈ r₂.dests, Apart d e :=
  (List.pairwise_append.mp h.apart).2.2

theorem Independent.first_eq : applyChanges E r₁ t = applyDests E r₁ t >>= settle E :=
  applyChanges_of_published h.keys₁ fun d hd ↦ (h.spares d (List.mem_append_left _ hd)).1

/-- The second request on what the first one left. -/
theorem Independent.second_eq {u v t₁ : Site} (hu : applyDests E r₁ t = some u)
    (hv : touchNojekyll u = some v) (ht₁ : writeIndexes E.tools E.siteUrl v = some t₁) :
    applyChanges E r₂ t₁ = applyDests E r₂ t₁ >>= settle E := by
  refine applyChanges_of_published ?_ fun d hd ↦ (h.spares d (List.mem_append_right _ hd)).2
  refine KeysPublished.sameButIndex ?_ (sameButIndex_writeIndexes ht₁)
  refine KeysPublished.touchNojekyll ?_ hv
  exact h.keys₂.applyDests (fun d hd ↦ (h.spares d (List.mem_append_left _ hd)).2) hu

/-- One run after the other, as if the pages had not been written in between. -/
theorem Independent.pages_skipped (hi : ∀ p ∈ r₂.accepted, indexName ∉ destOf p) {u s : Site}
    (hu : applyDests E r₁ t = some u) (hs : (settle E u >>= applyChanges E r₂) = some s) :
    (applyDests E r₂ u >>= settle E) = some s := by
  have hn₂ : ∀ d ∈ r₂.dests, Apart d [nojekyllName] := fun d hd ↦
    h.nojekyll d (List.mem_append_right _ hd)
  obtain ⟨t₁, ht₁, hs⟩ := Option.bind_eq_some_iff.mp hs
  obtain ⟨v, hv, ht₁⟩ := Option.bind_eq_some_iff.mp ht₁
  rw [h.second_eq hu hv ht₁] at hs
  obtain ⟨w₁, hw₁, hs⟩ := Option.bind_eq_some_iff.mp hs
  obtain ⟨x₁, hx₁, hs⟩ := Option.bind_eq_some_iff.mp hs
  have hsame := (sameButIndex_writeIndexes ht₁).symm
  obtain ⟨w, hw, hww⟩ := (related_applyDests E r₂ hi).exists_of_some hsame hw₁
  obtain ⟨x, hx, hxx⟩ := related_touchNojekyll.exists_of_some hww hx₁
  rw [hxx.writeIndexes_eq] at hs
  -- on `v` the file is touched already, so nothing happens the second time
  have hboth : (touchNojekyll u >>= applyDests E r₂) = some w := by rw [hv]; exact hw
  rw [applyDests_touchNojekyll h.plain₂ hn₂ u] at hboth
  obtain ⟨w₀, hw₀, hw₀'⟩ := Option.bind_eq_some_iff.mp hboth
  have hxw : x = w := by
    rw [touchNojekyll_of_has (touchNojekyll_has hw₀')] at hx
    exact (Option.some.inj hx).symm
  rw [hw₀]
  show (touchNojekyll w₀ >>= _) = some s
  rw [hw₀', ← hxw]
  exact hs

/-- And the other way round: the pages can be written in between. -/
theorem Independent.pages_between (hi : ∀ p ∈ r₂.accepted, indexName ∉ destOf p) {u s : Site}
    (hu : applyDests E r₁ t = some u) (hs : (applyDests E r₂ u >>= settle E) = some s) :
    (settle E u >>= applyChanges E r₂) = some s := by
  have hn₂ : ∀ d ∈ r₂.dests, Apart d [nojekyllName] := fun d hd ↦
    h.nojekyll d (List.mem_append_right _ hd)
  obtain ⟨w₀, hw₀, hs⟩ := Option.bind_eq_some_iff.mp hs
  obtain ⟨x, hx, hs⟩ := Option.bind_eq_some_iff.mp hs
  have hboth : (touchNojekyll u >>= applyDests E r₂) = some x := by
    rw [applyDests_touchNojekyll h.plain₂ hn₂ u, hw₀]
    exact hx
  obtain ⟨v, hv, hvx⟩ := Option.bind_eq_some_iff.mp hboth
  have hno : NoIndexDir v := by
    intro d hd
    have hne := concat_indexName_ne d
    rw [touchNojekyll_frame hv hne] at hd
    have hdw := dir_survives h.cross hu hw₀ (h.noIndexDir d) hd
    rw [← touchNojekyll_frame hx hne] at hdw
    exact writeIndexes_isSome.mp (by rw [hs]; rfl) d hdw
  have hpages : (writeIndexes E.tools E.siteUrl v).isSome = true := writeIndexes_isSome.mpr hno
  obtain ⟨t₁, ht₁⟩ := Option.isSome_iff_exists.mp hpages
  obtain ⟨x₁, hx₁, hxx⟩ := (related_applyDests E r₂ hi).exists_of_some
    (sameButIndex_writeIndexes ht₁) hvx
  obtain ⟨y₁, hy₁, hyy⟩ := related_touchNojekyll.exists_of_some hxx
    (touchNojekyll_of_has (touchNojekyll_has hx))
  rw [hyy.writeIndexes_eq] at hs
  show ((touchNojekyll u >>= writeIndexes E.tools E.siteUrl) >>= applyChanges E r₂) = some s
  rw [hv]
  show (writeIndexes E.tools E.siteUrl v >>= applyChanges E r₂) = some s
  rw [ht₁]
  show applyChanges E r₂ t₁ = some s
  rw [h.second_eq hu hv ht₁, hx₁]
  show (touchNojekyll x₁ >>= _) = some s
  rw [hy₁]
  exact hs

/-- The pages the first request wrote make no difference in the end. -/
theorem Independent.both_eq (hi : ∀ p ∈ r₂.accepted, indexName ∉ destOf p) :
    (applyChanges E r₁ t >>= applyChanges E r₂) =
      (applyDests E r₁ t >>= fun u ↦ applyDests E r₂ u >>= settle E) := by
  rw [h.first_eq]
  cases hu : applyDests E r₁ t with
  | none => rfl
  | some u =>
    refine Option.ext fun s ↦ ?_
    exact ⟨h.pages_skipped hi hu, h.pages_between hi hu⟩

end Order

/-- A request that publishes below an `index.html` ends here. -/
theorem settle_eq_none {E : Env} {r : Request} (hapart : r.dests.Pairwise Apart)
    {pair : Str} (hp : pair ∈ r.accepted) (hi : indexName ∈ destOf pair) (t : Site) :
    (applyDests E r t >>= settle E) = none := by
  cases hu : applyDests E r t with
  | none => rfl
  | some u =>
    obtain ⟨x, -, hx⟩ := exists_index_dir hapart hp hi hu
    show (touchNojekyll u >>= writeIndexes E.tools E.siteUrl) = none
    cases hv : touchNojekyll u with
    | none => rfl
    | some v =>
      show writeIndexes E.tools E.siteUrl v = none
      rw [← Option.not_isSome_iff_eq_none, writeIndexes_isSome]
      intro hno
      refine hno x ?_
      rw [touchNojekyll_frame hv (concat_indexName_ne x), hx]

theorem Independent.none_of_index {E : Env} {r₁ r₂ : Request} {t : Site}
    (h : Independent E.tools r₁ r₂ t) {pair : Str} (hp : pair ∈ r₁.accepted)
    (hi : indexName ∈ destOf pair) :
    (applyChanges E r₁ t >>= applyChanges E r₂) = none ∧
      (applyChanges E r₂ t >>= applyChanges E r₁) = none := by
  have hnone := settle_eq_none (E := E) (List.pairwise_append.mp h.apart).1 hp hi
  refine ⟨by rw [h.first_eq, hnone]; rfl, ?_⟩
  refine Option.eq_none_iff_forall_ne_some.mpr fun s hs ↦ ?_
  obtain ⟨t₂, ht₂, hs⟩ := Option.bind_eq_some_iff.mp hs
  rw [h.symm.first_eq] at ht₂
  obtain ⟨u, hu, ht₂⟩ := Option.bind_eq_some_iff.mp ht₂
  obtain ⟨v, hv, ht₂⟩ := Option.bind_eq_some_iff.mp ht₂
  rw [h.symm.second_eq hu hv ht₂, hnone] at hs
  cases hs

/-- **Who wins a race does not matter.**  Two requests with destinations of their own, whose keys
are published, give the same site in either order — or fail in either order. -/
theorem applyChanges_comm (E : Env) (r₁ r₂ : Request) (t : Site)
    (h : Independent E.tools r₁ r₂ t) :
    (applyChanges E r₁ t >>= applyChanges E r₂) = (applyChanges E r₂ t >>= applyChanges E r₁) := by
  by_cases h₁ : ∃ p ∈ r₁.accepted, indexName ∈ destOf p
  · obtain ⟨p, hp, hi⟩ := h₁
    rw [(h.none_of_index hp hi).1, (h.none_of_index hp hi).2]
  by_cases h₂ : ∃ p ∈ r₂.accepted, indexName ∈ destOf p
  · obtain ⟨p, hp, hi⟩ := h₂
    rw [(h.symm.none_of_index hp hi).1, (h.symm.none_of_index hp hi).2]
  push Not at h₁ h₂
  rw [h.both_eq h₂, h.symm.both_eq h₁, ← bind_assoc, ← bind_assoc,
    applyDests_comm h.plain₁ h.plain₂ h.cross]

/-! ### Where the order does matter -/

/-- A host tool, together with a key. -/
def keyRequest (ch : Str) : Request :=
  { toolRequest ch with keys := some (oneFile "feed.pem".toList "k".toList) }

/-- A site with the key, and with the stamp of `keys/` or without. -/
def keySite (stamped : Bool) : Site :=
  (((Tree.empty : Site).mkdirs [keysName]).bind fun t ↦
    (t.write [keysName, "feed.pem".toList] (.bytes "k".toList)).bind fun t ↦
      if stamped = true then
        t.write [keysName, publishedName] (.stamp (toolRequest "main".toList).stamp)
      else some t).getD Tree.empty

/-- The two places they go to. -/
theorem keyRequest_dests :
    (keyRequest "main".toList).dests ++ (keyRequest "stable".toList).dests =
      ["tools/main/x86_64", "tools/stable/x86_64"].map fun d ↦ components d.toList := by
  decide +kernel

theorem keyFiles_feed :
    keyFiles (oneFile "feed.pem".toList "k".toList) = ["feed.pem".toList] := by
  decide +kernel

theorem keysUnchanged_keyRequest (ch : Str) (stamped : Bool) :
    KeysUnchanged sampleTools (keyRequest ch) (keySite stamped) := by
  rintro k ⟨⟩ f hf
  rw [keyFiles_feed, List.mem_singleton] at hf
  rw [hf]
  revert stamped
  decide +kernel

theorem applyChanges_comm_tools :
    Independent sampleTools (keyRequest "main".toList) (keyRequest "stable".toList) (keySite true) ∧
      (applyChanges sampleEnv (keyRequest "main".toList) (keySite true) >>=
          applyChanges sampleEnv (keyRequest "stable".toList)) =
        (applyChanges sampleEnv (keyRequest "stable".toList) (keySite true) >>=
          applyChanges sampleEnv (keyRequest "main".toList)) := by
  have hplain : ∀ ch, (keyRequest ch).Plain := by
    intro ch p hp hk
    have hone : keepFor (keyRequest ch).keepRules (afterFirst '=' p) = 1 := rfl
    rw [hone] at hk
    exact absurd hk (Nat.lt_irrefl 1)
  have hkeys : ∀ ch, KeysPublished sampleTools (keyRequest ch) (keySite true) := by
    intro ch
    refine ⟨keysUnchanged_keyRequest ch true, fun _ ↦ by decide +kernel, ?_⟩
    rintro k ⟨⟩
    rw [keyFiles_feed]
    decide
  have hspares : ∀ ch, ∀ d ∈ (keyRequest "main".toList).dests ++ (keyRequest "stable".toList).dests,
      (keyRequest ch).SparesKeys d := by
    rintro ch d hd k ⟨⟩
    rw [keyFiles_feed]
    rw [keyRequest_dests] at hd
    revert d
    decide +kernel
  have hpages : (writeIndexes sampleTools [] (keySite true)).isSome = true := by decide +kernel
  have h : Independent sampleTools (keyRequest "main".toList) (keyRequest "stable".toList)
      (keySite true) :=
    { apart := by rw [keyRequest_dests]; decide +kernel
      keys₁ := hkeys _
      keys₂ := hkeys _
      spares := fun d hd ↦ ⟨hspares _ d hd, hspares _ d hd⟩
      nojekyll := by rw [keyRequest_dests]; decide +kernel
      plain₁ := hplain _
      plain₂ := hplain _
      noIndexDir := writeIndexes_isSome.mp hpages }
  exact ⟨h, applyChanges_comm sampleEnv _ _ _ h⟩

/-- Two requests with destinations of their own and unchanged keys, and yet the order shows. -/
def OrderMatters (r₁ r₂ : Request) (t : Site) : Prop :=
  (r₁.dests ++ r₂.dests).Pairwise Apart ∧ KeysUnchanged sampleTools r₁ t ∧
    KeysUnchanged sampleTools r₂ t ∧
    (applyChanges sampleEnv r₁ t >>= applyChanges sampleEnv r₂) ≠
      (applyChanges sampleEnv r₂ t >>= applyChanges sampleEnv r₁)

/-- `--remove keys` -/
def removeKeys : Request :=
  { toolRequest "main".toList with removes := [keysName], accepted := [] }

/-- A site with a directory called `index.html` where the tool of `main` goes. -/
def indexDirSite : Site :=
  ((Tree.empty : Site).mkdirs (components "tools/main/x86_64/index.html".toList)).getD Tree.empty

/-- Publishing a version of a package. -/
def versionRequest (dest : String) : Request :=
  packageRequest dest [("a-2-r1.apk", "y")] "2026-10-05T10:00:00Z"

/-- The older version of its package, at a place with a pattern in its name. -/
def patternSite : Site :=
  (((Tree.empty : Site).mkdirs ["main".toList, "2[5]".toList]).bind fun t ↦
    t.write ["main".toList, "2[5]".toList, "a-1-r1.apk".toList] (.bytes "x".toList)).getD Tree.empty

/-- **Five ways to see who came first.**  `keys/` gets the stamp of whoever finds it without; keys
that are removed come back if the other request brings them; a directory `index.html` ends one
request unless the other has removed it; `.nojekyll` is in the way of what lies below it, once it is
there; and in a destination with a pattern in its name another destination decides which versions
are kept. -/
theorem orderMatters_own_files :
    OrderMatters (keyRequest "main".toList) (keyRequest "stable".toList) (keySite false) ∧
      OrderMatters removeKeys (keyRequest "stable".toList) (keySite true) ∧
      OrderMatters (toolRequest "main".toList) (toolRequest "stable".toList) indexDirSite ∧
      OrderMatters (versionRequest ".nojekyll/25") (toolRequest "stable".toList) Tree.empty ∧
      OrderMatters (versionRequest "main/2[5]") (versionRequest "main/25") patternSite := by
  have hnone : ∀ {r : Request} {t : Site}, r.keys = none → KeysUnchanged sampleTools r t :=
    fun hr k hk ↦ by rw [hr] at hk; cases hk
  refine ⟨⟨by rw [keyRequest_dests]; decide +kernel, keysUnchanged_keyRequest _ _,
      keysUnchanged_keyRequest _ _, fun hc ↦ ?_⟩,
    ⟨by decide +kernel, hnone rfl, keysUnchanged_keyRequest _ _, fun hc ↦ ?_⟩,
    ⟨by decide +kernel, hnone rfl, hnone rfl, fun hc ↦ ?_⟩,
    ⟨by decide +kernel, hnone rfl, hnone rfl, fun hc ↦ ?_⟩,
    ⟨by decide +kernel, hnone rfl, hnone rfl, fun hc ↦ ?_⟩⟩
  · have hstamp := congrArg (Option.map fun t ↦ t.read [keysName, publishedName]) hc
    revert hstamp
    decide +kernel
  · have hkeys := congrArg (Option.map fun t ↦ t.isDir [keysName]) hc
    revert hkeys
    decide +kernel
  · have hsome := congrArg Option.isSome hc
    revert hsome
    decide +kernel
  · have hsome := congrArg Option.isSome hc
    revert hsome
    decide +kernel
  · have hold := congrArg
      (Option.map fun t ↦ t.isFile ["main".toList, "2[5]".toList, "a-1-r1.apk".toList]) hc
    revert hold
    decide +kernel

end OpenwrtFeed
