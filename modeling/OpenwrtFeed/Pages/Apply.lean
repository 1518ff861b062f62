import OpenwrtFeed.Lib.Update
import OpenwrtFeed.Pages.Retention
import OpenwrtFeed.Pages.Index

/-!
# Applying a request to the site

`apply_changes` turns the site that was read from the branch into the one that is pushed: it
removes what is to be removed, replaces the destination of each accepted pair, overlays the keys and
writes the directory indexes.  A destination that keeps several versions goes through more than a
replacement: its old package files are put back next to the fresh ones (`restore`) and the result is
pruned and indexed again (`retain`).

Everything is in `Option`: `none` is the script ending under `set -e`, with nothing pushed.

The second half of the file says where each step works.  `updatesAt_publish` is the result: a pair
changes its destination and nothing else, and what it does there depends on nothing else.  The one
proviso is in `restoreOne`: whether an old file comes back is decided by a *pattern* that contains
the destination (`compgen -G "$SITE/$dest/$pname-*.apk"`), so with pattern characters in the name of
a destination the answer depends on other directories too.
-/

set_option autoImplicit false

namespace OpenwrtFeed

open Shell DirTree

/-! ## Requests -/

/-- A validated call of `publish-pages.sh`, and the directories its sources name. -/
structure Request where
  /-- `REMOVE_OK` -/
  removes : List Str
  /-- `ACCEPTED`: `absolute-src=dest` -/
  accepted : List Str
  /-- The `--keep` rules: pattern and number. -/
  keepRules : List (Str × Nat)
  /-- The `--keys` directory. -/
  keys : Option Site
  /-- `NOW`, `CHANNEL`, `STAMP_SHA` and `RUN_ID`. -/
  stamp : Stamp
  /-- There is a signing key. -/
  signed : Bool
  /-- `MSG` -/
  msg : Str
  /-- The directory at an absolute path. -/
  source : Str → Option Site

/-- What all runs have in common: the programs they call and the address of the site. -/
structure Env where
  tools : Tools
  siteUrl : Str

/-- `keep_for` -/
def keepFor (rules : List (Str × Nat)) (dest : Str) : Nat :=
  ((rules.find? fun r ↦ Glob.accepts (Glob.parse r.1) dest).map Prod.snd).getD 1

/-! ## Putting old versions back -/

/-- One component of a pathname matches; a leading dot has to be matched by a dot. -/
def nameMatches (pat n : Str) : Bool :=
  Glob.accepts (Glob.parse pat) n && decide (n.head? = some '.' → pat.head? = some '.')

/-- `compgen -G`: something on the site matches the pattern. -/
def globExists (t : Site) (pats : List Str) : Bool :=
  decide (∃ p ∈ t.dom, p.length = pats.length ∧ ∀ x ∈ pats.zip p, nameMatches x.1 x.2 = true)

/-- The pattern an old file's package is looked for with. -/
def siblings (n : Str) : Str := pnameOf n ++ "-*.apk".toList

/-- `*.apk` in `$hold`: what the destination had under such a name.  The destination itself is not
called so. -/
def held (old : Site) (d : Path) : List Str := (globAll old d).filter fun n ↦ apkExt <:+ n

/-- One round of the loop over `$hold`: the old file stays away if the build has one of the same
name, or none of its package. -/
def restoreOne (old : Site) (d : Path) (t : Site) (n : Str) : Option Site :=
  if t.has (d ++ [n]) = true then some t
  else if globExists t (d ++ [siblings n]) = true then t.takeFrom old (d ++ [n])
  else some t

/-- The old `versions.json` comes along unless the build brought one. -/
def restoreVersions (old : Site) (d : Path) (t : Site) : Option Site :=
  match old.read (d ++ [versionsName]) with
  | some c => if t.isFile (d ++ [versionsName]) = true then some t
    else t.write (d ++ [versionsName]) c
  | none => some t

/-- Putting back what `$hold` has. -/
def restore (old : Site) (d : Path) (t : Site) : Option Site := do
  let t ← (held old d).foldlM (restoreOne old d) t
  restoreVersions old d t

/-! ## `apply_changes` -/

/-- What happens to a destination that keeps `n` versions once the build is in place. -/
def keepVersions (E : Env) (r : Request) (n : Nat) (arch : Str) (old : Site) (d : Path) (t : Site) :
    Option Site :=
  (if old.isDir d = true then restore old d t else some t) >>=
    retain E.tools n arch r.signed r.stamp d

/-- The rest of an accepted pair once the build is in place: old versions if the destination keeps
any, and the stamp. -/
def finish (E : Env) (r : Request) (dest : Str) (old u : Site) : Option Site :=
  let n := keepFor r.keepRules dest
  (if 1 < n then keepVersions E r n (afterLast '/' dest) old (components dest) u else some u) >>=
    fun u ↦ u.write (components dest ++ [publishedName]) (.stamp r.stamp)

/-- Replacing `dest` with what is in `src`. -/
def publishTo (E : Env) (r : Request) (t : Site) (src dest : Str) : Option Site := do
  let s ← r.source src
  let u ← replace t (components dest) s
  finish E r dest t u

/-- One accepted pair, split again at the first equals sign. -/
def publish (E : Env) (r : Request) (t : Site) (pair : Str) : Option Site :=
  publishTo E r t (beforeFirst '=' pair) (afterFirst '=' pair)

/-- `--remove` -/
def remove (t : Site) (d : Str) : Site :=
  if t.has (components d) = true then t.rm (components d) else t

/-- One key file: left alone if it is there with the same bytes.  The flag is `keys_changed`. -/
def overlayKey (T : Tools) (k : Site) (s : Site × Bool) (f : Str) : Option (Site × Bool) := do
  let c ← k.read [f]
  if (s.1.read [keysName, f]).map (Content.text T) = some (c.text T) then some s
  else do
    let t ← s.1.write [keysName, f] c
    some (t, true)

/-- `--keys` -/
def overlayKeys (E : Env) (r : Request) (t : Site) : Option Site :=
  match r.keys with
  | none => some t
  | some k => do
    let t ← t.mkdirs [keysName]
    let s ← ((globAll k []).filter fun f ↦ k.isFile [f]).foldlM (overlayKey E.tools k) (t, false)
    if s.2 || !s.1.has [keysName, publishedName] then
      s.1.write [keysName, publishedName] (.stamp r.stamp)
    else some s.1

/-- `touch .nojekyll` -/
def touchNojekyll (t : Site) : Option Site :=
  if t.has [nojekyllName] = true then some t else t.write [nojekyllName] (.bytes [])

/-- The part of `apply_changes` that is about destinations. -/
def applyDests (E : Env) (r : Request) (t : Site) : Option Site :=
  r.accepted.foldlM (publish E r) (r.removes.foldl remove t)

/-- `apply_changes` -/
def applyChanges (E : Env) (r : Request) (t : Site) : Option Site := do
  let t ← applyDests E r t
  let t ← overlayKeys E r t
  let t ← touchNojekyll t
  writeIndexes E.tools E.siteUrl t

/-! ## Where each step works -/

/-- The destination of an accepted pair, as a path. -/
def destOf (pair : Str) : Path := components (afterFirst '=' pair)

/-- A path no component of which is a pattern. -/
def PlainPath (d : Path) : Prop := ∀ c ∈ d, Glob.plain c = true

theorem nameMatches_of_plain {s : Str} (h : Glob.plain s = true) (n : Str) :
    nameMatches s n = true ↔ n = s := by
  rw [nameMatches, Bool.and_eq_true, Glob.accepts_of_plain h, decide_eq_true_eq]
  exact ⟨fun hn ↦ hn.1, fun hn ↦ ⟨hn, fun hd ↦ by rw [← hn]; exact hd⟩⟩

/-- Below a plain directory a pattern sees the names in that directory. -/
theorem globExists_of_plain {t : Site} {d : Path} (hd : PlainPath d) (pat : Str) :
    globExists t (d ++ [pat]) = true ↔
      ∃ n, t.get (d ++ [n]) ≠ none ∧ nameMatches pat n = true := by
  rw [globExists, decide_eq_true_eq]
  constructor
  · rintro ⟨p, hp, hlen, hall⟩
    obtain ⟨q, n, rfl⟩ : ∃ q n, p = q ++ [n] :=
      ⟨p.dropLast, p.getLast (by rintro rfl; simp at hlen), (List.dropLast_append_getLast _).symm⟩
    have hql : q.length = d.length := by simpa using hlen
    rw [List.zip_append hql.symm] at hall
    have hq : q = d := by
      refine List.ext_getElem hql fun i h1 h2 ↦ ?_
      have := hall (d[i], q[i]) (List.mem_append_left _ ?_)
      · exact (nameMatches_of_plain (hd _ (List.getElem_mem h2)) _).mp this
      · rw [List.mem_iff_getElem]
        exact ⟨i, by simp; omega, by simp⟩
    subst hq
    exact ⟨n, (t.mem_dom _).mp hp, hall (pat, n) (by simp)⟩
  · rintro ⟨n, hn, hm⟩
    refine ⟨d ++ [n], (t.mem_dom _).mpr hn, by simp, ?_⟩
    rintro ⟨a, b⟩ hx
    rw [List.zip_append rfl, List.mem_append] at hx
    rcases hx with hx | hx
    · have hab : a = b := by
        obtain ⟨i, hi, he⟩ := List.mem_iff_getElem.mp hx
        simp at he
        rw [← he.1, ← he.2]
      subst hab
      exact (nameMatches_of_plain (hd _ (List.of_mem_zip hx).1) _).mpr rfl
    · simp only [List.zip_cons_cons, List.zip_nil_right, List.mem_singleton, Prod.mk.injEq] at hx
      rw [hx.1, hx.2]
      exact hm

theorem readsBelow_globExists {d : Path} (hd : PlainPath d) (pat : Str) :
    ReadsBelow d fun t : Site ↦ globExists t (d ++ [pat]) := fun t u hag ↦ by
  rw [Bool.eq_iff_iff, globExists_of_plain hd, globExists_of_plain hd]
  refine exists_congr fun n ↦ ?_
  rw [hag (d ++ [n]) (List.prefix_append d [n])]

theorem localAt_takeFrom (old : Site) (d : Path) (n : Str) :
    LocalAt d fun t ↦ t.takeFrom old (d ++ [n]) where
  frame {t t'} h q hq := by
    rw [Tree.get_takeFrom h, if_neg]
    exact fun hc ↦ hq ((List.prefix_append d [n]).trans hc)
  congr {t u t'} hag h := by
    have hdir : t.isDir d = u.isDir d := readsBelow_isDir (List.prefix_refl d) t u hag
    have hs : (u.takeFrom old (d ++ [n])).isSome := by
      have ht : (t.takeFrom old (d ++ [n])).isSome := by rw [h]; rfl
      rw [Tree.takeFrom_isSome, List.dropLast_concat] at ht ⊢
      rwa [← hdir]
    obtain ⟨u', hu'⟩ := Option.isSome_iff_exists.mp hs
    refine ⟨u', hu', fun q hq ↦ ?_⟩
    rw [Tree.get_takeFrom h, Tree.get_takeFrom hu', hag q hq]

theorem localAt_restoreOne (old : Site) {d : Path} (hd : PlainPath d) (n : Str) :
    LocalAt d fun t ↦ restoreOne old d t n :=
  .ite (readsBelow_has (List.prefix_append d [n])) .some
    (.ite (readsBelow_globExists hd _) (localAt_takeFrom old d n) .some)

theorem localAt_restoreVersions (old : Site) (d : Path) : LocalAt d (restoreVersions old d) := by
  unfold restoreVersions
  cases old.read (d ++ [versionsName]) with
  | none => exact .some
  | some c => exact .ite (readsBelow_isFile (List.prefix_append d _)) .some (localAt_write d _ c)

theorem localAt_restore (old : Site) {d : Path} (hd : PlainPath d) : LocalAt d (restore old d) :=
  (LocalAt.foldlM _ fun n _ ↦ localAt_restoreOne old hd n).bind (localAt_restoreVersions old d)

theorem localAt_osRemove (d : Path) (f : Str) : LocalAt d fun t ↦ osRemove t (d ++ [f]) :=
  .ite (readsBelow_isFile (List.prefix_append d [f])) (localAt_rm d f) .none

theorem readsBelow_oldVersions (T : Tools) (d : Path) (kept : List Str) :
    ReadsBelow d fun t ↦ oldVersions T t d kept := fun t u hag ↦ by
  have h : t.read (d ++ [versionsName]) = u.read (d ++ [versionsName]) :=
    readsBelow_read (List.prefix_append d _) t u hag
  simp only [oldVersions, h]

/-- Reading a list of files below `d`. -/
theorem readsBelow_mapM {α : Type} (d : Path) (fs : List Str) (k : Str → Content → Option α) :
    ReadsBelow d fun t : Site ↦ fs.mapM fun f ↦ t.read (d ++ [f]) >>= k f := fun t u hag ↦ by
  have h : ∀ f, t.read (d ++ [f]) = u.read (d ++ [f]) := fun f ↦
    readsBelow_read (List.prefix_append d [f]) t u hag
  simp only [h]

theorem localAt_reindex (T : Tools) (arch : Str) (signed : Bool) (pub : Stamp) (d : Path)
    (kept : List Str) : LocalAt d (reindex T arch signed pub d kept) := by
  refine .bindRead (readsBelow_oldVersions T d kept) fun old ↦ ?_
  refine .bindRead (readsBelow_mapM d kept _) fun m ↦ ?_
  refine .bind (localAt_write d _ _) (.bind (localAt_write d _ _) ?_)
  refine .bindRead (readsBelow_mapM d kept _) fun ix ↦ ?_
  exact .bind (localAt_write d _ _) (localAt_write d _ _)

/-- **Retention stays in its directory.** -/
theorem localAt_retain (T : Tools) (n : Nat) (arch : Str) (signed : Bool) (pub : Stamp) (d : Path) :
    LocalAt d (retain T n arch signed pub d) := by
  unfold retain
  split
  · exact .none
  · refine .read (r := fun t : Site ↦ t.children d) (k := fun fs t ↦
      prune d (dropList T.vcmp n fs) t >>= reindex T arch signed pub d (keepList T.vcmp n fs))
      (readsBelow_children d) fun fs ↦ ?_
    exact .bind (.foldlM _ fun f _ ↦ localAt_osRemove d f) (localAt_reindex T arch signed pub d _)

theorem takeFrom_congr {old old' : Site} (t : Site) {p : Path} (h : AgreeBelow p old old') :
    t.takeFrom old p = t.takeFrom old' p := by
  cases ho : t.takeFrom old p with
  | none =>
    cases ho' : t.takeFrom old' p with
    | none => rfl
    | some v =>
      have hs : (t.takeFrom old p).isSome := Tree.takeFrom_isSome.mpr
        (Tree.takeFrom_isSome.mp (by rw [ho']; rfl))
      rw [ho] at hs
      cases hs
  | some u =>
    have hs : (t.takeFrom old' p).isSome := Tree.takeFrom_isSome.mpr
      (Tree.takeFrom_isSome.mp (by rw [ho]; rfl))
    obtain ⟨v, hv⟩ := Option.isSome_iff_exists.mp hs
    rw [hv]
    refine congrArg _ (Tree.ext_get fun q ↦ ?_)
    rw [Tree.get_takeFrom ho, Tree.get_takeFrom hv]
    split
    · rename_i hq; exact h q hq
    · rfl

/-- What is put back depends on the old destination only. -/
theorem restore_congr {old old' : Site} {d : Path} (t : Site) (h : AgreeBelow d old old') :
    restore old d t = restore old' d t := by
  have hheld : held old d = held old' d := by
    have hch : old.children d = old'.children d := readsBelow_children d old old' h
    rw [held, held, globAll, globAll, hch]
  have hone : restoreOne old d = restoreOne old' d := by
    funext t n
    have htake : t.takeFrom old (d ++ [n]) = t.takeFrom old' (d ++ [n]) :=
      takeFrom_congr t fun q hq ↦ h q ((List.prefix_append d [n]).trans hq)
    rw [restoreOne, restoreOne, htake]
  have hver : restoreVersions old d = restoreVersions old' d := by
    funext t
    have hread : old.read (d ++ [versionsName]) = old'.read (d ++ [versionsName]) :=
      readsBelow_read (List.prefix_append d _) old old' h
    rw [restoreVersions, restoreVersions, hread]
  rw [restore, restore, hheld, hone, hver]

theorem localAt_keepVersions (E : Env) (r : Request) (n : Nat) (arch : Str) (old : Site) {d : Path}
    (hd : PlainPath d) : LocalAt d (keepVersions E r n arch old d) := by
  refine .bind ?_ (localAt_retain E.tools n arch r.signed r.stamp d)
  split
  · exact localAt_restore old hd
  · exact .some

theorem keepVersions_congr (E : Env) (r : Request) (n : Nat) (arch : Str) {old old' : Site}
    {d : Path} (t : Site) (h : AgreeBelow d old old') :
    keepVersions E r n arch old d t = keepVersions E r n arch old' d t := by
  have hdir : old.isDir d = old'.isDir d := readsBelow_isDir (List.prefix_refl d) old old' h
  rw [keepVersions, keepVersions, hdir, restore_congr t h]

/-- A pair does not need its destination to be plain if it keeps no old versions. -/
def PlainIfKept (r : Request) (pair : Str) : Prop :=
  1 < keepFor r.keepRules (afterFirst '=' pair) → PlainPath (destOf pair)

theorem localAt_finish (E : Env) (r : Request) {dest : Str} (old : Site)
    (hp : 1 < keepFor r.keepRules dest → PlainPath (components dest)) :
    LocalAt (components dest) (finish E r dest old) := by
  refine .bind ?_ (localAt_write _ _ _)
  split
  · rename_i hn; exact localAt_keepVersions E r _ _ old (hp hn)
  · exact .some

theorem finish_congr (E : Env) (r : Request) (dest : Str) {old old' : Site} (t : Site)
    (h : AgreeBelow (components dest) old old') :
    finish E r dest old t = finish E r dest old' t := by
  simp only [finish, keepVersions_congr E r _ _ t h]

/-- **A pair works at its destination.**  It makes the directories that lead there, changes nothing
else, and looks at nothing else. -/
theorem updatesAt_publish (E : Env) (r : Request) {pair : Str} (hp : PlainIfKept r pair) :
    UpdatesAt true (destOf pair) fun t ↦ publish E r t pair := by
  simp only [publish, publishTo]
  cases r.source (beforeFirst '=' pair) with
  | none => exact .none
  | some src =>
    exact (updatesAt_replace (destOf pair) src).bindOld (fun old ↦ localAt_finish E r old hp)
      fun old old' t h ↦ finish_congr E r _ t h

/-- Removing what is not there changes nothing. -/
theorem remove_eq_rm (t : Site) (d : Str) : remove t d = t.rm (components d) := by
  rw [remove]
  split
  · rfl
  · rename_i h
    have hd : t.get (components d) = none := by simpa [Tree.has] using h
    refine Tree.ext_get fun q ↦ ?_
    rw [Tree.get_rm]
    split
    · rename_i hq
      by_cases he : components d = q
      · rw [← he, hd]
      · exact Tree.get_eq_none_of_below hq.1 he (by rw [hd]; simp)
    · rfl

theorem updatesAt_remove (d : Str) : UpdatesAt false (components d) fun t ↦ some (remove t d) := by
  simp only [remove_eq_rm]
  exact updatesAt_rm (components d)

/-! ## What a request leaves alone -/

theorem framedAt_restoreOne (old : Site) (d : Path) (n : Str) :
    FramedAt d fun t ↦ restoreOne old d t n :=
  .ite .some (.ite (localAt_takeFrom old d n).toFramedAt .some)

theorem framedAt_finish (E : Env) (r : Request) (dest : Str) (old : Site) :
    FramedAt (components dest) (finish E r dest old) := by
  refine .bind ?_ (localAt_write _ _ _).toFramedAt
  split
  · refine .bind ?_ (localAt_retain _ _ _ _ _ _).toFramedAt
    split
    · exact .bind (.foldlM _ fun n _ ↦ framedAt_restoreOne old _ n)
        (localAt_restoreVersions old _).toFramedAt
    · exact .some
  · exact .some

/-- **A pair changes nothing but its destination**, wherever it looks. -/
theorem staysAt_publish (E : Env) (r : Request) (pair : Str) :
    StaysAt true (destOf pair) fun t ↦ publish E r t pair := by
  simp only [publish, publishTo]
  cases r.source (beforeFirst '=' pair) with
  | none => exact .none
  | some src =>
    exact (updatesAt_replace (destOf pair) src).toStaysAt.bindOld fun old ↦
      framedAt_finish E r _ old

/-- The parts of a pair that went through. -/
theorem publish_eq_some {E : Env} {r : Request} {t t' : Site} {pair : Str}
    (h : publish E r t pair = some t') :
    ∃ src u, r.source (beforeFirst '=' pair) = some src ∧ replace t (destOf pair) src = some u ∧
      finish E r (afterFirst '=' pair) t u = some t' := by
  obtain ⟨src, hsrc, h⟩ := Option.bind_eq_some_iff.mp h
  obtain ⟨u, hu, h⟩ := Option.bind_eq_some_iff.mp h
  exact ⟨src, u, hsrc, hu, h⟩

/-- The parts of a pair that keeps old versions. -/
theorem publish_kept {E : Env} {r : Request} {t t' : Site} {pair : Str}
    (h : publish E r t pair = some t') (hn : 1 < keepFor r.keepRules (afterFirst '=' pair)) :
    ∃ src u v x, r.source (beforeFirst '=' pair) = some src ∧ replace t (destOf pair) src = some u ∧
      (if t.isDir (destOf pair) = true then restore t (destOf pair) u else some u) = some v ∧
      retain E.tools (keepFor r.keepRules (afterFirst '=' pair))
        (afterLast '/' (afterFirst '=' pair))
        r.signed r.stamp (destOf pair) v = some x ∧
      x.write (destOf pair ++ [publishedName]) (.stamp r.stamp) = some t' := by
  obtain ⟨src, u, hsrc, hu, hfin⟩ := publish_eq_some h
  obtain ⟨x, hkeep, hstamp⟩ := Option.bind_eq_some_iff.mp hfin
  rw [if_pos hn] at hkeep
  obtain ⟨v, hv, hx⟩ := Option.bind_eq_some_iff.mp hkeep
  exact ⟨src, u, v, x, hsrc, hu, hv, hx, hstamp⟩

/-- Every directory on the way to a published destination is there. -/
theorem publish_dir {E : Env} {r : Request} {t t' : Site} {pair : Str}
    (h : publish E r t pair = some t') {x : Path} (hx : x <+: destOf pair) :
    t'.get x = some .dir := by
  obtain ⟨src, u, -, -, hf⟩ := publish_eq_some h
  obtain ⟨v, -, hw⟩ := Option.bind_eq_some_iff.mp hf
  have hstamp : t'.get (destOf pair ++ [publishedName]) ≠ none := by
    rw [Tree.get_write hw, destOf, if_pos rfl]
    simp
  refine Tree.dir_of_below (hx.trans (List.prefix_append _ _)) ?_ hstamp
  rintro rfl
  exact Tree.not_concat_below _ _ hx

/-- Outside of its destination a pair at most makes the directories that lead there. -/
theorem publish_frame {E : Env} {r : Request} {t t' : Site} {pair : Str}
    (h : publish E r t pair = some t') {q : Path} (hq : ¬destOf pair <+: q) :
    t'.get q = if q <+: destOf pair then some .dir else t.get q := by
  obtain ⟨src, u, -, hu, hf⟩ := publish_eq_some h
  rw [(framedAt_finish E r _ t).frame hf q hq, get_replace hu, if_neg hq]

theorem publish_clearAbove {E : Env} {r : Request} {t t' : Site} {pair : Str}
    (h : publish E r t pair = some t') : ClearAbove (destOf pair) t := by
  obtain ⟨src, u, -, hu, -⟩ := publish_eq_some h
  exact replace_isSome.mp (by rw [hu]; rfl)

/-- Outside of its destination a pair changes no file. -/
theorem publish_file_iff {E : Env} {r : Request} {t t' : Site} {pair : Str}
    (h : publish E r t pair = some t') {q : Path} (hq : ¬destOf pair <+: q) (c : Content) :
    t'.get q = some (.file c) ↔ t.get q = some (.file c) := by
  rw [publish_frame h hq]
  by_cases hqd : q <+: destOf pair
  · rw [if_pos hqd]
    refine iff_of_false (by simp) (publish_clearAbove h q hqd ?_ c)
    rintro rfl
    exact hq hqd
  · rw [if_neg hqd]

theorem applyDests_file_iff {E : Env} {r : Request} {t t' : Site} (h : applyDests E r t = some t')
    {q : Path} (hrem : ∀ d ∈ r.removes, ¬components d <+: q)
    (hacc : ∀ p ∈ r.accepted, ¬destOf p <+: q) (c : Content) :
    t'.get q = some (.file c) ↔ t.get q = some (.file c) := by
  have hremove : ∀ (ds : List Str) (t : Site), (∀ d ∈ ds, ¬components d <+: q) →
      (ds.foldl remove t).get q = t.get q := by
    intro ds
    induction ds with
    | nil => exact fun t _ ↦ rfl
    | cons d ds ih =>
      intro t hds
      rw [List.foldl_cons, ih _ fun e he ↦ hds e (List.mem_cons_of_mem d he), remove_eq_rm,
        Tree.get_rm, if_neg fun hc ↦ hds d List.mem_cons_self hc.1]
  have hpublish : ∀ (ps : List Str) (t t' : Site), ps.foldlM (publish E r) t = some t' →
      (∀ p ∈ ps, ¬destOf p <+: q) → (t'.get q = some (.file c) ↔ t.get q = some (.file c)) := by
    intro ps
    induction ps with
    | nil => rintro t t' ⟨⟩ -; exact Iff.rfl
    | cons p ps ih =>
      intro t t' h hps
      rw [List.foldlM_cons] at h
      obtain ⟨u, hu, h⟩ := Option.bind_eq_some_iff.mp h
      rw [ih u t' h fun p' hp' ↦ hps p' (List.mem_cons_of_mem p hp'),
        publish_file_iff hu (hps p List.mem_cons_self)]
  rw [hpublish _ _ _ h hacc, hremove _ _ hrem]

/-- The keys change nothing outside of `keys/`. -/
theorem overlayKeys_frame {E : Env} {r : Request} {t t' : Site} (h : overlayKeys E r t = some t')
    {q : Path} (hq : r.keys ≠ none → ¬[keysName] <+: q) : t'.get q = t.get q := by
  rw [overlayKeys] at h
  cases hk : r.keys with
  | none => rw [hk] at h; cases h; rfl
  | some k =>
    rw [hk] at h
    have hq' : ¬[keysName] <+: q := hq (by simp [hk])
    obtain ⟨u, hu, h⟩ := Option.bind_eq_some_iff.mp h
    obtain ⟨s, hs, h⟩ := Option.bind_eq_some_iff.mp h
    have hmk : u.get q = t.get q := by
      rw [Tree.get_mkdirs hu]
      split
      · rename_i hpre
        rcases List.prefix_cons_iff.mp hpre with rfl | ⟨l, rfl, hl⟩
        · exact t.root.symm
        · rw [List.prefix_nil.mp hl] at hq'
          exact absurd (List.prefix_refl _) hq'
      · rfl
    have hwrite : ∀ {v v' : Site} {n : Str} {c : Content}, v.write [keysName, n] c = some v' →
        v'.get q = v.get q := by
      intro v v' n c hv
      rw [Tree.get_write hv, if_neg]
      rintro rfl
      exact hq' (List.prefix_append [keysName] [n])
    have hfold : ∀ (fs : List Str) (s s' : Site × Bool),
        fs.foldlM (overlayKey E.tools k) s = some s' → s'.1.get q = s.1.get q := by
      intro fs
      induction fs with
      | nil => rintro s s' ⟨⟩; rfl
      | cons f fs ih =>
        intro s s' h
        rw [List.foldlM_cons] at h
        obtain ⟨v, hv, h⟩ := Option.bind_eq_some_iff.mp h
        rw [ih v s' h]
        obtain ⟨c, -, hv⟩ := Option.bind_eq_some_iff.mp hv
        split at hv
        · cases hv; rfl
        · obtain ⟨x, hx, hv⟩ := Option.bind_eq_some_iff.mp hv
          cases hv
          exact hwrite hx
    rw [← hmk, ← hfold _ _ _ hs]
    split at h
    · exact hwrite h
    · cases h; rfl

theorem touchNojekyll_frame {t t' : Site} (h : touchNojekyll t = some t') {q : Path}
    (hq : q ≠ [nojekyllName]) : t'.get q = t.get q := by
  rw [touchNojekyll] at h
  split at h
  · cases h; rfl
  · rw [Tree.get_write h, if_neg hq]

/-- A path a request has nothing to do with: outside of every destination and of `keys/`, and
neither `.nojekyll` nor a generated page. -/
structure Untouched (r : Request) (q : Path) : Prop where
  removes : ∀ d ∈ r.removes, ¬components d <+: q
  accepted : ∀ p ∈ r.accepted, ¬destOf p <+: q
  keys : r.keys ≠ none → ¬[keysName] <+: q
  nojekyll : q ≠ [nojekyllName]
  index : q.getLast? ≠ some indexName

/-- The parts of `apply_changes` that went through. -/
theorem applyChanges_eq_some {E : Env} {r : Request} {t t' : Site}
    (h : applyChanges E r t = some t') :
    ∃ u v x, applyDests E r t = some u ∧ overlayKeys E r u = some v ∧ touchNojekyll v = some x ∧
      writeIndexes E.tools E.siteUrl x = some t' := by
  obtain ⟨u, hu, h⟩ := Option.bind_eq_some_iff.mp h
  obtain ⟨v, hv, h⟩ := Option.bind_eq_some_iff.mp h
  obtain ⟨x, hx, h⟩ := Option.bind_eq_some_iff.mp h
  exact ⟨u, v, x, hu, hv, hx, h⟩

/-- After the destinations, only `keys/`, `.nojekyll` and the pages change. -/
theorem applyChanges_get {E : Env} {r : Request} {t u t' : Site} (hu : applyDests E r t = some u)
    (h : applyChanges E r t = some t') {q : Path} (hkeys : r.keys ≠ none → ¬[keysName] <+: q)
    (hno : q ≠ [nojekyllName]) (hindex : q.getLast? ≠ some indexName) : t'.get q = u.get q := by
  obtain ⟨u', v, x, hu', hv, hx, h⟩ := applyChanges_eq_some h
  rw [hu] at hu'
  cases hu'
  rw [← (sameButIndex_writeIndexes h).get_eq q hindex, touchNojekyll_frame hx hno,
    overlayKeys_frame hv hkeys]

/-- **A request changes no file it has nothing to do with.** -/
theorem applyChanges_file_iff {E : Env} {r : Request} {t t' : Site}
    (h : applyChanges E r t = some t') {q : Path} (hq : Untouched r q) (c : Content) :
    t'.get q = some (.file c) ↔ t.get q = some (.file c) := by
  obtain ⟨u, v, x, hu, -⟩ := applyChanges_eq_some h
  rw [applyChanges_get hu h hq.keys hq.nojekyll hq.index,
    applyDests_file_iff hu hq.removes hq.accepted]

/-! ### A small instance -/

/-- Programs that answer as the real ones do for the small inputs below: one-digit versions and
times, files of a few bytes. -/
def sampleTools : Tools where
  versionsText m := m.flatMap Prod.fst
  loadJson _ := .unreadable
  adbText _ files := files.flatMap Prod.fst
  indexText arch _ := arch
  vcmp a b := compare a b
  mtimes _ := some [1]
  pkgInfo b := some ⟨b, "1-r1".toList, []⟩
  adbOrder := id
  numfmt n := (Nat.repr n).toList ++ ['B']
  dateDay _ := "1970-01-01".toList

def sampleEnv : Env := ⟨sampleTools, "https://ddimension.github.io/openwrt-repo".toList⟩

/-- A directory with one file in it. -/
def oneFile (n c : Str) : Site := ((Tree.empty : Site).write [n] (.bytes c)).getD Tree.empty

/-- A host tool for one of the channels. -/
def toolRequest (ch : Str) : Request where
  removes := []
  accepted := ["/src=tools/".toList ++ ch ++ "/x86_64".toList]
  keepRules := []
  keys := none
  stamp := ⟨"2026-10-05T10:00:00Z".toList, ch, "c0ffee".toList, "1".toList⟩
  signed := false
  msg := "packages".toList
  source p := if p = "/src".toList then some (oneFile "rsim-card".toList "x".toList) else none

/-- A directory with a few files in it. -/
def filesOf (fs : List (String × String)) : Site :=
  fs.foldl (fun t f ↦ (t.write [f.1.toList] (.bytes f.2.toList)).getD t) Tree.empty

/-- A package tree with these files next to its index, two versions of each package being kept. -/
def packageRequest (dest : String) (fs : List (String × String)) (time : String) : Request :=
  { toolRequest "main".toList with
    accepted := ["/src=".toList ++ dest.toList]
    keepRules := [("*".toList, 2)]
    stamp := ⟨time.toList, "main".toList, "c0ffee".toList, "1".toList⟩
    source := fun p ↦
      if p = "/src".toList then some (filesOf (("packages.adb", "i") :: fs)) else none }

end OpenwrtFeed
