import OpenwrtFeed.Lib.Href
import OpenwrtFeed.Pages.Apply

/-!
# The links on the pages

Every page links the directories above it and what is in its own, and the start page links the
trees of both channels, the host tools, the images and the keys, "built from what is actually on the
site — a link on it never points at nothing".

All of this is so but for one sentence.  The link to `tools/` is only there if the directory is; the
links to `images/` and `keys/` stand next to it without such a test, on every start page that has a
feed table.  After the first publish of packages, before an image or a key has been published, they
point at nothing.  `linksResolve_iff` says that nothing else can be wrong.
-/

set_option autoImplicit false

namespace OpenwrtFeed

open Shell DirTree

/-! ## What a link leads to -/

/-- The characters that HTML or a URL reads in a way of its own, besides blanks. -/
def specialChars : List Char := "\"<>&'%?#:/\\*[]".toList

/-- A name without them. -/
def UrlName (n : Str) : Prop :=
  n ≠ [] ∧ n ≠ Href.dot ∧ n ≠ Href.dotdot ∧ ∀ c ∈ n, c ∉ specialChars ∧ ' ' < c

-- by the characters of the name, not by all there are
instance (n : Str) : Decidable (UrlName n) :=
  have : Decidable (∀ c ∈ n, c ∉ specialChars ∧ ' ' < c) := List.decidableBAll _ n
  inferInstanceAs (Decidable (_ ∧ _ ∧ _ ∧ ∀ c ∈ n, c ∉ specialChars ∧ ' ' < c))

/-- A site all of whose names are such. -/
def UrlSite (t : Site) : Prop := ∀ q ∈ t.dom, ∀ n ∈ q, UrlName n

instance (t : Site) : Decidable (UrlSite t) :=
  inferInstanceAs (Decidable (∀ q ∈ t.dom, ∀ n ∈ q, UrlName n))

/-- The link leads from a page in `d` to something on the site, and to a directory if it ends with a
slash. -/
def Resolves (t : Site) (d : Path) (href : Str) : Prop :=
  ∃ q, Href.resolve d href = some q ∧
    (t.get q = some .dir ∨ t.get q ≠ none ∧ href.getLast? ≠ some '/')

/-- The links among the pieces of a page. -/
def hrefs (fs : List Frag) : List Str :=
  fs.filterMap fun f ↦
    match f with
    | .link href _ => some href
    | _ => none

/-- The relative links of a page in `d` lead somewhere. -/
def Sound (t : Site) (d : Path) (fs : List Frag) : Prop :=
  ∀ h ∈ hrefs fs, Href.isRelative h = true → Resolves t d h

/-- The relative links on every page of the site lead somewhere. -/
def LinksResolve (t : Site) : Prop :=
  ∀ d fs, t.get (d ++ [indexName]) = some (.file (.page fs)) → Sound t d fs

/-! ## The pieces of a page -/

section Sound

variable {t : Site} {d : Path}

@[simp] theorem sound_nil : Sound t d [] := fun _ hh ↦ absurd hh List.not_mem_nil

@[simp] theorem sound_append {fs gs : List Frag} :
    Sound t d (fs ++ gs) ↔ Sound t d fs ∧ Sound t d gs := by
  rw [Sound, hrefs, List.filterMap_append]
  exact List.forall_mem_append

@[simp] theorem sound_text_cons {s : String} {fs : List Frag} :
    Sound t d (.text s :: fs) ↔ Sound t d fs := Iff.rfl

@[simp] theorem sound_str_cons {s : Str} {fs : List Frag} :
    Sound t d (.str s :: fs) ↔ Sound t d fs := Iff.rfl

@[simp] theorem sound_link_cons {href label : Str} {fs : List Frag} :
    Sound t d (.link href label :: fs) ↔
      (Href.isRelative href = true → Resolves t d href) ∧ Sound t d fs :=
  List.forall_mem_cons

@[simp] theorem sound_concat_text {s : String} {fs : List Frag} :
    Sound t d (fs.concat (.text s)) ↔ Sound t d fs := by
  rw [List.concat_eq_append, sound_append, sound_text_cons]
  exact and_iff_left sound_nil

@[simp] theorem sound_flatMap {α : Type} {l : List α} {f : α → List Frag} :
    Sound t d (l.flatMap f) ↔ ∀ a ∈ l, Sound t d (f a) := by
  induction l with
  | nil => simp
  | cons a l ih => rw [List.flatMap_cons, sound_append, ih, List.forall_mem_cons]

@[simp] theorem sound_dash_cons {fs : List Frag} : Sound t d (dash :: fs) ↔ Sound t d fs := Iff.rfl

/-- A cell that may be empty. -/
@[simp] theorem sound_cell_cons {p : Prop} [Decidable p] {s : Str} {fs : List Frag} :
    Sound t d ((if p then dash else .str s) :: fs) ↔ Sound t d fs := by
  split <;> exact Iff.rfl

end Sound

/-! ## Names -/

theorem UrlName.segment {n : Str} (h : UrlName n) : Href.Segment n :=
  ⟨h.1, h.2.1, h.2.2.1, fun hc ↦ absurd (show '/' ∈ specialChars by decide) (h.2.2.2 _ hc).1⟩

/-- What is on a plain site has plain names. -/
theorem UrlSite.name {t : Site} (h : UrlSite t) {q : Path} (hq : t.get q ≠ none) {n : Str}
    (hn : n ∈ q) : UrlName n :=
  h q ((t.mem_dom q).mpr hq) n hn

theorem UrlSite.segment {t : Site} (h : UrlSite t) {q : Path} (hq : t.get q ≠ none) :
    ∀ n ∈ q, Href.Segment n := fun _ hn ↦ (h.name hq hn).segment

/-- A name that is no blank is one word. -/
theorem UrlName.words_eq {n : Str} (h : UrlName n) : words n = [n] := by
  have hblank : ∀ c ∈ n, isBlank c = false := by
    intro c hc
    have hlt := (h.2.2.2 c hc).2
    by_contra hb
    rw [Bool.not_eq_false, isBlank] at hb
    simp only [Bool.or_eq_true, beq_iff_eq] at hb
    rcases hb with (rfl | rfl) | rfl <;> exact absurd hlt (by decide)
  rw [words, List.splitOnP_eq_singleton hblank, List.filter_cons_of_pos (by simpa using h.1),
    List.filter_nil]

/-! ## Up and down -/

/-- What lies in a directory is linked by its name. -/
theorem resolves_file {t : Site} {d p : Path} (hp : p ≠ []) (hseg : ∀ c ∈ p, Href.Segment c)
    (hget : t.get (d ++ p) ≠ none) : Resolves t d (joinPath p) := by
  refine ⟨d ++ p, Href.resolve_segments hp hseg d, .inr ⟨hget, ?_⟩⟩
  obtain ⟨p, c, rfl⟩ := (List.eq_nil_or_concat p).resolve_left hp
  rw [List.concat_eq_append] at hseg ⊢
  have hc := hseg c (by simp)
  rw [joinPath, Href.getLast?_intercalate hc.1]
  exact hc.getLast?

theorem resolves_dir {t : Site} {d p : Path} (hp : p ≠ []) (hseg : ∀ c ∈ p, Href.Segment c)
    (hget : t.get (d ++ p) = some .dir) : Resolves t d (joinPath p ++ ['/']) :=
  ⟨d ++ p, Href.resolve_slash hp hseg d, .inl hget⟩

/-- A directory above a page. -/
theorem resolves_up {t : Site} {d : Path} (hd : t.get d = some .dir) {n : Nat} (hn : n ≤ d.length) :
    Resolves t d (hrefUp n) := by
  have hdir : t.get (d.take (d.length - n)) = some .dir := by
    by_cases heq : d.take (d.length - n) = d
    · rw [heq, hd]
    · exact Tree.dir_of_below (List.take_prefix _ _) heq (by rw [hd]; simp)
  refine ⟨_, ?_, .inl hdir⟩
  cases n with
  | zero =>
    rw [Nat.sub_zero, List.take_length]
    rfl
  | succ n =>
    rw [hrefUp, if_neg (Nat.succ_ne_zero n)]
    exact Href.resolve_up d hn

theorem sound_breadcrumb {t : Site} {d : Path} (hd : t.get d = some .dir) :
    Sound t d (breadcrumb d) := by
  rw [breadcrumb, sound_link_cons, sound_flatMap]
  refine ⟨fun _ ↦ resolves_up hd le_rfl, fun p _ ↦ ?_⟩
  simp only [sound_text_cons, sound_link_cons, sound_nil, and_true]
  exact fun _ ↦ resolves_up hd (Nat.sub_le _ _)

theorem sound_parentRow {t : Site} {d : Path} (hd : t.get d = some .dir) :
    Sound t d (parentRow d) := by
  rw [parentRow]
  split
  · exact sound_nil
  · rename_i hne
    simp only [sound_text_cons, sound_link_cons, sound_nil, and_true]
    exact fun _ ↦ resolves_up (n := 1) hd (List.length_pos_of_ne_nil hne)

theorem sound_entryRow (T : Tools) {t : Site} {d : Path} (ht : UrlSite t) (rows : List TsvRow)
    (ft n : Str) : Sound t d (entryRow T t d rows ft n) := by
  rw [entryRow]
  cases hget : t.get (d ++ [n]) with
  | none => exact sound_nil
  | some node =>
    have hn : Href.Segment n := ht.segment (q := d ++ [n]) (by rw [hget]; simp) n (by simp)
    cases node with
    | dir =>
      simp only [sound_text_cons, sound_str_cons, sound_link_cons, sound_nil, and_true]
      exact fun _ ↦ ⟨_, Href.resolve_segment_slash hn d, .inl hget⟩
    | file c =>
      have hfile : Resolves t d n :=
        ⟨_, Href.resolve_segment hn d, .inr ⟨by rw [hget]; simp, hn.getLast?⟩⟩
      dsimp only
      split
      · simp only [sound_text_cons, sound_str_cons, sound_cell_cons, sound_link_cons, sound_nil,
          and_true]
        exact fun _ ↦ hfile
      · simp only [sound_text_cons, sound_str_cons, sound_link_cons, sound_nil, and_true]
        exact fun _ ↦ hfile

/-! ## The start page -/

theorem sound_feedCell {t : Site} (ht : UrlSite t) {d : Path} (hd : d ≠ []) :
    Sound t [] (feedCell t d) := by
  rw [feedCell]
  split
  · rename_i hfile
    obtain ⟨c, hc⟩ := Tree.isFile_iff.mp hfile
    have hdir : t.get d = some .dir := t.parent_dir d adbName (by rw [hc]; simp)
    have hseg := ht.segment (q := d) (by rw [hdir]; simp)
    rw [sound_link_cons]
    refine ⟨fun _ ↦ resolves_dir hd hseg hdir, ?_⟩
    split
    · rename_i hapk
      obtain ⟨c', hc'⟩ := Tree.isFile_iff.mp hapk
      have hne : t.get (d ++ [feedApkName]) ≠ none := by rw [hc']; simp
      simp only [sound_text_cons, sound_link_cons, sound_nil, and_true]
      exact fun _ ↦ resolves_file (by simp) (ht.segment hne) hne
    · exact sound_nil
  · simp

theorem sound_feedTable {t : Site} (ht : UrlSite t) : Sound t [] (feedTable t) := by
  rw [feedTable, sound_append, sound_concat_text, sound_flatMap]
  refine ⟨?_, fun a _ ↦ ?_⟩
  · simp [feedHead]
  · simp only [feedRow, sound_text_cons, sound_str_cons, sound_concat_text, sound_flatMap]
    exact fun c _ ↦ sound_feedCell ht (List.cons_ne_nil _ _)

theorem sound_toolCell {t : Site} (ht : UrlSite t) (d : Path) : Sound t [] (toolCell t d) := by
  have hlink : ∀ n ∈ (globAll t d).filter (fun n ↦
      t.isFile (d ++ [n]) && decide (n ≠ indexName ∧ n ≠ publishedName)),
      Resolves t [] (joinPath (d ++ [n])) := by
    intro n hn
    have hne := (mem_globAll.mp (List.mem_of_mem_filter hn)).1
    exact resolves_file (by simp) (ht.segment hne) hne
  rw [toolCell]
  split
  · simp
  · rename_i n ns heq
    rw [heq] at hlink
    obtain ⟨hn, hns⟩ := List.forall_mem_cons.mp hlink
    rw [sound_link_cons, sound_flatMap]
    refine ⟨fun _ ↦ hn, fun m hm ↦ ?_⟩
    simp only [sound_text_cons, sound_link_cons, sound_nil, and_true]
    exact fun _ ↦ hns m hm

theorem sound_toolsTable {t : Site} (ht : UrlSite t) : Sound t [] (toolsTable t) := by
  rw [toolsTable]
  split
  · simp only [sound_append, sound_concat_text, sound_flatMap]
    refine ⟨by simp [toolsIntro], fun ch _ a _ ↦ ?_⟩
    simp only [toolRow, sound_text_cons, sound_str_cons, sound_concat_text]
    exact sound_toolCell ht _
  · exact sound_nil

/-- A directory at the top of the site is linked by its name. -/
theorem resolves_top {t : Site} {n : Str} (hn : Href.Segment n) :
    Resolves t [] (n ++ ['/']) ↔ t.get [n] = some .dir := by
  rw [Resolves, Href.resolve_segment_slash hn]
  simp

/-- `images` -/
def imagesDirName : Str := "images".toList

/-- The sentence is right if there are images and keys. -/
theorem sound_aboutText_iff {t : Site} :
    Sound t [] (aboutText t) ↔
      t.get [imagesDirName] = some .dir ∧ t.get [keysName] = some .dir := by
  have himages : Href.isRelative "images/".toList = true ∧
      (Resolves t [] "images/".toList ↔ t.get [imagesDirName] = some .dir) :=
    ⟨by decide, resolves_top (n := imagesDirName) (by decide)⟩
  have hkeys : Href.isRelative "keys/".toList = true ∧
      (Resolves t [] "keys/".toList ↔ t.get [keysName] = some .dir) :=
    ⟨by decide, resolves_top (n := keysName) (by decide)⟩
  have habs : Href.isRelative "https://github.com/ddimension/openwrt-repo".toList = false := by
    decide
  have htools : Sound t [] (if t.isDir [toolsName] = true then
      [.text " host tools: ", .link "tools/".toList "tools/".toList, .text ","] else []) := by
    split
    · rename_i hdir
      simp only [sound_text_cons, sound_link_cons, sound_nil, and_true]
      exact fun _ ↦ (resolves_top (n := toolsName) (by decide)).mpr (Tree.isDir_iff.mp hdir)
    · exact sound_nil
  rw [aboutText]
  simp only [sound_text_cons, sound_link_cons, sound_append, sound_nil, and_true, habs,
    himages.1, himages.2, hkeys.1, hkeys.2, true_imp_iff, htools, true_and]
  simp

theorem sound_setupText (t : Site) (siteUrl : Str) : Sound t [] (setupText siteUrl) := by
  have habs :
      Href.isRelative "https://github.com/ddimension/openwrt-repo#how-tos".toList = false := by
    decide
  simp only [setupText, sound_text_cons, sound_str_cons, sound_link_cons, sound_nil, and_true, habs]
  simp

theorem sound_landing_iff {t : Site} (ht : UrlSite t) (siteUrl : Str) :
    Sound t [] (landing siteUrl t) ↔
      releases t = [] ∨ t.get [imagesDirName] = some .dir ∧ t.get [keysName] = some .dir := by
  rw [landing]
  split
  · rename_i hnone
    exact iff_of_true sound_nil (.inl hnone)
  · rename_i hsome
    rw [sound_append, sound_append, sound_append, sound_concat_text, sound_aboutText_iff]
    constructor
    · exact fun h ↦ .inr h.1.2
    · exact fun h ↦ ⟨⟨⟨sound_setupText t siteUrl, sound_feedTable ht⟩, h.resolve_left hsome⟩,
        sound_toolsTable ht⟩

/-- No channel has a release. -/
def NoReleases (t : Site) : Prop := ∀ ch ∈ channels, ∀ r, t.get [ch, r] ≠ some .dir

theorem mem_subdirs {t : Site} {d : Path} {n : Str} :
    n ∈ subdirs t d ↔ t.get (d ++ [n]) = some .dir := by
  rw [subdirs]
  split
  · rw [List.mem_filter, Tree.mem_children, Tree.isDir_iff]
    exact and_iff_right_of_imp fun h ↦ by rw [h]; simp
  · rename_i hdir
    refine iff_of_false List.not_mem_nil fun h ↦ hdir (Tree.isDir_iff.mpr ?_)
    exact t.parent_dir d n (by rw [h]; simp)

theorem releases_eq_nil_iff {t : Site} (ht : UrlSite t) : releases t = [] ↔ NoReleases t := by
  rw [releases, sortedWords, List.flatMap_eq_nil_iff]
  simp only [mem_sorted, List.mem_toFinset, List.mem_flatMap, mem_subdirs]
  constructor
  · intro h ch hch r hr
    have hwords := h r ⟨ch, hch, hr⟩
    rw [(ht.name (q := [ch, r]) (by rw [hr]; simp) (by simp)).words_eq] at hwords
    cases hwords
  · rintro h r ⟨ch, hch, hr⟩
    exact absurd hr (h ch hch r)

/-! ## All pages -/

/-- The pages of a site that has just been indexed. -/
theorem page_of_writeIndexes {T : Tools} {siteUrl : Str} {x t : Site}
    (h : writeIndexes T siteUrl x = some t) {d : Path} {fs : List Frag} :
    t.get (d ++ [indexName]) = some (.file (.page fs)) ↔
      t.get d = some .dir ∧ fs = pageOf T siteUrl t d := by
  have hsame := sameButIndex_writeIndexes h
  have hget := get_writeIndexes h (d ++ [indexName])
  rw [List.getLast?_concat, List.dropLast_concat] at hget
  rw [← hsame.dir_iff, ← hsame.pageOf_eq]
  constructor
  · intro hpage
    have hdir : x.get d = some .dir :=
      (hsame.dir_iff d).mpr (t.parent_dir d indexName (by rw [hpage]; simp))
    rw [if_pos ⟨rfl, hdir⟩, hpage] at hget
    cases hget
    exact ⟨hdir, rfl⟩
  · rintro ⟨hdir, rfl⟩
    rw [hget, if_pos ⟨rfl, hdir⟩]

/-- A page below the start page has no link that leads nowhere, and the start page has one only in
its sentence about images and keys. -/
theorem sound_pageOf_iff (T : Tools) (siteUrl : Str) {t : Site} (ht : UrlSite t) {d : Path}
    (hd : t.get d = some .dir) :
    Sound t d (pageOf T siteUrl t d) ↔ (d = [] → Sound t [] (landing siteUrl t)) := by
  have hhead : Sound t d (pageHead d) := by
    simp only [pageHead, sound_text_cons, sound_str_cons, sound_concat_text]
    exact sound_breadcrumb hd
  have htable : ∀ b, Sound t d (tableHead b) := by
    intro b
    cases b <;> simp [tableHead]
  rw [pageOf]
  simp only [sound_append, sound_concat_text, sound_flatMap]
  constructor
  · rintro ⟨⟨⟨⟨-, hlanding⟩, -⟩, -⟩, -⟩ rfl
    rwa [if_pos rfl] at hlanding
  · intro hlanding
    refine ⟨⟨⟨⟨hhead, ?_⟩, htable _⟩, sound_parentRow hd⟩, fun n _ ↦ sound_entryRow T ht _ _ n⟩
    split
    · rename_i hroot
      rw [hroot]
      exact hlanding hroot
    · exact sound_nil

theorem linksResolve_of_writeIndexes {T : Tools} {siteUrl : Str} {x t : Site}
    (h : writeIndexes T siteUrl x = some t) (ht : UrlSite t) :
    LinksResolve t ↔
      NoReleases t ∨ t.get [imagesDirName] = some .dir ∧ t.get [keysName] = some .dir := by
  rw [← releases_eq_nil_iff ht, ← sound_landing_iff ht siteUrl, LinksResolve]
  constructor
  · intro hall
    have hroot := hall [] _ ((page_of_writeIndexes h).mpr ⟨t.root, rfl⟩)
    exact (sound_pageOf_iff T siteUrl ht t.root).mp hroot rfl
  · intro hlanding d fs hpage
    obtain ⟨hd, rfl⟩ := (page_of_writeIndexes h).mp hpage
    exact (sound_pageOf_iff T siteUrl ht hd).mpr fun _ ↦ hlanding

/-- **When no link points at nothing.**  After any number of requests, beginning with an empty
branch, the relative links on all pages lead somewhere if and only if no channel has a release or
there are both images and keys. -/
theorem linksResolve_iff (E : Env) {rs : List Request} (hrs : rs ≠ []) {t : Site}
    (h : rs.foldlM (fun t r ↦ applyChanges E r t) Tree.empty = some t) (ht : UrlSite t) :
    LinksResolve t ↔
      NoReleases t ∨ t.get [imagesDirName] = some .dir ∧ t.get [keysName] = some .dir := by
  obtain ⟨rs, r, rfl⟩ := (List.eq_nil_or_concat rs).resolve_left hrs
  rw [List.concat_eq_append, List.foldlM_append] at h
  obtain ⟨u, -, h⟩ := Option.bind_eq_some_iff.mp h
  simp only [List.foldlM_cons, List.foldlM_nil, bind_pure] at h
  obtain ⟨-, -, x, -, -, -, hx⟩ := applyChanges_eq_some h
  exact linksResolve_of_writeIndexes hx ht

/-- An image and a key, with which a feed can be published. -/
def imageRequest : Request :=
  { toolRequest "main".toList with
    accepted := ["/src=images/x86_64".toList]
    keys := some (oneFile "feed.pem".toList "k".toList)
    source := fun p ↦
      if p = "/src".toList then some (oneFile "a-sysupgrade.bin".toList "x".toList) else none }

/-- What a feed request comes to. -/
def feedRequest : Request := packageRequest "main/25/x86_64" [] "t1"

/-- A feed after an image and a key. -/
theorem linksResolve_iff_images : ∃ t,
    [imageRequest, feedRequest].foldlM (fun t r ↦ applyChanges sampleEnv r t) Tree.empty = some t ∧
      ¬NoReleases t ∧ LinksResolve t := by
  have hrun : (([imageRequest, feedRequest].foldlM (fun t r ↦ applyChanges sampleEnv r t)
      Tree.empty).map fun t ↦ decide (UrlSite t ∧ t.get ["main".toList, "25".toList] = some .dir ∧
        t.get [imagesDirName] = some .dir ∧ t.get [keysName] = some .dir)) = some true := by
    decide +kernel
  obtain ⟨t, ht, hall⟩ := Option.map_eq_some_iff.mp hrun
  obtain ⟨hurl, hrelease, hdirs⟩ := of_decide_eq_true hall
  refine ⟨t, ht, fun hc ↦ hc "main".toList (by decide) "25".toList hrelease, ?_⟩
  exact (linksResolve_iff sampleEnv (List.cons_ne_nil _ _) ht hurl).mpr (.inr hdirs)

/-- The first publish of a feed: the start page links images and keys, and there are none. -/
theorem first_feed_links_nothing :
    ¬∀ (E : Env) (rs : List Request) (t : Site), rs ≠ [] →
      rs.foldlM (fun t r ↦ applyChanges E r t) Tree.empty = some t → UrlSite t →
      LinksResolve t := by
  intro h
  have hrun : ((applyChanges sampleEnv feedRequest Tree.empty).map fun t ↦
      decide (UrlSite t ∧ t.get ["main".toList, "25".toList] = some .dir ∧
        t.get [imagesDirName] = none)) = some true := by decide +kernel
  obtain ⟨t, ht, hall⟩ := Option.map_eq_some_iff.mp hrun
  obtain ⟨hurl, hrelease, himages⟩ := of_decide_eq_true hall
  have hlinks := h sampleEnv [feedRequest] t (List.cons_ne_nil _ _) (by simpa using ht) hurl
  obtain ⟨-, -, x, -, -, -, hx⟩ := applyChanges_eq_some ht
  rcases (linksResolve_of_writeIndexes hx hurl).mp hlinks with hnone | ⟨hdir, -⟩
  · exact hnone "main".toList (by decide) "25".toList hrelease
  · rw [himages] at hdir
    cases hdir

end OpenwrtFeed
