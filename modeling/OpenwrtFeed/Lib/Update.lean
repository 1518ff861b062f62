import OpenwrtFeed.Lib.Tree

/-!
# Updates with a footprint

An operation on a directory tree usually concerns one place.  `UpdatesAt mk d f` says that the
partial operation `f` works at and below `d`:

* elsewhere nothing changes, except that the directories leading to `d` are made if `mk` is set
  (`frame`);
* what it does at and below `d`, and whether it succeeds, depends only on what is there, and on no
  file standing where a directory has to be made (`congr`, `clear`).

Two updates whose places are not nested commute (`UpdatesAt.comm`), success and failure included.
That is the whole point of the notion: commutation of long scripts is reduced to checking, step by
step, where each step works.

`StaysAt mk d f` is the first half alone, for a step that may look elsewhere.

`LocalAt d f` is the same without making directories, for the steps that run once `d` is there;
they compose (`LocalAt.bind`, `LocalAt.foldlM`).

`Related R f g` is for steps that do not see some difference between two states: from states related
by `R` they both fail or end in states that are related again.
-/

set_option autoImplicit false

namespace DirTree

variable {ν γ : Type}

/-- Neither path lies at or below the other. -/
def Apart (d e : List ν) : Prop := ¬d <+: e ∧ ¬e <+: d

instance [DecidableEq ν] (d e : List ν) : Decidable (Apart d e) :=
  inferInstanceAs (Decidable (¬d <+: e ∧ ¬e <+: d))

theorem Apart.symm {d e : List ν} (h : Apart d e) : Apart e d := ⟨h.2, h.1⟩

/-- Nothing lies below both of two places that are apart. -/
theorem Apart.not_below {d e q : List ν} (h : Apart d e) (hd : d <+: q) : ¬e <+: q := fun he ↦
  (List.prefix_or_prefix_of_prefix hd he).elim h.1 h.2

/-- The two trees agree at and below `d`. -/
def AgreeBelow (d : List ν) (t u : Tree ν γ) : Prop := ∀ q, d <+: q → t.get q = u.get q

theorem AgreeBelow.symm {d : List ν} {t u : Tree ν γ} (h : AgreeBelow d t u) : AgreeBelow d u t :=
  fun q hq ↦ (h q hq).symm

theorem AgreeBelow.refl (d : List ν) (t : Tree ν γ) : AgreeBelow d t t := fun _ _ ↦ rfl

theorem AgreeBelow.trans {d : List ν} {t u v : Tree ν γ} (h : AgreeBelow d t u)
    (h' : AgreeBelow d u v) : AgreeBelow d t v := fun q hq ↦ (h q hq).trans (h' q hq)

/-- No file stands where a directory leading to `d` has to be. -/
def ClearAbove (d : List ν) (t : Tree ν γ) : Prop :=
  ∀ q, q <+: d → q ≠ d → ∀ c, t.get q ≠ some (.file c)

/-! ## Steps inside a directory -/

/-- `f` changes only what is at and below `d`. -/
structure FramedAt (d : List ν) (f : Tree ν γ → Option (Tree ν γ)) : Prop where
  frame : ∀ {t t'}, f t = some t' → ∀ q, ¬d <+: q → t'.get q = t.get q

namespace FramedAt

variable {d : List ν} {f g : Tree ν γ → Option (Tree ν γ)}

theorem some : FramedAt d (Option.some : Tree ν γ → Option (Tree ν γ)) where
  frame h _ _ := by cases h; rfl

theorem bind (hf : FramedAt d f) (hg : FramedAt d g) : FramedAt d fun t ↦ f t >>= g where
  frame {t t'} h q hq := by
    obtain ⟨s, hs, hst⟩ := Option.bind_eq_some_iff.mp h
    rw [hg.frame hst q hq, hf.frame hs q hq]

theorem ite {b : Tree ν γ → Bool} (hf : FramedAt d f) (hg : FramedAt d g) :
    FramedAt d fun t ↦ if b t = true then f t else g t where
  frame {t t'} h q hq := by
    by_cases hb : b t = true
    · exact hf.frame ((if_pos hb).symm.trans h) q hq
    · exact hg.frame ((if_neg hb).symm.trans h) q hq

theorem foldlM {α : Type} {k : Tree ν γ → α → Option (Tree ν γ)} (l : List α)
    (hk : ∀ a ∈ l, FramedAt d fun t ↦ k t a) : FramedAt d fun t ↦ l.foldlM k t := by
  induction l with
  | nil => exact FramedAt.some
  | cons a l ih =>
    simp only [List.foldlM_cons]
    exact (hk a List.mem_cons_self).bind (ih fun b hb ↦ hk b (List.mem_cons_of_mem a hb))

end FramedAt

/-- `f` looks at and changes only what is at and below `d`. -/
structure LocalAt (d : List ν) (f : Tree ν γ → Option (Tree ν γ)) : Prop extends FramedAt d f where
  congr : ∀ {t u t'}, AgreeBelow d t u → f t = some t' → ∃ u', f u = some u' ∧ AgreeBelow d t' u'

/-- `r` reads only what is at and below `d`. -/
def ReadsBelow {α : Type} (d : List ν) (r : Tree ν γ → α) : Prop :=
  ∀ t u, AgreeBelow d t u → r t = r u

namespace LocalAt

variable {d : List ν} {f g : Tree ν γ → Option (Tree ν γ)}

theorem some : LocalAt d (Option.some : Tree ν γ → Option (Tree ν γ)) where
  toFramedAt := FramedAt.some
  congr {_ u _} hag h := ⟨u, rfl, by cases h; exact hag⟩

theorem none : LocalAt d (fun _ : Tree ν γ ↦ (Option.none : Option (Tree ν γ))) where
  frame h := by cases h
  congr _ h := by cases h

theorem bind (hf : LocalAt d f) (hg : LocalAt d g) : LocalAt d fun t ↦ f t >>= g where
  toFramedAt := hf.toFramedAt.bind hg.toFramedAt
  congr {t u t'} hag h := by
    obtain ⟨s, hs, hst⟩ := Option.bind_eq_some_iff.mp h
    obtain ⟨v, hv, hsv⟩ := hf.congr hag hs
    obtain ⟨u', hu', htu⟩ := hg.congr hsv hst
    exact ⟨u', Option.bind_eq_some_iff.mpr ⟨v, hv, hu'⟩, htu⟩

/-- A step that first reads something below `d` and goes on with what it read. -/
theorem bindRead {α : Type} {r : Tree ν γ → Option α} {k : α → Tree ν γ → Option (Tree ν γ)}
    (hr : ReadsBelow d r) (hk : ∀ a, LocalAt d (k a)) :
    LocalAt d fun t ↦ r t >>= fun a ↦ k a t where
  frame {t t'} h q hq := by
    obtain ⟨a, -, ha⟩ := Option.bind_eq_some_iff.mp h
    exact (hk a).frame ha q hq
  congr {t u t'} hag h := by
    obtain ⟨a, hra, ha⟩ := Option.bind_eq_some_iff.mp h
    obtain ⟨u', hu', htu⟩ := (hk a).congr hag ha
    exact ⟨u', Option.bind_eq_some_iff.mpr ⟨a, by rw [← hr t u hag]; exact hra, hu'⟩, htu⟩

/-- A step that depends on something read below `d`. -/
theorem read {α : Type} {r : Tree ν γ → α} {k : α → Tree ν γ → Option (Tree ν γ)}
    (hr : ReadsBelow d r) (hk : ∀ a, LocalAt d (k a)) : LocalAt d fun t ↦ k (r t) t where
  frame {t t'} h q hq := (hk (r t)).frame h q hq
  congr {t u t'} hag h := by
    obtain ⟨u', hu', htu⟩ := (hk (r t)).congr hag h
    exact ⟨u', by rw [← hr t u hag]; exact hu', htu⟩

theorem foldlM {α : Type} {k : Tree ν γ → α → Option (Tree ν γ)} (l : List α)
    (hk : ∀ a ∈ l, LocalAt d fun t ↦ k t a) : LocalAt d fun t ↦ l.foldlM k t := by
  induction l with
  | nil => exact LocalAt.some
  | cons a l ih =>
    simp only [List.foldlM_cons]
    exact (hk a List.mem_cons_self).bind (ih fun b hb ↦ hk b (List.mem_cons_of_mem a hb))

end LocalAt

/-- A condition read below `d` in front of a step. -/
theorem LocalAt.ite {d : List ν} {b : Tree ν γ → Bool} {f g : Tree ν γ → Option (Tree ν γ)}
    (hb : ReadsBelow d b) (hf : LocalAt d f) (hg : LocalAt d g) :
    LocalAt d fun t ↦ if b t = true then f t else g t :=
  LocalAt.read (k := fun b t ↦ if b = true then f t else g t) hb fun a ↦ by
    cases a
    · simpa using hg
    · simpa using hf

/-! ## Reading below a directory -/

theorem readsBelow_read {d q : List ν} (h : d <+: q) : ReadsBelow d fun t : Tree ν γ ↦ t.read q :=
  fun t u hag ↦ by simp only [Tree.read, hag q h]

theorem readsBelow_isFile {d q : List ν} (h : d <+: q) :
    ReadsBelow d fun t : Tree ν γ ↦ t.isFile q :=
  fun t u hag ↦ by simp only [Tree.isFile, hag q h]

theorem readsBelow_has {d q : List ν} (h : d <+: q) : ReadsBelow d fun t : Tree ν γ ↦ t.has q :=
  fun t u hag ↦ by simp only [Tree.has, hag q h]

theorem readsBelow_isDir {d q : List ν} (h : d <+: q) : ReadsBelow d fun t : Tree ν γ ↦ t.isDir q :=
  fun t u hag ↦ by simp only [Tree.isDir, hag q h]

theorem readsBelow_children [LinearOrder ν] (d : List ν) :
    ReadsBelow d fun t : Tree ν γ ↦ t.children d := fun t u hag ↦
  Tree.children_congr fun n ↦ by rw [hag (d ++ [n]) (List.prefix_append d [n])]

/-! ## Order does not matter -/

theorem foldlM_congr {α β : Type*} {f g : β → α → Option β} {l : List α} (b : β)
    (h : ∀ b, ∀ a ∈ l, f b a = g b a) : l.foldlM f b = l.foldlM g b := by
  induction l generalizing b with
  | nil => rfl
  | cons a l ih =>
    rw [List.foldlM_cons, List.foldlM_cons, h b a List.mem_cons_self]
    refine congrArg _ (funext fun b' ↦ ?_)
    exact ih b' fun b'' a' ha' ↦ h b'' a' (List.mem_cons_of_mem a ha')

/-- A step that commutes with every step of a list commutes with the whole list. -/
theorem foldlM_comm {σ α : Type} {f : σ → Option σ} {k : σ → α → Option σ} (l : List α)
    (h : ∀ a ∈ l, ∀ s, (f s >>= fun s ↦ k s a) = (k s a >>= f)) (s : σ) :
    (f s >>= fun s ↦ l.foldlM k s) = (l.foldlM k s >>= f) := by
  induction l generalizing s with
  | nil => simp
  | cons a l ih =>
    have ih' := fun s ↦ ih (fun b hb ↦ h b (List.mem_cons_of_mem a hb)) s
    simp only [List.foldlM_cons]
    calc (f s >>= fun s ↦ k s a >>= fun s ↦ l.foldlM k s)
        = ((f s >>= fun s ↦ k s a) >>= fun s ↦ l.foldlM k s) := by rw [bind_assoc]
      _ = (k s a >>= fun s ↦ f s >>= fun s ↦ l.foldlM k s) := by
        rw [h a List.mem_cons_self, bind_assoc]
      _ = ((k s a >>= fun s ↦ l.foldlM k s) >>= f) := by
        rw [bind_assoc]
        exact congrArg (k s a >>= ·) (funext ih')

/-- Two lists of steps, each step of the one commuting with each step of the other. -/
theorem foldlM_foldlM_comm {σ α β : Type} {k : σ → α → Option σ} {k' : σ → β → Option σ}
    (l : List α) (l' : List β)
    (h : ∀ a ∈ l, ∀ b ∈ l', ∀ s, (k s a >>= fun s ↦ k' s b) = (k' s b >>= fun s ↦ k s a)) (s : σ) :
    (l.foldlM k s >>= fun s ↦ l'.foldlM k' s) = (l'.foldlM k' s >>= fun s ↦ l.foldlM k s) :=
  foldlM_comm l' (f := fun s ↦ l.foldlM k s)
    (fun b hb s ↦
      (foldlM_comm l (f := fun s ↦ k' s b) (fun a ha s ↦ (h a ha b hb s).symm) s).symm) s

/-! ## The basic steps -/

section Steps

variable [DecidableEq ν]

/-- Writing a file below `d`. -/
theorem localAt_write (d : List ν) (n : ν) (c : γ) : LocalAt d fun t ↦ t.write (d ++ [n]) c where
  frame {t t'} h q hq := by
    rw [Tree.get_write h, if_neg]
    rintro rfl
    exact hq (List.prefix_append d [n])
  congr {t u t'} hag h := by
    have hw : t.writable (d ++ [n]) = u.writable (d ++ [n]) := by
      simp only [Tree.writable, List.dropLast_concat]
      have h1 : t.isDir d = u.isDir d := readsBelow_isDir (List.prefix_refl d) t u hag
      have h2 : t.isDir (d ++ [n]) = u.isDir (d ++ [n]) :=
        readsBelow_isDir (List.prefix_append d [n]) t u hag
      rw [h1, h2]
    have hs : (u.write (d ++ [n]) c).isSome := by
      rw [Tree.write_isSome, ← hw, ← Tree.write_isSome (c := c), h]
      rfl
    obtain ⟨u', hu'⟩ := Option.isSome_iff_exists.mp hs
    refine ⟨u', hu', fun q hq ↦ ?_⟩
    rw [Tree.get_write h, Tree.get_write hu', hag q hq]

/-- Removing something below `d`. -/
theorem localAt_rm (d : List ν) (n : ν) : LocalAt d fun t : Tree ν γ ↦ some (t.rm (d ++ [n])) where
  frame {t t'} h q hq := by
    cases h
    rw [Tree.get_rm, if_neg]
    exact fun hc ↦ hq ((List.prefix_append d [n]).trans hc.1)
  congr {t u t'} hag h := by
    cases h
    refine ⟨u.rm (d ++ [n]), rfl, fun q hq ↦ ?_⟩
    rw [Tree.get_rm, Tree.get_rm, hag q hq]

end Steps

/-! ## Updates -/

/-- `f` changes only what is at and below `d`; with `mk` it also makes the directories leading
there. -/
structure StaysAt (mk : Bool) (d : List ν) (f : Tree ν γ → Option (Tree ν γ)) : Prop where
  frame : ∀ {t t'}, f t = some t' → ∀ q, ¬d <+: q →
    (mk = true → q <+: d → t'.get q = some .dir) ∧
      (mk = false ∨ ¬q <+: d → t'.get q = t.get q)
  clear : ∀ {t t'}, f t = some t' → mk = true → ClearAbove d t

/-- `f` works at and below `d`: it changes nothing else, and looks at nothing else. -/
structure UpdatesAt (mk : Bool) (d : List ν) (f : Tree ν γ → Option (Tree ν γ)) : Prop
    extends StaysAt mk d f where
  congr : ∀ {t u t'}, AgreeBelow d t u → (mk = true → ClearAbove d u) → f t = some t' →
    ∃ u', f u = some u' ∧ AgreeBelow d t' u'

namespace StaysAt

variable {mk mk' : Bool} {d e : List ν} {f g : Tree ν γ → Option (Tree ν γ)}

/-- A step leaves a place that is apart from its own alone. -/
theorem agreeBelow (hf : StaysAt mk d f) (h : Apart d e) {t t' : Tree ν γ} (ht : f t = some t') :
    AgreeBelow e t t' := fun q hq ↦ by
  have hd : ¬d <+: q := h.symm.not_below hq
  exact ((hf.frame ht q hd).2 (.inr fun hc ↦ h.2 (hq.trans hc))).symm

/-- A directory stays, unless it is at or below the place of the step. -/
theorem dir_of_dir (hf : StaysAt mk d f) {t t' : Tree ν γ} (h : f t = some t')
    {x : List ν} (hx : t.get x = some .dir) (hd : ¬d <+: x) : t'.get x = some .dir := by
  have hframe := hf.frame h x hd
  by_cases hmk : mk = true ∧ x <+: d
  · exact hframe.1 hmk.1 hmk.2
  · rw [hframe.2 ?_, hx]
    rcases mk with _ | _
    · exact .inl rfl
    · exact .inr (by simpa using hmk)

/-- A step neither puts a file in the way of another place nor clears one away. -/
theorem clearAbove_iff (hf : StaysAt mk d f) (h : Apart d e) {t t' : Tree ν γ}
    (ht : f t = some t') : ClearAbove e t ↔ ClearAbove e t' := by
  refine forall₃_congr fun q hq hne ↦ ?_
  have hd : ¬d <+: q := fun hc ↦ h.1 (hc.trans hq)
  by_cases hmk : mk = true ∧ q <+: d
  · have hqd : q ≠ d := by rintro rfl; exact hd (List.prefix_refl q)
    refine iff_of_true (hf.clear ht hmk.1 q hmk.2 hqd) fun c ↦ ?_
    rw [(hf.frame ht q hd).1 hmk.1 hmk.2]
    simp
  · have hkeep : mk = false ∨ ¬q <+: d := by
      cases mk with
      | false => exact .inl rfl
      | true => exact .inr (by simpa using hmk)
    rw [(hf.frame ht q hd).2 hkeep]

/-- A framed step after it, which may also look at what was there before. -/
theorem bindOld {k : Tree ν γ → Tree ν γ → Option (Tree ν γ)} (hf : StaysAt mk d f)
    (hk : ∀ old, FramedAt d (k old)) : StaysAt mk d fun t ↦ f t >>= k t where
  frame {t t'} h q hq := by
    obtain ⟨s, hs, hst⟩ := Option.bind_eq_some_iff.mp h
    rw [(hk t).frame hst q hq]
    exact hf.frame hs q hq
  clear {t t'} h := by
    obtain ⟨s, hs, -⟩ := Option.bind_eq_some_iff.mp h
    exact hf.clear hs

theorem none : StaysAt mk d fun _ : Tree ν γ ↦ (Option.none : Option (Tree ν γ)) where
  frame h := by cases h
  clear h := by cases h

/-- A step that leaves its place as it is leaves everything as it is. -/
theorem fixes (hf : StaysAt mk d f) {s t : Tree ν γ} (hag : AgreeBelow d s t)
    (hd : mk = true → t.get d ≠ Option.none)
    (hcongr : (mk = true → ClearAbove d t) → ∃ t', f t = some t' ∧ AgreeBelow d s t') :
    f t = some t := by
  have habove : mk = true → ∀ q, q <+: d → q ≠ d → t.get q = Option.some .dir :=
    fun hmk q hq hne ↦ Tree.dir_of_below hq hne (hd hmk)
  have hclear : mk = true → ClearAbove d t := fun hmk q hq hne c hc ↦ by
    rw [habove hmk q hq hne] at hc
    cases hc
  obtain ⟨t', ht', hag'⟩ := hcongr hclear
  rw [ht']
  refine congrArg _ (Tree.ext_get fun q ↦ ?_)
  by_cases hq : d <+: q
  · rw [← hag' q hq, hag q hq]
  · have hframe := hf.frame ht' q hq
    by_cases hmk : mk = true ∧ q <+: d
    · rw [hframe.1 hmk.1 hmk.2, habove hmk.1 q hmk.2]
      rintro rfl
      exact hq (List.prefix_refl q)
    · refine hframe.2 ?_
      cases mk with
      | false => exact .inl rfl
      | true => exact .inr (by simpa using hmk)

/-- In a list of steps at places that are apart, each one finds at its place what was there at the
beginning, and what it leaves there is there at the end. -/
theorem of_foldlM {α : Type} {k : Tree ν γ → α → Option (Tree ν γ)} {m : α → Bool}
    {p : α → List ν} {l : List α} (hk : ∀ a ∈ l, StaysAt (m a) (p a) fun t ↦ k t a)
    (hp : (l.map p).Pairwise Apart) {t t' : Tree ν γ} (h : l.foldlM k t = some t') {a : α}
    (ha : a ∈ l) :
    ∃ s s', k s a = some s' ∧ AgreeBelow (p a) t s ∧ (ClearAbove (p a) t ↔ ClearAbove (p a) s) ∧
      AgreeBelow (p a) s' t' := by
  -- steps at other places do not get in the way
  have hothers : ∀ (l : List α), (∀ b ∈ l, StaysAt (m b) (p b) fun t ↦ k t b) →
      (∀ b ∈ l, Apart (p b) (p a)) → ∀ t t' : Tree ν γ, l.foldlM k t = some t' →
      AgreeBelow (p a) t t' ∧ (ClearAbove (p a) t ↔ ClearAbove (p a) t') := by
    intro l
    induction l with
    | nil =>
      intro _ _ t t' h
      cases h
      exact ⟨AgreeBelow.refl _ _, Iff.rfl⟩
    | cons b l ih =>
      intro hk hb t t' h
      rw [List.foldlM_cons] at h
      obtain ⟨s, hs, h⟩ := Option.bind_eq_some_iff.mp h
      have hb' := hb b List.mem_cons_self
      obtain ⟨hag, hclear⟩ := ih (fun c hc ↦ hk c (List.mem_cons_of_mem b hc))
        (fun c hc ↦ hb c (List.mem_cons_of_mem b hc)) s t' h
      exact ⟨((hk b List.mem_cons_self).agreeBelow hb' hs).trans hag,
        ((hk b List.mem_cons_self).clearAbove_iff hb' hs).trans hclear⟩
  obtain ⟨l₁, l₂, rfl⟩ := List.append_of_mem ha
  rw [List.foldlM_append] at h
  obtain ⟨s, hs, h⟩ := Option.bind_eq_some_iff.mp h
  rw [List.foldlM_cons] at h
  obtain ⟨s', hs', h⟩ := Option.bind_eq_some_iff.mp h
  rw [List.map_append, List.map_cons, List.pairwise_append, List.pairwise_cons] at hp
  obtain ⟨hag, hclear⟩ := hothers l₁ (fun b hb ↦ hk b (by simp [hb]))
    (fun b hb ↦ hp.2.2 _ (List.mem_map_of_mem hb) _ List.mem_cons_self) t s hs
  obtain ⟨hag', -⟩ := hothers l₂ (fun b hb ↦ hk b (by simp [hb]))
    (fun b hb ↦ (hp.2.1.1 _ (List.mem_map_of_mem hb)).symm) s' t' h
  exact ⟨s, s', hs', hag, hclear, hag'⟩

end StaysAt

namespace UpdatesAt

variable {mk mk' : Bool} {d e : List ν} {f g : Tree ν γ → Option (Tree ν γ)}

/-- One half of the commutation: if `f` and then `g` goes through, so does `g` and then `f`, with
the same result. -/
theorem comm_of_some (hf : UpdatesAt mk d f) (hg : UpdatesAt mk' e g) (h : Apart d e)
    {t t₁ t₂ : Tree ν γ} (h₁ : f t = some t₁) (h₂ : g t₁ = some t₂) :
    ∃ u, g t = some u ∧ f u = some t₂ := by
  have hclear : mk' = true → ClearAbove e t := fun hmk ↦
    (hf.clearAbove_iff h h₁).mpr (hg.clear h₂ hmk)
  obtain ⟨u, hu, hagu⟩ := hg.congr (hf.agreeBelow h h₁).symm hclear h₂
  have hcleard : mk = true → ClearAbove d u := fun hmk ↦
    (hg.clearAbove_iff h.symm hu).mp (hf.clear h₁ hmk)
  obtain ⟨v, hv, hagv⟩ := hf.congr (hg.agreeBelow h.symm hu) hcleard h₁
  refine ⟨u, hu, hv.trans (congrArg _ (Tree.ext_get fun q ↦ ?_))⟩
  by_cases hdq : d <+: q
  · rw [← hagv q hdq, hg.agreeBelow h.symm h₂ q hdq]
  by_cases heq : e <+: q
  · rw [← hf.agreeBelow h hv q heq, ← hagu q heq]
  -- above both places or beside them: the same directories are made in either order
  have hv' := hf.frame hv q hdq
  have hu' := hg.frame hu q heq
  have h₁' := hf.frame h₁ q hdq
  have h₂' := hg.frame h₂ q heq
  by_cases hd : mk = true ∧ q <+: d
  · rw [hv'.1 hd.1 hd.2]
    by_cases he : mk' = true ∧ q <+: e
    · rw [h₂'.1 he.1 he.2]
    · rw [h₂'.2 (by cases mk' <;> simp_all), h₁'.1 hd.1 hd.2]
  · rw [hv'.2 (by cases mk <;> simp_all)]
    by_cases he : mk' = true ∧ q <+: e
    · rw [h₂'.1 he.1 he.2, hu'.1 he.1 he.2]
    · rw [h₂'.2 (by cases mk' <;> simp_all), hu'.2 (by cases mk' <;> simp_all),
        h₁'.2 (by cases mk <;> simp_all)]

/-- **Updates at places that are apart commute.** -/
theorem comm (hf : UpdatesAt mk d f) (hg : UpdatesAt mk' e g) (h : Apart d e) (t : Tree ν γ) :
    (f t >>= g) = (g t >>= f) := by
  refine Option.ext fun s ↦ ?_
  simp only [Option.bind_eq_bind, Option.bind_eq_some_iff]
  constructor
  · rintro ⟨t₁, h₁, h₂⟩
    exact hf.comm_of_some hg h h₁ h₂
  · rintro ⟨t₁, h₁, h₂⟩
    exact hg.comm_of_some hf h.symm h₁ h₂

/-- A local step after an update at the same place. -/
theorem bind (hf : UpdatesAt mk d f) (hg : LocalAt d g) : UpdatesAt mk d fun t ↦ f t >>= g where
  toStaysAt := hf.toStaysAt.bindOld fun _ ↦ hg.toFramedAt
  congr {t u t'} hag hcl h := by
    obtain ⟨s, hs, hst⟩ := Option.bind_eq_some_iff.mp h
    obtain ⟨v, hv, hsv⟩ := hf.congr hag hcl hs
    obtain ⟨u', hu', htu⟩ := hg.congr hsv hst
    exact ⟨u', Option.bind_eq_some_iff.mpr ⟨v, hv, hu'⟩, htu⟩

theorem none : UpdatesAt mk d fun _ : Tree ν γ ↦ (Option.none : Option (Tree ν γ)) where
  toStaysAt := StaysAt.none
  congr _ _ h := by cases h

/-- A local step after an update at the same place that also looks at what was there before. -/
theorem bindOld {k : Tree ν γ → Tree ν γ → Option (Tree ν γ)} (hf : UpdatesAt mk d f)
    (hk : ∀ old, LocalAt d (k old))
    (hold : ∀ old old' t, AgreeBelow d old old' → k old t = k old' t) :
    UpdatesAt mk d fun t ↦ f t >>= k t where
  toStaysAt := hf.toStaysAt.bindOld fun old ↦ (hk old).toFramedAt
  congr {t u t'} hag hcl h := by
    obtain ⟨u', hu', htu⟩ := (hf.bind (hk t)).congr hag hcl h
    refine ⟨u', ?_, htu⟩
    rw [← hu']
    exact congrArg (f u >>= ·) (funext fun v ↦ (hold t u v hag).symm)

/-- An update that first reads something below its place. -/
theorem read {α : Type} {r : Tree ν γ → α} {k : α → Tree ν γ → Option (Tree ν γ)}
    (hr : ReadsBelow d r) (hk : ∀ a, UpdatesAt mk d (k a)) : UpdatesAt mk d fun t ↦ k (r t) t where
  frame {t _} h := (hk (r t)).frame h
  clear {t _} h := (hk (r t)).clear h
  congr {t u t'} hag hcl h := by
    obtain ⟨u', hu', htu⟩ := (hk (r t)).congr hag hcl h
    exact ⟨u', by rw [← hr t u hag]; exact hu', htu⟩

/-- What an update leaves as it is at its place it leaves alone on any other tree. -/
theorem fixes (hf : UpdatesAt mk d f) {s t : Tree ν γ} (hs : f s = some s)
    (hag : AgreeBelow d s t) (hd : mk = true → t.get d ≠ Option.none) : f t = some t :=
  hf.toStaysAt.fixes hag hd fun hclear ↦ hf.congr hag hclear hs

end UpdatesAt

section Replace

variable [DecidableEq ν]

/-- `rm -rf d` -/
theorem updatesAt_rm (d : List ν) : UpdatesAt false d fun t : Tree ν γ ↦ some (t.rm d) where
  frame {t t'} h q hq := by
    cases h
    refine ⟨fun hc ↦ absurd hc (by simp), fun _ ↦ ?_⟩
    rw [Tree.get_rm, if_neg fun hc ↦ hq hc.1]
  clear _ hc := absurd hc (by simp)
  congr {t u t'} hag _ h := by
    cases h
    refine ⟨u.rm d, rfl, fun q hq ↦ ?_⟩
    rw [Tree.get_rm, Tree.get_rm, hag q hq]

/-- `rm -rf d; mkdir -p d; cp -a s/. d/` -/
def replace (t : Tree ν γ) (d : List ν) (s : Tree ν γ) : Option (Tree ν γ) := do
  let t ← (t.rm d).mkdirs d
  t.graft d s

/-- Replacing a directory goes through exactly when no file is in the way. -/
theorem replace_isSome {t s : Tree ν γ} {d : List ν} :
    (replace t d s).isSome = true ↔ ClearAbove d t := by
  have hclear : (t.rm d).clear d = true ↔ ClearAbove d t := by
    rw [Tree.clear_iff]
    refine forall₂_congr fun q hq ↦ ?_
    by_cases hqd : q = d
    · subst hqd
      refine iff_of_true (fun c ↦ ?_) fun hc ↦ absurd rfl hc
      rw [Tree.get_rm]
      by_cases h0 : q = []
      · simp [h0, t.root]
      · simp [h0]
    · have hnot : ¬(d <+: q ∧ q ≠ []) := fun hc ↦ hqd (hq.eq_of_length_le hc.1.length_le)
      rw [Tree.get_rm, if_neg hnot]
      exact ⟨fun h _ ↦ h, fun h ↦ h hqd⟩
  rw [← hclear, ← Tree.mkdirs_isSome, replace]
  cases hm : (t.rm d).mkdirs d with
  | none => simp
  | some u =>
    have hdir : u.isDir d = true := by
      rw [Tree.isDir_iff, Tree.get_mkdirs hm, if_pos (List.prefix_refl d)]
    simp [Tree.graft_isSome, hdir]

theorem get_replace {t t' s : Tree ν γ} {d : List ν} (h : replace t d s = some t') (q : List ν) :
    t'.get q = if d <+: q then s.get (q.drop d.length)
      else if q <+: d then some .dir else t.get q := by
  obtain ⟨u, hu, hut⟩ := Option.bind_eq_some_iff.mp h
  rw [Tree.get_graft hut]
  by_cases hq : d <+: q
  · rw [if_pos hq, if_pos hq]
  · rw [if_neg hq, if_neg hq, Tree.get_mkdirs hu, Tree.get_rm,
      if_neg (c := d <+: q ∧ q ≠ []) fun hc ↦ hq hc.1]

/-- What is in the replaced directory. -/
theorem get_replace_concat {t t' s : Tree ν γ} {d : List ν} (h : replace t d s = some t') (n : ν) :
    t'.get (d ++ [n]) = s.get [n] := by
  rw [get_replace h, if_pos (List.prefix_append _ _), List.drop_left]

theorem updatesAt_replace (d : List ν) (s : Tree ν γ) :
    UpdatesAt true d fun t : Tree ν γ ↦ replace t d s where
  frame {t t'} h q hq := by
    rw [get_replace h, if_neg hq]
    refine ⟨fun _ hqd ↦ if_pos hqd, fun hor ↦ if_neg ?_⟩
    simpa using hor
  clear {t t'} h _ := replace_isSome.mp (by rw [h]; rfl)
  congr {t u t'} hag hcl h := by
    obtain ⟨u', hu'⟩ := Option.isSome_iff_exists.mp (replace_isSome (s := s).mpr (hcl rfl))
    refine ⟨u', hu', fun q hq ↦ ?_⟩
    rw [get_replace h, get_replace hu', if_pos hq, if_pos hq]

end Replace

end DirTree

/-! ## Steps that respect a relation -/

/-- Run on related states, the two steps both fail or end in related states. -/
def Related {σ : Type} (R : σ → σ → Prop) (f g : σ → Option σ) : Prop :=
  ∀ s s', R s s' → Option.Rel R (f s) (g s')

namespace Related

variable {σ α : Type} {R : σ → σ → Prop} {f f' g g' : σ → Option σ}

theorem some : Related R Option.some Option.some := fun _ _ h ↦ .some h

theorem none : Related R (fun _ ↦ Option.none) fun _ ↦ Option.none := fun _ _ _ ↦ .none

theorem bind (hf : Related R f f') (hg : Related R g g') :
    Related R (fun s ↦ f s >>= g) fun s ↦ f' s >>= g' := fun s s' h ↦ by
  have hrel := hf s s' h
  show Option.Rel R (f s >>= g) (f' s' >>= g')
  generalize f s = x, f' s' = y at hrel
  rcases hrel with ⟨hab⟩ | _
  · exact hg _ _ hab
  · exact .none

/-- Steps that first read something both states agree on. -/
theorem bindRead {r : σ → Option α} {k k' : α → σ → Option σ} (hr : ∀ s s', R s s' → r s = r s')
    (hk : ∀ a, Related R (k a) (k' a)) :
    Related R (fun s ↦ r s >>= fun a ↦ k a s) fun s ↦ r s >>= fun a ↦ k' a s := fun s s' h ↦ by
  show Option.Rel R (r s >>= fun a ↦ k a s) (r s' >>= fun a ↦ k' a s')
  rw [hr s s' h]
  cases r s' with
  | none => exact .none
  | some a => exact hk a s s' h

theorem ite {b b' : σ → Bool} (hb : ∀ s s', R s s' → b s = b' s') (hf : Related R f f')
    (hg : Related R g g') :
    Related R (fun s ↦ if b s = true then f s else g s) fun s ↦
      if b' s = true then f' s else g' s :=
  fun s s' h ↦ by
    show Option.Rel R (if b s = true then f s else g s) (if b' s' = true then f' s' else g' s')
    rw [hb s s' h]
    split
    · exact hf s s' h
    · exact hg s s' h

theorem foldlM {k k' : σ → α → Option σ} (l : List α)
    (hk : ∀ a ∈ l, Related R (fun s ↦ k s a) fun s ↦ k' s a) :
    Related R (fun s ↦ l.foldlM k s) fun s ↦ l.foldlM k' s := by
  induction l with
  | nil => exact Related.some
  | cons a l ih =>
    simp only [List.foldlM_cons]
    exact (hk a List.mem_cons_self).bind (ih fun b hb ↦ hk b (List.mem_cons_of_mem a hb))

/-- What the one step ends in, the other one ends in up to the relation. -/
theorem exists_of_some (h : Related R f g) {s s' t : σ} (hs : R s s') (ht : f s = Option.some t) :
    ∃ t', g s' = Option.some t' ∧ R t t' := by
  have hrel := h s s' hs
  rw [ht] at hrel
  cases hg : g s' with
  | none => rw [hg] at hrel; cases hrel
  | some t' =>
    rw [hg] at hrel
    rcases hrel with ⟨hr⟩
    exact ⟨t', rfl, hr⟩

end Related
