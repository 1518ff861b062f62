import Mathlib.Data.List.Sort
import Mathlib.Data.List.Count

/-!
# Ranking a list

A comparison that someone else answers is an order on the elements at hand and nothing more
(`PreorderOn`).  A stable sort by it, highest first, is still determined: of two elements the one
that compares higher comes first, and of two that compare equal the one that came first before
(`Ahead`, `pairwise_ranked`).  So an element is among the first `n` exactly if fewer than `n` are
ahead of it (`mem_take_ranked`), which says what is kept without mentioning the sort, and they stay
the first `n` if some of the others are left out (`take_ranked_filter`).
-/

set_option autoImplicit false

namespace Ranking

variable {α : Type} (cmp : α → α → Ordering)

/-- The comparison is a total preorder on the elements of `s`. -/
structure PreorderOn (s : Set α) : Prop where
  swap : ∀ a ∈ s, ∀ b ∈ s, cmp b a = (cmp a b).swap
  trans : ∀ a ∈ s, ∀ b ∈ s, ∀ c ∈ s, cmp a b ≠ .lt → cmp b c ≠ .lt → cmp a c ≠ .lt

/-- The list, highest first; what compares equal keeps its order. -/
def ranked (l : List α) : List α := l.insertionSort fun a b ↦ cmp a b ≠ .lt

/-- `a` is ahead of `b`: higher, or equal and ahead in the order `R`. -/
def Ahead (R : α → α → Prop) (a b : α) : Prop := cmp a b = .gt ∨ cmp a b = .eq ∧ R a b

variable {cmp} {R : α → α → Prop} {s : Set α}

instance [DecidableRel R] : DecidableRel (Ahead cmp R) := fun a b ↦
  inferInstanceAs (Decidable (cmp a b = .gt ∨ cmp a b = .eq ∧ R a b))

theorem ranked_perm (l : List α) : (ranked cmp l).Perm l := List.perm_insertionSort _ _

theorem PreorderOn.mono {s' : Set α} (h : PreorderOn cmp s) (hs : s' ⊆ s) : PreorderOn cmp s' where
  swap a ha b hb := h.swap a (hs ha) b (hs hb)
  trans a ha b hb c hc := h.trans a (hs ha) b (hs hb) c (hs hc)

theorem PreorderOn.comap {β : Type} (h : PreorderOn cmp s) (f : β → α) :
    PreorderOn (fun a b ↦ cmp (f a) (f b)) (Set.preimage f s) where
  swap _ ha _ hb := h.swap _ ha _ hb
  trans _ ha _ hb _ hc := h.trans _ ha _ hb _ hc

/-- A comparison that is an order everywhere. -/
theorem preorderOn_of_transCmp [Std.TransCmp cmp] (s : Set α) : PreorderOn cmp s where
  swap _ _ _ _ := Std.OrientedCmp.eq_swap
  trans _ _ _ _ _ _ hab hbc := Ordering.isGE_iff_ne_lt.mp (Std.TransCmp.isGE_trans
    (Ordering.isGE_iff_ne_lt.mpr hab) (Ordering.isGE_iff_ne_lt.mpr hbc))

theorem Ahead.ne_lt {a b : α} (h : Ahead cmp R a b) : cmp a b ≠ .lt := by
  rcases h with h | ⟨h, -⟩ <;> rw [h] <;> decide

theorem ahead_of_ne_lt {a b : α} (h : cmp a b ≠ .lt) (hR : R a b) : Ahead cmp R a b := by
  rcases hc : cmp a b with _ | _ | _
  · exact absurd hc h
  · exact .inr ⟨hc, hR⟩
  · exact .inl hc

/-- Two elements are not ahead of each other. -/
theorem PreorderOn.ahead_asymm (h : PreorderOn cmp s) (hR : ∀ a b, R a b → ¬R b a) {a b : α}
    (ha : a ∈ s) (hb : b ∈ s) (hab : Ahead cmp R a b) : ¬Ahead cmp R b a := by
  have hswap := h.swap a ha b hb
  rintro (hba | ⟨hba, hR'⟩)
  · rcases hab with hab | ⟨hab, -⟩ <;> rw [hab, hba] at hswap <;> cases hswap
  · rcases hab with hab | ⟨-, hR''⟩
    · rw [hab, hba] at hswap
      cases hswap
    · exact hR a b hR'' hR'

/-- Inserting an element that was ahead of all the others. -/
theorem pairwise_orderedInsert (h : PreorderOn cmp s) {a : α} (ha : a ∈ s) {l : List α}
    (hl : ∀ b ∈ l, b ∈ s) (hR : ∀ b ∈ l, R a b) (hp : l.Pairwise (Ahead cmp R)) :
    (l.orderedInsert (fun a b ↦ cmp a b ≠ .lt) a).Pairwise (Ahead cmp R) := by
  induction l with
  | nil => exact List.pairwise_singleton _ _
  | cons b l ih =>
    obtain ⟨hb, hp'⟩ := List.pairwise_cons.mp hp
    have hbs : b ∈ s := hl b List.mem_cons_self
    rw [List.orderedInsert_cons]
    split
    · rename_i hab
      refine List.pairwise_cons.mpr ⟨fun c hc ↦ ?_, hp⟩
      refine ahead_of_ne_lt ?_ (hR c hc)
      rcases List.mem_cons.mp hc with rfl | hcl
      · exact hab
      · exact h.trans a ha b hbs c (hl c hc) hab (hb c hcl).ne_lt
    · rename_i hab
      have hba : cmp b a = .gt := by
        rw [h.swap a ha b hbs, not_not.mp hab]
        rfl
      refine List.pairwise_cons.mpr ⟨fun c hc ↦ ?_, ih (fun c hc ↦ hl c (List.mem_cons_of_mem b hc))
        (fun c hc ↦ hR c (List.mem_cons_of_mem b hc)) hp'⟩
      rcases List.mem_cons.mp ((List.perm_orderedInsert _ a l).mem_iff.mp hc) with rfl | hcl
      · exact .inl hba
      · exact hb c hcl

/-- **The order of a ranked list.** -/
theorem pairwise_ranked (h : PreorderOn cmp s) {l : List α} (hl : ∀ a ∈ l, a ∈ s)
    (hR : l.Pairwise R) : (ranked cmp l).Pairwise (Ahead cmp R) := by
  induction l with
  | nil => exact List.Pairwise.nil
  | cons a l ih =>
    obtain ⟨ha, hR'⟩ := List.pairwise_cons.mp hR
    have hperm : ∀ b, b ∈ ranked cmp l ↔ b ∈ l := fun b ↦ (ranked_perm l).mem_iff
    exact pairwise_orderedInsert h (hl a List.mem_cons_self)
      (fun b hb ↦ hl b (List.mem_cons_of_mem a ((hperm b).mp hb)))
      (fun b hb ↦ ha b ((hperm b).mp hb)) (ih (fun b hb ↦ hl b (List.mem_cons_of_mem a hb)) hR')

/-- In a list without repetitions the place of an element is the number of those before it. -/
theorem mem_take_append_cons {l₁ l₂ : List α} {x : α} (hx : x ∉ l₁) (n : Nat) :
    x ∈ (l₁ ++ x :: l₂).take n ↔ l₁.length < n := by
  rw [List.take_append, List.mem_append]
  constructor
  · rintro (hmem | hmem)
    · exact absurd (List.mem_of_mem_take hmem) hx
    · by_contra hle
      rw [Nat.sub_eq_zero_of_le (Nat.le_of_not_lt hle)] at hmem
      cases hmem
  · intro hlt
    obtain ⟨m, hm⟩ : ∃ m, n - l₁.length = m + 1 := ⟨n - l₁.length - 1, by omega⟩
    rw [hm, List.take_succ_cons]
    exact .inr List.mem_cons_self

/-- **Who is among the first `n`**: those with fewer than `n` ahead of them. -/
theorem mem_take_ranked [DecidableRel R] (h : PreorderOn cmp s) (hasymm : ∀ a b, R a b → ¬R b a)
    {l : List α} (hl : ∀ a ∈ l, a ∈ s) (hR : l.Pairwise R) {x : α} (hx : x ∈ l) (n : Nat) :
    x ∈ (ranked cmp l).take n ↔ l.countP (fun a ↦ Ahead cmp R a x) < n := by
  have hperm : (ranked cmp l).Perm l := ranked_perm l
  rw [← hperm.countP_eq]
  have hp := pairwise_ranked h hl hR
  have hmem : ∀ a ∈ ranked cmp l, a ∈ s := fun a ha ↦ hl a (hperm.mem_iff.mp ha)
  obtain ⟨l₁, l₂, hsplit⟩ := List.append_of_mem (hperm.mem_iff.mpr hx)
  rw [hsplit] at hp hmem ⊢
  obtain ⟨-, hp₂, hcross⟩ := List.pairwise_append.mp hp
  have hxs : x ∈ s := hl x hx
  have hself : ¬Ahead cmp R x x := fun hc ↦ h.ahead_asymm hasymm hxs hxs hc hc
  have hahead : ∀ a ∈ l₁, Ahead cmp R a x := fun a ha ↦ hcross a ha x List.mem_cons_self
  have hbehind : ∀ a ∈ l₂, ¬Ahead cmp R a x := fun a ha ↦
    h.ahead_asymm hasymm hxs (hmem a (by simp [ha])) ((List.pairwise_cons.mp hp₂).1 a ha)
  have hcount : (l₁ ++ x :: l₂).countP (fun a ↦ decide (Ahead cmp R a x)) = l₁.length := by
    rw [List.countP_append, List.countP_cons, List.countP_eq_length.mpr (by simpa using hahead),
      List.countP_eq_zero.mpr (by simpa using hbehind)]
    simp [hself]
  rw [hcount, mem_take_append_cons]
  exact fun hc ↦ hself (hahead x hc)

/-- Leaving some elements out does not change the order of the others. -/
theorem ranked_filter (h : PreorderOn cmp s) (hasymm : ∀ a b, R a b → ¬R b a) {l : List α}
    (hl : ∀ a ∈ l, a ∈ s) (hR : l.Pairwise R) (p : α → Bool) :
    ranked cmp (l.filter p) = (ranked cmp l).filter p := by
  have hperm : (ranked cmp (l.filter p)).Perm ((ranked cmp l).filter p) :=
    (ranked_perm _).trans ((ranked_perm l).filter p).symm
  refine hperm.eq_of_pairwise (fun a b ha hb hab hba ↦ ?_) (pairwise_ranked h ?_ (hR.filter p))
    ((pairwise_ranked h hl hR).filter p)
  · have has := hl a (List.mem_of_mem_filter ((ranked_perm _).mem_iff.mp ha))
    have hbs := hl b ((ranked_perm l).mem_iff.mp (List.mem_of_mem_filter hb))
    exact absurd hba (h.ahead_asymm hasymm has hbs hab)
  · exact fun a ha ↦ hl a (List.mem_of_mem_filter ha)

/-- **The first `n` stay the first `n`** if only others are left out. -/
theorem take_ranked_filter (h : PreorderOn cmp s) (hasymm : ∀ a b, R a b → ¬R b a) {l : List α}
    (hl : ∀ a ∈ l, a ∈ s) (hR : l.Pairwise R) {n : Nat} {p : α → Bool}
    (hp : ∀ a ∈ (ranked cmp l).take n, p a = true) :
    (ranked cmp (l.filter p)).take n = (ranked cmp l).take n := by
  rw [ranked_filter h hasymm hl hR]
  conv_lhs => rw [← List.take_append_drop n (ranked cmp l), List.filter_append,
    List.filter_eq_self.mpr hp]
  rcases Nat.le_total n (ranked cmp l).length with hle | hle
  · exact List.take_left' (List.length_take_of_le hle)
  · rw [List.drop_eq_nil_of_le hle, List.filter_nil, List.append_nil, List.take_take, min_self]

end Ranking
