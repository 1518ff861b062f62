import Mathlib.Data.List.Basic

/-!
# Memory and its owners

Cells of memory that are allocated under names that are not used again.  Nobody owns a cell that is
not allocated, and no cell has two owners (`Owned`).  A cell that is allocated and has no owner is
lost (`Lost`): nobody will free it.

There is one rule for each thing that a step of a system may do with its cells: nothing (`congr`),
one is allocated (`alloc`), one is freed (`free`), or some of the owners let go of theirs without
freeing them (`drop`).  Only the last one loses cells.
-/

set_option autoImplicit false

namespace Ownership

variable {ι : Type*} {owns owns' : ι → Nat → Prop} {cells : List Nat} {next : Nat}

structure Owned (owns : ι → Nat → Prop) (cells : List Nat) (next : Nat) : Prop where
  live : ∀ i c, owns i c → c ∈ cells
  alone : ∀ i j c, owns i c → owns j c → i = j
  fresh : ∀ c ∈ cells, c < next
  nodup : cells.Nodup

def Lost (owns : ι → Nat → Prop) (cells : List Nat) : Prop := ∃ c ∈ cells, ∀ i, ¬ owns i c

theorem not_lost_nil : ¬ Lost owns [] := by
  simp [Lost]

/-- When nobody owns anything any more, what is there is lost. -/
theorem lost_iff_of_none (h : ∀ i c, ¬ owns i c) : Lost owns cells ↔ cells ≠ [] := by
  simp [Lost, h, List.eq_nil_iff_forall_not_mem]

theorem Owned.congr (h : Owned owns cells next) (howns : ∀ i c, owns' i c ↔ owns i c) :
    Owned owns' cells next ∧ (Lost owns' cells ↔ Lost owns cells) := by
  obtain rfl : owns' = owns := funext fun i ↦ funext fun c ↦ propext (howns i c)
  exact ⟨h, Iff.rfl⟩

/-- The cells that an owner lets go of are lost. -/
theorem Owned.drop (h : Owned owns cells next) (hsub : ∀ i c, owns' i c → owns i c) :
    Owned owns' cells next ∧
      (Lost owns' cells ↔ Lost owns cells ∨ ∃ i c, owns i c ∧ ¬ owns' i c) := by
  refine ⟨⟨fun i c hc ↦ h.live i c (hsub i c hc), fun i j c hi hj ↦ ?_, h.fresh, h.nodup⟩,
    ⟨?_, ?_⟩⟩
  · exact h.alone i j c (hsub i c hi) (hsub j c hj)
  · rintro ⟨c, hc, hnone⟩
    by_cases hown : ∃ i, owns i c
    · obtain ⟨i, hi⟩ := hown
      exact .inr ⟨i, c, hi, hnone i⟩
    · exact .inl ⟨c, hc, not_exists.mp hown⟩
  · rintro (⟨c, hc, hnone⟩ | ⟨i, c, hi, hnot⟩)
    · exact ⟨c, hc, fun i hi ↦ hnone i (hsub i c hi)⟩
    · refine ⟨c, h.live i c hi, fun j hj ↦ hnot ?_⟩
      rwa [h.alone i j c hi (hsub j c hj)]

/-- A cell is allocated for `j`. -/
theorem Owned.alloc (h : Owned owns cells next) {j : ι}
    (howns : ∀ i c, owns' i c ↔ i = j ∧ c = next ∨ owns i c) :
    Owned owns' (next :: cells) (next + 1) ∧ (Lost owns' (next :: cells) ↔ Lost owns cells) := by
  have hne : ∀ {i c}, owns i c → c ≠ next := fun hc ↦ Nat.ne_of_lt (h.fresh _ (h.live _ _ hc))
  refine ⟨⟨fun i c hc ↦ ?_, fun i k c hi hk ↦ ?_, fun c hc ↦ ?_, ?_⟩, ?_⟩
  · obtain ⟨-, rfl⟩ | hc := (howns i c).mp hc
    · exact List.mem_cons_self
    · exact List.mem_cons_of_mem _ (h.live i c hc)
  · obtain ⟨rfl, hc⟩ | hi := (howns i c).mp hi
    · obtain ⟨rfl, -⟩ | hk := (howns k c).mp hk
      · rfl
      · exact absurd hc (hne hk)
    · obtain ⟨rfl, hc⟩ | hk := (howns k c).mp hk
      · exact absurd hc (hne hi)
      · exact h.alone i k c hi hk
  · obtain rfl | hc := List.mem_cons.mp hc
    · exact Nat.lt_succ_self _
    · exact Nat.lt_succ_of_lt (h.fresh c hc)
  · exact List.nodup_cons.mpr ⟨fun hmem ↦ Nat.lt_irrefl _ (h.fresh _ hmem), h.nodup⟩
  · simp only [Lost, howns, List.mem_cons, not_or]
    constructor
    · rintro ⟨c, rfl | hc, hnone⟩
      · exact absurd ⟨rfl, rfl⟩ (hnone j).1
      · exact ⟨c, hc, fun i ↦ (hnone i).2⟩
    · rintro ⟨c, hc, hnone⟩
      exact ⟨c, .inr hc, fun i ↦ ⟨fun heq ↦ Nat.ne_of_lt (h.fresh c hc) heq.2, hnone i⟩⟩

/-- The cell of an owner is freed. -/
theorem Owned.free (h : Owned owns cells next) {j : ι} {b : Nat} (hown : owns j b)
    (howns : ∀ i c, owns' i c ↔ c ≠ b ∧ owns i c) :
    Owned owns' (cells.erase b) next ∧ (Lost owns' (cells.erase b) ↔ Lost owns cells) := by
  have hmem : ∀ c, c ∈ cells.erase b ↔ c ≠ b ∧ c ∈ cells := fun c ↦ h.nodup.mem_erase_iff
  refine ⟨⟨fun i c hc ↦ ?_, fun i k c hi hk ↦ ?_, fun c hc ↦ ?_, h.nodup.erase b⟩, ⟨?_, ?_⟩⟩
  · obtain ⟨hne, hc⟩ := (howns i c).mp hc
    exact (hmem c).mpr ⟨hne, h.live i c hc⟩
  · exact h.alone i k c ((howns i c).mp hi).2 ((howns k c).mp hk).2
  · exact h.fresh c ((hmem c).mp hc).2
  · rintro ⟨c, hc, hnone⟩
    obtain ⟨hne, hc⟩ := (hmem c).mp hc
    exact ⟨c, hc, fun i hi ↦ hnone i ((howns i c).mpr ⟨hne, hi⟩)⟩
  · rintro ⟨c, hc, hnone⟩
    refine ⟨c, (hmem c).mpr ⟨?_, hc⟩, fun i hi ↦ hnone i ((howns i c).mp hi).2⟩
    rintro rfl
    exact hnone j hown

end Ownership
