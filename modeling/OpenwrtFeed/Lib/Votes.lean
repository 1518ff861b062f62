import Mathlib.Algebra.BigOperators.Group.Finset.Piecewise
import Mathlib.Algebra.Ring.Int.Defs
import Mathlib.Data.Fintype.Basic
import Mathlib.Algebra.Ring.Nat

/-!
# The first one asks, the last one releases

Several users share a counter of the things that they have going on.  Who makes the counter positive
asks for a resource, and who makes it zero again releases it, but counting and asking are two steps,
and others may take theirs in between: a user may release what nobody has asked for yet.  The
counter may even be negative for a while, if a thing can end before it was counted.

`Balanced` is what can be said all the same.  With the requests and the releases that the users
still owe, the resource is asked for once if the counter is positive, and otherwise not at all.
-/

set_option autoImplicit false

namespace Votes

/-- Whether the resource should be asked for. -/
def wanted (count : Int) : Int := if 0 < count then 1 else 0

/-- Who counts up asks if the counter is one now. -/
theorem wanted_succ (count : Int) :
    wanted (count + 1) - wanted count = if count + 1 = 1 then 1 else 0 := by
  simp only [wanted]
  by_cases h : count + 1 = 1
  · rw [if_pos h, if_pos (by omega), if_neg (by omega)]
    rfl
  · rw [if_neg h]
    by_cases hpos : 0 < count
    · rw [if_pos (by omega), if_pos hpos]
      rfl
    · rw [if_neg (by omega), if_neg hpos]
      rfl

/-- Who counts down releases if the counter is zero now. -/
theorem wanted_pred (count : Int) :
    wanted (count + -1) - wanted count = if count - 1 = 0 then -1 else 0 := by
  have h := wanted_succ (count + -1)
  rw [Int.add_assoc, Int.add_left_neg, Int.add_zero] at h
  by_cases hz : count - 1 = 0
  · rw [if_pos hz]
    rw [if_pos (by omega)] at h
    omega
  · rw [if_neg hz]
    rw [if_neg (by omega)] at h
    omega

variable {ι : Type*} [Fintype ι]

/-- The counter is the sum of what the users have counted, and the votes are right but for those
that are owed. -/
structure Balanced (count votes : Int) (share owes : ι → Int) : Prop where
  count_eq : count = ∑ i, share i
  votes_eq : votes + ∑ i, owes i = wanted count

theorem sum_update [DecidableEq ι] (f : ι → Int) (i : ι) (x : Int) :
    ∑ j, Function.update f i x j = ∑ j, f j + (x - f i) := by
  rw [Finset.sum_update_of_mem (Finset.mem_univ i), ← Finset.sum_sdiff (Finset.subset_univ {i}),
    Finset.sum_singleton]
  omega

variable {count votes : Int} {share owes : ι → Int}

/-- A user counts by `d` and casts the vote `v`.  If that changes whether the resource is wanted,
the vote that follows is what the user owes from now on. -/
theorem Balanced.update [DecidableEq ι] (h : Balanced count votes share owes) (i : ι) {d v o : Int}
    (ho : o + v = owes i + (wanted (count + d) - wanted count)) :
    Balanced (count + d) (votes + v) (Function.update share i (share i + d))
      (Function.update owes i o) where
  count_eq := by
    rw [sum_update, h.count_eq]
    omega
  votes_eq := by
    have hvotes := h.votes_eq
    rw [sum_update]
    omega

/-- When nobody owes anything, the votes are right. -/
theorem Balanced.votes_of_idle (h : Balanced count votes share owes) (hidle : ∀ i, owes i = 0) :
    votes = wanted count := by
  have hvotes := h.votes_eq
  rwa [Finset.sum_eq_zero fun i _ ↦ hidle i, Int.add_zero] at hvotes

end Votes
