import Mathlib.Data.List.Basic
import Mathlib.Logic.Function.Basic

/-!
# Queues in a circle of places

A queue that is kept in a fixed number of places, which are used again and again.  The elements that
were ever put into it are counted, and so are those that were taken out; element `i` has place
`i % n`, and what is in the queue are the elements from a counter `r` up to a counter `w`.  The
counters are for proofs only: a program that uses such a queue knows the two places `r % n` and
`w % n`.  What it can find out from them is `dist`, by `dist_mod`, as long as the queue never fills
all of the places.

`Keeps` says that the places of the elements in the queue hold these elements.  One who puts an
element writes it first (`Keeps.update`) and moves the counter afterwards (`Keeps.concat`), one who
takes elements only moves the other counter (`Keeps.mono`), and the two may do so in any order.
Where the elements change while they are in the queue, `contents` is what there is to be read.
-/

set_option autoImplicit false

namespace Circular

/-- The place after a place. -/
def next (n i : Nat) : Nat := if n ≤ i + 1 then 0 else i + 1

/-- How far it is from one place to another. -/
def dist (n i j : Nat) : Nat := if i ≤ j then j - i else n - (i - j)

variable {n i j r w : Nat}

theorem next_mod (hn : 0 < n) (k : Nat) : next n (k % n) = (k + 1) % n := by
  have hlt := Nat.mod_lt k hn
  rw [next, Nat.add_mod k 1]
  by_cases h : n ≤ k % n + 1
  · have hn' : n = k % n + 1 := by omega
    rw [if_pos h]
    rcases Nat.lt_or_ge 1 n with h1 | h1
    · rw [Nat.mod_eq_of_lt h1, ← hn', Nat.mod_self]
    · have hone : n = 1 := by omega
      rw [hone, Nat.mod_one]
  · have hk : k % n + 1 < n := by omega
    rw [if_neg h, Nat.mod_eq_of_lt (show 1 < n by omega), Nat.mod_eq_of_lt hk]

/-- Counters that are less than a round apart: the later one is in the same round, or in the
next. -/
theorem mod_cases (h : r ≤ w) (hlt : w < r + n) :
    (r % n ≤ w % n ∧ w = r + (w % n - r % n)) ∨ (w % n < r % n ∧ w + r % n = r + n + w % n) := by
  have hn : 0 < n := by omega
  have hr := Nat.div_add_mod r n
  have hw := Nat.div_add_mod w n
  have hrlt := Nat.mod_lt r hn
  have hwlt := Nat.mod_lt w hn
  have hle : r / n ≤ w / n := Nat.div_le_div_right h
  have hge : w / n ≤ r / n + 1 := by
    rw [← Nat.add_div_right r hn]
    exact Nat.div_le_div_right (Nat.le_of_lt hlt)
  rcases Nat.eq_or_lt_of_le hle with heq | hlt'
  · rw [← heq] at hw
    omega
  · have heq : w / n = r / n + 1 := by omega
    rw [heq, Nat.mul_add, Nat.mul_one] at hw
    omega

/-- Elements less than a round apart have different places. -/
theorem eq_of_mod_eq (hij : i ≤ j) (hlt : j < i + n) (h : i % n = j % n) : i = j := by
  rcases mod_cases hij hlt with ⟨-, hj⟩ | ⟨hne, -⟩ <;> omega

/-- The places tell how many elements there are, unless they are all in use. -/
theorem dist_mod (h : r ≤ w) (hlt : w < r + n) : dist n (r % n) (w % n) = w - r := by
  rw [dist]
  rcases mod_cases h hlt with ⟨hle, hw⟩ | ⟨hlt', hw⟩
  · rw [if_pos hle]
    omega
  · rw [if_neg (by omega)]
    omega

/-! ## What the places hold -/

variable {α : Type*}

/-- The elements from `r` up to `w` are in their places; `q` are all elements that there ever
were. -/
def Keeps (n : Nat) (mem : Nat → α) (q : List α) (r w : Nat) : Prop :=
  ∀ i, r ≤ i → i < w → q[i]? = some (mem (i % n))

variable {mem : Nat → α} {q : List α}

/-- Taking elements out does not move the others. -/
theorem Keeps.mono (h : Keeps n mem q r w) {r' w' : Nat} (hr : r ≤ r') (hw : w' ≤ w) :
    Keeps n mem q r' w' :=
  fun i hi hlt ↦ h i (Nat.le_trans hr hi) (Nat.lt_of_lt_of_le hlt hw)

/-- Writing to the next free place does not hurt what is in the queue. -/
theorem Keeps.update (h : Keeps n mem q r w) (hlt : w < r + n) (x : α) :
    Keeps n (Function.update mem (w % n) x) q r w := by
  intro i hi hiw
  have hne : i % n ≠ w % n := fun heq ↦ by
    have := eq_of_mod_eq (Nat.le_of_lt hiw) (by omega) heq
    omega
  rw [Function.update_of_ne hne]
  exact h i hi hiw

/-- What has been written there is in the queue when the counter moves. -/
theorem Keeps.concat (h : Keeps n mem q r w) (hlen : q.length = w) {x : α} (hx : mem (w % n) = x) :
    Keeps n mem (q ++ [x]) r (w + 1) := by
  intro i hi hiw
  rcases Nat.lt_or_ge i w with hlt | hge
  · rw [List.getElem?_append_left (by omega)]
    exact h i hi hlt
  · obtain rfl : i = w := by omega
    rw [List.getElem?_append_right (by omega), hlen, Nat.sub_self, hx]
    rfl

/-! ## Lists of places -/

/-- The places of the elements from `r` up to `w`. -/
def places (n r w : Nat) : List Nat := (List.range' r (w - r)).map (· % n)

theorem mem_places : i ∈ places n r w ↔ ∃ k, r ≤ k ∧ k < w ∧ k % n = i := by
  rw [places, List.mem_map]
  refine exists_congr fun k ↦ ?_
  rw [List.mem_range'_1, ← and_assoc]
  refine and_congr_left fun _ ↦ ?_
  omega

theorem places_concat (h : r ≤ w) : places n r (w + 1) = places n r w ++ [w % n] := by
  rw [places, places, Nat.sub_add_comm h, List.range'_1_concat, List.map_append,
    Nat.add_sub_cancel' h]
  rfl

theorem places_cons (h : r < w) : places n r w = r % n :: places n (r + 1) w := by
  have hlen : w - r = w - (r + 1) + 1 := by omega
  rw [places, places, hlen, List.range'_succ, List.map_cons]

theorem length_places (n r w : Nat) : (places n r w).length = w - r := by
  rw [places, List.length_map, List.length_range']

/-- The places of elements less than a round apart are different. -/
theorem not_mem_places {m : Nat} (hlt : w < r + n) (hi : i ∈ places n r m) : i ∉ places n m w := by
  intro hi'
  obtain ⟨k, hk, hkm, rfl⟩ := mem_places.mp hi
  obtain ⟨k', hk', hkw, heq⟩ := mem_places.mp hi'
  have := eq_of_mod_eq (show k ≤ k' by omega) (by omega) heq.symm
  omega

/-- The place before that of an element is the one of an element a round later. -/
theorem before_mod (m k : Nat) :
    (if k % (m + 1) = 0 then m else k % (m + 1) - 1) = (m + k) % (m + 1) := by
  have hlt : k % (m + 1) < m + 1 := Nat.mod_lt k (Nat.succ_pos m)
  rw [← Nat.add_mod_mod m k]
  split
  · rename_i h0
    rw [h0, Nat.add_zero, Nat.mod_eq_of_lt (Nat.lt_add_one m)]
  · rename_i hpos
    have hsum : m + k % (m + 1) = k % (m + 1) - 1 + (m + 1) := by omega
    rw [hsum, Nat.add_mod_right, Nat.mod_eq_of_lt (show k % (m + 1) - 1 < m + 1 by omega)]

/-! ## What there is to be read -/

/-- What the places from `r` up to `w` hold. -/
def contents (n : Nat) (mem : Nat → α) (r w : Nat) : List α :=
  (List.range (w - r)).map fun k ↦ mem ((r + k) % n)

theorem length_contents (n : Nat) (mem : Nat → α) (r w : Nat) :
    (contents n mem r w).length = w - r := by
  rw [contents, List.length_map, List.length_range]

/-- An element is put at the end. -/
theorem contents_concat (hle : r ≤ w) (hlt : w < r + n) (x : α) :
    contents n (Function.update mem (w % n) x) r (w + 1) = contents n mem r w ++ [x] := by
  rw [contents, contents, Nat.sub_add_comm hle, List.range_succ, List.map_append]
  have hlast : r + (w - r) = w := Nat.add_sub_cancel' hle
  have hother : ∀ k ∈ List.range (w - r),
      Function.update mem (w % n) x ((r + k) % n) = mem ((r + k) % n) := by
    intro k hk
    have hk' := List.mem_range.mp hk
    refine Function.update_of_ne (fun heq ↦ ?_) x mem
    have := eq_of_mod_eq (show r + k ≤ w by omega) (by omega) heq
    omega
  rw [List.map_congr_left hother, List.map_singleton, hlast, Function.update_self]

/-- The first element is taken. -/
theorem contents_cons (hlt : r < w) :
    contents n mem r w = mem (r % n) :: contents n mem (r + 1) w := by
  have hlen : w - r = w - (r + 1) + 1 := by omega
  rw [contents, contents, hlen, List.range_succ_eq_map, List.map_cons, List.map_map, Nat.add_zero]
  refine congrArg _ (List.map_congr_left fun k _ ↦ ?_)
  show mem ((r + (k + 1)) % n) = mem ((r + 1 + k) % n)
  rw [Nat.add_assoc r 1 k, Nat.add_comm 1 k]

/-- Elements are changed where they are. -/
theorem contents_map {mem' : Nat → α} {f : α → α}
    (h : ∀ i, r ≤ i → i < w → mem' (i % n) = f (mem (i % n))) :
    contents n mem' r w = (contents n mem r w).map f := by
  rw [contents, contents, List.map_map]
  refine List.map_congr_left fun k hk ↦ ?_
  have hk' := List.mem_range.mp hk
  exact h (r + k) (by omega) (by omega)

end Circular
