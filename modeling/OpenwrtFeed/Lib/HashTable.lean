import Mathlib.Logic.Function.Basic
import Mathlib.Data.List.Basic

/-!
# Hash tables with chains

The intrusive hash tables of the kernel: an array of chains, a new entry at the head of the chain
its key hashes to, and a search that walks one chain.  Nothing keeps two entries with one key apart;
a search finds the one added last, and deleting removes that one.

The hash function is a parameter, and no lemma asks anything of it.
-/

set_option autoImplicit false

variable {K V : Type} [DecidableEq K]

/-- The chains by number. -/
abbrev HashTable (V : Type) : Type := Nat → List V

namespace HashTable

variable (hash : K → Nat) (key : V → K)

/-- Adds an entry at the head of its chain. -/
def add (t : HashTable V) (v : V) : HashTable V :=
  Function.update t (hash (key v)) (v :: t (hash (key v)))

/-- Walks the chain of a key. -/
def find (t : HashTable V) (k : K) : Option V := (t (hash k)).find? fun v ↦ key v = k

/-- Takes the entry that `find` finds out of its chain. -/
def del (t : HashTable V) (k : K) : HashTable V :=
  Function.update t (hash k) ((t (hash k)).eraseP fun v ↦ key v = k)

variable {hash key}

theorem find_add_self (t : HashTable V) (v : V) :
    find hash key (add hash key t v) (key v) = some v := by
  rw [find, add, Function.update_self, List.find?_cons_of_pos (by simp)]

theorem find_add_of_ne (t : HashTable V) {v : V} {k : K} (h : key v ≠ k) :
    find hash key (add hash key t v) k = find hash key t k := by
  rw [find, add, find]
  by_cases hk : hash k = hash (key v)
  · rw [hk, Function.update_self, List.find?_cons_of_neg (by simpa using h)]
  · rw [Function.update_of_ne hk]

theorem find_del_of_ne (t : HashTable V) {k k' : K} (h : k ≠ k') :
    find hash key (del hash key t k) k' = find hash key t k' := by
  rw [find, del, find]
  by_cases hk : hash k' = hash k
  · rw [hk, Function.update_self]
    induction t (hash k) with
    | nil => rfl
    | cons v vs ih =>
      by_cases hv : key v = k
      · have hne : ¬ key v = k' := fun heq ↦ h (hv.symm.trans heq)
        rw [List.eraseP_cons_of_pos (by simpa using hv),
          List.find?_cons_of_neg (by simpa using hne)]
      · rw [List.eraseP_cons_of_neg (by simpa using hv), List.find?_cons, List.find?_cons, ih]
  · rw [Function.update_of_ne hk]

end HashTable
