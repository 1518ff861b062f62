import Mathlib.Data.List.Basic

/-!
# Who holds what

A log of actions on items, and an automaton that says where an action takes an item: `next` answers
`none` for an action that the present holder must not take (freeing what was given away, say).  The
place of an item is found by running the automaton over the item's part of the log, so an item has a
place exactly when everything that ever happened to it was allowed.

What a program does it does to one item at a time.  `place_append_self` and `place_append_of_ne` say
what such a burst of actions means for that item and for the others.
-/

set_option autoImplicit false

namespace Custody

variable {ι A P : Type} [DecidableEq ι]

/-- What happened to an item. -/
def history (log : List (ι × A)) (p : ι) : List A :=
  log.filterMap fun e ↦ if e.1 = p then some e.2 else none

/-- A burst of actions on one item. -/
def burst (p : ι) (acts : List A) : List (ι × A) := acts.map fun a ↦ (p, a)

theorem history_append_self (log : List (ι × A)) (p : ι) (acts : List A) :
    history (log ++ burst p acts) p = history log p ++ acts := by
  have h : history (burst p acts) p = acts := by
    rw [history, burst, List.filterMap_map]
    simp
  rw [history, List.filterMap_append]
  exact congrArg _ h

theorem history_append_of_ne (log : List (ι × A)) {p q : ι} (hne : p ≠ q) (acts : List A) :
    history (log ++ burst p acts) q = history log q := by
  have h : history (burst p acts) q = [] := by
    rw [history, burst, List.filterMap_map]
    simp [hne]
  rw [history, List.filterMap_append]
  exact (congrArg _ h).trans (List.append_nil _)

variable (next : P → A → Option P) (start : P)

/-- Where an item is. -/
def place (log : List (ι × A)) (p : ι) : Option P := (history log p).foldlM next start

variable {next start}

theorem place_append_self {log : List (ι × A)} {p : ι} {at₀ : P}
    (h : place next start log p = some at₀)
    (acts : List A) :
    place next start (log ++ burst p acts) p = acts.foldlM next at₀ := by
  rw [place, history_append_self, List.foldlM_append]
  rw [place] at h
  rw [h]
  rfl

theorem place_append_of_ne (log : List (ι × A)) {p q : ι} (hne : p ≠ q) (acts : List A) :
    place next start (log ++ burst p acts) q = place next start log q := by
  rw [place, history_append_of_ne log hne, place]

end Custody
