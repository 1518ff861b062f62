import Mathlib.Data.List.Perm.Basic

/-!
# Batching

Items go one by one into an open batch; a batch is closed at some time, somebody takes it, and then
sends it.  Several parties may have closed batches in their hands, and nothing says who sends
first.

Nothing is lost or doubled on the way (`Conserved`), and if a batch is only sent when no older one
is in somebody's hands, the items go out in the order in which they came (`InOrder`).  A system of
which each step does some moves, in turn or not, has these as invariants.
-/

set_option autoImplicit false

namespace Batching

/-- What a system for batching has to do with its items. -/
structure Queue (α : Type*) where
  /-- All items, in the order in which they came. -/
  accepted : List α
  /-- Those of which nothing has become yet. -/
  pending : List α
  /-- The open batch. -/
  batch : List α
  /-- The batches in somebody's hands, in the order in which they were closed. -/
  hands : List (List α)
  sent : List (List α)
  dropped : List α

variable {α : Type*}

/-- The moves of such a system.  With `turn` set, a batch is sent only if it is the oldest. -/
inductive Moves (turn : Prop) : Queue α → Queue α → Prop where
  | accept (q : Queue α) (a : α) :
    Moves turn q { q with accepted := q.accepted ++ [a], pending := q.pending ++ [a] }
  | keep (q : Queue α) (a : α) (rest : List α) (h : q.pending = a :: rest) :
    Moves turn q { q with pending := rest, batch := q.batch ++ [a] }
  | drop (q : Queue α) (a : α) (rest : List α) (h : q.pending = a :: rest) :
    Moves turn q { q with pending := rest, dropped := q.dropped ++ [a] }
  | close (q : Queue α) : Moves turn q { q with batch := [], hands := q.hands ++ [q.batch] }
  | send (q : Queue α) (l : List (List α)) (b : List α) (r : List (List α))
    (h : q.hands = l ++ b :: r) (hturn : turn → l = []) :
    Moves turn q { q with hands := l ++ r, sent := q.sent ++ [b] }

/-- Some moves, one after another. -/
inductive Does (turn : Prop) : Queue α → Queue α → Prop where
  | rest (q : Queue α) : Does turn q q
  | more {q q' q'' : Queue α} : Moves turn q q' → Does turn q' q'' → Does turn q q''

/-- Every item is somewhere, and in one place only. -/
def Queue.Conserved (q : Queue α) : Prop :=
  q.accepted.Perm (q.sent.flatten ++ q.hands.flatten ++ q.batch ++ q.pending ++ q.dropped)

/-- The items are in the order in which they came. -/
def Queue.InOrder (q : Queue α) : Prop :=
  (q.sent.flatten ++ q.hands.flatten ++ q.batch ++ q.pending).Sublist q.accepted

variable {turn : Prop} {q q' : Queue α}

theorem Does.one (h : Moves turn q q') : Does turn q q' := .more h (.rest _)

theorem Moves.conserved (h : Moves turn q q') (hq : q.Conserved) : q'.Conserved := by
  rw [Queue.Conserved] at hq ⊢
  cases h with
  | accept a =>
    refine (hq.append_right [a]).trans ?_
    simp only [List.append_assoc]
    exact (((List.perm_append_comm.append_left _).append_left _).append_left _).append_left _
  | keep a rest hp =>
    rw [hp] at hq
    simpa using hq
  | drop a rest hp =>
    rw [hp] at hq
    refine hq.trans ?_
    simp only [List.append_assoc]
    refine ((List.Perm.append_left _ ?_).append_left _).append_left _
    have hperm : ([a] ++ (rest ++ q.dropped)).Perm (rest ++ q.dropped ++ [a]) :=
      List.perm_append_comm
    simpa using hperm
  | close => simpa using hq
  | send l b r hl =>
    rw [hl] at hq
    refine hq.trans ?_
    simp only [List.flatten_append, List.flatten_cons, List.flatten_nil, List.append_nil,
      List.append_assoc]
    refine List.Perm.append_left _ ?_
    rw [← List.append_assoc, ← List.append_assoc b]
    exact List.perm_append_comm.append_right _

theorem Moves.inOrder (h : Moves True q q') (hq : q.InOrder) : q'.InOrder := by
  rw [Queue.InOrder] at hq ⊢
  cases h with
  | accept a => simpa using hq.append (List.Sublist.refl [a])
  | keep a rest hp =>
    rw [hp] at hq
    simpa using hq
  | drop a rest hp =>
    rw [hp] at hq
    exact ((List.sublist_cons_self a rest).append_left _).trans hq
  | close => simpa using hq
  | send l b r hl hturn =>
    rw [hl, hturn trivial] at hq
    simpa [hturn trivial] using hq

theorem Does.conserved (h : Does turn q q') (hq : q.Conserved) : q'.Conserved := by
  induction h with
  | rest => exact hq
  | more hm _ ih => exact ih (hm.conserved hq)

theorem Does.inOrder (h : Does True q q') (hq : q.InOrder) : q'.InOrder := by
  induction h with
  | rest => exact hq
  | more hm _ ih => exact ih (hm.inOrder hq)

end Batching
