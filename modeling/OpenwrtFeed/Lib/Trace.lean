import Mathlib.Data.List.Basic

/-!
# Runs of a system

A system in which several parties take steps: `step s a` is the state after the action `a`, or
`none` if nobody can take it in the state `s`.  An interleaving of the parties is a list of actions,
and `run` takes them one after another.

There is one rule for what holds in all states of a run (`run_invariant`, and `run_invariant_of` if
it holds only as long as the steps are taken in states that suit them), and one for a property that
a run has lost on its way: there is a step that lost it (`run_breaks`).  What exactly the steps
leave that are not as they should be tells whether there was one (`run_marks`).  If each step makes
a number smaller, the number bounds the length of the run (`run_length_le`).
-/

set_option autoImplicit false

namespace Trace

variable {σ α : Type*} (step : σ → α → Option σ)

/-- The state after a list of actions. -/
def run (s : σ) : List α → Option σ
  | [] => some s
  | a :: as => (step s a).bind fun s' ↦ run s' as

/-- Whether each step of a run is as it should be, in the state in which it is taken. -/
def always (C : σ → α → Bool) (s : σ) : List α → Bool
  | [] => true
  | a :: as => C s a && ((step s a).map fun s' ↦ always C s' as).getD true

/-- A step that has a guard. -/
theorem of_guard {p : Prop} [Decidable p] {s s' : σ} (h : (if p then some s else none) = some s') :
    p ∧ s = s' := by
  obtain ⟨hp, hs⟩ := Option.ite_none_right_eq_some.mp h
  exact ⟨hp, Option.some.inj hs⟩

theorem eq_some_getD {o : Option σ} (h : o.isSome = true) {d : σ} : o = some (o.getD d) := by
  obtain ⟨s, rfl⟩ := Option.isSome_iff_exists.mp h
  rfl

variable {step} {s t : σ} {as : List α}

theorem run_append (as bs : List α) :
    run step s (as ++ bs) = (run step s as).bind fun t ↦ run step t bs := by
  induction as generalizing s with
  | nil => rfl
  | cons a as ih =>
    rw [List.cons_append, run, run]
    cases step s a with
    | none => rfl
    | some s' => exact ih

/-- What each step keeps is kept by a run, if only certain actions are taken. -/
theorem run_invariant {I : σ → Prop} {P : α → Prop}
    (hstep : ∀ s a s', P a → I s → step s a = some s' → I s') (hs : I s) (has : ∀ a ∈ as, P a)
    (h : run step s as = some t) : I t := by
  induction as generalizing s with
  | nil =>
    obtain rfl := Option.some.inj h
    exact hs
  | cons a as ih =>
    obtain ⟨s', hs', h'⟩ := Option.bind_eq_some_iff.mp h
    have has' := List.forall_mem_cons.mp has
    exact ih (hstep s a s' has'.1 hs hs') has'.2 h'

/-- The same for a run of which each step is as it should be. -/
theorem run_invariant_of {I : σ → Prop} {C : σ → α → Bool}
    (hstep : ∀ s a s', C s a = true → I s → step s a = some s' → I s') (hs : I s)
    (hC : always step C s as = true) (h : run step s as = some t) : I t := by
  induction as generalizing s with
  | nil =>
    obtain rfl := Option.some.inj h
    exact hs
  | cons a as ih =>
    obtain ⟨s', hs', h'⟩ := Option.bind_eq_some_iff.mp h
    rw [always, hs', Bool.and_eq_true] at hC
    exact ih (hstep s a s' hC.1 hs hs') hC.2 h'

/-- If something holds at the beginning of a run and not at its end, a step of the run ends it. -/
theorem run_breaks {I : σ → Prop} (hs : I s) (ht : ¬ I t) (h : run step s as = some t) :
    ∃ before a after u v, as = before ++ a :: after ∧ run step s before = some u ∧
      step u a = some v ∧ run step v after = some t ∧ I u ∧ ¬ I v := by
  induction as generalizing s with
  | nil =>
    obtain rfl := Option.some.inj h
    exact absurd hs ht
  | cons a as ih =>
    obtain ⟨s', hs', h'⟩ := Option.bind_eq_some_iff.mp h
    by_cases hI : I s'
    · obtain ⟨before, b, after, u, v, rfl, hu, hv, hend, hIu, hIv⟩ := ih hI h'
      refine ⟨a :: before, b, after, u, v, rfl, ?_, hv, hend, hIu, hIv⟩
      rw [run, hs']
      exact hu
    · exact ⟨[], a, as, s, s', rfl, rfl, hs', h', hs, hI⟩

/-- If a step leaves a mark that stays, exactly when it is not as it should be, then a run leaves
one exactly when one of its steps is not. -/
theorem run_marks {I M : σ → Prop} {C D : σ → α → Bool}
    (hstep : ∀ s a s', D s a = true → I s → step s a = some s' →
      I s' ∧ (M s' ↔ M s ∨ C s a = false)) (hs : I s)
    (hD : always step D s as = true) (h : run step s as = some t) :
    M t ↔ M s ∨ always step C s as = false := by
  induction as generalizing s with
  | nil =>
    obtain rfl := Option.some.inj h
    simp [always]
  | cons a as ih =>
    obtain ⟨s', hs', h'⟩ := Option.bind_eq_some_iff.mp h
    have hcons : always step C s (a :: as) = (C s a && always step C s' as) := by
      rw [always, hs']
      rfl
    rw [always, hs', Bool.and_eq_true] at hD
    obtain ⟨hI, hM⟩ := hstep s a s' hD.1 hs hs'
    rw [ih hI hD.2 h', hM, hcons, Bool.and_eq_false_iff, or_assoc]

/-- A run in which each step makes a number smaller. -/
theorem run_length_le {I : σ → Prop} {P : α → Prop} (m : σ → Nat)
    (hstep : ∀ s a s', P a → I s → step s a = some s' → I s' ∧ m s' < m s) (hs : I s)
    (has : ∀ a ∈ as, P a) (h : run step s as = some t) : as.length + m t ≤ m s := by
  induction as generalizing s with
  | nil =>
    obtain rfl := Option.some.inj h
    simp
  | cons a as ih =>
    obtain ⟨s', hs', h'⟩ := Option.bind_eq_some_iff.mp h
    have has' := List.forall_mem_cons.mp has
    obtain ⟨hI, hlt⟩ := hstep s a s' has'.1 hs hs'
    have := ih hI has'.2 h'
    rw [List.length_cons]
    omega

end Trace
