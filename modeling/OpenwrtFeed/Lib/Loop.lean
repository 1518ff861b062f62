import Mathlib.Logic.Relation
import Mathlib.Order.WellFoundedSet

/-!
# Loops that are left from the middle

A `while` loop of the source whose body may also jump out of it.  `Loop.run` runs such a loop for at
most a given number of iterations and answers `none` when that was not enough, so nothing is claimed
about a loop that does not end: a result of `run` is a result of the loop, and by `run_mono` more
fuel does not change it.

`run_next` and `run_stop` execute one iteration; a proof about what a concrete loop computes is an
induction that uses them.  For the question whether a loop ends there is `Visits`, the states at
which an iteration begins: a loop ends if something gets smaller from each of them to the next
(`ends_of_acc`, `ends_of_measure`, `ends_of_acyclic`), and it does not end if it comes to a state
from which it does not end (`Visits.ends`), such as one at which an invariant lets it iterate again
and again (`not_ends_of_invariant`).
-/

set_option autoImplicit false

namespace Loop

variable {σ : Type}

/-- How an iteration ends: it goes back to the condition, or it jumps behind the loop. -/
inductive Exit (σ : Type) where
  | next (s : σ)
  | stop (s : σ)
  deriving DecidableEq, Repr

/-- The state with which an iteration ends, either way. -/
def Exit.state : Exit σ → σ
  | .next s => s
  | .stop s => s

variable (cond : σ → Bool) (body : σ → Exit σ)

/-- The state behind the loop, if at most `fuel` iterations lead there. -/
def run : Nat → σ → Option σ
  | 0, s => if cond s then none else some s
  | fuel + 1, s =>
    if cond s then
      match body s with
      | .next s' => run fuel s'
      | .stop s' => some s'
    else
      some s

variable {cond body}

theorem run_done {s : σ} (h : cond s = false) (fuel : Nat) : run cond body fuel s = some s := by
  rcases fuel with _ | fuel <;> simp [run, h]

theorem run_next {s s' : σ} (h : cond s = true) (hb : body s = .next s') (fuel : Nat) :
    run cond body (fuel + 1) s = run cond body fuel s' := by
  simp [run, h, hb]

theorem run_stop {s s' : σ} (h : cond s = true) (hb : body s = .stop s') (fuel : Nat) :
    run cond body (fuel + 1) s = some s' := by
  simp [run, h, hb]

/-- More fuel does not change the result. -/
theorem run_mono {s t : σ} {fuel fuel' : Nat} (h : run cond body fuel s = some t)
    (hle : fuel ≤ fuel') : run cond body fuel' s = some t := by
  induction fuel generalizing s fuel' with
  | zero =>
    rw [run] at h
    split at h
    · exact absurd h (by simp)
    · rename_i hc
      obtain rfl := Option.some.inj h
      exact run_done (by simpa using hc) fuel'
  | succ fuel ih =>
    obtain ⟨fuel', rfl⟩ : ∃ k, fuel' = k + 1 := ⟨fuel' - 1, by omega⟩
    cases hc : cond s with
    | false => rwa [run_done hc] at h ⊢
    | true =>
      cases hb : body s with
      | next s' =>
        rw [run_next hc hb] at h ⊢
        exact ih h (by omega)
      | stop s' => rwa [run_stop hc hb] at h ⊢

/-- There is one result only. -/
theorem run_unique {s r r' : σ} {fuel fuel' : Nat} (h : run cond body fuel s = some r)
    (h' : run cond body fuel' s = some r') : r = r' := by
  have hr := run_mono h (le_max_left fuel fuel')
  have hr' := run_mono h' (le_max_right fuel fuel')
  rw [hr] at hr'
  exact Option.some.inj hr'

/-- What no iteration takes away is there behind the loop. -/
theorem run_invariant {I : σ → Prop} (hI : ∀ s, cond s = true → I s → I (body s).state) {s r : σ}
    {fuel : Nat} (hs : I s) (h : run cond body fuel s = some r) : I r := by
  induction fuel generalizing s with
  | zero =>
    rw [run] at h
    split at h
    · exact absurd h (by simp)
    · obtain rfl := Option.some.inj h
      exact hs
  | succ fuel ih =>
    cases hc : cond s with
    | false =>
      rw [run_done hc] at h
      obtain rfl := Option.some.inj h
      exact hs
    | true =>
      have hstate := hI s hc hs
      cases hb : body s with
      | next s' =>
        rw [run_next hc hb] at h
        rw [hb] at hstate
        exact ih hstate h
      | stop s' =>
        rw [run_stop hc hb] at h
        obtain rfl := Option.some.inj h
        rwa [hb] at hstate

/-- The same if an iteration is known to be made first. -/
theorem run_invariant_of_first {I : σ → Prop}
    (hI : ∀ s, cond s = true → I s → I (body s).state) {s r : σ} {fuel : Nat} (hc : cond s = true)
    (hfirst : I (body s).state) (h : run cond body fuel s = some r) : I r := by
  rcases fuel with _ | fuel
  · rw [run, if_pos hc] at h
    exact absurd h (by simp)
  · cases hb : body s with
    | next s' =>
      rw [run_next hc hb] at h
      rw [hb] at hfirst
      exact run_invariant hI hfirst h
    | stop s' =>
      rw [run_stop hc hb] at h
      obtain rfl := Option.some.inj h
      rwa [hb] at hfirst

/-- Two loops that go in step have results that belong together, or neither has one. -/
theorem run_lockstep {τ : Type} {cond' : τ → Bool} {body' : τ → Exit τ} {R S : σ → τ → Prop}
    (hend : ∀ s t, R s t → S s t) (hcond : ∀ s t, R s t → cond s = cond' t)
    (hbody : ∀ s t, R s t → cond s = true →
      (∃ s' t', body s = .next s' ∧ body' t = .next t' ∧ R s' t') ∨
        ∃ s' t', body s = .stop s' ∧ body' t = .stop t' ∧ S s' t')
    {s : σ} {t : τ} (h : R s t) (fuel : Nat) :
    Option.Rel S (run cond body fuel s) (run cond' body' fuel t) := by
  induction fuel generalizing s t with
  | zero =>
    rw [run, run, ← hcond s t h]
    split
    · exact .none
    · exact .some (hend s t h)
  | succ fuel ih =>
    cases hc : cond s with
    | false =>
      rw [run_done hc, run_done (hcond s t h ▸ hc)]
      exact .some (hend s t h)
    | true =>
      have hc' : cond' t = true := hcond s t h ▸ hc
      rcases hbody s t h hc with ⟨s', t', hs, ht, hnext⟩ | ⟨s', t', hs, ht, hstop⟩
      · rw [run_next hc hs, run_next hc' ht]
        exact ih hnext
      · rw [run_stop hc hs, run_stop hc' ht]
        exact .some hstop

/-! ## The states a loop comes by -/

variable (cond body)

/-- One iteration that comes back to the condition. -/
def Iterates (s s' : σ) : Prop := cond s = true ∧ body s = .next s'

/-- The loop comes by a state. -/
def Visits (s t : σ) : Prop := Relation.ReflTransGen (Iterates cond body) s t

/-- The states at which the iterations of a loop begin, in order. -/
def trace : Nat → σ → List σ
  | 0, _ => []
  | fuel + 1, s =>
    if cond s then
      s :: match body s with
        | .next s' => trace fuel s'
        | .stop _ => []
    else
      []

/-- The loop ends. -/
def Ends (s : σ) : Prop := ∃ fuel t, run cond body fuel s = some t

variable {cond body}

/-- The state behind a loop is one that it comes by, or the one that its last iteration jumps
with. -/
theorem run_cases {s r : σ} {fuel : Nat} (h : run cond body fuel s = some r) :
    (Visits cond body s r ∧ cond r = false) ∨
      ∃ t, Visits cond body s t ∧ cond t = true ∧ body t = .stop r := by
  induction fuel generalizing s with
  | zero =>
    rw [run] at h
    split at h
    · exact absurd h (by simp)
    · rename_i hc
      obtain rfl := Option.some.inj h
      exact .inl ⟨.refl, by simpa using hc⟩
  | succ fuel ih =>
    cases hc : cond s with
    | false =>
      rw [run_done hc] at h
      obtain rfl := Option.some.inj h
      exact .inl ⟨.refl, hc⟩
    | true =>
      cases hb : body s with
      | next s' =>
        rw [run_next hc hb] at h
        have hstep : Iterates cond body s s' := ⟨hc, hb⟩
        rcases ih h with ⟨hr, hc'⟩ | ⟨t, ht, hstop⟩
        · exact .inl ⟨.head hstep hr, hc'⟩
        · exact .inr ⟨t, .head hstep ht, hstop⟩
      | stop s' =>
        rw [run_stop hc hb] at h
        obtain rfl := Option.some.inj h
        exact .inr ⟨s, .refl, hc, hb⟩

/-- What each iteration appends to an accumulator is in it behind the loop, in order. -/
theorem run_accumulates {β : Type} (acc : σ → List β) (f : σ → List β)
    (hnext : ∀ s s', cond s = true → body s = .next s' → acc s' = acc s ++ f s)
    (hstop : ∀ s s', cond s = true → body s = .stop s' → acc s' = acc s ++ f s)
    {s r : σ} {fuel : Nat} (h : run cond body fuel s = some r) :
    acc r = acc s ++ (trace cond body fuel s).flatMap f := by
  induction fuel generalizing s with
  | zero =>
    rw [run] at h
    split at h
    · exact absurd h (by simp)
    · obtain rfl := Option.some.inj h
      exact (List.append_nil _).symm
  | succ fuel ih =>
    rw [trace]
    cases hc : cond s with
    | false =>
      rw [run_done hc] at h
      obtain rfl := Option.some.inj h
      exact (List.append_nil _).symm
    | true =>
      cases hb : body s with
      | next s' =>
        rw [run_next hc hb] at h
        rw [ih h, hnext s s' hc hb, if_pos rfl, List.flatMap_cons, List.append_assoc]
      | stop s' =>
        rw [run_stop hc hb] at h
        obtain rfl := Option.some.inj h
        rw [hstop s s' hc hb, if_pos rfl, List.flatMap_cons, List.flatMap_nil, List.append_nil]

/-- A loop gets from a state it comes by exactly where it gets from its start. -/
theorem Visits.exists_run_iff {s t r : σ} (h : Visits cond body s t) :
    (∃ fuel, run cond body fuel s = some r) ↔ ∃ fuel, run cond body fuel t = some r := by
  induction h with
  | refl => rfl
  | tail _ hstep ih =>
    rw [ih]
    constructor
    · rintro ⟨fuel, hu⟩
      rcases fuel with _ | fuel
      · rw [run, if_pos hstep.1] at hu
        exact absurd hu (by simp)
      · rw [run_next hstep.1 hstep.2] at hu
        exact ⟨fuel, hu⟩
    · rintro ⟨fuel, hu⟩
      exact ⟨fuel + 1, by rw [run_next hstep.1 hstep.2, hu]⟩

/-- A loop that ends also ends from every state it comes by. -/
theorem Visits.ends {s t : σ} (h : Visits cond body s t) (hs : Ends cond body s) :
    Ends cond body t := by
  obtain ⟨fuel, u, hu⟩ := hs
  obtain ⟨fuel, hu⟩ := h.exists_run_iff.mp ⟨fuel, hu⟩
  exact ⟨fuel, u, hu⟩

/-- A loop does not end from a state of which something holds that lets the loop iterate, and that
holds again afterwards. -/
theorem not_ends_of_invariant {I : σ → Prop}
    (hI : ∀ s, I s → ∃ s', Iterates cond body s s' ∧ I s') {s : σ} (hs : I s) :
    ¬ Ends cond body s := by
  rintro ⟨fuel, u, hu⟩
  induction fuel generalizing s with
  | zero =>
    obtain ⟨s', hstep, -⟩ := hI s hs
    rw [run, if_pos hstep.1] at hu
    exact absurd hu (by simp)
  | succ fuel ih =>
    obtain ⟨s', hstep, hs'⟩ := hI s hs
    rw [run_next hstep.1 hstep.2] at hu
    exact ih hs' hu

/-- A loop ends if its iterations move something along a relation that does not go on forever. -/
theorem ends_of_acc {κ : Type} {r : κ → κ → Prop} (key : σ → κ) {s : σ}
    (h : ∀ t t', Visits cond body s t → Iterates cond body t t' → r (key t') (key t))
    (hacc : Acc r (key s)) : Ends cond body s := by
  generalize hk : key s = k at hacc
  induction hacc generalizing s with
  | intro k _ ih =>
    subst hk
    cases hc : cond s with
    | false => exact ⟨0, s, run_done hc 0⟩
    | true =>
      cases hb : body s with
      | stop s' => exact ⟨1, s', run_stop hc hb 0⟩
      | next s' =>
        have hstep : Iterates cond body s s' := ⟨hc, hb⟩
        obtain ⟨fuel, u, hu⟩ :=
          ih (key s') (h s s' .refl hstep) (fun t t' ht ↦ h t t' (.head hstep ht)) rfl
        exact ⟨fuel + 1, u, by rw [run_next hc hb, hu]⟩

/-- A loop ends if every iteration it comes to makes something smaller. -/
theorem ends_of_measure (μ : σ → Nat) {s : σ}
    (h : ∀ t t', Visits cond body s t → Iterates cond body t t' → μ t' < μ t) :
    Ends cond body s :=
  ends_of_acc μ h (Nat.lt_wfRel.wf.apply _)

/-- A loop ends if its iterations follow a relation that from the first key on leads to finitely
many keys only, and back to none of them. -/
theorem ends_of_acyclic {κ : Type} {r : κ → κ → Prop} (key : σ → κ) {s : σ}
    (h : ∀ t t', Visits cond body s t → Iterates cond body t t' → r (key t) (key t'))
    (hfin : {k | Relation.ReflTransGen r (key s) k}.Finite)
    (hr : ∀ k, Relation.ReflTransGen r (key s) k → ¬ Relation.TransGen r k k) :
    Ends cond body s := by
  let back (b a : κ) : Prop := Relation.ReflTransGen r (key s) a ∧ r a b
  have hback : ∀ b a, Relation.TransGen back b a →
      Relation.ReflTransGen r (key s) a ∧ Relation.TransGen r a b := by
    intro b a hba
    induction hba with
    | single hstep => exact ⟨hstep.1, .single hstep.2⟩
    | tail _ hstep ih => exact ⟨hstep.1, .head hstep.2 ih.2⟩
  have horder : IsStrictOrder κ (Relation.TransGen back) :=
    { irrefl := fun k hk ↦ hr k (hback k k hk).1 (hback k k hk).2
      trans := fun _ _ _ ↦ .trans }
  have hacc : Acc back (key s) := by
    refine ((Set.WellFoundedOn.acc_iff_wellFoundedOn.out 0 2).2 ?_)
    have hwf : {k | Relation.ReflTransGen r (key s) k}.WellFoundedOn (Relation.TransGen back) :=
      hfin.wellFoundedOn
    exact hwf.mono (fun _ _ hstep ↦ .single hstep) fun k hk ↦ (hback k _ hk).2.to_reflTransGen
  have hkey : ∀ t, Visits cond body s t → Relation.ReflTransGen r (key s) (key t) := by
    intro t ht
    induction ht with
    | refl => exact .refl
    | tail hvisit hstep ih => exact ih.tail (h _ _ hvisit hstep)
  exact ends_of_acc key (fun t t' ht hstep ↦ ⟨hkey t ht, h t t' ht hstep⟩) hacc

end Loop
