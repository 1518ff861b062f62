import Mathlib.Logic.Relation
import Mathlib.Data.List.Basic
import Mathlib.Data.List.Nodup

/-!
# A store that is updated atomically

The specification of a shared store: users update it one after another, each update being a partial
function of what the store holds.  `Store.log` records who updated it and what it held afterwards.

`Store.run_spec` is all there is to say about a run: after `k` updates the store holds what the
first `k` users' updates make of the initial state, in the order of the log.

A protocol that reads, computes and then swaps implements this when each of its swaps is one such
update and no other step changes what the store holds; `map_run` is the induction that turns this
remark about single steps into one about runs.
-/

set_option autoImplicit false

open Relation

/-- A step-by-step simulation along a function.  If every step out of a state with the invariant
keeps the invariant and is matched by steps of the other system, so is every run. -/
theorem map_run {C A : Type*} {step : C → C → Prop} {step' : A → A → Prop} {Inv : C → Prop}
    {f : C → A} (hinv : ∀ c c', Inv c → step c c' → Inv c')
    (hstep : ∀ c c', Inv c → step c c' → ReflTransGen step' (f c) (f c')) {c c' : C}
    (hc : Inv c) (h : ReflTransGen step c c') : Inv c' ∧ ReflTransGen step' (f c) (f c') := by
  induction h with
  | refl => exact ⟨hc, .refl⟩
  | tail _ hbc ih => exact ⟨hinv _ _ ih.1 hbc, ih.2.trans (hstep _ _ ih.1 hbc)⟩

/-- An invariant of the steps is an invariant of the runs. -/
theorem invariant_run {C : Type*} {step : C → C → Prop} {Inv : C → Prop}
    (hinv : ∀ c c', Inv c → step c c' → Inv c') {c c' : C} (hc : Inv c)
    (h : ReflTransGen step c c') : Inv c' := by
  induction h with
  | refl => exact hc
  | tail _ hbc ih => exact hinv _ _ ih hbc

namespace Atomic

variable {ι σ : Type}

/-- A store and what happened to it. -/
structure Store (ι σ : Type) where
  state : σ
  /-- Who updated the store, and what it held afterwards. -/
  log : List (ι × σ)

/-- What a store that started as `s₀` held after the first `k` updates of a log. -/
def stateAfter (s₀ : σ) (log : List (ι × σ)) (k : Nat) : σ :=
  (((log.take k).getLast?).map Prod.snd).getD s₀

variable (upd : ι → σ → Option σ)

/-- One user updates the store. -/
inductive Step : Store ι σ → Store ι σ → Prop
  | commit (s : Store ι σ) (i : ι) (s' : σ) (h : upd i s.state = some s') :
      Step s ⟨s', s.log ++ [(i, s')]⟩

/-- The store as it is, and every state it went through, is what the log says. -/
structure Spec (s₀ : σ) (s : Store ι σ) : Prop where
  state_eq : s.state = stateAfter s₀ s.log s.log.length
  prefix_eq : ∀ k ≤ s.log.length,
    ((s.log.take k).map Prod.fst).foldlM (fun t i ↦ upd i t) s₀ = some (stateAfter s₀ s.log k)

theorem stateAfter_append (s₀ : σ) (log : List (ι × σ)) (e : ι × σ) {k : Nat}
    (hk : k ≤ log.length) : stateAfter s₀ (log ++ [e]) k = stateAfter s₀ log k := by
  rw [stateAfter, stateAfter, List.take_append_of_le_length hk]

theorem stateAfter_last (s₀ : σ) (log : List (ι × σ)) (e : ι × σ) :
    stateAfter s₀ (log ++ [e]) (log.length + 1) = e.2 := by
  rw [stateAfter, List.take_of_length_le (by simp)]
  simp

theorem spec_step {s₀ : σ} {s s' : Store ι σ} (hs : Spec upd s₀ s) (h : Step upd s s') :
    Spec upd s₀ s' := by
  cases h with | commit i t ht => ?_
  refine ⟨?_, fun k hk ↦ ?_⟩
  · rw [List.length_append, List.length_singleton, stateAfter_last]
  · rw [List.length_append, List.length_singleton] at hk
    rcases Nat.lt_or_ge s.log.length k with hlt | hle
    · have hk' : k = s.log.length + 1 := by omega
      subst hk'
      rw [stateAfter_last, List.take_of_length_le (by simp), List.map_append, List.foldlM_append]
      have hall := hs.prefix_eq s.log.length (Nat.le_refl _)
      rw [List.take_length, ← hs.state_eq] at hall
      rw [hall]
      simpa using ht
    · rw [List.take_append_of_le_length hle, stateAfter_append s₀ _ _ hle]
      exact hs.prefix_eq k hle

/-- **What a run of updates leaves.** -/
theorem run_spec (s₀ : σ) {s : Store ι σ} (h : ReflTransGen (Step upd) ⟨s₀, []⟩ s) :
    Spec upd s₀ s := by
  refine invariant_run ?_ ?_ h
  · exact fun _ _ hs h ↦ spec_step upd hs h
  · exact ⟨rfl, fun k hk ↦ by simp [stateAfter]⟩

end Atomic
