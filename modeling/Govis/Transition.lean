import Mathlib.Algebra.BigOperators.Group.Finset.Basic
import Mathlib.Logic.Relation

namespace Transition

/-!
# Runs of a labelled transition system

A system is a step function on its states, with the actions as labels.

* `Run` — what can be reached by allowed actions;
* `Run.invariant`, `Run.sim` — the rules for what every run keeps, and for runs of two systems;
* `exists_reach_of_measure`, `exists_run_of_measure` — a run to a goal, from progress towards it;
* `sum_change` — measures that add up over components.
-/

variable {A A' σ τ : Type} {step : A → σ → Option σ} {step' : A' → τ → Option τ} {ok ok' : A → Prop}
  {s s' s'' : σ}

variable (step ok) in
/-- One allowed step. -/
def Next (s s' : σ) : Prop := ∃ a, ok a ∧ step a s = some s'

variable (step ok) in
/-- `Run step ok s s'`: allowed steps lead from `s` to `s'`. -/
def Run : σ → σ → Prop := Relation.ReflTransGen (Next step ok)

theorem Run.refl (s : σ) : Run step ok s s := Relation.ReflTransGen.refl

theorem Run.trans (h : Run step ok s s') (h' : Run step ok s' s'') : Run step ok s s'' :=
  Relation.ReflTransGen.trans h h'

theorem Run.tail (h : Run step ok s s') {a : A} (ha : ok a) (hs : step a s' = some s'') :
    Run step ok s s'' :=
  Relation.ReflTransGen.tail h ⟨a, ha, hs⟩

theorem Run.single {a : A} (ha : ok a) (hs : step a s = some s') : Run step ok s s' :=
  (Run.refl s).tail ha hs

/-- **Invariants.**  What every allowed step keeps, every run keeps. -/
theorem Run.invariant {P : σ → Prop} (h : Run step ok s s')
    (hstep : ∀ a s s', ok a → step a s = some s' → P s → P s') (h0 : P s) : P s' := by
  induction h with
  | refl => exact h0
  | tail _ hs ih =>
    obtain ⟨a, ha, hs⟩ := hs
    exact hstep a _ _ ha hs ih

/-- **Simulation.**  If every step is a run of another system, every run is. -/
theorem Run.sim {ok₂ : A' → Prop} (f : σ → τ)
    (hstep : ∀ a s s', ok a → step a s = some s' → Run step' ok₂ (f s) (f s'))
    (h : Run step ok s s') : Run step' ok₂ (f s) (f s') := by
  induction h with
  | refl => exact Run.refl _
  | tail _ hs ih =>
    obtain ⟨a, ha, hs⟩ := hs
    exact ih.trans (hstep a _ _ ha hs)

/-- More actions allow more runs. -/
theorem Run.mono (hok : ∀ a, ok a → ok' a) (h : Run step ok s s') : Run step ok' s s' :=
  h.sim id fun a _ _ ha hs => Run.single (hok a ha) hs

/-- **Progress.**  If from every state that satisfies `P` but not `Q` there is a run to one that
    satisfies `P` and is smaller, then `Q` can be reached. -/
theorem exists_reach_of_measure {r : σ → σ → Prop} {P Q : σ → Prop} (μ : σ → ℕ)
    (h : ∀ s, P s → ¬ Q s → ∃ s', Relation.ReflTransGen r s s' ∧ P s' ∧ μ s' < μ s) (hs : P s) :
    ∃ s', Relation.ReflTransGen r s s' ∧ P s' ∧ Q s' := by
  induction hk : μ s using Nat.strong_induction_on generalizing s with
  | _ k ih =>
    by_cases hQ : Q s
    · exact ⟨s, .refl, hs, hQ⟩
    · obtain ⟨s', hrun, hs', hlt⟩ := h s hs hQ
      obtain ⟨s'', hrun', hs'', hQ''⟩ := ih (μ s') (hk ▸ hlt) hs' rfl
      exact ⟨s'', hrun.trans hrun', hs'', hQ''⟩

/-- The same for a labelled system. -/
theorem exists_run_of_runs {P Q : σ → Prop} (μ : σ → ℕ)
    (h : ∀ s, P s → ¬ Q s → ∃ s', Run step ok s s' ∧ P s' ∧ μ s' < μ s) (hs : P s) :
    ∃ s', Run step ok s s' ∧ P s' ∧ Q s' :=
  exists_reach_of_measure μ h hs

/-- The same with one step at a time. -/
theorem exists_run_of_measure {P Q : σ → Prop} (μ : σ → ℕ)
    (h : ∀ s, P s → ¬ Q s → ∃ a s', ok a ∧ step a s = some s' ∧ P s' ∧ μ s' < μ s) (hs : P s) :
    ∃ s', Run step ok s s' ∧ P s' ∧ Q s' := by
  refine exists_run_of_runs μ (fun s hs hQ => ?_) hs
  obtain ⟨a, s', ha, hstep, hs', hlt⟩ := h s hs hQ
  exact ⟨s', Run.single ha hstep, hs', hlt⟩

/-- A measure that adds up over components, of which one changes. -/
theorem sum_change {ι : Type} [DecidableEq ι] {S : Finset ι} {i : ι} (hi : i ∈ S) (f f' : ι → ℕ)
    (h : ∀ k ∈ S, k ≠ i → f' k = f k) : ∑ k ∈ S, f' k + f i = ∑ k ∈ S, f k + f' i := by
  have hrest : ∑ k ∈ S.erase i, f' k = ∑ k ∈ S.erase i, f k :=
    Finset.sum_congr rfl fun k hk => h k (Finset.mem_of_mem_erase hk) (Finset.ne_of_mem_erase hk)
  rw [← Finset.add_sum_erase S f' hi, ← Finset.add_sum_erase S f hi, hrest]
  omega

/-- Such a measure gets smaller if the component does. -/
theorem sum_lt_of_change {ι : Type} [DecidableEq ι] {S : Finset ι} {i : ι} (hi : i ∈ S) {f f' : ι → ℕ}
    (h : ∀ k ∈ S, k ≠ i → f' k = f k) (hlt : f' i < f i) : ∑ k ∈ S, f' k < ∑ k ∈ S, f k := by
  have hsum := sum_change hi f f' h
  omega

end Transition
