import Mathlib.Data.Nat.Notation
import Mathlib.Logic.Relation

namespace Rounds

/-!
# Protocols as parts of a larger run

A protocol seen from outside: which party moves, and who has returned.

* `Protocol.ReachedBy` — what some of the parties can reach while the others do not move;
* `Protocol.IsBarrier` — nobody returns before all others have moved;
* `Protocol.CanFinish` — all parties together can always still return;
* `Protocol.among` — only some of the parties take part.
-/

/-- A protocol of several parties. -/
structure Protocol where
  State : Type
  init : State
  step : ℕ → State → State → Prop
  returned : State → ℕ → Prop

namespace Protocol

variable (P : Protocol)

/-- A step of one of the parties `A`. -/
def StepOf (A : ℕ → Prop) (s s' : P.State) : Prop := ∃ i, A i ∧ P.step i s s'

/-- What the parties `A` can reach. -/
def ReachedBy (A : ℕ → Prop) (s : P.State) : Prop := Relation.ReflTransGen (P.StepOf A) P.init s

/-- **A barrier.**  Whoever returns, all others have moved. -/
def IsBarrier (n : ℕ) : Prop :=
  ∀ A s, P.ReachedBy A s → ∀ i < n, P.returned s i → ∀ j < n, j ≠ i → A j

/-- **Progress.** -/
def CanFinish (n : ℕ) : Prop :=
  ∀ s, P.ReachedBy (· < n) s →
    ∃ s', Relation.ReflTransGen (P.StepOf (· < n)) s s' ∧ ∀ i < n, P.returned s' i

/-- Only the parties `S` take part; the others neither move nor return. -/
def among (S : ℕ → Prop) : Protocol where
  State := P.State
  init := P.init
  step i s s' := S i ∧ P.step i s s'
  returned s i := S i ∧ P.returned s i

variable {P} {A B S : ℕ → Prop} {s s' : P.State} {n : ℕ}

theorem StepOf.mono (hAB : ∀ i, A i → B i) (h : P.StepOf A s s') : P.StepOf B s s' := by
  obtain ⟨i, hi, hs⟩ := h
  exact ⟨i, hAB i hi, hs⟩

theorem ReachedBy.mono (hAB : ∀ i, A i → B i) (h : P.ReachedBy A s) : P.ReachedBy B s :=
  Relation.ReflTransGen.mono (fun _ _ hs => hs.mono hAB) _ _ h

/-! ### Protocols of some of the parties -/

/-- What can be reached are states of the protocol itself. -/
theorem ReachedBy.of_among {s : (P.among S).State} (h : (P.among S).ReachedBy A s) :
    P.ReachedBy (fun i => A i ∧ S i) s := by
  refine Relation.ReflTransGen.mono (fun _ _ hs => ?_) _ _ h
  obtain ⟨i, hi, hS, hs⟩ := hs
  exact ⟨i, ⟨hi, hS⟩, hs⟩

/-- Where nobody takes part, nothing happens. -/
theorem ReachedBy.eq_init {s : (P.among S).State} (h : (P.among S).ReachedBy A s)
    (hnone : ∀ i, A i → ¬ S i) : s = P.init := by
  induction h with
  | refl => rfl
  | tail _ hs =>
    obtain ⟨i, hi, hS, -⟩ := hs
    exact absurd hS (hnone i hi)

theorem IsBarrier.among (h : P.IsBarrier n) : (P.among S).IsBarrier n :=
  fun _ _ hs i hi hret j hj hji => (h _ _ hs.of_among i hi hret.2 j hj hji).1

/-- If everybody takes part, they can finish. -/
theorem CanFinish.among (hS : ∀ i < n, S i) (h : P.CanFinish n) : (P.among S).CanFinish n := by
  intro s hs
  obtain ⟨s', hrun, hret⟩ := h s (hs.of_among.mono fun _ hi => hi.1)
  refine ⟨s', ?_, fun i hi => ⟨hS i hi, hret i hi⟩⟩
  refine Relation.ReflTransGen.mono (fun _ _ hs => ?_) _ _ hrun
  obtain ⟨i, hi, hs⟩ := hs
  exact ⟨i, hi, hS i hi, hs⟩

end Protocol

end Rounds
