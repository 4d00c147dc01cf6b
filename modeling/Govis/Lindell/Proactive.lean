import Govis.Lindell.Epochs
import Govis.Shamir.Masking

namespace Govis.Lindell

open Curve Shamir Rounds Polynomial

/-!
# Lindell: secrecy across refreshes

A key generation is followed by one refresh after another.  An adversary reads the parties, other
ones in every epoch.

* `History` — honest runs of `run_dkg` and of the refreshes after it, with what they returned;
* `SameView` — the adversary has read the same shares, coins and sub-shares in two histories;
* `LifeCoins.mask`, `Masks` — the coins of another history: dealers that are not read deal
  polynomials on top that vanish at the nodes of the adversary;
* `refresh_hides_secret_iff` — **the view fits every secret exactly if the adversary has read fewer
  than `t` shares in each epoch**, as long as two dealers are never read together.

What the parties broadcast is not part of the view: the points of a dealing fix its polynomial.
-/

variable {C : Curve} {H : Hash} {n t : ℕ} {sid : ℕ → List UInt8}

/-! ### Histories -/

/-- What the parties draw in the key generation and in the refreshes. -/
structure LifeCoins (C : Curve) where
  dkg : ℕ → DealerCoins C
  refresh : ℕ → ℕ → ℕ → C.Scalar

/-- `SecretScalar::random` never draws zero. -/
structure LifeCoins.Nonzero (coins : LifeCoins C) : Prop where
  intercept : ∀ d, (coins.dkg d).intercept ≠ 0
  draw : ∀ d k, (coins.dkg d).draw k ≠ 0
  refresh : ∀ e d k, coins.refresh e d k ≠ 0

/-- The coins of the `e`-th refresh, as `run_vss` gets them. -/
def LifeCoins.dealer (coins : LifeCoins C) (e d : ℕ) : DealerCoins C := ⟨0, coins.refresh e d⟩

/-- **Honest parties over time.** A run of the key generation, and for every epoch a run of the
    refresh that starts from the outputs of the one before. -/
structure History (C : Curve) (H : Hash) (n t : ℕ) (sid : ℕ → List UInt8) where
  coins : LifeCoins C
  /-- What the parties hold in an epoch. -/
  out : ℕ → ℕ → LindellDkgOutput C
  dkgNet : Net (Msg C) (Res DkgError (LindellDkgOutput C))
  dkg_reachable : Reachable (dkgSetup H n t (sid 0) coins.dkg fun _ => False) dkgNet
  dkg_returned : ∀ i < n, dkgNet.Returned i (.ok (out 0 i))
  refreshNet : ℕ → Net (Msg C) (Res DkgError (LindellDkgOutput C))
  refresh_reachable : ∀ e, Reachable
    (refreshSetup H n t (sid (e + 1)) (out e) (coins.refresh e) fun _ => False) (refreshNet e)
  refresh_returned : ∀ e, ∀ i < n, (refreshNet e).Returned i (.ok (out (e + 1) i))

namespace History

variable (h : History C H n t sid)

/-- The secret of the key generation. -/
def secret : C.Scalar := ∑ d ∈ Finset.range n, (h.coins.dkg d).intercept

/-- The shares of the key generation. -/
theorem share_zero {i : ℕ} (hi : i < n) :
    (h.out 0 i).secretShare = ∑ d ∈ Finset.range n, ownShare h.coins.dkg t d i := by
  have hret := ((dkgSetup_runsVss H n t (sid 0) h.coins.dkg fun _ => False).completes
    fun _ _ => not_false).returns _ h.dkg_reachable i hi _ (h.dkg_returned i hi)
  rw [Except.ok.inj hret]
  refine (eval_jointPoly _ _ _).trans (Finset.sum_congr rfl fun d _ => ?_)
  rw [map_dlog_ownVector, ownShare]

/-- The shares after one more refresh. -/
theorem share_succ (e : ℕ) {i : ℕ} (hi : i < n) :
    (h.out (e + 1) i).secretShare =
      (h.out e i).secretShare + ∑ d ∈ Finset.range n, ownShare (h.coins.dealer e) t d i := by
  have hret := ((refreshSetup_runsVss H n t (sid (e + 1)) (h.out e) (h.coins.refresh e)
    fun _ => False).completes fun _ _ => not_false).returns _ (h.refresh_reachable e) i hi _
      (h.refresh_returned e i hi)
  rw [Except.ok.inj hret]
  refine congrArg _ ((eval_jointPoly _ _ _).trans (Finset.sum_congr rfl fun d _ => ?_))
  rw [map_dlog_ownVector]
  rfl

/-- The refreshes of the history, as a chain. -/
theorem refreshed (e : ℕ) : Refreshed H n t (h.out 0) (h.out e) := by
  induction e with
  | zero => exact .refl
  | succ e ih => exact .step ih (h.refresh_reachable e) (h.refresh_returned e)

/-- In every epoch the parties share the secret. -/
theorem isSharing (ht : 1 ≤ t) (e : ℕ) : IsSharing n t h.secret (h.out e) := by
  obtain ⟨out, hcompletes, hout⟩ := @runDkg_completes C H n t (sid 0) ht h.coins.dkg
  refine (h.refreshed e).isSharing ht (hout.congr fun i hi => ?_)
  exact Except.ok.inj (hcompletes.returns _ h.dkg_reachable i hi _ (h.dkg_returned i hi))

end History

/-- The sub-share that has arrived from an honest dealer. -/
theorem RunsVss.received {R : Type} {sid : List UInt8} {coins : ℕ → DealerCoins C}
    {S : Setup (Msg C) R} {out : ℕ → Res DkgError (C.Scalar × C.Point) → R}
    (hS : RunsVss H t sid coins S out) (hh : ∀ i, ¬ S.corrupt i) {s : Net (Msg C) R}
    (hs : Reachable S s) {i : ℕ} (hi : i < S.n) {res : R} (hres : s.Returned i res) {d : ℕ}
    (hd : d < S.n) (hdi : d ≠ i) :
    (s i).got 2 d = some (⟨ownShare coins t d i⟩ : ShareMsg C) := by
  have hsound := hs.sound
  -- the run has ended with success, so the last round is full
  have hfollows : (S.prog i).ends ((s i).inbox S.n i) = 3 := by
    obtain ⟨commit, hfirst⟩ := hS.first_rounds hsound hi (hh i) hres
    rw [hS.prog_eq, Proc.ends_map]
    refine (runVss_of_opens hi (collect_eq_map_others fun d hd hdi => (hfirst d hd hdi).1)
      (collect_eq_map_others fun d hd hdi => (hfirst d hd hdi).2) fun d hd hdi => ?_).1
    refine ⟨hS.got_commit hsound (hh d) (hfirst d hd hdi).1, ?_⟩
    rw [revealed, if_neg (hh d)]
    exact List.cons_ne_nil _ _
  obtain ⟨m, hm⟩ := hsound.full (r := 2) hi (hh i) hres
    (by rw [hfollows]; exact Nat.lt_succ_self 2) hd hdi
  have hsends := hsound.sends hd (hh d) hm
  rw [hS.prog_eq, Proc.sends_map_iff] at hsends
  rw [hm, runVss_sends_share hi hsends, ownShare]

/-! ### Views -/

/-- The adversary, which reads the parties `A e` in epoch `e`, holds the same in two histories:
    the shares of the epoch, and of a party that it reads before and after a run, the coins and
    the sub-shares that have arrived. -/
structure SameView (A : ℕ → Finset ℕ) (h h' : History C H n t sid) : Prop where
  share_eq : ∀ e, ∀ i ∈ A e, (h'.out e i).secretShare = (h.out e i).secretShare
  dkg_coins : ∀ i ∈ A 0, h'.coins.dkg i = h.coins.dkg i
  dkg_received : ∀ i ∈ A 0, ∀ d < n, d ≠ i → (h'.dkgNet i).got 2 d = (h.dkgNet i).got 2 d
  refresh_coins : ∀ e, ∀ i ∈ A e ∩ A (e + 1), h'.coins.refresh e i = h.coins.refresh e i
  refresh_received : ∀ e, ∀ i ∈ A e ∩ A (e + 1), ∀ d < n, d ≠ i →
    (h'.refreshNet e i).got 2 d = (h.refreshNet e i).got 2 d

/-- The view fits every secret: for each there is a history of possible draws. -/
def HidesSecret (A : ℕ → Finset ℕ) (h : History C H n t sid) : Prop :=
  ∀ sk : C.Scalar, ∃ h' : History C H n t sid, h'.coins.Nonzero ∧ h'.secret = sk ∧ SameView A h h'

/-! ### Histories from coins -/

/-- The outputs that given coins lead to. -/
noncomputable def LifeCoins.out (coins : LifeCoins C) (n t : ℕ) : ℕ → ℕ → LindellDkgOutput C
  | 0, i => ⟨(jointPoly n (ownVector coins.dkg t)).eval (node C i),
      jointAt n (ownVector coins.dkg t) 0⟩
  | e + 1, i => ⟨(coins.out n t e i).secretShare +
      (jointPoly n (ownVector (coins.dealer e) t)).eval (node C i), (coins.out n t e i).publicKey⟩

/-- **All coins have a history.** -/
theorem exists_history (H : Hash) (sid : ℕ → List UInt8) (coins : LifeCoins C) :
    ∃ h : History C H n t sid, h.coins = coins := by
  obtain ⟨dkgNet, hdkg, hdkgRet⟩ := ((dkgSetup_runsVss H n t (sid 0) coins.dkg
    fun _ => False).completes fun _ _ => not_false).reaches _ .refl
  have hrefresh : ∀ e, ∃ s, Reachable (refreshSetup H n t (sid (e + 1)) (coins.out n t e)
      (coins.refresh e) fun _ => False) s ∧ ∀ i < n, s.Returned i (.ok (coins.out n t (e + 1) i)) :=
    fun e => ((refreshSetup_runsVss H n t (sid (e + 1)) (coins.out n t e) (coins.refresh e)
      fun _ => False).completes fun _ _ => not_false).reaches _ .refl
  choose refreshNet hreach hret using hrefresh
  exact ⟨⟨coins, coins.out n t, dkgNet, hdkg, hdkgRet, refreshNet, hreach, hret⟩, rfl⟩

/-! ### Masking a dealing -/

/-- The coins of a dealer that deals `f` on top. -/
noncomputable def DealerCoins.add (c : DealerCoins C) (f : C.Scalar[X]) : DealerCoins C :=
  ⟨c.intercept + f.coeff 0, fun k => c.draw k + f.coeff (k + 1)⟩

theorem evalAt_map_add {F : Type*} [CommRing F] (x : F) (f g : ℕ → F) (l : List ℕ) :
    evalAt x (l.map fun k => f k + g k) = evalAt x (l.map f) + evalAt x (l.map g) := by
  induction l with
  | nil => simp
  | cons k l ih =>
    simp only [List.map_cons, evalAt_cons, ih, smul_eq_mul]
    ring

/-- The masked shares. -/
theorem evalAt_dealing_add (c : DealerCoins C) {f : C.Scalar[X]} (ht : 1 ≤ t) (hf : f.degree < t)
    (x : C.Scalar) :
    evalAt x (dealing (c.add f).intercept (c.add f).draw t) =
      evalAt x (dealing c.intercept c.draw t) + f.eval x := by
  rw [← evalAt_dealing_coeff ht hf]
  simp only [dealing, DealerCoins.add, evalAt_cons, evalAt_map_add, smul_eq_mul]
  ring

/-- The shares when every dealer `d` of `coins` deals `m d` on top. -/
theorem ownShare_add (coins : ℕ → DealerCoins C) {m : ℕ → C.Scalar[X]} (ht : 1 ≤ t)
    (hm : ∀ d, (m d).degree < t) (d j : ℕ) :
    ownShare (fun d => (coins d).add (m d)) t d j = ownShare coins t d j + (m d).eval (node C j) :=
  evalAt_dealing_add _ ht (hm d) _

theorem sum_ownShare_add (coins : ℕ → DealerCoins C) {m : ℕ → C.Scalar[X]} (ht : 1 ≤ t)
    (hm : ∀ d, (m d).degree < t) (j : ℕ) :
    ∑ d ∈ Finset.range n, ownShare (fun d => (coins d).add (m d)) t d j =
      ∑ d ∈ Finset.range n, ownShare coins t d j +
        (∑ d ∈ Finset.range n, m d).eval (node C j) := by
  rw [Finset.sum_congr rfl fun d _ => ownShare_add coins ht hm d j, Finset.sum_add_distrib,
    eval_finsetSum]

theorem DealerCoins.add_zero_poly (c : DealerCoins C) : c.add 0 = c := by
  simp only [DealerCoins.add, coeff_zero, add_zero]

/-- The coins in which dealer `d` deals `m d` on top in the key generation and `r e d` in the refreshes. -/
noncomputable def LifeCoins.mask (coins : LifeCoins C) (m : ℕ → C.Scalar[X])
    (r : ℕ → ℕ → C.Scalar[X]) : LifeCoins C where
  dkg d := (coins.dkg d).add (m d)
  refresh e d := ((coins.dealer e d).add (r e d)).draw

@[simp] theorem LifeCoins.mask_dkg (coins : LifeCoins C) (m : ℕ → C.Scalar[X])
    (r : ℕ → ℕ → C.Scalar[X]) : (coins.mask m r).dkg = fun d => (coins.dkg d).add (m d) := rfl

/-- The polynomials on top add up to a mask `D e` of the shares of every epoch, and the adversary that
    reads the parties `A e` sees nothing of them. -/
structure Masks (n t : ℕ) (A : ℕ → Finset ℕ) (D : ℕ → C.Scalar[X]) (m : ℕ → C.Scalar[X])
    (r : ℕ → ℕ → C.Scalar[X]) : Prop where
  degree_dkg : ∀ d, (m d).degree < t
  degree_refresh : ∀ e d, (r e d).degree < t
  sum_dkg : ∑ d ∈ Finset.range n, m d = D 0
  sum_refresh : ∀ e, ∑ d ∈ Finset.range n, r e d = D (e + 1) - D e
  /-- A refresh does not move the secret. -/
  constant : ∀ e d, (r e d).eval 0 = 0
  mask_zero : ∀ e, ∀ i ∈ A e, (D e).eval (node C i) = 0
  own_dkg : ∀ d ∈ A 0, m d = 0
  own_refresh : ∀ e, ∀ d ∈ A e ∩ A (e + 1), r e d = 0
  received_dkg : ∀ d, ∀ i ∈ A 0, (m d).eval (node C i) = 0
  received_refresh : ∀ e d, ∀ i ∈ A e ∩ A (e + 1), (r e d).eval (node C i) = 0

section Mask

variable {coins : LifeCoins C} {A : ℕ → Finset ℕ} {D m : ℕ → C.Scalar[X]} {r : ℕ → ℕ → C.Scalar[X]}

/-- What is dealt on top in a refresh has no constant. -/
theorem LifeCoins.dealer_mask (hr : ∀ e d, (r e d).eval 0 = 0) (e : ℕ) :
    (coins.mask m r).dealer e = fun d => (coins.dealer e d).add (r e d) := by
  funext d
  simp only [LifeCoins.dealer, LifeCoins.mask, DealerCoins.add, coeff_zero_eq_eval_zero, hr e d,
    add_zero]

/-- **The masked shares** of an epoch are the shares plus its mask. -/
theorem Masks.share_eq (hM : Masks n t A D m r) (ht : 1 ≤ t) {h h' : History C H n t sid}
    (hcoins : h'.coins = h.coins.mask m r) (e : ℕ) {i : ℕ} (hi : i < n) :
    (h'.out e i).secretShare = (h.out e i).secretShare + (D e).eval (node C i) := by
  induction e with
  | zero =>
    rw [h'.share_zero hi, h.share_zero hi, hcoins, LifeCoins.mask_dkg,
      sum_ownShare_add _ ht hM.degree_dkg, hM.sum_dkg]
  | succ e ih =>
    rw [h'.share_succ e hi, h.share_succ e hi, ih, hcoins, LifeCoins.dealer_mask hM.constant,
      sum_ownShare_add _ ht (hM.degree_refresh e), hM.sum_refresh, eval_sub]
    ring

/-- A masked history looks the same to the adversary. -/
theorem Masks.sameView (hM : Masks n t A D m r) (ht : 1 ≤ t) (hA : ∀ e, ∀ i ∈ A e, i < n)
    {h h' : History C H n t sid} (hcoins : h'.coins = h.coins.mask m r) : SameView A h h' where
  share_eq e i hi := by
    rw [hM.share_eq ht hcoins e (hA e i hi), hM.mask_zero e i hi, add_zero]
  dkg_coins i hi := by
    rw [hcoins]
    show (h.coins.dkg i).add (m i) = _
    rw [hM.own_dkg i hi, DealerCoins.add_zero_poly]
  dkg_received i hi d hd hdi := by
    have hin := hA 0 i hi
    rw [(dkgSetup_runsVss H n t (sid 0) h.coins.dkg fun _ => False).received (fun _ => not_false)
        h.dkg_reachable hin (h.dkg_returned i hin) hd hdi,
      (dkgSetup_runsVss H n t (sid 0) h'.coins.dkg fun _ => False).received (fun _ => not_false)
        h'.dkg_reachable hin (h'.dkg_returned i hin) hd hdi, hcoins, LifeCoins.mask_dkg,
      ownShare_add _ ht hM.degree_dkg, hM.received_dkg d i hi, add_zero]
  refresh_coins e i hi := by
    show h'.coins.refresh e i = (h.coins.dealer e i).draw
    rw [hcoins, ← DealerCoins.add_zero_poly (h.coins.dealer e i), ← hM.own_refresh e i hi]
    rfl
  refresh_received e i hi d hd hdi := by
    have hin := hA e i (Finset.mem_inter.mp hi).1
    rw [(refreshSetup_runsVss H n t (sid (e + 1)) (h.out e) (h.coins.refresh e)
        fun _ => False).received (fun _ => not_false) (h.refresh_reachable e) hin
          (h.refresh_returned e i hin) hd hdi,
      (refreshSetup_runsVss H n t (sid (e + 1)) (h'.out e) (h'.coins.refresh e)
        fun _ => False).received (fun _ => not_false) (h'.refresh_reachable e) hin
          (h'.refresh_returned e i hin) hd hdi]
    have hdealer : (fun d => (⟨0, h'.coins.refresh e d⟩ : DealerCoins C)) =
        fun d => (h.coins.dealer e d).add (r e d) := by
      rw [hcoins]
      exact LifeCoins.dealer_mask hM.constant e
    rw [hdealer, ownShare_add _ ht (hM.degree_refresh e), hM.received_refresh e d i hi,
      add_zero]
    rfl

/-- **The secret** moves by the constant of the first mask. -/
theorem Masks.secret_eq (hM : Masks n t A D m r) {h h' : History C H n t sid}
    (hcoins : h'.coins = h.coins.mask m r) : h'.secret = h.secret + (D 0).eval 0 := by
  have hsum : ∀ d, (h'.coins.dkg d).intercept = (h.coins.dkg d).intercept + (m d).eval 0 := by
    intro d
    rw [hcoins, LifeCoins.mask_dkg]
    exact congrArg _ (coeff_zero_eq_eval_zero _)
  rw [History.secret, Finset.sum_congr rfl fun d _ => hsum d, Finset.sum_add_distrib,
    ← eval_finsetSum, hM.sum_dkg]
  rfl

end Mask

/-! ### Two dealers that are not read -/

/-- Fewer parties than all but one leave two out. -/
theorem exists_two_not_mem {A : Finset ℕ} (hA : A.card + 2 ≤ n) :
    ∃ b < n, ∃ b' < n, b ≠ b' ∧ b ∉ A ∧ b' ∉ A := by
  have hcard : 1 < (Finset.range n \ A).card := by
    have hle := Finset.le_card_sdiff A (Finset.range n)
    rw [Finset.card_range] at hle
    omega
  obtain ⟨b, hb, b', hb', hne⟩ := Finset.one_lt_card.mp hcard
  obtain ⟨hbn, hbA⟩ := Finset.mem_sdiff.mp hb
  obtain ⟨hbn', hbA'⟩ := Finset.mem_sdiff.mp hb'
  exact ⟨b, Finset.mem_range.mp hbn, b', Finset.mem_range.mp hbn', hne, hbA, hbA'⟩

/-- The dealings with `m d` on top of the coefficients `c d`, at the positions `K`. -/
structure Splits (n t : ℕ) (A : Finset ℕ) (S : Finset C.Scalar) (K : Finset ℕ)
    (c : ℕ → ℕ → C.Scalar) (E : C.Scalar[X]) (m : ℕ → C.Scalar[X]) : Prop where
  vanishes : ∀ d, m d ∈ vanishing S t
  sum_eq : ∑ d ∈ Finset.range n, m d = E
  own : ∀ d ∈ A, m d = 0
  ne_zero : ∀ d, ∀ k ∈ K, c d k + (m d).coeff k ≠ 0

/-- **Two dealers that are not read** can deal any mask on top. -/
theorem exists_splits {A : Finset ℕ} (hA : A.card + 2 ≤ n) {S : Finset C.Scalar} {E : C.Scalar[X]}
    (hE : E ∈ vanishing S t) {K : Finset ℕ} (hK : 2 * K.card < C.q) {c : ℕ → ℕ → C.Scalar}
    (hc : ∀ d, ∀ k ∈ K, c d k ≠ 0) : ∃ m, Splits n t A S K c E m := by
  obtain ⟨b, hb, b', hb', hne, hbA, hbA'⟩ := exists_two_not_mem hA
  obtain ⟨f, hf, g, hg, hfg, hnz⟩ := exists_split hE (lt_of_lt_of_eq hK (ZMod.card C.q).symm) (hc b)
    (hc b')
  refine ⟨fun d => if d = b then f else if d = b' then g else 0, fun d => ?_, ?_, fun d hd => ?_,
    fun d k hk => ?_⟩
  · split_ifs
    · exact hf
    · exact hg
    · exact zero_mem _
  · rw [← Finset.add_sum_erase _ _ (Finset.mem_range.mpr hb), if_pos rfl, ← hfg]
    refine congrArg _ ?_
    have hmem : b' ∈ (Finset.range n).erase b :=
      Finset.mem_erase.mpr ⟨Ne.symm hne, Finset.mem_range.mpr hb'⟩
    rw [Finset.sum_congr rfl fun d hd => if_neg (Finset.ne_of_mem_erase hd), Finset.sum_ite_eq',
      if_pos hmem]
  · have hdb : d ≠ b := fun h => hbA (h ▸ hd)
    have hdb' : d ≠ b' := fun h => hbA' (h ▸ hd)
    rw [if_neg hdb, if_neg hdb']
  · split_ifs with h1 h2
    · rw [h1]
      exact (hnz k hk).1
    · rw [h2]
      exact (hnz k hk).2
    · rw [coeff_zero, add_zero]
      exact hc d k hk

/-- The coefficients of a dealing beyond its degree are as they were. -/
theorem add_coeff_ne_zero {c : C.Scalar} {f : C.Scalar[X]} (hf : f.degree < t) {k : ℕ} (hc : c ≠ 0)
    (hk : k < t → c + f.coeff k ≠ 0) : c + f.coeff k ≠ 0 := by
  rcases Nat.lt_or_ge k t with hlt | hge
  · exact hk hlt
  · rwa [(degree_lt_iff_coeff_zero f t).mp hf k hge, add_zero]

/-- The nodes of the parties that are read. -/
def nodes (C : Curve) (A : Finset ℕ) : Finset C.Scalar := A.image (node C)

theorem eval_node_of_vanishing {A : Finset ℕ} {S : Finset C.Scalar} (hS : nodes C A ⊆ S)
    {f : C.Scalar[X]} (hf : f ∈ vanishing S t) {i : ℕ} (hi : i ∈ A) : f.eval (node C i) = 0 :=
  hf.2 _ (hS (Finset.mem_image_of_mem _ hi))

/-- **Masks for given masks of the shares.**  Every draw of the masked history is possible. -/
theorem exists_masks {A : ℕ → Finset ℕ} (h2 : ∀ e, (A e).card + 2 ≤ n) (hq : 2 * t < C.q)
    {coins : LifeCoins C} (hcoins : coins.Nonzero) {D : ℕ → C.Scalar[X]}
    (hD : ∀ e, D e ∈ vanishing (nodes C (A e)) t) (hD0 : ∀ e, (D e).eval 0 = (D 0).eval 0) :
    ∃ m r, Masks n t A D m r ∧ (coins.mask m r).Nonzero := by
  have hinter : ∀ e, (A e ∩ A (e + 1)).card + 2 ≤ n := fun e =>
    le_trans (Nat.add_le_add_right (Finset.card_le_card Finset.inter_subset_left) 2) (h2 e)
  -- the key generation
  obtain ⟨m, hm⟩ := exists_splits (h2 0) (hD 0) (K := Finset.range t)
    (c := fun d k => (dealing (coins.dkg d).intercept (coins.dkg d).draw t).getD k 0)
    (by rwa [Finset.card_range]) fun d k hk => by
      obtain _ | k := k
      · exact hcoins.intercept d
      · have hlt : k < t - 1 := by
          have := Finset.mem_range.mp hk
          omega
        simpa [dealing, hlt] using hcoins.draw d k
  -- the refreshes, in which the differences of the masks have no constant
  have hdiff : ∀ e, D (e + 1) - D e ∈ vanishing (insert 0 (nodes C (A e ∩ A (e + 1)))) t := by
    intro e
    refine ⟨lt_of_le_of_lt (degree_sub_le _ _) (max_lt (hD (e + 1)).1 (hD e).1), fun x hx => ?_⟩
    rw [eval_sub]
    rcases Finset.mem_insert.mp hx with rfl | hx
    · rw [hD0 (e + 1), hD0 e, sub_self]
    · obtain ⟨i, hi, rfl⟩ := Finset.mem_image.mp hx
      obtain ⟨hi0, hi1⟩ := Finset.mem_inter.mp hi
      rw [(hD (e + 1)).2 _ (Finset.mem_image_of_mem _ hi1), (hD e).2 _ (Finset.mem_image_of_mem _ hi0),
        sub_self]
  have hrefresh : ∀ e, ∃ r, Splits n t (A e ∩ A (e + 1)) (insert 0 (nodes C (A e ∩ A (e + 1))))
      (Finset.Ico 1 t) (fun d k => coins.refresh e d (k - 1)) (D (e + 1) - D e) r := fun e =>
    exists_splits (hinter e) (hdiff e) (by
      rw [Nat.card_Ico]
      omega) fun d k _ => hcoins.refresh e d _
  choose r hr using hrefresh
  refine ⟨m, r, ⟨fun d => (hm.vanishes d).1, fun e d => ((hr e).vanishes d).1, hm.sum_eq,
    fun e => (hr e).sum_eq, fun e d => ((hr e).vanishes d).2 0 (Finset.mem_insert_self _ _),
    fun e i hi => eval_node_of_vanishing (Finset.Subset.refl _) (hD e) hi, hm.own,
    fun e => (hr e).own,
    fun d i hi => eval_node_of_vanishing (Finset.Subset.refl _) (hm.vanishes d) hi,
    fun e d i hi => eval_node_of_vanishing (Finset.subset_insert _ _) ((hr e).vanishes d) hi⟩,
    ⟨fun d => ?_, fun d k => ?_, fun e d k => ?_⟩⟩
  · refine add_coeff_ne_zero (hm.vanishes d).1 (hcoins.intercept d) fun ht => ?_
    exact hm.ne_zero d 0 (Finset.mem_range.mpr ht)
  · refine add_coeff_ne_zero (hm.vanishes d).1 (hcoins.draw d k) fun ht => ?_
    have h := hm.ne_zero d (k + 1) (Finset.mem_range.mpr ht)
    have hlt : k < t - 1 := by omega
    simpa [dealing, hlt] using h
  · refine add_coeff_ne_zero ((hr e).vanishes d).1 (hcoins.refresh e d k) fun ht => ?_
    exact (hr e).ne_zero d (k + 1) (Finset.mem_Ico.mpr ⟨by omega, ht⟩)

/-! ### Secrecy -/

/-- `t` shares of one epoch leave one secret. -/
theorem not_hidesSecret (ht : 1 ≤ t) (hn : n < 2 ^ 16) {A : ℕ → Finset ℕ}
    (hA : ∀ e, ∀ i ∈ A e, i < n) (h : History C H n t sid) {e : ℕ} (hcard : t ≤ (A e).card) :
    ¬ HidesSecret A h := by
  intro hhides
  obtain ⟨h', -, hsecret, hview⟩ := hhides (h.secret + 1)
  have hcomb : ∀ {g : History C H n t sid},
      combine (A e).toList (fun i => (g.out e i).secretShare) = some g.secret := by
    intro g
    refine (g.isSharing ht e).combine_eq hn (A e).nodup_toList
      (fun i hi => hA e i (Finset.mem_toList.mp hi)) ?_
    rwa [Finset.length_toList]
  have heq := (combine_congr fun i hi =>
    hview.share_eq e i (Finset.mem_toList.mp hi)).symm.trans (hcomb (g := h'))
  rw [hcomb, Option.some.injEq, hsecret, left_eq_add] at heq
  exact one_ne_zero heq

/-- **Proactive secrecy.**  An adversary reads the parties `A e` in epoch `e`, with the coins and
    the sub-shares of those it reads before and after a run, and leaves two parties out in every
    epoch.  Whatever has happened, what it holds fits every secret, with draws that are possible,
    exactly if it has read fewer than `t` parties in each epoch: the shares of different epochs do
    not add up, however many there are. -/
theorem refresh_hides_secret_iff (ht : 1 ≤ t) (hn : n < 2 ^ 16) (hq : 2 * t < C.q)
    {A : ℕ → Finset ℕ} (hA : ∀ e, ∀ i ∈ A e, i < n) (h2 : ∀ e, (A e).card + 2 ≤ n)
    (h : History C H n t sid) (hcoins : h.coins.Nonzero) :
    HidesSecret A h ↔ ∀ e, (A e).card < t := by
  have hindex : ∀ e, ∀ i ∈ A e, i + 1 < 2 ^ 16 := fun e i hi => by
    have := hA e i hi
    omega
  constructor
  · intro hhides e
    by_contra hcard
    exact not_hidesSecret ht hn hA h (not_lt.mp hcard) hhides
  -- the masks move the secret and no share that is read
  · intro hcard sk
    have hmask : ∀ e, ∃ f ∈ vanishing (nodes C (A e)) t, f.eval 0 = sk - h.secret := by
      intro e
      obtain ⟨f, hf, hf0, hfA⟩ := exists_mask (S := A e) (v := node C)
        (fun i hi => node_ne_zero (hindex e i hi)) (sk - h.secret)
      refine ⟨f, ⟨lt_of_lt_of_le hf (by exact_mod_cast hcard e), fun x hx => ?_⟩, hf0⟩
      obtain ⟨i, hi, rfl⟩ := Finset.mem_image.mp hx
      exact hfA i hi
    choose D hD hD0 using hmask
    obtain ⟨m, r, hM, hnz⟩ := exists_masks h2 hq hcoins hD fun e => by rw [hD0 e, hD0 0]
    obtain ⟨h', hcoins'⟩ := exists_history (n := n) (t := t) H sid (h.coins.mask m r)
    refine ⟨h', by rwa [hcoins'], ?_, hM.sameView ht hA hcoins'⟩
    rw [hM.secret_eq hcoins', hD0 0]
    exact add_sub_cancel _ _

/-- Three parties with threshold two, of which another one is read in every epoch. -/
theorem refresh_hides_secret_iff_three :
    ∃ h : History smallCurve lastBytes 3 2 fun _ => [], HidesSecret (fun e => {e % 3}) h := by
  obtain ⟨h, hcoins⟩ := exists_history (n := 3) (t := 2) lastBytes (fun _ => [])
    (⟨fun _ => ⟨1, fun _ => 1⟩, fun _ _ _ => 1⟩ : LifeCoins smallCurve)
  have hnz : h.coins.Nonzero := by
    rw [hcoins]
    exact ⟨fun _ => one_ne_zero, fun _ _ => one_ne_zero, fun _ _ _ => one_ne_zero⟩
  refine ⟨h, (refresh_hides_secret_iff (by decide) (by decide) (by decide) (fun e i hi => ?_)
    (fun e => ?_) h hnz).mpr fun e => ?_⟩
  · rw [Finset.mem_singleton.mp hi]
    exact Nat.mod_lt e (by decide)
  · rw [Finset.card_singleton]
  · rw [Finset.card_singleton]
    decide

end Govis.Lindell
