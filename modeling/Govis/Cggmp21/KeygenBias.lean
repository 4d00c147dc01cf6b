import Govis.Cggmp21.KeygenBlame
import Govis.Lindell.Bias

namespace Govis.Cggmp21

open Bytes Curve Rounds Shamir
open Lindell (sum_sub_of_agree)

/-!
# CGGMP21: the corrupt dealers cannot bias the key

The corrupt dealers of `run_keygen` see the vectors of the honest ones before they reveal their own.
They have sent a hash of theirs, with a nonce, in the round before.

* `revealedPoints_eq` — two runs in which a corrupt dealer has sent the same hash show the same vector
  of it;
* `runKeygen_unbiased` — the published polynomials and the keys of two such runs differ by what the
  honest dealers have drawn.
-/

variable {C : Curve} {H : Hash} {n t : ℕ} {sid : List UInt8} {coins coins' : ℕ → KeygenCoins C}
  {corrupt : ℕ → Prop} {s s' : Net (KeygenMsg C) (Res KeygenError (Cggmp21KeygenOutput C))}

/-- What is hashed for the commitment of round 1. -/
def openingInput (H : Hash) (sid : List UInt8) (d : ℕ) (m : Round3Msg C) : List UInt8 :=
  ascii "govis-cggmp21-keygen-commit" ++ (computeCommitment H sid d m.polynomialCoeffPoints).toList ++
    m.nonce

/-- One input, one commitment to the points. -/
theorem computeCommitment_of_openingInput {d : ℕ} {m m' : Round3Msg C}
    (h : openingInput H sid d m = openingInput H sid d m') :
    computeCommitment H sid d m.polynomialCoeffPoints =
      computeCommitment H sid d m'.polynomialCoeffPoints := by
  rw [openingInput, openingInput, List.append_assoc, List.append_assoc] at h
  have htail := List.append_cancel_left h
  have hlist := (List.append_inj htail (by rw [Vector.length_toList, Vector.length_toList])).1
  exact Vector.toList_inj.mp hlist

/-- The hash inputs of what the corrupt dealers reveal: those of the commitments lie in `A`, and those
    of the points inside them in `B`. -/
structure OpeningsIn (H : Hash) (sid : List UInt8) (n : ℕ) (corrupt : ℕ → Prop) (A B : Set (List UInt8))
    (s : Net (KeygenMsg C) (Res KeygenError (Cggmp21KeygenOutput C))) : Prop where
  openings : ∀ d < n, corrupt d → ∀ j, ∀ m : Round3Msg C, (s d).sent 2 j = some m →
    openingInput H sid d m ∈ A
  points : ∀ d < n, corrupt d → ∀ j, ∀ m : Round3Msg C, (s d).sent 2 j = some m →
    commitmentInput sid d m.polynomialCoeffPoints ∈ B

/-- The corrupt dealers have sent the same commitments in the two states, as far as they have arrived
    at the honest parties. -/
def SameOpenings (n : ℕ) (corrupt : ℕ → Prop)
    (s s' : Net (KeygenMsg C) (Res KeygenError (Cggmp21KeygenOutput C))) : Prop :=
  ∀ d < n, corrupt d → ∀ i < n, ¬ corrupt i → ∀ j < n, ¬ corrupt j → ∀ m m' : Round2Msg,
    (s i).got 1 d = some m → (s' j).got 1 d = some m' → m = m'

/-- **One commitment, one vector.** -/
theorem revealedPoints_eq (hs : Reachable (keygenSetup H n t sid coins corrupt) s)
    (hs' : Reachable (keygenSetup H n t sid coins' corrupt) s') {A B : Set (List UInt8)}
    (hA : Set.InjOn H A) (hB : Set.InjOn H B) (hsent : OpeningsIn H sid n corrupt A B s)
    (hsent' : OpeningsIn H sid n corrupt A B s') (hsame : SameOpenings n corrupt s s') {i j : ℕ}
    (hi : i < n) (hh : ¬ corrupt i) (hj : j < n) (hhj : ¬ corrupt j) {out out' : Cggmp21KeygenOutput C}
    (hout : s.Returned i (.ok out)) (hout' : s'.Returned j (.ok out')) {d : ℕ} (hd : d < n)
    (hc : corrupt d) : revealedPoints corrupt coins' t s' d = revealedPoints corrupt coins t s d := by
  have hdi : d ≠ i := fun h => hh (h ▸ hc)
  have hdj : d ≠ j := fun h => hhj (h ▸ hc)
  obtain ⟨-, commit, m, -, h1, h2, -, -, hnone⟩ := runKeygen_checked hs hi hh hout hd hdi
  obtain ⟨-, commit', m', -, h1', h2', -, -, hnone'⟩ := runKeygen_checked hs' hj hhj hout' hd hdj
  have hwire := (hs.sound.wire i 2 d m h2).2
  have hwire' := (hs'.sound.wire j 2 d m' h2').2
  -- both messages open the same commitment
  have hopen : H (openingInput H sid d m) = commit.commitment := by
    by_contra hne
    exact hnone _ (.mismatch hne)
  have hopen' : H (openingInput H sid d m') = commit'.commitment := by
    by_contra hne
    exact hnone' _ (.mismatch hne)
  have hcommit : commit.commitment = commit'.commitment :=
    congrArg _ (hsame d hd hc i hi hh j hj hhj _ _ h1 h1')
  have hinput : openingInput H sid d m = openingInput H sid d m' :=
    hA (hsent.openings d hd hc i m hwire) (hsent'.openings d hd hc j m' hwire')
      (hopen.trans (hcommit.trans hopen'.symm))
  -- and so they hash the same points
  have hpoints : m.polynomialCoeffPoints = m'.polynomialCoeffPoints :=
    commitmentInput_injective sid d (hB (hsent.points d hd hc i m hwire)
      (hsent'.points d hd hc j m' hwire') (computeCommitment_of_openingInput hinput))
  rw [← got_points hs.sound h2, ← got_points hs'.sound h2', hpoints]

open Classical in
/-- **No bias.**  Two runs of the key generation in which the honest dealers draw different coins, and
    in which the corrupt ones send the same commitments and whatever else they like.  The hash has no
    collisions among what the corrupt dealers reveal.  Then the published polynomials, in the
    exponent, differ by those of the honest dealers, and the public keys of honest parties that
    succeed by their secrets. -/
theorem runKeygen_unbiased (hs : Reachable (keygenSetup H n t sid coins corrupt) s)
    (hs' : Reachable (keygenSetup H n t sid coins' corrupt) s') {A B : Set (List UInt8)}
    (hA : Set.InjOn H A) (hB : Set.InjOn H B) (hsent : OpeningsIn H sid n corrupt A B s)
    (hsent' : OpeningsIn H sid n corrupt A B s') (hsame : SameOpenings n corrupt s s') {i j : ℕ}
    (hi : i < n) (hh : ¬ corrupt i) (hj : j < n) (hhj : ¬ corrupt j) {out out' : Cggmp21KeygenOutput C}
    (hout : s.Returned i (.ok out)) (hout' : s'.Returned j (.ok out')) :
    (∀ x, jointAt n (revealedPoints corrupt coins' t s') x - jointAt n (revealedPoints corrupt coins t s) x =
      ∑ d ∈ (Finset.range n).filter (¬ corrupt ·),
        (pointAt (keygenVector coins' t d) x - pointAt (keygenVector coins t d) x)) ∧
    out'.publicKey - out.publicKey =
      (∑ d ∈ (Finset.range n).filter (¬ corrupt ·), ((coins' d).ecSecret - (coins d).ecSecret)) •
        C.generator := by
  have hvec : ∀ d < n, corrupt d → revealedPoints corrupt coins' t s' d = revealedPoints corrupt coins t s d :=
    fun d hd hc => revealedPoints_eq hs hs' hA hB hsent hsent' hsame hi hh hj hhj hout hout' hd hc
  have hown : ∀ {coins : ℕ → KeygenCoins C}
      {s : Net (KeygenMsg C) (Res KeygenError (Cggmp21KeygenOutput C))} {d : ℕ}, ¬ corrupt d →
      revealedPoints corrupt coins t s d = keygenVector coins t d := fun hc => if_neg hc
  have hjoint : ∀ x, jointAt n (revealedPoints corrupt coins' t s') x -
      jointAt n (revealedPoints corrupt coins t s) x = ∑ d ∈ (Finset.range n).filter (¬ corrupt ·),
        (pointAt (keygenVector coins' t d) x - pointAt (keygenVector coins t d) x) := by
    intro x
    rw [jointAt, jointAt, sum_sub_of_agree fun d hd hc => congrArg (evalAt x) (hvec d hd hc)]
    refine Finset.sum_congr rfl fun d hd => ?_
    have hc := (Finset.mem_filter.mp hd).2
    rw [hown hc, hown hc, pointAt_eq, pointAt_eq]
  refine ⟨hjoint, ?_⟩
  -- the public key is the value at zero
  rw [runKeygen_publicKey hs hi hh hout, runKeygen_publicKey hs' hj hhj hout', eval_jointPoly_smul,
    eval_jointPoly_smul, hjoint, Finset.sum_smul]
  refine Finset.sum_congr rfl fun d _ => ?_
  rw [pointAt_eq, pointAt_eq, evalAt_zero, evalAt_zero, sub_smul]
  rfl

/-! ### Two runs -/

/-- The small session, in which parties 0 and 2 draw the secret `a`. -/
def pickedKeygen (a : smallCurve.Scalar) : KeygenSession smallCurve oneHash where
  n := 3
  t := 2
  n_lt := smallKeygen.n_lt
  one_le := smallKeygen.one_le
  sid := []
  coins i := { smallKeygen.coins i with ecSecret := if i = 1 then 1 else a }
  generated := smallKeygen.generated
  lt_modulus := smallKeygen.lt_modulus
  rho_coprime := smallKeygen.rho_coprime
  blum_answers := smallKeygen.blum_answers

/-- What party 1 hashes for its commitment. -/
def pickedOpening : List UInt8 :=
  ascii "govis-cggmp21-keygen-commit" ++ (computeCommitment oneHash [] 1 (smallKeygen.vec 1)).toList ++
    toBeBytes (smallKeygen.coins 1).nonce

/-- It does not depend on `a`, nor does what party 1 reveals. -/
theorem exists_picked_run (a : smallCurve.Scalar) :
    ∃ s, Reachable (keygenSetup oneHash 3 2 [] (pickedKeygen a).coins (· = 1)) s ∧
      (∃ out, s.Returned 0 (.ok out)) ∧
      (∀ j, ∀ m : Round3Msg smallCurve, (s 1).sent 2 j = some m →
        m.polynomialCoeffPoints = smallKeygen.vec 1 ∧ m.nonce = toBeBytes (smallKeygen.coins 1).nonce) ∧
      ∀ i, ∀ m : Round2Msg, (s i).got 1 1 = some m → m.commitment =
        keygenCommit oneHash [] 1 (smallKeygen.vec 1) (toBeBytes (smallKeygen.coins 1).nonce) := by
  obtain ⟨s, hs, hret, hscript⟩ := KeygenSession.exists_run_corrupt (x := pickedKeygen a) (c := 1)
    (show 1 < 3 by decide)
  have h0 : 0 < 3 := by decide
  obtain ⟨hcommit, m0, hm0, hpoints, hnonce⟩ := hscript 0 h0 (by decide)
  refine ⟨s, hs, ⟨_, hret 0 h0 (by decide)⟩, fun j m hm => ?_, fun i m hm => ?_⟩
  -- by reliable broadcast it is what party 0 has received
  · rw [hs.sound.reliable 1 rfl 2 trivial j 0 m m0 hm hm0]
    exact ⟨hpoints, hnonce⟩
  · rw [hs.sound.reliable 1 rfl 1 trivial i 0 m _ (hs.sound.wire i 1 1 m hm).2 hcommit]
    rfl

/-- The honest dealers draw zero in one run and one in the other. -/
theorem runKeygen_unbiased_smallKeygen :
    ∃ s s' out out',
      Reachable (keygenSetup oneHash 3 2 [] (pickedKeygen 0).coins (· = 1)) s ∧
      Reachable (keygenSetup oneHash 3 2 [] (pickedKeygen 1).coins (· = 1)) s' ∧
      s.Returned 0 (.ok out) ∧ s'.Returned 0 (.ok out') ∧
      out'.publicKey - out.publicKey = (2 : smallCurve.Scalar) • smallCurve.generator := by
  obtain ⟨s, hs, ⟨out, hout⟩, hsent, hcommit⟩ := exists_picked_run 0
  obtain ⟨s', hs', ⟨out', hout'⟩, hsent', hcommit'⟩ := exists_picked_run 1
  refine ⟨s, s', out, out', hs, hs', hout, hout', ?_⟩
  -- party 1 reveals one vector with one nonce
  have hin : ∀ {s : Net (KeygenMsg smallCurve) (Res KeygenError (Cggmp21KeygenOutput smallCurve))},
      (∀ j, ∀ m : Round3Msg smallCurve, (s 1).sent 2 j = some m →
        m.polynomialCoeffPoints = smallKeygen.vec 1 ∧ m.nonce = toBeBytes (smallKeygen.coins 1).nonce) →
      OpeningsIn oneHash [] 3 (· = 1) {pickedOpening} {commitmentInput [] 1 (smallKeygen.vec 1)} s := by
    intro s hs
    refine ⟨fun d hd hc j m hm => ?_, fun d hd hc j m hm => ?_⟩
    · obtain rfl : d = 1 := hc
      obtain ⟨hpoints, hnonce⟩ := hs j m hm
      rw [Set.mem_singleton_iff, openingInput, hpoints, hnonce, pickedOpening]
    · obtain rfl : d = 1 := hc
      rw [Set.mem_singleton_iff, (hs j m hm).1]
  have hsame : SameOpenings 3 (· = 1) s s' := by
    intro d hd hc i hi hi1 j hj hj1 m m' hm hm'
    obtain rfl : d = 1 := hc
    obtain ⟨c⟩ := m
    obtain ⟨c'⟩ := m'
    exact congrArg Round2Msg.mk ((hcommit i _ hm).trans (hcommit' j _ hm').symm)
  have h := (runKeygen_unbiased hs hs' (Set.injOn_singleton _ _) (Set.injOn_singleton _ _) (hin hsent)
    (hin hsent') hsame (by decide) (by decide) (by decide) (by decide) hout hout').2
  rw [h, Finset.sum_filter, Finset.sum_range_succ, Finset.sum_range_succ, Finset.sum_range_one]
  norm_num [pickedKeygen]

end Govis.Cggmp21
