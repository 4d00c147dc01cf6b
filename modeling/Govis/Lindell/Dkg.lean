import Govis.Core
import Govis.Rounds.Script

namespace Govis.Lindell

open Curve Shamir Rounds

/-!
# Lindell: distributed key generation and refresh

`lindell/dkg.rs` and the messages of `lindell/types.rs`: commit-reveal Feldman VSS in three
rounds.  Round 0 carries the commitment hashes, round 1 the coefficient vectors (both by
reliable broadcast), round 2 the shares, from party to party.

* `runVss` — the protocol of one party, up to the round that ends it;
* `openReveals`, `addShares` — the checks after rounds 1 and 2;
* `runDkg`, `runRefresh` — its two uses;
* `dkgSetup`, `refreshSetup` — the networks that run them.
-/

variable {C : Curve}

structure CommitMsg where
  commitment : Vector UInt8 32

structure RevealMsg (C : Curve) where
  publicCoeffs : List C.Point

structure ShareMsg (C : Curve) where
  share : C.Scalar

/-- What the rounds carry. -/
abbrev Msg (C : Curve) : ℕ → Type
  | 0 => CommitMsg
  | 1 => RevealMsg C
  | _ => ShareMsg C

instance : ∀ r, Nonempty (Msg C r)
  | 0 => ⟨(⟨Vector.replicate 32 0⟩ : CommitMsg)⟩
  | 1 => ⟨(⟨[]⟩ : RevealMsg C)⟩
  | _ + 2 => ⟨(⟨0⟩ : ShareMsg C)⟩

/-- The errors of `dkg.rs` that the checks raise. -/
inductive DkgError where
  | commitmentMismatch (party : ℕ)
  | shareVerificationFailed (party : ℕ)
deriving DecidableEq, Repr

/-- Output of DKG and refresh. -/
structure LindellDkgOutput (C : Curve) where
  secretShare : C.Scalar
  publicKey : C.Point

/-- The loop after round 1: check every revealed vector against its commitment and add its
    constant coefficient to the public key. -/
def openReveals (H : Hash) (sid : List UInt8) (combinedPk : C.Point)
    (revealsBySender : List (ℕ × RevealMsg C)) :
    List ((ℕ × CommitMsg) × (ℕ × RevealMsg C)) → Res DkgError (C.Point × List (ℕ × RevealMsg C))
  | [] => .ok (combinedPk, revealsBySender)
  | ((sender, commit), (_, reveal)) :: rest =>
    if computeCommitment H sid sender reveal.publicCoeffs ≠ commit.commitment then
      .error (.err (.commitmentMismatch sender))
    else
      match reveal.publicCoeffs with
      | [] => .error .panic
      | c :: _ => openReveals H sid (combinedPk + c) (revealsBySender ++ [(sender, reveal)]) rest

/-- The loop after round 2 at party `i`: check every share against its dealer's vector and add
    it up. -/
def addShares (i : ℕ) (revealsBySender : List (ℕ × RevealMsg C)) (finalShare : C.Scalar) :
    List (ℕ × ShareMsg C) → Res DkgError C.Scalar
  | [] => .ok finalShare
  | (sender, msg) :: rest =>
    match revealsBySender.find? (fun e => decide (e.1 = sender)) with
    | none => .error (.err (.shareVerificationFailed sender))
    | some (_, reveal) =>
      if msg.share • C.generator ≠ pointAt reveal.publicCoeffs (node C i) then
        .error (.err (.shareVerificationFailed sender))
      else addShares i revealsBySender (finalShare + msg.share) rest

/-- `run_vss` at party `i`.  The draws are the random coefficients of its dealing. -/
def runVss (H : Hash) (i n t : ℕ) (sid : List UInt8) (intercept : C.Scalar) (draw : ℕ → C.Scalar) :
    Proc (Msg C) (Res DkgError (C.Scalar × C.Point)) 0 :=
  let commitments := (evaluatePolynomial intercept draw t n).1
  let secretShares := (evaluatePolynomial intercept draw t n).2
  -- round 0: the commitment
  .send (fun _ => some ⟨computeCommitment H sid i commitments⟩) <|
  .recv fun (commitmentsHashes : List (ℕ × CommitMsg)) =>
  -- round 1: the vector
  .send (fun _ => some ⟨commitments⟩) <|
  .recv fun (reveals : List (ℕ × RevealMsg C)) =>
  .attempt (do
    let combinedPk ← orPanic commitments.head?
    openReveals H sid combinedPk [] (commitmentsHashes.zip reveals)) fun opened =>
  -- round 2: one share for each other party
  .send (fun j => if j = i then none else secretShares[j]?.map fun share => ⟨share⟩) <|
  .recv fun (shares : List (ℕ × ShareMsg C)) =>
  .attempt (do
    let own ← orPanic secretShares[i]?
    addShares i opened.2 own shares) fun finalShare =>
  .done (.ok (finalShare, opened.1))

/-- `run_dkg`: the intercept is random. -/
def runDkg (H : Hash) (i n t : ℕ) (sid : List UInt8) (intercept : C.Scalar) (draw : ℕ → C.Scalar) :
    Proc (Msg C) (Res DkgError (LindellDkgOutput C)) 0 :=
  (runVss H i n t sid intercept draw).map fun res => res.map fun out =>
    { secretShare := out.1, publicKey := out.2 }

/-- `run_refresh`: the intercept is zero, and the shares add to the old ones. -/
def runRefresh (H : Hash) (i n t : ℕ) (sid : List UInt8) (oldShare : C.Scalar) (masterPk : C.Point)
    (draw : ℕ → C.Scalar) : Proc (Msg C) (Res DkgError (LindellDkgOutput C)) 0 :=
  (runVss H i n t sid 0 draw).map fun res => res.map fun out =>
    { secretShare := oldShare + out.1, publicKey := masterPk }

/-- The first two rounds are reliable broadcasts. -/
def reliableRounds (r : ℕ) : Prop := r < 2

/-- What a dealer draws. -/
structure DealerCoins (C : Curve) where
  intercept : C.Scalar
  draw : ℕ → C.Scalar

/-- `n` parties run `run_vss`. -/
def vssSetup (H : Hash) (n t : ℕ) (sid : List UInt8) (coins : ℕ → DealerCoins C)
    (corrupt : ℕ → Prop) : Setup (Msg C) (Res DkgError (C.Scalar × C.Point)) where
  n := n
  prog i := runVss H i n t sid (coins i).intercept (coins i).draw
  corrupt := corrupt
  reliable := reliableRounds

/-- `n` parties run `run_dkg`. -/
def dkgSetup (H : Hash) (n t : ℕ) (sid : List UInt8) (coins : ℕ → DealerCoins C)
    (corrupt : ℕ → Prop) : Setup (Msg C) (Res DkgError (LindellDkgOutput C)) where
  n := n
  prog i := runDkg H i n t sid (coins i).intercept (coins i).draw
  corrupt := corrupt
  reliable := reliableRounds

/-- `n` parties run `run_refresh`, each with its old share and its master public key. -/
def refreshSetup (H : Hash) (n t : ℕ) (sid : List UInt8) (old : ℕ → LindellDkgOutput C)
    (draw : ℕ → ℕ → C.Scalar) (corrupt : ℕ → Prop) :
    Setup (Msg C) (Res DkgError (LindellDkgOutput C)) where
  n := n
  prog i := runRefresh H i n t sid (old i).secretShare (old i).publicKey (draw i)
  corrupt := corrupt
  reliable := reliableRounds

end Govis.Lindell
