import Govis.Lindell.Ecdsa
import Govis.PaillierZk
import Govis.Rounds.Script

namespace Govis.Lindell

open Arith Bytes Curve Rounds

/-!
# Lindell: two-party signing

`run_sign` of `lindell/sign.rs`.  Two of `n` parties sign: `P1` is the first signer, `P2` the
second, and everybody else acknowledges.  All three rounds are broadcasts.

* `p1Offer` — round 0 at `P1`: the nonce, its inverse under a fresh Paillier key, two proofs;
* `p2Answer` — round 1 at `P2`: its part of the signature, computed under that key;
* `p1Combine` — round 2 at `P1`: decrypt and add up;
* `acceptSignature` — the end at everybody else;
* `runSign` — the protocol of one party.
-/

variable {C : Curve}

def curveBits : ℕ := 256

/-- The data that `P1` broadcasts in round 0. -/
structure P1Data (C : Curve) where
  point : C.Point
  cKInv : ℤ
  pkN : ℕ
  pkG : ℕ
  rangeProof : RangeProof
  consistencyProof : ConsistencyProof C

inductive Round1Msg (C : Curve) where
  | p1Data (data : P1Data C)
  | ack

inductive Round2Msg where
  | p2Data (cS2 : ℤ) (mulProof : MulProof)
  | ack

/-- The variant `Signature` is the only one of round 2. -/
structure Round3Msg where
  rBytes : List UInt8
  sBytes : List UInt8
  recId : UInt8

/-- What the rounds carry. -/
abbrev SignMsg (C : Curve) : ℕ → Type
  | 0 => Round1Msg C
  | 1 => Round2Msg
  | _ => Round3Msg

/-- The errors of `sign.rs` that the checks raise. -/
inductive SignError where
  | protocolViolation (text : String)
  | invalidSignature
deriving DecidableEq, Repr

/-- What `P1` draws: its keypair, the nonce, and the randomness of its ciphertext and proofs. -/
structure P1Coins (C : Curve) where
  keypair : PaillierKeypair
  k : C.Scalar
  rho : ℕ
  rangeDraws : ProofDraws ℕ
  consistencyDraws : ProofDraws C.Scalar

/-- What `P2` draws. -/
structure P2Coins where
  rhoS2 : ℕ
  mulDraws : ProofDraws ℕ

/-- What `P1` keeps from round 0. -/
structure P1State (C : Curve) where
  sk : PaillierPrivateKey
  pk : PaillierPublicKey
  k : C.Scalar
  kInv : C.Scalar
  cKInv : ℤ

/-- Round 0 at `P1`. -/
def p1Offer (H : Hash) (coins : P1Coins C) : Option (P1State C × P1Data C) := do
  let pk := coins.keypair.pk
  let kInv ← if coins.k = 0 then none else some coins.k⁻¹
  let rPoint := coins.k • C.generator
  let m := scalarToBigint kInv
  let rho ← genBigintRange 1 pk.n coins.rho
  let cKInv ← encryptWithRho pk m rho
  let rangeProof ← proveRange H pk cKInv m rho curveBits (ascii "sign") coins.rangeDraws
  let consistencyProof ←
    proveConsistency H pk m rho cKInv rPoint (ascii "sign") coins.consistencyDraws
  return (⟨coins.keypair.sk, pk, coins.k, kInv, cKInv⟩,
    ⟨rPoint, cKInv, pk.n, pk.g, rangeProof, consistencyProof⟩)

/-- What `P2` computes once the proofs of `P1` are verified. -/
def p2Encrypt (H : Hash) (lambda msg share : C.Scalar) (p1Pk : PaillierPublicKey) (cKInv : ℤ)
    (rPoint : C.Point) (coins : P2Coins) : Option Round2Msg := do
  let r := pointXCoord rPoint
  let mulScalar := scalarToBigint (lambda * (msg + r * share))
  let nSq := p1Pk.n * p1Pk.n
  let cS2 ← modpow cKInv mulScalar nSq
  -- re-randomise with an encryption of zero
  let rhoS2 ← genBigintRange 1 p1Pk.n coins.rhoS2
  let encZero ← encryptWithRho p1Pk 0 rhoS2
  let cS2 := (cS2 * encZero).tmod nSq
  let mulProof ←
    proveMul H p1Pk cKInv cS2 mulScalar rhoS2 curveBits (ascii "sign") coins.mulDraws
  return .p2Data cS2 mulProof

/-- Round 1 at `P2`: check the offer of the party `p1` and answer it. -/
def p2Answer (H : Hash) (p1 : ℕ) (lambda msg share : C.Scalar) (coins : P2Coins)
    (msgs1 : List (ℕ × Round1Msg C)) : Res SignError Round2Msg := do
  let p1Msg ← okOr (.protocolViolation "P2: no P1Data in round 1") (messageFrom p1 msgs1)
  match p1Msg with
  | .ack => .error (.err (.protocolViolation "P2: P1 sent Ack instead of P1Data"))
  | .p1Data data =>
    let p1Pk : PaillierPublicKey := ⟨data.pkN, data.pkN ^ 2, data.pkG⟩
    let rangeOk ← orPanic (verifyRange H p1Pk data.cKInv curveBits (ascii "sign") data.rangeProof)
    if ¬ rangeOk then .error (.err (.protocolViolation "P2: P1's range proof failed"))
    else
      let consistencyOk ← orPanic
        (verifyConsistency H p1Pk data.cKInv data.point (ascii "sign") data.consistencyProof)
      if ¬ consistencyOk then
        .error (.err (.protocolViolation "P2: P1's consistency proof failed"))
      else orPanic (p2Encrypt H lambda msg share p1Pk data.cKInv data.point coins)

/-- Round 2 at `P1`: check the answer of the party `p2`, decrypt it and add the own part. -/
def p1Combine (H : Hash) (i : ℕ) (signers : ℕ × ℕ) (msg share : C.Scalar)
    (p1State : Option (P1State C)) (msgs2 : List (ℕ × Round2Msg)) : Res SignError Round3Msg := do
  let state ← okOr (.protocolViolation "P1: no state") p1State
  let p2Data ← okOr (.protocolViolation "P1: no P2Data in round 2") (messageFrom signers.2 msgs2)
  match p2Data with
  | .ack => .error (.err (.protocolViolation "P1: P2 sent Ack instead of P2Data"))
  | .p2Data cS2 mulProof =>
    let mulOk ← orPanic
      (verifyMul H state.pk state.cKInv cS2 curveBits (ascii "sign") mulProof)
    if ¬ mulOk then .error (.err (.protocolViolation "P1: P2's MulProof failed"))
    else
      let plain ← orPanic (decrypt state.sk state.pk cS2)
      -- `to_biguint` of a negative number is none
      let s2 ← orPanic (if plain < 0 then none else some plain.toNat)
      let lambda1 ← orPanic (lagrangeCoeff C i [signers.1, signers.2])
      let rPoint := state.k • C.generator
      let r := pointXCoord rPoint
      let partialS1 := lambda1 * state.kInv * (msg + r * share)
      let s1 := partialS1 + biguintToScalar C s2
      return ⟨toBeBytes r, toBeBytes s1, recoveryId rPoint⟩

/-- What a call returns: `(r, s, recovery_id)`. -/
abbrev SignOutput : Type := List UInt8 × List UInt8 × UInt8

/-- The last check at every party. -/
def checkSignature (publicKey : C.Point) (msgDigest : Vector UInt8 32) (sig : Round3Msg) :
    Res SignError SignOutput :=
  if verifySignature publicKey msgDigest sig.rBytes sig.sBytes then
    .ok (sig.rBytes, sig.sBytes, sig.recId)
  else .error (.err .invalidSignature)

/-- The end of the protocol at everybody but `P1`. -/
def acceptSignature (p1 : ℕ) (publicKey : C.Point) (msgDigest : Vector UInt8 32)
    (msgs3 : List (ℕ × Round3Msg)) : Res SignError SignOutput := do
  let sig ← okOr (.protocolViolation "no Signature in round 3") (messageFrom p1 msgs3)
  checkSignature publicKey msgDigest sig

/-- `run_sign` at party `i`. -/
def runSign (H : Hash) (i n : ℕ) (signers : ℕ × ℕ) (share : C.Scalar) (publicKey : C.Point)
    (msgDigest : Vector UInt8 32) (p1Coins : P1Coins C) (p2Coins : P2Coins) :
    Proc (SignMsg C) (Res SignError SignOutput) 0 :=
  let msg := digestScalar C msgDigest
  .attempt (orPanic (if 2 ≤ n ∧ i < n then some () else none)) fun _ =>
  .attempt (orPanic (lagrangeCoeff C i [signers.1, signers.2])) fun lambda =>
  -- round 0: the offer of `P1`
  .attempt (if i = signers.1 then orPanic ((p1Offer H p1Coins).map fun offer =>
      (some offer.1, Round1Msg.p1Data offer.2)) else .ok (none, .ack)) fun offer =>
  .send (fun _ => some offer.2) <|
  .recv fun (msgs1 : List (ℕ × Round1Msg C)) =>
  -- round 1: the answer of `P2`
  .attempt (if i = signers.2 then p2Answer H signers.1 lambda msg share p2Coins msgs1
    else .ok .ack) fun answer =>
  .send (fun _ => some answer) <|
  .recv fun (msgs2 : List (ℕ × Round2Msg)) =>
  -- round 2: the signature, which `P1` has sent before it checks it
  if i = signers.1 then
    .attempt (p1Combine H i signers msg share offer.1 msgs2) fun sig =>
    .send (fun _ => some sig) <|
    .attempt (checkSignature publicKey msgDigest sig) fun out =>
    .recv fun (_ : List (ℕ × Round3Msg)) =>
    .done (.ok out)
  else
    .send (fun _ => some ⟨[], [], 0⟩) <|
    .recv fun (msgs3 : List (ℕ × Round3Msg)) =>
    .done (acceptSignature signers.1 publicKey msgDigest msgs3)

end Govis.Lindell
