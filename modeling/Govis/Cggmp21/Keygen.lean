import Govis.PaillierZk
import Govis.Rounds.Script

namespace Govis.Cggmp21

open Bytes Curve Rounds

/-!
# CGGMP21: key generation

`run_keygen` of `cggmp21/keygen.rs`: three rounds of reliable broadcast.  Round 0 carries the
Paillier moduli with their Blum proofs, round 1 the commitments to the dealings, and round 2 the
coefficient points with one encrypted share for every other party.

* `recordKeys` — the checks after round 0;
* `dealShares` — what a party broadcasts in round 2;
* `openKeys`, `receiveShare` — the checks after round 2;
* `runKeygen` — the protocol of one party;
* `keygenSetup` — the network that runs it.
-/

variable {C : Curve}

structure Round1Msg where
  paillierN : List UInt8
  blumProof : BlumProof

structure Round2Msg where
  commitment : Vector UInt8 32

structure Round3Msg (C : Curve) where
  nonce : List UInt8
  polynomialCoeffPoints : List C.Point
  encryptedShares : List (ℤ × LogProof C)
  schnorrProof : SchnorrProof C

/-- What the rounds carry. -/
abbrev KeygenMsg (C : Curve) : ℕ → Type
  | 0 => Round1Msg
  | 1 => Round2Msg
  | _ => Round3Msg C

/-- The error of `keygen.rs` that the checks raise. -/
inductive KeygenError where
  | protocolViolation (text : String)
deriving DecidableEq, Repr

/-- Per-party output of CGGMP21 key generation. -/
structure Cggmp21KeygenOutput (C : Curve) where
  ecShare : C.Scalar
  publicKey : C.Point
  paillierSk : PaillierPrivateKey
  paillierPk : PaillierPublicKey
  peerPaillierPks : List (Option PaillierPublicKey)

/-- What a party draws: the primes and the keypair, its dealing, the nonce of its commitment, and
    the randomness of its ciphertexts and proofs. -/
structure KeygenCoins (C : Curve) where
  p : ℕ
  q : ℕ
  keypair : PaillierKeypair
  ecSecret : C.Scalar
  draw : ℕ → C.Scalar
  nonce : C.Scalar
  schnorrAlpha : C.Scalar
  rho : ℕ → ℕ
  logDraws : ℕ → ProofDraws C.Scalar

/-- The public key that a party rebuilds from a peer's modulus. -/
def peerKey (n : ℕ) : PaillierPublicKey := ⟨n, n * n, n + 1⟩

/-- The loop after round 0: check every modulus and record its key. -/
def recordKeys (H : Hash) (sid : List UInt8) (pks : List (Option PaillierPublicKey)) :
    List (ℕ × Round1Msg) → Res KeygenError (List (Option PaillierPublicKey))
  | [] => .ok pks
  | (sender, msg1) :: rest =>
    let n := ofBE msg1.paillierN
    if ¬ verifyBlum H n sid msg1.blumProof then
      .error (.err (.protocolViolation "Blum proof verification failed"))
    -- a round hands over senders below the length of the list only
    else recordKeys H sid (pks.set sender (some (peerKey n))) rest

/-- The hash broadcast in round 1. -/
def keygenCommit (H : Hash) (sid : List UInt8) (partyIndex : ℕ) (commitments : List C.Point)
    (nonce : List UInt8) : Vector UInt8 32 :=
  H (ascii "govis-cggmp21-keygen-commit" ++ (computeCommitment H sid partyIndex commitments).toList ++
    nonce)

/-- The ciphertext of a share for one peer, with the proof that it matches the commitments. -/
def encryptShare (H : Hash) (sid : List UInt8) (commitments : List C.Point) (share : C.Scalar)
    (pk : PaillierPublicKey) (peer rho : ℕ) (draws : ProofDraws C.Scalar) :
    Option (ℤ × LogProof C) := do
  let rho ← genBigintRange 1 pk.n rho
  let shareBi := scalarToBigint share
  let sharePoint := pointAt commitments (node C peer)
  let c ← encryptWithRho pk shareBi rho
  let logProof ← proveLog H pk c shareBi rho sharePoint sid draws
  return (c, logProof)

/-- The broadcast of round 2 at party `i`.  A peer without a recorded key gets no share. -/
def dealShares (H : Hash) (i n : ℕ) (sid : List UInt8) (coins : KeygenCoins C)
    (commitments : List C.Point) (secretShares : List C.Scalar)
    (pks : List (Option PaillierPublicKey)) : Option (Round3Msg C) := do
  let first ← commitments.head?
  let schnorrProof := proveSchnorr H coins.ecSecret first sid coins.schnorrAlpha
  let pushed ← (others n i).mapM fun peer => do
    match ← pks[peer]? with
    | none => return none
    | some pk =>
      let share ← secretShares[peer]?
      let enc ← encryptShare H sid commitments share pk peer (coins.rho peer) (coins.logDraws peer)
      return some enc
  return { nonce := toBeBytes coins.nonce,
           polynomialCoeffPoints := commitments,
           encryptedShares := pushed.filterMap id,
           schnorrProof }

/-- The share for party `i` in the message of `sender`, whose list skips the sender itself. -/
def receiveShare (H : Hash) (sid : List UInt8) (i : ℕ) (kp : PaillierKeypair) (sender : ℕ)
    (msg3 : Round3Msg C) : Res KeygenError C.Scalar := do
  let encIdx := if sender < i then i - 1 else i
  let enc ← orPanic msg3.encryptedShares[encIdx]?
  let sharePoint := pointAt msg3.polynomialCoeffPoints (node C i)
  let logOk ← orPanic (verifyLog H kp.pk enc.1 sharePoint sid enc.2)
  if ¬ logOk then .error (.err (.protocolViolation "Log proof verification failed"))
  else
    let shareBi ← orPanic (decrypt kp.sk kp.pk enc.1)
    return fromBeBytesModOrder C (magnitude shareBi)

/-- The loop after round 2 at party `i`: check every opening and every first coefficient, and
    add up the shares and the first coefficients. -/
def openKeys (H : Hash) (sid : List UInt8) (i : ℕ) (kp : PaillierKeypair)
    (round2Msgs : List (ℕ × Round2Msg)) (combinedShare : C.Scalar) (publicKey : C.Point) :
    List (ℕ × Round3Msg C) → Res KeygenError (C.Scalar × C.Point)
  | [] => .ok (combinedShare, publicKey)
  | (sender, msg3) :: rest => do
    let round2Commit ← orPanic (messageFrom sender round2Msgs)
    if keygenCommit H sid sender msg3.polynomialCoeffPoints msg3.nonce ≠ round2Commit.commitment then
      .error (.err (.protocolViolation "VSS commitment mismatch"))
    else
      let pkPoint ← orPanic msg3.polynomialCoeffPoints.head?
      if ¬ verifySchnorr H pkPoint sid msg3.schnorrProof then
        .error (.err (.protocolViolation "Schnorr proof verification failed"))
      else
        let share ← (if sender ≠ i then receiveShare H sid i kp sender msg3 else .ok 0)
        openKeys H sid i kp round2Msgs (combinedShare + share) (publicKey + pkPoint) rest

/-- `run_keygen` at party `i`. -/
def runKeygen (H : Hash) (i n t : ℕ) (sid : List UInt8) (coins : KeygenCoins C) :
    Proc (KeygenMsg C) (Res KeygenError (Cggmp21KeygenOutput C)) 0 :=
  let kp := coins.keypair
  -- round 0: the modulus
  .attempt (orPanic (proveBlum H coins.p coins.q kp.pk.n sid)) fun blumProof =>
  .send (fun _ => some ⟨minBE kp.pk.n, blumProof⟩) <|
  .recv fun (round1Msgs : List (ℕ × Round1Msg)) =>
  .attempt (recordKeys H sid ((List.replicate n none).set i (some kp.pk)) round1Msgs)
    fun peerPaillierPks =>
  let commitments := (evaluatePolynomial coins.ecSecret coins.draw t n).1
  let secretShares := (evaluatePolynomial coins.ecSecret coins.draw t n).2
  -- round 1: the commitment
  .send (fun _ => some ⟨keygenCommit H sid i commitments (toBeBytes coins.nonce)⟩) <|
  .recv fun (round2Msgs : List (ℕ × Round2Msg)) =>
  -- round 2: the points and the encrypted shares
  .attempt (orPanic (dealShares H i n sid coins commitments secretShares peerPaillierPks)) fun msg3 =>
  .send (fun _ => some msg3) <|
  .recv fun (round3Msgs : List (ℕ × Round3Msg C)) =>
  .attempt (do
    let own ← orPanic secretShares[i]?
    openKeys H sid i kp round2Msgs own (coins.ecSecret • C.generator) round3Msgs) fun opened =>
  .done (.ok ⟨opened.1, opened.2, kp.sk, kp.pk, peerPaillierPks⟩)

/-- `n` parties run `run_keygen`.  All rounds are reliable broadcasts. -/
def keygenSetup (H : Hash) (n t : ℕ) (sid : List UInt8) (coins : ℕ → KeygenCoins C)
    (corrupt : ℕ → Prop) : Setup (KeygenMsg C) (Res KeygenError (Cggmp21KeygenOutput C)) where
  n := n
  prog i := runKeygen H i n t sid (coins i)
  corrupt := corrupt
  reliable _ := True

end Govis.Cggmp21
