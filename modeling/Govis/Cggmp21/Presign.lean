import Govis.PaillierZk
import Govis.Rounds.Script

namespace Govis.Cggmp21

open Bytes Curve Rounds

/-!
# CGGMP21: presigning

`run_presign` of `cggmp21/presign.rs`.  The parties of the network are the positions in the list
of signers.  Rounds 0 to 2 are reliable broadcasts of fresh Paillier keys, of commitments to the
nonce points and of the points; round 3 sends everybody the nonce, encrypted.

* `peerKeys`, `openPoints` — the loops after rounds 0 and 2;
* `encryptNonces`, `addNonces` — round 3;
* `runPresign` — the protocol of one party;
* `presignSetup` — the network that runs it.
-/

variable {C : Curve}

structure PaillierPKMsg where
  n : ℕ
  g : ℕ

structure CommitMsg where
  commitment : Vector UInt8 32

structure RevealMsg (C : Curve) where
  rPoint : C.Point

structure EncryptedKMsg where
  cKShare : Option ℤ
  rangeProof : Option RangeProof

/-- What the rounds carry. -/
abbrev PresignMsg (C : Curve) : ℕ → Type
  | 0 => PaillierPKMsg
  | 1 => CommitMsg
  | 2 => RevealMsg C
  | _ => EncryptedKMsg

/-- The error of `presign.rs` that the checks raise. -/
inductive PresignError where
  | protocolViolation (text : String)
deriving DecidableEq, Repr

/-- Result of the offline phase: the nonce, its inverse, and the point of the nonce. -/
structure Presignature (C : Curve) where
  k : C.Scalar
  kInv : C.Scalar
  r : C.Scalar
  rPoint : C.Point

/-- What a signer draws. -/
structure PresignCoins (C : Curve) where
  keypair : PaillierKeypair
  k : C.Scalar
  rho : ℕ → ℕ
  rangeDraws : ℕ → ProofDraws ℕ

/-- The position of a party in the list of signers. -/
def position (signers : List ℕ) (i : ℕ) : Option ℕ :=
  if i ∈ signers then some (signers.idxOf i) else none

/-- The keys that the messages of round 0 give the other positions. -/
def peerKeys (localI m : ℕ) (round0Msgs : List (ℕ × PaillierPKMsg)) :
    List (Option PaillierPublicKey) :=
  round0Msgs.foldl (fun pks e =>
    if e.1 ≠ localI then pks.set e.1 (some ⟨e.2.n, e.2.n ^ 2, e.2.g⟩) else pks)
    (List.replicate m none)

/-- The commitment of a position to its point. -/
def presignCommit (H : Hash) (localI : ℕ) (rPoint : C.Point) : Vector UInt8 32 :=
  H (ascii "govis-cggmp21-presign-commit" ++ toBE 2 localI ++ toBytes true rPoint)

/-- The loop after round 2: check every point against its commitment and add it up. -/
def openPoints (H : Hash) (round1Msgs : List (ℕ × CommitMsg)) (rPointTotal : C.Point) :
    List (ℕ × RevealMsg C) → Res PresignError C.Point
  | [] => .ok rPointTotal
  | (sender, reveal) :: rest => do
    let commitMsg ← orPanic (messageFrom sender round1Msgs)
    if presignCommit H sender reveal.rPoint ≠ commitMsg.commitment then
      .error (.err (.protocolViolation "commitment mismatch in presign round 2"))
    else openPoints H round1Msgs (rPointTotal + reveal.rPoint) rest

/-- The nonce encrypted for one peer, with its range proof. -/
def encryptNonce (H : Hash) (k : C.Scalar) (pk : PaillierPublicKey) (rho : ℕ)
    (draws : ProofDraws ℕ) : Option EncryptedKMsg := do
  let rho ← genBigintRange 1 pk.n rho
  let kBi := scalarToBigint k
  let cKEnc ← encryptWithRho pk kBi rho
  let rangeProof ← proveRange H pk cKEnc kBi rho 256 (ascii "govis-cggmp21-presign") draws
  return ⟨some cKEnc, some rangeProof⟩

/-- The messages of round 3, one for every other position whose key is known. -/
def encryptNonces (H : Hash) (localI m : ℕ) (coins : PresignCoins C)
    (pks : List (Option PaillierPublicKey)) : Option (List (ℕ × EncryptedKMsg)) := do
  let pushed ← (others m localI).mapM fun peer => do
    match ← pks[peer]? with
    | none => return none
    | some pk =>
      let msg ← encryptNonce H coins.k pk (coins.rho peer) (coins.rangeDraws peer)
      return some (peer, msg)
  return pushed.filterMap id

/-- The loop after round 3: decrypt and add up modulo the order.  The range proofs are not
    looked at. -/
def addNonces (order : ℕ) (localI : ℕ) (kp : PaillierKeypair) (kTotal : ℤ) :
    List (ℕ × EncryptedKMsg) → Option ℤ
  | [] => some kTotal
  | (sender, msg3) :: rest =>
    if sender = localI then addNonces order localI kp kTotal rest
    else match msg3.cKShare with
      | none => addNonces order localI kp kTotal rest
      | some c => do
        let plaintext ← decrypt kp.sk kp.pk c
        addNonces order localI kp ((kTotal + plaintext).fmod order) rest

/-- The presignature of a nonce, which panics if the nonce is zero. -/
def presignatureOf (kTotal : ℤ) (rPointTotal : C.Point) : Option (Presignature C) :=
  let k := fromBeBytesModOrder C (magnitude kTotal)
  if k = 0 then none
  else some { k, kInv := k⁻¹, r := pointXCoord rPointTotal, rPoint := rPointTotal }

/-- `run_presign` at party `i`. -/
def runPresign (H : Hash) (i : ℕ) (signers : List ℕ) (coins : PresignCoins C) :
    Proc (PresignMsg C) (Res PresignError (Presignature C)) 0 :=
  .attempt (okOr (.protocolViolation "party not in signer set") (position signers i)) fun localI =>
  let m := signers.length
  let kp := coins.keypair
  -- round 0: the Paillier key
  .send (fun _ => some ⟨kp.pk.n, kp.pk.g⟩) <|
  .recv fun (round0Msgs : List (ℕ × PaillierPKMsg)) =>
  let peerPaillierPks := peerKeys localI m round0Msgs
  let rPointShare := coins.k • C.generator
  -- round 1: the commitment
  .send (fun _ => some ⟨presignCommit H localI rPointShare⟩) <|
  .recv fun (round1Msgs : List (ℕ × CommitMsg)) =>
  -- round 2: the point
  .send (fun _ => some ⟨rPointShare⟩) <|
  .recv fun (round2Msgs : List (ℕ × RevealMsg C)) =>
  -- round 3: the encrypted nonces
  .attempt (openPoints H round1Msgs rPointShare round2Msgs) fun rPointTotal =>
  .attempt (orPanic (encryptNonces H localI m coins peerPaillierPks)) fun sendMany =>
  .send (fun j => messageFrom j sendMany) <|
  .recv fun (round3Msgs : List (ℕ × EncryptedKMsg)) =>
  .attempt (orPanic (do
    let kTotal ← addNonces C.q localI kp (scalarToBigint coins.k) round3Msgs
    presignatureOf kTotal rPointTotal)) fun presig =>
  .done (.ok presig)

/-- The signers run `run_presign`, routed by their positions. -/
def presignSetup (H : Hash) (signers : List ℕ) (coins : ℕ → PresignCoins C) :
    Setup (PresignMsg C) (Res PresignError (Presignature C)) where
  n := signers.length
  prog pos := runPresign H (signers.getD pos 0) signers (coins pos)
  corrupt _ := False
  reliable r := r < 3

end Govis.Cggmp21
