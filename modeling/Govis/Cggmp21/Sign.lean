import Govis.Cggmp21.Presign
import Govis.Lindell.Ecdsa

namespace Govis.Cggmp21

open Bytes Curve Rounds Lindell

/-!
# CGGMP21: online signing

`run_online_sign` of `cggmp21/sign.rs`: one round, in which every signer sends its part of `s` to
the others.  As in presigning, the parties of the network are positions in the list of signers.
-/

variable {C : Curve}

structure SignatureShareMsg where
  sI : List UInt8

/-- What the round carries. -/
abbrev OnlineSignMsg (_ : ℕ) : Type := SignatureShareMsg

/-- A complete ECDSA signature with recovery id. -/
structure Signature where
  rBytes : List UInt8
  sBytes : List UInt8
  recId : UInt8
deriving DecidableEq, Repr

/-- The errors of `cggmp21/sign.rs` that the checks raise. -/
inductive OnlineSignError where
  | protocolViolation (text : String)
  | invalidSignature
deriving DecidableEq, Repr

/-- `recovery_id`: the parity of the second coordinate, which panics at the identity. -/
def recoveryId (rPoint : C.Point) : Option UInt8 :=
  match C.coords rPoint with
  | none => none
  | some (_, y) => some (if y % 2 = 1 then 1 else 0)

/-- The loop after the round. -/
def addSignatureShares (localI : ℕ) (sTotal : C.Scalar) (msgs : List (ℕ × SignatureShareMsg)) :
    C.Scalar :=
  msgs.foldl (fun acc e =>
    if e.1 = localI then acc else acc + fromBeBytesModOrder C e.2.sI) sTotal

/-- The end of `run_online_sign`: encode, verify and return. -/
def finishSignature (publicKey : C.Point) (msgDigest : Vector UInt8 32) (presig : Presignature C)
    (sTotal : C.Scalar) : Res OnlineSignError Signature :=
  let rBytes := toBeBytes presig.r
  let sBytes := toBeBytes sTotal
  if ¬ verifySignature publicKey msgDigest rBytes sBytes then .error (.err .invalidSignature)
  else do
    -- verified first, then the recovery id
    let recId ← orPanic (recoveryId presig.rPoint)
    return { rBytes, sBytes, recId }

/-- `run_online_sign` at party `i`. -/
def runOnlineSign (i : ℕ) (signers : List ℕ) (ecShare : C.Scalar) (publicKey : C.Point)
    (msgDigest : Vector UInt8 32) (presig : Presignature C) :
    Proc OnlineSignMsg (Res OnlineSignError Signature) 0 :=
  .attempt (okOr (.protocolViolation "party not in signer set") (position signers i)) fun localI =>
  .attempt (orPanic (lagrangeCoeff C i signers)) fun lambda =>
  let msg := digestScalar C msgDigest
  let sI := presig.kInv * lambda * (msg + presig.r * ecShare)
  .send (fun j => if j = localI ∨ signers.length ≤ j then none else some ⟨toBeBytes sI⟩) <|
  .recv fun (round1Msgs : List (ℕ × SignatureShareMsg)) =>
  .done (finishSignature publicKey msgDigest presig (addSignatureShares localI sI round1Msgs))

/-- The signers run `run_online_sign`, each with its share and its presignature. -/
def onlineSignSetup (signers : List ℕ) (ecShare : ℕ → C.Scalar) (publicKey : ℕ → C.Point)
    (msgDigest : Vector UInt8 32) (presig : ℕ → Presignature C) :
    Setup OnlineSignMsg (Res OnlineSignError Signature) where
  n := signers.length
  prog pos := runOnlineSign (signers.getD pos 0) signers (ecShare pos) (publicKey pos) msgDigest
    (presig pos)
  corrupt _ := False
  reliable _ := False

end Govis.Cggmp21
