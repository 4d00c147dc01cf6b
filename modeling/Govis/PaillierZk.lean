import Govis.Core
import Govis.Paillier

namespace Govis

open Arith Bytes Curve

/-!
# Zero-knowledge proofs about Paillier ciphertexts

`paillier_zk.rs`: the provers and verifiers of the range, Blum, multiplication, consistency,
Schnorr and discrete-log proofs.  A challenge is a hash of the statement and the commitment.
What a prover draws is a parameter; a panic is `none`.

* `commitWith`, `respondWith`, `checkEquation` — what the proofs about ciphertexts share: the
  commitment `base * gamma ^ n`, the response `gamma * rho ^ e` and the equation
  `c_alpha * c ^ e = base * s ^ n`;
* one section for each proof.
-/

variable {C : Curve}

/-- `to_bytes_be().1`: the magnitude of a `BigInt`. -/
def magnitude (x : ℤ) : List UInt8 := minBE x.natAbs

theorem fromBeBytesModOrder_magnitude (k : ℕ) :
    fromBeBytesModOrder C (magnitude k) = (k : C.Scalar) := by
  rw [magnitude, Int.natAbs_natCast, fromBeBytesModOrder, ofBE_minBE]

/-- `BigInt::from_bytes_be` of a hash. -/
def challenge (H : Hash) (input : List UInt8) : ℤ := (ofBE (H input).toList : ℕ)

/-- `g_pow`. -/
def gPow (m n nSq : ℤ) : ℤ := (1 + m * n).tmod nSq

/-! ### Shared steps -/

def commitWith (pk : PaillierPublicKey) (base gamma : ℤ) : Option ℤ := do
  let gammaN ← modpow gamma pk.n pk.nSq
  return (base * gammaN).tmod pk.nSq

def respondWith (pk : PaillierPublicKey) (gamma rho e : ℤ) : Option ℤ := do
  let rhoE ← modpow rho e pk.n
  return (gamma * rhoE).tmod pk.n

def checkEquation (pk : PaillierPublicKey) (cAlpha c e base s : ℤ) : Option Bool := do
  let cE ← modpow c e pk.nSq
  let sN ← modpow s pk.n pk.nSq
  return (cAlpha * cE).tmod pk.nSq == (base * sN).tmod pk.nSq

/-! ### Range proof -/

structure RangeProof where
  cAlpha : ℤ
  z : ℤ
  s : ℤ

/-- The draws of a prover: of the mask and of the randomness that hides it. -/
structure ProofDraws (α : Type) where
  alpha : α
  gamma : ℕ

def rangeChallenge (H : Hash) (sid : List UInt8) (n g ell : ℕ) (c cAlpha : ℤ) : ℤ :=
  challenge H (ascii "govis-paillier-range" ++ sid ++ minBE n ++ minBE g ++ toBE 8 ell ++
    magnitude c ++ magnitude cAlpha)

/-- `prove_range`. -/
def proveRange (H : Hash) (pk : PaillierPublicKey) (c m rho : ℤ) (ell : ℕ) (sid : List UInt8)
    (draws : ProofDraws ℕ) : Option RangeProof := do
  let sec := 256
  let nBit := pk.n.size
  let alphaBits := ell + sec + nBit
  let alpha ← genBigintRange 0 (2 ^ alphaBits) draws.alpha
  let gamma ← genBigintRange 1 pk.n draws.gamma
  let cAlpha ← commitWith pk (gPow alpha pk.n pk.nSq) gamma
  let e := rangeChallenge H sid pk.n pk.g ell c cAlpha
  let z := alpha + e * m
  let s ← respondWith pk gamma rho e
  return { cAlpha, z, s }

/-- `verify_range`. -/
def verifyRange (H : Hash) (pk : PaillierPublicKey) (c : ℤ) (ell : ℕ) (sid : List UInt8)
    (proof : RangeProof) : Option Bool :=
  let sec := 256
  let nBit := pk.n.size
  let bound : ℤ := 2 ^ (ell + sec + nBit + 1)
  if proof.z ≥ bound ∨ proof.z < 0 then some false
  else
    let e := rangeChallenge H sid pk.n pk.g ell c proof.cAlpha
    checkEquation pk proof.cAlpha c e (gPow proof.z pk.n pk.nSq) proof.s

/-! ### Blum proof -/

structure BlumProof where
  challengeIndices : List ℕ
  bits : List Bool
  roots : List ℤ

def blumChallenge (H : Hash) (sid : List UInt8) (n iteration : ℕ) : ℤ :=
  challenge H (ascii "govis-blum" ++ sid ++ minBE n ++ toBE 8 iteration)

/-- `is_quadratic_residue_mod_prime`. -/
def isQuadraticResidueModPrime (a p : ℤ) : Option Bool := do
  let res ← modpow a ((p - 1) / 2) p
  return res == 1

/-- `sqrt_mod_prime`. -/
def sqrtModPrime (a p : ℤ) : Option ℤ := modpow a ((p + 1) / 4) p

/-- `modinv_internal`. -/
def modinvInternal (a m : ℤ) : ℤ :=
  let t := (euclidLoop m.toNat 0 1 m (a.fmod m)).1
  if t < 0 then t + m else t

/-- `crt`. -/
def crt (a p b q n : ℤ) : ℤ :=
  let diff := (b - a).fmod n
  let pInvQ := modinvInternal p q
  let t := (diff * pInvQ).fmod q
  (a + p * t).fmod n

/-- The square root modulo `n` that `prove_blum` takes of a residue. -/
def blumRoot (p q n a : ℤ) : Option ℤ := do
  let sqrtP ← sqrtModPrime a p
  let sqrtQ ← sqrtModPrime a q
  return crt sqrtP p sqrtQ q n

/-- One iteration of `prove_blum`: what it pushes, if anything. -/
def blumEntry (H : Hash) (p q n : ℕ) (sid : List UInt8) (i : ℕ) :
    Option (Option (ℕ × Bool × ℤ)) := do
  let c := blumChallenge H sid n i
  let cModN := c.fmod n
  let cQrP ← isQuadraticResidueModPrime cModN p
  let cQrQ ← isQuadraticResidueModPrime cModN q
  if cQrP && cQrQ then
    let root ← blumRoot p q n cModN
    return some (i, true, root)
  else
    let negC := n - cModN
    let negQrP ← isQuadraticResidueModPrime negC p
    let negQrQ ← isQuadraticResidueModPrime negC q
    if negQrP && negQrQ then
      let root ← blumRoot p q n negC
      return some (i, false, root)
    -- neither the challenge nor its negative is a residue
    else
      return none

/-- `prove_blum`. -/
def proveBlum (H : Hash) (p q n : ℕ) (sid : List UInt8) : Option BlumProof := do
  let pushed ← (List.range 128).mapM (blumEntry H p q n sid)
  let entries := pushed.filterMap id
  return { challengeIndices := entries.map fun e => e.1,
           bits := entries.map fun e => e.2.1,
           roots := entries.map fun e => e.2.2 }

/-- The test of `verify_blum` on one entry. -/
def blumEntryValid (H : Hash) (n : ℕ) (sid : List UInt8) (entry : (ℕ × Bool) × ℤ) : Bool :=
  let c := blumChallenge H sid n entry.1.1
  let cMod := c.fmod n
  let expected := if entry.1.2 then cMod else n - cMod
  let expected := expected.fmod n
  modpow entry.2 2 n == some expected

/-- `verify_blum`. -/
def verifyBlum (H : Hash) (n : ℕ) (sid : List UInt8) (proof : BlumProof) : Bool :=
  -- a product of two primes that are 3 modulo 4 is 1 modulo 4
  if n % 2 = 0 then false
  else if (n : ℤ).fmod 4 ≠ 1 then false
  else
    let validCount := ((proof.challengeIndices.zip proof.bits).zip proof.roots).countP
      (blumEntryValid H n sid)
    decide (0 < validCount) && validCount == proof.bits.length

/-! ### Multiplication proof -/

structure MulProof where
  cT : ℤ
  z : ℤ
  sResponse : ℤ

def mulChallenge (H : Hash) (sid : List UInt8) (n g : ℕ) (cIn cOut cT : ℤ) : ℤ :=
  challenge H (ascii "govis-paillier-mul" ++ sid ++ minBE n ++ minBE g ++ magnitude cIn ++
    magnitude cOut ++ magnitude cT)

/-- `prove_mul`. -/
def proveMul (H : Hash) (pk : PaillierPublicKey) (cIn cOut scalar rhoOut : ℤ)
    (scalarBoundBits : ℕ) (sid : List UInt8) (draws : ProofDraws ℕ) : Option MulProof := do
  let sec := 256
  let tBits := scalarBoundBits + sec
  let t ← genBigintRange 0 (2 ^ tBits) draws.alpha
  let rhoT ← genBigintRange 1 pk.n draws.gamma
  let cInT ← modpow cIn t pk.nSq
  let cT ← commitWith pk cInT rhoT
  let e := mulChallenge H sid pk.n pk.g cIn cOut cT
  let z := t + e * scalar
  let sResponse ← respondWith pk rhoT rhoOut e
  return { cT, z, sResponse }

/-- `verify_mul`. -/
def verifyMul (H : Hash) (pk : PaillierPublicKey) (cIn cOut : ℤ) (scalarBoundBits : ℕ)
    (sid : List UInt8) (proof : MulProof) : Option Bool :=
  let sec := 256
  let nBit := pk.n.size
  let bound : ℤ := 2 ^ (scalarBoundBits + sec + nBit + 1)
  if proof.z ≥ bound ∨ proof.z < 0 then some false
  else do
    let e := mulChallenge H sid pk.n pk.g cIn cOut proof.cT
    let cInZ ← modpow cIn proof.z pk.nSq
    checkEquation pk proof.cT cOut e cInZ proof.sResponse

/-! ### Proofs that tie a ciphertext to a point -/

/-- `ConsistencyProof` and `LogProof`, which have the same fields. -/
structure PointProof (C : Curve) where
  cAlpha : ℤ
  a : C.Point
  z : ℤ
  sResponse : ℤ

/-- The body of `prove_consistency` and `prove_log`: the mask of the plaintext `m` is committed
    to as a ciphertext and as a multiple of `base`; `chal` is the challenge. -/
def provePoint (pk : PaillierPublicKey) (m rho : ℤ) (base : C.Point)
    (chal : C.Point → ℤ → ℤ) (draws : ProofDraws C.Scalar) : Option (PointProof C) := do
  let alpha := scalarToBigint draws.alpha
  let gamma ← genBigintRange 1 pk.n draws.gamma
  let a := draws.alpha • base
  let cAlpha ← commitWith pk (gPow alpha pk.n pk.nSq) gamma
  let e := chal a cAlpha
  let z := alpha + e * m
  let sResponse ← respondWith pk gamma rho e
  return { cAlpha, a, z, sResponse }

/-- The body of `verify_consistency` and `verify_log`: `z * base = a + e * point`, and the
    equation of the ciphertexts. -/
def verifyPoint (pk : PaillierPublicKey) (c : ℤ) (base point : C.Point)
    (chal : C.Point → ℤ → ℤ) (proof : PointProof C) : Option Bool :=
  let e := chal proof.a proof.cAlpha
  let zScalar := fromBeBytesModOrder C (magnitude proof.z)
  let eScalar := fromBeBytesModOrder C (magnitude e)
  let lhs := zScalar • base
  let rhs := proof.a + eScalar • point
  -- on the curve
  if lhs ≠ rhs then some false
  else do
    let gZ ← modpow pk.g proof.z pk.nSq
    checkEquation pk proof.cAlpha c e gZ proof.sResponse

abbrev ConsistencyProof (C : Curve) := PointProof C

def consistencyChallenge (H : Hash) (sid : List UInt8) (n g : ℕ) (c : ℤ) (rPoint a : C.Point)
    (cAlpha : ℤ) : ℤ :=
  challenge H (ascii "govis-paillier-ec-consistency" ++ sid ++ minBE n ++ minBE g ++ magnitude c ++
    toBytes true rPoint ++ toBytes true a ++ magnitude cAlpha)

/-- `prove_consistency`: `c = Enc(m, ρ)` and `m * R = G`. -/
def proveConsistency (H : Hash) (pk : PaillierPublicKey) (m rho c : ℤ) (rPoint : C.Point)
    (sid : List UInt8) (draws : ProofDraws C.Scalar) : Option (ConsistencyProof C) :=
  provePoint pk m rho rPoint (consistencyChallenge H sid pk.n pk.g c rPoint) draws

/-- `verify_consistency`. -/
def verifyConsistency (H : Hash) (pk : PaillierPublicKey) (c : ℤ) (rPoint : C.Point)
    (sid : List UInt8) (proof : ConsistencyProof C) : Option Bool :=
  verifyPoint pk c rPoint C.generator (consistencyChallenge H sid pk.n pk.g c rPoint) proof

abbrev LogProof (C : Curve) := PointProof C

def logChallenge (H : Hash) (sid : List UInt8) (n g : ℕ) (c : ℤ) (pub a : C.Point)
    (cAlpha : ℤ) : ℤ :=
  challenge H (ascii "govis-paillier-log" ++ sid ++ minBE n ++ minBE g ++ magnitude c ++
    toBytes true pub ++ toBytes true a ++ magnitude cAlpha)

/-- `prove_log`: `c = Enc(x, ρ)` and `X = x * G`. -/
def proveLog (H : Hash) (pk : PaillierPublicKey) (c x rho : ℤ) (pub : C.Point)
    (sid : List UInt8) (draws : ProofDraws C.Scalar) : Option (LogProof C) :=
  provePoint pk x rho C.generator (logChallenge H sid pk.n pk.g c pub) draws

/-- `verify_log`. -/
def verifyLog (H : Hash) (pk : PaillierPublicKey) (c : ℤ) (pub : C.Point) (sid : List UInt8)
    (proof : LogProof C) : Option Bool :=
  verifyPoint pk c C.generator pub (logChallenge H sid pk.n pk.g c pub) proof

/-! ### Schnorr proof -/

structure SchnorrProof (C : Curve) where
  a : C.Point
  z : C.Scalar

def schnorrChallenge (H : Hash) (a pub : C.Point) (sid : List UInt8) : C.Scalar :=
  fromBeBytesModOrder C
    (H (ascii "govis-schnorr" ++ sid ++ toBytes true a ++ toBytes true pub)).toList

/-- `prove_schnorr`, with the mask it draws. -/
def proveSchnorr (H : Hash) (secret : C.Scalar) (pub : C.Point) (sid : List UInt8)
    (alpha : C.Scalar) : SchnorrProof C :=
  let a := alpha • C.generator
  let e := schnorrChallenge H a pub sid
  { a, z := alpha + e * secret }

/-- `verify_schnorr`. -/
def verifySchnorr (H : Hash) (pub : C.Point) (sid : List UInt8) (proof : SchnorrProof C) : Bool :=
  let e := schnorrChallenge H proof.a pub sid
  proof.z • C.generator == proof.a + e • pub

end Govis
