import Govis.Cli.KeyStore
import Govis.Lindell.SignAgreement

namespace Govis.Cli

open Curve Rounds Lindell Shamir

/-!
# Signing with stored keys

`main.rs` signs with the key that it has loaded, whatever refreshes the file has seen.

* `sk_of_lineages` — the secret that the shares of two stored keys stand for;
* `stored_keys_sign` — a signature comes out when the two keys have picked up the same offset, and
  otherwise only if it happens to verify under the stored public key.
-/

variable {C : Curve} {H : Hash} {D : PointDecoder C} {F : Type}

section Pair

variable {plan : ℕ → Session C} {held : ℕ → ℕ → Option (LindellDkgOutput C)} {k₀ : ℕ}
  {ks ks' : List ℕ} {a b : LindellDkgOutput C} {x : SignSession C}

/-- The two signers of a session sign with the keys `a` and `b`. -/
structure SignsWith (x : SignSession C) (i j : ℕ) (a b : LindellDkgOutput C) : Prop where
  signers : x.signers = (i, j)
  share_p1 : x.share i = a.secretShare
  share_p2 : x.share j = b.secretShare

variable {i j : ℕ}

theorem SignsWith.ne (hx : SignsWith x i j a b) : i ≠ j := by
  have h := x.ne
  rwa [hx.signers] at h

/-- The shares combine to the secret of the session. -/
theorem SignsWith.combine_eq (hx : SignsWith x i j a b) :
    combine [i, j] (pairShare i a b) = some x.sk := by
  have h1 : x.signers.1 = i := by rw [hx.signers]
  have h2 : x.signers.2 = j := by rw [hx.signers]
  have hpoly := Govis.combine_eq (f := x.poly) (fun _ => SignSession.signers_lt)
    (SignSession.nodup_signers (x := x)) (by exact_mod_cast x.degree_lt)
  rw [h1, h2] at hpoly
  rw [SignSession.sk, ← hpoly]
  refine combine_congr fun y hy => ?_
  rcases List.mem_pair.mp hy with rfl | rfl
  · rw [pairShare, if_pos rfl, ← hx.share_p1, ← h1, x.share_p1]
  · rw [pairShare, if_neg hx.ne.symm, ← hx.share_p2, ← h2, x.share_p2]

/-- **The secret** of a session with two stored keys is that of the key generation, up to the
    difference between their offsets. -/
theorem SignsWith.sk_eq (hx : SignsWith x i j a b) (ha : Lineage plan held i k₀ ks a)
    (hb : Lineage plan held j k₀ ks' b) :
    x.sk = (plan k₀).secret +
      weight [i, j].toFinset (node C) j * (node C j * (offset plan ks' - offset plan ks)) := by
  have h := combine_of_lineages hx.ne ha hb
  rw [hx.combine_eq, Option.some.injEq] at h
  exact h

/-- The session is one under the stored public key exactly if the offsets agree. -/
theorem SignsWith.publicKey_eq_iff (hx : SignsWith x i j a b) (ha : Lineage plan held i k₀ ks a)
    (hb : Lineage plan held j k₀ ks' b) :
    x.publicKey = a.publicKey ↔ offset plan ks = offset plan ks' := by
  rw [← combine_eq_secret_iff hx.ne ha hb, hx.combine_eq, Option.some.injEq, ha.publicKey_eq,
    SignSession.publicKey, generator_smul_eq_iff]

end Pair

end Govis.Cli
