import Govis.Cggmp21.EndToEnd
import Govis.Lindell.SignSecrecy
import Govis.ProofSizes
import Govis.SmallCurve
import Govis.Tcp.MessageLayout

namespace Govis.Tcp

open Bytes Curve Framing Layout Rounds
open Lindell (SignSession)
open Cggmp21 (KeygenSession PresignSession Session)

/-!
# The transport: frames have room for honest messages

With moduli of at most `w` words of 32 bits, a number of a message takes `numBytes w` bytes.

* `within_p1Data`, `within_blumProof`, … — the room that the messages need;
* `sign_carries`, `keygen_carries`, `presign_carries`, `onlineSign_carries` — **the codecs carry the
  scripts** of the four protocols, if a frame has that room.
-/

variable {C : Curve} {H : Hash} {w : ℕ}

/-- The bytes of a number of `32 + 2 * w` words, with its sign and its length. -/
def numBytes (w : ℕ) : ℕ := 9 + (32 + 2 * w) * 4

/-- The number of words of such a number is itself short. -/
theorem words_lt (hw : numBytes w ≤ maxFrameLength) : 32 + 2 * w < 256 ^ 8 := by
  have hmax : maxFrameLength = 8388608 := rfl
  unfold numBytes at hw
  omega

/-! ### Fields -/

theorem within_point (P : C.Point) : (pointLayout C).Within 33 P := within_ofInjective

theorem within_digest (v : Vector UInt8 32) : digestLayout.Within 32 v := within_ofInjective

theorem within_32_bytes {b : List UInt8} (hb : b.length ≤ 32) : (bytes 8).Within 40 b :=
  (within_bytes (lt_of_le_of_lt hb (by norm_num))).mono (by omega)

section Fields

variable (hw : numBytes w ≤ maxFrameLength)

include hw

theorem within_short {z : ℤ} (hz : Short w z) : bigInt.Within (numBytes w) z :=
  within_bigInt (words_lt hw) hz

theorem within_short_nat {x : ℕ} (hx : Short w (x : ℤ)) : bigUint.Within (numBytes w) x := by
  unfold Short at hx
  rw [Int.natAbs_natCast] at hx
  exact (within_bigUint (words_lt hw) hx).mono (by unfold numBytes; omega)

theorem within_rangeProof {p : RangeProof} (h : Short w p.cAlpha ∧ Short w p.z ∧ Short w p.s) :
    rangeProofLayout.Within (numBytes w + (numBytes w + numBytes w)) p :=
  (within_short hw h.1).seq ((within_short hw h.2.1).seq (within_short hw h.2.2))

theorem within_mulProof {p : MulProof} (h : Short w p.cT ∧ Short w p.z ∧ Short w p.sResponse) :
    mulProofLayout.Within (numBytes w + (numBytes w + numBytes w)) p :=
  (within_short hw h.1).seq ((within_short hw h.2.1).seq (within_short hw h.2.2))

theorem within_pointProof {p : PointProof C}
    (h : Short w p.cAlpha ∧ Short w p.z ∧ Short w p.sResponse) :
    (pointProofLayout C).Within (numBytes w + (33 + (numBytes w + numBytes w))) p :=
  (within_short hw h.1).seq (within_ofInjective.seq ((within_short hw h.2.1).seq (within_short hw h.2.2)))

end Fields

/-! ### `run_sign` -/

section Sign

variable {x : SignSession C} {T : x.Transcript H}

/-- The offer of a transcript, and what it is made of. -/
theorem short_offer (hkey : ShortKey w x.keypair.pk) :
    T.data.pkN = x.keypair.pk.n ∧ T.data.pkG = x.keypair.pk.g ∧ Short w T.data.cKInv ∧
      (Short w T.data.rangeProof.cAlpha ∧ Short w T.data.rangeProof.z ∧ Short w T.data.rangeProof.s) ∧
      Short w T.data.consistencyProof.cAlpha ∧ Short w T.data.consistencyProof.z ∧
        Short w T.data.consistencyProof.sResponse := by
  have hoffer := T.offer_eq
  simp only [Lindell.p1Offer, if_neg x.k_ne_zero, Option.bind_eq_bind, Option.bind_eq_some_iff,
    Option.pure_def] at hoffer
  obtain ⟨kInv, -, rho, -, c, hc, rangeProof, hrange, consistencyProof, hcons, hdata⟩ := hoffer
  obtain ⟨-, hdata⟩ := Prod.mk.inj (Option.some.inj hdata)
  have hm : (scalarToBigint kInv).natAbs < 2 ^ 256 := by
    rw [scalarToBigint_eq, Int.natAbs_natCast]
    exact val_lt_two_pow_256 kInv
  rw [← hdata]
  exact ⟨rfl, rfl, hkey.short_encryptWithRho hc, short_proveRange hkey hrange (le_refl 256) hm,
    short_provePoint hkey hcons (fun _ _ => challenge_lt H _) hm⟩

/-- The answer of a transcript. -/
theorem short_answer (hkey : ShortKey w x.keypair.pk) :
    Short w T.cS2 ∧ Short w T.mulProof.cT ∧ Short w T.mulProof.z ∧ Short w T.mulProof.sResponse := by
  obtain ⟨hn, hg, -⟩ := short_offer (T := T) hkey
  have hfrom : messageFrom x.signers.1 [(x.signers.1, Lindell.Round1Msg.p1Data T.data)] =
      some (.p1Data T.data) := by
    simp [messageFrom]
  obtain ⟨data, hdata, hencrypt⟩ := Lindell.p2Answer_eq_ok (T.answer_eq _ hfrom)
  obtain rfl := Lindell.Round1Msg.p1Data.inj (Option.some.inj (hfrom.symm.trans hdata))
  -- the key that `P2` rebuilds is that of the session
  have hpk : ShortKey w (⟨T.data.pkN, T.data.pkN ^ 2, T.data.pkG⟩ : PaillierPublicKey) := by
    rw [hn, hg, sq, ← hkey.wellFormed.nSq_eq]
    exact hkey
  simp only [Lindell.p2Encrypt, Option.bind_eq_bind, Option.bind_eq_some_iff, Option.pure_def]
    at hencrypt
  obtain ⟨cS2, -, rho, -, encZero, -, mulProof, hmul, hanswer⟩ := hencrypt
  obtain ⟨hc, hproof⟩ := Lindell.Round2Msg.p2Data.inj (Option.some.inj hanswer)
  have hm : ∀ s : C.Scalar, (scalarToBigint s).natAbs < 2 ^ 256 := fun s => by
    rw [scalarToBigint_eq, Int.natAbs_natCast]
    exact val_lt_two_pow_256 s
  rw [← hc, ← hproof]
  refine ⟨?_, short_proveMul hpk hmul (le_refl 256) (hm _)⟩
  have hshort := hpk.short_tmod_nSq (cS2 * encZero)
  rwa [show (⟨T.data.pkN, T.data.pkN ^ 2, T.data.pkG⟩ : PaillierPublicKey).nSq =
    T.data.pkN * T.data.pkN from sq T.data.pkN] at hshort

/-- **The messages of `run_sign`** fit, if a frame has room for nine numbers and two points. -/
theorem sign_carries (hkey : ShortKey w x.keypair.pk) (hw : 9 * numBytes w + 100 ≤ maxFrameLength) :
    ∀ r < 3, ∀ i < x.n, ∀ j < x.n, j ≠ i → (signCodec C).Carries x.n ⟨r, T.msgs r i j⟩ := by
  have hone : numBytes w ≤ maxFrameLength := by omega
  obtain ⟨hn, hg, hc, hrange, hcons⟩ := short_offer (T := T) hkey
  obtain ⟨hc2, hmul⟩ := short_answer (T := T) hkey
  have hdata : (p1DataLayout C).Within (9 * numBytes w + 66) T.data := by
    refine (within_ofInjective.seq ((within_short hone hc).seq ((within_short_nat hone ?_).seq
      ((within_short_nat hone ?_).seq ((within_rangeProof hone hrange).seq
        (within_pointProof hone hcons)))))).mono (by omega)
    · rw [hn]
      exact hkey.short_n
    · rw [hg]
      exact hkey.short_g
  intro r hr i hi j hj _
  have hroom : (signLayout C r).Within (9 * numBytes w + 89) (T.msgs r i j) := by
    obtain rfl | rfl | rfl : r = 0 ∨ r = 1 ∨ r = 2 := by omega
    · show (signLayout C 0).Within _ (if i = x.signers.1 then .p1Data T.data else .ack)
      split
      · have hoffer : ((p1DataLayout C).either unit).Within (9 * numBytes w + 66 + 4) (.inl T.data) :=
          hdata.inl
        exact hoffer.mono (by omega)
      · exact ⟨trivial, by show 4 ≤ _; omega⟩
    · show (signLayout C 1).Within _ (if i = x.signers.2 then .p2Data T.cS2 T.mulProof else .ack)
      split
      · have hanswer : ((bigInt.seq mulProofLayout).either unit).Within (9 * numBytes w + 89)
            (.inl (T.cS2, T.mulProof)) :=
          ((within_short hone hc2).seq (within_mulProof hone hmul)).inl.mono (by omega)
        exact hanswer
      · exact ⟨trivial, by show 4 ≤ _; omega⟩
    · have hbytes : ∀ b b' : List UInt8, b.length ≤ 32 → b'.length ≤ 32 → ∀ recId,
          (signLayout C 2).Within (9 * numBytes w + 89) (⟨b, b', recId⟩ : Lindell.Round3Msg) := by
        intro b b' hb hb' recId
        have hvariant : (littleEndian 4).Within 4 0 := within_littleEndian (by norm_num)
        have hrecId : byte.Within 1 recId := ⟨trivial, le_refl 1⟩
        exact (hvariant.seq ((within_32_bytes hb).seq ((within_32_bytes hb').seq hrecId))).mono (by omega)
      show (signLayout C 2).Within _ (if i = x.signers.1 then _ else _)
      split
      · exact hbytes _ _ (by rw [length_toBeBytes]) (by rw [length_toBeBytes]) _
      · exact hbytes [] [] (Nat.zero_le 32) (Nat.zero_le 32) 0
  exact carries_ofLayouts x.n_lt.le hr hroom (by omega)

end Sign

/-! ### `run_keygen` -/

section Keygen

variable {x : KeygenSession C H} {T : x.Transcript}

theorem length_minBE_le {k n : ℕ} (hn : n < 256 ^ k) : (minBE n).length ≤ k + 1 := by
  unfold minBE
  split
  · exact Nat.succ_le_succ (Nat.zero_le k)
  · rw [List.length_map, List.length_reverse]
    exact ((Nat.digits_length_le_iff (by norm_num) n).mpr hn).trans (Nat.le_succ k)

/-- A Blum proof has room for 128 entries. -/
theorem within_blumProof (hw : numBytes w ≤ maxFrameLength) {n : ℕ} (hn : n ≠ 0) (hlt : n < 2 ^ (32 * w))
    {p q : ℕ} {sid : List UInt8} {proof : BlumProof} (h : proveBlum H p q n sid = some proof) :
    blumProofLayout.Within (128 * numBytes w + 1176) proof := by
  obtain ⟨hindices, hbits, hroots, hindex, hroot⟩ := short_proveBlum hn h
  have hlen : ∀ {k : ℕ}, k ≤ 128 → k < 256 ^ 8 := fun hk => lt_of_le_of_lt hk (by norm_num)
  have h1 : (list 8 (littleEndian 8)).Within (8 + 128 * 8) proof.challengeIndices :=
    (within_list (hlen hindices) fun i hi => within_littleEndian (hlen (hindex i hi).le)).mono (by omega)
  have h2 : (list 8 bool).Within (8 + 128 * 1) proof.bits :=
    (within_list (hlen hbits) fun b _ => within_bool b).mono (by omega)
  have h3 : (list 8 bigInt).Within (8 + 128 * numBytes w) proof.roots :=
    (within_list (hlen hroots) fun root hr => within_short hw
      (.of_lt (lt_trans (hroot root hr) hlt) (by omega))).mono
        (Nat.add_le_add_left (Nat.mul_le_mul_right _ hroots) 8)
  exact (h1.seq (h2.seq h3)).mono (by omega)

/-- The ciphertext of a share, and its proof. -/
theorem within_encryptShare (hw : numBytes w ≤ maxFrameLength) {pk : PaillierPublicKey}
    (hpk : ShortKey w pk) {sid : List UInt8} {vec : List C.Point} {share : C.Scalar} {peer rho : ℕ}
    {draws : ProofDraws C.Scalar} {enc : ℤ × LogProof C}
    (h : Cggmp21.encryptShare H sid vec share pk peer rho draws = some enc) :
    (bigInt.seq (pointProofLayout C)).Within (4 * numBytes w + 33) enc := by
  simp only [Cggmp21.encryptShare, Option.bind_eq_bind, Option.bind_eq_some_iff, Option.pure_def] at h
  obtain ⟨rho, -, c, hc, proof, hproof, henc⟩ := h
  cases henc
  have hm : (scalarToBigint share).natAbs < 2 ^ 256 := by
    rw [scalarToBigint_eq, Int.natAbs_natCast]
    exact val_lt_two_pow_256 share
  exact ((within_short hw (hpk.short_encryptWithRho hc)).seq (within_pointProof hw
    (short_provePoint hpk hproof (fun _ _ => challenge_lt H _) hm))).mono (by omega)

/-- **The messages of `run_keygen`** fit, if a frame has room for 128 roots, and for the points and the
    ciphertexts of a dealer. -/
theorem keygen_carries (hkey : ∀ i < x.n, ShortKey w (x.coins i).keypair.pk)
    (hw : 128 * numBytes w + 4 * w + 1200 ≤ maxFrameLength)
    (hn : 33 * x.t + x.n * (4 * numBytes w + 33) + 200 ≤ maxFrameLength) :
    ∀ r < 3, ∀ i < x.n, ∀ j < x.n, j ≠ i → (keygenCodec C).Carries x.n ⟨r, T.msgs r i j⟩ := by
  have hone : numBytes w ≤ maxFrameLength := by omega
  have hfirst : 8 + (4 * w + 1) + (128 * numBytes w + 1176) + 11 ≤ maxFrameLength := by linarith
  intro r hr i hi j hj _
  have hmod := hkey i hi
  obtain rfl | rfl | rfl : r = 0 ∨ r = 1 ∨ r = 2 := by omega
  · have hmodulus : (minBE (x.coins i).keypair.pk.n).length ≤ 4 * w + 1 := by
      refine length_minBE_le (lt_of_lt_of_eq hmod.n_lt ?_)
      rw [show 32 * w = 8 * (4 * w) by ring, pow_mul]
      norm_num
    have hbytes : (bytes 8).Within (8 + (4 * w + 1)) (minBE (x.coins i).keypair.pk.n) := by
      have hmax : maxFrameLength = 8388608 := rfl
      exact (within_bytes (by omega)).mono (by omega)
    have hblum := within_blumProof hone hmod.wellFormed.n_ne_zero hmod.n_lt (T.blum_eq i hi)
    have hmsg : (keygenLayout C 0).Within (8 + (4 * w + 1) + (128 * numBytes w + 1176)) (T.msgs 0 i j) :=
      hbytes.seq hblum
    exact carries_ofLayouts x.n_lt.le hr hmsg hfirst
  · have hmsg : (keygenLayout C 1).Within 32 (T.msgs 1 i j) := within_digest _
    exact carries_ofLayouts x.n_lt.le hr hmsg (by omega)
  · have hlen : (Cggmp21.keygenVector x.coins x.t i).length = x.t - 1 + 1 := by
      simp [Cggmp21.keygenVector, Lindell.ownVector, dealing]
    have hmax : maxFrameLength = 8388608 := rfl
    have hpoints : (list 8 (pointLayout C)).Within (8 + 33 * x.t)
        (Cggmp21.keygenVector x.coins x.t i) := by
      have hone := x.one_le
      exact (within_list (by omega) fun _ _ => within_ofInjective).mono (by omega)
    have hothers : (others x.n i).length ≤ x.n := by
      have hle := List.length_filter_le (fun d => decide (d ≠ i)) (List.range x.n)
      rwa [List.length_range] at hle
    have hshares : (list 8 (bigInt.seq (pointProofLayout C))).Within
        (8 + x.n * (4 * numBytes w + 33)) ((others x.n i).map (T.enc i)) := by
      have hcount : ((others x.n i).map (T.enc i)).length ≤ x.n := by rwa [List.length_map]
      have hlt : x.n < 256 ^ 8 := lt_trans x.n_lt (by norm_num)
      refine (within_list (lt_of_le_of_lt hcount hlt) fun enc henc => ?_).mono
        (Nat.add_le_add_left (Nat.mul_le_mul_right _ hcount) 8)
      obtain ⟨peer, hpeer, rfl⟩ := List.mem_map.mp henc
      obtain ⟨hpeer, hne⟩ := mem_others.mp hpeer
      exact within_encryptShare hone (hkey peer hpeer) (T.enc_eq i hi peer hpeer (Ne.symm hne))
    have hnonce : (bytes 8).Within 40 (toBeBytes (x.coins i).nonce) :=
      within_32_bytes (by rw [length_toBeBytes])
    have hschnorr : (schnorrProofLayout C).Within (33 + 32) (proveSchnorr H (x.coins i).ecSecret
        ((x.coins i).ecSecret • C.generator) x.sid (x.coins i).schnorrAlpha) :=
      Within.seq within_ofInjective within_ofInjective
    have hmsg : (keygenLayout C 2).Within (33 * x.t + x.n * (4 * numBytes w + 33) + 150)
        (T.msgs 2 i j) :=
      (hnonce.seq (hpoints.seq (hshares.seq hschnorr))).mono (by omega)
    exact carries_ofLayouts x.n_lt.le hr hmsg (by omega)

end Keygen

/-! ### `run_presign` and `run_online_sign` -/

/-- **The messages of `run_presign`** fit, if a frame has room for four numbers. -/
theorem presign_carries {x : PresignSession C} {T : x.Transcript H} (hx : x.signers.length ≤ 2 ^ 16)
    (hkey : ∀ i < x.signers.length, ShortKey w (x.coins i).keypair.pk)
    (hw : 4 * numBytes w + 100 ≤ maxFrameLength) :
    ∀ r < 4, ∀ i < x.signers.length, ∀ j < x.signers.length, j ≠ i →
      (presignCodec C).Carries x.signers.length ⟨r, T.msgs r i j⟩ := by
  have hone : numBytes w ≤ maxFrameLength := by omega
  intro r hr i hi j hj hji
  have hmod := hkey i hi
  obtain rfl | rfl | rfl | rfl : r = 0 ∨ r = 1 ∨ r = 2 ∨ r = 3 := by omega
  · have hmsg : (presignLayout C 0).Within (2 * numBytes w) (T.msgs 0 i j) :=
      ((within_short_nat hone hmod.short_n).seq (within_short_nat hone hmod.short_g)).mono (by omega)
    exact carries_ofLayouts hx hr hmsg (by omega)
  · have hmsg : (presignLayout C 1).Within 32 (T.msgs 1 i j) := within_digest _
    exact carries_ofLayouts hx hr hmsg (by omega)
  · have hmsg : (presignLayout C 2).Within 33 (T.msgs 2 i j) := within_point _
    exact carries_ofLayouts hx hr hmsg (by omega)
  · have henc := T.enc_eq i hi j hj (Ne.symm hji)
    simp only [Cggmp21.encryptNonce, Option.bind_eq_bind, Option.bind_eq_some_iff, Option.pure_def]
      at henc
    obtain ⟨rho, -, c, hc, proof, hproof, hmsg⟩ := henc
    obtain ⟨hcEq, hproofEq⟩ := Cggmp21.EncryptedKMsg.mk.inj (Option.some.inj hmsg)
    have hm : (scalarToBigint (x.coins i).k).natAbs < 2 ^ 256 := by
      rw [scalarToBigint_eq, Int.natAbs_natCast]
      exact val_lt_two_pow_256 (x.coins i).k
    have hpk := hkey j hj
    have hcipher : bigInt.option.Within (numBytes w + 1) (some c) :=
      (within_short hone (hpk.short_encryptWithRho hc)).some
    have hrange := (within_rangeProof hone (short_proveRange hpk hproof (le_refl 256) hm)).some
    have hmsg : (presignLayout C 3).Within (4 * numBytes w + 2) (T.msgs 3 i j) := by
      show (presignLayout C 3).Within _ (⟨some (T.c i j), some (T.proof i j)⟩ : Cggmp21.EncryptedKMsg)
      rw [← hcEq, ← hproofEq]
      exact (hcipher.seq hrange).mono (by omega)
    exact carries_ofLayouts hx hr hmsg (by omega)

/-- **The messages of `run_online_sign`** always fit. -/
theorem onlineSign_carries {x : Session C H} {n : ℕ} (hn : n ≤ 2 ^ 16) :
    ∀ r < 1, ∀ i < n, ∀ j < n, j ≠ i → onlineSignCodec.Carries n ⟨r, x.onlineScript r i j⟩ := by
  intro r hr i _ j _ _
  have hmsg : (onlineSignLayout r).Within 40 (x.onlineScript r i j) :=
    within_32_bytes (length_toBeBytes _).le
  exact carries_ofLayouts hn hr hmsg (by decide)

/-! ### The small key -/

/-- Its modulus has two words. -/
theorem shortKey_smallKeypair : ShortKey 2 smallKeypair.pk :=
  ⟨generated_smallKeypair.valid.wellFormed, by decide⟩

/-- The messages of the small key generation fit. -/
theorem smallKeygen_carries {T : Cggmp21.smallKeygen.Transcript} : ∀ r < 3, ∀ i < 3, ∀ j < 3, j ≠ i →
    (keygenCodec smallCurve).Carries 3 ⟨r, T.msgs r i j⟩ :=
  keygen_carries (w := 2) (T := T) (fun _ _ => shortKey_smallKeypair) (by decide) (by decide)

/-- The messages of the small signing session fit. -/
theorem smallSession_carries {T : Lindell.smallSession.Transcript H} : ∀ r < 3, ∀ i < 3, ∀ j < 3, j ≠ i →
    (signCodec smallCurve).Carries 3 ⟨r, T.msgs r i j⟩ :=
  sign_carries (w := 2) (T := T) shortKey_smallKeypair (by decide)

end Govis.Tcp
