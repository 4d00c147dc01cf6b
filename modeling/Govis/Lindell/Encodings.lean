import Govis.Framing.Der
import Mathlib.Data.Fintype.Basic

namespace Govis.Lindell

open Bytes Framing

/-!
# Lindell: the encodings of a signature

The two formats that `lindell/sign.rs` prints a signature in.  None is a panic.

* `bitcoinDerSignature_strict` — the DER encoding is strict and gives back both integers;
* `ethereumSignature_faithful_iff` — the chain ids whose Ethereum encoding gives them back; the
  others are cut to a byte, and the sum that follows panics or wraps around;
* `ethereumSignature_not_faithful` — two chains with one encoding.
-/

/-! ### Bitcoin -/

/-- `encode_int`. -/
def encodeInt (bytes : List UInt8) : Option (List UInt8) :=
  let nonZero := (bytes.findIdx? (· ≠ 0)).getD (bytes.length - 1)
  match bytes.drop nonZero with
  | [] => none
  | b :: rest => some (if b &&& 0x80 ≠ 0 then 0x00 :: b :: rest else b :: rest)

/-- `bitcoin_der_signature`. -/
def bitcoinDerSignature (rBytes sBytes : List UInt8) : Option (List UInt8) := do
  let rEnc ← encodeInt rBytes
  let sEnc ← encodeInt sBytes
  let totalLen := 2 + rEnc.length + 2 + sEnc.length
  return [0x30, UInt8.ofNat totalLen] ++ [0x02, UInt8.ofNat rEnc.length] ++ rEnc ++
    [0x02, UInt8.ofNat sEnc.length] ++ sEnc

/-- The sign bit of a byte. -/
theorem and_sign_eq_zero_iff (b : UInt8) : b &&& 0x80 = 0 ↔ b < 0x80 := by
  cases b with
  | ofBitVec b =>
    cases b with
    | ofFin b =>
      revert b
      decide +kernel

/-- A leading zero that is not alone is skipped. -/
theorem encodeInt_zero_cons (b : UInt8) (rest : List UInt8) :
    encodeInt (0 :: b :: rest) = encodeInt (b :: rest) := by
  have hskip : ((0 :: b :: rest).findIdx? (· ≠ 0)).getD ((0 :: b :: rest).length - 1) =
      ((b :: rest).findIdx? (· ≠ 0)).getD ((b :: rest).length - 1) + 1 := by
    rw [List.findIdx?_cons]
    cases (b :: rest).findIdx? (· ≠ 0) with
    | none => simp
    | some k => simp
  unfold encodeInt
  simp only [hskip, List.drop_succ_cons]

/-- A first byte that is kept. -/
theorem encodeInt_cons {b : UInt8} {rest : List UInt8} (h : b ≠ 0 ∨ rest = []) :
    encodeInt (b :: rest) = some (if b &&& 0x80 ≠ 0 then 0x00 :: b :: rest else b :: rest) := by
  have hfirst : ((b :: rest).findIdx? (· ≠ 0)).getD ((b :: rest).length - 1) = 0 := by
    by_cases hb : b = 0
    · obtain rfl := h.resolve_left (not_not.mpr hb)
      simp [hb]
    · simp [List.findIdx?_cons, hb]
  unfold encodeInt
  simp only [hfirst, List.drop_zero]

@[simp] theorem ofBE_zero_cons (l : List UInt8) : ofBE (0 :: l) = ofBE l := by
  simp [ofBE]

/-- **An integer** is encoded in the fewest bytes, with room for its sign. -/
theorem exists_encodeInt {bytes : List UInt8} (hne : bytes ≠ []) :
    ∃ enc, encodeInt bytes = some enc ∧ ofBE enc = ofBE bytes ∧ enc.length ≤ bytes.length + 1 ∧
      Der.MinimalInteger enc ∧ enc.headD 0 < 0x80 := by
  induction bytes with
  | nil => exact absurd rfl hne
  | cons b rest ih =>
    by_cases hskip : b = 0 ∧ rest ≠ []
    · obtain ⟨rfl, hrest⟩ := hskip
      obtain ⟨c, rest, rfl⟩ := List.exists_cons_of_ne_nil hrest
      obtain ⟨enc, henc, hvalue, hlen, hmin⟩ := ih hrest
      refine ⟨enc, (encodeInt_zero_cons c rest).trans henc, ?_, ?_, hmin⟩
      · rw [hvalue, ofBE_zero_cons]
      · exact hlen.trans (by simp)
    · have hkeep : b ≠ 0 ∨ rest = [] := by
        by_cases hb : b = 0
        · exact .inr (not_not.mp fun hrest => hskip ⟨hb, hrest⟩)
        · exact .inl hb
      refine ⟨_, encodeInt_cons hkeep, ?_⟩
      by_cases hsign : b &&& 0x80 = 0
      · -- the first byte shows no sign
        have hlt := (and_sign_eq_zero_iff b).mp hsign
        rw [if_neg (not_not.mpr hsign)]
        refine ⟨rfl, by simp, ?_, hlt⟩
        cases rest with
        | nil => trivial
        | cons c rest =>
          have hb := hkeep.resolve_right (List.cons_ne_nil c rest)
          refine ⟨fun h => hb h.1, ?_⟩
          rintro ⟨rfl, -⟩
          exact absurd hlt (by decide)
      · have hge : ¬ b < 0x80 := fun hlt => hsign ((and_sign_eq_zero_iff b).mpr hlt)
        rw [if_pos hsign]
        exact ⟨ofBE_zero_cons _, by simp, ⟨fun h => hge h.2, fun h => absurd h.1 (by decide)⟩,
          show (0 : UInt8) < 0x80 by decide⟩

/-- **The DER encoding** of two 32-byte strings is strict, has at most 72 bytes, and gives back exactly
    their integers, so that different pairs of integers have different encodings. -/
theorem bitcoinDerSignature_strict {rBytes sBytes : List UInt8} (hr : rBytes.length = 32)
    (hs : sBytes.length = 32) :
    ∃ sig, bitcoinDerSignature rBytes sBytes = some sig ∧
      Der.readIntegerPair sig = some ((ofBE rBytes : ℤ), (ofBE sBytes : ℤ)) ∧
      sig.length ≤ 72 ∧
      ∀ rBytes' sBytes' : List UInt8, rBytes'.length = 32 → sBytes'.length = 32 →
        bitcoinDerSignature rBytes' sBytes' = some sig →
        ofBE rBytes' = ofBE rBytes ∧ ofBE sBytes' = ofBE sBytes := by
  -- the encoding of any two strings
  have hstrict : ∀ rBytes sBytes : List UInt8, rBytes.length = 32 → sBytes.length = 32 →
      ∃ sig, bitcoinDerSignature rBytes sBytes = some sig ∧
        Der.readIntegerPair sig = some ((ofBE rBytes : ℤ), (ofBE sBytes : ℤ)) ∧
        sig.length ≤ 72 := by
    intro rBytes sBytes hr hs
    obtain ⟨rEnc, hrEnc, hrValue, hrLen, hrMin, hrPos⟩ :=
      exists_encodeInt (show rBytes ≠ [] by rintro rfl; cases hr)
    obtain ⟨sEnc, hsEnc, hsValue, hsLen, hsMin, hsPos⟩ :=
      exists_encodeInt (show sBytes ≠ [] by rintro rfl; cases hs)
    have hpair := Der.readIntegerPair_element (by omega) hrMin hrPos hsMin hsPos
    rw [hrValue, hsValue] at hpair
    have htotal : 2 + rEnc.length + 2 + sEnc.length =
        (Der.element 0x02 rEnc ++ Der.element 0x02 sEnc).length := by
      rw [List.length_append, Der.length_element, Der.length_element]
      omega
    refine ⟨Der.element 0x30 (Der.element 0x02 rEnc ++ Der.element 0x02 sEnc), ?_, hpair, ?_⟩
    · simp only [bitcoinDerSignature, hrEnc, hsEnc, Option.bind_eq_bind, Option.bind_some,
        Option.pure_def, htotal]
      simp [Der.element]
    · rw [Der.length_element, ← htotal]
      omega
  obtain ⟨sig, hsig, hread, hlen⟩ := hstrict rBytes sBytes hr hs
  refine ⟨sig, hsig, hread, hlen, fun rBytes' sBytes' hr' hs' hsig' => ?_⟩
  obtain ⟨sig', hsig'', hread', -⟩ := hstrict rBytes' sBytes' hr' hs'
  obtain rfl := Option.some.inj (hsig''.symm.trans hsig')
  have hpair := Option.some.inj (hread'.symm.trans hread)
  rw [Prod.mk.injEq, Nat.cast_inj, Nat.cast_inj] at hpair
  exact hpair

/-- Zero and a number whose first byte needs padding. -/
theorem bitcoinDerSignature_strict_padded :
    ∃ sig, bitcoinDerSignature (toBE 32 0) (List.replicate 32 0xff) = some sig ∧
      Der.readIntegerPair sig =
        some ((ofBE (toBE 32 0) : ℤ), (ofBE (List.replicate 32 0xff) : ℤ)) ∧
      sig.length ≤ 72 ∧
      ∀ rBytes' sBytes' : List UInt8, rBytes'.length = 32 → sBytes'.length = 32 →
        bitcoinDerSignature rBytes' sBytes' = some sig →
        ofBE rBytes' = ofBE (toBE 32 0) ∧ ofBE sBytes' = ofBE (List.replicate 32 0xff) :=
  bitcoinDerSignature_strict (by decide) (by decide)

/-! ### Ethereum -/

/-- A sum of bytes: without overflow checks it wraps around. -/
def addU8 (checked : Bool) (a b : UInt8) : Option UInt8 :=
  if checked ∧ 256 ≤ a.toNat + b.toNat then none else some (a + b)

/-- A product of bytes. -/
def mulU8 (checked : Bool) (a b : UInt8) : Option UInt8 :=
  if checked ∧ 256 ≤ a.toNat * b.toNat then none else some (a * b)

/-- The last byte of `ethereum_signature`.  The cast binds tighter than the product. -/
def recoveryByte (checked : Bool) (recId : UInt8) : Option UInt64 → Option UInt8
  | some chain => do
    let base ← addU8 checked recId 35
    let double ← mulU8 checked 2 chain.toUInt8
    addU8 checked base double
  | none => addU8 checked recId 27

/-- `ethereum_signature`, compiled with or without overflow checks. -/
def ethereumSignature (checked : Bool) (rBytes sBytes : List UInt8) (recId : UInt8)
    (chainId : Option UInt64) : Option (List UInt8) := do
  let v ← recoveryByte checked recId chainId
  return rBytes ++ sBytes ++ [v]

/-- What a verifier makes of the last byte: the chain id and the recovery id. -/
def eip155Decode (v : UInt8) : Option (ℕ × ℕ) :=
  if v.toNat < 35 then none else some ((v.toNat - 35) / 2, (v.toNat - 35) % 2)

theorem eip155Decode_eq_some {v : UInt8} {chain recId : ℕ} (hrec : recId ≤ 1) :
    eip155Decode v = some (chain, recId) ↔ v.toNat = 2 * chain + 35 + recId := by
  unfold eip155Decode
  split
  · simp only [reduceCtorEq, false_iff]
    omega
  · rw [Option.some.injEq, Prod.mk.injEq]
    omega

/-- **The last byte** without overflow. -/
theorem recoveryByte_some (checked : Bool) {recId : UInt8} {chain : UInt64}
    (h : 2 * chain.toNat + 35 + recId.toNat ≤ 255) :
    ∃ v, recoveryByte checked recId (some chain) = some v ∧
      v.toNat = 2 * chain.toNat + 35 + recId.toNat := by
  have hchain : chain.toUInt8.toNat = chain.toNat := by
    rw [UInt64.toNat_toUInt8]
    exact Nat.mod_eq_of_lt (by omega)
  have h35 : (35 : UInt8).toNat = 35 := rfl
  have h2 : (2 : UInt8).toNat = 2 := rfl
  have hbase : (recId + 35).toNat = recId.toNat + 35 := by
    rw [UInt8.toNat_add, h35]
    exact Nat.mod_eq_of_lt (by omega)
  have hdouble : (2 * chain.toUInt8).toNat = 2 * chain.toNat := by
    rw [UInt8.toNat_mul, h2, hchain]
    exact Nat.mod_eq_of_lt (by omega)
  have hsum : (recId + 35 + 2 * chain.toUInt8).toNat = 2 * chain.toNat + 35 + recId.toNat := by
    rw [UInt8.toNat_add, hbase, hdouble, Nat.mod_eq_of_lt (by omega)]
    omega
  refine ⟨recId + 35 + 2 * chain.toUInt8, ?_, hsum⟩
  rw [recoveryByte, addU8, if_neg (by rw [h35]; omega)]
  simp only [Option.bind_eq_bind, Option.bind_some]
  rw [mulU8, if_neg (by rw [h2, hchain]; omega), Option.bind_some, addU8,
    if_neg (by rw [hbase, hdouble]; omega)]

/-- **Ethereum.**  For a chain id the encoding gives back the chain id and the recovery id exactly if
    `2 * chain + 35 + rec_id` fits a byte, with overflow checks and without; two such chain ids never
    share the last byte.  Without a chain id the last byte is `27 + rec_id`. -/
theorem ethereumSignature_faithful_iff (checked : Bool) (rBytes sBytes : List UInt8)
    {recId : UInt8} (hrec : recId ≤ 1) :
    (∀ chain : UInt64,
      (∃ v, ethereumSignature checked rBytes sBytes recId (some chain) =
          some (rBytes ++ sBytes ++ [v]) ∧
        eip155Decode v = some (chain.toNat, recId.toNat)) ↔
      2 * chain.toNat + 35 + recId.toNat ≤ 255) ∧
    (∀ (chain chain' : UInt64) (recId' v : UInt8), recId' ≤ 1 →
      2 * chain.toNat + 35 + recId.toNat ≤ 255 → 2 * chain'.toNat + 35 + recId'.toNat ≤ 255 →
      recoveryByte checked recId (some chain) = some v →
      recoveryByte checked recId' (some chain') = some v → chain = chain') ∧
    ∃ v, ethereumSignature checked rBytes sBytes recId none = some (rBytes ++ sBytes ++ [v]) ∧
      v.toNat = 27 + recId.toNat := by
  have hnat : recId.toNat ≤ 1 := UInt8.le_iff_toNat_le.mp hrec
  refine ⟨fun chain => ⟨?_, fun h => ?_⟩, fun chain chain' recId' v hrec' h h' hv hv' => ?_, ?_⟩
  · rintro ⟨v, -, hdecode⟩
    have hv := (eip155Decode_eq_some hnat).mp hdecode
    have hlt := v.toNat_lt
    omega
  · obtain ⟨v, hv, hvalue⟩ := recoveryByte_some checked h
    exact ⟨v, by rw [ethereumSignature, hv]; rfl, (eip155Decode_eq_some hnat).mpr hvalue⟩
  · obtain ⟨w, hw, hvalue⟩ := recoveryByte_some checked h
    obtain ⟨w', hw', hvalue'⟩ := recoveryByte_some checked h'
    obtain rfl := Option.some.inj (hw.symm.trans hv)
    obtain rfl := Option.some.inj (hw'.symm.trans hv')
    have hnat' : recId'.toNat ≤ 1 := UInt8.le_iff_toNat_le.mp hrec'
    exact UInt64.toNat_inj.mp (by omega)
  · have h27 : (27 : UInt8).toNat = 27 := rfl
    refine ⟨recId + 27, ?_, ?_⟩
    · rw [ethereumSignature, recoveryByte, addU8, if_neg (by rw [h27]; omega)]
      rfl
    · rw [UInt8.toNat_add, h27, Nat.mod_eq_of_lt (by omega)]
      omega

/-- The first chain. -/
theorem ethereumSignature_faithful_iff_one :
    (∃ v, ethereumSignature true (toBE 32 5) (toBE 32 6) 1 (some 1) =
        some (toBE 32 5 ++ toBE 32 6 ++ [v]) ∧ eip155Decode v = some ((1 : UInt64).toNat, 1)) ↔
      2 * (1 : UInt64).toNat + 35 + 1 ≤ 255 :=
  (ethereumSignature_faithful_iff true (toBE 32 5) (toBE 32 6)
    (show (1 : UInt8) ≤ 1 by decide)).1 1

/-- The chain `257` is encoded as the chain `1`; the chain `110` panics or wraps around. -/
theorem ethereumSignature_not_faithful :
    (∀ checked, ethereumSignature checked (toBE 32 5) (toBE 32 6) 0 (some 257) =
      ethereumSignature checked (toBE 32 5) (toBE 32 6) 0 (some 1)) ∧
    ethereumSignature true (toBE 32 5) (toBE 32 6) 1 (some 110) = none ∧
    ethereumSignature false (toBE 32 5) (toBE 32 6) 1 (some 110) =
      some (toBE 32 5 ++ toBE 32 6 ++ [0]) := by
  decide

end Govis.Lindell
