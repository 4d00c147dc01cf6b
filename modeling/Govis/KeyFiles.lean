import Govis.Cggmp21.Keygen
import Govis.Framing.Layout
import Govis.Lindell.Dkg
import Govis.SmallCurve

namespace Govis

open Bytes Curve Framing

/-!
# Key files

The key data of both protocols and the header that `main.rs` reads first.  All of them are written
by `bincode`: fields in the order of their declaration, lengths in eight bytes and indices in two,
least significant byte first; trailing bytes are ignored.

* `PointDecoder` — `Point::from_bytes`, which comes from outside the repository;
* `keyFiles_roundTrip` — what is saved is loaded again, and the header is a prefix of it;
* `fromKeyData_canonical_iff` — the key data that loading and saving does not change;
* `fromKeyData_not_canonical` — key data that loads as something else.
-/

variable {C : Curve}

/-! ### Points and scalars -/

/-- `Point::from_bytes`: it accepts the compressed and the uncompressed encoding of a point.  Whether
    it accepts the encodings of the identity is left open; it takes them for no other point. -/
structure PointDecoder (C : Curve) where
  fromBytes : List UInt8 → Option C.Point
  fromBytes_toBytes : ∀ {P : C.Point}, P ≠ 0 → ∀ compressed,
    fromBytes (toBytes compressed P) = some P
  fromBytes_identity : ∀ {P : C.Point} {compressed},
    fromBytes (toBytes compressed (0 : C.Point)) = some P → P = 0

/-- What the compressed encoding of a point is taken for, if for anything. -/
theorem PointDecoder.eq_of_fromBytes (D : PointDecoder C) {P Q : C.Point}
    (h : D.fromBytes (toBytes true P) = some Q) : Q = P := by
  by_cases hP : P = 0
  · rw [hP] at h ⊢
    exact D.fromBytes_identity h
  · rw [D.fromBytes_toBytes hP] at h
    exact (Option.some.inj h).symm

/-- A share in the form in which it is saved, of a point likewise. -/
structure Canonical (C : Curve) (share publicKey : List UInt8) : Prop where
  length_eq : share.length = 32
  lt_order : ofBE share < C.q
  compressed : ∃ P : C.Point, publicKey = toBytes true P

/-- Reducing a share and writing it again changes nothing exactly if it is 32 bytes below the
    order. -/
theorem toBeBytes_fromBeBytesModOrder (share : List UInt8) :
    toBeBytes (fromBeBytesModOrder C share) = share ↔ share.length = 32 ∧ ofBE share < C.q := by
  constructor
  · intro h
    refine ⟨by rw [← h, length_toBeBytes], ?_⟩
    rw [← h, ofBE_toBeBytes]
    exact ZMod.val_lt _
  · rintro ⟨hlen, hlt⟩
    rw [toBeBytes, fromBeBytesModOrder, ZMod.val_cast_of_lt hlt, ← hlen, toBE_ofBE]

/-- What `from_key_data` of both protocols does with the fields; none for a panic. -/
def loadKey (D : PointDecoder C) (name protocol : String) (share publicKey : List UInt8) :
    Option (C.Scalar × C.Point) := do
  if protocol ≠ name then none
  else
    let P ← D.fromBytes publicKey
    return (fromBeBytesModOrder C share, P)

/-- **Loading and saving** changes nothing exactly on canonical fields. -/
theorem loadKey_canonical_iff (D : PointDecoder C) (name protocol : String)
    (share publicKey : List UInt8) :
    (∀ s P, loadKey D name protocol share publicKey = some (s, P) →
      name = protocol ∧ toBeBytes s = share ∧ toBytes true P = publicKey) ↔
    (protocol = name → (D.fromBytes publicKey).isSome → Canonical C share publicKey) := by
  unfold loadKey
  by_cases hname : protocol = name
  · subst hname
    cases hP : D.fromBytes publicKey with
    | none => simp
    | some P =>
      simp only [ne_eq, not_true_eq_false, if_false, Option.bind_eq_bind, Option.bind_some,
        Option.pure_def, Option.some.injEq, Prod.mk.injEq, Option.isSome_some, forall_const,
        true_and]
      constructor
      · intro h
        obtain ⟨hshare, hpub⟩ := h _ _ ⟨rfl, rfl⟩
        obtain ⟨hlen, hlt⟩ := (toBeBytes_fromBeBytesModOrder share).mp hshare
        exact ⟨hlen, hlt, P, hpub.symm⟩
      · rintro ⟨hlen, hlt, Q, rfl⟩ s P' ⟨rfl, rfl⟩
        rw [D.eq_of_fromBytes hP]
        exact ⟨(toBeBytes_fromBeBytesModOrder share).mpr ⟨hlen, hlt⟩, rfl⟩
  · simp [hname]

/-! ### The records -/

/-- The fields of `KeyFileHeader`. -/
structure KeyFileHeader where
  protocol : String
  partyIndex : UInt16
deriving DecidableEq, Repr

namespace Lindell

/-- Persistable Lindell key data. -/
structure LindellKeyData where
  protocol : String
  partyIndex : UInt16
  secretShare : List UInt8
  publicKey : List UInt8
deriving DecidableEq, Repr

/-- `LindellDkgOutput::to_key_data`. -/
def LindellDkgOutput.toKeyData (out : LindellDkgOutput C) (partyIndex : UInt16) : LindellKeyData where
  protocol := "lindell"
  partyIndex
  secretShare := toBeBytes out.secretShare
  publicKey := toBytes true out.publicKey

/-- `LindellDkgOutput::from_key_data`. -/
def LindellDkgOutput.fromKeyData (D : PointDecoder C) (data : LindellKeyData) :
    Option (LindellDkgOutput C) :=
  (loadKey D "lindell" data.protocol data.secretShare data.publicKey).map fun e => ⟨e.1, e.2⟩

end Lindell

namespace Cggmp21

/-- Persistable CGGMP21 key data: only the EC share and public key. -/
structure Cggmp21KeyData where
  protocol : String
  partyIndex : UInt16
  ecShare : List UInt8
  publicKey : List UInt8
deriving DecidableEq, Repr

/-- `Cggmp21KeygenOutput::to_key_data`. -/
def Cggmp21KeygenOutput.toKeyData (out : Cggmp21KeygenOutput C) (partyIndex : UInt16) :
    Cggmp21KeyData where
  protocol := "cggmp21"
  partyIndex
  ecShare := toBeBytes out.ecShare
  publicKey := toBytes true out.publicKey

/-- `Cggmp21KeygenOutput::from_key_data`, with the fresh keypair it generates. -/
def Cggmp21KeygenOutput.fromKeyData (D : PointDecoder C) (kp : PaillierKeypair)
    (data : Cggmp21KeyData) : Option (Cggmp21KeygenOutput C) :=
  (loadKey D "cggmp21" data.protocol data.ecShare data.publicKey).map fun e =>
    ⟨e.1, e.2, kp.sk, kp.pk, []⟩

end Cggmp21

open Lindell Cggmp21

/-! ### Layouts -/

def KeyFileHeader.layout : Layout KeyFileHeader :=
  ((Layout.string 8).seq Layout.u16).refine (fun h => (h.protocol, h.partyIndex))
    (fun e => some ⟨e.1, e.2⟩) fun _ => rfl

/-- The fields that the key data of both protocols have, in their order. -/
def keyFields : Layout (String × UInt16 × List UInt8 × List UInt8) :=
  (Layout.string 8).seq (Layout.u16.seq ((Layout.bytes 8).seq (Layout.bytes 8)))

def LindellKeyData.layout : Layout LindellKeyData :=
  keyFields.refine (fun d => (d.protocol, d.partyIndex, d.secretShare, d.publicKey))
    (fun e => some ⟨e.1, e.2.1, e.2.2.1, e.2.2.2⟩) fun _ => rfl

def Cggmp21KeyData.layout : Layout Cggmp21KeyData :=
  keyFields.refine (fun d => (d.protocol, d.partyIndex, d.ecShare, d.publicKey))
    (fun e => some ⟨e.1, e.2.1, e.2.2.1, e.2.2.2⟩) fun _ => rfl

/-- **The header** is the beginning of the key data. -/
theorem deserialize_header {e : String × UInt16 × List UInt8 × List UInt8} (h : keyFields.Fits e) :
    KeyFileHeader.layout.deserialize (keyFields.write e) = some ⟨e.1, e.2.1⟩ := by
  have hsplit : keyFields.write e = KeyFileHeader.layout.write ⟨e.1, e.2.1⟩ ++
      ((Layout.bytes 8).write e.2.2.1 ++ (Layout.bytes 8).write e.2.2.2) :=
    (List.append_assoc _ _ _).symm
  rw [hsplit, Layout.deserialize_write_append]
  exact ⟨h.1, h.2.1⟩

/-- What is saved fits: the name is short, a share has 32 bytes and a key 33. -/
theorem fits_keyFields {name : String} (hname : name.utf8ByteSize < 256 ^ 8) (i : UInt16)
    (s : C.Scalar) (P : C.Point) : keyFields.Fits (name, i, toBeBytes s, toBytes true P) := by
  refine ⟨?_, Layout.fits_u16 i, ?_, ?_⟩
  · show (Layout.utf8 name).length < 256 ^ 8
    rwa [Layout.utf8, Array.length_toList, ← ByteArray.size, String.size_toByteArray]
  · show (toBeBytes s).length < 256 ^ 8
    rw [length_toBeBytes]
    norm_num
  · show (toBytes true P).length < 256 ^ 8
    rw [length_toBytes_true]
    norm_num

/-- A key is loaded as it was saved. -/
theorem loadKey_save (D : PointDecoder C) (name : String) (s : C.Scalar) {P : C.Point}
    (hP : P ≠ 0) : loadKey D name name (toBeBytes s) (toBytes true P) = some (s, P) := by
  simp [loadKey, D.fromBytes_toBytes hP]

/-- A saved key is not loaded as another one. -/
theorem eq_of_loadKey_save {D : PointDecoder C} {name : String} {s s' : C.Scalar} {P P' : C.Point}
    (h : loadKey D name name (toBeBytes s) (toBytes true P) = some (s', P')) : s' = s ∧ P' = P := by
  simp only [loadKey, ne_eq, not_true_eq_false, if_false, Option.bind_eq_bind, Option.pure_def,
    Option.bind_eq_some_iff, Option.some.injEq, Prod.mk.injEq] at h
  obtain ⟨Q, hQ, rfl, rfl⟩ := h
  exact ⟨fromBeBytesModOrder_toBeBytes s, D.eq_of_fromBytes hQ⟩

/-- **Key files round-trip**, for both protocols, and their header can be read from them. -/
theorem keyFiles_roundTrip (D : PointDecoder C) (partyIndex : UInt16) :
    (∀ out : LindellDkgOutput C, out.publicKey ≠ 0 →
      (LindellKeyData.layout.deserialize (LindellKeyData.layout.write
        (out.toKeyData partyIndex))).bind (LindellDkgOutput.fromKeyData D) = some out ∧
      KeyFileHeader.layout.deserialize (LindellKeyData.layout.write (out.toKeyData partyIndex)) =
        some ⟨"lindell", partyIndex⟩) ∧
    ∀ (out : Cggmp21KeygenOutput C) (kp : PaillierKeypair), out.publicKey ≠ 0 →
      (∃ loaded, (Cggmp21KeyData.layout.deserialize (Cggmp21KeyData.layout.write
          (out.toKeyData partyIndex))).bind (Cggmp21KeygenOutput.fromKeyData D kp) = some loaded ∧
        loaded.ecShare = out.ecShare ∧ loaded.publicKey = out.publicKey) ∧
      KeyFileHeader.layout.deserialize (Cggmp21KeyData.layout.write (out.toKeyData partyIndex)) =
        some ⟨"cggmp21", partyIndex⟩ := by
  constructor
  · intro out hout
    have hname : "lindell".utf8ByteSize < 256 ^ 8 := by decide
    have hfits : LindellKeyData.layout.Fits (out.toKeyData partyIndex) := fits_keyFields hname ..
    refine ⟨?_, deserialize_header hfits⟩
    rw [Layout.deserialize_write _ hfits, Option.bind_some, LindellDkgOutput.fromKeyData,
      LindellDkgOutput.toKeyData, loadKey_save D _ _ hout]
    rfl
  · intro out kp hout
    have hname : "cggmp21".utf8ByteSize < 256 ^ 8 := by decide
    have hfits : Cggmp21KeyData.layout.Fits (out.toKeyData partyIndex) := fits_keyFields hname ..
    refine ⟨⟨⟨out.ecShare, out.publicKey, kp.sk, kp.pk, []⟩, ?_, rfl, rfl⟩,
      deserialize_header hfits⟩
    rw [Layout.deserialize_write _ hfits, Option.bind_some, Cggmp21KeygenOutput.fromKeyData,
      Cggmp21KeygenOutput.toKeyData, loadKey_save D _ _ hout]
    rfl

/-- **Key data that survives.**  Loading key data and saving it again changes nothing exactly if
    loading panics, or the share has 32 bytes and is below the order and the key is compressed. -/
theorem fromKeyData_canonical_iff (D : PointDecoder C) :
    (∀ d : LindellKeyData,
      (∀ out, LindellDkgOutput.fromKeyData D d = some out → out.toKeyData d.partyIndex = d) ↔
        (d.protocol = "lindell" → (D.fromBytes d.publicKey).isSome →
          Canonical C d.secretShare d.publicKey)) ∧
    ∀ (d : Cggmp21KeyData) (kp : PaillierKeypair),
      (∀ out, Cggmp21KeygenOutput.fromKeyData D kp d = some out →
        out.toKeyData d.partyIndex = d) ↔
        (d.protocol = "cggmp21" → (D.fromBytes d.publicKey).isSome →
          Canonical C d.ecShare d.publicKey) := by
  constructor
  · rintro ⟨protocol, i, share, publicKey⟩
    rw [← loadKey_canonical_iff]
    simp only [LindellDkgOutput.fromKeyData, Option.map_eq_some_iff, Prod.exists]
    constructor
    · intro h s P hload
      have hsame := h _ ⟨s, P, hload, rfl⟩
      simpa [LindellDkgOutput.toKeyData] using hsame
    · rintro h out ⟨s, P, hload, rfl⟩
      obtain ⟨rfl, rfl, rfl⟩ := h s P hload
      rfl
  · rintro ⟨protocol, i, share, publicKey⟩ kp
    rw [← loadKey_canonical_iff]
    simp only [Cggmp21KeygenOutput.fromKeyData, Option.map_eq_some_iff, Prod.exists]
    constructor
    · intro h s P hload
      have hsame := h _ ⟨s, P, hload, rfl⟩
      simpa [Cggmp21KeygenOutput.toKeyData] using hsame
    · rintro h out ⟨s, P, hload, rfl⟩
      obtain ⟨rfl, rfl, rfl⟩ := h s P hload
      rfl

/-! ### A decoder -/

theorem length_toBytes_false (P : C.Point) : (toBytes false P).length = 65 := by
  unfold toBytes
  cases C.coords P with
  | none => simp
  | some e => simp

/-- **Uncompressed encodings** determine their points. -/
theorem toBytes_false_injective : Function.Injective (toBytes false : C.Point → List UInt8) := by
  have hp : C.p ≤ 256 ^ 32 := le_trans C.p_le (by norm_num)
  have hne : ∀ l : List UInt8, 4 :: l ≠ List.replicate 65 0 := by
    intro l h
    exact absurd (List.head_eq_of_cons_eq h) (by decide)
  intro P Q h
  apply C.coords_injective
  cases hP : C.coords P with
  | none =>
    cases hQ : C.coords Q with
    | none => rfl
    | some e =>
      simp only [toBytes, hP, hQ] at h
      exact absurd h.symm (hne _)
  | some e =>
    obtain ⟨x, y⟩ := e
    cases hQ : C.coords Q with
    | none =>
      simp only [toBytes, hP, hQ] at h
      exact absurd h (hne _)
    | some e' =>
      obtain ⟨x', y'⟩ := e'
      simp only [toBytes, hP, hQ, List.cons.injEq, true_and] at h
      obtain ⟨hx, hy⟩ := C.coords_lt P x y hP
      obtain ⟨hx', hy'⟩ := C.coords_lt Q x' y' hQ
      obtain ⟨hxx, hyy⟩ := List.append_inj h (by rw [length_toBE, length_toBE])
      rw [toBE_injOn 32 (lt_of_lt_of_le hx hp) (lt_of_lt_of_le hx' hp) hxx,
        toBE_injOn 32 (lt_of_lt_of_le hy hp) (lt_of_lt_of_le hy' hp) hyy]

/-- The two encodings have different lengths. -/
theorem eq_of_toBytes_eq {P Q : C.Point} {compressed compressed' : Bool}
    (h : toBytes compressed P = toBytes compressed' Q) : P = Q := by
  have hlen := congrArg List.length h
  cases compressed with
  | true =>
    cases compressed' with
    | true => exact toBytes_true_injective h
    | false => rw [length_toBytes_true, length_toBytes_false] at hlen; omega
  | false =>
    cases compressed' with
    | true => rw [length_toBytes_true, length_toBytes_false] at hlen; omega
    | false => exact toBytes_false_injective h

/-- The decoder that looks among some candidates, and does not accept the identity. -/
def PointDecoder.search (candidates : List UInt8 → List C.Point)
    (hmem : ∀ {P : C.Point}, P ≠ 0 → ∀ compressed, P ∈ candidates (toBytes compressed P)) :
    PointDecoder C where
  fromBytes b := (candidates b).find? fun P => P ≠ 0 ∧ (toBytes true P = b ∨ toBytes false P = b)
  fromBytes_toBytes {P} hP compressed := by
    cases hfind : (candidates (toBytes compressed P)).find? fun Q =>
        Q ≠ 0 ∧ (toBytes true Q = toBytes compressed P ∨
          toBytes false Q = toBytes compressed P) with
    | none =>
      have hnot := List.find?_eq_none.mp hfind P (hmem hP compressed)
      cases compressed <;> simp [hP] at hnot
    | some Q =>
      have hQ := List.find?_some hfind
      simp only [ne_eq, decide_eq_true_eq] at hQ
      rcases hQ.2 with h | h <;> rw [eq_of_toBytes_eq h]
  fromBytes_identity {P} {compressed} h := by
    have hP := List.find?_some h
    simp only [ne_eq, decide_eq_true_eq] at hP
    rcases hP.2 with h | h <;> exact absurd (eq_of_toBytes_eq h) hP.1

/-- Both encodings have the first coordinate in the same place. -/
theorem ofBE_take_toBytes {P : C.Point} {x y : ℕ} (h : C.coords P = some (x, y))
    (compressed : Bool) : ofBE (((toBytes compressed P).drop 1).take 32) = x := by
  have hx : x < 256 ^ 32 :=
    lt_of_lt_of_le (C.coords_lt P x y h).1 (le_trans C.p_le (by norm_num))
  have htake : ((toBytes compressed P).drop 1).take 32 = toBE 32 x := by
    cases compressed with
    | true =>
      simp only [toBytes, h, List.drop_succ_cons, List.drop_zero]
      exact List.take_of_length_le (length_toBE 32 x).le
    | false =>
      simp only [toBytes, h, List.drop_succ_cons, List.drop_zero]
      exact List.take_left' (length_toBE 32 x)
  rw [htake, ofBE_toBE hx]

/-- The points of the small curve with a first coordinate. -/
def smallCandidates (b : List UInt8) : List (ZMod 65537) :=
  [((ofBE ((b.drop 1).take 32) : ℕ) : ZMod 65537), -((ofBE ((b.drop 1).take 32) : ℕ) : ZMod 65537)]

theorem mem_smallCandidates {P : ZMod 65537} (hP : P ≠ 0) (compressed : Bool) :
    P ∈ smallCandidates (toBytes (C := smallCurve) compressed P) := by
  have hcoords : smallCurve.coords P = some (min P.val (65537 - P.val), P.val) := if_neg hP
  have hlt := ZMod.val_lt P
  rw [smallCandidates, ofBE_take_toBytes hcoords, List.mem_pair]
  rcases le_total P.val (65537 - P.val) with h | h
  · rw [min_eq_left h, ZMod.natCast_zmod_val]
    exact .inl rfl
  · right
    rw [min_eq_right h, Nat.cast_sub hlt.le, ZMod.natCast_zmod_val, ZMod.natCast_self, zero_sub,
      neg_neg]

/-- The decoder of the small curve. -/
def smallDecoder : PointDecoder smallCurve := .search smallCandidates mem_smallCandidates

/-- Party `3` saves the share `5` and the key `7`. -/
theorem keyFiles_roundTrip_seven :
    (LindellKeyData.layout.deserialize (LindellKeyData.layout.write
      (LindellDkgOutput.toKeyData (⟨5, (7 : ZMod 65537)⟩ : LindellDkgOutput smallCurve) 3))).bind
        (LindellDkgOutput.fromKeyData smallDecoder) = some ⟨5, (7 : ZMod 65537)⟩ :=
  (((keyFiles_roundTrip smallDecoder 3).1 ⟨5, (7 : ZMod 65537)⟩) (by decide)).1

/-- The saved form of the generator. -/
def savedGenerator : List UInt8 := toBytes true smallCurve.generator

/-- A share below the order and a compressed key survive. -/
theorem fromKeyData_canonical_iff_generator :
    ∀ out, LindellDkgOutput.fromKeyData smallDecoder ⟨"lindell", 3, toBE 32 5, savedGenerator⟩ =
      some out → out.toKeyData 3 = ⟨"lindell", 3, toBE 32 5, savedGenerator⟩ :=
  ((fromKeyData_canonical_iff smallDecoder).1 ⟨"lindell", 3, toBE 32 5, savedGenerator⟩).mpr
    fun _ _ => ⟨length_toBE 32 5, by decide, smallCurve.generator, rfl⟩

/-- A truncated share, one that is too long, one out of range and an uncompressed key: all of them
    load, and are saved as something else. -/
theorem fromKeyData_not_canonical :
    ((LindellDkgOutput.fromKeyData smallDecoder ⟨"lindell", 0, [5], savedGenerator⟩).map
        (·.toKeyData 0) = some ⟨"lindell", 0, toBE 32 5, savedGenerator⟩ ∧
      (LindellDkgOutput.fromKeyData smallDecoder ⟨"lindell", 0, 0 :: toBE 32 5, savedGenerator⟩).map
        (·.toKeyData 0) = some ⟨"lindell", 0, toBE 32 5, savedGenerator⟩ ∧
      (LindellDkgOutput.fromKeyData smallDecoder ⟨"lindell", 0, toBE 32 65542, savedGenerator⟩).map
        (·.toKeyData 0) = some ⟨"lindell", 0, toBE 32 5, savedGenerator⟩ ∧
      (LindellDkgOutput.fromKeyData smallDecoder
          ⟨"lindell", 0, toBE 32 5, toBytes false smallCurve.generator⟩).map (·.toKeyData 0) =
        some ⟨"lindell", 0, toBE 32 5, savedGenerator⟩) ∧
    ¬ ∀ d out, LindellDkgOutput.fromKeyData smallDecoder d = some out →
      out.toKeyData d.partyIndex = d := by
  refine ⟨⟨by decide +kernel, by decide +kernel, by decide +kernel, by decide +kernel⟩,
    fun h => ?_⟩
  have hload : LindellDkgOutput.fromKeyData smallDecoder ⟨"lindell", 0, [5], savedGenerator⟩ =
      some ⟨5, smallCurve.generator⟩ := by
    simp [LindellDkgOutput.fromKeyData, loadKey, savedGenerator,
      smallDecoder.fromBytes_toBytes smallCurve.generator_ne_zero, fromBeBytesModOrder, ofBE]
  have hlen := congrArg (fun d => d.secretShare.length) (h _ _ hload)
  simp [LindellDkgOutput.toKeyData] at hlen

end Govis
