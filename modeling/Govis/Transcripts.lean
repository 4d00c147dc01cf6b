import Govis.Framing.Fields
import Govis.PaillierZk
import Govis.SmallCurve

namespace Govis

open Bytes Curve Framing

/-!
# What the hash inputs determine

The challenges and the commitments hash fields that are written one after the other: session ids
and numbers without their lengths, and integers without their signs.

* `rangeFields`, `mulFields`, `pointFields`, `schnorrFields`, `blumFields` — the fields, and
  `rangeChallenge_eq` and its companions, that they are what the challenges hash;
* `transcripts_determine` — **the challenges**: aligned fields are determined up to signs, and those
  of the Schnorr challenge always;
* `commitmentInput_eq_iff` — **the commitments**: exactly when two of them hash the same bytes.
-/

variable {C : Curve}

/-! ### Fields -/

def rangeFields (sid : List UInt8) (n g ell : ℕ) (c cAlpha : ℤ) : List (List UInt8) :=
  [ascii "govis-paillier-range", sid, minBE n, minBE g, toBE 8 ell, magnitude c, magnitude cAlpha]

def mulFields (sid : List UInt8) (n g : ℕ) (cIn cOut cT : ℤ) : List (List UInt8) :=
  [ascii "govis-paillier-mul", sid, minBE n, minBE g, magnitude cIn, magnitude cOut, magnitude cT]

/-- The fields of the consistency and the discrete-log challenge, which differ in their tag. -/
def pointFields (tag : String) (sid : List UInt8) (n g : ℕ) (c : ℤ) (point a : C.Point)
    (cAlpha : ℤ) : List (List UInt8) :=
  [ascii tag, sid, minBE n, minBE g, magnitude c, toBytes true point, toBytes true a,
    magnitude cAlpha]

def consistencyFields (sid : List UInt8) (n g : ℕ) (c : ℤ) (rPoint a : C.Point) (cAlpha : ℤ) :
    List (List UInt8) :=
  pointFields "govis-paillier-ec-consistency" sid n g c rPoint a cAlpha

def logFields (sid : List UInt8) (n g : ℕ) (c : ℤ) (pub a : C.Point) (cAlpha : ℤ) :
    List (List UInt8) :=
  pointFields "govis-paillier-log" sid n g c pub a cAlpha

def schnorrFields (a pub : C.Point) (sid : List UInt8) : List (List UInt8) :=
  [ascii "govis-schnorr", sid, toBytes true a, toBytes true pub]

def blumFields (sid : List UInt8) (n iteration : ℕ) : List (List UInt8) :=
  [ascii "govis-blum", sid, minBE n, toBE 8 iteration]

section Absorbed

variable (H : Hash) (sid : List UInt8) (n g : ℕ)

theorem rangeChallenge_eq (ell : ℕ) (c cAlpha : ℤ) :
    rangeChallenge H sid n g ell c cAlpha =
      challenge H (rangeFields sid n g ell c cAlpha).flatten := by
  simp [rangeChallenge, rangeFields]

theorem mulChallenge_eq (cIn cOut cT : ℤ) :
    mulChallenge H sid n g cIn cOut cT = challenge H (mulFields sid n g cIn cOut cT).flatten := by
  simp [mulChallenge, mulFields]

theorem consistencyChallenge_eq (c : ℤ) (rPoint a : C.Point) (cAlpha : ℤ) :
    consistencyChallenge H sid n g c rPoint a cAlpha =
      challenge H (consistencyFields sid n g c rPoint a cAlpha).flatten := by
  simp [consistencyChallenge, consistencyFields, pointFields]

theorem logChallenge_eq (c : ℤ) (pub a : C.Point) (cAlpha : ℤ) :
    logChallenge H sid n g c pub a cAlpha =
      challenge H (logFields sid n g c pub a cAlpha).flatten := by
  simp [logChallenge, logFields, pointFields]

theorem schnorrChallenge_eq (a pub : C.Point) :
    schnorrChallenge H a pub sid =
      fromBeBytesModOrder C (H (schnorrFields a pub sid).flatten).toList := by
  simp [schnorrChallenge, schnorrFields]

theorem blumChallenge_eq (iteration : ℕ) :
    blumChallenge H sid n iteration = challenge H (blumFields sid n iteration).flatten := by
  simp [blumChallenge, blumFields]

end Absorbed

/-! ### The challenges -/

theorem minBE_injective : Function.Injective minBE := by
  intro x y h
  rw [← ofBE_minBE x, h, ofBE_minBE]

/-- An integer is written without its sign. -/
theorem magnitude_eq_iff {x y : ℤ} : magnitude x = magnitude y ↔ x.natAbs = y.natAbs :=
  minBE_injective.eq_iff

/-- A number that fits a word of 8 bytes. -/
theorem toBE_eight_eq_iff {x y : ℕ} (hx : x < 2 ^ 64) (hy : y < 2 ^ 64) :
    toBE 8 x = toBE 8 y ↔ x = y :=
  (toBE_injOn 8).eq_iff (show x < 256 ^ 8 by omega) (show y < 256 ^ 8 by omega)

/-- **The fields of the point proofs.** -/
theorem pointFields_determine {tag : String} {sid sid' : List UInt8} {n n' g g' : ℕ}
    {c c' cAlpha cAlpha' : ℤ} {point point' a a' : C.Point}
    (haligned : AlignedButOne (pointFields tag sid n g c point a cAlpha)
      (pointFields tag sid' n' g' c' point' a' cAlpha')) :
    (pointFields tag sid n g c point a cAlpha).flatten =
        (pointFields tag sid' n' g' c' point' a' cAlpha').flatten ↔
      sid = sid' ∧ n = n' ∧ g = g' ∧ c.natAbs = c'.natAbs ∧ point = point' ∧ a = a' ∧
        cAlpha.natAbs = cAlpha'.natAbs := by
  rw [haligned.flatten_eq_iff]
  simp only [pointFields, List.cons.injEq, minBE_injective.eq_iff,
    magnitude_eq_iff, toBytes_true_injective.eq_iff, true_and, and_true]

/-- **What the challenges determine.**  Two tuples of arguments whose fields agree in their lengths,
    except perhaps for one field, give the same bytes exactly if they agree up to the signs of the
    integers.  The bytes of the Schnorr challenge determine its arguments. -/
theorem transcripts_determine (C : Curve) :
    (∀ (sid sid' : List UInt8) (n n' g g' ell ell' : ℕ) (c c' cAlpha cAlpha' : ℤ),
      ell < 2 ^ 64 → ell' < 2 ^ 64 →
      AlignedButOne (rangeFields sid n g ell c cAlpha)
        (rangeFields sid' n' g' ell' c' cAlpha') →
      ((rangeFields sid n g ell c cAlpha).flatten =
          (rangeFields sid' n' g' ell' c' cAlpha').flatten ↔
        sid = sid' ∧ n = n' ∧ g = g' ∧ ell = ell' ∧ c.natAbs = c'.natAbs ∧
          cAlpha.natAbs = cAlpha'.natAbs)) ∧
    (∀ (sid sid' : List UInt8) (n n' g g' : ℕ) (cIn cIn' cOut cOut' cT cT' : ℤ),
      AlignedButOne (mulFields sid n g cIn cOut cT) (mulFields sid' n' g' cIn' cOut' cT') →
      ((mulFields sid n g cIn cOut cT).flatten =
          (mulFields sid' n' g' cIn' cOut' cT').flatten ↔
        sid = sid' ∧ n = n' ∧ g = g' ∧ cIn.natAbs = cIn'.natAbs ∧ cOut.natAbs = cOut'.natAbs ∧
          cT.natAbs = cT'.natAbs)) ∧
    (∀ (sid sid' : List UInt8) (n n' g g' : ℕ) (c c' : ℤ) (rPoint rPoint' a a' : C.Point)
      (cAlpha cAlpha' : ℤ),
      AlignedButOne (consistencyFields sid n g c rPoint a cAlpha)
        (consistencyFields sid' n' g' c' rPoint' a' cAlpha') →
      ((consistencyFields sid n g c rPoint a cAlpha).flatten =
          (consistencyFields sid' n' g' c' rPoint' a' cAlpha').flatten ↔
        sid = sid' ∧ n = n' ∧ g = g' ∧ c.natAbs = c'.natAbs ∧ rPoint = rPoint' ∧ a = a' ∧
          cAlpha.natAbs = cAlpha'.natAbs)) ∧
    (∀ (sid sid' : List UInt8) (n n' g g' : ℕ) (c c' : ℤ) (pub pub' a a' : C.Point)
      (cAlpha cAlpha' : ℤ),
      AlignedButOne (logFields sid n g c pub a cAlpha)
        (logFields sid' n' g' c' pub' a' cAlpha') →
      ((logFields sid n g c pub a cAlpha).flatten =
          (logFields sid' n' g' c' pub' a' cAlpha').flatten ↔
        sid = sid' ∧ n = n' ∧ g = g' ∧ c.natAbs = c'.natAbs ∧ pub = pub' ∧ a = a' ∧
          cAlpha.natAbs = cAlpha'.natAbs)) ∧
    (∀ (a a' pub pub' : C.Point) (sid sid' : List UInt8),
      (schnorrFields a pub sid).flatten = (schnorrFields a' pub' sid').flatten ↔
        sid = sid' ∧ a = a' ∧ pub = pub') ∧
    ∀ (sid sid' : List UInt8) (n n' iteration iteration' : ℕ),
      iteration < 2 ^ 64 → iteration' < 2 ^ 64 →
      AlignedButOne (blumFields sid n iteration) (blumFields sid' n' iteration') →
      ((blumFields sid n iteration).flatten = (blumFields sid' n' iteration').flatten ↔
        sid = sid' ∧ n = n' ∧ iteration = iteration') := by
  refine ⟨?_, ?_, ?_, ?_, ?_, ?_⟩
  · intro sid sid' n n' g g' ell ell' c c' cAlpha cAlpha' hell hell' haligned
    rw [haligned.flatten_eq_iff]
    simp only [rangeFields, List.cons.injEq, minBE_injective.eq_iff,
      magnitude_eq_iff, toBE_eight_eq_iff hell hell', true_and, and_true]
  · intro sid sid' n n' g g' cIn cIn' cOut cOut' cT cT' haligned
    rw [haligned.flatten_eq_iff]
    simp only [mulFields, List.cons.injEq, minBE_injective.eq_iff,
      magnitude_eq_iff, true_and, and_true]
  · intro sid sid' n n' g g' c c' rPoint rPoint' a a' cAlpha cAlpha' haligned
    exact pointFields_determine haligned
  · intro sid sid' n n' g g' c c' pub pub' a a' cAlpha cAlpha' haligned
    exact pointFields_determine haligned
  · intro a a' pub pub' sid sid'
    -- only the session id has no fixed length
    have haligned : AlignedButOne (schnorrFields a pub sid) (schnorrFields a' pub' sid') := by
      refine ⟨rfl, 1, ?_⟩
      simp [schnorrFields]
    rw [haligned.flatten_eq_iff]
    simp only [schnorrFields, List.cons.injEq,
      toBytes_true_injective.eq_iff, true_and, and_true]
  · intro sid sid' n n' iteration iteration' hi hi' haligned
    rw [haligned.flatten_eq_iff]
    simp only [blumFields, List.cons.injEq, minBE_injective.eq_iff,
      toBE_eight_eq_iff hi hi', true_and, and_true]

/-- A byte moves from the number to the session id. -/
theorem minBE_258 : minBE 258 = [1] ++ minBE 2 := by
  norm_num [minBE]

/-- **Different arguments, the same bytes**: with the session ids `[]` and `[1]` and the moduli 258
    and 2, and with an integer and its negative. -/
theorem transcripts_collide :
    (rangeFields [] 258 3 8 5 7).flatten = (rangeFields [1] 2 3 8 5 7).flatten ∧
    (rangeFields [] 258 3 8 5 7).flatten = (rangeFields [] 258 3 8 (-5) 7).flatten ∧
    (mulFields [] 258 3 5 7 9).flatten = (mulFields [1] 2 3 5 7 9).flatten ∧
    (mulFields [] 258 3 5 7 9).flatten = (mulFields [] 258 3 (-5) 7 9).flatten ∧
    (consistencyFields [] 258 3 5 smallCurve.generator smallCurve.generator 7).flatten =
      (consistencyFields [1] 2 3 5 smallCurve.generator smallCurve.generator 7).flatten ∧
    (consistencyFields [] 258 3 5 smallCurve.generator smallCurve.generator 7).flatten =
      (consistencyFields [] 258 3 (-5) smallCurve.generator smallCurve.generator 7).flatten ∧
    (logFields [] 258 3 5 smallCurve.generator smallCurve.generator 7).flatten =
      (logFields [1] 2 3 5 smallCurve.generator smallCurve.generator 7).flatten ∧
    (logFields [] 258 3 5 smallCurve.generator smallCurve.generator 7).flatten =
      (logFields [] 258 3 (-5) smallCurve.generator smallCurve.generator 7).flatten ∧
    (blumFields [] 258 0).flatten = (blumFields [1] 2 0).flatten := by
  simp [rangeFields, mulFields, consistencyFields, logFields, pointFields, blumFields, magnitude,
    minBE_258]

/-- Range challenges whose session ids have one length. -/
theorem transcripts_determine_aligned :
    (rangeFields [1] 77 78 8 5 7).flatten = (rangeFields [1] 77 78 8 (-5) 7).flatten ∧
      (rangeFields [1] 77 78 8 5 7).flatten ≠ (rangeFields [2] 77 78 8 5 7).flatten := by
  have hmain := (transcripts_determine smallCurve).1
  refine ⟨(hmain [1] [1] 77 77 78 78 8 8 5 (-5) 7 7 (by norm_num) (by norm_num)
    ⟨rfl, 0, rfl⟩).mpr ⟨rfl, rfl, rfl, rfl, rfl, rfl⟩, fun h => ?_⟩
  have hsid := ((hmain [1] [2] 77 77 78 78 8 8 5 5 7 7 (by norm_num) (by norm_num)
    ⟨rfl, 0, rfl⟩).mp h).1
  exact absurd hsid (by decide)

/-! ### The commitments -/

/-- The second input is the first one with the encodings of the points `u` moved from the session id
    and the index to the vector. -/
def ShiftedBy (u : List C.Point) (sid : List UInt8) (partyIndex : ℕ) (v : List C.Point)
    (sid' : List UInt8) (partyIndex' : ℕ) (v' : List C.Point) : Prop :=
  v' = u ++ v ∧
    sid ++ toBE 2 partyIndex = sid' ++ toBE 2 partyIndex' ++ u.flatMap (toBytes true)

section Commitments

variable {sid sid' : List UInt8} {i i' : ℕ} {u v v' : List C.Point}

/-- A shift leaves the bytes as they are. -/
theorem ShiftedBy.commitmentInput_eq (h : ShiftedBy u sid i v sid' i' v') :
    commitmentInput sid i v = commitmentInput sid' i' v' := by
  obtain ⟨rfl, hprefix⟩ := h
  simp only [commitmentInput, List.append_assoc, List.flatMap_append] at hprefix ⊢
  rw [← List.append_assoc sid, hprefix]
  simp only [List.append_assoc]

/-- A shift of points makes the session id shorter and the vector longer. -/
theorem ShiftedBy.length_lt (h : ShiftedBy u sid i v sid' i' v') (hu : u ≠ []) :
    sid'.length < sid.length ∧ v.length < v'.length := by
  obtain ⟨rfl, hprefix⟩ := h
  have hpos := List.length_pos_iff.mpr hu
  have hlen := congrArg List.length hprefix
  rw [List.length_append, List.length_append, List.length_append, length_toBE, length_toBE,
    length_flatMap_of_width length_toBytes_true] at hlen
  rw [List.length_append]
  omega

/-- A shift of no points. -/
theorem shiftedBy_nil_iff (hi : i < 2 ^ 16) (hi' : i' < 2 ^ 16) :
    ShiftedBy [] sid i v sid' i' v' ↔ sid = sid' ∧ i = i' ∧ v = v' := by
  rw [ShiftedBy, List.nil_append, List.flatMap_nil, List.append_nil]
  constructor
  · rintro ⟨rfl, hprefix⟩
    obtain ⟨hsid, hindex⟩ := List.append_inj' hprefix (by rw [length_toBE, length_toBE])
    have hbound : ∀ {k : ℕ}, k < 2 ^ 16 → k < 256 ^ 2 := fun h => lt_of_lt_of_eq h (by norm_num)
    exact ⟨hsid, toBE_injOn 2 (hbound hi) (hbound hi') hindex, rfl⟩
  · rintro ⟨rfl, rfl, rfl⟩
    exact ⟨rfl, rfl⟩

/-- One of two inputs with the same bytes is a shift of the other. -/
theorem exists_shiftedBy (h : commitmentInput sid i v = commitmentInput sid' i' v') :
    (∃ u, ShiftedBy u sid i v sid' i' v') ∨ ∃ u, ShiftedBy u sid' i' v' sid i v := by
  simp only [commitmentInput, List.append_assoc] at h
  rw [← List.append_assoc sid, ← List.append_assoc sid'] at h
  have hsplit : ∀ {s : List UInt8} {w w' : List C.Point},
      w'.flatMap (toBytes true) = s ++ w.flatMap (toBytes true) →
      ∃ u, w' = u ++ w ∧ s = u.flatMap (toBytes true) := fun h =>
    exists_append_of_flatMap_eq length_toBytes_true (by norm_num) flatMap_toBytes_injective h
  -- one session id and index reach into the vector of the other input
  rcases List.append_eq_append_iff.mp (List.append_cancel_left h) with
    ⟨s, hprefix, hpoints⟩ | ⟨s, hprefix, hpoints⟩
  · obtain ⟨u, hv, rfl⟩ := hsplit hpoints
    exact .inr ⟨u, hv, hprefix⟩
  · obtain ⟨u, hv, rfl⟩ := hsplit hpoints
    exact .inl ⟨u, hv, hprefix⟩

/-- **What commitments bind.**  Two triples give the same bytes exactly if they are equal or one is
    the other with points moved between the session id and the vector.  Session ids of one length
    or vectors of one length exclude the latter. -/
theorem commitmentInput_eq_iff (sid sid' : List UInt8) (v v' : List C.Point) (hi : i < 2 ^ 16)
    (hi' : i' < 2 ^ 16) :
    (commitmentInput sid i v = commitmentInput sid' i' v' ↔
      (sid = sid' ∧ i = i' ∧ v = v') ∨ (∃ u, u ≠ [] ∧ ShiftedBy u sid i v sid' i' v') ∨
        ∃ u, u ≠ [] ∧ ShiftedBy u sid' i' v' sid i v) ∧
    (sid.length = sid'.length ∨ v.length = v'.length →
      (commitmentInput sid i v = commitmentInput sid' i' v' ↔ sid = sid' ∧ i = i' ∧ v = v')) := by
  have hiff : commitmentInput sid i v = commitmentInput sid' i' v' ↔
      (sid = sid' ∧ i = i' ∧ v = v') ∨ (∃ u, u ≠ [] ∧ ShiftedBy u sid i v sid' i' v') ∨
        ∃ u, u ≠ [] ∧ ShiftedBy u sid' i' v' sid i v := by
    constructor
    · intro h
      rcases exists_shiftedBy h with ⟨u, hu⟩ | ⟨u, hu⟩
      · rcases eq_or_ne u [] with rfl | hne
        · exact .inl ((shiftedBy_nil_iff hi hi').mp hu)
        · exact .inr (.inl ⟨u, hne, hu⟩)
      · rcases eq_or_ne u [] with rfl | hne
        · obtain ⟨hsid, hindex, hv⟩ := (shiftedBy_nil_iff hi' hi).mp hu
          exact .inl ⟨hsid.symm, hindex.symm, hv.symm⟩
        · exact .inr (.inr ⟨u, hne, hu⟩)
    · rintro (⟨rfl, rfl, rfl⟩ | ⟨u, -, hu⟩ | ⟨u, -, hu⟩)
      · rfl
      · exact hu.commitmentInput_eq
      · exact hu.commitmentInput_eq.symm
  refine ⟨hiff, fun hlen => hiff.trans (or_iff_left ?_)⟩
  rintro (⟨u, hne, hu⟩ | ⟨u, hne, hu⟩)
  · have hlt := hu.length_lt hne
    omega
  · have hlt := hu.length_lt hne
    omega

end Commitments

/-- The bytes of the index 0 and of the encoding of the generator of the small curve, less the last
    two. -/
def reachingSid : List UInt8 := [0, 0, 3] ++ List.replicate 30 0

/-- **Two commitments with the same bytes**: to two points with a session id that ends in the
    encoding of a third, and to the three points with an empty session id. -/
theorem commitmentInput_collide :
    commitmentInput reachingSid 1 (List.replicate 2 smallCurve.generator) =
      commitmentInput [] 0 (List.replicate 3 smallCurve.generator) ∧ reachingSid ≠ [] := by
  decide +kernel

/-- Commitments of two parties in one session. -/
theorem commitmentInput_eq_iff_parties :
    commitmentInput [7] 0 [smallCurve.generator] ≠ commitmentInput [7] 1 [smallCurve.generator] := by
  have hiff := (commitmentInput_eq_iff [7] [7] [smallCurve.generator] [smallCurve.generator]
    (show 0 < 2 ^ 16 by norm_num) (show 1 < 2 ^ 16 by norm_num)).2 (.inl rfl)
  exact fun h => absurd (hiff.mp h).2.1 (by decide)

end Govis
