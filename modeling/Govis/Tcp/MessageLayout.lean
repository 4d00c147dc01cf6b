import Govis.Cggmp21.Keygen
import Govis.Cggmp21.Presign
import Govis.Cggmp21.Sign
import Govis.Framing.Bincode
import Govis.Lindell.Sign
import Govis.Tcp.Routing
import Govis.Tcp.WireFormat

namespace Govis.Tcp

open Bytes Curve Framing Layout
open Lindell (SignMsg P1Data)
open Cggmp21 (KeygenMsg PresignMsg OnlineSignMsg)

/-!
# The transport: the messages of the signing protocols

What `bincode` makes of the messages of `run_sign`, `run_keygen`, `run_presign` and
`run_online_sign`, field by field in the order of the source.

* `Payload.ofLayouts` — the variant of the round, then the message of the round;
* `carries_ofLayouts` — a frame takes what its layout has room for;
* `signCodec`, `keygenCodec`, `presignCodec`, `onlineSignCodec` — the four codecs.
-/

variable {C : Curve} {Msg : ℕ → Type}

theorem variant_lt {k r : ℕ} (hr : r < k) (hk : k ≤ 4) : r < 256 ^ 4 :=
  lt_of_lt_of_le (lt_of_lt_of_le hr hk) (by norm_num)

/-- An enumeration with one variant for each of `k` rounds: four bytes for the variant, then the fields
    of its message. -/
noncomputable def Payload.ofLayouts (k : ℕ) (hk : k ≤ 4) (layout : (r : ℕ) → Layout (Msg r)) :
    Payload (AnyMsg Msg) where
  serialize m := open Classical in
    if m.1 < k ∧ (layout m.1).Fits m.2 then
      some ((littleEndian 4).write m.1 ++ (layout m.1).write m.2)
    else none
  deserialize b := ((littleEndian 4).read b).bind fun e =>
    ((layout e.1).deserialize e.2).map fun m => ⟨e.1, m⟩
  deserialize_serialize {m bytes} h := by
    obtain ⟨⟨hlt, hfits⟩, h⟩ := Option.ite_none_right_eq_some.mp h
    have hread := (littleEndian 4).read_write (variant_lt hlt hk) ((layout m.1).write m.2)
    rw [← Option.some.inj h, hread, Option.bind_some, (layout m.1).deserialize_write hfits,
      Option.map_some]

/-- **A frame has room** for a message of at most `b` bytes. -/
theorem carries_ofLayouts {k n b r : ℕ} {hk : k ≤ 4} {layout : (r : ℕ) → Layout (Msg r)}
    (hn : n ≤ 2 ^ 16) (hr : r < k) {m : Msg r} (hm : (layout r).Within b m)
    (hb : b + 11 ≤ maxFrameLength) :
    (wireCodec (.ofLayouts k hk layout) maxFrameLength maxFrameLength_lt).Carries n ⟨r, m⟩ := by
  refine carries_wireCodec maxFrameLength_lt hn (if_pos ⟨hr, hm.1⟩) ?_
  have hvariant : ((littleEndian 4).write r).length ≤ 4 :=
    (within_littleEndian (variant_lt hr hk)).2
  have hlen : ((layout r).write m).length ≤ b := hm.2
  show ((littleEndian 4).write r ++ (layout r).write m).length + 7 ≤ maxFrameLength
  rw [List.length_append]
  omega

/-! ### Fields -/

section Fields

variable (C)

/-- A compressed point. -/
noncomputable def pointLayout : Layout C.Point :=
  ofInjective (toBytes true) 33 length_toBytes_true toBytes_true_injective

noncomputable def scalarLayout : Layout C.Scalar :=
  ofInjective toBeBytes 32 length_toBeBytes fun x y h => by
    rw [← fromBeBytesModOrder_toBeBytes x, h, fromBeBytesModOrder_toBeBytes]

end Fields

/-- The output of the hash. -/
noncomputable def digestLayout : Layout (Vector UInt8 32) :=
  ofInjective Vector.toList 32 (fun v => by simp) fun _ _ h => Vector.toList_inj.mp h

def rangeProofLayout : Layout RangeProof :=
  (bigInt.seq (bigInt.seq bigInt)).refine (fun p => (p.cAlpha, p.z, p.s))
    (fun e => some ⟨e.1, e.2.1, e.2.2⟩) fun _ => rfl

def blumProofLayout : Layout BlumProof :=
  ((list 8 (littleEndian 8)).seq ((list 8 bool).seq (list 8 bigInt))).refine
    (fun p => (p.challengeIndices, p.bits, p.roots)) (fun e => some ⟨e.1, e.2.1, e.2.2⟩) fun _ => rfl

def mulProofLayout : Layout MulProof :=
  (bigInt.seq (bigInt.seq bigInt)).refine (fun p => (p.cT, p.z, p.sResponse))
    (fun e => some ⟨e.1, e.2.1, e.2.2⟩) fun _ => rfl

/-- `ConsistencyProof` and `LogProof`. -/
noncomputable def pointProofLayout (C : Curve) : Layout (PointProof C) :=
  (bigInt.seq ((pointLayout C).seq (bigInt.seq bigInt))).refine
    (fun p => (p.cAlpha, p.a, p.z, p.sResponse)) (fun e => some ⟨e.1, e.2.1, e.2.2.1, e.2.2.2⟩)
    fun _ => rfl

noncomputable def schnorrProofLayout (C : Curve) : Layout (SchnorrProof C) :=
  ((pointLayout C).seq (scalarLayout C)).refine (fun p => (p.a, p.z)) (fun e => some ⟨e.1, e.2⟩)
    fun _ => rfl

/-! ### `run_sign` -/

noncomputable def p1DataLayout (C : Curve) : Layout (P1Data C) :=
  ((pointLayout C).seq (bigInt.seq (bigUint.seq (bigUint.seq
    (rangeProofLayout.seq (pointProofLayout C)))))).refine
    (fun d => (d.point, d.cKInv, d.pkN, d.pkG, d.rangeProof, d.consistencyProof))
    (fun e => some ⟨e.1, e.2.1, e.2.2.1, e.2.2.2.1, e.2.2.2.2.1, e.2.2.2.2.2⟩) fun _ => rfl

/-- The layouts of `SignMsg`. -/
noncomputable def signLayout (C : Curve) : (r : ℕ) → Layout (SignMsg C r)
  | 0 => ((p1DataLayout C).either unit).refine
      (fun m => match m with | .p1Data d => .inl d | .ack => .inr ())
      (fun e => some (match e with | .inl d => Lindell.Round1Msg.p1Data d | .inr _ => .ack))
      fun m => by cases m <;> rfl
  | 1 => ((bigInt.seq mulProofLayout).either unit).refine
      (fun m => match m with | .p2Data c p => .inl (c, p) | .ack => .inr ())
      (fun e => some (match e with | .inl d => Lindell.Round2Msg.p2Data d.1 d.2 | .inr _ => .ack))
      fun m => by cases m <;> rfl
  | _ + 2 => ((littleEndian 4).seq ((bytes 8).seq ((bytes 8).seq byte))).refine
      (fun m => (0, m.rBytes, m.sBytes, m.recId))
      (fun e => if e.1 = 0 then some (⟨e.2.1, e.2.2.1, e.2.2.2⟩ : Lindell.Round3Msg) else none)
      fun _ => rfl

/-- The codec of `run_sign`. -/
noncomputable def signCodec (C : Curve) : Codec (AnyMsg (SignMsg C)) :=
  wireCodec (.ofLayouts 3 (Nat.le_succ 3) (signLayout C)) maxFrameLength maxFrameLength_lt

/-! ### `run_keygen` -/

/-- The layouts of `KeygenMsg`. -/
noncomputable def keygenLayout (C : Curve) : (r : ℕ) → Layout (KeygenMsg C r)
  | 0 => ((bytes 8).seq blumProofLayout).refine (fun m => (m.paillierN, m.blumProof))
      (fun e => some (⟨e.1, e.2⟩ : Cggmp21.Round1Msg)) fun _ => rfl
  | 1 => digestLayout.refine (fun m => m.commitment) (fun e => some (⟨e⟩ : Cggmp21.Round2Msg))
      fun _ => rfl
  | _ + 2 => ((bytes 8).seq ((list 8 (pointLayout C)).seq
      ((list 8 (bigInt.seq (pointProofLayout C))).seq (schnorrProofLayout C)))).refine
      (fun m => (m.nonce, m.polynomialCoeffPoints, m.encryptedShares, m.schnorrProof))
      (fun e => some (⟨e.1, e.2.1, e.2.2.1, e.2.2.2⟩ : Cggmp21.Round3Msg C)) fun _ => rfl

/-- The codec of `run_keygen`. -/
noncomputable def keygenCodec (C : Curve) : Codec (AnyMsg (KeygenMsg C)) :=
  wireCodec (.ofLayouts 3 (Nat.le_succ 3) (keygenLayout C)) maxFrameLength maxFrameLength_lt

/-! ### `run_presign` and `run_online_sign` -/

/-- The layouts of `PresignMsg`. -/
noncomputable def presignLayout (C : Curve) : (r : ℕ) → Layout (PresignMsg C r)
  | 0 => (bigUint.seq bigUint).refine (fun m => (m.n, m.g))
      (fun e => some (⟨e.1, e.2⟩ : Cggmp21.PaillierPKMsg)) fun _ => rfl
  | 1 => digestLayout.refine (fun m => m.commitment) (fun e => some (⟨e⟩ : Cggmp21.CommitMsg))
      fun _ => rfl
  | 2 => (pointLayout C).refine (fun m => m.rPoint) (fun e => some (⟨e⟩ : Cggmp21.RevealMsg C))
      fun _ => rfl
  | _ + 3 => (bigInt.option.seq rangeProofLayout.option).refine (fun m => (m.cKShare, m.rangeProof))
      (fun e => some (⟨e.1, e.2⟩ : Cggmp21.EncryptedKMsg)) fun _ => rfl

/-- The codec of `run_presign`. -/
noncomputable def presignCodec (C : Curve) : Codec (AnyMsg (PresignMsg C)) :=
  wireCodec (.ofLayouts 4 (le_refl 4) (presignLayout C)) maxFrameLength maxFrameLength_lt

/-- The layout of `OnlineSignMsg`. -/
def onlineSignLayout (_ : ℕ) : Layout Cggmp21.SignatureShareMsg :=
  (bytes 8).refine (fun m => m.sI) (fun e => some ⟨e⟩) fun _ => rfl

/-- The codec of `run_online_sign`. -/
noncomputable def onlineSignCodec : Codec (AnyMsg OnlineSignMsg) :=
  wireCodec (.ofLayouts 1 (Nat.succ_le_succ (Nat.zero_le 3)) onlineSignLayout) maxFrameLength
    maxFrameLength_lt

end Govis.Tcp
