import Govis.Framing.LengthPrefix
import Govis.Tcp.Delivery

namespace Govis.Tcp

open Bytes Framing

/-!
# The transport: a codec

The layout that `bincode` gives a `WireMsg`, in frames with a length: two bytes for the sender, four
for the variant of the type and one for its flag, all with the least significant byte first, and the
bytes of the message.

* `Payload` — how the messages of a protocol are written;
* `wireCodec` — the codec that results.
-/

variable {M : Type}

/-- Serialisation of the messages of a protocol. -/
structure Payload (M : Type) where
  serialize : M → Option (List UInt8)
  deserialize : List UInt8 → Option M
  deserialize_serialize : ∀ {m bytes}, serialize m = some bytes → deserialize bytes = some m

def serializeType : WireMsgType → List UInt8
  | .broadcast false => [0, 0, 0, 0, 0]
  | .broadcast true => [0, 0, 0, 0, 1]
  | .p2p => [1, 0, 0, 0]

def deserializeType : List UInt8 → Option (WireMsgType × List UInt8)
  | 0 :: 0 :: 0 :: 0 :: 0 :: rest => some (.broadcast false, rest)
  | 0 :: 0 :: 0 :: 0 :: 1 :: rest => some (.broadcast true, rest)
  | 1 :: 0 :: 0 :: 0 :: rest => some (.p2p, rest)
  | _ => none

theorem deserializeType_append (msgType : WireMsgType) (rest : List UInt8) :
    deserializeType (serializeType msgType ++ rest) = some (msgType, rest) := by
  cases msgType with
  | broadcast reliable =>
    cases reliable with
    | false => rfl
    | true => rfl
  | p2p => rfl

def serializeWire (P : Payload M) (wire : WireMsg M) : Option (List UInt8) :=
  if wire.sender < 2 ^ 16 then
    (P.serialize wire.msg).map fun bytes =>
      UInt8.ofNat (wire.sender % 256) :: UInt8.ofNat (wire.sender / 256) ::
        (serializeType wire.msgType ++ bytes)
  else none

def deserializeWire (P : Payload M) : List UInt8 → Option (WireMsg M)
  | lo :: hi :: rest => do
    let (msgType, rest) ← deserializeType rest
    let msg ← P.deserialize rest
    return ⟨lo.toNat + 256 * hi.toNat, msgType, msg⟩
  | _ => none

/-- **Round trip.** -/
theorem deserializeWire_serializeWire {P : Payload M} {wire : WireMsg M} {bytes : List UInt8}
    (h : serializeWire P wire = some bytes) : deserializeWire P bytes = some wire := by
  unfold serializeWire at h
  split at h
  · rename_i hsender
    obtain ⟨payload, hpayload, rfl⟩ := Option.map_eq_some_iff.mp h
    have hvalue : (UInt8.ofNat (wire.sender % 256)).toNat + 256 * (UInt8.ofNat (wire.sender / 256)).toNat =
        wire.sender := by
      rw [UInt8.toNat_ofNat', UInt8.toNat_ofNat']
      omega
    simp only [deserializeWire, deserializeType_append, P.deserialize_serialize hpayload, hvalue,
      Option.bind_eq_bind, Option.bind_some, Option.pure_def]
  · cases h

/-- The codec, with frames of at most `limit` bytes. -/
def wireCodec (P : Payload M) (limit : ℕ) (hlimit : limit < 256 ^ 4) : Codec M where
  serialize := serializeWire P
  deserialize := deserializeWire P
  encode := lengthEncode limit
  decoder := lengthDecoder limit
  deserialize_serialize := deserializeWire_serializeWire
  decode_encode := decode_lengthEncode hlimit

/-- Any message that leaves room for the seven other bytes is carried. -/
theorem carries_wireCodec {P : Payload M} {limit : ℕ} (hlimit : limit < 256 ^ 4) {n : ℕ}
    (hn : n ≤ 2 ^ 16) {m : M} {payload : List UInt8} (hm : P.serialize m = some payload)
    (hlen : payload.length + 7 ≤ limit) : (wireCodec P limit hlimit).Carries n m := by
  intro sender hsender msgType
  have hser : serializeWire P ⟨sender, msgType, m⟩ =
      some (UInt8.ofNat (sender % 256) :: UInt8.ofNat (sender / 256) ::
        (serializeType msgType ++ payload)) := by
    rw [serializeWire, if_pos (show sender < 2 ^ 16 by omega), hm]
    rfl
  refine ⟨_, _, hser, if_neg ?_⟩
  have htype : (serializeType msgType).length ≤ 5 := by
    cases msgType with
    | broadcast reliable => cases reliable <;> decide
    | p2p => decide
  simp only [List.length_cons, List.length_append]
  omega

/-- A serialisation that tells messages apart can be read back. -/
noncomputable def Payload.ofInjective (serialize : M → Option (List UInt8))
    (h : ∀ {m m' bytes}, serialize m = some bytes → serialize m' = some bytes → m = m') : Payload M where
  serialize := serialize
  deserialize bytes := open Classical in
    if hex : ∃ m, serialize m = some bytes then some hex.choose else none
  deserialize_serialize {m bytes} hm := by
    have hex : ∃ m, serialize m = some bytes := ⟨m, hm⟩
    rw [dif_pos hex, h hex.choose_spec hm]

/-- Messages that are byte strings themselves. -/
def bytesPayload : Payload (List UInt8) where
  serialize := some
  deserialize := some
  deserialize_serialize h := h.symm ▸ rfl

/-- The limit of `LengthDelimitedCodec`. -/
def maxFrameLength : ℕ := 8 * 1024 * 1024

theorem maxFrameLength_lt : maxFrameLength < 256 ^ 4 := by decide

/-- The codec for messages that are byte strings. -/
def bytesCodec : Codec (List UInt8) := wireCodec bytesPayload maxFrameLength maxFrameLength_lt

theorem bytesCodec_decoder : bytesCodec.decoder = lengthDecoder maxFrameLength := rfl

end Govis.Tcp
