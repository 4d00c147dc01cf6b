import Govis.Bytes
import Govis.Framing.Decoder

namespace Framing

open Bytes

/-!
# Length-prefixed frames

A frame is its length, in four bytes, and its bytes.  A length above the limit is an error.

* `lengthDecoder`, `lengthEncode` — reading and writing;
* `decode_lengthEncode` — what is written is read.
-/

/-- What stands at the start of a buffer. -/
def lengthDecode (limit : ℕ) (b : List UInt8) : Decoded UInt8 (List UInt8) :=
  if b.length < 4 then .wait
  else if limit < ofBE (b.take 4) then .fail
  else if b.length < 4 + ofBE (b.take 4) then .wait
  else .frame ((b.drop 4).take (ofBE (b.take 4))) (b.drop (4 + ofBE (b.take 4)))

theorem lengthDecode_eq_frame {limit : ℕ} {b f rest : List UInt8} :
    lengthDecode limit b = .frame f rest ↔ 4 + ofBE (b.take 4) ≤ b.length ∧ ofBE (b.take 4) ≤ limit ∧
      f = (b.drop 4).take (ofBE (b.take 4)) ∧ rest = b.drop (4 + ofBE (b.take 4)) := by
  unfold lengthDecode
  split
  · simp only [reduceCtorEq, false_iff]
    omega
  · split
    · simp only [reduceCtorEq, false_iff]
      omega
    · split
      · simp only [reduceCtorEq, false_iff]
        omega
      · rw [Decoded.frame.injEq]
        constructor
        · rintro ⟨rfl, rfl⟩
          exact ⟨by omega, by omega, rfl, rfl⟩
        · rintro ⟨-, -, rfl, rfl⟩
          exact ⟨rfl, rfl⟩

/-- The length stands in the bytes that have arrived first. -/
theorem take_four_append {b : List UInt8} (h : 4 ≤ b.length) (c : List UInt8) :
    (b ++ c).take 4 = b.take 4 :=
  List.take_append_of_le_length h

/-- The decoder of length-prefixed frames. -/
def lengthDecoder (limit : ℕ) : Decoder UInt8 (List UInt8) where
  decode := lengthDecode limit
  decode_nil := if_pos (by decide)
  frame_shorter {b f rest} h := by
    obtain ⟨hlen, -, -, rfl⟩ := lengthDecode_eq_frame.mp h
    rw [List.length_drop]
    omega
  frame_append {b f rest} h c := by
    obtain ⟨hlen, hlimit, rfl, rfl⟩ := lengthDecode_eq_frame.mp h
    have htake := take_four_append (show 4 ≤ b.length by omega) c
    refine lengthDecode_eq_frame.mpr ⟨?_, ?_, ?_, ?_⟩
    · rw [htake, List.length_append]
      omega
    · rw [htake]
      exact hlimit
    · rw [htake, List.drop_append_of_le_length (by omega), List.take_append_of_le_length]
      rw [List.length_drop]
      omega
    · rw [htake, List.drop_append_of_le_length hlen]
  fail_append {b} h c := by
    simp only [lengthDecode] at h ⊢
    split at h
    · cases h
    · rename_i hlen
      rw [take_four_append (not_lt.mp hlen) c]
      split at h
      · rename_i hlimit
        rw [if_neg (by rw [List.length_append]; omega), if_pos hlimit]
      · split at h
        · cases h
        · cases h

@[simp] theorem lengthDecoder_decode (limit : ℕ) (b : List UInt8) :
    (lengthDecoder limit).decode b = lengthDecode limit b := rfl

/-- A frame as it is written, if it is not too long. -/
def lengthEncode (limit : ℕ) (f : List UInt8) : Option (List UInt8) :=
  if limit < f.length then none else some (toBE 4 f.length ++ f)

/-- **Round trip.**  What is written is read, whatever follows. -/
theorem decode_lengthEncode {limit : ℕ} (hlimit : limit < 256 ^ 4) {f out : List UInt8}
    (h : lengthEncode limit f = some out) (c : List UInt8) :
    (lengthDecoder limit).decode (out ++ c) = .frame f c := by
  unfold lengthEncode at h
  split at h
  · cases h
  · rename_i hf
    obtain rfl := Option.some.inj h
    have htake : (toBE 4 f.length ++ f ++ c).take 4 = toBE 4 f.length := by
      rw [List.append_assoc, List.take_left' (length_toBE 4 _)]
    have hlen : ofBE (toBE 4 f.length) = f.length := ofBE_toBE (by omega)
    rw [lengthDecoder_decode]
    refine lengthDecode_eq_frame.mpr ⟨?_, ?_, ?_, ?_⟩
    · rw [htake, hlen, List.length_append, List.length_append, length_toBE]
      omega
    · rw [htake, hlen]
      omega
    · rw [htake, hlen, List.append_assoc, List.drop_left' (length_toBE 4 _), List.take_left' rfl]
    · rw [htake, hlen, List.drop_left']
      rw [List.length_append, length_toBE]

end Framing
