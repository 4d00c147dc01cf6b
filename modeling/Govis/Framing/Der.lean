import Govis.Bytes

namespace Framing.Der

open Bytes

/-!
# Strict DER

The distinguished encoding, as far as sequences of integers need it.  Every length is written in
the shortest form and every integer in the fewest bytes, so that a reader accepts one encoding of
a value only.

* `readElement`, `readInteger`, `readIntegerPair` — the strict reader;
* `element` — writing an element with a length below 128;
* `readElement_element`, `readInteger_element`, `readIntegerPair_element` — what is written is read.
-/

/-- A length: one byte below 128, otherwise a count of bytes and the length in as few of them as it
    takes. -/
def readLength : List UInt8 → Option (ℕ × List UInt8)
  | [] => none
  | b :: rest =>
    if b < 0x80 then some (b.toNat, rest)
    else
      let count := b.toNat - 0x80
      let len := ofBE (rest.take count)
      if count = 0 ∨ rest.length < count ∨ rest.head? = some 0 ∨ len < 128 then none
      else some (len, rest.drop count)

/-- The contents of an element with this tag, and what follows it. -/
def readElement (tag : UInt8) : List UInt8 → Option (List UInt8 × List UInt8)
  | [] => none
  | t :: b =>
    if t ≠ tag then none
    else do
      let (len, b) ← readLength b
      if b.length < len then none else some (b.take len, b.drop len)

/-- The contents of an integer: at least one byte, and no first byte that only repeats the sign. -/
def MinimalInteger : List UInt8 → Prop
  | [] => False
  | [_] => True
  | a :: b :: _ => ¬ (a = 0 ∧ b < 0x80) ∧ ¬ (a = 0xff ∧ 0x80 ≤ b)

instance : DecidablePred MinimalInteger
  | [] => inferInstanceAs (Decidable False)
  | [_] => inferInstanceAs (Decidable True)
  | _ :: _ :: _ => inferInstanceAs (Decidable (_ ∧ _))

/-- The number in two's complement. -/
def integerValue (contents : List UInt8) : ℤ :=
  if contents.headD 0 < 0x80 then ofBE contents
  else (ofBE contents : ℤ) - 256 ^ contents.length

/-- An integer, and what follows it. -/
def readInteger (b : List UInt8) : Option (ℤ × List UInt8) := do
  let (contents, b) ← readElement 0x02 b
  if MinimalInteger contents then some (integerValue contents, b) else none

/-- A sequence of two integers and nothing else. -/
def readIntegerPair (b : List UInt8) : Option (ℤ × ℤ) := do
  let (contents, b) ← readElement 0x30 b
  if b ≠ [] then none
  else
    let (x, contents) ← readInteger contents
    let (y, contents) ← readInteger contents
    if contents ≠ [] then none else some (x, y)

/-- An element with the length in one byte. -/
def element (tag : UInt8) (contents : List UInt8) : List UInt8 :=
  tag :: UInt8.ofNat contents.length :: contents

theorem length_element (tag : UInt8) (contents : List UInt8) :
    (element tag contents).length = contents.length + 2 := rfl

/-- **An element** with few contents is read back. -/
theorem readElement_element (tag : UInt8) {contents : List UInt8} (h : contents.length < 128)
    (rest : List UInt8) : readElement tag (element tag contents ++ rest) = some (contents, rest) := by
  have hnat : (UInt8.ofNat contents.length).toNat = contents.length := by
    rw [UInt8.toNat_ofNat']
    exact Nat.mod_eq_of_lt (by omega)
  have hlen : readLength (UInt8.ofNat contents.length :: (contents ++ rest)) =
      some (contents.length, contents ++ rest) := by
    have hlt : UInt8.ofNat contents.length < 0x80 := by
      rw [UInt8.lt_iff_toNat_lt, hnat]
      exact h
    rw [readLength, if_pos hlt, hnat]
  show readElement tag (tag :: UInt8.ofNat contents.length :: (contents ++ rest)) = _
  rw [readElement, if_neg (not_not.mpr rfl), hlen]
  simp only [Option.bind_eq_bind, Option.bind_some]
  rw [if_neg (by rw [List.length_append]; omega), List.take_left, List.drop_left]

/-- **An integer** that is not negative is read back. -/
theorem readInteger_element {contents : List UInt8} (hlen : contents.length < 128)
    (hmin : MinimalInteger contents) (hpos : contents.headD 0 < 0x80) (rest : List UInt8) :
    readInteger (element 0x02 contents ++ rest) = some ((ofBE contents : ℤ), rest) := by
  rw [readInteger, readElement_element 0x02 hlen]
  simp only [Option.bind_eq_bind, Option.bind_some]
  rw [if_pos hmin, integerValue, if_pos hpos]

/-- **Two integers** in a sequence are read back. -/
theorem readIntegerPair_element {a b : List UInt8} (hlen : a.length + b.length + 4 < 128)
    (ha : MinimalInteger a) (ha' : a.headD 0 < 0x80) (hb : MinimalInteger b)
    (hb' : b.headD 0 < 0x80) :
    readIntegerPair (element 0x30 (element 0x02 a ++ element 0x02 b)) =
      some ((ofBE a : ℤ), (ofBE b : ℤ)) := by
  have hcontents : (element 0x02 a ++ element 0x02 b).length < 128 := by
    rw [List.length_append, length_element, length_element]
    omega
  have houter := readElement_element 0x30 hcontents []
  have hfirst := readInteger_element (show a.length < 128 by omega) ha ha' (element 0x02 b)
  have hsecond := readInteger_element (show b.length < 128 by omega) hb hb' []
  rw [List.append_nil] at houter hsecond
  simp only [readIntegerPair, houter, hfirst, hsecond, Option.bind_eq_bind, Option.bind_some,
    ne_eq, not_true_eq_false, if_false]

end Framing.Der
