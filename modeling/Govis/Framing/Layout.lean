import Govis.Bytes

namespace Framing

open Bytes

/-!
# Layouts

Records written field by field, each field so that it can be read back whatever follows it.

* `Layout` — a way to write values, with the values that fit it;
* `Layout.littleEndian`, `Layout.bytes`, `Layout.string` — numbers of a fixed width, and what is
  written with its length first;
* `Layout.seq`, `Layout.refine` — two fields, and another view of one;
* `Layout.deserialize_write_append` — what is written is read, with anything behind it.
-/

variable {α β γ : Type}

/-- A way to write values one after the other. -/
structure Layout (α : Type) where
  write : α → List UInt8
  read : List UInt8 → Option (α × List UInt8)
  /-- The values that can be written. -/
  Fits : α → Prop
  read_write : ∀ {a}, Fits a → ∀ rest, read (write a ++ rest) = some (a, rest)

namespace Layout

/-- The first value of a byte string; what follows is ignored. -/
def deserialize (l : Layout α) (b : List UInt8) : Option α := (l.read b).map Prod.fst

/-- **Round trip**, with anything behind. -/
theorem deserialize_write_append (l : Layout α) {a : α} (h : l.Fits a) (rest : List UInt8) :
    l.deserialize (l.write a ++ rest) = some a := by
  rw [deserialize, l.read_write h, Option.map_some]

theorem deserialize_write (l : Layout α) {a : α} (h : l.Fits a) :
    l.deserialize (l.write a) = some a := by
  have := l.deserialize_write_append h []
  rwa [List.append_nil] at this

/-- A number in `k` bytes, least significant byte first. -/
def littleEndian (k : ℕ) : Layout ℕ where
  write x := (toBE k x).reverse
  read b := if b.length < k then none else some (ofBE (b.take k).reverse, b.drop k)
  Fits x := x < 256 ^ k
  read_write {x} hx rest := by
    have hlen : (toBE k x).reverse.length = k := by rw [List.length_reverse, length_toBE]
    rw [if_neg (by rw [List.length_append]; omega), List.take_left' hlen, List.drop_left' hlen,
      List.reverse_reverse, ofBE_toBE hx]

/-- Two fields. -/
def seq (l : Layout α) (m : Layout β) : Layout (α × β) where
  write e := l.write e.1 ++ m.write e.2
  read b := do
    let (a, b) ← l.read b
    let (c, b) ← m.read b
    return ((a, c), b)
  Fits e := l.Fits e.1 ∧ m.Fits e.2
  read_write {e} he rest := by
    simp only [List.append_assoc, l.read_write he.1, m.read_write he.2, Option.bind_eq_bind,
      Option.bind_some, Option.pure_def]

/-- Values that are written as others. -/
def refine (l : Layout α) (encode : β → α) (decode : α → Option β)
    (hdecode : ∀ b, decode (encode b) = some b) : Layout β where
  write b := l.write (encode b)
  read bytes := do
    let (a, rest) ← l.read bytes
    let b ← decode a
    return (b, rest)
  Fits b := l.Fits (encode b)
  read_write {b} hb rest := by
    simp only [l.read_write hb, hdecode, Option.bind_eq_bind, Option.bind_some, Option.pure_def]

/-- A byte string behind its length in `k` bytes. -/
def bytes (k : ℕ) : Layout (List UInt8) where
  write b := (littleEndian k).write b.length ++ b
  read b := ((littleEndian k).read b).bind fun e =>
    if e.2.length < e.1 then none else some (e.2.take e.1, e.2.drop e.1)
  Fits b := b.length < 256 ^ k
  read_write {b} hb rest := by
    have hle := (littleEndian k).read_write hb (b ++ rest)
    rw [List.append_assoc, hle, Option.bind_some, if_neg (by rw [List.length_append]; omega), List.take_left, List.drop_left]

/-- A 16-bit number. -/
def u16 : Layout UInt16 :=
  (littleEndian 2).refine UInt16.toNat (fun x => some (UInt16.ofNat x)) fun x => by
    rw [UInt16.ofNat_toNat]

theorem fits_u16 (x : UInt16) : u16.Fits x := x.toNat_lt

/-- The bytes of a text. -/
def utf8 (s : String) : List UInt8 := s.toByteArray.data.toList

/-- The text with these bytes, if they are well formed. -/
def ofUtf8 (b : List UInt8) : Option String := String.fromUTF8? ⟨b.toArray⟩

theorem ofUtf8_utf8 (s : String) : ofUtf8 (utf8 s) = some s := by
  show String.fromUTF8? ⟨s.toByteArray.data.toList.toArray⟩ = some s
  rw [Array.toArray_toList]
  exact dif_pos s.isValidUTF8

/-- A text behind the length of its bytes. -/
def string (k : ℕ) : Layout String := (bytes k).refine utf8 ofUtf8 ofUtf8_utf8

end Layout

end Framing
