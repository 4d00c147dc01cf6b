import Govis.Framing.Layout
import Mathlib.Algebra.Order.BigOperators.Group.List
import Mathlib.Data.Nat.Digits.Lemmas

namespace Framing

open Bytes

/-!
# Layouts of a serializer

The fields that `bincode` writes: lists behind their length, optional values, the variants of an
enumeration, and large numbers by their digits.

* `Layout.list`, `Layout.option`, `Layout.either` — what is made of other fields;
* `Layout.bigUint`, `Layout.bigInt` — numbers as a list of digits of 32 bits;
* `Layout.ofInjective` — values with an encoding of a fixed width;
* `Layout.Within` — **room**: the value fits, in at most so many bytes.
-/

variable {α β : Type}

namespace Layout

/-! ### Small fields -/

/-- Nothing. -/
def unit : Layout Unit where
  write _ := []
  read b := some ((), b)
  Fits _ := True
  read_write _ _ := rfl

def byte : Layout UInt8 where
  write x := [x]
  read
    | [] => none
    | x :: rest => some (x, rest)
  Fits _ := True
  read_write _ _ := rfl

def bool : Layout Bool :=
  byte.refine (fun b => if b then 1 else 0) (fun x => if x = 0 then some false
    else if x = 1 then some true else none) fun b => by cases b <;> rfl

/-- Values with an encoding of `k` bytes that tells them apart. -/
noncomputable def ofInjective (encode : α → List UInt8) (k : ℕ) (hlen : ∀ a, (encode a).length = k)
    (hinj : Function.Injective encode) : Layout α where
  write := encode
  read b := open Classical in
    if h : ∃ a, encode a = b.take k then some (h.choose, b.drop k) else none
  Fits _ := True
  read_write {a} _ rest := by
    have hex : ∃ a', encode a' = (encode a ++ rest).take k := ⟨a, (List.take_left' (hlen a)).symm⟩
    have hchoose : hex.choose = a := hinj (hex.choose_spec.trans (List.take_left' (hlen a)))
    rw [dif_pos hex, hchoose, List.drop_left' (hlen a)]

/-! ### Fields made of others -/

/-- A value that may be missing. -/
def option (l : Layout α) : Layout (Option α) where
  write
    | none => [0]
    | some a => 1 :: l.write a
  read
    | 0 :: rest => some (none, rest)
    | 1 :: rest => (l.read rest).map fun e => (some e.1, e.2)
    | _ => none
  Fits o := ∀ a ∈ o, l.Fits a
  read_write {o} ho rest := by
    cases o with
    | none => rfl
    | some a =>
      show (l.read (l.write a ++ rest)).map _ = _
      rw [l.read_write (ho a rfl), Option.map_some]

/-- One of two variants, with its number in four bytes. -/
def either (l : Layout α) (m : Layout β) : Layout (α ⊕ β) where
  write
    | .inl a => [0, 0, 0, 0] ++ l.write a
    | .inr b => [1, 0, 0, 0] ++ m.write b
  read
    | 0 :: 0 :: 0 :: 0 :: rest => (l.read rest).map fun e => (.inl e.1, e.2)
    | 1 :: 0 :: 0 :: 0 :: rest => (m.read rest).map fun e => (.inr e.1, e.2)
    | _ => none
  Fits
    | .inl a => l.Fits a
    | .inr b => m.Fits b
  read_write {e} he rest := by
    cases e with
    | inl a =>
      show (l.read (l.write a ++ rest)).map _ = _
      rw [l.read_write he, Option.map_some]
    | inr b =>
      show (m.read (m.write b ++ rest)).map _ = _
      rw [m.read_write he, Option.map_some]

/-- As many values as the number says. -/
def readMany (l : Layout α) : ℕ → List UInt8 → Option (List α × List UInt8)
  | 0, b => some ([], b)
  | n + 1, b => do
    let (a, b) ← l.read b
    let (as, b) ← l.readMany n b
    return (a :: as, b)

theorem readMany_flatMap (l : Layout α) {as : List α} (h : ∀ a ∈ as, l.Fits a) (rest : List UInt8) :
    l.readMany as.length (as.flatMap l.write ++ rest) = some (as, rest) := by
  induction as with
  | nil => rfl
  | cons a as ih =>
    have hhead := l.read_write (h a (List.mem_cons_self ..)) (as.flatMap l.write ++ rest)
    have htail := ih fun b hb => h b (List.mem_cons_of_mem a hb)
    simp only [List.length_cons, List.flatMap_cons, List.append_assoc, readMany, hhead, htail,
      Option.bind_eq_bind, Option.bind_some, Option.pure_def]

/-- A list behind its length in `k` bytes. -/
def list (k : ℕ) (l : Layout α) : Layout (List α) where
  write as := (littleEndian k).write as.length ++ as.flatMap l.write
  read b := ((littleEndian k).read b).bind fun e => l.readMany e.1 e.2
  Fits as := as.length < 256 ^ k ∧ ∀ a ∈ as, l.Fits a
  read_write {as} has rest := by
    rw [List.append_assoc, (littleEndian k).read_write has.1, Option.bind_some]
    exact l.readMany_flatMap has.2 rest

/-! ### Large numbers -/

/-- A number by its digits of 32 bits, the least significant one first. -/
def bigUint : Layout ℕ :=
  (list 8 (littleEndian 4)).refine (Nat.digits (2 ^ 32)) (fun ds => some (Nat.ofDigits (2 ^ 32) ds))
    fun x => by rw [Nat.ofDigits_digits]

/-- The sign of a number, as a signed byte. -/
def signByte (z : ℤ) : UInt8 := if z < 0 then 255 else if z = 0 then 0 else 1

/-- A number by its sign and the digits of its absolute value. -/
def bigInt : Layout ℤ :=
  (byte.seq bigUint).refine (fun z => (signByte z, z.natAbs))
    (fun e => some (if e.1 = 255 then -(e.2 : ℤ) else e.2)) fun z => by
      have hneg : signByte z = 255 ↔ z < 0 := by
        unfold signByte
        split
        · simp [*]
        · split <;> simp [*]
      simp only [hneg]
      congr 1
      split
      · omega
      · omega

/-! ### Room -/

/-- The value fits, in at most `k` bytes. -/
def Within (l : Layout α) (k : ℕ) (a : α) : Prop := l.Fits a ∧ (l.write a).length ≤ k

variable {l : Layout α} {m : Layout β} {j k : ℕ} {a : α} {b : β}

theorem Within.mono (h : l.Within j a) (hjk : j ≤ k) : l.Within k a := ⟨h.1, h.2.trans hjk⟩

theorem Within.seq (ha : l.Within j a) (hb : m.Within k b) : (l.seq m).Within (j + k) (a, b) := by
  refine ⟨⟨ha.1, hb.1⟩, ?_⟩
  show (l.write a ++ m.write b).length ≤ j + k
  rw [List.length_append]
  exact Nat.add_le_add ha.2 hb.2

theorem Within.some (h : l.Within k a) : l.option.Within (k + 1) (some a) := by
  refine ⟨fun a' ha' => ?_, Nat.succ_le_succ h.2⟩
  cases ha'
  exact h.1

theorem Within.inl (h : l.Within k a) : (l.either m).Within (k + 4) (.inl a) :=
  ⟨h.1, Nat.add_le_add_right h.2 4⟩

theorem Within.inr (h : m.Within k b) : (l.either m).Within (k + 4) (.inr b) :=
  ⟨h.1, Nat.add_le_add_right h.2 4⟩

theorem within_ofInjective {encode : α → List UInt8} {hlen : ∀ a, (encode a).length = k}
    {hinj : Function.Injective encode} : (ofInjective encode k hlen hinj).Within k a :=
  ⟨trivial, le_of_eq (hlen a)⟩

theorem within_bool (x : Bool) : bool.Within 1 x := ⟨trivial, le_refl 1⟩

theorem within_littleEndian {x : ℕ} (hx : x < 256 ^ k) : (littleEndian k).Within k x := by
  refine ⟨hx, le_of_eq ?_⟩
  show (toBE k x).reverse.length = k
  rw [List.length_reverse, length_toBE]

theorem within_bytes {x : List UInt8} (hx : x.length < 256 ^ k) :
    (bytes k).Within (k + x.length) x := by
  refine ⟨hx, le_of_eq ?_⟩
  show ((toBE k x.length).reverse ++ x).length = k + x.length
  rw [List.length_append, List.length_reverse, length_toBE]

theorem within_list {as : List α} (hlen : as.length < 256 ^ k) (h : ∀ a ∈ as, l.Within j a) :
    (list k l).Within (k + as.length * j) as := by
  refine ⟨⟨hlen, fun a ha => (h a ha).1⟩, ?_⟩
  show ((toBE k as.length).reverse ++ as.flatMap l.write).length ≤ k + as.length * j
  rw [List.length_append, List.length_reverse, length_toBE, List.length_flatMap]
  refine Nat.add_le_add_left ?_ k
  calc (as.map fun a => (l.write a).length).sum ≤ (as.map fun a => (l.write a).length).length • j :=
        List.sum_le_card_nsmul _ _ fun x hx => by
          obtain ⟨a, ha, rfl⟩ := List.mem_map.mp hx
          exact (h a ha).2
    _ = as.length * j := by
          rw [List.length_map]
          rfl

theorem within_bigUint {x : ℕ} (hk : k < 256 ^ 8) (hx : x < 2 ^ (32 * k)) :
    bigUint.Within (8 + k * 4) x := by
  have hlen : (Nat.digits (2 ^ 32) x).length ≤ k := by
    rw [Nat.digits_length_le_iff (by norm_num), ← pow_mul]
    exact hx
  have hdigits : (list 8 (littleEndian 4)).Within (8 + (Nat.digits (2 ^ 32) x).length * 4)
      (Nat.digits (2 ^ 32) x) :=
    within_list (lt_of_le_of_lt hlen hk) fun d hd =>
      within_littleEndian (lt_of_lt_of_le (Nat.digits_lt_base (by norm_num) hd) (by norm_num))
  exact hdigits.mono (Nat.add_le_add_left (Nat.mul_le_mul_right 4 hlen) 8)

theorem within_bigInt {z : ℤ} (hk : k < 256 ^ 8) (hz : z.natAbs < 2 ^ (32 * k)) :
    bigInt.Within (9 + k * 4) z := by
  have hsign : byte.Within 1 (signByte z) := ⟨trivial, le_refl 1⟩
  exact (hsign.seq (within_bigUint hk hz)).mono (by omega)

end Layout

end Framing
