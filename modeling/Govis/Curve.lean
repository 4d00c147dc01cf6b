import Govis.Bytes
import Mathlib.Algebra.Ring.Parity
import Mathlib.Algebra.Field.ZMod
import Mathlib.Algebra.Module.Defs

namespace Govis

open Bytes

/-!
# The curve and the hash

What the program takes from outside its repository: the scalars and points of `generic-ec`
at its curve, and SHA-256.

* `Curve` — a group of prime order `q` with a generator, and its affine coordinates.  The
  order lies between `2 ^ 16` and `2 ^ 256`, so that party indices are distinct scalars and
  scalars fit 32 bytes;
* `Curve.toBytes` — the point encodings: 65 bytes uncompressed, 33 bytes compressed, and
  all zeros for the identity;
* `Hash` — a function from byte strings to 32 bytes.
-/

/-- A curve group of prime order, with the affine coordinates of its points. -/
structure Curve where
  /-- The order of the group. -/
  q : ℕ
  q_prime : q.Prime
  two_pow_16_lt : 2 ^ 16 < q
  lt_two_pow_256 : q < 2 ^ 256
  Point : Type
  [addCommGroup : AddCommGroup Point]
  [module : Module (ZMod q) Point]
  [decidableEq : DecidableEq Point]
  generator : Point
  generator_ne_zero : generator ≠ 0
  /-- The generator generates. -/
  dlog_exists : ∀ P : Point, ∃ a : ZMod q, P = a • generator
  /-- The order of the field of coordinates. -/
  p : ℕ
  p_odd : Odd p
  p_le : p ≤ 2 ^ 256
  /-- The affine coordinates, with none for the identity. -/
  coords : Point → Option (ℕ × ℕ)
  coords_eq_none : ∀ P, coords P = none ↔ P = 0
  coords_lt : ∀ P x y, coords P = some (x, y) → x < p ∧ y < p
  coords_injective : Function.Injective coords
  coords_neg : ∀ P x y, coords P = some (x, y) → coords (-P) = some (x, p - y)
  same_x : ∀ P Q x y y', coords P = some (x, y) → coords Q = some (x, y') → Q = P ∨ Q = -P

namespace Curve

variable (C : Curve)

attribute [instance] Curve.addCommGroup Curve.module Curve.decidableEq

/-- The scalar field. -/
abbrev Scalar : Type := ZMod C.q

instance : Fact C.q.Prime := ⟨C.q_prime⟩

instance : NeZero C.q := ⟨C.q_prime.ne_zero⟩

variable {C}

/-- `Scalar::to_be_bytes`. -/
def toBeBytes (a : C.Scalar) : List UInt8 := toBE 32 a.val

/-- `Scalar::from_be_bytes_mod_order`. -/
def fromBeBytesModOrder (C : Curve) (l : List UInt8) : C.Scalar := (ofBE l : ℕ)

theorem val_lt_two_pow_256 (a : C.Scalar) : a.val < 2 ^ 256 :=
  lt_trans a.val_lt C.lt_two_pow_256

theorem ofBE_toBeBytes (a : C.Scalar) : ofBE (toBeBytes a) = a.val :=
  ofBE_toBE (lt_of_lt_of_eq (val_lt_two_pow_256 a) (by norm_num))

@[simp] theorem length_toBeBytes (a : C.Scalar) : (toBeBytes a).length = 32 := length_toBE 32 _

/-- Scalars survive their encoding. -/
@[simp] theorem fromBeBytesModOrder_toBeBytes (a : C.Scalar) :
    fromBeBytesModOrder C (toBeBytes a) = a := by
  rw [fromBeBytesModOrder, ofBE_toBeBytes, ZMod.natCast_zmod_val]

/-- `Point::to_bytes`. -/
def toBytes (compressed : Bool) (P : C.Point) : List UInt8 :=
  -- the identity is a string of zeros of the same length
  match C.coords P, compressed with
  | none, true => List.replicate 33 0
  | none, false => List.replicate 65 0
  | some (x, y), true => UInt8.ofNat (2 + y % 2) :: toBE 32 x
  | some (x, y), false => 4 :: (toBE 32 x ++ toBE 32 y)

@[simp] theorem length_toBytes_true (P : C.Point) : (toBytes true P).length = 33 := by
  unfold toBytes
  cases C.coords P with
  | none => simp
  | some e => simp

/-- **Compressed encodings** determine their points. -/
theorem toBytes_true_injective : Function.Injective (toBytes true : C.Point → List UInt8) := by
  -- the parity byte is never zero
  have hbyte : ∀ y : ℕ, (UInt8.ofNat (2 + y % 2)).toNat = 2 + y % 2 := by
    intro y
    rw [UInt8.toNat_ofNat']
    exact Nat.mod_eq_of_lt (by omega)
  have hne : ∀ (y : ℕ) (l : List UInt8), UInt8.ofNat (2 + y % 2) :: l ≠ List.replicate 33 0 := by
    intro y l h
    have h0 := congrArg UInt8.toNat (List.head_eq_of_cons_eq h)
    rw [hbyte] at h0
    simp at h0
  intro P Q h
  cases hP : C.coords P with
  | none =>
    cases hQ : C.coords Q with
    | none => exact C.coords_injective (hP.trans hQ.symm)
    | some e =>
      simp only [toBytes, hP, hQ] at h
      exact absurd h.symm (hne _ _)
  | some e =>
    obtain ⟨x, y⟩ := e
    cases hQ : C.coords Q with
    | none =>
      simp only [toBytes, hP, hQ] at h
      exact absurd h (hne _ _)
    | some e' =>
      obtain ⟨x', y'⟩ := e'
      simp only [toBytes, hP, hQ, List.cons.injEq] at h
      obtain ⟨hx, hy⟩ := C.coords_lt P x y hP
      obtain ⟨hx', hy'⟩ := C.coords_lt Q x' y' hQ
      have hp : C.p ≤ 256 ^ 32 := le_trans C.p_le (by norm_num)
      obtain rfl : x = x' := toBE_injOn 32 (lt_of_lt_of_le hx hp) (lt_of_lt_of_le hx' hp) h.2
      have hpar := congrArg UInt8.toNat h.1
      rw [hbyte, hbyte] at hpar
      rcases C.same_x P Q x y y' hP hQ with heq | heq
      · exact heq.symm
      · -- the other point with this coordinate has the other parity
        have hneg := C.coords_neg P x y hP
        rw [← heq, hQ, Option.some.injEq, Prod.mk.injEq] at hneg
        have hodd := Nat.odd_iff.mp C.p_odd
        omega

theorem generator_smul_eq_iff {a b : C.Scalar} :
    a • C.generator = b • C.generator ↔ a = b := by
  constructor
  · intro h
    have hsub : (a - b) • C.generator = 0 := by rw [sub_smul, h, sub_self]
    -- a scalar that sends the generator to zero has no inverse
    by_contra hab
    refine C.generator_ne_zero ?_
    rw [← inv_smul_smul₀ (sub_ne_zero.mpr hab) C.generator, hsub, smul_zero]
  · rintro rfl
    rfl

/-- The discrete logarithm. -/
noncomputable def dlog (P : C.Point) : C.Scalar := (C.dlog_exists P).choose

@[simp] theorem dlog_smul_generator (P : C.Point) : dlog P • C.generator = P :=
  (C.dlog_exists P).choose_spec.symm

@[simp] theorem dlog_generator_smul (a : C.Scalar) : dlog (a • C.generator) = a :=
  generator_smul_eq_iff.mp (dlog_smul_generator _)

@[simp] theorem dlog_zero : dlog (0 : C.Point) = 0 := by
  rw [← zero_smul C.Scalar C.generator, dlog_generator_smul]

end Curve

/-- SHA-256. -/
abbrev Hash : Type := List UInt8 → Vector UInt8 32

/-- A byte-string literal. -/
def ascii (s : String) : List UInt8 := s.toList.map fun c => UInt8.ofNat c.toNat

/-- What ends a computation early: an error it returns, or a panic. -/
inductive Fault (E : Type) where
  | err (e : E)
  | panic
deriving DecidableEq, Repr

/-- The result of a computation that may return an error of type `E` or panic. -/
abbrev Res (E α : Type) : Type := Except (Fault E) α

@[simp] theorem ok_bind {E α β : Type} (a : α) (f : α → Res E β) :
    ((.ok a : Res E α) >>= f) = f a := rfl

/-- **Inversion.** A computation that succeeds does so at every step. -/
theorem bind_eq_ok {E α β : Type} {x : Res E α} {f : α → Res E β} {b : β} :
    (x >>= f) = .ok b ↔ ∃ a, x = .ok a ∧ f a = .ok b := by
  cases x with
  | ok a => simp
  | error e =>
    constructor
    · intro h
      cases h
    · rintro ⟨a, ha, -⟩
      cases ha

/-- A computation that fails does so at its first step or later. -/
theorem bind_eq_error {E α β : Type} {x : Res E α} {f : α → Res E β} {e : Fault E} :
    (x >>= f) = .error e ↔ x = .error e ∨ ∃ a, x = .ok a ∧ f a = .error e := by
  cases x with
  | ok a => simp
  | error e' =>
    constructor
    · intro h
      cases h
      exact .inl rfl
    · rintro (h | ⟨a, ha, -⟩)
      · cases h
        rfl
      · cases ha

/-- The result of a computation that may panic, used where errors are possible. -/
def orPanic {E α : Type} : Option α → Res E α
  | some a => .ok a
  | none => .error .panic

@[simp] theorem orPanic_some {E α : Type} (a : α) : (orPanic (some a) : Res E α) = .ok a := rfl

@[simp] theorem orPanic_none {E α : Type} : (orPanic none : Res E α) = .error .panic := rfl

theorem orPanic_eq_ok {E α : Type} {x : Option α} {a : α} :
    (orPanic x : Res E α) = .ok a ↔ x = some a := by
  cases x <;> simp [orPanic]

theorem orPanic_eq_panic {E α : Type} {x : Option α} :
    (orPanic x : Res E α) = .error .panic ↔ x = none := by
  cases x <;> simp [orPanic]

theorem orPanic_eq_error {E α : Type} {x : Option α} {f : Fault E} :
    (orPanic x : Res E α) = .error f ↔ x = none ∧ .panic = f := by
  cases x <;> simp [orPanic]

/-- `ok_or`: an absent value is the error `e`. -/
def okOr {E α : Type} (e : E) : Option α → Res E α
  | some a => .ok a
  | none => .error (.err e)

@[simp] theorem okOr_some {E α : Type} (e : E) (a : α) : okOr e (some a) = .ok a := rfl

theorem okOr_eq_error {E α : Type} {e : E} {x : Option α} {f : Fault E} :
    okOr e x = .error f ↔ x = none ∧ .err e = f := by
  cases x <;> simp [okOr]

theorem okOr_eq_ok {E α : Type} {e : E} {x : Option α} {a : α} :
    okOr e x = .ok a ↔ x = some a := by
  cases x <;> simp [okOr]

end Govis
