import Mathlib.Data.Nat.Digits.Defs
import Mathlib.Data.UInt
import Mathlib.Tactic.Ring

namespace Bytes

/-!
# Big-endian bytes

Natural numbers as byte strings, most significant byte first.

* `ofBE` reads a byte string of any length;
* `toBE k x` writes `x` in exactly `k` bytes;
* `minBE x` writes `x` without leading zeros, zero being the single byte `0`.
-/

/-- The number a byte string encodes. -/
def ofBE (l : List UInt8) : ℕ := l.foldl (fun acc b => acc * 256 + b.toNat) 0

/-- `x` in exactly `k` bytes (the higher ones are dropped). -/
def toBE : ℕ → ℕ → List UInt8
  | 0, _ => []
  | k + 1, x => toBE k (x / 256) ++ [UInt8.ofNat (x % 256)]

/-- `x` without leading zeros; zero is one byte. -/
def minBE (x : ℕ) : List UInt8 :=
  if x = 0 then [0] else (Nat.digits 256 x).reverse.map UInt8.ofNat

@[simp] theorem ofBE_nil : ofBE [] = 0 := rfl

theorem ofBE_concat (l : List UInt8) (b : UInt8) : ofBE (l ++ [b]) = ofBE l * 256 + b.toNat := by
  simp [ofBE, List.foldl_append]

theorem ofBE_lt (l : List UInt8) : ofBE l < 256 ^ l.length := by
  induction l using List.reverseRecOn with
  | nil => simp
  | append_singleton l b ih =>
    rw [ofBE_concat, List.length_append, List.length_singleton, pow_succ]
    have hb := b.toNat_lt
    omega

@[simp] theorem length_toBE (k x : ℕ) : (toBE k x).length = k := by
  induction k generalizing x with
  | zero => rfl
  | succ k ih => simp [toBE, ih]

theorem toNat_ofNat_mod (x : ℕ) : (UInt8.ofNat (x % 256)).toNat = x % 256 := by
  rw [UInt8.toNat_ofNat']
  exact Nat.mod_mod x 256

/-- **Round trip** at a fixed width. -/
theorem ofBE_toBE {k x : ℕ} (hx : x < 256 ^ k) : ofBE (toBE k x) = x := by
  induction k generalizing x with
  | zero =>
    have : x = 0 := by simpa using hx
    simp [toBE, this]
  | succ k ih =>
    have hdiv : x / 256 < 256 ^ k := Nat.div_lt_of_lt_mul (by rwa [pow_succ, mul_comm] at hx)
    rw [toBE, ofBE_concat, ih hdiv, toNat_ofNat_mod]
    omega

/-- A byte string is what its number is written as. -/
theorem toBE_ofBE (l : List UInt8) : toBE l.length (ofBE l) = l := by
  induction l using List.reverseRecOn with
  | nil => rfl
  | append_singleton l b ih =>
    have hb : b.toNat < 256 := b.toNat_lt
    have hdiv : (ofBE l * 256 + b.toNat) / 256 = ofBE l := by omega
    have hmod : UInt8.ofNat ((ofBE l * 256 + b.toNat) % 256) = b := by
      rw [← UInt8.toNat_inj, toNat_ofNat_mod]
      omega
    rw [ofBE_concat, List.length_append, List.length_singleton, toBE, hdiv, ih, hmod]

theorem toBE_injOn (k : ℕ) : Set.InjOn (toBE k) {x | x < 256 ^ k} := by
  intro x hx y hy h
  rw [← ofBE_toBE hx, h, ofBE_toBE hy]

/-- **Round trip** at the minimal width. -/
theorem ofBE_minBE (x : ℕ) : ofBE (minBE x) = x := by
  unfold minBE
  split
  · rename_i hx
    rw [hx]
    rfl
  -- the digit written last is the remainder, the others are those of the quotient
  · clear * -
    induction x using Nat.strong_induction_on with
    | _ x ih =>
      rcases Nat.eq_zero_or_pos x with rfl | hpos
      · simp
      · rw [Nat.digits_def' (by norm_num) hpos, List.reverse_cons, List.map_append, List.map_singleton,
          ofBE_concat, ih _ (Nat.div_lt_self hpos (by norm_num)), toNat_ofNat_mod]
        omega

end Bytes
