import Mathlib.Algebra.BigOperators.Group.List.Basic

namespace Framing

/-!
# Concatenated fields

Fields that are written one after the other without their lengths.

* `AlignedButOne` — the lengths of the fields agree, except perhaps for one of them;
* `AlignedButOne.flatten_eq_iff` — then the concatenation determines the fields;
* `exists_append_of_flatMap_eq` — what stands before a suffix of blocks of one width is a prefix of
  blocks.
-/

variable {α β : Type}

/-- Lists of equal sums that agree but for one place are equal. -/
theorem eq_of_eraseIdx_eq {M : Type} [AddCancelMonoid M] {l l' : List M} {k : ℕ}
    (hlen : l.length = l'.length) (hsum : l.sum = l'.sum)
    (h : l.eraseIdx k = l'.eraseIdx k) : l = l' := by
  induction l generalizing l' k with
  | nil => exact (List.length_eq_zero_iff.mp hlen.symm).symm
  | cons a l ih =>
    cases l' with
    | nil => cases hlen
    | cons b l' =>
      rw [List.sum_cons, List.sum_cons] at hsum
      cases k with
      | zero =>
        rw [List.eraseIdx_cons_zero, List.eraseIdx_cons_zero] at h
        subst h
        rw [add_right_cancel hsum]
      | succ k =>
        rw [List.eraseIdx_cons_succ, List.eraseIdx_cons_succ] at h
        obtain ⟨rfl, htail⟩ := List.cons.inj h
        rw [ih (Nat.succ.inj hlen) (add_left_cancel hsum) htail]

/-- The lengths of the fields agree, except perhaps for one field. -/
def AlignedButOne (L L' : List (List α)) : Prop :=
  L.length = L'.length ∧
    ∃ k, (L.map List.length).eraseIdx k = (L'.map List.length).eraseIdx k

/-- **Aligned fields** are determined by their concatenation. -/
theorem AlignedButOne.flatten_eq_iff {L L' : List (List α)} (h : AlignedButOne L L') :
    L.flatten = L'.flatten ↔ L = L' := by
  refine ⟨fun hflat => ?_, congrArg List.flatten⟩
  obtain ⟨hlen, k, hk⟩ := h
  have hsum : (L.map List.length).sum = (L'.map List.length).sum := by
    rw [← List.length_flatten, ← List.length_flatten, hflat]
  refine List.eq_iff_flatten_eq.mpr ⟨hflat, eq_of_eraseIdx_eq ?_ hsum hk⟩
  rw [List.length_map, List.length_map, hlen]

section Blocks

variable {enc : α → List β} {w : ℕ}

theorem length_flatMap_of_width (hw : ∀ a, (enc a).length = w) (l : List α) :
    (l.flatMap enc).length = l.length * w := by
  rw [List.length_flatMap, List.map_congr_left fun a _ => hw a, List.map_const', List.sum_replicate_nat]

/-- **Blocks of one width.**  What stands before a suffix of blocks is a prefix of blocks. -/
theorem exists_append_of_flatMap_eq (hw : ∀ a, (enc a).length = w) (hpos : 0 < w)
    (hinj : Function.Injective fun l : List α => l.flatMap enc) {l l' : List α} {s : List β}
    (h : l'.flatMap enc = s ++ l.flatMap enc) : ∃ u, l' = u ++ l ∧ s = u.flatMap enc := by
  have hlen := congrArg List.length h
  rw [List.length_append, length_flatMap_of_width hw, length_flatMap_of_width hw] at hlen
  have hle : l.length ≤ l'.length := Nat.le_of_mul_le_mul_right (by omega) hpos
  -- cut the longer list where the shorter one begins
  set d := l'.length - l.length with hd
  have hsplit : (l'.take d).flatMap enc ++ (l'.drop d).flatMap enc = s ++ l.flatMap enc := by
    rw [← List.flatMap_append, List.take_append_drop, h]
  have hdrop : ((l'.drop d).flatMap enc).length = (l.flatMap enc).length := by
    rw [length_flatMap_of_width hw, length_flatMap_of_width hw, List.length_drop]
    congr 1
    omega
  obtain ⟨hs, hl⟩ := List.append_inj' hsplit hdrop
  refine ⟨l'.take d, ?_, hs.symm⟩
  rw [← hinj hl, List.take_append_drop]

end Blocks

end Framing
