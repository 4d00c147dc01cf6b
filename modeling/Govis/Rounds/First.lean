import Govis.Rounds.Proc

namespace Rounds

/-!
# Loops that stop at the first fault

A loop over the messages of a round looks at one sender after the other and ends at the first
message it cannot process.

* `FirstAt` — a bad element is reached through good ones only;
* `firstAt_others_iff` — the same by the indices of the senders.
-/

variable {good bad : ℕ → Prop}

/-- In the list, some bad element comes after good ones only. -/
def FirstAt (good bad : ℕ → Prop) : List ℕ → Prop
  | [] => False
  | d :: l => bad d ∨ good d ∧ FirstAt good bad l

theorem firstAt_iff_of_sorted {l : List ℕ} (hl : l.Pairwise (· < ·)) :
    FirstAt good bad l ↔ ∃ d ∈ l, bad d ∧ ∀ d' ∈ l, d' < d → good d' := by
  induction l with
  | nil => simp [FirstAt]
  | cons d l ih =>
    obtain ⟨hd, hl⟩ := List.pairwise_cons.mp hl
    rw [FirstAt, ih hl]
    constructor
    · rintro (hbad | ⟨hgood, e, he, hbad, hbefore⟩)
      -- nothing comes before the head
      · refine ⟨d, List.mem_cons_self, hbad, fun d' hd' hlt => ?_⟩
        rcases List.mem_cons.mp hd' with rfl | hd'
        · exact absurd hlt (lt_irrefl _)
        · exact absurd (hd d' hd') (not_lt_of_gt hlt)
      · refine ⟨e, List.mem_cons_of_mem _ he, hbad, fun d' hd' hlt => ?_⟩
        rcases List.mem_cons.mp hd' with rfl | hd'
        · exact hgood
        · exact hbefore d' hd' hlt
    · rintro ⟨e, he, hbad, hbefore⟩
      rcases List.mem_cons.mp he with rfl | he
      · exact .inl hbad
      · exact .inr ⟨hbefore d List.mem_cons_self (hd e he), e, he, hbad,
          fun d' hd' hlt => hbefore d' (List.mem_cons_of_mem _ hd') hlt⟩

theorem sorted_others (n i : ℕ) : (others n i).Pairwise (· < ·) :=
  List.pairwise_lt_range.filter _

/-- **The first fault**, by the indices of the other parties. -/
theorem firstAt_others_iff {n i : ℕ} :
    FirstAt good bad (others n i) ↔
      ∃ d < n, d ≠ i ∧ bad d ∧ ∀ d' < d, d' ≠ i → good d' := by
  rw [firstAt_iff_of_sorted (sorted_others n i)]
  constructor
  · rintro ⟨d, hd, hbad, hbefore⟩
    obtain ⟨hdn, hdi⟩ := mem_others.mp hd
    refine ⟨d, hdn, hdi, hbad, fun d' hlt hd'i => ?_⟩
    exact hbefore d' (mem_others.mpr ⟨lt_trans hlt hdn, hd'i⟩) hlt
  · rintro ⟨d, hdn, hdi, hbad, hbefore⟩
    exact ⟨d, mem_others.mpr ⟨hdn, hdi⟩, hbad, fun d' hd' hlt =>
      hbefore d' hlt (mem_others.mp hd').2⟩

end Rounds
