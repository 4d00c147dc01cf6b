import Govis.Transition

namespace Fifo

open Transition

/-!
# Reliable channels

What a channel is for: whatever is put on it is taken off it once, in the same order.

* `Channel`, `step` — a channel with all that was ever put on it and taken off it;
* `Runs.in_order` — what has been taken is a beginning of what has been put;
* `runs_of_le` — any two stages of a channel in this order are connected by a run.
-/

variable {α : Type}

/-- All that was put on a channel, and all that was taken off it. -/
structure Channel (α : Type) where
  put : List α
  taken : List α

def Channel.empty : Channel α := ⟨[], []⟩

inductive Op (α : Type) where
  | put (a : α)
  | take

/-- The next that is taken is the first that has been put and not taken. -/
def step : Op α → Channel α → Option (Channel α)
  | .put a, c => some { c with put := c.put ++ [a] }
  | .take, c => c.put[c.taken.length]?.map fun a => { c with taken := c.taken ++ [a] }

/-- One stage of a channel leads to another. -/
abbrev Runs (c c' : Channel α) : Prop := Run step (fun _ => True) c c'

/-- **Step lemma.** -/
theorem step_in_order {a : Op α} {c c' : Channel α} (hs : step a c = some c')
    (h : c.taken <+: c.put) : c'.taken <+: c'.put := by
  cases a with
  | put a =>
    cases hs
    exact h.trans (List.prefix_append _ _)
  | take =>
    obtain ⟨a, ha, rfl⟩ := Option.map_eq_some_iff.mp hs
    obtain ⟨rest, hrest⟩ := h
    -- the rest begins with the element that is taken
    have hhead : rest[0]? = some a := by
      rw [← hrest, List.getElem?_append_right (Nat.le_refl _), Nat.sub_self] at ha
      exact ha
    cases rest with
    | nil => cases hhead
    | cons b rest =>
      cases hhead
      exact ⟨rest, by rw [← hrest, List.append_assoc]; rfl⟩

/-- **Run lemma.**  In every stage of a channel, what has been taken is a beginning of what has been
    put. -/
theorem Runs.in_order {c : Channel α} (h : Runs .empty c) : c.taken <+: c.put :=
  Run.invariant (P := fun c : Channel α => c.taken <+: c.put) h
    (fun _ _ _ _ hs hP => step_in_order hs hP) (List.prefix_refl _)

theorem runs_put (c : Channel α) (l : List α) : Runs c { c with put := c.put ++ l } := by
  induction l using List.reverseRecOn with
  | nil =>
    rw [List.append_nil]
    exact Run.refl c
  | append_singleton l a ih =>
    refine ih.tail (a := .put a) trivial ?_
    rw [← List.append_assoc]
    rfl

theorem runs_take {c : Channel α} {l : List α} (h : c.taken ++ l <+: c.put) :
    Runs c { c with taken := c.taken ++ l } := by
  induction l using List.reverseRecOn with
  | nil =>
    rw [List.append_nil]
    exact Run.refl c
  | append_singleton l a ih =>
    rw [← List.append_assoc] at h ⊢
    obtain ⟨rest, hrest⟩ := h
    refine (ih ((List.prefix_append _ _).trans ⟨rest, hrest⟩)).tail (a := .take) trivial ?_
    have hnext : c.put[(c.taken ++ l).length]? = some a := by
      rw [← hrest, List.append_assoc, List.getElem?_append_right (Nat.le_refl _), Nat.sub_self]
      rfl
    show (c.put[(c.taken ++ l).length]?).map _ = _
    rw [hnext]
    rfl

/-- **Stages of one channel.** -/
theorem runs_of_le {c c' : Channel α} (hput : c.put <+: c'.put) (htaken : c.taken <+: c'.taken)
    (h : c'.taken <+: c'.put) : Runs c c' := by
  obtain ⟨put, taken⟩ := c
  obtain ⟨put', taken'⟩ := c'
  obtain ⟨l, rfl⟩ := hput
  obtain ⟨k, rfl⟩ := htaken
  exact (runs_put ⟨put, taken⟩ l).trans (runs_take h)

end Fifo
