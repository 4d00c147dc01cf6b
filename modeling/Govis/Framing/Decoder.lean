import Mathlib.Data.List.Infix
import Mathlib.Data.List.Basic

namespace Framing

/-!
# Frames in a stream

A decoder looks at the bytes that have arrived so far and finds the first frame in them, or finds
that there is none yet, or that there will be none.

* `Decoder` — a decoder that does not change its mind when more bytes arrive;
* `Decoder.frames` — all frames of a stream;
* `Reads` — what has been read off a stream, and what is left of it;
* `Reads.frames_eq`, `Reads.append` — reading is independent of how the stream is cut up.
-/

variable {B F : Type}

/-- What a decoder makes of a buffer. -/
inductive Decoded (B F : Type) where
  /-- The buffer holds no whole frame. -/
  | wait
  /-- The first frame, and the bytes after it. -/
  | frame (f : F) (rest : List B)
  /-- No frame can be found any more. -/
  | fail

/-- A decoder whose verdict stands when more bytes arrive. -/
structure Decoder (B F : Type) where
  decode : List B → Decoded B F
  decode_nil : decode [] = .wait
  frame_shorter : ∀ {b f rest}, decode b = .frame f rest → rest.length < b.length
  frame_append : ∀ {b f rest}, decode b = .frame f rest →
    ∀ c, decode (b ++ c) = .frame f (rest ++ c)
  fail_append : ∀ {b}, decode b = .fail → ∀ c, decode (b ++ c) = .fail

/-- All frames of a stream, up to the first failure. -/
def Decoder.frames (D : Decoder B F) (b : List B) : List F :=
  match _h : D.decode b with
  | .frame f rest => f :: D.frames rest
  | .wait => []
  | .fail => []
termination_by b.length
decreasing_by exact D.frame_shorter _h

variable {D : Decoder B F} {b c rest : List B} {f : F} {fs : List F}

theorem frames_of_frame (h : D.decode b = .frame f rest) : D.frames b = f :: D.frames rest := by
  rw [Decoder.frames]
  split
  · rename_i h'
    rw [h, Decoded.frame.injEq] at h'
    rw [h'.1, h'.2]
  · rename_i h'
    rw [h] at h'
    cases h'
  · rename_i h'
    rw [h] at h'
    cases h'

theorem frames_of_wait (h : D.decode b = .wait) : D.frames b = [] := by
  rw [Decoder.frames]
  split
  · rename_i h'
    rw [h] at h'
    cases h'
  · rfl
  · rfl

theorem frames_of_fail (h : D.decode b = .fail) : D.frames b = [] := by
  rw [Decoder.frames]
  split
  · rename_i h'
    rw [h] at h'
    cases h'
  · rfl
  · rfl

@[simp] theorem frames_nil : D.frames [] = [] := frames_of_wait D.decode_nil

variable (D) in
/-- `Reads D b fs rest`: the frames `fs` stand at the start of the stream `b`, before `rest`. -/
inductive Reads : List B → List F → List B → Prop where
  | nil (b : List B) : Reads b [] b
  | cons {b b' rest : List B} {f : F} {fs : List F} :
      D.decode b = .frame f b' → Reads b' fs rest → Reads b (f :: fs) rest

/-- One more frame. -/
theorem Reads.snoc (h : Reads D b fs rest) {rest' : List B} (hd : D.decode rest = .frame f rest') :
    Reads D b (fs ++ [f]) rest' := by
  induction h with
  | nil b => exact .cons hd (.nil rest')
  | cons hb _ ih => exact .cons hb (ih hd)

/-- **Chunks.**  What has been read stands when more bytes arrive. -/
theorem Reads.append (h : Reads D b fs rest) (c : List B) : Reads D (b ++ c) fs (rest ++ c) := by
  induction h with
  | nil b => exact .nil (b ++ c)
  | cons hb _ ih => exact .cons (D.frame_append hb c) ih

/-- **What is left** holds the remaining frames. -/
theorem Reads.frames_eq (h : Reads D b fs rest) : D.frames b = fs ++ D.frames rest := by
  induction h with
  | nil b => rfl
  | cons hb _ ih => rw [frames_of_frame hb, ih, List.cons_append]

variable (D) in
/-- All frames of a stream can be read. -/
theorem exists_reads (b : List B) : ∃ rest, Reads D b (D.frames b) rest := by
  induction hlen : b.length using Nat.strong_induction_on generalizing b with
  | _ k ih =>
    cases hd : D.decode b with
    | wait =>
      rw [frames_of_wait hd]
      exact ⟨b, .nil b⟩
    | fail =>
      rw [frames_of_fail hd]
      exact ⟨b, .nil b⟩
    | frame f b' =>
      obtain ⟨rest, hrest⟩ := ih b'.length (hlen ▸ D.frame_shorter hd) b' rfl
      rw [frames_of_frame hd]
      exact ⟨rest, .cons hd hrest⟩

/-- More bytes only add frames. -/
theorem frames_mono (h : b <+: c) : D.frames b <+: D.frames c := by
  obtain ⟨c', rfl⟩ := h
  obtain ⟨rest, hrest⟩ := exists_reads D b
  rw [(hrest.append c').frames_eq]
  exact List.prefix_append _ _

/-- What has been read is at the start of the frames. -/
theorem Reads.le_frames (h : Reads D b fs rest) : fs <+: D.frames b := by
  rw [h.frames_eq]
  exact List.prefix_append _ _

end Framing
