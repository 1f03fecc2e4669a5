/-
Reading a segmented stream up to a condition.

A stream arrives in segments, and a reader takes whole segments into its buffer
until the buffer satisfies `P`.  What it then holds is the least number of
segments that do (`readUntil_eq_some`), so that a larger number of them that do
shows how much can be left over.

* `readUntil_eq_some`, `readUntil_eq_none` — what is taken, and when the stream
  ends too early;
* `readUntil_least` — what is left after any segments that would have sufficed
  is left.
-/
import Mathlib.Data.List.Infix

namespace Segments

variable {α : Type*} (P : List α → Prop) [DecidablePred P]

/-- The buffer once it satisfies `P` and the segments that are left; `none`
when the stream ends first. -/
def readUntil : List α → List (List α) → Option (List α × List (List α))
  | buffer, [] => if P buffer then some (buffer, []) else none
  | buffer, segment :: segments =>
    if P buffer then some (buffer, segment :: segments)
    else readUntil (buffer ++ segment) segments

variable {P} {buffer b : List α} {segments rest : List (List α)}

theorem readUntil_of_pos (h : P buffer) : readUntil P buffer segments = some (buffer, segments) := by
  cases segments <;> simp [readUntil, h]

theorem readUntil_of_neg {segment : List α} (h : ¬P buffer) :
    readUntil P buffer (segment :: segments) = readUntil P (buffer ++ segment) segments := by
  simp [readUntil, h]

/-- What is taken is in the buffer, and what is left follows it. -/
theorem readUntil_eq_some (h : readUntil P buffer segments = some (b, rest)) :
    ∃ early, segments = early ++ rest ∧ b = buffer ++ early.flatten ∧ P b := by
  induction segments generalizing buffer with
  | nil =>
    simp only [readUntil, Option.ite_none_right_eq_some, Option.some_inj, Prod.mk.injEq] at h
    obtain ⟨hpos, rfl, rfl⟩ := h
    exact ⟨[], rfl, by simp, hpos⟩
  | cons segment segments ih =>
    by_cases hpos : P buffer
    · rw [readUntil_of_pos hpos, Option.some_inj, Prod.mk.injEq] at h
      obtain ⟨rfl, rfl⟩ := h
      exact ⟨[], rfl, by simp, hpos⟩
    · rw [readUntil_of_neg hpos] at h
      obtain ⟨early, rfl, rfl, hb⟩ := ih h
      exact ⟨segment :: early, rfl, by simp, hb⟩

/-- The stream ends too early only when no number of segments suffices. -/
theorem readUntil_eq_none (h : readUntil P buffer segments = none) {early late : List (List α)}
    (hsplit : segments = early ++ late) : ¬P (buffer ++ early.flatten) := by
  induction segments generalizing buffer early with
  | nil =>
    obtain ⟨rfl, -⟩ := List.append_eq_nil_iff.mp hsplit.symm
    simpa [readUntil] using h
  | cons segment segments ih =>
    have hneg : ¬P buffer := by
      intro hpos
      rw [readUntil_of_pos hpos] at h
      cases h
    rw [readUntil_of_neg hneg] at h
    rcases early with _ | ⟨first, early⟩
    · simpa using hneg
    · obtain ⟨rfl, hrest⟩ := List.cons.inj hsplit
      simpa using ih h hrest

/-- Whatever follows segments that suffice is left. -/
theorem readUntil_least (h : readUntil P buffer segments = some (b, rest))
    {early late : List (List α)} (hsplit : segments = early ++ late)
    (hpos : P (buffer ++ early.flatten)) : late <:+ rest := by
  induction segments generalizing buffer early with
  | nil =>
    obtain ⟨-, rfl⟩ := List.append_eq_nil_iff.mp hsplit.symm
    exact List.nil_suffix
  | cons segment segments ih =>
    by_cases hbuffer : P buffer
    · rw [readUntil_of_pos hbuffer, Option.some_inj, Prod.mk.injEq] at h
      obtain ⟨-, rfl⟩ := h
      exact ⟨early, hsplit.symm⟩
    · rw [readUntil_of_neg hbuffer] at h
      rcases early with _ | ⟨first, early⟩
      · exact absurd (by simpa using hpos) hbuffer
      · obtain ⟨rfl, hrest⟩ := List.cons.inj hsplit
        exact ih h hrest (by simpa using hpos)

end Segments
