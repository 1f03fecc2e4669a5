/-
Texts taken apart at a delimiter.

`cut d text` is what stands before the first `d` of a text and what stands
behind it, and `pieces d text` cuts again and again, up to the first piece
that is empty.  When the first element of `d` does not occur in a piece, the
piece is found again whatever follows it:

* `cut_append` — one piece;
* `pieces_flatMap` — a list of pieces that are not empty, ended by an empty one.

`lines a text` are the lines of a text, each ended by one element `a` but for
the last, which may lack its end.
-/
import Mathlib.Data.List.Infix

namespace Delimited

variable {α : Type*} [DecidableEq α]

/-- What stands before the first `d` and behind it; `none` without a `d`. -/
def cut (d : List α) : List α → Option (List α × List α)
  | [] => if d = [] then some ([], []) else none
  | a :: text =>
    if d <+: a :: text then some ([], (a :: text).drop d.length)
    else (cut d text).map fun parts => (a :: parts.1, parts.2)

variable {d : List α} {text u v : List α}

theorem cut_delimiter_append (v : List α) : cut d (d ++ v) = some ([], v) := by
  rcases htext : d ++ v with _ | ⟨a, text⟩
  · obtain ⟨rfl, rfl⟩ := List.append_eq_nil_iff.mp htext
    simp [cut]
  · have hbegins : d <+: a :: text := htext ▸ List.prefix_append d v
    have hrest : (a :: text).drop d.length = v := by
      rw [← htext, List.drop_left]
    rw [cut, if_pos hbegins, hrest]

/-- The two parts are what the text consists of. -/
theorem eq_of_cut (h : cut d text = some (u, v)) : text = u ++ d ++ v := by
  induction text generalizing u with
  | nil =>
    simp only [cut, Option.ite_none_right_eq_some, Option.some_inj, Prod.mk.injEq] at h
    obtain ⟨rfl, rfl, rfl⟩ := h
    rfl
  | cons a text ih =>
    by_cases hbegins : d <+: a :: text
    · obtain ⟨rest, hrest⟩ := hbegins
      rw [← hrest, cut_delimiter_append, Option.some_inj, Prod.mk.injEq] at h
      obtain ⟨rfl, rfl⟩ := h
      rw [List.nil_append, hrest]
    · rw [cut, if_neg hbegins, Option.map_eq_some_iff] at h
      obtain ⟨⟨u', v'⟩, hcut, hparts⟩ := h
      obtain ⟨rfl, rfl⟩ := Prod.mk.inj hparts
      rw [ih hcut]
      rfl

/-- A part without the first element of the delimiter ends at the delimiter. -/
theorem cut_append {a : α} (hu : a ∉ u) (v : List α) :
    cut (a :: d) (u ++ a :: d ++ v) = some (u, v) := by
  induction u with
  | nil => exact cut_delimiter_append v
  | cons b u ih =>
    obtain ⟨hne, hmem⟩ := List.ne_and_not_mem_of_not_mem_cons hu
    have hbegins : ¬a :: d <+: b :: (u ++ a :: d ++ v) := by
      intro h
      exact hne (List.cons_prefix_cons.mp h).1
    rw [List.cons_append, List.cons_append, cut, if_neg hbegins, ih hmem]
    rfl

/-- Behind a part that is not empty the text is shorter. -/
theorem length_lt_of_cut (h : cut d text = some (u, v)) (hu : u ≠ []) :
    v.length < text.length := by
  have hpos := List.length_pos_of_ne_nil hu
  rw [eq_of_cut h]
  simp only [List.length_append]
  omega

/-- The pieces before the first empty one, and the text behind that one; `none`
when the text ends first. -/
def pieces (d text : List α) : Option (List (List α) × List α) :=
  match _h : cut d text with
  | none => none
  | some (u, v) =>
    if _hu : u = [] then some ([], v)
    else (pieces d v).map fun parts => (u :: parts.1, parts.2)
termination_by text.length
decreasing_by exact length_lt_of_cut _h _hu

theorem pieces_of_cut_nil (h : cut d text = some ([], v)) : pieces d text = some ([], v) := by
  rw [pieces]
  split
  next hcut =>
    rw [h] at hcut
    cases hcut
  next hcut =>
    rw [h] at hcut
    cases hcut
    rfl

theorem pieces_of_cut (h : cut d text = some (u, v)) (hu : u ≠ []) :
    pieces d text = (pieces d v).map fun parts => (u :: parts.1, parts.2) := by
  rw [pieces]
  split
  next hcut =>
    rw [h] at hcut
    cases hcut
  next hcut =>
    rw [h] at hcut
    cases hcut
    rw [dif_neg hu]

/-- **Pieces are found again**: none of them is empty or has the first element
of the delimiter, and whatever stands behind the empty one is left alone. -/
theorem pieces_flatMap {a : α} {parts : List (List α)}
    (hparts : ∀ part ∈ parts, part ≠ [] ∧ a ∉ part) (rest : List α) :
    pieces (a :: d) (parts.flatMap (· ++ a :: d) ++ a :: d ++ rest) = some (parts, rest) := by
  induction parts with
  | nil => exact pieces_of_cut_nil (cut_delimiter_append rest)
  | cons part parts ih =>
    obtain ⟨hne, hmem⟩ := hparts part List.mem_cons_self
    have hbehind := ih fun p hp => hparts p (List.mem_cons_of_mem part hp)
    have htext : (part :: parts).flatMap (· ++ a :: d) ++ a :: d ++ rest =
        part ++ a :: d ++ (parts.flatMap (· ++ a :: d) ++ a :: d ++ rest) := by
      simp only [List.flatMap_cons, List.append_assoc]
    rw [htext, pieces_of_cut (cut_append hmem _) hne, hbehind]
    rfl

/-! ### Lines -/

/-- The lines of a text; there is no empty line at its end. -/
def lines (a : α) : List α → List (List α)
  | [] => []
  | b :: text =>
    if b = a then [] :: lines a text
    else
      match lines a text with
      | [] => [[b]]
      | line :: rest => (b :: line) :: rest

theorem lines_append {a : α} {line : List α} (hline : a ∉ line) (rest : List α) :
    lines a (line ++ a :: rest) = line :: lines a rest := by
  induction line with
  | nil => simp [lines]
  | cons b line ih =>
    obtain ⟨hne, hmem⟩ := List.ne_and_not_mem_of_not_mem_cons hline
    rw [List.cons_append, lines, if_neg (Ne.symm hne), ih hmem]

theorem lines_of_not_mem {a : α} {line : List α} (hline : a ∉ line) (hne : line ≠ []) :
    lines a line = [line] := by
  induction line with
  | nil => exact absurd rfl hne
  | cons b line ih =>
    obtain ⟨hb, hmem⟩ := List.ne_and_not_mem_of_not_mem_cons hline
    rw [lines, if_neg (Ne.symm hb)]
    rcases line with _ | ⟨c, line⟩
    · rfl
    · rw [ih hmem (List.cons_ne_nil c line)]

end Delimited
