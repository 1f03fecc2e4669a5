/-
The lines of a markdown text (`markdown.cpp`).

`_getline` takes `\n`, `\r`, `\r\n` and `\n\r` for the end of a line and writes
spaces in place of a tab, up to the next column that is a multiple of four.
`read` calls it until it has neither found a line end nor any other character.

* `Markdown.readLines_of_lineEnd` — the lines of a text are the same whichever
  of the line ends it is written with;
* `Markdown.not_mem_readLines` — no line has a line end or a tab;
* `Markdown.dvd_length_expandTabs` — a tab leads to a multiple of four;
* `StaticHandler.handleRequest_rewritten` — a markdown file is answered with the
  same page whichever of the line ends it is written with.
-/
import Spaceteam.StaticHandler

namespace Markdown

/-- `cSpacesPerInitialTab`, and `cDefaultSpacesPerTab` too. -/
def cSpacesPerInitialTab : ℕ := 4

/-- The rest of the stream when `c` is taken if it comes next, and put back if it
is another character. -/
def getIf (c : UInt8) (s : Bytes) : Bytes := if s.head? = some c then s.tail else s

/-- `_getline` with `line` so far: its result, the line and the rest of the
stream. -/
def getline (cSpacesPerTab : ℕ) (line : Bytes) (initialWhitespace : Bool) :
    Bytes → Bool × Bytes × Bytes
  | [] => (!line.isEmpty, line, [])
  | c :: s =>
    if c = ascii '\r' then (true, line, getIf (ascii '\n') s)
    else if c = ascii '\n' then (true, line, getIf (ascii '\r') s)
    else if c = ascii '\t' then
      let convert := if initialWhitespace then cSpacesPerInitialTab else cSpacesPerTab
      getline cSpacesPerTab
        (line ++ List.replicate (convert - line.length % convert) (ascii ' ')) initialWhitespace s
    else getline cSpacesPerTab (line ++ [c]) (if c ≠ ascii ' ' then false else initialWhitespace) s

theorem length_getIf_le (c : UInt8) (s : Bytes) : (getIf c s).length ≤ s.length := by
  unfold getIf
  split_ifs
  · simp
  · exact le_rfl

variable {cSpacesPerTab : ℕ}

theorem length_getline (line : Bytes) (initialWhitespace : Bool) (s : Bytes) :
    (getline cSpacesPerTab line initialWhitespace s).2.2.length ≤ s.length - 1 := by
  fun_induction getline cSpacesPerTab line initialWhitespace s with
  | case1 => simp
  | case2 line initialWhitespace s => simpa using length_getIf_le _ s
  | case3 line initialWhitespace s _ => simpa using length_getIf_le _ s
  | case4 line initialWhitespace s _ _ convert ih =>
    rw [List.length_cons, Nat.add_sub_cancel]
    exact ih.trans (Nat.sub_le _ _)
  | case5 line initialWhitespace c s _ _ _ ih =>
    rw [List.length_cons, Nat.add_sub_cancel]
    exact ih.trans (Nat.sub_le _ _)

/-- The lines that `read` makes tokens of. -/
def readLines (cSpacesPerTab : ℕ) : Bytes → List Bytes
  | [] => []
  | c :: s =>
    let r := getline cSpacesPerTab [] true (c :: s)
    if r.1 then r.2.1 :: readLines cSpacesPerTab r.2.2 else []
termination_by s => s.length
decreasing_by exact Nat.lt_succ_of_le (length_getline [] true (c :: s))

/-! ### The lines of a text -/

/-- What `_getline` makes of the characters of a line. -/
def expand (cSpacesPerTab : ℕ) (line : Bytes) (initialWhitespace : Bool) : Bytes → Bytes
  | [] => line
  | c :: s =>
    if c = ascii '\t' then
      let convert := if initialWhitespace then cSpacesPerInitialTab else cSpacesPerTab
      expand cSpacesPerTab
        (line ++ List.replicate (convert - line.length % convert) (ascii ' ')) initialWhitespace s
    else expand cSpacesPerTab (line ++ [c]) (if c ≠ ascii ' ' then false else initialWhitespace) s

def expandTabs (cSpacesPerTab : ℕ) (s : Bytes) : Bytes := expand cSpacesPerTab [] true s

/-- A character ends a line. -/
def IsLineEnd (c : UInt8) : Prop := c = ascii '\n' ∨ c = ascii '\r'

instance : DecidablePred IsLineEnd := fun _ => inferInstanceAs (Decidable (_ ∨ _))

theorem getline_append {u : Bytes} (hu : ∀ c ∈ u, ¬IsLineEnd c) (line : Bytes)
    (initialWhitespace : Bool) (s : Bytes) : ∃ white,
    getline cSpacesPerTab line initialWhitespace (u ++ s) =
      getline cSpacesPerTab (expand cSpacesPerTab line initialWhitespace u) white s := by
  induction u generalizing line initialWhitespace with
  | nil => exact ⟨initialWhitespace, rfl⟩
  | cons c u ih =>
    obtain ⟨hc, hu⟩ := List.forall_mem_cons.mp hu
    obtain ⟨hlf, hcr⟩ := not_or.mp hc
    rw [List.cons_append, getline, if_neg hcr, if_neg hlf, expand]
    split_ifs <;> exact ih hu _ _

/-- The line ends that are read as one. -/
def lineEnds : List Bytes := [bytes "\n", bytes "\r", bytes "\r\n", bytes "\n\r"]

theorem getIf_of_head (c : UInt8) (s : Bytes) : getIf c (c :: s) = s := if_pos rfl

theorem getIf_of_ne {c : UInt8} {s : Bytes} (h : ∀ d ∈ s.head?, d ≠ c) : getIf c s = s := by
  refine if_neg fun hhead => ?_
  exact h c hhead rfl

/-- Text that can follow a line end without being taken for its second half. -/
def Follows (lineEnd s : Bytes) : Prop :=
  ∀ c ∈ s.head?, IsLineEnd c → lineEnd.head? = some c

theorem getline_lineEnd {lineEnd : Bytes} (hend : lineEnd ∈ lineEnds) {s : Bytes}
    (hs : Follows lineEnd s) (line : Bytes) (initialWhitespace : Bool) :
    getline cSpacesPerTab line initialWhitespace (lineEnd ++ s) = (true, line, s) := by
  have hne : ascii '\n' ≠ ascii '\r' := by decide
  simp only [lineEnds, List.mem_cons, List.not_mem_nil, or_false] at hend
  rcases hend with rfl | rfl | rfl | rfl
  · have hrest : getIf (ascii '\r') s = s := by
      refine getIf_of_ne fun d hd => ?_
      rintro rfl
      have heq := hs _ hd (.inr rfl)
      exact hne (Option.some_inj.mp heq)
    show getline cSpacesPerTab line initialWhitespace (ascii '\n' :: s) = _
    rw [getline, if_neg hne, if_pos rfl, hrest]
  · have hrest : getIf (ascii '\n') s = s := by
      refine getIf_of_ne fun d hd => ?_
      rintro rfl
      have heq := hs _ hd (.inl rfl)
      exact hne (Option.some_inj.mp heq).symm
    show getline cSpacesPerTab line initialWhitespace (ascii '\r' :: s) = _
    rw [getline, if_pos rfl, hrest]
  · show getline cSpacesPerTab line initialWhitespace (ascii '\r' :: ascii '\n' :: s) = _
    rw [getline, if_pos rfl, getIf_of_head]
  · show getline cSpacesPerTab line initialWhitespace (ascii '\n' :: ascii '\r' :: s) = _
    rw [getline, if_neg hne, if_pos rfl, getIf_of_head]

theorem readLines_of_getline {s line rest : Bytes}
    (h : getline cSpacesPerTab [] true s = (true, line, rest)) :
    readLines cSpacesPerTab s = line :: readLines cSpacesPerTab rest := by
  rcases s with _ | ⟨c, s⟩
  · cases h
  · rw [readLines]
    simp only [h, if_true]

/-- One line, and its end. -/
theorem readLines_cons {line lineEnd : Bytes} (hline : ∀ c ∈ line, ¬IsLineEnd c)
    (hend : lineEnd ∈ lineEnds) {s : Bytes} (hs : Follows lineEnd s) :
    readLines cSpacesPerTab (line ++ (lineEnd ++ s)) =
      expandTabs cSpacesPerTab line :: readLines cSpacesPerTab s := by
  obtain ⟨white, hline⟩ := @getline_append cSpacesPerTab line hline [] true
    (lineEnd ++ s)
  refine readLines_of_getline ?_
  rw [hline, getline_lineEnd hend hs]
  rfl

/-- The last line may lack its end, and is not there when it is empty. -/
theorem readLines_last {line : Bytes} (hline : ∀ c ∈ line, ¬IsLineEnd c) :
    readLines cSpacesPerTab line =
      if expandTabs cSpacesPerTab line = [] then [] else [expandTabs cSpacesPerTab line] := by
  obtain ⟨white, hgetline⟩ := @getline_append cSpacesPerTab line hline [] true []
  rw [List.append_nil, getline] at hgetline
  rcases line with _ | ⟨c, line⟩
  · rw [readLines]
    rfl
  · rw [readLines]
    simp only [hgetline]
    change (if !(expandTabs cSpacesPerTab (c :: line)).isEmpty then _ else _) = _
    by_cases hempty : expandTabs cSpacesPerTab (c :: line) = []
    · simp [hempty]
    · simp only [List.isEmpty_eq_false_iff.mpr hempty, Bool.not_false, if_true, if_neg hempty,
        readLines]
      rfl

/-- **The line ends do not matter**: a text with any of them is read into its
lines, with the tabs expanded. -/
theorem readLines_of_lineEnd {lineEnd : Bytes} (hend : lineEnd ∈ lineEnds) {lines : List Bytes}
    (hlines : ∀ line ∈ lines, ∀ c ∈ line, ¬IsLineEnd c) {last : Bytes}
    (hlast : ∀ c ∈ last, ¬IsLineEnd c) :
    readLines cSpacesPerTab (lines.flatMap (· ++ lineEnd) ++ last) =
      lines.map (expandTabs cSpacesPerTab) ++
        if expandTabs cSpacesPerTab last = [] then [] else [expandTabs cSpacesPerTab last] := by
  induction lines with
  | nil => exact readLines_last hlast
  | cons line lines ih =>
    obtain ⟨hline, hlines⟩ := List.forall_mem_cons.mp hlines
    have hfollows : Follows lineEnd (lines.flatMap (· ++ lineEnd) ++ last) := by
      intro c hc hend'
      rcases lines with _ | ⟨line, lines⟩
      · exact absurd hend' (hlast c (List.mem_of_mem_head? hc))
      · rcases line with _ | ⟨d, line⟩
        · -- an empty line: its own end follows
          rw [List.flatMap_cons, List.nil_append, List.append_assoc] at hc
          rcases lineEnd with _ | ⟨e, lineEnd⟩
          · exact absurd hend (by decide)
          · exact hc
        · obtain rfl : d = c := Option.some_inj.mp hc
          exact absurd hend' (hlines _ List.mem_cons_self d List.mem_cons_self)
    rw [List.flatMap_cons, List.append_assoc, List.append_assoc, readLines_cons hline hend hfollows,
      ih hlines]
    rfl

/-! ### What a line consists of -/

/-- The character does not occur in a line. -/
def Expanded (c : UInt8) : Prop := ¬IsLineEnd c ∧ c ≠ ascii '\t'

theorem getIf_suffix (c : UInt8) (s : Bytes) : getIf c s <:+ s := by
  rw [getIf]
  split_ifs
  · exact List.tail_suffix s
  · exact List.suffix_rfl

theorem getline_suffix (line : Bytes) (initialWhitespace : Bool) (s : Bytes) :
    (getline cSpacesPerTab line initialWhitespace s).2.2 <:+ s := by
  fun_induction getline cSpacesPerTab line initialWhitespace s with
  | case1 => exact List.suffix_rfl
  | case2 line initialWhitespace s => exact (getIf_suffix _ s).trans (List.suffix_cons _ s)
  | case3 line initialWhitespace s => exact (getIf_suffix _ s).trans (List.suffix_cons _ s)
  | case4 line initialWhitespace s _ _ convert ih => exact ih.trans (List.suffix_cons _ s)
  | case5 line initialWhitespace c s _ _ _ ih => exact ih.trans (List.suffix_cons _ s)

section Characters

variable {Q : UInt8 → Prop}

/-- The characters of a line are blanks and characters of the text. -/
theorem forall_mem_getline (hblank : Q (ascii ' ')) {line : Bytes} (hline : ∀ c ∈ line, Q c)
    (initialWhitespace : Bool) {s : Bytes} (hs : ∀ c ∈ s, Expanded c → Q c) :
    ∀ c ∈ (getline cSpacesPerTab line initialWhitespace s).2.1, Q c := by
  fun_induction getline cSpacesPerTab line initialWhitespace s with
  | case1 => exact hline
  | case2 line initialWhitespace s => exact hline
  | case3 line initialWhitespace s _ => exact hline
  | case4 line initialWhitespace s _ _ convert ih =>
    refine ih (List.forall_mem_append.mpr ⟨hline, fun c hc => ?_⟩)
      (List.forall_mem_cons.mp hs).2
    rw [List.eq_of_mem_replicate hc]
    exact hblank
  | case5 line initialWhitespace c s hcr hlf htab ih =>
    obtain ⟨hc, hs⟩ := List.forall_mem_cons.mp hs
    refine ih (List.forall_mem_append.mpr ⟨hline, ?_⟩) hs
    exact List.forall_mem_singleton.mpr (hc ⟨not_or.mpr ⟨hlf, hcr⟩, htab⟩)

theorem forall_mem_readLines (hblank : Q (ascii ' ')) {s : Bytes}
    (hs : ∀ c ∈ s, Expanded c → Q c) :
    ∀ line ∈ readLines cSpacesPerTab s, ∀ c ∈ line, Q c := by
  fun_induction readLines cSpacesPerTab s with
  | case1 => simp
  | case2 c s r hr ih =>
    rw [List.forall_mem_cons]
    refine ⟨forall_mem_getline hblank (by simp) true hs, ih fun d hd => hs d ?_⟩
    exact (getline_suffix [] true (c :: s)).subset hd
  | case3 => simp

end Characters

/-- **No line has a line end or a tab.** -/
theorem not_mem_readLines (s : Bytes) :
    ∀ line ∈ readLines cSpacesPerTab s, ∀ c ∈ line, Expanded c := by
  refine forall_mem_readLines ⟨?_, by decide⟩ fun c _ h => h
  rw [IsLineEnd]
  decide

theorem expand_append (line : Bytes) (initialWhitespace : Bool) (u v : Bytes) : ∃ white,
    expand cSpacesPerTab line initialWhitespace (u ++ v) =
      expand cSpacesPerTab (expand cSpacesPerTab line initialWhitespace u) white v := by
  induction u generalizing line initialWhitespace with
  | nil => exact ⟨initialWhitespace, rfl⟩
  | cons c u ih =>
    rw [List.cons_append, expand, expand]
    split_ifs <;> exact ih _ _

/-- **A tab leads to a column that is a multiple of four.** -/
theorem dvd_length_expandTabs (u : Bytes) :
    4 ∣ (expandTabs cSpacesPerInitialTab (u ++ [ascii '\t'])).length := by
  obtain ⟨white, happend⟩ := @expand_append cSpacesPerInitialTab [] true u
    [ascii '\t']
  rw [expandTabs, happend, expand, if_pos rfl, ite_self, expand, List.length_append,
    List.length_replicate, cSpacesPerInitialTab]
  omega

/-! ### The files that are sent -/

/-- `write` after `read`: the rest of the conversion goes by the lines. -/
def writeLines (render : List Bytes → Option Bytes) (text : Bytes) : Option Bytes :=
  render (readLines cSpacesPerInitialTab text)

/-- The same lines, each time with one of the line ends. -/
def Rewritten (text text' : Bytes) : Prop :=
  ∃ (lines : List Bytes) (last : Bytes), (∀ line ∈ lines, ∀ c ∈ line, ¬IsLineEnd c) ∧
    (∀ c ∈ last, ¬IsLineEnd c) ∧ ∃ lineEnd ∈ lineEnds, ∃ lineEnd' ∈ lineEnds,
      text = lines.flatMap (· ++ lineEnd) ++ last ∧ text' = lines.flatMap (· ++ lineEnd') ++ last

theorem Rewritten.writeLines_eq {text text' : Bytes} (h : Rewritten text text')
    (render : List Bytes → Option Bytes) : writeLines render text = writeLines render text' := by
  obtain ⟨lines, last, hlines, hlast, lineEnd, hend, lineEnd', hend', rfl, rfl⟩ := h
  rw [writeLines, writeLines, readLines_of_lineEnd hend hlines hlast,
    readLines_of_lineEnd hend' hlines hlast]

/-- Two file systems that differ in the line ends of markdown files only. -/
structure SameButLineEnds (fs fs' : FileSystem) : Prop where
  status : fs.status = fs'.status
  canonical : fs.canonical = fs'.canonical
  read : ∀ file, fs.read file = fs'.read file ∨ extension file = bytes ".md" ∧
    ∃ text text', fs.read file = some text ∧ fs'.read file = some text' ∧ Rewritten text text'

end Markdown

namespace StaticHandler

open Markdown

/-- **The line ends of a markdown file do not matter**: every request is answered
as if it had others. -/
theorem handleRequest_rewritten {fs fs' : FileSystem} (h : SameButLineEnds fs fs')
    (render : List Bytes → Option Bytes) (handler : StaticHandler) (request : Request)
    (response : Response) :
    handleRequest fs (writeLines render) handler request response =
      handleRequest fs' (writeLines render) handler request response := by
  obtain ⟨hstatus, hcanonical, hread⟩ := h
  unfold handleRequest answerPath
  simp only [hstatus, hcanonical]
  rcases hfile : fs'.canonical (handler.relativePath request.uri) with _ | file
  · rfl
  rcases hroot : fs'.canonical handler.root with _ | root
  · rfl
  rcases hread file with heq | ⟨hmd, text, text', htext, htext', hrewritten⟩
  · simp only [heq]
  · -- the page is written from the lines, which are the same
    have hpage := hrewritten.writeLines_eq render
    simp only [htext, htext', hmd, if_true, MarkdownDocument.read, MarkdownDocument.new,
      Bool.false_eq_true, if_false, List.nil_append, hpage]

/-- A markdown file of two lines. -/
def notesFileSystem (lineEnd : Bytes) : FileSystem where
  status _ := some .regular
  canonical path :=
    if path = bytes "/srv" then some [bytes "srv"] else some [bytes "srv", bytes "notes.md"]
  read file := if file = [bytes "srv", bytes "notes.md"] then
      some ([bytes "# Notes"].flatMap (· ++ lineEnd) ++ bytes "none")
    else none

theorem rewritten_notes : Rewritten ([bytes "# Notes"].flatMap (· ++ bytes "\n") ++ bytes "none")
    ([bytes "# Notes"].flatMap (· ++ bytes "\r\n") ++ bytes "none") :=
  ⟨_, _, List.forall_mem_singleton.mpr (Bytes.forall_mem_of_all (by decide +kernel)),
    Bytes.forall_mem_of_all (by decide +kernel), _, by decide, _, by decide, rfl, rfl⟩

/-- Every line in a paragraph of its own. -/
def renderLines (lines : List Bytes) : Option Bytes :=
  some (lines.flatMap fun line => bytes "<p>" ++ line ++ bytes "</p>")

theorem handleRequest_rewritten_notes :
    handleRequest (notesFileSystem (bytes "\n")) (writeLines renderLines)
        ⟨bytes "/s", bytes "/srv"⟩ (Request.parse (bytes "GET /s/notes.md HTTP/1.1\r\n\r\n"))
        (.fresh .ok) =
      handleRequest (notesFileSystem (bytes "\r\n")) (writeLines renderLines)
        ⟨bytes "/s", bytes "/srv"⟩ (Request.parse (bytes "GET /s/notes.md HTTP/1.1\r\n\r\n"))
        (.fresh .ok) := by
  have hsame : SameButLineEnds (notesFileSystem (bytes "\n")) (notesFileSystem (bytes "\r\n")) := by
    refine ⟨rfl, rfl, fun file => ?_⟩
    simp only [notesFileSystem]
    split_ifs with hfile
    · exact .inr ⟨by rw [hfile]; decide +kernel, _, _, rfl, rfl, rewritten_notes⟩
    · exact .inl rfl
  exact handleRequest_rewritten hsame renderLines _ _ _

end StaticHandler
