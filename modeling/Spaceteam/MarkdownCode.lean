/-
Indented code (`isCodeBlockLine`, `parseCodeBlock` in `markdown.cpp`).

A block of code is a line that is indented by four blanks and as many lines
behind it as are indented too; blank lines belong to it when an indented one
follows.  The list of tokens from the iterator on stands for the iterator.

* `Markdown.parseCodeBlock_iff` — the longest run of such lines is taken, and its
  text is theirs without the indentation.
-/
import Spaceteam.MarkdownTokens

namespace Markdown

/-! ### The functions -/

def Token.isBlankLine : Token → Bool
  | .text .blankLine _ => true
  | .container (.inlineHtmlBlock _) _ => true
  | _ => false

def indentation : Bytes := List.replicate 4 (ascii ' ')

/-- The text of a token that is indented, without the indentation. -/
def Token.indented : Token → Option Bytes
  | .text kind line =>
    if kind.canContainMarkup ∧ line.length ≥ 4 ∧ line.take 4 = indentation then
      some (line.drop 4)
    else none
  | _ => none

/-- `isCodeBlockLine`: the contents, and what follows. -/
def isCodeBlockLine : List Token → Option (Bytes × List Token)
  | [] => none
  | t :: rest =>
    if t.isBlankLine then
      -- here the code block has been begun already
      (isCodeBlockLine rest).map fun r => (bytes "\n" ++ r.1, r.2)
    else t.indented.map fun contents => (contents, rest)

theorem length_isCodeBlockLine {tokens rest : List Token} {contents : Bytes}
    (h : isCodeBlockLine tokens = some (contents, rest)) : rest.length < tokens.length := by
  induction tokens generalizing contents with
  | nil => cases h
  | cons t tokens ih =>
    rw [isCodeBlockLine] at h
    split_ifs at h
    · obtain ⟨⟨contents', rest'⟩, hr, heq⟩ := Option.map_eq_some_iff.mp h
      cases heq
      exact (ih hr).trans (Nat.lt_succ_self _)
    · obtain ⟨contents', -, heq⟩ := Option.map_eq_some_iff.mp h
      cases heq
      exact Nat.lt_succ_self _

/-- The loop of `parseCodeBlock`: what it writes to `out`, and what follows. -/
def codeLines (tokens : List Token) : Bytes × List Token :=
  match _h : isCodeBlockLine tokens with
  | some (contents, rest) =>
    let r := codeLines rest
    (contents ++ bytes "\n" ++ r.1, r.2)
  | none => ([], tokens)
termination_by tokens.length
decreasing_by exact length_isCodeBlockLine _h

def parseCodeBlock (tokens : List Token) : Option (Token × List Token) :=
  match tokens with
  | [] => none
  | t :: rest =>
    if t.isBlankLine then none
    else
      match isCodeBlockLine (t :: rest) with
      | some (contents, rest) =>
        let r := codeLines rest
        some (.text .codeBlock (contents ++ bytes "\n" ++ r.1), r.2)
      | none => none

/-! ### Lines of code -/

/-- A line of code and the blank lines before it. -/
structure CodeLine where
  blanks : List Token
  kind : TextKind
  line : Bytes
  isBlankLine : ∀ t ∈ blanks, t.isBlankLine = true
  canContainMarkup : kind.canContainMarkup = true

namespace CodeLine

/-- The tokens of the document. -/
def tokens (l : CodeLine) : List Token := l.blanks ++ [.text l.kind (indentation ++ l.line)]

/-- The lines of the code. -/
def text (l : CodeLine) : Bytes :=
  List.replicate l.blanks.length (ascii '\n') ++ l.line ++ bytes "\n"

end CodeLine

theorem exists_of_indented {t : Token} {contents : Bytes} (h : t.indented = some contents) :
    ∃ kind : TextKind, kind.canContainMarkup = true ∧ t = .text kind (indentation ++ contents) := by
  cases t with
  | text kind line =>
    rw [Token.indented] at h
    split_ifs at h with hline
    obtain ⟨hmarkup, -, htake⟩ := hline
    obtain rfl := Option.some_inj.mp h
    exact ⟨kind, hmarkup, by rw [← htake, List.take_append_drop]⟩
  | escapedCharacter | container | boldOrItalicMarker | image => cases h

/-- What is read at once: a line of code with the blank lines before it. -/
theorem exists_codeLine {tokens rest : List Token} {contents : Bytes}
    (h : isCodeBlockLine tokens = some (contents, rest)) :
    ∃ l : CodeLine, tokens = l.tokens ++ rest ∧ contents ++ bytes "\n" = l.text := by
  induction tokens generalizing contents with
  | nil => cases h
  | cons t tokens ih =>
    rw [isCodeBlockLine] at h
    split_ifs at h with hblank
    · obtain ⟨⟨contents', rest'⟩, hr, heq⟩ := Option.map_eq_some_iff.mp h
      cases heq
      obtain ⟨⟨blanks, kind, line, hblanks, hmarkup⟩, rfl, htext⟩ := ih hr
      refine ⟨⟨t :: blanks, kind, line, List.forall_mem_cons.mpr ⟨hblank, hblanks⟩, hmarkup⟩,
        rfl, ?_⟩
      rw [List.append_assoc, htext]
      rfl
    · obtain ⟨contents', hindented, heq⟩ := Option.map_eq_some_iff.mp h
      cases heq
      obtain ⟨kind, hmarkup, rfl⟩ := exists_of_indented hindented
      exact ⟨⟨[], kind, contents, by simp, hmarkup⟩, rfl, rfl⟩

theorem exists_codeLines (tokens : List Token) : ∃ lines : List CodeLine,
    tokens = lines.flatMap CodeLine.tokens ++ (codeLines tokens).2 ∧
      (codeLines tokens).1 = lines.flatMap CodeLine.text ∧
      isCodeBlockLine (codeLines tokens).2 = none := by
  fun_induction codeLines tokens with
  | case1 tokens contents rest h r ih =>
    obtain ⟨l, rfl, htext⟩ := exists_codeLine h
    obtain ⟨lines, htokens, htexts, hnone⟩ := ih
    refine ⟨l :: lines, ?_, ?_, hnone⟩
    · rw [List.flatMap_cons, List.append_assoc, ← htokens]
    · rw [List.flatMap_cons, ← htexts, ← htext]
  | case2 tokens h => exact ⟨[], rfl, rfl, h⟩

theorem indented_text {kind : TextKind} (hmarkup : kind.canContainMarkup = true) (line : Bytes) :
    (Token.text kind (indentation ++ line)).indented = some line := by
  have hlength : indentation.length = 4 := rfl
  have htake : (indentation ++ line).take 4 = indentation := List.take_left' hlength
  have hdrop : (indentation ++ line).drop 4 = line := List.drop_left' hlength
  rw [Token.indented, if_pos ⟨hmarkup, by simp [indentation], htake⟩, hdrop]

theorem isBlankLine_text {kind : TextKind} (hmarkup : kind.canContainMarkup = true)
    (line : Bytes) : (Token.text kind line).isBlankLine = false := by
  cases kind with
  | blankLine => cases hmarkup
  | _ => rfl

/-- A line of code with the blank lines before it is read at once. -/
theorem isCodeBlockLine_tokens (l : CodeLine) (rest : List Token) :
    ∃ contents, isCodeBlockLine (l.tokens ++ rest) = some (contents, rest) ∧
      contents ++ bytes "\n" = l.text := by
  obtain ⟨blanks, kind, line, hblanks, hmarkup⟩ := l
  induction blanks with
  | nil =>
    refine ⟨line, ?_, rfl⟩
    show isCodeBlockLine (.text kind (indentation ++ line) :: rest) = some (line, rest)
    rw [isCodeBlockLine, isBlankLine_text hmarkup, indented_text hmarkup]
    rfl
  | cons t blanks ih =>
    obtain ⟨hblank, hblanks⟩ := List.forall_mem_cons.mp hblanks
    obtain ⟨contents, hcontents, htext⟩ := ih hblanks
    refine ⟨bytes "\n" ++ contents, ?_, ?_⟩
    · show isCodeBlockLine (t :: (blanks ++ [.text kind (indentation ++ line)] ++ rest)) = _
      rw [isCodeBlockLine, if_pos hblank]
      exact congrArg (Option.map _) hcontents
    · rw [List.append_assoc, htext]
      rfl

theorem codeLines_of_some {tokens rest : List Token} {contents : Bytes}
    (h : isCodeBlockLine tokens = some (contents, rest)) :
    codeLines tokens = (contents ++ bytes "\n" ++ (codeLines rest).1, (codeLines rest).2) := by
  rw [codeLines]
  split
  next heq =>
    cases h.symm.trans heq
    rfl
  next heq => cases h.symm.trans heq

theorem codeLines_of_none {tokens : List Token} (h : isCodeBlockLine tokens = none) :
    codeLines tokens = ([], tokens) := by
  rw [codeLines]
  split
  next heq => cases h.symm.trans heq
  next => rfl

theorem codeLines_tokens (lines : List CodeLine) {rest : List Token}
    (hrest : isCodeBlockLine rest = none) :
    codeLines (lines.flatMap CodeLine.tokens ++ rest) = (lines.flatMap CodeLine.text, rest) := by
  induction lines with
  | nil => exact codeLines_of_none hrest
  | cons l lines ih =>
    obtain ⟨contents, hcontents, htext⟩ :=
      isCodeBlockLine_tokens l (lines.flatMap CodeLine.tokens ++ rest)
    rw [List.flatMap_cons, List.append_assoc, codeLines_of_some hcontents, ih, htext]
    rfl

/-- **What a block of code is**: indented lines with blank lines between them, as
many as there are, and their text is that of the lines without the indentation. -/
theorem parseCodeBlock_iff {tokens rest : List Token} {t : Token} :
    parseCodeBlock tokens = some (t, rest) ↔
      ∃ (l : CodeLine) (lines : List CodeLine), l.blanks = [] ∧
        tokens = (l :: lines).flatMap CodeLine.tokens ++ rest ∧ isCodeBlockLine rest = none ∧
        t = .text .codeBlock ((l :: lines).flatMap CodeLine.text) := by
  constructor
  · intro h
    rcases tokens with _ | ⟨first, tokens⟩
    · cases h
    rw [parseCodeBlock] at h
    split_ifs at h with hblank
    split at h
    next contents more hline =>
      cases h
      obtain ⟨l, htokens, htext⟩ := exists_codeLine hline
      obtain ⟨lines, hmore, htexts, hnone⟩ := exists_codeLines more
      refine ⟨l, lines, ?_, ?_, hnone, ?_⟩
      · -- the first token is no blank line
        obtain ⟨blanks, kind, line, hblanks, hmarkup⟩ := l
        rcases blanks with _ | ⟨b, blanks⟩
        · rfl
        · cases htokens
          exact absurd (hblanks _ List.mem_cons_self) hblank
      · rw [htokens, List.flatMap_cons, List.append_assoc, ← hmore]
      · rw [List.flatMap_cons, ← htexts, htext]
    next => cases h
  · rintro ⟨l, lines, hblanks, rfl, hrest, rfl⟩
    obtain ⟨contents, hcontents, htext⟩ :=
      isCodeBlockLine_tokens l (lines.flatMap CodeLine.tokens ++ rest)
    have hfirst : l.tokens = [.text l.kind (indentation ++ l.line)] := by
      rw [CodeLine.tokens, hblanks, List.nil_append]
    rw [hfirst, List.singleton_append] at hcontents
    rw [List.flatMap_cons, hfirst, List.append_assoc, List.singleton_append, parseCodeBlock,
      isBlankLine_text l.canContainMarkup, if_neg Bool.false_ne_true, hcontents]
    dsimp only
    rw [codeLines_tokens lines hrest, htext]
    rfl

end Markdown
