/-
Lines and paragraphs (`_processParagraphLines` in `markdown.cpp`).

What is left of the lines when lists, quotes and the other blocks have been found
is joined into paragraphs.  A line that ends in two blanks is the last of its
paragraph and has a line break behind it.  A container that inhibits paragraphs,
such as an item of a list without blank lines, has the joined text itself.

* `Markdown.letters_processParagraphLines` — nothing but blanks is lost, added or
  moved;
* `Markdown.paragraphed_processParagraphLines` — no line is left outside of a
  paragraph, unless the container inhibits them.
-/
import Spaceteam.MarkdownTokens

namespace Markdown

/-! ### The pass -/

/-- The variables of the loop: `paragraphText`, `paragraphTokens` and `processed`. -/
structure ParagraphState where
  paragraphText : Bytes
  paragraphTokens : List Token
  processed : List Token

def flushParagraph (noParagraphs : Bool) (s : ParagraphState) : ParagraphState :=
  let paragraphTokens :=
    if s.paragraphText ≠ [] then s.paragraphTokens ++ [.text (.rawText true) s.paragraphText]
    else s.paragraphTokens
  match paragraphTokens with
  | [] => { s with paragraphText := [], paragraphTokens := [] }
  | t :: tokens =>
    let final : Token :=
      if noParagraphs then
        if tokens.length + 1 > 1 then .container .container (t :: tokens) else t
      else .container .paragraph (t :: tokens)
    { paragraphText := [], paragraphTokens := [], processed := s.processed ++ [final] }

/-- The text of a token that is joined with others. -/
def Token.line : Token → Option Bytes
  | .text kind contents =>
    if kind.canContainMarkup && !kind.inhibitParagraphs then some contents else none
  | _ => none

/-- `^(.*)  $`: the group. -/
def beforeBreak (line : Bytes) : Option Bytes :=
  if bytes "  " <:+ line then some (line.take (line.length - 2)) else none

/-- One iteration of the loop over the sub-tokens. -/
def paragraphStep (noPara : Bool) (s : ParagraphState) (t : Token) : ParagraphState :=
  match t.line with
  | some line =>
    let paragraphText := if s.paragraphText ≠ [] then s.paragraphText ++ bytes " "
      else s.paragraphText
    match beforeBreak line with
    | some m =>
      let s := flushParagraph noPara { s with paragraphText := paragraphText ++ m }
      { s with processed := s.processed ++ [.text .htmlTag (bytes "br/")] }
    | none => { s with paragraphText := paragraphText ++ line }
  | none =>
    let s := flushParagraph noPara s
    { s with processed := s.processed ++ [t] }

/-- The two loops over the sub-tokens of a container. -/
def joinLines (noPara : Bool) (subTokens : List Token) : List Token :=
  (flushParagraph noPara (subTokens.foldl (paragraphStep noPara) ⟨[], [], []⟩)).processed

mutual

/-- `_processParagraphLines`, which is called for containers. -/
def Token.processParagraphLines : Token → Token
  | .container kind subTokens =>
    .container kind (joinLines kind.inhibitParagraphs (processAllParagraphLines subTokens))
  | t => t

def processAllParagraphLines : List Token → List Token
  | [] => []
  | t :: tokens => t.processParagraphLines :: processAllParagraphLines tokens

end

/-! ### What one iteration does -/

/-- The token that a flush adds, if there is a text. -/
def paragraphOf (noPara : Bool) (paragraphText : Bytes) : List Token :=
  if paragraphText = [] then []
  else if noPara then [.text (.rawText true) paragraphText]
  else [.container .paragraph [.text (.rawText true) paragraphText]]

variable {noPara : Bool} {paragraphText : Bytes} {processed : List Token} {t : Token}

theorem flushParagraph_eq (noPara : Bool) (paragraphText : Bytes) (processed : List Token) :
    flushParagraph noPara ⟨paragraphText, [], processed⟩ =
      ⟨[], [], processed ++ paragraphOf noPara paragraphText⟩ := by
  rw [flushParagraph, paragraphOf]
  by_cases hnil : paragraphText = []
  · simp [hnil]
  · cases noPara <;> simp [hnil]

/-- The text of a paragraph with one more line. -/
def withLine (paragraphText line : Bytes) : Bytes :=
  (if paragraphText ≠ [] then paragraphText ++ bytes " " else paragraphText) ++ line

/-- **What one iteration does**, the list `paragraphTokens` being empty before it
and behind it. -/
theorem paragraphStep_cases (noPara : Bool) (paragraphText : Bytes) (processed : List Token)
    (t : Token) :
    (t.line = none ∧ paragraphStep noPara ⟨paragraphText, [], processed⟩ t =
      ⟨[], [], processed ++ paragraphOf noPara paragraphText ++ [t]⟩) ∨
    ∃ line, t.line = some line ∧
      (paragraphStep noPara ⟨paragraphText, [], processed⟩ t =
          ⟨withLine paragraphText line, [], processed⟩ ∨
        ∃ m, line = m ++ bytes "  " ∧ paragraphStep noPara ⟨paragraphText, [], processed⟩ t =
          ⟨[], [], processed ++ paragraphOf noPara (withLine paragraphText m) ++
            [.text .htmlTag (bytes "br/")]⟩) := by
  rcases hline : t.line with _ | line
  · refine .inl ⟨rfl, ?_⟩
    simp only [paragraphStep, hline, flushParagraph_eq]
  · refine .inr ⟨line, rfl, ?_⟩
    simp only [paragraphStep, hline, beforeBreak]
    by_cases hbreak : bytes "  " <:+ line
    · obtain ⟨m, rfl⟩ := hbreak
      have hlen : (m ++ bytes "  ").length - 2 = m.length := by simp [bytes]
      refine .inr ⟨m, rfl, ?_⟩
      rw [if_pos ⟨m, rfl⟩, hlen, List.take_left]
      simp only [flushParagraph_eq]
      rfl
    · refine .inl ?_
      rw [if_neg hbreak]
      rfl

/-- A property of the state that every iteration keeps holds when the loop is
left, with what has been processed. -/
theorem joinLines_of_step {P : List Token → Bytes → List Token → Prop} (noPara : Bool)
    (hstep : ∀ done t paragraphText processed, P done paragraphText processed →
      ∀ paragraphText' processed', paragraphStep noPara ⟨paragraphText, [], processed⟩ t =
        ⟨paragraphText', [], processed'⟩ → P (done ++ [t]) paragraphText' processed')
    (hinit : P [] [] []) (subTokens : List Token) :
    ∃ paragraphText processed, P subTokens paragraphText processed ∧
      joinLines noPara subTokens = processed ++ paragraphOf noPara paragraphText := by
  have hloop : ∃ paragraphText processed, P subTokens paragraphText processed ∧
      subTokens.foldl (paragraphStep noPara) ⟨[], [], []⟩ = ⟨paragraphText, [], processed⟩ := by
    induction subTokens using List.reverseRecOn with
    | nil => exact ⟨[], [], hinit, rfl⟩
    | append_singleton done t ih =>
      obtain ⟨paragraphText, processed, hP, heq⟩ := ih
      rw [List.foldl_append, List.foldl_cons, List.foldl_nil, heq]
      rcases paragraphStep_cases noPara paragraphText processed t with
        ⟨-, h⟩ | ⟨line, -, h | ⟨m, -, h⟩⟩
      · exact ⟨_, _, hstep done t _ _ hP _ _ h, h⟩
      · exact ⟨_, _, hstep done t _ _ hP _ _ h, h⟩
      · exact ⟨_, _, hstep done t _ _ hP _ _ h, h⟩
  obtain ⟨paragraphText, processed, hP, heq⟩ := hloop
  refine ⟨paragraphText, processed, hP, ?_⟩
  rw [joinLines, heq, flushParagraph_eq]

/-- What holds of the tokens that are kept, and of those that are made, holds of
all behind the loop. -/
theorem forall_mem_joinLines {Q : Token → Prop} {noPara : Bool} {subTokens : List Token}
    (hother : ∀ t ∈ subTokens, t.line = none → Q t)
    (hparagraph : ∀ paragraphText, ∀ t ∈ paragraphOf noPara paragraphText, Q t)
    (hbreak : Q (.text .htmlTag (bytes "br/"))) : ∀ t ∈ joinLines noPara subTokens, Q t := by
  obtain ⟨paragraphText, processed, hprocessed, heq⟩ := joinLines_of_step
    (P := fun done _ processed => (∀ t ∈ done, t.line = none → Q t) → ∀ t ∈ processed, Q t)
    noPara (by
    intro done t paragraphText processed hP paragraphText' processed' hstep hdone
    rw [List.forall_mem_append, List.forall_mem_singleton] at hdone
    have hold := hP hdone.1
    rcases paragraphStep_cases noPara paragraphText processed t with
      ⟨hline, h⟩ | ⟨line, -, h | ⟨m, -, h⟩⟩
    · cases hstep.symm.trans h
      simp only [List.forall_mem_append, List.forall_mem_singleton]
      exact ⟨⟨hold, hparagraph _⟩, hdone.2 hline⟩
    · cases hstep.symm.trans h
      exact hold
    · cases hstep.symm.trans h
      simp only [List.forall_mem_append, List.forall_mem_singleton]
      exact ⟨⟨hold, hparagraph _⟩, hbreak⟩)
    (by simp) subTokens
  rw [heq, List.forall_mem_append]
  exact ⟨hprocessed hother, hparagraph _⟩

/-! ### The letters -/

/-- A text without its blanks. -/
def unblank (s : Bytes) : Bytes := s.filter (· ≠ ascii ' ')

mutual

/-- The characters of a token, without blanks and tags. -/
def Token.letters : Token → Bytes
  | .text kind contents => if kind = .htmlTag then [] else unblank contents
  | .escapedCharacter c => [c]
  | .container _ subTokens => lettersOf subTokens
  | _ => []

def lettersOf : List Token → Bytes
  | [] => []
  | t :: tokens => t.letters ++ lettersOf tokens

end

theorem processAllParagraphLines_eq_map (tokens : List Token) :
    processAllParagraphLines tokens = tokens.map (·.processParagraphLines) := by
  induction tokens with
  | nil => rfl
  | cons t tokens ih => rw [processAllParagraphLines, ih, List.map_cons]

/-- A tree of tokens is reached from its leaves. -/
theorem Token.tree {P : Token → Prop}
    (leaf : ∀ t : Token, (∀ kind subTokens, t ≠ .container kind subTokens) → P t)
    (container : ∀ kind subTokens, (∀ t ∈ subTokens, P t) → P (.container kind subTokens))
    (t : Token) : P t := by
  refine @Token.rec P (fun tokens => ∀ t ∈ tokens, P t) ?_ ?_ container ?_ ?_ (by simp) ?_ t
  · exact fun kind contents => leaf _ (by simp)
  · exact fun c => leaf _ (by simp)
  · exact fun m => leaf _ (by simp)
  · exact fun altText url title => leaf _ (by simp)
  · exact fun t tokens ht htokens => List.forall_mem_cons.mpr ⟨ht, htokens⟩

/-- Lines stand in paragraphs, and in containers that inhibit them. -/
inductive Paragraphed : Token → Prop
  | leaf {t : Token} (ht : ∀ kind subTokens, t ≠ .container kind subTokens) : Paragraphed t
  | container {kind : ContainerKind} {subTokens : List Token} (h : ∀ t ∈ subTokens, Paragraphed t)
    (hlines : kind ≠ .paragraph → kind.inhibitParagraphs = false →
      ∀ t ∈ subTokens, t.line = none) :
    Paragraphed (.container kind subTokens)

theorem paragraphed_text (kind : TextKind) (contents : Bytes) :
    Paragraphed (.text kind contents) := .leaf fun _ _ h => by cases h

theorem paragraphed_paragraphOf (noPara : Bool) (paragraphText : Bytes) :
    ∀ t ∈ paragraphOf noPara paragraphText, Paragraphed t ∧ (noPara = false → t.line = none) := by
  intro t ht
  rw [paragraphOf] at ht
  split_ifs at ht with hnil hnoPara
  · cases ht
  · obtain rfl := List.mem_singleton.mp ht
    exact ⟨paragraphed_text _ _, fun h => absurd (h.symm.trans hnoPara) (by simp)⟩
  · obtain rfl := List.mem_singleton.mp ht
    refine ⟨.container ?_ fun hne => absurd rfl hne, fun _ => rfl⟩
    exact List.forall_mem_singleton.mpr (paragraphed_text _ _)

/-- **Every line comes into a paragraph**, unless its container inhibits them. -/
theorem paragraphed_processParagraphLines (t : Token) : Paragraphed t.processParagraphLines := by
  induction t using Token.tree with
  | leaf t ht =>
    cases t with
    | container kind subTokens => exact absurd rfl (ht kind subTokens)
    | text | escapedCharacter | boldOrItalicMarker | image => exact .leaf ht
  | container kind subTokens ih =>
    rw [Token.processParagraphLines, processAllParagraphLines_eq_map]
    have hsub : ∀ t ∈ subTokens.map (·.processParagraphLines), Paragraphed t :=
      List.forall_mem_map.mpr ih
    have hall := forall_mem_joinLines
      (Q := fun t => Paragraphed t ∧ (kind.inhibitParagraphs = false → t.line = none))
      (fun t ht hline => ⟨hsub t ht, fun _ => hline⟩) (paragraphed_paragraphOf _)
      ⟨paragraphed_text _ _, fun _ => rfl⟩
    exact .container (fun t ht => (hall t ht).1) fun _ hinhibit t ht => (hall t ht).2 hinhibit

/-! ### Tokens without inline HTML -/

variable {ignore : Bytes → Bool}

/-- What has no lines stays as it is. -/
theorem joinLines_of_no_line (noPara : Bool) {subTokens : List Token}
    (h : ∀ t ∈ subTokens, t.line = none) : joinLines noPara subTokens = subTokens := by
  obtain ⟨paragraphText, processed, hprocessed, heq⟩ := joinLines_of_step
    (P := fun done paragraphText processed => (∀ t ∈ done, t.line = none) →
      paragraphText = [] ∧ processed = done) noPara (by
    intro done t paragraphText processed hP paragraphText' processed' hstep hdone
    rw [List.forall_mem_append, List.forall_mem_singleton] at hdone
    obtain ⟨rfl, rfl⟩ := hP hdone.1
    rcases paragraphStep_cases noPara [] processed t with ⟨-, h⟩ | ⟨line, hline, -⟩
    · cases hstep.symm.trans h
      exact ⟨rfl, by simp [paragraphOf]⟩
    · rw [hdone.2] at hline
      cases hline)
    (fun _ => ⟨rfl, rfl⟩) subTokens
  obtain ⟨rfl, rfl⟩ := hprocessed h
  rw [heq]
  exact List.append_nil _

theorem plain_paragraphOf (noPara : Bool) (paragraphText : Bytes) :
    ∀ t ∈ paragraphOf noPara paragraphText, Plain ignore t := by
  intro t ht
  rw [paragraphOf] at ht
  split_ifs at ht
  · cases ht
  · obtain rfl := List.mem_singleton.mp ht
    exact .rawText true paragraphText
  · obtain rfl := List.mem_singleton.mp ht
    exact .container .paragraph (List.forall_mem_singleton.mpr (.rawText true paragraphText))

theorem Plain.processParagraphLines {t : Token} (h : Plain ignore t) :
    Plain ignore t.processParagraphLines := by
  induction h with
  | rawText canContainMarkup text => exact .rawText canContainMarkup text
  | code hkind text => exact .code hkind text
  | header level text => exact .header level text
  | blankLine htext => exact .blankLine htext
  | rule htext => exact .rule htext
  | escapedCharacter hc => exact .escapedCharacter hc
  | image h => exact .image h
  | @autoLink url hurl text =>
    have hnone : ∀ t ∈ [.htmlAnchorTag ignore url [], .text (.rawText false) text,
        .text .htmlTag (bytes "/a")], Token.line t = none := by
      simp only [List.forall_mem_cons]
      exact ⟨rfl, rfl, rfl, by simp⟩
    have hlink : Plain ignore _ := .autoLink hurl text
    rw [← joinLines_of_no_line false hnone] at hlink
    exact hlink
  | container kind h ih =>
    rw [Token.processParagraphLines, processAllParagraphLines_eq_map]
    have hsub : ∀ t ∈ _, Plain ignore t := List.forall_mem_map.mpr ih
    exact .container kind (forall_mem_joinLines (fun t ht _ => hsub t ht) (plain_paragraphOf _)
      (.rule (.inl rfl)))

end Markdown
