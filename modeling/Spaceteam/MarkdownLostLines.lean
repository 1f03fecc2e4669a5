/-
What the pass over the blocks leaves out, and where it fails (`markdown.cpp`).

The iterator is advanced once more behind a block of code than the code is long,
and a line can begin a list within a list for the outer parser and not for the
inner one.

* `Markdown.processBlocks_lost` — the token behind a block of code is not looked at;
* `Markdown.processBlocks_refused` — a list whose item is followed by `  * **text**`
  fails an assertion.
-/
import Spaceteam.MarkdownBlocks

namespace Markdown

/-! ### What is lost behind a block -/

section Lost

variable {l : CodeLine} {lines : List CodeLine} {t : Token} {rest : List Token}

theorem leadingBlanks_indentation (line : Bytes) : 4 ≤ leadingBlanks (indentation ++ line) := by
  rw [leadingBlanks, List.takeWhile_append_of_pos (by simp [indentation]), List.length_append]
  exact Nat.le_add_right 4 _

theorem hashHeader_indented (line : Bytes) : hashHeader (indentation ++ line) = none := by
  have hhashes : (indentation ++ line).takeWhile (· = ascii '#') = [] := rfl
  rw [hashHeader, hhashes]
  exact if_neg fun h => absurd h.1 (by decide)

theorem blockQuoteLine_indented (line : Bytes) : blockQuoteLine (indentation ++ line) = none := by
  have hfour := leadingBlanks_indentation line
  have hmark : quoteMark (indentation ++ line) = none := by
    rw [quoteMark]
    exact if_neg fun h => by omega
  rw [blockQuoteLine]
  split
  next rest hrest => cases hmark.symm.trans hrest
  next => rfl

/-- No header, rule, list or quote begins with an indented line. -/
theorem parseBlock_indented {kind : TextKind} (hmarkup : kind.canContainMarkup = true)
    (line : Bytes) {tokens : List Token}
    (hunderline : (tokens.head?.bind fun next => next.markup.bind underline) = none) (fuel : ℕ) :
    parseBlock (fuel + 1) (.text kind (indentation ++ line) :: tokens) =
      some (parseCodeBlock (.text kind (indentation ++ line) :: tokens)) := by
  have hfour := leadingBlanks_indentation line
  have hfirst : (Token.text kind (indentation ++ line)).markup = some (indentation ++ line) := by
    rw [Token.markup, if_pos hmarkup]
  have hheader : parseHeader (.text kind (indentation ++ line) :: tokens) = none := by
    have hnone : underlinedHeader (indentation ++ line) tokens = none := by
      rw [underlinedHeader]
      cases tokens with
      | nil => rfl
      | cons next tokens =>
        rw [List.head?_cons, Option.bind_some] at hunderline
        rw [List.head?_cons, Option.bind_eq_bind, Option.bind_some, hunderline]
        rfl
    rw [parseHeader, hfirst]
    dsimp only
    rw [hashHeader_indented, hnone]
  have hrule : parseHorizontalRule (.text kind (indentation ++ line) :: tokens) = none := by
    have hnot : isHorizontalRule (indentation ++ line) = false := by
      rw [isHorizontalRule, decide_eq_false (by omega)]
      rfl
    rw [parseHorizontalRule, List.head?_cons, Option.bind_eq_bind, Option.bind_some, hfirst,
      Option.bind_eq_bind, Option.bind_some, hnot]
    rfl
  have hlist : parseListBlock (fuel + 1) false (.text kind (indentation ++ line) :: tokens) =
      some none := by
    have hstart : listStart false (.text kind (indentation ++ line)) = none := by
      rw [listStart, hfirst]
      show ((itemStart (indentation ++ line)).bind fun item =>
        if false = true ∨ leadingBlanks (indentation ++ line) < 4 then _ else none) = none
      rw [Option.bind_eq_none_iff]
      intro item hitem
      exact if_neg fun h => h.elim Bool.false_ne_true (by omega)
    rw [parseListBlock, hstart]
  have hquote : parseBlockQuote (.text kind (indentation ++ line) :: tokens) = some none := by
    rw [parseBlockQuote, hfirst, Option.bind_some, blockQuoteLine_indented]
  rw [parseBlock, hheader, hrule, hlist]
  show (parseBlockQuote _).bind _ = _
  rw [hquote]
  rfl

theorem markup_of_isBlankLine (h : t.isBlankLine = true) : t.markup = none := by
  cases t with
  | text kind contents =>
    cases kind with
    | blankLine => rfl
    | _ => cases h
  | escapedCharacter | container | boldOrItalicMarker | image => rfl

/-- No line of code underlines the one before it. -/
theorem underline_codeLines (lines : List CodeLine) (rest : List Token)
    (hunderline : t.markup.bind underline = none) :
    ((lines.flatMap CodeLine.tokens ++ t :: rest).head?.bind
      fun next => next.markup.bind underline) = none := by
  rcases lines with _ | ⟨⟨blanks, kind, line, hblanks, hmarkup⟩, lines⟩
  · exact hunderline
  rcases blanks with _ | ⟨b, blanks⟩
  · show (Token.text kind (indentation ++ line)).markup.bind underline = none
    rw [Token.markup, if_pos hmarkup]
    rfl
  · show b.markup.bind underline = none
    rw [markup_of_isBlankLine (hblanks b List.mem_cons_self)]
    rfl

/-- **The token behind a block of code is not looked at**, be it a line that is not
indented: the iterator is behind the block already when the loop advances it. -/
theorem processBlocks_lost (hblanks : l.blanks = [])
    (hend : isCodeBlockLine (t :: rest) = none) (hunderline : t.markup.bind underline = none)
    (fuel : ℕ) : processBlocks (fuel + 2) ((l :: lines).flatMap CodeLine.tokens ++ t :: rest) =
      (processBlocks (fuel + 1) rest).map
        (.text .codeBlock ((l :: lines).flatMap CodeLine.text) :: ·) := by
  have hcode := parseCodeBlock_iff.mpr ⟨l, lines, hblanks, rfl, hend, rfl⟩
  have hfirst : (l :: lines).flatMap CodeLine.tokens ++ t :: rest =
      .text l.kind (indentation ++ l.line) :: (lines.flatMap CodeLine.tokens ++ t :: rest) := by
    rw [List.flatMap_cons, CodeLine.tokens, hblanks]
    rfl
  rw [hfirst] at hcode ⊢
  have hblock := parseBlock_indented l.canContainMarkup l.line
    (underline_codeLines lines rest hunderline) fuel
  rw [hcode] at hblock
  rw [processBlocks, hblock]
  show ((processBlocks (fuel + 1) rest).bind fun _ => _) = _
  cases processBlocks (fuel + 1) rest with
  | none => rfl
  | some processed => rfl

/-- A line of code. -/
def codeLine : CodeLine := ⟨[], .rawText true, bytes "int x;", by simp, rfl⟩

theorem processBlocks_lost_line :
    processBlocks 12 ([codeLine].flatMap CodeLine.tokens ++
        .text (.rawText true) (bytes "lost") :: [.text (.rawText true) (bytes "kept")]) =
      (processBlocks 11 [.text (.rawText true) (bytes "kept")]).map
        (.text .codeBlock ([codeLine].flatMap CodeLine.text) :: ·) :=
  processBlocks_lost rfl (Option.isNone_iff_eq_none.mp (by decide +kernel)) rfl 10

end Lost

/-! ### Documents that fail an assertion -/

section Asserts

variable {fuel indent : ℕ} {type : ListType} {first t : Token} {rest : List Token}
  {line text : Bytes}

/-- A line that begins a list within a list, and that the parser of lists refuses. -/
def Refused (indent : ℕ) (line : Bytes) : Prop :=
  startsSublist indent line = true ∧ itemStart line = none

instance : DecidablePred (Refused indent) := fun line =>
  inferInstanceAs (Decidable (startsSublist indent line = true ∧ itemStart line = none))

theorem blanks_append_unindent (s : Bytes) : blanks (leadingBlanks s) ++ unindent s = s := by
  have hblanks : s.takeWhile (· = ascii ' ') = blanks (leadingBlanks s) := by
    refine List.eq_replicate_iff.mpr ⟨rfl, fun c hc => ?_⟩
    have hblank := List.mem_takeWhile_imp hc
    exact of_decide_eq_true hblank
  rw [← hblanks, unindent, List.takeWhile_append_dropWhile]

theorem unindent_blanks_append (n : ℕ) {s : Bytes} (hs : s.head? ≠ some (ascii ' ')) :
    leadingBlanks (blanks n ++ s) = n ∧ unindent (blanks n ++ s) = s := by
  have hblanks : ∀ c ∈ blanks n, decide (c = ascii ' ') = true := fun c hc =>
    decide_eq_true (List.eq_of_mem_replicate hc)
  have hs' : s.takeWhile (· = ascii ' ') = [] ∧ s.dropWhile (· = ascii ' ') = s := by
    cases s with
    | nil => exact ⟨rfl, rfl⟩
    | cons c s =>
      have hc : ¬decide (c = ascii ' ') = true := fun h => hs (congrArg some (of_decide_eq_true h))
      exact ⟨List.takeWhile_cons_of_neg hc, List.dropWhile_cons_of_neg hc⟩
  rw [leadingBlanks, unindent, List.takeWhile_append_of_pos hblanks,
    List.dropWhile_append_of_pos hblanks, hs'.1, hs'.2]
  exact ⟨by simp [blanks], rfl⟩

/-- What no item is made of: one blank, and then nothing, a star or a hyphen. -/
theorem itemText_eq_none_iff {s : Bytes} (h : leadingBlanks s ≥ 1) : itemText s = none ↔
    leadingBlanks s = 1 ∧ ∀ d ∈ (unindent s).head?, d = ascii '*' ∨ d = ascii '-' := by
  rw [itemText]
  split
  next d hd =>
    simp only [hd, Option.mem_def, Option.some_inj, forall_eq']
    by_cases hstar : d = ascii '*' ∨ d = ascii '-'
    · have hnot : ¬(leadingBlanks s ≥ 1 ∧ d ≠ ascii '*' ∧ d ≠ ascii '-') := fun hc =>
        hstar.elim hc.2.1 hc.2.2
      rw [if_neg hnot]
      split_ifs with htwo
      · simp only [false_iff]
        omega
      · simp only [hstar, and_true, true_iff]
        omega
    · rw [if_pos ⟨h, fun heq => hstar (.inl heq), fun heq => hstar (.inr heq)⟩]
      simp [hstar]
  next hnone =>
    simp only [hnone, Option.mem_def, reduceCtorEq, false_implies, implies_true, and_true]
    split_ifs with htwo
    · simp only [false_iff]
      omega
    · simp only [true_iff]
      omega

theorem not_orderedItem_of_bullet {c : UInt8} {s : Bytes} (hline : unindent line = c :: s)
    (hc : isBullet c = true) : orderedItem line = none := by
  have hdigit : ¬IStream.isDigit c = true ∧ c ≠ ascii '.' := by
    simp only [isBullet, Bool.or_eq_true, decide_eq_true_eq] at hc
    rcases hc with (rfl | rfl) | rfl
    all_goals exact ⟨by decide, by decide⟩
  rw [orderedItem, hline, numberedText, List.dropWhile_cons_of_neg hdigit.1]
  exact if_neg fun h => hdigit.2 h.1

/-- Such a line has a bullet, one blank, and then nothing, a star or a hyphen. -/
theorem refused_iff : Refused indent line ↔
    ∃ (n : ℕ) (c : UInt8) (s : Bytes), indent < n ∧ isBullet c = true ∧
      line = blanks n ++ c :: ascii ' ' :: s ∧
      ∀ d ∈ s.head?, d = ascii '*' ∨ d = ascii '-' := by
  constructor
  · rintro ⟨hstarts, hitem⟩
    rw [startsSublist, Bool.and_eq_true, decide_eq_true_eq] at hstarts
    obtain ⟨hindent, hstarts⟩ := hstarts
    have hnot : orderedItem line = none ∧ unorderedItem line = none := by
      rw [itemStart] at hitem
      split at hitem
      next => cases hitem
      next hnone => exact ⟨Option.map_eq_none_iff.mp hitem, hnone⟩
    split at hstarts
    next c s hline =>
      rw [hnot.1, Option.isSome_none, Bool.or_false, Bool.and_eq_true, decide_eq_true_eq]
        at hstarts
      obtain ⟨hbullet, hblank⟩ := hstarts
      have htext : itemText s = none := by
        have hnone := hnot.2
        rw [unorderedItem, hline] at hnone
        dsimp only at hnone
        rw [if_pos hbullet] at hnone
        exact Option.map_eq_none_iff.mp hnone
      obtain ⟨hone, hhead⟩ := (itemText_eq_none_iff hblank).mp htext
      refine ⟨leadingBlanks line, c, unindent s, hindent, hbullet, ?_, hhead⟩
      have hs : blanks 1 ++ unindent s = s := hone ▸ blanks_append_unindent s
      calc line = blanks (leadingBlanks line) ++ c :: s := by
            rw [← hline, blanks_append_unindent]
        _ = blanks (leadingBlanks line) ++ c :: (blanks 1 ++ unindent s) := by rw [hs]
    next => cases hstarts
  · rintro ⟨n, c, s, hindent, hbullet, rfl, hhead⟩
    have hc : c ≠ ascii ' ' := fun heq => absurd hbullet (heq ▸ by decide)
    have hs : s.head? ≠ some (ascii ' ') := fun heq =>
      (hhead _ heq).elim (by decide) (by decide)
    obtain ⟨hleading, hline⟩ := unindent_blanks_append n (s := c :: ascii ' ' :: s)
      fun heq => hc (Option.some_inj.mp heq)
    obtain ⟨hone, hrest⟩ : leadingBlanks (ascii ' ' :: s) = 1 ∧ unindent (ascii ' ' :: s) = s :=
      unindent_blanks_append 1 hs
    refine ⟨?_, ?_⟩
    · rw [startsSublist, hleading, hline]
      dsimp only
      rw [hbullet, hone, decide_eq_true hindent]
      rfl
    · have htext : itemText (ascii ' ' :: s) = none :=
        (itemText_eq_none_iff (by omega)).mpr ⟨hone, by rwa [hrest]⟩
      rw [itemStart, unorderedItem, hline]
      dsimp only
      rw [if_pos hbullet, htext, not_orderedItem_of_bullet hline hbullet]
      rfl

theorem listLoop_refused (ht : t.textOf = some line) (hblank : t.isBlankLine = false)
    (hline : Refused indent line) (fuel : ℕ) (s : ListState) :
    listLoop fuel type indent s (t :: rest) = none := by
  obtain ⟨hstarts, hitem⟩ := hline
  cases fuel with
  | zero => rfl
  | succ fuel =>
    have hmove : listMove type indent (t :: rest) = some (.sublist false (t :: rest)) := by
      rw [listMove.eq_def]
      dsimp only
      rw [hblank, if_neg Bool.false_ne_true, ht]
      dsimp only
      rw [if_pos hstarts]
    have hstart : listStart true t = none := by
      rw [listStart, Option.bind_eq_bind, Option.bind_eq_none_iff]
      intro line' hline'
      obtain rfl := Option.some_inj.mp ((textOf_of_markup hline').symm.trans ht)
      rw [hitem]
      rfl
    rw [listLoop, hmove]
    show ((parseListBlock fuel true (t :: rest)).bind fun r => r.bind _) = none
    cases fuel with
    | zero => rfl
    | succ fuel =>
      rw [parseListBlock, hstart]
      rfl

/-- **A document that fails an assertion**: its first line is that of a list, and the
next is taken for the first of a list in the item, which it cannot be. -/
theorem processBlocks_refused {n : ℕ} {c : UInt8} {s : Bytes}
    (hheader : parseHeader (first :: t :: rest) = none)
    (hrule : parseHorizontalRule (first :: t :: rest) = none)
    (hfirst : listStart false first = some (type, indent, text)) (hblank : t.isBlankLine = false)
    (ht : t.textOf = some (blanks n ++ c :: ascii ' ' :: s)) (hn : indent < n)
    (hbullet : isBullet c = true) (hs : ∀ d ∈ s.head?, d = ascii '*' ∨ d = ascii '-') (fuel : ℕ) :
    processBlocks fuel (first :: t :: rest) = none := by
  have hline : Refused indent (blanks n ++ c :: ascii ' ' :: s) :=
    refused_iff.mpr ⟨n, c, s, hn, hbullet, rfl, hs⟩
  cases fuel with
  | zero => rfl
  | succ fuel =>
    have hlist : parseListBlock fuel false (first :: t :: rest) = none := by
      cases fuel with
      | zero => rfl
      | succ fuel =>
        rw [parseListBlock, hfirst]
        show ((listLoop fuel type indent _ (t :: rest)).bind fun _ => _) = none
        rw [listLoop_refused ht hblank hline]
        rfl
    have hblock : parseBlock fuel (first :: t :: rest) = none := by
      rw [parseBlock, hheader, hrule, hlist]
      rfl
    cases first with
    | text kind contents =>
      rw [processBlocks, hblock]
      rfl
    | escapedCharacter | container | boldOrItalicMarker | image => cases hfirst

theorem processBlocks_refused_emphasis :
    processBlocks 20 [.text (.rawText true) (bytes "* a"),
      .text (.rawText true) (blanks 2 ++ ascii '*' :: ascii ' ' :: bytes "**b**")] = none := by
  have hfirst : listStart false (.text (.rawText true) (bytes "* a")) =
      some (.unordered (ascii '*'), 0, bytes "a") := by decide +kernel
  have hs : ∀ d ∈ (bytes "**b**").head?, d = ascii '*' ∨ d = ascii '-' :=
    fun d hd => .inl (Option.some_inj.mp hd).symm
  exact processBlocks_refused (n := 2) (c := ascii '*') (s := bytes "**b**")
    (Option.isNone_iff_eq_none.mp (by decide +kernel))
    (Option.isNone_iff_eq_none.mp (by decide +kernel)) hfirst rfl rfl (by decide) (by decide) hs 20

end Asserts

end Markdown
