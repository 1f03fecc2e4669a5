/-
What the pass over the blocks makes of the lines (`markdown.cpp`).

A block is made of the lines that are passed: each function that looks for one
takes some tokens from the front of the list, and what it makes of them is a
block which says no more than they do.  The lists, which have lists in their
items, go by induction on the fuel, and so does the pass.

* `Markdown.ink_processBlocksItems` — the blocks say nothing that the lines do not
  say, and nothing in another order.
-/
import Spaceteam.MarkdownBlocks

namespace Markdown

/-! ### What is said -/

/-- A text without its blanks and line ends. -/
def inkBytes (s : Bytes) : Bytes := s.filter fun c => c ≠ ascii ' ' ∧ c ≠ ascii '\n'

mutual

/-- The characters of a token, with those of its tags or without them. -/
def Token.ink (tags : Bool) : Token → Bytes
  | .text kind contents => if kind = .htmlTag ∧ tags = false then [] else inkBytes contents
  | .container _ subTokens => inkOf tags subTokens
  | _ => []

def inkOf (tags : Bool) : List Token → Bytes
  | [] => []
  | t :: tokens => t.ink tags ++ inkOf tags tokens

end

theorem inkBytes_append (s s' : Bytes) : inkBytes (s ++ s') = inkBytes s ++ inkBytes s' :=
  List.filter_append ..

theorem inkBytes_newline : inkBytes (bytes "\n") = [] := by decide

theorem inkOf_append (tags : Bool) (tokens tokens' : List Token) :
    inkOf tags (tokens ++ tokens') = inkOf tags tokens ++ inkOf tags tokens' := by
  induction tokens with
  | nil => rfl
  | cons t tokens ih => rw [List.cons_append, inkOf, inkOf, ih, List.append_assoc]

theorem inkOf_singleton (tags : Bool) (t : Token) : inkOf tags [t] = t.ink tags :=
  List.append_nil _

theorem ink_text (kind : TextKind) (contents : Bytes) :
    (Token.text kind contents).ink true = inkBytes contents :=
  if_neg fun h => Bool.true_eq_false_eq_False h.2

theorem ink_of_textOf {t : Token} {line : Bytes} (h : t.textOf = some line) :
    t.ink true = inkBytes line := by
  cases t with
  | text kind contents =>
    obtain rfl := Option.some_inj.mp h
    exact ink_text kind contents
  | escapedCharacter | container | boldOrItalicMarker | image => cases h

/-- A group of a line says no more than the line. -/
theorem ink_of_sublist {t : Token} {line text : Bytes} (ht : t.textOf = some line)
    (h : text.Sublist line) : (inkBytes text).Sublist (t.ink true) := by
  rw [ink_of_textOf ht]
  exact h.filter _

/-- Without the tags less is said. -/
theorem ink_false_sublist (t : Token) : (t.ink false).Sublist (t.ink true) := by
  induction t using Token.tree with
  | leaf t ht =>
    cases t with
    | text kind contents =>
      rw [ink_text, Token.ink]
      split_ifs
      · exact List.nil_sublist _
      · exact List.Sublist.refl _
    | container kind subTokens => exact absurd rfl (ht kind subTokens)
    | escapedCharacter | boldOrItalicMarker | image => exact List.Sublist.refl _
  | container kind subTokens ih =>
    rw [Token.ink, Token.ink]
    induction subTokens with
    | nil => exact List.Sublist.refl _
    | cons t subTokens ihtokens =>
      obtain ⟨ht, hsub⟩ := List.forall_mem_cons.mp ih
      rw [inkOf, inkOf]
      exact ht.append (ihtokens hsub)

/-! ### What a block takes from the lines -/

def TextKind.isLine : TextKind → Bool
  | rawText _ | header _ | codeBlock | blankLine => true
  | _ => false

/-- What there is in a document without inline HTML before its spans are looked for. -/
inductive IsBlock : Token → Prop
  | line {kind : TextKind} (hkind : kind.isLine = true) (contents : Bytes) :
    IsBlock (.text kind contents)
  | rule : IsBlock (.text .htmlTag (bytes "hr/"))
  | container (kind : ContainerKind) {subTokens : List Token} (h : ∀ t ∈ subTokens, IsBlock t) :
    IsBlock (.container kind subTokens)

/-- Tokens have been made of lines, which stand before the rest. -/
structure Takes (made tokens rest : List Token) : Prop where
  ink : ∃ taken, tokens = taken ++ rest ∧ (inkOf true made).Sublist (inkOf true taken)
  blocks : ∀ t ∈ made, IsBlock t

/-- The tokens that a move adds. -/
def ListMove.made : ListMove → List Token
  | .more added _ _ => added
  | .anotherItem _ text _ => [.text (.rawText true) text]
  | .sublist _ _ | .endOfList _ | .stop _ => []

/-- The tokens that a move leads to. -/
def ListMove.rest : ListMove → List Token
  | .sublist _ rest | .more _ _ rest | .anotherItem _ _ rest | .endOfList rest | .stop rest => rest

section Takes

variable {made made' tokens rest rest' : List Token} {t : Token} {line text : Bytes}
  {kind : TextKind}

theorem takes_nil (tokens : List Token) : Takes [] tokens tokens :=
  ⟨⟨[], rfl, List.Sublist.refl _⟩, by simp⟩

theorem takes_line (ht : t.textOf = some line) (htext : text.Sublist line)
    (hkind : kind.isLine = true) (tokens : List Token) :
    Takes [.text kind text] (t :: tokens) tokens := by
  refine ⟨⟨[t], rfl, ?_⟩, List.forall_mem_singleton.mpr (.line hkind text)⟩
  rw [inkOf_singleton, inkOf_singleton, ink_text]
  exact ink_of_sublist ht htext

theorem takes_rawText (ht : t.textOf = some line) (htext : text.Sublist line)
    (tokens : List Token) : Takes [.text (.rawText true) text] (t :: tokens) tokens :=
  takes_line ht htext rfl tokens

namespace Takes

theorem append (h : Takes made tokens rest) (h' : Takes made' rest rest') :
    Takes (made ++ made') tokens rest' := by
  obtain ⟨⟨taken, rfl, hink⟩, hblocks⟩ := h
  obtain ⟨⟨taken', rfl, hink'⟩, hblocks'⟩ := h'
  refine ⟨⟨taken ++ taken', (List.append_assoc _ _ _).symm, ?_⟩,
    List.forall_mem_append.mpr ⟨hblocks, hblocks'⟩⟩
  rw [inkOf_append, inkOf_append]
  exact hink.append hink'

theorem skip (h : Takes made tokens rest) (t : Token) : Takes made (t :: tokens) rest := by
  obtain ⟨⟨taken, rfl, hink⟩, hblocks⟩ := h
  exact ⟨⟨t :: taken, rfl, hink.trans (List.sublist_append_right _ _)⟩, hblocks⟩

/-- Other tokens that say the same. -/
theorem remake (h : Takes made tokens rest) (hink : inkOf true made' = inkOf true made)
    (hblocks : ∀ t ∈ made', IsBlock t) : Takes made' tokens rest := by
  obtain ⟨⟨taken, htaken, hmade⟩, -⟩ := h
  exact ⟨⟨taken, htaken, hink ▸ hmade⟩, hblocks⟩

theorem container (h : Takes made tokens rest) (kind : ContainerKind) :
    Takes [.container kind made] tokens rest :=
  h.remake (inkOf_singleton _ _) (List.forall_mem_singleton.mpr (.container kind h.blocks))

theorem tail (h : Takes made tokens rest) : Takes made tokens rest.tail := by
  cases rest with
  | nil => exact h
  | cons t rest => exact List.append_nil made ▸ h.append ((takes_nil rest).skip t)

theorem suffix (h : Takes made tokens rest) : rest <:+ tokens := by
  obtain ⟨⟨taken, htaken, -⟩, -⟩ := h
  exact ⟨taken, htaken.symm⟩

theorem ink_append (h : Takes made tokens rest) :
    (inkOf true made ++ inkOf true rest).Sublist (inkOf true tokens) := by
  obtain ⟨⟨taken, rfl, hink⟩, -⟩ := h
  rw [inkOf_append]
  exact hink.append (List.Sublist.refl _)

/-- A blank line comes to what is made. -/
theorem blankLine (h : Takes made tokens rest) :
    Takes (.text .blankLine [] :: made) tokens rest :=
  h.remake rfl (List.forall_mem_cons.mpr ⟨.line rfl [], h.blocks⟩)

/-- Code behind code. -/
theorem code {code code' : Bytes} (h : Takes [.text .codeBlock text] tokens rest)
    (h' : Takes [.text .codeBlock code] rest rest')
    (hink : inkBytes code' = inkBytes text ++ inkBytes code) :
    Takes [.text .codeBlock code'] tokens rest' := by
  refine (h.append h').remake ?_ (List.forall_mem_singleton.mpr (.line rfl code'))
  rw [inkOf_append, inkOf_singleton, inkOf_singleton, inkOf_singleton, ink_text, ink_text,
    ink_text, hink]

end Takes

theorem takes_parseHeader (h : parseHeader tokens = some (t, rest)) :
    Takes [t] tokens rest.tail := by
  rcases tokens with _ | ⟨first, tokens⟩
  · cases h
  rw [parseHeader] at h
  split at h
  next line hline =>
    have hfirst := textOf_of_markup hline
    split at h
    next level text htext =>
      cases h
      exact takes_line hfirst (hashHeader_sublist htext) rfl tokens
    next =>
      obtain ⟨next, -, h⟩ := Option.bind_eq_some_iff.mp h
      obtain ⟨typeChar, -, h⟩ := Option.bind_eq_some_iff.mp h
      cases h
      exact (takes_line hfirst (List.Sublist.refl _) rfl rest).tail
  next => cases h

theorem parseHorizontalRule_eq (h : parseHorizontalRule tokens = some (t, rest)) :
    t = .text .htmlTag (bytes "hr/") ∧ rest = tokens := by
  obtain ⟨first, -, h⟩ := Option.bind_eq_some_iff.mp h
  obtain ⟨line, -, h⟩ := Option.bind_eq_some_iff.mp h
  split_ifs at h
  cases h
  exact ⟨rfl, rfl⟩

theorem takes_parseCodeBlock (h : parseCodeBlock tokens = some (t, rest)) :
    Takes [t] tokens rest := by
  obtain ⟨l, lines, -, rfl, -, rfl⟩ := parseCodeBlock_iff.mp h
  have hlines : ∀ lines : List CodeLine, (inkBytes (lines.flatMap CodeLine.text)).Sublist
      (inkOf true (lines.flatMap CodeLine.tokens)) := by
    intro lines
    induction lines with
    | nil => exact List.Sublist.refl _
    | cons l lines ih =>
      have hblanks : inkBytes (List.replicate l.blanks.length (ascii '\n')) = [] := by
        simp [inkBytes]
      have htext : inkBytes l.text = inkBytes l.line := by
        rw [CodeLine.text, inkBytes_append, inkBytes_append, inkBytes_newline, hblanks,
          List.append_nil, List.nil_append]
      have hline : (inkBytes l.line).Sublist (inkBytes (indentation ++ l.line)) :=
        (List.sublist_append_right indentation l.line).filter _
      rw [List.flatMap_cons, List.flatMap_cons, inkBytes_append, inkOf_append, htext,
        CodeLine.tokens, inkOf_append, inkOf_singleton, ink_text]
      exact (hline.trans (List.sublist_append_right _ _)).append ih
  refine ⟨⟨_, rfl, ?_⟩, List.forall_mem_singleton.mpr (.line rfl _)⟩
  rw [inkOf_singleton, ink_text]
  exact hlines (l :: lines)

theorem takes_quoteLines {quoteLevel : ℕ} (h : quoteLines quoteLevel tokens = some (made, rest)) :
    Takes made tokens rest := by
  fun_induction quoteLines quoteLevel tokens generalizing made rest with
  | case1 =>
    cases h
    exact takes_nil []
  | case2 t hblank =>
    cases h
    exact (takes_nil []).skip t
  | case3 t hblank next tokens ih =>
    obtain ⟨line, hline, h⟩ := Option.bind_eq_some_iff.mp h
    split at h
    next text htext =>
      obtain ⟨⟨made', rest'⟩, hr, h⟩ := Option.bind_eq_some_iff.mp h
      cases h
      have hnext := takes_rawText hline (continuation_sublist htext) tokens
      exact ((hnext.append (ih hr)).blankLine).skip t
    next =>
      cases h
      exact takes_nil _
  | case4 t tokens hblank ih =>
    obtain ⟨line, hline, h⟩ := Option.bind_eq_some_iff.mp h
    split at h
    next text htext =>
      obtain ⟨⟨made', rest'⟩, hr, h⟩ := Option.bind_eq_some_iff.mp h
      cases h
      refine (takes_line hline (continuation_sublist htext) ?_ tokens).append (ih hr)
      split_ifs
      · rfl
      · rfl
    next =>
      cases h
      exact takes_nil _

theorem takes_parseBlockQuote (h : parseBlockQuote tokens = some (some (t, rest))) :
    Takes [t] tokens rest := by
  rcases tokens with _ | ⟨first, tokens⟩
  · cases h
  rw [parseBlockQuote] at h
  split at h
  next quoteLevel text hfirst =>
    obtain ⟨line, hline, htext⟩ := Option.bind_eq_some_iff.mp hfirst
    obtain ⟨⟨made, rest'⟩, hr, h⟩ := Option.bind_eq_some_iff.mp h
    cases h
    have hquote := takes_rawText (textOf_of_markup hline) (blockQuoteLine_sublist htext) tokens
    exact (hquote.append (takes_quoteLines hr)).container .blockQuote
  next => cases h

theorem takes_codeInItem {indent : ℕ} {code : Bytes}
    (h : codeInItem indent tokens = some (code, rest)) :
    Takes [.text .codeBlock code] tokens rest := by
  have hnone : ∀ tokens, Takes [.text .codeBlock []] tokens tokens := fun tokens =>
    (takes_nil tokens).remake rfl (List.forall_mem_singleton.mpr (.line rfl []))
  fun_induction codeInItem indent tokens generalizing code rest with
  | case1 =>
    cases h
    exact hnone []
  | case2 t hblank => cases h
  | case3 t hblank next tokens ih =>
    obtain ⟨line, hline, h⟩ := Option.bind_eq_some_iff.mp h
    split at h
    next text htext =>
      obtain ⟨⟨code', rest'⟩, hr, h⟩ := Option.bind_eq_some_iff.mp h
      cases h
      refine ((takes_line hline (behindBlanks_sublist htext) rfl tokens).code (ih hr) ?_).skip t
      simp only [inkBytes_append, inkBytes_newline, List.nil_append, List.append_nil]
    next =>
      cases h
      exact hnone _
  | case4 t tokens hblank text htext ih =>
    obtain ⟨line, hline, htext⟩ := Option.bind_eq_some_iff.mp htext
    obtain ⟨⟨code', rest'⟩, hr, h⟩ := Option.bind_eq_some_iff.mp h
    cases h
    refine (takes_line hline (behindBlanks_sublist htext) rfl tokens).code (ih hr) ?_
    simp only [inkBytes_append, inkBytes_newline, List.append_nil]
  | case5 t tokens hblank htext =>
    cases h
    exact hnone _

/-- The next move of a list, whether a blank line stands in front of it or not. -/
theorem takes_listMove {type : ListType} {indent : ℕ} {move : ListMove}
    (h : listMove type indent tokens = some move) : Takes move.made tokens move.rest := by
  rcases tokens with _ | ⟨t, tokens⟩
  · cases h
    exact takes_nil []
  rw [listMove.eq_def] at h
  dsimp only at h
  split at h
  -- the blank line is passed, unless the list ends before it
  next hblank =>
    split at h
    next =>
      cases h
      exact (takes_nil []).skip t
    next next tokens =>
      split at h
      next =>
        cases h
        exact takes_nil _
      next line hline =>
        -- the list in the item is left to `parseListBlock`
        split at h
        next =>
          cases h
          exact (takes_nil _).skip t
        -- another item
        split at h
        next text htext =>
          cases h
          exact (takes_rawText hline (nextItem_sublist htext) tokens).skip t
        -- a paragraph of the item: the blank line comes to it again
        split at h
        next text htext =>
          cases h
          have hnext := takes_rawText hline (continuedAfterBlankLine_sublist htext) tokens
          exact hnext.blankLine.skip t
        -- code in the item, with the lines of code behind it
        split at h
        next text htext =>
          obtain ⟨⟨code, rest⟩, hr, h⟩ := Option.bind_eq_some_iff.mp h
          cases h
          have hink : inkBytes (text ++ bytes "\n" ++ code) = inkBytes text ++ inkBytes code := by
            simp only [inkBytes_append, inkBytes_newline, List.append_nil]
          have hcode := (takes_line hline (behindBlanks_sublist htext) rfl tokens).code
            (takes_codeInItem hr) hink
          exact hcode.blankLine.skip t
        next =>
          cases h
          exact takes_nil _
  -- a line right behind the item; only another item and more text of it are taken
  next =>
    split at h
    next =>
      cases h
      exact takes_nil _
    next line hline =>
      split at h
      next =>
        cases h
        exact takes_nil _
      split at h
      next text htext =>
        cases h
        exact takes_rawText hline (nextItem_sublist htext) tokens
      -- an item of another list ends this one
      split at h
      next =>
        cases h
        exact takes_nil _
      next =>
        obtain ⟨text, htext, rfl⟩ := Option.map_eq_some_iff.mp h
        exact takes_rawText hline (continuedItem_sublist htext) tokens

end Takes

/-! ### Lists -/

section Lists

variable {fuel indent : ℕ} {sub : Bool} {type : ListType} {t : Token}
  {tokens rest : List Token}

theorem itemStart_sublist {line text : Bytes} (h : itemStart line = some (type, text)) :
    text.Sublist line := by
  rw [itemStart] at h
  split at h
  next startChar text' hunordered =>
    cases h
    exact unorderedItem_sublist hunordered
  next =>
    obtain ⟨text', hordered, heq⟩ := Option.map_eq_some_iff.mp h
    cases heq
    exact orderedItem_sublist hordered

theorem listStart_sublist {text : Bytes} (h : listStart sub t = some (type, indent, text)) :
    ∃ line, t.textOf = some line ∧ text.Sublist line := by
  obtain ⟨line, hline, h⟩ := Option.bind_eq_some_iff.mp h
  obtain ⟨⟨type', text'⟩, hitem, h⟩ := Option.bind_eq_some_iff.mp h
  dsimp only at h
  split_ifs at h
  cases h
  exact ⟨line, textOf_of_markup hline, itemStart_sublist hitem⟩

/-- The tokens of the items that have been read. -/
def ListState.made (s : ListState) : List Token := s.subTokens ++ s.subItemTokens

theorem flush_subItemTokens (s : ListState) : s.flush.subItemTokens = [] := by
  rw [ListState.flush]
  split_ifs with hnil
  · rfl
  · exact not_not.mp hnil

theorem Takes.flush {s : ListState} (h : Takes s.made tokens rest) :
    Takes s.flush.made tokens rest := by
  rw [ListState.flush]
  split_ifs with hnil
  · obtain ⟨hsub, hitem⟩ := List.forall_mem_append.mp h.blocks
    refine h.remake ?_ ?_
    · simp only [ListState.made, inkOf_append, inkOf_singleton, List.append_nil]
      rfl
    · rw [ListState.made, List.append_nil, List.forall_mem_append, List.forall_mem_singleton]
      exact ⟨hsub, .container _ hitem⟩
  · exact h

theorem ink_paragraphItem (h : IsBlock t) :
    t.paragraphItem.ink true = t.ink true ∧ IsBlock t.paragraphItem := by
  rw [Token.paragraphItem.eq_def]
  split
  next inhibitParagraphs subItemTokens =>
    cases h with
    | container kind hsub => exact ⟨rfl, .container _ hsub⟩
  next => exact ⟨rfl, h⟩

theorem Takes.listToken (h : Takes made tokens rest) (type : ListType) (paragraphMode : Bool) :
    Takes [listToken type made paragraphMode] tokens rest := by
  have hitems : ∀ items : List Token, (∀ t ∈ items, IsBlock t) →
      inkOf true (items.map Token.paragraphItem) = inkOf true items ∧
        ∀ t ∈ items.map Token.paragraphItem, IsBlock t := by
    intro items hblocks
    induction items with
    | nil => exact ⟨rfl, by simp⟩
    | cons t items ih =>
      obtain ⟨ht, hblocks⟩ := List.forall_mem_cons.mp hblocks
      obtain ⟨hink, hall⟩ := ih hblocks
      obtain ⟨hitem, hblock⟩ := ink_paragraphItem ht
      rw [List.map_cons, inkOf, inkOf, hink, hitem]
      exact ⟨rfl, List.forall_mem_cons.mpr ⟨hblock, hall⟩⟩
  cases paragraphMode with
  | true =>
    obtain ⟨hink, hblocks⟩ := hitems made h.blocks
    exact (h.remake hink hblocks).container _
  | false => exact h.container _

/-- Lists within lists: what the parser and its loop take, by induction on the fuel. -/
theorem takes_lists (fuel : ℕ) :
    (∀ sub tokens t rest, parseListBlock fuel sub tokens = some (some (t, rest)) →
      Takes [t] tokens rest) ∧
    (∀ type indent s start tokens s' rest, Takes s.made start tokens →
      listLoop fuel type indent s tokens = some (s', rest) → Takes s'.made start rest) := by
  induction fuel with
  | zero =>
    refine ⟨fun sub tokens t rest h => ?_, fun type indent s start tokens s' rest hs h => ?_⟩
    · cases h
    · cases h
  | succ fuel ih =>
    obtain ⟨ihparse, ihloop⟩ := ih
    refine ⟨fun sub tokens t rest h => ?_, fun type indent s start tokens s' rest hs h => ?_⟩
    -- the parser: the first item comes from the first line, the others from the loop
    · rcases tokens with _ | ⟨first, tokens⟩
      · cases h
      rw [parseListBlock] at h
      split at h
      next type indent text hstart =>
        obtain ⟨⟨s, rest'⟩, hloop, h⟩ := Option.bind_eq_some_iff.mp h
        dsimp only at h
        split_ifs at h
        · cases h
          obtain ⟨line, hline, htext⟩ := listStart_sublist hstart
          have hfirst : Takes (ListState.made ⟨[], [.text (.rawText true) text], 1, false⟩)
              (first :: tokens) tokens := takes_rawText hline htext tokens
          have hitems := (ihloop _ _ _ _ _ _ _ hfirst hloop).flush
          rw [ListState.made, flush_subItemTokens, List.append_nil] at hitems
          exact hitems.listToken type s.setParagraphMode
        · cases h
      next => cases h
    -- the loop: what the items have taken so far, with what the move takes
    · rw [listLoop] at h
      obtain ⟨move, hmove, h⟩ := Option.bind_eq_some_iff.mp h
      have htaken := takes_listMove hmove
      cases move with
      | sublist paragraphMode tokens' =>
        obtain ⟨r, hr, h⟩ := Option.bind_eq_some_iff.mp h
        obtain ⟨⟨p, rest'⟩, rfl, h⟩ := Option.bind_eq_some_iff.mp h
        -- the parser has taken the list in the item
        refine ihloop _ _ _ _ _ _ _ ?_ h
        have hsub := hs.append (htaken.append (ihparse _ _ _ _ hr))
        rwa [ListState.made, List.append_assoc] at hsub
      | more added isCode rest' =>
        refine ihloop _ _ _ _ _ _ _ ?_ h
        have hmore := hs.append htaken
        rwa [ListState.made, List.append_assoc] at hmore
      | anotherItem paragraphMode text rest' =>
        refine ihloop _ _ _ _ _ _ _ ?_ h
        -- the item read before is closed first
        have hanother := hs.flush.append htaken
        rwa [ListState.made, flush_subItemTokens, List.append_nil] at hanother
      | endOfList rest' =>
        cases h
        have hend := hs.flush.append htaken
        rwa [ListMove.made, List.append_nil] at hend
      | stop rest' =>
        cases h
        have hend := hs.append htaken
        rwa [ListMove.made, List.append_nil] at hend

/-! ### The pass over the blocks -/

/-- **What a block takes**: a rule stands for its line, and any other block is made of
the lines that are passed. -/
theorem takes_parseBlock (h : parseBlock fuel tokens = some (some (t, rest))) :
    (t = .text .htmlTag (bytes "hr/") ∧ rest = tokens) ∨ Takes [t] tokens rest.tail := by
  rw [parseBlock] at h
  split at h
  next r hheader =>
    cases h
    exact .inr (takes_parseHeader hheader)
  split at h
  next r hrule =>
    cases h
    exact .inl (parseHorizontalRule_eq hrule)
  obtain ⟨list, hlist, h⟩ := Option.bind_eq_some_iff.mp h
  split at h
  next r =>
    cases h
    exact .inr ((takes_lists fuel).1 _ _ _ _ hlist).tail
  obtain ⟨quote, hquote, h⟩ := Option.bind_eq_some_iff.mp h
  split at h
  next r =>
    cases h
    exact .inr (takes_parseBlockQuote hquote).tail
  next => exact .inr (takes_parseCodeBlock (Option.some_inj.mp h)).tail

/-- What the pass leaves of a token, and of the tokens of a container: by induction
on the fuel, as a block is gone through again when it has been made. -/
theorem processBlocks_spec (fuel : ℕ) :
    (∀ t t' : Token, t.processBlocksItems fuel = some t' →
      (t'.ink false).Sublist (t.ink true) ∧ (IsBlock t → IsBlock t')) ∧
    (∀ tokens r, processBlocks fuel tokens = some r →
      (inkOf false r).Sublist (inkOf true tokens) ∧
        ((∀ t ∈ tokens, IsBlock t) → ∀ t ∈ r, IsBlock t)) := by
  induction fuel with
  | zero =>
    refine ⟨fun t t' h => ?_, fun tokens r h => ?_⟩
    · cases h
    · cases h
  | succ fuel ih =>
    obtain ⟨ihtoken, ihtokens⟩ := ih
    refine ⟨fun t t' h => ?_, fun tokens r h => ?_⟩
    -- a token: only containers change
    · cases t with
      | container kind subTokens =>
        obtain ⟨sub, hsub, rfl⟩ := Option.map_eq_some_iff.mp h
        obtain ⟨hink, hblocks⟩ := ihtokens _ _ hsub
        refine ⟨hink, fun hblock => ?_⟩
        obtain ⟨kind, hsubTokens⟩ := hblock
        exact .container kind (hblocks ‹_›)
      | text | escapedCharacter | boldOrItalicMarker | image =>
        cases h
        exact ⟨ink_false_sublist _, id⟩
    -- the loop over the tokens
    · rcases tokens with _ | ⟨t, tokens⟩
      · cases h
        exact ⟨List.Sublist.refl _, id⟩
      cases t with
      | text kind contents =>
        obtain ⟨block, hblock, h⟩ := Option.bind_eq_some_iff.mp h
        split at h
        -- a block begins here; it is gone through before the tokens behind it
        next subitem more =>
          obtain ⟨subitem', hsubitem, h⟩ := Option.bind_eq_some_iff.mp h
          obtain ⟨processed, hprocessed, h⟩ := Option.bind_eq_some_iff.mp h
          cases h
          obtain ⟨hink, hblocks⟩ := ihtokens _ _ hprocessed
          obtain ⟨hinkitem, hitem⟩ := ihtoken _ _ hsubitem
          rcases takes_parseBlock hblock with ⟨rfl, rfl⟩ | htaken
          -- a rule stands for its line, which the loop passes itself
          · have hrule : subitem' = .text .htmlTag (bytes "hr/") := by
              cases fuel with
              | zero => cases hsubitem
              | succ fuel => exact (Option.some_inj.mp hsubitem).symm
            subst hrule
            refine ⟨hink.trans (List.sublist_append_right _ _), fun hall => ?_⟩
            exact List.forall_mem_cons.mpr ⟨.rule, hblocks (List.forall_mem_cons.mp hall).2⟩
          -- any other block is made of the lines passed, and is a block again
          · have hpassed := htaken.ink_append
            rw [inkOf_singleton] at hpassed
            refine ⟨(hinkitem.append hink).trans hpassed, fun hall => ?_⟩
            have hrest := hblocks fun t ht => hall t (htaken.suffix.subset ht)
            exact List.forall_mem_cons.mpr ⟨hitem (htaken.blocks _ List.mem_cons_self), hrest⟩
        -- none does, and the line stays as it is
        next =>
          obtain ⟨processed, hprocessed, h⟩ := Option.bind_eq_some_iff.mp h
          cases h
          obtain ⟨hink, hblocks⟩ := ihtokens _ _ hprocessed
          refine ⟨(ink_false_sublist _).append hink, fun hall => ?_⟩
          obtain ⟨hfirst, hall⟩ := List.forall_mem_cons.mp hall
          exact List.forall_mem_cons.mpr ⟨hfirst, hblocks hall⟩
      | container kind subTokens =>
        obtain ⟨t', ht', h⟩ := Option.bind_eq_some_iff.mp h
        obtain ⟨processed, hprocessed, h⟩ := Option.bind_eq_some_iff.mp h
        cases h
        obtain ⟨hink, hblocks⟩ := ihtokens _ _ hprocessed
        obtain ⟨hinkitem, hitem⟩ := ihtoken _ _ ht'
        refine ⟨hinkitem.append hink, fun hall => ?_⟩
        obtain ⟨hfirst, hall⟩ := List.forall_mem_cons.mp hall
        exact List.forall_mem_cons.mpr ⟨hitem hfirst, hblocks hall⟩
      | escapedCharacter | boldOrItalicMarker | image =>
        -- these are left out
        obtain ⟨hink, hblocks⟩ := ihtokens _ _ h
        exact ⟨hink.trans (List.sublist_append_right _ _),
          fun hall => hblocks (List.forall_mem_cons.mp hall).2⟩

/-- **Nothing is said that the lines do not say**, and nothing in another order:
bullets, marks and lines may go, tags aside no character comes. -/
theorem ink_processBlocksItems {t' : Token} (h : t.processBlocksItems fuel = some t') :
    (t'.ink false).Sublist (t.ink true) := ((processBlocks_spec fuel).1 t t' h).1

/-- A header and a list with a list in it. -/
def outline : Token :=
  .container .container [.text (.rawText true) (bytes "# Notes"), .text .blankLine [],
    .text (.rawText true) (bytes "* one"), .text (.rawText true) (bytes "  1. two")]

theorem ink_processBlocksItems_outline : ∃ t, outline.processBlocksItems 20 = some t ∧
    (t.ink false).Sublist (outline.ink true) := by
  have hsome : (outline.processBlocksItems 20).isSome = true := by decide +kernel
  obtain ⟨t, ht⟩ := Option.isSome_iff_exists.mp hsome
  exact ⟨t, ht, ink_processBlocksItems ht⟩

end Lists

end Markdown
