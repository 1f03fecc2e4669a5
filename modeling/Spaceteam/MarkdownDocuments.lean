/-
From the text of a document to its page (`read`, `_process` and `write` in
`markdown.cpp`).

Without an angle bracket in the text the passes that look for inline HTML change
nothing, and the pass that looks for references takes some of the lines out.  The
blocks that are made of the others are lines again, headers, code, rules and
containers of these, and no bracket has come into them.

* `Markdown.document_nested` — the tags of the page of such a text are nested.
-/
import Spaceteam.MarkdownLines
import Spaceteam.MarkdownLists
import Spaceteam.MarkdownPages

open Nesting

namespace Markdown

/-- The token that `read` makes of a line. -/
def lineToken (line : Bytes) : Token :=
  .text (if isBlankText line then .blankLine else .rawText true) line

/-- `read`. -/
def readTokens (text : Bytes) : List Token :=
  (readLines cSpacesPerInitialTab text).map lineToken

/-! ### Texts without angle brackets -/

theorem isBlock_lineToken (line : Bytes) : IsBlock (lineToken line) := by
  refine .line ?_ line
  split_ifs
  · rfl
  · rfl

/-- The lines of a text say what the text says. -/
theorem forall_mem_ink_readTokens {Q : UInt8 → Prop} {text : Bytes} (hblank : Q (ascii ' '))
    (h : ∀ c ∈ text, Q c) : ∀ c ∈ inkOf true (readTokens text), Q c := by
  have hlines : ∀ lines : List Bytes, (∀ line ∈ lines, ∀ c ∈ line, Q c) →
      ∀ c ∈ inkOf true (lines.map lineToken), Q c := by
    intro lines hlines
    induction lines with
    | nil => exact fun c hc => absurd hc List.not_mem_nil
    | cons line lines ih =>
      obtain ⟨hline, hlines⟩ := List.forall_mem_cons.mp hlines
      rw [List.map_cons, inkOf, List.forall_mem_append, lineToken, ink_text]
      exact ⟨fun c hc => hline c (List.mem_of_mem_filter hc), ih hlines⟩
  exact hlines _ (forall_mem_readLines hblank fun c hc _ => h c hc)

theorem mem_inkOf {tags : Bool} {t : Token} {tokens : List Token} (ht : t ∈ tokens) {c : UInt8}
    (hc : c ∈ t.ink tags) : c ∈ inkOf tags tokens := by
  induction tokens with
  | nil => cases ht
  | cons t' tokens ih =>
    rw [inkOf]
    rcases List.mem_cons.mp ht with rfl | ht
    · exact List.mem_append_left _ hc
    · exact List.mem_append_right _ (ih ht)

theorem inkOf_sublist {tags : Bool} {tokens tokens' : List Token} (h : tokens.Sublist tokens') :
    (inkOf tags tokens).Sublist (inkOf tags tokens') := by
  induction h with
  | slnil => exact List.Sublist.refl _
  | cons t h ih => exact ih.trans (List.sublist_append_right _ _)
  | cons_cons t h ih => exact (List.Sublist.refl _).append ih

/-- What blocks are written as has no tags of its own, when no angle bracket is said. -/
theorem plain_of_isBlock {ignore : Bytes → Bool} {t : Token} (h : IsBlock t)
    (hink : ascii '<' ∉ t.ink false) : Plain ignore t := by
  induction h with
  | @line kind hkind contents =>
    cases kind with
    | rawText canContainMarkup => exact .rawText canContainMarkup contents
    | header level => exact .header level contents
    | codeBlock => exact .code (.inl rfl) contents
    | blankLine =>
      refine .blankLine fun c hc heq => hink ?_
      rw [heq] at hc
      exact List.mem_filter.mpr ⟨hc, by decide⟩
    | textHolder | htmlTag | htmlAnchorTag | inlineHtmlContents | inlineHtmlComment | codeSpan =>
      cases hkind
  | rule => exact .rule (.inr rfl)
  | container kind h ih =>
    exact .container kind fun t ht => ih t ht fun hc => hink (mem_inkOf ht hc)

/-- **The tags of a page are nested**, whatever blocks and emphasis a text without
angle brackets has, if there are no links. -/
theorem document_nested {ignore : Bytes → Bool}
    {scanText : Bytes → List SpanToken × List Token} {fuel fuel' : ℕ} {text page : Bytes}
    {tokens : List Token} {tree : Token} (htext : ascii '<' ∉ text)
    (htokens : tokens.Sublist (readTokens text))
    (hblocks : (Token.container .container tokens).processBlocksItems fuel = some tree)
    (hscan : ∀ text, tree.processParagraphLines.HasRawText text →
      Unlinked ignore (scanText text).1 (scanText text).2)
    (h : write ignore scanText fuel' tree = some page) : Nested (readTags none page) := by
  have hdocument : IsBlock (.container .container tokens) := by
    refine .container .container fun t ht => ?_
    obtain ⟨line, -, rfl⟩ := List.mem_map.mp (htokens.subset ht)
    exact isBlock_lineToken line
  have hlines : ascii '<' ∉ inkOf true (readTokens text) := fun hmem =>
    forall_mem_ink_readTokens (Q := (· ≠ ascii '<')) (by decide)
      (fun c hc heq => htext (heq ▸ hc)) _ hmem rfl
  obtain ⟨hink, hblock⟩ := (processBlocks_spec fuel).1 _ _ hblocks
  refine page_nested (plain_of_isBlock (hblock hdocument) fun hmem => hlines ?_) hscan h
  exact (hink.trans (inkOf_sublist htokens)).subset hmem

/-! ### A text with emphasis -/

/-- One more character of a run in front of the others. -/
def extendRun (isOpen : Bool) (c : UInt8) : List SpanToken → List SpanToken
  | .marker m :: tgt =>
    if m.mOpenMarker = isOpen ∧ m.mTokenCharacter = c ∧ m.mSize < 3 then
      .marker (.new isOpen c (m.mSize + 1)) :: tgt
    else .marker (.new isOpen c 1) :: .marker m :: tgt
  | tgt => .marker (.new isOpen c 1) :: tgt

def extendText (c : UInt8) : List SpanToken → List SpanToken
  | .rawText text :: tgt => .rawText (c :: text) :: tgt
  | tgt => .rawText [c] :: tgt

/-- The markers of a text with emphasis around words: a run of asterisks or
underscores opens behind a blank, and closes behind another character. -/
def scanEmphasis (opens : Bool) : Bytes → List SpanToken
  | [] => []
  | c :: text =>
    if c = ascii '*' ∨ c = ascii '_' then extendRun opens c (scanEmphasis opens text)
    else extendText c (scanEmphasis (c = ascii ' ') text)

section Emphasis

variable {ignore : Bytes → Bool} {t : SpanToken} {tgt : List SpanToken}

theorem Unlinked.tail (h : Unlinked ignore (t :: tgt) []) : Unlinked ignore tgt [] where
  scanned t' ht' := h.scanned t' (List.mem_cons_of_mem t ht')
  character m hm := h.character m (List.mem_cons_of_mem t hm)
  plain := h.plain

theorem Unlinked.rawText (text : Bytes) (h : Unlinked ignore tgt []) :
    Unlinked ignore (.rawText text :: tgt) [] where
  scanned := List.forall_mem_cons.mpr ⟨trivial, h.scanned⟩
  character m hm := h.character m ((List.mem_cons.mp hm).resolve_left (by simp))
  plain := h.plain

theorem Unlinked.marker {isOpen : Bool} {c : UInt8} {size : ℕ}
    (hc : c = ascii '*' ∨ c = ascii '_') (hsize : 1 ≤ size ∧ size ≤ 3)
    (h : Unlinked ignore tgt []) :
    Unlinked ignore (.marker (.new isOpen c size) :: tgt) [] where
  scanned := List.forall_mem_cons.mpr ⟨⟨⟨isOpen, c, size, rfl⟩, hsize⟩, h.scanned⟩
  character m hm := by
    rcases List.mem_cons.mp hm with heq | hm
    · obtain rfl := SpanToken.marker.inj heq
      exact hc
    · exact h.character m hm
  plain := h.plain

theorem unlinked_extendRun {isOpen : Bool} {c : UInt8} (hc : c = ascii '*' ∨ c = ascii '_')
    (h : Unlinked ignore tgt []) : Unlinked ignore (extendRun isOpen c tgt) [] := by
  unfold extendRun
  split
  next m tgt =>
    split_ifs with hrun
    · exact h.tail.marker hc ⟨by omega, by omega⟩
    · exact h.marker hc ⟨le_rfl, by omega⟩
  next => exact h.marker hc ⟨le_rfl, by omega⟩

theorem unlinked_extendText (c : UInt8) (h : Unlinked ignore tgt []) :
    Unlinked ignore (extendText c tgt) [] := by
  unfold extendText
  split
  · exact h.tail.rawText _
  · exact h.rawText _

theorem unlinked_scanEmphasis (opens : Bool) (text : Bytes) :
    Unlinked ignore (scanEmphasis opens text) [] := by
  induction text generalizing opens with
  | nil => exact ⟨by simp [scanEmphasis], by simp [scanEmphasis], by simp⟩
  | cons c text ih =>
    rw [scanEmphasis]
    split_ifs with hc
    · exact unlinked_extendRun hc (ih opens)
    · exact unlinked_extendText c (ih _)

end Emphasis

/-- A header, a list with a list in it, and a quote. -/
def notes : Bytes :=
  bytes "# Notes\n\n* one *and* a __half__\n    * two\n* three\n\n> **four *and* more**\n"

theorem document_nested_notes : ∃ tree page,
    (Token.container .container (readTokens notes)).processBlocksItems 20 = some tree ∧
      write (fun _ => false) (fun text => (scanEmphasis true text, [])) 20 tree = some page ∧
      Nested (readTags none page) := by
  have hsome : (((Token.container .container (readTokens notes)).processBlocksItems 20).bind
      (write (fun _ => false) (fun text => (scanEmphasis true text, [])) 20)).isSome = true := by
    decide +kernel
  obtain ⟨page, hpage⟩ := Option.isSome_iff_exists.mp hsome
  obtain ⟨tree, htree, hwrite⟩ := Option.bind_eq_some_iff.mp hpage
  have htext : ascii '<' ∉ notes := fun hmem =>
    Bytes.forall_mem_of_all (p := (· ≠ ascii '<')) (by decide +kernel) _ hmem rfl
  exact ⟨tree, page, htree, hwrite, document_nested htext (List.Sublist.refl _) htree
    (fun text _ => unlinked_scanEmphasis true text) hwrite⟩

end Markdown
