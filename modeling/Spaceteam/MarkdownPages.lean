/-
The page that a document is written as (`markdown.cpp`, `markdown-tokens.cpp`).

`write` joins the lines of the blocks into paragraphs, then looks for the spans
of each text and writes the tokens as HTML.  The regular expressions that are
applied to a text are the parameter `scanText`: they make markers and texts of
it, and a table of replacements.

* `Markdown.page_nested` — the tags of a page are nested, if the document has no
  inline HTML and no links.
-/
import Spaceteam.MarkdownEscapes
import Spaceteam.MarkdownMatches
import Spaceteam.MarkdownParagraphs

open Nesting

namespace Markdown

variable (ignore : Bytes → Bool) (scanText : Bytes → List SpanToken × List Token)

/-! ### From the blocks to the page -/

/-- What is put for a text or a marker at the end of `_processBoldAndItalicSpans`. -/
def SpanToken.encode (replacements : List Token) : SpanToken → Option (List Token)
  | .rawText text => encodeProcessedItems replacements text
  | .marker m => some [.boldOrItalicMarker m]

/-- `RawText::processSpanElements` of a text that can contain markup. -/
def rawTextSpans (fuel : ℕ) (text : Bytes) : Option (List Token) := do
  let (tgt, replacements) := scanText text
  let tgt ← processBoldAndItalicSpans fuel tgt
  let r ← tgt.mapM (·.encode replacements)
  return r.flatten

mutual

/-- `processSpanElements`, which changes a container in place. -/
def Token.processSpanElements (fuel : ℕ) : Token → Option Token
  | .container kind subTokens => (processAllSpanElements fuel subTokens).map (.container kind ·)
  | t => some t

def processAllSpanElements (fuel : ℕ) : List Token → Option (List Token)
  | [] => some []
  | .text (.rawText true) text :: rest => do
    let subt ← rawTextSpans scanText fuel text
    let tokens ← processAllSpanElements fuel rest
    return (if subt.length > 1 then [.container .container subt] else subt) ++ tokens
  | t :: rest => do
    let t ← t.processSpanElements fuel
    let tokens ← processAllSpanElements fuel rest
    return t :: tokens

end

/-- `write`, from the blocks on. -/
def write (fuel : ℕ) (tree : Token) : Option Bytes := do
  let tree ← tree.processParagraphLines.processSpanElements scanText fuel
  return tree.writeAsHtml ignore

/-! ### Markers that write tags -/

/-- A marker that writes nothing has no match, and none is taken for a tag. -/
def SpanToken.Settled : SpanToken → Prop
  | .rawText _ => True
  | .marker m => (m.mDisabled = true → m.mMatch = none) ∧ m.mTokenCharacter ≠ ascii '<'

section Settled

variable {o m : BoldOrItalicMarker} {id fuel : ℕ} {rest rest' tgt r : List SpanToken}
  {found : Found}

theorem settled_new {isOpen : Bool} {c : UInt8} (hc : c ≠ ascii '<') (size : ℕ) :
    (SpanToken.marker (.new isOpen c size)).Settled := ⟨fun _ => rfl, hc⟩

theorem settled_disable (hm : m.mMatch = none) (h : (SpanToken.marker m).Settled) :
    (SpanToken.marker m.disable).Settled := ⟨fun _ => hm, h.2⟩

/-- A marker that is matched was not disabled. -/
theorem settled_matched (hm : m.mCannotMatch = false) (h : (SpanToken.marker m).Settled)
    (id : Option ℕ) : (SpanToken.marker (m.matched id)).Settled := by
  refine ⟨fun hdisabled => ?_, h.2⟩
  have hcannot := m.cannotMatch hdisabled
  rw [hm] at hcannot
  cases hcannot

theorem canMatch_of_closes (hm : m.isUnmatchedCloseMarker = true) :
    m.mMatch = none ∧ m.mCannotMatch = false := by
  simp only [BoldOrItalicMarker.isUnmatchedCloseMarker, Bool.and_eq_true, Bool.not_eq_true',
    Option.isNone_iff_eq_none] at hm
  exact ⟨hm.1.2, hm.2⟩

theorem canMatch_of_opens (hm : m.isUnmatchedOpenMarker = true) :
    m.mMatch = none ∧ m.mCannotMatch = false := by
  simp only [BoldOrItalicMarker.isUnmatchedOpenMarker, Bool.and_eq_true, Bool.not_eq_true',
    Option.isNone_iff_eq_none] at hm
  exact ⟨hm.1.2, hm.2⟩

theorem Finds.settled (h : Finds o id rest rest' found) (hrest : ∀ t ∈ rest, t.Settled) :
    ∀ t ∈ rest', t.Settled := by
  refine h.forall_mem (fun c hc _ hsettled => ?_) (fun c hc hsettled => ?_) hrest
  · exact ⟨settled_disable (canMatch_of_closes hc).1 hsettled, settled_new hsettled.2 _,
      settled_new hsettled.2 _⟩
  · exact settled_matched (canMatch_of_closes hc).2 hsettled _

theorem Matches.settled (h : Matches id rest rest') (hrest : ∀ t ∈ rest, t.Settled) :
    ∀ t ∈ rest', t.Settled := by
  induction h with
  | nil => exact hrest
  | passes _ _ ih =>
    rw [List.forall_mem_cons] at hrest ⊢
    exact ⟨hrest.1, ih hrest.2⟩
  | unmatched _ hfinds _ ih =>
    rw [List.forall_mem_cons] at hrest ⊢
    exact ⟨hrest.1, ih (hfinds.settled hrest.2)⟩
  | matching ho hfinds _ ih =>
    rw [List.forall_mem_cons] at hrest ⊢
    exact ⟨settled_matched (canMatch_of_opens ho).2 hrest.1 _, ih (hfinds.settled hrest.2)⟩
  | splits ho hfinds _ ih =>
    rw [List.forall_mem_cons] at hrest ⊢
    refine ⟨settled_disable (canMatch_of_opens ho).1 hrest.1, ih ?_⟩
    simp only [List.forall_mem_cons]
    exact ⟨settled_new hrest.1.2 _, settled_new hrest.1.2 _, hfinds.settled hrest.2⟩

theorem settled_of_process (htgt : ∀ t ∈ tgt, t.Settled)
    (h : processBoldAndItalicSpans fuel tgt = some r) : ∀ t ∈ r, t.Settled := by
  obtain ⟨rest, dropped, hrest, -, rfl⟩ := cases_of_process h
  have hsettled := (matches_of_matchMarkers hrest).settled htgt
  intro t ht
  obtain ⟨t₀, ht₀, rfl⟩ := List.mem_map.mp ht
  rcases t₀ with text | m
  · trivial
  · have hm := hsettled _ ht₀
    rw [SpanToken.forget]
    split_ifs
    · exact ⟨fun _ => rfl, hm.2⟩
    · exact hm

end Settled

/-- The elements that a pair of markers stands for. -/
def elementNames (p : Pair) : List Bytes :=
  if p.size = 1 then [bytes "em"]
  else if p.size = 2 then [bytes "strong"]
  else [bytes "strong", bytes "em"]

/-- What a marker is written as. -/
theorem hasTags_marker {m : BoldOrItalicMarker} (h : (SpanToken.marker m).Settled) :
    HasTags m.writeAsHtml
      ((SpanToken.marker m).bracket.toList.flatMap (·.expand elementNames)) := by
  have hem : IsName (bytes "em") := by decide +kernel
  have hstrong : IsName (bytes "strong") := by decide +kernel
  rw [BoldOrItalicMarker.writeAsHtml, SpanToken.bracket]
  by_cases hdisabled : m.mDisabled = true
  · rw [if_pos hdisabled, h.1 hdisabled]
    exact hasTags_nil
  rw [if_neg hdisabled]
  rcases hmatch : m.mMatch with _ | id
  · rw [if_neg (by simp)]
    refine hasTags_text fun c hc => ?_
    rw [List.eq_of_mem_replicate hc]
    exact h.2
  rw [if_pos (by simp)]
  cases hopen : m.mOpenMarker with
  | true =>
    simp only [if_true, Option.map_some, Option.toList_some, List.flatMap_singleton,
      Bracket.expand, elementNames]
    split_ifs
    · exact hasTags_opening hem
    · exact hasTags_opening hstrong
    · exact (hasTags_opening hstrong).append (hasTags_opening hem)
  | false =>
    simp only [Bool.false_eq_true, if_false, Option.map_some, Option.toList_some,
      List.flatMap_singleton, Bracket.expand, elementNames]
    split_ifs
    · exact hasTags_closing hem
    · exact hasTags_closing hstrong
    · exact (hasTags_closing hem).append (hasTags_closing hstrong)

/-! ### The page -/

variable {ignore} {scanText} {fuel : ℕ}

/-- A text without inline HTML and links: the markers are one to three asterisks
or underscores, and the replacements are plain, so that none of them is an
anchor. -/
structure Unlinked (ignore : Bytes → Bool) (tgt : List SpanToken) (replacements : List Token) :
    Prop where
  scanned : ∀ t ∈ tgt, t.Scanned
  character : ∀ m, .marker m ∈ tgt → m.mTokenCharacter = ascii '*' ∨ m.mTokenCharacter = ascii '_'
  plain : ∀ t ∈ replacements, Plain ignore t

theorem Unlinked.settled {tgt : List SpanToken} {replacements : List Token}
    (h : Unlinked ignore tgt replacements) : ∀ t ∈ tgt, t.Settled := by
  intro t ht
  cases t with
  | rawText text => trivial
  | marker m =>
    obtain ⟨⟨isOpen, c, size, rfl⟩, -⟩ := h.scanned _ ht
    refine settled_new ?_ size
    rcases h.character _ ht with hc | hc
    · exact fun heq => absurd (hc.symm.trans heq) (by decide)
    · exact fun heq => absurd (hc.symm.trans heq) (by decide)

theorem mapM_cons_eq_some {α β : Type} {f : α → Option β} {a : α} {l : List α} {r : List β}
    (h : (a :: l).mapM f = some r) : ∃ b r', f a = some b ∧ l.mapM f = some r' ∧ r = b :: r' := by
  rw [List.mapM_cons] at h
  obtain ⟨b, hb, hmore⟩ := Option.bind_eq_some_iff.mp h
  obtain ⟨r', hr', heq⟩ := Option.bind_eq_some_iff.mp hmore
  exact ⟨b, r', hb, hr', (Option.some_inj.mp heq).symm⟩

section Plain

variable {replacements : List Token}

theorem plain_of_resolve (h : ∀ t ∈ replacements, Plain ignore t) {ref : Bytes}
    {tokens : List Token} (hresolve : resolve replacements ref = some tokens) :
    ∀ t ∈ tokens, Plain ignore t := by
  have hchar : ∀ n c, escapedCharacter n = some c → c ≠ ascii '<' := by
    intro n c hc
    have hall : ∀ c ∈ cEscapedCharacters, c ≠ ascii '<' :=
      Bytes.forall_mem_of_all (by decide +kernel)
    rw [escapedCharacter] at hc
    split_ifs at hc
    · obtain rfl := Option.some_inj.mp hc
      decide
    · exact hall c (List.mem_of_getElem? hc)
  rw [resolve] at hresolve
  split_ifs at hresolve
  · obtain ⟨n, -, hmore⟩ := Option.bind_eq_some_iff.mp hresolve
    obtain ⟨c, hc, heq⟩ := Option.bind_eq_some_iff.mp hmore
    obtain rfl := Option.some_inj.mp heq
    exact List.forall_mem_singleton.mpr (.escapedCharacter (hchar n c hc))
  · obtain ⟨n, -, hmore⟩ := Option.bind_eq_some_iff.mp hresolve
    obtain ⟨t, ht, heq⟩ := Option.bind_eq_some_iff.mp hmore
    obtain rfl := Option.some_inj.mp heq
    exact List.forall_mem_singleton.mpr (h t (List.mem_of_getElem? ht))
  · obtain rfl := Option.some_inj.mp hresolve
    simp

theorem plain_rawTextOf (pre : Bytes) : ∀ t ∈ rawTextOf pre, Plain ignore t := by
  rw [rawTextOf]
  split_ifs
  · simp
  · exact List.forall_mem_singleton.mpr (.rawText true pre)

theorem plain_of_encode (h : ∀ t ∈ replacements, Plain ignore t) {src : Bytes}
    {tokens : List Token} (hencode : encodeProcessedItems replacements src = some tokens) :
    ∀ t ∈ tokens, Plain ignore t := by
  rw [encodeProcessedItems] at hencode
  obtain ⟨r, hr, heq⟩ := Option.bind_eq_some_iff.mp hencode
  obtain rfl := Option.some_inj.mp heq
  have hall : ∀ (items : List (Bytes × Bytes)) (r : List (List Token)),
      items.mapM (fun item => (resolve replacements item.2).map (rawTextOf item.1 ++ ·)) = some r →
        ∀ t ∈ r.flatten, Plain ignore t := by
    intro items
    induction items with
    | nil =>
      intro r hr
      obtain rfl := Option.some_inj.mp hr
      simp
    | cons item items ih =>
      intro r hr
      obtain ⟨group, r', hgroup, hr', rfl⟩ := mapM_cons_eq_some hr
      obtain ⟨tokens, htokens, rfl⟩ := Option.map_eq_some_iff.mp hgroup
      simp only [List.flatten_cons, List.forall_mem_append]
      exact ⟨⟨plain_rawTextOf _, plain_of_resolve h htokens⟩, ih r' hr'⟩
  rw [List.forall_mem_append]
  exact ⟨hall _ r hr, plain_rawTextOf _⟩

theorem wellTagged_of_plain {tokens : List Token} (h : ∀ t ∈ tokens, Plain ignore t) :
    WellTagged (writeAllAsHtml ignore tokens) := by
  rw [writeAllAsHtml_eq_flatMap]
  exact WellTagged.flatMap fun t ht => (h t ht).wellTagged

theorem writeAllAsHtml_append (tokens tokens' : List Token) :
    writeAllAsHtml ignore (tokens ++ tokens') =
      writeAllAsHtml ignore tokens ++ writeAllAsHtml ignore tokens' := by
  simp only [writeAllAsHtml_eq_flatMap, List.flatMap_append]

/-- The tags of the spans of a text are those of its matched markers, with nested
ones between them. -/
theorem hasTags_encode (h : ∀ t ∈ replacements, Plain ignore t) {tgt : List SpanToken}
    (htgt : ∀ t ∈ tgt, t.Settled) {r : List (List Token)}
    (hr : tgt.mapM (·.encode replacements) = some r) :
    ∃ w, HasTags (writeAllAsHtml ignore r.flatten) w ∧
      ∀ s, scan s w = scan s ((brackets tgt).flatMap (·.expand elementNames)) := by
  induction tgt generalizing r with
  | nil =>
    obtain rfl := Option.some_inj.mp hr
    exact ⟨[], hasTags_nil, fun _ => rfl⟩
  | cons t tgt ih =>
    obtain ⟨ht, htgt⟩ := List.forall_mem_cons.mp htgt
    obtain ⟨group, r', hgroup, hr', rfl⟩ := mapM_cons_eq_some hr
    obtain ⟨w, hw, hscan⟩ := ih htgt hr'
    rw [List.flatten_cons, writeAllAsHtml_append]
    cases t with
    | rawText text =>
      -- the tokens between two markers have nested tags
      obtain ⟨w', hw', hnested⟩ := wellTagged_of_plain (plain_of_encode h hgroup)
      refine ⟨w' ++ w, hw'.append hw, fun s => ?_⟩
      rw [scan_append, hnested.scan_eq]
      exact hscan s
    | marker m =>
      obtain rfl := Option.some_inj.mp hgroup
      have hmarker : HasTags (writeAllAsHtml ignore [.boldOrItalicMarker m])
          ((SpanToken.marker m).bracket.toList.flatMap (·.expand elementNames)) := by
        rw [writeAllAsHtml, writeAllAsHtml, List.append_nil]
        exact hasTags_marker ht
      have hbrackets : brackets (.marker m :: tgt) =
          (SpanToken.marker m).bracket.toList ++ brackets tgt := by
        rw [brackets, List.filterMap_cons]
        rcases (SpanToken.marker m).bracket with _ | b <;> rfl
      refine ⟨_, hmarker.append hw, fun s => ?_⟩
      rw [hbrackets, List.flatMap_append, scan_append, scan_append]
      exact congrArg _ (funext hscan)

end Plain

theorem wellTagged_rawTextSpans {text : Bytes} {r : List Token}
    (h : Unlinked ignore (scanText text).1 (scanText text).2)
    (hr : rawTextSpans scanText fuel text = some r) : WellTagged (writeAllAsHtml ignore r) := by
  obtain ⟨tgt, htgt, hmore⟩ := Option.bind_eq_some_iff.mp hr
  obtain ⟨groups, hgroups, heq⟩ := Option.bind_eq_some_iff.mp hmore
  obtain rfl := Option.some_inj.mp heq
  obtain ⟨w, hw, hscan⟩ := hasTags_encode h.plain (settled_of_process h.settled htgt) hgroups
  refine ⟨w, hw, ?_⟩
  rw [Nested, hscan]
  exact (nested_of_process h.scanned htgt).flatMap elementNames

/-- The text stands in the tree, and can contain markup. -/
inductive Token.HasRawText (text : Bytes) : Token → Prop
  | self : HasRawText text (.text (.rawText true) text)
  | sub {kind : ContainerKind} {subTokens : List Token} {t : Token} (ht : t ∈ subTokens)
    (h : HasRawText text t) : HasRawText text (.container kind subTokens)

/-- What becomes of the first of the tokens. -/
theorem processAllSpanElements_cons {t : Token} {rest r : List Token}
    (h : processAllSpanElements scanText fuel (t :: rest) = some r) :
    ∃ first tokens, processAllSpanElements scanText fuel rest = some tokens ∧ r = first ++ tokens ∧
      ((∃ text subt, t = .text (.rawText true) text ∧ rawTextSpans scanText fuel text = some subt ∧
        first = if subt.length > 1 then [.container .container subt] else subt) ∨
      ∃ t', t.processSpanElements scanText fuel = some t' ∧ first = [t']) := by
  unfold processAllSpanElements at h
  split at h
  next heq => cases heq
  next text rest' heq =>
    cases heq
    obtain ⟨subt, hsubt, hmore⟩ := Option.bind_eq_some_iff.mp h
    obtain ⟨tokens, htokens, heq⟩ := Option.bind_eq_some_iff.mp hmore
    exact ⟨_, tokens, htokens, (Option.some_inj.mp heq).symm, .inl ⟨text, subt, rfl, hsubt, rfl⟩⟩
  next heq =>
    cases heq
    obtain ⟨t', ht', hmore⟩ := Option.bind_eq_some_iff.mp h
    obtain ⟨tokens, htokens, heq⟩ := Option.bind_eq_some_iff.mp hmore
    exact ⟨[t'], tokens, htokens, (Option.some_inj.mp heq).symm, .inr ⟨t', ht', rfl⟩⟩

theorem wellTagged_of_same {t t' : Token} (hplain : Plain ignore t)
    (hsame : t.processSpanElements scanText fuel = some t)
    (h : t.processSpanElements scanText fuel = some t') : WellTagged (t'.writeAsHtml ignore) := by
  obtain rfl := Option.some_inj.mp (hsame.symm.trans h)
  exact hplain.wellTagged

/-- The tokens of a container, each written with nested tags. -/
theorem wellTagged_processAllSpanElements {subTokens tokens : List Token}
    (hsub : ∀ t ∈ subTokens, ∀ t', t.processSpanElements scanText fuel = some t' →
      WellTagged (t'.writeAsHtml ignore))
    (hscan : ∀ text, .text (.rawText true) text ∈ subTokens →
      Unlinked ignore (scanText text).1 (scanText text).2)
    (h : processAllSpanElements scanText fuel subTokens = some tokens) :
    WellTagged (writeAllAsHtml ignore tokens) := by
  induction subTokens generalizing tokens with
  | nil =>
    obtain rfl := Option.some_inj.mp h
    exact wellTagged_text (by simp [writeAllAsHtml])
  | cons t subTokens ih =>
    obtain ⟨ht, hsub⟩ := List.forall_mem_cons.mp hsub
    obtain ⟨first, more, hmore, rfl, hfirst⟩ := processAllSpanElements_cons h
    have hrest := ih hsub (fun text hmem => hscan text (List.mem_cons_of_mem t hmem)) hmore
    rw [writeAllAsHtml_append]
    refine WellTagged.append ?_ hrest
    rcases hfirst with ⟨text, subt, rfl, hsubt, rfl⟩ | ⟨t', ht', rfl⟩
    · have hspans := wellTagged_rawTextSpans (hscan text List.mem_cons_self) hsubt
      split_ifs
      · rw [writeAllAsHtml, writeAllAsHtml, List.append_nil, Token.writeAsHtml]
        exact hspans.container .container
      · exact hspans
    · rw [writeAllAsHtml, writeAllAsHtml, List.append_nil]
      exact ht t' ht'

theorem wellTagged_processSpanElements {t t' : Token} (hplain : Plain ignore t)
    (hscan : ∀ text, t.HasRawText text → Unlinked ignore (scanText text).1 (scanText text).2)
    (h : t.processSpanElements scanText fuel = some t') : WellTagged (t'.writeAsHtml ignore) := by
  induction hplain generalizing t' with
  | rawText canContainMarkup text => exact wellTagged_of_same (.rawText canContainMarkup text) rfl h
  | code hkind text => exact wellTagged_of_same (.code hkind text) rfl h
  | header level text => exact wellTagged_of_same (.header level text) rfl h
  | blankLine htext => exact wellTagged_of_same (.blankLine htext) rfl h
  | rule htext => exact wellTagged_of_same (.rule htext) rfl h
  | escapedCharacter hc => exact wellTagged_of_same (.escapedCharacter hc) rfl h
  | image himage => exact wellTagged_of_same (.image himage) rfl h
  | autoLink hurl text => exact wellTagged_of_same (.autoLink hurl text) rfl h
  | container kind hsub ih =>
    obtain ⟨tokens, htokens, rfl⟩ := Option.map_eq_some_iff.mp h
    rw [Token.writeAsHtml]
    refine WellTagged.container ?_ kind
    refine wellTagged_processAllSpanElements (fun t ht t' ht' => ?_) (fun text hmem => ?_) htokens
    · exact ih t ht (fun text hraw => hscan text (.sub ht hraw)) ht'
    · exact hscan text (.sub hmem .self)

/-- **The tags of a page are nested**, if the blocks have no inline HTML and the
texts in them no links. -/
theorem page_nested {tree : Token} {page : Bytes} (hplain : Plain ignore tree)
    (hscan : ∀ text, tree.processParagraphLines.HasRawText text →
      Unlinked ignore (scanText text).1 (scanText text).2)
    (h : write ignore scanText fuel tree = some page) : Nested (readTags none page) := by
  obtain ⟨tree', htree', heq⟩ := Option.bind_eq_some_iff.mp h
  obtain rfl := Option.some_inj.mp heq
  exact (wellTagged_processSpanElements hplain.processParagraphLines hscan htree').nested

end Markdown
