/-
The tokens of a markdown document and the HTML they are written as
(`markdown-tokens.h`, `markdown-tokens.cpp`).

A token is a text, a container or one of a few others; the classes derived from
`TextHolder` and `Container` differ in what they write around their contents and
in how the text is encoded.  The regular expression that `encodeString` asks
whether an ampersand is to be left alone is the parameter `ignore`.

* `Markdown.code_shown` — a reader of the page gets code as it stands, and it has
  no angle brackets or quotes there;
* `Markdown.Plain.wellTagged` — tokens without inline HTML are written with their
  tags nested.
-/
import Spaceteam.InputStream
import Spaceteam.MarkdownSpans
import Spaceteam.ServerStatus

open Nesting

namespace Markdown

/-! ### Encoding -/

structure EncodingFlags where
  cAmps : Bool
  cDoubleAmps : Bool
  cAngles : Bool
  cQuotes : Bool
  deriving DecidableEq, Repr

/-- `encodeString`. -/
def encodeString (ignore : Bytes → Bool) (flags : EncodingFlags) : Bytes → Bytes
  | [] => []
  | c :: src =>
    (if c = ascii '&' ∧ flags.cAmps then
      if ignore (c :: src) then [c] else bytes "&amp;"
    else if c = ascii '&' ∧ flags.cDoubleAmps then bytes "&amp;"
    else if c = ascii '<' ∧ flags.cAngles then bytes "&lt;"
    else if c = ascii '>' ∧ flags.cAngles then bytes "&gt;"
    else if c = ascii '"' ∧ flags.cQuotes then bytes "&quot;"
    else [c]) ++ encodeString ignore flags src

/-- `CodeBlock`, `CodeSpan`. -/
def codeFlags : EncodingFlags := ⟨false, true, true, true⟩

/-- `RawText`, `Header`. -/
def textFlags : EncodingFlags := ⟨true, false, true, true⟩

/-- `HtmlTag`, `InlineHtmlContents`. -/
def tagFlags : EncodingFlags := ⟨true, false, true, false⟩

def noFlags : EncodingFlags := ⟨false, false, false, false⟩

/-! ### Tokens -/

/-- The classes derived from `TextHolder`. -/
inductive TextKind where
  | textHolder (canContainMarkup : Bool) (flags : EncodingFlags)
  | rawText (canContainMarkup : Bool)
  | htmlTag
  | htmlAnchorTag
  | inlineHtmlContents
  | inlineHtmlComment
  | codeBlock
  | codeSpan
  | header (level : ℕ)
  | blankLine
  deriving DecidableEq, Repr

namespace TextKind

def encodingFlags : TextKind → EncodingFlags
  | textHolder _ flags => flags
  | rawText _ | header _ => textFlags
  | htmlTag | inlineHtmlContents => tagFlags
  | codeBlock | codeSpan => codeFlags
  | htmlAnchorTag | inlineHtmlComment | blankLine => noFlags

def canContainMarkup : TextKind → Bool
  | textHolder canContainMarkup _ | rawText canContainMarkup => canContainMarkup
  | header _ => true
  | _ => false

def inhibitParagraphs : TextKind → Bool
  | header _ => true
  | _ => false

/-- `preWrite`, and what `writeAsHtml` puts before it. -/
def preWrite : TextKind → Bytes
  | htmlTag => bytes "<"
  | codeBlock => bytes "<pre><code>"
  | codeSpan => bytes "<code>"
  | header level => bytes "<h" ++ decimal level ++ bytes ">"
  | _ => []

/-- `postWrite`, and what `writeAsHtml` puts behind it. -/
def postWrite : TextKind → Bytes
  | htmlTag => bytes ">"
  | codeBlock => bytes "</code></pre>\n\n"
  | codeSpan => bytes "</code>"
  | header level => bytes "</h" ++ decimal level ++ bytes ">\n"
  | _ => []

end TextKind

/-- `Container` and the classes derived from it. -/
inductive ContainerKind where
  | container
  | inlineHtmlBlock (isBlockTag : Bool)
  | listItem (inhibitParagraphs : Bool)
  | unorderedList
  | orderedList
  | blockQuote
  | paragraph
  deriving DecidableEq, Repr

namespace ContainerKind

def inhibitParagraphs : ContainerKind → Bool
  | inlineHtmlBlock isBlockTag => !isBlockTag
  | listItem inhibitParagraphs => inhibitParagraphs
  | _ => false

def preWrite : ContainerKind → Bytes
  | container | inlineHtmlBlock _ => []
  | listItem _ => bytes "<li>"
  | unorderedList => bytes "\n<ul>\n"
  | orderedList => bytes "<ol>\n"
  | blockQuote => bytes "<blockquote>\n"
  | paragraph => bytes "<p>"

def postWrite : ContainerKind → Bytes
  | container | inlineHtmlBlock _ => []
  | listItem _ => bytes "</li>\n"
  | unorderedList => bytes "</ul>\n\n"
  | orderedList => bytes "</ol>\n\n"
  | blockQuote => bytes "\n</blockquote>\n"
  | paragraph => bytes "</p>\n\n"

end ContainerKind

inductive Token where
  | text (kind : TextKind) (text : Bytes)
  | escapedCharacter (c : UInt8)
  | container (kind : ContainerKind) (subTokens : List Token)
  | boldOrItalicMarker (m : BoldOrItalicMarker)
  | image (altText url title : Bytes)

variable (ignore : Bytes → Bool)

/-- The constructor of `HtmlAnchorTag`. -/
def Token.htmlAnchorTag (url title : Bytes) : Token :=
  .text .htmlAnchorTag
    (bytes "<a href=\"" ++ encodeString ignore ⟨true, false, false, true⟩ url ++ bytes "\"" ++
      (if title.isEmpty then []
      else bytes " title=\"" ++ encodeString ignore ⟨true, false, false, true⟩ title ++
        bytes "\"") ++ bytes ">")

/-- `BoldOrItalicMarker::writeAsHtml`. -/
def BoldOrItalicMarker.writeAsHtml (m : BoldOrItalicMarker) : Bytes :=
  if m.mDisabled then []
  else if m.mMatch.isSome then
    if m.mOpenMarker then
      if m.mSize = 1 then bytes "<em>"
      else if m.mSize = 2 then bytes "<strong>"
      else bytes "<strong><em>"
    else
      if m.mSize = 1 then bytes "</em>"
      else if m.mSize = 2 then bytes "</strong>"
      else bytes "</em></strong>"
  else List.replicate m.mSize m.mTokenCharacter

mutual

/-- `writeAsHtml`. -/
def Token.writeAsHtml : Token → Bytes
  | .text kind text =>
    kind.preWrite ++ (if kind.encodingFlags ≠ noFlags then
      encodeString ignore kind.encodingFlags text else text) ++ kind.postWrite
  | .escapedCharacter c => [c]
  | .container kind subTokens => kind.preWrite ++ writeAllAsHtml subTokens ++ kind.postWrite
  | .boldOrItalicMarker m => m.writeAsHtml
  | .image altText url title =>
    bytes "<img src=\"" ++ url ++ bytes "\" alt=\"" ++ altText ++ bytes "\"" ++
      (if title.isEmpty then [] else bytes " title=\"" ++ title ++ bytes "\"") ++ bytes "/>"

def writeAllAsHtml : List Token → Bytes
  | [] => []
  | t :: tokens => t.writeAsHtml ++ writeAllAsHtml tokens

end

theorem writeAllAsHtml_eq_flatMap (tokens : List Token) :
    writeAllAsHtml ignore tokens = tokens.flatMap (·.writeAsHtml ignore) := by
  induction tokens with
  | nil => rfl
  | cons t tokens ih => rw [writeAllAsHtml, List.flatMap_cons, ih]

/-! ### What is shown -/

theorem encodeString_cons (flags : EncodingFlags) (c : UInt8) (src : Bytes) :
    encodeString ignore flags (c :: src) =
      (if c = ascii '&' ∧ flags.cAmps then
        if ignore (c :: src) then [c] else bytes "&amp;"
      else if c = ascii '&' ∧ flags.cDoubleAmps then bytes "&amp;"
      else if c = ascii '<' ∧ flags.cAngles then bytes "&lt;"
      else if c = ascii '>' ∧ flags.cAngles then bytes "&gt;"
      else if c = ascii '"' ∧ flags.cQuotes then bytes "&quot;"
      else [c]) ++ encodeString ignore flags src := rfl

/-- The entities that are written, and the characters a reader takes them for. -/
def entities : List (Bytes × UInt8) :=
  [(bytes "&amp;", ascii '&'), (bytes "&lt;", ascii '<'), (bytes "&gt;", ascii '>'),
    (bytes "&quot;", ascii '"')]

theorem not_special_of_entity : ∀ e ∈ entities, ∀ c ∈ e.1,
    c ≠ ascii '<' ∧ c ≠ ascii '>' ∧ c ≠ ascii '"' := by
  simp only [entities, List.forall_mem_cons]
  refine ⟨?_, ?_, ?_, ?_, by simp⟩
  all_goals exact Bytes.forall_mem_of_all (by decide +kernel)

/-- The characters of an encoded text: those of the entities, and the others. -/
theorem mem_encodeString {flags : EncodingFlags} {src : Bytes} {c : UInt8}
    (hc : c ∈ encodeString ignore flags src) :
    (∃ e ∈ entities, c ∈ e.1) ∨ c = ascii '&' ∨ c ∈ src ∧
      ¬(c = ascii '<' ∧ flags.cAngles) ∧ ¬(c = ascii '>' ∧ flags.cAngles) ∧
        ¬(c = ascii '"' ∧ flags.cQuotes) := by
  induction src with
  | nil => cases hc
  | cons d src ih =>
    rw [encodeString_cons, List.mem_append] at hc
    rcases hc with hc | hc
    · split_ifs at hc with hamps hignore hdouble hlt hgt hquote
      · exact .inr (.inl ((List.mem_singleton.mp hc).trans hamps.1))
      · exact .inl ⟨(bytes "&amp;", ascii '&'), by decide, hc⟩
      · exact .inl ⟨(bytes "&amp;", ascii '&'), by decide, hc⟩
      · exact .inl ⟨(bytes "&lt;", ascii '<'), by decide, hc⟩
      · exact .inl ⟨(bytes "&gt;", ascii '>'), by decide, hc⟩
      · exact .inl ⟨(bytes "&quot;", ascii '"'), by decide, hc⟩
      · obtain rfl := List.mem_singleton.mp hc
        exact .inr (.inr ⟨List.mem_cons_self, hlt, hgt, hquote⟩)
    · rcases ih hc with h | h | ⟨hmem, h⟩
      · exact .inl h
      · exact .inr (.inl h)
      · exact .inr (.inr ⟨List.mem_cons_of_mem d hmem, h⟩)

/-- With `cAngles` there are no angle brackets left. -/
theorem not_angle_of_encodeString {flags : EncodingFlags} (h : flags.cAngles = true) (src : Bytes) :
    ∀ c ∈ encodeString ignore flags src, c ≠ ascii '<' ∧ c ≠ ascii '>' := by
  intro c hc
  rcases mem_encodeString ignore hc with ⟨e, he, hce⟩ | rfl | ⟨-, hlt, hgt, -⟩
  · obtain ⟨hlt, hgt, -⟩ := not_special_of_entity e he c hce
    exact ⟨hlt, hgt⟩
  · decide
  · exact ⟨fun heq => hlt ⟨heq, h⟩, fun heq => hgt ⟨heq, h⟩⟩

theorem not_quote_of_encodeString {flags : EncodingFlags} (h : flags.cQuotes = true) (src : Bytes) :
    ∀ c ∈ encodeString ignore flags src, c ≠ ascii '"' := by
  intro c hc
  rcases mem_encodeString ignore hc with ⟨e, he, hce⟩ | rfl | ⟨-, -, -, hquote⟩
  · exact (not_special_of_entity e he c hce).2.2
  · decide
  · exact fun heq => hquote ⟨heq, h⟩

/-- What is shown of a text behind the next `skip` characters. -/
def shown : ℕ → Bytes → Bytes
  | _, [] => []
  | skip + 1, _ :: s => shown skip s
  | 0, c :: s =>
    match entities.find? (fun e => e.1 <+: c :: s) with
    | some e => e.2 :: shown (e.1.length - 1) s
    | none => c :: shown 0 s

/-- No entity is the beginning of another. -/
theorem shown_entity {e : Bytes × UInt8} (he : e ∈ entities) (s : Bytes) :
    shown 0 (e.1 ++ s) = e.2 :: shown 0 s := by
  simp only [entities, List.mem_cons, List.not_mem_nil, or_false] at he
  rcases he with rfl | rfl | rfl | rfl <;> rfl

theorem shown_of_ne {c : UInt8} (h : c ≠ ascii '&') (s : Bytes) :
    shown 0 (c :: s) = c :: shown 0 s := by
  have hfind : entities.find? (fun e => e.1 <+: c :: s) = none := by
    rw [List.find?_eq_none]
    intro e he
    have hhead : e.1.head? = some (ascii '&') := by
      revert e
      decide
    rw [decide_eq_true_eq]
    rintro ⟨u, hu⟩
    have hc := congrArg List.head? hu
    rw [List.head?_append, hhead] at hc
    exact h (Option.some_inj.mp hc).symm
  rw [shown, hfind]

/-- A reader of the page gets the characters back. -/
theorem shown_encodeString (src : Bytes) :
    shown 0 (encodeString ignore codeFlags src) = src := by
  induction src with
  | nil => rfl
  | cons c src ih =>
    rw [encodeString_cons]
    split_ifs with hamps hignore hdouble hlt hgt hquote
    · exact absurd hamps.2 (by decide)
    · exact absurd hamps.2 (by decide)
    · rw [hdouble.1, shown_entity (e := (bytes "&amp;", ascii '&')) (by decide), ih]
    · rw [hlt.1, shown_entity (e := (bytes "&lt;", ascii '<')) (by decide), ih]
    · rw [hgt.1, shown_entity (e := (bytes "&gt;", ascii '>')) (by decide), ih]
    · rw [hquote.1, shown_entity (e := (bytes "&quot;", ascii '"')) (by decide), ih]
    · have hne : c ≠ ascii '&' := fun heq => hdouble ⟨heq, rfl⟩
      rw [List.singleton_append, shown_of_ne hne, ih]

/-- **Code is shown as it stands**: whatever characters it has, it brings no tag
and no quote into the page. -/
theorem code_shown (text : Bytes) : ∃ body, shown 0 body = text ∧
    (∀ c ∈ body, c ≠ ascii '<' ∧ c ≠ ascii '>' ∧ c ≠ ascii '"') ∧
    (Token.text .codeBlock text).writeAsHtml ignore =
      bytes "<pre><code>" ++ body ++ bytes "</code></pre>\n\n" ∧
    (Token.text .codeSpan text).writeAsHtml ignore = bytes "<code>" ++ body ++ bytes "</code>" := by
  refine ⟨encodeString ignore codeFlags text, shown_encodeString ignore text, fun c hc => ?_,
    rfl, rfl⟩
  obtain ⟨hlt, hgt⟩ := not_angle_of_encodeString ignore rfl text c hc
  exact ⟨hlt, hgt, not_quote_of_encodeString ignore rfl text c hc⟩

/-! ### Tags -/

/-- The bracket that a tag is; one that ends in a slash is closed already. -/
def tagBracket (tag : Bytes) : Option (Bracket Bytes) :=
  if tag.getLast? = some (ascii '/') then none
  else if tag.head? = some (ascii '/') then some (.closing tag.tail)
  else some (.opening (tag.takeWhile (· ≠ ascii ' ')))

/-- The tags of a page; the first argument is what has been read of a tag. -/
def readTags : Option Bytes → Bytes → List (Bracket Bytes)
  | _, [] => []
  | none, c :: s => readTags (if c = ascii '<' then some [] else none) s
  | some tag, c :: s =>
    if c = ascii '>' then (tagBracket tag).toList ++ readTags none s
    else readTags (some (tag ++ [c])) s

/-- The text has these tags, and they are all complete. -/
def HasTags (s : Bytes) (w : List (Bracket Bytes)) : Prop :=
  ∀ rest, readTags none (s ++ rest) = w ++ readTags none rest

section HasTags

variable {s s' tag : Bytes} {w w' : List (Bracket Bytes)}

theorem HasTags.append (h : HasTags s w) (h' : HasTags s' w') : HasTags (s ++ s') (w ++ w') := by
  intro rest
  rw [List.append_assoc, h, h', List.append_assoc]

theorem hasTags_nil : HasTags [] [] := fun _ => rfl

/-- A text without tags. -/
theorem hasTags_text (h : ∀ c ∈ s, c ≠ ascii '<') : HasTags s [] := by
  intro rest
  induction s with
  | nil => rfl
  | cons c s ih =>
    obtain ⟨hc, hs⟩ := List.forall_mem_cons.mp h
    rw [List.cons_append, readTags, if_neg hc]
    exact ih hs

theorem readTags_append (h : ∀ c ∈ s, c ≠ ascii '>') (tag rest : Bytes) :
    readTags (some tag) (s ++ rest) = readTags (some (tag ++ s)) rest := by
  induction s generalizing tag with
  | nil => rw [List.nil_append, List.append_nil]
  | cons c s ih =>
    obtain ⟨hc, hs⟩ := List.forall_mem_cons.mp h
    rw [List.cons_append, readTags, if_neg hc, ih hs, List.append_assoc]
    rfl

/-- One tag. -/
theorem hasTags_tag (tag : Bytes) (h : ∀ c ∈ tag, c ≠ ascii '>') :
    HasTags (bytes "<" ++ tag ++ bytes ">") (tagBracket tag).toList := by
  intro rest
  rw [List.append_assoc, List.append_assoc]
  show readTags (some []) (tag ++ ascii '>' :: rest) = _
  rw [readTags_append h, List.nil_append, readTags, if_pos rfl]

theorem HasTags.readTags_eq (h : HasTags s w) : readTags none s = w := by
  have hs := h []
  rwa [List.append_nil, readTags, List.append_nil] at hs

end HasTags

/-- The tags of the text are nested. -/
def WellTagged (s : Bytes) : Prop := ∃ w, HasTags s w ∧ Nested w

section WellTagged

variable {s s' before behind tag : Bytes}

theorem wellTagged_text (h : ∀ c ∈ s, c ≠ ascii '<') : WellTagged s :=
  ⟨[], hasTags_text h, nested_nil⟩

theorem WellTagged.append (h : WellTagged s) (h' : WellTagged s') : WellTagged (s ++ s') := by
  obtain ⟨w, hw, hnested⟩ := h
  obtain ⟨w', hw', hnested'⟩ := h'
  exact ⟨w ++ w', hw.append hw', hnested.append hnested'⟩

theorem WellTagged.flatMap {γ : Type*} {l : List γ} {f : γ → Bytes}
    (h : ∀ c ∈ l, WellTagged (f c)) : WellTagged (l.flatMap f) := by
  induction l with
  | nil => exact wellTagged_text (by simp)
  | cons c l ih =>
    obtain ⟨hc, hl⟩ := List.forall_mem_cons.mp h
    rw [List.flatMap_cons]
    exact hc.append (ih hl)

/-- The element of a name around a text. -/
theorem WellTagged.wrap (h : WellTagged s) (name : Bytes) (hbefore : HasTags before [.opening name])
    (hbehind : HasTags behind [.closing name]) : WellTagged (before ++ s ++ behind) := by
  obtain ⟨w, hw, hnested⟩ := h
  refine ⟨.opening name :: w ++ [.closing name], ?_, hnested.wrap name⟩
  exact (hbefore.append hw).append hbehind

theorem WellTagged.nested (h : WellTagged s) : Nested (readTags none s) := by
  obtain ⟨w, hw, hnested⟩ := h
  rwa [hw.readTags_eq]

end WellTagged

/-! ### Tokens without inline HTML -/

theorem toNat_ascii_of_isDigit {d : Char} (h : d.isDigit = true) :
    (ascii d).toNat = d.toNat ∧ 48 ≤ d.toNat ∧ d.toNat ≤ 57 := by
  simp only [Char.isDigit, Bool.and_eq_true, decide_eq_true_eq, ge_iff_le, UInt32.le_iff_toNat_le]
    at h
  have hlow : 48 ≤ d.toNat := h.1
  have hhigh : d.toNat ≤ 57 := h.2
  refine ⟨?_, hlow, hhigh⟩
  rw [ascii, UInt8.toNat_ofNat']
  omega

theorem isDigit_of_mem_decimal {n : ℕ} {c : UInt8} (h : c ∈ decimal n) :
    IStream.isDigit c = true := by
  obtain ⟨d, hd, rfl⟩ := List.mem_map.mp h
  obtain ⟨htoNat, hlow, hhigh⟩ := toNat_ascii_of_isDigit
    (Nat.isDigit_of_mem_toDigits (by decide) (by decide) hd)
  rw [IStream.isDigit, Bool.and_eq_true, decide_eq_true_eq, decide_eq_true_eq,
    UInt8.le_iff_toNat_le, UInt8.le_iff_toNat_le, htoNat]
  exact ⟨hlow, hhigh⟩

/-- The name of an element. -/
def IsName (name : Bytes) : Prop :=
  name ≠ [] ∧ ∀ c ∈ name, c ≠ ascii '>' ∧ c ≠ ascii ' ' ∧ c ≠ ascii '/'

instance : DecidablePred IsName := fun name =>
  decidable_of_iff (name ≠ [] ∧ name.all
    (fun c => decide (c ≠ ascii '>' ∧ c ≠ ascii ' ' ∧ c ≠ ascii '/')) = true)
    (by simp [IsName])

theorem hasTags_opening {name : Bytes} (hname : IsName name) :
    HasTags (bytes "<" ++ name ++ bytes ">") [.opening name] := by
  obtain ⟨-, hname⟩ := hname
  have hlast : name.getLast? ≠ some (ascii '/') :=
    fun h => (hname _ (List.mem_of_getLast? h)).2.2 rfl
  have hhead : name.head? ≠ some (ascii '/') :=
    fun h => (hname _ (List.mem_of_mem_head? h)).2.2 rfl
  have hall : name.takeWhile (· ≠ ascii ' ') = name :=
    List.takeWhile_eq_self_iff.mpr fun c hc => decide_eq_true (hname c hc).2.1
  have htag := hasTags_tag name fun c hc => (hname c hc).1
  rw [tagBracket, if_neg hlast, if_neg hhead, hall] at htag
  exact htag

theorem hasTags_closing {name : Bytes} (hname : IsName name) :
    HasTags (bytes "</" ++ name ++ bytes ">") [.closing name] := by
  obtain ⟨hne, hname⟩ := hname
  have hlast : (ascii '/' :: name).getLast? ≠ some (ascii '/') := by
    rw [← List.singleton_append, List.getLast?_append_of_ne_nil _ hne]
    exact fun h => (hname _ (List.mem_of_getLast? h)).2.2 rfl
  have htag := hasTags_tag (ascii '/' :: name) (by
    rw [List.forall_mem_cons]
    exact ⟨by decide, fun c hc => (hname c hc).1⟩)
  rw [tagBracket, if_neg hlast, if_pos (List.head?_cons ..)] at htag
  exact htag

theorem hasTags_newline : HasTags (bytes "\n") [] :=
  hasTags_text (Bytes.forall_mem_of_all (by decide +kernel))

/-- Whatever is in a container is put between its tags. -/
theorem WellTagged.container {s : Bytes} (h : WellTagged s) (kind : ContainerKind) :
    WellTagged (kind.preWrite ++ s ++ kind.postWrite) := by
  cases kind with
  | container | inlineHtmlBlock =>
    rw [ContainerKind.preWrite, ContainerKind.postWrite, List.nil_append, List.append_nil]
    exact h
  | listItem =>
    have hname : IsName (bytes "li") := by decide +kernel
    exact h.wrap _ (hasTags_opening hname) ((hasTags_closing hname).append hasTags_newline)
  | unorderedList =>
    have hname : IsName (bytes "ul") := by decide +kernel
    exact h.wrap _ ((hasTags_newline.append (hasTags_opening hname)).append hasTags_newline)
      (((hasTags_closing hname).append hasTags_newline).append hasTags_newline)
  | orderedList =>
    have hname : IsName (bytes "ol") := by decide +kernel
    exact h.wrap _ ((hasTags_opening hname).append hasTags_newline)
      (((hasTags_closing hname).append hasTags_newline).append hasTags_newline)
  | blockQuote =>
    have hname : IsName (bytes "blockquote") := by decide +kernel
    exact h.wrap _ ((hasTags_opening hname).append hasTags_newline)
      ((hasTags_newline.append (hasTags_closing hname)).append hasTags_newline)
  | paragraph =>
    have hname : IsName (bytes "p") := by decide +kernel
    exact h.wrap _ (hasTags_opening hname)
      (((hasTags_closing hname).append hasTags_newline).append hasTags_newline)

/-- The name of the element of a header. -/
theorem isName_header (level : ℕ) : IsName (bytes "h" ++ decimal level) := by
  refine ⟨by simp [bytes], ?_⟩
  rw [List.forall_mem_append]
  refine ⟨Bytes.forall_mem_of_all (by decide +kernel), fun c hc => ?_⟩
  have hdigit := isDigit_of_mem_decimal hc
  refine ⟨?_, ?_, ?_⟩ <;> rintro rfl <;> exact absurd hdigit (by decide)

/-- Tokens that come from no inline HTML and no inline link. -/
inductive Plain : Token → Prop
  | rawText (canContainMarkup : Bool) (text : Bytes) :
    Plain (.text (.rawText canContainMarkup) text)
  | code {kind : TextKind} (hkind : kind = .codeBlock ∨ kind = .codeSpan) (text : Bytes) :
    Plain (.text kind text)
  | header (level : ℕ) (text : Bytes) : Plain (.text (.header level) text)
  | blankLine {text : Bytes} (htext : ∀ c ∈ text, c ≠ ascii '<') : Plain (.text .blankLine text)
  | rule {text : Bytes} (htext : text = bytes "br/" ∨ text = bytes "hr/") :
    Plain (.text .htmlTag text)
  | escapedCharacter {c : UInt8} (hc : c ≠ ascii '<') : Plain (.escapedCharacter c)
  | image {altText url title : Bytes} (h : ∀ c ∈ url ++ altText ++ title, c ≠ ascii '>') :
    Plain (.image altText url title)
  | autoLink {url : Bytes} (hurl : ∀ c ∈ url, c ≠ ascii '>') (text : Bytes) :
    Plain (.container .container
      [.htmlAnchorTag ignore url [], .text (.rawText false) text, .text .htmlTag (bytes "/a")])
  | container (kind : ContainerKind) {subTokens : List Token} (h : ∀ t ∈ subTokens, Plain t) :
    Plain (.container kind subTokens)

variable {ignore}

theorem writeAsHtml_text {kind : TextKind} (hkind : kind.encodingFlags.cAngles = true)
    (text : Bytes) : (Token.text kind text).writeAsHtml ignore =
      kind.preWrite ++ encodeString ignore kind.encodingFlags text ++ kind.postWrite := by
  have hne : kind.encodingFlags ≠ noFlags := by
    intro heq
    rw [heq] at hkind
    cases hkind
  rw [Token.writeAsHtml, if_pos hne]

theorem writeAsHtml_rawText (canContainMarkup : Bool) (text : Bytes) :
    (Token.text (.rawText canContainMarkup) text).writeAsHtml ignore =
      encodeString ignore textFlags text := by
  rw [writeAsHtml_text rfl]
  show [] ++ encodeString ignore textFlags text ++ [] = _
  rw [List.nil_append, List.append_nil]

theorem writeAsHtml_htmlAnchorTag (url : Bytes) :
    (Token.htmlAnchorTag ignore url []).writeAsHtml ignore =
      bytes "<a href=\"" ++ encodeString ignore ⟨true, false, false, true⟩ url ++ bytes "\">" := by
  show [] ++ (bytes "<a href=\"" ++ encodeString ignore ⟨true, false, false, true⟩ url ++
    bytes "\"" ++ [] ++ bytes ">") ++ [] = _
  simp only [List.nil_append, List.append_nil, List.append_assoc]
  rfl

theorem wellTagged_encodeString {flags : EncodingFlags} (h : flags.cAngles = true) (text : Bytes) :
    WellTagged (encodeString ignore flags text) :=
  wellTagged_text fun c hc => (not_angle_of_encodeString ignore h text c hc).1

theorem wellTagged_code {kind : TextKind} (hkind : kind = .codeBlock ∨ kind = .codeSpan)
    (text : Bytes) : WellTagged ((Token.text kind text).writeAsHtml ignore) := by
  have hencoded : WellTagged (encodeString ignore codeFlags text) :=
    wellTagged_encodeString rfl text
  have hcode : IsName (bytes "code") := by decide +kernel
  have hspan := hencoded.wrap _ (hasTags_opening hcode) (hasTags_closing hcode)
  rcases hkind with rfl | rfl
  · have hpre : IsName (bytes "pre") := by decide +kernel
    have hblock := hspan.wrap _ (hasTags_opening hpre)
      (((hasTags_closing hpre).append hasTags_newline).append hasTags_newline)
    rw [writeAsHtml_text rfl]
    simpa [TextKind.preWrite, TextKind.postWrite, TextKind.encodingFlags, bytes] using hblock
  · rw [writeAsHtml_text rfl]
    exact hspan

theorem wellTagged_image {altText url title : Bytes}
    (h : ∀ c ∈ url ++ altText ++ title, c ≠ ascii '>') :
    WellTagged ((Token.image altText url title).writeAsHtml ignore) := by
  simp only [List.forall_mem_append] at h
  obtain ⟨⟨hurl, halt⟩, htitle⟩ := h
  set more : Bytes :=
    if title.isEmpty then [] else bytes " title=\"" ++ title ++ bytes "\"" with hmore
  have hno : ∀ c ∈ more, c ≠ ascii '>' := by
    rw [hmore]
    split_ifs
    · simp
    · simp only [List.forall_mem_append]
      exact ⟨⟨Bytes.forall_mem_of_all (by decide +kernel), htitle⟩,
        Bytes.forall_mem_of_all (by decide +kernel)⟩
  have htag : ∀ c ∈ bytes "img src=\"" ++ url ++ bytes "\" alt=\"" ++ altText ++ bytes "\"" ++
      more ++ bytes "/", c ≠ ascii '>' := by
    simp only [List.forall_mem_append]
    have himg : ∀ c ∈ bytes "img src=\"", c ≠ ascii '>' :=
      Bytes.forall_mem_of_all (by decide +kernel)
    have halt' : ∀ c ∈ bytes "\" alt=\"", c ≠ ascii '>' :=
      Bytes.forall_mem_of_all (by decide +kernel)
    have hquote : ∀ c ∈ bytes "\"", c ≠ ascii '>' :=
      Bytes.forall_mem_of_all (by decide +kernel)
    have hslash : ∀ c ∈ bytes "/", c ≠ ascii '>' :=
      Bytes.forall_mem_of_all (by decide +kernel)
    exact ⟨⟨⟨⟨⟨⟨himg, hurl⟩, halt'⟩, halt⟩, hquote⟩, hno⟩, hslash⟩
  refine ⟨[], ?_, nested_nil⟩
  have htags := hasTags_tag _ htag
  have hclosed : tagBracket (bytes "img src=\"" ++ url ++ bytes "\" alt=\"" ++ altText ++
      bytes "\"" ++ more ++ bytes "/") = none := by
    rw [tagBracket, List.getLast?_append]
    rfl
  rw [hclosed] at htags
  have hsplit : (Token.image altText url title).writeAsHtml ignore = bytes "<" ++
      (bytes "img src=\"" ++ url ++ bytes "\" alt=\"" ++ altText ++ bytes "\"" ++ more ++
        bytes "/") ++ bytes ">" := by
    rw [Token.writeAsHtml, ← hmore]
    simp [bytes]
  rw [hsplit]
  exact htags

theorem hasTags_anchor {url : Bytes} (hurl : ∀ c ∈ url, c ≠ ascii '>') :
    HasTags ((Token.htmlAnchorTag ignore url []).writeAsHtml ignore) [.opening (bytes "a")] := by
  have hencoded : ∀ c ∈ encodeString ignore ⟨true, false, false, true⟩ url, c ≠ ascii '>' := by
    intro c hc
    rcases mem_encodeString ignore hc with ⟨e, he, hce⟩ | rfl | ⟨hmem, -⟩
    · exact (not_special_of_entity e he c hce).2.1
    · decide
    · exact hurl c hmem
  have htag := hasTags_tag (bytes "a href=\"" ++
      encodeString ignore ⟨true, false, false, true⟩ url ++ bytes "\"") (by
    simp only [List.forall_mem_append]
    exact ⟨⟨Bytes.forall_mem_of_all (by decide +kernel), hencoded⟩,
      Bytes.forall_mem_of_all (by decide +kernel)⟩)
  have hbracket : tagBracket (bytes "a href=\"" ++
      encodeString ignore ⟨true, false, false, true⟩ url ++ bytes "\"") =
        some (.opening (bytes "a")) := by
    rw [tagBracket, List.getLast?_append]
    rfl
  rw [hbracket] at htag
  have hsplit : (Token.htmlAnchorTag ignore url []).writeAsHtml ignore =
      bytes "<" ++ (bytes "a href=\"" ++ encodeString ignore ⟨true, false, false, true⟩ url ++
        bytes "\"") ++ bytes ">" := by
    rw [writeAsHtml_htmlAnchorTag]
    simp [bytes]
  rw [hsplit]
  exact htag

/-- **The tags of what a plain token is written as are nested.** -/
theorem Plain.wellTagged {t : Token} (h : Plain ignore t) : WellTagged (t.writeAsHtml ignore) := by
  have hraw : ∀ canContainMarkup text,
      WellTagged ((Token.text (.rawText canContainMarkup) text).writeAsHtml ignore) := by
    intro canContainMarkup text
    rw [writeAsHtml_rawText]
    exact wellTagged_encodeString rfl text
  induction h with
  | rawText canContainMarkup text => exact hraw canContainMarkup text
  | code hkind text => exact wellTagged_code hkind text
  | header level text =>
    have hencoded : WellTagged (encodeString ignore textFlags text) :=
      wellTagged_encodeString rfl text
    have hheader := hencoded.wrap _ (hasTags_opening (isName_header level))
      ((hasTags_closing (isName_header level)).append hasTags_newline)
    rw [writeAsHtml_text rfl]
    simpa [TextKind.preWrite, TextKind.postWrite, TextKind.encodingFlags, bytes] using hheader
  | @blankLine text htext =>
    show WellTagged ([] ++ text ++ [])
    rw [List.nil_append, List.append_nil]
    exact wellTagged_text htext
  | rule htext =>
    refine ⟨[], ?_, nested_nil⟩
    rcases htext with rfl | rfl
    · exact fun _ => rfl
    · exact fun _ => rfl
  | escapedCharacter hc => exact wellTagged_text (List.forall_mem_singleton.mpr hc)
  | image h => exact wellTagged_image h
  | @autoLink url hurl text =>
    have hanchor : HasTags ((Token.htmlAnchorTag ignore url []).writeAsHtml ignore)
        [.opening (bytes "a")] := hasTags_anchor hurl
    have hname : IsName (bytes "a") := by decide +kernel
    have hlink := (hraw false text).wrap (bytes "a") hanchor (hasTags_closing hname)
    have hslash : (Token.text .htmlTag (bytes "/a")).writeAsHtml ignore =
        bytes "</" ++ bytes "a" ++ bytes ">" := rfl
    rw [Token.writeAsHtml, writeAllAsHtml_eq_flatMap]
    simp only [List.flatMap_cons, List.flatMap_nil, List.append_nil, hslash]
    rw [← List.append_assoc (Token.writeAsHtml ignore _)]
    exact hlink.container .container
  | container kind h ih =>
    rw [Token.writeAsHtml, writeAllAsHtml_eq_flatMap]
    exact (WellTagged.flatMap ih).container kind

end Markdown
