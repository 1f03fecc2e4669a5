/-
Headers, rules, lists and quotes (`markdown.cpp`).

`_processBlocksItems` asks each line of a container whether a block begins there.
The list of tokens from the iterator on stands for the iterator, and `none` for an
assertion that fails and for a text that is not there.  The expressions that lines
are matched with are functions to their groups here; what a group captures is a
part of the line (`unorderedItem_sublist` and the lemmas like it).
-/
import Spaceteam.MarkdownCode
import Spaceteam.MarkdownParagraphs

namespace Markdown

/-! ### The expressions -/

/-- ` *` at the beginning of a text. -/
def leadingBlanks (s : Bytes) : ℕ := (s.takeWhile (· = ascii ' ')).length

/-- What is behind ` *`. -/
def unindent (s : Bytes) : Bytes := s.dropWhile (· = ascii ' ')

def blanks (n : ℕ) : Bytes := List.replicate n (ascii ' ')

/-- `{n blanks}(.*)$`. -/
def behindBlanks (n : ℕ) (line : Bytes) : Option Bytes :=
  if blanks n <+: line then some (line.drop n) else none

/-- ` +([^*-].*)$`; the group begins with a blank when it cannot begin behind it. -/
def itemText (s : Bytes) : Option Bytes :=
  match (unindent s).head? with
  | some c =>
    if leadingBlanks s ≥ 1 ∧ c ≠ ascii '*' ∧ c ≠ ascii '-' then some (unindent s)
    else if leadingBlanks s ≥ 2 then some (ascii ' ' :: unindent s)
    else none
  | none => if leadingBlanks s ≥ 2 then some [ascii ' '] else none

/-- `[0-9]+\\. +(.*)$`. -/
def numberedText (s : Bytes) : Option Bytes :=
  match s.dropWhile IStream.isDigit with
  | c :: rest =>
    if c = ascii '.' ∧ s.takeWhile IStream.isDigit ≠ [] ∧ leadingBlanks rest ≥ 1 then
      some (unindent rest)
    else none
  | [] => none

/-- `[*+-]`. -/
def isBullet (c : UInt8) : Bool := c = ascii '*' || c = ascii '+' || c = ascii '-'

/-- `cUnorderedListExpression`: the second and third group. -/
def unorderedItem (line : Bytes) : Option (UInt8 × Bytes) :=
  match unindent line with
  | c :: rest => if isBullet c then (itemText rest).map (c, ·) else none
  | [] => none

/-- `cOrderedListExpression`: the third group. -/
def orderedItem (line : Bytes) : Option Bytes := numberedText (unindent line)

/-- `ListType`; of an unordered list with the character of its items. -/
inductive ListType where
  | unordered (startChar : UInt8)
  | ordered
  deriving DecidableEq, Repr

/-- `nextItemExpression`. -/
def nextItem (type : ListType) (indent : ℕ) (line : Bytes) : Option Bytes := do
  let s ← behindBlanks indent line
  match type with
  | .unordered startChar => if s.head? = some startChar then itemText s.tail else none
  | .ordered => numberedText s

/-- `startSublistExpression`. -/
def startsSublist (indent : ℕ) (line : Bytes) : Bool :=
  decide (leadingBlanks line > indent) &&
    match unindent line with
    | c :: rest => (isBullet c && decide (leadingBlanks rest ≥ 1)) || (orderedItem line).isSome
    | [] => false

/-- `continuedAfterBlankLineExpression`. -/
def continuedAfterBlankLine (indent : ℕ) (line : Bytes) : Option Bytes := do
  let s ← behindBlanks (indent + 4) line
  if s ≠ [] ∧ s.head? ≠ some (ascii ' ') then some s else none

/-- `codeBlockAfterBlankLineExpression`. -/
def codeBlockAfterBlankLine (indent : ℕ) (line : Bytes) : Option Bytes :=
  behindBlanks (indent + 8) line

/-- `cContinuedItemExpression`. -/
def continuedItem (line : Bytes) : Option Bytes :=
  if unindent line ≠ [] then some (unindent line) else none

/-- ` {0,3}>`: what is behind it. -/
def quoteMark (line : Bytes) : Option Bytes :=
  if leadingBlanks line ≤ 3 ∧ (unindent line).head? = some (ascii '>') then
    some (unindent line).tail
  else none

theorem length_quoteMark {line rest : Bytes} (h : quoteMark line = some rest) :
    rest.length < line.length := by
  rw [quoteMark] at h
  split_ifs at h with hmark
  obtain rfl := Option.some_inj.mp h
  obtain ⟨rest, hrest⟩ := List.head?_eq_some_iff.mp hmark.2
  have hle := List.length_dropWhile_le (· = ascii ' ') line
  change (unindent line).length ≤ line.length at hle
  rw [hrest] at hle ⊢
  exact hle

/-- `cBlockQuoteExpression`: how many marks the first group has, and the second. -/
def blockQuoteLine (line : Bytes) : Option (ℕ × Bytes) :=
  match _h : quoteMark line with
  | some rest =>
    match blockQuoteLine rest with
    | some (level, text) => some (level + 1, text)
    | none => if rest.head? = some (ascii ' ') then some (1, rest.tail) else none
  | none => none
termination_by line.length
decreasing_by exact length_quoteMark _h

/-- `continuationExpression`: the second group. -/
def continuation : ℕ → Bytes → Option Bytes
  | 0, line => some (if line.head? = some (ascii ' ') then line.tail else line)
  | quoteLevel + 1, line => (quoteMark line).bind (continuation quoteLevel)

/-- `isBlankLine` of a line: ` {0,3}(<--(.*)-- *> *)* *`. -/
def isBlankText (line : Bytes) : Bool :=
  unindent line = [] ||
    (decide (leadingBlanks line ≤ 3) && decide (bytes "<--" <+: unindent line) &&
      (match unindent ((unindent line).drop 3).reverse with
      | c :: rest => c = ascii '>' && decide (bytes "--" <+: unindent rest)
      | [] => false))

/-- `cHashHeaders`: the length of the first group, and the second. -/
def hashHeader (line : Bytes) : Option (ℕ × Bytes) :=
  let hashes := (line.takeWhile (· = ascii '#')).length
  let rest := line.dropWhile (· = ascii '#')
  if 1 ≤ hashes ∧ hashes ≤ 6 ∧ leadingBlanks rest ≥ 1 then
    some (hashes,
      (unindent ((unindent rest).reverse.dropWhile (· = ascii '#'))).reverse)
  else none

/-- `cUnderlinedHeaders`: the character of the line. -/
def underline (line : Bytes) : Option UInt8 :=
  match line with
  | c :: rest =>
    if (c = ascii '-' ∨ c = ascii '=') ∧ rest.all (· = c) then some c else none
  | [] => none

/-- `cHorizontalRules`. -/
def isHorizontalRule (line : Bytes) : Bool :=
  let isMark := fun c => c = ascii '-' || c = ascii '*' || c = ascii '_'
  decide (leadingBlanks line ≤ 3) && (unindent line).all (fun c => isMark c || c = ascii ' ') &&
    decide ((unindent line).countP isMark ≥ 3)

/-! ### The blocks -/

/-- `text`. -/
def Token.textOf : Token → Option Bytes
  | .text _ contents => some contents
  | _ => none

/-- The text of a line that a block can begin with. -/
def Token.markup : Token → Option Bytes
  | .text kind contents => if kind.canContainMarkup then some contents else none
  | _ => none

theorem textOf_of_markup {t : Token} {line : Bytes} (h : t.markup = some line) :
    t.textOf = some line := by
  cases t with
  | text kind contents =>
    rw [Token.markup] at h
    split_ifs at h
    exact h
  | escapedCharacter | container | boldOrItalicMarker | image => cases h

/-- The underlined type of a header. -/
def underlinedHeader (line : Bytes) (rest : List Token) : Option (Token × List Token) := do
  let next ← rest.head?
  let typeChar ← next.markup.bind underline
  return (.text (.header (if typeChar = ascii '=' then 1 else 2)) line, rest)

def parseHeader (tokens : List Token) : Option (Token × List Token) :=
  match tokens with
  | [] => none
  | t :: rest =>
    match t.markup with
    | some line =>
      match hashHeader line with
      | some (level, text) => some (.text (.header level) text, t :: rest)
      | none => underlinedHeader line rest
    | none => none

def parseHorizontalRule (tokens : List Token) : Option (Token × List Token) := do
  let t ← tokens.head?
  let line ← t.markup
  if isHorizontalRule line then some (.text .htmlTag (bytes "hr/"), tokens) else none

/-- The lines of a quote behind the first. -/
def quoteLines (quoteLevel : ℕ) : List Token → Option (List Token × List Token)
  | [] => some ([], [])
  | t :: rest =>
    if t.isBlankLine then
      match rest with
      | [] => some ([], [])
      | next :: rest' => do
        match continuation quoteLevel (← next.textOf) with
        | some text =>
          let r ← quoteLines quoteLevel rest'
          return (.text .blankLine [] :: .text (.rawText true) text :: r.1, r.2)
        | none => return ([], t :: next :: rest')
    else do
      match continuation quoteLevel (← t.textOf) with
      | some text =>
        let r ← quoteLines quoteLevel rest
        return (.text (if isBlankText text then .blankLine else .rawText true) text :: r.1, r.2)
      | none => return ([], t :: rest)

def parseBlockQuote (tokens : List Token) : Option (Option (Token × List Token)) :=
  match tokens with
  | [] => some none
  | t :: rest =>
    match t.markup.bind blockQuoteLine with
    | some (quoteLevel, text) => do
      let r ← quoteLines quoteLevel rest
      return some (.container .blockQuote (.text (.rawText true) text :: r.1), r.2)
    | none => some none

/-- The code behind a blank line in an item: what is added to it, and what follows. -/
def codeInItem (indent : ℕ) : List Token → Option (Bytes × List Token)
  | [] => some ([], [])
  | t :: rest =>
    if t.isBlankLine then
      match rest with
      | [] => none
      | next :: rest' => do
        match codeBlockAfterBlankLine indent (← next.textOf) with
        | some text =>
          let r ← codeInItem indent rest'
          return (bytes "\n" ++ text ++ bytes "\n" ++ r.1, r.2)
        | none => return ([], t :: next :: rest')
    else
      match t.textOf.bind (codeBlockAfterBlankLine indent) with
      | some text => do
        let r ← codeInItem indent rest
        return (text ++ bytes "\n" ++ r.1, r.2)
      | none => some ([], t :: rest)

/-- What the next line of a list is. -/
inductive ListMove where
  /-- the first line of a list in the item -/
  | sublist (paragraphMode : Bool) (tokens : List Token)
  /-- more tokens of the item -/
  | more (added : List Token) (isCode : Bool) (rest : List Token)
  | anotherItem (paragraphMode : Bool) (text : Bytes) (rest : List Token)
  | endOfList (rest : List Token)
  | stop (rest : List Token)

/-- What the loop of `parseListBlock` does with the next line. -/
def listMove (type : ListType) (indent : ℕ) : List Token → Option ListMove
  | [] => some (.stop [])
  | t :: rest =>
    if t.isBlankLine then
      match rest with
      | [] => some (.endOfList [])
      | next :: rest' =>
        match next.textOf with
        | none => some (.stop (t :: next :: rest'))
        | some line =>
          if startsSublist indent line then some (.sublist true (next :: rest'))
          else
            match nextItem type indent line with
            | some text => some (.anotherItem true text rest')
            | none =>
              match continuedAfterBlankLine indent line with
              | some text =>
                some (.more [.text .blankLine [], .text (.rawText true) text] false rest')
              | none =>
                match codeBlockAfterBlankLine indent line with
                | some text => do
                  let r ← codeInItem indent rest'
                  return .more [.text .blankLine [],
                    .text .codeBlock (text ++ bytes "\n" ++ r.1)] true r.2
                | none => some (.endOfList (t :: next :: rest'))
    else
      match t.textOf with
      | none => some (.endOfList (t :: rest))
      | some line =>
        if startsSublist indent line then some (.sublist false (t :: rest))
        else
          match nextItem type indent line with
          | some text => some (.anotherItem false text rest)
          | none =>
            if (unorderedItem line).isSome ∨ (orderedItem line).isSome then
              some (.endOfList (t :: rest))
            else (continuedItem line).map fun text =>
              .more [.text (.rawText true) text] false rest

/-- The variables of the loop. -/
structure ListState where
  subTokens : List Token
  subItemTokens : List Token
  itemCount : ℕ
  setParagraphMode : Bool

/-- The item that is read comes to the others. -/
def ListState.flush (s : ListState) : ListState :=
  if s.subItemTokens ≠ [] then
    { s with
      subTokens := s.subTokens ++ [.container (.listItem true) s.subItemTokens]
      subItemTokens := [] }
  else s

/-- `inhibitParagraphs(false)` of an item. -/
def Token.paragraphItem : Token → Token
  | .container (.listItem _) subItemTokens => .container (.listItem false) subItemTokens
  | t => t

/-- The constructors of `UnorderedList` and `OrderedList`. -/
def listToken (type : ListType) (subTokens : List Token) (paragraphMode : Bool) : Token :=
  .container (if type = .ordered then .orderedList else .unorderedList)
    (if paragraphMode then subTokens.map Token.paragraphItem else subTokens)

/-- The type and the text of an item. -/
def itemStart (line : Bytes) : Option (ListType × Bytes) :=
  match unorderedItem line with
  | some (startChar, text) => some (.unordered startChar, text)
  | none => (orderedItem line).map (.ordered, ·)

/-- The first line of a list: its type, its indentation and the text of the item. -/
def listStart (sub : Bool) (t : Token) : Option (ListType × ℕ × Bytes) := do
  let line ← t.markup
  let (type, text) ← itemStart line
  if sub ∨ leadingBlanks line < 4 then some (type, leadingBlanks line, text) else none

mutual

/-- `parseListBlock`. -/
def parseListBlock : ℕ → Bool → List Token → Option (Option (Token × List Token))
  | 0, _, _ => none
  | _, _, [] => some none
  | fuel + 1, sub, t :: rest =>
    match listStart sub t with
    | some (type, indent, text) => do
      let (s, rest') ← listLoop fuel type indent ⟨[], [.text (.rawText true) text], 1, false⟩ rest
      if s.itemCount > 1 ∨ indent ≠ 0 then
        return some (listToken type s.flush.subTokens s.setParagraphMode, rest')
      else return none
    | none => some none

def listLoop : ℕ → ListType → ℕ → ListState → List Token → Option (ListState × List Token)
  | 0, _, _, _, _ => none
  | fuel + 1, type, indent, s, tokens => do
    match ← listMove type indent tokens with
    | .sublist paragraphMode tokens =>
      let (p, rest) ← ← parseListBlock fuel true tokens
      listLoop fuel type indent
        { s with
          subItemTokens := s.subItemTokens ++ [p]
          itemCount := s.itemCount + 1
          setParagraphMode := s.setParagraphMode || paragraphMode } rest
    | .more added isCode rest =>
      listLoop fuel type indent
        { s with
          subItemTokens := s.subItemTokens ++ added
          itemCount := if isCode then s.itemCount + 1 else s.itemCount
          setParagraphMode := s.setParagraphMode || isCode } rest
    | .anotherItem paragraphMode text rest =>
      listLoop fuel type indent
        { s.flush with
          subItemTokens := [.text (.rawText true) text]
          itemCount := s.itemCount + 1
          setParagraphMode := s.setParagraphMode || paragraphMode } rest
    | .endOfList rest => return (s.flush, rest)
    | .stop rest => return (s, rest)

end

/-- The block that begins with the first token. -/
def parseBlock (fuel : ℕ) (tokens : List Token) : Option (Option (Token × List Token)) :=
  match parseHeader tokens with
  | some r => some (some r)
  | none =>
    match parseHorizontalRule tokens with
    | some r => some (some r)
    | none => do
      match ← parseListBlock fuel false tokens with
      | some r => return some r
      | none =>
        match ← parseBlockQuote tokens with
        | some r => return some r
        | none => return parseCodeBlock tokens

mutual

/-- `_processBlocksItems`. -/
def Token.processBlocksItems : ℕ → Token → Option Token
  | 0, _ => none
  | fuel + 1, .container kind subTokens => (processBlocks fuel subTokens).map (.container kind ·)
  | _, t => some t

/-- Its loop; behind a block the iterator is advanced once more. -/
def processBlocks : ℕ → List Token → Option (List Token)
  | 0, _ => none
  | _, [] => some []
  | fuel + 1, t :: rest =>
    match t with
    | .text _ _ => do
      match ← parseBlock fuel (t :: rest) with
      | some (subitem, more) =>
        let subitem ← subitem.processBlocksItems fuel
        let processed ← processBlocks fuel more.tail
        return subitem :: processed
      | none => return t :: (← processBlocks fuel rest)
    | .container _ _ => do
      let t ← t.processBlocksItems fuel
      return t :: (← processBlocks fuel rest)
    | _ => processBlocks fuel rest

end

/-! ### The groups are parts of the line -/

section Groups

variable {s line text : Bytes} {n indent : ℕ}

theorem unindent_sublist (s : Bytes) : (unindent s).Sublist s := List.dropWhile_sublist _

theorem behindBlanks_sublist (h : behindBlanks n line = some text) : text.Sublist line := by
  rw [behindBlanks] at h
  split_ifs at h
  obtain rfl := Option.some_inj.mp h
  exact List.drop_sublist n line

/-- The last blank and what is behind it. -/
theorem blank_sublist (h : leadingBlanks s ≥ 1) : (ascii ' ' :: unindent s).Sublist s := by
  have hmem : ascii ' ' ∈ s.takeWhile (· = ascii ' ') := by
    obtain ⟨c, rest, hc⟩ := List.exists_cons_of_length_pos h
    have hblank := List.mem_takeWhile_imp (hc ▸ List.mem_cons_self : c ∈ s.takeWhile _)
    rw [decide_eq_true_eq] at hblank
    rw [hc, hblank]
    exact List.mem_cons_self
  have happend := (List.singleton_sublist.mpr hmem).append (List.Sublist.refl (unindent s))
  rwa [unindent, List.takeWhile_append_dropWhile] at happend

theorem itemText_sublist (h : itemText s = some text) : text.Sublist s := by
  rw [itemText] at h
  split at h
  next c hc =>
    split_ifs at h with hone htwo
    · obtain rfl := Option.some_inj.mp h
      exact unindent_sublist s
    · obtain rfl := Option.some_inj.mp h
      exact blank_sublist (by omega)
  next hnone =>
    split_ifs at h with htwo
    obtain rfl := Option.some_inj.mp h
    have hblank := blank_sublist (s := s) (by omega)
    rwa [List.head?_eq_none_iff.mp hnone] at hblank

theorem numberedText_sublist (h : numberedText s = some text) : text.Sublist s := by
  rw [numberedText] at h
  split at h
  next c rest hrest =>
    split_ifs at h
    obtain rfl := Option.some_inj.mp h
    have hcons : (c :: rest).Sublist s := hrest ▸ List.dropWhile_sublist _
    exact ((unindent_sublist rest).trans (List.sublist_cons_self c rest)).trans hcons
  next => cases h

theorem unorderedItem_sublist {c : UInt8} (h : unorderedItem line = some (c, text)) :
    text.Sublist line := by
  rw [unorderedItem] at h
  split at h
  next d rest hrest =>
    split_ifs at h
    obtain ⟨text', htext, heq⟩ := Option.map_eq_some_iff.mp h
    obtain ⟨rfl, rfl⟩ := Prod.mk.inj heq
    have hcons : (d :: rest).Sublist line := hrest ▸ unindent_sublist line
    exact ((itemText_sublist htext).trans (List.sublist_cons_self d rest)).trans hcons
  next => cases h

theorem orderedItem_sublist (h : orderedItem line = some text) : text.Sublist line :=
  (numberedText_sublist h).trans (unindent_sublist line)

theorem nextItem_sublist {type : ListType} (h : nextItem type indent line = some text) :
    text.Sublist line := by
  obtain ⟨s, hs, h⟩ := Option.bind_eq_some_iff.mp h
  refine List.Sublist.trans ?_ (behindBlanks_sublist hs)
  cases type with
  | unordered startChar =>
    dsimp only at h
    split_ifs at h
    exact (itemText_sublist h).trans (List.tail_sublist s)
  | ordered => exact numberedText_sublist h

theorem continuedAfterBlankLine_sublist (h : continuedAfterBlankLine indent line = some text) :
    text.Sublist line := by
  obtain ⟨s, hs, h⟩ := Option.bind_eq_some_iff.mp h
  split_ifs at h
  obtain rfl := Option.some_inj.mp h
  exact behindBlanks_sublist hs

theorem continuedItem_sublist (h : continuedItem line = some text) : text.Sublist line := by
  rw [continuedItem] at h
  split_ifs at h
  obtain rfl := Option.some_inj.mp h
  exact unindent_sublist line

theorem quoteMark_sublist (h : quoteMark line = some text) : text.Sublist line := by
  rw [quoteMark] at h
  split_ifs at h
  obtain rfl := Option.some_inj.mp h
  exact (List.tail_sublist _).trans (unindent_sublist line)

theorem blockQuoteLine_sublist {level : ℕ} (h : blockQuoteLine line = some (level, text)) :
    text.Sublist line := by
  fun_induction blockQuoteLine line generalizing level text with
  | case1 line rest hmark level' text' hrest ih =>
    cases h
    exact (ih hrest).trans (quoteMark_sublist hmark)
  | case2 line rest hmark hrest hblank ih =>
    cases h
    exact (List.tail_sublist rest).trans (quoteMark_sublist hmark)
  | case3 line rest hmark hrest hblank ih => cases h
  | case4 line hmark => cases h

theorem continuation_sublist {level : ℕ} (h : continuation level line = some text) :
    text.Sublist line := by
  induction level generalizing line with
  | zero =>
    obtain rfl := Option.some_inj.mp h
    split_ifs
    · exact List.tail_sublist line
    · exact List.Sublist.refl line
  | succ level ih =>
    obtain ⟨rest, hrest, h⟩ := Option.bind_eq_some_iff.mp h
    exact (ih h).trans (quoteMark_sublist hrest)

theorem hashHeader_sublist {level : ℕ} (h : hashHeader line = some (level, text)) :
    text.Sublist line := by
  rw [hashHeader] at h
  split_ifs at h
  cases h
  have htrimmed := (unindent_sublist _).trans (List.dropWhile_sublist
    (l := (unindent (line.dropWhile (· = ascii '#'))).reverse) (· = ascii '#'))
  have hreverse := List.reverse_sublist.mpr htrimmed
  rw [List.reverse_reverse] at hreverse
  exact (hreverse.trans (unindent_sublist _)).trans (List.dropWhile_sublist _)

end Groups

end Markdown
