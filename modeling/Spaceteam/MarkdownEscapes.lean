/-
References to replacements in a text (`markdown-tokens.cpp`).

While a text goes through the regular expressions, what has been dealt with is
kept in a table of replacements, and the text has a reference in its place: a
number between two bytes 1.  An escaped character is referred to by its index.
`_encodeProcessedItems` puts tokens for the references, `_restoreProcessedItems`
the text they once were.

* `Markdown.encodeProcessedItems_layout` — the references are found where they
  have been put, and nothing else is taken for one;
* `Markdown.processEscapedCharacters_restored` — the text with its backslashes is
  got back from the references to escaped characters.
-/
import Spaceteam.MarkdownTokens

open IStream

namespace Markdown

/-! ### The functions -/

def cEscapedCharacters : Bytes := bytes "\\`*_\x7b\x7d[]()#+-.!>"

def isEscapedCharacter (c : UInt8) : Option ℕ := cEscapedCharacters.findIdx? (· == c)

/-- `escapedCharacter`: behind the characters there is a zero; further on it is
undefined what is read. -/
def escapedCharacter (index : ℕ) : Option UInt8 :=
  if index = cEscapedCharacters.length then some 0 else cEscapedCharacters[index]?

/-- The byte around a reference. -/
def mark : UInt8 := 1

/-- A reference as it is put into the text, the label being of no importance. -/
def reference (ref label : Bytes) : Bytes :=
  mark :: ascii '@' :: ref ++ ascii '@' :: label ++ [mark]

/-- `_processEscapedCharacters`. -/
def processEscapedCharacters : Bytes → Bytes
  | [] => []
  | [c] => [c]
  | c :: d :: src =>
    if c = ascii '\\' then
      match isEscapedCharacter d with
      | some e =>
        reference (ascii '#' :: decimal e) (bytes "escaped") ++ processEscapedCharacters src
      | none => ascii '\\' :: d :: processEscapedCharacters src
    else c :: processEscapedCharacters (d :: src)

/-- `#?`, and what follows. -/
def takeHash (s : Bytes) : Bytes × Bytes :=
  if s.head? = some (ascii '#') then ([ascii '#'], s.tail) else ([], s)

/-- `\x01@(#?[0-9]*)@.+?\x01` at the front of a text: the group, and what follows
the match. -/
def matchReplaced : Bytes → Option (Bytes × Bytes)
  | a :: b :: s =>
    if a = mark ∧ b = ascii '@' then
      let group := takeHash s
      match group.2.dropWhile isDigit with
      | c :: _ :: rest =>
        if c = ascii '@' then
          match rest.dropWhile (· ≠ mark) with
          | _ :: rest => some (group.1 ++ group.2.takeWhile isDigit, rest)
          | [] => none
        else none
      | _ => none
    else none
  | _ => none

/-- `regex_search`: what comes before the match, the group and what follows. -/
def searchReplaced : Bytes → Option (Bytes × Bytes × Bytes)
  | [] => none
  | c :: s =>
    match matchReplaced (c :: s) with
    | some (ref, rest) => some ([], ref, rest)
    | none => (searchReplaced s).map fun m => (c :: m.1, m.2)

theorem length_takeHash (s : Bytes) : (takeHash s).2.length ≤ s.length := by
  rw [takeHash]
  split_ifs
  · rw [List.length_tail]
    exact Nat.sub_le _ _
  · exact le_rfl

theorem length_matchReplaced {s ref rest : Bytes} (h : matchReplaced s = some (ref, rest)) :
    rest.length < s.length := by
  unfold matchReplaced at h
  split at h
  next a b s =>
    split_ifs at h
    dsimp only at h
    have hhash := length_takeHash s
    have hdigits := List.length_dropWhile_le isDigit (takeHash s).2
    split at h
    next c d more heq =>
      split_ifs at h
      have hmore := List.length_dropWhile_le (· ≠ mark) more
      rw [heq] at hdigits
      split at h
      next e rest' hrest =>
        cases h
        rw [hrest] at hmore
        simp only [List.length_cons] at hdigits hmore ⊢
        omega
      next => cases h
    next => cases h
  next => cases h

theorem length_searchReplaced {s pre ref rest : Bytes}
    (h : searchReplaced s = some (pre, ref, rest)) : rest.length < s.length := by
  induction s generalizing pre with
  | nil => cases h
  | cons c s ih =>
    rw [searchReplaced] at h
    split at h
    next hmatch =>
      cases h
      exact length_matchReplaced hmatch
    next =>
      obtain ⟨⟨pre', m⟩, hm, heq⟩ := Option.map_eq_some_iff.mp h
      cases heq
      exact (ih hm).trans (Nat.lt_succ_self _)

/-- The texts and references that the loops go through, and the text behind them. -/
def splitReplaced (src : Bytes) : List (Bytes × Bytes) × Bytes :=
  match _h : searchReplaced src with
  | some (pre, ref, rest) =>
    let r := splitReplaced rest
    ((pre, ref) :: r.1, r.2)
  | none => ([], src)
termination_by src.length
decreasing_by exact length_searchReplaced _h

/-- `boost::lexical_cast<size_t>` of digits; `none` when it throws. -/
def lexicalCast (digits : Bytes) : Option ℕ :=
  if digits ≠ [] ∧ decimalValue digits < 2 ^ 64 then some (decimalValue digits) else none

/-- What a reference stands for; `none` when the cast throws, or when there is no
such character or replacement. -/
def resolve (replacements : List Token) (ref : Bytes) : Option (List Token) :=
  if ref.head? = some (ascii '#') then do
    let n ← lexicalCast ref.tail
    let c ← escapedCharacter n
    return [.escapedCharacter c]
  else if ref ≠ [] then do
    let n ← lexicalCast ref
    let t ← replacements[n]?
    return [t]
  else return []

/-- The token for a text, unless it is empty. -/
def rawTextOf (pre : Bytes) : List Token := if pre = [] then [] else [.text (.rawText true) pre]

/-- `_encodeProcessedItems`. -/
def encodeProcessedItems (replacements : List Token) (src : Bytes) : Option (List Token) := do
  let (items, last) := splitReplaced src
  let r ← items.mapM fun item => (resolve replacements item.2).map (rawTextOf item.1 ++ ·)
  return r.flatten ++ rawTextOf last

variable (ignore : Bytes → Bool)

/-- `writeAsOriginal`. -/
def Token.writeAsOriginal (t : Token) : Bytes :=
  match t with
  | .text .codeSpan contents => bytes "`" ++ contents ++ bytes "`"
  | .escapedCharacter c => [ascii '\\', c]
  | t => t.writeAsHtml ignore

/-- `_restoreProcessedItems`. -/
def restoreProcessedItems (replacements : List Token) (src : Bytes) : Option Bytes := do
  let (items, last) := splitReplaced src
  let r ← items.mapM fun item => (resolve replacements item.2).map fun tokens =>
    item.1 ++ tokens.flatMap (·.writeAsOriginal ignore)
  return r.flatten ++ last

/-! ### Where the references are found -/

theorem decimalValue_decimal (n : ℕ) : decimalValue (decimal n) = n := by
  have hdigits : ∀ d ∈ Nat.toDigits 10 n, d.isDigit = true :=
    fun d hd => Nat.isDigit_of_mem_toDigits (by decide) (by decide) hd
  have hvalue : decimalValue (decimal n) = Nat.ofDigitChars 10 (Nat.toDigits 10 n) 0 := by
    rw [decimalValue, decimal, List.foldl_map, Nat.ofDigitChars_eq_foldl]
    refine List.foldl_ext _ _ _ fun m d hd => ?_
    rw [(toNat_ascii_of_isDigit (hdigits d hd)).1]
    rfl
  rw [hvalue]
  exact Nat.ofDigitChars_toDigits (by decide) (by decide)

/-- The group of a reference: digits, perhaps after a `#`. -/
def IsRef (ref : Bytes) : Prop :=
  ∃ digits : Bytes, (∀ c ∈ digits, isDigit c = true) ∧ (ref = digits ∨ ref = ascii '#' :: digits)

theorem matchReplaced_reference {ref label : Bytes} (href : IsRef ref) (hne : label ≠ [])
    (hlabel : mark ∉ label) (rest : Bytes) :
    matchReplaced (reference ref label ++ rest) = some (ref, rest) := by
  obtain ⟨digits, hdigits, href⟩ := href
  obtain ⟨d, label, rfl⟩ := List.exists_cons_of_ne_nil hne
  obtain ⟨hash, htake, hsplit⟩ : ∃ hash,
      takeHash (ref ++ ascii '@' :: d :: (label ++ mark :: rest)) =
        (hash, digits ++ ascii '@' :: d :: (label ++ mark :: rest)) ∧ ref = hash ++ digits := by
    rcases href with rfl | rfl
    · refine ⟨[], ?_, rfl⟩
      have hhead : (ref ++ ascii '@' :: d :: (label ++ mark :: rest)).head? ≠ some (ascii '#') := by
        intro hhead
        rcases ref with _ | ⟨c, ref⟩
        · cases hhead
        · obtain rfl := Option.some_inj.mp hhead
          exact absurd (hdigits _ List.mem_cons_self) (by decide)
      rw [takeHash, if_neg hhead]
    · exact ⟨[ascii '#'], rfl, rfl⟩
  obtain ⟨htakeDigits, hdropDigits⟩ := span_append hdigits
    (show isDigit (ascii '@') = false by decide) (d :: (label ++ mark :: rest))
  rw [List.mem_cons, not_or] at hlabel
  have hall : ∀ b ∈ label, decide (b ≠ mark) = true :=
    fun b hb => decide_eq_true (ne_of_mem_of_not_mem hb hlabel.2)
  obtain ⟨-, hdropLabel⟩ := span_append (p := (· ≠ mark)) (c := mark) hall (by simp) rest
  have htext : reference ref (d :: label) ++ rest =
      mark :: ascii '@' :: (ref ++ ascii '@' :: d :: (label ++ mark :: rest)) := by
    simp [reference]
  rw [htext, matchReplaced, if_pos ⟨rfl, rfl⟩]
  simp only [htake, hdropDigits, if_true, hdropLabel, htakeDigits]
  rw [hsplit]

theorem matchReplaced_of_ne {c : UInt8} (hc : c ≠ mark) (s : Bytes) :
    matchReplaced (c :: s) = none := by
  rcases s with _ | ⟨d, s⟩
  · rfl
  · rw [matchReplaced, if_neg fun h => hc h.1]

theorem searchReplaced_append {pre : Bytes} (hpre : mark ∉ pre) {ref label : Bytes}
    (href : IsRef ref) (hne : label ≠ []) (hlabel : mark ∉ label) (rest : Bytes) :
    searchReplaced (pre ++ (reference ref label ++ rest)) = some (pre, ref, rest) := by
  induction pre with
  | nil =>
    have hmatch := matchReplaced_reference href hne hlabel rest
    rw [List.nil_append]
    rw [show reference ref label ++ rest = mark :: (reference ref label ++ rest).tail from rfl]
      at hmatch ⊢
    rw [searchReplaced, hmatch]
  | cons c pre ih =>
    rw [List.mem_cons, not_or] at hpre
    rw [List.cons_append, searchReplaced, matchReplaced_of_ne (Ne.symm hpre.1), ih hpre.2]
    rfl

theorem searchReplaced_of_not_mem {s : Bytes} (hs : mark ∉ s) : searchReplaced s = none := by
  induction s with
  | nil => rfl
  | cons c s ih =>
    rw [List.mem_cons, not_or] at hs
    rw [searchReplaced, matchReplaced_of_ne (Ne.symm hs.1), ih hs.2]
    rfl

/-- What a reference stands for. -/
inductive Refers (replacements : List Token) : Bytes → Token → Prop
  | escaped {e : ℕ} {c : UInt8} (h : cEscapedCharacters[e]? = some c) :
    Refers replacements (ascii '#' :: decimal e) (.escapedCharacter c)
  | replaced {n : ℕ} {t : Token} (h : replacements[n]? = some t) (hn : n < 2 ^ 64) :
    Refers replacements (decimal n) t

variable {replacements : List Token} {ref : Bytes} {t : Token}

theorem lexicalCast_decimal {n : ℕ} (hn : n < 2 ^ 64) : lexicalCast (decimal n) = some n := by
  have hne : decimal n ≠ [] := fun h => Nat.toDigits_ne_nil (List.map_eq_nil_iff.mp h)
  rw [lexicalCast, decimalValue_decimal, if_pos ⟨hne, hn⟩]

theorem Refers.isRef (h : Refers replacements ref t) : IsRef ref := by
  cases h with
  | @escaped e => exact ⟨decimal e, fun _ => isDigit_of_mem_decimal, .inr rfl⟩
  | @replaced n => exact ⟨decimal n, fun _ => isDigit_of_mem_decimal, .inl rfl⟩

theorem Refers.resolve_eq (h : Refers replacements ref t) :
    resolve replacements ref = some [t] := by
  cases h with
  | @escaped e c h =>
    have he : e < cEscapedCharacters.length := (List.getElem?_eq_some_iff.mp h).1
    have hchar : escapedCharacter e = some c := by rw [escapedCharacter, if_neg he.ne, h]
    have hsmall : cEscapedCharacters.length = 16 := rfl
    rw [resolve, if_pos (List.head?_cons ..), List.tail_cons, lexicalCast_decimal (by omega)]
    simp [hchar]
  | @replaced n t h hn =>
    have hhead : (decimal n).head? ≠ some (ascii '#') := by
      intro hhead
      exact absurd (isDigit_of_mem_decimal (List.mem_of_mem_head? hhead)) (by decide)
    have hne : decimal n ≠ [] := fun h => Nat.toDigits_ne_nil (List.map_eq_nil_iff.mp h)
    rw [resolve, if_neg hhead, if_pos hne, lexicalCast_decimal hn]
    simp [h]

/-- A text, a reference behind it with its label, and what it stands for. -/
structure Item where
  pre : Bytes
  ref : Bytes
  label : Bytes
  token : Token

structure Item.Stands (replacements : List Token) (item : Item) : Prop where
  pre : mark ∉ item.pre
  refers : Refers replacements item.ref item.token
  label_ne : item.label ≠ []
  label : mark ∉ item.label

/-- Texts with references behind them, and a text at the end. -/
def layout (items : List Item) (last : Bytes) : Bytes :=
  items.flatMap (fun item => item.pre ++ reference item.ref item.label) ++ last

theorem layout_cons (item : Item) (items : List Item) (last : Bytes) :
    layout (item :: items) last =
      item.pre ++ (reference item.ref item.label ++ layout items last) := by
  rw [layout, List.flatMap_cons, List.append_assoc, List.append_assoc]
  rfl

theorem splitReplaced_of_some {src pre ref rest : Bytes}
    (h : searchReplaced src = some (pre, ref, rest)) :
    splitReplaced src = ((pre, ref) :: (splitReplaced rest).1, (splitReplaced rest).2) := by
  rw [splitReplaced]
  split
  next heq =>
    rw [h] at heq
    cases heq
    rfl
  next heq =>
    rw [h] at heq
    cases heq

theorem splitReplaced_of_none {src : Bytes} (h : searchReplaced src = none) :
    splitReplaced src = ([], src) := by
  rw [splitReplaced]
  split
  next heq =>
    rw [h] at heq
    cases heq
  next => rfl

variable {items : List Item} {last : Bytes}

/-- The loops stop at the references, and nowhere else. -/
theorem splitReplaced_layout (hitems : ∀ item ∈ items, item.Stands replacements)
    (hlast : mark ∉ last) :
    splitReplaced (layout items last) = (items.map fun item => (item.pre, item.ref), last) := by
  induction items with
  | nil =>
    rw [layout, List.flatMap_nil, List.nil_append,
      splitReplaced_of_none (searchReplaced_of_not_mem hlast), List.map_nil]
  | cons item items ih =>
    obtain ⟨hitem, hitems⟩ := List.forall_mem_cons.mp hitems
    have hsearch := searchReplaced_append hitem.pre hitem.refers.isRef hitem.label_ne hitem.label
      (layout items last)
    rw [layout_cons, splitReplaced_of_some hsearch, ih hitems]
    rfl

theorem mapM_resolve {β : Type} (f : Bytes → List Token → β)
    (hitems : ∀ item ∈ items, item.Stands replacements) :
    (items.map fun item => (item.pre, item.ref)).mapM
      (fun item => (resolve replacements item.2).map (f item.1)) =
        some (items.map fun item => f item.pre [item.token]) := by
  induction items with
  | nil => rfl
  | cons item items ih =>
    obtain ⟨hitem, hitems⟩ := List.forall_mem_cons.mp hitems
    rw [List.map_cons, List.mapM_cons, hitem.refers.resolve_eq, ih hitems]
    rfl

theorem encodeProcessedItems_of_layout (hitems : ∀ item ∈ items, item.Stands replacements)
    (hlast : mark ∉ last) :
    encodeProcessedItems replacements (layout items last) =
      some (items.flatMap (fun item => rawTextOf item.pre ++ [item.token]) ++ rawTextOf last) := by
  have htokens := mapM_resolve (fun pre tokens => rawTextOf pre ++ tokens) hitems
  rw [encodeProcessedItems, splitReplaced_layout hitems hlast]
  dsimp only
  rw [htokens, List.flatMap_def]
  rfl

theorem restoreProcessedItems_of_layout (hitems : ∀ item ∈ items, item.Stands replacements)
    (hlast : mark ∉ last) :
    restoreProcessedItems ignore replacements (layout items last) =
      some (items.flatMap (fun item => item.pre ++ item.token.writeAsOriginal ignore) ++ last) := by
  have htexts := mapM_resolve
    (fun pre tokens => pre ++ tokens.flatMap (·.writeAsOriginal ignore)) hitems
  rw [restoreProcessedItems, splitReplaced_layout hitems hlast]
  dsimp only
  rw [htexts, List.flatMap_def]
  simp

/-- **References are told apart from the text**: the tokens are put where the
references to them are, and a text is restored with what they once were. -/
theorem encodeProcessedItems_layout (hitems : ∀ item ∈ items, item.Stands replacements)
    (hlast : mark ∉ last) :
    encodeProcessedItems replacements (layout items last) =
        some (items.flatMap (fun item => rawTextOf item.pre ++ [item.token]) ++ rawTextOf last) ∧
      restoreProcessedItems ignore replacements (layout items last) =
        some (items.flatMap (fun item => item.pre ++ item.token.writeAsOriginal ignore) ++ last) :=
  ⟨encodeProcessedItems_of_layout hitems hlast, restoreProcessedItems_of_layout ignore hitems hlast⟩

/-- A code span between two words. -/
def codeItem : Item := ⟨bytes "see ", decimal 0, bytes "codeSpan", .text .codeSpan (bytes "x<y")⟩

theorem encodeProcessedItems_layout_code :
    encodeProcessedItems [codeItem.token] (layout [codeItem] (bytes " too")) =
        some [.text (.rawText true) (bytes "see "), codeItem.token,
          .text (.rawText true) (bytes " too")] ∧
      restoreProcessedItems (fun _ => false) [codeItem.token] (layout [codeItem] (bytes " too")) =
        some (bytes "see `x<y` too") := by
  have hstands : codeItem.Stands [codeItem.token] :=
    ⟨by decide, .replaced (n := 0) rfl (by norm_num), by decide, by decide⟩
  exact encodeProcessedItems_layout (fun _ => false) (List.forall_mem_singleton.mpr hstands)
    (by decide)

/-! ### Escaped characters -/

/-- A text with its escapes carried out. -/
def unescape : Bytes → Bytes
  | [] => []
  | [c] => [c]
  | c :: d :: src =>
    if c = ascii '\\' then
      if d ∈ cEscapedCharacters then d :: unescape src else c :: d :: unescape src
    else c :: unescape (d :: src)

/-- The characters that a token shows. -/
def Token.characters : Token → Bytes
  | .text (.rawText _) contents => contents
  | .escapedCharacter c => [c]
  | _ => []

/-- What becomes of a text: its pieces, with the references between them. -/
structure Escapes (replacements : List Token) (src : Bytes) (items : List Item)
    (last : Bytes) : Prop where
  stands : ∀ item ∈ items, item.Stands replacements
  escaped : ∀ item ∈ items, ∃ c, item.token = .escapedCharacter c
  not_mem : mark ∉ last
  processed : processEscapedCharacters src = layout items last
  original : items.flatMap (fun item => item.pre ++ item.token.writeAsOriginal ignore) ++ last = src
  shown : items.flatMap (fun item => item.pre ++ item.token.characters) ++ last = unescape src

variable {ignore}

/-- A text in front of the others. -/
theorem Escapes.append {src u : Bytes} (h : Escapes ignore replacements src items last)
    (hu : mark ∉ u)
    (hprocess : processEscapedCharacters (u ++ src) = u ++ processEscapedCharacters src)
    (hunescape : unescape (u ++ src) = u ++ unescape src) :
    ∃ items last, Escapes ignore replacements (u ++ src) items last := by
  obtain ⟨hstands, hescaped, hlast, hprocessed, horiginal, hshown⟩ := h
  rcases items with _ | ⟨item, items⟩
  · refine ⟨[], u ++ last, by simp, by simp, ?_, ?_, ?_, ?_⟩
    · rw [List.mem_append, not_or]
      exact ⟨hu, hlast⟩
    · rw [hprocess, hprocessed]
      rfl
    · exact congrArg (u ++ ·) horiginal
    · rw [hunescape, ← hshown]
      rfl
  · rw [List.forall_mem_cons] at hstands hescaped
    obtain ⟨⟨hpre, hrefers, hne, hlabel⟩, hstands⟩ := hstands
    have hpre' : mark ∉ u ++ item.pre := by
      rw [List.mem_append, not_or]
      exact ⟨hu, hpre⟩
    refine ⟨{ item with pre := u ++ item.pre } :: items, last, ?_, ?_, hlast, ?_, ?_, ?_⟩
    · exact List.forall_mem_cons.mpr ⟨⟨hpre', hrefers, hne, hlabel⟩, hstands⟩
    · exact List.forall_mem_cons.mpr hescaped
    · rw [hprocess, hprocessed, layout_cons, layout_cons, List.append_assoc]
    · rw [← horiginal]
      simp
    · rw [hunescape, ← hshown]
      simp

theorem isEscapedCharacter_cases (d : UInt8) :
    (∃ e, isEscapedCharacter d = some e ∧ cEscapedCharacters[e]? = some d) ∨
      isEscapedCharacter d = none ∧ d ∉ cEscapedCharacters := by
  rcases h : isEscapedCharacter d with _ | e
  · refine .inr ⟨rfl, fun hmem => ?_⟩
    have hall := List.findIdx?_eq_none_iff.mp h d hmem
    simp at hall
  · obtain ⟨hlt, heq, -⟩ := List.findIdx?_eq_some_iff_getElem.mp h
    exact .inl ⟨e, rfl, List.getElem?_eq_some_iff.mpr ⟨hlt, by simpa using heq⟩⟩

theorem exists_escapes {src : Bytes} (h : mark ∉ src) :
    ∃ items last, Escapes ignore replacements src items last := by
  fun_induction processEscapedCharacters src with
  | case1 => exact ⟨[], [], by simp, by simp, by simp, rfl, rfl, rfl⟩
  | case2 c => exact ⟨[], [c], by simp, by simp, h, rfl, rfl, rfl⟩
  | case3 d src e he ih =>
    obtain ⟨items, last, hstands, hescaped, hlast, hprocessed, horiginal, hshown⟩ :=
      ih fun hmem => h (List.mem_cons_of_mem _ (List.mem_cons_of_mem _ hmem))
    have hd : cEscapedCharacters[e]? = some d := by
      rcases isEscapedCharacter_cases d with ⟨e', he', hd⟩ | ⟨hnone, -⟩
      · obtain rfl : e = e' := Option.some_inj.mp (he.symm.trans he')
        exact hd
      · rw [he] at hnone
        cases hnone
    let item : Item := ⟨[], ascii '#' :: decimal e, bytes "escaped", .escapedCharacter d⟩
    have hne : bytes "escaped" ≠ [] := by decide
    have hlabel : mark ∉ bytes "escaped" := by decide
    have hitem : item.Stands replacements := ⟨List.not_mem_nil, .escaped hd, hne, hlabel⟩
    refine ⟨item :: items, last, ?_, ?_, hlast, ?_, ?_, ?_⟩
    · exact List.forall_mem_cons.mpr ⟨hitem, hstands⟩
    · exact List.forall_mem_cons.mpr ⟨⟨d, rfl⟩, hescaped⟩
    · rw [processEscapedCharacters, if_pos rfl]
      simp only [he]
      rw [hprocessed, layout_cons]
      rfl
    · rw [List.flatMap_cons, List.append_assoc, horiginal]
      rfl
    · rw [List.flatMap_cons, List.append_assoc, hshown, unescape, if_pos rfl,
        if_pos (List.mem_of_getElem? hd)]
      rfl
  | case4 d src hnone ih =>
    rw [List.mem_cons, List.mem_cons, not_or, not_or] at h
    obtain ⟨items, last, hescapes⟩ := ih h.2.2
    have hd : d ∉ cEscapedCharacters := by
      rcases isEscapedCharacter_cases d with ⟨e, he, -⟩ | ⟨-, hd⟩
      · rw [hnone] at he
        cases he
      · exact hd
    refine hescapes.append (u := [ascii '\\', d]) ?_ ?_ ?_
    · simp only [List.mem_cons, List.not_mem_nil, or_false, not_or]
      exact ⟨h.1, h.2.1⟩
    · show processEscapedCharacters (ascii '\\' :: d :: src) = _
      rw [processEscapedCharacters, if_pos rfl]
      simp only [hnone]
      rfl
    · show unescape (ascii '\\' :: d :: src) = _
      rw [unescape, if_pos rfl, if_neg hd]
      rfl
  | case5 c d src hc ih =>
    rw [List.mem_cons, not_or] at h
    obtain ⟨items, last, hescapes⟩ := ih h.2
    refine hescapes.append (u := [c]) (by simpa using h.1) ?_ ?_
    · rw [List.singleton_append, processEscapedCharacters, if_neg hc]
      rfl
    · rw [List.singleton_append, unescape, if_neg hc]
      rfl

/-- **The text is got back** from the references to escaped characters, and the
tokens put for them show it with its escapes carried out. -/
theorem processEscapedCharacters_restored {src : Bytes} (h : mark ∉ src)
    (replacements : List Token) :
    restoreProcessedItems ignore replacements (processEscapedCharacters src) = some src ∧
      ∃ tokens, encodeProcessedItems replacements (processEscapedCharacters src) = some tokens ∧
        tokens.flatMap (·.characters) = unescape src := by
  obtain ⟨items, last, hescapes⟩ := @exists_escapes ignore replacements src h
  obtain ⟨hstands, hescaped, hlast, hprocessed, horiginal, hshown⟩ := hescapes
  rw [hprocessed]
  refine ⟨?_, _, encodeProcessedItems_of_layout hstands hlast, ?_⟩
  · rw [restoreProcessedItems_of_layout ignore hstands hlast, horiginal]
  · have hraw : ∀ pre, (rawTextOf pre).flatMap (·.characters) = pre := by
      intro pre
      rw [rawTextOf]
      split_ifs with hnil
      · rw [hnil]
        rfl
      · simp [Token.characters]
    rw [List.flatMap_append, List.flatMap_assoc, hraw, ← hshown]
    simp [List.flatMap_append, hraw]

theorem processEscapedCharacters_restored_star :
    restoreProcessedItems (fun _ => false) [] (processEscapedCharacters (bytes "2\\*3\\n")) =
        some (bytes "2\\*3\\n") ∧
      ∃ tokens, encodeProcessedItems [] (processEscapedCharacters (bytes "2\\*3\\n")) =
        some tokens ∧ tokens.flatMap (·.characters) = bytes "2*3\\n" :=
  processEscapedCharacters_restored (by decide) []

end Markdown
