/-
Config texts: what `ParseToken` makes of them, and what they say.

The lexemes of a text are its words, marks, comments and white space, up to
the last byte (`lexemes`, with `lexemes_flatMap` for "up to"); `ParseToken`
delivers those that are words or marks, except for a bare word that the text
ends in, which it gives the end-of-file token instead (`scans_lexemes`).

* `NginxConfigParser.parse_toString_roundTrip` — printing and parsing again;
* `NginxConfigParser.keepsText_iff` — the texts of which nothing is dropped.
-/
import Mathlib.Data.List.TakeWhile
import Spaceteam.ConfigGrammar

open Blocks

namespace NginxConfigParser

/-! ### Lexemes -/

/-- The bytes no bare word goes on with. -/
def separators : Bytes :=
  [ascii ' ', ascii '\t', ascii '\n', ascii ';', ascii '{', ascii '}']

/-- The bytes no bare word begins with. -/
def nonStarters : Bytes :=
  [ascii '{', ascii '}', ascii '#', ascii '"', ascii '\'', ascii ';', ascii ' ', ascii '\t',
    ascii '\n', ascii '\r']

def quotes : Bytes := [ascii '"', ascii '\'']

def whites : Bytes := [ascii ' ', ascii '\t', ascii '\n', ascii '\r']

def lineEnds : Bytes := [ascii '\n', ascii '\r']

def marks : Bytes := [ascii ';', ascii '{', ascii '}']

def BareWord (w : Bytes) : Prop :=
  ∃ c w', w = c :: w' ∧ c ∉ nonStarters ∧ ∀ b ∈ w', b ∉ separators

theorem bareWord_cons {c : UInt8} {w : Bytes} :
    BareWord (c :: w) ↔ c ∉ nonStarters ∧ w.all (· ∉ separators) = true := by
  rw [List.all_eq_true]
  constructor
  · rintro ⟨_, _, ⟨⟩, hc, hw⟩
    exact ⟨hc, fun b hb => decide_eq_true (hw b hb)⟩
  · rintro ⟨hc, hw⟩
    exact ⟨c, w, rfl, hc, fun b hb => of_decide_eq_true (hw b hb)⟩

instance : DecidablePred BareWord
  | [] => .isFalse fun ⟨_, _, h, _⟩ => by cases h
  | _ :: _ => decidable_of_iff' _ bareWord_cons

/-- A quotation mark, bytes other than it, and the same mark. -/
def QuotedWord (w : Bytes) : Prop :=
  ∃ q body, w = q :: (body ++ [q]) ∧ q ∈ quotes ∧ q ∉ body

def WellFormedToken (w : Bytes) : Prop := BareWord w ∨ QuotedWord w

inductive Lexeme where
  | white (c : UInt8)
  | mark (c : UInt8)
  | comment (s : Bytes)
  | quoted (w : Bytes)
  | unclosed (w : Bytes)
  | bare (w : Bytes)
  deriving DecidableEq, Repr

namespace Lexeme

def bytes : Lexeme → Bytes
  | white c => [c]
  | mark c => [c]
  | comment s => s
  | quoted w => w
  | unclosed w => w
  | bare w => w

def symbol : Lexeme → Option (Symbol Bytes)
  | white _ => none
  | mark c =>
    if c = ascii ';' then some .semicolon
    else if c = ascii '{' then some .openBrace
    else some .closeBrace
  | comment _ => none
  | quoted w => some (.word w)
  | unclosed w => some (.word w)
  | bare w => some (.word w)

end Lexeme

/-- The lexeme of a text that begins with `c`, and the rest of the text. -/
def lexeme (c : UInt8) (rest : Bytes) : Lexeme × Bytes :=
  if c ∈ whites then (.white c, rest)
  else if c ∈ marks then (.mark c, rest)
  else if c = ascii '#' then
    (.comment (c :: rest.takeWhile (· ∉ lineEnds)), rest.dropWhile (· ∉ lineEnds))
  else if c ∈ quotes then
    match rest.dropWhile (· ≠ c) with
    | [] => (.unclosed (c :: rest), [])
    | q :: rest' => (.quoted (c :: (rest.takeWhile (· ≠ c) ++ [q])), rest')
  else (.bare (c :: rest.takeWhile (· ∉ separators)), rest.dropWhile (· ∉ separators))

/-- How a lexeme stands at the front of a text. -/
def Lexeme.Fronts (text rest : Bytes) : Lexeme → Prop
  | white c => text = c :: rest ∧ c ∈ whites
  | mark c => text = c :: rest ∧ c ∈ marks
  | comment s => ∃ s', s = ascii '#' :: s' ∧ text = s ++ rest ∧ (∀ b ∈ s', b ∉ lineEnds) ∧
      ∀ d r, rest = d :: r → d ∈ lineEnds
  | quoted w => text = w ++ rest ∧ QuotedWord w
  | unclosed w => text = w ∧ rest = [] ∧ ∃ q body, w = q :: body ∧ q ∈ quotes ∧ q ∉ body
  | bare w => text = w ++ rest ∧ BareWord w ∧ ∀ d r, rest = d :: r → d ∈ separators

theorem mem_of_dropWhile_eq_cons {p : UInt8 → Bool} {l rest : Bytes} {c : UInt8}
    (h : l.dropWhile p = c :: rest) : p c = false := by
  have hhead := List.head_dropWhile_not p (by rw [h]; simp : l.dropWhile p ≠ [])
  simpa [h] using hhead

theorem fronts_lexeme (c : UInt8) (rest : Bytes) :
    (lexeme c rest).1.Fronts (c :: rest) (lexeme c rest).2 := by
  unfold lexeme
  split_ifs with hwhite hmark hcomment hquote
  · exact ⟨rfl, hwhite⟩
  · exact ⟨rfl, hmark⟩
  · refine ⟨rest.takeWhile (· ∉ lineEnds), by rw [hcomment], by simp, ?_, ?_⟩
    · intro b hb
      simpa using List.mem_takeWhile_imp hb
    · intro d r hd
      simpa using mem_of_dropWhile_eq_cons hd
  · rcases hrest : rest.dropWhile (· ≠ c) with _ | ⟨q, rest'⟩
    · -- no second quotation mark
      have hall : c ∉ rest := by
        intro hc
        simpa using List.dropWhile_eq_nil_iff.mp hrest c hc
      exact ⟨rfl, rfl, c, rest, rfl, hquote, hall⟩
    · obtain rfl : q = c := by simpa using mem_of_dropWhile_eq_cons hrest
      refine ⟨?_, q, rest.takeWhile (· ≠ q), rfl, hquote, ?_⟩
      · have hsplit := List.takeWhile_append_dropWhile (p := (· ≠ q)) (l := rest)
        rw [hrest] at hsplit
        simpa using hsplit.symm
      · intro hmem
        simpa using List.mem_takeWhile_imp hmem
  · refine ⟨by simp, ⟨c, _, rfl, ?_, ?_⟩, ?_⟩
    · simp only [whites, marks, quotes, nonStarters, List.mem_cons, List.not_mem_nil, or_false,
        not_or] at *
      tauto
    · intro b hb
      simpa using List.mem_takeWhile_imp hb
    · intro d r hd
      simpa using mem_of_dropWhile_eq_cons hd

theorem Lexeme.Fronts.eq_append {l : Lexeme} {text rest : Bytes} (h : l.Fronts text rest) :
    text = l.bytes ++ rest := by
  cases l with
  | white c => exact h.1
  | mark c => exact h.1
  | comment s => exact h.choose_spec.2.1
  | quoted w => exact h.1
  | unclosed w => simpa [bytes, h.2.1] using h.1
  | bare w => exact h.1

theorem length_lexeme_lt (c : UInt8) (rest : Bytes) :
    (lexeme c rest).2.length < (c :: rest).length := by
  have h := fronts_lexeme c rest
  have hne : (lexeme c rest).1.bytes ≠ [] := by
    rcases hl : (lexeme c rest).1 with _ | _ | _ | _ | _ | _ <;> rw [hl] at h
    · simp [Lexeme.bytes]
    · simp [Lexeme.bytes]
    · obtain ⟨s', rfl, -⟩ := h
      simp [Lexeme.bytes]
    · obtain ⟨-, q, body, rfl, -⟩ := h
      simp [Lexeme.bytes]
    · obtain ⟨-, -, q, body, rfl, -⟩ := h
      simp [Lexeme.bytes]
    · obtain ⟨-, ⟨b, w, rfl, -⟩, -⟩ := h
      simp [Lexeme.bytes]
  rw [h.eq_append, List.length_append]
  have hpos := List.length_pos_iff.mpr hne
  omega

/-- The lexemes of a text, up to its last byte. -/
def lexemes : Bytes → List Lexeme
  | [] => []
  | c :: rest => (lexeme c rest).1 :: lexemes (lexeme c rest).2
termination_by text => text.length
decreasing_by exact length_lexeme_lt c rest

theorem lexemes_flatMap (text : Bytes) : (lexemes text).flatMap Lexeme.bytes = text := by
  induction text using lexemes.induct with
  | case1 => simp [lexemes]
  | case2 c rest ih =>
    rw [lexemes, List.flatMap_cons, ih]
    exact (fronts_lexeme c rest).eq_append.symm

/-- The words and marks of the whole text. -/
def textTokens (text : Bytes) : List (Symbol Bytes) := (lexemes text).filterMap Lexeme.symbol

/-- The last byte of the text belongs to a bare word. -/
def EndsInWord (text : Bytes) : Prop := ∃ w, (lexemes text).getLast? = some (.bare w)

/-- The text ends before a quotation does. -/
def EndsInQuote (text : Bytes) : Prop := ∃ w, (lexemes text).getLast? = some (.unclosed w)

/-! ### What `ParseToken` delivers -/

theorem endsWord_iff (c : UInt8) : endsWord c = true ↔ c ∈ separators := by
  simp only [endsWord, separators, List.mem_cons, List.not_mem_nil, or_false, Bool.or_eq_true,
    decide_eq_true_eq]
  tauto

/-- A state that keeps the bytes of a class. -/
theorem scan_append {state : TokenParserState} {p : UInt8 → Prop}
    (keeps : ∀ value b rest, p b → scan state value (b :: rest) = scan state (value ++ [b]) rest)
    (value w rest : Bytes) (hw : ∀ b ∈ w, p b) :
    scan state value (w ++ rest) = scan state (value ++ w) rest := by
  induction w generalizing value with
  | nil => simp
  | cons b w ih =>
    rw [List.cons_append, keeps _ _ _ (hw b (by simp)), ih _ fun b' hb' => hw b' (by simp [hb'])]
    simp

theorem scan_normal_byte (value : Bytes) (b : UInt8) (rest : Bytes) (hb : b ∉ separators) :
    scan .normal value (b :: rest) = scan .normal (value ++ [b]) rest := by
  have hword : ¬endsWord b = true := by simpa [endsWord_iff] using hb
  rw [scan, if_neg hword]

theorem scan_normal (value w : Bytes) {d : UInt8} (rest : Bytes)
    (hw : ∀ b ∈ w, b ∉ separators) (hd : d ∈ separators) :
    scan .normal value (w ++ d :: rest) = (⟨.normal, value ++ w⟩, d :: rest) := by
  rw [scan_append scan_normal_byte _ _ _ hw, scan, if_pos ((endsWord_iff d).mpr hd)]

theorem scan_normal_eof (value w : Bytes) (hw : ∀ b ∈ w, b ∉ separators) :
    scan .normal value w = (⟨.eof, value ++ w⟩, []) := by
  have h := scan_append scan_normal_byte value w [] hw
  rw [List.append_nil] at h
  rw [h]
  rfl

theorem scan_comment_byte (value : Bytes) (b : UInt8) (rest : Bytes) (hb : b ∉ lineEnds) :
    scan .comment value (b :: rest) = scan .comment (value ++ [b]) rest := by
  have hline : ¬(b = ascii '\n' ∨ b = ascii '\r') := by simpa [lineEnds] using hb
  rw [scan, if_neg hline]

theorem scan_comment (value s : Bytes) {d : UInt8} (rest : Bytes)
    (hs : ∀ b ∈ s, b ∉ lineEnds) (hd : d ∈ lineEnds) :
    scan .comment value (s ++ d :: rest) = (⟨.comment, value ++ s⟩, rest) := by
  have hline : d = ascii '\n' ∨ d = ascii '\r' := by simpa [lineEnds] using hd
  rw [scan_append scan_comment_byte _ _ _ hs, scan, if_pos hline]

theorem scan_comment_eof (value s : Bytes) (hs : ∀ b ∈ s, b ∉ lineEnds) :
    scan .comment value s = (⟨.eof, value ++ s⟩, []) := by
  have h := scan_append scan_comment_byte value s [] hs
  rw [List.append_nil] at h
  rw [h]
  rfl

/-- The state of `ParseToken` inside a quotation. -/
def quoteState (q : UInt8) : TokenParserState :=
  if q = ascii '"' then .doubleQuote else .singleQuote

theorem scan_quote_byte {q : UInt8} (hq : q ∈ quotes) (value : Bytes) (b : UInt8) (rest : Bytes)
    (hb : b ≠ q) :
    scan (quoteState q) value (b :: rest) = scan (quoteState q) (value ++ [b]) rest := by
  obtain rfl | rfl : q = ascii '"' ∨ q = ascii '\'' := by simpa [quotes] using hq
  · simp [quoteState, scan, hb]
  · simp [quoteState, scan, hb, show ascii '\'' ≠ ascii '"' by decide]

theorem scan_quote {q : UInt8} (hq : q ∈ quotes) (value body rest : Bytes) (hbody : q ∉ body) :
    scan (quoteState q) value (body ++ q :: rest) = (⟨.normal, value ++ (body ++ [q])⟩, rest) := by
  rw [scan_append (scan_quote_byte hq) _ _ _ fun b hb h => hbody (h ▸ hb), ← List.append_assoc]
  obtain rfl | rfl : q = ascii '"' ∨ q = ascii '\'' := by simpa [quotes] using hq
  · simp [quoteState, scan]
  · simp [quoteState, scan, show ascii '\'' ≠ ascii '"' by decide]

theorem scan_quote_eof {q : UInt8} (hq : q ∈ quotes) (value body : Bytes) (hbody : q ∉ body) :
    scan (quoteState q) value body = (⟨.error, value ++ body⟩, []) := by
  have h := scan_append (scan_quote_byte hq) value body [] fun b hb h => hbody (h ▸ hb)
  rw [List.append_nil] at h
  rw [h]
  obtain rfl | rfl : q = ascii '"' ∨ q = ascii '\'' := by simpa [quotes] using hq
  · simp [quoteState, scan]
  · simp [quoteState, scan, show ascii '\'' ≠ ascii '"' by decide]

theorem parseToken_white {c : UInt8} (hc : c ∈ whites) (rest : Bytes) :
    parseToken (c :: rest) = parseToken rest := by
  have hc' : c = ascii ' ' ∨ c = ascii '\t' ∨ c = ascii '\n' ∨ c = ascii '\r' := by
    simpa [whites] using hc
  unfold parseToken
  rw [scan]
  rcases hc' with rfl | rfl | rfl | rfl <;> rfl

theorem tokens_white {c : UInt8} (hc : c ∈ whites) (rest : Bytes) :
    tokens (c :: rest) = tokens rest := by
  rw [tokens, parseToken_white hc]
  exact (tokens.eq_def rest).symm

theorem parseToken_starter {c : UInt8} (hc : c ∉ nonStarters) (rest : Bytes) :
    parseToken (c :: rest) = scan .normal [c] rest := by
  simp only [nonStarters, List.mem_cons, List.not_mem_nil, or_false, not_or] at hc
  simp [parseToken, scan, hc]

theorem parseToken_quote {q : UInt8} (hq : q ∈ quotes) (rest : Bytes) :
    parseToken (q :: rest) = scan (quoteState q) [q] rest := by
  obtain rfl | rfl : q = ascii '"' ∨ q = ascii '\'' := by simpa [quotes] using hq
  · rfl
  · rfl

theorem parseToken_hash (rest : Bytes) :
    parseToken (ascii '#' :: rest) = scan .comment [ascii '#'] rest := rfl

/-- The text gives the tokens `u`, comments left aside, and then a last one of
type `e`. -/
def Scans (text : Bytes) (u : List (Symbol Bytes)) (e : TokenType) : Prop :=
  ∃ ts final, tokens text = ts ++ [final] ∧ (∀ t ∈ ts, t.Delivered) ∧ ¬final.Delivered ∧
    final.type = e ∧ symbols ts = u

namespace Scans

variable {text rest : Bytes} {u : List (Symbol Bytes)} {e : TokenType}

/-- A token in front. -/
theorem cons {t : Token} {a : Option (Symbol Bytes)} (hparse : parseToken text = (t, rest))
    (ht : t.Delivered) (ha : t.symbol = a) (h : Scans rest u e) :
    Scans text (a.toList ++ u) e := by
  obtain ⟨ts, final, htokens, hts, hfinal, htype, rfl⟩ := h
  refine ⟨t :: ts, final, ?_, by simpa using ⟨ht, hts⟩, hfinal, htype, ?_⟩
  · rw [tokens, dif_pos (by rw [hparse]; exact ht), hparse, htokens, List.cons_append]
  · cases a with
    | none => rw [symbols_cons_of_none ha, Option.toList_none, List.nil_append]
    | some a => rw [symbols_cons_of_some ha, Option.toList_some, List.cons_append, List.nil_append]

/-- The last token. -/
theorem last {t : Token} (hparse : parseToken text = (t, rest)) (ht : ¬t.Delivered) :
    Scans text [] t.type := by
  refine ⟨[], t, ?_, by simp, ht, rfl, rfl⟩
  rw [tokens, dif_neg (by rw [hparse]; exact ht), hparse, List.nil_append]

theorem nil : Scans [] [] .eof :=
  last (show parseToken [] = (⟨.eof, []⟩, []) from rfl) (by decide)

theorem white {c : UInt8} (hc : c ∈ whites) (h : Scans rest u e) : Scans (c :: rest) u e := by
  obtain ⟨ts, final, htokens, h⟩ := h
  exact ⟨ts, final, by rw [tokens_white hc, htokens], h⟩

theorem white_iff {c : UInt8} (hc : c ∈ whites) : Scans (c :: rest) u e ↔ Scans rest u e := by
  unfold Scans
  rw [tokens_white hc]

/-- A text gives its tokens in one way. -/
theorem unique {u' : List (Symbol Bytes)} {e' : TokenType} (h : Scans text u e)
    (h' : Scans text u' e') : u = u' ∧ e = e' := by
  obtain ⟨ts, final, htokens, -, -, rfl, rfl⟩ := h
  obtain ⟨ts', final', htokens', -, -, rfl, rfl⟩ := h'
  obtain ⟨rfl, hfinal⟩ := List.append_inj' (htokens.symm.trans htokens') rfl
  rw [List.cons.inj hfinal |>.1]
  exact ⟨rfl, rfl⟩

theorem semicolon (h : Scans rest u e) : Scans (ascii ';' :: rest) (.semicolon :: u) e :=
  cons (t := ⟨.statementEnd, [ascii ';']⟩) rfl (by decide) rfl h

theorem openBrace (h : Scans rest u e) : Scans (ascii '{' :: rest) (.openBrace :: u) e :=
  cons (t := ⟨.startBlock, [ascii '{']⟩) rfl (by decide) rfl h

theorem closeBrace (h : Scans rest u e) : Scans (ascii '}' :: rest) (.closeBrace :: u) e :=
  cons (t := ⟨.endBlock, [ascii '}']⟩) rfl (by decide) rfl h

theorem bareWord {w : Bytes} {d : UInt8} (hw : BareWord w) (hd : d ∈ separators)
    (h : Scans (d :: rest) u e) : Scans (w ++ d :: rest) (.word w :: u) e := by
  obtain ⟨c, w, rfl, hc, hw⟩ := hw
  refine cons (t := ⟨.normal, c :: w⟩) ?_ (by simp [Token.Delivered]) rfl h
  rw [List.cons_append, parseToken_starter hc, scan_normal _ _ _ hw hd]
  rfl

theorem bareWord_eof {w : Bytes} (hw : BareWord w) : Scans w [] .eof := by
  obtain ⟨c, w, rfl, hc, hw⟩ := hw
  have hparse : parseToken (c :: w) = (⟨.eof, c :: w⟩, []) := by
    rw [parseToken_starter hc, scan_normal_eof _ _ hw]
    rfl
  exact last hparse (by simp [Token.Delivered])

theorem quotedWord {w : Bytes} (hw : QuotedWord w) (h : Scans rest u e) :
    Scans (w ++ rest) (.word w :: u) e := by
  obtain ⟨q, body, rfl, hq, hbody⟩ := hw
  refine cons (t := ⟨.normal, q :: (body ++ [q])⟩) ?_ (by simp [Token.Delivered]) rfl h
  rw [List.cons_append, List.append_assoc, List.singleton_append, parseToken_quote hq,
    scan_quote hq _ _ _ hbody]
  rfl

theorem quote_eof {q : UInt8} {body : Bytes} (hq : q ∈ quotes) (hbody : q ∉ body) :
    Scans (q :: body) [] .error := by
  have hparse : parseToken (q :: body) = (⟨.error, q :: body⟩, []) := by
    rw [parseToken_quote hq, scan_quote_eof hq _ _ hbody]
    rfl
  exact last hparse (by simp [Token.Delivered])

/-- A comment leaves the line end to the white space that follows it. -/
theorem comment {s : Bytes} (hs : ∀ b ∈ s, b ∉ lineEnds)
    (hrest : ∀ d r, rest = d :: r → d ∈ lineEnds) (h : Scans rest u e) :
    Scans (ascii '#' :: (s ++ rest)) u e := by
  rcases rest with _ | ⟨d, r⟩
  · -- the file ends in the comment: the token is `EOF`
    obtain ⟨ts, final, htokens, -, -, rfl, rfl⟩ := h
    obtain ⟨rfl, rfl⟩ : ts = [] ∧ final = ⟨.eof, []⟩ := by
      have hnil : tokens [] = [⟨.eof, []⟩] := by
        rw [tokens]
        rfl
      rw [hnil] at htokens
      rcases ts with _ | ⟨t, ts⟩
      · simpa using htokens.symm
      · simp at htokens
    have hparse : parseToken (ascii '#' :: s) = (⟨.eof, ascii '#' :: s⟩, []) := by
      rw [parseToken_hash, scan_comment_eof _ _ hs]
      rfl
    have hlast := last hparse (by simp [Token.Delivered])
    simpa [symbols] using hlast
  · have hd := hrest d r rfl
    have hwhite : d ∈ whites := by
      simp only [lineEnds, whites, List.mem_cons, List.not_mem_nil, or_false] at hd ⊢
      tauto
    have hr : Scans r u e := by
      obtain ⟨ts, final, htokens, h⟩ := h
      exact ⟨ts, final, by rw [← tokens_white hwhite, htokens], h⟩
    refine cons (t := ⟨.comment, ascii '#' :: s⟩) (a := none) ?_ (by simp [Token.Delivered]) rfl hr
    rw [parseToken_hash, scan_comment _ _ _ hs hd]
    rfl

theorem wellFormedToken {w : Bytes} {d : UInt8} (hw : WellFormedToken w) (hd : d ∈ separators)
    (h : Scans (d :: rest) u e) : Scans (w ++ d :: rest) (.word w :: u) e := by
  rcases hw with hw | hw
  · exact bareWord hw hd h
  · exact quotedWord hw h

/-- Parsing a text is parsing its tokens. -/
theorem parse_iff (h : Scans text u e) {c : NginxConfig} :
    parse [] text = some (.returned true c) ↔
      e = .eof ∧ WfAll (fun _ => True) c ∧ flattenAll c = u := by
  obtain ⟨ts, final, htokens, hts, hfinal, rfl, rfl⟩ := h
  rw [parse_eq, Iteration.result_eq_returned, htokens, run_returns_true_iff hts hfinal]

end Scans

/-! ### Printed configurations -/

theorem scans_indentation {text : Bytes} {u : List (Symbol Bytes)} {e : TokenType} (depth : ℕ)
    (h : Scans text u e) : Scans (indentation depth ++ text) u e := by
  induction depth with
  | zero => exact h
  | succ depth ih =>
    have hindent : indentation (depth + 1) ++ text =
        ascii ' ' :: ascii ' ' :: (indentation depth ++ text) := rfl
    rw [hindent]
    exact (ih.white (by decide)).white (by decide)

theorem scans_joinTokens {d : UInt8} {rest : Bytes} {u : List (Symbol Bytes)} {e : TokenType}
    (hd : d ∈ separators) (h : Scans (d :: rest) u e) (ws : List Bytes) (hne : ws ≠ [])
    (hws : ∀ w ∈ ws, WellFormedToken w) :
    Scans (joinTokens ws ++ d :: rest) (ws.map .word ++ u) e := by
  induction ws with
  | nil => exact absurd rfl hne
  | cons w ws ih =>
    have hw := hws w List.mem_cons_self
    rcases ws with _ | ⟨w', ws⟩
    · rw [show joinTokens [w] ++ d :: rest = w ++ d :: rest by simp [joinTokens]]
      exact h.wellFormedToken hw hd
    · have hjoin : joinTokens (w :: w' :: ws) ++ d :: rest =
          w ++ ascii ' ' :: (joinTokens (w' :: ws) ++ d :: rest) := by
        simp [joinTokens, show bytes " " = [ascii ' '] from rfl]
      rw [hjoin]
      have htail := ih (by simp) fun w hw => hws w (List.mem_cons_of_mem _ hw)
      exact (htail.white (by decide)).wellFormedToken hw (by decide)

mutual

theorem scans_statement_toString {s : Blocks.Statement Bytes} (hs : s.Wf WellFormedToken)
    (depth : ℕ) {rest : Bytes} {u : List (Symbol Bytes)} {e : TokenType} (h : Scans rest u e) :
    Scans (NginxConfigStatement.toString depth s ++ rest) (s.flatten ++ u) e :=
  match s, hs with
  | .mk ws none, hs => by
    have hend : Scans (ascii ';' :: ascii '\n' :: rest) (.semicolon :: u) e :=
      (h.white (by decide)).semicolon
    have hjoin := scans_joinTokens (by decide) hend ws hs.1 hs.2
    simpa [NginxConfigStatement.toString, show bytes ";" = [ascii ';'] from rfl,
      show bytes "\n" = [ascii '\n'] from rfl] using scans_indentation depth hjoin
  | .mk ws (some block), hs => by
    have hend : Scans (ascii '}' :: ascii '\n' :: rest) (.closeBrace :: u) e :=
      (h.white (by decide)).closeBrace
    have hblock := scans_toString hs.2.2 (depth + 1) (scans_indentation depth hend)
    have hopen := ((hblock.white (c := ascii '\n') (by decide)).openBrace).white
      (c := ascii ' ') (by decide)
    have hjoin := scans_joinTokens (by decide) hopen ws hs.1 hs.2.1
    simpa [NginxConfigStatement.toString,
      show bytes " \x7b\n" = [ascii ' ', ascii '{', ascii '\n'] from rfl,
      show bytes "\x7d" = [ascii '}'] from rfl,
      show bytes "\n" = [ascii '\n'] from rfl] using scans_indentation depth hjoin

/-- The printed statements give their tokens again. -/
theorem scans_toString {c : List (Blocks.Statement Bytes)} (hc : WfAll WellFormedToken c)
    (depth : ℕ) {rest : Bytes} {u : List (Symbol Bytes)} {e : TokenType} (h : Scans rest u e) :
    Scans (NginxConfig.toString depth c ++ rest) (flattenAll c ++ u) e :=
  match c, hc with
  | [], _ => by simpa [NginxConfig.toString] using h
  | s :: c, hc => by
    have htail := scans_toString hc.2 depth h
    simpa [NginxConfig.toString] using scans_statement_toString hc.1 depth htail

end

/-! ### Texts and their lexemes -/

theorem textTokens_cons (c : UInt8) (rest : Bytes) :
    textTokens (c :: rest) =
      (lexeme c rest).1.symbol.toList ++ textTokens (lexeme c rest).2 := by
  rw [textTokens, lexemes, List.filterMap_cons]
  cases (lexeme c rest).1.symbol <;> rfl

theorem getLast?_lexemes (c : UInt8) (rest : Bytes) :
    (lexemes (c :: rest)).getLast? =
      if (lexeme c rest).2 = [] then some (lexeme c rest).1
      else (lexemes (lexeme c rest).2).getLast? := by
  rw [lexemes, List.getLast?_cons]
  rcases (lexeme c rest).2 with _ | ⟨d, r⟩
  · simp [lexemes]
  · rw [if_neg (List.cons_ne_nil _ _), lexemes, List.getLast?_cons]
    rfl

/-- A lexeme that `ParseToken` sees the end of. -/
theorem Lexeme.Fronts.scans {l : Lexeme} {text rest : Bytes} {u : List (Symbol Bytes)}
    {e : TokenType} (hl : l.Fronts text rest) (hbare : ∀ w, l = .bare w → rest ≠ [])
    (hunclosed : ∀ w, l ≠ .unclosed w) (h : Scans rest u e) :
    Scans text (l.symbol.toList ++ u) e := by
  cases l with
  | white c =>
    obtain ⟨rfl, hc⟩ := hl
    exact h.white hc
  | mark c =>
    obtain ⟨rfl, hc⟩ := hl
    obtain rfl | rfl | rfl : c = ascii ';' ∨ c = ascii '{' ∨ c = ascii '}' := by
      simpa [marks] using hc
    · exact h.semicolon
    · exact h.openBrace
    · exact h.closeBrace
  | comment s =>
    obtain ⟨s, rfl, rfl, hs, hrest⟩ := hl
    exact h.comment hs hrest
  | quoted w =>
    obtain ⟨rfl, hw⟩ := hl
    exact h.quotedWord hw
  | unclosed w => exact absurd rfl (hunclosed w)
  | bare w =>
    obtain ⟨rfl, hw, hrest⟩ := hl
    obtain ⟨d, r, rfl⟩ := List.exists_cons_of_ne_nil (hbare w rfl)
    exact h.bareWord hw (hrest d r rfl)

theorem Lexeme.Fronts.wellFormedToken {l : Lexeme} {text rest : Bytes} {w : Bytes}
    (hl : l.Fronts text rest) (hunclosed : ∀ w, l ≠ .unclosed w)
    (hw : .word w ∈ l.symbol.toList) : WellFormedToken w := by
  cases l with
  | white c => simp [symbol] at hw
  | mark c =>
    simp only [symbol] at hw
    split_ifs at hw <;> simp at hw
  | comment s => simp [symbol] at hw
  | quoted v =>
    obtain rfl : w = v := by simpa [symbol] using hw
    exact .inr hl.2
  | unclosed v => exact absurd rfl (hunclosed v)
  | bare v =>
    obtain rfl : w = v := by simpa [symbol] using hw
    exact .inl hl.2.1

/-- How the tokens `u` that `ParseToken` delivers before the last one compare
with the tokens of the text. -/
def Accounts (text : Bytes) (u : List (Symbol Bytes)) (e : TokenType) : Prop :=
  (EndsInWord text ∧ e = .eof ∧ ∃ w, textTokens text = u ++ [.word w]) ∨
  (EndsInQuote text ∧ e = .error) ∨
  (¬EndsInWord text ∧ ¬EndsInQuote text ∧ e = .eof ∧ textTokens text = u)

/-- **`ParseToken` delivers the tokens of the text**, all but a bare word that
the text ends in. -/
theorem scans_lexemes (text : Bytes) :
    ∃ u e, Scans text u e ∧ Accounts text u e ∧ ∀ w, .word w ∈ u → WellFormedToken w := by
  induction text using lexemes.induct with
  | case1 =>
    refine ⟨[], .eof, .nil, .inr (.inr ⟨?_, ?_, rfl, ?_⟩), by simp⟩
    · simp [EndsInWord, lexemes]
    · simp [EndsInQuote, lexemes]
    · simp [textTokens, lexemes]
  | case2 c rest ih =>
    obtain ⟨u, e, hscans, haccounts, hu⟩ := ih
    have hfronts := fronts_lexeme c rest
    have hlast := getLast?_lexemes c rest
    have htokens := textTokens_cons c rest
    generalize (lexeme c rest).1 = l at *
    generalize (lexeme c rest).2 = rest' at *
    -- only the last lexeme can be one that `ParseToken` does not see the end of
    by_cases hopen : (∃ w, l = .bare w ∧ rest' = []) ∨ ∃ w, l = .unclosed w
    · rcases hopen with ⟨w, rfl, rfl⟩ | ⟨w, rfl⟩
      · refine ⟨[], .eof, ?_, .inl ⟨⟨w, hlast⟩, rfl, w, ?_⟩, by simp⟩
        · rw [hfronts.1, List.append_nil]
          exact .bareWord_eof hfronts.2.1
        · rw [htokens]
          simp [Lexeme.symbol, textTokens, lexemes]
      · obtain ⟨htext, rfl, q, body, rfl, hq, hbody⟩ := hfronts
        refine ⟨[], .error, ?_, .inr (.inl ⟨⟨_, hlast⟩, rfl⟩), by simp⟩
        rw [htext]
        exact .quote_eof hq hbody
    · rw [not_or] at hopen
      have hbare : ∀ w, l = .bare w → rest' ≠ [] := fun w hl hr => hopen.1 ⟨w, hl, hr⟩
      have hunclosed : ∀ w, l ≠ .unclosed w := fun w hl => hopen.2 ⟨w, hl⟩
      have hword : EndsInWord (c :: rest) ↔ EndsInWord rest' := by
        unfold EndsInWord
        rw [hlast]
        split_ifs with hr
        · subst hr
          have hl : ∀ w, l ≠ .bare w := fun w hl => hbare w hl rfl
          simp [lexemes, hl]
        · rfl
      have hquote : EndsInQuote (c :: rest) ↔ EndsInQuote rest' := by
        unfold EndsInQuote
        rw [hlast]
        split_ifs with hr
        · subst hr
          simp [lexemes, hunclosed]
        · rfl
      refine ⟨_, e, hfronts.scans hbare hunclosed hscans, ?_, ?_⟩
      · unfold Accounts
        rw [hword, hquote, htokens]
        rcases haccounts with ⟨hw, he, w, ht⟩ | hq | ⟨hw, hq, he, ht⟩
        · exact .inl ⟨hw, he, w, by rw [ht, List.append_assoc]⟩
        · exact .inr (.inl hq)
        · exact .inr (.inr ⟨hw, hq, he, by rw [ht]⟩)
      · intro w hw
        rcases List.mem_append.mp hw with hw | hw
        · exact hfronts.wellFormedToken hunclosed hw
        · exact hu w hw

/-- A configuration of well-formed tokens is parsed from its print. -/
theorem parse_toString {c : NginxConfig} (hc : WfAll WellFormedToken c) :
    parse [] (NginxConfig.toString 0 c) = some (.returned true c) := by
  have hscans := scans_toString hc 0 Scans.nil
  rw [List.append_nil, List.append_nil] at hscans
  exact hscans.parse_iff.mpr ⟨rfl, hc.mono (fun _ _ => trivial), rfl⟩

/-- **Printing and parsing again**: a configuration of well-formed tokens is
parsed from its print, and every configuration `Parse` builds is one. -/
theorem parse_toString_roundTrip :
    (∀ c : NginxConfig, WfAll WellFormedToken c →
      parse [] (NginxConfig.toString 0 c) = some (.returned true c)) ∧
    ∀ (text : Bytes) (c : NginxConfig), parse [] text = some (.returned true c) →
      WfAll WellFormedToken c ∧ parse [] (NginxConfig.toString 0 c) = some (.returned true c) := by
  refine ⟨fun c hc => parse_toString hc, fun text c hparse => ?_⟩
  obtain ⟨u, e, hscans, -, hu⟩ := scans_lexemes text
  obtain ⟨-, hwf, rfl⟩ := hscans.parse_iff.mp hparse
  have hc : WfAll WellFormedToken c := hwf.of_flattenAll hu
  exact ⟨hc, parse_toString hc⟩

theorem parse_toString_listen :
    parse [] (NginxConfig.toString 0
      [.mk [bytes "server"] (some [.mk [bytes "listen", bytes "'a;'"] none])]) =
      some (.returned true
        [.mk [bytes "server"] (some [.mk [bytes "listen", bytes "'a;'"] none])]) := by
  refine parse_toString_roundTrip.1 _ ⟨⟨by simp, ?_, ⟨by simp, ?_⟩, trivial⟩, trivial⟩
  · intro w hw
    obtain rfl := List.mem_singleton.mp hw
    exact .inl ⟨ascii 's', bytes "erver", rfl, by decide, by decide +kernel⟩
  · intro w hw
    obtain rfl | rfl : w = bytes "listen" ∨ w = bytes "'a;'" := by simpa using hw
    · exact .inl ⟨ascii 'l', bytes "isten", rfl, by decide, by decide +kernel⟩
    · exact .inr ⟨ascii '\'', bytes "a;", rfl, by decide, by decide +kernel⟩

/-! ### Nothing dropped -/

/-- Whatever `Parse` accepts is in the tree, to the last token; a text whose
last statement is not terminated is not accepted. -/
def KeepsText (text : Bytes) : Prop :=
  (∀ c, parse [] text = some (.returned true c) → textTokens text = flattenAll c) ∧
  ∀ w, (textTokens text).getLast? = some (.word w) →
    ∀ c, parse [] text ≠ some (.returned true c)

/-- **When nothing is dropped**: the text does not end in a bare word with a
whole configuration before it. -/
theorem keepsText_iff (text : Bytes) :
    KeepsText text ↔ ¬(EndsInWord text ∧ IsConfig (textTokens text).dropLast) := by
  obtain ⟨u, e, hscans, haccounts, -⟩ := scans_lexemes text
  have hkeeps : (∀ c, parse [] text = some (.returned true c) → textTokens text = flattenAll c) →
      KeepsText text := by
    intro h
    -- a flattening does not end with a word
    refine ⟨h, fun w hw c hc => ?_⟩
    rw [h c hc] at hw
    exact getLast?_flattenAll c w hw
  rcases haccounts with ⟨hword, rfl, w, htokens⟩ | ⟨hquote, rfl⟩ | ⟨hword, -, -, htokens⟩
  · rw [htokens, List.dropLast_concat]
    constructor
    · rintro ⟨hkeep, -⟩ ⟨-, hconfig⟩
      -- the text would be accepted without its last word
      obtain ⟨c, hwf, rfl⟩ := isConfig_iff.mp hconfig
      have hsame := hkeep c (hscans.parse_iff.mpr ⟨rfl, hwf, rfl⟩)
      rw [htokens] at hsame
      simp at hsame
    · intro h
      refine hkeeps fun c hc => absurd ⟨hword, ?_⟩ h
      exact isConfig_iff.mpr ⟨c, (hscans.parse_iff.mp hc).2⟩
  · have hword : ¬EndsInWord text := by
      rintro ⟨w, hw⟩
      obtain ⟨w', hw'⟩ := hquote
      rw [hw] at hw'
      cases hw'
    refine iff_of_true (hkeeps fun c hc => ?_) fun h => hword h.1
    exact absurd (hscans.parse_iff.mp hc).1 (by decide)
  · refine iff_of_true (hkeeps fun c hc => ?_) fun h => hword h.1
    rw [htokens, (hscans.parse_iff.mp hc).2.2]

theorem not_keepsText_trailing_word : ¬KeepsText (bytes "a;b") := by
  rintro ⟨hkeep, -⟩
  have hparse : parse [] (bytes "a;b") = some (.returned true [.mk [bytes "a"] none]) := by rfl
  have htokens : textTokens (bytes "a;b") =
      [.word (bytes "a"), .semicolon, .word (bytes "b")] := by decide +kernel
  have hsame := hkeep _ hparse
  rw [htokens] at hsame
  simp at hsame

end NginxConfigParser
