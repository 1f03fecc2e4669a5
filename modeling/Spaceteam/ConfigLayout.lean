/-
The layout of config texts.

A text is written from its tokens with separators before, between and after
them (`Renders`); `ParseToken` delivers the tokens again, and `Parse` sees
nothing else of the text.  A line end as CR LF is no such separator behind a
bare word, which takes the CR.

* `NginxConfigParser.layout_independent` — two renderings of the same tokens;
* `NginxConfigParser.sameParse_crlf_iff` — texts with LF and with CR LF.
-/
import Spaceteam.ConfigText

open Blocks

namespace NginxConfigParser

/-! ### `Parse` and the symbols -/

/-- A token that stands for a symbol. -/
def Token.ofSymbol : Symbol Bytes → Token
  | .word w => ⟨.normal, w⟩
  | .semicolon => ⟨.statementEnd, []⟩
  | .openBrace => ⟨.startBlock, []⟩
  | .closeBrace => ⟨.endBlock, []⟩

/-- The loop looks at no more of a token than its symbol. -/
theorem ParserState.step_ofSymbol {s : ParserState} {t : Token} {a : Symbol Bytes}
    (h : t.symbol = some a) : s.step t = s.step (.ofSymbol a) := by
  cases a with
  | word w =>
    obtain ⟨htype, rfl⟩ := Token.symbol_eq_word.mp h
    rw [step, htype]
    rfl
  | semicolon =>
    rw [step, Token.symbol_eq_semicolon.mp h]
    rfl
  | openBrace =>
    rw [step, Token.symbol_eq_openBrace.mp h]
    rfl
  | closeBrace =>
    rw [step, Token.symbol_eq_closeBrace.mp h]
    rfl

theorem ParserState.step_of_type {s : ParserState} {t : Token} {value : Bytes}
    (h : ¬t.Delivered) : s.step t = s.step ⟨t.type, value⟩ := by
  unfold Token.Delivered at h
  unfold step
  rcases htype : t.type <;> simp_all

/-- A run is decided by the symbols and by the type of the last token. -/
theorem ParserState.run_eq_symbols {s : ParserState} {ts : List Token} {final : Token}
    (hts : ∀ t ∈ ts, t.Delivered) (hfinal : ¬final.Delivered) :
    s.run (ts ++ [final]) = s.run ((symbols ts).map .ofSymbol ++ [⟨final.type, []⟩]) := by
  induction ts generalizing s with
  | nil =>
    simp only [symbols_nil, List.map_nil, List.nil_append, run]
    rw [step_of_type hfinal]
  | cons t ts ih =>
    have ht := hts t List.mem_cons_self
    have hrest := fun s => ih (s := s) fun t' ht' => hts t' (List.mem_cons_of_mem _ ht')
    rcases hsymbol : t.symbol with _ | a
    · rw [symbols_cons_of_none hsymbol, List.cons_append,
        run_cons_of_next (step_comment (ht.comment_of_symbol hsymbol)), hrest]
    · rw [symbols_cons_of_some hsymbol, List.map_cons, List.cons_append, List.cons_append, run, run,
        step_ofSymbol hsymbol]
      rcases s.step (.ofSymbol a) with s' | ⟨b, c⟩ | _
      · exact hrest s'
      · rfl
      · rfl

/-- What `Parse` comes to on a text that gives these symbols. -/
theorem Scans.parse_eq {text : Bytes} {u : List (Symbol Bytes)} {e : TokenType}
    (h : Scans text u e) (config : NginxConfig) :
    parse config text =
      ((ParserState.initial config).run (u.map .ofSymbol ++ [⟨e, []⟩])).result := by
  obtain ⟨ts, final, htokens, hts, hfinal, rfl, rfl⟩ := h
  rw [NginxConfigParser.parse_eq, htokens, ParserState.run_eq_symbols hts hfinal]

/-! ### Separators -/

/-- White space and whole comments. -/
inductive Separator : Bytes → Prop
  | nil : Separator []
  | white {c : UInt8} {s : Bytes} (hc : c ∈ whites) (hs : Separator s) : Separator (c :: s)
  | comment {body : Bytes} {d : UInt8} {s : Bytes} (hbody : ∀ b ∈ body, b ∉ lineEnds)
      (hd : d ∈ lineEnds) (hs : Separator s) : Separator (ascii '#' :: (body ++ d :: s))

/-- At the end of the text a comment need not be terminated. -/
def LastSeparator (s : Bytes) : Prop :=
  Separator s ∨ ∃ t body, Separator t ∧ (∀ b ∈ body, b ∉ lineEnds) ∧ s = t ++ ascii '#' :: body

/-- A space, a tab or a newline in front. -/
def StartsBlank (s : Bytes) : Prop :=
  ∃ c r, s = c :: r ∧ c ∈ [ascii ' ', ascii '\t', ascii '\n']

/-- What may stand between two tokens: behind a bare word a separator is empty
or starts with a blank, and before another word or the end it is not empty. -/
def Gap (before : Option (Symbol Bytes)) (s : Bytes) (after : Option (Symbol Bytes)) : Prop :=
  ∀ w, before = some (.word w) → BareWord w →
    (s = [] ∨ StartsBlank s) ∧ ((after = none ∨ ∃ w', after = some (.word w')) → s ≠ [])

def symbolBytes : Symbol Bytes → Bytes
  | .word w => w
  | .semicolon => [ascii ';']
  | .openBrace => [ascii '{']
  | .closeBrace => [ascii '}']

/-- **The renderings of a sequence of tokens**, behind the token `before`. -/
inductive Renders : Option (Symbol Bytes) → List (Symbol Bytes) → Bytes → Prop
  | last {before : Option (Symbol Bytes)} {s : Bytes} (hs : LastSeparator s)
      (hgap : Gap before s none) : Renders before [] s
  | more {before : Option (Symbol Bytes)} {a : Symbol Bytes} {u : List (Symbol Bytes)}
      {s text : Bytes} (hs : Separator s) (hgap : Gap before s (some a))
      (ha : ∀ w, a = .word w → WellFormedToken w) (h : Renders (some a) u text) :
      Renders before (a :: u) (s ++ (symbolBytes a ++ text))

theorem Separator.scans {s rest : Bytes} {u : List (Symbol Bytes)} {e : TokenType}
    (hs : Separator s) (h : Scans rest u e) : Scans (s ++ rest) u e := by
  induction hs with
  | nil => exact h
  | white hc _ ih => exact ih.white hc
  | @comment body d s hbody hd _ ih =>
    rw [List.cons_append, List.append_assoc, List.cons_append]
    have hwhite : d ∈ whites := by
      simp only [lineEnds, whites, List.mem_cons, List.not_mem_nil, or_false] at hd ⊢
      tauto
    refine .comment hbody (fun d' r heq => ?_) (ih.white hwhite)
    rw [← (List.cons.inj heq).1]
    exact hd

theorem LastSeparator.scans {s : Bytes} (hs : LastSeparator s) : Scans s [] .eof := by
  rcases hs with hs | ⟨t, body, ht, hbody, rfl⟩
  · simpa using hs.scans Scans.nil
  · refine ht.scans ?_
    simpa using Scans.comment hbody (by simp) Scans.nil

theorem StartsBlank.separator {s : Bytes} (h : StartsBlank s) (text : Bytes) :
    ∃ d r, s ++ text = d :: r ∧ d ∈ separators := by
  obtain ⟨c, r, rfl, hc⟩ := h
  refine ⟨c, r ++ text, rfl, ?_⟩
  simp only [separators, List.mem_cons, List.not_mem_nil, or_false] at hc ⊢
  tauto

/-- A bare word ends where its rendering says. -/
theorem Renders.separator {w : Bytes} {u : List (Symbol Bytes)} {text : Bytes} (hw : BareWord w)
    (h : Renders (some (.word w)) u text) : ∃ d r, text = d :: r ∧ d ∈ separators := by
  cases h with
  | last hs hgap =>
    obtain ⟨hblank, hne⟩ := hgap w rfl hw
    simpa using (hblank.resolve_left (hne (.inl rfl))).separator []
  | @more _ a u s text hs hgap ha h =>
    obtain ⟨rfl | hblank, hne⟩ := hgap w rfl hw
    · -- nothing stands before the next token, which is a mark
      cases a with
      | word w' => exact absurd rfl (hne (.inr ⟨w', rfl⟩))
      | semicolon => exact ⟨_, _, rfl, by decide⟩
      | openBrace => exact ⟨_, _, rfl, by decide⟩
      | closeBrace => exact ⟨_, _, rfl, by decide⟩
    · exact hblank.separator _

/-- **A rendering gives its tokens again.** -/
theorem Renders.scans {before : Option (Symbol Bytes)} {u : List (Symbol Bytes)} {text : Bytes}
    (h : Renders before u text) : Scans text u .eof := by
  induction h with
  | last hs _ => exact hs.scans
  | @more _ a u s text hs _ ha h ih =>
    refine hs.scans ?_
    cases a with
    | word w =>
      rcases ha w rfl with hw | hw
      · obtain ⟨d, r, rfl, hd⟩ := h.separator hw
        exact ih.bareWord hw hd
      · exact ih.quotedWord hw
    | semicolon => exact ih.semicolon
    | openBrace => exact ih.openBrace
    | closeBrace => exact ih.closeBrace

/-- **The layout does not matter**: two renderings of the same tokens. -/
theorem layout_independent {u : List (Symbol Bytes)} {text text' : Bytes}
    (h : Renders none u text) (h' : Renders none u text') :
    Scans text u .eof ∧ Scans text' u .eof ∧
      ∀ config, parse config text = parse config text' :=
  ⟨h.scans, h'.scans, fun config => by rw [h.scans.parse_eq, h'.scans.parse_eq]⟩

theorem layout_independent_comment :
    Scans (bytes "a b;") [.word (bytes "a"), .word (bytes "b"), .semicolon] .eof ∧
      Scans (bytes "#c\n\ra\t\rb;#d") [.word (bytes "a"), .word (bytes "b"), .semicolon] .eof ∧
      ∀ config, parse config (bytes "a b;") = parse config (bytes "#c\n\ra\t\rb;#d") := by
  have ha : ∀ w, (.word (bytes "a") : Symbol Bytes) = .word w → WellFormedToken w := by
    rintro w ⟨⟩
    exact .inl ⟨ascii 'a', [], rfl, by decide, by simp⟩
  have hb : ∀ w, (.word (bytes "b") : Symbol Bytes) = .word w → WellFormedToken w := by
    rintro w ⟨⟩
    exact .inl ⟨ascii 'b', [], rfl, by decide, by simp⟩
  have hspace : Separator [ascii ' '] := .white (by decide) .nil
  have htab : Separator [ascii '\t', ascii '\r'] := .white (by decide) (.white (by decide) .nil)
  have hcomment : Separator (ascii '#' :: ([ascii 'c'] ++ ascii '\n' :: [ascii '\r'])) :=
    .comment (by decide +kernel) (by decide) (.white (by decide) .nil)
  have hunended : LastSeparator (ascii '#' :: [ascii 'd']) :=
    .inr ⟨[], [ascii 'd'], .nil, by decide +kernel, rfl⟩
  refine layout_independent
    (.more (s := []) .nil (by simp [Gap]) ha
      (.more (s := [ascii ' ']) hspace ?_ hb
        (.more (s := []) .nil ?_ (by simp) (.last (s := []) (.inl .nil) (by simp [Gap])))))
    (.more hcomment (by simp [Gap]) ha
      (.more htab ?_ hb (.more (s := []) .nil ?_ (by simp) (.last hunended (by simp [Gap])))))
  · exact fun w _ _ => ⟨.inr ⟨_, _, rfl, by decide⟩, by simp⟩
  · simp [Gap]
  · exact fun w _ _ => ⟨.inr ⟨_, _, rfl, by decide⟩, by simp⟩
  · simp [Gap]

/-! ### Line ends -/

/-- Every newline as CR LF. -/
def crlf (text : Bytes) : Bytes :=
  text.flatMap fun b => if b = ascii '\n' then [ascii '\r', b] else [b]

@[simp] theorem crlf_nil : crlf [] = [] := rfl

@[simp] theorem crlf_append (s t : Bytes) : crlf (s ++ t) = crlf s ++ crlf t :=
  List.flatMap_append

theorem crlf_newline (rest : Bytes) :
    crlf (ascii '\n' :: rest) = ascii '\r' :: ascii '\n' :: crlf rest := rfl

theorem crlf_cons {c : UInt8} (hc : c ≠ ascii '\n') (rest : Bytes) :
    crlf (c :: rest) = c :: crlf rest := by
  unfold crlf
  rw [List.flatMap_cons, if_neg hc, List.singleton_append]

theorem crlf_eq_self {s : Bytes} (h : ∀ b ∈ s, b ≠ ascii '\n') : crlf s = s := by
  induction s with
  | nil => rfl
  | cons b s ih =>
    rw [crlf_cons (h b List.mem_cons_self), ih fun b' hb' => h b' (List.mem_cons_of_mem _ hb')]

theorem crlf_eq_nil {text : Bytes} : crlf text = [] ↔ text = [] := by
  rcases text with _ | ⟨c, rest⟩
  · simp
  · by_cases hc : c = ascii '\n'
    · subst hc
      simp [crlf_newline]
    · simp [crlf_cons hc]

/-- A text begins as it does with its newlines as CR LF, but for a newline. -/
theorem crlf_eq_cons {text r : Bytes} {d : UInt8} (h : crlf text = d :: r) :
    ∃ c r', text = c :: r' ∧ (c = ascii '\n' ∧ d = ascii '\r' ∨ c ≠ ascii '\n' ∧ d = c) := by
  rcases text with _ | ⟨c, r'⟩
  · cases h
  · refine ⟨c, r', rfl, ?_⟩
    by_cases hc : c = ascii '\n'
    · subst hc
      rw [crlf_newline] at h
      exact .inl ⟨rfl, (List.cons.inj h).1.symm⟩
    · rw [crlf_cons hc] at h
      exact .inr ⟨hc, (List.cons.inj h).1.symm⟩

/-- A bare word directly before a newline. -/
def WordBeforeNewline (text : Bytes) : Prop :=
  ∃ w, [.bare w, .white (ascii '\n')] <:+: lexemes text

theorem not_wordBeforeNewline_nil : ¬WordBeforeNewline [] := by
  simp [WordBeforeNewline, lexemes]

theorem head?_lexemes_newline {text : Bytes} :
    (lexemes text).head? = some (.white (ascii '\n')) ↔ ∃ r, text = ascii '\n' :: r := by
  rcases text with _ | ⟨c, rest⟩
  · simp [lexemes]
  · rw [lexemes, List.head?_cons, Option.some_inj]
    constructor
    · intro h
      have hfronts := fronts_lexeme c rest
      rw [h] at hfronts
      exact ⟨_, hfronts.1⟩
    · rintro ⟨r, h⟩
      obtain ⟨rfl, rfl⟩ := List.cons.inj h
      rfl

theorem wordBeforeNewline_cons (c : UInt8) (rest : Bytes) :
    WordBeforeNewline (c :: rest) ↔
      (∃ w r, (lexeme c rest).1 = .bare w ∧ (lexeme c rest).2 = ascii '\n' :: r) ∨
        WordBeforeNewline (lexeme c rest).2 := by
  have hfront : ∀ w, Lexeme.bare w = (lexeme c rest).1 ∧
      [Lexeme.white (ascii '\n')] <+: lexemes (lexeme c rest).2 ↔
        ∃ r, (lexeme c rest).1 = .bare w ∧ (lexeme c rest).2 = ascii '\n' :: r := by
    intro w
    rw [List.singleton_prefix_iff_head?_eq_some, head?_lexemes_newline]
    simp [eq_comm]
  unfold WordBeforeNewline
  rw [lexemes]
  simp only [List.infix_cons_iff, List.cons_prefix_cons, exists_or, hfront]

theorem BareWord.ne_newline {w : Bytes} (hw : BareWord w) : ∀ b ∈ w, b ≠ ascii '\n' := by
  obtain ⟨c, w', rfl, hc, hw'⟩ := hw
  rintro b hb rfl
  rcases List.mem_cons.mp hb with rfl | hb
  · exact hc (by decide)
  · exact hw' _ hb (by decide)

/-- A lexeme stays where it is, but for a newline and a bare word before one. -/
theorem Lexeme.Fronts.crlf {l : Lexeme} {text rest : Bytes} (h : l.Fronts text rest)
    (hquotes : ∀ q ∈ quotes, q ∉ text) (hwhite : l ≠ .white (ascii '\n'))
    (hbare : ∀ w r, l = .bare w → rest ≠ ascii '\n' :: r) :
    l.Fronts (crlf text) (crlf rest) := by
  cases l with
  | white c =>
    obtain ⟨rfl, hc⟩ := h
    exact ⟨crlf_cons (fun h => hwhite (by rw [h])) rest, hc⟩
  | mark c =>
    obtain ⟨rfl, hc⟩ := h
    refine ⟨crlf_cons ?_ rest, hc⟩
    rintro rfl
    revert hc
    decide
  | comment s =>
    obtain ⟨s', rfl, rfl, hs', hrest⟩ := h
    -- CR ends a comment as LF does
    refine ⟨s', rfl, ?_, hs', fun d r hd => ?_⟩
    · rw [crlf_append, crlf_cons (by decide), crlf_eq_self]
      rintro b hb rfl
      exact hs' _ hb (by decide)
    · obtain ⟨c, r', rfl, ⟨rfl, rfl⟩ | ⟨-, rfl⟩⟩ := crlf_eq_cons hd
      · decide
      · exact hrest d r' rfl
  | quoted w =>
    obtain ⟨rfl, q, body, rfl, hq, -⟩ := h
    exact absurd (by simp) (hquotes q hq)
  | unclosed w =>
    obtain ⟨rfl, rfl, q, body, rfl, hq, -⟩ := h
    exact absurd (by simp) (hquotes q hq)
  | bare w =>
    obtain ⟨rfl, hw, hrest⟩ := h
    -- the byte behind the word is the same, no newline being there
    refine ⟨by rw [crlf_append, crlf_eq_self hw.ne_newline], hw, fun d r hd => ?_⟩
    obtain ⟨c, r', rfl, ⟨rfl, rfl⟩ | ⟨-, rfl⟩⟩ := crlf_eq_cons hd
    · exact absurd rfl (hbare w r' rfl)
    · exact hrest d r' rfl

theorem map_fst_diagonal (u : List (Symbol Bytes)) :
    (u.map (Symbol.map fun w => (w, w))).map (Symbol.map Prod.fst) = u := by
  simp [Function.comp_def, Symbol.map_map]

theorem map_snd_diagonal (u : List (Symbol Bytes)) :
    (u.map (Symbol.map fun w => (w, w))).map (Symbol.map Prod.snd) = u := by
  simp [Function.comp_def, Symbol.map_map]

/-- CR is no separator. -/
theorem BareWord.concat_cr {w : Bytes} (hw : BareWord w) : BareWord (w ++ [ascii '\r']) := by
  obtain ⟨c, w', rfl, hc, hw'⟩ := hw
  refine ⟨c, w' ++ [ascii '\r'], rfl, hc, fun b hb => ?_⟩
  rcases List.mem_append.mp hb with hb | hb
  · exact hw' b hb
  · rw [List.mem_singleton.mp hb]
    decide

/-- The tokens of a text, with its newlines as they are and as CR LF. -/
structure TwoReadings (text : Bytes) (v : List (Symbol (Bytes × Bytes))) : Prop where
  scans : Scans text (v.map (Symbol.map Prod.fst)) .eof
  scans_crlf : Scans (crlf text) (v.map (Symbol.map Prod.snd)) .eof
  agree_iff : v.map (Symbol.map Prod.fst) = v.map (Symbol.map Prod.snd) ↔
    ¬WordBeforeNewline text

namespace TwoReadings

variable {l : Lexeme} {text rest w : Bytes} {v : List (Symbol (Bytes × Bytes))}

theorem nil : TwoReadings [] [] := ⟨.nil, .nil, by simp [not_wordBeforeNewline_nil]⟩

theorem newline (h : TwoReadings rest v)
    (hnewline : WordBeforeNewline (ascii '\n' :: rest) ↔ WordBeforeNewline rest) :
    TwoReadings (ascii '\n' :: rest) v where
  scans := h.scans.white (by decide)
  scans_crlf := (h.scans_crlf.white (by decide)).white (by decide)
  agree_iff := by rw [h.agree_iff, hnewline]

/-- Both drop a bare word at the end. -/
theorem lastWord (hw : BareWord w) (hnewline : ¬WordBeforeNewline w) : TwoReadings w [] where
  scans := .bareWord_eof hw
  scans_crlf := by
    rw [crlf_eq_self hw.ne_newline]
    exact .bareWord_eof hw
  agree_iff := by simp [hnewline]

/-- A bare word directly before a newline takes the CR. -/
theorem wordBeforeNewline (hw : BareWord w) (h : TwoReadings (ascii '\n' :: rest) v)
    (hnewline : WordBeforeNewline (w ++ ascii '\n' :: rest)) :
    TwoReadings (w ++ ascii '\n' :: rest) (.word (w, w ++ [ascii '\r']) :: v) where
  scans := h.scans.bareWord hw (by decide)
  scans_crlf := by
    have hrest := h.scans_crlf
    rw [crlf_newline, Scans.white_iff (by decide)] at hrest
    rw [crlf_append, crlf_eq_self hw.ne_newline, crlf_newline, List.append_cons]
    exact hrest.bareWord hw.concat_cr (by decide)
  agree_iff := by simp [hnewline, Symbol.map]

/-- Any other lexeme is the same token in both. -/
theorem lexeme (hfronts : l.Fronts text rest) (hfronts' : l.Fronts (crlf text) (crlf rest))
    (hbare : ∀ w, l = .bare w → rest ≠ []) (hunclosed : ∀ w, l ≠ .unclosed w)
    (h : TwoReadings rest v) (hnewline : WordBeforeNewline text ↔ WordBeforeNewline rest) :
    TwoReadings text (l.symbol.toList.map (Symbol.map fun w => (w, w)) ++ v) where
  scans := by
    rw [List.map_append, map_fst_diagonal]
    exact hfronts.scans hbare hunclosed h.scans
  scans_crlf := by
    rw [List.map_append, map_snd_diagonal]
    exact hfronts'.scans (fun w hl hr => hbare w hl (crlf_eq_nil.mp hr)) hunclosed h.scans_crlf
  agree_iff := by
    rw [List.map_append, List.map_append, map_fst_diagonal, map_snd_diagonal,
      List.append_cancel_left_eq, h.agree_iff, hnewline]

end TwoReadings

/-- **A text without quotations has two readings**: with CR LF the tokens are
the same, except that a bare word directly before a newline takes the CR. -/
theorem exists_twoReadings {text : Bytes} (hquotes : ∀ q ∈ quotes, q ∉ text) :
    ∃ v, TwoReadings text v := by
  induction text using lexemes.induct with
  | case1 => exact ⟨[], .nil⟩
  | case2 c rest ih =>
    have hfronts := fronts_lexeme c rest
    have hnewline := wordBeforeNewline_cons c rest
    generalize (lexeme c rest).1 = l at *
    generalize (lexeme c rest).2 = rest' at *
    generalize c :: rest = text at *
    have htext := hfronts.eq_append
    obtain ⟨v, hv⟩ := ih fun q hq hmem => hquotes q hq (by simp [htext, hmem])
    -- a newline, a word before one or at the end, or a lexeme that stays
    by_cases hwhite : l = .white (ascii '\n')
    · subst hwhite
      obtain ⟨rfl, -⟩ := hfronts
      exact ⟨v, hv.newline (by simpa using hnewline)⟩
    by_cases hbare : ∃ w, l = .bare w ∧ (rest' = [] ∨ ∃ r, rest' = ascii '\n' :: r)
    · obtain ⟨w, rfl, rfl | ⟨r, rfl⟩⟩ := hbare
      · obtain rfl : text = w := by simpa [Lexeme.bytes] using htext
        exact ⟨[], .lastWord hfronts.2.1 (by simp [hnewline, not_wordBeforeNewline_nil])⟩
      · have hword : WordBeforeNewline text := hnewline.mpr (.inl ⟨w, r, rfl, rfl⟩)
        rw [htext] at hword ⊢
        exact ⟨_, hv.wordBeforeNewline hfronts.2.1 hword⟩
    · have hbare' : ∀ w r, l = .bare w → rest' ≠ ascii '\n' :: r :=
        fun w r hl hr => hbare ⟨w, hl, .inr ⟨r, hr⟩⟩
      have hunclosed : ∀ w, l ≠ .unclosed w := by
        rintro w rfl
        obtain ⟨rfl, rfl, q, body, rfl, hq, -⟩ := hfronts
        exact hquotes q hq (by simp)
      have hword : ¬∃ w r, l = .bare w ∧ rest' = ascii '\n' :: r := by
        rintro ⟨w, r, hl, hr⟩
        exact hbare' w r hl hr
      exact ⟨_, .lexeme hfronts (hfronts.crlf hquotes hwhite hbare')
        (fun w hl hr => hbare ⟨w, hl, .inl hr⟩) hunclosed hv (hnewline.trans (or_iff_right hword))⟩

/-! ### Verdicts and trees -/

/-- What `Parse` returned, if it did. -/
def ParseResult.verdict : ParseResult → Option Bool
  | .returned result _ => some result
  | .undefined => none

/-- The same verdict, and when it is true equal trees. -/
def SameParse (text text' : Bytes) : Prop :=
  (parse [] text).map ParseResult.verdict = (parse [] text').map ParseResult.verdict ∧
    ∀ c c', parse [] text = some (.returned true c) → parse [] text' = some (.returned true c') →
      c = c'

/-- The text derives from the grammar, a bare word that the text ends in left
out. -/
def IsConfigText (text : Bytes) : Prop :=
  EndsInWord text ∧ IsConfig (textTokens text).dropLast ∨
    ¬EndsInWord text ∧ IsConfig (textTokens text)

/-- The tokens delivered are those of the text. -/
theorem isConfigText_iff {text : Bytes} {u : List (Symbol Bytes)} (h : Scans text u .eof) :
    IsConfigText text ↔ IsConfig u := by
  obtain ⟨u', e, hscans, haccounts, -⟩ := scans_lexemes text
  obtain ⟨rfl, rfl⟩ := h.unique hscans
  unfold IsConfigText
  rcases haccounts with ⟨hword, -, w, htokens⟩ | ⟨-, he⟩ | ⟨hword, -, -, htokens⟩
  · rw [htokens, List.dropLast_concat]
    simp [hword]
  · cases he
  · rw [htokens]
    simp [hword]

theorem UnmatchedClose.of_shape {f g : Bytes × Bytes → Bytes}
    {v : List (Symbol (Bytes × Bytes))} (h : UnmatchedClose (v.map (Symbol.map f))) :
    UnmatchedClose (v.map (Symbol.map g)) := by
  obtain ⟨u, a, w, hv, hne, hu, ha⟩ := h
  obtain ⟨v₁, v₂, rfl, rfl, h₂⟩ := List.map_eq_append_iff.mp hv
  obtain ⟨b, v₃, rfl, hb, h₃⟩ := List.map_eq_cons_iff.mp h₂
  obtain ⟨a', v₄, rfl, rfl, rfl⟩ := List.map_eq_cons_iff.mp h₃
  rw [Symbol.map_eq_closeBrace.mp hb]
  refine ⟨v₁.map (Symbol.map g), a'.map g, v₄.map (Symbol.map g), by simp [Symbol.map],
    by simpa using hne, isConfig_map.mpr (isConfig_map.mp hu), ?_⟩
  rcases a' with w | _ | _ | _
  · exact .inr ⟨g w, rfl⟩
  · rcases ha with ha | ⟨w, ha⟩ <;> cases ha
  · rcases ha with ha | ⟨w, ha⟩ <;> cases ha
  · exact .inl rfl

theorem Scans.parse_undefined {text : Bytes} {u : List (Symbol Bytes)} {e : TokenType}
    (h : Scans text u e) (hu : UnmatchedClose u) : parse [] text = some .undefined := by
  obtain ⟨ts, final, htokens, hts, hfinal, rfl, rfl⟩ := h
  rw [NginxConfigParser.parse_eq, htokens, run_of_unmatchedClose [] hts hfinal hu]
  rfl

theorem Scans.parse_returned {text : Bytes} {u : List (Symbol Bytes)} {e : TokenType}
    (h : Scans text u e) (hu : ¬UnmatchedClose u) :
    ∃ b c, parse [] text = some (.returned b c) := by
  obtain ⟨ts, final, htokens, hts, hfinal, rfl, rfl⟩ := h
  obtain ⟨b, c, hrun⟩ := run_returns [] hts hfinal hu
  refine ⟨b, c, ?_⟩
  rw [NginxConfigParser.parse_eq, htokens, hrun]
  rfl

section

variable {text text' : Bytes} {v : List (Symbol (Bytes × Bytes))}
  (h : Scans text (v.map (Symbol.map Prod.fst)) .eof)
  (h' : Scans text' (v.map (Symbol.map Prod.snd)) .eof)

include h h'

/-- Two configurations of one shape have equal trees if their words are equal. -/
theorem Scans.sameParse_iff (hconfig : IsConfig (v.map (Symbol.map Prod.fst))) :
    SameParse text text' ↔ v.map (Symbol.map Prod.fst) = v.map (Symbol.map Prod.snd) := by
  obtain ⟨c, hc, hflatten⟩ := isConfig_iff.mp hconfig
  obtain ⟨c', hc', hflatten'⟩ := isConfig_iff.mp (isConfig_map.mpr (isConfig_map.mp hconfig))
  have hparse := h.parse_iff.mpr ⟨rfl, hc, hflatten⟩
  have hparse' := h'.parse_iff.mpr ⟨rfl, hc', hflatten'⟩
  have htrees : SameParse text text' ↔ c = c' := by
    unfold SameParse
    rw [hparse, hparse']
    simp [ParseResult.verdict]
  rw [htrees]
  constructor
  · rintro rfl
    rw [← hflatten, hflatten']
  · intro hsame
    -- the tree of a text is the one `Parse` builds
    rw [← hsame] at hflatten'
    have hparse'' := h.parse_iff.mpr ⟨rfl, hc', hflatten'⟩
    rw [hparse] at hparse''
    cases hparse''
    rfl

/-- Two texts of one shape that are no configurations are treated alike. -/
theorem Scans.sameParse_of_not_isConfig (hconfig : ¬IsConfig (v.map (Symbol.map Prod.fst))) :
    SameParse text text' := by
  have hconfig' : ¬IsConfig (v.map (Symbol.map Prod.snd)) :=
    fun hc => hconfig (isConfig_map.mpr (isConfig_map.mp hc))
  have hfalse : ∀ {t u b c}, Scans t u .eof → ¬IsConfig u →
      parse [] t = some (.returned b c) → b = false := by
    intro t u b c hscans hu hparse
    rw [← Bool.not_eq_true]
    rintro rfl
    exact hu (isConfig_iff.mpr ⟨c, (hscans.parse_iff.mp hparse).2⟩)
  refine ⟨?_, fun c c' hparse => ?_⟩
  · by_cases hclose : UnmatchedClose (v.map (Symbol.map Prod.fst))
    · rw [h.parse_undefined hclose, h'.parse_undefined hclose.of_shape]
    · obtain ⟨b, c, hparse⟩ := h.parse_returned hclose
      obtain ⟨b', c', hparse'⟩ := h'.parse_returned fun hclose' => hclose hclose'.of_shape
      rw [hparse, hparse', hfalse h hconfig hparse, hfalse h' hconfig' hparse']
      rfl
  · exact absurd (hfalse h hconfig hparse) (by simp)

end

/-- **Line ends**: a text without quotations is read the same with CR LF,
unless it is a configuration with a bare word directly before a newline. -/
theorem sameParse_crlf_iff (text : Bytes) (hquotes : ∀ q ∈ quotes, q ∉ text) :
    SameParse text (crlf text) ↔ ¬(IsConfigText text ∧ WordBeforeNewline text) := by
  obtain ⟨v, hv⟩ := exists_twoReadings hquotes
  rw [isConfigText_iff hv.scans]
  by_cases hconfig : IsConfig (v.map (Symbol.map Prod.fst))
  · rw [hv.scans.sameParse_iff hv.scans_crlf hconfig, hv.agree_iff, not_and,
      forall_prop_of_true hconfig]
  · exact iff_of_true (hv.scans.sameParse_of_not_isConfig hv.scans_crlf hconfig)
      fun h => hconfig h.1

theorem sameParse_crlf_iff_blank :
    SameParse (bytes "a ;\n") (crlf (bytes "a ;\n")) ↔
      ¬(IsConfigText (bytes "a ;\n") ∧ WordBeforeNewline (bytes "a ;\n")) :=
  sameParse_crlf_iff (bytes "a ;\n") (by decide +kernel)

theorem not_sameParse_crlf_word :
    ¬∀ text : Bytes, ascii '\r' ∉ text → (∀ q ∈ quotes, q ∉ text) →
      SameParse text (crlf text) := by
  intro h
  obtain ⟨-, htrees⟩ := h (bytes "a\n;") (by decide +kernel) (by decide +kernel)
  have hparse : parse [] (bytes "a\n;") = some (.returned true [.mk [bytes "a"] none]) := by rfl
  have hparse' : parse [] (crlf (bytes "a\n;")) =
      some (.returned true [.mk [bytes "a\r"] none]) := by rfl
  have hsame := htrees _ _ hparse hparse'
  simp only [List.cons.injEq, Statement.mk.injEq, and_true] at hsame
  exact absurd hsame (by decide +kernel)

end NginxConfigParser
