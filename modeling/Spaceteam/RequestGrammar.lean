/-
The language of HTTP requests and the parser that decides it.

`requestLanguage` is the request grammar written down on its own: request
line, header lines (folded ones only after a first header), blank line, body.
`RequestState.residual` gives every state of the automaton the texts that
complete it, and `Request.recognizer` packages the automaton with these
residual languages: one case per state, each a one-letter unfolding.  The
recogniser's run theorems then give

* `Request.parsedStatus_decides` — on a non-empty string, `good` is membership
  in the grammar, `bad` that no extension is a member, `indeterminate` the
  rest.
-/
import Mathlib.Data.FinEnum
import Mathlib.Tactic.Tauto
import Spaceteam.Request
import Spaceteam.Residual

open Residual

/-! ### Byte classes -/

/-- The control bytes 0..31 and 127. -/
def ControlByte (b : UInt8) : Prop := b ≤ 31 ∨ b = 127

/-- The separators a token may not contain. -/
def SpecialByte (b : UInt8) : Prop := b ∈ bytes "()<>@,;:\\\"/[]?=\x7b\x7d \t"

def TokenByte (b : UInt8) : Prop := b ≤ 127 ∧ ¬ControlByte b ∧ ¬SpecialByte b

def TextByte (b : UInt8) : Prop := ¬ControlByte b

def UriByte (b : UInt8) : Prop := b ≠ ascii ' ' ∧ ¬ControlByte b

def DigitByte (b : UInt8) : Prop := ascii '0' ≤ b ∧ b ≤ ascii '9'

def BlankByte (b : UInt8) : Prop := b = ascii ' ' ∨ b = ascii '\t'

instance : DecidablePred ControlByte := fun _ => inferInstanceAs (Decidable (_ ∨ _))
instance : DecidablePred SpecialByte := fun _ => inferInstanceAs (Decidable (_ ∈ _))
instance : DecidablePred TokenByte := fun _ => inferInstanceAs (Decidable (_ ∧ _ ∧ _))
instance : DecidablePred TextByte := fun _ => inferInstanceAs (Decidable (¬_))
instance : DecidablePred UriByte := fun _ => inferInstanceAs (Decidable (_ ∧ _))
instance : DecidablePred DigitByte := fun _ => inferInstanceAs (Decidable (_ ∧ _))
instance : DecidablePred BlankByte := fun _ => inferInstanceAs (Decidable (_ ∨ _))

/-- The tests of the parser, made on a sign-extended `int`, are the classes. -/
@[simp] theorem isCtl_iff : ∀ b : UInt8, Request.isCtl (charToInt b) = true ↔ ControlByte b := by
  decide +kernel

@[simp] theorem notToken_iff : ∀ b : UInt8, Request.notToken b = true ↔ ¬TokenByte b := by
  decide +kernel

@[simp] theorem isDigit_iff : ∀ b : UInt8, Request.isDigit (charToInt b) = true ↔ DigitByte b := by
  decide +kernel

@[simp] theorem uriByte_iff {b : UInt8} : UriByte b ↔ b ≠ ascii ' ' ∧ ¬ControlByte b := Iff.rfl

@[simp] theorem textByte_iff {b : UInt8} : TextByte b ↔ ¬ControlByte b := Iff.rfl

@[simp] theorem blankByte_iff {b : UInt8} :
    BlankByte b ↔ b = ascii ' ' ∨ b = ascii '\t' := Iff.rfl

@[simp] theorem not_tokenByte_space : ¬TokenByte (ascii ' ') := by decide
@[simp] theorem not_tokenByte_colon : ¬TokenByte (ascii ':') := by decide
@[simp] theorem not_tokenByte_cr : ¬TokenByte (ascii '\r') := by decide
@[simp] theorem not_tokenByte_tab : ¬TokenByte (ascii '\t') := by decide
@[simp] theorem not_digitByte_dot : ¬DigitByte (ascii '.') := by decide
@[simp] theorem not_digitByte_cr : ¬DigitByte (ascii '\r') := by decide
@[simp] theorem controlByte_cr : ControlByte (ascii '\r') := by decide
@[simp] theorem controlByte_tab : ControlByte (ascii '\t') := by decide
@[simp] theorem not_controlByte_slash : ¬ControlByte (ascii '/') := by decide
@[simp] theorem slash_ne_space : ascii '/' ≠ ascii ' ' := by decide
@[simp] theorem space_ne_cr : ascii ' ' ≠ ascii '\r' := by decide
@[simp] theorem tab_ne_cr : ascii '\t' ≠ ascii '\r' := by decide
@[simp] theorem cr_ne_space : ascii '\r' ≠ ascii ' ' := by decide
@[simp] theorem cr_ne_tab : ascii '\r' ≠ ascii '\t' := by decide

theorem not_tokenByte_of_blankByte {b : UInt8} (h : BlankByte b) : ¬TokenByte b := by
  rcases h with rfl | rfl <;> simp

/-! ### The grammar -/

/-- A line of the header block. -/
inductive HeaderLine where
  | field (name value : Bytes)
  | folded (blanks text : Bytes)

namespace HeaderLine

def render : HeaderLine → Bytes
  | field name value => name ++ ascii ':' :: ascii ' ' :: value ++ Bytes.crlf
  | folded blanks text => blanks ++ text ++ Bytes.crlf

def Wf : HeaderLine → Prop
  | field name value => name ≠ [] ∧ (∀ b ∈ name, TokenByte b) ∧ ∀ b ∈ value, TextByte b
  | folded blanks text => blanks ≠ [] ∧ (∀ b ∈ blanks, BlankByte b) ∧ ∀ b ∈ text, TextByte b

def IsFolded : HeaderLine → Prop
  | field _ _ => False
  | folded _ _ => True

end HeaderLine

/-- Well-formed header lines; the first may be folded only when a header
precedes it. -/
def HeaderLines (afterField : Prop) (lines : List HeaderLine) : Prop :=
  (∀ l ∈ lines, l.Wf) ∧ ∀ l, lines.head? = some l → l.IsFolded → afterField

/-- The header lines, the blank line and the body. -/
def headerBlock (afterField : Prop) : Language UInt8 :=
  {s | ∃ lines body, HeaderLines afterField lines ∧
    s = lines.flatMap HeaderLine.render ++ Bytes.crlf ++ body}

/-- **The request grammar.** -/
def requestLanguage : Language UInt8 :=
  {s | ∃ method path major minor lines body,
    method ≠ [] ∧ (∀ b ∈ method, TokenByte b) ∧
    (∀ b ∈ path, UriByte b) ∧
    major ≠ [] ∧ (∀ b ∈ major, DigitByte b) ∧
    minor ≠ [] ∧ (∀ b ∈ minor, DigitByte b) ∧
    HeaderLines False lines ∧
    s = method ++ ascii ' ' :: ascii '/' :: path ++ bytes " HTTP/" ++ major
      ++ ascii '.' :: minor ++ Bytes.crlf
      ++ lines.flatMap HeaderLine.render ++ Bytes.crlf ++ body}

/-! ### What each state still expects -/

section Residual

variable (hasHeader : Prop)

/-- A line end, then the rest of the header block. -/
def lineEnd : Language UInt8 :=
  one (· = ascii '\r') (one (· = ascii '\n') (headerBlock hasHeader))

def valueEnd : Language UInt8 := many TextByte (lineEnd hasHeader)

def spaceValueEnd : Language UInt8 := one (· = ascii ' ') (valueEnd hasHeader)

def nameEnd : Language UInt8 := many TokenByte (one (· = ascii ':') (spaceValueEnd hasHeader))

def blanksEnd : Language UInt8 := many BlankByte (valueEnd hasHeader)

def minorEnd : Language UInt8 := many DigitByte (lineEnd hasHeader)

def majorEnd : Language UInt8 :=
  many DigitByte (one (· = ascii '.') (one DigitByte (minorEnd hasHeader)))

def slashEnd : Language UInt8 := one (· = ascii '/') (one DigitByte (majorEnd hasHeader))

/-- `"HTTP/"` and what follows it. -/
def httpEnd : Language UInt8 :=
  one (· = ascii 'H') (one (· = ascii 'T') (one (· = ascii 'T') (one (· = ascii 'P')
    (slashEnd hasHeader))))

def uriEnd : Language UInt8 := many UriByte (one (· = ascii ' ') (httpEnd hasHeader))

def methodEnd : Language UInt8 :=
  many TokenByte (one (· = ascii ' ') (one (· = ascii '/') (uriEnd hasHeader)))

end Residual

/-- The completions of a state, given whether a header has been read. -/
def RequestState.residual (hasHeader : Prop) : RequestState → Language UInt8
  | .methodStart => one TokenByte (methodEnd hasHeader)
  | .methodInside => methodEnd hasHeader
  | .handlerPathStart => one (· = ascii '/') (uriEnd hasHeader)
  | .handlerPath => uriEnd hasHeader
  | .filePath => 0
  | .uriInside => uriEnd hasHeader
  | .httpVersionH => httpEnd hasHeader
  | .httpVersionT1 =>
      one (· = ascii 'T') (one (· = ascii 'T') (one (· = ascii 'P') (slashEnd hasHeader)))
  | .httpVersionT2 => one (· = ascii 'T') (one (· = ascii 'P') (slashEnd hasHeader))
  | .httpVersionP => one (· = ascii 'P') (slashEnd hasHeader)
  | .httpVersionSlash => slashEnd hasHeader
  | .httpVersionMajorStart => one DigitByte (majorEnd hasHeader)
  | .httpVersionMajor => majorEnd hasHeader
  | .httpVersionMinorStart => one DigitByte (minorEnd hasHeader)
  | .httpVersionMinor => minorEnd hasHeader
  | .expectingNewline1 => one (· = ascii '\n') (headerBlock hasHeader)
  | .headerLineStart => headerBlock hasHeader
  | .headerLws => blanksEnd hasHeader
  | .headerName => nameEnd hasHeader
  | .spaceBeforeHeaderValue => spaceValueEnd hasHeader
  | .headerValue => valueEnd hasHeader
  | .expectingNewline2 => one (· = ascii '\n') (headerBlock hasHeader)
  | .expectingNewline3 => one (· = ascii '\n') ⊤
  | .bodyState => ⊤

/-! ### One header line at a time -/

theorem headerLines_cons {afterField : Prop} {l : HeaderLine} {lines : List HeaderLine} :
    HeaderLines afterField (l :: lines) ↔
      l.Wf ∧ (l.IsFolded → afterField) ∧ HeaderLines True lines := by
  simp only [HeaderLines, List.mem_cons, forall_eq_or_imp, List.head?_cons, Option.some_inj,
    forall_eq', implies_true, and_true]
  tauto

theorem HeaderLines.nil {afterField : Prop} : HeaderLines afterField [] := by
  simp [HeaderLines]

/-- The header block, unfolded at its first byte. -/
theorem cons_mem_headerBlock {afterField : Prop} {c : UInt8} {w : Bytes} :
    c :: w ∈ headerBlock afterField ↔
      (c = ascii '\r' ∧ w ∈ one (· = ascii '\n') (⊤ : Language UInt8)) ∨
      (afterField ∧ BlankByte c ∧ w ∈ blanksEnd True) ∨
      (TokenByte c ∧ w ∈ nameEnd True) := by
  constructor
  · rintro ⟨lines, body, hl, heq⟩
    rcases lines with _ | ⟨l, lines⟩
    · -- no header line is left: this is the blank line
      left
      simp only [List.flatMap_nil, Bytes.crlf, List.nil_append, List.cons_append,
        List.cons.injEq] at heq
      exact ⟨heq.1, heq.2 ▸ by simp; trivial⟩
    · obtain ⟨hwf, hfold, hrest⟩ := headerLines_cons.mp hl
      have hblock : lines.flatMap HeaderLine.render ++ Bytes.crlf ++ body ∈ headerBlock True :=
        ⟨lines, body, hrest, rfl⟩
      have hend : Bytes.crlf ++ (lines.flatMap HeaderLine.render ++ Bytes.crlf ++ body)
          ∈ lineEnd True := by
        simpa [lineEnd, Bytes.crlf] using hblock
      right
      rcases l with ⟨name, value⟩ | ⟨blanks, text⟩
      · -- a new header: its name goes on after `n`
        right
        obtain ⟨hne, hname, hvalue⟩ := hwf
        obtain ⟨n, name, rfl⟩ := List.exists_cons_of_ne_nil hne
        have hval : value ++ (Bytes.crlf ++ (lines.flatMap HeaderLine.render ++ Bytes.crlf ++ body))
            ∈ valueEnd True := append_mem_many hvalue hend
        have hnm : name ++ ascii ':' :: ascii ' ' :: (value ++ (Bytes.crlf ++
            (lines.flatMap HeaderLine.render ++ Bytes.crlf ++ body))) ∈ nameEnd True :=
          append_mem_many (fun b hb => hname b (by simp [hb])) (by simpa [spaceValueEnd] using hval)
        simp only [List.flatMap_cons, HeaderLine.render, List.cons_append, List.append_assoc,
          List.cons.injEq] at heq hnm
        exact ⟨heq.1 ▸ hname n (by simp), heq.2 ▸ hnm⟩
      · -- a folded line: its blanks go on after `b`
        left
        obtain ⟨hne, hblanks, htext⟩ := hwf
        obtain ⟨b, blanks, rfl⟩ := List.exists_cons_of_ne_nil hne
        have hval : text ++ (Bytes.crlf ++ (lines.flatMap HeaderLine.render ++ Bytes.crlf ++ body))
            ∈ valueEnd True := append_mem_many htext hend
        have hbl : blanks ++ (text ++ (Bytes.crlf ++
            (lines.flatMap HeaderLine.render ++ Bytes.crlf ++ body))) ∈ blanksEnd True :=
          append_mem_many (fun x hx => hblanks x (by simp [hx])) hval
        simp only [List.flatMap_cons, HeaderLine.render, List.cons_append, List.append_assoc,
          List.cons.injEq] at heq hbl
        exact ⟨hfold trivial, heq.1 ▸ hblanks b (by simp), heq.2 ▸ hbl⟩
  · rintro (⟨rfl, hw⟩ | ⟨hfold, hc, hw⟩ | ⟨hc, hw⟩)
    · obtain ⟨a, body, rfl, -, rfl⟩ := hw
      exact ⟨[], body, .nil, by simp [Bytes.crlf]⟩
    · obtain ⟨blanks, v, hblanks, ⟨text, v', htext, hv', rfl⟩, rfl⟩ := hw
      obtain ⟨_, _, rfl, ⟨_, _, rfl, ⟨lines, body, hl, rfl⟩, rfl⟩, rfl⟩ := hv'
      refine ⟨.folded (c :: blanks) text :: lines, body, headerLines_cons.mpr
        ⟨⟨by simp, ?_, htext⟩, fun _ => hfold, hl⟩, ?_⟩
      · exact fun b hb => (List.mem_cons.mp hb).elim (fun h => h ▸ hc) (hblanks b)
      · simp [HeaderLine.render, Bytes.crlf]
    · obtain ⟨name, v, hname, ⟨_, v', rfl, hv', rfl⟩, rfl⟩ := hw
      obtain ⟨_, _, rfl, ⟨value, v'', hvalue, hv'', rfl⟩, rfl⟩ := hv'
      obtain ⟨_, _, rfl, ⟨_, _, rfl, ⟨lines, body, hl, rfl⟩, rfl⟩, rfl⟩ := hv''
      refine ⟨.field (c :: name) value :: lines, body, headerLines_cons.mpr
        ⟨⟨by simp, ?_, hvalue⟩, fun h => h.elim, hl⟩, ?_⟩
      · exact fun b hb => (List.mem_cons.mp hb).elim (fun h => h ▸ hc) (hname b)
      · simp [HeaderLine.render, Bytes.crlf]

/-! ### One byte at a time -/

section Unfold

variable {h : Prop} {c : UInt8} {w : Bytes}

theorem cons_mem_lineEnd :
    c :: w ∈ lineEnd h ↔ c = ascii '\r' ∧ w ∈ one (· = ascii '\n') (headerBlock h) :=
  cons_mem_one

theorem cons_mem_valueEnd :
    c :: w ∈ valueEnd h ↔ (TextByte c ∧ w ∈ valueEnd h) ∨ c :: w ∈ lineEnd h :=
  cons_mem_many

theorem cons_mem_spaceValueEnd :
    c :: w ∈ spaceValueEnd h ↔ c = ascii ' ' ∧ w ∈ valueEnd h := cons_mem_one

theorem cons_mem_nameEnd :
    c :: w ∈ nameEnd h ↔ (TokenByte c ∧ w ∈ nameEnd h) ∨ c = ascii ':' ∧ w ∈ spaceValueEnd h :=
  cons_mem_many.trans (or_congr Iff.rfl cons_mem_one)

theorem cons_mem_blanksEnd :
    c :: w ∈ blanksEnd h ↔ (BlankByte c ∧ w ∈ blanksEnd h) ∨ c :: w ∈ valueEnd h :=
  cons_mem_many

theorem cons_mem_minorEnd :
    c :: w ∈ minorEnd h ↔ (DigitByte c ∧ w ∈ minorEnd h) ∨ c :: w ∈ lineEnd h :=
  cons_mem_many

theorem cons_mem_majorEnd :
    c :: w ∈ majorEnd h ↔
      (DigitByte c ∧ w ∈ majorEnd h) ∨ c = ascii '.' ∧ w ∈ one DigitByte (minorEnd h) :=
  cons_mem_many.trans (or_congr Iff.rfl cons_mem_one)

theorem cons_mem_uriEnd :
    c :: w ∈ uriEnd h ↔ (UriByte c ∧ w ∈ uriEnd h) ∨ c = ascii ' ' ∧ w ∈ httpEnd h :=
  cons_mem_many.trans (or_congr Iff.rfl cons_mem_one)

theorem cons_mem_methodEnd :
    c :: w ∈ methodEnd h ↔
      (TokenByte c ∧ w ∈ methodEnd h) ∨ c = ascii ' ' ∧ w ∈ one (· = ascii '/') (uriEnd h) :=
  cons_mem_many.trans (or_congr Iff.rfl cons_mem_one)

end Unfold

namespace Request

variable {r : Request} {c : UInt8} {w : Bytes}

/-- What the request read so far still expects. -/
def residual (r : Request) : Language UInt8 := r.state.residual (r.headers ≠ [])

/-- The recogniser's condition on one step, read off `consume`. -/
theorem exists_advance_iff :
    (∃ r', r.advance c = some r' ∧ w ∈ r'.residual) ↔
      (r.consume c).1 ≠ .bad ∧ w ∈ (r.consume c).2.residual := by
  constructor
  · rintro ⟨r', hr', hw⟩
    obtain ⟨hne, rfl⟩ := advance_eq_some.mp hr'
    exact ⟨hne, hw⟩
  · rintro ⟨hne, hw⟩
    exact ⟨_, advance_eq_some.mpr ⟨hne, rfl⟩, hw⟩

/-- One step of the automaton is one letter of the grammar, state by state. -/
theorem cons_mem_residual (hr : r.state ≠ .filePath) :
    c :: w ∈ r.residual ↔ ∃ r', r.advance c = some r' ∧ w ∈ r'.residual := by
  rw [exists_advance_iff, residual, consume]
  cases hs : r.state with
  | methodStart =>
    simp only [RequestState.residual, cons_mem_one, residual]
    by_cases ht : TokenByte c <;> simp [ht]
  | methodInside =>
    simp only [RequestState.residual, cons_mem_methodEnd, residual]
    by_cases hc : c = ascii ' '
    · simp [hc]
    · by_cases ht : TokenByte c <;> simp [hc, ht]
  | handlerPathStart =>
    simp only [RequestState.residual, cons_mem_one, residual]
    by_cases hc : c = ascii '/' <;> simp [hc]
  | handlerPath =>
    simp only [RequestState.residual, cons_mem_uriEnd, residual]
    by_cases hc : c = ascii ' '
    · simp [hc]
    · by_cases hl : ControlByte c
      · simp [hc, hl]
      · -- the slash that leads to `uri_inside` does not change what is expected
        by_cases hd : c = ascii '/' <;> simp [hc, hl, hd]
  | uriInside =>
    simp only [RequestState.residual, cons_mem_uriEnd, residual]
    by_cases hc : c = ascii ' '
    · simp [hc]
    · by_cases hl : ControlByte c <;> simp [hc, hl]
  | httpVersionH =>
    simp only [RequestState.residual, httpEnd, cons_mem_one, residual]
    by_cases hc : c = ascii 'H' <;> simp [hc]
  | httpVersionT1 =>
    simp only [RequestState.residual, cons_mem_one, residual]
    by_cases hc : c = ascii 'T' <;> simp [hc]
  | httpVersionT2 =>
    simp only [RequestState.residual, cons_mem_one, residual]
    by_cases hc : c = ascii 'T' <;> simp [hc]
  | httpVersionP =>
    simp only [RequestState.residual, cons_mem_one, residual]
    by_cases hc : c = ascii 'P' <;> simp [hc]
  | httpVersionSlash =>
    simp only [RequestState.residual, slashEnd, cons_mem_one, residual]
    by_cases hc : c = ascii '/' <;> simp [hc]
  | httpVersionMajorStart =>
    simp only [RequestState.residual, cons_mem_one, residual]
    by_cases hd : DigitByte c <;> simp [hd]
  | httpVersionMajor =>
    simp only [RequestState.residual, cons_mem_majorEnd, residual]
    by_cases hc : c = ascii '.'
    · simp [hc]
    · by_cases hd : DigitByte c <;> simp [hc, hd]
  | httpVersionMinorStart =>
    simp only [RequestState.residual, cons_mem_one, residual]
    by_cases hd : DigitByte c <;> simp [hd]
  | httpVersionMinor =>
    simp only [RequestState.residual, cons_mem_minorEnd, cons_mem_lineEnd, residual]
    by_cases hc : c = ascii '\r'
    · simp [hc]
    · by_cases hd : DigitByte c <;> simp [hc, hd]
  | expectingNewline1 =>
    simp only [RequestState.residual, cons_mem_one, residual]
    by_cases hc : c = ascii '\n' <;> simp [hc]
  | headerLineStart =>
    simp only [RequestState.residual, cons_mem_headerBlock, residual]
    by_cases hc : c = ascii '\r'
    · simp [hc]
    · -- a blank begins a folded line, and only after a first header
      by_cases hb : BlankByte c
      · have ht : ¬TokenByte c := not_tokenByte_of_blankByte hb
        by_cases hne : r.headers = [] <;> simp [hc, hne, ht, blankByte_iff.mp hb]
      · by_cases ht : TokenByte c <;> simp [hc, ht, mt blankByte_iff.mpr hb]
  | headerLws =>
    simp only [RequestState.residual, cons_mem_blanksEnd, cons_mem_valueEnd, cons_mem_lineEnd,
      residual]
    by_cases hc : c = ascii '\r'
    · simp [hc]
    · by_cases hb : BlankByte c
      · -- a space is also a byte of the text: counting it as a blank loses nothing
        have hsub : w ∈ valueEnd (r.headers ≠ []) → w ∈ blanksEnd (r.headers ≠ []) :=
          mem_many_of_mem
        simp only [hc, hb, blankByte_iff.mp hb]
        simp only [true_and, false_and, or_false, if_true, if_false]
        constructor
        · rintro (hw | ⟨-, hw⟩)
          · exact ⟨by simp, hw⟩
          · exact ⟨by simp, hsub hw⟩
        · rintro ⟨-, hw⟩
          exact .inl hw
      · by_cases hl : ControlByte c <;> simp [hc, hl, mt blankByte_iff.mpr hb]
  | headerName =>
    simp only [RequestState.residual, cons_mem_nameEnd, residual]
    by_cases hc : c = ascii ':'
    · simp [hc]
    · by_cases ht : TokenByte c <;> simp [hc, ht]
  | spaceBeforeHeaderValue =>
    simp only [RequestState.residual, cons_mem_spaceValueEnd, residual]
    by_cases hc : c = ascii ' ' <;> simp [hc]
  | headerValue =>
    simp only [RequestState.residual, cons_mem_valueEnd, cons_mem_lineEnd, residual]
    by_cases hc : c = ascii '\r'
    · simp [hc]
    · by_cases hl : ControlByte c <;> simp [hc, hl]
  | expectingNewline2 =>
    simp only [RequestState.residual, cons_mem_one, residual]
    by_cases hc : c = ascii '\n' <;> simp [hc]
  | expectingNewline3 =>
    simp only [RequestState.residual, cons_mem_one, residual]
    by_cases hc : c = ascii '\n' <;> simp [hc]
  | bodyState =>
    simp only [RequestState.residual, residual]
    exact ⟨fun _ => ⟨by simp, trivial⟩, fun _ => trivial⟩
  | filePath => exact absurd hs hr

/-- Every state but the unused `file_path` can still be completed. -/
theorem RequestState.completable {h : Prop} : ∀ {q : RequestState}, q ≠ .filePath →
    ∃ w, w ∈ q.residual h := by
  -- from the end of a request back to its beginning
  have hblock : ∃ w, w ∈ headerBlock h := ⟨_, [], [], .nil, rfl⟩
  have hnewline : ∃ w, w ∈ one (· = ascii '\n') (headerBlock h) := exists_mem_one rfl hblock
  have hline : ∃ w, w ∈ lineEnd h := exists_mem_one rfl hnewline
  have hvalue : ∃ w, w ∈ valueEnd h := exists_mem_many hline
  have hspace : ∃ w, w ∈ spaceValueEnd h := exists_mem_one rfl hvalue
  have hdigit : DigitByte (ascii '1') := by decide
  have hminor : ∃ w, w ∈ one DigitByte (minorEnd h) :=
    exists_mem_one hdigit (exists_mem_many hline)
  have hmajor : ∃ w, w ∈ majorEnd h := exists_mem_many (exists_mem_one rfl hminor)
  have hslash : ∃ w, w ∈ slashEnd h := exists_mem_one rfl (exists_mem_one hdigit hmajor)
  have hp : ∃ w, w ∈ one (· = ascii 'P') (slashEnd h) := exists_mem_one rfl hslash
  have ht₂ := exists_mem_one (p := (· = ascii 'T')) rfl hp
  have ht₁ := exists_mem_one (p := (· = ascii 'T')) rfl ht₂
  have hhttp : ∃ w, w ∈ httpEnd h := exists_mem_one rfl ht₁
  have huri : ∃ w, w ∈ uriEnd h := exists_mem_many (exists_mem_one rfl hhttp)
  have hpath : ∃ w, w ∈ one (· = ascii '/') (uriEnd h) := exists_mem_one rfl huri
  have hmethod : ∃ w, w ∈ methodEnd h := exists_mem_many (exists_mem_one rfl hpath)
  have htoken : TokenByte (ascii 'G') := by decide
  intro q hq
  match q with
  | .methodStart => exact exists_mem_one htoken hmethod
  | .methodInside => exact hmethod
  | .handlerPathStart => exact hpath
  | .handlerPath | .uriInside => exact huri
  | .httpVersionH => exact hhttp
  | .httpVersionT1 => exact ht₁
  | .httpVersionT2 => exact ht₂
  | .httpVersionP => exact hp
  | .httpVersionSlash => exact hslash
  | .httpVersionMajorStart => exact exists_mem_one hdigit hmajor
  | .httpVersionMajor => exact hmajor
  | .httpVersionMinorStart => exact hminor
  | .httpVersionMinor => exact exists_mem_many hline
  | .expectingNewline1 | .expectingNewline2 => exact hnewline
  | .headerLineStart => exact hblock
  | .headerLws => exact exists_mem_many hvalue
  | .headerName => exact exists_mem_many (exists_mem_one rfl hspace)
  | .spaceBeforeHeaderValue => exact hspace
  | .headerValue => exact hvalue
  | .expectingNewline3 => exact exists_mem_one rfl ⟨[], trivial⟩
  | .bodyState => exact ⟨[], trivial⟩
  | .filePath => exact absurd rfl hq

/-- The parser never enters the state `file_path`. -/
theorem state_ne_filePath_of_advance {r' : Request} (hr : r.state ≠ .filePath)
    (h : r.advance c = some r') : r'.state ≠ .filePath := by
  obtain ⟨-, rfl⟩ := advance_eq_some.mp h
  change (r.consume c).2.state ≠ .filePath
  rw [consume]
  cases hs : r.state with
  | filePath => exact absurd hs hr
  | bodyState => simp
  | _ => simp only; split_ifs <;> simp

/-- `consume` answers `good` exactly when it is left in the body. -/
theorem consume_eq_good_iff : (r.consume c).1 = .good ↔ (r.consume c).2.state = .bodyState := by
  rw [consume]
  cases r.state with
  | filePath | bodyState => simp
  | _ => simp only; split_ifs <;> simp

theorem parsedStatus_eq_good_of_advance {r' : Request} (h : r.advance c = some r') :
    r'.parsedStatus = .good ↔ r'.state = .bodyState := by
  obtain ⟨-, rfl⟩ := advance_eq_some.mp h
  exact consume_eq_good_iff

/-- The parser as a recogniser of the grammar. -/
def recognizer : Recognizer Request UInt8 where
  step := advance
  Live r := r.state ≠ .filePath
  residual := residual
  live_step := state_ne_filePath_of_advance
  cons_mem := cons_mem_residual
  completable := RequestState.completable

theorem recognizer_run (r : Request) (s : Bytes) : recognizer.run r s = r.run s := rfl

theorem nil_notMem_headerBlock {h : Prop} : [] ∉ headerBlock h := by
  rintro ⟨lines, body, -, heq⟩
  simp [Bytes.crlf] at heq

/-- The text may stop in the body, and only there. -/
theorem nil_mem_residual_iff : [] ∈ r.residual ↔ r.state = .bodyState := by
  rw [residual]
  cases r.state <;>
    simp [RequestState.residual, methodEnd, uriEnd, httpEnd, slashEnd, majorEnd, minorEnd,
      lineEnd, nameEnd, spaceValueEnd, valueEnd, blanksEnd, nil_notMem_headerBlock]
  trivial

/-- After a non-empty run the status says whether the text is complete. -/
theorem parsedStatus_eq_good_of_run {r' : Request} {s : Bytes} (hs : s ≠ [])
    (h : r.run s = some r') : r'.parsedStatus = .good ↔ r'.state = .bodyState := by
  obtain ⟨s, c, rfl⟩ := List.eq_nil_or_concat' s |>.resolve_left hs
  rw [run_append] at h
  obtain ⟨r₁, -, h₁⟩ := Option.bind_eq_some_iff.mp h
  rw [run_cons] at h₁
  obtain ⟨r₂, h₂, h₃⟩ := Option.bind_eq_some_iff.mp h₁
  obtain rfl := Option.some_inj.mp h₃
  exact parsedStatus_eq_good_of_advance h₂

end Request

/-- What a fresh parser expects is a request. -/
theorem residual_new : Request.new.residual = requestLanguage := by
  have hfresh : (Request.new.headers ≠ []) = False := by simp [Request.new]
  ext s
  rw [Request.residual, hfresh]
  change s ∈ one TokenByte (methodEnd False) ↔ _
  simp only [methodEnd, uriEnd, httpEnd, slashEnd, majorEnd, minorEnd, lineEnd, mem_one_many,
    mem_one_eq, mem_many]
  constructor
  · rintro ⟨method, _, hne, hmethod, ⟨_, ⟨_, ⟨path, _, hpath, ⟨_, ⟨_, ⟨_, ⟨_, ⟨_, ⟨_,
      ⟨major, _, hmaj, hmajor, ⟨_, ⟨minor, _, hmin, hminor, ⟨_, ⟨_, ⟨lines, body, hlines, rfl⟩,
      rfl⟩, rfl⟩, rfl⟩, rfl⟩, rfl⟩, rfl⟩, rfl⟩, rfl⟩, rfl⟩, rfl⟩, rfl⟩, rfl⟩, rfl⟩, rfl⟩, rfl⟩
    exact ⟨method, path, major, minor, lines, body, hne, hmethod, hpath, hmaj, hmajor, hmin,
      hminor, hlines, by simp [bytes, Bytes.crlf]⟩
  · rintro ⟨method, path, major, minor, lines, body, hne, hmethod, hpath, hmaj, hmajor, hmin,
      hminor, hlines, rfl⟩
    exact ⟨method, _, hne, hmethod, ⟨_, ⟨_, ⟨path, _, hpath, ⟨_, ⟨_, ⟨_, ⟨_, ⟨_, ⟨_,
      ⟨major, _, hmaj, hmajor, ⟨_, ⟨minor, _, hmin, hminor, ⟨_, ⟨_, ⟨lines, body, hlines, rfl⟩,
      rfl⟩, rfl⟩, rfl⟩, rfl⟩, rfl⟩, rfl⟩, rfl⟩, rfl⟩, rfl⟩, rfl⟩, rfl⟩, rfl⟩, rfl⟩, rfl⟩,
      by simp [bytes, Bytes.crlf]⟩

namespace Request

theorem parse_of_run {s : Bytes} {r : Request} (h : new.run s = some r) :
    parse s = { r with serverStatus := none } := by
  rw [parse, parseLoop_eq_of_run h]

theorem mem_requestLanguage_iff {s : Bytes} :
    s ∈ requestLanguage ↔ ∃ r, new.run s = some r ∧ r.state = .bodyState := by
  rw [← residual_new, show new.residual = recognizer.residual new from rfl,
    recognizer.mem_residual_iff (by simp [recognizer, new])]
  simp only [recognizer_run, show ∀ r, recognizer.residual r = r.residual from fun _ => rfl,
    nil_mem_residual_iff]

theorem exists_append_mem_requestLanguage_iff {s : Bytes} :
    (∃ t, s ++ t ∈ requestLanguage) ↔ (new.run s).isSome := by
  rw [← residual_new, show new.residual = recognizer.residual new from rfl,
    ← recognizer.isSome_run_iff (by simp [recognizer, new]), recognizer_run]

theorem parsedStatus_eq_good_iff {s : Bytes} (hs : s ≠ []) :
    (parse s).parsedStatus = .good ↔ s ∈ requestLanguage := by
  rw [mem_requestLanguage_iff]
  rcases h : new.run s with _ | r
  · have hbad : (parse s).parsedStatus = .bad := parsedStatus_of_run_eq_none h
    simp [hbad]
  · rw [parse_of_run h]
    simpa using parsedStatus_eq_good_of_run hs h

theorem parsedStatus_parse_eq_bad_iff {s : Bytes} :
    (parse s).parsedStatus = .bad ↔ new.run s = none := by
  constructor
  · intro hbad
    rcases h : new.run s with _ | r
    · rfl
    · rw [parse_of_run h] at hbad
      have hne : r.parsedStatus ≠ .bad := parsedStatus_ne_bad_of_run (by decide) h
      exact absurd hbad hne
  · exact parsedStatus_of_run_eq_none

theorem parsedStatus_eq_bad_iff (s : Bytes) :
    (parse s).parsedStatus = .bad ↔ ¬∃ t, s ++ t ∈ requestLanguage := by
  rw [exists_append_mem_requestLanguage_iff, Option.not_isSome_iff_eq_none,
    parsedStatus_parse_eq_bad_iff]

/-- **`Parse` decides the request grammar**: on a non-empty string the status
is `good` for a request, `indeterminate` for a proper beginning of one, `bad`
when no continuation makes it one. -/
theorem parsedStatus_decides (s : Bytes) (hs : s ≠ []) :
    ((parse s).parsedStatus = .good ↔ s ∈ requestLanguage) ∧
    ((parse s).parsedStatus = .indeterminate ↔
      s ∉ requestLanguage ∧ ∃ t, s ++ t ∈ requestLanguage) ∧
    ((parse s).parsedStatus = .bad ↔ ¬∃ t, s ++ t ∈ requestLanguage) := by
  have hgood := parsedStatus_eq_good_iff hs
  have hbad := parsedStatus_eq_bad_iff s
  refine ⟨hgood, ?_, hbad⟩
  -- what is left is to be neither good nor bad
  rw [← hgood, ← not_iff_comm.mp hbad.symm]
  cases (parse s).parsedStatus <;> simp

/-- A request cut short is indeterminate, and can be completed. -/
theorem parsedStatus_decides_cut :
    bytes "GET / HT" ≠ [] ∧ ∃ t, bytes "GET / HT" ++ t ∈ requestLanguage :=
  ⟨by decide, ((parsedStatus_decides (bytes "GET / HT") (by decide)).2.1.mp (by decide)).2⟩

end Request
