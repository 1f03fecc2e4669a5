/-
`Request::Parse` inverts the serialisation of requests.

A `Message` is a request in the abstract: method, URI, version, headers with
their folded segments, body, each part carrying the proof that it is spelled
with the bytes its place allows.  The parser is followed through
`Request.Reads q f u q' f'`: in state `q` with the fields `f`, the bytes `u`
lead to state `q'` with the fields `f'`.  One lemma per accepting transition
(`Reads.byte`), one induction per repeated state, and composition give

* `Request.parse_serialize` — parsing a serialised message is good and returns
  its parts;
* `Request.serialize_parse` — re-serialising what was parsed from a request
  without continuation lines gives the text back;
* `Request.parse_inverts_serialize` — both.
-/
import Spaceteam.RequestGrammar

/-! ### Messages -/

/-- A continuation line: the blanks it is folded with and its segment. -/
structure FoldedSegment where
  blanks : Bytes
  text : Bytes
  blanks_ne_nil : blanks ≠ []
  blanks_blank : ∀ b ∈ blanks, BlankByte b
  text_text : ∀ b ∈ text, TextByte b
  text_head : text.head? ≠ some (ascii ' ')

/-- A header, its value split over the lines it is written on. -/
structure HeaderField where
  name : Bytes
  first : Bytes
  folds : List FoldedSegment
  name_ne_nil : name ≠ []
  name_token : ∀ b ∈ name, TokenByte b
  first_text : ∀ b ∈ first, TextByte b

def FoldedSegment.line (s : FoldedSegment) : HeaderLine := .folded s.blanks s.text

namespace HeaderField

def value (h : HeaderField) : Bytes := h.first ++ h.folds.flatMap FoldedSegment.text

def lines (h : HeaderField) : List HeaderLine :=
  .field h.name h.first :: h.folds.map FoldedSegment.line

end HeaderField

/-- A request in the abstract; the URI is `'/'` followed by `path`, the
version `major` and `minor` around a dot. -/
structure Message where
  method : Bytes
  path : Bytes
  major : Bytes
  minor : Bytes
  headers : List HeaderField
  body : Bytes
  method_ne_nil : method ≠ []
  method_token : ∀ b ∈ method, TokenByte b
  path_uri : ∀ b ∈ path, UriByte b
  major_ne_nil : major ≠ []
  major_digit : ∀ b ∈ major, DigitByte b
  minor_ne_nil : minor ≠ []
  minor_digit : ∀ b ∈ minor, DigitByte b

namespace Message

def uri (m : Message) : Bytes := ascii '/' :: m.path

def version (m : Message) : Bytes := m.major ++ ascii '.' :: m.minor

/-- What `headers()` should return: each value is the concatenation of its
segments. -/
def headerPairs (m : Message) : Headers := m.headers.map fun h => (h.name, h.value)

def lines (m : Message) : List HeaderLine := m.headers.flatMap HeaderField.lines

def serialize (m : Message) : Bytes :=
  m.method ++ ascii ' ' :: m.uri ++ bytes " HTTP/" ++ m.version ++ Bytes.crlf
    ++ m.lines.flatMap HeaderLine.render ++ Bytes.crlf ++ m.body

end Message

/-! ### Reading one byte, reading a text -/

/-- The fields a request hands out. -/
structure RequestFields where
  method : Bytes
  uri : Bytes
  version : Bytes
  headers : Headers
  body : Bytes

namespace Request

def fields (r : Request) : RequestFields :=
  { method := r.method, uri := r.uri, version := r.version, headers := r.headers, body := r.body }

/-- In state `q` with fields `f`, the text `u` is read to state `q'` with
fields `f'`. -/
def Reads (q : RequestState) (f : RequestFields) (u : Bytes) (q' : RequestState)
    (f' : RequestFields) : Prop :=
  ∀ r : Request, r.state = q → r.fields = f →
    ∃ r', r.run u = some r' ∧ r'.state = q' ∧ r'.fields = f'

namespace Reads

variable {q q' q'' : RequestState} {f f' f'' : RequestFields} {u v : Bytes} {c : UInt8}

theorem nil : Reads q f [] q f := fun r hq hf => ⟨r, rfl, hq, hf⟩

theorem trans (h : Reads q f u q' f') (h' : Reads q' f' v q'' f'') :
    Reads q f (u ++ v) q'' f'' := by
  intro r hq hf
  obtain ⟨r₁, hrun, hq₁, hf₁⟩ := h r hq hf
  obtain ⟨r₂, hrun', hq₂, hf₂⟩ := h' r₁ hq₁ hf₁
  exact ⟨r₂, by rw [run_append_of_run hrun, hrun'], hq₂, hf₂⟩

theorem cons (h : Reads q f [c] q' f') (h' : Reads q' f' v q'' f'') :
    Reads q f (c :: v) q'' f'' := h.trans h'

/-- An accepted byte is read off `consume`. -/
theorem byte (h : ∀ r : Request, r.state = q → r.fields = f →
    (r.consume c).1 ≠ .bad ∧ (r.consume c).2.state = q' ∧ (r.consume c).2.fields = f') :
    Reads q f [c] q' f' := by
  intro r hq hf
  obtain ⟨hne, hq', hf'⟩ := h r hq hf
  refine ⟨{ (r.consume c).2 with parsedStatus := (r.consume c).1 }, ?_, hq', hf'⟩
  rw [run_cons, advance_eq_some.mpr ⟨hne, rfl⟩]
  rfl

/-- A state that keeps the bytes of a class in one field. -/
theorem repeated {p : UInt8 → Prop} (F : Bytes → RequestFields)
    (step : ∀ u c, p c → Reads q (F u) [c] q (F (u ++ [c]))) (hv : ∀ b ∈ v, p b) :
    Reads q (F u) v q (F (u ++ v)) := by
  induction v generalizing u with
  | nil => simpa using nil
  | cons c v ih =>
    have hc := step u c (hv c (by simp))
    have hrest := ih (u := u ++ [c]) fun b hb => hv b (by simp [hb])
    simpa using hc.cons hrest

end Reads

variable {f : RequestFields} {u v : Bytes} {c : UInt8}

theorem reads_methodStart (hc : TokenByte c) :
    Reads .methodStart f [c] .methodInside { f with method := f.method ++ [c] } :=
  .byte fun r hq hf => by subst hf; simp [consume, hq, hc, fields]

theorem reads_methodInside (hc : TokenByte c) :
    Reads .methodInside f [c] .methodInside { f with method := f.method ++ [c] } := by
  have hne : c ≠ ascii ' ' := by rintro rfl; simp at hc
  exact .byte fun r hq hf => by subst hf; simp [consume, hq, hc, hne, fields]

theorem reads_method {m : Bytes} (hu : ∀ b ∈ u, TokenByte b) :
    Reads .methodInside { f with method := m } u .methodInside { f with method := m ++ u } :=
  .repeated (fun m => { f with method := m }) (fun _ _ hc => reads_methodInside hc) hu

theorem reads_space : Reads .methodInside f [ascii ' '] .handlerPathStart f :=
  .byte fun r hq hf => by subst hf; simp [consume, hq, fields]

theorem reads_slash :
    Reads .handlerPathStart f [ascii '/'] .handlerPath { f with uri := f.uri ++ [ascii '/'] } :=
  .byte fun r hq hf => by subst hf; simp [consume, hq, fields]

theorem reads_pathSlash :
    Reads .handlerPath f [ascii '/'] .uriInside { f with uri := f.uri ++ [ascii '/'] } :=
  .byte fun r hq hf => by subst hf; simp [consume, hq, fields]

theorem reads_pathByte (hc : UriByte c) (hslash : c ≠ ascii '/') :
    Reads .handlerPath f [c] .handlerPath { f with uri := f.uri ++ [c] } :=
  .byte fun r hq hf => by subst hf; simp [consume, hq, hslash, hc.1, hc.2, fields]

theorem reads_uriByte (hc : UriByte c) :
    Reads .uriInside f [c] .uriInside { f with uri := f.uri ++ [c] } :=
  .byte fun r hq hf => by subst hf; simp [consume, hq, hc.1, hc.2, fields]

/-- The two URI states differ only in where else they keep the byte: from
either, the text up to the next space is appended to the URI. -/
theorem reads_path {q : RequestState} (hq : q = .handlerPath ∨ q = .uriInside)
    (hu : ∀ b ∈ u, UriByte b) :
    Reads q f (u ++ [ascii ' ']) .httpVersionH { f with uri := f.uri ++ u } := by
  induction u generalizing f q with
  | nil =>
    refine .byte fun r hr hf => ?_
    subst hf
    rcases hq with rfl | rfl <;> simp [consume, hr, fields]
  | cons c u ih =>
    have hc : UriByte c := hu c (by simp)
    have hend : ∀ q₁, q₁ = .handlerPath ∨ q₁ = .uriInside →
        Reads q₁ { f with uri := f.uri ++ [c] } (u ++ [ascii ' ']) .httpVersionH
          { f with uri := f.uri ++ c :: u } := fun q₁ hq₁ => by
      simpa using ih (f := { f with uri := f.uri ++ [c] }) hq₁ fun b hb => hu b (by simp [hb])
    rcases hq with rfl | rfl
    · -- the first slash ends `handler_path`
      by_cases hslash : c = ascii '/'
      · subst hslash
        exact reads_pathSlash.cons (hend _ (.inr rfl))
      · exact (reads_pathByte hc hslash).cons (hend _ (.inl rfl))
    · exact (reads_uriByte hc).cons (hend _ (.inr rfl))

theorem reads_http : Reads .httpVersionH f (bytes "HTTP/") .httpVersionMajorStart f :=
  have hH : Reads .httpVersionH f [ascii 'H'] .httpVersionT1 f :=
    .byte fun r hq hf => by subst hf; simp [consume, hq, fields]
  have hT₁ : Reads .httpVersionT1 f [ascii 'T'] .httpVersionT2 f :=
    .byte fun r hq hf => by subst hf; simp [consume, hq, fields]
  have hT₂ : Reads .httpVersionT2 f [ascii 'T'] .httpVersionP f :=
    .byte fun r hq hf => by subst hf; simp [consume, hq, fields]
  have hP : Reads .httpVersionP f [ascii 'P'] .httpVersionSlash f :=
    .byte fun r hq hf => by subst hf; simp [consume, hq, fields]
  have hslash : Reads .httpVersionSlash f [ascii '/'] .httpVersionMajorStart f :=
    .byte fun r hq hf => by subst hf; simp [consume, hq, fields]
  hH.cons (hT₁.cons (hT₂.cons (hP.cons hslash)))

theorem reads_majorStart (hc : DigitByte c) :
    Reads .httpVersionMajorStart f [c] .httpVersionMajor { f with version := f.version ++ [c] } :=
  .byte fun r hq hf => by subst hf; simp [consume, hq, hc, fields]

theorem reads_majorDigit (hc : DigitByte c) :
    Reads .httpVersionMajor f [c] .httpVersionMajor { f with version := f.version ++ [c] } := by
  have hne : c ≠ ascii '.' := by rintro rfl; simp at hc
  exact .byte fun r hq hf => by subst hf; simp [consume, hq, hc, hne, fields]

theorem reads_dot :
    Reads .httpVersionMajor f [ascii '.'] .httpVersionMinorStart
      { f with version := f.version ++ [ascii '.'] } :=
  .byte fun r hq hf => by subst hf; simp [consume, hq, fields]

theorem reads_minorStart (hc : DigitByte c) :
    Reads .httpVersionMinorStart f [c] .httpVersionMinor { f with version := f.version ++ [c] } :=
  .byte fun r hq hf => by subst hf; simp [consume, hq, hc, fields]

theorem reads_minorDigit (hc : DigitByte c) :
    Reads .httpVersionMinor f [c] .httpVersionMinor { f with version := f.version ++ [c] } := by
  have hne : c ≠ ascii '\r' := by rintro rfl; simp at hc
  exact .byte fun r hq hf => by subst hf; simp [consume, hq, hc, hne, fields]

/-- The version number, up to the end of the request line. -/
theorem reads_version {major minor v : Bytes} (hmaj : major ≠ [])
    (hmajor : ∀ b ∈ major, DigitByte b) (hmin : minor ≠ [])
    (hminor : ∀ b ∈ minor, DigitByte b) :
    Reads .httpVersionMajorStart { f with version := v } (major ++ ascii '.' :: minor)
      .httpVersionMinor { f with version := v ++ (major ++ ascii '.' :: minor) } := by
  obtain ⟨d, major, rfl⟩ := List.exists_cons_of_ne_nil hmaj
  obtain ⟨e, minor, rfl⟩ := List.exists_cons_of_ne_nil hmin
  have hd := reads_majorStart (f := { f with version := v }) (hmajor d (by simp))
  have hds := Reads.repeated (q := .httpVersionMajor) (u := v ++ [d]) (v := major)
    (fun w => { f with version := w }) (fun _ _ => reads_majorDigit)
    (fun b hb => hmajor b (by simp [hb]))
  have hdot := reads_dot (f := { f with version := v ++ [d] ++ major })
  have he := reads_minorStart (f := { f with version := v ++ [d] ++ major ++ [ascii '.'] })
    (hminor e (by simp))
  have hes := Reads.repeated (q := .httpVersionMinor)
    (u := v ++ [d] ++ major ++ [ascii '.'] ++ [e]) (v := minor)
    (fun w => { f with version := w }) (fun _ _ => reads_minorDigit)
    (fun b hb => hminor b (by simp [hb]))
  simpa using hd.cons (hds.trans (hdot.cons (he.cons hes)))

theorem reads_endOfRequestLine : Reads .httpVersionMinor f Bytes.crlf .headerLineStart f :=
  have hcr : Reads .httpVersionMinor f [ascii '\r'] .expectingNewline1 f :=
    .byte fun r hq hf => by subst hf; simp [consume, hq, fields]
  have hlf : Reads .expectingNewline1 f [ascii '\n'] .headerLineStart f :=
    .byte fun r hq hf => by subst hf; simp [consume, hq, fields]
  hcr.cons hlf

/-! ### Header lines -/

variable {hs : Headers} {n v : Bytes}

theorem reads_nameStart (hc : TokenByte c) :
    Reads .headerLineStart f [c] .headerName { f with headers := f.headers ++ [([c], [])] } := by
  have hcr : c ≠ ascii '\r' := by rintro rfl; simp at hc
  have hblank : ¬(c = ascii ' ' ∨ c = ascii '\t') := fun h => not_tokenByte_of_blankByte h hc
  exact .byte fun r hq hf => by subst hf; simp [consume, hq, hcr, hblank, hc, fields]

theorem reads_nameByte (hc : TokenByte c) :
    Reads .headerName f [c] .headerName { f with headers := f.headers.pushName c } := by
  have hne : c ≠ ascii ':' := by rintro rfl; simp at hc
  exact .byte fun r hq hf => by subst hf; simp [consume, hq, hne, hc, fields]

theorem reads_colonSpace : Reads .headerName f [ascii ':', ascii ' '] .headerValue f :=
  have hcolon : Reads .headerName f [ascii ':'] .spaceBeforeHeaderValue f :=
    .byte fun r hq hf => by subst hf; simp [consume, hq, fields]
  have hspace : Reads .spaceBeforeHeaderValue f [ascii ' '] .headerValue f :=
    .byte fun r hq hf => by subst hf; simp [consume, hq, fields]
  hcolon.cons hspace

theorem reads_valueByte (hc : TextByte c) :
    Reads .headerValue f [c] .headerValue { f with headers := f.headers.pushValue c } := by
  have hne : c ≠ ascii '\r' := by rintro rfl; simp at hc
  exact .byte fun r hq hf => by subst hf; simp [consume, hq, hne, textByte_iff.mp hc, fields]

theorem reads_newline : Reads .expectingNewline2 f [ascii '\n'] .headerLineStart f :=
  .byte fun r hq hf => by subst hf; simp [consume, hq, fields]

theorem reads_valueEnd : Reads .headerValue f Bytes.crlf .headerLineStart f :=
  have hcr : Reads .headerValue f [ascii '\r'] .expectingNewline2 f :=
    .byte fun r hq hf => by subst hf; simp [consume, hq, fields]
  hcr.cons reads_newline

theorem reads_foldStart (hc : BlankByte c) (hne : f.headers ≠ []) :
    Reads .headerLineStart f [c] .headerLws f := by
  have hcr : c ≠ ascii '\r' := by rcases hc with rfl | rfl <;> simp
  exact .byte fun r hq hf => by
    subst hf
    have hh : r.headers ≠ [] := hne
    simp [consume, hq, hcr, hh, blankByte_iff.mp hc, fields]

theorem reads_blank (hc : BlankByte c) : Reads .headerLws f [c] .headerLws f := by
  have hcr : c ≠ ascii '\r' := by rcases hc with rfl | rfl <;> simp
  exact .byte fun r hq hf => by subst hf; simp [consume, hq, hcr, blankByte_iff.mp hc, fields]

theorem reads_foldedText (hc : TextByte c) (hsp : c ≠ ascii ' ') :
    Reads .headerLws f [c] .headerValue { f with headers := f.headers.pushValue c } := by
  have hcr : c ≠ ascii '\r' := by rintro rfl; simp at hc
  have htab : c ≠ ascii '\t' := by rintro rfl; simp at hc
  exact .byte fun r hq hf => by
    subst hf
    simp [consume, hq, hcr, hsp, htab, textByte_iff.mp hc, fields]

theorem reads_blanksEnd : Reads .headerLws f Bytes.crlf .headerLineStart f :=
  have hcr : Reads .headerLws f [ascii '\r'] .expectingNewline2 f :=
    .byte fun r hq hf => by subst hf; simp [consume, hq, fields]
  hcr.cons reads_newline

/-- A value, or the rest of one, up to the end of its line. -/
theorem reads_value (hu : ∀ b ∈ u, TextByte b) :
    Reads .headerValue { f with headers := hs ++ [(n, v)] } (u ++ Bytes.crlf) .headerLineStart
      { f with headers := hs ++ [(n, v ++ u)] } := by
  refine .trans (.repeated (fun w => { f with headers := hs ++ [(n, w)] }) ?_ hu) reads_valueEnd
  intro w c hc
  simpa using reads_valueByte (f := { f with headers := hs ++ [(n, w)] }) hc

theorem reads_field {name value : Bytes} (hwf : (HeaderLine.field name value).Wf) :
    Reads .headerLineStart f (HeaderLine.field name value).render .headerLineStart
      { f with headers := f.headers ++ [(name, value)] } := by
  obtain ⟨hne, hname, hvalue⟩ := hwf
  obtain ⟨c, name, rfl⟩ := List.exists_cons_of_ne_nil hne
  have hstart := reads_nameStart (f := f) (hname c (by simp))
  have hrest : Reads .headerName { f with headers := f.headers ++ [([c], [])] } name .headerName
      { f with headers := f.headers ++ [([c] ++ name, [])] } := by
    refine .repeated (fun w => { f with headers := f.headers ++ [(w, [])] }) ?_
      fun b hb => hname b (by simp [hb])
    intro w c hc
    simpa using reads_nameByte (f := { f with headers := f.headers ++ [(w, [])] }) hc
  have hval : Reads .headerValue { f with headers := f.headers ++ [([c] ++ name, [])] }
      (value ++ Bytes.crlf) .headerLineStart
      { f with headers := f.headers ++ [([c] ++ name, [] ++ value)] } := reads_value hvalue
  simpa [HeaderLine.render] using hstart.cons (hrest.trans (reads_colonSpace.trans hval))

/-- A continuation line appends its segment to the last value. -/
theorem reads_folded (s : FoldedSegment) :
    Reads .headerLineStart { f with headers := hs ++ [(n, v)] } s.line.render .headerLineStart
      { f with headers := hs ++ [(n, v ++ s.text)] } := by
  obtain ⟨b, blanks, hb⟩ := List.exists_cons_of_ne_nil s.blanks_ne_nil
  have hblank : ∀ x ∈ b :: blanks, BlankByte x := hb ▸ s.blanks_blank
  have hstart := reads_foldStart (f := { f with headers := hs ++ [(n, v)] })
    (hblank b (by simp)) (by simp)
  have hblanks : Reads .headerLws { f with headers := hs ++ [(n, v)] } blanks .headerLws
      { f with headers := hs ++ [(n, v)] } :=
    .repeated (u := []) (fun _ => _) (fun _ _ => reads_blank) fun x hx => hblank x (by simp [hx])
  have htext : Reads .headerLws { f with headers := hs ++ [(n, v)] } (s.text ++ Bytes.crlf)
      .headerLineStart { f with headers := hs ++ [(n, v ++ s.text)] } := by
    -- a continuation line may hold nothing but its blanks
    rcases ht : s.text with _ | ⟨c, text⟩
    · simpa using reads_blanksEnd
    · have htx : ∀ x ∈ c :: text, TextByte x := ht ▸ s.text_text
      have hc := reads_foldedText (f := { f with headers := hs ++ [(n, v)] }) (htx c (by simp))
        (by simpa [ht] using s.text_head)
      have hvalue : Reads .headerValue { f with headers := hs ++ [(n, v ++ [c])] }
          (text ++ Bytes.crlf) .headerLineStart
          { f with headers := hs ++ [(n, v ++ [c] ++ text)] } :=
        reads_value fun x hx => htx x (by simp [hx])
      simpa using hc.cons (by simpa using hvalue)
  simpa [FoldedSegment.line, HeaderLine.render, hb] using hstart.cons (hblanks.trans htext)

theorem reads_folds (folds : List FoldedSegment) :
    Reads .headerLineStart { f with headers := hs ++ [(n, v)] }
      ((folds.map FoldedSegment.line).flatMap HeaderLine.render) .headerLineStart
      { f with headers := hs ++ [(n, v ++ folds.flatMap FoldedSegment.text)] } := by
  induction folds generalizing v with
  | nil => simpa using Reads.nil
  | cons s folds ih =>
    have hfirst : Reads .headerLineStart { f with headers := hs ++ [(n, v)] } s.line.render
        .headerLineStart { f with headers := hs ++ [(n, v ++ s.text)] } := reads_folded s
    simpa using hfirst.trans ih

theorem reads_headers (headers : List HeaderField) :
    Reads .headerLineStart f ((headers.flatMap HeaderField.lines).flatMap HeaderLine.render)
      .headerLineStart
      { f with headers := f.headers ++ headers.map fun h => (h.name, h.value) } := by
  induction headers generalizing f with
  | nil => simpa using Reads.nil
  | cons h headers ih =>
    have hwf : (HeaderLine.field h.name h.first).Wf :=
      ⟨h.name_ne_nil, h.name_token, h.first_text⟩
    have hfolds : Reads .headerLineStart { f with headers := f.headers ++ [(h.name, h.first)] }
        ((h.folds.map FoldedSegment.line).flatMap HeaderLine.render) .headerLineStart
        { f with headers := f.headers ++
          [(h.name, h.first ++ h.folds.flatMap FoldedSegment.text)] } := reads_folds h.folds
    have hrest := ih (f := { f with headers := f.headers ++ [(h.name, h.value)] })
    simpa [HeaderField.lines, HeaderField.value] using (reads_field hwf).trans (hfolds.trans hrest)

theorem reads_blankLine : Reads .headerLineStart f Bytes.crlf .bodyState f :=
  have hcr : Reads .headerLineStart f [ascii '\r'] .expectingNewline3 f :=
    .byte fun r hq hf => by subst hf; simp [consume, hq, fields]
  have hlf : Reads .expectingNewline3 f [ascii '\n'] .bodyState f :=
    .byte fun r hq hf => by subst hf; simp [consume, hq, fields]
  hcr.cons hlf

theorem reads_bodyByte : Reads .bodyState f [c] .bodyState { f with body := f.body ++ [c] } :=
  .byte fun r hq hf => by subst hf; simp [consume, hq, fields]

theorem reads_body {b : Bytes} :
    Reads .bodyState { f with body := b } u .bodyState { f with body := b ++ u } :=
  .repeated (p := fun _ => True) (fun w => { f with body := w }) (fun _ _ _ => reads_bodyByte)
    (by simp)

/-! ### Whole requests -/

theorem reads_message (m : Message) :
    Reads .methodStart ⟨[], [], [], [], []⟩ m.serialize .bodyState
      ⟨m.method, m.uri, m.version, m.headerPairs, m.body⟩ := by
  obtain ⟨c, method, hm⟩ := List.exists_cons_of_ne_nil m.method_ne_nil
  have htoken : ∀ b ∈ c :: method, TokenByte b := hm ▸ m.method_token
  have hstart := reads_methodStart (f := ⟨[], [], [], [], []⟩) (htoken c (by simp))
  have hmethod := reads_method (f := ⟨[], [], [], [], []⟩) (u := method) (m := [c])
    fun b hb => htoken b (by simp [hb])
  have hslash := reads_slash (f := ⟨m.method, [], [], [], []⟩)
  have hpath := reads_path (f := ⟨m.method, [ascii '/'], [], [], []⟩) (.inl rfl) m.path_uri
  have hversion := reads_version (f := ⟨m.method, m.uri, [], [], []⟩) (v := []) m.major_ne_nil
    m.major_digit m.minor_ne_nil m.minor_digit
  have hheaders := reads_headers (f := ⟨m.method, m.uri, m.version, [], []⟩) m.headers
  have hbody := reads_body (f := ⟨m.method, m.uri, m.version, m.headerPairs, []⟩) (u := m.body)
    (b := [])
  have hline : Reads .methodStart ⟨[], [], [], [], []⟩
      (m.method ++ ascii ' ' :: m.uri ++ bytes " HTTP/") .httpVersionMajorStart
      ⟨m.method, m.uri, [], [], []⟩ := by
    have h := hstart.cons (hmethod.trans (reads_space.trans (by
      simpa [hm] using hslash.trans (hpath.trans reads_http))))
    simpa [hm, Message.uri, bytes] using h
  -- request line, version, headers, blank line, body
  have hhead := hline.trans (hversion.trans (reads_endOfRequestLine.trans
    (hheaders.trans (reads_blankLine.trans hbody))))
  simpa [Message.serialize, Message.version, Message.lines, Message.headerPairs] using hhead

/-- Parsing a serialised message is good and returns its parts. -/
theorem parse_serialize (m : Message) :
    (parse m.serialize).parsedStatus = .good ∧
    (parse m.serialize).method = m.method ∧
    (parse m.serialize).uri = m.uri ∧
    (parse m.serialize).version = m.version ∧
    (parse m.serialize).headers = m.headerPairs ∧
    (parse m.serialize).body = m.body ∧
    (parse m.serialize).rawRequest = m.serialize := by
  obtain ⟨r, hrun, hstate, hfields⟩ := reads_message m new rfl rfl
  have hgood : r.parsedStatus = .good :=
    (parsedStatus_eq_good_of_run (by simp [Message.serialize]) hrun).mpr hstate
  obtain ⟨hmethod, huri, hversion, hheaders, hbody⟩ := RequestFields.mk.inj hfields
  rw [parse_of_run hrun]
  exact ⟨hgood, hmethod, huri, hversion, hheaders, hbody, rawRequest_of_run hrun⟩

/-! ### Texts without continuation lines -/

/-- The request line, the headers one line each, the blank line, the body. -/
def serialize (r : Request) : Bytes :=
  r.method ++ ascii ' ' :: r.uri ++ bytes " HTTP/" ++ r.version ++ Bytes.crlf
    ++ (r.headers.map fun h => HeaderLine.field h.1 h.2).flatMap HeaderLine.render
    ++ Bytes.crlf ++ r.body

end Request

/-- Some line before the first blank line starts with a space or a tab. -/
def HasContinuation (s : Bytes) : Prop :=
  ∃ i < s.length, Bytes.crlf <+: s.drop i ∧
    (s[i + 2]? = some (ascii ' ') ∨ s[i + 2]? = some (ascii '\t')) ∧
    ¬Bytes.crlf ++ Bytes.crlf <:+: s.take (i + 2)

instance (s : Bytes) : Decidable (HasContinuation s) :=
  inferInstanceAs (Decidable (∃ i < s.length, _ ∧ _ ∧ _))

/-- The first occurrence of a letter: any other one lies behind it. -/
theorem append_cons_eq {α : Type*} {a : α} {l u x y : List α} (hl : a ∉ l)
    (h : u ++ a :: x = l ++ a :: y) :
    (u = l ∧ x = y) ∨ ∃ w, u = l ++ a :: w ∧ w ++ a :: x = y := by
  rcases List.append_eq_append_iff.mp h with ⟨w, rfl, hw⟩ | ⟨w, rfl, hw⟩
  · -- an occurrence inside `l` is impossible
    rcases w with _ | ⟨b, w⟩
    · exact .inl ⟨by simp, by simpa using hw⟩
    · simp only [List.cons_append, List.cons.injEq] at hw
      exact absurd (by simp [hw.1]) hl
  · rcases w with _ | ⟨b, w⟩
    · exact .inl ⟨by simp, by simpa using hw.symm⟩
    · simp only [List.cons_append, List.cons.injEq] at hw
      exact .inr ⟨w, by simp [hw.1], hw.2.symm⟩

/-- Lines that are not empty and contain no CR leave no blank line. -/
theorem not_blankLine_infix {lines : List Bytes} (h : ∀ l ∈ lines, l ≠ [] ∧ ascii '\r' ∉ l) :
    ¬Bytes.crlf ++ Bytes.crlf <:+: lines.flatMap (· ++ Bytes.crlf) := by
  induction lines with
  | nil => simp [Bytes.crlf]
  | cons l lines ih =>
    have hrest : ∀ l ∈ lines, l ≠ [] ∧ ascii '\r' ∉ l := fun x hx => h x (by simp [hx])
    rintro ⟨u, v, heq⟩
    simp only [List.flatMap_cons, Bytes.crlf, List.append_assoc, List.cons_append,
      List.nil_append] at heq
    rcases append_cons_eq (h l (by simp)).2 heq with ⟨-, htail⟩ | ⟨w, -, htail⟩
    · -- the blank line would start the next line
      rcases lines with _ | ⟨l', lines⟩
      · simp at htail
      · obtain ⟨hne, hcr⟩ := hrest l' (by simp)
        obtain ⟨d, l', rfl⟩ := List.exists_cons_of_ne_nil hne
        simp only [List.flatMap_cons, List.cons_append, List.cons.injEq, true_and] at htail
        exact hcr (by simp [htail.1])
    · -- the blank line lies behind this line, among the others
      rcases w with _ | ⟨d, w⟩
      · exact absurd (List.cons.inj htail).1 (by decide)
      · refine ih hrest ⟨w, v, ?_⟩
        simpa [Bytes.crlf] using (List.cons.inj htail).2

/-- The text before a folded line shows the continuation. -/
theorem hasContinuation_of_folded {pre : List Bytes} {c : UInt8} {t : Bytes} (hne : pre ≠ [])
    (h : ∀ l ∈ pre, l ≠ [] ∧ ascii '\r' ∉ l) (hc : BlankByte c) :
    HasContinuation (pre.flatMap (· ++ Bytes.crlf) ++ c :: t) := by
  have hno := not_blankLine_infix h
  obtain ⟨init, last, rfl⟩ := List.eq_nil_or_concat' pre |>.resolve_left hne
  set p : Bytes := init.flatMap (· ++ Bytes.crlf) ++ last with hp
  have htext : (init ++ [last]).flatMap (· ++ Bytes.crlf) = p ++ Bytes.crlf := by simp [hp]
  rw [htext] at hno ⊢
  refine ⟨p.length, by simp, ?_, ?_, ?_⟩
  · simp [Bytes.crlf]
  · rcases hc with rfl | rfl <;> simp [Bytes.crlf]
  · have htake : (p ++ Bytes.crlf ++ c :: t).take (p.length + 2) = p ++ Bytes.crlf :=
      List.take_left' (by simp [Bytes.crlf])
    rw [htake]
    exact hno

/-- A well-formed line without its line end. -/
def HeaderLine.text : HeaderLine → Bytes
  | .field name value => name ++ ascii ':' :: ascii ' ' :: value
  | .folded blanks text => blanks ++ text

theorem HeaderLine.render_eq (l : HeaderLine) : l.render = l.text ++ Bytes.crlf := by
  cases l <;> simp [render, text]

theorem HeaderLine.flatMap_text (lines : List HeaderLine) :
    (lines.map HeaderLine.text).flatMap (· ++ Bytes.crlf) = lines.flatMap HeaderLine.render := by
  rw [List.flatMap_map]
  exact congrArg (lines.flatMap ·) (funext fun l => l.render_eq.symm)

theorem HeaderLine.Wf.text_spec {l : HeaderLine} (h : l.Wf) :
    l.text ≠ [] ∧ ascii '\r' ∉ l.text := by
  rcases l with ⟨name, value⟩ | ⟨blanks, text⟩
  · obtain ⟨-, hname, hvalue⟩ := h
    refine ⟨by simp [text], fun hmem => ?_⟩
    simp only [HeaderLine.text, List.mem_append, List.mem_cons] at hmem
    rcases hmem with hm | hm | hm | hm
    · exact not_tokenByte_cr (hname _ hm)
    · exact absurd hm (by decide)
    · exact absurd hm (by decide)
    · exact hvalue _ hm controlByte_cr
  · obtain ⟨hne, hblanks, htext⟩ := h
    refine ⟨by simp [HeaderLine.text, hne], fun hmem => ?_⟩
    rcases List.mem_append.mp hmem with hm | hm
    · exact absurd (hblanks _ hm) (by decide)
    · exact htext _ hm controlByte_cr

/-- Either no line is folded, or there is a first one that is. -/
theorem HeaderLine.exists_first_folded (lines : List HeaderLine) :
    (∀ l ∈ lines, ¬l.IsFolded) ∨
      ∃ pre blanks text post, lines = pre ++ .folded blanks text :: post := by
  induction lines with
  | nil => simp
  | cons l lines ih =>
    rcases l with ⟨name, value⟩ | ⟨blanks, text⟩
    · rcases ih with h | ⟨pre, blanks, text, post, rfl⟩
      · exact .inl (by simpa [IsFolded] using h)
      · exact .inr ⟨.field name value :: pre, blanks, text, post, rfl⟩
    · exact .inr ⟨[], blanks, text, lines, rfl⟩

/-- Lines none of which is folded are headers of one segment. -/
theorem exists_headerFields {lines : List HeaderLine} (hwf : ∀ l ∈ lines, l.Wf)
    (hfold : ∀ l ∈ lines, ¬l.IsFolded) :
    ∃ headers : List HeaderField, lines = headers.flatMap HeaderField.lines ∧
      lines = (headers.map fun h => (h.name, h.value)).map fun h => .field h.1 h.2 := by
  induction lines with
  | nil => exact ⟨[], rfl, rfl⟩
  | cons l lines ih =>
    obtain ⟨headers, h₁, h₂⟩ := ih (fun x hx => hwf x (by simp [hx]))
      fun x hx => hfold x (by simp [hx])
    rcases l with ⟨name, value⟩ | ⟨blanks, text⟩
    · obtain ⟨hne, hname, hvalue⟩ := hwf (.field name value) (by simp)
      refine ⟨⟨name, value, [], hne, hname, hvalue⟩ :: headers, ?_, ?_⟩
      · simp [HeaderField.lines, ← h₁]
      · rw [List.map_cons, List.map_cons, ← h₂]
        simp [HeaderField.value]
    · exact absurd trivial (hfold (.folded blanks text) (by simp))

theorem cr_notMem_requestLine {method path major minor : Bytes}
    (hmethod : ∀ b ∈ method, TokenByte b) (hpath : ∀ b ∈ path, UriByte b)
    (hmajor : ∀ b ∈ major, DigitByte b) (hminor : ∀ b ∈ minor, DigitByte b) :
    ascii '\r' ∉ method ++ ascii ' ' :: ascii '/' :: path ++ bytes " HTTP/" ++ major
      ++ ascii '.' :: minor := by
  intro hmem
  simp only [List.mem_append, List.mem_cons] at hmem
  rcases hmem with (((hm | hm | hm | hm) | hm) | hm) | hm | hm
  · exact not_tokenByte_cr (hmethod _ hm)
  · exact absurd hm (by decide)
  · exact absurd hm (by decide)
  · exact (hpath _ hm).2 controlByte_cr
  · exact absurd hm (by decide)
  · exact not_digitByte_cr (hmajor _ hm)
  · exact absurd hm (by decide)
  · exact not_digitByte_cr (hminor _ hm)

namespace Request

/-- Re-serialising a parsed request without continuation lines is the identity. -/
theorem serialize_parse {s : Bytes} (hs : s ≠ []) (hgood : (parse s).parsedStatus = .good)
    (hcont : ¬HasContinuation s) : (parse s).serialize = s := by
  obtain ⟨method, path, major, minor, lines, body, hne, hmethod, hpath, hmaj, hmajor, hmin,
    hminor, hlines, heq⟩ := (parsedStatus_eq_good_iff hs).mp hgood
  -- the first folded line would be a continuation line of the text
  have hfold : ∀ l ∈ lines, ¬l.IsFolded := by
    rcases HeaderLine.exists_first_folded lines with h | ⟨pre, blanks, text, post, rfl⟩
    · exact h
    · refine absurd ?_ hcont
      obtain ⟨hbl, hblanks, -⟩ := hlines.1 (.folded blanks text) (by simp)
      obtain ⟨c, blanks, rfl⟩ := List.exists_cons_of_ne_nil hbl
      have hpre : ∀ l ∈ pre.map HeaderLine.text, l ≠ [] ∧ ascii '\r' ∉ l := by
        intro x hx
        obtain ⟨l, hl, rfl⟩ := List.mem_map.mp hx
        exact (hlines.1 l (by simp [hl])).text_spec
      have hcr := cr_notMem_requestLine hmethod hpath hmajor hminor
      have h := hasContinuation_of_folded (c := c)
        (t := blanks ++ text ++ Bytes.crlf ++ post.flatMap HeaderLine.render ++ Bytes.crlf ++ body)
        (List.cons_ne_nil _ _) (List.forall_mem_cons.mpr ⟨⟨by simp, hcr⟩, hpre⟩)
        (hblanks c (by simp))
      rw [List.flatMap_cons, HeaderLine.flatMap_text] at h
      simpa [heq, HeaderLine.render] using h
  -- so the text is the serialisation of a message with unfolded headers
  obtain ⟨headers, hfields, hpairs⟩ := exists_headerFields hlines.1 hfold
  let m : Message := ⟨method, path, major, minor, headers, body, hne, hmethod, hpath, hmaj,
    hmajor, hmin, hminor⟩
  have hm : m.serialize = s := by
    rw [heq, hfields]
    simp [m, Message.serialize, Message.uri, Message.version, Message.lines]
  obtain ⟨-, h₁, h₂, h₃, h₄, h₅, -⟩ := parse_serialize m
  rw [hm] at h₁ h₂ h₃ h₄ h₅
  rw [serialize, h₁, h₂, h₃, h₄, h₅, Message.headerPairs, ← hpairs, heq]
  simp [m, Message.uri, Message.version]

/-- **`Parse` inverts serialisation**, and serialisation inverts `Parse` on
texts without continuation lines. -/
theorem parse_inverts_serialize :
    (∀ m : Message,
      (parse m.serialize).parsedStatus = .good ∧
      (parse m.serialize).method = m.method ∧
      (parse m.serialize).uri = m.uri ∧
      (parse m.serialize).version = m.version ∧
      (parse m.serialize).headers = m.headerPairs ∧
      (parse m.serialize).body = m.body ∧
      (parse m.serialize).rawRequest = m.serialize) ∧
    ∀ s : Bytes, s ≠ [] → (parse s).parsedStatus = .good → ¬HasContinuation s →
      (parse s).serialize = s :=
  ⟨parse_serialize, fun _ hs hgood hcont => serialize_parse hs hgood hcont⟩

theorem serialize_parse_get :
    (parse (bytes "GET /a HTTP/1.1\r\nA: b\r\n\r\nc")).serialize =
      bytes "GET /a HTTP/1.1\r\nA: b\r\n\r\nc" :=
  parse_inverts_serialize.2 _ (by decide) (by decide) (by decide)

end Request
