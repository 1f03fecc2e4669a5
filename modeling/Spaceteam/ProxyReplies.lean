/-
What the proxy makes of an upstream response.

An `UpstreamResponse` is a response as a host sends it: a status line, header
lines, a blank line and a body.  However its bytes are divided into segments,
the proxy reads the status line and the header lines it consists of
(`exchange_cases`); only the fate of the body depends on the division.

* `ProxyHandler.keepsBody_iff` — when the body of the response is the one the
  host has sent;
* `ProxyHandler.keepsHeaders_iff` — when its headers are.
-/
import Spaceteam.ProxyHandler
import Spaceteam.RequestRoundTrip
import Spaceteam.Segments

open RequestHandler

/-- A text without line ends. -/
def Bytes.OneLine (s : Bytes) : Prop := ascii '\r' ∉ s ∧ ascii '\n' ∉ s

/-- A response an upstream host sends, with status code `code`; `version` is
what follows `HTTP/` and `reason` what follows the code. -/
structure UpstreamResponse where
  version : Bytes
  code : Bytes
  reason : Bytes
  lines : List Bytes
  body : Bytes
  version_word : ∀ b ∈ version, IStream.isSpace b = false
  code_ne_nil : code ≠ []
  code_digits : ∀ b ∈ code, IStream.isDigit b = true
  code_small : IStream.decimalValue code < UInt32.size
  reason_apart : reason = [] ∨ ∃ text, reason = ascii ' ' :: text
  reason_line : reason.OneLine
  lines_line : ∀ line ∈ lines, line ≠ [] ∧ line.OneLine

namespace UpstreamResponse

variable (m : UpstreamResponse)

/-- The status line without its end. -/
def statusText : Bytes := bytes "HTTP/" ++ m.version ++ ascii ' ' :: m.code ++ m.reason

/-- The header lines and the blank line. -/
def block : Bytes := m.lines.flatMap (· ++ Bytes.crlf) ++ Bytes.crlf

def render : Bytes := m.statusText ++ Bytes.crlf ++ (m.block ++ m.body)

def statusCode : UInt32 := UInt32.ofNat (IStream.decimalValue m.code)

theorem statusText_oneLine : m.statusText.OneLine := by
  have hbyte : ∀ c, IStream.isSpace c = true → IStream.isDigit c = false → c ≠ ascii ' ' →
      c ∉ bytes "HTTP/" → c ∉ m.reason → c ∉ m.statusText := by
    intro c hspace hdigit hne hhttp hreason hmem
    simp only [statusText, List.mem_append, List.mem_cons] at hmem
    rcases hmem with ((hmem | hmem) | rfl | hmem) | hmem
    · exact hhttp hmem
    · rw [m.version_word c hmem] at hspace
      cases hspace
    · exact hne rfl
    · rw [m.code_digits c hmem] at hdigit
      cases hdigit
    · exact hreason hmem
  exact ⟨hbyte _ (by decide) (by decide) (by decide) (by decide) m.reason_line.1,
    hbyte _ (by decide) (by decide) (by decide) (by decide) m.reason_line.2⟩

/-- No line end lies before the end of the status line. -/
theorem not_crlf_infix_statusText :
    ¬Bytes.crlf <:+: (m.statusText ++ Bytes.crlf).dropLast := by
  intro h
  have hdrop : (m.statusText ++ Bytes.crlf).dropLast = m.statusText ++ [ascii '\r'] := by
    rw [List.dropLast_append_of_ne_nil (by decide)]
    rfl
  have hmem : ascii '\n' ∈ m.statusText ++ [ascii '\r'] := hdrop ▸ h.subset (by decide)
  rcases List.mem_append.mp hmem with hmem | hmem
  · exact m.statusText_oneLine.2 hmem
  · exact absurd hmem (by decide)

/-- No blank line lies before the end of the header block. -/
theorem not_blankLine_infix_block :
    ¬Bytes.crlf ++ Bytes.crlf <:+: m.block.dropLast := by
  intro h
  have hdrop : m.block.dropLast = m.lines.flatMap (· ++ Bytes.crlf) ++ [ascii '\r'] := by
    rw [block, List.dropLast_append_of_ne_nil (by decide)]
    rfl
  rw [hdrop] at h
  have hlines : ∀ line ∈ m.lines, line ≠ [] ∧ ascii '\r' ∉ line :=
    fun line hline => ⟨(m.lines_line line hline).1, (m.lines_line line hline).2.1⟩
  rcases List.infix_concat_iff.mp h with hsuffix | hinfix
  · -- a blank line ends with a line feed
    obtain ⟨u, hu⟩ := hsuffix
    have hlast := congrArg List.getLast? hu
    simp [Bytes.crlf, ascii] at hlast
  · exact not_blankLine_infix hlines hinfix

end UpstreamResponse

/-- A beginning of a text that contains `d` reaches as far as the first part of
the text, when this part has no `d` before its end. -/
theorem isPrefix_of_infix {text head tail buffer d : Bytes} (htext : text = head ++ tail)
    (hbuffer : buffer <+: text) (hd : d <:+: buffer) (hhead : ¬d <:+: head.dropLast) :
    head <+: buffer := by
  have hbegins : head <+: text := ⟨tail, htext.symm⟩
  rcases le_or_gt head.length buffer.length with hle | hlt
  · exact List.prefix_of_prefix_length_le hbegins hbuffer hle
  · have hshort : buffer <+: head.dropLast := by
      refine List.prefix_of_prefix_length_le hbuffer
        ((List.dropLast_prefix head).trans hbegins) ?_
      rw [List.length_dropLast]
      omega
    exact absurd (hd.trans hshort.isInfix) hhead

namespace ProxyHandler

/-! ### The header lines -/

/-- What the proxy makes of a header line, whose carriage return it keeps. -/
def lineField (line : Bytes) : Bytes × Bytes :=
  (headerField (line ++ [ascii '\r'])).getD ([], [])

/-- No line with a carriage return after it makes `substr` throw. -/
theorem headerField_append (line : Bytes) :
    headerField (line ++ [ascii '\r']) = some (lineField line) := by
  have hsome : ∃ field, headerField (line ++ [ascii '\r']) = some field := by
    rw [headerField]
    rcases hfind : (line ++ [ascii '\r']).findFrom (ascii ':') 0 with _ | pos
    · simp [Bytes.substr]
    · obtain ⟨-, hcolon, -⟩ := Bytes.findFrom_eq_some.mp hfind
      -- the colon is not the carriage return, so there are two bytes from it on
      have hpos : pos < line.length := by
        by_contra hge
        rw [List.getElem?_append_right (by omega)] at hcolon
        obtain ⟨hlt, hval⟩ := List.getElem?_eq_some_iff.mp hcolon
        simp only [List.getElem_singleton] at hval
        exact absurd hval (by decide)
      have hle : pos + 2 ≤ (line ++ [ascii '\r']).length := by
        rw [List.length_append, List.length_singleton]
        omega
      simp only [Bytes.substr, if_pos hle, Option.map_some]
      exact ⟨_, rfl⟩
  obtain ⟨field, hfield⟩ := hsome
  rw [lineField, hfield]
  rfl

/-- The response with more headers. -/
def addFields (response : Response) (fields : Headers) : Response :=
  { response with headers := response.headers ++ fields }

/-- What a header makes of the host: the `Location` of a redirection replaces
it; `none` when `substr` throws. -/
def follow (statusCode : UInt32) (host : Bytes) (field : Bytes × Bytes) : Option Bytes :=
  if statusCode = 302 ∧ field.1 = bytes "Location" then redirectHost field.2 else some host

/-- What all of them make of it. -/
def located (statusCode : UInt32) (host : Bytes) (fields : Headers) : Option Bytes :=
  fields.foldlM (follow statusCode) host

theorem located_cons (statusCode : UInt32) (host : Bytes) (field : Bytes × Bytes)
    (fields : Headers) : located statusCode host (field :: fields) =
      (follow statusCode host field).bind fun host' => located statusCode host' fields := rfl

/-- Only a redirection is followed. -/
theorem located_of_ne {statusCode : UInt32} (hcode : statusCode ≠ 302) (host : Bytes)
    (fields : Headers) : located statusCode host fields = some host := by
  induction fields with
  | nil => rfl
  | cons field fields ih =>
    rw [located_cons, follow, if_neg (fun h => hcode h.1), Option.bind_some, ih]

/-- The header loop adds one header for each line and stops behind the blank
line, or at a `Location` it cannot follow. -/
theorem readHeaders_lines (statusCode : UInt32) {lines : List Bytes}
    (hlines : ∀ line ∈ lines, line ≠ [] ∧ line.OneLine) (rest : Bytes) (handler : ProxyHandler)
    (response : Response) :
    (∃ host, located statusCode handler.host (lines.map lineField) = some host ∧
      readHeaders statusCode
          (.ofBuffer (lines.flatMap (· ++ Bytes.crlf) ++ Bytes.crlf ++ rest)) handler response =
        .done { handler with host := host } (addFields response (lines.map lineField)) rest) ∨
    (located statusCode handler.host (lines.map lineField) = none ∧
      ∃ h', readHeaders statusCode
          (.ofBuffer (lines.flatMap (· ++ Bytes.crlf) ++ Bytes.crlf ++ rest)) handler response =
        .threw h') := by
  induction lines generalizing handler response with
  | nil =>
    have hline : (IStream.ofBuffer (Bytes.crlf ++ rest)).getline =
        (bytes "\r", .ofBuffer rest) := by
      show (IStream.ofBuffer (bytes "\r" ++ ascii '\n' :: rest)).getline = _
      exact IStream.getline_append (by decide)
    refine .inl ⟨handler.host, rfl, ?_⟩
    rw [readHeaders]
    simp only [List.flatMap_nil, List.nil_append, hline, or_true, dif_pos]
    simp [addFields, IStream.ofBuffer]
  | cons line lines ih =>
    obtain ⟨hne, hcr, hlf⟩ := hlines line List.mem_cons_self
    have hrest := fun l hl => hlines l (List.mem_cons_of_mem line hl)
    set text := lines.flatMap (· ++ Bytes.crlf) ++ Bytes.crlf ++ rest with htext
    have hbuffer : (line :: lines).flatMap (· ++ Bytes.crlf) ++ Bytes.crlf ++ rest =
        (line ++ [ascii '\r']) ++ ascii '\n' :: text := by
      simp [htext, Bytes.crlf]
    have hline : (IStream.ofBuffer ((line ++ [ascii '\r']) ++ ascii '\n' :: text)).getline =
        (line ++ [ascii '\r'], .ofBuffer text) := by
      refine IStream.getline_append fun hmem => ?_
      rcases List.mem_append.mp hmem with hmem | hmem
      · exact hlf hmem
      · exact absurd hmem (by decide)
    -- the loop ends only at the blank line
    have hgo : ¬((IStream.ofBuffer text).failbit = true ∨ line ++ [ascii '\r'] = bytes "\r") := by
      rintro (hfail | heq)
      · cases hfail
      · exact hne (List.append_cancel_right heq)
    have hadd : ∀ r, addFields (r.addHeader (lineField line).1 (lineField line).2)
        (lines.map lineField) = addFields r ((line :: lines).map lineField) := by
      intro r
      simp [addFields, Response.addHeader]
    rw [hbuffer, readHeaders, List.map_cons, located_cons, follow]
    simp only [hline, dif_neg hgo, headerField_append line]
    by_cases hlocation : statusCode = 302 ∧ (lineField line).1 = bytes "Location"
    · rw [if_pos hlocation, if_pos hlocation]
      rcases hhost : redirectHost (lineField line).2 with _ | host
      · exact .inr ⟨rfl, _, rfl⟩
      · have htail := ih hrest { handler with host := host }
          (response.addHeader (lineField line).1 (lineField line).2)
        rw [hadd] at htail
        exact htail
    · rw [if_neg hlocation, if_neg hlocation]
      have htail := ih hrest handler
        (response.addHeader (lineField line).1 (lineField line).2)
      rw [hadd] at htail
      exact htail

/-! ### The two reads -/

theorem readUntil_eq (delim buffer : Bytes) (segments : List Bytes) :
    readUntil delim buffer segments = Segments.readUntil (delim <:+: ·) buffer segments := by
  induction segments generalizing buffer with
  | nil => simp [readUntil, Segments.readUntil, Bytes.contains_iff]
  | cons segment segments ih =>
    simp only [readUntil, Segments.readUntil, Bytes.contains_iff, ih]

section Reads

variable (m : UpstreamResponse)

/-- The first read ends behind the status line. -/
theorem readUntil_statusLine {segments : List Bytes} (h : segments.flatten = m.render) :
    ∃ early late t, segments = early ++ late ∧
      early.flatten = m.statusText ++ Bytes.crlf ++ t ∧
      t ++ late.flatten = m.block ++ m.body ∧
      readUntil Bytes.crlf [] segments = some (m.statusText ++ Bytes.crlf ++ t, late) := by
  rw [readUntil_eq]
  rcases hread : Segments.readUntil (Bytes.crlf <:+: ·) [] segments with _ | ⟨buffer, late⟩
  · have hall := Segments.readUntil_eq_none hread (List.append_nil segments).symm
    rw [List.nil_append, h] at hall
    exact absurd ⟨m.statusText, m.block ++ m.body, rfl⟩ hall
  · obtain ⟨early, rfl, hbuffer, hcrlf⟩ := Segments.readUntil_eq_some hread
    rw [List.nil_append] at hbuffer
    rw [List.flatten_append] at h
    have htext : early.flatten ++ late.flatten =
        m.statusText ++ Bytes.crlf ++ (m.block ++ m.body) := h
    -- what has been read contains the end of the status line
    have hbegins : m.statusText ++ Bytes.crlf <+: buffer :=
      isPrefix_of_infix htext ⟨late.flatten, by rw [hbuffer]⟩ hcrlf m.not_crlf_infix_statusText
    obtain ⟨t, ht⟩ := hbegins
    refine ⟨early, late, t, rfl, by rw [← hbuffer, ht], ?_, by rw [ht]⟩
    rw [← hbuffer, ← ht, List.append_assoc, UpstreamResponse.render] at h
    exact List.append_cancel_left h

/-- The second read ends behind the blank line, if there is one. -/
theorem readUntil_block {t : Bytes} {segments : List Bytes}
    (h : t ++ segments.flatten = m.block ++ m.body) :
    (¬Bytes.crlf ++ Bytes.crlf <:+: m.block ++ m.body ∧
      readUntil (Bytes.crlf ++ Bytes.crlf) t segments = none) ∨
    ∃ early late rest, segments = early ++ late ∧ t ++ early.flatten = m.block ++ rest ∧
      rest ++ late.flatten = m.body ∧ Bytes.crlf ++ Bytes.crlf <:+: m.block ++ rest ∧
      readUntil (Bytes.crlf ++ Bytes.crlf) t segments = some (m.block ++ rest, late) := by
  rw [readUntil_eq]
  rcases hread : Segments.readUntil (Bytes.crlf ++ Bytes.crlf <:+: ·) t segments with
    _ | ⟨buffer, late⟩
  · have hall := Segments.readUntil_eq_none hread (List.append_nil segments).symm
    rw [h] at hall
    exact .inl ⟨hall, rfl⟩
  · obtain ⟨early, rfl, rfl, hblank⟩ := Segments.readUntil_eq_some hread
    rw [List.flatten_append, ← List.append_assoc] at h
    have hbegins : m.block <+: t ++ early.flatten :=
      isPrefix_of_infix h ⟨late.flatten, rfl⟩ hblank m.not_blankLine_infix_block
    obtain ⟨rest, hrest⟩ := hbegins
    refine .inr ⟨early, late, rest, rfl, hrest.symm, ?_, hrest ▸ hblank, by rw [hrest]⟩
    rw [← hrest, List.append_assoc] at h
    exact List.append_cancel_left h

/-- Bytes are still to come when the blank line has arrived. -/
def LeavesBytes (segments : List Bytes) : Prop :=
  ∃ early late, segments = early ++ late ∧ late.flatten ≠ [] ∧
    ∃ t, early.flatten = m.statusText ++ Bytes.crlf ++ t ∧ Bytes.crlf ++ Bytes.crlf <:+: t

/-- Both reads together leave all that comes behind a blank line. -/
theorem leavesBytes_iff {early middle late : List Bytes} {t : Bytes} {b : Bytes × List Bytes}
    (hfirst : readUntil Bytes.crlf [] (early ++ (middle ++ late)) =
      some (m.statusText ++ Bytes.crlf ++ t, middle ++ late))
    (ht : early.flatten = m.statusText ++ Bytes.crlf ++ t)
    (hblank : Bytes.crlf ++ Bytes.crlf <:+: t ++ middle.flatten)
    (hsecond : readUntil (Bytes.crlf ++ Bytes.crlf) t (middle ++ late) = some (b.1, late)) :
    LeavesBytes m (early ++ (middle ++ late)) ↔ late.flatten ≠ [] := by
  constructor
  · rintro ⟨e, l, hsplit, hl, u, hu, hinfix⟩ hnil
    rw [readUntil_eq] at hfirst hsecond
    -- the first read leaves at least `l`, and so does the second
    have hcrlf : Bytes.crlf <:+: [] ++ e.flatten := ⟨m.statusText, u, by simp [hu]⟩
    obtain ⟨e', he'⟩ := Segments.readUntil_least hfirst hsplit hcrlf
    have he : e = early ++ e' := by
      rw [← he', ← List.append_assoc] at hsplit
      exact (List.append_cancel_right hsplit).symm
    have hu' : u = t ++ e'.flatten := by
      rw [he, List.flatten_append, ht, List.append_assoc] at hu
      exact (List.append_cancel_left hu).symm
    have hsuffix := Segments.readUntil_least hsecond he'.symm (hu' ▸ hinfix)
    obtain ⟨e'', he''⟩ := hsuffix
    rw [← he'', List.flatten_append] at hnil
    exact hl (List.append_eq_nil_iff.mp hnil).2
  · intro hne
    refine ⟨early ++ middle, late, by simp, hne, t ++ middle.flatten, ?_, hblank⟩
    rw [List.flatten_append, ht, List.append_assoc]

/-- The status line read from the buffer. -/
theorem extract_statusLine (t : Bytes) : ∃ word message stream₁ stream₂,
    (IStream.ofBuffer (m.statusText ++ Bytes.crlf ++ t)).extractWord = (word, stream₁) ∧
      word.take 5 = bytes "HTTP/" ∧ stream₁.extractUnsigned = (m.statusCode, stream₂) ∧
      stream₂.getline = (message, .ofBuffer t) := by
  -- the byte behind the code is a space or a carriage return
  have hbehind : ∃ c text, m.reason ++ Bytes.crlf ++ t = c :: text ∧ IStream.isDigit c = false := by
    rcases m.reason_apart with hnil | ⟨text, htext⟩
    · exact ⟨ascii '\r', ascii '\n' :: t, by rw [hnil]; rfl, by decide⟩
    · exact ⟨ascii ' ', text ++ Bytes.crlf ++ t, by rw [htext]; rfl, by decide⟩
  obtain ⟨c, text, hreason, hc⟩ := hbehind
  have hbuffer : m.statusText ++ Bytes.crlf ++ t =
      (bytes "HTTP/" ++ m.version) ++ ascii ' ' :: (m.code ++ c :: text) := by
    rw [← hreason]
    simp [UpstreamResponse.statusText]
  have hhttp : ∀ b ∈ bytes "HTTP/", IStream.isSpace b = false := by
    simp [bytes, ascii, IStream.isSpace]
  have hword : ∀ b ∈ bytes "HTTP/" ++ m.version, IStream.isSpace b = false := by
    intro b hb
    rcases List.mem_append.mp hb with hb | hb
    · exact hhttp b hb
    · exact m.version_word b hb
  refine ⟨bytes "HTTP/" ++ m.version, m.reason ++ [ascii '\r'],
    .ofBuffer (ascii ' ' :: m.code ++ c :: text), .ofBuffer (c :: text), ?_, rfl, ?_, ?_⟩
  · rw [hbuffer]
    exact IStream.extractWord_append (List.append_ne_nil_of_left_ne_nil (by decide) _) hword rfl
  · exact IStream.extractUnsigned_append m.code_ne_nil m.code_digits m.code_small hc
  · have hline : m.reason ++ Bytes.crlf ++ t = (m.reason ++ [ascii '\r']) ++ ascii '\n' :: t := by
      simp [Bytes.crlf]
    rw [← hreason, hline]
    refine IStream.getline_append fun hmem => ?_
    rcases List.mem_append.mp hmem with hmem | hmem
    · exact m.reason_line.2 hmem
    · exact absurd hmem (by decide)

theorem statusCode_ne {n : ℕ} (hn : n < UInt32.size)
    (h : IStream.decimalValue m.code ≠ n) : m.statusCode ≠ UInt32.ofNat n := by
  intro heq
  have hnat := congrArg UInt32.toNat heq
  rw [UpstreamResponse.statusCode, UInt32.toNat_ofNat_of_lt' m.code_small,
    UInt32.toNat_ofNat_of_lt' hn] at hnat
  exact h hnat

/-- The host sends the response and closes the connection. -/
def Delivers (reply : Reply) : Prop :=
  reply.segments.flatten = m.render ∧ reply.ending = .eof

variable {m}

/-- What becomes of the response when one pass reads `m`. -/
structure Answers (m : UpstreamResponse) (segments : List Bytes)
    (response response' : Response) : Prop where
  headers : response'.headers = response.headers ++ m.lines.map lineField
  status : response'.HasStatus
  rawStatus : response'.rawStatus =
    if IStream.decimalValue m.code = 200 then .ok else .notFound
  late : LeavesBytes m segments → response'.body = m.body
  early : ¬LeavesBytes m segments → response'.body = response.body

theorem statusCode_eq_iff {n : ℕ} (hn : n < UInt32.size) :
    m.statusCode = UInt32.ofNat n ↔ IStream.decimalValue m.code = n := by
  constructor
  · intro h
    by_contra hne
    exact statusCode_ne m hn hne h
  · intro h
    rw [UpstreamResponse.statusCode, h]

/-- How a pass ends that has read the whole of `m`. -/
def pass (m : UpstreamResponse) (handler : ProxyHandler) (response : Response) : Exchange :=
  if IStream.decimalValue m.code = 302 then .again handler response
  else .returned .ok handler response

/-- The response when the header lines of `m` have been read. -/
def answered (m : UpstreamResponse) (response : Response) : Response :=
  addFields (response.setStatus (if m.statusCode = 200 then .ok else .notFound))
    (m.lines.map lineField)

/-- It answers `m` when the late bytes, if any, have become its body. -/
theorem answers_answered {segments rest : List Bytes} {b : Bytes}
    (hleaves : LeavesBytes m segments ↔ rest.flatten ≠ []) (hb : b ++ rest.flatten = m.body)
    (response : Response) :
    Answers m segments response
      (if rest.flatten.isEmpty then answered m response
        else (answered m response).setBody (b ++ rest.flatten)) where
  headers := by split_ifs <;> rfl
  status := by split_ifs <;> rfl
  rawStatus := by
    have hstatus : (answered m response).rawStatus =
        if IStream.decimalValue m.code = 200 then .ok else .notFound :=
      if_congr (statusCode_eq_iff (n := 200) (by decide)) rfl rfl
    rw [← hstatus]
    split_ifs <;> rfl
  late := by
    rw [hleaves]
    intro hlate
    simp [hlate, Response.setBody, hb]
  early := by
    rw [hleaves, not_not]
    intro hnil
    simp [hnil, answered, addFields, Response.setStatus]

/-- **What becomes of a response.**  The call throws when there is no blank
line behind the status line or a `Location` cannot be followed; otherwise it
has the header lines, and the body if some of it arrives late. -/
theorem exchange_delivers {reply : Reply} (hreply : Delivers m reply) (handler : ProxyHandler)
    (response : Response) :
    (¬Bytes.crlf ++ Bytes.crlf <:+: m.block ++ m.body ∧
      exchange reply handler response = .threw handler) ∨
    (located m.statusCode handler.host (m.lines.map lineField) = none ∧
      ∃ h', exchange reply handler response = .threw h') ∨
    ∃ host response', Bytes.crlf ++ Bytes.crlf <:+: m.block ++ m.body ∧
      located m.statusCode handler.host (m.lines.map lineField) = some host ∧
      exchange reply handler response = pass m { handler with host := host } response' ∧
      Answers m reply.segments response response' := by
  obtain ⟨segments, ending⟩ := reply
  obtain ⟨hsegments, rfl⟩ := hreply
  obtain ⟨early, late, t, rfl, hearly, ht, hfirst⟩ := readUntil_statusLine m hsegments
  obtain ⟨word, message, stream₁, stream₂, hword, hhttp, hunsigned, hline⟩ :=
    extract_statusLine m t
  rw [exchange, show bytes "\r\n" = Bytes.crlf from rfl,
    show bytes "\r\n\r\n" = Bytes.crlf ++ Bytes.crlf from rfl]
  simp only [hfirst, hword, hunsigned, hline, hhttp]
  rcases readUntil_block m ht with
    ⟨hblank, hnone⟩ | ⟨middle, rest, b, rfl, hmiddle, hb, hblank, hsome⟩
  · refine .inl ⟨hblank, ?_⟩
    simp [IStream.ofBuffer, hnone]
  · have hleaves := leavesBytes_iff m (b := (m.block ++ b, rest)) hfirst hearly
      (hmiddle ▸ hblank) hsome
    have hwhole : Bytes.crlf ++ Bytes.crlf <:+: m.block ++ m.body := by
      rw [← hb, ← List.append_assoc]
      exact hblank.trans (List.prefix_append _ _).isInfix
    rcases readHeaders_lines m.statusCode m.lines_line b handler
        (response.setStatus (if m.statusCode = 200 then .ok else .notFound)) with
      ⟨host, hlocated, hdone⟩ | ⟨hlocated, h', hthrew⟩
    · have hdone' : readHeaders m.statusCode (.ofBuffer (m.block ++ b)) handler
          (response.setStatus (if m.statusCode = 200 then .ok else .notFound)) =
            .done { handler with host := host } (answered m response) b := hdone
      simp only [IStream.ofBuffer] at hdone'
      refine .inr (.inr ⟨host, _, hwhole, hlocated, ?_, answers_answered hleaves hb response⟩)
      have hcode : m.statusCode = 302 ↔ IStream.decimalValue m.code = 302 :=
        statusCode_eq_iff (n := 302) (by decide)
      by_cases h302 : IStream.decimalValue m.code = 302
      · simp [IStream.ofBuffer, hsome, hdone', readBody_eof, hcode, pass, h302]
      · simp [IStream.ofBuffer, hsome, hdone', readBody_eof, hcode, pass, h302]
    · have hthrew' : readHeaders m.statusCode (.ofBuffer (m.block ++ b)) handler
          (response.setStatus (if m.statusCode = 200 then .ok else .notFound)) = .threw h' := hthrew
      simp only [IStream.ofBuffer] at hthrew'
      refine .inr (.inl ⟨hlocated, h', ?_⟩)
      simp [IStream.ofBuffer, hsome, hthrew']

/-- A response that is not a redirection ends the call. -/
theorem exchange_cases {reply : Reply} (hreply : Delivers m reply)
    (hcode : IStream.decimalValue m.code ≠ 302) (handler : ProxyHandler) (response : Response) :
    (¬Bytes.crlf ++ Bytes.crlf <:+: m.block ++ m.body ∧
      exchange reply handler response = .threw handler) ∨
    ∃ response', Bytes.crlf ++ Bytes.crlf <:+: m.block ++ m.body ∧
      exchange reply handler response = .returned .ok handler response' ∧
      Answers m reply.segments response response' := by
  have hlocated := located_of_ne (mt (statusCode_eq_iff (n := 302) (by decide)).mp hcode)
    handler.host (m.lines.map lineField)
  rcases exchange_delivers hreply handler response with
    hthrew | ⟨hnone, -⟩ | ⟨host, response', hblank, hsome, hexchange, hanswers⟩
  · exact .inl hthrew
  · rw [hlocated] at hnone
    cases hnone
  · obtain rfl := Option.some_inj.mp (hlocated.symm.trans hsome)
    rw [pass, if_neg hcode] at hexchange
    exact .inr ⟨response', hblank, hexchange, hanswers⟩

end Reads

/-! ### The body -/

section Fidelity

variable {upstream : Upstream} {request : Request} {handler h : ProxyHandler}
  {response r : Response} {n : ℕ} {reply : Reply} {m : UpstreamResponse}

/-- A call that returns OK has the body of `m` in its response. -/
def KeepsBody (upstream : Upstream) (request : Request) (handler : ProxyHandler)
    (response : Response) (m : UpstreamResponse) : Prop :=
  ∀ fuel h' r', handleRequest upstream fuel handler request response = .returned .ok r' h' →
    r'.body = m.body

/-- What a call comes to that ends at a reply which is not a redirection. -/
theorem returned_cases (hreach : Reaches upstream request handler response n h r)
    (hreply : upstream n h.host (h.upstreamRequest (h.target request.uri)) = some reply)
    (hdelivers : Delivers m reply) (hcode : IStream.decimalValue m.code ≠ 302) :
    (¬Bytes.crlf ++ Bytes.crlf <:+: m.block ++ m.body ∧ ∀ fuel h' r',
      handleRequest upstream fuel handler request response ≠ .returned .ok r' h') ∨
    ∃ response', Bytes.crlf ++ Bytes.crlf <:+: m.block ++ m.body ∧
      (∃ fuel, handleRequest upstream fuel handler request response =
        .returned .ok response' h) ∧
      (∀ fuel h' r', handleRequest upstream fuel handler request response =
        .returned .ok r' h' → r' = response') ∧
      Answers m reply.segments r response' := by
  rcases exchange_cases hdelivers hcode h r with
    ⟨hblank, hthrew⟩ | ⟨response', hblank, hreturned, hanswers⟩
  · have hends : ∀ h' r', exchange reply h r ≠ .again h' r' := by simp [hthrew]
    refine .inl ⟨hblank, fun fuel h' r' hout => ?_⟩
    have hexchange := (hreach.returned_iff hreply hends .ok h' r').mp ⟨fuel, hout⟩
    rw [hthrew] at hexchange
    cases hexchange
  · have hends : ∀ h' r', exchange reply h r ≠ .again h' r' := by simp [hreturned]
    refine .inr ⟨response', hblank,
      (hreach.returned_iff hreply hends .ok h response').mpr hreturned, fun fuel h' r' hout => ?_,
      hanswers⟩
    have hexchange := (hreach.returned_iff hreply hends .ok h' r').mp ⟨fuel, hout⟩
    rw [hreturned] at hexchange
    cases hexchange
    rfl

/-- A header line, its end and the blank line after the last one. -/
theorem blankLine_of_lines (h : m.lines ≠ []) :
    Bytes.crlf ++ Bytes.crlf <:+: m.block ++ m.body := by
  obtain ⟨init, last, hlines⟩ := List.eq_nil_or_concat' m.lines |>.resolve_left h
  refine ⟨init.flatMap (· ++ Bytes.crlf) ++ last, m.body, ?_⟩
  rw [UpstreamResponse.block, hlines]
  simp

/-- The whole response in hand when the blank line is: the body stays behind. -/
theorem not_keepsBody (hreach : Reaches upstream request handler response n h r)
    (hreply : upstream n h.host (h.upstreamRequest (h.target request.uri)) = some reply)
    (hdelivers : Delivers m reply) (hcode : IStream.decimalValue m.code ≠ 302)
    (hblank : Bytes.crlf ++ Bytes.crlf <:+: m.block ++ m.body)
    (hleaves : ¬LeavesBytes m reply.segments) (hbody : m.body ≠ r.body) :
    ¬KeepsBody upstream request handler response m := by
  intro hkeeps
  rcases returned_cases hreach hreply hdelivers hcode with
    ⟨hno, -⟩ | ⟨response', -, ⟨fuel, hout⟩, -, hanswers⟩
  · exact hno hblank
  · exact hbody ((hkeeps fuel h response' hout).symm.trans (hanswers.early hleaves))

/-- **When the body is kept**: bytes of the response are still to come when its
blank line has arrived, or the body is the one the response had already, or
there is no blank line and the call throws. -/
theorem keepsBody_iff (hreach : Reaches upstream request handler response n h r)
    (hreply : upstream n h.host (h.upstreamRequest (h.target request.uri)) = some reply)
    (hdelivers : Delivers m reply) (hcode : IStream.decimalValue m.code ≠ 302) :
    KeepsBody upstream request handler response m ↔
      LeavesBytes m reply.segments ∨ m.body = r.body ∨
        ¬Bytes.crlf ++ Bytes.crlf <:+: m.block ++ m.body := by
  constructor
  · intro hkeeps
    by_contra hnone
    simp only [not_or, not_not] at hnone
    exact not_keepsBody hreach hreply hdelivers hcode hnone.2.2 hnone.1 hnone.2.1 hkeeps
  · intro hcond fuel h' r' hout
    rcases returned_cases hreach hreply hdelivers hcode with
      ⟨-, hnever⟩ | ⟨response', hblank, -, hunique, hanswers⟩
    · exact absurd hout (hnever fuel h' r')
    · obtain rfl := hunique fuel h' r' hout
      by_cases hleaves : LeavesBytes m reply.segments
      · exact hanswers.late hleaves
      · rcases hcond with hcond | hbody | hno
        · exact absurd hcond hleaves
        · exact (hanswers.early hleaves).trans hbody.symm
        · exact absurd hblank hno

theorem not_leavesBytes_singleton (segment : Bytes) : ¬LeavesBytes m [segment] := by
  rintro ⟨early, late, hsplit, hlate, t, hearly, -⟩
  rcases List.append_eq_singleton_iff.mp hsplit.symm with ⟨rfl, -⟩ | ⟨-, rfl⟩
  · simp [UpstreamResponse.statusText] at hearly
  · exact hlate rfl

end Fidelity

/-- A response with one header and the body `x`. -/
def greeting : UpstreamResponse where
  version := bytes "1.1"
  code := bytes "200"
  reason := bytes " OK"
  lines := [bytes "A: b"]
  body := bytes "x"
  version_word := by simp [bytes, ascii, IStream.isSpace]
  code_ne_nil := by decide
  code_digits := by simp [bytes, ascii, IStream.isDigit]
  code_small := by decide
  reason_apart := .inr ⟨bytes "OK", rfl⟩
  reason_line := ⟨by decide, by decide⟩
  lines_line := List.forall_mem_singleton.mpr ⟨by decide, by decide, by decide⟩

/-- Every host answers with these segments. -/
def answering (segments : List Bytes) : Upstream := fun _ _ _ => some ⟨segments, .eof⟩

def proxy : ProxyHandler := ⟨bytes "/proxy", bytes "example", bytes "80"⟩

def getA : Request := Request.parse (bytes "GET /proxy/a HTTP/1.1\r\n\r\n")

/-- The body arrives in a segment of its own. -/
theorem keepsBody_iff_greeting :
    KeepsBody (answering [greeting.statusText ++ Bytes.crlf ++ greeting.block, greeting.body])
        getA proxy (.fresh .ok) greeting ↔
      LeavesBytes greeting [greeting.statusText ++ Bytes.crlf ++ greeting.block, greeting.body] ∨
        greeting.body = (Response.fresh .ok).body ∨
        ¬Bytes.crlf ++ Bytes.crlf <:+: greeting.block ++ greeting.body := by
  have hdelivers : Delivers greeting
      ⟨[greeting.statusText ++ Bytes.crlf ++ greeting.block, greeting.body], .eof⟩ :=
    ⟨by simp [UpstreamResponse.render], rfl⟩
  exact keepsBody_iff .start rfl hdelivers (by decide)

/-- It arrives together with all the rest. -/
theorem not_keepsBody_greeting :
    IStream.decimalValue greeting.code ≠ 302 ∧
      Delivers greeting ⟨[greeting.render], .eof⟩ ∧
      ¬KeepsBody (answering [greeting.render]) getA proxy (.fresh .ok) greeting := by
  have hdelivers : Delivers greeting ⟨[greeting.render], .eof⟩ := ⟨List.flatten_singleton, rfl⟩
  have hblank : Bytes.crlf ++ Bytes.crlf <:+: greeting.block ++ greeting.body :=
    ⟨bytes "A: b", bytes "x", rfl⟩
  exact ⟨by decide, hdelivers, not_keepsBody .start rfl hdelivers (by decide) hblank
    (not_leavesBytes_singleton _) (by decide)⟩

/-! ### The headers -/

/-- A header line without its end, as `ToString` writes it. -/
def fieldLine (header : Bytes × Bytes) : Bytes := header.1 ++ bytes ": " ++ header.2

/-- The header has a token for its name and a value without line ends. -/
def WellFormedField (header : Bytes × Bytes) : Prop :=
  header.1 ≠ [] ∧ (∀ b ∈ header.1, TokenByte b) ∧ header.2.OneLine

theorem WellFormedField.oneLine {header : Bytes × Bytes} (h : WellFormedField header) :
    (fieldLine header).OneLine := by
  obtain ⟨-, hname, hvalue⟩ := h
  have hbyte : ∀ c, ¬TokenByte c → c ∉ bytes ": " → c ∉ header.2 → c ∉ fieldLine header := by
    intro c htoken hcolon hval hmem
    simp only [fieldLine, List.mem_append] at hmem
    rcases hmem with (hmem | hmem) | hmem
    · exact htoken (hname c hmem)
    · exact hcolon hmem
    · exact hval hmem
  exact ⟨hbyte _ (by decide) (by decide) hvalue.1, hbyte _ (by decide) (by decide) hvalue.2⟩

/-- **The carriage return goes into the value.** -/
theorem lineField_fieldLine {header : Bytes × Bytes} (h : WellFormedField header) :
    lineField (fieldLine header) = (header.1, header.2 ++ [ascii '\r']) := by
  obtain ⟨name, value⟩ := header
  have hname : ascii ':' ∉ name := fun hmem => not_tokenByte_colon (h.2.1 _ hmem)
  have hline : fieldLine (name, value) ++ [ascii '\r'] =
      name ++ ascii ':' :: (ascii ' ' :: value ++ [ascii '\r']) := by
    simp [fieldLine, bytes]
  have hcolon : (fieldLine (name, value) ++ [ascii '\r']).findFrom (ascii ':') 0 =
      some name.length := by
    rw [hline]
    exact Bytes.findFrom_append hname
  rw [lineField, headerField, hcolon]
  simp [fieldLine, Bytes.substr, bytes]

/-- So no header is read as it was sent. -/
theorem eq_nil_of_map_lineField {headers : Headers}
    (hheaders : ∀ header ∈ headers, WellFormedField header)
    (h : (headers.map fieldLine).map lineField = headers) : headers = [] := by
  by_contra hne
  obtain ⟨init, last, rfl⟩ := List.eq_nil_or_concat' headers |>.resolve_left hne
  rw [List.map_map, List.map_append] at h
  have hlast := congrArg List.getLast? h
  simp only [List.map_cons, List.map_nil, List.getLast?_concat, Function.comp_apply,
    lineField_fieldLine (hheaders last (by simp)), Option.some_inj] at hlast
  have hvalue : last.2 ++ [ascii '\r'] = last.2 := congrArg Prod.snd hlast
  simp at hvalue

/-- Lines that are not empty are told apart by the ends between them. -/
theorem eq_of_flatMap_crlf {lines lines' : List Bytes}
    (h : ∀ line ∈ lines, line ≠ [] ∧ line.OneLine) (h' : ∀ line ∈ lines', line ≠ [] ∧ line.OneLine)
    (heq : lines.flatMap (· ++ Bytes.crlf) = lines'.flatMap (· ++ Bytes.crlf)) :
    lines = lines' := by
  have hpieces : ∀ {lines : List Bytes}, (∀ line ∈ lines, line ≠ [] ∧ line.OneLine) →
      Delimited.pieces Bytes.crlf (lines.flatMap (· ++ Bytes.crlf) ++ Bytes.crlf ++ []) =
        some (lines, []) := by
    intro lines hlines
    exact Delimited.pieces_flatMap
      (fun line hline => ⟨(hlines line hline).1, (hlines line hline).2.1⟩) []
  have hsame := hpieces h
  rw [heq, hpieces h'] at hsame
  exact (Prod.mk.inj (Option.some_inj.mp hsame)).1.symm

section Headers

variable {upstream : Upstream} {request : Request} {handler h : ProxyHandler}
  {response r : Response} {n : ℕ} {reply : Reply} {m : UpstreamResponse} {headers : Headers}

/-- The header block is the one `ToString` writes for these headers. -/
def SendsHeaders (m : UpstreamResponse) (headers : Headers) : Prop :=
  m.block = headers.flatMap Response.headerLine ++ Bytes.crlf

theorem lines_of_sendsHeaders (hsends : SendsHeaders m headers)
    (hheaders : ∀ header ∈ headers, WellFormedField header) :
    m.lines = headers.map fieldLine := by
  have hblock : (headers.map fieldLine).flatMap (· ++ Bytes.crlf) =
      headers.flatMap Response.headerLine := by
    rw [List.flatMap_map]
    rfl
  refine eq_of_flatMap_crlf m.lines_line ?_ ?_
  · intro line hline
    obtain ⟨header, hheader, rfl⟩ := List.mem_map.mp hline
    exact ⟨by simp [fieldLine, bytes], (hheaders header hheader).oneLine⟩
  · rw [hblock]
    exact List.append_cancel_right hsends

/-- A call that ends at `m` with OK adds its headers and writes its block again. -/
def KeepsHeaders (upstream : Upstream) (request : Request) (handler : ProxyHandler)
    (response r : Response) (m : UpstreamResponse) (headers : Headers) : Prop :=
  ∀ fuel h' r', handleRequest upstream fuel handler request response = .returned .ok r' h' →
    r'.headers = r.headers ++ headers ∧
      (r.headers = [] → r'.headers.flatMap Response.headerLine ++ Bytes.crlf = m.block)

/-- Any header at all is changed. -/
theorem not_keepsHeaders (hreach : Reaches upstream request handler response n h r)
    (hreply : upstream n h.host (h.upstreamRequest (h.target request.uri)) = some reply)
    (hdelivers : Delivers m reply) (hcode : IStream.decimalValue m.code ≠ 302)
    (hsends : SendsHeaders m headers) (hheaders : ∀ header ∈ headers, WellFormedField header)
    (hne : headers ≠ []) : ¬KeepsHeaders upstream request handler response r m headers := by
  intro hkeeps
  have hlines := lines_of_sendsHeaders hsends hheaders
  have hblank : Bytes.crlf ++ Bytes.crlf <:+: m.block ++ m.body :=
    blankLine_of_lines (by simp [hlines, hne])
  rcases returned_cases hreach hreply hdelivers hcode with
    ⟨hno, -⟩ | ⟨response', -, ⟨fuel, hout⟩, -, hanswers⟩
  · exact hno hblank
  · have hadds := (hkeeps fuel h response' hout).1
    rw [hanswers.headers, hlines] at hadds
    exact hne (eq_nil_of_map_lineField hheaders (List.append_cancel_left hadds))

/-- **When the headers are kept**: there are none. -/
theorem keepsHeaders_iff (hreach : Reaches upstream request handler response n h r)
    (hreply : upstream n h.host (h.upstreamRequest (h.target request.uri)) = some reply)
    (hdelivers : Delivers m reply) (hcode : IStream.decimalValue m.code ≠ 302)
    (hsends : SendsHeaders m headers) (hheaders : ∀ header ∈ headers, WellFormedField header) :
    KeepsHeaders upstream request handler response r m headers ↔ headers = [] := by
  constructor
  · intro hkeeps
    by_contra hne
    exact not_keepsHeaders hreach hreply hdelivers hcode hsends hheaders hne hkeeps
  · rintro rfl fuel h' r' hout
    have hlines : m.lines = [] := lines_of_sendsHeaders hsends hheaders
    rcases returned_cases hreach hreply hdelivers hcode with
      ⟨-, hnever⟩ | ⟨response', -, -, hunique, hanswers⟩
    · exact absurd hout (hnever fuel h' r')
    · obtain rfl := hunique fuel h' r' hout
      have hfields := hanswers.headers
      rw [hlines] at hfields
      refine ⟨hfields, fun hnil => ?_⟩
      rw [hfields, hnil, hsends]
      rfl

end Headers

theorem wellFormedField_greeting :
    ∀ header ∈ [(bytes "A", bytes "b")], WellFormedField header :=
  List.forall_mem_singleton.mpr
    ⟨by decide, List.forall_mem_singleton.mpr (by decide), by decide, by decide⟩

theorem keepsHeaders_iff_greeting :
    KeepsHeaders (answering [greeting.render]) getA proxy (.fresh .ok) (.fresh .ok) greeting
      [(bytes "A", bytes "b")] ↔ [(bytes "A", bytes "b")] = [] := by
  have hdelivers : Delivers greeting ⟨[greeting.render], .eof⟩ := ⟨List.flatten_singleton, rfl⟩
  exact keepsHeaders_iff .start rfl hdelivers (by decide) rfl wellFormedField_greeting

theorem not_keepsHeaders_greeting :
    (∀ header ∈ [(bytes "A", bytes "b")], WellFormedField header) ∧
      SendsHeaders greeting [(bytes "A", bytes "b")] ∧
      ¬KeepsHeaders (answering [greeting.render]) getA proxy (.fresh .ok) (.fresh .ok) greeting
        [(bytes "A", bytes "b")] := by
  have hdelivers : Delivers greeting ⟨[greeting.render], .eof⟩ := ⟨List.flatten_singleton, rfl⟩
  exact ⟨wellFormedField_greeting, rfl, not_keepsHeaders .start rfl hdelivers (by decide) rfl
    wellFormedField_greeting (by decide)⟩

end ProxyHandler
