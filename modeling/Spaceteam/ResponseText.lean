/-
Reading a serialised response (`response.cc`).

`Response.toString` writes a status line, header lines, a blank line and the
body.  `Response.decode` reads them: the status line up to the first CRLF, the
header lines up to the first empty one, each cut at its first `": "`, and the
rest.

* `Response.uniquely_decodable` — what is read from a serialised response is
  what it was made of, when the headers keep to their lines.
-/
import Spaceteam.Delimited
import Spaceteam.Response

namespace Response

/-- The status line, the headers and the body read from a text; `none` when it
ends before them or a header line has no `": "`. -/
def decode (text : Bytes) : Option (Bytes × List (Bytes × Bytes) × Bytes) := do
  let (status, rest) ← Delimited.cut Bytes.crlf text
  let (lines, body) ← Delimited.pieces Bytes.crlf rest
  let headers ← lines.mapM (Delimited.cut (bytes ": "))
  return (status, headers, body)

/-- The name has no colon, and neither the name nor the value a line end. -/
def KeepsToLine (header : Bytes × Bytes) : Prop :=
  (ascii ':' ∉ header.1 ∧ ascii '\r' ∉ header.1 ∧ ascii '\n' ∉ header.1) ∧
    ascii '\r' ∉ header.2 ∧ ascii '\n' ∉ header.2

instance : DecidablePred KeepsToLine := fun _ => inferInstanceAs (Decidable (_ ∧ _))

/-- A header without its line end, as `ToString` writes it. -/
def headerText (header : Bytes × Bytes) : Bytes := header.1 ++ bytes ": " ++ header.2

theorem cut_headerText {header : Bytes × Bytes} (h : KeepsToLine header) :
    Delimited.cut (bytes ": ") (headerText header) = some header :=
  Delimited.cut_append h.1.1 header.2

/-- A header line is not empty, whatever the header, and has one line end. -/
theorem headerText_line {header : Bytes × Bytes} (h : KeepsToLine header) :
    headerText header ≠ [] ∧ ascii '\r' ∉ headerText header := by
  obtain ⟨⟨-, hname, -⟩, hvalue, -⟩ := h
  refine ⟨by simp [headerText, bytes], fun hmem => ?_⟩
  simp only [headerText, List.mem_append] at hmem
  rcases hmem with (hmem | hmem) | hmem
  · exact hname hmem
  · exact absurd hmem (by decide)
  · exact hvalue hmem

theorem mapM_cut_headerText {headers : List (Bytes × Bytes)}
    (h : ∀ header ∈ headers, KeepsToLine header) :
    (headers.map headerText).mapM (Delimited.cut (bytes ": ")) = some headers := by
  induction headers with
  | nil => rfl
  | cons header headers ih =>
    have hfirst := cut_headerText (h header List.mem_cons_self)
    have hothers := ih fun other hmem => h other (List.mem_cons_of_mem header hmem)
    rw [List.map_cons, List.mapM_cons, hfirst, hothers]
    rfl

/-- No status line has a carriage return. -/
theorem not_mem_statusLine (code : ResponseCode) : ascii '\r' ∉ code.statusLine := by
  cases code with
  | ok => decide
  | notFound => decide
  | internalServerError => decide
  | redirect => decide
  | unlisted value =>
    show ascii '\r' ∉ bytes "HTTP/1.1 500 Internal Server Error"
    decide

theorem decode_toString {r : Response} (hstatus : r.HasStatus)
    (hheaders : ∀ header ∈ r.headers, KeepsToLine header) :
    decode r.toString = some (r.status, r.headers, r.body) := by
  have hline : ascii '\r' ∉ r.status := hstatus ▸ not_mem_statusLine r.rawStatus
  have hlines : ∀ line ∈ r.headers.map headerText, line ≠ [] ∧ ascii '\r' ∉ line := by
    intro line hmem
    obtain ⟨header, hheader, rfl⟩ := List.mem_map.mp hmem
    exact headerText_line (hheaders header hheader)
  set block := (r.headers.map headerText).flatMap (· ++ Bytes.crlf) ++ Bytes.crlf with hblock
  have htext : r.toString = r.status ++ Bytes.crlf ++ (block ++ r.body) := by
    simp only [hblock, toString, List.flatMap_map, List.append_assoc]
    rfl
  -- the first CRLF ends the status line, the first empty line the headers
  have hcut : Delimited.cut Bytes.crlf r.toString = some (r.status, block ++ r.body) := by
    rw [htext]
    exact Delimited.cut_append hline _
  have hpieces : Delimited.pieces Bytes.crlf (block ++ r.body) =
      some (r.headers.map headerText, r.body) :=
    Delimited.pieces_flatMap hlines r.body
  rw [decode, hcut]
  simp only [Option.bind_eq_bind, Option.bind_some, hpieces, mapM_cut_headerText hheaders]
  rfl

/-- **A response can be read back from its bytes**, whatever its body is, and
two responses with the same bytes are made of the same parts. -/
theorem uniquely_decodable {r : Response} (hstatus : r.HasStatus)
    (hheaders : ∀ header ∈ r.headers, KeepsToLine header) :
    decode r.toString = some (r.status, r.headers, r.body) ∧
      ∀ r' : Response, r'.HasStatus → (∀ header ∈ r'.headers, KeepsToLine header) →
        r.toString = r'.toString →
          r.status = r'.status ∧ r.headers = r'.headers ∧ r.body = r'.body := by
  refine ⟨decode_toString hstatus hheaders, fun r' hstatus' hheaders' htext => ?_⟩
  have hdecode := decode_toString hstatus hheaders
  rw [htext, decode_toString hstatus' hheaders', Option.some_inj] at hdecode
  obtain ⟨hs, hrest⟩ := Prod.mk.inj hdecode
  obtain ⟨hh, hb⟩ := Prod.mk.inj hrest
  exact ⟨hs.symm, hh.symm, hb.symm⟩

/-- What the echo handler answers: its body has header lines and a blank line. -/
def echoed : Response :=
  (((fresh .ok).setStatus .ok).addHeader (bytes "Content-Type") (bytes "text/plain")).setBody
    (bytes "GET /echo HTTP/1.1\r\nAccept-Language: en-us\r\n\r\nname=1")

theorem uniquely_decodable_echoed :
    decode echoed.toString = some (echoed.status, echoed.headers, echoed.body) ∧
      ∀ r' : Response, r'.HasStatus → (∀ header ∈ r'.headers, KeepsToLine header) →
        echoed.toString = r'.toString →
          echoed.status = r'.status ∧ echoed.headers = r'.headers ∧ echoed.body = r'.body := by
  have hheaders : ∀ header ∈ echoed.headers, KeepsToLine header :=
    List.forall_mem_singleton.mpr (by decide)
  exact uniquely_decodable rfl hheaders

end Response
