/-
What a proxy makes of redirections.

One `Response` goes through all passes of a call: every reply adds its headers,
and its body replaces the one before only when some of it arrives late
(`Redirected.accumulates`).  The host of the next pass is cut out of the last
`Location` by position (`redirectHost_location`).

* `ProxyHandler.transparent_iff` — when the response is the one of the last
  reply alone;
* `ProxyHandler.nextHost_iff` — when the host contacted next is the authority of
  the `Location`.
-/
import Spaceteam.ProxyHistory

open RequestHandler

namespace ProxyHandler

section Redirections

variable {upstream : Upstream} {request : Request} {handler h h' : ProxyHandler}
  {response r r' : Response} {n : ℕ} {reply : Reply} {m : UpstreamResponse}

/-! ### Chains of redirections -/

/-- The passes so far have read these redirections. -/
inductive Redirected (upstream : Upstream) (request : Request) (handler : ProxyHandler)
    (response : Response) : List (UpstreamResponse × Reply) → ProxyHandler → Response → Prop
  | start : Redirected upstream request handler response [] handler response
  | again {replies : List (UpstreamResponse × Reply)} {h h' : ProxyHandler} {r r' : Response}
    {m : UpstreamResponse} {reply : Reply}
    (hchain : Redirected upstream request handler response replies h r)
    (hreply : upstream replies.length h.host (h.upstreamRequest (h.target request.uri)) =
      some reply)
    (hdelivers : Delivers m reply) (hcode : IStream.decimalValue m.code = 302)
    (hexchange : exchange reply h r = .again h' r') :
    Redirected upstream request handler response (replies ++ [(m, reply)]) h' r'

variable {replies : List (UpstreamResponse × Reply)}

theorem Redirected.reaches (hchain : Redirected upstream request handler response replies h r) :
    Reaches upstream request handler response replies.length h r := by
  induction hchain with
  | start => exact .start
  | again hchain hreply hdelivers hcode hexchange ih =>
    rw [List.length_append]
    exact .again ih hreply hexchange

/-- A pass that reads a redirection and goes on. -/
theorem answers_of_again (hdelivers : Delivers m reply)
    (hexchange : exchange reply h r = .again h' r') :
    (∃ host, located m.statusCode h.host (m.lines.map lineField) = some host ∧
      h' = { h with host := host }) ∧ Answers m reply.segments r r' := by
  rcases exchange_delivers hdelivers h r with
    ⟨-, hthrew⟩ | ⟨-, h'', hthrew⟩ | ⟨host, response', -, hlocated, hpass, hanswers⟩
  · rw [hexchange] at hthrew
    cases hthrew
  · rw [hexchange] at hthrew
    cases hthrew
  · rw [hexchange, pass] at hpass
    split_ifs at hpass
    cases hpass
    exact ⟨⟨host, hlocated, rfl⟩, hanswers⟩

open scoped Classical in
/-- The body after some replies: that of the last one with late bytes. -/
noncomputable def leftBody (body : Bytes) (replies : List (UpstreamResponse × Reply)) : Bytes :=
  replies.foldl (fun body p => if LeavesBytes p.1 p.2.segments then p.1.body else body) body

/-- **Redirections accumulate**: the headers of all of them, and a body. -/
theorem Redirected.accumulates (hchain : Redirected upstream request handler response replies h r) :
    r.headers = response.headers ++ replies.flatMap (fun p => p.1.lines.map lineField) ∧
      r.body = leftBody response.body replies := by
  induction hchain with
  | start => exact ⟨by simp, rfl⟩
  | @again replies h h' r r' m reply hchain hreply hdelivers hcode hexchange ih =>
    obtain ⟨hheaders, hbody⟩ := ih
    obtain ⟨-, hanswers⟩ := answers_of_again hdelivers hexchange
    constructor
    · rw [hanswers.headers, hheaders]
      simp
    · rw [leftBody, List.foldl_append]
      simp only [List.foldl_cons, List.foldl_nil]
      split_ifs with hleaves
      · exact hanswers.late hleaves
      · rw [hanswers.early hleaves, hbody, leftBody]

/-! ### The response at the end of a chain -/

variable {headers : Headers} {garbage : ResponseCode}

/-- A call that returns OK has the headers, the body and the status code of `m`. -/
def Transparent (upstream : Upstream) (request : Request) (handler : ProxyHandler)
    (response : Response) (m : UpstreamResponse) (headers : Headers) : Prop :=
  ∀ fuel h' r', handleRequest upstream fuel handler request response = .returned .ok r' h' →
    r'.headers = headers ∧ r'.body = m.body ∧ r'.HasStatus ∧
      ServerStatus.responseCodeToString r'.rawStatus = IStream.decimalValue m.code

/-- **Only two codes are handed on**: every other one becomes 404. -/
theorem code_answers_iff (hanswers : Answers m reply.segments r r') :
    ServerStatus.responseCodeToString r'.rawStatus = IStream.decimalValue m.code ↔
      IStream.decimalValue m.code = 200 ∨ IStream.decimalValue m.code = 404 := by
  rw [hanswers.rawStatus]
  split_ifs with hok
  · exact iff_of_true (by rw [hok]; rfl) (.inl hok)
  · rw [ServerStatus.responseCodeToString]
    omega

/-- A response that goes through the chain is transparent when no reply has a
header and the last body is not lost. -/
theorem answers_transparent_iff
    (hchain : Redirected upstream request handler (.fresh garbage) replies h r)
    (hlines : m.lines = headers.map fieldLine)
    (hheaders : ∀ header ∈ headers, WellFormedField header)
    (hanswers : Answers m reply.segments r r') :
    r'.headers = headers ∧ r'.body = m.body ↔
      (∀ p ∈ replies, p.1.lines = []) ∧ headers = [] ∧
        (LeavesBytes m reply.segments ∨ m.body = leftBody [] replies) := by
  obtain ⟨hbefore, hleft⟩ := hchain.accumulates
  have hsum := hanswers.headers
  rw [hbefore, hlines] at hsum
  simp only [Response.fresh, List.nil_append] at hsum hleft
  have hbody : r'.body = m.body ↔
      LeavesBytes m reply.segments ∨ m.body = leftBody [] replies := by
    by_cases hleaves : LeavesBytes m reply.segments
    · exact iff_of_true (hanswers.late hleaves) (.inl hleaves)
    · rw [hanswers.early hleaves, hleft]
      simp [hleaves, eq_comm]
  rw [hbody, ← and_assoc, and_congr_left_iff]
  intro _
  constructor
  · intro hsent
    rw [hsum] at hsent
    -- the last reply has as many headers as lines, so the others have none
    have hnone : replies.flatMap (fun p => p.1.lines.map lineField) = [] := by
      have hlength := congrArg List.length hsent
      simp only [List.length_append, List.length_map] at hlength
      exact List.length_eq_zero_iff.mp (by omega)
    refine ⟨fun p hp => ?_, ?_⟩
    · exact List.map_eq_nil_iff.mp (List.flatMap_eq_nil_iff.mp hnone p hp)
    · rw [hnone, List.nil_append] at hsent
      exact eq_nil_of_map_lineField hheaders hsent
  · rintro ⟨hnone, rfl⟩
    rw [hsum, List.flatMap_eq_nil_iff.mpr fun p hp => by rw [hnone p hp]; rfl]
    rfl

/-- **When redirections are transparent**: no reply of the chain has a header
line, the last body comes late or is the one that the chain has left, and the
last code is 200 or 404; or the last reply has no blank line and the call
throws. -/
theorem transparent_iff
    (hchain : Redirected upstream request handler (.fresh garbage) replies h r)
    (hreply : upstream replies.length h.host (h.upstreamRequest (h.target request.uri)) =
      some reply)
    (hdelivers : Delivers m reply) (hcode : IStream.decimalValue m.code ≠ 302)
    (hsends : SendsHeaders m headers) (hheaders : ∀ header ∈ headers, WellFormedField header) :
    Transparent upstream request handler (.fresh garbage) m headers ↔
      ¬Bytes.crlf ++ Bytes.crlf <:+: m.block ++ m.body ∨
        ((∀ p ∈ replies, p.1.lines = []) ∧ headers = [] ∧
          (LeavesBytes m reply.segments ∨ m.body = leftBody [] replies)) ∧
          (IStream.decimalValue m.code = 200 ∨ IStream.decimalValue m.code = 404) := by
  have hlines := lines_of_sendsHeaders hsends hheaders
  rcases returned_cases hchain.reaches hreply hdelivers hcode with
    ⟨hno, hnever⟩ | ⟨response', hblank, ⟨fuel, hout⟩, hunique, hanswers⟩
  · exact iff_of_true (fun fuel h' r' hout => absurd hout (hnever fuel h' r')) (.inl hno)
  · have hiff := answers_transparent_iff hchain hlines hheaders hanswers
    have hcodes := code_answers_iff hanswers
    constructor
    · intro htransparent
      obtain ⟨hsent, hbody, -, hstatus⟩ := htransparent fuel h response' hout
      exact .inr ⟨hiff.mp ⟨hsent, hbody⟩, hcodes.mp hstatus⟩
    · rintro (hno | ⟨hcond, hlast⟩) fuel' h' r' hout'
      · exact absurd hblank hno
      · obtain rfl := hunique fuel' h' r' hout'
        obtain ⟨hsent, hbody⟩ := hiff.mpr hcond
        exact ⟨hsent, hbody, hanswers.status, hcodes.mpr hlast⟩

/-! ### The host of the next pass -/

/-- A pass goes on when the reply is a redirection whose locations can be followed. -/
theorem exists_again (hdelivers : Delivers m reply) (hcode : IStream.decimalValue m.code = 302)
    (hblank : Bytes.crlf ++ Bytes.crlf <:+: m.block ++ m.body) {host : Bytes}
    (hlocated : located m.statusCode h.host (m.lines.map lineField) = some host) :
    ∃ r', exchange reply h r = .again { h with host := host } r' := by
  rcases exchange_delivers hdelivers h r with
    ⟨hno, -⟩ | ⟨hnone, -⟩ | ⟨host', response', -, hsome, hpass, -⟩
  · exact absurd hblank hno
  · rw [hlocated] at hnone
    cases hnone
  · obtain rfl := Option.some_inj.mp (hlocated.symm.trans hsome)
    rw [pass, if_pos hcode] at hpass
    exact ⟨response', hpass⟩

theorem located_append (statusCode : UInt32) (host : Bytes) (fields fields' : Headers) :
    located statusCode host (fields ++ fields') =
      (located statusCode host fields).bind fun host' => located statusCode host' fields' :=
  List.foldlM_append

/-- Other headers leave the host alone. -/
theorem located_of_noLocation {statusCode : UInt32} {fields : Headers}
    (h : ∀ field ∈ fields, field.1 ≠ bytes "Location") (host : Bytes) :
    located statusCode host fields = some host := by
  induction fields with
  | nil => rfl
  | cons field fields ih =>
    have hother := h field List.mem_cons_self
    rw [located_cons, follow, if_neg (fun hloc => hother hloc.2), Option.bind_some]
    exact ih fun f hf => h f (List.mem_cons_of_mem field hf)

/-- An absolute URL: `rest` is what follows the authority. -/
def url (scheme authority rest : Bytes) : Bytes := scheme ++ bytes "://" ++ authority ++ rest

/-- The host cut out of a `Location` and its carriage return is what follows the
slashes, without its last byte. -/
theorem redirectHost_location {scheme authority : Bytes} (hscheme : ascii ':' ∉ scheme)
    (hauthority : authority ≠ []) (rest : Bytes) :
    redirectHost (url scheme authority rest ++ [ascii '\r']) =
      some (authority ++ rest).dropLast := by
  set host := authority ++ rest with hhost
  have hurl : url scheme authority rest ++ [ascii '\r'] =
      scheme ++ ascii ':' :: (ascii '/' :: ascii '/' :: (host ++ [ascii '\r'])) := by
    simp [url, hhost, bytes]
  have hcolon : (url scheme authority rest ++ [ascii '\r']).findFrom (ascii ':') 0 =
      some scheme.length := by
    rw [hurl]
    exact Bytes.findFrom_append hscheme
  have hpos : 0 < host.length := by
    have hlength := List.length_pos_iff.mpr hauthority
    rw [hhost, List.length_append]
    omega
  have hsubstr : (url scheme authority rest ++ [ascii '\r']).substr (scheme.length + 3) =
      some (host ++ [ascii '\r']) := by
    rw [hurl, Bytes.substr, if_pos]
    · simp
    · simp only [List.length_append, List.length_cons]
      omega
  -- the carriage return and one byte more are cut off
  have hlen : (host ++ [ascii '\r']).length = host.length + 1 := by simp
  rw [redirectHost, hcolon]
  simp only [hsubstr, Option.map_some, Option.some_inj]
  rw [if_neg (by omega), hlen, List.take_append_of_le_length (by omega), List.dropLast_eq_take]
  congr 1

/-- That is the authority when a slash and nothing else follows it. -/
theorem dropLast_eq_authority_iff {authority rest : Bytes} (hauthority : authority ≠ [])
    (hrest : rest = [] ∨ ∃ path, rest = ascii '/' :: path) :
    (authority ++ rest).dropLast = authority ↔ rest = bytes "/" := by
  constructor
  · intro heq
    have hlength := congrArg List.length heq
    have hpos := List.length_pos_iff.mpr hauthority
    rw [List.length_dropLast, List.length_append] at hlength
    rcases hrest with rfl | ⟨path, rfl⟩
    · simp only [List.length_nil] at hlength
      omega
    · simp only [List.length_cons] at hlength
      obtain rfl : path = [] := List.length_eq_zero_iff.mp (by omega)
      rfl
  · rintro rfl
    exact List.dropLast_concat

theorem Reaches.unique (hreach : Reaches upstream request handler response n h r)
    (hreach' : Reaches upstream request handler response n h' r') : h = h' ∧ r = r' := by
  induction hreach generalizing h' r' with
  | start =>
    cases hreach'
    exact ⟨rfl, rfl⟩
  | again hreach hreply hexchange ih =>
    rcases hreach' with _ | ⟨hreach₂, hreply₂, hexchange₂⟩
    obtain ⟨rfl, rfl⟩ := ih hreach₂
    obtain rfl := Option.some_inj.mp (hreply.symm.trans hreply₂)
    rw [hexchange] at hexchange₂
    cases hexchange₂
    exact ⟨rfl, rfl⟩

/-- The header line of a redirection. -/
def locationLine (value : Bytes) : Bytes := fieldLine (bytes "Location", value)

/-- The field of a `Location` has its value and the carriage return. -/
theorem lineField_locationLine {value : Bytes} (hline : (locationLine value).OneLine) :
    lineField (locationLine value) = (bytes "Location", value ++ [ascii '\r']) := by
  have hname : bytes "Location" ≠ [] ∧ ∀ b ∈ bytes "Location", TokenByte b :=
    ⟨by decide, by decide +kernel⟩
  have hvalue : ∀ c, c ∉ locationLine value → c ∉ value :=
    fun c hc hmem => hc (List.mem_append_right _ hmem)
  have hfield : WellFormedField (bytes "Location", value) :=
    ⟨hname.1, hname.2, hvalue _ hline.1, hvalue _ hline.2⟩
  exact lineField_fieldLine hfield

/-- The last `Location` gives the host, whatever the lines before it make of it. -/
theorem located_locationLine {statusCode : UInt32} (hcode : statusCode = 302)
    {scheme authority rest : Bytes} {after : List Bytes}
    (hline : (locationLine (url scheme authority rest)).OneLine)
    (hafter : ∀ line ∈ after, (lineField line).1 ≠ bytes "Location")
    (hscheme : ascii ':' ∉ scheme) (hauthority : authority ≠ []) (host : Bytes) :
    located statusCode host ((locationLine (url scheme authority rest) :: after).map lineField) =
      some (authority ++ rest).dropLast := by
  have hthis : follow statusCode host (bytes "Location",
      url scheme authority rest ++ [ascii '\r']) = some (authority ++ rest).dropLast := by
    rw [follow, if_pos ⟨hcode, rfl⟩, redirectHost_location hscheme hauthority]
  rw [List.map_cons, located_cons, lineField_locationLine hline, hthis, Option.bind_some]
  exact located_of_noLocation (List.forall_mem_map.mpr hafter) _

/-- **When the host contacted next is the authority** of the last `Location`: a
slash follows it and nothing more.  Without another `Location` before it there
is a next pass. -/
theorem nextHost_iff (hreach : Reaches upstream request handler response n h r)
    (hreply : upstream n h.host (h.upstreamRequest (h.target request.uri)) = some reply)
    (hdelivers : Delivers m reply) (hcode : IStream.decimalValue m.code = 302)
    {before after : List Bytes} {scheme authority rest : Bytes}
    (hlines : m.lines = before ++ locationLine (url scheme authority rest) :: after)
    (hafter : ∀ line ∈ after, (lineField line).1 ≠ bytes "Location")
    (hscheme : ascii ':' ∉ scheme)
    (hauthority : authority ≠ [] ∧ ascii '/' ∉ authority ∧ ascii ':' ∉ authority)
    (hrest : rest = [] ∨ ∃ path, rest = ascii '/' :: path) :
    (∀ h' r', Reaches upstream request handler response (n + 1) h' r' →
      (h'.host = authority ↔ rest = bytes "/")) ∧
    ((∀ line ∈ before, (lineField line).1 ≠ bytes "Location") →
      ∃ h' r', Reaches upstream request handler response (n + 1) h' r') := by
  have hline : (locationLine (url scheme authority rest)).OneLine :=
    (m.lines_line _ (by simp [hlines])).2
  have hfollow := located_locationLine
    ((statusCode_eq_iff (m := m) (n := 302) (by decide)).mpr hcode) hline hafter hscheme
    hauthority.1
  constructor
  · intro h' r' hnext
    rcases hnext with _ | ⟨hreach₂, hreply₂, hexchange⟩
    obtain ⟨rfl, rfl⟩ := hreach.unique hreach₂
    obtain rfl := Option.some_inj.mp (hreply.symm.trans hreply₂)
    obtain ⟨⟨host, hlocated, rfl⟩, -⟩ := answers_of_again hdelivers hexchange
    rw [hlines, List.map_append, located_append] at hlocated
    obtain ⟨host', -, hlast⟩ := Option.bind_eq_some_iff.mp hlocated
    obtain rfl := Option.some_inj.mp ((hfollow host').symm.trans hlast)
    exact dropLast_eq_authority_iff hauthority.1 hrest
  · intro hbefore
    have hearlier : located m.statusCode h.host (before.map lineField) = some h.host :=
      located_of_noLocation (List.forall_mem_map.mpr hbefore) _
    have hlocated : located m.statusCode h.host (m.lines.map lineField) =
        some (authority ++ rest).dropLast := by
      rw [hlines, List.map_append, located_append, hearlier, Option.bind_some, hfollow]
    obtain ⟨r', hexchange⟩ := exists_again (r := r) hdelivers hcode
      (blankLine_of_lines (by simp [hlines])) hlocated
    exact ⟨_, r', .again hreach hreply hexchange⟩

end Redirections

/-! ### A redirection -/

/-- A redirection to a value. -/
def moved (value : Bytes) (hvalue : (locationLine value).OneLine) : UpstreamResponse where
  version := bytes "1.1"
  code := bytes "302"
  reason := bytes " Found"
  lines := [locationLine value]
  body := []
  version_word := greeting.version_word
  code_ne_nil := by decide
  code_digits := by simp [bytes, ascii, IStream.isDigit]
  code_small := by decide
  reason_apart := .inr ⟨bytes "Found", rfl⟩
  reason_line := ⟨by decide, by decide⟩
  lines_line := List.forall_mem_singleton.mpr ⟨by simp [locationLine, fieldLine, bytes], hvalue⟩

/-- To `http://example` and what follows it. -/
def movedSlash : UpstreamResponse :=
  moved (url (bytes "http") (bytes "example") (bytes "/")) ⟨by decide +kernel, by decide +kernel⟩

def movedBare : UpstreamResponse :=
  moved (url (bytes "http") (bytes "example") []) ⟨by decide +kernel, by decide +kernel⟩

theorem nextHost_iff_slash :
    (∀ h' r', Reaches (answering [movedSlash.render]) getA proxy (.fresh .ok) 1 h' r' →
      (h'.host = bytes "example" ↔ bytes "/" = bytes "/")) ∧
    ((∀ line ∈ [], (lineField line).1 ≠ bytes "Location") →
      ∃ h' r', Reaches (answering [movedSlash.render]) getA proxy (.fresh .ok) 1 h' r') := by
  have hdelivers : Delivers movedSlash ⟨[movedSlash.render], .eof⟩ :=
    ⟨List.flatten_singleton, rfl⟩
  have hlines : movedSlash.lines =
      [] ++ locationLine (url (bytes "http") (bytes "example") (bytes "/")) :: [] := rfl
  exact nextHost_iff .start rfl hdelivers (by decide) hlines (by simp)
    (by decide) ⟨by decide, by decide, by decide⟩ (.inr ⟨[], rfl⟩)

/-- Without the slash the next host is `exampl`. -/
theorem not_nextHost_bare :
    ∃ h' r', Reaches (answering [movedBare.render]) getA proxy (.fresh .ok) 1 h' r' ∧
      h'.host ≠ bytes "example" := by
  have hdelivers : Delivers movedBare ⟨[movedBare.render], .eof⟩ := ⟨List.flatten_singleton, rfl⟩
  have hlocated : located movedBare.statusCode proxy.host (movedBare.lines.map lineField) =
      some (bytes "exampl") := by decide +kernel
  obtain ⟨r', hexchange⟩ := exists_again (r := .fresh .ok) hdelivers (by decide)
    (blankLine_of_lines (List.cons_ne_nil _ _)) hlocated
  exact ⟨_, r', .again .start rfl hexchange, by decide⟩

/-! ### A chain -/

/-- The first connection is answered by a redirection, the others by a response
whose body comes late. -/
def movedOnce : Upstream := fun n _ _ =>
  if n = 0 then some ⟨[movedSlash.render], .eof⟩
  else some ⟨[greeting.statusText ++ Bytes.crlf ++ greeting.block, greeting.body], .eof⟩

theorem redirected_movedOnce : ∃ h r, Redirected movedOnce getA proxy (.fresh .ok)
    [(movedSlash, ⟨[movedSlash.render], .eof⟩)] h r := by
  have hdelivers : Delivers movedSlash ⟨[movedSlash.render], .eof⟩ :=
    ⟨List.flatten_singleton, rfl⟩
  have hlocated : located movedSlash.statusCode proxy.host (movedSlash.lines.map lineField) =
      some (bytes "example") := by decide +kernel
  obtain ⟨r', hexchange⟩ := exists_again (r := .fresh .ok) hdelivers (by decide)
    (blankLine_of_lines (List.cons_ne_nil _ _)) hlocated
  exact ⟨_, r', .again .start rfl hdelivers (by decide) hexchange⟩

theorem delivers_greeting_late : Delivers greeting
    ⟨[greeting.statusText ++ Bytes.crlf ++ greeting.block, greeting.body], .eof⟩ :=
  ⟨by simp [UpstreamResponse.render], rfl⟩

theorem transparent_iff_movedOnce :
    Transparent movedOnce getA proxy (.fresh .ok) greeting [(bytes "A", bytes "b")] ↔
      ¬Bytes.crlf ++ Bytes.crlf <:+: greeting.block ++ greeting.body ∨
        ((∀ p ∈ [(movedSlash, (⟨[movedSlash.render], .eof⟩ : Reply))], p.1.lines = []) ∧
          [(bytes "A", bytes "b")] = [] ∧
          (LeavesBytes greeting
              [greeting.statusText ++ Bytes.crlf ++ greeting.block, greeting.body] ∨
            greeting.body = leftBody [] [(movedSlash, ⟨[movedSlash.render], .eof⟩)])) ∧
          (IStream.decimalValue greeting.code = 200 ∨
            IStream.decimalValue greeting.code = 404) := by
  obtain ⟨h, r, hchain⟩ := redirected_movedOnce
  exact transparent_iff hchain rfl delivers_greeting_late (by decide) rfl wellFormedField_greeting

/-- The `Location` of the redirection is among the headers. -/
theorem not_transparent_movedOnce :
    ¬Transparent movedOnce getA proxy (.fresh .ok) greeting [(bytes "A", bytes "b")] := by
  intro htransparent
  obtain ⟨h, r, hchain⟩ := redirected_movedOnce
  rcases returned_cases hchain.reaches rfl delivers_greeting_late (by decide) with
    ⟨hno, -⟩ | ⟨response', -, ⟨fuel, hout⟩, -, hanswers⟩
  · exact hno (blankLine_of_lines (List.cons_ne_nil _ _))
  · have hlength := congrArg List.length (htransparent fuel h response' hout).1
    rw [hanswers.headers, hchain.accumulates.1] at hlength
    simp [Response.fresh, movedSlash, moved, greeting] at hlength

end ProxyHandler
