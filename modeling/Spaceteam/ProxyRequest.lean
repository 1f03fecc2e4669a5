/-
What a proxy writes upstream.

The URI of a client comes out of the request parser without a space or a
control byte, and the router hands it over with a slash behind the prefix; so
what is left of it is a request target, and the bytes written for it are the
serialisation of a message.

* `ProxyHandler.sendsFirst_iff` — what a call sends first;
* `ProxyHandler.target_cases` — what is left of a URI below the prefix;
* `Connection.proxies_intact` — the bytes sent first are one request, for
  this target and no other headers than the proxy's own.
-/
import Spaceteam.PrefixStripping
import Spaceteam.RequestRoundTrip

open RequestHandler

namespace ProxyHandler

/-- The headers a proxy writes. -/
def upstreamHeaders (host : Bytes) : Headers :=
  [(bytes "Host", host), (bytes "Accept", bytes "*/*"), (bytes "Connection", bytes "close")]

/-- The text is one request and nothing else: `GET` for the target, with the
headers of a proxy. -/
structure IsUpstreamRequest (text target host : Bytes) : Prop where
  good : (Request.parse text).parsedStatus = .good
  method : (Request.parse text).method = bytes "GET"
  uri : (Request.parse text).uri = target
  version : (Request.parse text).version = bytes "1.1"
  headers : (Request.parse text).headers = upstreamHeaders host
  body : (Request.parse text).body = []
  rawRequest : (Request.parse text).rawRequest = text

/-- The first bytes a call sends are `text`: what comes of sending them decides
how the call goes on. -/
def SendsFirst (handler : ProxyHandler) (request : Request) (text : Bytes) : Prop :=
  ∀ (upstream : Upstream) (fuel : ℕ) (response : Response),
    handleRequest upstream (fuel + 1) handler request response =
      match upstream 0 handler.host text with
      | none => .threw handler
      | some reply =>
        (exchange reply handler response).outcome (redirectLoop upstream request fuel 1)

/-- The message for a target and a host without control bytes. -/
def upstreamMessage (path host : Bytes) (hpath : ∀ b ∈ path, UriByte b)
    (hhost : ∀ b ∈ host, TextByte b) : Message where
  method := bytes "GET"
  path := path
  major := bytes "1"
  minor := bytes "1"
  headers :=
    [⟨bytes "Host", host, [], by decide, by decide +kernel, hhost⟩,
      ⟨bytes "Accept", bytes "*/*", [], by decide, by decide +kernel, by decide +kernel⟩,
      ⟨bytes "Connection", bytes "close", [], by decide, by decide +kernel, by decide +kernel⟩]
  body := []
  method_ne_nil := by decide
  method_token := by decide +kernel
  path_uri := hpath
  major_ne_nil := by decide
  major_digit := by decide +kernel
  minor_ne_nil := by decide
  minor_digit := by decide +kernel

/-- A proxy writes the serialisation of this message. -/
theorem upstreamRequest_eq_serialize (handler : ProxyHandler) {path : Bytes}
    (hpath : ∀ b ∈ path, UriByte b) (hhost : ∀ b ∈ handler.host, TextByte b) :
    handler.upstreamRequest (ascii '/' :: path) =
      (upstreamMessage path handler.host hpath hhost).serialize := by
  simp [upstreamRequest, upstreamMessage, Message.serialize, Message.uri, Message.version,
    Message.lines, HeaderField.lines, HeaderLine.render, bytes, Bytes.crlf]

theorem isUpstreamRequest (handler : ProxyHandler) {path : Bytes}
    (hpath : ∀ b ∈ path, UriByte b) (hhost : ∀ b ∈ handler.host, TextByte b) :
    IsUpstreamRequest (handler.upstreamRequest (ascii '/' :: path)) (ascii '/' :: path)
      handler.host := by
  rw [upstreamRequest_eq_serialize handler hpath hhost]
  obtain ⟨hgood, hmethod, huri, hversion, hheaders, hbody, hraw⟩ :=
    Request.parse_serialize (upstreamMessage path handler.host hpath hhost)
  refine ⟨hgood, hmethod, huri, hversion, ?_, hbody, hraw⟩
  rw [hheaders]
  simp [Message.headerPairs, upstreamMessage, HeaderField.value, upstreamHeaders]

/-- What is asked for upstream: the root for the prefix itself, else what
follows the prefix. -/
def AsksFor (p uri target : Bytes) : Prop :=
  uri = p ∧ target = bytes "/" ∨ uri ≠ p ∧ uri = p ++ target

/-- **What is left of a URI below the prefix** begins with a slash. -/
theorem target_cases (handler : ProxyHandler) {uri : Bytes}
    (hroot : handler.uriPrefix ≠ bytes "/")
    (hcandidate : Connection.IsCandidate uri handler.uriPrefix) :
    ∃ path, handler.target uri = ascii '/' :: path ∧
      AsksFor handler.uriPrefix uri (ascii '/' :: path) := by
  obtain ⟨hne, hcase⟩ := hcandidate
  rcases hcase with heq | ⟨rest, heq⟩ | ⟨heq, -⟩
  · -- the root does not extend the prefix
    have hext : ¬extendsPrefix (bytes "/") handler.uriPrefix = true := by
      rw [extendsPrefix_iff]
      rintro ⟨rest, hrest, hsplit⟩
      have hlen := congrArg List.length hsplit
      have hpos := List.length_pos_iff.mpr hne
      have hpos' := List.length_pos_iff.mpr hrest
      simp only [List.length_append, show (bytes "/").length = 1 from rfl] at hlen
      omega
    refine ⟨[], ?_, .inl ⟨heq.symm, rfl⟩⟩
    rw [target, if_pos heq.symm, if_neg hext]
    rfl
  · refine ⟨rest, ?_, .inr ⟨by simp [heq], heq⟩⟩
    rw [heq]
    exact target_append handler (List.cons_ne_nil _ _)
  · exact absurd heq hroot

/-- A reply that is no HTTP response. -/
def noHttp : Reply := ⟨[bytes "x\r\n"], .eof⟩

/-- It ends the call, with an error. -/
theorem exchange_noHttp (handler : ProxyHandler) (response : Response) :
    ∃ response', exchange noHttp handler response = .returned .error handler response' := by
  have hread : readUntil (bytes "\r\n") [] noHttp.segments = some (bytes "x\r\n", []) := by
    decide +kernel
  have hword : (IStream.ofBuffer (bytes "x\r\n")).extractWord =
      (bytes "x", IStream.ofBuffer (bytes "\r\n")) := by decide +kernel
  have hnot : (bytes "x").take 5 ≠ bytes "HTTP/" := by decide
  unfold exchange
  simp only [hread, hword, hnot, ne_eq, not_false_eq_true, or_true, if_true]
  exact ⟨_, rfl⟩

/-- **What a call sends first** is the request for the rest of the URI. -/
theorem sendsFirst_iff {handler : ProxyHandler} {request : Request} {text : Bytes} :
    handler.SendsFirst request text ↔
      text = handler.upstreamRequest (handler.target request.uri) := by
  constructor
  · intro h
    by_contra hne
    -- an upstream that refuses nothing but this text
    let upstream : Upstream := fun _ _ sent => if sent = text then none else some noHttp
    have hnone : upstream 0 handler.host text = none := by simp [upstream]
    have hthrew := h upstream 0 (.fresh .ok)
    simp only [hnone] at hthrew
    have hreply : upstream 0 handler.host (handler.upstreamRequest (handler.target request.uri)) =
        some noHttp := if_neg fun heq => hne heq.symm
    obtain ⟨response', hreturned⟩ := exchange_noHttp handler (.fresh .ok)
    rw [handleRequest, redirectLoop_succ hreply, hreturned] at hthrew
    cases hthrew
  · rintro rfl upstream fuel response
    rcases hreply : upstream 0 handler.host
      (handler.upstreamRequest (handler.target request.uri)) with _ | reply
    · rw [handleRequest, redirectLoop]
      simp only [hreply]
    · rw [handleRequest, redirectLoop_succ hreply]

end ProxyHandler

namespace Connection

open ProxyHandler

variable {H : Type*} (handleRequest : HandleRequest H) (garbage : ResponseCode)
  (server : Server H) (received : Bytes)

/-- **The bytes sent first are one request**, for what is left of the URI, and
no others are. -/
theorem proxies_intact (handler : ProxyHandler) (call : Bytes × H × Request)
    (hcall : call ∈ handled (handleRead handleRequest garbage server false received).events)
    (hkey : call.1 = handler.uriPrefix) (hslash : ∃ q, handler.uriPrefix = ascii '/' :: q)
    (hroot : handler.uriPrefix ≠ bytes "/") (hhost : ∀ b ∈ handler.host, ¬ControlByte b)
    (hreferer : ∀ pair ∈ call.2.2.headers, pair.1 ≠ bytes "Referer") :
    ∃ text target, (∀ sent, handler.SendsFirst call.2.2 sent ↔ sent = text) ∧
      AsksFor handler.uriPrefix call.2.2.uri target ∧
      IsUpstreamRequest text target handler.host := by
  have hcandidate := isCandidate_of_mem_handled handleRequest garbage server received hcall
    (hkey ▸ hslash) hreferer
  rw [hkey] at hcandidate
  obtain ⟨path, htarget, hasks⟩ := target_cases handler hroot hcandidate
  -- the request comes from the parser
  have huri : ∀ b ∈ call.2.2.uri, UriByte b := by
    obtain ⟨-, hrequest⟩ := (mem_handled_handleRead handleRequest garbage server received).mp hcall
    rw [hrequest]
    exact (Request.spelled_parse received).uriBytes
  have hpath : ∀ b ∈ path, UriByte b := by
    intro b hb
    rcases hasks with ⟨-, hnil⟩ | ⟨-, heq⟩
    · obtain rfl : path = [] := by simpa [bytes] using hnil
      simp at hb
    · exact huri b (by simp [heq, hb])
  have hfirst : ∀ sent, handler.SendsFirst call.2.2 sent ↔
      sent = handler.upstreamRequest (ascii '/' :: path) := by
    intro sent
    rw [sendsFirst_iff, htarget]
  exact ⟨_, _, hfirst, hasks, isUpstreamRequest handler hpath hhost⟩

theorem proxies_intact_static :
    ∃ text target,
      (∀ sent, SendsFirst ⟨bytes "/static", bytes "example", []⟩
        (Request.parseWith (bytes "GET /static/a HTTP/1.1\r\n\r\n") (some .new)) sent ↔
          sent = text) ∧
      AsksFor (bytes "/static")
        (Request.parseWith (bytes "GET /static/a HTTP/1.1\r\n\r\n") (some .new)).uri target ∧
      IsUpstreamRequest text target (bytes "example") :=
  proxies_intact (fun h _ response => .returned .ok response h) .ok
    (prefixServer (bytes "/static")) (bytes "GET /static/a HTTP/1.1\r\n\r\n")
    ⟨bytes "/static", bytes "example", []⟩
    (bytes "/static", true, Request.parseWith (bytes "GET /static/a HTTP/1.1\r\n\r\n") (some .new))
    (by rw [handled_handleRead_of_select _ _ _ select_static]; exact List.mem_cons_self)
    rfl ⟨bytes "static", rfl⟩ (by decide) (by decide +kernel)
    (by rw [headers_static]; simp)

end Connection
