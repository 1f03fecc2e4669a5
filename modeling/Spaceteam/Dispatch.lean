/-
Which requests reach which handlers.

`handle_read` takes the path its selection starts from either from the URI or
from the text of a `Referer` header, and looks at nothing else of the parsed
request, not even at whether it was parsed to its end.

* `Connection.dispatches_iff` — when the selection ends in one call of a
  handler, whatever was received;
* `Connection.leavesMalformed_iff` — when a malformed request is left to the default
  handler;
* `Connection.handled_under` — a handler registered for a prefix is called
  only when the path the selection starts from lies under that prefix.
-/
import Spaceteam.RequestFields
import Spaceteam.Routing

open RequestHandler

namespace Connection

variable {H : Type*} {pathToHandler : HandlerMap H}

/-- The path a selection starts from begins with a slash, unless it is empty. -/
theorem IsStart.slash {received : Bytes} {status : Option ServerStatus} {w : Bytes}
    (h : IsStart (Request.parseWith received status) w) :
    w = [] ∨ ∃ rest, w = ascii '/' :: rest := by
  rcases h with ⟨-, rfl⟩ | ⟨_, value, _, -, -, pos, -, hslash, -, rfl⟩
  · exact Request.uri_parse received
  · obtain ⟨hlt, hval⟩ := List.getElem?_eq_some_iff.mp hslash
    exact .inr ⟨value.drop (pos + 1), by rw [List.drop_eq_getElem_cons hlt, hval]⟩

/-- No candidate is the key of the default handler. -/
theorem IsCandidate.ne_defaultString {received : Bytes} {status : Option ServerStatus}
    {w p : Bytes} (hw : IsStart (Request.parseWith received status) w) (hp : IsCandidate w p) :
    p ≠ defaultString := by
  rintro rfl
  obtain ⟨rest, hrest⟩ := hp.isPrefix
  rcases hw.slash with rfl | ⟨tail, rfl⟩
  · simp [defaultString, bytes] at hrest
  · exact absurd (List.cons.inj hrest).1 (by decide)

variable (handleRequest : HandleRequest H) (garbage : ResponseCode) (server : Server H)
  (received : Bytes)

/-- The calls of handlers are those the selection leads to. -/
theorem mem_handled_handleRead {call : Bytes × H × Request} :
    call ∈ handled (handleRead handleRequest garbage server false received).events ↔
      Routed server.pathToHandler call.2.2 call.1 call.2.1 ∧
        call.2.2 = Request.parseWith received (some server.serverStatus) := by
  obtain ⟨path, h, request⟩ := call
  set parsed := Request.parseWith received (some server.serverStatus) with hparsed
  constructor
  · intro hcall
    rcases hselect : select server.pathToHandler parsed with ⟨path', h'⟩ | _ | _
    · rw [handled_handleRead_of_select handleRequest garbage server hselect] at hcall
      obtain ⟨rfl, rfl, rfl⟩ : path = path' ∧ h = h' ∧ request = parsed := by simpa using hcall
      exact ⟨select_eq_handler_iff.mp hselect, rfl⟩
    · rw [handled_handleRead_of_throws handleRequest garbage server hselect] at hcall
      simp at hcall
    · simp [handleRead, ← hparsed, hselect, handled] at hcall
  · rintro ⟨hrouted, rfl⟩
    rw [handled_handleRead_of_select handleRequest garbage server
      (select_eq_handler_iff.mpr hrouted)]
    simp [hparsed]

/-! ### Bytes that crash the selection -/

/-- Parsing and selection end without an exception, in one call of a handler. -/
structure Dispatches : Prop where
  not_throws : select server.pathToHandler
    (Request.parseWith received (some server.serverStatus)) ≠ .throws
  not_running : select server.pathToHandler
    (Request.parseWith received (some server.serverStatus)) ≠ .running
  one_call : (handled (handleRead handleRequest garbage server false received).events).length = 1

/-- `substr(npos)` throws for a `Referer` without its slash. -/
theorem not_dispatches_of_referer
    (href : ¬ReferersHavePath (Request.parseWith received (some server.serverStatus))) :
    ¬Dispatches handleRequest garbage server received := by
  intro h
  exact h.not_throws (select_of_not_selects fun hselects => href hselects.1)

/-- **When the selection survives what was received**: every `Referer` of the
request, however far it was parsed, has a slash at index 8 or later. -/
theorem dispatches_iff (hdefault : defaultString ∈ server.pathToHandler) :
    Dispatches handleRequest garbage server received ↔
      ReferersHavePath (Request.parse received) := by
  constructor
  · intro h
    by_contra href
    exact not_dispatches_of_referer handleRequest garbage server received href h
  · intro href
    have hselects : Selects server.pathToHandler
        (Request.parseWith received (some server.serverStatus)) :=
      ⟨href, fun _ _ => .inl hdefault⟩
    obtain ⟨path, h, hselect⟩ := select_of_selects hselects
    refine ⟨?_, ?_, ?_⟩
    · rw [hselect]
      simp
    · rw [hselect]
      simp
    · rw [handled_handleRead_of_select handleRequest garbage server hselect]
      rfl

/-- A server with nothing but a default handler that answers 200. -/
def defaultServer : Server Unit := ⟨Std.ExtTreeMap.ofList [(defaultString, ())], .new⟩

theorem dispatches_iff_get :
    Dispatches (fun h _ response => .returned .ok (response.setStatus .ok) h) .ok defaultServer
        (bytes "GET / HTTP/1.1\r\n\r\n") ↔
      ReferersHavePath (Request.parse (bytes "GET / HTTP/1.1\r\n\r\n")) :=
  dispatches_iff (fun h _ response => .returned .ok (response.setStatus .ok) h) .ok defaultServer
    (bytes "GET / HTTP/1.1\r\n\r\n") (by simp [defaultServer])

theorem not_dispatches_referer_without_path :
    defaultString ∈ defaultServer.pathToHandler ∧
      ¬Dispatches (fun h _ response => .returned .ok (response.setStatus .ok) h) .ok defaultServer
        (bytes "GET / HTTP/1.1\r\nReferer: x\r\n\r\n") := by
  refine ⟨by simp [defaultServer], not_dispatches_of_referer _ _ _ _ fun href => ?_⟩
  have hheaders : (Request.parseWith (bytes "GET / HTTP/1.1\r\nReferer: x\r\n\r\n")
      (some defaultServer.serverStatus)).headers = [(bytes "Referer", bytes "x")] := by
    decide +kernel
  obtain ⟨pos, hle, hslash⟩ := href (bytes "Referer", bytes "x") (by simp [hheaders]) rfl
  -- the value has one byte
  obtain ⟨hlt, -⟩ := List.getElem?_eq_some_iff.mp hslash
  have hlen : pos < 1 := hlt
  omega

/-! ### Malformed requests -/

/-- The handlers called are default handlers. -/
def LeftToDefault (events : List (Event H)) : Prop :=
  ∀ call ∈ handled events, call.1 = defaultString

theorem IsStart.unique {request : Request} {w w' : Bytes} (href : ReferersHavePath request)
    (h : IsStart request w) (h' : IsStart request w') : w = w' :=
  Option.some_inj.mp
    ((handlerUriPrefix_of_isStart href h).symm.trans (handlerUriPrefix_of_isStart href h'))

/-- Only the default handler is called when no other path is registered. -/
theorem leftToDefault_iff :
    LeftToDefault (handleRead handleRequest garbage server false received).events ↔
      (ReferersHavePath (Request.parse received) →
        ∀ w q, IsStart (Request.parse received) w → IsCandidate w q →
          q ∉ server.pathToHandler) := by
  constructor
  · intro hdefault href w q hw hq hmem
    rcases select_cases server.pathToHandler
        (Request.parseWith received (some server.serverStatus)) with
      ⟨hno, -⟩ | ⟨w', -, hw', ⟨path, h, hlongest, hpath, -⟩ | ⟨hmissing, -⟩⟩
    · exact hno href
    · -- the handler at the longest registered candidate is called
      have hstart := isStart_of_handlerUriPrefix hw'
      have hcall := hdefault (path, h, Request.parseWith received (some server.serverStatus))
        ((mem_handled_handleRead handleRequest garbage server received).mpr
          ⟨⟨href, hpath, w', hstart, .inl hlongest⟩, rfl⟩)
      exact IsCandidate.ne_defaultString hstart hlongest.1 hcall
    · obtain rfl := IsStart.unique href hw (isStart_of_handlerUriPrefix hw')
      exact hmissing q hq hmem
  · intro hmissing call hcall
    obtain ⟨⟨href, -, w, hw, hcase⟩, hrequest⟩ :=
      (mem_handled_handleRead handleRequest garbage server received).mp hcall
    rw [hrequest] at href hw
    rcases hcase with hlongest | ⟨hpath, -⟩
    · exact absurd hlongest.2.1 (hmissing href w _ hw hlongest.1)
    · exact hpath

/-- A request that parsing has refused is left to the default handler. -/
def LeavesMalformed : Prop :=
  (Request.parse received).parsedStatus = .bad →
    LeftToDefault (handleRead handleRequest garbage server false received).events

/-- **When malformed requests are not served**: none of the paths that the
partly filled request leads to is registered, or the selection throws. -/
theorem leavesMalformed_iff :
    LeavesMalformed handleRequest garbage server received ↔
      ((Request.parse received).parsedStatus = .bad → ReferersHavePath (Request.parse received) →
        ∀ w q, IsStart (Request.parse received) w → IsCandidate w q →
          q ∉ server.pathToHandler) :=
  imp_congr_right fun _ => leftToDefault_iff handleRequest garbage server received

/-- A server with a second handler below a prefix. -/
def prefixServer (p : Bytes) : Server Bool :=
  ⟨Std.ExtTreeMap.ofList [(defaultString, false), (p, true)], .new⟩

theorem not_leavesMalformed_control_byte :
    ¬LeavesMalformed (fun h _ response => .returned .ok (response.setStatus .ok) h) .ok
      (prefixServer (bytes "/echo")) (bytes "GET /echo\r\n") := by
  intro h
  have hselect : select (prefixServer (bytes "/echo")).pathToHandler
      (Request.parseWith (bytes "GET /echo\r\n") (some .new)) = .handler (bytes "/echo") true := by
    decide +kernel
  have hcall := h (by decide)
    (bytes "/echo", true, Request.parseWith (bytes "GET /echo\r\n") (some .new))
    (by rw [handled_handleRead_of_select _ _ _ hselect]; exact List.mem_cons_self)
  exact absurd hcall (by decide)

/-! ### The prefix a handler is called for -/

/-- `w` is `p` or lies below `p` at the end of a segment. -/
def LiesUnder (w p : Bytes) : Prop :=
  w = p ∨ (∃ rest, w = p ++ ascii '/' :: rest) ∨ p = bytes "/" ∧ ∃ rest, w = ascii '/' :: rest

/-- **The path the selection starts from lies under the prefix** of the handler
called; without a `Referer` that path is the URI. -/
theorem handled_under (call : Bytes × H × Request)
    (hcall : call ∈ handled (handleRead handleRequest garbage server false received).events)
    (hkey : call.1 ≠ defaultString) :
    (∃ w, IsStart call.2.2 w ∧ LiesUnder w call.1) ∧
      ((∀ pair ∈ call.2.2.headers, pair.1 ≠ bytes "Referer") →
        LiesUnder call.2.2.uri call.1) := by
  obtain ⟨⟨href, -, w, hw, hcase⟩, -⟩ :=
    (mem_handled_handleRead handleRequest garbage server received).mp hcall
  have hunder : LiesUnder w call.1 := by
    rcases hcase with hlongest | ⟨hpath, -⟩
    · exact hlongest.1.2.imp_left Eq.symm
    · exact absurd hpath hkey
  refine ⟨⟨w, hw, hunder⟩, fun hnone => ?_⟩
  obtain rfl : w = call.2.2.uri := IsStart.unique href hw (.inl ⟨hnone, rfl⟩)
  exact hunder

theorem select_static :
    select (prefixServer (bytes "/static")).pathToHandler
      (Request.parseWith (bytes "GET /static/a HTTP/1.1\r\n\r\n") (some .new)) =
      .handler (bytes "/static") true := by
  decide +kernel

theorem headers_static :
    (Request.parseWith (bytes "GET /static/a HTTP/1.1\r\n\r\n") (some .new)).headers = [] := by
  decide +kernel

theorem handled_under_static :
    (∃ w, IsStart (Request.parseWith (bytes "GET /static/a HTTP/1.1\r\n\r\n") (some .new)) w ∧
        LiesUnder w (bytes "/static")) ∧
      ((∀ pair ∈ (Request.parseWith (bytes "GET /static/a HTTP/1.1\r\n\r\n")
          (some .new)).headers, pair.1 ≠ bytes "Referer") →
        LiesUnder (Request.parseWith (bytes "GET /static/a HTTP/1.1\r\n\r\n") (some .new)).uri
          (bytes "/static")) :=
  handled_under (fun h _ response => .returned .ok response h) .ok
    (prefixServer (bytes "/static")) (bytes "GET /static/a HTTP/1.1\r\n\r\n")
    (bytes "/static", true, Request.parseWith (bytes "GET /static/a HTTP/1.1\r\n\r\n") (some .new))
    (by rw [handled_handleRead_of_select _ _ _ select_static]; exact List.mem_cons_self)
    (by decide)

/-- A request from a page below `/static`. -/
def secretFromStatic : Bytes :=
  bytes "GET /secret HTTP/1.1\r\nReferer: http://localhost/static/a\r\n\r\n"

/-- The `Referer` sends its URI to the handler of another prefix. -/
theorem not_handled_under_referer :
    (Request.parse secretFromStatic).parsedStatus = .good ∧
    ∃ call ∈ handled (handleRead (fun h _ response => .returned .ok response h) .ok
        (prefixServer (bytes "/static")) false secretFromStatic).events,
      call.1 ≠ defaultString ∧ ¬LiesUnder call.2.2.uri call.1 := by
  have hselect : select (prefixServer (bytes "/static")).pathToHandler
      (Request.parseWith secretFromStatic (some .new)) = .handler (bytes "/static") true := by
    decide +kernel
  have huri : (Request.parseWith secretFromStatic (some .new)).uri = bytes "/secret" := by
    decide +kernel
  have hkey : bytes "/static" ≠ defaultString := by decide
  refine ⟨by decide +kernel,
    (bytes "/static", true, Request.parseWith secretFromStatic (some .new)), ?_, hkey, ?_⟩
  · rw [handled_handleRead_of_select _ _ _ hselect]
    exact List.mem_cons_self
  · simp only [huri]
    rintro (heq | ⟨rest, heq⟩ | ⟨heq, -⟩)
    · exact absurd heq (by decide)
    · have hbegins : bytes "/static" <+: bytes "/secret" := ⟨_, heq.symm⟩
      exact absurd hbegins (by decide)
    · exact absurd heq (by decide)

end Connection
