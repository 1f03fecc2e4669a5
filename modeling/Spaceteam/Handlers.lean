/-
The handlers of the program, and what becomes of their failures.

`Handler` is the class hierarchy below `RequestHandler`; the file system, the
network and the shell the handlers use are an `Environment`.  `handle_read`
ignores the `Status` a handler returns: what the client and the counters get
is what the handler has left in the `Response`.

* `Handler.handleRequest_returned` — a handler that returns has set the status
  that belongs to its `Status`, unless it refuses the URI;
* `Connection.answers_iff` — so failures are answered with a 500 when the
  handler selected does not refuse the URI.
-/
import Spaceteam.ProxyHandler
import Spaceteam.Routing
import Spaceteam.S3Handler
import Spaceteam.StaticHandler

open RequestHandler

/-- A registered `RequestHandler`. -/
inductive Handler where
  | staticHandler (handler : StaticHandler)
  | echoHandler (handler : EchoHandler)
  | notFoundHandler (handler : NotFoundHandler)
  | statusHandler (handler : StatusHandler)
  | holdingHandler (handler : HoldingHandler)
  | proxyHandler (handler : ProxyHandler)
  | s3Handler (handler : S3Handler)
  deriving DecidableEq, Repr

/-- What the handlers use of the outside. -/
structure Environment where
  fs : FileSystem
  writeHtml : Bytes → Option Bytes
  upstream : Upstream
  popen : Bytes → Option Bytes

namespace Handler

/-- `HandleRequest`, with `fuel` connections for the proxy. -/
def handleRequest (env : Environment) (fuel : ℕ) : HandleRequest Handler
  | staticHandler handler, request, response =>
    (handler.handleRequest env.fs env.writeHtml request response).map staticHandler
  | echoHandler handler, request, response =>
    (handler.handleRequest request response).map echoHandler
  | notFoundHandler handler, request, response =>
    (handler.handleRequest request response).map notFoundHandler
  | statusHandler handler, request, response =>
    (handler.handleRequest request response).map statusHandler
  | holdingHandler handler, request, response =>
    (handler.handleRequest request response).map holdingHandler
  | proxyHandler handler, request, response =>
    (ProxyHandler.handleRequest env.upstream fuel handler request response).map proxyHandler
  | s3Handler handler, request, response =>
    (S3Handler.handleRequest env.popen handler request response).map s3Handler

/-- The handlers that return ERROR at once when the URI has nothing after their
prefix, or another beginning. -/
def Refuses (request : Request) : Handler → Prop
  | staticHandler handler => extendsPrefix request.uri handler.uriPrefix = false
  | s3Handler handler => extendsPrefix request.uri handler.uriPrefix = false
  | _ => False

end Handler

theorem RequestHandler.Outcome.map_eq_returned {H K : Type*} {f : H → K} {out : Outcome H}
    {status : Status} {response : Response} {k : K} :
    out.map f = .returned status response k ↔
      ∃ h, out = .returned status response h ∧ f h = k := by
  cases out <;> simp [Outcome.map, and_assoc]

namespace Handler

variable {env : Environment} {fuel : ℕ} {request : Request} {response response' : Response}
  {handler handler' : Handler} {status : Status}

theorem handleRequest_of_refuses (h : handler.Refuses request) :
    handler.handleRequest env fuel request response = .returned .error response handler := by
  cases handler with
  | staticHandler handler =>
    rcases handler.handleRequest_cases env.fs env.writeHtml request response with
      ⟨-, hout⟩ | ⟨hext, -⟩ | ⟨_, _, _, _, hnames, -⟩
    · rw [handleRequest, hout]
      rfl
    · rw [show _ = false from h] at hext
      cases hext
    · have hext := hnames.1
      rw [show _ = false from h] at hext
      cases hext
  | s3Handler handler =>
    simp only [Refuses] at h
    simp [handleRequest, S3Handler.handleRequest, h, Outcome.map]
  | echoHandler | notFoundHandler | statusHandler | holdingHandler | proxyHandler => cases h

/-- **A handler that returns has set the status that belongs to its `Status`**,
unless it refuses the URI. -/
theorem handleRequest_returned (hserver : request.serverStatus ≠ none)
    (hrefuses : ¬handler.Refuses request)
    (h : handler.handleRequest env fuel request response = .returned status response' handler') :
    status.Reported response' := by
  cases handler with
  | staticHandler handler =>
    rw [handleRequest] at h
    obtain ⟨_, hout, -⟩ := Outcome.map_eq_returned.mp h
    rcases handler.handleRequest_cases env.fs env.writeHtml request response with
      ⟨hext, -⟩ | ⟨-, h₁ | h₁⟩ | ⟨file, root, body, ext, -, -, -, h₁⟩
    · exact absurd hext hrefuses
    · rw [h₁] at hout
      cases hout
    · rw [h₁] at hout
      cases hout
      exact ⟨rfl, .inr rfl⟩
    · rw [h₁] at hout
      cases hout
      exact ⟨rfl, .inl rfl⟩
  | echoHandler handler =>
    cases h
    exact ⟨rfl, .inl rfl⟩
  | notFoundHandler handler =>
    cases h
    exact ⟨rfl, .inr rfl⟩
  | statusHandler handler =>
    obtain ⟨serverStatus, hstatus⟩ := Option.ne_none_iff_exists'.mp hserver
    simp only [handleRequest, StatusHandler.handleRequest, hstatus, Outcome.map] at h
    cases h
    exact ⟨rfl, .inl rfl⟩
  | holdingHandler handler => cases h
  | proxyHandler handler =>
    rw [handleRequest] at h
    obtain ⟨_, hout, -⟩ := Outcome.map_eq_returned.mp h
    exact ProxyHandler.handleRequest_returned hout
  | s3Handler handler =>
    have hext : extendsPrefix request.uri handler.uriPrefix = true := by
      simpa [Refuses] using hrefuses
    rw [handleRequest] at h
    obtain ⟨_, hout, -⟩ := Outcome.map_eq_returned.mp h
    simp only [S3Handler.handleRequest, S3Handler.answerKey, hext, if_true] at hout
    -- the command throws or its output is the body
    split at hout
    next => cases hout
    next =>
      cases hout
      exact ⟨rfl, .inl rfl⟩

end Handler

namespace Connection

/-- One more is counted for the code and the URI, and nothing else changes. -/
def CountsOne (before after : ServerStatus) (uri : Bytes) (code : ℤ) : Prop :=
  ∀ u k, after.count u k = if uri = u ∧ code = k then before.count u k + 1 else before.count u k

variable (env : Environment) (fuel : ℕ) (garbage : ResponseCode) (server : Server Handler)
  (received : Bytes)

/-- A call of `handle_read` tells the client and the counters how its handler
has ended, and writes nothing without a status line. -/
structure Answers (completion : Completion Handler) : Prop where
  error : ∀ path h request response h',
    handled completion.events = [(path, h, request)] →
    h.handleRequest env fuel request (.fresh garbage) = .returned .error response h' →
    ∃ data, written completion.events = [data] ∧
      bytes "HTTP/1.1 500 Internal Server Error\r\n" <+: data ∧
      CountsOne server.serverStatus completion.server.serverStatus request.uri 500
  ok : ∀ path h request response h',
    handled completion.events = [(path, h, request)] →
    h.handleRequest env fuel request (.fresh garbage) = .returned .ok response h' →
    ∃ data n, written completion.events = [data] ∧
      bytes "HTTP/1.1 " ++ decimal n ++ bytes " " <+: data ∧
      CountsOne server.serverStatus completion.server.serverStatus request.uri n
  statusLine : ∀ data ∈ written completion.events, ∃ code : ResponseCode,
    code.statusLine ++ Bytes.crlf <+: data

/-- What is written for a handler that refuses the URI has no status line. -/
theorem not_answers_of_refuses {path : Bytes} {h : Handler}
    (hselect : select server.pathToHandler
      (Request.parseWith received (some server.serverStatus)) = .handler path h)
    (hrefuses : h.Refuses (Request.parseWith received (some server.serverStatus))) :
    ¬Answers env fuel garbage server
      (handleRead (Handler.handleRequest env fuel) garbage server false received) := by
  intro hanswers
  have hwritten : (Response.fresh garbage).toString ∈
      written
        (handleRead (Handler.handleRequest env fuel) garbage server false received).events := by
    unfold handleRead
    simp [hselect, Handler.handleRequest_of_refuses hrefuses, written]
  -- four bytes are written, fewer than any status line has
  obtain ⟨code, hcode⟩ := hanswers.statusLine _ hwritten
  have hlen := hcode.length_le
  have hline : 15 ≤ code.statusLine.length := by
    cases code with
    | unlisted value =>
      exact (by decide : 15 ≤ (bytes "HTTP/1.1 500 Internal Server Error").length)
    | _ => decide
  have hfresh : (Response.fresh garbage).toString.length = 4 := rfl
  rw [List.length_append, hfresh] at hlen
  omega

theorem answers_of_no_events {completion : Completion Handler} (h : completion.events = []) :
    Answers env fuel garbage server completion := by
  constructor <;> simp [h, handled, written]

/-- What is written for a handler that has reported its status. -/
theorem answers_of_not_refuses {path : Bytes} {h : Handler}
    (hselect : select server.pathToHandler
      (Request.parseWith received (some server.serverStatus)) = .handler path h)
    (hrefuses : ¬h.Refuses (Request.parseWith received (some server.serverStatus))) :
    Answers env fuel garbage server
      (handleRead (Handler.handleRequest env fuel) garbage server false received) := by
  have hhandled :=
    handled_handleRead_of_select (Handler.handleRequest env fuel) garbage server hselect
  set request := Request.parseWith received (some server.serverStatus) with hrequest
  have hreported : ∀ {status response h'},
      h.handleRequest env fuel request (.fresh garbage) = .returned status response h' →
        status.Reported response :=
    fun hout => Handler.handleRequest_returned (by simp [hrequest, Request.parseWith]) hrefuses hout
  constructor
  · -- ERROR: the response has been given the status 500
    intro path' h' request' response k heq hout
    rw [hhandled] at heq
    cases heq
    obtain ⟨hstatus, hraw⟩ := hreported hout
    have hline := Response.toString_of_hasStatus hstatus
    rw [hraw] at hline
    rw [handleRead_of_returned _ _ _ hselect hout]
    refine ⟨_, rfl, hline, fun u k => ?_⟩
    rw [ServerStatus.count_updateStatus, Response.getResponseCode, hraw]
    rfl
  · -- OK: the code is one that is counted under its own number
    intro path' h' request' response k heq hout
    rw [hhandled] at heq
    cases heq
    obtain ⟨hstatus, hraw⟩ := hreported hout
    have hline := Response.toString_of_hasStatus hstatus
    rw [handleRead_of_returned _ _ _ hselect hout]
    rcases hraw with hraw | hraw
    · rw [hraw] at hline
      refine ⟨_, 200, rfl, List.IsPrefix.trans ⟨bytes "OK\r\n", by decide⟩ hline, fun u k => ?_⟩
      rw [ServerStatus.count_updateStatus, Response.getResponseCode, hraw]
      rfl
    · rw [hraw] at hline
      refine ⟨_, 404, rfl, List.IsPrefix.trans ⟨bytes "Not Found\r\n", by decide⟩ hline,
        fun u k => ?_⟩
      rw [ServerStatus.count_updateStatus, Response.getResponseCode, hraw]
      rfl
  · -- a handler that throws or keeps running has nothing written for it
    intro data hdata
    rcases hout : h.handleRequest env fuel request (.fresh garbage) with
      ⟨status, response, h'⟩ | ⟨h'⟩ | _
    · rw [handleRead_of_returned _ _ _ hselect hout] at hdata
      obtain rfl : data = response.toString := by simpa [written] using hdata
      have hstatus : response.HasStatus := by
        cases status with
        | ok => exact (hreported hout).1
        | error => exact (hreported hout).1
      exact ⟨_, Response.toString_of_hasStatus hstatus⟩
    · simp [handleRead, ← hrequest, hselect, hout, written] at hdata
    · simp [handleRead, ← hrequest, hselect, hout, written] at hdata

/-- **When failures are answered**: the handler the request is routed to does
not refuse its URI. -/
theorem answers_iff :
    Answers env fuel garbage server
        (handleRead (Handler.handleRequest env fuel) garbage server false received) ↔
      ∀ path h, Routed server.pathToHandler
          (Request.parseWith received (some server.serverStatus)) path h →
        ¬h.Refuses (Request.parseWith received (some server.serverStatus)) := by
  constructor
  · intro hanswers path h hrouted hrefuses
    exact not_answers_of_refuses env fuel garbage server received
      (select_eq_handler_iff.mpr hrouted) hrefuses hanswers
  · intro hrouted
    rcases hselect : select server.pathToHandler
        (Request.parseWith received (some server.serverStatus)) with ⟨path, h⟩ | _ | _
    · exact answers_of_not_refuses env fuel garbage server received hselect
        (hrouted path h (select_eq_handler_iff.mp hselect))
    · exact answers_of_no_events env fuel garbage server (by simp [handleRead, hselect])
    · exact answers_of_no_events env fuel garbage server (by simp [handleRead, hselect])

/-- Static files below a prefix. -/
def staticServer : Server Handler where
  pathToHandler := Std.ExtTreeMap.ofList
    [(defaultString, Handler.notFoundHandler ⟨⟩),
      (bytes "/static", Handler.staticHandler ⟨bytes "/static", bytes "/srv"⟩)]
  serverStatus := .new

/-- A machine without files, network or commands. -/
def bareEnvironment : Environment where
  fs := { status := fun _ => some .notFound, canonical := fun _ => none, read := fun _ => none }
  writeHtml := some
  upstream := fun _ _ _ => none
  popen := fun _ => none

theorem not_answers_bare_prefix :
    ¬Answers bareEnvironment 0 .ok staticServer
      (handleRead (Handler.handleRequest bareEnvironment 0) .ok staticServer false
        (bytes "GET /static HTTP/1.1\r\n\r\n")) := by
  have hselect : select staticServer.pathToHandler
      (Request.parseWith (bytes "GET /static HTTP/1.1\r\n\r\n") (some .new)) =
      .handler (bytes "/static") (.staticHandler ⟨bytes "/static", bytes "/srv"⟩) := by
    decide +kernel
  refine not_answers_of_refuses bareEnvironment 0 .ok staticServer _ hselect ?_
  show extendsPrefix _ _ = false
  decide

end Connection
