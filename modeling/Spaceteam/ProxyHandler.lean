/-
The reverse proxy (`proxy_handler.h`, `proxy_handler.cc`).

The network is a parameter: what comes of the n-th connection of a call, given
the host and the bytes sent.  A reply arrives in segments; `read_until` takes
whole segments into the buffer until the delimiter is there, `read` takes all
that come until an error and reports how many bytes they had.  Behind an error
other than `eof` a further `read` may find more.

* `ProxyHandler.handleRequest_returned` — a call that returns OK has set a
  status, one that returns ERROR has set the status 500;
* `ProxyHandler.Reaches` — the handler and the response after some
  redirections, from which the call goes on (`Reaches.handleRequest_add`);
* `ProxyHandler.running_or_ends` — a call ends in a pass it has reached.
-/
import Spaceteam.InputStream
import Spaceteam.RequestHandler

open RequestHandler

/-- How a `read` of all that comes ends: with `eof`, or with another error, and
then with what a further `read` finds. -/
inductive StreamEnd where
  | eof
  | error (segments : List Bytes) (ending : StreamEnd)
  deriving DecidableEq, Repr

/-- What a connected host sends. -/
structure Reply where
  segments : List Bytes
  ending : StreamEnd
  deriving DecidableEq, Repr

/-- The n-th connection of a call, to a host, sending these bytes; `none` when
resolving, connecting or writing throws. -/
abbrev Upstream := ℕ → Bytes → Bytes → Option Reply

structure ProxyHandler where
  uriPrefix : Bytes
  host : Bytes
  portno : Bytes
  deriving DecidableEq, Repr

namespace ProxyHandler

/-- The request target sent upstream for a URI. -/
def target (handler : ProxyHandler) (requestUri : Bytes) : Bytes :=
  let uri := if requestUri = handler.uriPrefix then bytes "/" else requestUri
  if extendsPrefix uri handler.uriPrefix then uri.drop handler.uriPrefix.length else uri

/-- The bytes written upstream. -/
def upstreamRequest (handler : ProxyHandler) (uri : Bytes) : Bytes :=
  bytes "GET " ++ uri ++ bytes " HTTP/1.1\r\n"
    ++ (bytes "Host: " ++ handler.host ++ bytes "\r\n")
    ++ bytes "Accept: */*\r\n"
    ++ bytes "Connection: close\r\n\r\n"

/-- `read_until`: the buffer once it has the delimiter, and the segments that
have not been read; `none` when the stream ends first and it throws. -/
def readUntil (delim : Bytes) : Bytes → List Bytes → Option (Bytes × List Bytes)
  | buffer, [] => if buffer.contains delim then some (buffer, []) else none
  | buffer, segment :: segments =>
    if buffer.contains delim then some (buffer, segment :: segments)
    else readUntil delim (buffer ++ segment) segments

/-- A header line cut at `find(":")`; `none` when `substr` throws.  Without a
colon the position is -1: the name is the whole line, the value starts at 1. -/
def headerField (line : Bytes) : Option (Bytes × Bytes) :=
  match line.findFrom (ascii ':') 0 with
  | some pos => (line.substr (pos + 2)).map fun value => (line.take pos, value)
  | none => (line.substr 1).map fun value => (line, value)

/-- The host a `Location` names; `none` when `substr` throws.  Without a colon
the host starts at `npos + 3`, which is 2. -/
def redirectHost (value : Bytes) : Option Bytes :=
  let start := match value.findFrom (ascii ':') 0 with
    | some pos => pos + 3
    | none => 2
  (value.substr start).map fun host =>
    -- a length below two wraps, and all of the string is kept
    if host.length < 2 then host else host.take (host.length - 2)

/-- How the loop over the header lines ends. -/
inductive HeaderLoop where
  | done (handler : ProxyHandler) (response : Response) (buffer : Bytes)
  | threw (handler : ProxyHandler)

/-- The loop over the header lines. -/
def readHeaders (statusCode : UInt32) (stream : IStream) (handler : ProxyHandler)
    (response : Response) : HeaderLoop :=
  let currheader := stream.getline.1
  if _h : stream.getline.2.failbit = true ∨ currheader = bytes "\r" then
    .done handler response stream.getline.2.buffer
  else
    match headerField currheader with
    | none => .threw handler
    | some (name, value) =>
      let response := response.addHeader name value
      if statusCode = 302 ∧ name = bytes "Location" then
        match redirectHost value with
        | none => .threw { handler with host := value }
        | some host =>
          readHeaders statusCode stream.getline.2 { handler with host := host } response
      else readHeaders statusCode stream.getline.2 handler response
termination_by stream.buffer.length
decreasing_by all_goals exact IStream.length_getline fun hfail => _h (.inl hfail)

/-- The loop over the content; `none` when it ends with another error than `eof`,
which is thrown.  It ends when `read` returns 0, and reads again behind an error
that came after some bytes; these replace the body. -/
def readBody (resp : Bytes) (segments : List Bytes) (response : Response) :
    StreamEnd → Option Response
  | .eof =>
    if segments.flatten.isEmpty then some response
    else some (response.setBody (resp ++ segments.flatten))
  | .error segments' ending =>
    if segments.flatten.isEmpty then none
    else readBody [] segments' (response.setBody (resp ++ segments.flatten)) ending

theorem readBody_eof (resp : Bytes) (segments : List Bytes) (response : Response) :
    readBody resp segments response .eof =
      some (if segments.flatten.isEmpty then response
        else response.setBody (resp ++ segments.flatten)) := by
  rw [readBody]
  split_ifs <;> rfl

/-- How one pass of the outer loop ends. -/
inductive Exchange where
  | again (handler : ProxyHandler) (response : Response)
  | returned (status : Status) (handler : ProxyHandler) (response : Response)
  | threw (handler : ProxyHandler)

/-- One pass of the outer loop, once connected. -/
def exchange (reply : Reply) (handler : ProxyHandler) (response : Response) : Exchange :=
  match readUntil (bytes "\r\n") [] reply.segments with
  | none => .threw handler
  | some (resp, segments) =>
    let (httpVersion, stream) := (IStream.ofBuffer resp).extractWord
    let (statusCode, stream) := stream.extractUnsigned
    let (_statusMessage, stream) := stream.getline
    let response := response.setStatus (if statusCode = 200 then .ok else .notFound)
    if stream.failbit ∨ httpVersion.take 5 ≠ bytes "HTTP/" then
      .returned .error handler (response.setStatus .internalServerError)
    else
      match readUntil (bytes "\r\n\r\n") stream.buffer segments with
      | none => .threw handler
      | some (resp, segments) =>
        match readHeaders statusCode { stream with buffer := resp } handler response with
        | .threw handler => .threw handler
        | .done handler response resp =>
          match readBody resp segments response reply.ending with
          | none => .threw handler
          | some response =>
            if statusCode ≠ 302 then .returned .ok handler response
            else .again handler response

/-- The outer loop: the `n`-th connection and those after it. -/
def redirectLoop (upstream : Upstream) (request : Request) :
    ℕ → ℕ → ProxyHandler → Response → Outcome ProxyHandler
  | 0, _, _, _ => .running
  | fuel + 1, n, handler, response =>
    match upstream n handler.host (handler.upstreamRequest (handler.target request.uri)) with
    | none => .threw handler
    | some reply =>
      match exchange reply handler response with
      | .threw handler => .threw handler
      | .returned status handler response => .returned status response handler
      | .again handler response => redirectLoop upstream request fuel (n + 1) handler response

/-- `HandleRequest`, followed for `fuel` connections. -/
def handleRequest (upstream : Upstream) (fuel : ℕ) (handler : ProxyHandler) (request : Request)
    (response : Response) : Outcome ProxyHandler :=
  redirectLoop upstream request fuel 0 handler response

/-! ### The status of the response -/

/-- The headers do not touch the status. -/
theorem readHeaders_done {statusCode : UInt32} {stream : IStream}
    {handler handler' : ProxyHandler} {response response' : Response} {buffer : Bytes}
    (h : readHeaders statusCode stream handler response = .done handler' response' buffer) :
    response'.status = response.status ∧ response'.rawStatus = response.rawStatus := by
  fun_induction readHeaders statusCode stream handler response with
  | case1 stream handler response line hdone =>
    cases h
    exact ⟨rfl, rfl⟩
  | case2 => cases h
  | case3 => cases h
  | case4 stream handler response line hgo name value hfield response₁ hlocation host hhost ih =>
    exact ih h
  | case5 stream handler response line hgo name value hfield response₁ hlocation ih =>
    exact ih h

/-- Nor does the content. -/
theorem readBody_some {resp : Bytes} {segments : List Bytes} {response response' : Response}
    {ending : StreamEnd} (h : readBody resp segments response ending = some response') :
    response'.status = response.status ∧ response'.rawStatus = response.rawStatus := by
  induction ending generalizing resp segments response with
  | eof =>
    rw [readBody] at h
    split_ifs at h
    · cases h
      exact ⟨rfl, rfl⟩
    · cases h
      exact ⟨rfl, rfl⟩
  | error segments' ending ih =>
    rw [readBody] at h
    split_ifs at h
    have hlater := ih h
    exact hlater

/-- A pass that ends the call has reported its status. -/
theorem exchange_returned {reply : Reply} {handler handler' : ProxyHandler}
    {response response' : Response} {status : Status}
    (h : exchange reply handler response = .returned status handler' response') :
    status.Reported response' := by
  unfold exchange at h
  split at h
  next => cases h
  next resp segments hline =>
    simp only at h
    split at h
    next =>
      cases h
      exact ⟨rfl, rfl⟩
    next =>
      split at h
      next => cases h
      next resp' segments' hheaders =>
        split at h
        next => cases h
        next handler₁ response₁ buffer hdone =>
          -- past the headers the status is the one set before them
          obtain ⟨hstatus, hraw⟩ := readHeaders_done hdone
          split at h
          next => cases h
          next response₂ hbody =>
            obtain ⟨hstatus', hraw'⟩ := readBody_some hbody
            split at h
            next =>
              cases h
              refine ⟨by rw [Response.HasStatus, hstatus', hstatus, hraw', hraw]; rfl, ?_⟩
              rw [hraw', hraw, Response.rawStatus_setStatus]
              split_ifs
              · exact .inl rfl
              · exact .inr rfl
            next => cases h

/-- A call that returns has reported its status. -/
theorem redirectLoop_returned {upstream : Upstream} {request : Request} {fuel n : ℕ}
    {handler handler' : ProxyHandler} {response response' : Response} {status : Status}
    (h : redirectLoop upstream request fuel n handler response =
      .returned status response' handler') : status.Reported response' := by
  induction fuel generalizing n handler response with
  | zero => cases h
  | succ fuel ih =>
    rw [redirectLoop] at h
    split at h
    next => cases h
    next reply =>
      split at h
      next => cases h
      next hexchange =>
        cases h
        exact exchange_returned hexchange
      next => exact ih h

theorem handleRequest_returned {upstream : Upstream} {request : Request} {fuel : ℕ}
    {handler handler' : ProxyHandler} {response response' : Response} {status : Status}
    (h : handleRequest upstream fuel handler request response =
      .returned status response' handler') : status.Reported response' :=
  redirectLoop_returned h

/-! ### Runs of the outer loop -/

/-- What the call comes to when a pass has ended, `next` being the passes after it. -/
def Exchange.outcome (next : ProxyHandler → Response → Outcome ProxyHandler) :
    Exchange → Outcome ProxyHandler
  | .threw handler => .threw handler
  | .returned status handler response => .returned status response handler
  | .again handler response => next handler response

section Runs

variable (upstream : Upstream) (request : Request) (handler : ProxyHandler) (response : Response)

/-- After `n` redirections a call has this handler and response. -/
inductive Reaches : ℕ → ProxyHandler → Response → Prop
  | start : Reaches 0 handler response
  | again {n : ℕ} {h h' : ProxyHandler} {r r' : Response} {reply : Reply} (hreach : Reaches n h r)
    (hreply : upstream n h.host (h.upstreamRequest (h.target request.uri)) = some reply)
    (hexchange : exchange reply h r = .again h' r') : Reaches (n + 1) h' r'

variable {upstream request handler response}

theorem redirectLoop_succ {fuel n : ℕ} {h : ProxyHandler} {r : Response} {reply : Reply}
    (hreply : upstream n h.host (h.upstreamRequest (h.target request.uri)) = some reply) :
    redirectLoop upstream request (fuel + 1) n h r =
      (exchange reply h r).outcome (redirectLoop upstream request fuel (n + 1)) := by
  rw [redirectLoop]
  simp only [hreply]
  cases exchange reply h r <;> rfl

/-- The call goes on from what it has reached. -/
theorem Reaches.handleRequest_add {n : ℕ} {h : ProxyHandler} {r : Response}
    (hreach : Reaches upstream request handler response n h r) (fuel : ℕ) :
    handleRequest upstream (n + fuel) handler request response =
      redirectLoop upstream request fuel n h r := by
  induction hreach generalizing fuel with
  | start => rw [Nat.zero_add, handleRequest]
  | @again n h h' r r' reply _ hreply hexchange ih =>
    rw [show n + 1 + fuel = n + (fuel + 1) by omega, ih, redirectLoop_succ hreply, hexchange]
    rfl

/-- Until it has gone on it does not end. -/
theorem Reaches.handleRequest_of_le {n : ℕ} {h : ProxyHandler} {r : Response}
    (hreach : Reaches upstream request handler response n h r) {fuel : ℕ} (hfuel : fuel ≤ n) :
    handleRequest upstream fuel handler request response = .running := by
  induction hreach with
  | start =>
    obtain rfl := Nat.le_zero.mp hfuel
    rfl
  | @again n h h' r r' reply hreach hreply hexchange ih =>
    rcases Nat.le_succ_iff.mp hfuel with hle | rfl
    · exact ih hle
    · rw [hreach.handleRequest_add 1, redirectLoop_succ hreply, hexchange]
      rfl

/-- A call that reaches a reply which ends it returns what comes of that reply. -/
theorem Reaches.returned_iff {n : ℕ} {h : ProxyHandler} {r : Response} {reply : Reply}
    (hreach : Reaches upstream request handler response n h r)
    (hreply : upstream n h.host (h.upstreamRequest (h.target request.uri)) = some reply)
    (hends : ∀ h' r', exchange reply h r ≠ .again h' r') (status : Status) (h' : ProxyHandler)
    (r' : Response) :
    (∃ fuel, handleRequest upstream fuel handler request response = .returned status r' h') ↔
      exchange reply h r = .returned status h' r' := by
  have hout : ∀ fuel, handleRequest upstream (n + (fuel + 1)) handler request response =
      .returned status r' h' ↔ exchange reply h r = .returned status h' r' := by
    intro fuel
    rw [hreach.handleRequest_add (fuel + 1), redirectLoop_succ hreply]
    rcases hexchange : exchange reply h r with ⟨h'', r''⟩ | ⟨status'', h'', r''⟩ | h''
    · exact absurd hexchange (hends h'' r'')
    · simp only [Exchange.outcome, Outcome.returned.injEq, Exchange.returned.injEq]
      tauto
    · simp [Exchange.outcome]
  constructor
  · rintro ⟨fuel, hfuel⟩
    rcases Nat.lt_or_ge n fuel with hlt | hge
    · obtain ⟨k, rfl⟩ : ∃ k, fuel = n + (k + 1) := ⟨fuel - n - 1, by omega⟩
      exact (hout k).mp hfuel
    · rw [hreach.handleRequest_of_le hge] at hfuel
      cases hfuel
  · intro hexchange
    exact ⟨n + 1, (hout 0).mpr hexchange⟩

variable (upstream request handler response)

/-- How a call ends in a pass it has reached. -/
inductive Ends : Outcome ProxyHandler → Prop
  | unconnected {n : ℕ} {h : ProxyHandler} {r : Response}
    (hreach : Reaches upstream request handler response n h r)
    (hnone : upstream n h.host (h.upstreamRequest (h.target request.uri)) = none) :
    Ends (.threw h)
  | threw {n : ℕ} {h h' : ProxyHandler} {r : Response} {reply : Reply}
    (hreach : Reaches upstream request handler response n h r)
    (hreply : upstream n h.host (h.upstreamRequest (h.target request.uri)) = some reply)
    (hexchange : exchange reply h r = .threw h') : Ends (.threw h')
  | returned {n : ℕ} {h h' : ProxyHandler} {r r' : Response} {reply : Reply} {status : Status}
    (hreach : Reaches upstream request handler response n h r)
    (hreply : upstream n h.host (h.upstreamRequest (h.target request.uri)) = some reply)
    (hexchange : exchange reply h r = .returned status h' r') : Ends (.returned status r' h')

variable {upstream request handler response}

theorem Ends.exists_fuel {outcome : Outcome ProxyHandler}
    (hends : Ends upstream request handler response outcome) :
    ∃ fuel, handleRequest upstream fuel handler request response = outcome := by
  cases hends with
  | @unconnected n h r hreach hnone =>
    refine ⟨n + 1, ?_⟩
    rw [hreach.handleRequest_add 1, redirectLoop]
    simp only [hnone]
  | @threw n h h' r reply hreach hreply hexchange =>
    refine ⟨n + 1, ?_⟩
    rw [hreach.handleRequest_add 1, redirectLoop_succ hreply, hexchange]
    rfl
  | @returned n h h' r r' reply status hreach hreply hexchange =>
    refine ⟨n + 1, ?_⟩
    rw [hreach.handleRequest_add 1, redirectLoop_succ hreply, hexchange]
    rfl

/-- **A call that has not gone on has ended in a pass it has reached.** -/
theorem running_or_ends (upstream : Upstream) (request : Request) (handler : ProxyHandler)
    (response : Response) (fuel : ℕ) :
    handleRequest upstream fuel handler request response = .running ∨
      Ends upstream request handler response
        (handleRequest upstream fuel handler request response) := by
  -- the passes are reached one after another
  have hloop : ∀ fuel n h r, Reaches upstream request handler response n h r →
      redirectLoop upstream request fuel n h r = .running ∨
        Ends upstream request handler response (redirectLoop upstream request fuel n h r) := by
    intro fuel
    induction fuel with
    | zero => exact fun n h r _ => .inl rfl
    | succ fuel ih =>
      intro n h r hreach
      rcases hreply : upstream n h.host (h.upstreamRequest (h.target request.uri)) with _ | reply
      · rw [redirectLoop]
        simp only [hreply]
        exact .inr (.unconnected hreach hreply)
      · rw [redirectLoop_succ hreply]
        rcases hexchange : exchange reply h r with ⟨h', r'⟩ | ⟨status, h', r'⟩ | h'
        · exact ih (n + 1) h' r' (.again hreach hreply hexchange)
        · exact .inr (.returned hreach hreply hexchange)
        · exact .inr (.threw hreach hreply hexchange)
  exact hloop fuel 0 handler response .start

/-- The call returns. -/
def Returns (upstream : Upstream) (request : Request) (handler : ProxyHandler)
    (response : Response) : Prop :=
  ∃ fuel status response' handler',
    handleRequest upstream fuel handler request response = .returned status response' handler'

/-- It returns in a pass that it reaches. -/
theorem returns_iff_exists_pass : Returns upstream request handler response ↔
    ∃ n h r reply status h' r', Reaches upstream request handler response n h r ∧
      upstream n h.host (h.upstreamRequest (h.target request.uri)) = some reply ∧
      exchange reply h r = .returned status h' r' := by
  constructor
  · rintro ⟨fuel, status, r', h', hout⟩
    rcases running_or_ends upstream request handler response fuel with hrunning | hends
    · rw [hout] at hrunning
      cases hrunning
    · rw [hout] at hends
      cases hends with
      | @returned n h h' r r' reply status hreach hreply hexchange =>
        exact ⟨n, h, r, reply, status, h', r', hreach, hreply, hexchange⟩
  · rintro ⟨n, h, r, reply, status, h', r', hreach, hreply, hexchange⟩
    obtain ⟨fuel, hout⟩ := (Ends.returned hreach hreply hexchange).exists_fuel
    exact ⟨fuel, status, r', h', hout⟩

end Runs

end ProxyHandler
