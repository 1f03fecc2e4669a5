/-
The running server of a configuration, from the text to the responses.

`main` makes a server from a configuration file and runs it.  Which handler a
request belongs to can be read off the statements of the configuration: the one
declared at the longest path above the URI, or above the path of the last
`Referer`, or else the default one.  The handlers other than the status page and a proxy that is redirected keep nothing
and look at nothing but the request, so that the responses of a running server
are what the declarations say.

* `Server.routed_iff` — the table of an accepted configuration routes a request
  as its declarations do;
* `Server.answered_as_configured` — so every response of a run belongs to a
  declaration, and is the one its handler makes of what was read;
* `Server.ended_as_configured` — what was read when the process ends.
-/
import Spaceteam.ConfigOrder
import Spaceteam.ConfigText
import Spaceteam.ProxyHistory
import Spaceteam.ServerAnswers

open RequestHandler Interleaving

theorem RequestHandler.Outcome.map_eq_threw {H K : Type*} {f : H → K} {out : Outcome H} {k : K} :
    out.map f = .threw k ↔ ∃ h, out = .threw h ∧ f h = k := by
  cases out <;> simp [Outcome.map]

namespace Handler

/-- `HandleRequest` through a pointer of the table.  A call on a null pointer
is not defined; it is taken to end the process. -/
def handlePointer (env : Environment) (fuel : ℕ) : HandleRequest (Option Handler)
  | none, _, _ => .threw none
  | some handler, request, response => (handler.handleRequest env fuel request response).map some

/-- What the handler answers depends on nothing but the request: it is not the
status page, and if it is a proxy, its host redirects nobody. -/
def Steady (env : Environment) : Handler → Prop
  | .statusHandler _ => False
  | .proxyHandler handler => ∀ n uri reply,
      env.upstream n handler.host (handler.upstreamRequest (handler.target uri)) = some reply →
        ¬ProxyHandler.Redirects reply
  | _ => True

theorem keeps_staticHandler (env : Environment) (handler : StaticHandler) (request : Request)
    (response : Response) :
    (handler.handleRequest env.fs env.writeHtml request response).Leaves handler := by
  rcases handler.handleRequest_cases env.fs env.writeHtml request response with
    ⟨-, hout⟩ | ⟨-, hout | hout⟩ | ⟨_, _, _, _, -, -, -, hout⟩
  all_goals
    rw [hout]
    rfl

theorem keeps_s3Handler (env : Environment) (handler : S3Handler) (request : Request)
    (response : Response) :
    (S3Handler.handleRequest env.popen handler request response).Leaves handler := by
  unfold S3Handler.handleRequest S3Handler.answerKey
  simp only
  split_ifs
  · split <;> rfl
  · rfl

/-- A call through a pointer leaves it as it was when the class does. -/
theorem leaves_map {K : Type*} {f : K → Handler} {k : K} {out : Outcome K} (h : out.Leaves k) :
    ((out.map f).map some).Leaves (some (f k)) := by
  cases out with
  | returned status response k' =>
    obtain rfl : k' = k := h
    rfl
  | threw k' =>
    obtain rfl : k' = k := h
    rfl
  | running => trivial

/-- A proxy whose host does not redirect stays as it is. -/
theorem keeps_redirectLoop {upstream : Upstream} {request : Request} {handler : ProxyHandler}
    (hno : ∀ n reply, upstream n handler.host
      (handler.upstreamRequest (handler.target request.uri)) = some reply →
        ¬ProxyHandler.Redirects reply) (fuel n : ℕ) (response : Response) :
    (ProxyHandler.redirectLoop upstream request fuel n handler response).Leaves handler := by
  induction fuel generalizing n response with
  | zero => trivial
  | succ fuel ih =>
    rw [ProxyHandler.redirectLoop]
    rcases hreply : upstream n handler.host
        (handler.upstreamRequest (handler.target request.uri)) with _ | reply
    · rfl
    · simp only
      rcases ProxyHandler.exchange_keeps (hno n reply hreply) handler response with
        ⟨status, response', hreturned⟩ | ⟨response', hagain⟩ | hthrew
      · rw [hreturned]
        rfl
      · -- a 302 without a `Location` asks the same host again
        rw [hagain]
        exact ih (n + 1) response'
      · rw [hthrew]
        rfl

/-- Only a proxy that is redirected keeps anything of a request. -/
theorem keeps_of_steady (env : Environment) (fuel : ℕ) {handler : Handler}
    (h : ∀ proxy, handler = .proxyHandler proxy → handler.Steady env) :
    Keeps (handlePointer env fuel) (some handler) := by
  intro request response
  cases handler with
  | staticHandler handler => exact leaves_map (keeps_staticHandler env handler request response)
  | s3Handler handler => exact leaves_map (keeps_s3Handler env handler request response)
  | echoHandler _ | notFoundHandler _ => rfl
  | holdingHandler _ => trivial
  | statusHandler handler =>
    refine leaves_map ?_
    unfold StatusHandler.handleRequest
    simp only
    split <;> rfl
  | proxyHandler proxy =>
    have hsteady := h proxy rfl
    exact leaves_map (keeps_redirectLoop (fun n => hsteady n request.uri) fuel 0 response)

/-- The loop of the proxy looks at the URI of the request and nothing else. -/
theorem redirectLoop_ignores (upstream : Upstream) (request : Request)
    (status : Option ServerStatus) (fuel n : ℕ) (handler : ProxyHandler) (response : Response) :
    ProxyHandler.redirectLoop upstream { request with serverStatus := status } fuel n handler
        response =
      ProxyHandler.redirectLoop upstream request fuel n handler response := by
  induction fuel generalizing n handler response with
  | zero => rfl
  | succ fuel ih => simp only [ProxyHandler.redirectLoop, ih]

/-- **Steady handlers are detached.** -/
theorem detached_of_steady (env : Environment) (fuel : ℕ) {handler : Handler}
    (h : handler.Steady env) : Detached (handlePointer env fuel) (some handler) where
  keeps := keeps_of_steady env fuel fun _ _ => h
  ignores request status response := by
    cases handler with
    | statusHandler _ => exact absurd h id
    | proxyHandler proxy =>
      exact congrArg (fun out => (out.map Handler.proxyHandler).map some)
        (redirectLoop_ignores env.upstream request status fuel 0 proxy response)
    | _ => rfl

/-- The handlers that throw are among those that read their child block: they
open files, start commands or connect to other hosts. -/
theorem readsConfig_of_threw {env : Environment} {fuel : ℕ} {handler handler' : Handler}
    {request : Request} {response : Response}
    (hout : handler.handleRequest env fuel request response = .threw handler') :
    handler.ReadsConfig := by
  cases handler with
  | staticHandler _ | s3Handler _ | proxyHandler _ => trivial
  | statusHandler handler =>
    simp only [handleRequest, StatusHandler.handleRequest] at hout
    split at hout <;> cases hout
  | _ => cases hout

end Handler

namespace Server

variable {text : Bytes} {garbage : ℤ} {config : NginxConfig} {info : ServerInfo}

/-! ### What a configuration says about a request -/

/-- A statement of the configuration declares a handler for the path. -/
def DeclaredAt (config : NginxConfig) (path : Bytes) : Prop :=
  ∃ statement ∈ config, Declares statement path

/-- The path whose declaration a request belongs to: the longest one that is
declared above the path looked up, or `default` when there is none. -/
def BelongsTo (config : NginxConfig) (request : Request) (path : Bytes) : Prop :=
  Connection.ReferersHavePath request ∧ DeclaredAt config path ∧ ∃ w, Connection.IsStart request w ∧
    (Connection.IsCandidate w path ∧
        (∀ p, Connection.IsCandidate w p → DeclaredAt config p → p.length ≤ path.length) ∨
      path = Connection.defaultString ∧
        ∀ p, Connection.IsCandidate w p → ¬DeclaredAt config p)

theorem lastDeclaration_isSome {path : Bytes} :
    (lastDeclaration config path).isSome ↔ DeclaredAt config path := by
  rw [lastDeclaration, List.getLast?_isSome, ← List.length_pos_iff, List.length_pos_iff_exists_mem]
  constructor
  · rintro ⟨statement, hst⟩
    obtain ⟨hmem, hkey⟩ := List.mem_filter.mp hst
    obtain ⟨⟨name, handlerId⟩, hdeclares, rfl⟩ := Option.map_eq_some_iff.mp (of_decide_eq_true hkey)
    exact ⟨statement, hmem, handlerId, hdeclares⟩
  · rintro ⟨statement, hmem, handlerId, hdeclares⟩
    exact ⟨statement, List.mem_filter.mpr ⟨hmem, by simp [hdeclares]⟩⟩

/-- The keys of the table are the paths declared. -/
theorem mem_table_iff
    (hload : (LoadState.initial (.fresh garbage)).load config = .returned true info)
    (hall : ∀ i, ¬RefusedAt config i ∧ ¬FaultyAt config i) (path : Bytes) :
    path ∈ info.uriPrefixToHandler ↔ DeclaredAt config path := by
  rw [Std.ExtTreeMap.mem_iff_isSome_getElem?, getElem?_table hload hall, Option.isSome_map,
    lastDeclaration_isSome]

/-- **The table routes as the configuration declares.** -/
theorem routed_iff
    (hload : (LoadState.initial (.fresh garbage)).load config = .returned true info)
    (hall : ∀ i, ¬RefusedAt config i ∧ ¬FaultyAt config i) {request : Request} {path : Bytes}
    {pointer : Option Handler} :
    Connection.Routed info.uriPrefixToHandler request path pointer ↔
      BelongsTo config request path ∧ ∃ statement, lastDeclaration config path = some statement ∧
        (declared statement).map Prod.snd = pointer := by
  have hkeys := mem_table_iff hload hall
  have hpointer : info.uriPrefixToHandler[path]? = some pointer ↔
      ∃ statement, lastDeclaration config path = some statement ∧
        (declared statement).map Prod.snd = pointer := by
    rw [getElem?_table hload hall, Option.map_eq_some_iff]
  rw [Connection.Routed, hpointer, BelongsTo]
  constructor
  · rintro ⟨href, hlast, w, hstart, hcase⟩
    have hdeclared : DeclaredAt config path := by
      obtain ⟨statement, hst, -⟩ := hlast
      rw [← lastDeclaration_isSome, hst]
      rfl
    refine ⟨⟨href, hdeclared, w, hstart, ?_⟩, hlast⟩
    rcases hcase with ⟨hcandidate, -, hmax⟩ | ⟨hdefault, hnone⟩
    · exact .inl ⟨hcandidate, fun p hp hdeclared => hmax p hp ((hkeys p).mpr hdeclared)⟩
    · exact .inr ⟨hdefault, fun p hp hdeclared => hnone p hp ((hkeys p).mpr hdeclared)⟩
  · rintro ⟨⟨href, hdeclared, w, hstart, hcase⟩, hlast⟩
    refine ⟨href, hlast, w, hstart, ?_⟩
    rcases hcase with ⟨hcandidate, hmax⟩ | ⟨hdefault, hnone⟩
    · exact .inl ⟨hcandidate, (hkeys path).mpr hdeclared,
        fun p hp hmem => hmax p hp ((hkeys p).mp hmem)⟩
    · exact .inr ⟨hdefault, fun p hp hmem => hnone p hp ((hkeys p).mp hmem)⟩

/-! ### From the text to the responses -/

variable {ι : Type*} [DecidableEq ι] {env : Environment} {fuel : ℕ} {code : ResponseCode}
  {steps : List (ι × Label)} {q : Pool ι (Shared (Option Handler)) Task}

/-- The response is what the declaration of a path makes of a request: its
class, created by name and initialised with the child block, has returned it. -/
def AnswersAs (env : Environment) (fuel : ℕ) (code : ResponseCode) (config : NginxConfig)
    (path : Bytes) (request : Request) (response : Response) : Prop :=
  ∃ statement handlerId block handler, lastDeclaration config path = some statement ∧
    declaration statement = some (path, handlerId) ∧ statement.childBlock = some block ∧
    (createByName handlerId).bind (·.init path block) = some handler ∧
    (handler.Steady env → ∃ result,
      handler.handleRequest env fuel request (.fresh code) = .returned result response handler)

/-- **Every client is answered as the configuration says**, in every run of the
threads: the data read from it belong to a declaration of the configuration,
and the response is what its handler makes of these data. -/
theorem answered_as_configured
    (hparse : NginxConfigParser.parse [] text = some (.returned true config))
    (hinfo : getServerInfo text (.fresh garbage) = some (.returned true info))
    (h : Runs (Handler.handlePointer env fuel) code
      (listen info.uriPrefixToHandler info.handlerNameToPrefixes) steps q)
    {answer : Answer} (hanswer : answer ∈ q.shared.answers) :
    ∃ data path, Heard steps answer.connection data ∧
      BelongsTo config (Request.parse data) path ∧
      AnswersAs env fuel code config path (Request.parse data) answer.response := by
  obtain ⟨-, -, -, hall⟩ := accepted_cases hparse hinfo
  have hload := load_of_getServerInfo hparse hinfo
  obtain ⟨data, status, path, pointer, hheard, hrequest, hrouted, hmade⟩ :=
    (traced_of_runs h).1.answers answer hanswer
  obtain ⟨statement, handlerId, block, handler, hlast, hdeclares, hblock, hhandler, rfl⟩ :=
    exists_lastDeclaration hload hall hrouted.2.1
  rw [hrequest] at hrouted
  refine ⟨data, path, hheard.heard, ((routed_iff hload hall).mp hrouted).1, statement, handlerId,
    block, handler, hlast, hdeclares, hblock, hhandler, fun hsteady => ?_⟩
  have hdetached := Handler.detached_of_steady env fuel hsteady
  obtain ⟨result, pointer', hout⟩ := hmade hdetached.keeps
  obtain rfl := hdetached.keeps.eq_of_returned hout
  -- the request of the connection has the counters with it, which are not looked at
  have hparsed : Handler.handlePointer env fuel (some handler) (Request.parse data) (.fresh code) =
      .returned result answer.response (some handler) := by
    rw [← hout, hrequest]
    exact (hdetached.ignores (Request.parse data) (some status) _).symm
  obtain ⟨handler', hout', heq⟩ := Outcome.map_eq_returned.mp hparsed
  obtain rfl : handler' = handler := Option.some_inj.mp heq
  exact ⟨result, hout'⟩

/-- Declarations below each other, and a default one. -/
def nestedConfig : NginxConfig :=
  [.mk [bytes "port", bytes "80"] none,
    .mk [bytes "path", bytes "/a", bytes "EchoHandler"] (some []),
    .mk [bytes "path", bytes "/a/b", bytes "StatusHandler"] (some []),
    .mk [bytes "default", bytes "NotFoundHandler"] (some [])]

/-- The file, as the configuration prints itself. -/
def nestedText : Bytes := NginxConfig.toString 0 nestedConfig

theorem parse_nestedText :
    NginxConfigParser.parse [] nestedText = some (.returned true nestedConfig) := by
  have hbare : ∀ words : List Bytes, (∀ w ∈ words, NginxConfigParser.BareWord w) →
      ∀ w ∈ words, NginxConfigParser.WellFormedToken w := fun _ h w hw => .inl (h w hw)
  exact NginxConfigParser.parse_toString
    ⟨⟨by simp, hbare _ (by decide +kernel)⟩, ⟨by simp, hbare _ (by decide +kernel), trivial⟩,
      ⟨by simp, hbare _ (by decide +kernel), trivial⟩,
      ⟨by simp, hbare _ (by decide +kernel), trivial⟩, trivial⟩

/-- What is loaded of it. -/
def nestedInfo : ServerInfo :=
  (({ ServerInfo.fresh 0 with port := 80 }.register (bytes "/a") (bytes "EchoHandler")
    (.echoHandler ⟨⟩)).register (bytes "/a/b") (bytes "StatusHandler") (.statusHandler ⟨⟩)).register
      (bytes "default") (bytes "NotFoundHandler") (.notFoundHandler ⟨⟩)

theorem getServerInfo_nestedText :
    getServerInfo nestedText (.fresh 0) = some (.returned true nestedInfo) := by
  rw [getServerInfo, parse_nestedText]
  rfl

/-- The server of this configuration. -/
def nestedServer : Pool (Fin numOfThreads) (Shared (Option Handler)) Task :=
  listen nestedInfo.uriPrefixToHandler nestedInfo.handlerNameToPrefixes

/-- A request that is looked up below `/a/b`, and one below `/a` only. -/
def fromStatus : Bytes := bytes "GET /x HTTP/1.1\r\nReferer: http://h:80/a/b/c\r\n\r\n"

def fromEcho : Bytes := bytes "GET /x HTTP/1.1\r\nReferer: http://h:80/a/bc\r\n\r\n"

theorem runs_nestedServer : ∃ q,
    Runs (Handler.handlePointer Connection.bareEnvironment 0) .ok nestedServer
      (twoClients fromStatus fromEcho) q ∧ q.shared.answers.map (·.connection) = [1, 0] := by
  have hvalues : (runScript (move (Handler.handlePointer Connection.bareEnvironment 0) .ok)
      (fun _ _ => True) nestedServer (twoClients fromStatus fromEcho)).map
        (fun q => q.shared.answers.map (·.connection)) = some [1, 0] := by decide +kernel
  exact exists_history_of_runScript hvalues

theorem answered_as_configured_nested :
    ∃ q : Pool (Fin numOfThreads) (Shared (Option Handler)) Task,
      q.shared.answers.map (·.connection) = [1, 0] ∧ ∀ answer ∈ q.shared.answers,
        ∃ data path, Heard (twoClients fromStatus fromEcho) answer.connection data ∧
          BelongsTo nestedConfig (Request.parse data) path ∧
          AnswersAs Connection.bareEnvironment 0 .ok nestedConfig path (Request.parse data)
            answer.response := by
  obtain ⟨q, hruns, hanswers⟩ := runs_nestedServer
  exact ⟨q, hanswers, fun answer hanswer =>
    answered_as_configured parse_nestedText getServerInfo_nestedText hruns hanswer⟩

/-! ### What ends the process -/

/-- Neither a path above the one looked up nor `default` is declared. -/
def Undeclared (config : NginxConfig) (request : Request) : Prop :=
  ¬DeclaredAt config Connection.defaultString ∧ ∃ w, Connection.IsStart request w ∧
    ∀ p, Connection.IsCandidate w p → ¬DeclaredAt config p

/-- When no handler is found: a `Referer` has no path, or nothing is declared
for the request. -/
theorem undeclared_of_not_selects
    (hload : (LoadState.initial (.fresh garbage)).load config = .returned true info)
    (hall : ∀ i, ¬RefusedAt config i ∧ ¬FaultyAt config i) {request : Request}
    (h : ¬Connection.Selects info.uriPrefixToHandler request)
    (href : Connection.ReferersHavePath request) : Undeclared config request := by
  have hkeys := mem_table_iff hload hall
  unfold Connection.Selects at h
  push Not at h
  obtain ⟨w, hw, hdefault, hmissing⟩ := h href
  exact ⟨fun hdeclared => hdefault ((hkeys _).mpr hdeclared), w,
    Connection.isStart_of_handlerUriPrefix hw,
    fun p hp hdeclared => hmissing p hp ((hkeys p).mpr hdeclared)⟩

/-- **What ends the process**, in any run: a client was read from whose
`Referer` has no path, or whose request belongs to no declaration, or a handler
that opens files, starts commands or connects to other hosts has thrown. -/
theorem ended_as_configured
    (hparse : NginxConfigParser.parse [] text = some (.returned true config))
    (hinfo : getServerInfo text (.fresh garbage) = some (.returned true info))
    (h : Runs (Handler.handlePointer env fuel) code
      (listen info.uriPrefixToHandler info.handlerNameToPrefixes) steps q)
    (hterminated : q.shared.terminated = true) :
    ∃ c data, Heard steps c data ∧ (¬Connection.ReferersHavePath (Request.parse data) ∨
      Undeclared config (Request.parse data) ∨
      ∃ path statement handler, BelongsTo config (Request.parse data) path ∧
        lastDeclaration config path = some statement ∧
        (declared statement).map Prod.snd = some handler ∧ handler.ReadsConfig ∧
        (handler.Steady env →
          handler.handleRequest env fuel (Request.parse data) (.fresh code) = .threw handler)) := by
  obtain ⟨-, -, -, hall⟩ := accepted_cases hparse hinfo
  have hload := load_of_getServerInfo hparse hinfo
  obtain ⟨c, data, status, hheard, hcase⟩ := (traced_of_runs h).1.ended hterminated
  refine ⟨c, data, hheard.heard, ?_⟩
  rcases hcase with hselects | ⟨path, pointer, hrouted, hthrew⟩
  · by_cases href : Connection.ReferersHavePath (Request.parse data)
    · exact .inr (.inl (undeclared_of_not_selects hload hall hselects href))
    · exact .inl href
  · obtain ⟨hbelongs, statement, hlast, hpointer⟩ := (routed_iff hload hall).mp hrouted
    obtain ⟨-, -, -, handler, -, -, -, -, rfl⟩ := exists_lastDeclaration hload hall hrouted.2.1
    refine .inr (.inr ⟨path, statement, handler, hbelongs, hlast, hpointer, ?_, fun hsteady => ?_⟩)
    · -- of a proxy nothing more is known, and the others would have thrown
      by_cases hproxy : ∃ proxy, handler = .proxyHandler proxy
      · obtain ⟨proxy, rfl⟩ := hproxy
        trivial
      · obtain ⟨pointer', hout⟩ := hthrew
          (Handler.keeps_of_steady env fuel fun proxy h => absurd ⟨proxy, h⟩ hproxy)
        obtain ⟨handler', hout', -⟩ := Outcome.map_eq_threw.mp hout
        exact Handler.readsConfig_of_threw hout'
    · have hdetached := Handler.detached_of_steady env fuel hsteady
      obtain ⟨pointer', hout⟩ := hthrew hdetached.keeps
      obtain rfl := hdetached.keeps.eq_of_threw hout
      have hparsed : Handler.handlePointer env fuel (some handler) (Request.parse data)
          (.fresh code) = .threw (some handler) := by
        rw [← hout]
        exact (hdetached.ignores (Request.parse data) (some status) _).symm
      obtain ⟨handler', hout', heq⟩ := Outcome.map_eq_threw.mp hparsed
      obtain rfl : handler' = handler := Option.some_inj.mp heq
      exact hout'

/-- The first client is not answered, as the `Referer` of the second one has no
path. -/
def refererClients : List (Fin numOfThreads × Label) :=
  (twoClients fromStatus (bytes "GET /a HTTP/1.1\r\nReferer: x\r\n\r\n")).take 10

theorem ended_as_configured_referer :
    ∃ c data, Heard refererClients c data ∧
      (¬Connection.ReferersHavePath (Request.parse data) ∨
        Undeclared nestedConfig (Request.parse data) ∨
        ∃ path statement handler, BelongsTo nestedConfig (Request.parse data) path ∧
          lastDeclaration nestedConfig path = some statement ∧
          (declared statement).map Prod.snd = some handler ∧ handler.ReadsConfig ∧
          (handler.Steady Connection.bareEnvironment →
            handler.handleRequest Connection.bareEnvironment 0 (Request.parse data) (.fresh .ok) =
              .threw handler)) := by
  have hvalues : (runScript (move (Handler.handlePointer Connection.bareEnvironment 0) .ok)
      (fun _ _ => True) nestedServer refererClients).map (fun q => q.shared.terminated) =
        some true := by decide +kernel
  obtain ⟨q, hruns, hterminated⟩ := exists_history_of_runScript hvalues
  exact ended_as_configured parse_nestedText getServerInfo_nestedText hruns hterminated

end Server
