/-
What a configured server hands over for its clients.

`Delivers` says of the handlers that need no other host what they have for a
request: a code, the type of the contents and the contents.  The bytes that are
handed to `do_write` decode to these, whatever the contents are, as the only
header is one that keeps to its line.  Nothing is said about what leaves the
socket: `do_write` gives `async_write` a buffer over a temporary string.

* `Handler.decode_of_returned` — for one call;
* `Server.served_as_configured` — for every response of a running server;
* `Server.echoed_as_sent` — for a client of an echo declaration these are the
  data read from it;
* `S3Handler.readPipe_eq_self_iff` — an object passes through the pipe
  unchanged when it has no NUL byte.
-/
import Spaceteam.ConfiguredServer
import Spaceteam.ConnectionReads
import Spaceteam.ResponseText

open RequestHandler Interleaving

/-! ### The pipe of the S3 handler -/

namespace S3Handler

theorem fgets_append (n : ℕ) (s : Bytes) : (fgets n s).1 ++ (fgets n s).2 = s := by
  induction s generalizing n with
  | nil => cases n <;> rfl
  | cons c s ih =>
    rcases n with _ | n
    · rfl
    · rw [fgets]
      split_ifs
      · rfl
      · simp [ih n]

/-- No NUL byte comes through the pipe. -/
theorem zero_not_mem_readPipe (s : Bytes) : (0 : UInt8) ∉ readPipe s := by
  induction s using readPipe.induct with
  | case1 => simp [readPipe]
  | case2 c s ih =>
    rw [readPipe, List.mem_append, not_or]
    exact ⟨Bytes.zero_not_mem_cString _, ih⟩

/-- **When an object passes unchanged**: it has no NUL byte. -/
theorem readPipe_eq_self_iff (s : Bytes) : readPipe s = s ↔ (0 : UInt8) ∉ s := by
  constructor
  · intro heq
    rw [← heq]
    exact zero_not_mem_readPipe s
  · intro hzero
    induction s using readPipe.induct with
    | case1 => rw [readPipe]
    | case2 c s ih =>
      have hparts := fgets_append 127 (c :: s)
      rw [← hparts, List.mem_append, not_or] at hzero
      rw [readPipe, Bytes.cString_eq_self_iff.mpr hzero.1, ih hzero.2, hparts]

end S3Handler

/-! ### What a handler has for a request -/

/-- The page for a URI that names nothing. -/
def notFoundPage : Bytes := bytes "<!doctype html><html><body><h1>404 Not Found</h1></body></html>"

namespace Handler

/-- The handler answers the request with this code and these contents, which
are of this type. -/
inductive Delivers (env : Environment) (request : Request) :
    Handler → ResponseCode → Bytes → Bytes → Prop
  | echo (handler : EchoHandler) :
    Delivers env request (.echoHandler handler) .ok (bytes "text/plain") request.rawRequest
  | notFound (handler : NotFoundHandler) :
    Delivers env request (.notFoundHandler handler) .notFound (bytes "text/html") notFoundPage
  | counters (handler : StatusHandler) {status : ServerStatus}
    (hstatus : request.serverStatus = some status) :
    Delivers env request (.statusHandler handler) .ok (bytes "text/html") status.toHtml
  | missing (handler : StaticHandler)
    (hnone : ¬∃ file root, handler.NamesFile env.fs env.writeHtml request file ∧
      env.fs.canonical handler.root = some root ∧ StaticHandler.passesCheck file root = true) :
    Delivers env request (.staticHandler handler) .notFound (bytes "text/html") notFoundPage
  | file (handler : StaticHandler) {file root : List Bytes} {contents : Bytes}
    (hnames : handler.NamesFile env.fs env.writeHtml request file)
    (hroot : env.fs.canonical handler.root = some root)
    (hcheck : StaticHandler.passesCheck file root = true)
    (hread : env.fs.read file = some contents) (hext : extension file ≠ bytes ".md") :
    Delivers env request (.staticHandler handler) .ok
      (StaticHandler.getMimeType (extension file)) contents
  | markdown (handler : StaticHandler) {file root : List Bytes} {contents html : Bytes}
    (hnames : handler.NamesFile env.fs env.writeHtml request file)
    (hroot : env.fs.canonical handler.root = some root)
    (hcheck : StaticHandler.passesCheck file root = true)
    (hread : env.fs.read file = some contents) (hext : extension file = bytes ".md")
    (hhtml : env.writeHtml contents = some html) :
    Delivers env request (.staticHandler handler) .ok (bytes "text/html") html
  | object (handler : S3Handler) {output : Bytes}
    (hpopen : env.popen (handler.command (request.uri.drop (handler.uriPrefix.length + 1))) =
      some output) :
    Delivers env request (.s3Handler handler) .ok (bytes "text/html")
      (S3Handler.readPipe output)

theorem keepsToLine_getMimeType (ext : Bytes) :
    Response.KeepsToLine (bytes "Content-Type", StaticHandler.getMimeType ext) := by
  unfold StaticHandler.getMimeType
  split_ifs <;> decide

/-- What a static handler has made of a fresh response. -/
theorem delivers_staticHandler {env : Environment} {handler handler' : StaticHandler}
    {request : Request} {response response' : Response} {status : Status}
    (hext : extendsPrefix request.uri handler.uriPrefix = true)
    (hout : handler.handleRequest env.fs env.writeHtml request response =
      .returned status response' handler') :
    (response' = NotFoundHandler.notFound response ∧
      Delivers env request (.staticHandler handler) .notFound (bytes "text/html") notFoundPage) ∨
    ∃ body ext, response' = StaticHandler.serve response body ext ∧
      Delivers env request (.staticHandler handler) .ok (StaticHandler.getMimeType ext) body := by
  unfold StaticHandler.handleRequest StaticHandler.answerPath at hout
  simp only [hext, if_true] at hout
  split at hout
  next => cases hout
  next type hstatus =>
    split at hout
    next htype =>
      rw [htype.2] at hstatus
      split at hout
      next file root hfile hroot =>
        split at hout
        next hcheck =>
          split at hout
          next hread =>
            cases hout
            refine .inl ⟨rfl, .missing handler ?_⟩
            rintro ⟨file', root', ⟨-, -, hfile', contents, hcontents, -⟩, -, -⟩
            obtain rfl := Option.some_inj.mp (hfile.symm.trans hfile')
            rw [hread] at hcontents
            cases hcontents
          next contents hread =>
            split at hout
            next hmd =>
              -- a fresh document is never refused
              simp only [MarkdownDocument.read, MarkdownDocument.new, Bool.false_eq_true,
                if_false, List.nil_append] at hout
              split at hout
              next => cases hout
              next html hhtml =>
                cases hout
                exact .inr ⟨html, bytes ".html", rfl, .markdown handler
                  ⟨hext, hstatus, hfile, contents, hread, fun _ => ⟨html, hhtml⟩⟩ hroot hcheck
                  hread hmd hhtml⟩
            next hmd =>
              cases hout
              exact .inr ⟨contents, extension file, rfl, .file handler
                ⟨hext, hstatus, hfile, contents, hread, fun h => absurd h hmd⟩ hroot hcheck
                hread hmd⟩
        next hcheck =>
          cases hout
          refine .inl ⟨rfl, .missing handler ?_⟩
          rintro ⟨file', root', ⟨-, -, hfile', -⟩, hroot', hcheck'⟩
          obtain rfl := Option.some_inj.mp (hfile.symm.trans hfile')
          obtain rfl := Option.some_inj.mp (hroot.symm.trans hroot')
          exact hcheck hcheck'
      next => cases hout
    next htype =>
      cases hout
      refine .inl ⟨rfl, .missing handler ?_⟩
      rintro ⟨file, root, ⟨-, hregular, -⟩, -⟩
      obtain rfl := Option.some_inj.mp (hstatus.symm.trans hregular)
      exact htype ⟨by decide, rfl⟩

variable {env : Environment} {fuel : ℕ} {request : Request} {garbage : ResponseCode}
  {response : Response} {handler handler' : Handler} {status : Status}

/-- **What a handler returns decodes to what it has for the request.** -/
theorem decode_of_returned (hproxy : ∀ proxy, handler ≠ .proxyHandler proxy)
    (hserver : request.serverStatus ≠ none) (hrefuses : ¬handler.Refuses request)
    (hout : handler.handleRequest env fuel request (.fresh garbage) =
      .returned status response handler') :
    ∃ code contentType body, handler.Delivers env request code contentType body ∧
      Response.decode response.toString =
        some (code.statusLine, [(bytes "Content-Type", contentType)], body) := by
  -- the response has its status, and one header
  have hreported := handleRequest_returned hserver hrefuses hout
  have hdecode : ∀ contentType, Response.KeepsToLine (bytes "Content-Type", contentType) →
      response.headers = [(bytes "Content-Type", contentType)] →
      Response.decode response.toString = some (response.rawStatus.statusLine,
        [(bytes "Content-Type", contentType)], response.body) := by
    intro contentType hline hheaders
    have hlines : ∀ header ∈ response.headers, Response.KeepsToLine header := by
      rw [hheaders]
      exact List.forall_mem_singleton.mpr hline
    have hstatus : response.HasStatus := by
      cases status <;> exact hreported.1
    rw [Response.decode_toString hstatus hlines, hheaders, hstatus]
  cases handler with
  | staticHandler handler =>
    have hext : extendsPrefix request.uri handler.uriPrefix = true := by
      simpa [Refuses] using hrefuses
    rw [handleRequest] at hout
    obtain ⟨_, hstatic, -⟩ := Outcome.map_eq_returned.mp hout
    rcases delivers_staticHandler hext hstatic with ⟨rfl, hdelivers⟩ | ⟨body, ext, rfl, hdelivers⟩
    · exact ⟨_, _, _, hdelivers, hdecode _ (by decide) rfl⟩
    · exact ⟨_, _, _, hdelivers, hdecode _ (keepsToLine_getMimeType ext) rfl⟩
  | echoHandler handler =>
    cases hout
    exact ⟨_, _, _, .echo handler, hdecode _ (by decide) rfl⟩
  | notFoundHandler handler =>
    cases hout
    exact ⟨_, _, _, .notFound handler, hdecode _ (by decide) rfl⟩
  | statusHandler handler =>
    obtain ⟨counters, hcounters⟩ := Option.ne_none_iff_exists'.mp hserver
    simp only [handleRequest, StatusHandler.handleRequest, hcounters, Outcome.map] at hout
    cases hout
    exact ⟨_, _, _, .counters handler hcounters, hdecode _ (by decide) rfl⟩
  | holdingHandler handler => cases hout
  | proxyHandler handler => exact absurd rfl (hproxy handler)
  | s3Handler handler =>
    have hext : extendsPrefix request.uri handler.uriPrefix = true := by
      simpa [Refuses] using hrefuses
    rw [handleRequest] at hout
    obtain ⟨_, hobject, -⟩ := Outcome.map_eq_returned.mp hout
    simp only [S3Handler.handleRequest, S3Handler.answerKey, hext, if_true] at hobject
    split at hobject
    next => cases hobject
    next object hget =>
      obtain ⟨output, hpopen, rfl⟩ := Option.map_eq_some_iff.mp hget
      cases hobject
      exact ⟨_, _, _, .object handler hpopen, hdecode _ (by decide) rfl⟩

end Handler

namespace Server

variable {ι : Type*} [DecidableEq ι] {text : Bytes} {garbage : ℤ} {config : NginxConfig}
  {info : ServerInfo} {env : Environment} {fuel : ℕ} {code : ResponseCode}
  {steps : List (ι × Label)} {q : Pool ι (Shared (Option Handler)) Task}

/-- The declaration the request belongs to creates this handler. -/
def DeclaredFor (config : NginxConfig) (request : Request) (handler : Handler) : Prop :=
  ∃ path statement, BelongsTo config request path ∧ lastDeclaration config path = some statement ∧
    (declared statement).map Prod.snd = some handler

/-- The data and the counters a handler of the configured server was called
with. -/
abbrev CalledWith (env : Environment) (fuel : ℕ) (code : ResponseCode) (info : ServerInfo)
    (steps : List (ι × Label)) (c : ℕ) (data : Bytes) (counters : ServerStatus) : Prop :=
  HeardAt (Handler.handlePointer env fuel) code info.uriPrefixToHandler info.handlerNameToPrefixes
    steps c data counters

/-- A response is made by the handler declared for the data read from its
connection. -/
theorem returned_as_configured
    (hparse : NginxConfigParser.parse [] text = some (.returned true config))
    (hinfo : getServerInfo text (.fresh garbage) = some (.returned true info))
    (h : Runs (Handler.handlePointer env fuel) code
      (listen info.uriPrefixToHandler info.handlerNameToPrefixes) steps q)
    {answer : Answer} (hanswer : answer ∈ q.shared.answers) :
    ∃ data counters handler,
      CalledWith env fuel code info steps answer.connection data counters ∧
      DeclaredFor config (Request.parse data) handler ∧
      ((∀ proxy, handler ≠ .proxyHandler proxy) → ∃ status handler',
        handler.handleRequest env fuel (Request.parseWith data (some counters)) (.fresh code) =
          .returned status answer.response handler') := by
  obtain ⟨-, -, -, hall⟩ := accepted_cases hparse hinfo
  have hload := load_of_getServerInfo hparse hinfo
  obtain ⟨data, counters, path, pointer, hheard, hrequest, hrouted, hmade⟩ :=
    (traced_of_runs h).1.answers answer hanswer
  obtain ⟨-, -, -, handler, -, -, -, -, rfl⟩ := exists_lastDeclaration hload hall hrouted.2.1
  rw [hrequest] at hrouted
  obtain ⟨hbelongs, statement, hlast, hcreated⟩ := (routed_iff hload hall).mp hrouted
  refine ⟨data, counters, handler, hheard, ⟨path, statement, hbelongs, hlast, hcreated⟩,
    fun hproxy => ?_⟩
  have hkeeps := Handler.keeps_of_steady env fuel fun proxy heq => absurd heq (hproxy proxy)
  obtain ⟨status, pointer', hout⟩ := hmade hkeeps
  obtain ⟨handler', hout', -⟩ := Outcome.map_eq_returned.mp (hrequest ▸ hout)
  exact ⟨status, handler', hout'⟩

/-- One declaration at most is there for a request. -/
theorem DeclaredFor.unique
    (hparse : NginxConfigParser.parse [] text = some (.returned true config))
    (hinfo : getServerInfo text (.fresh garbage) = some (.returned true info)) {request : Request}
    {handler handler' : Handler} (h : DeclaredFor config request handler)
    (h' : DeclaredFor config request handler') : handler = handler' := by
  obtain ⟨-, -, -, hall⟩ := accepted_cases hparse hinfo
  have hload := load_of_getServerInfo hparse hinfo
  obtain ⟨path, statement, hbelongs, hdeclared⟩ := h
  obtain ⟨path', statement', hbelongs', hdeclared'⟩ := h'
  have hselect := Connection.select_eq_handler_iff.mpr
    ((routed_iff hload hall).mpr ⟨hbelongs, statement, hdeclared⟩)
  have hselect' := Connection.select_eq_handler_iff.mpr
    ((routed_iff hload hall).mpr ⟨hbelongs', statement', hdeclared'⟩)
  rw [hselect] at hselect'
  cases hselect'
  rfl

/-- **The data of the one read are echoed** for a client of an echo
declaration, whatever else the server has to do, unless they are malformed. -/
theorem echoed_as_sent [Fintype ι]
    (hparse : NginxConfigParser.parse [] text = some (.returned true config))
    (hinfo : getServerInfo text (.fresh garbage) = some (.returned true info))
    (h : Runs (Handler.handlePointer env fuel) code
      (listen info.uriPrefixToHandler info.handlerNameToPrefixes) steps q)
    {answer : Answer} (hanswer : answer ∈ q.shared.answers) {data : Bytes} {echo : EchoHandler}
    (hheard : Heard steps answer.connection data)
    (hdeclared : DeclaredFor config (Request.parse data) (.echoHandler echo))
    (hnotBad : (Request.parse data).parsedStatus ≠ .bad) :
    Response.decode answer.response.toString = some (bytes "HTTP/1.1 200 OK",
      [(bytes "Content-Type", bytes "text/plain")], data) := by
  obtain ⟨data', counters, handler, hheard', hdeclared', hreturned⟩ :=
    returned_as_configured hparse hinfo h hanswer
  -- no other read of the connection completes
  obtain rfl := hheard.unique (hears_le_one h _) hheard'.heard
  obtain rfl := hdeclared.unique hparse hinfo hdeclared'
  obtain ⟨status, handler', hout⟩ := hreturned (by simp)
  obtain ⟨_, _, _, hdelivers, hdecode⟩ :=
    Handler.decode_of_returned (by simp) (by simp [Request.parseWith]) id hout
  cases hdelivers
  rw [hdecode, show (Request.parseWith data (some counters)).rawRequest =
    (Request.parse data).rawRequest from rfl, Request.rawRequest_of_not_bad hnotBad]
  rfl

theorem echoed_as_sent_nested :
    ∃ answer : Answer, answer.connection = 1 ∧
      Response.decode answer.response.toString = some (bytes "HTTP/1.1 200 OK",
        [(bytes "Content-Type", bytes "text/plain")], fromEcho) := by
  obtain ⟨q, hruns, hanswers⟩ := runs_nestedServer
  have hmem : 1 ∈ q.shared.answers.map (·.connection) := by
    rw [hanswers]
    decide
  obtain ⟨answer, hanswer, hconnection⟩ := List.mem_map.mp hmem
  have hselect : Connection.select nestedInfo.uriPrefixToHandler (Request.parse fromEcho) =
      .handler (bytes "/a") (some (.echoHandler ⟨⟩)) := by decide +kernel
  obtain ⟨-, -, -, hall⟩ := accepted_cases parse_nestedText getServerInfo_nestedText
  obtain ⟨hbelongs, statement, hdeclared⟩ :=
    (routed_iff (load_of_getServerInfo parse_nestedText getServerInfo_nestedText) hall).mp
      (Connection.select_eq_handler_iff.mp hselect)
  exact ⟨answer, hconnection, echoed_as_sent parse_nestedText getServerInfo_nestedText hruns
    hanswer (hconnection ▸ ⟨secondThread, by simp [twoClients]⟩) ⟨_, statement, hbelongs, hdeclared⟩
    (by decide +kernel)⟩

end Server
