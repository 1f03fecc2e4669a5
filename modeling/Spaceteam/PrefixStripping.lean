/-
What the handlers make of a URI below their prefix.

The router cuts a path at its slashes, and at the root the slash is the prefix
itself; the handlers cut off as many bytes as their prefix has.

* `StripsTo` — which file, key and target the handlers of a prefix answer with;
* `Connection.stripsTo_iff` — this is the relative path the router has found,
  unless the prefix is the root.
-/
import Spaceteam.Dispatch
import Spaceteam.ProxyHandler
import Spaceteam.S3Handler
import Spaceteam.StaticHandler

open RequestHandler

/-- The URI is the prefix, a slash and `r`; the root is its own slash. -/
def SplitsAt (p uri r : Bytes) : Prop :=
  uri = (if p = bytes "/" then [] else p) ++ ascii '/' :: r

namespace ProxyHandler

/-- A call that asks for this target in every pass. -/
def asking (upstream : Upstream) (target : Bytes) :
    ℕ → ℕ → ProxyHandler → Response → Outcome ProxyHandler
  | 0, _, _, _ => .running
  | fuel + 1, n, handler, response =>
    match upstream n handler.host (handler.upstreamRequest target) with
    | none => .threw handler
    | some reply =>
      (exchange reply handler response).outcome (asking upstream target fuel (n + 1))

end ProxyHandler

/-- A request is to each handler with prefix `p` what `r` is: a static handler
answers with the path `r` in its root, a bucket with the key `r`, and a proxy
asks for the target `/r`. -/
structure StripsTo (p : Bytes) (request : Request) (r : Bytes) : Prop where
  file : ∀ root fs writeHtml response,
    StaticHandler.handleRequest fs writeHtml ⟨p, root⟩ request response =
      StaticHandler.answerPath fs writeHtml ⟨p, root⟩ (root ++ ascii '/' :: r) response
  key : ∀ bucket popen response,
    S3Handler.handleRequest popen ⟨p, bucket⟩ request response =
      S3Handler.answerKey popen ⟨p, bucket⟩ r response
  target : ∀ host portno upstream fuel response,
    ProxyHandler.handleRequest upstream fuel ⟨p, host, portno⟩ request response =
      ProxyHandler.asking upstream (ascii '/' :: r) fuel 0 ⟨p, host, portno⟩ response

/-! ### What each handler answers with -/

theorem StaticHandler.handleRequest_of_extends (fs : FileSystem)
    (writeHtml : Bytes → Option Bytes) {handler : StaticHandler} {request : Request}
    (response : Response) (hext : extendsPrefix request.uri handler.uriPrefix = true) :
    handler.handleRequest fs writeHtml request response =
      handler.answerPath fs writeHtml (handler.relativePath request.uri) response :=
  if_pos hext

theorem S3Handler.handleRequest_of_extends (popen : Bytes → Option Bytes) {handler : S3Handler}
    {request : Request} (response : Response)
    (hext : extendsPrefix request.uri handler.uriPrefix = true) :
    S3Handler.handleRequest popen handler request response =
      handler.answerKey popen (request.uri.drop (handler.uriPrefix.length + 1)) response :=
  if_pos hext

namespace ProxyHandler

/-- No pass changes the prefix. -/
theorem uriPrefix_readHeaders {statusCode : UInt32} {stream : IStream}
    {handler handler' : ProxyHandler} {response response' : Response} {buffer : Bytes}
    (h : readHeaders statusCode stream handler response = .done handler' response' buffer) :
    handler'.uriPrefix = handler.uriPrefix := by
  fun_induction readHeaders statusCode stream handler response with
  | case1 stream handler response line hdone =>
    cases h
    rfl
  | case2 => cases h
  | case3 => cases h
  | case4 stream handler response line hgo name value hfield response₁ hlocation host hhost ih =>
    exact ih h
  | case5 stream handler response line hgo name value hfield response₁ hlocation ih =>
    exact ih h

theorem uriPrefix_exchange {reply : Reply} {handler handler' : ProxyHandler}
    {response response' : Response}
    (h : exchange reply handler response = .again handler' response') :
    handler'.uriPrefix = handler.uriPrefix := by
  unfold exchange at h
  split at h
  next => cases h
  next =>
    simp only at h
    split at h
    next => cases h
    next =>
      split at h
      next => cases h
      next =>
        split at h
        next => cases h
        next hdone =>
          split at h
          next => cases h
          next =>
            split at h
            next => cases h
            next =>
              cases h
              exact uriPrefix_readHeaders hdone

theorem target_append (handler : ProxyHandler) {r : Bytes} (hr : r ≠ []) :
    handler.target (handler.uriPrefix ++ r) = r := by
  have hne : handler.uriPrefix ++ r ≠ handler.uriPrefix := by simpa using hr
  rw [target, if_neg hne, if_pos (extendsPrefix_iff.mpr ⟨r, hr, rfl⟩)]
  exact List.drop_left

/-- **Every pass asks for the same target**, which depends on the prefix only. -/
theorem handleRequest_eq_asking {upstream : Upstream} {request : Request} {handler : ProxyHandler}
    {path : Bytes}
    (htarget : ∀ h : ProxyHandler, h.uriPrefix = handler.uriPrefix → h.target request.uri = path)
    (fuel : ℕ) (response : Response) :
    handleRequest upstream fuel handler request response =
      asking upstream path fuel 0 handler response := by
  have hloop : ∀ fuel n (h : ProxyHandler) r, h.uriPrefix = handler.uriPrefix →
      redirectLoop upstream request fuel n h r = asking upstream path fuel n h r := by
    intro fuel
    induction fuel with
    | zero => exact fun n h r _ => rfl
    | succ fuel ih =>
      intro n h r hsame
      rw [redirectLoop, asking, htarget h hsame]
      rcases upstream n h.host (h.upstreamRequest path) with _ | reply
      · rfl
      · rcases hexchange : exchange reply h r with ⟨h', r'⟩ | ⟨status, h', r'⟩ | h'
        · simp only [hexchange, Exchange.outcome]
          exact ih (n + 1) h' r' ((uriPrefix_exchange hexchange).trans hsame)
        · simp only [hexchange, Exchange.outcome]
        · simp only [hexchange, Exchange.outcome]
  exact hloop fuel 0 handler response rfl

end ProxyHandler

/-! ### Below a prefix -/

/-- Below a prefix with a slash after it, every handler finds the relative path. -/
theorem stripsTo_append {p r : Bytes} {request : Request}
    (huri : request.uri = p ++ ascii '/' :: r) : StripsTo p request r := by
  have hext : extendsPrefix request.uri p = true :=
    extendsPrefix_iff.mpr ⟨ascii '/' :: r, List.cons_ne_nil _ _, huri⟩
  constructor
  · intro root fs writeHtml response
    rw [StaticHandler.handleRequest_of_extends fs writeHtml response hext,
      StaticHandler.relativePath, huri, List.drop_left]
  · intro bucket popen response
    have hkey : request.uri.drop (p.length + 1) = r := by simp [huri]
    rw [S3Handler.handleRequest_of_extends popen response hext, hkey]
  · intro host portno upstream fuel response
    refine ProxyHandler.handleRequest_eq_asking (fun h hsame => ?_) fuel response
    -- the proxy keeps the slash
    rw [huri, ← show h.uriPrefix = p from hsame]
    exact h.target_append (List.cons_ne_nil _ _)

/-- A file system in which a path cannot be asked for, and no other exists. -/
def barring (path : Bytes) : FileSystem where
  status := fun q => if q = path then none else some .notFound
  canonical := fun _ => none
  read := fun _ => none

/-- Below the root a static handler cuts the slash off, so that it looks
for a name that begins with that of its root directory. -/
theorem not_stripsTo_root {r : Bytes} {request : Request}
    (huri : request.uri = ascii '/' :: r) : ¬StripsTo (bytes "/") request r := by
  intro h
  have hsame := h.file [] (barring (ascii '/' :: r)) some (.fresh .ok)
  -- asking for the path with the slash throws
  have hthrew : StaticHandler.answerPath (barring (ascii '/' :: r)) some ⟨bytes "/", []⟩
      (ascii '/' :: r) (.fresh .ok) = .threw ⟨bytes "/", []⟩ := by
    simp [StaticHandler.answerPath, barring]
  rw [List.nil_append, hthrew] at hsame
  have hpath : StaticHandler.relativePath ⟨bytes "/", []⟩ request.uri = r := by
    rw [StaticHandler.relativePath, huri]
    rfl
  have hstatus : (barring (ascii '/' :: r)).status r = some .notFound := by simp [barring]
  unfold StaticHandler.handleRequest StaticHandler.answerPath at hsame
  simp only [hpath, hstatus, ne_eq, not_true_eq_false, false_and, if_false] at hsame
  split_ifs at hsame

namespace Connection

variable {H : Type*} (handleRequest : HandleRequest H) (garbage : ResponseCode)
  (server : Server H) (received : Bytes)

/-- A URI is routed to a handler below whose prefix it lies. -/
theorem isCandidate_of_mem_handled {call : Bytes × H × Request}
    (hcall : call ∈ handled (handleRead handleRequest garbage server false received).events)
    (hslash : ∃ q, call.1 = ascii '/' :: q)
    (hreferer : ∀ pair ∈ call.2.2.headers, pair.1 ≠ bytes "Referer") :
    IsCandidate call.2.2.uri call.1 := by
  obtain ⟨q, hq⟩ := hslash
  obtain ⟨⟨href, -, w, hw, hcase⟩, -⟩ :=
    (mem_handled_handleRead handleRequest garbage server received).mp hcall
  obtain rfl : w = call.2.2.uri := IsStart.unique href hw (.inl ⟨hreferer, rfl⟩)
  rcases hcase with hlongest | ⟨hpath, -⟩
  · exact hlongest.1
  · rw [hq] at hpath
    exact absurd (List.cons.inj hpath).1 (by decide)

/-- **When stripping agrees with routing**: a URI routed without a `Referer`
splits at the prefix, and the handlers ask for what is behind it, unless the
prefix is the root. -/
theorem stripsTo_iff (call : Bytes × H × Request)
    (hcall : call ∈ handled (handleRead handleRequest garbage server false received).events)
    (hslash : ∃ q, call.1 = ascii '/' :: q)
    (hreferer : ∀ pair ∈ call.2.2.headers, pair.1 ≠ bytes "Referer")
    (hne : call.2.2.uri ≠ call.1) :
    ∃ r, SplitsAt call.1 call.2.2.uri r ∧
      (StripsTo call.1 call.2.2 r ↔ call.1 ≠ bytes "/") := by
  have hcandidate :=
    isCandidate_of_mem_handled handleRequest garbage server received hcall hslash hreferer
  obtain ⟨path, h, request⟩ := call
  simp only at hcandidate hne ⊢
  by_cases hroot : path = bytes "/"
  · -- below the root, whatever follows the first slash
    have hbelow : ∃ r, request.uri = ascii '/' :: r := by
      obtain ⟨-, heq | ⟨rest, heq⟩ | ⟨-, rest, heq⟩⟩ := hcandidate
      · exact absurd heq.symm hne
      · exact ⟨ascii '/' :: rest, by rw [heq, hroot]; rfl⟩
      · exact ⟨rest, heq⟩
    obtain ⟨r, huri⟩ := hbelow
    refine ⟨r, by rw [SplitsAt, if_pos hroot, huri]; rfl, iff_of_false ?_ (by simp [hroot])⟩
    rw [hroot]
    exact not_stripsTo_root huri
  · obtain ⟨-, heq | ⟨rest, heq⟩ | ⟨heq, -⟩⟩ := hcandidate
    · exact absurd heq.symm hne
    · exact ⟨rest, by rw [SplitsAt, if_neg hroot, heq],
        iff_of_true (stripsTo_append heq) hroot⟩
    · exact absurd heq hroot

theorem stripsTo_iff_static :
    ∃ r, SplitsAt (bytes "/static")
        (Request.parseWith (bytes "GET /static/a HTTP/1.1\r\n\r\n") (some .new)).uri r ∧
      (StripsTo (bytes "/static")
          (Request.parseWith (bytes "GET /static/a HTTP/1.1\r\n\r\n") (some .new)) r ↔
        bytes "/static" ≠ bytes "/") :=
  stripsTo_iff (fun h _ response => .returned .ok response h) .ok (prefixServer (bytes "/static"))
    (bytes "GET /static/a HTTP/1.1\r\n\r\n")
    (bytes "/static", true, Request.parseWith (bytes "GET /static/a HTTP/1.1\r\n\r\n") (some .new))
    (by rw [handled_handleRead_of_select _ _ _ select_static]; exact List.mem_cons_self)
    ⟨bytes "static", rfl⟩
    (by rw [headers_static]; simp)
    (by decide +kernel)

/-- The file `a` below the prefix `/`. -/
theorem not_stripsTo_root_a :
    ∃ call ∈ handled (handleRead (fun h _ response => .returned .ok response h) .ok
        (prefixServer (bytes "/")) false (bytes "GET /a HTTP/1.1\r\n\r\n")).events,
      call.1 = bytes "/" ∧ call.2.2.headers = [] ∧ call.2.2.uri ≠ call.1 ∧
        SplitsAt call.1 call.2.2.uri (bytes "a") ∧ ¬StripsTo call.1 call.2.2 (bytes "a") := by
  have hselect : select (prefixServer (bytes "/")).pathToHandler
      (Request.parseWith (bytes "GET /a HTTP/1.1\r\n\r\n") (some .new)) =
      .handler (bytes "/") true := by
    decide +kernel
  have huri : (Request.parseWith (bytes "GET /a HTTP/1.1\r\n\r\n") (some .new)).uri =
      bytes "/a" := by
    decide +kernel
  have hheaders : (Request.parseWith (bytes "GET /a HTTP/1.1\r\n\r\n") (some .new)).headers =
      [] := by
    decide +kernel
  refine ⟨(bytes "/", true, Request.parseWith (bytes "GET /a HTTP/1.1\r\n\r\n") (some .new)),
    ?_, rfl, hheaders, ?_, ?_, not_stripsTo_root huri⟩
  · rw [handled_handleRead_of_select _ _ _ hselect]
    exact List.mem_cons_self
  · simp only [huri]
    decide
  · simp only [huri]
    exact rfl

end Connection
