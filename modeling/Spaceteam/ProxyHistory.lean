/-
One proxy handler and the requests it handles one after another.

The handler lives as long as the server, and a `Location` is stored in its
member `host_`.  A reply whose header lines name one (`Redirects`) is the only
thing that changes the handler (`exchange_keeps`).

* `ProxyHandler.independent_of_noRedirects` — as long as no request has been
  redirected, the next one is handled as if it were the first.
-/
import Spaceteam.ProxyReplies

open RequestHandler

namespace ProxyHandler

/-! ### Replies that redirect -/

/-- The status code of a reply and the text its header lines are read from;
`none` when the call ends before them. -/
def headerText (reply : Reply) : Option (UInt32 × Bytes) :=
  match readUntil (bytes "\r\n") [] reply.segments with
  | none => none
  | some (resp, segments) =>
    let (httpVersion, stream) := (IStream.ofBuffer resp).extractWord
    let (statusCode, stream) := stream.extractUnsigned
    let (_, stream) := stream.getline
    if stream.failbit ∨ httpVersion.take 5 ≠ bytes "HTTP/" then none
    else
      (readUntil (bytes "\r\n\r\n") stream.buffer segments).map fun read => (statusCode, read.1)

/-- The first line of a text, without its end. -/
def firstLine (text : Bytes) : Bytes := text.takeWhile (· ≠ ascii '\n')

/-- One of the header lines, those before the blank one and before the first
that makes the loop throw, is a `Location`. -/
def HasLocation (text : Bytes) : Prop :=
  ∃ (before : List Bytes) (rest value : Bytes),
    text = before.flatMap (· ++ [ascii '\n']) ++ rest ∧
      (∀ line ∈ before, ascii '\n' ∉ line ∧ line ≠ bytes "\r" ∧ headerField line ≠ none) ∧
      headerField (firstLine rest) = some (bytes "Location", value)

/-- The reply is a 302 with a `Location`. -/
def Redirects (reply : Reply) : Prop :=
  ∃ text, headerText reply = some (302, text) ∧ HasLocation text

theorem not_hasLocation_nil : ¬HasLocation [] := by
  rintro ⟨before, rest, value, hsplit, -, hfield⟩
  obtain ⟨-, rfl⟩ := List.append_eq_nil_iff.mp hsplit.symm
  exact absurd hfield (by simp [firstLine, headerField, Bytes.findFrom, Bytes.substr])

/-- A `Location` further down is one of the whole text. -/
theorem HasLocation.cons {line rest : Bytes} (hline : ascii '\n' ∉ line)
    (hblank : line ≠ bytes "\r") (hfield : headerField line ≠ none) (h : HasLocation rest) :
    HasLocation (line ++ ascii '\n' :: rest) := by
  obtain ⟨before, rest, value, rfl, hbefore, hlocation⟩ := h
  refine ⟨line :: before, rest, value, by simp, ?_, hlocation⟩
  intro l hl
  rcases List.mem_cons.mp hl with rfl | hl
  · exact ⟨hline, hblank, hfield⟩
  · exact hbefore l hl

/-- A line that is read is the first line of the buffer, and what is left is
behind its end. -/
theorem getline_cases {stream : IStream} (h : ¬stream.getline.2.failbit = true) :
    stream.getline.1 = firstLine stream.buffer ∧
      (stream.getline.2.buffer = [] ∨
        stream.buffer = stream.getline.1 ++ ascii '\n' :: stream.getline.2.buffer) := by
  unfold IStream.getline at h ⊢
  by_cases hgood : stream.good = true
  · rw [if_pos hgood]
    refine ⟨by dsimp only; split <;> rfl, ?_⟩
    have hsplit := List.takeWhile_append_dropWhile (p := (· ≠ ascii '\n')) (l := stream.buffer)
    rcases hrest : stream.buffer.dropWhile (· ≠ ascii '\n') with _ | ⟨c, rest⟩
    · exact .inl rfl
    · have hc : c = ascii '\n' := by
        have hne : stream.buffer.dropWhile (· ≠ ascii '\n') ≠ [] := by
          rw [hrest]
          exact List.cons_ne_nil _ _
        have hhead := List.head_dropWhile_not (· ≠ ascii '\n') hne
        simp only [hrest, List.head_cons] at hhead
        simpa using hhead
      right
      rw [hrest, hc] at hsplit
      exact hsplit.symm
  · rw [if_neg hgood] at h
    exact absurd rfl h

theorem not_mem_firstLine (text : Bytes) : ascii '\n' ∉ firstLine text := by
  intro hmem
  have h := List.mem_takeWhile_imp hmem
  simp at h

/-- Behind a header line there is no `Location` either. -/
theorem not_hasLocation_getline {stream : IStream} {field : Bytes × Bytes}
    (hgo : ¬(stream.getline.2.failbit = true ∨ stream.getline.1 = bytes "\r"))
    (hfield : headerField stream.getline.1 = some field) (h : ¬HasLocation stream.buffer) :
    ¬HasLocation stream.getline.2.buffer := by
  intro hlocation
  obtain ⟨hfail, hblank⟩ := not_or.mp hgo
  obtain ⟨hline, hnil | hsplit⟩ := getline_cases hfail
  · rw [hnil] at hlocation
    exact not_hasLocation_nil hlocation
  · rw [hsplit] at h
    refine h (HasLocation.cons ?_ hblank (by simp [hfield]) hlocation)
    rw [hline]
    exact not_mem_firstLine _

/-- Without a `Location` the header loop leaves the handler as it is. -/
theorem readHeaders_keeps {statusCode : UInt32} {stream : IStream} {handler : ProxyHandler}
    {response : Response} (h : statusCode = 302 → ¬HasLocation stream.buffer) :
    (∃ response' buffer, readHeaders statusCode stream handler response =
        .done handler response' buffer) ∨
      readHeaders statusCode stream handler response = .threw handler := by
  have hfirst : ∀ {stream : IStream} {value : Bytes}, ¬stream.getline.2.failbit = true →
      headerField stream.getline.1 = some (bytes "Location", value) → HasLocation stream.buffer := by
    intro stream value hfail hfield
    rw [(getline_cases hfail).1] at hfield
    exact ⟨[], stream.buffer, value, rfl, by simp, hfield⟩
  fun_induction readHeaders statusCode stream handler response with
  | case1 stream handler response line hdone => exact .inl ⟨_, _, rfl⟩
  | case2 => exact .inr rfl
  | case3 stream handler response line hgo name value hfield hlocation hhost =>
    obtain ⟨hcode, rfl⟩ := hlocation
    exact absurd (hfirst (not_or.mp hgo).1 hfield) (h hcode)
  | case4 stream handler response line hgo name value hfield response₁ hlocation host hhost ih =>
    obtain ⟨hcode, rfl⟩ := hlocation
    exact absurd (hfirst (not_or.mp hgo).1 hfield) (h hcode)
  | case5 stream handler response line hgo name value hfield response₁ hlocation ih =>
    exact ih fun hcode => not_hasLocation_getline hgo hfield (h hcode)

/-- **Only a redirection changes the handler.** -/
theorem exchange_keeps {reply : Reply} (h : ¬Redirects reply) (handler : ProxyHandler)
    (response : Response) :
    (∃ status response', exchange reply handler response = .returned status handler response') ∨
      (∃ response', exchange reply handler response = .again handler response') ∨
      exchange reply handler response = .threw handler := by
  unfold exchange
  split
  next => exact .inr (.inr rfl)
  next resp segments hfirst =>
    simp only
    split
    next => exact .inl ⟨_, _, rfl⟩
    next hstatus =>
      split
      next => exact .inr (.inr rfl)
      next text rest hsecond =>
        -- the header loop reads the text that has no `Location`
        have htext : ∀ code, code = ((IStream.ofBuffer resp).extractWord.2.extractUnsigned).1 →
            code = 302 → ¬HasLocation text := by
          rintro code hcode rfl hlocation
          refine h ⟨text, ?_, hlocation⟩
          rw [headerText, hfirst]
          simp only
          rw [if_neg hstatus, hsecond, hcode]
          rfl
        have hloop := fun eofbit failbit response₁ =>
          @readHeaders_keeps _ ⟨text, eofbit, failbit⟩ handler response₁ (htext _ rfl)
        rcases hloop _ _ _ with ⟨response', buffer, hdone⟩ | hthrew
        · rw [hdone]
          simp only
          split
          · exact .inr (.inr rfl)
          · split
            · exact .inl ⟨_, _, rfl⟩
            · exact .inr (.inl ⟨_, rfl⟩)
        · rw [hthrew]
          exact .inr (.inr rfl)

/-! ### Histories -/

/-- What the hosts answer, now and whenever they are asked again. -/
abbrev Hosts := Bytes → Bytes → Option Reply

/-- The handler after a call that has ended. -/
def handlerAfter : Outcome ProxyHandler → Option ProxyHandler
  | .returned _ _ handler => some handler
  | .threw handler => some handler
  | .running => none

/-- The handler after some calls that have ended, one after another. -/
inductive After (hosts : Hosts) (configured : ProxyHandler) :
    List (Request × Response) → ProxyHandler → Prop
  | init : After hosts configured [] configured
  | call {history : List (Request × Response)} {h h' : ProxyHandler} {request : Request}
    {response : Response} {fuel : ℕ} (hafter : After hosts configured history h)
    (hcall : handlerAfter (handleRequest (fun _ => hosts) fuel h request response) = some h') :
    After hosts configured (history ++ [(request, response)]) h'

/-- The `n`-th connection of a call goes to this host. -/
def Contacts (hosts : Hosts) (handler : ProxyHandler) (request : Request) (response : Response)
    (n : ℕ) (host : Bytes) : Prop :=
  ∃ h r, Reaches (fun _ => hosts) request handler response n h r ∧ h.host = host

/-- A call of `h` starts at the configured host, contacts the hosts that the
first call after `Init` would contact, and gives the same answer. -/
structure Independent (hosts : Hosts) (configured h : ProxyHandler) (request : Request)
    (response : Response) : Prop where
  starts : Contacts hosts h request response 0 configured.host
  contacts : ∀ n host, Contacts hosts h request response n host ↔
    Contacts hosts configured request response n host
  answer : ∀ fuel,
    (handleRequest (fun _ => hosts) fuel h request response).map (fun _ => ()) =
      (handleRequest (fun _ => hosts) fuel configured request response).map fun _ => ()

section Histories

variable {hosts : Hosts} {configured h : ProxyHandler} {history : List (Request × Response)}

/-- The configured host does not redirect this request. -/
def NoRedirect (hosts : Hosts) (configured : ProxyHandler) (request : Request) : Prop :=
  ∀ reply, hosts configured.host
    (configured.upstreamRequest (configured.target request.uri)) = some reply → ¬Redirects reply

/-- A call that is not redirected leaves the handler as it was. -/
theorem redirectLoop_keeps {request : Request} (hno : NoRedirect hosts configured request)
    {fuel n : ℕ} {response : Response} {h' : ProxyHandler}
    (hafter : handlerAfter (redirectLoop (fun _ => hosts) request fuel n configured response) =
      some h') : h' = configured := by
  induction fuel generalizing n response with
  | zero => cases hafter
  | succ fuel ih =>
    rcases hreply : hosts configured.host
      (configured.upstreamRequest (configured.target request.uri)) with _ | reply
    · rw [redirectLoop] at hafter
      simp only [hreply] at hafter
      exact (Option.some_inj.mp hafter).symm
    · rw [redirectLoop_succ hreply] at hafter
      rcases exchange_keeps (hno reply hreply) configured response with
        ⟨status, response', hreturned⟩ | ⟨response', hagain⟩ | hthrew
      · rw [hreturned] at hafter
        exact (Option.some_inj.mp hafter).symm
      · -- the same host is asked again
        rw [hagain] at hafter
        exact ih hafter
      · rw [hthrew] at hafter
        exact (Option.some_inj.mp hafter).symm

/-- **Without redirections the handler stays as it was configured.** -/
theorem After.eq_configured (hafter : After hosts configured history h) :
    (∀ call ∈ history, NoRedirect hosts configured call.1) → h = configured := by
  induction hafter with
  | init => exact fun _ => rfl
  | @call history h h' request response fuel hafter hcall ih =>
    intro hno
    obtain rfl := ih fun call hmem => hno call (List.mem_append_left _ hmem)
    exact redirectLoop_keeps (hno (request, response) (by simp)) hcall

/-- **When requests do not influence each other**: the configured host has
redirected none of those before. -/
theorem independent_of_noRedirects (hafter : After hosts configured history h)
    (hno : ∀ call ∈ history, NoRedirect hosts configured call.1) (request : Request)
    (response : Response) : Independent hosts configured h request response := by
  obtain rfl := hafter.eq_configured hno
  exact ⟨⟨h, response, .start, rfl⟩, fun _ _ => Iff.rfl, fun _ => rfl⟩

end Histories

/-- A host that has moved to `example`, which answers. -/
def movedHosts : Hosts := fun host _ =>
  if host = bytes "old" then
    some ⟨[bytes "HTTP/1.1 302 Found\r\nLocation: http://example/\r\n\r\n"], .eof⟩
  else some ⟨[bytes "HTTP/1.1 200 OK\r\nServer: x\r\n\r\n", bytes "hello"], .eof⟩

theorem independent_of_noRedirects_example :
    Independent movedHosts proxy proxy getA (.fresh .ok) := by
  have hcall : handlerAfter (handleRequest (fun _ => movedHosts) 1 proxy getA (.fresh .ok)) =
      some proxy := by decide +kernel
  refine independent_of_noRedirects (After.call .init hcall) (fun call hcall => ?_) getA
    (.fresh .ok)
  obtain rfl := List.mem_singleton.mp hcall
  rintro reply hreply ⟨text, htext, -⟩
  obtain rfl := Option.some_inj.mp hreply
  have hcode : (headerText ⟨[bytes "HTTP/1.1 200 OK\r\nServer: x\r\n\r\n", bytes "hello"],
      .eof⟩).map Prod.fst = some 200 := by decide +kernel
  rw [htext] at hcode
  have heq : (302 : UInt32) = 200 := Option.some_inj.mp hcode
  exact absurd heq (by decide)

/-- The second request starts at the host that the first was sent on to. -/
theorem not_independent_moved :
    ∃ history h, After movedHosts ⟨bytes "/proxy", bytes "old", bytes "80"⟩ history h ∧
      ¬Independent movedHosts ⟨bytes "/proxy", bytes "old", bytes "80"⟩ h getA (.fresh .ok) := by
  have hcall : handlerAfter (handleRequest (fun _ => movedHosts) 2
      ⟨bytes "/proxy", bytes "old", bytes "80"⟩ getA (.fresh .ok)) = some proxy := by
    decide +kernel
  refine ⟨_, _, After.call .init hcall, fun hindependent => ?_⟩
  obtain ⟨h, r, hreach, hhost⟩ := hindependent.starts
  cases hreach
  exact absurd hhost (by decide)

end ProxyHandler
