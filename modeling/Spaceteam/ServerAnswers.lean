/-
What the clients of the running server are answered.

`handle_read` on its own says what a connection is answered when nothing else
happens.  On the threads the calls of the handlers come one after another in
any order, and what a handler keeps of them may change what the later ones
come to.  The table has the same paths throughout, and the handlers that no
call changes are the ones it started with.

* `Server.traced_of_runs` — every response comes from the data read from its
  connection and from the handler these are routed to;
* `Server.answer_of_runs` — a handler that does not depend on what it was
  called for before answers as `handle_read` alone;
* `Server.answered_alone_of_drained` — when the server has run out of work,
  each client heard has got exactly that.
-/
import Spaceteam.ServerRuns

open RequestHandler Interleaving

/-! ### Handlers that keep nothing -/

namespace RequestHandler

variable {H : Type*}

/-- The call has left the handler as it was. -/
def Outcome.Leaves (h : H) : Outcome H → Prop
  | .returned _ _ h' => h' = h
  | .threw h' => h' = h
  | .running => True

/-- No call changes the handler. -/
def Keeps (handleRequest : HandleRequest H) (h : H) : Prop :=
  ∀ request response, (handleRequest h request response).Leaves h

theorem Keeps.eq_of_returned {handleRequest : HandleRequest H} {h h' : H} {request : Request}
    {response response' : Response} {status : Status} (hkeeps : Keeps handleRequest h)
    (hout : handleRequest h request response = .returned status response' h') : h' = h := by
  have hleaves := hkeeps request response
  rw [hout] at hleaves
  exact hleaves

theorem Keeps.eq_of_threw {handleRequest : HandleRequest H} {h h' : H} {request : Request}
    {response : Response} (hkeeps : Keeps handleRequest h)
    (hout : handleRequest h request response = .threw h') : h' = h := by
  have hleaves := hkeeps request response
  rw [hout] at hleaves
  exact hleaves

/-- No call changes the handler, and none looks at the counters. -/
structure Detached (handleRequest : HandleRequest H) (h : H) : Prop where
  keeps : Keeps handleRequest h
  ignores : ∀ request status response,
    handleRequest h { request with serverStatus := status } response =
      handleRequest h request response

end RequestHandler

namespace Server

variable {H : Type*} {handleRequest : HandleRequest H} {garbage : ResponseCode}
  {pathToHandler m : HandlerMap H}

/-! ### The table of a running server -/

/-- The table has the paths of `pathToHandler`, and its handlers that no call
changes. -/
structure Retains (handleRequest : HandleRequest H) (pathToHandler m : HandlerMap H) : Prop where
  mem_iff : ∀ path : Bytes, path ∈ m ↔ path ∈ pathToHandler
  kept : ∀ (path : Bytes) (h : H), pathToHandler[path]? = some h → Keeps handleRequest h →
    m[path]? = some h

theorem retains_self : Retains handleRequest pathToHandler pathToHandler where
  mem_iff _ := Iff.rfl
  kept _ _ h _ := h

/-- A call puts back a handler at a path of the table. -/
theorem Retains.insert (hretains : Retains handleRequest pathToHandler m) {path : Bytes} {h h' : H}
    (hpath : m[path]? = some h) (hleaves : Keeps handleRequest h → h' = h) :
    Retains handleRequest pathToHandler (m.insert path h') where
  mem_iff p := by
    have hmem : path ∈ m := Connection.mem_of_getElem? hpath
    rw [← hretains.mem_iff, Std.ExtTreeMap.mem_insert, Std.LawfulEqCmp.compare_eq_iff_eq]
    constructor
    · rintro (rfl | hp)
      · exact hmem
      · exact hp
    · exact .inr
  kept p k hp hkeeps := by
    rw [Std.ExtTreeMap.getElem?_insert]
    split_ifs with heq
    · obtain rfl : path = p := Std.LawfulEqCmp.compare_eq_iff_eq.mp heq
      -- the handler called is the one the server has started with
      obtain rfl : h = k := Option.some_inj.mp (hpath.symm.trans (hretains.kept _ _ hp hkeeps))
      rw [hleaves hkeeps]
    · exact hretains.kept p k hp hkeeps

/-- A request is routed to the same path. -/
theorem Retains.routed (hretains : Retains handleRequest pathToHandler m) {request : Request}
    {path : Bytes} {h : H} (hrouted : Connection.Routed m request path h) :
    ∃ h₀, Connection.Routed pathToHandler request path h₀ ∧ (Keeps handleRequest h₀ → h = h₀) := by
  obtain ⟨href, hpath, w, hstart, hcase⟩ := hrouted
  have hmem : path ∈ pathToHandler := (hretains.mem_iff path).mp (Connection.mem_of_getElem? hpath)
  refine ⟨pathToHandler[path], ⟨href, Std.ExtTreeMap.getElem?_eq_some_getElem hmem, w, hstart, ?_⟩,
    fun hkeeps => ?_⟩
  · simpa only [Connection.IsLongestRegistered, hretains.mem_iff] using hcase
  · have hsame := hretains.kept path _ (Std.ExtTreeMap.getElem?_eq_some_getElem hmem) hkeeps
    exact Option.some_inj.mp (hpath.symm.trans hsame)

/-- A request finds a handler in both tables or in neither. -/
theorem Retains.selects_iff (hretains : Retains handleRequest pathToHandler m) {request : Request} :
    Connection.Selects m request ↔ Connection.Selects pathToHandler request := by
  simp only [Connection.Selects, hretains.mem_iff]

/-! ### Where a response comes from -/

variable {ι : Type*} [DecidableEq ι] {handlerNameToPrefixes : Std.ExtTreeMap Bytes (List Bytes)}
  {steps : List (ι × Label)} {q : Pool ι (Shared H) Task}

/-- The read of the connection has completed with `data`. -/
def Heard (steps : List (ι × Label)) (c : ℕ) (data : Bytes) : Prop :=
  ∃ i, (i, Label.received c 0 data) ∈ steps

section

variable (handleRequest : HandleRequest H) (garbage : ResponseCode) (pathToHandler : HandlerMap H)
  (handlerNameToPrefixes : Std.ExtTreeMap Bytes (List Bytes)) (steps : List (ι × Label)) (c : ℕ)

/-- At some time of the run the read of the connection had completed with
`data`, and the counters were `counters`. -/
def HeardAt (data : Bytes) (counters : ServerStatus) : Prop :=
  ∃ before r, before <+: steps ∧
    Runs handleRequest garbage (listen pathToHandler handlerNameToPrefixes) before r ∧
    Heard before c data ∧ r.shared.serverStatus = counters

/-- The response was made for the data read from the connection, and if no call
changes the handler at their path, it is the one that made it. -/
def Made (request : Request) (response : Response) : Prop :=
  ∃ data counters path h,
    HeardAt handleRequest garbage pathToHandler handlerNameToPrefixes steps c data counters ∧
    request = Request.parseWith data (some counters) ∧
    Connection.Routed pathToHandler request path h ∧
    (Keeps handleRequest h → ∃ result h',
      handleRequest h request (.fresh garbage) = .returned result response h')

/-- The data read from the connection are such that no handler is found for
them, or that they lead to a call which throws. -/
def Throws : Prop :=
  ∃ data counters,
    HeardAt handleRequest garbage pathToHandler handlerNameToPrefixes steps c data counters ∧
    (¬Connection.Selects pathToHandler (Request.parseWith data (some counters)) ∨
      ∃ path h, Connection.Routed pathToHandler (Request.parseWith data (some counters)) path h ∧
        (Keeps handleRequest h → ∃ h',
          handleRequest h (Request.parseWith data (some counters)) (.fresh garbage) = .threw h'))

/-- What is known of a thread. -/
def Traced : Task → Prop
  | .handleRead c error data => error = 0 → Heard steps c data
  | .doWrite c request response =>
    Made handleRequest garbage pathToHandler handlerNameToPrefixes steps c request response
  | _ => True

/-- What is known of the shared state. -/
structure TracedShared (s : Shared H) : Prop where
  table : Retains handleRequest pathToHandler s.pathToHandler
  answers : ∀ answer ∈ s.answers, Made handleRequest garbage pathToHandler handlerNameToPrefixes
    steps answer.connection answer.request answer.response
  ended : s.terminated = true →
    ∃ c, Throws handleRequest garbage pathToHandler handlerNameToPrefixes steps c

end

omit [DecidableEq ι] in
theorem Heard.mono {c : ℕ} {data : Bytes} {before : List (ι × Label)} (h : Heard before c data)
    (hbefore : before <+: steps) : Heard steps c data := by
  obtain ⟨i, hmem⟩ := h
  exact ⟨i, hbefore.mem hmem⟩

theorem HeardAt.heard {c : ℕ} {data : Bytes} {counters : ServerStatus}
    (h : HeardAt handleRequest garbage pathToHandler handlerNameToPrefixes steps c data counters) :
    Heard steps c data := by
  obtain ⟨before, r, hbefore, -, hheard, -⟩ := h
  exact hheard.mono hbefore

theorem HeardAt.concat {c : ℕ} {data : Bytes} {counters : ServerStatus}
    (h : HeardAt handleRequest garbage pathToHandler handlerNameToPrefixes steps c data counters)
    (step : ι × Label) : HeardAt handleRequest garbage pathToHandler handlerNameToPrefixes
      (steps ++ [step]) c data counters := by
  obtain ⟨before, r, hbefore, hrest⟩ := h
  exact ⟨before, r, hbefore.trans (List.prefix_append _ _), hrest⟩

theorem Made.concat {c : ℕ} {request : Request} {response : Response}
    (h : Made handleRequest garbage pathToHandler handlerNameToPrefixes steps c request response)
    (step : ι × Label) : Made handleRequest garbage pathToHandler handlerNameToPrefixes
      (steps ++ [step]) c request response := by
  obtain ⟨data, counters, path, k, hheard, hrest⟩ := h
  exact ⟨data, counters, path, k, hheard.concat step, hrest⟩

theorem Throws.concat {c : ℕ}
    (h : Throws handleRequest garbage pathToHandler handlerNameToPrefixes steps c)
    (step : ι × Label) :
    Throws handleRequest garbage pathToHandler handlerNameToPrefixes (steps ++ [step]) c := by
  obtain ⟨data, counters, hheard, hrest⟩ := h
  exact ⟨data, counters, hheard.concat step, hrest⟩

theorem Traced.concat {t : Task}
    (h : Traced handleRequest garbage pathToHandler handlerNameToPrefixes steps t)
    (step : ι × Label) :
    Traced handleRequest garbage pathToHandler handlerNameToPrefixes (steps ++ [step]) t := by
  cases t with
  | handleRead c error data => exact fun herror => (h herror).mono (List.prefix_append _ _)
  | doWrite c request response => exact Made.concat h step
  | _ => trivial

/-- **A step leaves nothing untraced.** -/
theorem traced_step {i : ι} {a : Label} {s' : Shared H} {t t' : Task}
    (hruns : Runs handleRequest garbage (listen pathToHandler handlerNameToPrefixes) steps q)
    (h : Step handleRequest garbage q.shared a t s' t')
    (hs : TracedShared handleRequest garbage pathToHandler handlerNameToPrefixes steps q.shared)
    (ht : Traced handleRequest garbage pathToHandler handlerNameToPrefixes steps t) :
    TracedShared handleRequest garbage pathToHandler handlerNameToPrefixes (steps ++ [(i, a)]) s' ∧
      Traced handleRequest garbage pathToHandler handlerNameToPrefixes (steps ++ [(i, a)]) t' := by
  have hanswers : ∀ answer ∈ q.shared.answers,
      Made handleRequest garbage pathToHandler handlerNameToPrefixes (steps ++ [(i, a)])
        answer.connection answer.request answer.response :=
    fun answer hmem => (hs.answers answer hmem).concat (i, a)
  have hended : q.shared.terminated = true → ∃ c, Throws handleRequest garbage pathToHandler
      handlerNameToPrefixes (steps ++ [(i, a)]) c := fun hterminated =>
    (hs.ended hterminated).imp fun _ hthrows => hthrows.concat (i, a)
  -- the counters that a request is parsed with are those of this moment
  have hheardAt : ∀ {c data}, Heard steps c data → HeardAt handleRequest garbage pathToHandler
      handlerNameToPrefixes (steps ++ [(i, a)]) c data q.shared.serverStatus := fun hheard =>
    ⟨steps, q, List.prefix_append _ _, hruns, hheard, rfl⟩
  generalize q.shared = s at h hs hanswers hended hheardAt
  cases h with
  | received error hfits hmem =>
    refine ⟨⟨hs.table, hanswers, hended⟩, ?_⟩
    rintro rfl
    exact ⟨i, by simp⟩
  | @selectThrows c data hselect =>
    refine ⟨⟨hs.table, hanswers, fun _ => ⟨c, data, s.serverStatus, hheardAt (ht rfl), .inl ?_⟩⟩,
      trivial⟩
    intro hselects
    obtain ⟨path, h, hfound⟩ := Connection.select_of_selects (hs.table.selects_iff.mpr hselects)
    rw [hselect] at hfound
    cases hfound
  | @handlerThrows c data path h h' hselect hout =>
    have hrouted := Connection.select_eq_handler_iff.mp hselect
    obtain ⟨h₀, hrouted₀, hsame⟩ := hs.table.routed hrouted
    refine ⟨⟨hs.table.insert hrouted.2.1 fun hkeeps => hkeeps.eq_of_threw hout, hanswers,
      fun _ => ⟨c, data, s.serverStatus, hheardAt (ht rfl), .inr ⟨path, h₀, hrouted₀, ?_⟩⟩⟩,
      trivial⟩
    intro hkeeps
    rw [← hsame hkeeps]
    exact ⟨h', hout⟩
  | @handlerReturns c data path h h' status response hselect hout =>
    have hrouted := Connection.select_eq_handler_iff.mp hselect
    obtain ⟨h₀, hrouted₀, hsame⟩ := hs.table.routed hrouted
    refine ⟨⟨hs.table.insert hrouted.2.1 fun hkeeps => hkeeps.eq_of_returned hout, hanswers,
      hended⟩, ?_⟩
    refine ⟨data, s.serverStatus, path, h₀, hheardAt (ht rfl), rfl, hrouted₀, fun hkeeps => ?_⟩
    rw [← hsame hkeeps]
    exact ⟨status, h', hout⟩
  | writes c request response =>
    refine ⟨⟨hs.table, fun answer hmem => ?_, hended⟩, trivial⟩
    rcases List.mem_append.mp hmem with hmem | hmem
    · exact hanswers answer hmem
    · obtain rfl := List.mem_singleton.mp hmem
      exact Made.concat ht _
  | @accesses w w' status haccess =>
    refine ⟨⟨hs.table, hanswers, hended⟩, ?_⟩
    split_ifs <;> trivial
  | _ => exact ⟨⟨hs.table, hanswers, hended⟩, trivial⟩

theorem traced_of_runs
    (h : Runs handleRequest garbage (listen pathToHandler handlerNameToPrefixes) steps q) :
    TracedShared handleRequest garbage pathToHandler handlerNameToPrefixes steps q.shared ∧
      ∀ i, Traced handleRequest garbage pathToHandler handlerNameToPrefixes steps
        (q.threads i) := by
  refine h.invariants
    ⟨retains_self, fun answer hmem => absurd hmem List.not_mem_nil, fun h => by cases h⟩
    (fun _ => trivial) (fun _ step _ ht => ht.concat step) ?_
  intro steps q i a s t hruns hs ht hmove
  exact traced_step hruns (step_of_move hmove).2 hs ht

/-- A response made by a detached handler is the one of `handle_read`. -/
theorem Made.alone {c : ℕ} {request : Request} {response : Response}
    (hmade : Made handleRequest garbage pathToHandler handlerNameToPrefixes steps c request
      response) :
    ∃ data path h, Heard steps c data ∧
      Connection.Routed pathToHandler (Request.parse data) path h ∧
      (Detached handleRequest h → ∀ status,
        Connection.written (Connection.handleRead handleRequest garbage ⟨pathToHandler, status⟩
          false data).events = [response.toString]) := by
  obtain ⟨data, status, path, h, hheard, hrequest, hrouted, hreturns⟩ := hmade
  rw [hrequest] at hrouted
  refine ⟨data, path, h, hheard.heard, hrouted, fun hdetached status' => ?_⟩
  obtain ⟨result, h', hout⟩ := hreturns hdetached.keeps
  have hout' : handleRequest h (Request.parseWith data (some status')) (.fresh garbage) =
      .returned result response h' := by
    rw [← hout, hrequest]
    exact (hdetached.ignores (Request.parseWith data (some status)) (some status') _)
  have hselect : Connection.select pathToHandler (Request.parseWith data (some status')) =
      .handler path h := Connection.select_eq_handler_iff.mpr hrouted
  rw [Connection.handleRead_of_returned handleRequest garbage ⟨pathToHandler, status'⟩ hselect
    hout']
  rfl

/-- **A response is the one that `handle_read` alone would write** for the data
read from its connection, when the handler these are routed to is detached. -/
theorem answer_of_runs
    (h : Runs handleRequest garbage (listen pathToHandler handlerNameToPrefixes) steps q)
    {answer : Answer} (hanswer : answer ∈ q.shared.answers) :
    ∃ data path h, Heard steps answer.connection data ∧
      Connection.Routed pathToHandler (Request.parse data) path h ∧
      (Detached handleRequest h → ∀ status,
        Connection.written (Connection.handleRead handleRequest garbage ⟨pathToHandler, status⟩
          false data).events = [answer.response.toString]) :=
  ((traced_of_runs h).1.answers answer hanswer).alone

theorem detached_echoHandler (h : EchoHandler) : Detached EchoHandler.handleRequest h where
  keeps _ _ := rfl
  ignores _ _ _ := rfl

theorem answer_of_runs_two_clients : ∃ q : Pool (Fin numOfThreads) (Shared EchoHandler) Task,
    q.shared.answers.map (·.connection) = [1, 0] ∧ ∀ answer ∈ q.shared.answers, ∃ data path h,
      Heard (twoClients firstData secondData) answer.connection data ∧
      Connection.Routed echoServer.shared.pathToHandler (Request.parse data) path h ∧
      (Detached EchoHandler.handleRequest h → ∀ status,
        Connection.written (Connection.handleRead EchoHandler.handleRequest .ok
          ⟨echoServer.shared.pathToHandler, status⟩ false data).events =
            [answer.response.toString]) := by
  obtain ⟨q, hruns, -, -, hanswers⟩ := runs_twoClients
  exact ⟨q, hanswers, fun answer hanswer => answer_of_runs hruns hanswer⟩

/-! ### When the threads have run out of work -/

omit [DecidableEq ι] in
/-- A connection is heard once. -/
theorem Heard.unique {c : ℕ} {data data' : Bytes} (htally : tally (Label.hears c) steps ≤ 1)
    (h : Heard steps c data) (h' : Heard steps c data') : data = data' := by
  obtain ⟨i, hmem⟩ := h
  obtain ⟨j, hmem'⟩ := h'
  have heq := eq_of_tally_le_one htally hmem hmem' (by simp [Label.hears]) (by simp [Label.hears])
  cases heq
  rfl

variable [Fintype ι]

/-- **Every client heard has been answered as if it had been alone**, once,
when the server has run out of work. -/
theorem answered_alone_of_drained
    (h : Runs handleRequest garbage (listen pathToHandler handlerNameToPrefixes) steps q)
    (hdrained : Drained q) {c : ℕ} {data : Bytes} (hheard : Heard steps c data)
    (hdetached : ∀ path h, Connection.Routed pathToHandler (Request.parse data) path h →
      Detached handleRequest h) (status : ServerStatus) :
    (q.shared.answers.filter (·.connection = c)).map (·.response.toString) =
      Connection.written (Connection.handleRead handleRequest garbage ⟨pathToHandler, status⟩ false
        data).events := by
  have honce := hears_le_one h c
  have hpos : 1 ≤ tally (Label.hears c) steps := by
    obtain ⟨i, hmem⟩ := hheard
    have hle := le_tally (w := Label.hears c) hmem
    simpa [Label.hears] using hle
  have hanswered : (q.shared.answers.filter (·.connection = c)).length = 1 := by
    rw [← List.countP_eq_length_filter]
    have hall := hdrained.answered_eq h c
    rw [Shared.answered] at hall
    omega
  obtain ⟨answer, hanswer⟩ := List.length_eq_one_iff.mp hanswered
  have hfilter : answer ∈ q.shared.answers.filter (·.connection = c) := by simp [hanswer]
  obtain ⟨hmem, hconnection⟩ := List.mem_filter.mp hfilter
  obtain rfl : answer.connection = c := of_decide_eq_true hconnection
  obtain ⟨data', path, k, hheard', hrouted, halone⟩ :=
    ((traced_of_runs h).1.answers answer hmem).alone
  obtain rfl := hheard.unique honce hheard'
  rw [hanswer, halone (hdetached path k hrouted) status]
  rfl

theorem answered_alone_of_drained_two_clients :
    ∃ q : Pool (Fin numOfThreads) (Shared EchoHandler) Task,
      (q.shared.answers.filter (·.connection = 0)).map (·.response.toString) =
        Connection.written (Connection.handleRead EchoHandler.handleRequest .ok
          ⟨echoServer.shared.pathToHandler, .new⟩ false firstData).events ∧
      (q.shared.answers.filter (·.connection = 1)).map (·.response.toString) =
        Connection.written (Connection.handleRead EchoHandler.handleRequest .ok
          ⟨echoServer.shared.pathToHandler, .new⟩ false secondData).events := by
  obtain ⟨q, hruns, houtstanding, hidle, -⟩ := runs_twoClients
  exact ⟨q,
    answered_alone_of_drained hruns ⟨houtstanding, hidle⟩ ⟨firstThread, by simp [twoClients]⟩
      (fun _ h _ => detached_echoHandler h) .new,
    answered_alone_of_drained hruns ⟨houtstanding, hidle⟩ ⟨secondThread, by simp [twoClients]⟩
      (fun _ h _ => detached_echoHandler h) .new⟩

end Server
