/-
The running server (`server.h`, `server.cc`, `connection.cc`).

`Server::run` starts worker threads on one `io_service`.  A thread that has
nothing to do takes a completed operation and runs its handler; what the
handlers share are the table of request handlers, the counters and the
operations that have been asked for.  The network is the label of a step: which
operation completes, and how.  A thread runs its handler in several steps, with
those of the other threads in between; a call of `HandleRequest` is one of them,
the accesses of `UpdateStatus` are one each.

An exception that leaves `handle_read` leaves `io_service::run` and the thread,
and ends the process.

* `Server.step_of_move` — what a step can do.
-/
import Spaceteam.Acceptor
import Spaceteam.Routing
import Spaceteam.StatusThreads

open RequestHandler Interleaving

namespace Server

/-- `NUM_OF_THREADS_`. -/
def numOfThreads : ℕ := 5

/-- The asynchronous operations. -/
inductive Operation where
  | accept
  | read
  | write
  deriving DecidableEq, Repr

/-- A response handed to `do_write`, with the connection and the request. -/
structure Answer where
  connection : ℕ
  request : Request
  response : Response

/-- What the threads share.  Connections are numbered in the order of their
creation; an operation that is outstanding is named with its connection. -/
structure Shared (H : Type*) where
  pathToHandler : HandlerMap H
  serverStatus : ServerStatus
  created : ℕ
  outstanding : List (Operation × ℕ)
  answers : List Answer
  terminated : Bool

/-- What a thread is about to do. -/
inductive Task where
  | idle
  | handleAccept (newConnection : ℕ) (error : ErrorCode)
  | startAccept
  | handleRead (connection : ℕ) (error : ErrorCode) (received : Bytes)
  | doWrite (connection : ℕ) (request : Request) (response : Response)
  | updateStatus (worker : ServerStatus.Worker)
  | handleWrite (connection : ℕ) (error : ErrorCode)
  -- in a call of `HandleRequest` that does not return
  | held (connection : ℕ)
  | threw (connection : ℕ)

namespace Task

def isIdle : Task → Bool
  | .idle => true
  | _ => false

theorem eq_idle {t : Task} (h : t.isIdle = true) : t = .idle := by
  cases t <;> first | rfl | cases h

/-- The thread is kept by the connection. -/
def isHeld (connection : ℕ) : Task → Bool
  | .held c => c == connection
  | _ => false

theorem eq_held {t : Task} {connection : ℕ} (h : t.isHeld connection = true) :
    t = .held connection := by
  cases t with
  | held c =>
    obtain rfl : c = connection := by simpa [isHeld] using h
    rfl
  | _ => cases h

end Task

/-- What the outside says to a step: an operation has completed, or a thread
goes on with what it is doing. -/
inductive Label where
  | accepted (newConnection : ℕ) (error : ErrorCode)
  | received (connection : ℕ) (error : ErrorCode) (data : Bytes)
  | sent (connection : ℕ) (error : ErrorCode)
  | proceeds

variable {H : Type*}

namespace Shared

/-- `async_accept`, `async_read_some`, `async_write`. -/
def ask (s : Shared H) (operation : Operation) (connection : ℕ) : Shared H :=
  { s with outstanding := s.outstanding ++ [(operation, connection)] }

/-- The operation is no longer outstanding; `none` when it never was. -/
def complete (s : Shared H) (operation : Operation) (connection : ℕ) : Option (Shared H) :=
  if (operation, connection) ∈ s.outstanding then
    some { s with outstanding := s.outstanding.erase (operation, connection) }
  else none

/-- `start_accept`. -/
def startAccept (s : Shared H) : Shared H :=
  ({ s with created := s.created + 1 } : Shared H).ask .accept s.created

/-- `do_write`. -/
def doWrite (s : Shared H) (connection : ℕ) (request : Request) (response : Response) :
    Shared H :=
  { s.ask .write connection with answers := s.answers ++ [⟨connection, request, response⟩] }

/-- What a call of `HandleRequest` has made of the handler. -/
def keep (s : Shared H) (path : Bytes) (requestHandler : H) : Shared H :=
  { s with pathToHandler := s.pathToHandler.insert path requestHandler }

end Shared

/-- The first half of `handle_read`: the request is parsed, a handler selected
and called. -/
def serve (handleRequest : HandleRequest H) (garbage : ResponseCode) (s : Shared H)
    (connection : ℕ) (received : Bytes) : Shared H × Task :=
  let request := Request.parseWith received (some s.serverStatus)
  match Connection.select s.pathToHandler request with
  | .throws => ({ s with terminated := true }, .threw connection)
  | .running => (s, .held connection)
  | .handler path requestHandler =>
    match handleRequest requestHandler request (.fresh garbage) with
    | .running => (s, .held connection)
    | .threw requestHandler' =>
      ({ s.keep path requestHandler' with terminated := true }, .threw connection)
    | .returned _ response requestHandler' =>
      (s.keep path requestHandler', .doWrite connection request response)

/-- The next step of a thread. -/
def move (handleRequest : HandleRequest H) (garbage : ResponseCode) (a : Label) (s : Shared H)
    (t : Task) : Option (Shared H × Task) :=
  if s.terminated then none
  else
    match a, t with
    | .accepted newConnection error, .idle =>
      (s.complete .accept newConnection).map fun s => (s, .handleAccept newConnection error)
    | .received connection error data, .idle =>
      -- at most what `buffer_` holds
      if data.length ≤ Connection.bufferSize then
        (s.complete .read connection).map fun s => (s, .handleRead connection error data)
      else none
    | .sent connection error, .idle =>
      (s.complete .write connection).map fun s => (s, .handleWrite connection error)
    | .proceeds, .handleAccept newConnection error =>
      -- `new_connection->start()` asks for the first read
      if error ≠ 0 then some (s, .idle) else some (s.ask .read newConnection, .startAccept)
    | .proceeds, .startAccept => some (s.startAccept, .idle)
    | .proceeds, .handleRead connection error data =>
      if error ≠ 0 then some (s, .idle)
      else some (serve handleRequest garbage s connection data)
    | .proceeds, .doWrite connection request response =>
      some (s.doWrite connection request response,
        .updateStatus ⟨.testUri, [(request.uri, response.getResponseCode)]⟩)
    | .proceeds, .updateStatus worker =>
      (ServerStatus.access s.serverStatus worker).map fun a =>
        ({ s with serverStatus := a.1 }, if a.2.calls = [] then .idle else .updateStatus a.2)
    -- neither outcome asks for anything
    | .proceeds, .handleWrite _ _ => some (s, .idle)
    | _, _ => none

/-! ### What a step can do -/

/-- What `move` does, case by case. -/
inductive Step (handleRequest : HandleRequest H) (garbage : ResponseCode) (s : Shared H) :
    Label → Task → Shared H → Task → Prop
  | accepted {c : ℕ} (error : ErrorCode) (hmem : (.accept, c) ∈ s.outstanding) :
    Step handleRequest garbage s (.accepted c error) .idle
      { s with outstanding := s.outstanding.erase (.accept, c) } (.handleAccept c error)
  | received {c : ℕ} {data : Bytes} (error : ErrorCode)
    (hfits : data.length ≤ Connection.bufferSize) (hmem : (.read, c) ∈ s.outstanding) :
    Step handleRequest garbage s (.received c error data) .idle
      { s with outstanding := s.outstanding.erase (.read, c) } (.handleRead c error data)
  | sent {c : ℕ} (error : ErrorCode) (hmem : (.write, c) ∈ s.outstanding) :
    Step handleRequest garbage s (.sent c error) .idle
      { s with outstanding := s.outstanding.erase (.write, c) } (.handleWrite c error)
  | acceptFailed (c : ℕ) {error : ErrorCode} (herror : error ≠ 0) :
    Step handleRequest garbage s .proceeds (.handleAccept c error) s .idle
  | started (c : ℕ) :
    Step handleRequest garbage s .proceeds (.handleAccept c 0) (s.ask .read c) .startAccept
  | startsAccept : Step handleRequest garbage s .proceeds .startAccept s.startAccept .idle
  | readFailed (c : ℕ) {error : ErrorCode} (herror : error ≠ 0) (data : Bytes) :
    Step handleRequest garbage s .proceeds (.handleRead c error data) s .idle
  | selectThrows (c : ℕ) {data : Bytes}
    (hselect : Connection.select s.pathToHandler
      (Request.parseWith data (some s.serverStatus)) = .throws) :
    Step handleRequest garbage s .proceeds (.handleRead c 0 data)
      { s with terminated := true } (.threw c)
  | handlerHolds (c : ℕ) {data path : Bytes} {h : H}
    (hselect : Connection.select s.pathToHandler
      (Request.parseWith data (some s.serverStatus)) = .handler path h)
    (hout : handleRequest h (Request.parseWith data (some s.serverStatus)) (.fresh garbage) =
      .running) :
    Step handleRequest garbage s .proceeds (.handleRead c 0 data) s (.held c)
  | handlerThrows (c : ℕ) {data path : Bytes} {h h' : H}
    (hselect : Connection.select s.pathToHandler
      (Request.parseWith data (some s.serverStatus)) = .handler path h)
    (hout : handleRequest h (Request.parseWith data (some s.serverStatus)) (.fresh garbage) =
      .threw h') :
    Step handleRequest garbage s .proceeds (.handleRead c 0 data)
      { s.keep path h' with terminated := true } (.threw c)
  | handlerReturns (c : ℕ) {data path : Bytes} {h h' : H} {status : Status}
    {response : Response}
    (hselect : Connection.select s.pathToHandler
      (Request.parseWith data (some s.serverStatus)) = .handler path h)
    (hout : handleRequest h (Request.parseWith data (some s.serverStatus)) (.fresh garbage) =
      .returned status response h') :
    Step handleRequest garbage s .proceeds (.handleRead c 0 data) (s.keep path h')
      (.doWrite c (Request.parseWith data (some s.serverStatus)) response)
  | writes (c : ℕ) (request : Request) (response : Response) :
    Step handleRequest garbage s .proceeds (.doWrite c request response)
      (s.doWrite c request response)
      (.updateStatus ⟨.testUri, [(request.uri, response.getResponseCode)]⟩)
  | accesses {w w' : ServerStatus.Worker} {status : ServerStatus}
    (haccess : ServerStatus.access s.serverStatus w = some (status, w')) :
    Step handleRequest garbage s .proceeds (.updateStatus w) { s with serverStatus := status }
      (if w'.calls = [] then .idle else .updateStatus w')
  | sentDone (c : ℕ) (error : ErrorCode) :
    Step handleRequest garbage s .proceeds (.handleWrite c error) s .idle

variable {handleRequest : HandleRequest H} {garbage : ResponseCode} {s s' : Shared H} {t t' : Task}
  {a : Label}

theorem complete_eq_some {operation : Operation} {c : ℕ} (h : s.complete operation c = some s') :
    (operation, c) ∈ s.outstanding ∧
      s' = { s with outstanding := s.outstanding.erase (operation, c) } := by
  unfold Shared.complete at h
  split_ifs at h with hmem
  exact ⟨hmem, (Option.some_inj.mp h).symm⟩

/-- The selection always ends. -/
theorem select_ne_running (pathToHandler : HandlerMap H) (request : Request) :
    Connection.select pathToHandler request ≠ .running := by
  rcases Connection.select_cases pathToHandler request with ⟨-, hselect⟩ |
    ⟨w, -, -, ⟨path, h, -, -, hselect⟩ | ⟨-, ⟨h, -, hselect⟩ | ⟨-, hselect⟩⟩⟩
  all_goals
    rw [hselect]
    simp

theorem step_of_serve (c : ℕ) (data : Bytes) :
    Step handleRequest garbage s .proceeds (.handleRead c 0 data)
      (serve handleRequest garbage s c data).1 (serve handleRequest garbage s c data).2 := by
  rcases hselect : Connection.select s.pathToHandler
      (Request.parseWith data (some s.serverStatus)) with ⟨path, h⟩ | _ | _
  · rcases hout : handleRequest h (Request.parseWith data (some s.serverStatus))
        (.fresh garbage) with ⟨status, response, h'⟩ | ⟨h'⟩ | _
    · simp only [serve, hselect, hout]
      exact .handlerReturns c hselect hout
    · simp only [serve, hselect, hout]
      exact .handlerThrows c hselect hout
    · simp only [serve, hselect, hout]
      exact .handlerHolds c hselect hout
  · simp only [serve, hselect]
    exact .selectThrows c hselect
  · exact absurd hselect (select_ne_running _ _)

/-- **What a step can do.**  No step is taken once the process has ended. -/
theorem step_of_move (h : move handleRequest garbage a s t = some (s', t')) :
    s.terminated = false ∧ Step handleRequest garbage s a t s' t' := by
  unfold move at h
  split_ifs at h with hterminated
  refine ⟨by simpa using hterminated, ?_⟩
  split at h
  next c error =>
    obtain ⟨s₁, hcomplete, heq⟩ := Option.map_eq_some_iff.mp h
    obtain ⟨hmem, rfl⟩ := complete_eq_some hcomplete
    obtain ⟨rfl, rfl⟩ := Prod.mk.inj heq
    exact .accepted error hmem
  next c error data =>
    split_ifs at h with hfits
    obtain ⟨s₁, hcomplete, heq⟩ := Option.map_eq_some_iff.mp h
    obtain ⟨hmem, rfl⟩ := complete_eq_some hcomplete
    obtain ⟨rfl, rfl⟩ := Prod.mk.inj heq
    exact .received error hfits hmem
  next c error =>
    obtain ⟨s₁, hcomplete, heq⟩ := Option.map_eq_some_iff.mp h
    obtain ⟨hmem, rfl⟩ := complete_eq_some hcomplete
    obtain ⟨rfl, rfl⟩ := Prod.mk.inj heq
    exact .sent error hmem
  next c error =>
    split_ifs at h with herror
    · obtain ⟨rfl, rfl⟩ := Prod.mk.inj (Option.some_inj.mp h)
      exact .acceptFailed c herror
    · obtain ⟨rfl, rfl⟩ := Prod.mk.inj (Option.some_inj.mp h)
      obtain rfl := not_not.mp herror
      exact .started c
  next =>
    obtain ⟨rfl, rfl⟩ := Prod.mk.inj (Option.some_inj.mp h)
    exact .startsAccept
  next c error data =>
    split_ifs at h with herror
    · obtain ⟨rfl, rfl⟩ := Prod.mk.inj (Option.some_inj.mp h)
      exact .readFailed c herror data
    · obtain rfl := not_not.mp herror
      have hserve := @step_of_serve H handleRequest garbage s c data
      rw [Option.some_inj.mp h] at hserve
      exact hserve
  next c request response =>
    obtain ⟨rfl, rfl⟩ := Prod.mk.inj (Option.some_inj.mp h)
    exact .writes c request response
  next w =>
    obtain ⟨⟨status, w'⟩, haccess, heq⟩ := Option.map_eq_some_iff.mp h
    obtain ⟨rfl, rfl⟩ := Prod.mk.inj heq
    exact .accesses haccess
  next c error =>
    obtain ⟨rfl, rfl⟩ := Prod.mk.inj (Option.some_inj.mp h)
    exact .sentDone c error
  next => cases h

/-! ### The server before its first step -/

variable {ι : Type*} [DecidableEq ι]

/-- The end of the constructor: the counters are fresh and one accept has been
asked for; then `run` starts the threads. -/
def listen (pathToHandler : HandlerMap H)
    (handlerNameToPrefixes : Std.ExtTreeMap Bytes (List Bytes)) :
    Pool ι (Shared H) Task where
  shared := ({
    pathToHandler := pathToHandler
    serverStatus := ServerStatus.new.addHandlerInfo handlerNameToPrefixes
    created := 0
    outstanding := []
    answers := []
    terminated := false } : Shared H).startAccept
  threads _ := .idle

/-- The runs of the server, with what the outside has said to each step. -/
abbrev Runs (handleRequest : HandleRequest H) (garbage : ResponseCode)
    (p : Pool ι (Shared H) Task) : List (ι × Label) → Pool ι (Shared H) Task → Prop :=
  History (move handleRequest garbage) (fun _ _ => True) p

end Server
