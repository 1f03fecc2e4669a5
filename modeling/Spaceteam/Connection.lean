/-
A connection (`connection.h`, `connection.cc`).

`start` asks for one asynchronous read; its completion `handle_read` parses
what was received, selects a handler by shortening a path, calls it, writes
the response and counts it.  The handlers and what they do are parameters.

The effects of a connection are a list of events in the order in which they
happen.  `at` on a missing key and `substr` at `npos` throw.
-/
import Spaceteam.RequestHandler

open RequestHandler

/-- `std::map<std::string, RequestHandler*>`; the pointers in it are not null
and point to different handlers. -/
abbrev HandlerMap (H : Type*) := Std.ExtTreeMap Bytes H

namespace Connection

/-- `DEFAULT_STRING`. -/
def defaultString : Bytes := bytes "default"

/-- `BUFFER_SIZE`. -/
def bufferSize : ℕ := 1024

def shortenUriPrefix (uriPrefix : Bytes) : Bytes :=
  -- Reached last possible path.
  if uriPrefix = bytes "/" then []
  else
    match uriPrefix.rfind (ascii '/') with
    | some pos =>
      let shortened := uriPrefix.take pos
      if shortened ≠ [] then shortened else bytes "/"
    | none => []

/-- `pair.second.substr(pair.second.find("/", 8))`; `none` when it throws. -/
def refererPath (value : Bytes) : Option Bytes :=
  (value.findFrom (ascii '/') 8).bind value.substr

/-- One pass of the loop over the headers. -/
def headerPath (path : Bytes) (pair : Bytes × Bytes) : Option Bytes :=
  if pair.1 = bytes "Referer" then refererPath pair.2 else some path

/-- The path the selection starts from. -/
def handlerUriPrefix (request : Request) : Option Bytes :=
  request.headers.foldlM headerPath request.uri

variable {H : Type*}

/-- The loop over the paths, longest first: the first that is a key of the map,
with its handler; `none` when `fuel` iterations were not enough. -/
def findHandler (pathToHandler : HandlerMap H) : ℕ → Bytes → Option (Option (Bytes × H))
  | 0, _ => none
  | fuel + 1, handlerUriPrefix =>
    if handlerUriPrefix = [] then some none
    else
      match pathToHandler[handlerUriPrefix]? with
      | some requestHandler => some (some (handlerUriPrefix, requestHandler))
      | none => findHandler pathToHandler fuel (shortenUriPrefix handlerUriPrefix)

/-- How the selection of a handler ends. -/
inductive Selection (H : Type*) where
  | handler (path : Bytes) (requestHandler : H)
  | throws
  | running
  deriving DecidableEq, Repr

def select (pathToHandler : HandlerMap H) (request : Request) : Selection H :=
  match handlerUriPrefix request with
  | none => .throws
  | some path =>
    match findHandler pathToHandler (path.length + 2) path with
    | none => .running
    | some (some (path, requestHandler)) => .handler path requestHandler
    | some none =>
      match pathToHandler[defaultString]? with
      | some requestHandler => .handler defaultString requestHandler
      | none => .throws

/-- What a connection does to the outside. -/
inductive Event (H : Type*) where
  | handle (path : Bytes) (requestHandler : H) (request : Request)
  | write (data : Bytes)

/-- What the connections share: the handlers and the counters. -/
structure Server (H : Type*) where
  pathToHandler : HandlerMap H
  serverStatus : ServerStatus

/-- How a call of `handle_read` ends. -/
inductive Ending where
  | returned (result : Bool)
  | threw
  | running
  deriving DecidableEq, Repr

structure Completion (H : Type*) where
  events : List (Event H)
  server : Server H
  ending : Ending

/-- `handle_read`: `received` is what `buffer_` holds up to `bytes_transferred`
and `garbage` the code an unset `Response` has. -/
def handleRead (handleRequest : HandleRequest H) (garbage : ResponseCode) (server : Server H)
    (error : Bool) (received : Bytes) : Completion H :=
  if error then { events := [], server := server, ending := .returned false }
  else
    let request := Request.parseWith received (some server.serverStatus)
    match select server.pathToHandler request with
    | .throws => { events := [], server := server, ending := .threw }
    | .running => { events := [], server := server, ending := .running }
    | .handler path requestHandler =>
      let handled := .handle path requestHandler request
      match handleRequest requestHandler request (.fresh garbage) with
      | .running => { events := [handled], server := server, ending := .running }
      | .threw requestHandler' =>
        { events := [handled]
          server := { server with
            pathToHandler := server.pathToHandler.insert path requestHandler' }
          ending := .threw }
      | .returned _ response requestHandler' =>
        { events := [handled, .write response.toString]
          server := {
            pathToHandler := server.pathToHandler.insert path requestHandler'
            serverStatus := server.serverStatus.updateStatus request.uri
              response.getResponseCode }
          ending := .returned true }

/-- A connection: whether it waits for a read, and what it has done. -/
structure Session (H : Type*) where
  server : Server H
  reading : Bool
  events : List (Event H)

/-- `start`: the first read is asked for. -/
def start (server : Server H) : Session H :=
  { server := server, reading := true, events := [] }

/-- Bytes arrive.  Those that fit into `buffer_` complete the outstanding read;
the others, and all of them if there is none, stay in the socket. -/
def arrive (handleRequest : HandleRequest H) (garbage : ResponseCode) (session : Session H)
    (chunk : Bytes) : Session H :=
  if session.reading then
    let completion :=
      handleRead handleRequest garbage session.server false (chunk.take bufferSize)
    -- neither `handle_read` nor `handle_write` asks for another read
    { server := completion.server
      reading := false
      events := session.events ++ completion.events }
  else session

/-- The connection after the chunks have arrived one by one. -/
def run (handleRequest : HandleRequest H) (garbage : ResponseCode) (server : Server H)
    (chunks : List Bytes) : Session H :=
  chunks.foldl (arrive handleRequest garbage) (start server)

/-- The requests handled, with the handlers and the paths they were found at. -/
def handled (events : List (Event H)) : List (Bytes × H × Request) :=
  events.filterMap fun
    | .handle path requestHandler request => some (path, requestHandler, request)
    | .write _ => none

/-- The byte strings written to the client. -/
def written (events : List (Event H)) : List Bytes :=
  events.filterMap fun
    | .handle _ _ _ => none
    | .write data => some data

end Connection
