/-
The handlers that need nothing but the request (`not_found_handler.cc`,
`echo_handler.cc`, `status_handler.cc`, `holding_handler.cc`).

The response pointer they are given is never null: `handle_read` passes the
address of a variable.
-/
import Spaceteam.RequestHandler

open RequestHandler

structure NotFoundHandler where
  deriving DecidableEq, Repr

namespace NotFoundHandler

/-- What `HandleRequest` makes of the response. -/
def notFound (response : Response) : Response :=
  ((response.setStatus .notFound).addHeader (bytes "Content-Type") (bytes "text/html")).setBody
    (bytes "<!doctype html><html><body><h1>404 Not Found</h1></body></html>")

def handleRequest (handler : NotFoundHandler) (_request : Request) (response : Response) :
    Outcome NotFoundHandler :=
  .returned .ok (notFound response) handler

end NotFoundHandler

structure EchoHandler where
  deriving DecidableEq, Repr

def EchoHandler.handleRequest (handler : EchoHandler) (request : Request)
    (response : Response) : Outcome EchoHandler :=
  .returned .ok (((response.setStatus .ok).addHeader (bytes "Content-Type")
    (bytes "text/plain")).setBody request.rawRequest) handler

structure StatusHandler where
  deriving DecidableEq, Repr

def StatusHandler.handleRequest (handler : StatusHandler) (request : Request)
    (response : Response) : Outcome StatusHandler :=
  let response := (response.setStatus .ok).addHeader (bytes "Content-Type") (bytes "text/html")
  match request.serverStatus with
  | none => .returned .error response handler
  | some status => .returned .ok (response.setBody status.toHtml) handler

structure HoldingHandler where
  deriving DecidableEq, Repr

/-- Purposeful infinite loop to keep the connection alive. -/
def HoldingHandler.handleRequest (_handler : HoldingHandler) (_request : Request)
    (_response : Response) : Outcome HoldingHandler := .running
