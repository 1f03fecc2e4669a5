/-
The HTTP response under construction (`response.h`, `response.cc`).

Handlers fill a `Response` in place.  A freshly declared one has an empty
status line and an indeterminate `raw_status_`, so `Response.fresh` takes the
value that happens to be there; only `setStatus` makes the two agree.

* `Response.HasStatus` — some `setStatus` has run and no later write has
  separated the status line from the recorded code;
* `Response.toString_of_hasStatus` — such a response is serialised with a
  status line in front.
-/
import Spaceteam.Bytes

/-- `Response::ResponseCode`.  The enumerators have the values 200, 404, 500
and 302; an uninitialised variable of the type can hold any other value. -/
inductive ResponseCode where
  | ok
  | notFound
  | internalServerError
  | redirect
  | unlisted (value : ℕ)
  deriving DecidableEq, Repr

/-- The status line `SetStatus` stores for a code. -/
def ResponseCode.statusLine : ResponseCode → Bytes
  | .ok => bytes "HTTP/1.1 200 OK"
  | .notFound => bytes "HTTP/1.1 404 Not Found"
  | .redirect => bytes "HTTP/1.1 302 Found"
  | .internalServerError | .unlisted _ => bytes "HTTP/1.1 500 Internal Server Error"

structure Response where
  status : Bytes
  rawStatus : ResponseCode
  headers : List (Bytes × Bytes)
  body : Bytes
  deriving DecidableEq, Repr

namespace Response

/-- `Response response;` with `garbage` the indeterminate `raw_status_`. -/
def fresh (garbage : ResponseCode) : Response :=
  { status := [], rawStatus := garbage, headers := [], body := [] }

def setStatus (r : Response) (responseCode : ResponseCode) : Response :=
  { r with status := responseCode.statusLine, rawStatus := responseCode }

def getResponseCode (r : Response) : ResponseCode := r.rawStatus

def addHeader (r : Response) (headerName headerValue : Bytes) : Response :=
  { r with headers := r.headers ++ [(headerName, headerValue)] }

def setBody (r : Response) (body : Bytes) : Response := { r with body := body }

/-- One header line as `ToString` writes it. -/
def headerLine (header : Bytes × Bytes) : Bytes :=
  header.1 ++ bytes ": " ++ header.2 ++ Bytes.crlf

def toString (r : Response) : Bytes :=
  r.status ++ Bytes.crlf ++ r.headers.flatMap headerLine ++ Bytes.crlf ++ r.body

/-- The status line written is the one of the recorded code. -/
def HasStatus (r : Response) : Prop := r.status = r.rawStatus.statusLine

@[simp] theorem rawStatus_setStatus (r : Response) (c : ResponseCode) :
    (r.setStatus c).rawStatus = c := rfl

/-- A response with a status is serialised behind its status line. -/
theorem toString_of_hasStatus {r : Response} (h : r.HasStatus) :
    r.rawStatus.statusLine ++ Bytes.crlf <+: r.toString := by
  rw [toString, h]
  simp only [List.append_assoc]
  exact ⟨_, List.append_assoc _ _ _⟩

end Response
