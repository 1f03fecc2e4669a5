/-
The interface of request handlers (`request_handler.h`).

A call of `HandleRequest` works on the handler's own members and on the
`Response` it is given.  It may return a `Status`, throw, or keep running: a
model with a bound on its loops reports `running` when the bound is reached.

`extendsPrefix` is the test that `StaticHandler`, `S3Handler` and
`ProxyHandler` share.
-/
import Spaceteam.Request
import Spaceteam.Response

namespace RequestHandler

/-- `RequestHandler::Status`. -/
inductive Status where
  | ok
  | error
  deriving DecidableEq, Repr

/-- What a call of `HandleRequest` comes to; `H` is the type of handlers. -/
inductive Outcome (H : Type*) where
  | returned (status : Status) (response : Response) (handler : H)
  | threw (handler : H)
  | running

/-- The same call on a handler that is kept in a larger type. -/
def Outcome.map {H K : Type*} (f : H → K) : Outcome H → Outcome K
  | .returned status response handler => .returned status response (f handler)
  | .threw handler => .threw (f handler)
  | .running => .running

/-- The behaviour of the handlers: `handler->HandleRequest(request, response)`. -/
abbrev HandleRequest (H : Type*) := H → Request → Response → Outcome H

/-- The response has the status line of its code, which is 200 or 404 when the
call reports OK and 500 when it reports ERROR. -/
def Status.Reported : Status → Response → Prop
  | .ok, response => response.HasStatus ∧
      (response.rawStatus = .ok ∨ response.rawStatus = .notFound)
  | .error, response => response.HasStatus ∧ response.rawStatus = .internalServerError

/-- The test the handlers make before they cut their prefix off:
`uri != uri_prefix_ && uri.size() > uri_prefix_.size() &&
uri.substr(0, uri_prefix_.size()) == uri_prefix_`. -/
def extendsPrefix (uri uriPrefix : Bytes) : Bool :=
  uri ≠ uriPrefix && uri.length > uriPrefix.length && uri.take uriPrefix.length = uriPrefix

theorem extendsPrefix_iff {uri uriPrefix : Bytes} :
    extendsPrefix uri uriPrefix = true ↔ ∃ rest, rest ≠ [] ∧ uri = uriPrefix ++ rest := by
  simp only [extendsPrefix, Bool.and_eq_true, decide_eq_true_eq]
  constructor
  · rintro ⟨⟨-, hlt⟩, htake⟩
    refine ⟨uri.drop uriPrefix.length, ?_, ?_⟩
    · simpa using hlt
    · nth_rewrite 1 [← htake]
      exact (List.take_append_drop _ _).symm
  · rintro ⟨rest, hne, rfl⟩
    have hpos := List.length_pos_iff.mpr hne
    refine ⟨⟨?_, by simpa using hpos⟩, by simp⟩
    intro heq
    exact hne (by simpa using heq)

end RequestHandler
