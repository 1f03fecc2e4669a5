/-
The HTTP request parser (`request.h`, `request.cc`).

`Request.consume` is the character automaton: it records the byte in
`raw_request_`, and either moves on (`indeterminate`, `good`) or refuses the
byte (`bad`).  `Request.parse` feeds it a whole string and stops at the first
refusal.

The proofs about it never unfold the loop again: `Request.run r u` is the
request after the bytes `u`, `none` once a byte is refused, so that runs
compose like any fold.

* `Request.parseLoop_eq_of_run` — an accepted string leaves the run's request;
* `Request.parsedStatus_of_run_eq_none` — a refused one ends `bad`.
-/
import Mathlib.Data.List.ModifyLast
import Spaceteam.ServerStatus

/-- `Request::result_type`. -/
inductive ResultType where
  | good
  | bad
  | indeterminate
  deriving DecidableEq, Repr

/-- `Request::state`. -/
inductive RequestState where
  | methodStart
  | methodInside
  | handlerPathStart
  | handlerPath
  | filePath
  | uriInside
  | httpVersionH
  | httpVersionT1
  | httpVersionT2
  | httpVersionP
  | httpVersionSlash
  | httpVersionMajorStart
  | httpVersionMajor
  | httpVersionMinorStart
  | httpVersionMinor
  | expectingNewline1
  | headerLineStart
  | headerLws
  | headerName
  | spaceBeforeHeaderValue
  | headerValue
  | expectingNewline2
  | expectingNewline3
  | bodyState
  deriving DecidableEq, Repr

/-- `Request::Headers`. -/
abbrev Headers := List (Bytes × Bytes)

/-- `server_status_` is the table the pointer leads to, `none` for `nullptr`. -/
structure Request where
  rawRequest : Bytes
  method : Bytes
  uri : Bytes
  version : Bytes
  body : Bytes
  headers : Headers
  serverStatus : Option ServerStatus
  handlerPath : Bytes
  filePath : Bytes
  httpVersionMajor : Int32
  httpVersionMinor : Int32
  parsedStatus : ResultType
  state : RequestState

/-- The `int` a `char` is promoted to; `char` is signed. -/
def charToInt (c : UInt8) : ℤ := c.toInt8.toInt

/-- `headers_.back().first.push_back(c)`. -/
def Headers.pushName (hs : Headers) (c : UInt8) : Headers :=
  hs.modifyLast fun h => (h.1 ++ [c], h.2)

/-- `headers_.back().second.push_back(c)`. -/
def Headers.pushValue (hs : Headers) (c : UInt8) : Headers :=
  hs.modifyLast fun h => (h.1, h.2 ++ [c])

@[simp] theorem Headers.pushName_append (hs : Headers) (n v : Bytes) (c : UInt8) :
    Headers.pushName (hs ++ [(n, v)]) c = hs ++ [(n ++ [c], v)] :=
  List.modifyLast_concat _ _ _

@[simp] theorem Headers.pushValue_append (hs : Headers) (n v : Bytes) (c : UInt8) :
    Headers.pushValue (hs ++ [(n, v)]) c = hs ++ [(n, v ++ [c])] :=
  List.modifyLast_concat _ _ _

@[simp] theorem Headers.pushName_eq_nil {hs : Headers} {c : UInt8} :
    hs.pushName c = [] ↔ hs = [] := by
  rcases hs.eq_nil_or_concat' with rfl | ⟨hs, ⟨n, v⟩, rfl⟩
  · exact ⟨fun _ => rfl, fun _ => rfl⟩
  · rw [Headers.pushName_append]
    simp

@[simp] theorem Headers.pushValue_eq_nil {hs : Headers} {c : UInt8} :
    hs.pushValue c = [] ↔ hs = [] := by
  rcases hs.eq_nil_or_concat' with rfl | ⟨hs, ⟨n, v⟩, rfl⟩
  · exact ⟨fun _ => rfl, fun _ => rfl⟩
  · rw [Headers.pushValue_append]
    simp

namespace Request

/-- `new Request()`: every member zero-initialised. -/
def new : Request :=
  { rawRequest := [], method := [], uri := [], version := [], body := [], headers := [],
    serverStatus := none, handlerPath := [], filePath := [],
    httpVersionMajor := 0, httpVersionMinor := 0,
    parsedStatus := .good, state := .methodStart }

/-- Check if a byte is an HTTP character. -/
def isChar (c : ℤ) : Bool := c ≥ 0 && c ≤ 127

/-- Check if a byte is an HTTP control character. -/
def isCtl (c : ℤ) : Bool := (c ≥ 0 && c ≤ 31) || c == 127

/-- Check if a byte is defined as an HTTP tspecial character. -/
def isTspecial (c : ℤ) : Bool :=
  (bytes "()<>@,;:\\\"/[]?=\x7b\x7d \t").any fun t => charToInt t == c

/-- Check if a byte is a digit. -/
def isDigit (c : ℤ) : Bool := c ≥ 48 && c ≤ 57

/-- `!is_char(input) || is_ctl(input) || is_tspecial(input)`. -/
def notToken (input : UInt8) : Bool :=
  !isChar (charToInt input) || isCtl (charToInt input) || isTspecial (charToInt input)

/-- `n * 10 + input - '0'` on `int`s, overflow taken as wrapping. -/
def pushDigit (n : Int32) (input : UInt8) : Int32 :=
  n * 10 + Int32.ofInt (charToInt input) - 48

/-- Handle the next character of input. -/
def consume (r : Request) (input : UInt8) : ResultType × Request :=
  let r := { r with rawRequest := r.rawRequest ++ [input] }
  match r.state with
  | .methodStart =>
    if notToken input then (.bad, r)
    else (.indeterminate, { r with state := .methodInside, method := r.method ++ [input] })
  | .methodInside =>
    if input = ascii ' ' then (.indeterminate, { r with state := .handlerPathStart })
    else if notToken input then (.bad, r)
    else (.indeterminate, { r with method := r.method ++ [input] })
  | .handlerPathStart =>
    if input = ascii '/' then
      (.indeterminate, { r with
        state := .handlerPath
        handlerPath := r.handlerPath ++ [input]
        uri := r.uri ++ [input] })
    else (.bad, r)
  | .handlerPath =>
    if input = ascii ' ' then (.indeterminate, { r with state := .httpVersionH })
    else if isCtl (charToInt input) then (.bad, r)
    else if input = ascii '/' then
      (.indeterminate, { r with
        state := .uriInside
        filePath := r.filePath ++ [input]
        uri := r.uri ++ [input] })
    else
      (.indeterminate, { r with
        handlerPath := r.handlerPath ++ [input]
        uri := r.uri ++ [input] })
  | .uriInside =>
    if input = ascii ' ' then (.indeterminate, { r with state := .httpVersionH })
    else if isCtl (charToInt input) then (.bad, r)
    else
      (.indeterminate, { r with uri := r.uri ++ [input], filePath := r.filePath ++ [input] })
  | .httpVersionH =>
    if input = ascii 'H' then (.indeterminate, { r with state := .httpVersionT1 })
    else (.bad, r)
  | .httpVersionT1 =>
    if input = ascii 'T' then (.indeterminate, { r with state := .httpVersionT2 })
    else (.bad, r)
  | .httpVersionT2 =>
    if input = ascii 'T' then (.indeterminate, { r with state := .httpVersionP })
    else (.bad, r)
  | .httpVersionP =>
    if input = ascii 'P' then (.indeterminate, { r with state := .httpVersionSlash })
    else (.bad, r)
  | .httpVersionSlash =>
    if input = ascii '/' then
      (.indeterminate, { r with
        httpVersionMajor := 0
        httpVersionMinor := 0
        state := .httpVersionMajorStart })
    else (.bad, r)
  | .httpVersionMajorStart =>
    if isDigit (charToInt input) then
      (.indeterminate, { r with
        httpVersionMajor := pushDigit r.httpVersionMajor input
        version := r.version ++ [input]
        state := .httpVersionMajor })
    else (.bad, r)
  | .httpVersionMajor =>
    if input = ascii '.' then
      (.indeterminate, { r with version := r.version ++ [input], state := .httpVersionMinorStart })
    else if isDigit (charToInt input) then
      (.indeterminate, { r with
        httpVersionMajor := pushDigit r.httpVersionMajor input
        version := r.version ++ [input] })
    else (.bad, r)
  | .httpVersionMinorStart =>
    if isDigit (charToInt input) then
      (.indeterminate, { r with
        httpVersionMinor := pushDigit r.httpVersionMinor input
        version := r.version ++ [input]
        state := .httpVersionMinor })
    else (.bad, r)
  | .httpVersionMinor =>
    if input = ascii '\r' then (.indeterminate, { r with state := .expectingNewline1 })
    else if isDigit (charToInt input) then
      (.indeterminate, { r with
        httpVersionMinor := pushDigit r.httpVersionMinor input
        version := r.version ++ [input] })
    else (.bad, r)
  | .expectingNewline1 =>
    if input = ascii '\n' then (.indeterminate, { r with state := .headerLineStart })
    else (.bad, r)
  | .headerLineStart =>
    if input = ascii '\r' then (.indeterminate, { r with state := .expectingNewline3 })
    else if r.headers ≠ [] ∧ (input = ascii ' ' ∨ input = ascii '\t') then
      (.indeterminate, { r with state := .headerLws })
    else if notToken input then (.bad, r)
    else
      (.indeterminate, { r with
        headers := Headers.pushName (r.headers ++ [([], [])]) input
        state := .headerName })
  | .headerLws =>
    if input = ascii '\r' then (.indeterminate, { r with state := .expectingNewline2 })
    else if input = ascii ' ' ∨ input = ascii '\t' then (.indeterminate, r)
    else if isCtl (charToInt input) then (.bad, r)
    else
      (.indeterminate, { r with
        state := .headerValue
        headers := r.headers.pushValue input })
  | .headerName =>
    if input = ascii ':' then (.indeterminate, { r with state := .spaceBeforeHeaderValue })
    else if notToken input then (.bad, r)
    else (.indeterminate, { r with headers := r.headers.pushName input })
  | .spaceBeforeHeaderValue =>
    if input = ascii ' ' then (.indeterminate, { r with state := .headerValue })
    else (.bad, r)
  | .headerValue =>
    if input = ascii '\r' then (.indeterminate, { r with state := .expectingNewline2 })
    else if isCtl (charToInt input) then (.bad, r)
    else (.indeterminate, { r with headers := r.headers.pushValue input })
  | .expectingNewline2 =>
    if input = ascii '\n' then (.indeterminate, { r with state := .headerLineStart })
    else (.bad, r)
  | .expectingNewline3 =>
    if input = ascii '\n' then (.good, { r with state := .bodyState })
    else (.bad, r)
  | .bodyState =>
    -- place the rest of the text after headers into the body
    (.good, { r with body := r.body ++ [input] })
  | .filePath => (.bad, r)

/-- The loop of `Parse`: if there is a bad request, stop parsing. -/
def parseLoop : Request → Bytes → Request
  | r, [] => r
  | r, c :: rest =>
    let (result, r) := r.consume c
    let r := { r with parsedStatus := result }
    if result = .bad then r else parseLoop r rest

/-- One pass of the loop, `none` when the byte is refused. -/
def advance (r : Request) (c : UInt8) : Option Request :=
  let (result, r) := r.consume c
  if result = .bad then none else some { r with parsedStatus := result }

/-- The request after a string no byte of which is refused. -/
def run (r : Request) (s : Bytes) : Option Request := s.foldlM advance r

/-- `Request::Parse(raw_request)`. -/
def parse (rawRequest : Bytes) : Request :=
  { parseLoop new rawRequest with serverStatus := none }

/-- `Request::Parse(raw_request, status)`. -/
def parseWith (rawRequest : Bytes) (status : Option ServerStatus) : Request :=
  { parse rawRequest with serverStatus := status }

/-! ### Runs -/

@[simp] theorem run_nil (r : Request) : r.run [] = some r := rfl

theorem run_cons (r : Request) (c : UInt8) (s : Bytes) :
    r.run (c :: s) = (r.advance c).bind fun r' => r'.run s := rfl

theorem run_append (r : Request) (s t : Bytes) :
    r.run (s ++ t) = (r.run s).bind fun r' => r'.run t := List.foldlM_append

theorem run_append_of_run {r r' : Request} {s : Bytes} (h : r.run s = some r') (t : Bytes) :
    r.run (s ++ t) = r'.run t := by
  rw [run_append, h, Option.bind_some]

theorem advance_eq_some {r r' : Request} {c : UInt8} :
    r.advance c = some r' ↔ (r.consume c).1 ≠ .bad ∧
      r' = { (r.consume c).2 with parsedStatus := (r.consume c).1 } := by
  rw [advance]
  by_cases h : (r.consume c).1 = .bad
  · simp [h]
  · simp [h, eq_comm]

/-- Every byte looked at is recorded. -/
theorem rawRequest_consume (r : Request) (c : UInt8) :
    (r.consume c).2.rawRequest = r.rawRequest ++ [c] := by
  rw [consume]
  cases r.state with
  | filePath | bodyState => rfl
  | _ => simp only; split_ifs <;> rfl

theorem rawRequest_of_run {r r' : Request} {s : Bytes} :
    r.run s = some r' → r'.rawRequest = r.rawRequest ++ s := by
  induction s generalizing r with
  | nil =>
    intro h
    obtain rfl := Option.some_inj.mp h
    simp
  | cons c s ih =>
    intro h
    obtain ⟨r₁, h₁, hrun⟩ := Option.bind_eq_some_iff.mp h
    obtain ⟨-, rfl⟩ := advance_eq_some.mp h₁
    rw [ih hrun]
    simp [rawRequest_consume]

theorem parsedStatus_ne_bad_of_advance {r r' : Request} {c : UInt8}
    (h : r.advance c = some r') : r'.parsedStatus ≠ .bad := by
  obtain ⟨hne, rfl⟩ := advance_eq_some.mp h
  exact hne

theorem parseLoop_eq_of_run {r r' : Request} {s : Bytes} :
    r.run s = some r' → parseLoop r s = r' := by
  induction s generalizing r with
  | nil =>
    intro h
    exact Option.some_inj.mp h
  | cons c s ih =>
    intro h
    obtain ⟨r₁, h₁, hrun⟩ := Option.bind_eq_some_iff.mp h
    obtain ⟨hne, rfl⟩ := advance_eq_some.mp h₁
    rw [parseLoop]
    simp only [hne, if_false]
    exact ih hrun

theorem parsedStatus_of_run_eq_none {r : Request} {s : Bytes} :
    r.run s = none → (parseLoop r s).parsedStatus = .bad := by
  induction s generalizing r with
  | nil =>
    intro h
    exact absurd h (by simp)
  | cons c s ih =>
    intro h
    rw [parseLoop]
    by_cases hbad : (r.consume c).1 = .bad
    · -- the loop stops at this byte
      simp [hbad]
    · simp only [hbad, if_false]
      refine ih ?_
      rw [run_cons, advance_eq_some.mpr ⟨hbad, rfl⟩, Option.bind_some] at h
      exact h

/-- What every byte looked at preserves holds of the request `Parse` returns. -/
theorem parseLoop_induction {P : Request → Prop}
    (hstep : ∀ r c, P r → P { (r.consume c).2 with parsedStatus := (r.consume c).1 })
    (r : Request) (s : Bytes) : P r → P (parseLoop r s) := by
  induction s generalizing r with
  | nil =>
    intro h
    exact h
  | cons c s ih =>
    intro h
    rw [parseLoop]
    by_cases hbad : (r.consume c).1 = .bad
    · simp only [hbad, if_true]
      have hlast := hstep r c h
      rw [hbad] at hlast
      exact hlast
    · simp only [hbad, if_false]
      exact ih _ (hstep r c h)

theorem parsedStatus_ne_bad_of_run {r r' : Request} {s : Bytes} (hr : r.parsedStatus ≠ .bad) :
    r.run s = some r' → r'.parsedStatus ≠ .bad := by
  induction s generalizing r with
  | nil =>
    intro h
    obtain rfl := Option.some_inj.mp h
    exact hr
  | cons c s ih =>
    intro h
    obtain ⟨r₁, h₁, hrun⟩ := Option.bind_eq_some_iff.mp h
    exact ih (parsedStatus_ne_bad_of_advance h₁) hrun

end Request
