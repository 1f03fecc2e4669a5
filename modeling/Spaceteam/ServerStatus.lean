/-
The request counters (`server_status.h`, `server_status.cc`).

`server_status_` maps a URI to its counts per status code; `std::map` is the
standard library's extensional tree map, whose `toList` is the iteration order
of the C++ range loops.  Counts are `unsigned` and wrap.

* `ServerStatus.count_updateStatus` — one call adds one to its own entry and
  touches no other.
-/
import Mathlib.Tactic.Linarith
import Spaceteam.Response

/-- `std::to_string` of an unsigned value. -/
def decimal (n : ℕ) : Bytes := (Nat.toDigits 10 n).map ascii

structure ServerStatus where
  serverStatus : Std.ExtTreeMap Bytes (Std.ExtTreeMap ℤ UInt32)
  handlerNameToPrefixes : Std.ExtTreeMap Bytes (List Bytes)
  numRequests : UInt32

namespace ServerStatus

/-- The constructor. -/
def new : ServerStatus :=
  { serverStatus := ∅, handlerNameToPrefixes := ∅, numRequests := 0 }

/-- `ResponseCodeToString`: the number a code is counted under. -/
def responseCodeToString : ResponseCode → ℤ
  | .ok => 200
  | .notFound => 404
  | .internalServerError => 500
  | _ => 500

/-- `server_status_[uri][code] = n`: `operator[]` creates a missing row. -/
def assign (s : ServerStatus) (uri : Bytes) (code : ℤ) (n : UInt32) : ServerStatus :=
  let row := (s.serverStatus[uri]?).getD ∅
  { s with serverStatus := s.serverStatus.insert uri (row.insert code n) }

def updateStatus (s : ServerStatus) (uriPrefix : Bytes) (status : ResponseCode) :
    ServerStatus :=
  let ustatus := responseCodeToString status
  let s' :=
    match (s.serverStatus[uriPrefix]?).bind (·[ustatus]?) with
    | none => s.assign uriPrefix ustatus 1
    | some n => s.assign uriPrefix ustatus (n + 1)
  { s' with numRequests := s'.numRequests + 1 }

/-- The `<li>` lines of one `std::map<int, unsigned>`. -/
def codeItems (row : Std.ExtTreeMap ℤ UInt32) : Bytes :=
  row.toList.flatMap fun f =>
    bytes "<li>" ++ decimal f.1.toNat ++ bytes ": " ++ decimal f.2.toNat ++ bytes "</li>"

def toHtml (s : ServerStatus) : Bytes :=
  bytes "<!doctype html><html><body>"
    ++ bytes "<h1>Server Status</h1>"
    ++ bytes "<h3>Handler Info</h3>"
    ++ s.handlerNameToPrefixes.toList.flatMap (fun e =>
        bytes "<h5>URI prefixes for " ++ e.1 ++ bytes "</h5>"
          ++ bytes "<ul style=\"list-style-type:none\">"
          ++ e.2.flatMap (fun p => bytes "<li>" ++ p ++ bytes "</li>")
          ++ bytes "</ul></br>")
    ++ bytes "</br>"
    ++ bytes "<h2>Total Requests: " ++ decimal s.numRequests.toNat ++ bytes "</h2>"
    ++ s.serverStatus.toList.flatMap (fun e =>
        bytes "<h5>Number of requests for \"" ++ e.1 ++ bytes "\"</h5>"
          ++ bytes "<ul style=\"list-style-type:none\">"
          ++ codeItems e.2
          ++ bytes "</ul>")
    ++ bytes "</body></html>"

/-- The indented lines of one `std::map<int, unsigned>`. -/
def codeLines (row : Std.ExtTreeMap ℤ UInt32) : Bytes :=
  row.toList.flatMap fun f =>
    bytes "\t" ++ decimal f.1.toNat ++ bytes " " ++ decimal f.2.toNat ++ bytes "\n"

def toString (s : ServerStatus) : Bytes :=
  bytes "Total Requests: " ++ decimal s.numRequests.toNat ++ bytes "\n"
    ++ s.serverStatus.toList.flatMap (fun e =>
        bytes "Prefix: " ++ e.1 ++ bytes "\n" ++ codeLines e.2)

def addHandlerInfo (s : ServerStatus) (info : Std.ExtTreeMap Bytes (List Bytes)) : ServerStatus :=
  { s with handlerNameToPrefixes := info }

/-- The count of a (URI, code) entry, 0 when there is none. -/
def count (s : ServerStatus) (uri : Bytes) (code : ℤ) : UInt32 :=
  ((s.serverStatus[uri]?).bind (·[code]?)).getD 0

theorem count_assign (s : ServerStatus) (uri uri' : Bytes) (code code' : ℤ) (n : UInt32) :
    (s.assign uri code n).count uri' code' =
      if uri = uri' ∧ code = code' then n else s.count uri' code' := by
  rw [count, assign, count]
  simp only [Std.ExtTreeMap.getElem?_insert, Std.LawfulEqCmp.compare_eq_iff_eq]
  by_cases hu : uri = uri'
  · subst hu
    by_cases hc : code = code'
    · simp [hc]
    · rcases hrow : s.serverStatus[uri]? with _ | row <;>
        simp [hc, Std.ExtTreeMap.getElem?_insert]
  · simp [hu]

/-- One call adds one to its own entry and touches no other. -/
theorem count_updateStatus (s : ServerStatus) (uri uri' : Bytes) (status : ResponseCode)
    (code : ℤ) :
    (s.updateStatus uri status).count uri' code =
      if uri = uri' ∧ responseCodeToString status = code
        then s.count uri' code + 1 else s.count uri' code := by
  have hstep : (s.updateStatus uri status).count uri' code =
      (s.assign uri (responseCodeToString status)
        (s.count uri (responseCodeToString status) + 1)).count uri' code := by
    rw [updateStatus]
    rcases h : (s.serverStatus[uri]?).bind (·[responseCodeToString status]?) with _ | n
    · simp only [count, h, Option.getD_none, UInt32.zero_add]
    · simp only [count, h, Option.getD_some]
  rw [hstep, count_assign]
  by_cases h : uri = uri' ∧ responseCodeToString status = code
  · obtain ⟨rfl, rfl⟩ := h
    simp
  · rw [if_neg h, if_neg h]

end ServerStatus
