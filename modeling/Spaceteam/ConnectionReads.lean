/-
A request that arrives in pieces.

A connection asks for one read.  Whatever arrives first is parsed, handled and
answered (`run_cons`), also when the parser says `indeterminate`; what arrives
later stays in the socket.

* `Connection.handlesWhole_iff` — a request is handled as a whole when it
  arrives in one piece and a handler can be selected for it.
-/
import Spaceteam.Routing

open RequestHandler

namespace Request

/-- The parser looks at bytes of its input only, each once. -/
theorem length_rawRequest_parseLoop (r : Request) (s : Bytes) :
    (parseLoop r s).rawRequest.length ≤ r.rawRequest.length + s.length := by
  induction s generalizing r with
  | nil => simp [parseLoop]
  | cons c s ih =>
    have hraw := congrArg List.length (rawRequest_consume r c)
    rw [List.length_append, List.length_singleton] at hraw
    rw [parseLoop]
    simp only
    split_ifs with hbad
    · simp only [hraw, List.length_cons]
      omega
    · have hrest := ih { (r.consume c).2 with parsedStatus := (r.consume c).1 }
      simp only [hraw] at hrest
      rw [List.length_cons]
      omega

theorem length_rawRequest_parse (s : Bytes) : (parse s).rawRequest.length ≤ s.length := by
  simpa [parse, new] using length_rawRequest_parseLoop new s

/-- A request that is not bad has been looked at to its end. -/
theorem rawRequest_of_not_bad {s : Bytes} (h : (parse s).parsedStatus ≠ .bad) :
    (parse s).rawRequest = s := by
  rcases hrun : new.run s with _ | r
  · exact absurd (parsedStatus_of_run_eq_none hrun) h
  · rw [show (parse s).rawRequest = (parseLoop new s).rawRequest from rfl,
      parseLoop_eq_of_run hrun, rawRequest_of_run hrun]
    rfl

theorem rawRequest_of_good {s : Bytes} (h : (parse s).parsedStatus = .good) :
    (parse s).rawRequest = s :=
  rawRequest_of_not_bad (by rw [h]; decide)

end Request

namespace Connection

variable {H : Type*} (handleRequest : HandleRequest H) (garbage : ResponseCode)
  (server : Server H)

/-- Nothing that arrives while no read is outstanding has any effect. -/
theorem foldl_arrive_of_not_reading (session : Session H) (h : session.reading = false)
    (chunks : List Bytes) : chunks.foldl (arrive handleRequest garbage) session = session := by
  induction chunks with
  | nil => rfl
  | cons chunk chunks ih => rw [List.foldl_cons, arrive, if_neg (by simp [h]), ih]

/-- A connection is its first read. -/
theorem run_cons {chunk : Bytes} (h : chunk.length ≤ bufferSize) (chunks : List Bytes) :
    (run handleRequest garbage server (chunk :: chunks)).events =
      (handleRead handleRequest garbage server false chunk).events := by
  rw [run, List.foldl_cons, foldl_arrive_of_not_reading _ _ _ (by rfl), start, arrive, if_pos rfl]
  simp only [List.nil_append, List.take_of_length_le h]

/-- The connection calls one handler, once, on the request `s`, and sends what
it would send had `s` arrived in a single read. -/
def HandlesWhole (s : Bytes) (chunks : List Bytes) : Prop :=
  (∃ path h request,
    handled (run handleRequest garbage server chunks).events = [(path, h, request)] ∧
      { request with serverStatus := none } = Request.parse s) ∧
  written (run handleRequest garbage server chunks).events =
    written (handleRead handleRequest garbage server false s).events

/-- The request of a first piece is not the whole request. -/
theorem not_handlesWhole_of_two {s first second : Bytes} {chunks : List Bytes}
    (hgood : (Request.parse s).parsedStatus = .good) (hlen : first.length ≤ bufferSize)
    (hsecond : second ≠ []) (hs : (first :: second :: chunks).flatten = s) :
    ¬HandlesWhole handleRequest garbage server s (first :: second :: chunks) := by
  rintro ⟨⟨path, h, request, hhandled, hrequest⟩, -⟩
  rw [run_cons _ _ _ hlen] at hhandled
  have hfirst : request = Request.parseWith first (some server.serverStatus) := by
    -- a handler that is called gets the request of the first read
    by_cases hselects : Selects server.pathToHandler
        (Request.parseWith first (some server.serverStatus))
    · obtain ⟨path', h', hselect⟩ := select_of_selects hselects
      rw [handled_handleRead_of_select handleRequest garbage server hselect] at hhandled
      simpa using (congrArg (fun l => l.map fun e => e.2.2) hhandled).symm
    · rw [handled_handleRead_of_throws handleRequest garbage server
        (select_of_not_selects hselects)] at hhandled
      cases hhandled
  have hraw : (Request.parse first).rawRequest = s := by
    rw [← Request.rawRequest_of_good hgood, ← hrequest, hfirst]
    rfl
  -- the parser would have looked at more bytes than it was given
  have hle := Request.length_rawRequest_parse first
  have hpos := List.length_pos_iff.mpr hsecond
  rw [hraw, ← hs] at hle
  simp only [List.flatten_cons, List.length_append] at hle
  omega

/-- **When a good request is handled as a whole**: it arrives in one piece, and
the selection of a handler succeeds. -/
theorem handlesWhole_iff {s : Bytes} {chunks : List Bytes}
    (hgood : (Request.parse s).parsedStatus = .good)
    (hchunks : ∀ chunk ∈ chunks, chunk ≠ [] ∧ chunk.length ≤ bufferSize)
    (hs : chunks.flatten = s) :
    HandlesWhole handleRequest garbage server s chunks ↔
      chunks.length = 1 ∧ Selects server.pathToHandler (Request.parse s) := by
  rcases chunks with _ | ⟨first, _ | ⟨second, chunks⟩⟩
  -- no read, one, or more than one
  · refine iff_of_false ?_ (by simp)
    rintro ⟨⟨path, h, request, hhandled, -⟩, -⟩
    cases hhandled
  · obtain rfl : first = s := by simpa using hs
    rw [HandlesWhole, run_cons _ _ _ (hchunks first (by simp)).2]
    constructor
    · rintro ⟨⟨path, h, request, hhandled, -⟩, -⟩
      refine ⟨rfl, ?_⟩
      by_contra hselects
      have hno : ¬Selects server.pathToHandler
          (Request.parseWith first (some server.serverStatus)) := hselects
      rw [handled_handleRead_of_throws handleRequest garbage server
        (select_of_not_selects hno)] at hhandled
      cases hhandled
    · rintro ⟨-, hselects⟩
      have hyes : Selects server.pathToHandler
          (Request.parseWith first (some server.serverStatus)) := hselects
      obtain ⟨path, h, hselect⟩ := select_of_selects hyes
      exact ⟨⟨path, h, _, handled_handleRead_of_select handleRequest garbage server hselect, rfl⟩,
        rfl⟩
  · exact iff_of_false
      (not_handlesWhole_of_two handleRequest garbage server hgood (hchunks first (by simp)).2
        (hchunks second (by simp)).1 hs)
      (by simp)

theorem handlesWhole_iff_get :
    HandlesWhole (fun h _ response => .returned .ok response h) .ok
        ⟨Std.ExtTreeMap.ofList [(defaultString, ())], .new⟩
        (bytes "GET / HTTP/1.1\r\n\r\n") [bytes "GET / HTTP/1.1\r\n\r\n"] ↔
      [bytes "GET / HTTP/1.1\r\n\r\n"].length = 1 ∧
        Selects (Std.ExtTreeMap.ofList [(defaultString, ())])
          (Request.parse (bytes "GET / HTTP/1.1\r\n\r\n")) :=
  handlesWhole_iff _ _ _ (by decide) (by decide) (by decide)

theorem not_handlesWhole_blank_line_apart :
    ¬HandlesWhole (fun h _ response => .returned .ok response h) .ok
        ⟨Std.ExtTreeMap.ofList [(defaultString, ())], .new⟩
        (bytes "GET / HTTP/1.1\r\n\r\n") [bytes "GET / HTTP/1.1\r\n", bytes "\r\n"] :=
  not_handlesWhole_of_two _ _ _ (by decide) (by decide) (by decide) (by decide)

end Connection
