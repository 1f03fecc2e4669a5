/-
How a call of the proxy fails.

Every failure of a connection or a read, and every `substr` behind the end of a
text, is an exception that nothing catches.  Whether a pass throws can be told
from the bytes that arrive (`Readable`): the status line, the blank line and
the end of the content have to come (`Completed`), and no header line may be too
short for the positions computed in it (`Unreadable`).

* `ProxyHandler.readHeaders_threw_iff`, `ProxyHandler.exchange_ends` — when the
  header loop throws, and how a pass ends;
* `ProxyHandler.not_threw_iff` — when a call does not throw;
* `ProxyHandler.reports_iff` — when it reports a status.
-/
import Spaceteam.ProxyRedirects

open RequestHandler

namespace ProxyHandler

/-! ### Header lines -/

/-- The line is empty or ends with its first colon. -/
def BrokenField (line : Bytes) : Prop :=
  line = [] ∨ ∃ name, ascii ':' ∉ name ∧ line = name ++ [ascii ':']

/-- Less than two bytes follow the first colon, or there is none and the value
has less than two. -/
def BrokenUrl (value : Bytes) : Prop :=
  (ascii ':' ∉ value ∧ value.length < 2) ∨
    ∃ scheme rest, ascii ':' ∉ scheme ∧ value = scheme ++ ascii ':' :: rest ∧ rest.length < 2

/-- A `Location` with such a value behind the colon and one byte more. -/
def BrokenLocation (line : Bytes) : Prop :=
  ∃ c value, line = bytes "Location:" ++ c :: value ∧ BrokenUrl value

/-- The line makes the header loop throw. -/
def Unreadable (statusCode : UInt32) (line : Bytes) : Prop :=
  BrokenField line ∨ (statusCode = 302 ∧ BrokenLocation line)

/-- A text has no colon or a first one. -/
theorem colon_cases (s : Bytes) :
    ascii ':' ∉ s ∨ ∃ u v, ascii ':' ∉ u ∧ s = u ++ ascii ':' :: v := by
  by_cases hmem : ascii ':' ∈ s
  · obtain ⟨u, v, hs, hu⟩ := List.eq_append_cons_of_mem hmem
    exact .inr ⟨u, v, hu, hs⟩
  · exact .inl hmem

theorem colon_unique {u v u' v' : Bytes} (hu : ascii ':' ∉ u) (hu' : ascii ':' ∉ u')
    (h : u ++ ascii ':' :: v = u' ++ ascii ':' :: v') : u = u' ∧ v = v' := by
  rcases append_cons_eq hu' h with heq | ⟨w, rfl, -⟩
  · exact heq
  · exact absurd (by simp) hu

theorem headerField_of_colon {name : Bytes} (hname : ascii ':' ∉ name) (rest : Bytes) :
    headerField (name ++ ascii ':' :: rest) =
      (rest.substr 1).map fun value => (name, value) := by
  rw [headerField, Bytes.findFrom_append hname]
  simp only [Bytes.substr_append, Bytes.substr_cons, List.take_left]

theorem headerField_of_not_mem {line : Bytes} (h : ascii ':' ∉ line) :
    headerField line = (line.substr 1).map fun value => (line, value) := by
  rw [headerField, Bytes.findFrom_of_not_mem h]

/-- The first `substr` of a header line throws at a broken one. -/
theorem headerField_eq_none_iff {line : Bytes} : headerField line = none ↔ BrokenField line := by
  rcases colon_cases line with hnone | ⟨u, v, hu, rfl⟩
  · rw [headerField_of_not_mem hnone, Option.map_eq_none_iff, Bytes.substr_eq_none_iff,
      Nat.lt_one_iff, List.length_eq_zero_iff]
    constructor
    · exact .inl
    · rintro (hnil | ⟨name, -, rfl⟩)
      · exact hnil
      · exact absurd (by simp) hnone
  · rw [headerField_of_colon hu, Option.map_eq_none_iff, Bytes.substr_eq_none_iff,
      Nat.lt_one_iff, List.length_eq_zero_iff]
    constructor
    · rintro rfl
      exact .inr ⟨u, hu, rfl⟩
    · rintro (hnil | ⟨name, hname, heq⟩)
      · simp at hnil
      · exact (colon_unique hu hname heq).2

/-- The `substr` of a location throws at a broken one. -/
theorem redirectHost_eq_none_iff {value : Bytes} :
    redirectHost value = none ↔ BrokenUrl value := by
  rcases colon_cases value with hnone | ⟨u, v, hu, rfl⟩
  · rw [redirectHost, Bytes.findFrom_of_not_mem hnone]
    simp only [Option.map_eq_none_iff, Bytes.substr_eq_none_iff]
    constructor
    · exact fun hlt => .inl ⟨hnone, hlt⟩
    · rintro (⟨-, hlt⟩ | ⟨scheme, rest, -, rfl, -⟩)
      · exact hlt
      · exact absurd (by simp) hnone
  · rw [redirectHost, Bytes.findFrom_append hu]
    simp only [Option.map_eq_none_iff, Bytes.substr_append, Bytes.substr_cons,
      Bytes.substr_eq_none_iff]
    constructor
    · exact fun hlt => .inr ⟨u, v, hu, rfl, hlt⟩
    · rintro (⟨hnone, -⟩ | ⟨scheme, rest, hscheme, heq, hlt⟩)
      · exact absurd (by simp) hnone
      · rw [(colon_unique hu hscheme heq).2]
        exact hlt

/-- Only a broken location makes the second `substr` throw. -/
theorem brokenLocation_iff {line name value : Bytes}
    (hfield : headerField line = some (name, value)) :
    BrokenLocation line ↔ name = bytes "Location" ∧ redirectHost value = none := by
  have hsplit : bytes "Location:" = bytes "Location" ++ [ascii ':'] := by decide
  constructor
  · rintro ⟨c, value', rfl, hbroken⟩
    rw [hsplit, List.append_assoc, List.singleton_append,
      headerField_of_colon (by decide), Bytes.substr_cons] at hfield
    obtain ⟨rfl, rfl⟩ : bytes "Location" = name ∧ value' = value := by
      simpa [Bytes.substr] using hfield
    exact ⟨rfl, redirectHost_eq_none_iff.mpr hbroken⟩
  · rintro ⟨rfl, hthrows⟩
    rcases colon_cases line with hnone | ⟨u, v, hu, rfl⟩
    · -- a line `Location` without a colon has the value `ocation`
      rw [headerField_of_not_mem hnone, Option.map_eq_some_iff] at hfield
      obtain ⟨rest, hrest, heq⟩ := hfield
      obtain ⟨rfl, rfl⟩ := Prod.mk.inj heq
      obtain rfl : bytes "ocation" = rest := Option.some_inj.mp hrest
      exact absurd hthrows (by decide)
    · rw [headerField_of_colon hu, Option.map_eq_some_iff] at hfield
      obtain ⟨rest, hrest, heq⟩ := hfield
      obtain ⟨rfl, rfl⟩ := Prod.mk.inj heq
      rcases v with _ | ⟨c, v⟩
      · cases hrest
      · rw [Bytes.substr_cons] at hrest
        obtain rfl : v = rest := by simpa [Bytes.substr] using hrest
        exact ⟨c, v, by simp [hsplit], redirectHost_eq_none_iff.mp hthrows⟩

/-! ### The header loop -/

/-- The lines the header loop reads, up to the blank one. -/
def headerLines (stream : IStream) : List Bytes := stream.lines.takeWhile (· ≠ bytes "\r")

/-- The loop ends where there is no line for it. -/
theorem headerLines_of_done {stream : IStream}
    (h : stream.getline.2.failbit = true ∨ stream.getline.1 = bytes "\r") :
    headerLines stream = [] := by
  rcases stream.lines_getline with ⟨-, hnil⟩ | ⟨hfail, hcons⟩
  · rw [headerLines, hnil]
    rfl
  · have hblank := h.resolve_left hfail
    rw [headerLines, hcons, List.takeWhile_cons_of_neg (by simp [hblank])]

theorem headerLines_getline {stream : IStream}
    (h : ¬(stream.getline.2.failbit = true ∨ stream.getline.1 = bytes "\r")) :
    headerLines stream = stream.getline.1 :: headerLines stream.getline.2 := by
  obtain ⟨hfail, hblank⟩ := not_or.mp h
  rcases stream.lines_getline with ⟨hfail', -⟩ | ⟨-, hcons⟩
  · exact absurd hfail' hfail
  · rw [headerLines, hcons, List.takeWhile_cons_of_pos (by simp [hblank])]
    rfl

/-- **When the header loop throws**: one of its lines is too short. -/
theorem readHeaders_threw_iff {statusCode : UInt32} {stream : IStream} (handler : ProxyHandler)
    (response : Response) :
    (∃ h', readHeaders statusCode stream handler response = .threw h') ↔
      ∃ line ∈ headerLines stream, Unreadable statusCode line := by
  -- a line that goes into the response does not matter
  have hskip : ∀ {stream : IStream} {name value : Bytes},
      ¬(stream.getline.2.failbit = true ∨ stream.getline.1 = bytes "\r") →
      headerField stream.getline.1 = some (name, value) →
      ¬(statusCode = 302 ∧ name = bytes "Location" ∧ redirectHost value = none) →
      ((∃ line ∈ headerLines stream, Unreadable statusCode line) ↔
        ∃ line ∈ headerLines stream.getline.2, Unreadable statusCode line) := by
    intro stream name value hgo hfield hread
    have hthis : ¬Unreadable statusCode stream.getline.1 := by
      rintro (hbroken | ⟨hcode, hbroken⟩)
      · rw [headerField_eq_none_iff.mpr hbroken] at hfield
        cases hfield
      · exact hread ⟨hcode, (brokenLocation_iff hfield).mp hbroken⟩
    simp [headerLines_getline hgo, hthis]
  fun_induction readHeaders statusCode stream handler response with
  | case1 stream handler response line hdone =>
    simp [headerLines_of_done hdone]
  | case2 stream handler response line hgo hfield =>
    refine iff_of_true ⟨_, rfl⟩ ⟨stream.getline.1, ?_, .inl (headerField_eq_none_iff.mp hfield)⟩
    rw [headerLines_getline hgo]
    exact List.mem_cons_self
  | case3 stream handler response line hgo name value hfield hlocation hhost =>
    obtain ⟨hcode, hname⟩ := hlocation
    refine iff_of_true ⟨_, rfl⟩ ⟨stream.getline.1, ?_,
      .inr ⟨hcode, (brokenLocation_iff hfield).mpr ⟨hname, hhost⟩⟩⟩
    rw [headerLines_getline hgo]
    exact List.mem_cons_self
  | case4 stream handler response line hgo name value hfield response₁ hlocation host hhost ih =>
    rw [hskip hgo hfield (fun h => by simp [hhost] at h)]
    exact ih
  | case5 stream handler response line hgo name value hfield response₁ hlocation ih =>
    rw [hskip hgo hfield (fun h => hlocation ⟨h.1, h.2.1⟩)]
    exact ih

theorem readable_of_done {statusCode : UInt32} {stream : IStream} {handler h' : ProxyHandler}
    {response r' : Response} {buffer : Bytes}
    (h : readHeaders statusCode stream handler response = .done h' r' buffer) :
    ∀ line ∈ headerLines stream, ¬Unreadable statusCode line := by
  intro line hmem hline
  obtain ⟨h'', hthrew⟩ := (readHeaders_threw_iff handler response).mpr ⟨line, hmem, hline⟩
  rw [h] at hthrew
  cases hthrew

/-! ### One pass -/

/-- The version, the code and what is left of the stream behind the status line. -/
def statusLine (resp : Bytes) : Bytes × UInt32 × IStream :=
  let (httpVersion, stream) := (IStream.ofBuffer resp).extractWord
  let (statusCode, stream) := stream.extractUnsigned
  (httpVersion, statusCode, stream.getline.2)

/-- The status line is not one of a response. -/
def Refused (resp : Bytes) : Prop :=
  (statusLine resp).2.2.failbit = true ∨ (statusLine resp).1.take 5 ≠ bytes "HTTP/"

/-- The content comes to its end: a `read` that ends with another error than
`eof` has taken some bytes, and so have those behind it, up to one that ends
with `eof`. -/
def Completed (segments : List Bytes) : StreamEnd → Prop
  | .eof => True
  | .error segments' ending => segments.flatten ≠ [] ∧ Completed segments' ending

/-- The loop over the content throws when the content does not come to its end. -/
theorem readBody_eq_none_iff {resp : Bytes} {segments : List Bytes} {response : Response}
    {ending : StreamEnd} :
    readBody resp segments response ending = none ↔ ¬Completed segments ending := by
  induction ending generalizing resp segments response with
  | eof => simp [readBody_eof, Completed]
  | error segments' ending ih =>
    rw [readBody, Completed, not_and]
    by_cases hnil : segments.flatten = []
    · simp [hnil]
    · rw [if_neg (by simpa using hnil), ih]
      simp [hnil]

/-- The blank line and the end of the content come, and every header line can be read. -/
def ReadableHead (resp : Bytes) (segments : List Bytes) (ending : StreamEnd) : Prop :=
  ∃ text rest,
    readUntil (bytes "\r\n\r\n") (statusLine resp).2.2.buffer segments = some (text, rest) ∧
    (∀ line ∈ headerLines { (statusLine resp).2.2 with buffer := text },
      ¬Unreadable (statusLine resp).2.1 line) ∧
    Completed rest ending

/-- A status line comes, and it is refused or the rest of the reply can be read. -/
def Readable (reply : Reply) : Prop :=
  ∃ resp segments, readUntil (bytes "\r\n") [] reply.segments = some (resp, segments) ∧
    (Refused resp ∨ ReadableHead resp segments reply.ending)

/-- The status line is refused or is not that of a redirection. -/
def EndsCall (reply : Reply) : Prop :=
  ∃ resp segments, readUntil (bytes "\r\n") [] reply.segments = some (resp, segments) ∧
    (Refused resp ∨ (statusLine resp).2.1 ≠ 302)

section Pass

variable {reply : Reply} {resp : Bytes} {segments : List Bytes}

/-- What is asked of the bytes a read gives, when they are known. -/
theorem exists_read_iff {α β : Type} {o : Option (α × β)} {a : α} {b : β} (P : α → β → Prop)
    (h : o = some (a, b)) : (∃ a' b', o = some (a', b') ∧ P a' b') ↔ P a b := by
  constructor
  · rintro ⟨a', b', h', hP⟩
    obtain ⟨rfl, rfl⟩ := Prod.mk.inj (Option.some_inj.mp (h.symm.trans h'))
    exact hP
  · exact fun hP => ⟨a, b, h, hP⟩

theorem readable_iff (hfirst : readUntil (bytes "\r\n") [] reply.segments = some (resp, segments)) :
    Readable reply ↔ Refused resp ∨ ReadableHead resp segments reply.ending :=
  exists_read_iff (fun resp segments => Refused resp ∨ ReadableHead resp segments reply.ending)
    hfirst

theorem endsCall_iff (hfirst : readUntil (bytes "\r\n") [] reply.segments = some (resp, segments)) :
    EndsCall reply ↔ Refused resp ∨ (statusLine resp).2.1 ≠ 302 :=
  exists_read_iff (fun resp _ => Refused resp ∨ (statusLine resp).2.1 ≠ 302) hfirst

theorem readableHead_iff {text : Bytes} {rest : List Bytes} {ending : StreamEnd}
    (hsecond : readUntil (bytes "\r\n\r\n") (statusLine resp).2.2.buffer segments =
      some (text, rest)) :
    ReadableHead resp segments ending ↔
      (∀ line ∈ headerLines { (statusLine resp).2.2 with buffer := text },
        ¬Unreadable (statusLine resp).2.1 line) ∧ Completed rest ending :=
  exists_read_iff (fun text rest =>
    (∀ line ∈ headerLines { (statusLine resp).2.2 with buffer := text },
      ¬Unreadable (statusLine resp).2.1 line) ∧ Completed rest ending) hsecond

/-- **How a pass ends**: it throws when the reply cannot be read, and returns
when the reply is not a redirection. -/
theorem exchange_ends (reply : Reply) (handler : ProxyHandler) (response : Response) :
    (¬Readable reply ∧ ∃ h', exchange reply handler response = .threw h') ∨
    (Readable reply ∧ EndsCall reply ∧
      ∃ status h' r', exchange reply handler response = .returned status h' r') ∨
    (Readable reply ∧ ¬EndsCall reply ∧
      ∃ h' r', exchange reply handler response = .again h' r') := by
  unfold exchange
  split
  next hfirst =>
    refine .inl ⟨?_, handler, rfl⟩
    rintro ⟨resp, segments, hfirst', -⟩
    rw [hfirst] at hfirst'
    cases hfirst'
  next resp segments hfirst =>
    rw [readable_iff hfirst, endsCall_iff hfirst]
    simp only
    split
    next hstatus =>
      have hrefused : Refused resp := hstatus
      exact .inr (.inl ⟨.inl hrefused, .inl hrefused, _, _, _, rfl⟩)
    next hstatus =>
      have haccepted : ¬Refused resp := hstatus
      simp only [haccepted, false_or]
      split
      next hsecond =>
        refine .inl ⟨?_, handler, rfl⟩
        rintro ⟨text, rest, hsecond', -⟩
        have hnone : readUntil (bytes "\r\n\r\n") (statusLine resp).2.2.buffer segments = none :=
          hsecond
        rw [hnone] at hsecond'
        cases hsecond'
      next text rest hsecond =>
        have hhead := @readableHead_iff _ _ _ _ reply.ending hsecond
        split
        next h' hthrew =>
          obtain ⟨line, hmem, hline⟩ := (readHeaders_threw_iff _ _).mp ⟨h', hthrew⟩
          exact .inl ⟨fun hread => (hhead.mp hread).1 line hmem hline, h', rfl⟩
        next h' r' buffer hdone =>
          have hlines := readable_of_done hdone
          split
          next hnone =>
            exact .inl ⟨fun hread => readBody_eq_none_iff.mp hnone (hhead.mp hread).2, h', rfl⟩
          next r'' hbody =>
            have hcompleted : Completed rest reply.ending := by
              by_contra hnot
              rw [readBody_eq_none_iff.mpr hnot] at hbody
              cases hbody
            have hread := hhead.mpr ⟨hlines, hcompleted⟩
            split
            next hcode => exact .inr (.inl ⟨hread, hcode, _, _, _, rfl⟩)
            next hcode => exact .inr (.inr ⟨hread, hcode, _, _, rfl⟩)

end Pass

/-! ### A call -/

section Call

variable {upstream : Upstream} {request : Request} {handler : ProxyHandler} {response : Response}

/-- The call returns a status, and does not throw. -/
def Reports (upstream : Upstream) (request : Request) (handler : ProxyHandler)
    (response : Response) : Prop :=
  Returns upstream request handler response ∧
    ∀ fuel h', handleRequest upstream fuel handler request response ≠ .threw h'

/-- A call that does not throw connects in every pass and can read the reply. -/
theorem readable_of_not_threw
    (hnever : ∀ fuel h', handleRequest upstream fuel handler request response ≠ .threw h') {n : ℕ}
    {h : ProxyHandler} {r : Response} (hreach : Reaches upstream request handler response n h r) :
    ∃ reply, upstream n h.host (h.upstreamRequest (h.target request.uri)) = some reply ∧
      Readable reply := by
  have hends : ∀ h', ¬Ends upstream request handler response (.threw h') := by
    intro h' hends
    obtain ⟨fuel, hthrew⟩ := hends.exists_fuel
    exact hnever fuel h' hthrew
  rcases hreply : upstream n h.host (h.upstreamRequest (h.target request.uri)) with _ | reply
  · exact absurd (.unconnected hreach hreply) (hends h)
  · refine ⟨reply, rfl, ?_⟩
    rcases exchange_ends reply h r with ⟨-, h', hthrew⟩ | ⟨hread, -⟩ | ⟨hread, -⟩
    · exact absurd (.threw hreach hreply hthrew) (hends h')
    · exact hread
    · exact hread

/-- A call that throws does so in a pass that fails. -/
theorem not_ends_threw
    (hall : ∀ n h r, Reaches upstream request handler response n h r →
      ∃ reply, upstream n h.host (h.upstreamRequest (h.target request.uri)) = some reply ∧
        Readable reply) (h' : ProxyHandler) :
    ¬Ends upstream request handler response (.threw h') := by
  intro hends
  cases hends with
  | unconnected hreach hnone =>
    obtain ⟨reply, hreply, -⟩ := hall _ _ _ hreach
    rw [hnone] at hreply
    cases hreply
  | @threw n h h' r reply hreach hreply hexchange =>
    obtain ⟨reply', hreply', hread⟩ := hall n h r hreach
    obtain rfl := Option.some_inj.mp (hreply.symm.trans hreply')
    rcases exchange_ends reply h r with
      ⟨hnot, -⟩ | ⟨-, -, status, h'', r', hreturned⟩ | ⟨-, -, h'', r', hagain⟩
    · exact hnot hread
    · rw [hexchange] at hreturned
      cases hreturned
    · rw [hexchange] at hagain
      cases hagain

/-- **When a call does not throw**: in every pass it connects and can read the reply. -/
theorem not_threw_iff :
    (∀ fuel h', handleRequest upstream fuel handler request response ≠ .threw h') ↔
      ∀ n h r, Reaches upstream request handler response n h r →
        ∃ reply, upstream n h.host (h.upstreamRequest (h.target request.uri)) = some reply ∧
          Readable reply := by
  constructor
  · exact fun hnever n h r hreach => readable_of_not_threw hnever hreach
  · intro hall fuel h' hthrew
    rcases running_or_ends upstream request handler response fuel with hrunning | hends
    · rw [hthrew] at hrunning
      cases hrunning
    · rw [hthrew] at hends
      exact not_ends_threw hall h' hends

/-- **When a call reports its status**: in every pass it connects and can read
the reply, and one of the replies is not a redirection. -/
theorem reports_iff : Reports upstream request handler response ↔
    (∀ n h r, Reaches upstream request handler response n h r →
      ∃ reply, upstream n h.host (h.upstreamRequest (h.target request.uri)) = some reply ∧
        Readable reply) ∧
    ∃ n h r reply, Reaches upstream request handler response n h r ∧
      upstream n h.host (h.upstreamRequest (h.target request.uri)) = some reply ∧
      EndsCall reply := by
  rw [Reports, not_threw_iff, and_comm, and_congr_right_iff]
  intro hall
  rw [returns_iff_exists_pass]
  constructor
  · rintro ⟨n, h, r, reply, status, h', r', hreach, hreply, hexchange⟩
    refine ⟨n, h, r, reply, hreach, hreply, ?_⟩
    rcases exchange_ends reply h r with ⟨-, h'', hthrew⟩ | ⟨-, hends, -⟩ | ⟨-, -, h'', r'', hagain⟩
    · rw [hexchange] at hthrew
      cases hthrew
    · exact hends
    · rw [hexchange] at hagain
      cases hagain
  · rintro ⟨n, h, r, reply, hreach, hreply, hends⟩
    obtain ⟨reply', hreply', hread⟩ := hall n h r hreach
    obtain rfl := Option.some_inj.mp (hreply.symm.trans hreply')
    rcases exchange_ends reply h r with
      ⟨hnot, -⟩ | ⟨-, -, status, h', r', hreturned⟩ | ⟨-, hnot, -⟩
    · exact absurd hread hnot
    · exact ⟨n, h, r, reply, status, h', r', hreach, hreply, hreturned⟩
    · exact absurd hends hnot

end Call

/-- A host that does not resolve. -/
theorem not_reports_unresolved : ¬Reports (fun _ _ _ => none) getA proxy (.fresh .ok) := by
  rintro ⟨-, hnever⟩
  have hends : Ends (fun _ _ _ => none) getA proxy (.fresh .ok) (.threw proxy) :=
    .unconnected .start rfl
  obtain ⟨fuel, hthrew⟩ := hends.exists_fuel
  exact hnever fuel proxy hthrew

end ProxyHandler
