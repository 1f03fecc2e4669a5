/-
What the fields of a request hold while it is parsed.

`handle_read` uses the fields of a request whatever came of parsing it, so the
facts about them are invariants of `consume`.

* `Request.parse_monotone` — more bytes leave a rejected request as it is, go
  to the body of a complete one and extend the fields of any other;
* `Request.clean_parse` — every field but the body and the raw text is spelled
  with the bytes its place allows.
-/
import Spaceteam.RequestGrammar

namespace Request

/-! ### More bytes -/

/-- The headers go on: the last one may grow, and others may follow it. -/
def HeadersExtend (hs hs' : Headers) : Prop :=
  hs = [] ∨ ∃ init n v n' v' rest,
    hs = init ++ [(n, v)] ∧ hs' = init ++ (n', v') :: rest ∧ n <+: n' ∧ v <+: v'

theorem HeadersExtend.refl (hs : Headers) : HeadersExtend hs hs := by
  rcases hs.eq_nil_or_concat' with rfl | ⟨init, ⟨n, v⟩, rfl⟩
  · exact .inl rfl
  · exact .inr ⟨init, n, v, n, v, [], rfl, rfl, List.prefix_rfl, List.prefix_rfl⟩

theorem HeadersExtend.trans {hs hs' hs'' : Headers} (h : HeadersExtend hs hs')
    (h' : HeadersExtend hs' hs'') : HeadersExtend hs hs'' := by
  rcases h with rfl | ⟨init, n, v, n', v', rest, rfl, heq, hn, hv⟩
  · exact .inl rfl
  · rcases h' with rfl | ⟨init', m, w, m', w', rest', heq', rfl, hm, hw⟩
    · simp at heq
    · -- the header that grows first may be the last one or not
      rw [heq'] at heq
      rcases rest.eq_nil_or_concat' with rfl | ⟨rest, last, rfl⟩
      · obtain ⟨rfl, hlast⟩ := List.append_inj' heq rfl
        obtain ⟨rfl, rfl⟩ : m = n' ∧ w = v' := by simpa using hlast
        exact .inr ⟨_, n, v, m', w', rest', rfl, rfl, hn.trans hm, hv.trans hw⟩
      · have heq'' : init' ++ [(m, w)] = (init ++ (n', v') :: rest) ++ [last] := by simpa using heq
        obtain ⟨rfl, -⟩ := List.append_inj' heq'' rfl
        exact .inr ⟨init, n, v, n', v', rest ++ (m', w') :: rest', rfl, by simp, hn, hv⟩

theorem HeadersExtend.pushName (hs : Headers) (c : UInt8) : HeadersExtend hs (hs.pushName c) := by
  rcases hs.eq_nil_or_concat' with rfl | ⟨init, ⟨n, v⟩, rfl⟩
  · exact .inl rfl
  · rw [Headers.pushName_append]
    exact .inr ⟨init, n, v, _, v, [], rfl, rfl, List.prefix_append _ _, List.prefix_rfl⟩

theorem HeadersExtend.pushValue (hs : Headers) (c : UInt8) :
    HeadersExtend hs (hs.pushValue c) := by
  rcases hs.eq_nil_or_concat' with rfl | ⟨init, ⟨n, v⟩, rfl⟩
  · exact .inl rfl
  · rw [Headers.pushValue_append]
    exact .inr ⟨init, n, v, n, _, [], rfl, rfl, List.prefix_rfl, List.prefix_append _ _⟩

theorem HeadersExtend.newHeader (hs : Headers) (h : Bytes × Bytes) :
    HeadersExtend hs (hs ++ [h]) := by
  rcases hs.eq_nil_or_concat' with rfl | ⟨init, ⟨n, v⟩, rfl⟩
  · exact .inl rfl
  · exact .inr ⟨init, n, v, n, v, [h], rfl, by simp, List.prefix_rfl, List.prefix_rfl⟩

/-- Every field of `r` goes on in `r'`. -/
structure Extends (r r' : Request) : Prop where
  rawRequest : r.rawRequest <+: r'.rawRequest
  method : r.method <+: r'.method
  uri : r.uri <+: r'.uri
  version : r.version <+: r'.version
  body : r.body <+: r'.body
  headers : HeadersExtend r.headers r'.headers

theorem Extends.refl (r : Request) : r.Extends r :=
  ⟨List.prefix_rfl, List.prefix_rfl, List.prefix_rfl, List.prefix_rfl, List.prefix_rfl,
    .refl r.headers⟩

theorem Extends.trans {r r' r'' : Request} (h : r.Extends r') (h' : r'.Extends r'') :
    r.Extends r'' :=
  ⟨h.rawRequest.trans h'.rawRequest, h.method.trans h'.method, h.uri.trans h'.uri,
    h.version.trans h'.version, h.body.trans h'.body, h.headers.trans h'.headers⟩

/-- A byte is appended to some of the fields. -/
theorem extends_consume (r : Request) (c : UInt8) : r.Extends (r.consume c).2 := by
  have hraw : r.rawRequest <+: r.rawRequest ++ [c] := List.prefix_append _ _
  have hheaders := HeadersExtend.refl r.headers
  rw [consume]
  cases r.state with
  | methodStart | methodInside =>
    simp only
    split_ifs <;> exact ⟨hraw, by simp, by simp, by simp, by simp, hheaders⟩
  | headerLineStart =>
    simp only
    split_ifs
    · exact ⟨hraw, by simp, by simp, by simp, by simp, hheaders⟩
    · exact ⟨hraw, by simp, by simp, by simp, by simp, hheaders⟩
    · exact ⟨hraw, by simp, by simp, by simp, by simp, hheaders⟩
    · -- a header with a name of one byte
      refine ⟨hraw, by simp, by simp, by simp, by simp, ?_⟩
      simp only [Headers.pushName_append]
      exact .newHeader _ _
  | headerLws =>
    simp only
    split_ifs
    · exact ⟨hraw, by simp, by simp, by simp, by simp, hheaders⟩
    · exact ⟨hraw, by simp, by simp, by simp, by simp, hheaders⟩
    · exact ⟨hraw, by simp, by simp, by simp, by simp, hheaders⟩
    · exact ⟨hraw, by simp, by simp, by simp, by simp, .pushValue _ _⟩
  | headerValue =>
    simp only
    split_ifs
    · exact ⟨hraw, by simp, by simp, by simp, by simp, hheaders⟩
    · exact ⟨hraw, by simp, by simp, by simp, by simp, hheaders⟩
    · exact ⟨hraw, by simp, by simp, by simp, by simp, .pushValue _ _⟩
  | headerName =>
    simp only
    split_ifs
    · exact ⟨hraw, by simp, by simp, by simp, by simp, hheaders⟩
    · exact ⟨hraw, by simp, by simp, by simp, by simp, hheaders⟩
    · exact ⟨hraw, by simp, by simp, by simp, by simp, .pushName _ _⟩
  | filePath | bodyState => exact ⟨hraw, by simp, by simp, by simp, by simp, hheaders⟩
  | _ =>
    simp only
    split_ifs <;> exact ⟨hraw, by simp, by simp, by simp, by simp, hheaders⟩

theorem extends_parseLoop (r : Request) (s : Bytes) : r.Extends (parseLoop r s) :=
  parseLoop_induction (P := r.Extends) (fun r' c h => by
    obtain ⟨hraw, hmethod, huri, hversion, hbody, hheaders⟩ := h.trans (extends_consume r' c)
    exact ⟨hraw, hmethod, huri, hversion, hbody, hheaders⟩) r s (.refl r)

/-- The loop stops where it has stopped. -/
theorem parseLoop_append_of_run_eq_none {r : Request} {s : Bytes} (h : r.run s = none)
    (t : Bytes) : parseLoop r (s ++ t) = parseLoop r s := by
  induction s generalizing r with
  | nil => exact absurd h (by simp)
  | cons c s ih =>
    rw [List.cons_append, parseLoop, parseLoop]
    by_cases hbad : (r.consume c).1 = .bad
    · simp only [hbad, if_true]
    · simp only [hbad, if_false]
      refine ih ?_
      rw [run_cons, advance_eq_some.mpr ⟨hbad, rfl⟩, Option.bind_some] at h
      exact h

theorem parseLoop_append_of_run {r r' : Request} {s : Bytes} (h : r.run s = some r')
    (t : Bytes) : parseLoop r (s ++ t) = parseLoop r' t := by
  induction s generalizing r with
  | nil =>
    obtain rfl := Option.some_inj.mp h
    rfl
  | cons c s ih =>
    obtain ⟨r₁, h₁, hrun⟩ := Option.bind_eq_some_iff.mp h
    obtain ⟨hne, rfl⟩ := advance_eq_some.mp h₁
    rw [List.cons_append, parseLoop]
    simp only [hne, if_false]
    exact ih hrun

/-- A run that gets stuck does so at one byte. -/
theorem exists_refused {r : Request} {s : Bytes} (h : r.run s = none) :
    ∃ u c rest r', s = u ++ c :: rest ∧ r.run u = some r' ∧ r'.advance c = none := by
  induction s generalizing r with
  | nil => exact absurd h (by simp)
  | cons c s ih =>
    rcases hc : r.advance c with _ | r₁
    · exact ⟨[], c, s, r, rfl, rfl, hc⟩
    · rw [run_cons, hc, Option.bind_some] at h
      obtain ⟨u, d, rest, r', rfl, hrun, hd⟩ := ih h
      exact ⟨c :: u, d, rest, r', rfl, by rw [run_cons, hc, Option.bind_some, hrun], hd⟩

/-- The shortest beginning of `s` that is rejected. -/
structure ShortestRejected (s u : Bytes) : Prop where
  isPrefix : u <+: s
  rejected : (parse u).parsedStatus = .bad
  shortest : ∀ v, v <+: u → (parse v).parsedStatus = .bad → v = u

theorem shortestRejected_parse {s : Bytes} (hbad : (parse s).parsedStatus = .bad) :
    ShortestRejected s (parse s).rawRequest := by
  obtain ⟨u, c, rest, r, rfl, hrun, hadvance⟩ :=
    exists_refused (parsedStatus_parse_eq_bad_iff.mp hbad)
  have hconsume : (r.consume c).1 = .bad := by
    by_contra hne
    rw [advance_eq_some.mpr ⟨hne, rfl⟩] at hadvance
    cases hadvance
  have hrefused : new.run (u ++ [c]) = none := by
    rw [run_append_of_run hrun, run_cons, hadvance, Option.bind_none]
  -- the loop has looked at the bytes up to the refused one
  have hraw : (parse (u ++ c :: rest)).rawRequest = u ++ [c] := by
    have hloop : (parseLoop r (c :: rest)).rawRequest = r.rawRequest ++ [c] := by
      rw [parseLoop]
      simp only [hconsume, if_true]
      exact rawRequest_consume r c
    have hparse : (parse (u ++ c :: rest)).rawRequest = (parseLoop r (c :: rest)).rawRequest := by
      rw [parse, parseLoop_append_of_run hrun]
    rw [hparse, hloop, rawRequest_of_run hrun]
    rfl
  rw [hraw]
  refine ⟨⟨rest, by simp⟩, parsedStatus_parse_eq_bad_iff.mpr hrefused, fun v hv hvbad => ?_⟩
  rcases List.prefix_concat_iff.mp hv with rfl | hv
  · rfl
  · -- a beginning of `u` is not refused
    obtain ⟨w, rfl⟩ := hv
    rw [run_append, parsedStatus_parse_eq_bad_iff.mp hvbad] at hrun
    cases hrun

/-- In the body every byte is taken. -/
theorem run_bodyState {r : Request} (hstate : r.state = .bodyState)
    (hgood : r.parsedStatus = .good) (t : Bytes) :
    r.run t = some { r with rawRequest := r.rawRequest ++ t, body := r.body ++ t } := by
  induction t generalizing r with
  | nil => simp
  | cons c t ih =>
    have hadvance : r.advance c =
        some { r with rawRequest := r.rawRequest ++ [c], body := r.body ++ [c] } := by
      simp [advance, consume, hstate, hgood]
    have hrest := ih (r := { r with rawRequest := r.rawRequest ++ [c], body := r.body ++ [c] })
      hstate hgood
    rw [run_cons, hadvance, Option.bind_some]
    simpa using hrest

/-- More bytes after a complete request are its body. -/
theorem parse_append_of_good {s : Bytes} (hs : s ≠ []) (hgood : (parse s).parsedStatus = .good)
    (t : Bytes) :
    parse (s ++ t) = { parse s with rawRequest := s ++ t, body := (parse s).body ++ t } := by
  rcases h : new.run s with _ | r
  · rw [parsedStatus_parse_eq_bad_iff.mpr h] at hgood
    cases hgood
  · rw [parse_of_run h] at hgood ⊢
    have hstate := (parsedStatus_eq_good_of_run hs h).mp hgood
    have hrun : new.run (s ++ t) =
        some { r with rawRequest := s ++ t, body := r.body ++ t } := by
      rw [run_append_of_run h, run_bodyState hstate hgood, rawRequest_of_run h]
      rfl
    rw [parse_of_run hrun]

/-- **What more bytes do**: nothing to a rejected request; they go to the body
of a complete one; the fields of any request go on. -/
theorem parse_monotone (s t : Bytes) :
    ((parse s).parsedStatus = .bad →
      parse (s ++ t) = parse s ∧ ShortestRejected s (parse s).rawRequest) ∧
    (s ≠ [] → (parse s).parsedStatus = .good →
      parse (s ++ t) = { parse s with rawRequest := s ++ t, body := (parse s).body ++ t }) ∧
    (parse s).Extends (parse (s ++ t)) := by
  have hstop : new.run s = none → parse (s ++ t) = parse s := fun h => by
    rw [parse, parseLoop_append_of_run_eq_none h, parse]
  refine ⟨fun hbad => ⟨hstop (parsedStatus_parse_eq_bad_iff.mp hbad), shortestRejected_parse hbad⟩,
    fun hs hgood => parse_append_of_good hs hgood t, ?_⟩
  rcases h : new.run s with _ | r
  · rw [hstop h]
    exact .refl _
  · obtain ⟨hraw, hmethod, huri, hversion, hbody, hheaders⟩ := extends_parseLoop r t
    rw [parse_of_run h, parse, parseLoop_append_of_run h]
    exact ⟨hraw, hmethod, huri, hversion, hbody, hheaders⟩

theorem parse_monotone_cut :
    parse (bytes "GET /\t" ++ bytes "a HTTP/1.1") = parse (bytes "GET /\t") :=
  ((parse_monotone (bytes "GET /\t") (bytes "a HTTP/1.1")).1 (by decide)).1

/-! ### The URI of a request -/

/-- The URI is empty or begins with a slash, and it has begun in the states
that append any byte to it. -/
structure UriShape (r : Request) : Prop where
  slash : r.uri = [] ∨ ∃ rest, r.uri = ascii '/' :: rest
  begun : r.state = .handlerPath ∨ r.state = .uriInside → r.uri ≠ []

/-- Every byte keeps the shape of the URI. -/
theorem UriShape.consume {r : Request} (h : r.UriShape) (c : UInt8) :
    { (r.consume c).2 with parsedStatus := (r.consume c).1 : Request }.UriShape := by
  obtain ⟨hslash, hbegun⟩ := h
  have happend : r.uri ≠ [] → r.uri ++ [c] = [] ∨ ∃ rest, r.uri ++ [c] = ascii '/' :: rest := by
    intro hne
    obtain ⟨rest, hrest⟩ := hslash.resolve_left hne
    exact .inr ⟨rest ++ [c], by rw [hrest]; rfl⟩
  rw [Request.consume]
  cases hs : r.state with
  | handlerPathStart =>
    simp only
    split_ifs with hc
    · -- the URI begins with this slash
      refine ⟨?_, by simp⟩
      rcases hslash with hnil | ⟨rest, hrest⟩
      · exact .inr ⟨[], by simp [hnil, hc]⟩
      · exact .inr ⟨rest ++ [c], by simp [hrest]⟩
    · exact ⟨hslash, by simp⟩
  | handlerPath =>
    have hne := hbegun (.inl hs)
    simp only
    split_ifs
    · exact ⟨hslash, by simp⟩
    · exact ⟨hslash, fun _ => hne⟩
    · exact ⟨happend hne, by simp⟩
    · exact ⟨happend hne, by simp⟩
  | uriInside =>
    have hne := hbegun (.inr hs)
    simp only
    split_ifs
    · exact ⟨hslash, by simp⟩
    · exact ⟨hslash, fun _ => hne⟩
    · exact ⟨happend hne, by simp⟩
  | filePath | bodyState => exact ⟨hslash, by simp⟩
  | _ =>
    simp only
    split_ifs <;> exact ⟨hslash, by simp⟩

theorem uri_parse (s : Bytes) :
    (parse s).uri = [] ∨ ∃ rest, (parse s).uri = ascii '/' :: rest :=
  (parseLoop_induction (P := UriShape) (fun _ c h => h.consume c) new s
    ⟨.inl rfl, by simp [new]⟩).slash

/-! ### The spelling of the fields -/

/-- A header with a token for a name and no control byte in its value. -/
structure CleanHeader (h : Bytes × Bytes) : Prop where
  name_ne_nil : h.1 ≠ []
  name_token : ∀ b ∈ h.1, TokenByte b
  value_text : ∀ b ∈ h.2, TextByte b

/-- Digits, then perhaps a dot and digits. -/
def VersionText (v : Bytes) : Prop :=
  v = [] ∨ ∃ major, major ≠ [] ∧ (∀ b ∈ major, DigitByte b) ∧
    (v = major ∨ ∃ minor, (∀ b ∈ minor, DigitByte b) ∧ v = major ++ ascii '.' :: minor)

/-- The fields are spelled with the bytes their places allow. -/
structure Clean (r : Request) : Prop where
  method : ∀ b ∈ r.method, TokenByte b
  uri_slash : r.uri = [] ∨ ∃ rest, r.uri = ascii '/' :: rest
  uri_bytes : ∀ b ∈ r.uri, UriByte b
  uri_split : r.uri = r.handlerPath ++ r.filePath
  version : VersionText r.version
  headers : ∀ h ∈ r.headers, CleanHeader h

end Request

/-- How the URI is split in a state. -/
def RequestState.UriSplit (uri handlerPath filePath : Bytes) : RequestState → Prop
  | .methodStart | .methodInside | .handlerPathStart =>
    uri = [] ∧ handlerPath = [] ∧ filePath = []
  | .handlerPath => uri = handlerPath ∧ filePath = []
  | _ => uri = handlerPath ++ filePath

/-- What has been read of the version in a state. -/
def RequestState.VersionSoFar (version : Bytes) : RequestState → Prop
  | .methodStart | .methodInside | .handlerPathStart | .handlerPath | .filePath | .uriInside
  | .httpVersionH | .httpVersionT1 | .httpVersionT2 | .httpVersionP | .httpVersionSlash
  | .httpVersionMajorStart => version = []
  | .httpVersionMajor => version ≠ [] ∧ ∀ b ∈ version, DigitByte b
  | _ => ∃ major minor, major ≠ [] ∧ (∀ b ∈ major, DigitByte b) ∧ (∀ b ∈ minor, DigitByte b) ∧
      version = major ++ ascii '.' :: minor

namespace Request

/-- The invariant of `consume` behind `Clean`. -/
structure Spelled (r : Request) : Prop where
  method : ∀ b ∈ r.method, TokenByte b
  uriBytes : ∀ b ∈ r.uri, UriByte b
  headers : ∀ h ∈ r.headers, CleanHeader h
  uriSplit : r.state.UriSplit r.uri r.handlerPath r.filePath
  version : r.state.VersionSoFar r.version

theorem not_controlByte_of_digitByte {b : UInt8} (h : DigitByte b) : ¬ControlByte b := by
  revert b
  decide +kernel

theorem forall_mem_concat {p : UInt8 → Prop} {u : Bytes} {c : UInt8} (hu : ∀ b ∈ u, p b)
    (hc : p c) : ∀ b ∈ u ++ [c], p b := by
  intro b hb
  rcases List.mem_append.mp hb with hb | hb
  · exact hu b hb
  · rw [List.mem_singleton.mp hb]
    exact hc

theorem cleanHeader_pushName {hs : Headers} {c : UInt8} (h : ∀ h ∈ hs, CleanHeader h)
    (hc : TokenByte c) : ∀ h ∈ hs.pushName c, CleanHeader h := by
  rcases hs.eq_nil_or_concat' with rfl | ⟨init, ⟨n, v⟩, rfl⟩
  · exact h
  · rw [Headers.pushName_append]
    have hlast : CleanHeader (n, v) := h _ (by simp)
    intro x hx
    rcases List.mem_append.mp hx with hx | hx
    · exact h x (by simp [hx])
    · rw [List.mem_singleton.mp hx]
      exact ⟨by simp, forall_mem_concat hlast.name_token hc, hlast.value_text⟩

theorem cleanHeader_pushValue {hs : Headers} {c : UInt8} (h : ∀ h ∈ hs, CleanHeader h)
    (hc : TextByte c) : ∀ h ∈ hs.pushValue c, CleanHeader h := by
  rcases hs.eq_nil_or_concat' with rfl | ⟨init, ⟨n, v⟩, rfl⟩
  · exact h
  · rw [Headers.pushValue_append]
    have hlast : CleanHeader (n, v) := h _ (by simp)
    intro x hx
    rcases List.mem_append.mp hx with hx | hx
    · exact h x (by simp [hx])
    · rw [List.mem_singleton.mp hx]
      exact ⟨hlast.name_ne_nil, hlast.name_token, forall_mem_concat hlast.value_text hc⟩

theorem cleanHeader_newHeader {hs : Headers} {c : UInt8} (h : ∀ h ∈ hs, CleanHeader h)
    (hc : TokenByte c) : ∀ h ∈ hs ++ [([c], [])], CleanHeader h := by
  intro x hx
  rcases List.mem_append.mp hx with hx | hx
  · exact h x hx
  · rw [List.mem_singleton.mp hx]
    exact ⟨by simp, by simpa using hc, by simp⟩

/-- Every byte keeps the spelling: one case for each state. -/
theorem Spelled.consume {r : Request} (h : r.Spelled) (c : UInt8) :
    { (r.consume c).2 with parsedStatus := (r.consume c).1 : Request }.Spelled := by
  obtain ⟨hmethod, huri, hheaders, hsplit, hversion⟩ := h
  rw [Request.consume]
  cases hs : r.state with
  | methodStart =>
    rw [hs] at hsplit hversion
    simp only [notToken_iff]
    split_ifs with hc
    · exact ⟨forall_mem_concat hmethod hc, huri, hheaders, hsplit, hversion⟩
    · exact ⟨hmethod, huri, hheaders, hsplit, hversion⟩
  | methodInside =>
    rw [hs] at hsplit hversion
    simp only [notToken_iff]
    split_ifs with hspace hc
    · exact ⟨hmethod, huri, hheaders, hsplit, hversion⟩
    · exact ⟨forall_mem_concat hmethod hc, huri, hheaders, hsplit, hversion⟩
    · exact ⟨hmethod, huri, hheaders, hsplit, hversion⟩
  | handlerPathStart =>
    rw [hs] at hsplit hversion
    obtain ⟨huri', hhandler, hfile⟩ := hsplit
    simp only
    split_ifs with hc
    · -- the URI and its handler path begin with this slash
      have hslash : UriByte c := hc ▸ ⟨slash_ne_space, not_controlByte_slash⟩
      refine ⟨hmethod, forall_mem_concat huri hslash, hheaders, ⟨?_, hfile⟩, hversion⟩
      simp only [huri', hhandler]
    · exact ⟨hmethod, huri, hheaders, ⟨huri', hhandler, hfile⟩, hversion⟩
  | handlerPath =>
    rw [hs] at hsplit hversion
    obtain ⟨hhandler, hfile⟩ := hsplit
    simp only [isCtl_iff]
    split_ifs with hspace hctl hslash
    · exact ⟨hmethod, huri, hheaders, by simp [RequestState.UriSplit, hhandler, hfile], hversion⟩
    · exact ⟨hmethod, huri, hheaders, ⟨hhandler, hfile⟩, hversion⟩
    · -- the file path begins with this slash
      refine ⟨hmethod, forall_mem_concat huri ⟨hspace, hctl⟩, hheaders, ?_, hversion⟩
      simp [RequestState.UriSplit, hhandler, hfile]
    · refine ⟨hmethod, forall_mem_concat huri ⟨hspace, hctl⟩, hheaders, ⟨?_, hfile⟩, hversion⟩
      simp only [hhandler]
  | uriInside =>
    rw [hs] at hsplit hversion
    have hconcat : r.uri = r.handlerPath ++ r.filePath := hsplit
    simp only [isCtl_iff]
    split_ifs with hspace hctl
    · exact ⟨hmethod, huri, hheaders, hsplit, hversion⟩
    · exact ⟨hmethod, huri, hheaders, hsplit, hversion⟩
    · refine ⟨hmethod, forall_mem_concat huri ⟨hspace, hctl⟩, hheaders, ?_, hversion⟩
      simp [RequestState.UriSplit, hconcat]
  | httpVersionMajorStart =>
    rw [hs] at hsplit hversion
    have hnil : r.version = [] := hversion
    simp only [isDigit_iff]
    split_ifs with hc
    · refine ⟨hmethod, huri, hheaders, hsplit, ⟨by simp, ?_⟩⟩
      simpa [hnil] using hc
    · exact ⟨hmethod, huri, hheaders, hsplit, hversion⟩
  | httpVersionMajor =>
    rw [hs] at hsplit hversion
    obtain ⟨hne, hdigits⟩ := hversion
    -- the digits so far are the major number once a dot comes
    simp only [isDigit_iff]
    split_ifs with hdot hc
    · exact ⟨hmethod, huri, hheaders, hsplit, r.version, [], hne, hdigits, by simp, by simp [hdot]⟩
    · exact ⟨hmethod, huri, hheaders, hsplit, by simp, forall_mem_concat hdigits hc⟩
    · exact ⟨hmethod, huri, hheaders, hsplit, hne, hdigits⟩
  | httpVersionMinorStart =>
    rw [hs] at hsplit hversion
    obtain ⟨major, minor, hne, hmajor, hminor, heq⟩ := hversion
    simp only [isDigit_iff]
    split_ifs with hc
    · exact ⟨hmethod, huri, hheaders, hsplit, major, minor ++ [c], hne, hmajor,
        forall_mem_concat hminor hc, by simp [heq]⟩
    · exact ⟨hmethod, huri, hheaders, hsplit, major, minor, hne, hmajor, hminor, heq⟩
  | httpVersionMinor =>
    rw [hs] at hsplit hversion
    obtain ⟨major, minor, hne, hmajor, hminor, heq⟩ := hversion
    simp only [isDigit_iff]
    split_ifs with hcr hc
    · exact ⟨hmethod, huri, hheaders, hsplit, major, minor, hne, hmajor, hminor, heq⟩
    · exact ⟨hmethod, huri, hheaders, hsplit, major, minor ++ [c], hne, hmajor,
        forall_mem_concat hminor hc, by simp [heq]⟩
    · exact ⟨hmethod, huri, hheaders, hsplit, major, minor, hne, hmajor, hminor, heq⟩
  | headerLineStart =>
    rw [hs] at hsplit hversion
    simp only [notToken_iff, Headers.pushName_append]
    split_ifs with hcr hblank hc
    · exact ⟨hmethod, huri, hheaders, hsplit, hversion⟩
    · exact ⟨hmethod, huri, hheaders, hsplit, hversion⟩
    · exact ⟨hmethod, huri, cleanHeader_newHeader hheaders hc, hsplit, hversion⟩
    · exact ⟨hmethod, huri, hheaders, hsplit, hversion⟩
  | headerLws =>
    rw [hs] at hsplit hversion
    simp only [isCtl_iff]
    split_ifs with hcr hblank hctl
    · exact ⟨hmethod, huri, hheaders, hsplit, hversion⟩
    · exact ⟨hmethod, huri, hheaders, hsplit, hversion⟩
    · exact ⟨hmethod, huri, hheaders, hsplit, hversion⟩
    · exact ⟨hmethod, huri, cleanHeader_pushValue hheaders hctl, hsplit, hversion⟩
  | headerName =>
    rw [hs] at hsplit hversion
    simp only [notToken_iff]
    split_ifs with hcolon hc
    · exact ⟨hmethod, huri, hheaders, hsplit, hversion⟩
    · exact ⟨hmethod, huri, cleanHeader_pushName hheaders hc, hsplit, hversion⟩
    · exact ⟨hmethod, huri, hheaders, hsplit, hversion⟩
  | headerValue =>
    rw [hs] at hsplit hversion
    simp only [isCtl_iff]
    split_ifs with hcr hctl
    · exact ⟨hmethod, huri, hheaders, hsplit, hversion⟩
    · exact ⟨hmethod, huri, hheaders, hsplit, hversion⟩
    · exact ⟨hmethod, huri, cleanHeader_pushValue hheaders hctl, hsplit, hversion⟩
  | filePath | bodyState =>
    rw [hs] at hsplit hversion
    exact ⟨hmethod, huri, hheaders, hsplit, hversion⟩
  | _ =>
    -- the byte is compared with one character and goes into no field
    rw [hs] at hsplit hversion
    simp only
    split_ifs <;> exact ⟨hmethod, huri, hheaders, hsplit, hversion⟩

theorem spelled_parse (s : Bytes) : (parse s).Spelled := by
  have hnew : new.Spelled :=
    ⟨by simp [new], by simp [new], by simp [new], ⟨rfl, rfl, rfl⟩, rfl⟩
  obtain ⟨hmethod, huri, hheaders, hsplit, hversion⟩ :=
    parseLoop_induction (fun _ c h => h.consume c) new s hnew
  exact ⟨hmethod, huri, hheaders, hsplit, hversion⟩

end Request

theorem RequestState.UriSplit.eq_append {q : RequestState} {uri handlerPath filePath : Bytes}
    (h : q.UriSplit uri handlerPath filePath) : uri = handlerPath ++ filePath := by
  cases q with
  | methodStart | methodInside | handlerPathStart =>
    obtain ⟨rfl, rfl, rfl⟩ := h
    rfl
  | handlerPath =>
    obtain ⟨rfl, rfl⟩ := h
    simp
  | _ => exact h

theorem RequestState.VersionSoFar.versionText {q : RequestState} {version : Bytes}
    (h : q.VersionSoFar version) : Request.VersionText version := by
  cases q with
  | methodStart | methodInside | handlerPathStart | handlerPath | filePath | uriInside
  | httpVersionH | httpVersionT1 | httpVersionT2 | httpVersionP | httpVersionSlash
  | httpVersionMajorStart => exact .inl h
  | httpVersionMajor => exact .inr ⟨version, h.1, h.2, .inl rfl⟩
  | _ =>
    obtain ⟨major, minor, hne, hmajor, hminor, heq⟩ := h
    exact .inr ⟨major, hne, hmajor, .inr ⟨minor, hminor, heq⟩⟩

namespace Request

/-- The byte is in no field but the body and the raw text. -/
structure Avoids (r : Request) (b : UInt8) : Prop where
  method : b ∉ r.method
  uri : b ∉ r.uri
  handlerPath : b ∉ r.handlerPath
  filePath : b ∉ r.filePath
  version : b ∉ r.version
  headers : ∀ h ∈ r.headers, b ∉ h.1 ∧ b ∉ h.2

theorem VersionText.not_mem_of_controlByte {v : Bytes} (h : VersionText v) {b : UInt8}
    (hb : ControlByte b) : b ∉ v := by
  have hdigit : ¬DigitByte b := fun hd => not_controlByte_of_digitByte hd hb
  have hdot : b ≠ ascii '.' := by
    rintro rfl
    exact absurd hb (by decide)
  rcases h with rfl | ⟨major, -, hmajor, rfl | ⟨minor, hminor, rfl⟩⟩
  · simp
  · exact fun hmem => hdigit (hmajor b hmem)
  · intro hmem
    rcases List.mem_append.mp hmem with hmem | hmem
    · exact hdigit (hmajor b hmem)
    · rcases List.mem_cons.mp hmem with hmem | hmem
      · exact hdot hmem
      · exact hdigit (hminor b hmem)

theorem Clean.avoids {r : Request} (h : r.Clean) {b : UInt8} (hb : ControlByte b) :
    r.Avoids b := by
  have huri : b ∉ r.uri := fun hmem => (h.uri_bytes b hmem).2 hb
  have htoken : ∀ u : Bytes, (∀ c ∈ u, TokenByte c) → b ∉ u := fun u hu hmem => (hu b hmem).2.1 hb
  have hpaths : b ∉ r.handlerPath ++ r.filePath := h.uri_split ▸ huri
  rw [List.mem_append, not_or] at hpaths
  refine ⟨htoken _ h.method, huri, hpaths.1, hpaths.2, h.version.not_mem_of_controlByte hb, ?_⟩
  intro x hx
  exact ⟨htoken _ (h.headers x hx).name_token, fun hmem => (h.headers x hx).value_text b hmem hb⟩

/-- **The fields are clean whatever came of parsing**, so that no CR, LF or NUL
gets into any but the body and the raw text. -/
theorem clean_parse (s : Bytes) :
    (parse s).Clean ∧ ∀ b ∈ [0, ascii '\n', ascii '\r'], (parse s).Avoids b := by
  obtain ⟨hmethod, huri, hheaders, hsplit, hversion⟩ := spelled_parse s
  have hclean : (parse s).Clean :=
    ⟨hmethod, uri_parse s, huri, hsplit.eq_append, hversion.versionText, hheaders⟩
  refine ⟨hclean, fun b hb => hclean.avoids ?_⟩
  simp only [List.mem_cons, List.not_mem_nil, or_false] at hb
  rcases hb with rfl | rfl | rfl <;> decide

end Request
