/-
The version of a request as text and as numbers (`request.cc`).

The four version states keep the digits in `version_` and push each onto an
`int`.  Overflow taken as wrapping, the two numbers are at every call what the
text before and behind the dot says (`Numbered`); what stands in front of the
text is a method and a target (`Transcribed`).  So whether a number has room
for a digit can be read off the bytes that are parsed.

* `Request.version_in_range_iff` — every sum fits an `int` exactly when no
  version number of the text is too large for it.
-/
import Spaceteam.InputStream
import Spaceteam.RequestFields
import Spaceteam.RequestRoundTrip
import Spaceteam.RequestSteps

namespace Request

/-! ### The two parts of a version -/

def beforeDot (version : Bytes) : Bytes := version.takeWhile (· ≠ ascii '.')

def afterDot (version : Bytes) : Bytes := (version.dropWhile (· ≠ ascii '.')).tail

theorem parts_of_not_mem {version : Bytes} (h : ascii '.' ∉ version) :
    beforeDot version = version ∧ afterDot version = [] := by
  have hall : ∀ b ∈ version, decide (b ≠ ascii '.') = true :=
    fun b hb => decide_eq_true (ne_of_mem_of_not_mem hb h)
  refine ⟨List.takeWhile_eq_self_iff.mpr hall, ?_⟩
  rw [afterDot, List.dropWhile_eq_nil_iff.mpr hall]
  rfl

theorem parts_of_dot {major : Bytes} (h : ascii '.' ∉ major) (minor : Bytes) :
    beforeDot (major ++ ascii '.' :: minor) = major ∧
      afterDot (major ++ ascii '.' :: minor) = minor := by
  have hall : ∀ b ∈ major, decide (b ≠ ascii '.') = true :=
    fun b hb => decide_eq_true (ne_of_mem_of_not_mem hb h)
  obtain ⟨htake, hdrop⟩ :=
    IStream.span_append (p := (· ≠ ascii '.')) (c := ascii '.') hall (by simp) minor
  refine ⟨htake, ?_⟩
  rw [afterDot, hdrop]
  rfl

theorem dot_not_mem {digits : Bytes} (h : ∀ b ∈ digits, DigitByte b) : ascii '.' ∉ digits :=
  fun hmem => not_digitByte_dot (h _ hmem)

/-! ### The numbers -/

theorem decimalValue_concat (digits : Bytes) (c : UInt8) :
    IStream.decimalValue (digits ++ [c]) =
      10 * IStream.decimalValue digits + (c.toNat - 48) := by
  simp [IStream.decimalValue]

/-- A digit is a positive `char`, and at least `'0'`. -/
theorem charToInt_of_digitByte :
    ∀ c : UInt8, DigitByte c → charToInt c = c.toNat ∧ 48 ≤ c.toNat ∧ c.toNat ≤ 57 := by
  decide +kernel

/-- The digit is pushed onto the number modulo the size of an `int`. -/
theorem pushDigit_ofNat {c : UInt8} (hc : DigitByte c) (digits : Bytes) :
    pushDigit (Int32.ofNat (IStream.decimalValue digits)) c =
      Int32.ofNat (IStream.decimalValue (digits ++ [c])) := by
  obtain ⟨hchar, hlow, -⟩ := charToInt_of_digitByte c hc
  obtain ⟨d, hd⟩ : ∃ d, c.toNat = d + 48 := ⟨c.toNat - 48, by omega⟩
  have h48 : Int32.ofNat 48 = 48 := rfl
  have h10 : Int32.ofNat 10 = 10 := rfl
  rw [pushDigit, decimalValue_concat, hchar, Int32.ofInt_eq_ofNat, hd, Nat.add_sub_cancel]
  simp only [Int32.ofNat_add, Int32.ofNat_mul, h48, h10]
  grind

/-- The numbers are those of the text, modulo the size of an `int`. -/
structure Numbered (r : Request) : Prop where
  major : r.httpVersionMajor = Int32.ofNat (IStream.decimalValue (beforeDot r.version))
  minor : r.httpVersionMinor = Int32.ofNat (IStream.decimalValue (afterDot r.version))

theorem numbered_nil {r : Request} (hversion : r.version = []) (hmajor : r.httpVersionMajor = 0)
    (hminor : r.httpVersionMinor = 0) : r.Numbered := by
  refine ⟨?_, ?_⟩
  · rw [hmajor, hversion]
    rfl
  · rw [hminor, hversion]
    rfl

/-- A digit before the dot. -/
theorem Numbered.pushMajor {r : Request} (h : r.Numbered) {c : UInt8} (hc : DigitByte c)
    (hdigits : ∀ b ∈ r.version, DigitByte b) (state : RequestState) (raw : Bytes) :
    Numbered { r with
      rawRequest := raw
      httpVersionMajor := pushDigit r.httpVersionMajor c
      version := r.version ++ [c]
      state := state } := by
  obtain ⟨hmajor, hminor⟩ := h
  obtain ⟨hbefore, hafter⟩ := parts_of_not_mem (dot_not_mem hdigits)
  obtain ⟨hbefore', hafter'⟩ := parts_of_not_mem (dot_not_mem (forall_mem_concat hdigits hc))
  rw [hbefore] at hmajor
  rw [hafter] at hminor
  refine ⟨?_, ?_⟩
  · show pushDigit r.httpVersionMajor c = _
    rw [hmajor, hbefore', pushDigit_ofNat hc]
  · show r.httpVersionMinor = _
    rw [hminor, hafter']

/-- A digit behind the dot. -/
theorem Numbered.pushMinor {r : Request} (h : r.Numbered) {c : UInt8} (hc : DigitByte c)
    {major minor : Bytes} (hdigits : ∀ b ∈ major, DigitByte b)
    (hversion : r.version = major ++ ascii '.' :: minor) (state : RequestState) (raw : Bytes) :
    Numbered { r with
      rawRequest := raw
      httpVersionMinor := pushDigit r.httpVersionMinor c
      version := r.version ++ [c]
      state := state } := by
  obtain ⟨hmajor, hminor⟩ := h
  obtain ⟨hbefore, hafter⟩ := parts_of_dot (dot_not_mem hdigits) minor
  obtain ⟨hbefore', hafter'⟩ := parts_of_dot (dot_not_mem hdigits) (minor ++ [c])
  have hconcat : r.version ++ [c] = major ++ ascii '.' :: (minor ++ [c]) := by
    simp [hversion]
  rw [hversion, hbefore] at hmajor
  rw [hversion, hafter] at hminor
  refine ⟨?_, ?_⟩
  · show r.httpVersionMajor = _
    rw [hmajor, hconcat, hbefore']
  · show pushDigit r.httpVersionMinor c = _
    rw [hminor, hconcat, hafter', pushDigit_ofNat hc]

/-- Every byte keeps the numbers to the text. -/
theorem Numbered.consume {r : Request} (h : r.Numbered)
    (hversion : r.state.VersionSoFar r.version) (c : UInt8) : (r.consume c).2.Numbered := by
  obtain ⟨hmajor, hminor⟩ := h
  rw [Request.consume]
  cases hs : r.state with
  | httpVersionSlash =>
    rw [hs] at hversion
    simp only
    split_ifs
    · exact numbered_nil hversion rfl rfl
    · exact ⟨hmajor, hminor⟩
  | httpVersionMajorStart =>
    rw [hs] at hversion
    have hnil : r.version = [] := hversion
    simp only [isDigit_iff]
    split_ifs with hc
    · exact Numbered.pushMajor ⟨hmajor, hminor⟩ hc (by simp [hnil]) _ _
    · exact ⟨hmajor, hminor⟩
  | httpVersionMajor =>
    rw [hs] at hversion
    obtain ⟨-, hdigits⟩ := hversion
    simp only [isDigit_iff]
    split_ifs with hdot hc
    · -- the dot ends the major number and the minor one begins
      obtain ⟨hbefore, hafter⟩ := parts_of_not_mem (dot_not_mem hdigits)
      obtain ⟨hbefore', hafter'⟩ := parts_of_dot (dot_not_mem hdigits) []
      refine ⟨?_, ?_⟩
      · simp only [hdot, hbefore', hmajor, hbefore]
      · simp only [hdot, hafter', hminor, hafter]
    · exact Numbered.pushMajor ⟨hmajor, hminor⟩ hc hdigits _ _
    · exact ⟨hmajor, hminor⟩
  | httpVersionMinorStart =>
    rw [hs] at hversion
    obtain ⟨major, minor, -, hdigits, -, htext⟩ := hversion
    simp only [isDigit_iff]
    split_ifs with hc
    · exact Numbered.pushMinor ⟨hmajor, hminor⟩ hc hdigits htext _ _
    · exact ⟨hmajor, hminor⟩
  | httpVersionMinor =>
    rw [hs] at hversion
    obtain ⟨major, minor, -, hdigits, -, htext⟩ := hversion
    simp only [isDigit_iff]
    split_ifs with hcr hc
    · exact ⟨hmajor, hminor⟩
    · exact Numbered.pushMinor ⟨hmajor, hminor⟩ hc hdigits htext _ _
    · exact ⟨hmajor, hminor⟩
  | filePath | bodyState => exact ⟨hmajor, hminor⟩
  | _ =>
    simp only
    split_ifs <;> exact ⟨hmajor, hminor⟩

end Request

/-! ### The text in front of the version -/

/-- What has been read in front of the version. -/
def RequestState.lead (method uri : Bytes) : RequestState → Bytes
  | .methodStart | .methodInside => method
  | .handlerPathStart => method ++ bytes " "
  | .handlerPath | .filePath | .uriInside => method ++ bytes " " ++ uri
  | .httpVersionH => method ++ bytes " " ++ uri ++ bytes " "
  | .httpVersionT1 => method ++ bytes " " ++ uri ++ bytes " H"
  | .httpVersionT2 => method ++ bytes " " ++ uri ++ bytes " HT"
  | .httpVersionP => method ++ bytes " " ++ uri ++ bytes " HTT"
  | .httpVersionSlash => method ++ bytes " " ++ uri ++ bytes " HTTP"
  | _ => method ++ bytes " " ++ uri ++ bytes " HTTP/"

/-- The states up to the last digit of the version. -/
def RequestState.UpToVersion : RequestState → Prop
  | .methodStart | .methodInside | .handlerPathStart | .handlerPath | .filePath | .uriInside
  | .httpVersionH | .httpVersionT1 | .httpVersionT2 | .httpVersionP | .httpVersionSlash
  | .httpVersionMajorStart | .httpVersionMajor | .httpVersionMinorStart | .httpVersionMinor => True
  | _ => False

/-- The states behind the slash the URI begins with. -/
def RequestState.UriBegun : RequestState → Prop
  | .methodStart | .methodInside | .handlerPathStart => False
  | _ => True

namespace Request

/-- The text in front of the version and the version are what has been read,
but for what follows the version. -/
structure Transcribed (r : Request) : Prop where
  text : r.state.lead r.method r.uri ++ r.version <+: r.rawRequest
  whole : r.state.UpToVersion → r.rawRequest = r.state.lead r.method r.uri ++ r.version
  method_ne_nil : r.state ≠ .methodStart → r.method ≠ []
  uri_ne_nil : r.state.UriBegun → r.uri ≠ []

theorem transcribed_new : new.Transcribed :=
  ⟨List.prefix_rfl, fun _ => rfl, fun h => absurd rfl h, fun h => h.elim⟩

theorem Transcribed.of_eq {r : Request}
    (h : r.rawRequest = r.state.lead r.method r.uri ++ r.version)
    (hmethod : r.state ≠ .methodStart → r.method ≠ [])
    (huri : r.state.UriBegun → r.uri ≠ []) : r.Transcribed :=
  ⟨h ▸ List.prefix_rfl, fun _ => h, hmethod, huri⟩

/-- An accepted byte is transcribed. -/
theorem Transcribed.advance {r r' : Request} {c : UInt8} (h : r.Transcribed)
    (hspelled : r.Spelled) (hadvance : r.advance c = some r') : r'.Transcribed := by
  obtain ⟨hne, rfl⟩ := advance_eq_some.mp hadvance
  have hversion := hspelled.version
  obtain ⟨htext, hwhole, hmethod, huri⟩ := h
  revert hne
  rw [consume]
  cases hs : r.state with
  | methodStart =>
    rw [hs] at hwhole hversion
    have hnil : r.version = [] := hversion
    have hraw := hwhole trivial
    simp only
    split_ifs
    · exact fun hne => absurd rfl hne
    · intro _
      refine .of_eq ?_ (by simp) (fun hin => hin.elim)
      simp [hraw, hnil, RequestState.lead]
  | methodInside =>
    rw [hs] at hwhole hversion hmethod
    have hnil : r.version = [] := hversion
    have hraw := hwhole trivial
    have hbegun := hmethod (by simp)
    simp only
    split_ifs with hspace
    · intro _
      refine .of_eq ?_ (fun _ => hbegun) (fun hin => hin.elim)
      simp [hraw, hnil, RequestState.lead, hspace, bytes]
    · exact fun hne => absurd rfl hne
    · intro _
      refine .of_eq ?_ (by simp) (fun hin => hin.elim)
      simp [hraw, hnil, RequestState.lead]
  | handlerPathStart =>
    rw [hs] at hwhole hversion hmethod
    have hnil : r.version = [] := hversion
    have hraw := hwhole trivial
    simp only
    split_ifs with hc
    · intro _
      have hsplit := hspelled.uriSplit
      rw [hs] at hsplit
      refine .of_eq ?_ (fun _ => hmethod (by simp)) (by simp)
      simp [hraw, hnil, RequestState.lead, hsplit.1]
    · exact fun hne => absurd rfl hne
  | handlerPath | uriInside =>
    rw [hs] at hwhole hversion hmethod huri
    have hnil : r.version = [] := hversion
    have hraw := hwhole trivial
    have happend : (r.rawRequest ++ [c]) =
        r.method ++ bytes " " ++ (r.uri ++ [c]) ++ r.version := by
      simp [hraw, hnil, RequestState.lead]
    simp only
    split_ifs with hspace
    · intro _
      refine .of_eq ?_ (fun _ => hmethod (by simp)) (fun _ => huri trivial)
      simp [hraw, hnil, RequestState.lead, hspace, bytes]
    · exact fun hne => absurd rfl hne
    all_goals exact fun _ => .of_eq happend (fun _ => hmethod (by simp)) (by simp)
  | httpVersionH | httpVersionT1 | httpVersionT2 | httpVersionP | httpVersionSlash =>
    rw [hs] at hwhole hversion hmethod huri
    have hnil : r.version = [] := hversion
    have hraw := hwhole trivial
    simp only
    split_ifs with hc
    · intro _
      refine .of_eq ?_ (fun _ => hmethod (by simp)) (fun _ => huri trivial)
      simp [hraw, hnil, RequestState.lead, hc, bytes]
    · exact fun hne => absurd rfl hne
  | httpVersionMajorStart | httpVersionMajor | httpVersionMinorStart | httpVersionMinor =>
    rw [hs] at htext hwhole hmethod huri
    have hraw := hwhole trivial
    have happend : r.rawRequest ++ [c] =
        r.method ++ bytes " " ++ r.uri ++ bytes " HTTP/" ++ (r.version ++ [c]) := by
      rw [hraw, List.append_assoc]
      rfl
    have hbegun : r.method ≠ [] ∧ r.uri ≠ [] := ⟨hmethod (by simp), huri trivial⟩
    simp only
    split_ifs
    all_goals first
      | exact fun hne => absurd rfl hne
      | exact fun _ => .of_eq happend (fun _ => hbegun.1) (fun _ => hbegun.2)
      | exact fun _ => ⟨htext.trans (List.prefix_append _ _), False.elim, fun _ => hbegun.1,
          fun _ => hbegun.2⟩
  | filePath => exact fun hne => absurd rfl hne
  | bodyState =>
    rw [hs] at htext hmethod huri
    exact fun _ => ⟨htext.trans (List.prefix_append _ _), False.elim, fun _ => hmethod (by simp),
      fun _ => huri trivial⟩
  | _ =>
    -- the version has been read: the byte follows it
    rw [hs] at htext hmethod huri
    have hbehind := htext.trans (List.prefix_append r.rawRequest [c])
    simp only
    split_ifs
    all_goals first
      | exact fun hne => absurd rfl hne
      | exact fun _ => ⟨hbehind, False.elim, fun _ => hmethod (by simp), fun _ => huri trivial⟩

/-- What every call finds. -/
structure VersionRead (r : Request) : Prop where
  spelled : r.Spelled
  shape : r.UriShape
  numbered : r.Numbered
  transcribed : r.Transcribed

theorem VersionRead.advance {r r' : Request} {c : UInt8} (h : r.VersionRead)
    (hadvance : r.advance c = some r') : r'.VersionRead := by
  obtain ⟨hspelled, hshape, hnumbered, htranscribed⟩ := h
  have htranscribed' := htranscribed.advance hspelled hadvance
  have hnumbered' := hnumbered.consume hspelled.version c
  have hspelled' := hspelled.consume c
  have hshape' := hshape.consume c
  obtain ⟨-, rfl⟩ := advance_eq_some.mp hadvance
  exact ⟨hspelled', hshape', ⟨hnumbered'.major, hnumbered'.minor⟩, htranscribed'⟩

theorem versionRead_new : new.VersionRead :=
  ⟨⟨by simp [new], by simp [new], by simp [new], ⟨rfl, rfl, rfl⟩, rfl⟩,
    ⟨.inl rfl, by simp [new]⟩, numbered_nil rfl rfl rfl, transcribed_new⟩

theorem versionRead_of_run {r : Request} {s : Bytes} (hrun : new.run s = some r) :
    r.VersionRead :=
  run_induction (fun _ _ _ h hadvance => h.advance hadvance) hrun versionRead_new

/-! ### The version numbers of a text -/

/-- A method and a target, and `" HTTP/"` behind them. -/
def VersionFollows (u : Bytes) : Prop :=
  ∃ method path, method ≠ [] ∧ (∀ b ∈ method, TokenByte b) ∧ (∀ b ∈ path, UriByte b) ∧
    u = method ++ ascii ' ' :: ascii '/' :: path ++ bytes " HTTP/"

/-- The digits stand where the major or the minor number of a version does. -/
def VersionDigits (s digits : Bytes) : Prop :=
  (∀ b ∈ digits, DigitByte b) ∧ ∃ u, VersionFollows u ∧
    (u ++ digits <+: s ∨
      ∃ major, major ≠ [] ∧ (∀ b ∈ major, DigitByte b) ∧ u ++ major ++ ascii '.' :: digits <+: s)

/-- No version number of the text is larger. -/
def VersionAtMost (bound : ℕ) (s : Bytes) : Prop :=
  ∀ digits, VersionDigits s digits → IStream.decimalValue digits ≤ bound

theorem VersionDigits.of_beginning {s digits early : Bytes} (h : VersionDigits s digits)
    (hearly : early <+: digits) : VersionDigits s early := by
  obtain ⟨hdigits, u, hu, hplace⟩ := h
  refine ⟨fun b hb => hdigits b (hearly.subset hb), u, hu, ?_⟩
  obtain ⟨late, rfl⟩ := hearly
  rcases hplace with hmajor | ⟨major, hne, hall, hminor⟩
  · left
    refine List.IsPrefix.trans ?_ hmajor
    exact ⟨late, by simp⟩
  · right
    refine ⟨major, hne, hall, List.IsPrefix.trans ?_ hminor⟩
    exact ⟨late, by simp⟩

/-- The text in front of the version is read to the version. -/
theorem run_versionFollows {u : Bytes} (hu : VersionFollows u) :
    ∃ r, new.run u = some r ∧ r.state = .httpVersionMajorStart ∧ r.version = [] := by
  obtain ⟨method, path, hne, hmethod, hpath, rfl⟩ := hu
  obtain ⟨c, method, rfl⟩ := List.exists_cons_of_ne_nil hne
  have hstart := reads_methodStart (f := new.fields) (hmethod c List.mem_cons_self)
  have hrest := reads_method (f := new.fields) (m := new.fields.method ++ [c])
    fun b hb => hmethod b (List.mem_cons_of_mem c hb)
  have htarget := (reads_space (f := { new.fields with method := [c] ++ method })).cons
    (reads_slash.trans (reads_path (.inl rfl) hpath))
  obtain ⟨r, hrun, hstate, hfields⟩ :=
    ((hstart.cons hrest).trans (htarget.trans reads_http)) new rfl rfl
  refine ⟨r, ?_, hstate, congrArg RequestFields.version hfields⟩
  rw [← hrun]
  congr 1
  simp [bytes]

/-- The digits of the major number are read one by one. -/
theorem run_major {u digits : Bytes} (hu : VersionFollows u) (hdigits : ∀ b ∈ digits, DigitByte b) :
    ∃ r, new.run (u ++ digits) = some r ∧ r.version = digits ∧
      (digits = [] ∧ r.state = .httpVersionMajorStart ∨
        digits ≠ [] ∧ r.state = .httpVersionMajor) := by
  induction digits using List.reverseRecOn with
  | nil =>
    obtain ⟨r, hrun, hstate, hversion⟩ := run_versionFollows hu
    exact ⟨r, by rw [List.append_nil, hrun], hversion, .inl ⟨rfl, hstate⟩⟩
  | append_singleton digits c ih =>
    have hc : DigitByte c := hdigits c (by simp)
    obtain ⟨r, hrun, hversion, hstate⟩ := ih fun b hb => hdigits b (by simp [hb])
    have hread : ∃ r', r.run [c] = some r' ∧ r'.state = .httpVersionMajor ∧
        r'.fields = { r.fields with version := r.version ++ [c] } := by
      rcases hstate with ⟨-, hstart⟩ | ⟨-, hmajor⟩
      · exact reads_majorStart hc r hstart rfl
      · exact reads_majorDigit hc r hmajor rfl
    obtain ⟨r', hrun', hstate', hfields⟩ := hread
    have hversion' : r'.version = digits ++ [c] :=
      (congrArg RequestFields.version hfields).trans (by rw [hversion])
    refine ⟨r', ?_, hversion', .inr ⟨by simp, hstate'⟩⟩
    rw [← List.append_assoc, run_append_of_run hrun, hrun']

/-- And those of the minor number. -/
theorem run_minor {u major digits : Bytes} (hu : VersionFollows u) (hne : major ≠ [])
    (hmajor : ∀ b ∈ major, DigitByte b) (hdigits : ∀ b ∈ digits, DigitByte b) :
    ∃ r, new.run (u ++ major ++ ascii '.' :: digits) = some r ∧
      r.version = major ++ ascii '.' :: digits ∧
      (r.state = .httpVersionMinorStart ∨ r.state = .httpVersionMinor) := by
  induction digits using List.reverseRecOn with
  | nil =>
    obtain ⟨r, hrun, hversion, hstate⟩ := run_major hu hmajor
    have hend : r.state = .httpVersionMajor := by
      rcases hstate with ⟨hnil, -⟩ | ⟨-, hend⟩
      · exact absurd hnil hne
      · exact hend
    obtain ⟨r', hrun', hstate', hfields⟩ := reads_dot r hend rfl
    have hversion' : r'.version = major ++ [ascii '.'] :=
      (congrArg RequestFields.version hfields).trans (by rw [← hversion]; rfl)
    exact ⟨r', by rw [run_append_of_run hrun, hrun'], hversion', .inl hstate'⟩
  | append_singleton digits c ih =>
    have hc : DigitByte c := hdigits c (by simp)
    obtain ⟨r, hrun, hversion, hstate⟩ := ih fun b hb => hdigits b (by simp [hb])
    have hread : ∃ r', r.run [c] = some r' ∧ r'.state = .httpVersionMinor ∧
        r'.fields = { r.fields with version := r.version ++ [c] } := by
      rcases hstate with hstart | hminor
      · exact reads_minorStart hc r hstart rfl
      · exact reads_minorDigit hc r hminor rfl
    obtain ⟨r', hrun', hstate', hfields⟩ := hread
    have hversion' : r'.version = major ++ ascii '.' :: (digits ++ [c]) :=
      (congrArg RequestFields.version hfields).trans (by simp [hversion])
    refine ⟨r', ?_, hversion', .inr hstate'⟩
    have htext : u ++ major ++ ascii '.' :: (digits ++ [c]) =
        u ++ major ++ ascii '.' :: digits ++ [c] := by simp
    rw [htext, run_append_of_run hrun, hrun']

/-! ### The sums -/

/-- The number a call multiplies by ten and adds its digit to. -/
def operand (step : Request × UInt8) : Option Int32 :=
  if isDigit (charToInt step.2) then
    match step.1.state with
    | .httpVersionMajorStart | .httpVersionMajor => some step.1.httpVersionMajor
    | .httpVersionMinorStart | .httpVersionMinor => some step.1.httpVersionMinor
    | _ => none
  else none

/-- Every digit of a version number of the text is added to the digits before it. -/
theorem mem_steps_of_versionDigits {s digits : Bytes} {c : UInt8}
    (h : VersionDigits s (digits ++ [c])) :
    ∃ r, (r, c) ∈ steps new s ∧
      operand (r, c) = some (Int32.ofNat (IStream.decimalValue digits)) := by
  obtain ⟨hall, u, hu, hplace⟩ := h
  have hc : DigitByte c := hall c (by simp)
  have hdigits : ∀ b ∈ digits, DigitByte b := fun b hb => hall b (by simp [hb])
  rcases hplace with ⟨rest, hs⟩ | ⟨major, hne, hmajor, rest, hs⟩
  · obtain ⟨r, hrun, hversion, hstate⟩ := run_major hu hdigits
    have hvalue := (versionRead_of_run hrun).numbered.major
    rw [hversion, (parts_of_not_mem (dot_not_mem hdigits)).1] at hvalue
    refine ⟨r, mem_steps.mpr ⟨u ++ digits, rest, by simp [← hs], hrun⟩, ?_⟩
    rcases hstate with ⟨-, hstate⟩ | ⟨-, hstate⟩
    · simp only [operand, isDigit_iff, if_pos hc, hstate, hvalue]
    · simp only [operand, isDigit_iff, if_pos hc, hstate, hvalue]
  · obtain ⟨r, hrun, hversion, hstate⟩ := run_minor hu hne hmajor hdigits
    have hvalue := (versionRead_of_run hrun).numbered.minor
    rw [hversion, (parts_of_dot (dot_not_mem hmajor) digits).2] at hvalue
    refine ⟨r, mem_steps.mpr ⟨u ++ major ++ ascii '.' :: digits, rest, by simp [← hs], hrun⟩, ?_⟩
    rcases hstate with hstate | hstate
    · simp only [operand, isDigit_iff, if_pos hc, hstate, hvalue]
    · simp only [operand, isDigit_iff, if_pos hc, hstate, hvalue]

/-- In a state whose lead is the whole of it, the version follows. -/
theorem VersionRead.follows {r : Request} (h : r.VersionRead)
    (hlead : r.state.lead r.method r.uri = r.method ++ bytes " " ++ r.uri ++ bytes " HTTP/")
    (hmethod : r.state ≠ .methodStart) (huri : r.state.UriBegun) :
    VersionFollows (r.state.lead r.method r.uri) := by
  have hne := h.transcribed.uri_ne_nil huri
  obtain ⟨path, hpath⟩ := h.shape.slash.resolve_left hne
  refine ⟨r.method, path, h.transcribed.method_ne_nil hmethod, h.spelled.method, ?_, ?_⟩
  · intro b hb
    exact h.spelled.uriBytes b (hpath ▸ List.mem_cons_of_mem _ hb)
  · rw [hlead, hpath]
    simp [bytes]

/-- A digit that comes behind digits alone is one of the major number. -/
theorem VersionRead.majorDigit {r : Request} (h : r.VersionRead) {c : UInt8} (hc : DigitByte c)
    (hup : r.state.UpToVersion) (hu : VersionFollows (r.state.lead r.method r.uri))
    (hdigits : ∀ b ∈ r.version, DigitByte b) (rest : Bytes) :
    VersionDigits (r.rawRequest ++ c :: rest) (r.version ++ [c]) ∧
      r.httpVersionMajor = Int32.ofNat (IStream.decimalValue r.version) := by
  refine ⟨⟨forall_mem_concat hdigits hc, _, hu, .inl ⟨rest, ?_⟩⟩, ?_⟩
  · rw [h.transcribed.whole hup]
    simp
  · rw [h.numbered.major, (parts_of_not_mem (dot_not_mem hdigits)).1]

/-- One that comes behind a dot is one of the minor number. -/
theorem VersionRead.minorDigit {r : Request} (h : r.VersionRead) {c : UInt8} (hc : DigitByte c)
    (hup : r.state.UpToVersion) (hu : VersionFollows (r.state.lead r.method r.uri))
    {major minor : Bytes} (hne : major ≠ []) (hmajor : ∀ b ∈ major, DigitByte b)
    (hdigits : ∀ b ∈ minor, DigitByte b) (htext : r.version = major ++ ascii '.' :: minor)
    (rest : Bytes) :
    VersionDigits (r.rawRequest ++ c :: rest) (minor ++ [c]) ∧
      r.httpVersionMinor = Int32.ofNat (IStream.decimalValue minor) := by
  refine ⟨⟨forall_mem_concat hdigits hc, _, hu, .inr ⟨major, hne, hmajor, rest, ?_⟩⟩, ?_⟩
  · rw [h.transcribed.whole hup, htext]
    simp
  · rw [h.numbered.minor, htext, (parts_of_dot (dot_not_mem hmajor) minor).2]

/-- And nothing else is added to a version number. -/
theorem versionDigits_of_mem_steps {s : Bytes} {r : Request} {c : UInt8} {n : Int32}
    (hmem : (r, c) ∈ steps new s) (hop : operand (r, c) = some n) :
    DigitByte c ∧ ∃ digits, VersionDigits s (digits ++ [c]) ∧
      n = Int32.ofNat (IStream.decimalValue digits) := by
  obtain ⟨w, rest, rfl, hrun⟩ := mem_steps.mp hmem
  have hread := versionRead_of_run hrun
  obtain rfl : r.rawRequest = w := rawRequest_of_run hrun
  have hversion := hread.spelled.version
  have hfollows := hread.follows
  simp only [operand, isDigit_iff] at hop
  split_ifs at hop with hc
  have hmajor := hread.majorDigit hc
  have hminor := @VersionRead.minorDigit r hread c hc
  refine ⟨hc, ?_⟩
  cases hs : r.state with
  | httpVersionMajorStart =>
    rw [hs] at hop hversion hmajor hfollows
    have hnil : r.version = [] := hversion
    obtain rfl := Option.some_inj.mp hop
    exact ⟨_, hmajor trivial (hfollows rfl (by simp) trivial) (by simp [hnil]) rest⟩
  | httpVersionMajor =>
    rw [hs] at hop hversion hmajor hfollows
    obtain rfl := Option.some_inj.mp hop
    exact ⟨_, hmajor trivial (hfollows rfl (by simp) trivial) hversion.2 rest⟩
  | httpVersionMinorStart | httpVersionMinor =>
    rw [hs] at hop hversion hminor hfollows
    obtain rfl := Option.some_inj.mp hop
    obtain ⟨major, minor, hne, hall, hdigits, htext⟩ := hversion
    exact ⟨_, hminor trivial (hfollows rfl (by simp) trivial) hne hall hdigits htext rest⟩
  | _ =>
    rw [hs] at hop
    cases hop

/-! ### Room for a digit -/

/-- The value is one of an `int`. -/
def InRange (value : ℤ) : Prop := -2 ^ 31 ≤ value ∧ value < 2 ^ 31

/-- The number with one more digit is in range. -/
def DigitFits (step : Request × UInt8) : Prop :=
  ∀ n ∈ operand step, InRange (n.toInt * 10 + (charToInt step.2 - 48))

/-- Each sum in `n * 10 + input - '0'` is, from left to right. -/
def SumsFit (step : Request × UInt8) : Prop :=
  ∀ n ∈ operand step, InRange (n.toInt * 10) ∧ InRange (n.toInt * 10 + charToInt step.2) ∧
    InRange (n.toInt * 10 + charToInt step.2 - 48)

/-- A complete request has the numbers its version spells. -/
def VersionAgrees (s : Bytes) : Prop :=
  (parse s).parsedStatus = .good →
    (parse s).httpVersionMajor.toInt = IStream.decimalValue (beforeDot (parse s).version) ∧
    (parse s).httpVersionMinor.toInt = IStream.decimalValue (afterDot (parse s).version)

/-- Sums with `slack` to spare keep every version number of the text small. -/
theorem versionAtMost_of_fits {s : Bytes} {bound : ℕ} (slack : ℕ)
    (hslack : bound + slack + 1 = 2 ^ 31)
    (h : ∀ step ∈ steps new s, ∀ n ∈ operand step,
      n.toInt * 10 + (charToInt step.2 - 48) + slack < 2 ^ 31) : VersionAtMost bound s := by
  intro digits hdigits
  induction digits using List.reverseRecOn with
  | nil => exact Nat.zero_le _
  | append_singleton digits c ih =>
    have hbefore := ih (hdigits.of_beginning (List.prefix_append digits [c]))
    have hc : DigitByte c := hdigits.1 c (by simp)
    obtain ⟨hchar, hlow, hhigh⟩ := charToInt_of_digitByte c hc
    obtain ⟨r, hmem, hop⟩ := mem_steps_of_versionDigits hdigits
    have hfits := h _ hmem _ hop
    rw [Int32.toInt_ofNat_of_lt (by omega), hchar] at hfits
    rw [decimalValue_concat]
    omega

theorem versionAtMost_of_digitFits {s : Bytes} (h : ∀ step ∈ steps new s, DigitFits step) :
    VersionAtMost 2147483647 s := by
  refine versionAtMost_of_fits 0 (by norm_num) fun step hmem n hop => ?_
  have hfit := (h step hmem n hop).2
  omega

/-- Small version numbers leave room for every digit. -/
theorem room_of_versionAtMost {s : Bytes} {bound : ℕ} (hbound : bound < 2 ^ 31)
    (h : VersionAtMost bound s) {step : Request × UInt8} (hmem : step ∈ steps new s) {n : Int32}
    (hop : n ∈ operand step) :
    0 ≤ n.toInt ∧ 48 ≤ charToInt step.2 ∧
      n.toInt * 10 + (charToInt step.2 - 48) ≤ bound := by
  obtain ⟨r, c⟩ := step
  obtain ⟨hc, digits, hdigits, rfl⟩ := versionDigits_of_mem_steps hmem hop
  obtain ⟨hchar, hlow, hhigh⟩ := charToInt_of_digitByte c hc
  have hbefore := h _ (hdigits.of_beginning (List.prefix_append digits [c]))
  have hvalue := h _ hdigits
  rw [decimalValue_concat] at hvalue
  rw [Int32.toInt_ofNat_of_lt (by omega)]
  simp only [hchar]
  omega

/-- The version of a complete request consists of version numbers of its text. -/
theorem versionDigits_parse {s : Bytes} (hs : s ≠ []) (hgood : (parse s).parsedStatus = .good) :
    VersionDigits s (beforeDot (parse s).version) ∧
      VersionDigits s (afterDot (parse s).version) := by
  obtain ⟨r, hrun, hstate⟩ := mem_requestLanguage_iff.mp ((parsedStatus_eq_good_iff hs).mp hgood)
  have hread := versionRead_of_run hrun
  have hversion := hread.spelled.version
  have htext := hread.transcribed.text
  have hu := hread.follows
  rw [hstate] at hversion htext hu
  have hfollows := hu rfl (by simp) trivial
  obtain ⟨major, minor, hne, hmajor, hminor, hparts⟩ := hversion
  obtain ⟨hbefore, hafter⟩ := parts_of_dot (dot_not_mem hmajor) minor
  rw [rawRequest_of_run hrun, hparts] at htext
  rw [parse_of_run hrun]
  simp only [hparts, hbefore, hafter]
  refine ⟨⟨hmajor, _, hfollows, .inl (List.IsPrefix.trans ?_ htext)⟩,
    ⟨hminor, _, hfollows, .inr ⟨major, hne, hmajor, ?_⟩⟩⟩
  · exact ⟨ascii '.' :: minor, by simp⟩
  · rw [List.append_assoc]
    exact htext

theorem versionAgrees_of_versionAtMost {s : Bytes} {bound : ℕ} (hbound : bound < 2 ^ 31)
    (h : VersionAtMost bound s) : VersionAgrees s := by
  intro hgood
  by_cases hs : s = []
  · subst hs
    exact ⟨rfl, rfl⟩
  · obtain ⟨hbefore, hafter⟩ := versionDigits_parse hs hgood
    have hnumbered : (parse s).Numbered := by
      obtain ⟨r, hrun, -⟩ := mem_requestLanguage_iff.mp ((parsedStatus_eq_good_iff hs).mp hgood)
      obtain ⟨hmajor, hminor⟩ := (versionRead_of_run hrun).numbered
      rw [parse_of_run hrun]
      exact ⟨hmajor, hminor⟩
    have hmajor := h _ hbefore
    have hminor := h _ hafter
    rw [hnumbered.major, hnumbered.minor]
    exact ⟨Int32.toInt_ofNat_of_lt (by omega), Int32.toInt_ofNat_of_lt (by omega)⟩

/-- **When the version numbers stay in range**: a number with its next digit
does when no version number of the text is above 2147483647, and all sums on
the way when none is above 2147483599, the digit `'0'` being subtracted last. -/
theorem version_in_range_iff (s : Bytes) :
    ((∀ step ∈ steps new s, DigitFits step) ∧ VersionAgrees s ↔ VersionAtMost 2147483647 s) ∧
      ((∀ step ∈ steps new s, SumsFit step) ∧ VersionAgrees s ↔ VersionAtMost 2147483599 s) := by
  refine ⟨⟨fun ⟨hfits, _⟩ => ?_, fun hbound => ⟨fun step hmem n hop => ?_, ?_⟩⟩,
    ⟨fun ⟨hfits, _⟩ => ?_, fun hbound => ⟨fun step hmem n hop => ?_, ?_⟩⟩⟩
  · exact versionAtMost_of_digitFits hfits
  · obtain ⟨hnonneg, hlow, hroom⟩ := room_of_versionAtMost (by omega) hbound hmem hop
    exact ⟨by omega, by omega⟩
  · exact versionAgrees_of_versionAtMost (by omega) hbound
  · refine versionAtMost_of_fits 48 (by norm_num) fun step hmem n hop => ?_
    have hfit := (hfits step hmem n hop).2.1.2
    omega
  · obtain ⟨hnonneg, hlow, hroom⟩ := room_of_versionAtMost (by omega) hbound hmem hop
    exact ⟨⟨by omega, by omega⟩, ⟨by omega, by omega⟩, ⟨by omega, by omega⟩⟩
  · exact versionAgrees_of_versionAtMost (by omega) hbound

/-- The tenth digit of a major number has no room. -/
theorem not_digitFits_nines :
    ¬∀ step ∈ steps new (bytes "GET / HTTP/9999999999.0\r\n\r\n"), DigitFits step := by
  intro hfits
  have hnines : VersionDigits (bytes "GET / HTTP/9999999999.0\r\n\r\n") (bytes "9999999999") := by
    refine ⟨by decide +kernel, bytes "GET / HTTP/", ⟨bytes "GET", [], ?_⟩,
      .inl ⟨bytes ".0\r\n\r\n", by decide +kernel⟩⟩
    exact ⟨by decide, by decide +kernel, by simp, by decide +kernel⟩
  exact absurd (versionAtMost_of_digitFits hfits _ hnines) (by decide)

end Request
