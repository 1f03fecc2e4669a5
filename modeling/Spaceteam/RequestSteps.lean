/-
The calls of `consume` that `Request::Parse` makes (`request.cc`).

`Request.steps r s` lists them, each with the request it finds and the byte it
is given; the loop of `Parse` returns what the last of them leaves.  A call is
made exactly where the bytes before it have been accepted (`mem_steps`), so an
invariant of `advance` holds at every call (`run_induction`).

* `Request.steps_safe` — no call uses the last header when there is none, none
  finds the parser in a state the switch leaves out, and only the line feed
  behind the blank line completes a request.
-/
import Spaceteam.RequestGrammar

namespace Request

/-! ### The calls -/

/-- The request after a call, as the loop keeps it. -/
def after (step : Request × UInt8) : Request :=
  { (step.1.consume step.2).2 with parsedStatus := (step.1.consume step.2).1 }

/-- The calls of `consume` in the loop of `Parse`. -/
def steps : Request → Bytes → List (Request × UInt8)
  | _, [] => []
  | r, c :: rest => (r, c) :: if (r.consume c).1 = .bad then [] else steps (after (r, c)) rest

variable {r r' : Request} {s : Bytes} {c : UInt8}

theorem advance_of_ne_bad (h : (r.consume c).1 ≠ .bad) : r.advance c = some (after (r, c)) :=
  advance_eq_some.mpr ⟨h, rfl⟩

/-- The loop returns the request after the last call. -/
theorem parseLoop_eq_foldl (r : Request) (s : Bytes) :
    parseLoop r s = (steps r s).foldl (fun _ step => after step) r := by
  induction s generalizing r with
  | nil => rfl
  | cons c s ih =>
    rw [parseLoop, steps, List.foldl_cons]
    by_cases hbad : (r.consume c).1 = .bad
    · simp [hbad, after]
    · simp only [hbad, if_false]
      exact ih (after (r, c))

/-- A call is made at every byte whose predecessors are accepted. -/
theorem mem_steps : (r', c) ∈ steps r s ↔ ∃ u rest, s = u ++ c :: rest ∧ r.run u = some r' := by
  induction s generalizing r with
  | nil => simp [steps]
  | cons d s ih =>
    rw [steps, List.mem_cons]
    constructor
    · rintro (hfirst | hlater)
      · obtain ⟨rfl, rfl⟩ := Prod.mk.inj hfirst
        exact ⟨[], s, rfl, rfl⟩
      · by_cases hbad : (r.consume d).1 = .bad
        · simp [hbad] at hlater
        · rw [if_neg hbad] at hlater
          obtain ⟨u, rest, rfl, hrun⟩ := ih.mp hlater
          refine ⟨d :: u, rest, rfl, ?_⟩
          rw [run_cons, advance_of_ne_bad hbad, Option.bind_some, hrun]
    · rintro ⟨u, rest, hsplit, hrun⟩
      rcases u with _ | ⟨b, u⟩
      · obtain ⟨rfl, rfl⟩ := List.cons.inj hsplit
        obtain rfl := Option.some_inj.mp hrun
        exact .inl rfl
      · obtain ⟨rfl, rfl⟩ := List.cons.inj hsplit
        rw [run_cons] at hrun
        obtain ⟨r₁, hfirst, hrest⟩ := Option.bind_eq_some_iff.mp hrun
        obtain ⟨hbad, rfl⟩ := advance_eq_some.mp hfirst
        right
        rw [if_neg hbad]
        exact ih.mpr ⟨u, rest, rfl, hrest⟩

/-- What every accepted byte keeps holds after a run. -/
theorem run_induction {P : Request → Prop}
    (hstep : ∀ r c r', P r → r.advance c = some r' → P r') (hrun : r.run s = some r') :
    P r → P r' := by
  induction s generalizing r with
  | nil =>
    obtain rfl := Option.some_inj.mp hrun
    exact id
  | cons c s ih =>
    intro hr
    rw [run_cons] at hrun
    obtain ⟨r₁, hfirst, hrest⟩ := Option.bind_eq_some_iff.mp hrun
    exact ih hrest (hstep r c r₁ hr hfirst)

/-- It holds at every call. -/
theorem steps_induction {P : Request → Prop}
    (hstep : ∀ r c r', P r → r.advance c = some r' → P r') (hr : P r)
    (hmem : (r', c) ∈ steps r s) : P r' := by
  obtain ⟨u, rest, -, hrun⟩ := mem_steps.mp hmem
  exact run_induction hstep hrun hr

end Request

/-! ### The last header -/

/-- The states between the first byte of a header and its line end. -/
def RequestState.InHeader : RequestState → Prop
  | .headerLws | .headerName | .spaceBeforeHeaderValue | .headerValue => True
  | _ => False

namespace Request

/-- Within a header there is one. -/
def HeaderBegun (r : Request) : Prop := r.state.InHeader → r.headers ≠ []

/-- An accepted byte keeps to the header that has begun. -/
theorem HeaderBegun.advance {r r' : Request} {c : UInt8} (h : r.HeaderBegun)
    (hadvance : r.advance c = some r') : r'.HeaderBegun := by
  obtain ⟨-, rfl⟩ := advance_eq_some.mp hadvance
  unfold HeaderBegun at h ⊢
  simp only
  rw [consume]
  cases hs : r.state with
  | headerLineStart =>
    simp only
    split_ifs with hcr hblank
    · exact False.elim
    · -- the continuation line is guarded
      exact fun _ => hblank.1
    · exact fun hin => hin.elim
    · simp
  | headerLws =>
    have hne := h (hs ▸ trivial)
    simp only
    split_ifs
    · exact False.elim
    · exact fun _ => hne
    · exact fun _ => hne
    · exact fun _ => mt Headers.pushValue_eq_nil.mp hne
  | headerName =>
    have hne := h (hs ▸ trivial)
    simp only
    split_ifs
    · exact fun _ => hne
    · exact fun _ => hne
    · exact fun _ => mt Headers.pushName_eq_nil.mp hne
  | spaceBeforeHeaderValue =>
    have hne := h (hs ▸ trivial)
    simp only
    split_ifs <;> exact fun _ => hne
  | headerValue =>
    have hne := h (hs ▸ trivial)
    simp only
    split_ifs
    · exact False.elim
    · exact fun _ => hne
    · exact fun _ => mt Headers.pushValue_eq_nil.mp hne
  | filePath | bodyState => exact fun hin => hin.elim
  | _ =>
    simp only
    split_ifs <;> exact fun hin => hin.elim

theorem headerBegun_of_mem_steps {s : Bytes} {step : Request × UInt8}
    (hmem : step ∈ steps new s) : step.1.HeaderBegun := by
  have hnew : new.HeaderBegun := fun hin => hin.elim
  exact steps_induction (P := HeaderBegun) (fun _ _ _ h hadvance => h.advance hadvance) hnew hmem

/-! ### The call that completes the request -/

/-- The call answers `good` and is not one in the body. -/
def Completes (step : Request × UInt8) : Prop :=
  step.1.state ≠ .bodyState ∧ (step.1.consume step.2).1 = .good

instance : DecidablePred Completes := fun _ => inferInstanceAs (Decidable (_ ∧ _))

/-- Outside the body only the line feed behind the blank line is answered so. -/
theorem Completes.eq {step : Request × UInt8} (h : Completes step) :
    step.1.state = .expectingNewline3 ∧ step.2 = ascii '\n' := by
  obtain ⟨hbody, hgood⟩ := h
  rw [consume] at hgood
  cases hs : step.1.state with
  | bodyState => exact absurd hs hbody
  | expectingNewline3 =>
    simp only [hs] at hgood
    split_ifs at hgood with hc
    exact ⟨rfl, hc⟩
  | filePath => simp [hs] at hgood
  | _ =>
    simp only [hs] at hgood
    split_ifs at hgood

/-- In the body every call finds the parser in the body. -/
theorem not_completes_of_bodyState {r : Request} {s : Bytes} (hr : r.state = .bodyState) :
    ∀ step ∈ steps r s, ¬Completes step := by
  have hstep : ∀ (r : Request) (c : UInt8) (r' : Request), r.state = .bodyState →
      r.advance c = some r' → r'.state = .bodyState := by
    intro r c r' hr hadvance
    obtain ⟨-, rfl⟩ := advance_eq_some.mp hadvance
    simp only
    rw [consume, hr]
  intro step hmem hcompletes
  exact hcompletes.1 (steps_induction hstep hr hmem)

/-- A request is completed at most once. -/
theorem countP_completes_le (r : Request) (s : Bytes) :
    (steps r s).countP Completes ≤ 1 := by
  induction s generalizing r with
  | nil => exact Nat.zero_le 1
  | cons c s ih =>
    rw [steps, List.countP_cons]
    by_cases hbad : (r.consume c).1 = .bad
    · rw [if_pos hbad, List.countP_nil]
      split_ifs <;> omega
    · rw [if_neg hbad]
      by_cases hcompletes : Completes (r, c)
      · -- the parser is in the body from here on
        have hbody : (after (r, c)).state = .bodyState := consume_eq_good_iff.mp hcompletes.2
        have hnone : (steps (after (r, c)) s).countP Completes = 0 :=
          List.countP_eq_zero.mpr fun step hmem =>
            by simpa using not_completes_of_bodyState hbody step hmem
        rw [hnone]
        split_ifs <;> omega
      · have hrest := ih (after (r, c))
        simpa [hcompletes] using hrest

/-! ### All calls -/

theorem state_ne_filePath_of_mem_steps {s : Bytes} {step : Request × UInt8}
    (hmem : step ∈ steps new s) : step.1.state ≠ .filePath :=
  steps_induction (P := fun r => r.state ≠ .filePath)
    (fun _ _ _ h hadvance => state_ne_filePath_of_advance h hadvance) (by simp [new]) hmem

/-- **Every call of `consume` is safe**: in the states that use the last header
there is one, the state without a case is not reached, and outside the body
`good` is answered once at most, to the line feed behind the blank line. -/
theorem steps_safe (s : Bytes) :
    (∀ step ∈ steps new s,
      (step.1.state ∈ [.headerLws, .headerName, .headerValue] → step.1.headers ≠ []) ∧
      step.1.state ≠ .filePath ∧
      (step.1.state ≠ .bodyState → (step.1.consume step.2).1 = .good →
        step.1.state = .expectingNewline3 ∧ step.2 = ascii '\n')) ∧
    (steps new s).countP Completes ≤ 1 := by
  refine ⟨fun step hmem => ⟨fun hin => ?_, state_ne_filePath_of_mem_steps hmem,
    fun hbody hgood => Completes.eq ⟨hbody, hgood⟩⟩, countP_completes_le new s⟩
  have hbegun := headerBegun_of_mem_steps hmem
  simp only [List.mem_cons, List.not_mem_nil, or_false] at hin
  rcases hin with hs | hs | hs
  · exact hbegun (hs ▸ trivial)
  · exact hbegun (hs ▸ trivial)
  · exact hbegun (hs ▸ trivial)

end Request
