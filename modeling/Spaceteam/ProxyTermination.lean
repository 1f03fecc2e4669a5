/-
How long a proxy follows redirections.

Every host answers with a complete response, always the same one.  What the
loop goes through is then a walk over the hosts: a redirection leads from a
host to the one its locations name (`MovesTo`), to itself when there is none.

* `ProxyHandler.returns_iff` — the call returns exactly when the walk comes to
  a host whose response is not a redirection;
* `ProxyHandler.not_returns_of_cycle` — so it never does when it comes to a
  host a second time.
-/
import Mathlib.Logic.Relation
import Spaceteam.ProxyRedirects

open RequestHandler

namespace ProxyHandler

/-! ### Walks that end -/

section Walk

variable {α : Type*} {R : α → α → Prop}

/-- A walk that ends does not come back to where it began. -/
theorem not_cycle_of_ends (hR : Relator.RightUnique R) {a last : α}
    (hwalk : Relation.ReflTransGen R a last) (hlast : ∀ b, ¬R last b) :
    ¬Relation.TransGen R a a := by
  induction hwalk using Relation.ReflTransGen.head_induction_on with
  | refl =>
    intro hcycle
    obtain ⟨next, hnext, -⟩ := Relation.TransGen.head'_iff.mp hcycle
    exact hlast next hnext
  | @head a next hstep _ ih =>
    -- the cycle goes through the next place too
    intro hcycle
    obtain ⟨next', hnext, hrest⟩ := Relation.TransGen.head'_iff.mp hcycle
    obtain rfl := hR hstep hnext
    exact ih (Relation.TransGen.tail' hrest hstep)

/-- Nor to any place it has come to. -/
theorem not_cycle_of_walk (hR : Relator.RightUnique R) {a b last : α}
    (hwalk : Relation.ReflTransGen R a b) (hends : Relation.ReflTransGen R a last)
    (hlast : ∀ c, ¬R last c) : ¬Relation.TransGen R b b := by
  rcases Relation.ReflTransGen.total_of_right_unique hR hwalk hends with hbehind | hbefore
  · exact not_cycle_of_ends hR hbehind hlast
  · -- nothing comes behind the last place
    rcases Relation.ReflTransGen.cases_head hbefore with rfl | ⟨next, hnext, -⟩
    · exact not_cycle_of_ends hR .refl hlast
    · exact absurd hnext (hlast next)

end Walk

/-! ### The walk of a call -/

section Moves

variable (answer : Bytes → UpstreamResponse)

/-- The blank line of the response is found behind its status line. -/
def HasBlankLine (m : UpstreamResponse) : Prop := Bytes.crlf ++ Bytes.crlf <:+: m.block ++ m.body

/-- The response of a host sends the call on to another, or to itself. -/
def MovesTo (host host' : Bytes) : Prop :=
  IStream.decimalValue (answer host).code = 302 ∧ HasBlankLine (answer host) ∧
    located (answer host).statusCode host ((answer host).lines.map lineField) = some host'

/-- The response of a host is the last one. -/
def AnswersFinally (host : Bytes) : Prop :=
  IStream.decimalValue (answer host).code ≠ 302 ∧ HasBlankLine (answer host)

variable {answer}

theorem movesTo_rightUnique : Relator.RightUnique (MovesTo answer) :=
  fun _ _ _ ha hb => Option.some_inj.mp (ha.2.2.symm.trans hb.2.2)

theorem AnswersFinally.not_movesTo {host : Bytes} (h : AnswersFinally answer host) (next : Bytes) :
    ¬MovesTo answer host next := fun hmoves => h.1 hmoves.1

end Moves

section Termination

variable {answer : Bytes → UpstreamResponse} {reply : Bytes → Reply} {request : Request}
  {handler : ProxyHandler} {response : Response}

/-- Every host answers, whatever it is asked and however often. -/
def answeredBy (reply : Bytes → Reply) : Upstream := fun _ host _ => some (reply host)

/-- A pass takes the walk one host further, or ends the call. -/
theorem exchange_answers (hreply : ∀ host, Delivers (answer host) (reply host))
    (h : ProxyHandler) (r : Response) :
    (∃ host r', MovesTo answer h.host host ∧
      exchange (reply h.host) h r = .again { h with host := host } r') ∨
    (AnswersFinally answer h.host ∧
      ∃ r', exchange (reply h.host) h r = .returned .ok h r') ∨
    ∃ h', exchange (reply h.host) h r = .threw h' := by
  by_cases hcode : IStream.decimalValue (answer h.host).code = 302
  · rcases exchange_delivers (hreply h.host) h r with
      ⟨-, hthrew⟩ | ⟨-, h', hthrew⟩ | ⟨host, r', hblank, hlocated, hpass, -⟩
    · exact .inr (.inr ⟨h, hthrew⟩)
    · exact .inr (.inr ⟨h', hthrew⟩)
    · rw [pass, if_pos hcode] at hpass
      exact .inl ⟨host, r', ⟨hcode, hblank, hlocated⟩, hpass⟩
  · rcases exchange_cases (hreply h.host) hcode h r with
      ⟨-, hthrew⟩ | ⟨r', hblank, hreturned, -⟩
    · exact .inr (.inr ⟨h, hthrew⟩)
    · exact .inr (.inl ⟨⟨hcode, hblank⟩, r', hreturned⟩)

/-- The host of every pass is on the walk. -/
theorem walk_of_reaches (hreply : ∀ host, Delivers (answer host) (reply host)) {n : ℕ}
    {h : ProxyHandler} {r : Response}
    (hreach : Reaches (answeredBy reply) request handler response n h r) :
    Relation.ReflTransGen (MovesTo answer) handler.host h.host := by
  induction hreach with
  | start => exact .refl
  | @again n h h' r r' reply' hreach hsome hexchange ih =>
    obtain rfl := Option.some_inj.mp hsome
    rcases exchange_answers hreply h r with
      ⟨host, r'', hmoves, hagain⟩ | ⟨-, r'', hreturned⟩ | ⟨h'', hthrew⟩
    · rw [hexchange] at hagain
      cases hagain
      exact ih.tail hmoves
    · rw [hexchange] at hreturned
      cases hreturned
    · rw [hexchange] at hthrew
      cases hthrew

/-- What is on the walk is reached, unless the call ends before. -/
theorem reaches_of_walk (hreply : ∀ host, Delivers (answer host) (reply host))
    (request : Request) (response : Response) {host : Bytes}
    (hwalk : Relation.ReflTransGen (MovesTo answer) handler.host host) :
    ∃ n h r, Reaches (answeredBy reply) request handler response n h r ∧ h.host = host := by
  induction hwalk with
  | refl => exact ⟨0, handler, response, .start, rfl⟩
  | @tail host host' hwalk hmoves ih =>
    obtain ⟨n, h, r, hreach, rfl⟩ := ih
    obtain ⟨r', hagain⟩ := exists_again (r := r) (hreply h.host) hmoves.1 hmoves.2.1 hmoves.2.2
    exact ⟨n + 1, _, r', .again hreach rfl hagain, rfl⟩

/-- A call that returns has come to a host whose response is the last one. -/
theorem exists_final_of_returned (hreply : ∀ host, Delivers (answer host) (reply host))
    (hreturns : Returns (answeredBy reply) request handler response) :
    ∃ host, Relation.ReflTransGen (MovesTo answer) handler.host host ∧
      AnswersFinally answer host := by
  obtain ⟨n, h, r, reply', status, h', r', hreach, hsome, hexchange⟩ :=
    returns_iff_exists_pass.mp hreturns
  obtain rfl := Option.some_inj.mp hsome
  refine ⟨h.host, walk_of_reaches hreply hreach, ?_⟩
  rcases exchange_answers hreply h r with
    ⟨host, r'', -, hagain⟩ | ⟨hfinal, -⟩ | ⟨h'', hthrew⟩
  · rw [hexchange] at hagain
    cases hagain
  · exact hfinal
  · rw [hexchange] at hthrew
    cases hthrew

/-- **When a call returns**: its redirections lead from the configured host to
one whose response is not a redirection. -/
theorem returns_iff (hreply : ∀ host, Delivers (answer host) (reply host)) :
    Returns (answeredBy reply) request handler response ↔
      ∃ host, Relation.ReflTransGen (MovesTo answer) handler.host host ∧
        AnswersFinally answer host := by
  constructor
  · exact exists_final_of_returned hreply
  · rintro ⟨host, hwalk, hfinal⟩
    obtain ⟨n, h, r, hreach, rfl⟩ := reaches_of_walk hreply request response hwalk
    rcases exchange_cases (hreply h.host) hfinal.1 h r with ⟨hno, -⟩ | ⟨r', -, hreturned, -⟩
    · exact absurd hfinal.2 hno
    · exact returns_iff_exists_pass.mpr ⟨n, h, r, _, _, _, r', hreach, rfl, hreturned⟩

/-- **Coming back to a host is never returning.** -/
theorem not_returns_of_cycle (hreply : ∀ host, Delivers (answer host) (reply host))
    {host : Bytes} (hwalk : Relation.ReflTransGen (MovesTo answer) handler.host host)
    (hcycle : Relation.TransGen (MovesTo answer) host host) :
    ¬Returns (answeredBy reply) request handler response := by
  intro hreturns
  obtain ⟨last, hends, hfinal⟩ := exists_final_of_returned hreply hreturns
  exact not_cycle_of_walk movesTo_rightUnique hwalk hends hfinal.not_movesTo hcycle

end Termination

/-- Every host answers with `greeting`. -/
theorem returns_iff_greeting :
    Returns (answeredBy fun _ => ⟨[greeting.render], .eof⟩) getA proxy (.fresh .ok) ↔
      ∃ host, Relation.ReflTransGen (MovesTo fun _ => greeting) proxy.host host ∧
        AnswersFinally (fun _ => greeting) host :=
  returns_iff fun _ => ⟨List.flatten_singleton, rfl⟩

/-- A redirection that does not say where to. -/
def movedNowhere : UpstreamResponse :=
  { movedBare with
    lines := greeting.lines
    body := greeting.body
    lines_line := greeting.lines_line }

/-- The same host is asked for ever. -/
theorem not_returns_movedNowhere :
    Delivers movedNowhere ⟨[movedNowhere.render], .eof⟩ ∧
      ¬Returns (answeredBy fun _ => ⟨[movedNowhere.render], .eof⟩) getA proxy (.fresh .ok) := by
  have hdelivers : Delivers movedNowhere ⟨[movedNowhere.render], .eof⟩ :=
    ⟨List.flatten_singleton, rfl⟩
  have hreply : ∀ host : Bytes, Delivers ((fun _ => movedNowhere) host)
      ((fun _ => ⟨[movedNowhere.render], .eof⟩) host) := fun _ => hdelivers
  refine ⟨hdelivers, fun hreturns => ?_⟩
  obtain ⟨host, -, hcode, -⟩ := exists_final_of_returned hreply hreturns
  have h302 : IStream.decimalValue movedNowhere.code = 302 := by decide
  exact hcode h302

end ProxyHandler
