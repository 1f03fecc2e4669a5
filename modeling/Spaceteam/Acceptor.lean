/-
Accepting connections (`server.h`, `server.cc`).

The constructor of the server asks for one asynchronous accept, and the
completion handler for the next one.  An accept is given the connection it is
asked for with, so an outstanding accept is that connection, numbered in the
order of creation.  Which accepts complete, and how, is up to the network: a
run is any sequence of completions of outstanding accepts.

* `Server.Accepts.shape` — what any run has come to;
* `Server.accepting_iff` — one accept is outstanding after every completion
  exactly when none of them has failed.
-/
import Mathlib.Data.List.Range

/-- The value of a `boost::system::error_code`, 0 when there is no error. -/
abbrev ErrorCode := Int32

namespace Server

/-- The connections created, how many, those an accept is outstanding for, and
those that have been started. -/
structure Acceptor where
  created : ℕ
  outstanding : List ℕ
  started : List ℕ
  deriving DecidableEq, Repr

namespace Acceptor

/-- `start_accept`: a new connection and an accept for it. -/
def startAccept (acceptor : Acceptor) : Acceptor :=
  { acceptor with
    created := acceptor.created + 1
    outstanding := acceptor.outstanding ++ [acceptor.created] }

/-- `handle_accept`. -/
def handleAccept (acceptor : Acceptor) (newConnection : ℕ) (error : ErrorCode) :
    Bool × Acceptor :=
  if error ≠ 0 then (false, acceptor)
  else (true, startAccept { acceptor with started := acceptor.started ++ [newConnection] })

/-- The end of the constructor. -/
def listening : Acceptor := startAccept { created := 0, outstanding := [], started := [] }

/-- The accept for a connection completes and its handler is called. -/
def complete (acceptor : Acceptor) (newConnection : ℕ) (error : ErrorCode) : Acceptor :=
  (handleAccept { acceptor with outstanding := acceptor.outstanding.erase newConnection }
    newConnection error).2

end Acceptor

/-- The runs of the server: the codes of the completions, each with the state
after it, and the state in the end. -/
inductive Accepts : List (ErrorCode × Acceptor) → Acceptor → Prop
  | listening : Accepts [] .listening
  | complete {history : List (ErrorCode × Acceptor)} {acceptor : Acceptor} {newConnection : ℕ}
    (hrun : Accepts history acceptor) (hmem : newConnection ∈ acceptor.outstanding)
    (error : ErrorCode) :
    Accepts (history ++ [(error, acceptor.complete newConnection error)])
      (acceptor.complete newConnection error)

/-- After `n` successful completions the accept for the next connection is outstanding. -/
def accepting (n : ℕ) : Acceptor :=
  { created := n + 1, outstanding := [n], started := List.range n }

/-- Once an accept has failed none is. -/
def stopped (n : ℕ) : Acceptor :=
  { created := n + 1, outstanding := [], started := List.range n }

theorem complete_accepting (n : ℕ) : (accepting n).complete n 0 = accepting (n + 1) := by
  simp [Acceptor.complete, Acceptor.handleAccept, Acceptor.startAccept, accepting,
    List.range_succ]

theorem complete_accepting_of_error {error : ErrorCode} (herror : error ≠ 0) (n : ℕ) :
    (accepting n).complete n error = stopped n := by
  simp [Acceptor.complete, Acceptor.handleAccept, herror, accepting, stopped]

/-- **A run accepts until an accept fails**, and then it is over. -/
theorem Accepts.shape {history : List (ErrorCode × Acceptor)} {acceptor : Acceptor}
    (h : Accepts history acceptor) :
    (acceptor = accepting history.length ∧
      ∀ p ∈ history, p.1 = 0 ∧ p.2.outstanding.length = 1) ∨
    ∃ init error, history = init ++ [(error, acceptor)] ∧ error ≠ 0 ∧
      acceptor = stopped init.length ∧ ∀ p ∈ init, p.1 = 0 ∧ p.2.outstanding.length = 1 := by
  induction h with
  | listening => exact .inl ⟨rfl, by simp⟩
  | @complete history acceptor newConnection hrun hmem error ih =>
    rcases ih with ⟨rfl, hall⟩ | ⟨init, error', -, -, rfl, -⟩
    · obtain rfl : newConnection = history.length := List.mem_singleton.mp hmem
      by_cases herror : error = 0
      · left
        subst herror
        rw [complete_accepting]
        refine ⟨by simp, fun p hp => ?_⟩
        rcases List.mem_append.mp hp with hp | hp
        · exact hall p hp
        · obtain rfl := List.mem_singleton.mp hp
          exact ⟨rfl, rfl⟩
      · right
        rw [complete_accepting_of_error herror]
        exact ⟨history, error, rfl, herror, rfl, hall⟩
    · -- no accept is outstanding that could complete
      exact absurd hmem (List.not_mem_nil)

/-- **When the server goes on accepting**: after every completion exactly one
accept is outstanding, if and only if none has failed; and the successful
completions have started the connections created, one each. -/
theorem accepting_iff {history : List (ErrorCode × Acceptor)} {acceptor : Acceptor}
    (h : Accepts history acceptor) :
    ((∀ p ∈ history, p.2.outstanding.length = 1) ↔ ∀ p ∈ history, p.1 = 0) ∧
      acceptor.started = List.range (history.countP fun p => p.1 = 0) := by
  rcases h.shape with ⟨hacceptor, hall⟩ | ⟨init, error, rfl, herror, hacceptor, hall⟩
  · have hcount : history.countP (fun p => p.1 = 0) = history.length :=
      List.countP_eq_length.mpr fun p hp => decide_eq_true (hall p hp).1
    refine ⟨iff_of_true (fun p hp => (hall p hp).2) (fun p hp => (hall p hp).1), ?_⟩
    rw [hcount, hacceptor, accepting]
  · have hlast : (error, acceptor) ∈ init ++ [(error, acceptor)] := by simp
    have hcount : init.countP (fun p => p.1 = 0) = init.length :=
      List.countP_eq_length.mpr fun p hp => decide_eq_true (hall p hp).1
    constructor
    · constructor
      · intro hone
        have hnone := hone _ hlast
        simp [hacceptor, stopped] at hnone
      · intro hzero
        exact absurd (hzero _ hlast) herror
    · rw [List.countP_append, hcount, List.countP_singleton, hacceptor]
      simp [herror, stopped]

/-- Two clients connect, and then an accept fails with `EMFILE`. -/
def twoConnect : List (ErrorCode × Acceptor) :=
  [(0, accepting 1), (0, accepting 2), (24, stopped 2)]

theorem accepts_twoConnect : Accepts twoConnect (stopped 2) := by
  have hfirst : Accepts [(0, accepting 1)] (accepting 1) :=
    .complete .listening (List.mem_singleton.mpr rfl) 0
  have hsecond : Accepts [(0, accepting 1), (0, accepting 2)] (accepting 2) :=
    .complete hfirst (List.mem_singleton.mpr rfl) 0
  exact .complete hsecond (List.mem_singleton.mpr rfl) 24

theorem accepting_iff_twoConnect :
    ((∀ p ∈ twoConnect, p.2.outstanding.length = 1) ↔ ∀ p ∈ twoConnect, p.1 = 0) ∧
      (stopped 2).started = List.range (twoConnect.countP fun p => p.1 = 0) :=
  accepting_iff accepts_twoConnect

/-- The first accept fails with `ECONNABORTED`, and no other is asked for. -/
theorem not_accepting_aborted :
    Accepts [(103, stopped 0)] (stopped 0) ∧
      ¬∀ p ∈ [((103 : ErrorCode), stopped 0)], p.2.outstanding.length = 1 := by
  refine ⟨.complete .listening (List.mem_singleton.mpr rfl) 103, fun h => ?_⟩
  exact absurd (h _ (List.mem_singleton.mpr rfl)) (by decide)

end Server
