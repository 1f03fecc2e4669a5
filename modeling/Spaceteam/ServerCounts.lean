/-
What the running server counts.

Every response handed to `do_write` is counted by the thread that has handed it
over, with the accesses of other threads in between.  The stores that a thread
has still to make for its responses are known from where it is in its call, so
that the counters can be compared with the responses at any time.

* `Server.counts_of_runs` — in every run a counter stays within the number of
  responses, and is not zero once one of them has been counted;
* `Server.counts_of_exclusive` — it is that number if no thread stores what
  another is about to store.
-/
import Spaceteam.ServerRuns

open RequestHandler Interleaving ServerStatus
open scoped UInt32.CommRing

namespace Server

variable {H : Type*}

/-- The call of `UpdateStatus` for a response. -/
def Answer.call (answer : Answer) : StatusCall :=
  (answer.request.uri, answer.response.getResponseCode)

/-- The stores to a cell that the responses call for. -/
def Shared.due (s : Shared H) : Cell → ℕ
  | .entry uri code => (s.answers.map fun answer => key answer.call).count (uri, code)
  | .total => s.answers.length

namespace Task

/-- The cell a thread is about to store to, with what it has found there. -/
def holds : Task → Option (Cell × UInt32)
  | .updateStatus w => w.held
  | _ => none

/-- The stores to a cell that a thread has still to make. -/
def remaining : Task → Cell → ℕ
  | .updateStatus w => w.remaining
  | _ => fun _ => 0

end Task

variable {handleRequest : HandleRequest H} {garbage : ResponseCode} {s s' : Shared H} {t t' : Task}
  {a : Label}

theorem due_step (h : Step handleRequest garbage s a t s' t') (k : Cell) :
    s.due k ≤ s'.due k := by
  cases h with
  | writes c request response =>
    cases k with
    | entry uri code => simp [Shared.due, Shared.doWrite, Shared.ask]
    | total => simp [Shared.due, Shared.doWrite, Shared.ask]
  | _ => exact le_rfl

/-- A thread that has made its last store is idle. -/
theorem holds_accesses (w : Worker) :
    (if w.calls = [] then Task.idle else .updateStatus w).holds = w.held ∧
      (if w.calls = [] then Task.idle else .updateStatus w).remaining = w.remaining := by
  split_ifs with hcalls
  · obtain ⟨state, calls⟩ := w
    obtain rfl : calls = [] := hcalls
    refine ⟨by cases state <;> rfl, ?_⟩
    funext k
    exact (remaining_of_calls_eq_nil rfl k).symm
  · exact ⟨rfl, rfl⟩

theorem remaining_writes (c : ℕ) (request : Request) (response : Response) (k : Cell) :
    (Worker.remaining ⟨.testUri, [(request.uri, response.getResponseCode)]⟩ k) + s.due k =
      (s.doWrite c request response).due k := by
  cases k with
  | entry uri code =>
    simp [Worker.remaining, Worker.uncounted, Shared.due, Shared.doWrite, Shared.ask, Answer.call,
      List.count_append]
    omega
  | total =>
    simp [Worker.remaining, Shared.due, Shared.doWrite, Shared.ask]
    omega

/-- **What a step does to the counters**: it reads a cell, stores one more than
was read, or calls for the stores of a response. -/
theorem counting_step (h : Step handleRequest garbage s a t s' t') :
    (readCell s'.serverStatus = readCell s.serverStatus ∧
      (∀ k n, t'.holds = some (k, n) → readCell s.serverStatus k = n) ∧
      ∀ k, t'.remaining k + s.due k = t.remaining k + s'.due k) ∨
    ∃ k n, t.holds = some (k, n) ∧ t'.holds = none ∧
      readCell s'.serverStatus = Function.update (readCell s.serverStatus) k (n + 1) ∧
      s'.due = s.due ∧
      t.remaining = Function.update t'.remaining k (t'.remaining k + 1) := by
  cases h with
  | @accesses w w' status haccess =>
    obtain ⟨hholds, hremaining⟩ := holds_accesses w'
    rw [hholds, hremaining]
    rcases access_cases haccess with ⟨rfl, hread, hsame⟩ | ⟨k, n, hheld, hnone, hread, hstore⟩
    · exact .inl ⟨rfl, hread, fun k => by rw [hsame]; rfl⟩
    · exact .inr ⟨k, n, hheld, hnone, hread, rfl, hstore⟩
  | writes c request response =>
    refine .inl ⟨rfl, ?_, fun k => ?_⟩
    · rintro k n ⟨⟩
    · rw [← remaining_writes c request response k]
      simp [Task.remaining]
  | _ => exact .inl ⟨rfl, by simp [Task.holds], fun _ => rfl⟩

/-- The threads of the server count in the cells of the table. -/
def counting (handleRequest : HandleRequest H) (garbage : ResponseCode) :
    Counting (move handleRequest garbage) Cell UInt32 where
  read s := readCell s.serverStatus
  due := Shared.due
  held := Task.holds
  remaining := Task.remaining
  due_mono hmove := due_step (step_of_move hmove).2
  step_cases hmove := counting_step (step_of_move hmove).2

/-! ### Runs -/

variable {ι : Type*} [DecidableEq ι] [Fintype ι] {pathToHandler : HandlerMap H}
  {handlerNameToPrefixes : Std.ExtTreeMap Bytes (List Bytes)} {steps : List (ι × Label)}
  {q : Pool ι (Shared H) Task}

omit [DecidableEq ι] [Fintype ι] in
theorem fresh_listen : (counting handleRequest garbage).Fresh
    (listen (ι := ι) pathToHandler handlerNameToPrefixes) where
  read k := by
    have hnew := readCell_new k
    cases k <;> exact hnew
  due k := by cases k <;> rfl
  held _ := rfl
  remaining _ _ := rfl

theorem toNat_add_one (n : UInt32) (h : n.toNat + 1 < 2 ^ 32) : (n + 1).toNat = n.toNat + 1 := by
  rw [UInt32.toNat_add]
  exact Nat.mod_eq_of_lt h

/-- **No response is counted twice**, and those that are counted are not lost
together: in every run, whatever the interleaving, a counter is at most the
number of responses whose store has been made, and not zero if there is one. -/
theorem counts_of_runs
    (h : Runs handleRequest garbage (listen pathToHandler handlerNameToPrefixes) steps q) (k : Cell)
    (hdue : q.shared.due k < 2 ^ 32) :
    (readCell q.shared.serverStatus k).toNat + ∑ i, (q.threads i).remaining k ≤ q.shared.due k ∧
      (∑ i, (q.threads i).remaining k < q.shared.due k →
        0 < (readCell q.shared.serverStatus k).toNat) := by
  have hbounded := (counting handleRequest garbage).bounded_of_history toNat_add_one h
    (fresh_listen.bounded _ UInt32.toNat_zero k) hdue
  exact ⟨hbounded.read, hbounded.pos⟩

/-- The cell both clients are counted in. -/
def sharedCell : Cell := .entry (bytes "/a") 200

theorem counts_of_runs_two_clients :
    ∃ q : Pool (Fin numOfThreads) (Shared EchoHandler) Task, q.shared.due sharedCell = 2 ∧
      (readCell q.shared.serverStatus sharedCell).toNat +
          ∑ i, (q.threads i).remaining sharedCell ≤ q.shared.due sharedCell ∧
        (∑ i, (q.threads i).remaining sharedCell < q.shared.due sharedCell →
          0 < (readCell q.shared.serverStatus sharedCell).toNat) := by
  have hvalues : (runScript (move EchoHandler.handleRequest .ok) (fun _ _ => True) echoServer
      (twoClients firstData secondData)).map (fun q => q.shared.due sharedCell) = some 2 := by
    decide +kernel
  obtain ⟨q, hruns, hvalue⟩ := exists_history_of_runScript hvalues
  exact ⟨q, hvalue, counts_of_runs hruns sharedCell (by rw [hvalue]; decide)⟩

/-- **Every response is counted once** when no thread has any left to count,
in a run in which a thread stores to a counter only while no other is between
its own read of it and its store. -/
theorem counts_of_exclusive
    (h : History (move handleRequest garbage) (counting handleRequest garbage).Exclusive
      (listen pathToHandler handlerNameToPrefixes) steps q) (k : Cell)
    (hdone : ∀ i, (q.threads i).remaining k = 0) :
    (readCell q.shared.serverStatus k).toNat = q.shared.due k % 2 ^ 32 := by
  have hfresh : (counting handleRequest garbage).Fresh
      (listen (ι := ι) pathToHandler handlerNameToPrefixes) := fresh_listen
  have hread := (counting handleRequest garbage).read_of_history h
    ((counting handleRequest garbage).coherent_of_held_eq_none hfresh.held) (hfresh.due k) hdone
  have hremaining : ∑ i, (counting handleRequest garbage).remaining
      ((listen (ι := ι) pathToHandler handlerNameToPrefixes).threads i) k = 0 :=
    Finset.sum_eq_zero fun i _ => hfresh.remaining i k
  rw [hfresh.read k, hremaining, Nat.cast_zero, zero_add, zero_add] at hread
  show ((counting handleRequest garbage).read q.shared k).toNat = _
  rw [hread]
  rfl

theorem counts_of_exclusive_two_clients :
    ∃ q : Pool (Fin numOfThreads) (Shared EchoHandler) Task, q.shared.due sharedCell = 2 ∧
      (readCell q.shared.serverStatus sharedCell).toNat = q.shared.due sharedCell % 2 ^ 32 := by
  -- both threads hold cells, one after the other
  have hvalues : (runScript (move EchoHandler.handleRequest .ok)
      (counting EchoHandler.handleRequest .ok).Exclusive echoServer
      (twoClients firstData secondData)).map (fun q =>
        (q.shared.due sharedCell, decide (∀ i, (q.threads i).remaining sharedCell = 0))) =
          some (2, true) := by decide +kernel
  obtain ⟨q, hhistory, hvalue⟩ := exists_history_of_runScript hvalues
  simp only [Prod.mk.injEq, decide_eq_true_eq] at hvalue
  exact ⟨q, hvalue.1, counts_of_exclusive hhistory sharedCell hvalue.2⟩

end Server
