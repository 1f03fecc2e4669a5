/-
What the worker threads do together, whatever the order of their steps.

A connection is handed on: from the accept it was created with to the thread
that starts it, from there to a read, to the thread that serves it, to a write
and to the thread that ends it.  Each of these places is counted, and so are
the completions that the network has reported; every step of every thread keeps
the books.

* `Server.accounted_of_runs` — the books of a connection;
* `Server.owned_of_runs` — at most one operation or thread is concerned with a
  connection, and it is answered at most once;
* `Server.accepting_of_runs` — one accept is outstanding or about to be asked
  for, until one has failed;
* `Server.drained_of_runs` — the threads run out of work only after an accept
  has failed, and then every connection that was heard has been answered.
-/
import Spaceteam.BasicHandlers
import Spaceteam.ServerLoop

open RequestHandler Interleaving

namespace Server

variable {H : Type*}

/-! ### Where a connection can be -/

/-- How many operations of a kind are outstanding. -/
def Shared.pending (s : Shared H) (kind : Operation × ℕ → Bool) : ℕ := s.outstanding.countP kind

/-- How many responses have been handed to `do_write` for a connection. -/
def Shared.answered (s : Shared H) (c : ℕ) : ℕ := s.answers.countP (·.connection = c)

namespace Task

/-- The thread has accepted the connection and will ask for its read. -/
def starts (c : ℕ) : Task → ℕ
  | .handleAccept d error => if d = c ∧ error = 0 then 1 else 0
  | _ => 0

/-- The thread has received data of the connection and has not answered yet. -/
def serves (c : ℕ) : Task → ℕ
  | .handleRead d error _ => if d = c ∧ error = 0 then 1 else 0
  | .doWrite d _ _ | .held d | .threw d => if d = c then 1 else 0
  | _ => 0

/-- The thread works for the connection. -/
def concerns (c : ℕ) : Task → ℕ
  | .handleAccept d _ | .handleRead d _ _ | .doWrite d _ _ | .handleWrite d _ | .held d
  | .threw d => if d = c then 1 else 0
  | .idle | .startAccept | .updateStatus _ => 0

/-- The thread will create a connection. -/
def creates : Task → ℕ
  | .startAccept => 1
  | _ => 0

/-- The thread will answer the connection. -/
def answers (c : ℕ) : Task → ℕ
  | .doWrite d _ _ => if d = c then 1 else 0
  | _ => 0

/-- The thread will ask for the next accept. -/
def continues : Task → ℕ
  | .handleAccept _ error => if error = 0 then 1 else 0
  | .startAccept => 1
  | _ => 0

end Task

namespace Label

/-- The accept of the connection has completed. -/
def accepts (c : ℕ) : Label → ℕ
  | .accepted d _ => if d = c then 1 else 0
  | _ => 0

/-- A client has connected. -/
def connects (c : ℕ) : Label → ℕ
  | .accepted d error => if d = c ∧ error = 0 then 1 else 0
  | _ => 0

/-- An accept has failed. -/
def fails : Label → ℕ
  | .accepted _ error => if error = 0 then 0 else 1
  | _ => 0

/-- The read of the connection has completed. -/
def reads (c : ℕ) : Label → ℕ
  | .received d _ _ => if d = c then 1 else 0
  | _ => 0

/-- The client has been heard. -/
def hears (c : ℕ) : Label → ℕ
  | .received d error _ => if d = c ∧ error = 0 then 1 else 0
  | _ => 0

/-- The write of the connection has completed. -/
def sends (c : ℕ) : Label → ℕ
  | .sent d _ => if d = c then 1 else 0
  | _ => 0

end Label

/-! ### What a step asks for -/

/-- The operation whose completion a step reports. -/
def Label.completes : Label → List (Operation × ℕ)
  | .accepted c _ => [(.accept, c)]
  | .received c _ _ => [(.read, c)]
  | .sent c _ => [(.write, c)]
  | .proceeds => []

/-- The operation a thread asks for in its next step, when `created`
connections have been created. -/
def Task.asks (created : ℕ) : Task → List (Operation × ℕ)
  | .handleAccept c error => if error = 0 then [(.read, c)] else []
  | .startAccept => [(.accept, created)]
  | .doWrite c _ _ => [(.write, c)]
  | _ => []

variable {handleRequest : HandleRequest H} {garbage : ResponseCode} {s s' : Shared H} {t t' : Task}
  {a : Label}

theorem pending_erase {operation : Operation} {c : ℕ} (h : (operation, c) ∈ s.outstanding)
    (kind : Operation × ℕ → Bool) :
    ({ s with outstanding := s.outstanding.erase (operation, c) } : Shared H).pending kind +
      [(operation, c)].countP kind = s.pending kind := by
  rw [Shared.pending, Shared.pending, (List.perm_cons_erase h).countP_eq, List.countP_singleton,
    List.countP_cons]

theorem pending_ask (operation : Operation) (c : ℕ) (kind : Operation × ℕ → Bool) :
    (s.ask operation c).pending kind = s.pending kind + [(operation, c)].countP kind :=
  List.countP_append

/-- **What a step does to the operations outstanding.** -/
theorem pending_step (h : Step handleRequest garbage s a t s' t') (kind : Operation × ℕ → Bool) :
    s'.pending kind + a.completes.countP kind =
      s.pending kind + (t.asks s.created).countP kind := by
  cases h with
  | accepted error hmem | received error hfits hmem | sent error hmem =>
    exact pending_erase hmem kind
  | started c => exact pending_ask .read c kind
  | startsAccept => exact pending_ask .accept s.created kind
  | writes c request response => exact pending_ask .write c kind
  | acceptFailed c herror => simp [Label.completes, Task.asks, herror]
  | _ => rfl

theorem created_step (h : Step handleRequest garbage s a t s' t') :
    s'.created = s.created + t.creates := by
  cases h <;> rfl

theorem answered_step (h : Step handleRequest garbage s a t s' t') (c : ℕ) :
    s'.answered c = s.answered c + t.answers c := by
  cases h with
  | writes d request response =>
    simp [Shared.answered, Shared.doWrite, Shared.ask, Task.answers, List.countP_append,
      List.countP_singleton]
  | _ => rfl

/-! ### The books, step by step -/

theorem accept_step (c : ℕ) (h : Step handleRequest garbage s a t s' t') :
    s'.pending (· = (.accept, c)) + a.accepts c + (if c < s.created then 1 else 0) =
      s.pending (· = (.accept, c)) + (if c < s'.created then 1 else 0) := by
  have hpending := pending_step h (· = (.accept, c))
  rw [created_step h]
  generalize s'.pending _ = n at hpending ⊢
  cases h <;> simp_all [Label.completes, Task.asks, Label.accepts, Task.creates]
  -- the connection created is the next one
  grind

theorem read_step (c : ℕ) (h : Step handleRequest garbage s a t s' t') :
    s'.pending (· = (.read, c)) + t'.starts c + a.reads c =
      s.pending (· = (.read, c)) + t.starts c + a.connects c := by
  have hpending := pending_step h (· = (.read, c))
  generalize s'.pending _ = n at hpending ⊢
  cases h <;> simp_all [Label.completes, Task.asks, Label.reads, Label.connects, Task.starts]
  -- a connection starts only when its accept has succeeded
  split_ifs <;> simp_all

theorem answer_step (c : ℕ) (h : Step handleRequest garbage s a t s' t') :
    s'.answered c + t'.serves c = s.answered c + t.serves c + a.hears c := by
  rw [answered_step h]
  cases h <;> simp_all [Task.answers, Label.hears, Task.serves]
  -- a thread that has counted a response is idle or counts the next
  split_ifs <;> rfl

theorem write_step (c : ℕ) (h : Step handleRequest garbage s a t s' t') :
    s'.pending (· = (.write, c)) + a.sends c + s.answered c =
      s.pending (· = (.write, c)) + s'.answered c := by
  have hpending := pending_step h (· = (.write, c))
  rw [answered_step h]
  generalize s'.pending _ = n at hpending ⊢
  cases h <;> simp_all [Label.completes, Task.asks, Label.sends, Task.answers]
  all_goals omega

theorem accepting_step (h : Step handleRequest garbage s a t s' t') :
    s'.pending (·.1 = .accept) + t'.continues + a.fails =
      s.pending (·.1 = .accept) + t.continues := by
  have hpending := pending_step h (·.1 = .accept)
  generalize s'.pending _ = n at hpending ⊢
  cases h <;> simp_all [Label.completes, Task.asks, Label.fails, Task.continues]
  all_goals grind

theorem concerns_step (c : ℕ) (h : Step handleRequest garbage s a t s' t') :
    s'.pending (·.2 = c) + t'.concerns c + (if c < s.created then 1 else 0) ≤
      s.pending (·.2 = c) + t.concerns c + (if c < s'.created then 1 else 0) := by
  have hpending := pending_step h (·.2 = c)
  rw [created_step h]
  generalize s'.pending _ = n at hpending ⊢
  cases h <;> simp_all [Label.completes, Task.asks, Task.creates, Task.concerns]
  all_goals grind

/-! ### The books of a run -/

variable {ι : Type*} [DecidableEq ι] [Fintype ι] {pathToHandler : HandlerMap H}
  {handlerNameToPrefixes : Std.ExtTreeMap Bytes (List Bytes)} {steps : List (ι × Label)}
  {q : Pool ι (Shared H) Task}

/-- The books of a connection: where it is, and what the network has reported
of it. -/
structure Accounted (steps : List (ι × Label)) (q : Pool ι (Shared H) Task) (c : ℕ) : Prop where
  accept : q.shared.pending (· = (.accept, c)) + tally (Label.accepts c) steps =
    if c < q.shared.created then 1 else 0
  read : q.shared.pending (· = (.read, c)) + ∑ i, (q.threads i).starts c +
    tally (Label.reads c) steps = tally (Label.connects c) steps
  answer : q.shared.answered c + ∑ i, (q.threads i).serves c = tally (Label.hears c) steps
  write : q.shared.pending (· = (.write, c)) + tally (Label.sends c) steps = q.shared.answered c

/-- **The books are balanced** after any run. -/
theorem accounted_of_runs
    (h : Runs handleRequest garbage (listen pathToHandler handlerNameToPrefixes) steps q) (c : ℕ) :
    Accounted steps q c where
  accept := by
    have hbalance := h.balance (fun s => s.pending (· = (.accept, c)))
      (fun s => if c < s.created then 1 else 0) (fun _ => 0) (Label.accepts c) (fun _ => 0)
      (fun a s t s' t' hmove => by simpa using accept_step c (step_of_move hmove).2)
      (by simp [listen, Shared.pending, Shared.startAccept, Shared.ask, eq_comm])
    simpa using hbalance
  read := by
    have hbalance := h.balance (fun s => s.pending (· = (.read, c))) (fun _ => 0)
      (Task.starts c) (Label.reads c) (Label.connects c)
      (fun a s t s' t' hmove => by simpa using read_step c (step_of_move hmove).2)
      (by simp [listen, Shared.pending, Shared.startAccept, Shared.ask, Task.starts])
    simpa using hbalance
  answer := by
    have hbalance := h.balance (fun s => s.answered c) (fun _ => 0)
      (Task.serves c) (fun _ => 0) (Label.hears c)
      (fun a s t s' t' hmove => by simpa using answer_step c (step_of_move hmove).2)
      (by simp [listen, Task.serves, Shared.answered, Shared.startAccept, Shared.ask])
    simpa using hbalance
  write := by
    have hbalance := h.balance (fun s => s.pending (· = (.write, c))) (fun s => s.answered c)
      (fun _ => 0) (Label.sends c) (fun _ => 0)
      (fun a s t s' t' hmove => by simpa using write_step c (step_of_move hmove).2)
      (by simp [listen, Shared.pending, Shared.answered, Shared.startAccept, Shared.ask])
    simpa using hbalance

theorem Label.hears_le_reads (c : ℕ) (a : Label) : a.hears c ≤ a.reads c := by
  cases a <;> simp [hears, reads]
  grind

theorem Label.connects_le_accepts (c : ℕ) (a : Label) : a.connects c ≤ a.accepts c := by
  cases a <;> simp [connects, accepts]
  grind

/-- A connection is heard once at most: it is accepted once, and read once for
its accept. -/
theorem hears_le_one
    (h : Runs handleRequest garbage (listen pathToHandler handlerNameToPrefixes) steps q) (c : ℕ) :
    tally (Label.hears c) steps ≤ 1 := by
  have hhears := tally_mono (Label.hears_le_reads c) steps
  have hconnects := tally_mono (Label.connects_le_accepts c) steps
  have hcreated : (if c < q.shared.created then 1 else 0) ≤ 1 := by split_ifs <;> omega
  have haccept := (accounted_of_runs h c).accept
  have hread := (accounted_of_runs h c).read
  omega

/-- **A connection is in one place at a time**, and is heard and answered at
most once: whatever the interleaving, no two threads work for it, and no thread
works for it while an operation of it is outstanding. -/
theorem owned_of_runs
    (h : Runs handleRequest garbage (listen pathToHandler handlerNameToPrefixes) steps q) (c : ℕ) :
    q.shared.pending (·.2 = c) + ∑ i, (q.threads i).concerns c ≤ 1 ∧
      tally (Label.sends c) steps ≤ q.shared.answered c ∧
      q.shared.answered c ≤ tally (Label.hears c) steps ∧ tally (Label.hears c) steps ≤ 1 := by
  have hconcerns := h.budget (fun s => s.pending (·.2 = c))
    (fun s => if c < s.created then 1 else 0) (Task.concerns c) (fun _ => 0) (fun _ => 0)
    (fun a s t s' t' hmove => by simpa using concerns_step c (step_of_move hmove).2)
    (by simp [listen, Shared.pending, Task.concerns, Shared.startAccept, Shared.ask, eq_comm])
  have hcreated : (if c < q.shared.created then 1 else 0) ≤ 1 := by split_ifs <;> omega
  refine ⟨?_, ?_, ?_, hears_le_one h c⟩
  · simp only [tally_zero, Nat.add_zero] at hconcerns
    exact hconcerns.trans hcreated
  · exact le_of_add_le_right (accounted_of_runs h c).write.le
  · exact le_of_add_le_left (accounted_of_runs h c).answer.le

/-- A server that echoes everything. -/
def echoServer : Pool (Fin numOfThreads) (Shared EchoHandler) Task :=
  listen (Std.ExtTreeMap.ofList [(Connection.defaultString, EchoHandler.mk)]) ∅

/-- The two threads of a script; the others stay idle. -/
def firstThread : Fin numOfThreads := ⟨0, by decide⟩

def secondThread : Fin numOfThreads := ⟨1, by decide⟩

/-- Two clients that ask for the same URI are served side by side, each by its
own thread, and then an accept fails with `ECONNABORTED`. -/
def twoClients (first second : Bytes) : List (Fin numOfThreads × Label) :=
  [(firstThread, .accepted 0 0), (firstThread, .proceeds), (firstThread, .proceeds),
    (secondThread, .accepted 1 0), (firstThread, .received 0 0 first), (secondThread, .proceeds),
    (secondThread, .proceeds), (firstThread, .proceeds), (secondThread, .received 1 0 second),
    -- the client that was heard last is answered first
    (secondThread, .proceeds), (secondThread, .proceeds), (firstThread, .proceeds),
    -- `UpdateStatus` of both
    (firstThread, .proceeds), (firstThread, .proceeds), (secondThread, .proceeds),
    (firstThread, .proceeds), (secondThread, .proceeds), (secondThread, .proceeds),
    (firstThread, .proceeds), (secondThread, .proceeds), (secondThread, .proceeds),
    (secondThread, .proceeds),
    (firstThread, .sent 0 0), (firstThread, .proceeds), (secondThread, .sent 1 0),
    (secondThread, .proceeds), (firstThread, .accepted 2 103), (firstThread, .proceeds)]

def firstData : Bytes := bytes "GET /a HTTP/1.1\r\n\r\n"

def secondData : Bytes := bytes "GET /a HTTP/1.1\r\nHost: b\r\n\r\n"

theorem runs_twoClients : ∃ q,
    Runs EchoHandler.handleRequest .ok echoServer (twoClients firstData secondData) q ∧
      q.shared.outstanding = [] ∧ (∀ i, q.threads i = .idle) ∧
      q.shared.answers.map (·.connection) = [1, 0] := by
  have hvalues : (runScript (move EchoHandler.handleRequest .ok) (fun _ _ => True) echoServer
      (twoClients firstData secondData)).map (fun q => (q.shared.outstanding,
        decide (∀ i, (q.threads i).isIdle = true), q.shared.answers.map (·.connection))) =
          some ([], true, [1, 0]) := by decide +kernel
  obtain ⟨q, hruns, hvalue⟩ := exists_history_of_runScript hvalues
  simp only [Prod.mk.injEq, decide_eq_true_eq] at hvalue
  obtain ⟨houtstanding, hidle, hanswers⟩ := hvalue
  exact ⟨q, hruns, houtstanding, fun i => Task.eq_idle (hidle i), hanswers⟩

theorem owned_of_runs_two_clients : ∃ q : Pool (Fin numOfThreads) (Shared EchoHandler) Task,
    ∀ c, q.shared.pending (·.2 = c) + ∑ i, (q.threads i).concerns c ≤ 1 ∧
      tally (Label.sends c) (twoClients firstData secondData) ≤ q.shared.answered c ∧
      q.shared.answered c ≤ tally (Label.hears c) (twoClients firstData secondData) ∧
      tally (Label.hears c) (twoClients firstData secondData) ≤ 1 := by
  obtain ⟨q, hruns, -⟩ := runs_twoClients
  exact ⟨q, fun c => owned_of_runs hruns c⟩

/-- **The server goes on accepting** until an accept has failed: one accept is
outstanding, or a thread is about to ask for it. -/
theorem accepting_of_runs
    (h : Runs handleRequest garbage (listen pathToHandler handlerNameToPrefixes) steps q) :
    q.shared.pending (·.1 = .accept) + ∑ i, (q.threads i).continues + tally Label.fails steps =
      1 := by
  have hbalance := h.balance (fun s => s.pending (·.1 = .accept)) (fun _ => 1) Task.continues
    Label.fails (fun _ => 0)
    (fun a s t s' t' hmove => by simpa using accepting_step (step_of_move hmove).2)
    (by simp [listen, Shared.pending, Shared.startAccept, Shared.ask, Task.continues])
  simpa using hbalance

/-! ### When the threads run out of work -/

/-- Nothing is outstanding and no thread has anything to do: `run` returns. -/
structure Drained (q : Pool ι (Shared H) Task) : Prop where
  outstanding : q.shared.outstanding = []
  idle : ∀ i, q.threads i = .idle

omit [DecidableEq ι] [Fintype ι] in
theorem Drained.pending_eq (hdrained : Drained q) (kind : Operation × ℕ → Bool) :
    q.shared.pending kind = 0 := by
  rw [Shared.pending, hdrained.outstanding, List.countP_nil]

/-- A client that was heard has been answered. -/
theorem Drained.answered_eq (hdrained : Drained q)
    (h : Runs handleRequest garbage (listen pathToHandler handlerNameToPrefixes) steps q) (c : ℕ) :
    q.shared.answered c = tally (Label.hears c) steps := by
  have hanswer := (accounted_of_runs h c).answer
  simpa only [hdrained.idle, Task.serves, Finset.sum_const_zero, Nat.add_zero] using hanswer

/-- **`run` returns only after an accept has failed**, and only when every
connection accepted has been heard or has failed and every client heard has
been answered, with the write of the answer completed. -/
theorem drained_of_runs
    (h : Runs handleRequest garbage (listen pathToHandler handlerNameToPrefixes) steps q)
    (hdrained : Drained q) :
    tally Label.fails steps = 1 ∧ ∀ c,
      tally (Label.accepts c) steps = (if c < q.shared.created then 1 else 0) ∧
      tally (Label.reads c) steps = tally (Label.connects c) steps ∧
      q.shared.answered c = tally (Label.hears c) steps ∧
      tally (Label.sends c) steps = q.shared.answered c := by
  have haccepting := accepting_of_runs h
  simp only [hdrained.pending_eq, hdrained.idle, Task.continues,
    Finset.sum_const_zero] at haccepting
  refine ⟨by omega, fun c => ?_⟩
  obtain ⟨haccept, hread, -, hwrite⟩ := accounted_of_runs h c
  simp only [hdrained.pending_eq, hdrained.idle, Task.starts,
    Finset.sum_const_zero] at haccept hread hwrite
  exact ⟨by omega, by omega, hdrained.answered_eq h c, by omega⟩

theorem drained_of_runs_two_clients :
    ∃ q : Pool (Fin numOfThreads) (Shared EchoHandler) Task,
      tally Label.fails (twoClients firstData secondData) = 1 ∧ ∀ c,
        tally (Label.accepts c) (twoClients firstData secondData) =
          (if c < q.shared.created then 1 else 0) ∧
        tally (Label.reads c) (twoClients firstData secondData) =
          tally (Label.connects c) (twoClients firstData secondData) ∧
        q.shared.answered c = tally (Label.hears c) (twoClients firstData secondData) ∧
        tally (Label.sends c) (twoClients firstData secondData) = q.shared.answered c := by
  obtain ⟨q, hruns, houtstanding, hidle, -⟩ := runs_twoClients
  exact ⟨q, drained_of_runs hruns ⟨houtstanding, hidle⟩⟩

end Server
