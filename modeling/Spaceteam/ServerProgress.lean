/-
What the worker threads get done.

The one thing that can keep a thread is a call of `HandleRequest` that does not
return.

* `Server.stuck_iff` — when no thread can take a step, whatever the network
  does;
* `Server.held_of_runs` — threads that are kept are kept by different clients;
* `Server.simulates_handleRead` — a thread that nobody interrupts does to the
  server what `handle_read` does, and one idle thread is enough for that.
-/
import Mathlib.Algebra.Order.BigOperators.Group.Finset
import Spaceteam.ServerRuns

open RequestHandler Interleaving

namespace Server

variable {H : Type*} {handleRequest : HandleRequest H} {garbage : ResponseCode}
  {ι : Type*} [DecidableEq ι] {pathToHandler : HandlerMap H}
  {handlerNameToPrefixes : Std.ExtTreeMap Bytes (List Bytes)} {steps : List (ι × Label)}
  {p q : Pool ι (Shared H) Task} {s s' : Shared H} {t t' : Task} {a : Label}

/-! ### When nothing can move -/

/-- What holds of every thread: one that counts has a call to finish, and one
that has thrown has ended the process. -/
structure Sound (q : Pool ι (Shared H) Task) : Prop where
  calls : ∀ i w, q.threads i = .updateStatus w → w.calls ≠ []
  threw : ∀ i c, q.threads i = .threw c → q.shared.terminated = true

theorem sound_of_runs
    (h : Runs handleRequest garbage (listen pathToHandler handlerNameToPrefixes) steps q) :
    Sound q := by
  refine h.invariant (P := fun _ q => Sound q)
    ⟨fun i w h => (by cases h), fun i c h => (by cases h)⟩ fun steps q i a s t hq _ hmove => ?_
  obtain ⟨hterminated, hstep⟩ := step_of_move hmove
  constructor
  · intro j w hj
    by_cases hji : j = i
    · subst hji
      rw [q.moved_self] at hj
      generalize q.threads j = t₀ at hstep
      cases hstep with
      | writes c request response =>
        cases hj
        simp
      | accesses haccess =>
        split_ifs at hj with hcalls
        cases hj
        exact hcalls
      | _ => cases hj
    · rw [q.moved_of_ne hji] at hj
      exact hq.calls j w hj
  · intro j c hj
    by_cases hji : j = i
    · subst hji
      rw [q.moved_self] at hj
      generalize q.threads j = t₀ at hstep
      cases hstep with
      | selectThrows | handlerThrows => rfl
      | accesses haccess => split_ifs at hj
      | _ => cases hj
    · -- a thread that has thrown would have ended the process before
      rw [q.moved_of_ne hji] at hj
      rw [hq.threw j c hj] at hterminated
      cases hterminated

/-- No thread can take a step, whatever the network does. -/
def Stuck (handleRequest : HandleRequest H) (garbage : ResponseCode)
    (q : Pool ι (Shared H) Task) : Prop :=
  ∀ i a, move handleRequest garbage a q.shared (q.threads i) = none

/-- The thread is idle or kept by a call. -/
def Task.Rests (t : Task) : Prop := t = .idle ∨ ∃ c, t = .held c

theorem exists_move_of_outstanding {operation : Operation} {c : ℕ}
    (hterminated : s.terminated = false) (hmem : (operation, c) ∈ s.outstanding) :
    ∃ a, move handleRequest garbage a s .idle ≠ none := by
  cases operation with
  | accept => exact ⟨.accepted c 0, by simp [move, hterminated, Shared.complete, hmem]⟩
  | read => exact ⟨.received c 0 [], by simp [move, hterminated, Shared.complete, hmem]⟩
  | write => exact ⟨.sent c 0, by simp [move, hterminated, Shared.complete, hmem]⟩

theorem exists_access {status : ServerStatus} {w : ServerStatus.Worker} (h : w.calls ≠ []) :
    ∃ b, ServerStatus.access status w = some b := by
  obtain ⟨state, _ | ⟨c, rest⟩⟩ := w
  · exact absurd rfl h
  cases state with
  | testUri | testCode =>
    simp only [ServerStatus.access]
    split_ifs <;> exact ⟨_, rfl⟩
  | _ => exact ⟨_, rfl⟩

/-- A thread that does not rest can go on. -/
theorem exists_move_of_busy (hterminated : s.terminated = false)
    (hcalls : ∀ w, t = .updateStatus w → w.calls ≠ []) (hthrew : ∀ c, t ≠ .threw c)
    (hbusy : ¬t.Rests) : move handleRequest garbage .proceeds s t ≠ none := by
  cases t with
  | idle => exact absurd (.inl rfl) hbusy
  | held c => exact absurd (.inr ⟨c, rfl⟩) hbusy
  | threw c => exact absurd rfl (hthrew c)
  | handleAccept c error => by_cases herror : error = 0 <;> simp [move, hterminated, herror]
  | handleRead c error data => by_cases herror : error = 0 <;> simp [move, hterminated, herror]
  | updateStatus w =>
    obtain ⟨b, hb⟩ := @exists_access s.serverStatus w (hcalls w rfl)
    simp [move, hterminated, hb]
  | _ => simp [move, hterminated]

theorem move_of_rests (houtstanding : s.outstanding = [] ∨ ∃ c, t = .held c) (hrests : t.Rests) :
    move handleRequest garbage a s t = none := by
  have hcomplete : s.outstanding = [] → ∀ operation c, s.complete operation c = none := by
    intro hnil operation c
    simp [Shared.complete, hnil]
  unfold move
  split_ifs
  · rfl
  · rcases hrests with rfl | ⟨c, rfl⟩
    · rcases houtstanding with hnil | ⟨c, hheld⟩
      · cases a <;> simp [hcomplete hnil]
      · cases hheld
    · cases a <;> rfl

/-- **When the server is stuck**: the process has ended, or every thread is
kept by a call that does not return, or those that are not have nothing to wait
for. -/
theorem stuck_iff
    (h : Runs handleRequest garbage (listen pathToHandler handlerNameToPrefixes) steps q) :
    Stuck handleRequest garbage q ↔ q.shared.terminated = true ∨
      (∀ i, ∃ c, q.threads i = .held c) ∨
      q.shared.outstanding = [] ∧ ∀ i, (q.threads i).Rests := by
  have hsound := sound_of_runs h
  constructor
  · intro hstuck
    by_contra hnot
    obtain ⟨hterminated, hheld, hrest⟩ := not_or.mp hnot |>.imp_right not_or.mp
    have hrunning : q.shared.terminated = false := by simpa using hterminated
    have hrests : ∀ i, (q.threads i).Rests := by
      intro i
      by_contra hbusy
      refine exists_move_of_busy hrunning (hsound.calls i) (fun c hc => ?_) hbusy
        (hstuck i .proceeds)
      exact hterminated (hsound.threw i c hc)
    -- an idle thread could take what is outstanding
    obtain ⟨i, hi⟩ := not_forall.mp hheld
    have hidle : q.threads i = .idle := (hrests i).resolve_right hi
    have hsome : q.shared.outstanding ≠ [] := fun hnil => hrest ⟨hnil, hrests⟩
    obtain ⟨⟨operation, c⟩, hmem⟩ := List.exists_mem_of_ne_nil _ hsome
    obtain ⟨a, ha⟩ := exists_move_of_outstanding hrunning hmem
    rw [← hidle] at ha
    exact ha (hstuck i a)
  · rintro (hterminated | hheld | ⟨hnil, hrests⟩) i a
    · simp [move, hterminated]
    · exact move_of_rests (.inr (hheld i)) (.inr (hheld i))
    · exact move_of_rests (.inl hnil) (hrests i)

theorem stuck_iff_two_clients : ∃ q : Pool (Fin numOfThreads) (Shared EchoHandler) Task,
    Stuck EchoHandler.handleRequest .ok q ↔
      q.shared.terminated = true ∨ (∀ i, ∃ c, q.threads i = .held c) ∨
        q.shared.outstanding = [] ∧ ∀ i, (q.threads i).Rests := by
  obtain ⟨q, hruns, -⟩ := runs_twoClients
  exact ⟨q, stuck_iff hruns⟩

/-- **Threads that are kept are kept by different clients**, each heard and
none of them answered. -/
theorem held_of_runs [Fintype ι]
    (h : Runs handleRequest garbage (listen pathToHandler handlerNameToPrefixes) steps q)
    {client : ι → ℕ} (hheld : ∀ i, q.threads i = .held (client i)) :
    Function.Injective client ∧ ∀ i, tally (Label.hears (client i)) steps = 1 ∧
      q.shared.answered (client i) = 0 := by
  have hserves : ∀ i j, client i = client j →
      (q.threads i).serves (client j) = 1 := by
    intro i j hij
    simp [hheld i, Task.serves, hij]
  have hbooks : ∀ i, q.shared.answered (client i) +
      ∑ j, (q.threads j).serves (client i) ≤ 1 := fun i =>
    (accounted_of_runs h (client i)).answer.le.trans (hears_le_one h (client i))
  constructor
  · intro i j hij
    by_contra hne
    -- both threads would serve the one client
    have hpair : (q.threads i).serves (client j) + (q.threads j).serves (client j) ≤
        ∑ k, (q.threads k).serves (client j) :=
      Finset.add_le_sum (f := fun k => (q.threads k).serves (client j))
        (fun _ _ => Nat.zero_le _) (Finset.mem_univ i) (Finset.mem_univ j) hne
    rw [hserves i j hij, hserves j j rfl] at hpair
    have hle := hbooks j
    omega
  · intro i
    have hone : 1 ≤ ∑ j, (q.threads j).serves (client i) :=
      (hserves i i rfl).ge.trans
        (Finset.single_le_sum (f := fun k => (q.threads k).serves (client i))
          (fun _ _ => Nat.zero_le _) (Finset.mem_univ i))
    have hle := hbooks i
    have hanswer := (accounted_of_runs h (client i)).answer
    have honce := hears_le_one h (client i)
    omega

/-- A server that holds every connection. -/
def holdingServer : Pool (Fin numOfThreads) (Shared HoldingHandler) Task :=
  listen (Std.ExtTreeMap.ofList [(Connection.defaultString, HoldingHandler.mk)]) ∅

/-- The client each thread is kept by. -/
def keptBy (i : Fin numOfThreads) : ℕ := i.val

/-- As many clients as there are threads keep all of them. -/
def allKept : List (Fin numOfThreads × Label) :=
  (List.finRange numOfThreads).flatMap fun i =>
    [(i, .accepted (keptBy i) 0), (i, .proceeds), (i, .proceeds),
      (i, .received (keptBy i) 0 (bytes "GET /")), (i, .proceeds)]

theorem held_of_runs_all_kept :
    ∃ q : Pool (Fin numOfThreads) (Shared HoldingHandler) Task,
      (∀ i, q.threads i = .held (keptBy i)) ∧ Function.Injective keptBy ∧
        ∀ i, tally (Label.hears (keptBy i)) allKept = 1 ∧ q.shared.answered (keptBy i) = 0 := by
  have hvalues : (runScript (move HoldingHandler.handleRequest .ok) (fun _ _ => True) holdingServer
      allKept).map (fun q => decide (∀ i, (q.threads i).isHeld (keptBy i) = true)) =
        some true := by decide +kernel
  obtain ⟨q, hruns, hvalue⟩ := exists_history_of_runScript hvalues
  have hheld : ∀ i, q.threads i = .held (keptBy i) := fun i =>
    Task.eq_held (of_decide_eq_true hvalue i)
  exact ⟨q, hheld, held_of_runs hruns hheld⟩

/-! ### A thread by itself -/

section ByItself

variable (handleRequest : HandleRequest H) (garbage : ResponseCode)

/-- The thread of a `Worker` with the calls it has still to make. -/
def Task.counting (w : ServerStatus.Worker) : Task :=
  if w.calls = [] then .idle else .updateStatus w

/-- The accesses that a thread makes by itself are steps of the server. -/
theorem history_of_alone {i : ι} {b b' : ServerStatus × ServerStatus.Worker}
    (h : Alone ServerStatus.access b b') (hterminated : p.shared.terminated = false)
    (hstatus : p.shared.serverStatus = b.1) (hthread : p.threads i = .counting b.2) :
    ∃ steps : List (ι × Label), (∀ step ∈ steps, step = (i, .proceeds)) ∧
      Runs handleRequest garbage p steps
        (p.moved i { p.shared with serverStatus := b'.1 } (.counting b'.2)) := by
  induction h with
  | refl =>
    refine ⟨[], by simp, ?_⟩
    rw [← hstatus, ← hthread, p.moved_eq_self]
    exact .refl
  | @tail c d _ haccess ih =>
    obtain ⟨steps, hsteps, hruns⟩ := ih
    have hcalls : c.2.calls ≠ [] := by
      intro hnil
      simp [ServerStatus.access, hnil] at haccess
    have hmove : move handleRequest garbage .proceeds
        (p.moved i { p.shared with serverStatus := c.1 } (.counting c.2)).shared
        ((p.moved i { p.shared with serverStatus := c.1 } (.counting c.2)).threads i) =
        some ({ p.shared with serverStatus := d.1 }, .counting d.2) := by
      rw [p.moved_self, Task.counting, if_neg hcalls]
      simp [move, Pool.moved, hterminated, haccess, Task.counting]
    have hrun := hruns.tail trivial hmove
    rw [p.moved_moved] at hrun
    refine ⟨steps ++ [(i, .proceeds)], fun step hstep => ?_, hrun⟩
    rcases List.mem_append.mp hstep with hstep | hstep
    · exact hsteps step hstep
    · exact List.mem_singleton.mp hstep

/-- What a call of `handle_read` comes to, done to the shared state by a thread
that is in `t'` afterwards. -/
structure Simulates (completion : Connection.Completion H) (c : ℕ) (s s' : Shared H) (t' : Task) :
    Prop where
  server : (⟨s'.pathToHandler, s'.serverStatus⟩ : Connection.Server H) = completion.server
  answers : s'.answers.map (fun answer => (answer.connection, answer.response.toString)) =
    s.answers.map (fun answer => (answer.connection, answer.response.toString)) ++
      (Connection.written completion.events).map fun data => (c, data)
  outstanding : s'.outstanding =
    s.outstanding ++ (Connection.written completion.events).map fun _ => (.write, c)
  ending : match completion.ending with
    | .returned _ => t' = .idle ∧ s'.terminated = s.terminated
    | .threw => t' = .threw c ∧ s'.terminated = true
    | .running => t' = .held c ∧ s'.terminated = s.terminated

/-- One step of a thread. -/
theorem runs_single {i : ι} (hmove : move handleRequest garbage a p.shared (p.threads i) =
    some (s, t)) : Runs handleRequest garbage p [(i, a)] (p.moved i s t) :=
  History.tail .refl trivial hmove

/-- `do_write` and `UpdateStatus`, after the handler has returned. -/
theorem runs_doWrite {i : ι} {c : ℕ} {request : Request} {response : Response}
    (hterminated : p.shared.terminated = false)
    (hthread : p.threads i = .doWrite c request response) :
    ∃ steps : List (ι × Label), (∀ step ∈ steps, step = (i, .proceeds)) ∧
      Runs handleRequest garbage p steps (p.moved i
        { p.shared.doWrite c request response with
          serverStatus := p.shared.serverStatus.updateStatus request.uri response.getResponseCode }
        .idle) := by
  set w : ServerStatus.Worker := ⟨.testUri, [(request.uri, response.getResponseCode)]⟩ with hw
  have hwrites : move handleRequest garbage .proceeds p.shared (p.threads i) =
      some (p.shared.doWrite c request response, .updateStatus w) := by
    rw [hthread]
    simp [move, hterminated, hw]
  have hfirst := runs_single handleRequest garbage hwrites
  obtain ⟨steps, hsteps, hrest⟩ := history_of_alone handleRequest garbage
    (p := p.moved i (p.shared.doWrite c request response) (.updateStatus w))
    (i := i) (ServerStatus.alone_updateStatus p.shared.serverStatus
      (request.uri, response.getResponseCode) []) hterminated rfl
    (by rw [p.moved_self]; rfl)
  rw [p.moved_moved] at hrest
  refine ⟨[(i, .proceeds)] ++ steps, fun step hstep => ?_, hfirst.trans hrest⟩
  rcases List.mem_append.mp hstep with hstep | hstep
  · exact List.mem_singleton.mp hstep
  · exact hsteps step hstep

/-- **A thread that nobody interrupts does what `handle_read` does.** -/
theorem simulates_of_handleRead {i : ι} {c : ℕ} {data : Bytes}
    (hterminated : p.shared.terminated = false) (hthread : p.threads i = .handleRead c 0 data) :
    ∃ (steps : List (ι × Label)) (s : Shared H) (t : Task),
      (∀ step ∈ steps, step = (i, .proceeds)) ∧
      Runs handleRequest garbage p steps (p.moved i s t) ∧
      Simulates (Connection.handleRead handleRequest garbage
        ⟨p.shared.pathToHandler, p.shared.serverStatus⟩ false data) c p.shared s t := by
  have hserve : move handleRequest garbage .proceeds p.shared (p.threads i) =
      some (serve handleRequest garbage p.shared c data) := by
    rw [hthread]
    simp [move, hterminated]
  have hfirst := runs_single handleRequest garbage
    (s := (serve handleRequest garbage p.shared c data).1)
    (t := (serve handleRequest garbage p.shared c data).2) hserve
  set request := Request.parseWith data (some p.shared.serverStatus) with hrequest
  rcases hselect : Connection.select p.shared.pathToHandler request with ⟨path, h⟩ | _ | _
  · rcases hout : handleRequest h request (.fresh garbage) with ⟨status, response, h'⟩ | ⟨h'⟩ | _
    · -- the handler returns, and the thread writes and counts
      have heq : serve handleRequest garbage p.shared c data =
          (p.shared.keep path h', .doWrite c request response) := by
        simp only [serve, ← hrequest, hselect, hout]
      rw [heq] at hfirst
      obtain ⟨steps, hsteps, hrest⟩ := runs_doWrite handleRequest garbage
        (p := p.moved i (p.shared.keep path h') (.doWrite c request response)) hterminated
        (p.moved_self ..)
      rw [p.moved_moved] at hrest
      refine ⟨[(i, .proceeds)] ++ steps, _, _, fun step hstep => ?_, hfirst.trans hrest, ?_⟩
      · rcases List.mem_append.mp hstep with hstep | hstep
        · exact List.mem_singleton.mp hstep
        · exact hsteps step hstep
      · rw [Connection.handleRead_of_returned handleRequest garbage
          ⟨p.shared.pathToHandler, p.shared.serverStatus⟩ hselect hout]
        exact ⟨rfl, by simp [Shared.doWrite, Shared.ask, Shared.keep, Pool.moved,
          Connection.written], rfl, rfl, rfl⟩
    · have heq : serve handleRequest garbage p.shared c data =
          ({ p.shared.keep path h' with terminated := true }, .threw c) := by
        simp only [serve, ← hrequest, hselect, hout]
      rw [heq] at hfirst
      refine ⟨_, _, _, by simp, hfirst, ?_⟩
      simp only [Connection.handleRead, ← hrequest, hselect, hout]
      exact ⟨rfl, by simp [Shared.keep, Connection.written], by simp [Shared.keep,
        Connection.written], rfl, rfl⟩
    · have heq : serve handleRequest garbage p.shared c data = (p.shared, .held c) := by
        simp only [serve, ← hrequest, hselect, hout]
      rw [heq] at hfirst
      refine ⟨_, _, _, by simp, hfirst, ?_⟩
      simp only [Connection.handleRead, ← hrequest, hselect, hout]
      exact ⟨rfl, by simp [Connection.written], by simp [Connection.written], rfl, rfl⟩
  · have heq : serve handleRequest garbage p.shared c data =
        ({ p.shared with terminated := true }, .threw c) := by
      simp only [serve, ← hrequest, hselect]
    rw [heq] at hfirst
    refine ⟨_, _, _, by simp, hfirst, ?_⟩
    simp only [Connection.handleRead, ← hrequest, hselect]
    exact ⟨rfl, by simp [Connection.written], by simp [Connection.written], rfl, rfl⟩
  · exact absurd hselect (select_ne_running _ _)

/-- **One idle thread is enough** to do for a connection that waits for its
read what `handle_read` does, whatever the other threads are kept by. -/
theorem simulates_handleRead {i : ι} {c : ℕ} {data : Bytes}
    (hterminated : p.shared.terminated = false) (hidle : p.threads i = .idle)
    (hmem : (.read, c) ∈ p.shared.outstanding) (hfits : data.length ≤ Connection.bufferSize) :
    ∃ (steps : List (ι × Label)) (s : Shared H) (t : Task),
      (∀ step ∈ steps, step = (i, .proceeds)) ∧
      Runs handleRequest garbage p ((i, .received c 0 data) :: steps) (p.moved i s t) ∧
      Simulates (Connection.handleRead handleRequest garbage
        ⟨p.shared.pathToHandler, p.shared.serverStatus⟩ false data) c
          { p.shared with outstanding := p.shared.outstanding.erase (.read, c) } s t := by
  have hmove : move handleRequest garbage (.received c 0 data) p.shared (p.threads i) =
      some ({ p.shared with outstanding := p.shared.outstanding.erase (.read, c) },
        .handleRead c 0 data) := by
    rw [hidle]
    simp [move, hterminated, hfits, Shared.complete, hmem]
  have hfirst := runs_single handleRequest garbage hmove
  obtain ⟨steps, s, t, hsteps, hrest, hsimulates⟩ := simulates_of_handleRead handleRequest garbage
    (p := p.moved i { p.shared with outstanding := p.shared.outstanding.erase (.read, c) }
      (.handleRead c 0 data)) hterminated (p.moved_self ..)
  rw [p.moved_moved] at hrest
  exact ⟨steps, s, t, hsteps, hfirst.trans hrest, hsimulates⟩

/-- The first connection waits for its read while another thread serves the
second. -/
def waiting : Pool (Fin numOfThreads) (Shared EchoHandler) Task :=
  { shared := { echoServer.shared with created := 3, outstanding := [(.accept, 2), (.read, 0)] }
    threads := Function.update echoServer.threads secondThread (.handleRead 1 0 secondData) }

theorem simulates_handleRead_waiting :
    ∃ (steps : List (Fin numOfThreads × Label)) (s : Shared EchoHandler) (t : Task),
      (∀ step ∈ steps, step = (firstThread, .proceeds)) ∧
      Runs EchoHandler.handleRequest .ok waiting ((firstThread, .received 0 0 firstData) :: steps)
        (waiting.moved firstThread s t) ∧
      Simulates (Connection.handleRead EchoHandler.handleRequest .ok
        ⟨waiting.shared.pathToHandler, waiting.shared.serverStatus⟩ false firstData) 0
          { waiting.shared with outstanding := waiting.shared.outstanding.erase (.read, 0) } s t :=
  simulates_handleRead EchoHandler.handleRequest .ok rfl rfl (by simp [waiting]) (by decide)

end ByItself

end Server
