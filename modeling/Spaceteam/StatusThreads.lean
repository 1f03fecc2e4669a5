/-
Calls of `UpdateStatus` from several threads.

`Server::run` starts worker threads on one `io_service`, and each of them calls
`UpdateStatus` of the one `ServerStatus`, which nothing locks.  A call is taken
apart into its accesses to the table: the two tests with `count`, the
assignment of 1 or the load and the store of the increment, and the load and
the store of `num_requests_`.

* `ServerStatus.alone_updateStatus` — a call that no other thread interrupts
  is `updateStatus`;
* `ServerStatus.countsAll_of_run` — no update is lost while no thread stores
  what another is about to store.
-/
import Mathlib.Data.UInt
import Spaceteam.Interleaving
import Spaceteam.StatusAccounting

open Interleaving
open scoped UInt32.CommRing

namespace ServerStatus

/-- Where a thread is in a call, with the value it has loaded. -/
inductive CallState where
  | testUri
  | testCode
  | assignOne
  | load
  | store (n : UInt32)
  | loadTotal
  | storeTotal (n : UInt32)
  deriving DecidableEq, Repr

/-- A worker thread: the calls it has still to finish, the first of them under
way. -/
structure Worker where
  state : CallState
  calls : List StatusCall
  deriving DecidableEq, Repr

/-- The next access of a thread to the table. -/
def access (s : ServerStatus) (w : Worker) : Option (ServerStatus × Worker) :=
  match w.calls with
  | [] => none
  | (uriPrefix, status) :: rest =>
    let ustatus := responseCodeToString status
    match w.state with
    | .testUri =>
      -- `!server_status_.count(uri_prefix)`
      if s.serverStatus[uriPrefix]? = none then some (s, { w with state := .assignOne })
      else some (s, { w with state := .testCode })
    | .testCode =>
      -- `!server_status_[uri_prefix].count(ustatus)`, the row being there
      if s.entry uriPrefix ustatus = none then some (s, { w with state := .assignOne })
      else some (s, { w with state := .load })
    | .assignOne => some (s.assign uriPrefix ustatus 1, { w with state := .loadTotal })
    | .load => some (s, { w with state := .store (s.count uriPrefix ustatus) })
    | .store n => some (s.assign uriPrefix ustatus (n + 1), { w with state := .loadTotal })
    | .loadTotal => some (s, { w with state := .storeTotal s.numRequests })
    | .storeTotal n =>
      some ({ s with numRequests := n + 1 }, { state := .testUri, calls := rest })

/-! ### A call by itself -/

variable (s : ServerStatus) (c : StatusCall) (rest : List StatusCall)

theorem alone_loadTotal :
    Alone access (s, ⟨.loadTotal, c :: rest⟩)
      ({ s with numRequests := s.numRequests + 1 }, ⟨.testUri, rest⟩) :=
  .head (b := (s, ⟨.storeTotal s.numRequests, c :: rest⟩)) rfl (.single rfl)

theorem alone_store :
    Alone access (s, ⟨.store (s.count (key c).1 (key c).2), c :: rest⟩)
      (s.updateStatus c.1 c.2, ⟨.testUri, rest⟩) := by
  rw [updateStatus_eq]
  exact .head rfl (alone_loadTotal (s.assign (key c).1 (key c).2 _) c rest)

theorem alone_load :
    Alone access (s, ⟨.load, c :: rest⟩) (s.updateStatus c.1 c.2, ⟨.testUri, rest⟩) :=
  .head rfl (alone_store s c rest)

theorem alone_assignOne (h : s.entry (key c).1 (key c).2 = none) :
    Alone access (s, ⟨.assignOne, c :: rest⟩) (s.updateStatus c.1 c.2, ⟨.testUri, rest⟩) := by
  rw [updateStatus_eq, count_eq_getD_entry, h, Option.getD_none, UInt32.zero_add]
  exact .head rfl (alone_loadTotal (s.assign (key c).1 (key c).2 1) c rest)

/-- **A call that no other thread interrupts** is `updateStatus`. -/
theorem alone_updateStatus :
    Alone access (s, ⟨.testUri, c :: rest⟩) (s.updateStatus c.1 c.2, ⟨.testUri, rest⟩) := by
  by_cases hrow : s.serverStatus[c.1]? = none
  · have hentry : s.entry (key c).1 (key c).2 = none := by
      rw [entry, NestedMap.lookup, key, hrow, Option.bind_none]
    refine .head ?_ (alone_assignOne s c rest hentry)
    simp [access, hrow]
  · by_cases hentry : s.entry (key c).1 (key c).2 = none
    · refine .head (b := (s, ⟨.testCode, c :: rest⟩)) ?_
        (.head ?_ (alone_assignOne s c rest hentry))
      · simp [access, hrow]
      · simpa [access, key] using hentry
    · refine .head (b := (s, ⟨.testCode, c :: rest⟩)) ?_ (.head ?_ (alone_load s c rest))
      · simp [access, hrow]
      · simpa [access, key] using hentry

/-! ### The cells of the table -/

/-- What is counted in: the entry of a URI and a code, and `num_requests_`. -/
inductive Cell where
  | entry (uri : Bytes) (code : ℤ)
  | total
  deriving DecidableEq, Repr

def readCell (s : ServerStatus) : Cell → UInt32
  | .entry uri code => s.count uri code
  | .total => s.numRequests

/-- The cell a thread is about to store to, with what it has found there. -/
def Worker.held (w : Worker) : Option (Cell × UInt32) :=
  match w.calls, w.state with
  | c :: _, .assignOne => some (.entry (key c).1 (key c).2, 0)
  | c :: _, .store n => some (.entry (key c).1 (key c).2, n)
  | _ :: _, .storeTotal n => some (.total, n)
  | _, _ => none

/-- The calls whose entry is still to be counted. -/
def Worker.uncounted (w : Worker) : List StatusCall :=
  match w.state with
  | .loadTotal | .storeTotal _ => w.calls.tail
  | _ => w.calls

def Worker.remaining (w : Worker) : Cell → ℕ
  | .entry uri code => (w.uncounted.map key).count (uri, code)
  | .total => w.calls.length

theorem readCell_assign (s : ServerStatus) (uri : Bytes) (code : ℤ) (n : UInt32) :
    readCell (s.assign uri code n) = Function.update (readCell s) (.entry uri code) n := by
  funext cell
  cases cell with
  | entry uri' code' =>
    rw [readCell, count_assign]
    by_cases h : uri = uri' ∧ code = code'
    · obtain ⟨rfl, rfl⟩ := h
      simp
    · have hne : Cell.entry uri' code' ≠ .entry uri code := by
        rintro ⟨⟩
        exact h ⟨rfl, rfl⟩
      rw [if_neg h, Function.update_of_ne hne, readCell]
  | total => rfl

theorem remaining_of_counted {w w' : Worker} {c : StatusCall}
    (huncounted : w.uncounted = c :: w'.uncounted) (hcalls : w.calls = w'.calls) :
    w.remaining = Function.update w'.remaining (.entry (key c).1 (key c).2)
      (w'.remaining (.entry (key c).1 (key c).2) + 1) := by
  funext cell
  cases cell with
  | entry uri code =>
    rw [Worker.remaining, huncounted, List.map_cons]
    by_cases h : key c = (uri, code)
    · rw [h, List.count_cons_self, Function.update_self]
      rfl
    · have hne : Cell.entry uri code ≠ .entry (key c).1 (key c).2 := by
        rintro ⟨⟩
        exact h rfl
      rw [List.count_cons_of_ne h, Function.update_of_ne hne, Worker.remaining]
  | total => rw [Function.update_of_ne (by simp), Worker.remaining, Worker.remaining, hcalls]

theorem remaining_of_finished {w w' : Worker} {c : StatusCall}
    (huncounted : w.uncounted = w'.uncounted) (hcalls : w.calls = c :: w'.calls) :
    w.remaining = Function.update w'.remaining .total (w'.remaining .total + 1) := by
  funext cell
  cases cell with
  | entry uri code => rw [Function.update_of_ne (by simp), Worker.remaining, Worker.remaining,
      huncounted]
  | total => rw [Function.update_self, Worker.remaining, Worker.remaining, hcalls, List.length_cons]

theorem remaining_of_calls_eq_nil {w : Worker} (h : w.calls = []) (k : Cell) :
    w.remaining k = 0 := by
  have huncounted : w.uncounted = [] := by
    unfold Worker.uncounted
    split <;> simp [h]
  cases k <;> simp [Worker.remaining, huncounted, h]

theorem readCell_new (k : Cell) : readCell new k = 0 := by
  cases k with
  | entry uri code => exact Tallies.new.count uri code
  | total => rfl

/-- **What one access can do**: it reads a cell, or stores one more than was
read there. -/
theorem access_cases {s s' : ServerStatus} {w w' : Worker} (h : access s w = some (s', w')) :
    (s' = s ∧ (∀ k n, w'.held = some (k, n) → readCell s k = n) ∧ w'.remaining = w.remaining) ∨
    ∃ k n, w.held = some (k, n) ∧ w'.held = none ∧
      readCell s' = Function.update (readCell s) k (n + 1) ∧
      w.remaining = Function.update w'.remaining k (w'.remaining k + 1) := by
  obtain ⟨state, _ | ⟨c, rest⟩⟩ := w
  · cases h
  -- a test that finds no entry has read a count of 0
  have hzero : s.entry (key c).1 (key c).2 = none →
      ∀ k n, (⟨.assignOne, c :: rest⟩ : Worker).held = some (k, n) → readCell s k = n := by
    rintro hentry k n ⟨⟩
    rw [readCell, count_eq_getD_entry, hentry, Option.getD_none]
  cases state with
  | testUri =>
    simp only [access] at h
    split_ifs at h with hrow
    · obtain ⟨rfl, rfl⟩ := Prod.mk.inj (Option.some.inj h)
      refine .inl ⟨rfl, hzero ?_, rfl⟩
      rw [entry, NestedMap.lookup, key, hrow, Option.bind_none]
    · obtain ⟨rfl, rfl⟩ := Prod.mk.inj (Option.some.inj h)
      exact .inl ⟨rfl, by simp [Worker.held], rfl⟩
  | testCode =>
    simp only [access] at h
    split_ifs at h with hentry
    · obtain ⟨rfl, rfl⟩ := Prod.mk.inj (Option.some.inj h)
      exact .inl ⟨rfl, hzero hentry, rfl⟩
    · obtain ⟨rfl, rfl⟩ := Prod.mk.inj (Option.some.inj h)
      exact .inl ⟨rfl, by simp [Worker.held], rfl⟩
  | assignOne =>
    obtain ⟨rfl, rfl⟩ := Prod.mk.inj (Option.some.inj h)
    exact .inr ⟨_, _, rfl, rfl, readCell_assign .., remaining_of_counted rfl rfl⟩
  | load =>
    obtain ⟨rfl, rfl⟩ := Prod.mk.inj (Option.some.inj h)
    refine .inl ⟨rfl, ?_, rfl⟩
    rintro k n ⟨⟩
    rfl
  | store n =>
    obtain ⟨rfl, rfl⟩ := Prod.mk.inj (Option.some.inj h)
    exact .inr ⟨_, _, rfl, rfl, readCell_assign .., remaining_of_counted rfl rfl⟩
  | loadTotal =>
    obtain ⟨rfl, rfl⟩ := Prod.mk.inj (Option.some.inj h)
    refine .inl ⟨rfl, ?_, rfl⟩
    rintro k n ⟨⟩
    rfl
  | storeTotal n =>
    obtain ⟨rfl, rfl⟩ := Prod.mk.inj (Option.some.inj h)
    refine .inr ⟨_, _, rfl, ?_, ?_, remaining_of_finished rfl rfl⟩
    · cases rest <;> rfl
    · funext cell
      cases cell <;> rfl

/-- The accesses count in the cells of the table, and every call has been made
before the first of them. -/
def increments : Counting (fun _ : Unit => access) Cell UInt32 where
  read := readCell
  due _ _ := 0
  held := Worker.held
  remaining := Worker.remaining
  due_mono _ _ := le_rfl
  step_cases haccess := by
    rcases access_cases haccess with ⟨rfl, hread, hsame⟩ | ⟨k, n, hheld, hnone, hread, hstore⟩
    · exact .inl ⟨rfl, hread, fun k => by rw [hsame]⟩
    · exact .inr ⟨k, n, hheld, hnone, hread, rfl, hstore⟩

/-! ### Runs of the threads -/

variable {ι : Type*} [DecidableEq ι]

/-- A call made while the other threads are between their accesses. -/
theorem run_call (p : Pool ι ServerStatus Worker) (i : ι) {c : StatusCall}
    {rest : List StatusCall} (hi : p.threads i = ⟨.testUri, c :: rest⟩)
    (hothers : ∀ j, j ≠ i → (p.threads j).held = none) :
    Run access increments.Exclusive p
      (p.moved i (p.shared.updateStatus c.1 c.2) ⟨.testUri, rest⟩) :=
  increments.run_of_alone (a := ()) (alone_updateStatus p.shared c rest) rfl hi hothers

variable [Fintype ι]

/-- The threads with their calls before them, and a fresh table. -/
def start (calls : ι → List StatusCall) : Pool ι ServerStatus Worker :=
  { shared := new, threads := fun i => ⟨.testUri, calls i⟩ }

/-- All calls have finished. -/
def Finished (p : Pool ι ServerStatus Worker) : Prop := ∀ i, (p.threads i).calls = []

/-- Every count is the number of calls for it, and `num_requests_` of all. -/
def CountsAll (calls : ι → List StatusCall) (s : ServerStatus) : Prop :=
  (∀ uri code, (s.count uri code).toNat =
    (∑ i, ((calls i).map key).count (uri, code)) % 2 ^ 32) ∧
  s.numRequests.toNat = (∑ i, (calls i).length) % 2 ^ 32

/-- **No update is lost** in a run in which a thread stores to an entry or to
`num_requests_` only while no other is between its own test or load of it and
its store. -/
theorem countsAll_of_run (calls : ι → List StatusCall) {p : Pool ι ServerStatus Worker}
    (h : Run access increments.Exclusive (start calls) p) (hfinished : Finished p) :
    CountsAll calls p.shared := by
  obtain ⟨steps, hhistory⟩ := run_iff_history.mp h
  -- no thread holds a cell when it starts
  have hstart : increments.Coherent (start calls) := by
    refine increments.coherent_of_held_eq_none fun i => ?_
    cases hcalls : calls i <;> simp [increments, start, Worker.held, hcalls]
  have hread : ∀ k, (readCell p.shared k).toNat =
      (∑ i, Worker.remaining ⟨.testUri, calls i⟩ k) % 2 ^ 32 := by
    intro k
    have hsum := increments.read_of_history hhistory hstart rfl
      fun i => remaining_of_calls_eq_nil (hfinished i) k
    have hnew : increments.read (start calls).shared k = 0 := readCell_new k
    rw [hnew, zero_add] at hsum
    change (increments.read p.shared k).toNat = _
    rw [hsum, show increments.due p.shared k = 0 from rfl, Nat.cast_zero, add_zero]
    rfl
  exact ⟨fun uri code => hread (.entry uri code), hread .total⟩

theorem countsAll_of_run_two :
    CountsAll (fun _ : Fin 2 => [(bytes "/", .ok)])
      ((new.updateStatus (bytes "/") .ok).updateStatus (bytes "/") .ok) := by
  have hfirst := run_call (start fun _ : Fin 2 => [(bytes "/", .ok)]) 0 rfl fun _ _ => rfl
  have hsecond := run_call ((start fun _ : Fin 2 => [(bytes "/", .ok)]).moved 0
    (new.updateStatus (bytes "/") .ok) ⟨.testUri, []⟩) 1 rfl
    (Fin.forall_fin_two.mpr ⟨fun _ => rfl, fun h => absurd rfl h⟩)
  exact countsAll_of_run _ (hfirst.trans hsecond) (Fin.forall_fin_two.mpr ⟨rfl, rfl⟩)

/-- Both threads find no entry for the URI, and both assign 1. -/
def bothNew : List (Fin 2) := [0, 1, 0, 1, 0, 0, 1, 1]

theorem not_countsAll_both_new :
    ¬∀ (n : ℕ) (calls : Fin n → List StatusCall) (p : Pool (Fin n) ServerStatus Worker),
      Run access (fun _ _ => True) (start calls) p → Finished p → CountsAll calls p.shared := by
  intro h
  -- both calls have finished, and the count is 1
  have hvalues : (runScript (fun _ => access) (fun _ _ => True)
      (start fun _ : Fin 2 => [(bytes "/", .ok)]) (bothNew.map (·, ()))).map
        (fun p => (p.shared.count (bytes "/") 200, (p.threads 0).calls, (p.threads 1).calls)) =
          some (1, [], []) := by decide +kernel
  obtain ⟨p, hhistory, hvalue⟩ := exists_history_of_runScript hvalues
  have hcount : p.shared.count (bytes "/") 200 = 1 := congrArg Prod.fst hvalue
  have hfinished : Finished p := Fin.forall_fin_two.mpr (Prod.mk.inj (Prod.mk.inj hvalue).2)
  have hrun : Run access (fun _ _ => True) (start fun _ : Fin 2 => [(bytes "/", .ok)]) p :=
    run_iff_history.mpr ⟨_, hhistory⟩
  have hcounts := (h 2 _ p hrun hfinished).1 (bytes "/") 200
  rw [hcount] at hcounts
  revert hcounts
  decide +kernel

end ServerStatus
