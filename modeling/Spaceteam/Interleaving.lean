/-
Threads over a shared state.

Threads take their atomic steps one at a time, in any order: `step s t` is what
a thread in the local state `t` does next to the shared state `s`, `none` when
it has ended, and a `Run` picks a thread for every step.  A run may be held to
a condition on the pool and the thread that moves.

* `History` — runs in which the outside has a say in every step, with a record
  of what it said; what every step preserves holds of a whole history
  (`History.invariant`, `History.invariants`);
* `History.balance` — an account that every step balances;
* `Alone` — one thread moving by itself;
* `Counting` — threads that count in shared cells by reading a cell and later
  storing one more than was read, for stores that are called for on the way;
* `Counting.bounded_of_history` — a cell never counts more of them than there
  were;
* `Counting.read_of_history` — when no thread stores to a cell that another has
  read and not yet stored to, none of them is lost.
-/
import Mathlib.Algebra.BigOperators.Group.Finset.Basic
import Mathlib.Algebra.Order.BigOperators.Group.List
import Mathlib.Algebra.Order.Group.Nat
import Mathlib.Data.Fintype.Basic
import Mathlib.Data.Nat.Cast.Basic
import Mathlib.Logic.Relation
import Mathlib.Tactic.Abel

namespace Interleaving

variable {ι σ τ : Type*} [DecidableEq ι]

structure Pool (ι σ τ : Type*) where
  shared : σ
  threads : ι → τ

/-- The pool after thread `i` has moved. -/
def Pool.moved (p : Pool ι σ τ) (i : ι) (s : σ) (t : τ) : Pool ι σ τ :=
  { shared := s, threads := Function.update p.threads i t }

theorem Pool.moved_self (p : Pool ι σ τ) (i : ι) (s : σ) (t : τ) :
    (p.moved i s t).threads i = t := Function.update_self ..

theorem Pool.moved_of_ne (p : Pool ι σ τ) {i j : ι} (h : j ≠ i) (s : σ) (t : τ) :
    (p.moved i s t).threads j = p.threads j := Function.update_of_ne h ..

theorem Pool.moved_eq_self (p : Pool ι σ τ) (i : ι) :
    p.moved i p.shared (p.threads i) = p := by
  unfold moved
  rw [Function.update_eq_self]

theorem Pool.moved_moved (p : Pool ι σ τ) (i : ι) (s s' : σ) (t t' : τ) :
    (p.moved i s t).moved i s' t' = p.moved i s' t' := by
  unfold moved
  rw [Function.update_idem]

/-- The pools reached from `p` by steps that meet the condition `ok`. -/
inductive Run (step : σ → τ → Option (σ × τ)) (ok : Pool ι σ τ → ι → Prop)
    (p : Pool ι σ τ) : Pool ι σ τ → Prop
  | refl : Run step ok p p
  | tail {q : Pool ι σ τ} {i : ι} {s : σ} {t : τ} (h : Run step ok p q) (hok : ok q i)
      (hstep : step q.shared (q.threads i) = some (s, t)) : Run step ok p (q.moved i s t)

/-- One thread moving while the others stand still. -/
def Alone (step : σ → τ → Option (σ × τ)) : σ × τ → σ × τ → Prop :=
  Relation.ReflTransGen fun a b => step a.1 a.2 = some b

variable {step : σ → τ → Option (σ × τ)} {ok : Pool ι σ τ → ι → Prop} {p q : Pool ι σ τ}

theorem Run.trans {r : Pool ι σ τ} (h : Run step ok p q) (h' : Run step ok q r) :
    Run step ok p r := by
  induction h' with
  | refl => exact h
  | tail _ hok hstep ih => exact ih.tail hok hstep

/-! ### Steps with labels -/

section Labelled

variable {α : Type*} (move : α → σ → τ → Option (σ × τ)) (ok : Pool ι σ τ → ι → Prop)

/-- The pools reached from `p` by steps that meet the condition `ok`, when the
outside chooses a label for every step, and the steps that led there. -/
inductive History (p : Pool ι σ τ) : List (ι × α) → Pool ι σ τ → Prop
  | refl : History p [] p
  | tail {steps : List (ι × α)} {q : Pool ι σ τ} {i : ι} {a : α} {s : σ} {t : τ}
    (h : History p steps q) (hok : ok q i)
    (hmove : move a q.shared (q.threads i) = some (s, t)) :
    History p (steps ++ [(i, a)]) (q.moved i s t)

variable {move ok} {steps more : List (ι × α)} {p q r : Pool ι σ τ}

theorem History.trans (h : History move ok p steps q) (h' : History move ok q more r) :
    History move ok p (steps ++ more) r := by
  induction h' with
  | refl =>
    rw [List.append_nil]
    exact h
  | tail _ hok hmove ih =>
    rw [← List.append_assoc]
    exact ih.tail hok hmove

/-- What every step preserves holds of a whole history. -/
theorem History.invariant {P : List (ι × α) → Pool ι σ τ → Prop}
    (h : History move ok p steps q) (hp : P [] p)
    (hpreserved : ∀ steps q i a s t, P steps q → ok q i →
      move a q.shared (q.threads i) = some (s, t) → P (steps ++ [(i, a)]) (q.moved i s t)) :
    P steps q := by
  induction h with
  | refl => exact hp
  | tail _ hok hmove ih => exact hpreserved _ _ _ _ _ _ ih hok hmove

/-- What holds of the shared state and of each thread by itself: a step has to
preserve both for the thread that takes it, and a thread that stands still
keeps its own as the history grows. -/
theorem History.invariants {P : List (ι × α) → σ → Prop} {R : List (ι × α) → τ → Prop}
    (h : History move ok p steps q) (hshared : P [] p.shared) (hthreads : ∀ i, R [] (p.threads i))
    (hgrows : ∀ steps step t, R steps t → R (steps ++ [step]) t)
    (hstep : ∀ steps q i a s t, History move ok p steps q → P steps q.shared →
      R steps (q.threads i) → move a q.shared (q.threads i) = some (s, t) →
      P (steps ++ [(i, a)]) s ∧ R (steps ++ [(i, a)]) t) :
    P steps q.shared ∧ ∀ i, R steps (q.threads i) := by
  refine (h.invariant (P := fun steps q => History move ok p steps q ∧ P steps q.shared ∧
    ∀ i, R steps (q.threads i)) ⟨.refl, hshared, hthreads⟩
      fun steps q i a s t hq hok hmove => ?_).2
  obtain ⟨hhistory, hs, ht⟩ := hq
  obtain ⟨hs', ht'⟩ := hstep steps q i a s t hhistory hs (ht i) hmove
  refine ⟨hhistory.tail hok hmove, hs', fun j => ?_⟩
  by_cases hj : j = i
  · subst hj
    rw [q.moved_self]
    exact ht'
  · rw [q.moved_of_ne hj]
    exact hgrows steps (i, a) _ (ht j)

/-- A run is a history in which the outside says nothing. -/
theorem run_iff_history {step : σ → τ → Option (σ × τ)} :
    Run step ok p q ↔ ∃ steps : List (ι × Unit), History (fun _ => step) ok p steps q := by
  constructor
  · intro h
    induction h with
    | refl => exact ⟨[], .refl⟩
    | tail _ hok hstep ih =>
      obtain ⟨steps, hhistory⟩ := ih
      exact ⟨_, hhistory.tail (a := ()) hok hstep⟩
  · rintro ⟨steps, h⟩
    induction h with
    | refl => exact .refl
    | tail _ hok hmove ih => exact ih.tail hok hmove

/-- The pool after the steps of a script have been taken, if each of them meets
the condition. -/
def runScript (move : α → σ → τ → Option (σ × τ)) (ok : Pool ι σ τ → ι → Prop)
    [∀ p i, Decidable (ok p i)] (p : Pool ι σ τ) : List (ι × α) → Option (Pool ι σ τ)
  | [] => some p
  | (i, a) :: script =>
    if ok p i then
      (move a p.shared (p.threads i)).bind fun b => runScript move ok (p.moved i b.1 b.2) script
    else none

variable [∀ p i, Decidable (ok p i)]

theorem history_of_runScript (h : runScript move ok p steps = some q) :
    History move ok p steps q := by
  induction steps generalizing p with
  | nil =>
    obtain rfl := Option.some.inj h
    exact .refl
  | cons step script ih =>
    rw [runScript] at h
    split_ifs at h with hok
    obtain ⟨⟨s, t⟩, hmove, hrest⟩ := Option.bind_eq_some_iff.mp h
    exact History.trans (.tail .refl hok hmove) (ih hrest)

/-- A script that has been run is a history, with what has been computed of its end. -/
theorem exists_history_of_runScript {β : Type*} {f : Pool ι σ τ → β} {b : β}
    (h : (runScript move ok p steps).map f = some b) :
    ∃ q, History move ok p steps q ∧ f q = b := by
  obtain ⟨q, hq, hvalue⟩ := Option.map_eq_some_iff.mp h
  exact ⟨q, history_of_runScript hq, hvalue⟩

omit [∀ p i, Decidable (ok p i)]

/-- What the labels of a history weigh together. -/
def tally (w : α → ℕ) (steps : List (ι × α)) : ℕ := (steps.map fun step => w step.2).sum

omit [DecidableEq ι] in
@[simp] theorem tally_zero (steps : List (ι × α)) : tally (fun _ => 0) steps = 0 :=
  List.sum_eq_zero (by simp)

omit [DecidableEq ι] in
theorem tally_concat (w : α → ℕ) (steps : List (ι × α)) (i : ι) (a : α) :
    tally w (steps ++ [(i, a)]) = tally w steps + w a := by
  simp [tally]

omit [DecidableEq ι] in
theorem le_tally {w : α → ℕ} {step : ι × α} (h : step ∈ steps) : w step.2 ≤ tally w steps :=
  List.single_le_sum (by simp) _ (List.mem_map.mpr ⟨step, h, rfl⟩)

omit [DecidableEq ι] in
theorem tally_mono {w w' : α → ℕ} (h : ∀ a, w a ≤ w' a) (steps : List (ι × α)) :
    tally w steps ≤ tally w' steps :=
  List.sum_le_sum fun step _ => h step.2

omit [DecidableEq ι] in
/-- Only one step has a weight when all of them weigh one together. -/
theorem eq_of_tally_le_one {w : α → ℕ} {step step' : ι × α} (h : tally w steps ≤ 1)
    (hmem : step ∈ steps) (hmem' : step' ∈ steps) (hw : 0 < w step.2) (hw' : 0 < w step'.2) :
    step = step' := by
  by_contra hne
  obtain ⟨before, after, rfl⟩ := List.append_of_mem hmem
  have hrest : step' ∈ before ++ after := by
    simpa [Ne.symm hne] using hmem'
  have hsum : tally w (before ++ step :: after) = w step.2 + tally w (before ++ after) := by
    simp only [tally, List.map_append, List.map_cons, List.sum_append, List.sum_cons]
    omega
  have hle := le_tally (w := w) hrest
  omega

end Labelled

/-- A step of one thread changes one summand. -/
theorem sum_moved [Fintype ι] (f : τ → ℕ) (p : Pool ι σ τ) (i : ι) (s : σ) (t : τ) :
    ∑ j, f ((p.moved i s t).threads j) + f (p.threads i) = ∑ j, f (p.threads j) + f t := by
  have hothers : ∑ j ∈ Finset.univ.erase i, f ((p.moved i s t).threads j) =
      ∑ j ∈ Finset.univ.erase i, f (p.threads j) := by
    refine Finset.sum_congr rfl fun j hj => ?_
    rw [p.moved_of_ne (Finset.ne_of_mem_erase hj)]
  rw [← Finset.add_sum_erase _ _ (Finset.mem_univ i), hothers,
    ← Finset.add_sum_erase _ (fun j => f (p.threads j)) (Finset.mem_univ i), p.moved_self]
  omega

/-! ### Accounts -/

section Accounts

variable {α : Type*} [Fintype ι] {move : α → σ → τ → Option (σ × τ)} {steps : List (ι × α)}
  (f f' : σ → ℕ) (g : τ → ℕ) (w w' : α → ℕ)

/-- **An account that every step balances is balanced**: `f` and `g` say what
is on it in the shared state and in a thread, `w` what a step takes off, `f'`
and `w'` what has been put on it. -/
theorem History.balance (h : History move ok p steps q)
    (hstep : ∀ a s t s' t', move a s t = some (s', t') →
      f s' + g t' + w a + f' s = f s + g t + f' s' + w' a)
    (hp : f p.shared + ∑ i, g (p.threads i) = f' p.shared) :
    f q.shared + ∑ i, g (q.threads i) + tally w steps = f' q.shared + tally w' steps := by
  refine h.invariant (P := fun steps q => f q.shared + ∑ i, g (q.threads i) + tally w steps =
    f' q.shared + tally w' steps) hp fun steps q i a s t hq _ hmove => ?_
  have hsum := sum_moved g q i s t
  have hbalance := hstep _ _ _ _ _ hmove
  rw [tally_concat, tally_concat]
  show f s + _ + _ = f' s + _
  omega

/-- An account that no step overdraws. -/
theorem History.budget (h : History move ok p steps q)
    (hstep : ∀ a s t s' t', move a s t = some (s', t') →
      f s' + g t' + w a + f' s ≤ f s + g t + f' s' + w' a)
    (hp : f p.shared + ∑ i, g (p.threads i) ≤ f' p.shared) :
    f q.shared + ∑ i, g (q.threads i) + tally w steps ≤ f' q.shared + tally w' steps := by
  refine h.invariant (P := fun steps q => f q.shared + ∑ i, g (q.threads i) + tally w steps ≤
    f' q.shared + tally w' steps) hp fun steps q i a s t hq _ hmove => ?_
  have hsum := sum_moved g q i s t
  have hbudget := hstep _ _ _ _ _ hmove
  rw [tally_concat, tally_concat]
  show f s + _ + _ ≤ f' s + _
  omega

end Accounts

/-! ### Counting in shared cells -/

variable {κ M : Type*} [DecidableEq κ] [AddCommMonoidWithOne M]

/-- Threads that count in shared cells.  A thread holds a cell with the value
it has read there until it stores one more; `due` is how many stores to a cell
have been called for so far, and `remaining` how many of them a thread has
still to make. -/
structure Counting {α : Type*} (move : α → σ → τ → Option (σ × τ)) (κ M : Type*) [DecidableEq κ]
    [AddCommMonoidWithOne M] where
  read : σ → κ → M
  due : σ → κ → ℕ
  held : τ → Option (κ × M)
  remaining : τ → κ → ℕ
  due_mono : ∀ {a s t s' t'}, move a s t = some (s', t') → ∀ k, due s k ≤ due s' k
  step_cases : ∀ {a s t s' t'}, move a s t = some (s', t') →
    (read s' = read s ∧ (∀ k n, held t' = some (k, n) → read s k = n) ∧
      ∀ k, remaining t' k + due s k = remaining t k + due s' k) ∨
    ∃ k n, held t = some (k, n) ∧ held t' = none ∧ read s' = Function.update (read s) k (n + 1) ∧
      due s' = due s ∧
      remaining t = Function.update (remaining t') k (remaining t' k + 1)

namespace Counting

variable {α : Type*} {move : α → σ → τ → Option (σ × τ)} {steps : List (ι × α)}
  (C : Counting move κ M)

/-- Nothing is counted, due or under way. -/
structure Fresh (p : Pool ι σ τ) : Prop where
  read : ∀ k, C.read p.shared k = 0
  due : ∀ k, C.due p.shared k = 0
  held : ∀ i, C.held (p.threads i) = none
  remaining : ∀ i k, C.remaining (p.threads i) k = 0

/-- What is due in a cell or found in it, and what is still to be stored there,
before and after a step. -/
theorem remaining_moved [Fintype ι] {a : α} {i : ι} {s : σ} {t : τ}
    (hmove : move a p.shared (p.threads i) = some (s, t)) (k : κ) :
    (∑ j, C.remaining ((p.moved i s t).threads j) k) + C.due p.shared k =
        (∑ j, C.remaining (p.threads j) k) + C.due s k ∧ C.read s k = C.read p.shared k ∨
      ∃ n, C.held (p.threads i) = some (k, n) ∧ C.read s k = n + 1 ∧
        C.due s k = C.due p.shared k ∧
        ∑ j, C.remaining (p.threads j) k =
          (∑ j, C.remaining ((p.moved i s t).threads j) k) + 1 := by
  have hsum := sum_moved (C.remaining · k) p i s t
  rcases C.step_cases hmove with ⟨hread, -, hremaining⟩ | ⟨k', n, hheld, -, hread, hdue, hremaining⟩
  · have hk := hremaining k
    exact .inl ⟨by omega, by rw [hread]⟩
  · rw [hremaining] at hsum
    by_cases hk : k = k'
    · subst hk
      rw [Function.update_self] at hsum
      exact .inr ⟨n, hheld, by rw [hread, Function.update_self], by rw [hdue], by omega⟩
    · rw [Function.update_of_ne hk] at hsum
      refine .inl ⟨?_, by rw [hread, Function.update_of_ne hk]⟩
      rw [hdue]
      omega

/-- What a thread holds after a step it has read there in this step, or it has
stood still. -/
theorem held_moved {a : α} {i j : ι} {s : σ} {t : τ} {k : κ} {n : M}
    (hmove : move a p.shared (p.threads i) = some (s, t))
    (hj : C.held ((p.moved i s t).threads j) = some (k, n)) :
    (C.read s = C.read p.shared ∧ C.read p.shared k = n) ∨
      j ≠ i ∧ C.held (p.threads j) = some (k, n) := by
  by_cases hji : j = i
  · subst hji
    rw [p.moved_self] at hj
    rcases C.step_cases hmove with ⟨hsame, hread, -⟩ | ⟨_, _, -, hnone, -⟩
    · exact .inl ⟨hsame, hread k n hj⟩
    · rw [hnone] at hj
      cases hj
  · rw [p.moved_of_ne hji] at hj
    exact .inr ⟨hji, hj⟩

/-- The value is no larger than the number of stores that have been made. -/
def Within [Fintype ι] (size : M → ℕ) (q : Pool ι σ τ) (k : κ) (n : M) : Prop :=
  size n + ∑ i, C.remaining (q.threads i) k ≤ C.due q.shared k

/-- Whatever the interleaving, a cell and what the threads have read there stay
within the number of stores, and a cell that has been stored to is not zero. -/
structure Bounded [Fintype ι] (size : M → ℕ) (q : Pool ι σ τ) (k : κ) : Prop where
  read : C.Within size q k (C.read q.shared k)
  held : ∀ i n, C.held (q.threads i) = some (k, n) → C.Within size q k n
  pos : ∑ i, C.remaining (q.threads i) k < C.due q.shared k → 0 < size (C.read q.shared k)

variable {size : M → ℕ} {bound : ℕ}

omit [DecidableEq ι] in
theorem Fresh.bounded [Fintype ι] (h : C.Fresh p) (hzero : size 0 = 0) (k : κ) :
    C.Bounded size p k where
  read := by simp [Within, h.read, h.remaining, hzero]
  held i n hheld := by
    rw [h.held i] at hheld
    cases hheld
  pos hlt := by
    rw [h.due k] at hlt
    exact absurd hlt (Nat.not_lt_zero _)

theorem bounded_step [Fintype ι] (hsize : ∀ n, size n + 1 < bound → size (n + 1) = size n + 1)
    {a : α} {i : ι} {s : σ} {t : τ} {k : κ} (hdue : C.due s k < bound)
    (h : C.Bounded size p k) (hmove : move a p.shared (p.threads i) = some (s, t)) :
    C.Bounded size (p.moved i s t) k := by
  have hshared : (p.moved i s t).shared = s := rfl
  have hwithin : ∀ n, C.Within size p k n → C.Within size (p.moved i s t) k n := by
    intro n hn
    rcases C.remaining_moved hmove k with ⟨hsum, -⟩ | ⟨_, -, -, hsame, hsum⟩
    · simp only [Within, hshared] at hn ⊢
      omega
    · simp only [Within, hshared] at hn ⊢
      omega
  refine ⟨?_, fun j n hj => ?_, fun hlt => ?_⟩
  · rcases C.remaining_moved hmove k with ⟨-, hread⟩ | ⟨n, hn, hread, hsame, hsum⟩
    · rw [hshared, hread]
      exact hwithin _ h.read
    · have hle := h.held i n hn
      simp only [Within, hshared] at hle ⊢
      rw [hread, hsize n (by omega)]
      omega
  · rcases C.held_moved hmove hj with ⟨-, rfl⟩ | ⟨-, hj⟩
    · exact hwithin _ h.read
    · exact hwithin n (h.held j n hj)
  · rcases C.remaining_moved hmove k with ⟨hsum, hread⟩ | ⟨n, hn, hread, hsame, hsum⟩
    · rw [hshared, hread]
      refine h.pos ?_
      rw [hshared] at hlt
      omega
    · have hle := h.held i n hn
      simp only [Within] at hle
      rw [hshared, hread, hsize n (by omega)]
      omega

/-- **Nothing is counted twice**, and something is counted: in every run, as
long as fewer than `bound` stores are due. -/
theorem bounded_of_history [Fintype ι]
    (hsize : ∀ n, size n + 1 < bound → size (n + 1) = size n + 1)
    (h : History move ok p steps q) {k : κ} (hp : C.Bounded size p k)
    (hdue : C.due q.shared k < bound) : C.Bounded size q k := by
  induction h with
  | refl => exact hp
  | tail _ _ hmove ih =>
    have hbefore := (C.due_mono hmove k).trans_lt hdue
    exact C.bounded_step hsize hdue (ih hbefore) hmove

/-- The thread does not store to a cell that another one holds. -/
def Exclusive (p : Pool ι σ τ) (i : ι) : Prop :=
  ∀ j, j ≠ i → ∀ k n n', C.held (p.threads i) = some (k, n) → C.held (p.threads j) ≠ some (k, n')

omit [DecidableEq ι] in
theorem exclusive_of_held_eq_none {i : ι} (h : ∀ j, j ≠ i → C.held (p.threads j) = none) :
    C.Exclusive p i := by
  intro j hj k n n' _
  rw [h j hj]
  simp

omit [DecidableEq ι] in
theorem exclusive_iff {i : ι} : C.Exclusive p i ↔ ∀ j, j ≠ i →
    ∀ a ∈ C.held (p.threads i), ∀ b ∈ C.held (p.threads j), a.1 ≠ b.1 := by
  constructor
  · rintro h j hj ⟨k, n⟩ ha ⟨k', n'⟩ hb rfl
    exact h j hj k n n' ha hb
  · intro h j hj k n n' ha hb
    exact h j hj _ ha _ hb rfl

instance [Fintype ι] (p : Pool ι σ τ) (i : ι) : Decidable (C.Exclusive p i) :=
  decidable_of_iff' _ C.exclusive_iff

/-- A thread may move by itself as long as the others hold nothing. -/
theorem run_of_alone {a : α} {i : ι} {b c : σ × τ} (h : Alone (move a) b c) :
    p.shared = b.1 → p.threads i = b.2 → (∀ j, j ≠ i → C.held (p.threads j) = none) →
      Run (move a) C.Exclusive p (p.moved i c.1 c.2) := by
  intro hshared hthread hheld
  induction h with
  | refl =>
    rw [← hshared, ← hthread, p.moved_eq_self]
    exact .refl
  | @tail c d _ hmove ih =>
    -- the others have not moved
    have hothers : ∀ j, j ≠ i → C.held ((p.moved i c.1 c.2).threads j) = none := by
      intro j hj
      rw [p.moved_of_ne hj]
      exact hheld j hj
    have hnext : move a (p.moved i c.1 c.2).shared ((p.moved i c.1 c.2).threads i) =
        some (d.1, d.2) := by
      rw [p.moved_self]
      exact hmove
    have hrun := ih.tail (C.exclusive_of_held_eq_none hothers) hnext
    rwa [p.moved_moved] at hrun

/-- What the threads hold is still in the cells. -/
def Coherent (q : Pool ι σ τ) : Prop :=
  ∀ i k n, C.held (q.threads i) = some (k, n) → C.read q.shared k = n

omit [DecidableEq ι] in
theorem coherent_of_held_eq_none (h : ∀ i, C.held (p.threads i) = none) : C.Coherent p := by
  intro i k n hheld
  rw [h i] at hheld
  cases hheld

theorem coherent_step {a : α} {i : ι} {s : σ} {t : τ} (h : C.Coherent p)
    (hexclusive : C.Exclusive p i) (hmove : move a p.shared (p.threads i) = some (s, t)) :
    C.Coherent (p.moved i s t) := by
  intro j k n hj
  show C.read s k = n
  rcases C.held_moved hmove hj with ⟨hsame, hread⟩ | ⟨hji, hheld⟩
  · rw [hsame]
    exact hread
  · rcases C.step_cases hmove with ⟨hsame, -⟩ | ⟨k', n', hheld', -, hread, -⟩
    · rw [hsame]
      exact h j k n hheld
    · -- the cell stored to is not the one that thread `j` holds
      have hne : k ≠ k' := by
        rintro rfl
        exact hexclusive j hji k n' n hheld' hheld
      rw [hread, Function.update_of_ne hne]
      exact h j k n hheld

/-- From `p` to `q` what has become due is in the cells or still to be stored,
and what the threads hold is current. -/
structure Exact [Fintype ι] (p q : Pool ι σ τ) : Prop where
  coherent : C.Coherent q
  conserved : ∀ k, C.read q.shared k + ((∑ i, C.remaining (q.threads i) k : ℕ) : M) +
      (C.due p.shared k : ℕ) =
    C.read p.shared k + ((∑ i, C.remaining (p.threads i) k : ℕ) : M) + (C.due q.shared k : ℕ)

theorem exact_step [Fintype ι] {a : α} {i : ι} {s : σ} {t : τ} (h : C.Exact p q)
    (hexclusive : C.Exclusive q i) (hmove : move a q.shared (q.threads i) = some (s, t)) :
    C.Exact p (q.moved i s t) where
  coherent := C.coherent_step h.coherent hexclusive hmove
  conserved k := by
    have hk := h.conserved k
    show C.read s k + _ + _ = _ + _ + ((C.due s k : ℕ) : M)
    rcases C.remaining_moved hmove k with ⟨hsum, hread⟩ | ⟨n, hn, hread, hsame, hsum⟩
    · -- what becomes due is still to be stored
      obtain ⟨d, hd⟩ := Nat.le.dest (C.due_mono hmove k)
      have hsum' : ∑ j, C.remaining ((q.moved i s t).threads j) k =
          (∑ j, C.remaining (q.threads j) k) + d := by omega
      rw [hread, hsum', ← hd, Nat.cast_add, Nat.cast_add, ← add_assoc, ← add_assoc, ← hk]
      abel
    · -- one more in the cell, one store less to be made
      rw [hread, hsame, ← hk, h.coherent i k n hn, hsum, Nat.cast_add, Nat.cast_one]
      abel

theorem exact_of_history [Fintype ι] (h : History move C.Exclusive p steps q)
    (hp : C.Coherent p) : C.Exact p q :=
  h.invariant (P := fun _ q => C.Exact p q) ⟨hp, fun _ => rfl⟩
    fun _ _ _ _ _ _ hq hexclusive hmove => C.exact_step hq hexclusive hmove

/-- **Everything that is due is counted**, once, in a run in which a thread
stores to a cell only while no other is between its own read and its store. -/
theorem read_of_history [Fintype ι] (h : History move C.Exclusive p steps q)
    (hp : C.Coherent p) {k : κ} (hdue : C.due p.shared k = 0)
    (hdone : ∀ i, C.remaining (q.threads i) k = 0) :
    C.read q.shared k = C.read p.shared k + ((∑ i, C.remaining (p.threads i) k : ℕ) : M) +
      (C.due q.shared k : ℕ) := by
  have hk := (C.exact_of_history h hp).conserved k
  simpa [hdue, hdone] using hk

end Counting

end Interleaving
