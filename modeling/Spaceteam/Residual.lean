/-
Recognisers described by what is still to be read.

A partial deterministic automaton is understood by giving each state the
language of its *continuations*.  If that assignment is compatible with one
step (`Recognizer.cons_mem`) then, along a whole run, the continuations of the
state reached are what may follow the word read
(`Recognizer.append_mem_residual`), and a run gets stuck exactly when no
continuation is left (`Recognizer.isSome_run_iff`).

`one` and `many` build such languages front to back, so that membership of a
non-empty word unfolds one letter at a time (`cons_mem_one`,
`cons_mem_many`).
-/
import Mathlib.Computability.Language

namespace Residual

variable {α σ : Type*} {p : α → Prop} {L M : Language α} {a : α} {w : List α}

/-! ### Languages built front to back -/

/-- One letter satisfying `p`, then a word of `L`. -/
def one (p : α → Prop) (L : Language α) : Language α :=
  {w | ∃ a v, p a ∧ v ∈ L ∧ w = a :: v}

/-- Any number of letters satisfying `p`, then a word of `L`. -/
def many (p : α → Prop) (L : Language α) : Language α :=
  {w | ∃ u v, (∀ a ∈ u, p a) ∧ v ∈ L ∧ w = u ++ v}

theorem mem_one : w ∈ one p L ↔ ∃ a v, p a ∧ v ∈ L ∧ w = a :: v := Iff.rfl

theorem mem_many : w ∈ many p L ↔ ∃ u v, (∀ a ∈ u, p a) ∧ v ∈ L ∧ w = u ++ v := Iff.rfl

@[simp] theorem nil_mem_one : [] ∈ one p L ↔ False := by
  simp [mem_one]

@[simp] theorem cons_mem_one : a :: w ∈ one p L ↔ p a ∧ w ∈ L := by
  rw [mem_one]
  constructor
  · rintro ⟨b, v, hb, hv, heq⟩
    obtain ⟨rfl, rfl⟩ := List.cons.inj heq
    exact ⟨hb, hv⟩
  · rintro ⟨ha, hw⟩
    exact ⟨a, w, ha, hw, rfl⟩

@[simp] theorem nil_mem_many : [] ∈ many p L ↔ [] ∈ L := by
  rw [mem_many]
  constructor
  · rintro ⟨u, v, -, hv, heq⟩
    obtain ⟨rfl, rfl⟩ := List.append_eq_nil_iff.mp heq.symm
    exact hv
  · intro h
    exact ⟨[], [], by simp, h, rfl⟩

@[simp] theorem cons_mem_many :
    a :: w ∈ many p L ↔ (p a ∧ w ∈ many p L) ∨ a :: w ∈ L := by
  simp only [mem_many]
  constructor
  · rintro ⟨u, v, hu, hv, heq⟩
    rcases u with _ | ⟨b, u⟩
    · exact .inr (by simpa [heq] using hv)
    · obtain ⟨rfl, rfl⟩ := List.cons.inj heq
      exact .inl ⟨hu a (by simp), u, v, fun x hx => hu x (by simp [hx]), hv, rfl⟩
  · rintro (⟨ha, u, v, hu, hv, rfl⟩ | hw)
    · refine ⟨a :: u, v, fun x hx => ?_, hv, rfl⟩
      rcases List.mem_cons.mp hx with rfl | hx
      · exact ha
      · exact hu x hx
    · exact ⟨[], a :: w, by simp, hw, rfl⟩

theorem mem_one_eq {b : α} : w ∈ one (· = b) L ↔ ∃ v ∈ L, w = b :: v := by
  rw [mem_one]
  constructor
  · rintro ⟨a, v, rfl, hv, rfl⟩
    exact ⟨v, hv, rfl⟩
  · rintro ⟨v, hv, rfl⟩
    exact ⟨b, v, rfl, hv, rfl⟩

/-- At least one letter satisfying `p`, then a word of `L`. -/
theorem mem_one_many :
    w ∈ one p (many p L) ↔ ∃ u v, u ≠ [] ∧ (∀ a ∈ u, p a) ∧ v ∈ L ∧ w = u ++ v := by
  rw [mem_one]
  constructor
  · rintro ⟨a, _, ha, ⟨u, v, hu, hv, rfl⟩, rfl⟩
    refine ⟨a :: u, v, by simp, fun x hx => ?_, hv, rfl⟩
    rcases List.mem_cons.mp hx with rfl | hx
    · exact ha
    · exact hu x hx
  · rintro ⟨u, v, hne, hu, hv, rfl⟩
    obtain ⟨a, u, rfl⟩ := List.exists_cons_of_ne_nil hne
    exact ⟨a, u ++ v, hu a (by simp), ⟨u, v, fun x hx => hu x (by simp [hx]), hv, rfl⟩, rfl⟩

theorem mem_many_of_mem (h : w ∈ L) : w ∈ many p L :=
  ⟨[], w, by simp, h, rfl⟩

theorem append_mem_many {u v : List α} (hu : ∀ a ∈ u, p a) (hv : v ∈ L) :
    u ++ v ∈ many p L := ⟨u, v, hu, hv, rfl⟩

theorem exists_mem_one (ha : p a) (hL : ∃ w, w ∈ L) : ∃ w, w ∈ one p L := by
  obtain ⟨w, hw⟩ := hL
  exact ⟨a :: w, cons_mem_one.mpr ⟨ha, hw⟩⟩

theorem exists_mem_many (hL : ∃ w, w ∈ L) : ∃ w, w ∈ many p L := by
  obtain ⟨w, hw⟩ := hL
  exact ⟨w, mem_many_of_mem hw⟩

/-! ### Recognisers -/

/-- A partial automaton whose live states carry the language of their
continuations.  `Live` is an invariant of the states met in a run; every live
state can still be completed. -/
structure Recognizer (σ α : Type*) where
  step : σ → α → Option σ
  Live : σ → Prop
  residual : σ → Language α
  live_step : ∀ {s a s'}, Live s → step s a = some s' → Live s'
  cons_mem : ∀ {s a w}, Live s →
    (a :: w ∈ residual s ↔ ∃ s', step s a = some s' ∧ w ∈ residual s')
  completable : ∀ {s}, Live s → ∃ w, w ∈ residual s

namespace Recognizer

variable (A : Recognizer σ α) {s s' : σ}

/-- The state after a whole word, `none` when a letter is refused. -/
def run (s : σ) (w : List α) : Option σ := w.foldlM A.step s

theorem run_cons (s : σ) (a : α) (w : List α) :
    A.run s (a :: w) = (A.step s a).bind fun s' => A.run s' w := rfl

theorem live_run (hs : A.Live s) : A.run s w = some s' → A.Live s' := by
  induction w generalizing s with
  | nil =>
    intro h
    obtain rfl := Option.some_inj.mp h
    exact hs
  | cons a w ih =>
    intro h
    obtain ⟨t, ht, hrun⟩ := Option.bind_eq_some_iff.mp h
    exact ih (A.live_step hs ht) hrun

/-- **Runs compute continuations**: what may follow `w` is what the state `w`
leads to expects. -/
theorem append_mem_residual (hs : A.Live s) (w t : List α) :
    w ++ t ∈ A.residual s ↔ ∃ s', A.run s w = some s' ∧ t ∈ A.residual s' := by
  induction w generalizing s with
  | nil => exact ⟨fun h => ⟨s, rfl, h⟩, fun ⟨_, hs', h⟩ => Option.some_inj.mp hs' ▸ h⟩
  | cons a w ih =>
    rw [List.cons_append, A.cons_mem hs, run_cons]
    constructor
    · rintro ⟨u, hu, hmem⟩
      obtain ⟨s', hrun, ht⟩ := (ih (A.live_step hs hu)).mp hmem
      exact ⟨s', by rw [hu]; exact hrun, ht⟩
    · rintro ⟨s', hrun, ht⟩
      obtain ⟨u, hu, hrun⟩ := Option.bind_eq_some_iff.mp hrun
      exact ⟨u, hu, (ih (A.live_step hs hu)).mpr ⟨s', hrun, ht⟩⟩

theorem mem_residual_iff (hs : A.Live s) :
    w ∈ A.residual s ↔ ∃ s', A.run s w = some s' ∧ [] ∈ A.residual s' := by
  simpa using A.append_mem_residual hs w []

/-- **A run survives exactly as long as the word can be completed.** -/
theorem isSome_run_iff (hs : A.Live s) :
    (A.run s w).isSome ↔ ∃ t, w ++ t ∈ A.residual s := by
  constructor
  · intro h
    obtain ⟨s', hs'⟩ := Option.isSome_iff_exists.mp h
    obtain ⟨t, ht⟩ := A.completable (A.live_run hs hs')
    exact ⟨t, (A.append_mem_residual hs w t).mpr ⟨s', hs', ht⟩⟩
  · rintro ⟨t, ht⟩
    obtain ⟨s', hs', -⟩ := (A.append_mem_residual hs w t).mp ht
    exact Option.isSome_iff_exists.mpr ⟨s', hs'⟩

end Recognizer

end Residual
