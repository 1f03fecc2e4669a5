/-
Looking something up along a chain that goes down.

`next` leads from a point to the one below it, if there is one; `search` looks
up one point after the other until something is found or the chain ends.  When
every step makes the measure `size` smaller, the search ends
(`search_total`), what it finds is at the largest point of the chain where
there is anything to find (`search_eq_found`), and it finds nothing only when
there is nothing (`search_eq_missing`).
-/
import Mathlib.Logic.Relation
import Mathlib.Tactic.Linarith

namespace Descent

variable {α β : Type*} (next : α → Option α) (look : α → Option β)

/-- `b` is on the chain that begins at `a`. -/
def OnChain (a b : α) : Prop := Relation.ReflTransGen (fun x y => next x = some y) a b

/-- The first point of the chain where there is something, and what is there;
`none` when `fuel` steps were not enough. -/
def search : ℕ → Option α → Option (Option (α × β))
  | 0, _ => none
  | _ + 1, none => some none
  | fuel + 1, some a =>
    match look a with
    | some x => some (some (a, x))
    | none => search fuel (next a)

variable {next look} {size : α → ℕ}

theorem OnChain.size_le (hnext : ∀ a b, next a = some b → size b < size a) {a b : α}
    (h : OnChain next a b) : size b ≤ size a := by
  induction h with
  | refl => exact le_rfl
  | tail _ hstep ih => exact (hnext _ _ hstep).le.trans ih

theorem search_total (hnext : ∀ a b, next a = some b → size b < size a) {fuel : ℕ} {a : α}
    (hfuel : size a + 2 ≤ fuel) : ∃ r, search next look fuel (some a) = some r := by
  induction fuel generalizing a with
  | zero => omega
  | succ fuel ih =>
    rw [search]
    rcases look a with _ | x
    · rcases hb : next a with _ | b
      · obtain ⟨fuel, rfl⟩ := Nat.exists_eq_succ_of_ne_zero (show fuel ≠ 0 by omega)
        exact ⟨none, rfl⟩
      · have hlt := hnext a b hb
        exact ih (by omega)
    · exact ⟨_, rfl⟩

/-- What is found is found at the largest point where there is anything. -/
theorem search_eq_found (hnext : ∀ a b, next a = some b → size b < size a) {fuel : ℕ}
    {a b : α} {x : β} : search next look fuel (some a) = some (some (b, x)) →
      OnChain next a b ∧ look b = some x ∧
        ∀ c, OnChain next a c → look c ≠ none → size c ≤ size b := by
  induction fuel generalizing a with
  | zero => intro h; cases h
  | succ fuel ih =>
    intro h
    rw [search] at h
    rcases hlook : look a with _ | y
    · rw [hlook] at h
      rcases hnext' : next a with _ | a'
      · rw [hnext'] at h
        cases fuel <;> cases h
      · rw [hnext'] at h
        obtain ⟨hchain, hb, hmax⟩ := ih h
        -- there is nothing at `a` itself
        refine ⟨Relation.ReflTransGen.head hnext' hchain, hb, fun c hc hne => ?_⟩
        rcases Relation.ReflTransGen.cases_head hc with rfl | ⟨a'', ha'', hc'⟩
        · exact absurd hlook hne
        · obtain rfl : a' = a'' := Option.some_inj.mp (hnext'.symm.trans ha'')
          exact hmax c hc' hne
    · rw [hlook] at h
      obtain ⟨rfl, rfl⟩ : a = b ∧ y = x := by simpa using h
      exact ⟨Relation.ReflTransGen.refl, hlook, fun c hc _ => OnChain.size_le hnext hc⟩

/-- Nothing is found only when there is nothing. -/
theorem search_eq_missing {fuel : ℕ} {a : α} :
    search next look fuel (some a) = some none → ∀ c, OnChain next a c → look c = none := by
  induction fuel generalizing a with
  | zero => intro h; cases h
  | succ fuel ih =>
    intro h c hc
    rw [search] at h
    rcases hlook : look a with _ | y
    · rw [hlook] at h
      rcases Relation.ReflTransGen.cases_head hc with rfl | ⟨a', ha', hc'⟩
      · exact hlook
      · rw [ha'] at h
        exact ih h c hc'
    · rw [hlook] at h
      cases h

end Descent
