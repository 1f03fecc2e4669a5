/-
Maps of maps.

A table with two keys is a tree map of rows, each row a tree map itself.  An
entry is set as `operator[]` does it, with a row created when it is missing;
no row of a table filled that way is empty (`Filled`).

* `lookup_set`, `Filled.set` — setting an entry touches no other, and leaves no
  row empty;
* `Filled.ext` — a filled table is determined by its entries;
* `mem_entries`, `nodup_keys_entries` — iterating over the rows and over each
  row gives every entry once;
* `toList_rename` — renaming the keys in order renames them in the iteration.
-/
import Mathlib.Data.List.Nodup
import Mathlib.Data.List.Perm.Basic
import Mathlib.Tactic.Linarith

set_option linter.unusedSectionVars false

/-- A tree map from `α` to rows from `β` to `γ`. -/
abbrev NestedMap (α β γ : Type*) [Ord α] [Ord β] :=
  Std.ExtTreeMap α (Std.ExtTreeMap β γ compare) compare

namespace NestedMap

variable {α β γ : Type*} [Ord α] [Std.TransOrd α] [Std.LawfulEqOrd α] [Ord β] [Std.TransOrd β]
  [Std.LawfulEqOrd β]

def lookup (m : NestedMap α β γ) (a : α) (b : β) : Option γ := (m[a]?).bind (·[b]?)

/-- `m[a][b] = c`. -/
def set (m : NestedMap α β γ) (a : α) (b : β) (c : γ) : NestedMap α β γ :=
  m.insert a (((m[a]?).getD ∅).insert b c)

/-- No row is empty. -/
def Filled (m : NestedMap α β γ) : Prop :=
  ∀ (a : α) (row : Std.ExtTreeMap β γ compare), m[a]? = some row → row ≠ ∅

/-- The entries in the order of the iteration. -/
def entries (m : NestedMap α β γ) : List ((α × β) × γ) :=
  m.toList.flatMap fun e => e.2.toList.map fun f => ((e.1, f.1), f.2)

theorem lookup_empty (a : α) (b : β) : (∅ : NestedMap α β γ).lookup a b = none := by
  simp [lookup]

theorem lookup_set [DecidableEq α] [DecidableEq β] (m : NestedMap α β γ) (a a' : α) (b b' : β)
    (c : γ) :
    (m.set a b c).lookup a' b' = if a = a' ∧ b = b' then some c else m.lookup a' b' := by
  unfold lookup set
  rw [Std.ExtTreeMap.getElem?_insert]
  by_cases ha : a = a'
  · subst ha
    by_cases hb : b = b'
    · simp [hb]
    · rcases hrow : m[a]? with _ | row <;> simp [hb, Std.ExtTreeMap.getElem?_insert]
  · simp [ha]

theorem filled_empty : (∅ : NestedMap α β γ).Filled := by simp [Filled]

theorem Filled.set {m : NestedMap α β γ} (h : m.Filled) (a : α) (b : β) (c : γ) :
    (m.set a b c).Filled := by
  intro a' row hrow
  rw [NestedMap.set, Std.ExtTreeMap.getElem?_insert] at hrow
  split_ifs at hrow with ha
  · obtain rfl := Option.some.inj hrow
    exact Std.ExtTreeMap.insert_ne_empty
  · exact h a' row hrow

/-- A row is there exactly when it has an entry. -/
theorem Filled.getElem?_eq_none {m : NestedMap α β γ} (h : m.Filled) {a : α} :
    m[a]? = none ↔ ∀ b, m.lookup a b = none := by
  constructor
  · intro ha b
    rw [lookup, ha, Option.bind_none]
  · intro ha
    rcases hrow : m[a]? with _ | row
    · rfl
    · refine absurd (Std.ExtTreeMap.ext_getElem? fun b => ?_) (h a row hrow)
      have hb := ha b
      rw [lookup, hrow, Option.bind_some] at hb
      rw [hb, Std.ExtTreeMap.getElem?_empty]

theorem Filled.getElem?_eq_some {m : NestedMap α β γ} (h : m.Filled) {a : α}
    {row : Std.ExtTreeMap β γ compare} :
    m[a]? = some row ↔ row ≠ ∅ ∧ ∀ b, m.lookup a b = row[b]? := by
  constructor
  · intro hrow
    exact ⟨h a row hrow, fun b => by rw [lookup, hrow, Option.bind_some]⟩
  · rintro ⟨hne, hlookup⟩
    rcases hrow : m[a]? with _ | row'
    · refine absurd (Std.ExtTreeMap.ext_getElem? fun b => ?_) hne
      rw [← hlookup, h.getElem?_eq_none.mp hrow, Std.ExtTreeMap.getElem?_empty]
    · rw [Option.some_inj]
      refine Std.ExtTreeMap.ext_getElem? fun b => ?_
      rw [← hlookup, lookup, hrow, Option.bind_some]

/-- A filled table is determined by its entries. -/
theorem Filled.ext {m m' : NestedMap α β γ} (h : m.Filled) (h' : m'.Filled)
    (hlookup : ∀ a b, m.lookup a b = m'.lookup a b) : m = m' := by
  refine Std.ExtTreeMap.ext_getElem? fun a => ?_
  rcases hrow : m[a]? with _ | row
  · refine (h'.getElem?_eq_none.mpr fun b => ?_).symm
    rw [← hlookup]
    exact h.getElem?_eq_none.mp hrow b
  · obtain ⟨hne, hb⟩ := h.getElem?_eq_some.mp hrow
    exact (h'.getElem?_eq_some.mpr ⟨hne, fun b => by rw [← hlookup, hb]⟩).symm

theorem mem_entries {m : NestedMap α β γ} {a : α} {b : β} {c : γ} :
    ((a, b), c) ∈ m.entries ↔ m.lookup a b = some c := by
  unfold entries lookup
  constructor
  · intro h
    obtain ⟨⟨a', row⟩, he, hf⟩ := List.mem_flatMap.mp h
    obtain ⟨⟨b', c'⟩, hf', heq⟩ := List.mem_map.mp hf
    cases heq
    rw [Std.ExtTreeMap.mem_toList_iff_getElem?_eq_some.mp he, Option.bind_some]
    exact Std.ExtTreeMap.mem_toList_iff_getElem?_eq_some.mp hf'
  · intro h
    obtain ⟨row, hrow, hb⟩ := Option.bind_eq_some_iff.mp h
    exact List.mem_flatMap.mpr ⟨(a, row), Std.ExtTreeMap.mem_toList_iff_getElem?_eq_some.mpr hrow,
      List.mem_map.mpr ⟨(b, c), Std.ExtTreeMap.mem_toList_iff_getElem?_eq_some.mpr hb, rfl⟩⟩

/-- Every key pair is met once. -/
theorem nodup_keys_entries (m : NestedMap α β γ) : (m.entries.map Prod.fst).Nodup := by
  unfold entries
  rw [List.map_flatMap, List.nodup_flatMap]
  constructor
  · intro e _
    have hrow := e.2.nodup_keys.map (Prod.mk_right_injective e.1)
    rw [← Std.ExtTreeMap.map_fst_toList_eq_keys, List.map_map] at hrow
    rw [List.map_map]
    exact hrow
  · -- two rows stand under different keys
    refine m.distinct_keys_toList.imp ?_
    intro e e' he p hp hp'
    simp only [List.map_map, List.mem_map, Function.comp_apply] at hp hp'
    obtain ⟨f, -, rfl⟩ := hp
    obtain ⟨f', -, heq⟩ := hp'
    have ha : e'.1 = e.1 := (Prod.mk.inj heq).1
    exact he (by rw [ha, Std.ReflOrd.compare_self])

/-- Keys renamed in order are met in the same order. -/
theorem toList_rename {α' : Type*} [Ord α'] [Std.TransOrd α'] [Std.LawfulEqOrd α']
    {m : Std.ExtTreeMap α γ compare} {m' : Std.ExtTreeMap α' γ compare} {f : α → α'}
    (hf : ∀ a b, a ∈ m → b ∈ m → compare (f a) (f b) = compare a b)
    (hm' : ∀ a' c, m'[a']? = some c ↔ ∃ a, f a = a' ∧ m[a]? = some c) :
    m'.toList = m.toList.map fun e => (f e.1, e.2) := by
  have hmem : ∀ e ∈ m.toList, e.1 ∈ m := by
    intro e he
    have hget : m[e.1]? = some e.2 := Std.ExtTreeMap.mem_toList_iff_getElem?_eq_some.mp he
    exact Std.ExtTreeMap.mem_iff_isSome_getElem?.mpr (by simp [hget])
  have hordered : (m.toList.map fun e => (f e.1, e.2)).Pairwise
      fun a b => compare a.1 b.1 = .lt := by
    rw [List.pairwise_map]
    refine m.ordered_keys_toList.imp_of_mem ?_
    intro a b ha hb hab
    rw [hf _ _ (hmem a ha) (hmem b hb), hab]
  have hne : ∀ {l : List (α' × γ)}, l.Pairwise (fun a b => compare a.1 b.1 = .lt) → l.Nodup := by
    intro l hl
    refine hl.imp ?_
    rintro a b hab rfl
    rw [Std.ReflOrd.compare_self] at hab
    cases hab
  -- two sorted lists with the same members
  refine List.Perm.eq_of_pairwise ?_ m'.ordered_keys_toList hordered ?_
  · intro a b _ _ hab hba
    rw [Std.OrientedOrd.eq_swap, hba] at hab
    cases hab
  · refine (List.perm_ext_iff_of_nodup (hne m'.ordered_keys_toList) (hne hordered)).mpr ?_
    rintro ⟨a', c⟩
    rw [Std.ExtTreeMap.mem_toList_iff_getElem?_eq_some, hm']
    simp only [List.mem_map, Prod.mk.injEq, Prod.exists,
      Std.ExtTreeMap.mem_toList_iff_getElem?_eq_some]
    constructor
    · rintro ⟨a, rfl, ha⟩
      exact ⟨a, c, ha, rfl, rfl⟩
    · rintro ⟨a, c', ha, rfl, rfl⟩
      exact ⟨a, rfl, ha⟩

end NestedMap
