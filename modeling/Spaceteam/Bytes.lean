/-
Byte strings: the `std::string` operations the server uses.

A `std::string` is a list of bytes.  The searches return `none` for `npos`,
and `substr` returns `none` where the library throws `std::out_of_range`, so
that every position a caller computes is checked where the C++ checks it:

* `findFrom_eq_some` — `s.find(c, pos)` is the first occurrence at or after
  `pos`;
* `rfind_eq_some`, `rfind_eq_none` — `s.rfind(c)` is the last occurrence.
-/
import Mathlib.Data.List.Basic
import Mathlib.Data.List.Infix
import Mathlib.Data.List.TakeWhile

/-- A `std::string`. -/
abbrev Bytes := List UInt8

/-- The byte of an ASCII character. -/
def ascii (c : Char) : UInt8 := UInt8.ofNat c.toNat

/-- The bytes of an ASCII string literal. -/
def bytes (s : String) : Bytes := s.toList.map ascii

namespace Bytes

/-- The line terminator `"\r\n"`. -/
def crlf : Bytes := [ascii '\r', ascii '\n']

/-- `s.find(c, pos)` for a single character. -/
def findFrom (s : Bytes) (c : UInt8) (pos : ℕ) : Option ℕ :=
  ((s.drop pos).findIdx? (· == c)).map (pos + ·)

/-- `s.rfind(c)` for a single character. -/
def rfind : Bytes → UInt8 → Option ℕ
  | [], _ => none
  | a :: s, c =>
    match rfind s c with
    | some i => some (i + 1)
    | none => if a = c then some 0 else none

/-- `s.substr(pos)`; `none` when it throws `std::out_of_range`. -/
def substr (s : Bytes) (pos : ℕ) : Option Bytes :=
  if pos ≤ s.length then some (s.drop pos) else none

/-- `s.find(t) != npos`. -/
def contains (s t : Bytes) : Bool := decide (t <:+: s)

/-- The bytes of a C string. -/
def cString (buffer : Bytes) : Bytes := buffer.takeWhile (· ≠ 0)

theorem cString_eq_self_iff {buffer : Bytes} : cString buffer = buffer ↔ (0 : UInt8) ∉ buffer := by
  rw [cString, List.takeWhile_eq_self_iff]
  constructor
  · intro h hzero
    simpa using h 0 hzero
  · intro h c hc
    have hne : c ≠ 0 := fun hzero => h (hzero ▸ hc)
    simpa using hne

theorem zero_not_mem_cString (buffer : Bytes) : (0 : UInt8) ∉ cString buffer := by
  intro hmem
  have hne := List.mem_takeWhile_imp hmem
  simp at hne

/-- A property that is computed character by character. -/
theorem forall_mem_of_all {p : UInt8 → Prop} [DecidablePred p] {s : Bytes}
    (h : s.all (fun c => decide (p c)) = true) : ∀ c ∈ s, p c :=
  fun c hc => of_decide_eq_true (List.all_eq_true.mp h c hc)

theorem findFrom_eq_some {s : Bytes} {c : UInt8} {pos i : ℕ} :
    findFrom s c pos = some i ↔
      pos ≤ i ∧ s[i]? = some c ∧ ∀ j, pos ≤ j → j < i → s[j]? ≠ some c := by
  rw [findFrom, Option.map_eq_some_iff]
  constructor
  · rintro ⟨k, hk, rfl⟩
    obtain ⟨hlen, hc, hmin⟩ := List.findIdx?_eq_some_iff_getElem.mp hk
    simp only [List.length_drop] at hlen
    simp only [List.getElem_drop, beq_iff_eq] at hc hmin
    refine ⟨Nat.le_add_right _ _, ?_, fun j hj hji hsj => ?_⟩
    · rw [List.getElem?_eq_getElem (by omega), hc]
    · obtain ⟨hjlen, hval⟩ := List.getElem?_eq_some_iff.mp hsj
      have := hmin (j - pos) (by omega)
      simp only [Nat.add_sub_cancel' hj] at this
      exact this hval
  · rintro ⟨hle, hc, hmin⟩
    obtain ⟨hlen, hval⟩ := List.getElem?_eq_some_iff.mp hc
    refine ⟨i - pos, ?_, by omega⟩
    refine List.findIdx?_eq_some_iff_getElem.mpr ⟨by simp; omega, ?_, fun j hj => ?_⟩
    · simp [Nat.add_sub_cancel' hle, hval]
    · simp only [List.getElem_drop, beq_iff_eq]
      intro hsj
      exact hmin (pos + j) (by omega) (by omega)
        (List.getElem?_eq_some_iff.mpr ⟨by omega, hsj⟩)

/-- The first occurrence is behind a part that has none. -/
theorem findFrom_append {s t : Bytes} {c : UInt8} (hs : c ∉ s) :
    findFrom (s ++ c :: t) c 0 = some s.length := by
  refine findFrom_eq_some.mpr ⟨Nat.zero_le _, by simp, fun j _ hj heq => ?_⟩
  rw [List.getElem?_append_left hj] at heq
  exact hs (List.mem_of_getElem? heq)

theorem findFrom_of_not_mem {s : Bytes} {c : UInt8} (hs : c ∉ s) : findFrom s c 0 = none := by
  rcases hfind : findFrom s c 0 with _ | pos
  · rfl
  · obtain ⟨-, hc, -⟩ := findFrom_eq_some.mp hfind
    exact absurd (List.mem_of_getElem? hc) hs

theorem rfind_eq_none {s : Bytes} {c : UInt8} : rfind s c = none ↔ c ∉ s := by
  induction s with
  | nil => simp [rfind]
  | cons a s ih =>
    rw [rfind]
    rcases h : rfind s c with _ | i
    · have hs : c ∉ s := ih.mp h
      by_cases hac : a = c
      · simp [hac]
      · simp [hac, hs, Ne.symm hac]
    · have hs : c ∈ s := by
        by_contra hs
        rw [ih.mpr hs] at h
        exact absurd h (by simp)
      simp [hs]

/-- The last occurrence splits the string: what follows it has no `c`. -/
theorem rfind_eq_some {s : Bytes} {c : UInt8} {i : ℕ} :
    rfind s c = some i ↔ ∃ u v, s = u ++ c :: v ∧ u.length = i ∧ c ∉ v := by
  induction s generalizing i with
  | nil => simp [rfind]
  | cons a s ih =>
    rw [rfind]
    rcases h : rfind s c with _ | k
    · have hs : c ∉ s := rfind_eq_none.mp h
      constructor
      · intro hi
        by_cases hac : a = c
        · simp only [hac, if_true, Option.some_inj] at hi
          exact ⟨[], s, by simp [hac], hi, hs⟩
        · simp [hac] at hi
      · rintro ⟨u, v, heq, rfl, hv⟩
        rcases u with _ | ⟨b, u⟩
        · simp only [List.nil_append, List.cons.injEq] at heq
          simp [heq.1]
        · simp only [List.cons_append, List.cons.injEq] at heq
          exact absurd (by simp [heq.2]) hs
    · simp only [Option.some_inj]
      constructor
      · rintro rfl
        obtain ⟨u, v, heq, hlen, hv⟩ := ih.mp h
        exact ⟨a :: u, v, by simp [heq], by simp [hlen], hv⟩
      · rintro ⟨u, v, heq, rfl, hv⟩
        rcases u with _ | ⟨b, u⟩
        · simp only [List.nil_append, List.cons.injEq] at heq
          rw [rfind_eq_none.mpr (heq.2 ▸ hv)] at h
          exact absurd h (by simp)
        · -- by the induction hypothesis the two positions are the same
          simp only [List.cons_append, List.cons.injEq] at heq
          have : rfind s c = some u.length := ih.mpr ⟨u, v, heq.2, rfl, hv⟩
          rw [h, Option.some_inj] at this
          simp [this]

theorem substr_append (s t : Bytes) (n : ℕ) : (s ++ t).substr (s.length + n) = t.substr n := by
  simp [substr]

theorem substr_cons (c : UInt8) (s : Bytes) (n : ℕ) : substr (c :: s) (n + 1) = s.substr n := by
  simp [substr]

theorem substr_eq_none_iff {s : Bytes} {n : ℕ} : s.substr n = none ↔ s.length < n := by
  simp [substr]

theorem contains_iff {s t : Bytes} : contains s t = true ↔ t <:+: s := by
  simp [contains]

end Bytes
