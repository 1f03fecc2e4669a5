/-
Brackets of several kinds, and words of them that are well nested.

`scan` reads a word with a stack of the brackets that are open.  A word is
nested when every closing bracket meets its own kind on top and nothing is left
open.  Nested words can be put behind each other (`Nested.append`), into a pair
of brackets (`Nested.wrap`), and rewritten bracket by bracket (`Nested.flatMap`).

A paired word has each of its brackets opened once and closed once behind that,
but the pairs may cross.  `prune` goes through such a word and gives up the
pairs that are closed while another one is on top:

* `exists_prune` — it never looks at the top of an empty stack;
* `nested_of_prune` — what it keeps is nested;
* `prune_of_nested` — it gives up nothing when the word is nested already.
-/
import Mathlib.Data.List.Basic
import Mathlib.Data.List.TakeWhile
import Mathlib.Data.Set.Function

namespace Nesting

/-- An opening or a closing bracket. -/
inductive Bracket (α : Type*) where
  | opening (a : α)
  | closing (a : α)
  deriving DecidableEq, Repr

variable {α β : Type*}

namespace Bracket

def kind : Bracket α → α
  | opening a => a
  | closing a => a

def map (f : α → β) : Bracket α → Bracket β
  | opening a => opening (f a)
  | closing a => closing (f a)

@[simp] theorem kind_opening (a : α) : (opening a).kind = a := rfl

@[simp] theorem kind_closing (a : α) : (closing a).kind = a := rfl

@[simp] theorem kind_map (f : α → β) (b : Bracket α) : (b.map f).kind = f b.kind := by
  cases b <;> rfl

end Bracket

section Scan

variable [DecidableEq α]

/-- The brackets open after a word, the last one first; `none` when a closing
bracket does not meet its own kind. -/
def scan : List α → List (Bracket α) → Option (List α)
  | stack, [] => some stack
  | stack, .opening a :: w => scan (a :: stack) w
  | [], .closing _ :: _ => none
  | a :: stack, .closing b :: w => if a = b then scan stack w else none

def Nested (w : List (Bracket α)) : Prop := scan [] w = some []

instance (w : List (Bracket α)) : Decidable (Nested w) :=
  inferInstanceAs (Decidable (scan [] w = some []))

variable {s t : List α} {u v w : List (Bracket α)}

theorem scan_append (s : List α) (u v : List (Bracket α)) :
    scan s (u ++ v) = (scan s u).bind fun t => scan t v := by
  fun_induction scan s u with
  | case1 => rfl
  | case2 stack a u ih => exact ih
  | case3 => rfl
  | case4 stack b u ih => rwa [List.cons_append, scan, if_pos rfl]
  | case5 a stack b u hne => simp [scan, hne]

/-- What is below on the stack does not matter. -/
theorem scan_frame (h : scan s w = some t) (below : List α) :
    scan (s ++ below) w = some (t ++ below) := by
  fun_induction scan s w with
  | case1 stack =>
    obtain rfl := Option.some_inj.mp h
    rfl
  | case2 stack a w ih => exact ih h
  | case3 => cases h
  | case4 stack b w ih => rw [List.cons_append, scan, if_pos rfl, ih h]
  | case5 => cases h

theorem Nested.scan_eq (h : Nested w) (s : List α) : scan s w = some s := scan_frame h s

theorem nested_nil : Nested ([] : List (Bracket α)) := rfl

theorem Nested.append (hu : Nested u) (hv : Nested v) : Nested (u ++ v) := by
  rw [Nested, scan_append, hu]
  exact hv

theorem Nested.wrap (h : Nested w) (a : α) :
    Nested (.opening a :: w ++ [.closing a]) := by
  rw [Nested, List.cons_append, scan, scan_append, h.scan_eq]
  simp [scan]

/-- The brackets that a bracket stands for: each kind for several kinds, the
first of them outermost. -/
def Bracket.expand (f : α → List β) : Bracket α → List (Bracket β)
  | opening a => (f a).map opening
  | closing a => (f a).reverse.map closing

theorem scan_openings (s l : List α) : scan s (l.map .opening) = some (l.reverse ++ s) := by
  induction l generalizing s with
  | nil => rfl
  | cons a l ih => rw [List.map_cons, scan, ih]; simp

theorem scan_closings (s l : List α) : scan (l ++ s) (l.map .closing) = some s := by
  induction l with
  | nil => rfl
  | cons a l ih => rw [List.map_cons, List.cons_append, scan, if_pos rfl, ih]

theorem scan_expand [DecidableEq β] (f : α → List β) (h : scan s w = some t) :
    scan (s.flatMap fun a => (f a).reverse) (w.flatMap (·.expand f)) =
      some (t.flatMap fun a => (f a).reverse) := by
  fun_induction scan s w with
  | case1 stack =>
    obtain rfl := Option.some_inj.mp h
    rfl
  | case2 stack a w ih =>
    rw [List.flatMap_cons, scan_append, Bracket.expand, scan_openings]
    exact ih h
  | case3 => cases h
  | case4 stack b w ih =>
    rw [List.flatMap_cons, List.flatMap_cons, scan_append, Bracket.expand, scan_closings]
    exact ih h
  | case5 => cases h

/-- Each bracket may be replaced by several. -/
theorem Nested.flatMap [DecidableEq β] (h : Nested w) (f : α → List β) :
    Nested (w.flatMap (·.expand f)) := scan_expand f h

theorem Nested.map [DecidableEq β] (h : Nested w) (f : α → β) : Nested (w.map (·.map f)) := by
  have hexpand : w.map (·.map f) = w.flatMap (·.expand fun a => [f a]) := by
    rw [List.map_eq_flatMap]
    refine List.flatMap_congr fun b _ => ?_
    cases b <;> rfl
  rw [hexpand]
  exact h.flatMap _

/-- Brackets whose names are nested are nested if the names tell them apart. -/
theorem scan_of_map [DecidableEq β] {f : α → β} {kinds : Set α} (hf : kinds.InjOn f)
    (hs : ∀ a ∈ s, a ∈ kinds) (hw : ∀ b ∈ w, b.kind ∈ kinds)
    (h : scan (s.map f) (w.map (·.map f)) = some []) : scan s w = some [] := by
  fun_induction scan s w with
  | case1 stack => simpa [scan] using h
  | case2 stack a w ih =>
    refine ih ?_ (fun b hb => hw b (List.mem_cons_of_mem _ hb)) h
    rintro b (_ | ⟨_, hb⟩)
    · exact hw _ List.mem_cons_self
    · exact hs b hb
  | case3 => cases h
  | case4 stack b w ih =>
    rw [List.map_cons, List.map_cons, Bracket.map, scan, if_pos rfl] at h
    exact ih (fun a ha => hs a (List.mem_cons_of_mem b ha))
      (fun c hc => hw c (List.mem_cons_of_mem _ hc)) h
  | case5 a stack b w hne =>
    rw [List.map_cons, List.map_cons, Bracket.map, scan] at h
    split_ifs at h with heq
    have hb : b ∈ kinds := hw (.closing b) List.mem_cons_self
    exact absurd (hf (hs a List.mem_cons_self) hb heq) hne

theorem nested_of_map [DecidableEq β] {f : α → β} {kinds : Set α} (hf : kinds.InjOn f)
    (hw : ∀ b ∈ w, b.kind ∈ kinds) (h : Nested (w.map (·.map f))) : Nested w :=
  scan_of_map hf (by simp) hw h

/-! ### Pairs that cross -/

/-- The brackets of one kind. -/
def ofKind (a : α) (w : List (Bracket α)) : List (Bracket α) := w.filter (·.kind = a)

@[simp] theorem ofKind_nil (a : α) : ofKind a [] = [] := rfl

theorem ofKind_cons (a : α) (b : Bracket α) (w : List (Bracket α)) :
    ofKind a (b :: w) = if b.kind = a then b :: ofKind a w else ofKind a w := by
  rw [ofKind, List.filter_cons]
  simp only [decide_eq_true_eq]
  rfl

@[simp] theorem ofKind_opening_self (a : α) (w : List (Bracket α)) :
    ofKind a (.opening a :: w) = .opening a :: ofKind a w := by
  rw [ofKind_cons, Bracket.kind_opening, if_pos rfl]

@[simp] theorem ofKind_closing_self (a : α) (w : List (Bracket α)) :
    ofKind a (.closing a :: w) = .closing a :: ofKind a w := by
  rw [ofKind_cons, Bracket.kind_closing, if_pos rfl]

theorem ofKind_cons_of_ne {a : α} {b : Bracket α} (h : b.kind ≠ a) (w : List (Bracket α)) :
    ofKind a (b :: w) = ofKind a w := by
  rw [ofKind_cons, if_neg h]

/-- Each kind is opened once and closed once behind that, or does not occur. -/
def Paired (w : List (Bracket α)) : Prop :=
  ∀ a, ofKind a w = [] ∨ ofKind a w = [.opening a, .closing a]

/-- The kinds given up, `dropped` those given up so far; `none` when the top of
an empty stack is looked at. -/
def prune : List α → List α → List (Bracket α) → Option (List α)
  | _, dropped, [] => some dropped
  | stack, dropped, .opening a :: w => prune (a :: stack) dropped w
  | [], _, .closing _ :: _ => none
  | a :: stack, dropped, .closing b :: w =>
    if b ≠ a then prune (a :: stack) (b :: dropped) w
    else prune (stack.dropWhile (· ∈ dropped)) dropped w

/-- What is known on the way: the rest of the word closes the kinds that are on
the stack and not given up, and pairs the others that occur. -/
structure Pruning (stack dropped : List α) (w : List (Bracket α)) : Prop where
  rest : ∀ a, ofKind a w = [] ∨ ofKind a w = [.closing a] ∨
    ofKind a w = [.opening a, .closing a]
  pending : ∀ a, ofKind a w = [.closing a] ↔ a ∈ stack ∧ a ∉ dropped
  closed : ∀ a ∈ dropped, ofKind a w = []
  top : ∀ a ∈ stack.head?, a ∉ dropped
  nodup : stack.Nodup

theorem Paired.pruning (h : Paired w) : Pruning [] [] w where
  rest a := (h a).imp id .inr
  pending a := by
    rcases h a with hw | hw <;> simp [hw]
  closed := by simp
  top := by simp
  nodup := List.nodup_nil

namespace Pruning

variable {stack dropped : List α} {a b : α}

/-- A bracket that is opened is new, and closed later. -/
theorem of_opening (h : Pruning stack dropped (.opening a :: w)) :
    a ∉ stack ∧ a ∉ dropped ∧ ofKind a w = [.closing a] := by
  have hrest := h.rest a
  have hpending := h.pending a
  have hclosed := h.closed a
  rw [ofKind_opening_self] at hrest hpending hclosed
  have hdropped : a ∉ dropped := fun hmem => by simp at hclosed; exact hclosed hmem
  refine ⟨fun hmem => ?_, hdropped, by simpa using hrest⟩
  have hstack := hpending.mpr ⟨hmem, hdropped⟩
  simp at hstack

/-- A bracket that is closed is on the stack, and does not occur again. -/
theorem of_closing (h : Pruning stack dropped (.closing b :: w)) :
    b ∈ stack ∧ b ∉ dropped ∧ ofKind b w = [] := by
  have hrest := h.rest b
  have hpending := h.pending b
  rw [ofKind_closing_self] at hrest hpending
  have hnil : ofKind b w = [] := by simpa using hrest
  obtain ⟨hstack, hdropped⟩ := hpending.mp (by rw [hnil])
  exact ⟨hstack, hdropped, hnil⟩

theorem of_open (h : Pruning stack dropped (.opening a :: w)) :
    Pruning (a :: stack) dropped w := by
  obtain ⟨hstack, hdropped, hclosing⟩ := h.of_opening
  have hothers : ∀ c, a ≠ c → ofKind c (.opening a :: w) = ofKind c w :=
    fun c hne => ofKind_cons_of_ne (b := .opening a) hne w
  refine ⟨fun c => ?_, fun c => ?_, fun c hc => ?_, ?_, List.nodup_cons.mpr ⟨hstack, h.nodup⟩⟩
  · by_cases hac : a = c
    · subst hac
      exact .inr (.inl hclosing)
    · rw [← hothers c hac]
      exact h.rest c
  · by_cases hac : a = c
    · subst hac
      simp [hclosing, hdropped]
    · rw [← hothers c hac, h.pending c, List.mem_cons]
      simp [Ne.symm hac]
  · have hac : a ≠ c := fun heq => hdropped (heq ▸ hc)
    rw [← hothers c hac]
    exact h.closed c hc
  · rintro c ⟨⟩
    exact hdropped

/-- A pair that crosses the one on top is given up. -/
theorem of_cross (h : Pruning (a :: stack) dropped (.closing b :: w)) (hne : b ≠ a) :
    Pruning (a :: stack) (b :: dropped) w := by
  obtain ⟨-, -, hnil⟩ := h.of_closing
  have hothers : ∀ c, b ≠ c → ofKind c (.closing b :: w) = ofKind c w :=
    fun c hne => ofKind_cons_of_ne (b := .closing b) hne w
  refine ⟨fun c => ?_, fun c => ?_, fun c hc => ?_, ?_, h.nodup⟩
  · by_cases hbc : b = c
    · subst hbc
      exact .inl hnil
    · rw [← hothers c hbc]
      exact h.rest c
  · by_cases hbc : b = c
    · subst hbc
      simp [hnil]
    · rw [← hothers c hbc, h.pending c]
      simp [Ne.symm hbc]
  · by_cases hbc : b = c
    · subst hbc
      exact hnil
    · rw [← hothers c hbc]
      exact h.closed c ((List.mem_cons.mp hc).resolve_left (Ne.symm hbc))
  · rintro c ⟨⟩
    simp [Ne.symm hne, h.top a rfl]

/-- The pair on top is kept, and what is given up below it leaves the stack. -/
theorem of_close (h : Pruning (a :: stack) dropped (.closing a :: w)) :
    Pruning (stack.dropWhile (· ∈ dropped)) dropped w := by
  obtain ⟨-, hdropped, hnil⟩ := h.of_closing
  obtain ⟨ha, hnodup⟩ := List.nodup_cons.mp h.nodup
  have hsub : stack.dropWhile (· ∈ dropped) <:+ stack := List.dropWhile_suffix _
  have hothers : ∀ c, a ≠ c → ofKind c (.closing a :: w) = ofKind c w :=
    fun c hne => ofKind_cons_of_ne (b := .closing a) hne w
  refine ⟨fun c => ?_, fun c => ?_, fun c hc => ?_, fun c hc => ?_, hnodup.sublist hsub.sublist⟩
  · by_cases hac : a = c
    · subst hac
      exact .inl hnil
    · rw [← hothers c hac]
      exact h.rest c
  · by_cases hac : a = c
    · subst hac
      simp only [hnil, reduceCtorEq, false_iff, not_and, not_not]
      exact fun hmem => absurd (hsub.mem hmem) ha
    · rw [← hothers c hac, h.pending c, List.mem_cons]
      -- what leaves the stack has been given up
      constructor
      · rintro ⟨hc, hcdropped⟩
        have hmem : c ∈ stack := hc.resolve_left (Ne.symm hac)
        rw [← List.takeWhile_append_dropWhile (p := (· ∈ dropped)) (l := stack),
          List.mem_append] at hmem
        refine ⟨hmem.resolve_left fun htake => hcdropped ?_, hcdropped⟩
        simpa using List.mem_takeWhile_imp htake
      · rintro ⟨hc, hcdropped⟩
        exact ⟨.inr (hsub.mem hc), hcdropped⟩
  · have hac : a ≠ c := fun heq => hdropped (heq ▸ hc)
    rw [← hothers c hac]
    exact h.closed c hc
  · have hhead := List.head?_dropWhile_not (· ∈ dropped) stack
    rw [Option.mem_def.mp hc] at hhead
    simpa using hhead

end Pruning

variable {stack dropped final : List α}

/-- **The stack is never empty when its top is looked at.** -/
theorem exists_prune (h : Pruning stack dropped w) :
    ∃ final, prune stack dropped w = some final := by
  fun_induction prune stack dropped w with
  | case1 stack dropped => exact ⟨dropped, rfl⟩
  | case2 stack dropped a w ih => exact ih h.of_open
  | case3 dropped b w => exact absurd h.of_closing.1 List.not_mem_nil
  | case4 a stack dropped b w hne ih => exact ih (h.of_cross hne)
  | case5 a stack dropped b w heq ih =>
    obtain rfl := not_not.mp heq
    exact ih h.of_close

/-- What has been given up stays so, and nothing else is than what is closed in
the rest. -/
theorem mem_prune (hfinal : prune stack dropped w = some final) (a : α) :
    (a ∈ dropped → a ∈ final) ∧ (a ∈ final → a ∈ dropped ∨ ofKind a w ≠ []) := by
  have hcons : ∀ (b : Bracket α) (v : List (Bracket α)), ofKind a v ≠ [] →
      ofKind a (b :: v) ≠ [] := by
    intro b v hne
    rw [ofKind_cons]
    split_ifs
    · simp
    · exact hne
  fun_induction prune stack dropped w with
  | case1 stack dropped =>
    obtain rfl := Option.some_inj.mp hfinal
    exact ⟨id, .inl⟩
  | case2 stack dropped b w ih =>
    exact ⟨(ih hfinal).1, fun hmem => ((ih hfinal).2 hmem).imp id (hcons _ w)⟩
  | case3 => cases hfinal
  | case4 b stack dropped c w hne ih =>
    obtain ⟨hkept, honly⟩ := ih hfinal
    refine ⟨fun hmem => hkept (List.mem_cons_of_mem c hmem), fun hmem => ?_⟩
    rcases honly hmem with hdropped | hrest
    · rcases List.mem_cons.mp hdropped with rfl | hdropped
      · exact .inr (by simp)
      · exact .inl hdropped
    · exact .inr (hcons _ w hrest)
  | case5 b stack dropped c w heq ih =>
    exact ⟨(ih hfinal).1, fun hmem => ((ih hfinal).2 hmem).imp id (hcons _ w)⟩

/-- What is on the stack and not given up is closed by the rest. -/
theorem scan_of_prune (h : Pruning stack dropped w) (hfinal : prune stack dropped w = some final) :
    scan (stack.filter (· ∉ final)) (w.filter (·.kind ∉ final)) = some [] := by
  fun_induction prune stack dropped w with
  | case1 stack dropped =>
    obtain rfl := Option.some_inj.mp hfinal
    have hnone : stack.filter (· ∉ dropped) = [] := by
      refine List.filter_eq_nil_iff.mpr fun a ha => ?_
      have hpending := (h.pending a).not.mp (by simp)
      simpa [ha] using hpending
    rw [hnone]
    rfl
  | case2 stack dropped a w ih =>
    have hrest := ih h.of_open hfinal
    by_cases ha : a ∈ final
    · simpa [List.filter_cons, ha] using hrest
    · simpa [List.filter_cons, ha, scan] using hrest
  | case3 => cases hfinal
  | case4 a stack dropped b w hne ih =>
    have hb : b ∈ final := (mem_prune hfinal b).1 List.mem_cons_self
    have hskip : (Bracket.closing b :: w).filter (·.kind ∉ final) = w.filter (·.kind ∉ final) :=
      List.filter_cons_of_neg (by simp [hb])
    rw [hskip]
    exact ih (h.of_cross hne) hfinal
  | case5 a stack dropped b w heq ih =>
    obtain rfl := not_not.mp heq
    have hb : b ∉ final := by
      intro hmem
      obtain ⟨-, hdropped, hnil⟩ := h.of_closing
      rcases (mem_prune hfinal b).2 hmem with hb | hb
      · exact hdropped hb
      · exact hb hnil
    -- what leaves the stack has been given up
    have hstack : (stack.dropWhile (· ∈ dropped)).filter (· ∉ final) =
        stack.filter (· ∉ final) := by
      have hgiven : (stack.takeWhile (· ∈ dropped)).filter (· ∉ final) = [] := by
        refine List.filter_eq_nil_iff.mpr fun c hc => ?_
        have hcdropped : c ∈ dropped := by simpa using List.mem_takeWhile_imp hc
        simpa using (mem_prune hfinal c).1 hcdropped
      calc (stack.dropWhile (· ∈ dropped)).filter (· ∉ final)
          = (stack.takeWhile (· ∈ dropped) ++ stack.dropWhile (· ∈ dropped)).filter
              (· ∉ final) := by rw [List.filter_append, hgiven, List.nil_append]
        _ = stack.filter (· ∉ final) := by rw [List.takeWhile_append_dropWhile]
    have hrest := ih h.of_close hfinal
    rw [hstack] at hrest
    have hkeep : (Bracket.closing b :: w).filter (·.kind ∉ final) =
        .closing b :: w.filter (·.kind ∉ final) := List.filter_cons_of_pos (by simp [hb])
    have hpop : (b :: stack).filter (· ∉ final) = b :: stack.filter (· ∉ final) :=
      List.filter_cons_of_pos (by simp [hb])
    rw [hkeep, hpop, scan, if_pos rfl]
    exact hrest

/-- **What is kept is nested.** -/
theorem nested_of_prune (h : Paired w) (hfinal : prune [] [] w = some final) :
    Nested (w.filter (·.kind ∉ final)) := scan_of_prune h.pruning hfinal

theorem prune_of_scan (h : scan s w = some []) : prune s [] w = some [] := by
  fun_induction scan s w with
  | case1 => rfl
  | case2 stack a w ih => exact ih h
  | case3 => cases h
  | case4 stack b w ih =>
    rw [prune, if_neg (by simp), List.dropWhile_eq_self_iff.mpr (by simp)]
    exact ih h
  | case5 => cases h

/-- **Nothing is given up of a word that is nested.** -/
theorem prune_of_nested (h : Nested w) : prune [] [] w = some [] := prune_of_scan h

end Scan

end Nesting
