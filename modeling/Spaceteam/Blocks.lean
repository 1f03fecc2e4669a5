/-
Block-structured statement lists over an arbitrary type of words.

A statement is a non-empty run of words closed by a semicolon or by a block of
statements in braces:

  `config ::= stmt*`,  `stmt ::= word+ (';' | '{' config '}')`.

`flattenAll` writes a list of statements as symbols, `IsConfig` is the grammar
above as an inductive predicate, and `Zipper` is the reader of such texts: the
statements completed in the innermost block, the words of the statement being
read, and for every enclosing block what is waiting there.

* `isConfig_iff` — the derivable texts are the flattenings of well-formed
  lists;
* `isConfig_map` — renaming the words does not change what is derivable;
* `Zipper.consumed_of_run` — a zipper holds exactly the symbols it has read;
* `Zipper.run_flattenAll` — reading a flattening appends its statements;
* `Zipper.isConfig_iff_run` — the reader accepts the grammar, and only it,
  whatever stands before;
* `update_plug` — a change at the address of a zipper's innermost block is a
  change of the innermost block.
-/
import Mathlib.Data.List.Basic
import Mathlib.Data.List.Infix

namespace Blocks

/-- The symbols of a block-structured text. -/
inductive Symbol (α : Type*) where
  | word (w : α)
  | semicolon
  | openBrace
  | closeBrace
  deriving DecidableEq, Repr

/-- A statement; `childBlock` is `none` when it ends with a semicolon. -/
inductive Statement (α : Type*) where
  | mk (tokens : List α) (childBlock : Option (List (Statement α)))

variable {α : Type*} {p : α → Prop}

namespace Statement

def tokens : Statement α → List α
  | mk ws _ => ws

def childBlock : Statement α → Option (List (Statement α))
  | mk _ c => c

@[simp] theorem tokens_mk (ws : List α) (c : Option (List (Statement α))) :
    (mk ws c).tokens = ws := rfl

@[simp] theorem childBlock_mk (ws : List α) (c : Option (List (Statement α))) :
    (mk ws c).childBlock = c := rfl

end Statement

/-! ### Flattening and well-formedness -/

mutual

def Statement.flatten : Statement α → List (Symbol α)
  | .mk ws none => ws.map .word ++ [.semicolon]
  | .mk ws (some c) => ws.map .word ++ .openBrace :: (flattenAll c ++ [.closeBrace])

/-- The statements one after the other, words, separators and braces. -/
def flattenAll : List (Statement α) → List (Symbol α)
  | [] => []
  | s :: c => s.flatten ++ flattenAll c

end

mutual

def Statement.Wf (p : α → Prop) : Statement α → Prop
  | .mk ws none => ws ≠ [] ∧ ∀ w ∈ ws, p w
  | .mk ws (some c) => ws ≠ [] ∧ (∀ w ∈ ws, p w) ∧ WfAll p c

/-- Every statement, at any depth, has a word and only words satisfying `p`. -/
def WfAll (p : α → Prop) : List (Statement α) → Prop
  | [] => True
  | s :: c => s.Wf p ∧ WfAll p c

end

@[simp] theorem flattenAll_nil : flattenAll ([] : List (Statement α)) = [] := rfl

@[simp] theorem flattenAll_cons (s : Statement α) (c : List (Statement α)) :
    flattenAll (s :: c) = s.flatten ++ flattenAll c := rfl

@[simp] theorem flattenAll_append (c d : List (Statement α)) :
    flattenAll (c ++ d) = flattenAll c ++ flattenAll d := by
  induction c with
  | nil => rfl
  | cons s c ih => simp [ih]

@[simp] theorem flatten_semicolon (ws : List α) :
    (Statement.mk ws none).flatten = ws.map .word ++ [.semicolon] := rfl

@[simp] theorem flatten_block (ws : List α) (c : List (Statement α)) :
    (Statement.mk ws (some c)).flatten =
      ws.map .word ++ .openBrace :: (flattenAll c ++ [.closeBrace]) := rfl

@[simp] theorem wfAll_nil : WfAll p [] := trivial

@[simp] theorem wfAll_cons {s : Statement α} {c : List (Statement α)} :
    WfAll p (s :: c) ↔ s.Wf p ∧ WfAll p c := Iff.rfl

@[simp] theorem wfAll_append {c d : List (Statement α)} :
    WfAll p (c ++ d) ↔ WfAll p c ∧ WfAll p d := by
  induction c with
  | nil => simp
  | cons s c ih => simp [ih, and_assoc]

@[simp] theorem wf_semicolon {ws : List α} :
    (Statement.mk ws none).Wf p ↔ ws ≠ [] ∧ ∀ w ∈ ws, p w := Iff.rfl

@[simp] theorem wf_block {ws : List α} {c : List (Statement α)} :
    (Statement.mk ws (some c)).Wf p ↔ ws ≠ [] ∧ (∀ w ∈ ws, p w) ∧ WfAll p c := Iff.rfl

theorem getLast?_flatten (s : Statement α) :
    s.flatten.getLast? = some .semicolon ∨ s.flatten.getLast? = some .closeBrace := by
  rcases s with ⟨ws, _ | c⟩
  · left
    simp
  · right
    rw [flatten_block, ← List.cons_append, ← List.append_assoc, List.getLast?_append]
    rfl

/-- A flattening ends with a semicolon or a brace. -/
theorem getLast?_flattenAll (c : List (Statement α)) (w : α) :
    (flattenAll c).getLast? ≠ some (.word w) := by
  induction c with
  | nil => simp
  | cons s c ih =>
    rw [flattenAll_cons, List.getLast?_append]
    rcases hc : (flattenAll c).getLast? with _ | a
    · -- nothing follows the statement `s`
      rcases getLast?_flatten s with h | h <;> simp [h]
    · simpa [hc] using ih

mutual

theorem Statement.Wf.mono {q : α → Prop} (hpq : ∀ w, p w → q w) {s : Statement α}
    (h : s.Wf p) : s.Wf q :=
  match s, h with
  | .mk _ none, h => ⟨h.1, fun w hw => hpq w (h.2 w hw)⟩
  | .mk _ (some _), h => ⟨h.1, fun w hw => hpq w (h.2.1 w hw), h.2.2.mono hpq⟩

theorem WfAll.mono {q : α → Prop} (hpq : ∀ w, p w → q w) {c : List (Statement α)}
    (h : WfAll p c) : WfAll q c :=
  match c, h with
  | [], _ => trivial
  | _ :: _, h => ⟨h.1.mono hpq, WfAll.mono hpq h.2⟩

end

mutual

theorem Statement.Wf.of_flatten {s : Statement α} (h : s.Wf fun _ => True)
    (hp : ∀ w, .word w ∈ s.flatten → p w) : s.Wf p :=
  match s, h with
  | .mk _ none, h => ⟨h.1, fun w hw => hp w (by simp [hw])⟩
  | .mk _ (some _), h => ⟨h.1, fun w hw => hp w (by simp [hw]),
      WfAll.of_flattenAll h.2.2 fun w hw => hp w (by simp [hw])⟩

/-- What holds of every word of the text holds of every word of the tree. -/
theorem WfAll.of_flattenAll {c : List (Statement α)} (h : WfAll (fun _ => True) c)
    (hp : ∀ w, .word w ∈ flattenAll c → p w) : WfAll p c :=
  match c, h with
  | [], _ => trivial
  | _ :: _, h => ⟨Statement.Wf.of_flatten h.1 fun w hw => hp w (by simp [hw]),
      WfAll.of_flattenAll h.2 fun w hw => hp w (by simp [hw])⟩

end

/-! ### The grammar -/

mutual

/-- `config ::= stmt*`. -/
inductive IsConfig : List (Symbol α) → Prop
  | nil : IsConfig []
  | cons {u v : List (Symbol α)} : IsStatement u → IsConfig v → IsConfig (u ++ v)

/-- `stmt ::= word+ (';' | '{' config '}')`. -/
inductive IsStatement : List (Symbol α) → Prop
  | simple {ws : List α} : ws ≠ [] → IsStatement (ws.map .word ++ [.semicolon])
  | block {ws : List α} {u : List (Symbol α)} : ws ≠ [] → IsConfig u →
      IsStatement (ws.map .word ++ .openBrace :: (u ++ [.closeBrace]))

end

mutual

theorem Statement.Wf.isStatement {s : Statement α} (h : s.Wf p) : IsStatement s.flatten :=
  match s, h with
  | .mk _ none, h => .simple h.1
  | .mk _ (some _), h => .block h.1 (WfAll.isConfig h.2.2)

theorem WfAll.isConfig {c : List (Statement α)} (h : WfAll p c) : IsConfig (flattenAll c) :=
  match c, h with
  | [], _ => .nil
  | _ :: _, h => .cons (Statement.Wf.isStatement h.1) (WfAll.isConfig h.2)

end

mutual

theorem IsStatement.exists_tree {u : List (Symbol α)} (h : IsStatement u) :
    ∃ s : Statement α, s.Wf (fun _ => True) ∧ s.flatten = u :=
  match h with
  | .simple hne => ⟨.mk _ none, by simpa using hne, rfl⟩
  | .block hne hu =>
    have ⟨c, hwf, hc⟩ := hu.exists_tree
    ⟨.mk _ (some c), by simpa using ⟨hne, hwf⟩, by simp [hc]⟩

theorem IsConfig.exists_tree {u : List (Symbol α)} (h : IsConfig u) :
    ∃ c : List (Statement α), WfAll (fun _ => True) c ∧ flattenAll c = u :=
  match h with
  | .nil => ⟨[], trivial, rfl⟩
  | .cons hu hv =>
    have ⟨s, hs, hsu⟩ := hu.exists_tree
    have ⟨c, hc, hcv⟩ := hv.exists_tree
    ⟨s :: c, ⟨hs, hc⟩, by simp [hsu, hcv]⟩

end

/-- The derivable texts are the flattenings of well-formed lists. -/
theorem isConfig_iff {u : List (Symbol α)} :
    IsConfig u ↔ ∃ c : List (Statement α), WfAll (fun _ => True) c ∧ flattenAll c = u := by
  constructor
  · exact IsConfig.exists_tree
  · rintro ⟨c, hc, rfl⟩
    exact hc.isConfig

/-! ### Words renamed -/

variable {β : Type*}

def Symbol.map (f : α → β) : Symbol α → Symbol β
  | .word w => .word (f w)
  | .semicolon => .semicolon
  | .openBrace => .openBrace
  | .closeBrace => .closeBrace

theorem Symbol.map_map {γ : Type*} (g : β → γ) (f : α → β) (a : Symbol α) :
    (a.map f).map g = a.map fun w => g (f w) := by cases a <;> rfl

@[simp] theorem Symbol.map_id (a : Symbol α) : a.map (fun w => w) = a := by cases a <;> rfl

/-- What becomes a run of words is one. -/
theorem exists_words_of_map {f : α → β} {u : List (Symbol α)} {ws : List β}
    (h : u.map (Symbol.map f) = ws.map .word) :
    ∃ vs : List α, u = vs.map .word ∧ vs.map f = ws := by
  induction ws generalizing u with
  | nil => exact ⟨[], by simpa using h, rfl⟩
  | cons w ws ih =>
    obtain ⟨a, u, rfl, ha, hu⟩ := List.map_eq_cons_iff.mp h
    obtain ⟨vs, rfl, rfl⟩ := ih hu
    cases a with
    | word v => exact ⟨v :: vs, rfl, by rw [List.map_cons, Symbol.word.inj ha]⟩
    | semicolon => cases ha
    | openBrace => cases ha
    | closeBrace => cases ha

theorem eq_singleton_of_map {f : α → β} {u : List (Symbol α)} {b : Symbol β}
    (h : u.map (Symbol.map f) = [b]) : ∃ a, u = [a] ∧ a.map f = b := by
  obtain ⟨a, v, rfl, ha, hv⟩ := List.map_eq_cons_iff.mp h
  obtain rfl := List.map_eq_nil_iff.mp hv
  exact ⟨a, rfl, ha⟩

theorem Symbol.map_eq_semicolon {f : α → β} {a : Symbol α} :
    a.map f = .semicolon ↔ a = .semicolon := by cases a <;> simp [Symbol.map]

theorem Symbol.map_eq_openBrace {f : α → β} {a : Symbol α} :
    a.map f = .openBrace ↔ a = .openBrace := by cases a <;> simp [Symbol.map]

theorem Symbol.map_eq_closeBrace {f : α → β} {a : Symbol α} :
    a.map f = .closeBrace ↔ a = .closeBrace := by cases a <;> simp [Symbol.map]

mutual

theorem IsStatement.of_map {f : α → β} {u : List (Symbol α)} {v : List (Symbol β)}
    (h : IsStatement v) (huv : u.map (Symbol.map f) = v) : IsStatement u :=
  match h with
  | .simple hne => by
    obtain ⟨u₁, u₂, rfl, h₁, h₂⟩ := List.map_eq_append_iff.mp huv
    obtain ⟨ws, rfl, rfl⟩ := exists_words_of_map h₁
    obtain ⟨a, rfl, ha⟩ := eq_singleton_of_map h₂
    rw [Symbol.map_eq_semicolon.mp ha]
    exact .simple (by simpa using hne)
  | .block hne hv => by
    obtain ⟨u₁, u₂, rfl, h₁, h₂⟩ := List.map_eq_append_iff.mp huv
    obtain ⟨ws, rfl, rfl⟩ := exists_words_of_map h₁
    obtain ⟨a, u₃, rfl, ha, h₃⟩ := List.map_eq_cons_iff.mp h₂
    obtain ⟨u₄, u₅, rfl, h₄, h₅⟩ := List.map_eq_append_iff.mp h₃
    obtain ⟨b, rfl, hb⟩ := eq_singleton_of_map h₅
    rw [Symbol.map_eq_openBrace.mp ha, Symbol.map_eq_closeBrace.mp hb]
    exact .block (by simpa using hne) (hv.of_map h₄)

theorem IsConfig.of_map {f : α → β} {u : List (Symbol α)} {v : List (Symbol β)}
    (h : IsConfig v) (huv : u.map (Symbol.map f) = v) : IsConfig u :=
  match h with
  | .nil => by
    rw [List.map_eq_nil_iff.mp huv]
    exact .nil
  | .cons hs hc => by
    obtain ⟨u₁, u₂, rfl, h₁, h₂⟩ := List.map_eq_append_iff.mp huv
    exact .cons (hs.of_map h₁) (hc.of_map h₂)

end

mutual

theorem IsStatement.map (f : α → β) {u : List (Symbol α)} (h : IsStatement u) :
    IsStatement (u.map (Symbol.map f)) :=
  match h with
  | @IsStatement.simple _ ws hne => by
    have hws : ws.map f ≠ [] := by simpa using hne
    simpa [Symbol.map, Function.comp_def] using IsStatement.simple hws
  | @IsStatement.block _ ws _ hne hu => by
    have hws : ws.map f ≠ [] := by simpa using hne
    simpa [Symbol.map, Function.comp_def] using IsStatement.block hws (hu.map f)

theorem IsConfig.map (f : α → β) {u : List (Symbol α)} (h : IsConfig u) :
    IsConfig (u.map (Symbol.map f)) :=
  match h with
  | .nil => .nil
  | .cons hs hc => by
    rw [List.map_append]
    exact .cons (hs.map f) (hc.map f)

end

/-- The grammar does not look at the words. -/
theorem isConfig_map {f : α → β} {u : List (Symbol α)} :
    IsConfig (u.map (Symbol.map f)) ↔ IsConfig u :=
  ⟨fun h => h.of_map rfl, fun h => h.map f⟩

/-! ### Reading with a zipper -/

/-- An enclosing block: its completed statements and the words of the
statement whose block is being read. -/
abbrev Frame (α : Type*) := List (Statement α) × List α

/-- The symbols read before the innermost block, innermost frame first. -/
def outerText : List (Frame α) → List (Symbol α)
  | [] => []
  | (done, ws) :: outer =>
    outerText outer ++ (flattenAll done ++ ws.map .word ++ [.openBrace])

/-- A text read halfway. -/
structure Zipper (α : Type*) where
  outer : List (Frame α)
  done : List (Statement α)
  words : List α

namespace Zipper

def empty : Zipper α := ⟨[], [], []⟩

/-- The symbols read so far. -/
def consumed (z : Zipper α) : List (Symbol α) :=
  outerText z.outer ++ flattenAll z.done ++ z.words.map .word

/-- Everything completed is well formed, every open statement has a word. -/
def Wf (p : α → Prop) (z : Zipper α) : Prop :=
  (∀ f ∈ z.outer, WfAll p f.1 ∧ f.2 ≠ [] ∧ ∀ w ∈ f.2, p w) ∧ WfAll p z.done ∧
    ∀ w ∈ z.words, p w

def step (z : Zipper α) : Symbol α → Option (Zipper α)
  | .word w => some { z with words := z.words ++ [w] }
  | .semicolon =>
    if z.words.isEmpty then none
    else some { z with done := z.done ++ [.mk z.words none], words := [] }
  | .openBrace =>
    if z.words.isEmpty then none
    else some { outer := (z.done, z.words) :: z.outer, done := [], words := [] }
  | .closeBrace =>
    if z.words.isEmpty then
      match z.outer with
      | [] => none
      | (done, ws) :: outer =>
        some { outer := outer, done := done ++ [.mk ws (some z.done)], words := [] }
    else none

def run (z : Zipper α) (u : List (Symbol α)) : Option (Zipper α) := u.foldlM step z

/-- Nothing is left open. -/
def Complete (z : Zipper α) : Prop := z.outer = [] ∧ z.words = []

variable {z z' : Zipper α} {a : Symbol α} {u : List (Symbol α)}

@[simp] theorem run_nil (z : Zipper α) : z.run [] = some z := rfl

theorem run_cons (z : Zipper α) (a : Symbol α) (u : List (Symbol α)) :
    z.run (a :: u) = (z.step a).bind fun z' => z'.run u := rfl

theorem run_append (z : Zipper α) (u v : List (Symbol α)) :
    z.run (u ++ v) = (z.run u).bind fun z' => z'.run v := List.foldlM_append

/-- **What one step can do.** -/
theorem step_cases (h : z.step a = some z') :
    (∃ w, a = .word w ∧ z' = { z with words := z.words ++ [w] }) ∨
    (a = .semicolon ∧ z.words ≠ [] ∧
      z' = { z with done := z.done ++ [.mk z.words none], words := [] }) ∨
    (a = .openBrace ∧ z.words ≠ [] ∧
      z' = { outer := (z.done, z.words) :: z.outer, done := [], words := [] }) ∨
    (a = .closeBrace ∧ z.words = [] ∧ ∃ done ws outer, z.outer = (done, ws) :: outer ∧
      z' = { outer := outer, done := done ++ [.mk ws (some z.done)], words := [] }) := by
  cases a with
  | word w => exact .inl ⟨w, rfl, by simpa [step] using h.symm⟩
  | semicolon =>
    by_cases hw : z.words = []
    · simp [step, hw] at h
    · exact .inr (.inl ⟨rfl, hw, by simpa [step, hw] using h.symm⟩)
  | openBrace =>
    by_cases hw : z.words = []
    · simp [step, hw] at h
    · exact .inr (.inr (.inl ⟨rfl, hw, by simpa [step, hw] using h.symm⟩))
  | closeBrace =>
    by_cases hw : z.words = []
    · rcases ho : z.outer with _ | ⟨⟨done, ws⟩, outer⟩
      · simp [step, hw, ho] at h
      · exact .inr (.inr (.inr ⟨rfl, hw, done, ws, outer, rfl, by
          simpa [step, hw, ho] using h.symm⟩))
    · simp [step, hw] at h

theorem consumed_step (h : z.step a = some z') : z'.consumed = z.consumed ++ [a] := by
  obtain ⟨w, rfl, rfl⟩ | ⟨rfl, -, rfl⟩ | ⟨rfl, -, rfl⟩ | ⟨rfl, hw, done, ws, outer, ho, rfl⟩ :=
    step_cases h
  · simp [consumed]
  · simp [consumed]
  · simp [consumed, outerText]
  · simp [consumed, outerText, ho, hw]

theorem wf_step (hz : z.Wf fun _ => True) (h : z.step a = some z') : z'.Wf fun _ => True := by
  obtain ⟨houter, hdone, -⟩ := hz
  obtain ⟨w, rfl, rfl⟩ | ⟨rfl, hw, rfl⟩ | ⟨rfl, hw, rfl⟩ | ⟨rfl, -, done, ws, outer, ho, rfl⟩ :=
    step_cases h
  · exact ⟨houter, hdone, by simp⟩
  · exact ⟨houter, by simp [hdone, hw], by simp⟩
  · refine ⟨fun f hf => ?_, by simp, by simp⟩
    rcases List.mem_cons.mp hf with rfl | hf
    · exact ⟨hdone, hw, by simp⟩
    · exact houter f hf
  · have hf := houter (done, ws) (by simp [ho])
    exact ⟨fun f hmem => houter f (by simp [ho, hmem]), by simp [hf.1, hf.2.1, hdone], by simp⟩

/-- A zipper holds exactly the symbols it has read. -/
theorem consumed_of_run : z.run u = some z' → z'.consumed = z.consumed ++ u := by
  induction u generalizing z with
  | nil =>
    intro h
    obtain rfl := Option.some_inj.mp h
    simp
  | cons a u ih =>
    intro h
    obtain ⟨z₁, h₁, hrun⟩ := Option.bind_eq_some_iff.mp h
    rw [ih hrun, consumed_step h₁]
    simp

theorem wf_of_run (hz : z.Wf fun _ => True) : z.run u = some z' → z'.Wf fun _ => True := by
  induction u generalizing z with
  | nil =>
    intro h
    obtain rfl := Option.some_inj.mp h
    exact hz
  | cons a u ih =>
    intro h
    obtain ⟨z₁, h₁, hrun⟩ := Option.bind_eq_some_iff.mp h
    exact ih (wf_step hz h₁) hrun

theorem wf_empty : (empty : Zipper α).Wf p := by simp [Wf, empty]

/-- What a complete reading has built is the derivation of what it has read. -/
theorem of_run_complete (h : empty.run u = some z) (hz : z.Complete) :
    WfAll (fun _ => True) z.done ∧ flattenAll z.done = u := by
  obtain ⟨ho, hw⟩ := hz
  have hconsumed := consumed_of_run h
  simp only [consumed, ho, hw, outerText, List.map_nil, List.append_nil,
    List.nil_append] at hconsumed
  exact ⟨(wf_of_run wf_empty h).2.1, hconsumed⟩

theorem run_words (outer : List (Frame α)) (done : List (Statement α)) (ws vs : List α) :
    run ⟨outer, done, ws⟩ (vs.map .word) = some ⟨outer, done, ws ++ vs⟩ := by
  induction vs generalizing ws with
  | nil => simp
  | cons v vs ih =>
    rw [List.map_cons, run_cons]
    simp only [step, Option.bind_some]
    rw [ih]
    simp

mutual

theorem run_flatten {s : Statement α} (h : s.Wf p) (outer : List (Frame α))
    (done : List (Statement α)) :
    run ⟨outer, done, []⟩ s.flatten = some ⟨outer, done ++ [s], []⟩ :=
  match s, h with
  | .mk ws none, h => by
    rw [flatten_semicolon, run_append, run_words]
    simp [run_cons, step, h.1]
  | .mk ws (some c), h => by
    rw [flatten_block, run_append, run_words]
    have hc := run_flattenAll h.2.2 ((done, ws) :: outer) []
    simp [run_cons, run_append, step, h.1, hc]

/-- Reading a flattening appends its statements to the innermost block. -/
theorem run_flattenAll {c : List (Statement α)} (h : WfAll p c) (outer : List (Frame α))
    (done : List (Statement α)) :
    run ⟨outer, done, []⟩ (flattenAll c) = some ⟨outer, done ++ c, []⟩ :=
  match c, h with
  | [], _ => by simp
  | s :: c, h => by
    rw [flattenAll_cons, run_append, run_flatten h.1]
    simpa using run_flattenAll h.2 outer (done ++ [s])

end

/-- A reading that fails does so at one symbol. -/
theorem exists_of_run_eq_none : z.run u = none →
    ∃ v a w z', u = v ++ a :: w ∧ z.run v = some z' ∧ z'.step a = none := by
  induction u generalizing z with
  | nil => intro h; simp at h
  | cons a u ih =>
    intro h
    rcases hstep : z.step a with _ | z₁
    · exact ⟨[], a, u, z, rfl, rfl, hstep⟩
    · rw [run_cons, hstep, Option.bind_some] at h
      obtain ⟨v, b, w, z', rfl, hrun, hb⟩ := ih h
      exact ⟨a :: v, b, w, z', rfl, by rw [run_cons, hstep, Option.bind_some, hrun], hb⟩

/-- `c` put before the outermost of the statements. -/
def underFrames (c : List (Statement α)) :
    List (Frame α) → List (Statement α) → List (Frame α) × List (Statement α)
  | [], done => ([], c ++ done)
  | (d, ws) :: outer, done =>
    (((underFrames c outer d).2, ws) :: (underFrames c outer d).1, done)

def under (c : List (Statement α)) (z : Zipper α) : Zipper α :=
  ⟨(underFrames c z.outer z.done).1, (underFrames c z.outer z.done).2, z.words⟩

theorem underFrames_append (c d e : List (Statement α)) (outer : List (Frame α)) :
    underFrames c outer (d ++ e) =
      ((underFrames c outer d).1, (underFrames c outer d).2 ++ e) := by
  rcases outer with _ | ⟨⟨d', ws⟩, outer⟩
  · simp [underFrames]
  · rfl

theorem step_under (c : List (Statement α)) (z : Zipper α) (a : Symbol α) :
    (z.under c).step a = (z.step a).map (under c) := by
  obtain ⟨outer, done, words⟩ := z
  cases a with
  | word w => rfl
  | semicolon => cases words <;> simp [step, under, underFrames_append]
  | openBrace => cases words <;> simp [step, under, underFrames]
  | closeBrace =>
    cases words with
    | cons w ws => simp [step, under]
    | nil =>
      rcases outer with _ | ⟨⟨d, ws⟩, outer⟩
      · simp [step, under, underFrames]
      · simp [step, under, underFrames, underFrames_append]

/-- Reading does not look at what stands before. -/
theorem run_under (c : List (Statement α)) (z : Zipper α) (u : List (Symbol α)) :
    (z.under c).run u = (z.run u).map (under c) := by
  induction u generalizing z with
  | nil => rfl
  | cons a u ih =>
    rw [run_cons, run_cons, step_under]
    cases z.step a with
    | none => rfl
    | some z' => exact ih z'

theorem complete_under {c : List (Statement α)} : (z.under c).Complete ↔ z.Complete := by
  obtain ⟨outer, done, words⟩ := z
  rcases outer with _ | ⟨⟨d, ws⟩, outer⟩ <;> simp [Complete, under, underFrames]

/-- **The reader accepts the grammar, and only it**, whatever stands before. -/
theorem isConfig_iff_run (c : List (Statement α)) :
    IsConfig u ↔ ∃ z, run ⟨[], c, []⟩ u = some z ∧ z.Complete := by
  constructor
  · intro h
    obtain ⟨d, hd, rfl⟩ := isConfig_iff.mp h
    exact ⟨⟨[], c ++ d, []⟩, run_flattenAll hd [] c, rfl, rfl⟩
  · rintro ⟨z, hrun, hz⟩
    -- the same reading with nothing before it
    have hunder : (⟨[], c, []⟩ : Zipper α) = empty.under c := by simp [empty, under, underFrames]
    rw [hunder, run_under] at hrun
    obtain ⟨z₀, hrun₀, rfl⟩ := Option.map_eq_some_iff.mp hrun
    obtain ⟨hwf, rfl⟩ := of_run_complete hrun₀ (complete_under.mp hz)
    exact hwf.isConfig

end Zipper

/-! ### Addresses -/

/-- The block at an address: the positions of the statements whose blocks lead
to it. -/
def blockAt : List ℕ → List (Statement α) → Option (List (Statement α))
  | [], block => some block
  | i :: address, block =>
    block[i]?.bind fun statement => statement.childBlock.bind fun inner => blockAt address inner

/-- Change the block at an address. -/
def update (f : List (Statement α) → List (Statement α)) :
    List ℕ → List (Statement α) → List (Statement α)
  | [], c => f c
  | i :: address, c => c.modify i fun s => .mk s.tokens (s.childBlock.map (update f address))

/-- The address of the innermost of the open blocks. -/
def address : List (Frame α) → List ℕ
  | [] => []
  | (done, _) :: outer => address outer ++ [done.length]

/-- The whole list of statements, given the innermost block. -/
def plug : List (Frame α) → List (Statement α) → List (Statement α)
  | [], c => c
  | (done, ws) :: outer, c => plug outer (done ++ [.mk ws (some c)])

variable {f : List (Statement α) → List (Statement α)}

theorem update_append (a b : List ℕ) (c : List (Statement α)) :
    update f (a ++ b) c = update (update f b) a c := by
  induction a generalizing c with
  | nil => rfl
  | cons i a ih =>
    simp only [List.cons_append, update]
    rw [show update f (a ++ b) = update (update f b) a from funext ih]

theorem blockAt_append (a b : List ℕ) (c : List (Statement α)) :
    blockAt (a ++ b) c = (blockAt a c).bind (blockAt b) := by
  induction a generalizing c with
  | nil => rfl
  | cons i a ih =>
    simp only [List.cons_append, blockAt, ih, Option.bind_assoc]

theorem modify_length_append {β : Type*} (g : β → β) (l : List β) (b : β) :
    (l ++ [b]).modify l.length g = l ++ [g b] := by
  induction l with
  | nil => rfl
  | cons a l ih => simp [ih]

/-- A change at the address of the innermost block is a change of it. -/
theorem update_plug (outer : List (Frame α)) (c : List (Statement α)) :
    update f (address outer) (plug outer c) = plug outer (f c) := by
  induction outer generalizing f c with
  | nil => rfl
  | cons frame outer ih =>
    obtain ⟨done, ws⟩ := frame
    rw [address, plug, update_append, ih]
    simp [update, plug, modify_length_append]

theorem blockAt_plug (outer : List (Frame α)) (c : List (Statement α)) :
    blockAt (address outer) (plug outer c) = some c := by
  induction outer generalizing c with
  | nil => rfl
  | cons frame outer ih =>
    obtain ⟨done, ws⟩ := frame
    rw [address, plug, blockAt_append, ih]
    simp [blockAt]

end Blocks
