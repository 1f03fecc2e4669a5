/-
What `NginxConfigParser::Parse` accepts.

Until a brace is closed that was never opened, the state of the loop is a
zipper over the tokens read so far (`Represents`): the tree is the zipper
plugged together, the stack holds the addresses of the open blocks, and the
last token type says whether a statement has been begun.  After such a brace
the stack is empty (`Popped`), and the next word or closing brace uses it.

* `NginxConfigParser.parseTokens_decides` — `Parse` returns true on the token
  sequences of the grammar, and the tree is their derivation;
* `NginxConfigParser.stackSafe_iff` — the texts on which the stack is used
  only while it has an element.
-/
import Spaceteam.ConfigParser

open Blocks

namespace NginxConfigParser

/-! ### Runs over tokens -/

namespace Token

/-- The types `ParseToken` delivers before the end of the file or an error. -/
def Delivered (t : Token) : Prop :=
  t.type = .normal ∨ t.type = .startBlock ∨ t.type = .endBlock ∨ t.type = .comment
    ∨ t.type = .statementEnd

instance (t : Token) : Decidable t.Delivered := by
  unfold Delivered
  infer_instance

/-- What a token stands for in the grammar; comments stand for nothing. -/
def symbol (t : Token) : Option (Symbol Bytes) :=
  match t.type with
  | .normal => some (.word t.value)
  | .startBlock => some .openBrace
  | .endBlock => some .closeBrace
  | .statementEnd => some .semicolon
  | _ => none

theorem symbol_eq_word {t : Token} {w : Bytes} :
    t.symbol = some (.word w) ↔ t.type = .normal ∧ t.value = w := by
  unfold symbol
  split <;> simp_all

theorem symbol_eq_semicolon {t : Token} :
    t.symbol = some .semicolon ↔ t.type = .statementEnd := by
  unfold symbol
  split <;> simp_all

theorem symbol_eq_openBrace {t : Token} : t.symbol = some .openBrace ↔ t.type = .startBlock := by
  unfold symbol
  split <;> simp_all

theorem symbol_eq_closeBrace {t : Token} : t.symbol = some .closeBrace ↔ t.type = .endBlock := by
  unfold symbol
  split <;> simp_all

theorem Delivered.comment_of_symbol {t : Token} (h : t.Delivered) (hs : t.symbol = none) :
    t.type = .comment := by
  unfold symbol at hs
  rcases h with h | h | h | h | h <;> simp_all

theorem symbol_of_not_delivered {t : Token} (h : ¬t.Delivered) : t.symbol = none := by
  unfold Delivered at h
  unfold symbol
  split <;> simp_all

end Token

/-- The symbols of the grammar in a sequence of tokens. -/
def symbols (ts : List Token) : List (Symbol Bytes) := ts.filterMap Token.symbol

@[simp] theorem symbols_nil : symbols [] = [] := rfl

@[simp] theorem symbols_append (ts us : List Token) :
    symbols (ts ++ us) = symbols ts ++ symbols us := List.filterMap_append

theorem symbols_cons_of_none {t : Token} (h : t.symbol = none) (ts : List Token) :
    symbols (t :: ts) = symbols ts := List.filterMap_cons_none h

theorem symbols_cons_of_some {t : Token} {a : Symbol Bytes} (h : t.symbol = some a)
    (ts : List Token) : symbols (t :: ts) = a :: symbols ts := List.filterMap_cons_some h

/-- What the loop has come to, once it has ended. -/
def Iteration.result : Iteration → Option ParseResult
  | .next _ => none
  | .returns result config => some (.returned result config)
  | .undefined => some .undefined

theorem Iteration.result_eq_returned {i : Iteration} {b : Bool} {c : NginxConfig} :
    i.result = some (.returned b c) ↔ i = .returns b c := by
  cases i <;> simp [Iteration.result]

namespace ParserState

/-- The iterations of the loop over the given tokens, up to the one that ends it. -/
def run (s : ParserState) : List Token → Iteration
  | [] => .next s
  | t :: ts =>
    match s.step t with
    | .next s' => s'.run ts
    | .returns result config => .returns result config
    | .undefined => .undefined

variable {s s' : ParserState} {t : Token} {ts us : List Token}

theorem run_cons_of_next (h : s.step t = .next s') : s.run (t :: ts) = s'.run ts := by
  simp [run, h]

theorem run_cons_of_returns {b : Bool} {c : NginxConfig} (h : s.step t = .returns b c) :
    s.run (t :: ts) = .returns b c := by simp [run, h]

theorem run_cons_of_undefined (h : s.step t = .undefined) : s.run (t :: ts) = .undefined := by
  simp [run, h]

theorem run_append_of_next (h : s.run ts = .next s') : s.run (ts ++ us) = s'.run us := by
  induction ts generalizing s with
  | nil =>
    obtain rfl : s = s' := by simpa [run] using h
    rfl
  | cons t ts ih =>
    rw [List.cons_append]
    rcases ht : s.step t with s₁ | ⟨b, c⟩ | _
    · rw [run_cons_of_next ht] at h ⊢
      exact ih h
    · rw [run_cons_of_returns ht] at h
      cases h
    · rw [run_cons_of_undefined ht] at h
      cases h

theorem step_comment (h : t.type = .comment) : s.step t = .next s := by
  unfold step
  rw [h]

/-- The last token, whichever it is, ends the loop. -/
theorem step_of_not_delivered (h : ¬t.Delivered) : ∃ b c, s.step t = .returns b c := by
  unfold Token.Delivered at h
  unfold step
  rcases ht : t.type <;> simp_all
  split <;> simp

theorem delivered_of_next (h : s.step t = .next s') : t.Delivered := by
  by_contra ht
  obtain ⟨b, c, hreturns⟩ := step_of_not_delivered (s := s) ht
  rw [hreturns] at h
  cases h

end ParserState

/-! ### From the stream to its tokens -/

/-- A source delivers the tokens one after the other, the last one being the
one after which no other is asked for. -/
inductive Delivers {σ : Type*} (nextToken : σ → Token × σ) : σ → List Token → Prop
  | last {input : σ} : ¬(nextToken input).1.Delivered →
      Delivers nextToken input [(nextToken input).1]
  | more {input : σ} {ts : List Token} : (nextToken input).1.Delivered →
      Delivers nextToken (nextToken input).2 ts →
      Delivers nextToken input ((nextToken input).1 :: ts)

/-- `Parse` sees its source only through the tokens. -/
theorem parseLoop_of_delivers {σ : Type*} {nextToken : σ → Token × σ} {input : σ}
    {ts : List Token} (h : Delivers nextToken input ts) {fuel : ℕ} (hfuel : ts.length ≤ fuel)
    (s : ParserState) : parseLoop nextToken fuel input s = (s.run ts).result := by
  induction h generalizing fuel s with
  | last hlast =>
    obtain ⟨fuel, rfl⟩ := Nat.exists_eq_succ_of_ne_zero (show fuel ≠ 0 by simp at hfuel; omega)
    obtain ⟨b, c, hstep⟩ := ParserState.step_of_not_delivered (s := s) hlast
    rw [ParserState.run_cons_of_returns hstep]
    simp [parseLoop, hstep, Iteration.result]
  | more _ _ ih =>
    obtain ⟨fuel, rfl⟩ := Nat.exists_eq_succ_of_ne_zero (show fuel ≠ 0 by simp at hfuel; omega)
    rcases hstep : s.step _ with s' | ⟨b, c⟩ | _
    · rw [ParserState.run_cons_of_next hstep, ← ih (by simpa using hfuel) s']
      simp [parseLoop, hstep]
    · rw [ParserState.run_cons_of_returns hstep]
      simp [parseLoop, hstep, Iteration.result]
    · rw [ParserState.run_cons_of_undefined hstep]
      simp [parseLoop, hstep, Iteration.result]

theorem delivers_nextOfList {ts : List Token} (h : ∀ t ∈ ts, t.Delivered) :
    Delivers nextOfList ts (ts ++ [⟨.eof, []⟩]) := by
  induction ts with
  | nil => exact .last (by decide)
  | cons t ts ih =>
    show Delivers nextOfList (t :: ts) ((nextOfList (t :: ts)).1 :: (ts ++ [⟨.eof, []⟩]))
    exact .more (h t (by simp)) (ih fun t' ht' => h t' (by simp [ht']))

theorem parseTokens_eq {ts : List Token} (h : ∀ t ∈ ts, t.Delivered) (config : NginxConfig) :
    parseTokens config ts = ((ParserState.initial config).run (ts ++ [⟨.eof, []⟩])).result :=
  parseLoop_of_delivers (delivers_nextOfList h) (by simp) _

/-- `ParseToken` never puts back more than it took. -/
theorem scan_length_le (state : TokenParserState) (value text : Bytes) :
    (scan state value text).2.length ≤ text.length := by
  induction text generalizing state value with
  | nil => unfold scan; split <;> simp
  | cons c text ih =>
    unfold scan
    rcases state <;> simp only <;> split_ifs <;> simp only [List.length_cons] <;>
      first
        | omega
        | exact Nat.le_succ_of_le (ih _ _)

theorem scan_length_lt (value text : Bytes)
    (h : (scan .initialWhitespace value text).1.Delivered) :
    (scan .initialWhitespace value text).2.length < text.length := by
  induction text generalizing value with
  | nil => exact absurd h (by simp [scan, Token.Delivered])
  | cons c text ih =>
    unfold scan at h ⊢
    simp only at h ⊢
    split_ifs at h ⊢ <;> simp only [List.length_cons] <;>
      first
        | omega
        | exact Nat.lt_succ_of_le (scan_length_le _ _ _)

/-- Every token takes at least a byte of the stream. -/
theorem parseToken_length_lt {text : Bytes} (h : (parseToken text).1.Delivered) :
    (parseToken text).2.length < text.length := scan_length_lt [] text h

/-- The tokens of a text, up to and including the end of the file or the error. -/
def tokens (text : Bytes) : List Token :=
  if _h : (parseToken text).1.Delivered then
    (parseToken text).1 :: tokens (parseToken text).2
  else [(parseToken text).1]
termination_by text.length
decreasing_by exact parseToken_length_lt _h

theorem delivers_tokens (text : Bytes) : Delivers parseToken text (tokens text) := by
  induction text using tokens.induct with
  | case1 text h ih =>
    rw [tokens, dif_pos h]
    exact .more h ih
  | case2 text h =>
    rw [tokens, dif_neg h]
    exact .last h

theorem length_tokens_le (text : Bytes) : (tokens text).length ≤ text.length + 1 := by
  induction text using tokens.induct with
  | case1 text h ih =>
    rw [tokens, dif_pos h, List.length_cons]
    have hlt := parseToken_length_lt h
    omega
  | case2 text h =>
    rw [tokens, dif_neg h]
    simp

theorem parse_eq (config : NginxConfig) (text : Bytes) :
    parse config text = ((ParserState.initial config).run (tokens text)).result :=
  parseLoop_of_delivers (delivers_tokens text) (length_tokens_le text) _

/-! ### The invariant of the loop -/

/-- The innermost block as the loop has it: the statement being read is its last. -/
def innermost (z : Zipper Bytes) : NginxConfig :=
  z.done ++ if z.words = [] then [] else [.mk z.words none]

/-- The addresses of the open blocks, innermost first. -/
def addresses : List (Frame Bytes) → List (List ℕ)
  | [] => [[]]
  | f :: outer => address (f :: outer) :: addresses outer

/-- **The invariant of the loop**: its state is a zipper. -/
structure Represents (s : ParserState) (z : Zipper Bytes) : Prop where
  config : s.config = plug z.outer (innermost z)
  configStack : s.configStack = addresses z.outer
  numOpenBlocks : s.numOpenBlocks = z.outer.length
  normal : s.lastTokenType = .normal ↔ z.words ≠ []
  start : s.lastTokenType = .start → z.outer = []
  startBlock : s.lastTokenType = .startBlock → z.outer ≠ []
  kind : s.lastTokenType = .start ∨ s.lastTokenType = .normal ∨ s.lastTokenType = .startBlock
    ∨ s.lastTokenType = .endBlock ∨ s.lastTokenType = .statementEnd

/-- The state after a closing brace that closes nothing. -/
structure Popped (s : ParserState) : Prop where
  configStack : s.configStack = []
  numOpenBlocks : s.numOpenBlocks = -1
  endBlock : s.lastTokenType = .endBlock

theorem head?_addresses (outer : List (Frame Bytes)) :
    (addresses outer).head? = some (address outer) := by
  cases outer <;> rfl

theorem length_addresses (outer : List (Frame Bytes)) :
    (addresses outer).length = outer.length + 1 := by
  induction outer with
  | nil => rfl
  | cons f outer ih => simp [addresses, ih]

theorem represents_initial (config : NginxConfig) :
    Represents (.initial config) ⟨[], config, []⟩ where
  config := by simp [ParserState.initial, plug, innermost]
  configStack := rfl
  numOpenBlocks := rfl
  normal := by simp [ParserState.initial]
  start := by simp
  startBlock := by simp [ParserState.initial]
  kind := .inl rfl

namespace Represents

variable {s : ParserState} {z z' : Zipper Bytes} {t : Token} {a : Symbol Bytes}

/-- `config_stack.top()` is the innermost block. -/
theorem blockAt_top (h : Represents s z) :
    s.configStack.head? = some (address z.outer) ∧
      blockAt (address z.outer) s.config = some (innermost z) := by
  rw [h.configStack, h.config]
  exact ⟨head?_addresses _, blockAt_plug _ _⟩

theorem emplaceBack (h : Represents s z) (hw : z.words = []) :
    s.emplaceBack = some { s with config := plug z.outer (z.done ++ [.mk [] none]) } := by
  unfold ParserState.emplaceBack
  rw [h.blockAt_top.1, h.config]
  simp [update_plug, innermost, hw]

/-- A change of `config_stack.top()->statements_.back()`. -/
theorem modifyBack {f : NginxConfigStatement → NginxConfigStatement}
    {outer : List (Frame Bytes)} {done : NginxConfig} {statement : NginxConfigStatement}
    (hstack : s.configStack = addresses outer)
    (hconfig : s.config = plug outer (done ++ [statement])) :
    s.modifyBack f = some { s with config := plug outer (done ++ [f statement]) } := by
  unfold ParserState.modifyBack
  rw [hstack, head?_addresses, hconfig]
  simp [blockAt_plug, update_plug, List.modifyLast_concat]

/-- A word goes to the end of the statement that is being read or begins one. -/
theorem step_word (h : Represents s z) (ht : t.type = .normal) :
    ∃ s', s.step t = .next s' ∧ s'.lastTokenType = .normal ∧
      Represents s' { z with words := z.words ++ [t.value] } := by
  let config' := plug z.outer (z.done ++ [.mk (z.words ++ [t.value]) none])
  have hstep : s.step t = .next { s with config := config', lastTokenType := .normal } := by
    have hkind : s.lastTokenType = .start ∨ s.lastTokenType = .statementEnd
        ∨ s.lastTokenType = .startBlock ∨ s.lastTokenType = .endBlock
        ∨ s.lastTokenType = .normal := by have := h.kind; tauto
    unfold ParserState.step
    simp only [ht, hkind, if_true]
    by_cases hw : z.words = []
    · -- the word begins a statement, put there by `emplace_back`
      have hnormal : s.lastTokenType ≠ .normal := fun hn => h.normal.mp hn hw
      let s₁ : ParserState := { s with config := plug z.outer (z.done ++ [.mk [] none]) }
      have hback : s₁.modifyBack (ParserState.pushToken t.value) =
          some { s with config := plug z.outer (z.done ++ [.mk [t.value] none]) } :=
        modifyBack (s := s₁) h.configStack rfl
      rw [if_pos hnormal, h.emplaceBack hw, Option.bind_some, hback]
      simp [config', hw]
    · -- the word goes on with the last statement
      have hnormal : s.lastTokenType = .normal := h.normal.mpr hw
      have hconfig : s.config = plug z.outer (z.done ++ [.mk z.words none]) := by
        rw [h.config, innermost, if_neg hw]
      rw [if_neg (not_not_intro hnormal), Option.bind_some, modifyBack h.configStack hconfig]
      simp [ParserState.pushToken, config']
  refine ⟨_, hstep, rfl, ?_⟩
  exact {
    config := by simp [config', innermost]
    configStack := h.configStack
    numOpenBlocks := h.numOpenBlocks
    normal := by simp
    start := by simp
    startBlock := by simp
    kind := by simp }

theorem step_semicolon (h : Represents s z) (ht : t.type = .statementEnd) (hw : z.words ≠ []) :
    ∃ s', s.step t = .next s' ∧ s'.lastTokenType = .statementEnd ∧
      Represents s' { z with done := z.done ++ [.mk z.words none], words := [] } := by
  have hstep : s.step t = .next { s with lastTokenType := .statementEnd } := by
    unfold ParserState.step
    simp [ht, h.normal.mpr hw]
  refine ⟨_, hstep, rfl, ?_⟩
  exact {
    config := by simp [h.config, innermost, hw]
    configStack := h.configStack
    numOpenBlocks := h.numOpenBlocks
    normal := by simp
    start := by simp
    startBlock := by simp
    kind := by simp }

theorem step_openBrace (h : Represents s z) (ht : t.type = .startBlock) (hw : z.words ≠ []) :
    ∃ s', s.step t = .next s' ∧ s'.lastTokenType = .startBlock ∧
      Represents s' { outer := (z.done, z.words) :: z.outer, done := [], words := [] } := by
  have hconfig : s.config = plug z.outer (z.done ++ [.mk z.words none]) := by
    rw [h.config, innermost, if_neg hw]
  have hback : s.backPointer = some (address z.outer ++ [z.done.length]) := by
    unfold ParserState.backPointer
    rw [h.blockAt_top.1, Option.bind_eq_bind, Option.bind_some, h.blockAt_top.2]
    simp [innermost, hw]
  let s' : ParserState := {
    config := plug z.outer (z.done ++ [.mk z.words (some [])])
    configStack := (address z.outer ++ [z.done.length]) :: s.configStack
    lastTokenType := .startBlock
    numOpenBlocks := s.numOpenBlocks + 1 }
  have hstep : s.step t = .next s' := by
    unfold ParserState.step
    simp only [ht, h.normal.mpr hw, ne_eq, not_true_eq_false, if_false, hback,
      modifyBack h.configStack hconfig]
    rfl
  refine ⟨s', hstep, rfl, ?_⟩
  exact {
    config := by simp [s', plug, innermost]
    configStack := by simp [s', h.configStack, addresses, address]
    numOpenBlocks := by simp [s', h.numOpenBlocks]
    normal := by simp [s']
    start := by simp [s']
    startBlock := by simp
    kind := by simp [s'] }

/-- A closing brace after a complete statement or an opening brace pops the stack. -/
theorem step_endBlock (h : Represents s z) (ht : t.type = .endBlock) (hw : z.words = [])
    (hstart : s.lastTokenType ≠ .start) :
    ∃ s', s.step t = .next s' ∧ s'.config = s.config ∧ s'.configStack = s.configStack.tail ∧
      s'.numOpenBlocks = s.numOpenBlocks - 1 ∧ s'.lastTokenType = .endBlock := by
  -- no statement has been begun, so the brace is not refused
  have hlast : ¬(s.lastTokenType ≠ .statementEnd ∧ s.lastTokenType ≠ .endBlock ∧
      s.lastTokenType ≠ .startBlock) := by
    have hnormal : s.lastTokenType ≠ .normal := fun hn => h.normal.mp hn hw
    have := h.kind
    tauto
  have hstack : s.configStack ≠ [] := by
    rw [h.configStack]
    cases z.outer <;> simp [addresses]
  obtain ⟨top, rest, hrest⟩ := List.exists_cons_of_ne_nil hstack
  unfold ParserState.step
  simp only [ht, hlast, if_false, hrest]
  exact ⟨_, rfl, rfl, rfl, rfl, rfl⟩

theorem step_closeBrace (h : Represents s z) (ht : t.type = .endBlock) (hw : z.words = [])
    {done : NginxConfig} {ws : List Bytes} {outer : List (Frame Bytes)}
    (ho : z.outer = (done, ws) :: outer) :
    ∃ s', s.step t = .next s' ∧ s'.lastTokenType = .endBlock ∧
      Represents s' { outer := outer, done := done ++ [.mk ws (some z.done)], words := [] } := by
  have hstart : s.lastTokenType ≠ .start := fun hs => by simpa [ho] using h.start hs
  obtain ⟨s', hstep, hs'⟩ := step_endBlock h ht hw hstart
  refine ⟨s', hstep, hs'.2.2.2, ?_⟩
  exact {
    config := by simp [hs'.1, h.config, ho, plug, innermost, hw]
    configStack := by simp [hs'.2.1, h.configStack, ho, addresses]
    numOpenBlocks := by simp [hs'.2.2.1, h.numOpenBlocks, ho]
    normal := by simp [hs'.2.2.2]
    start := by simp [hs'.2.2.2]
    startBlock := by simp [hs'.2.2.2]
    kind := by simp [hs'.2.2.2] }

/-- What the loop does with a symbol the grammar can go on with. -/
theorem step_some (h : Represents s z) (ht : t.symbol = some a) (ha : z.step a = some z') :
    ∃ s', s.step t = .next s' ∧ s'.lastTokenType = t.type ∧ Represents s' z' := by
  obtain ⟨w, rfl, rfl⟩ | ⟨rfl, hw, rfl⟩ | ⟨rfl, hw, rfl⟩ | ⟨rfl, hw, done, ws, outer, ho, rfl⟩ :=
    Zipper.step_cases ha
  · obtain ⟨htype, rfl⟩ := Token.symbol_eq_word.mp ht
    rw [htype]
    exact h.step_word htype
  · have htype := Token.symbol_eq_semicolon.mp ht
    rw [htype]
    exact h.step_semicolon htype hw
  · have htype := Token.symbol_eq_openBrace.mp ht
    rw [htype]
    exact h.step_openBrace htype hw
  · have htype := Token.symbol_eq_closeBrace.mp ht
    rw [htype]
    exact h.step_closeBrace htype hw ho

/-- With a symbol the grammar cannot go on with, the loop returns false, ... -/
theorem step_none (h : Represents s z) (ht : t.symbol = some a) (ha : z.step a = none)
    (hclose : a = .closeBrace → z.Complete → s.lastTokenType = .start) :
    s.step t = .returns false s.config := by
  have hreturns : z.words = [] → s.lastTokenType ≠ .normal := fun hw hn => h.normal.mp hn hw
  unfold ParserState.step
  cases a with
  | word w => simp [Zipper.step] at ha
  | semicolon =>
    have hw : z.words = [] := by simpa [Zipper.step] using ha
    simp [Token.symbol_eq_semicolon.mp ht, hreturns hw]
  | openBrace =>
    have hw : z.words = [] := by simpa [Zipper.step] using ha
    simp [Token.symbol_eq_openBrace.mp ht, hreturns hw]
  | closeBrace =>
    have htype := Token.symbol_eq_closeBrace.mp ht
    by_cases hw : z.words = []
    · -- nothing is open: only the very first token is refused here
      have ho : z.outer = [] := by
        rcases ho : z.outer with _ | ⟨⟨done, ws⟩, outer⟩
        · rfl
        · simp [Zipper.step, hw, ho] at ha
      simp [htype, hclose rfl ⟨ho, hw⟩]
    · simp [htype, h.normal.mpr hw]

/-- ... unless it is a closing brace with nothing open. -/
theorem step_pop (h : Represents s z) (ht : t.symbol = some .closeBrace) (hz : z.Complete)
    (hstart : s.lastTokenType ≠ .start) : ∃ s', s.step t = .next s' ∧ Popped s' := by
  obtain ⟨s', hstep, -, hstack, hnum, hlast⟩ :=
    step_endBlock h (Token.symbol_eq_closeBrace.mp ht) hz.2 hstart
  refine ⟨s', hstep, ?_, ?_, hlast⟩
  · simp [hstack, h.configStack, hz.1, addresses]
  · simp [hnum, h.numOpenBlocks, hz.1]

/-- At the end of the file the loop returns true when nothing is left open. -/
theorem step_eof (h : Represents s z) (ht : t.type = .eof) :
    (z.Complete → s.step t = .returns true s.config) ∧
      (¬z.Complete → s.step t = .returns false s.config) := by
  unfold ParserState.step
  simp only [ht]
  constructor
  · rintro ⟨ho, hw⟩
    have hlast : s.lastTokenType ≠ .statementEnd → s.lastTokenType ≠ .endBlock →
        s.lastTokenType = .start := by
      intro h₁ h₂
      rcases h.kind with hk | hk | hk | hk | hk
      · exact hk
      · exact absurd hw (h.normal.mp hk)
      · exact absurd ho (h.startBlock hk)
      · exact absurd hk h₂
      · exact absurd hk h₁
    have hnum : s.numOpenBlocks = 0 := by
      rw [h.numOpenBlocks, ho]
      rfl
    rw [if_neg]
    tauto
  · intro hcomplete
    rw [if_pos]
    by_cases ho : z.outer = []
    · have hw : z.words ≠ [] := fun hw => hcomplete ⟨ho, hw⟩
      simp [h.normal.mpr hw]
    · left
      rw [h.numOpenBlocks]
      simpa using ho

/-- As long as the grammar can go on, the loop goes on with it. -/
theorem run_some {ts : List Token} (h : Represents s z) (hts : ∀ t ∈ ts, t.Delivered)
    (hz : z.run (symbols ts) = some z') :
    ∃ s', s.run ts = .next s' ∧ Represents s' z' ∧
      (s'.lastTokenType = .start ↔ s.lastTokenType = .start ∧ symbols ts = []) := by
  induction ts generalizing s z with
  | nil =>
    obtain rfl : z = z' := by simpa using hz
    exact ⟨s, rfl, h, by simp⟩
  | cons t ts ih =>
    have ht := hts t List.mem_cons_self
    have hts' : ∀ t ∈ ts, t.Delivered := fun t' ht' => hts t' (List.mem_cons_of_mem _ ht')
    rcases hsymbol : t.symbol with _ | a
    · -- a comment
      rw [symbols_cons_of_none hsymbol] at hz ⊢
      rw [ParserState.run_cons_of_next
        (ParserState.step_comment (ht.comment_of_symbol hsymbol))]
      exact ih h hts' hz
    · rw [symbols_cons_of_some hsymbol, Zipper.run_cons] at hz
      obtain ⟨z₁, hz₁, hz'⟩ := Option.bind_eq_some_iff.mp hz
      obtain ⟨s₁, hstep, hlast, h₁⟩ := h.step_some hsymbol hz₁
      obtain ⟨s', hrun, h', hs'⟩ := ih h₁ hts' hz'
      have htype : s₁.lastTokenType ≠ .start := by
        rw [hlast]
        intro htype
        simp [Token.Delivered, htype] at ht
      refine ⟨s', by rw [ParserState.run_cons_of_next hstep, hrun], h', ?_⟩
      rw [symbols_cons_of_some hsymbol, hs']
      simp [htype]

end Represents

/-- The next token that is not a comment uses the empty stack if it is a word
or a closing brace. -/
def UsesStack (a : Symbol Bytes) : Prop := a = .closeBrace ∨ ∃ w, a = .word w

namespace Popped

variable {s : ParserState} {t : Token} {a : Symbol Bytes}

theorem step_undefined (h : Popped s) (ht : t.symbol = some a) (ha : UsesStack a) :
    s.step t = .undefined := by
  unfold ParserState.step
  obtain rfl | ⟨w, rfl⟩ := ha
  · simp [Token.symbol_eq_closeBrace.mp ht, h.endBlock, h.configStack]
  · simp [(Token.symbol_eq_word.mp ht).1, h.endBlock, ParserState.emplaceBack, h.configStack]

theorem step_returns (h : Popped s) (ht : t.type ≠ .comment)
    (ha : ∀ a, t.symbol = some a → ¬UsesStack a) : s.step t = .returns false s.config := by
  unfold ParserState.step
  rcases htype : t.type <;> simp only [h.endBlock, h.numOpenBlocks]
  · exact absurd (.inr ⟨_, rfl⟩) (ha _ (Token.symbol_eq_word.mpr ⟨htype, rfl⟩))
  · rfl
  · exact absurd (.inl rfl) (ha _ (Token.symbol_eq_closeBrace.mpr htype))
  · exact absurd htype ht
  · rfl
  · rfl

/-- From the empty stack the loop never returns true. -/
theorem run (h : Popped s) {ts : List Token} {final : Token} (hts : ∀ t ∈ ts, t.Delivered)
    (hfinal : ¬final.Delivered) :
    s.run (ts ++ [final]) = .undefined ∧ (∃ a w, symbols ts = a :: w ∧ UsesStack a) ∨
      s.run (ts ++ [final]) = .returns false s.config ∧
        ¬∃ a w, symbols ts = a :: w ∧ UsesStack a := by
  induction ts with
  | nil =>
    right
    refine ⟨ParserState.run_cons_of_returns (h.step_returns ?_ ?_), by simp⟩
    · exact fun hc => hfinal (by simp [Token.Delivered, hc])
    · intro a ha
      rw [Token.symbol_of_not_delivered hfinal] at ha
      cases ha
  | cons t ts ih =>
    have ht := hts t List.mem_cons_self
    rcases hsymbol : t.symbol with _ | a
    · rw [symbols_cons_of_none hsymbol, List.cons_append, ParserState.run_cons_of_next
        (ParserState.step_comment (ht.comment_of_symbol hsymbol))]
      exact ih fun t' ht' => hts t' (List.mem_cons_of_mem _ ht')
    · rw [symbols_cons_of_some hsymbol, List.cons_append]
      -- the first symbol decides
      by_cases ha : UsesStack a
      · left
        exact ⟨ParserState.run_cons_of_undefined (h.step_undefined hsymbol ha), a, _, rfl, ha⟩
      · right
        refine ⟨ParserState.run_cons_of_returns (h.step_returns ?_ ?_), ?_⟩
        · intro hc
          simp [Token.symbol, hc] at hsymbol
        · intro b hb
          rwa [show b = a by simpa [hsymbol] using hb.symm]
        · rintro ⟨b, w, heq, hb⟩
          obtain ⟨rfl, -⟩ := List.cons_eq_cons.mp heq
          exact ha hb

end Popped

/-! ### Whole runs -/

/-- A complete configuration, then a closing brace that closes nothing, then
something that uses the stack. -/
def UnmatchedClose (u : List (Symbol Bytes)) : Prop :=
  ∃ v a w, u = v ++ .closeBrace :: a :: w ∧ v ≠ [] ∧ IsConfig v ∧ UsesStack a

section WholeRuns

variable {config : NginxConfig} {ts : List Token} {final : Token}

/-- Up to a point of the grammar's text the loop is a zipper. -/
theorem run_of_zipper {v w : List (Symbol Bytes)} {a : Symbol Bytes} {z : Zipper Bytes}
    (hts : ∀ t ∈ ts, t.Delivered) (hv : symbols ts = v ++ a :: w)
    (hz : Zipper.run ⟨[], config, []⟩ v = some z) :
    ∃ ts₁ t ts₂ s, ts = ts₁ ++ t :: ts₂ ∧ t.symbol = some a ∧ symbols ts₂ = w ∧
      (ParserState.initial config).run ts₁ = .next s ∧ Represents s z ∧
      (s.lastTokenType = .start ↔ v = []) := by
  obtain ⟨ts₁, rest, rfl, hts₁, hrest⟩ := List.filterMap_eq_append_iff.mp hv
  obtain ⟨comments, t, ts₂, rfl, hcomments, ht, hts₂⟩ := List.filterMap_eq_cons_iff.mp hrest
  have hsymbols : symbols (ts₁ ++ comments) = v := by
    rw [symbols_append, show symbols ts₁ = v from hts₁,
      show symbols comments = [] from List.filterMap_eq_nil_iff.mpr hcomments, List.append_nil]
  rw [← hsymbols] at hz
  obtain ⟨s, hrun, hs, hstart⟩ :=
    (represents_initial config).run_some (fun t ht => hts t (by simp at ht ⊢; tauto)) hz
  refine ⟨ts₁ ++ comments, t, ts₂, s, by simp, ht, hts₂, hrun, hs, ?_⟩
  rw [hstart, hsymbols]
  simp [ParserState.initial]

theorem run_of_unmatchedClose (config : NginxConfig) (hts : ∀ t ∈ ts, t.Delivered)
    (hfinal : ¬final.Delivered) (h : UnmatchedClose (symbols ts)) :
    (ParserState.initial config).run (ts ++ [final]) = .undefined := by
  obtain ⟨v, a, w, hu, hne, hv, ha⟩ := h
  obtain ⟨z, hz, hcomplete⟩ := (Zipper.isConfig_iff_run config).mp hv
  obtain ⟨ts₁, t, ts₂, s, rfl, ht, hts₂, hrun, hs, hstart⟩ := run_of_zipper hts hu hz
  obtain ⟨s', hstep, hs'⟩ := hs.step_pop ht hcomplete (fun h => hne (hstart.mp h))
  have hts' : ∀ t ∈ ts₂, t.Delivered := fun t ht => hts t (by simp [ht])
  rw [List.append_assoc, ParserState.run_append_of_next hrun, List.cons_append,
    ParserState.run_cons_of_next hstep]
  rcases hs'.run hts' hfinal with ⟨h, -⟩ | ⟨-, h⟩
  · exact h
  · exact absurd ⟨a, w, hts₂, ha⟩ h

theorem run_of_zipper_none (hts : ∀ t ∈ ts, t.Delivered) (hfinal : ¬final.Delivered)
    (h : ¬UnmatchedClose (symbols ts))
    (hz : Zipper.run ⟨[], config, []⟩ (symbols ts) = none) :
    ∃ c, (ParserState.initial config).run (ts ++ [final]) = .returns false c := by
  obtain ⟨v, a, w, z, hu, hv, ha⟩ := Zipper.exists_of_run_eq_none hz
  obtain ⟨ts₁, t, ts₂, s, rfl, ht, hts₂, hrun, hs, hstart⟩ := run_of_zipper hts hu hv
  rw [List.append_assoc, ParserState.run_append_of_next hrun, List.cons_append]
  by_cases hpop : a = .closeBrace ∧ z.Complete ∧ s.lastTokenType ≠ .start
  · -- the stack is emptied, and the rest of the tokens does not use it
    obtain ⟨rfl, hcomplete, hne⟩ := hpop
    obtain ⟨s', hstep, hs'⟩ := hs.step_pop ht hcomplete hne
    have hts' : ∀ t ∈ ts₂, t.Delivered := fun t ht => hts t (by simp [ht])
    rw [ParserState.run_cons_of_next hstep]
    rcases hs'.run hts' hfinal with ⟨-, b, w', hw, hb⟩ | ⟨h, -⟩
    · refine absurd ⟨v, b, w', ?_, fun hv => hne (hstart.mpr hv), ?_, hb⟩ h
      · rw [hu, ← hts₂, hw]
      · exact (Zipper.isConfig_iff_run config).mpr ⟨z, hv, hcomplete⟩
    · exact ⟨_, h⟩
  · exact ⟨_, ParserState.run_cons_of_returns (hs.step_none ht ha fun h₁ h₂ => by tauto)⟩

theorem run_of_zipper_some {z : Zipper Bytes} (hts : ∀ t ∈ ts, t.Delivered)
    (hfinal : ¬final.Delivered) (hz : Zipper.run ⟨[], config, []⟩ (symbols ts) = some z) :
    (final.type = .eof ∧ z.Complete →
      (ParserState.initial config).run (ts ++ [final]) = .returns true z.done) ∧
    (¬(final.type = .eof ∧ z.Complete) →
      ∃ c, (ParserState.initial config).run (ts ++ [final]) = .returns false c) := by
  obtain ⟨s, hrun, hs, -⟩ := (represents_initial config).run_some hts hz
  rw [ParserState.run_append_of_next hrun]
  constructor
  · rintro ⟨heof, hcomplete⟩
    have hconfig : s.config = z.done := by
      rw [hs.config, hcomplete.1, plug, innermost, if_pos hcomplete.2, List.append_nil]
    rw [ParserState.run_cons_of_returns ((hs.step_eof heof).1 hcomplete), hconfig]
  · intro h
    by_cases heof : final.type = .eof
    · exact ⟨_, ParserState.run_cons_of_returns ((hs.step_eof heof).2 fun hc => h ⟨heof, hc⟩)⟩
    · refine ⟨s.config, ParserState.run_cons_of_returns ?_⟩
      unfold Token.Delivered at hfinal
      unfold ParserState.step
      rcases htype : final.type <;> simp_all

/-- The loop returns, unless it uses the empty stack. -/
theorem run_returns (config : NginxConfig) (hts : ∀ t ∈ ts, t.Delivered) (hfinal : ¬final.Delivered)
    (h : ¬UnmatchedClose (symbols ts)) :
    ∃ b c, (ParserState.initial config).run (ts ++ [final]) = .returns b c := by
  rcases hz : Zipper.run ⟨[], config, []⟩ (symbols ts) with _ | z
  · exact ⟨false, run_of_zipper_none hts hfinal h hz⟩
  · by_cases hcase : final.type = .eof ∧ z.Complete
    · exact ⟨true, z.done, (run_of_zipper_some hts hfinal hz).1 hcase⟩
    · exact ⟨false, (run_of_zipper_some hts hfinal hz).2 hcase⟩

/-- The loop returns true on the texts of the grammar that end properly, with
the derivation in the tree. -/
theorem run_returns_true_iff {c : NginxConfig} (hts : ∀ t ∈ ts, t.Delivered)
    (hfinal : ¬final.Delivered) :
    (ParserState.initial []).run (ts ++ [final]) = .returns true c ↔
      final.type = .eof ∧ WfAll (fun _ => True) c ∧ flattenAll c = symbols ts := by
  constructor
  · intro hrun
    rcases hz : Zipper.run ⟨[], [], []⟩ (symbols ts) with _ | z
    · by_cases h : UnmatchedClose (symbols ts)
      · rw [run_of_unmatchedClose [] hts hfinal h] at hrun
        cases hrun
      · obtain ⟨c', hc'⟩ := run_of_zipper_none hts hfinal h hz
        rw [hc'] at hrun
        cases hrun
    · by_cases hcase : final.type = .eof ∧ z.Complete
      · rw [(run_of_zipper_some hts hfinal hz).1 hcase] at hrun
        obtain ⟨-, rfl⟩ : true = true ∧ z.done = c := by simpa using hrun
        exact ⟨hcase.1, Zipper.of_run_complete hz hcase.2⟩
      · obtain ⟨c', hc'⟩ := (run_of_zipper_some hts hfinal hz).2 hcase
        rw [hc'] at hrun
        cases hrun
  · rintro ⟨heof, hwf, hc⟩
    have hz : Zipper.run ⟨[], [], []⟩ (symbols ts) = some ⟨[], c, []⟩ := by
      rw [← hc, Zipper.run_flattenAll hwf [] []]
      rfl
    exact (run_of_zipper_some hts hfinal hz).1 ⟨heof, rfl, rfl⟩

end WholeRuns

/-- **`Parse` decides the grammar**, and the tree it builds is the derivation. -/
theorem parseTokens_decides (ts : List Token) (hts : ∀ t ∈ ts, t.Delivered) :
    (∃ r, parseTokens [] ts = some r) ∧
      ((∃ c, parseTokens [] ts = some (.returned true c)) ↔ IsConfig (symbols ts)) ∧
      ∀ c, parseTokens [] ts = some (.returned true c) →
        WfAll (fun _ => True) c ∧ flattenAll c = symbols ts := by
  have hfinal : ¬(⟨.eof, []⟩ : Token).Delivered := by decide
  have hreturned (c : NginxConfig) : parseTokens [] ts = some (.returned true c) ↔
      WfAll (fun _ => True) c ∧ flattenAll c = symbols ts := by
    rw [parseTokens_eq hts, Iteration.result_eq_returned, run_returns_true_iff hts hfinal]
    simp
  refine ⟨?_, ?_, fun c => (hreturned c).mp⟩
  · -- the fuel is enough, whether the stack is used up or not
    rw [parseTokens_eq hts]
    by_cases h : UnmatchedClose (symbols ts)
    · rw [run_of_unmatchedClose [] hts hfinal h]
      exact ⟨_, rfl⟩
    · obtain ⟨b, c, hrun⟩ := run_returns [] hts hfinal h
      rw [hrun]
      exact ⟨_, rfl⟩
  · rw [isConfig_iff]
    exact exists_congr hreturned

theorem parseTokens_decides_block :
    ((∃ c, parseTokens [] [⟨.normal, bytes "a"⟩, ⟨.startBlock, bytes "\x7b"⟩,
        ⟨.comment, bytes "#"⟩, ⟨.endBlock, bytes "\x7d"⟩] = some (.returned true c)) ↔
      IsConfig [.word (bytes "a"), .openBrace, .closeBrace]) :=
  (parseTokens_decides [⟨.normal, bytes "a"⟩, ⟨.startBlock, bytes "\x7b"⟩,
    ⟨.comment, bytes "#"⟩, ⟨.endBlock, bytes "\x7d"⟩] (by decide)).2.1

/-! ### The stack of a call -/

/-- The states at the head of the loop, with what is left of the stream. -/
inductive Reaches (config : NginxConfig) (text : Bytes) : Bytes → ParserState → Prop
  | initial : Reaches config text text (.initial config)
  | next {input : Bytes} {s s' : ParserState} : Reaches config text input s →
      s.step (parseToken input).1 = .next s' → Reaches config text (parseToken input).2 s'

/-- The stack always has one element more than there are open blocks, nothing
uses an empty container, and the call returns. -/
def StackSafe (config : NginxConfig) (text : Bytes) : Prop :=
  (∀ input s, Reaches config text input s →
    s.configStack.length = s.numOpenBlocks + 1 ∧ s.step (parseToken input).1 ≠ .undefined) ∧
  ∃ b c, parse config text = some (.returned b c)

/-- A step of the loop keeps the invariant or empties the stack for good. -/
theorem invariant_step {s s' : ParserState} {t : Token}
    (h : (∃ z, Represents s z) ∨ Popped s) (hstep : s.step t = .next s') :
    (∃ z, Represents s' z) ∨ Popped s' := by
  have hdelivered := ParserState.delivered_of_next hstep
  rcases hsymbol : t.symbol with _ | a
  · rw [ParserState.step_comment (hdelivered.comment_of_symbol hsymbol)] at hstep
    cases hstep
    exact h
  · rcases h with ⟨z, hz⟩ | hpopped
    · rcases ha : z.step a with _ | z'
      -- the loop goes on past a refused symbol only when it pops the last block
      · by_cases hpop : a = .closeBrace ∧ z.Complete ∧ s.lastTokenType ≠ .start
        · obtain ⟨rfl, hcomplete, hne⟩ := hpop
          obtain ⟨s₁, h₁, hpopped⟩ := hz.step_pop hsymbol hcomplete hne
          rw [h₁] at hstep
          cases hstep
          exact .inr hpopped
        · rw [hz.step_none hsymbol ha fun h₁ h₂ => by tauto] at hstep
          cases hstep
      · obtain ⟨s₁, h₁, -, hz'⟩ := hz.step_some hsymbol ha
        rw [h₁] at hstep
        cases hstep
        exact .inl ⟨z', hz'⟩
    · by_cases ha : UsesStack a
      · rw [hpopped.step_undefined hsymbol ha] at hstep
        cases hstep
      · have hcomment : t.type ≠ .comment := by
          intro hc
          simp [Token.symbol, hc] at hsymbol
        rw [hpopped.step_returns hcomment fun b hb => by
          rwa [show b = a by simpa [hsymbol] using hb.symm]] at hstep
        cases hstep

theorem Reaches.invariant {config : NginxConfig} {text input : Bytes} {s : ParserState}
    (h : Reaches config text input s) : (∃ z, Represents s z) ∨ Popped s := by
  induction h with
  | initial => exact .inl ⟨_, represents_initial config⟩
  | next _ hstep ih => exact invariant_step ih hstep

/-- **One element more than open blocks**, in every state of every call. -/
theorem Reaches.length_configStack {config : NginxConfig} {text input : Bytes}
    {s : ParserState} (h : Reaches config text input s) :
    s.configStack.length = s.numOpenBlocks + 1 := by
  rcases h.invariant with ⟨z, hz⟩ | hpopped
  · rw [hz.configStack, hz.numOpenBlocks, length_addresses]
    rfl
  · rw [hpopped.configStack, hpopped.numOpenBlocks]
    rfl

/-- What is left to do from a reached state is the rest of the call. -/
theorem Reaches.run_eq {config : NginxConfig} {text input : Bytes} {s : ParserState}
    (h : Reaches config text input s) :
    (ParserState.initial config).run (tokens text) = s.run (tokens input) := by
  induction h with
  | initial => rfl
  | @next input s s' _ hstep ih =>
    rw [ih, tokens, dif_pos (ParserState.delivered_of_next hstep),
      ParserState.run_cons_of_next hstep]

theorem Delivers.exists_eq {σ : Type*} {nextToken : σ → Token × σ} {input : σ}
    {ts : List Token} (h : Delivers nextToken input ts) :
    ∃ us final, ts = us ++ [final] ∧ (∀ t ∈ us, t.Delivered) ∧ ¬final.Delivered ∧
      symbols ts = symbols us := by
  induction h with
  | @last input hlast =>
    exact ⟨[], _, rfl, by simp, hlast,
      symbols_cons_of_none (Token.symbol_of_not_delivered hlast) []⟩
  | @more input _ hmore _ ih =>
    obtain ⟨us, final, rfl, hus, hfinal, hsymbols⟩ := ih
    refine ⟨(nextToken input).1 :: us, final, rfl, by simpa using ⟨hmore, hus⟩, hfinal, ?_⟩
    rw [symbols, symbols, List.filterMap_cons, List.filterMap_cons,
      show List.filterMap Token.symbol (us ++ [final]) = List.filterMap Token.symbol us
        from hsymbols]

/-- **When the stack is safe**: the text does not close a block that was never
opened and then use the stack once more. -/
theorem stackSafe_iff (config : NginxConfig) (text : Bytes) :
    StackSafe config text ↔ ¬UnmatchedClose (symbols (tokens text)) := by
  obtain ⟨us, final, htokens, hus, hfinal, hsymbols⟩ := (delivers_tokens text).exists_eq
  rw [hsymbols]
  constructor
  · rintro ⟨-, b, c, hparse⟩ hclose
    rw [parse_eq, Iteration.result_eq_returned, htokens,
      run_of_unmatchedClose config hus hfinal hclose] at hparse
    cases hparse
  · intro hclose
    obtain ⟨b, c, hrun⟩ := run_returns config hus hfinal hclose
    rw [← htokens] at hrun
    -- an undefined step on the way would end the call
    refine ⟨fun input s hs => ⟨hs.length_configStack, fun hundefined => ?_⟩, b, c, ?_⟩
    · have hstep : s.run (tokens input) = .undefined := by
        rw [tokens]
        split <;> exact ParserState.run_cons_of_undefined hundefined
      rw [hs.run_eq, hstep] at hrun
      cases hrun
    · rw [parse_eq, hrun]
      rfl

theorem not_stackSafe_two_closing_braces : ¬StackSafe [] (bytes "a;\x7d\x7d") := by
  rintro ⟨-, b, c, hparse⟩
  have hundefined : parse [] (bytes "a;\x7d\x7d") = some .undefined := by rfl
  rw [hundefined] at hparse
  cases hparse

end NginxConfigParser
