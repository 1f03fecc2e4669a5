/-
How a shell reads a command line.

Token recognition as the POSIX shell language describes it: unquoted blanks
and operators divide the line, a number sign where a token could begin starts
a comment, and the bytes of a word are kept, quotation marks included, each
with what it is to the shell.  The bytes that open a quotation, an expansion
or a pattern, and a tilde in front of a word, are `active`; what they do to
the word is not followed any further.

* `Shell.ReadsAs.append` — words without active bytes are read as they stand;
* `Shell.ordinaryWord_of_readsAs` — and only they are.
-/
import Mathlib.Tactic.SplitIfs
import Spaceteam.Bytes

namespace Shell

/-! ### Tokens -/

/-- A byte of a word: it stands for itself, unquoted or quoted, or it is active. -/
inductive Piece where
  | plain (b : UInt8)
  | quoted (b : UInt8)
  | active (b : UInt8)
  deriving DecidableEq, Repr

/-- An operator of two bytes is two of these; a line end is one. -/
inductive Token where
  | word (pieces : List Piece)
  | operator (b : UInt8)
  deriving DecidableEq, Repr

/-- The byte of a backquote. -/
def backquote : UInt8 := 96

def blanks : Bytes := [ascii ' ', ascii '\t']

def operators : Bytes :=
  [ascii '&', ascii '|', ascii ';', ascii '<', ascii '>', ascii '(', ascii ')', ascii '\n']

def quotationMarks : Bytes := [ascii '\'', ascii '"', ascii '\\']

/-- The bytes that open an expansion or a pattern.  They count as active wherever
they stand, also a dollar sign with no name and a bracket with no closing one
behind it. -/
def expansions : Bytes := [ascii '$', backquote, ascii '*', ascii '?', ascii '[']

/-- The bytes that are active, or stand for the tokens before and after them,
only where a token could begin. -/
def fronts : Bytes := [ascii '#', ascii '~']

/-- Where the shell is in the line; a word is read up to some pieces. -/
inductive Mode where
  | between
  | comment
  | word (pieces : List Piece)
  | escaped (pieces : List Piece)
  | single (pieces : List Piece)
  | double (pieces : List Piece)
  | doubleEscaped (pieces : List Piece)
  deriving DecidableEq, Repr

/-- An unquoted byte of a word. -/
def unquoted (pieces : List Piece) (b : UInt8) : Mode :=
  if b = ascii '\\' then .escaped pieces
  else if b = ascii '\'' then .single (pieces ++ [.active b])
  else if b = ascii '"' then .double (pieces ++ [.active b])
  else if b ∈ expansions then .word (pieces ++ [.active b])
  else .word (pieces ++ [.plain b])

/-- The tokens of a line; `none` when a quotation is not closed. -/
def read : Mode → Bytes → Option (List Token)
  | .between, [] => some []
  | .between, b :: line =>
    if b ∈ blanks then read .between line
    else if b ∈ operators then (read .between line).map (.operator b :: ·)
    else if b = ascii '#' then read .comment line
    else if b = ascii '~' then read (.word [.active b]) line
    else read (unquoted [] b) line
  | .comment, [] => some []
  | .comment, b :: line =>
    if b = ascii '\n' then (read .between line).map (.operator b :: ·) else read .comment line
  | .word pieces, [] => some [.word pieces]
  | .word pieces, b :: line =>
    if b ∈ blanks then (read .between line).map (.word pieces :: ·)
    else if b ∈ operators then (read .between line).map (.word pieces :: .operator b :: ·)
    else read (unquoted pieces b) line
  | .escaped pieces, [] => some [.word (pieces ++ [.active (ascii '\\')])]
  | .escaped pieces, b :: line =>
    -- a line end behind the backslash joins two lines
    if b = ascii '\n' then read (if pieces = [] then .between else .word pieces) line
    else read (.word (pieces ++ [.active (ascii '\\'), .quoted b])) line
  | .single _, [] => none
  | .single pieces, b :: line =>
    if b = ascii '\'' then read (.word (pieces ++ [.active b])) line
    else read (.single (pieces ++ [.quoted b])) line
  | .double _, [] => none
  | .double pieces, b :: line =>
    if b = ascii '\\' then read (.doubleEscaped pieces) line
    else if b = ascii '"' then read (.word (pieces ++ [.active b])) line
    else if b = ascii '$' ∨ b = backquote then read (.double (pieces ++ [.active b])) line
    else read (.double (pieces ++ [.quoted b])) line
  | .doubleEscaped _, [] => none
  | .doubleEscaped pieces, b :: line =>
    if b = ascii '\n' then read (.double pieces) line
    else if b ∈ [ascii '$', backquote, ascii '"', ascii '\\'] then
      read (.double (pieces ++ [.active (ascii '\\'), .quoted b])) line
    else read (.double (pieces ++ [.quoted (ascii '\\'), .quoted b])) line

/-- The token of a word in which every byte stands for itself. -/
def plainWord (w : Bytes) : Token := .word (w.map .plain)

/-- The line is one simple command of these words, in which every byte stands
for itself (the first word being no reserved word and no assignment). -/
def ReadsAs (line : Bytes) (words : List Bytes) : Prop :=
  read .between line = some (words.map plainWord)

instance (line : Bytes) (words : List Bytes) : Decidable (ReadsAs line words) :=
  inferInstanceAs (Decidable (_ = _))

/-! ### Words that are read as they stand -/

def OrdinaryByte (b : UInt8) : Prop :=
  b ∉ blanks ∧ b ∉ operators ∧ b ∉ quotationMarks ∧ b ∉ expansions

instance : DecidablePred OrdinaryByte := fun _ => inferInstanceAs (Decidable (_ ∧ _ ∧ _ ∧ _))

/-- A word without active bytes. -/
structure OrdinaryWord (w : Bytes) : Prop where
  ne_nil : w ≠ []
  ordinary : ∀ b ∈ w, OrdinaryByte b
  front : ∀ b, w.head? = some b → b ∉ fronts

variable {w line : Bytes} {pieces : List Piece} {b : UInt8}

theorem unquoted_of_ordinary (hb : OrdinaryByte b) :
    unquoted pieces b = .word (pieces ++ [.plain b]) := by
  obtain ⟨-, -, hquote, hexpansion⟩ := hb
  have hmarks : b ≠ ascii '\\' ∧ b ≠ ascii '\'' ∧ b ≠ ascii '"' := by
    refine ⟨?_, ?_, ?_⟩ <;>
    · rintro rfl
      exact hquote (by decide)
  simp [unquoted, hmarks, hexpansion]

theorem read_word_append (hw : ∀ b ∈ w, OrdinaryByte b) (line : Bytes) :
    read (.word pieces) (w ++ line) = read (.word (pieces ++ w.map .plain)) line := by
  induction w generalizing pieces with
  | nil => simp
  | cons b w ih =>
    have hb := hw b (by simp)
    rw [List.cons_append, read, if_neg hb.1, if_neg hb.2.1, unquoted_of_ordinary hb,
      ih fun c hc => hw c (by simp [hc])]
    simp

theorem read_ordinaryWord (hw : OrdinaryWord w) (line : Bytes) :
    read .between (w ++ line) = read (.word (w.map .plain)) line := by
  obtain ⟨hne, hordinary, hfront⟩ := hw
  obtain ⟨b, w, rfl⟩ := List.exists_cons_of_ne_nil hne
  have hb := hordinary b (by simp)
  have hfronts : b ≠ ascii '#' ∧ b ≠ ascii '~' := by
    have hnot := hfront b rfl
    refine ⟨?_, ?_⟩ <;>
    · rintro rfl
      exact hnot (by decide)
  rw [List.cons_append, read, if_neg hb.1, if_neg hb.2.1, if_neg hfronts.1, if_neg hfronts.2,
    unquoted_of_ordinary hb, read_word_append fun c hc => hordinary c (by simp [hc])]
  simp

/-! ### No other words are -/

/-- The bytes that stand for themselves are ordinary, the first one included. -/
structure Sound (pieces : List Piece) : Prop where
  ordinary : ∀ b, .plain b ∈ pieces → OrdinaryByte b
  front : ∀ b, pieces.head? = some (.plain b) → b ∉ fronts

/-- A word has begun with some piece, unless it is a backslash that begins it. -/
def Mode.Sound : Mode → Prop
  | .between | .comment => True
  | .escaped pieces => Shell.Sound pieces
  | .word pieces | .single pieces | .double pieces | .doubleEscaped pieces =>
    pieces ≠ [] ∧ Shell.Sound pieces

def Token.Sound : Token → Prop
  | .word pieces => pieces ≠ [] ∧ Shell.Sound pieces
  | .operator _ => True

/-- Quoted and active bytes may be added. -/
theorem Sound.append {more : List Piece} (h : Sound pieces)
    (hmore : ∀ b, .plain b ∉ more) : Sound (pieces ++ more) := by
  refine ⟨fun b hb => ?_, fun b hb => ?_⟩
  · rcases List.mem_append.mp hb with hb | hb
    · exact h.ordinary b hb
    · exact absurd hb (hmore b)
  · rcases pieces with _ | ⟨p, pieces⟩
    · exact absurd (List.mem_of_mem_head? hb) (hmore b)
    · exact h.front b hb

theorem Sound.unquoted (h : Sound pieces) (hblank : b ∉ blanks) (hoperator : b ∉ operators)
    (hfront : pieces = [] → b ∉ fronts) : (unquoted pieces b).Sound := by
  unfold Shell.unquoted
  split_ifs with hescape hsingle hdouble hexpansion
  · exact h
  · exact ⟨by simp, h.append (by simp)⟩
  · exact ⟨by simp, h.append (by simp)⟩
  · exact ⟨by simp, h.append (by simp)⟩
  · -- what is left stands for itself
    have hb : OrdinaryByte b := by
      refine ⟨hblank, hoperator, ?_, hexpansion⟩
      simp [quotationMarks, hescape, hsingle, hdouble]
    refine ⟨by simp, fun c hc => ?_, fun c hc => ?_⟩
    · rcases List.mem_append.mp hc with hc | hc
      · exact h.ordinary c hc
      · obtain rfl : c = b := by simpa using hc
        exact hb
    · rcases pieces with _ | ⟨p, pieces⟩
      · obtain rfl : b = c := by simpa using hc
        exact hfront rfl
      · exact h.front c hc

/-- **The bytes that stand for themselves in the tokens of a line are
ordinary.** -/
theorem read_sound {m : Mode} {tokens : List Token} (hmode : m.Sound)
    (h : read m line = some tokens) : ∀ t ∈ tokens, t.Sound := by
  have hbetween : Mode.between.Sound := trivial
  have hcomment : Mode.comment.Sound := trivial
  induction line generalizing m tokens with
  | nil =>
    cases m with
    | between | comment =>
      obtain rfl := Option.some_inj.mp h
      simp
    | word pieces =>
      obtain rfl := Option.some_inj.mp h
      exact List.forall_mem_singleton.mpr hmode
    | escaped pieces =>
      obtain rfl := Option.some_inj.mp h
      exact List.forall_mem_singleton.mpr ⟨by simp, Sound.append hmode (by simp)⟩
    | single | double | doubleEscaped => cases h
  | cons b line ih =>
    cases m with
    | between =>
      rw [read] at h
      split_ifs at h with hblank hoperator hhash htilde
      · exact ih hbetween h
      · obtain ⟨rest, hrest, rfl⟩ := Option.map_eq_some_iff.mp h
        exact List.forall_mem_cons.mpr ⟨trivial, ih hbetween hrest⟩
      · exact ih hcomment h
      · exact ih (m := .word _) ⟨by simp, by simp, by simp⟩ h
      · -- a word begins, with no byte that is active only in front
        have hnil : Sound [] := ⟨by simp, by simp⟩
        exact ih (hnil.unquoted hblank hoperator fun _ => by simp [fronts, hhash, htilde]) h
    | comment =>
      rw [read] at h
      split_ifs at h
      · obtain ⟨rest, hrest, rfl⟩ := Option.map_eq_some_iff.mp h
        exact List.forall_mem_cons.mpr ⟨trivial, ih hbetween hrest⟩
      · exact ih hcomment h
    | word pieces =>
      obtain ⟨hne, hsound⟩ := hmode
      rw [read] at h
      split_ifs at h with hblank hoperator
      · obtain ⟨rest, hrest, rfl⟩ := Option.map_eq_some_iff.mp h
        exact List.forall_mem_cons.mpr ⟨⟨hne, hsound⟩, ih hbetween hrest⟩
      · obtain ⟨rest, hrest, rfl⟩ := Option.map_eq_some_iff.mp h
        exact List.forall_mem_cons.mpr
          ⟨⟨hne, hsound⟩, List.forall_mem_cons.mpr ⟨trivial, ih hbetween hrest⟩⟩
      · exact ih (hsound.unquoted hblank hoperator fun hnil => absurd hnil hne) h
    | escaped pieces =>
      have hsound : Sound pieces := hmode
      rw [read] at h
      split_ifs at h with hline hnil
      -- a line joined where a token could begin, or within a word
      · exact ih hbetween h
      · exact ih (m := .word _) ⟨hnil, hsound⟩ h
      · exact ih (m := .word _) ⟨by simp, hsound.append (by simp)⟩ h
    | single pieces =>
      obtain ⟨hne, hsound⟩ := hmode
      rw [read] at h
      split_ifs at h
      · exact ih (m := .word _) ⟨by simp, hsound.append (by simp)⟩ h
      · exact ih (m := .single _) ⟨by simp, hsound.append (by simp)⟩ h
    | double pieces =>
      obtain ⟨hne, hsound⟩ := hmode
      rw [read] at h
      split_ifs at h
      · exact ih (m := .doubleEscaped _) ⟨hne, hsound⟩ h
      · exact ih (m := .word _) ⟨by simp, hsound.append (by simp)⟩ h
      · exact ih (m := .double _) ⟨by simp, hsound.append (by simp)⟩ h
      · exact ih (m := .double _) ⟨by simp, hsound.append (by simp)⟩ h
    | doubleEscaped pieces =>
      obtain ⟨hne, hsound⟩ := hmode
      rw [read] at h
      split_ifs at h
      · exact ih (m := .double _) ⟨hne, hsound⟩ h
      · exact ih (m := .double _) ⟨by simp, hsound.append (by simp)⟩ h
      · exact ih (m := .double _) ⟨by simp, hsound.append (by simp)⟩ h

/-- **Only ordinary words are read as they stand.** -/
theorem ordinaryWord_of_readsAs {words : List Bytes} (h : ReadsAs line words) :
    ∀ w ∈ words, OrdinaryWord w := by
  intro w hw
  obtain ⟨hne, hordinary, hfront⟩ : w.map Piece.plain ≠ [] ∧ Sound (w.map Piece.plain) :=
    read_sound (m := .between) trivial h (plainWord w) (List.mem_map_of_mem hw)
  refine ⟨by simpa using hne, fun b hb => hordinary b (List.mem_map_of_mem hb),
    fun b hb => hfront b ?_⟩
  rw [List.head?_map, hb]
  rfl

theorem readsAs_singleton (hw : OrdinaryWord w) : ReadsAs w [w] := by
  have hread := read_ordinaryWord hw []
  rw [List.append_nil] at hread
  rw [ReadsAs, hread]
  rfl

/-- A word and a blank in front of a line are a word in front of its words. -/
theorem ReadsAs.append {words : List Bytes} (h : ReadsAs line words) (hw : OrdinaryWord w)
    (hb : b ∈ blanks) : ReadsAs (w ++ b :: line) (w :: words) := by
  rw [ReadsAs, read_ordinaryWord hw, read, if_pos hb, h]
  rfl

end Shell
