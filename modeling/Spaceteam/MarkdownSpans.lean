/-
Bold and italic spans (`markdown-tokens.h`, `markdown-tokens.cpp`).

`_processBoldAndItalicSpans` looks for markers with a regular expression, which
is left out here: it makes some list of texts and of markers that open or close
a span.  The two loops that follow look for a close-marker for every open-marker
and take back the matches that cross another one.  Both work on the list in
place, and the first splits markers of three characters while it goes through
the list.

A match is an `id` that the two markers of a pair have and no others: the
pointer from one to the other is followed only to take the match back.  The
loops end when `fuel` iterations are enough; `Finds` and `Matches` say what they
come to, without fuel.
-/
import Mathlib.Algebra.GroupWithZero.Nat
import Mathlib.Logic.Relation
import Spaceteam.Bytes
import Spaceteam.Nesting

namespace Markdown

/-- `BoldOrItalicMarker`; `mMatch` is the id of the match, if there is one. -/
structure BoldOrItalicMarker where
  mOpenMarker : Bool
  -- underscore or asterisk
  mTokenCharacter : UInt8
  -- 1=italics, 2=bold, 3=both
  mSize : ℕ
  mMatch : Option ℕ
  mCannotMatch : Bool
  mDisabled : Bool
  cannotMatch : mDisabled = true → mCannotMatch = true
  deriving DecidableEq, Repr

namespace BoldOrItalicMarker

def new (isOpen : Bool) (c : UInt8) (size : ℕ) : BoldOrItalicMarker where
  mOpenMarker := isOpen
  mTokenCharacter := c
  mSize := size
  mMatch := none
  mCannotMatch := false
  mDisabled := false
  cannotMatch := id

def isUnmatchedOpenMarker (m : BoldOrItalicMarker) : Bool :=
  m.mOpenMarker && m.mMatch.isNone && !m.mCannotMatch

def isUnmatchedCloseMarker (m : BoldOrItalicMarker) : Bool :=
  !m.mOpenMarker && m.mMatch.isNone && !m.mCannotMatch

def matched (m : BoldOrItalicMarker) (id : Option ℕ) : BoldOrItalicMarker :=
  { m with mMatch := id }

def disable (m : BoldOrItalicMarker) : BoldOrItalicMarker :=
  { m with mCannotMatch := true, mDisabled := true, cannotMatch := id }

end BoldOrItalicMarker

/-- What the list holds after the regular expression has been applied. -/
inductive SpanToken where
  | rawText (text : Bytes)
  | marker (m : BoldOrItalicMarker)
  deriving DecidableEq, Repr

/-- How the search for a close-marker ends: there is none, one has been matched,
or the open-marker is to be split for one of this size. -/
inductive Found where
  | nothing
  | matching
  | splitting (size : ℕ)
  deriving DecidableEq, Repr

/-- The loop over the tokens behind an open-marker: what it makes of them. -/
def findClose (openToken : BoldOrItalicMarker) (id : ℕ) :
    ℕ → List SpanToken → Option (List SpanToken × Found)
  | 0, _ => none
  | _ + 1, [] => some ([], .nothing)
  | fuel + 1, .rawText text :: rest =>
    (findClose openToken id fuel rest).map fun r => (.rawText text :: r.1, r.2)
  | fuel + 1, .marker closeToken :: rest =>
    if closeToken.isUnmatchedCloseMarker then
      if closeToken.mSize = 3 ∧ openToken.mSize ≠ 3 then
        -- split the close-token into a match for the open-token and a second for the leftovers
        (findClose openToken id fuel
          (.marker (.new false closeToken.mTokenCharacter (closeToken.mSize - openToken.mSize)) ::
            .marker (.new false closeToken.mTokenCharacter openToken.mSize) :: rest)).map
          fun r => (.marker closeToken.disable :: r.1, r.2)
      else if closeToken.mTokenCharacter = openToken.mTokenCharacter ∧
          closeToken.mSize = openToken.mSize then
        some (.marker (closeToken.matched id) :: rest, .matching)
      else if openToken.mSize = 3 then
        some (.marker closeToken :: rest, .splitting closeToken.mSize)
      else
        (findClose openToken id fuel rest).map fun r => (.marker closeToken :: r.1, r.2)
    else (findClose openToken id fuel rest).map fun r => (.marker closeToken :: r.1, r.2)

/-- The loop over the open-markers, with the id of the next match. -/
def matchMarkers : ℕ → ℕ → List SpanToken → Option (List SpanToken)
  | 0, _, _ => none
  | _ + 1, _, [] => some []
  | fuel + 1, id, .rawText text :: rest =>
    (matchMarkers fuel id rest).map (.rawText text :: ·)
  | fuel + 1, id, .marker openToken :: rest =>
    if openToken.isUnmatchedOpenMarker then
      match findClose openToken id fuel rest with
      | none => none
      | some (rest, .nothing) => (matchMarkers fuel id rest).map (.marker openToken :: ·)
      | some (rest, .matching) =>
        (matchMarkers fuel (id + 1) rest).map (.marker (openToken.matched id) :: ·)
      | some (rest, .splitting size) =>
        -- split the open-token into a match for the close-token and a second for the leftovers
        (matchMarkers fuel id
          (.marker (.new true openToken.mTokenCharacter (openToken.mSize - size)) ::
            .marker (.new true openToken.mTokenCharacter size) :: rest)).map
          (.marker openToken.disable :: ·)
    else (matchMarkers fuel id rest).map (.marker openToken :: ·)

/-- The second loop: the ids whose matches have been taken back, `dropped` those
so far; `none` when it looks at the top of an empty stack. -/
def unmatch : List ℕ → List ℕ → List SpanToken → Option (List ℕ)
  | _, dropped, [] => some dropped
  | openMatches, dropped, .rawText _ :: rest => unmatch openMatches dropped rest
  | openMatches, dropped, .marker m :: rest =>
    match m.mMatch with
    | none => unmatch openMatches dropped rest
    | some id =>
      if m.mOpenMarker then unmatch (id :: openMatches) dropped rest
      else
        match openMatches with
        | [] => none
        | top :: openMatches =>
          if id ≠ top then unmatch (top :: openMatches) (id :: dropped) rest
          else unmatch (openMatches.dropWhile (· ∈ dropped)) dropped rest

/-- The token after the matches in `dropped` have been taken back. -/
def SpanToken.forget (dropped : List ℕ) : SpanToken → SpanToken
  | .rawText text => .rawText text
  | .marker m => .marker (if ∃ id ∈ dropped, m.mMatch = some id then m.matched none else m)

/-- `_processBoldAndItalicSpans` behind the regular expression and up to the
replacements. -/
def processBoldAndItalicSpans (fuel : ℕ) (tgt : List SpanToken) : Option (List SpanToken) := do
  let tgt ← matchMarkers fuel 0 tgt
  let dropped ← unmatch [] [] tgt
  return tgt.map (·.forget dropped)

/-! ### What the search comes to -/

/-- A close-marker that has no match yet. -/
def SpanToken.closes : SpanToken → Bool
  | .rawText _ => false
  | .marker m => m.isUnmatchedCloseMarker

/-- An open-marker that has no match yet. -/
def SpanToken.opens : SpanToken → Bool
  | .rawText _ => false
  | .marker m => m.isUnmatchedOpenMarker

/-- What `findClose` makes of the tokens behind an open-marker. -/
inductive Finds (o : BoldOrItalicMarker) (id : ℕ) :
    List SpanToken → List SpanToken → Found → Prop
  | nothing : Finds o id [] [] .nothing
  | passes {t : SpanToken} {rest rest' : List SpanToken} {found : Found}
    (ht : t.closes = false) (h : Finds o id rest rest' found) :
    Finds o id (t :: rest) (t :: rest') found
  | splits {c : BoldOrItalicMarker} {rest rest' : List SpanToken} {found : Found}
    (hc : c.isUnmatchedCloseMarker = true) (hthree : c.mSize = 3) (ho : o.mSize ≠ 3)
    (h : Finds o id (.marker (.new false c.mTokenCharacter (3 - o.mSize)) ::
      .marker (.new false c.mTokenCharacter o.mSize) :: rest) rest' found) :
    Finds o id (.marker c :: rest) (.marker c.disable :: rest') found
  | matching {c : BoldOrItalicMarker} {rest : List SpanToken}
    (hc : c.isUnmatchedCloseMarker = true) (hchar : c.mTokenCharacter = o.mTokenCharacter)
    (hsize : c.mSize = o.mSize) :
    Finds o id (.marker c :: rest) (.marker (c.matched id) :: rest) .matching
  | splitting {c : BoldOrItalicMarker} {rest : List SpanToken}
    (hc : c.isUnmatchedCloseMarker = true) (ho : o.mSize = 3)
    (hdiffers : ¬(c.mTokenCharacter = o.mTokenCharacter ∧ c.mSize = o.mSize)) :
    Finds o id (.marker c :: rest) (.marker c :: rest) (.splitting c.mSize)
  | differs {c : BoldOrItalicMarker} {rest rest' : List SpanToken} {found : Found}
    (hc : c.isUnmatchedCloseMarker = true) (hthree : c.mSize ≠ 3) (ho : o.mSize ≠ 3)
    (hdiffers : ¬(c.mTokenCharacter = o.mTokenCharacter ∧ c.mSize = o.mSize))
    (h : Finds o id rest rest' found) :
    Finds o id (.marker c :: rest) (.marker c :: rest') found

/-- What `matchMarkers` makes of the tokens. -/
inductive Matches : ℕ → List SpanToken → List SpanToken → Prop
  | nil (id : ℕ) : Matches id [] []
  | passes {id : ℕ} {t : SpanToken} {rest rest' : List SpanToken} (ht : t.opens = false)
    (h : Matches id rest rest') : Matches id (t :: rest) (t :: rest')
  | unmatched {id : ℕ} {o : BoldOrItalicMarker} {rest rest' rest'' : List SpanToken}
    (ho : o.isUnmatchedOpenMarker = true) (hfinds : Finds o id rest rest' .nothing)
    (h : Matches id rest' rest'') : Matches id (.marker o :: rest) (.marker o :: rest'')
  | matching {id : ℕ} {o : BoldOrItalicMarker} {rest rest' rest'' : List SpanToken}
    (ho : o.isUnmatchedOpenMarker = true) (hfinds : Finds o id rest rest' .matching)
    (h : Matches (id + 1) rest' rest'') :
    Matches id (.marker o :: rest) (.marker (o.matched id) :: rest'')
  | splits {id size : ℕ} {o : BoldOrItalicMarker} {rest rest' rest'' : List SpanToken}
    (ho : o.isUnmatchedOpenMarker = true) (hfinds : Finds o id rest rest' (.splitting size))
    (h : Matches id (.marker (.new true o.mTokenCharacter (o.mSize - size)) ::
      .marker (.new true o.mTokenCharacter size) :: rest') rest'') :
    Matches id (.marker o :: rest) (.marker o.disable :: rest'')

variable {o c : BoldOrItalicMarker} {id fuel fuel' : ℕ} {t : SpanToken}
  {rest rest' rest'' tgt : List SpanToken} {found : Found}

theorem finds_of_findClose (h : findClose o id fuel rest = some (rest', found)) :
    Finds o id rest rest' found := by
  induction fuel generalizing rest rest' with
  | zero => cases h
  | succ fuel ih =>
    rcases rest with _ | ⟨text | c, rest⟩
    · cases h
      exact .nothing
    · obtain ⟨⟨_, _⟩, hrest, heq⟩ := Option.map_eq_some_iff.mp h
      cases heq
      exact .passes rfl (ih hrest)
    · rw [findClose] at h
      split_ifs at h with hc hsplits hmatching ho
      · obtain ⟨⟨_, _⟩, hrest, heq⟩ := Option.map_eq_some_iff.mp h
        cases heq
        rw [hsplits.1] at hrest
        exact .splits hc hsplits.1 hsplits.2 (ih hrest)
      · cases h
        exact .matching hc hmatching.1 hmatching.2
      · cases h
        exact .splitting hc ho hmatching
      · obtain ⟨⟨_, _⟩, hrest, heq⟩ := Option.map_eq_some_iff.mp h
        cases heq
        exact .differs hc (fun hthree => hsplits ⟨hthree, ho⟩) ho hmatching (ih hrest)
      · obtain ⟨⟨_, _⟩, hrest, heq⟩ := Option.map_eq_some_iff.mp h
        cases heq
        exact .passes (by simpa [SpanToken.closes] using hc) (ih hrest)

theorem findClose_of_passes (ht : t.closes = false) :
    findClose o id (fuel + 1) (t :: rest) =
      (findClose o id fuel rest).map fun r => (t :: r.1, r.2) := by
  cases t with
  | rawText text => rfl
  | marker m => rw [findClose, if_neg (by simpa [SpanToken.closes] using ht)]

theorem findClose_of_finds (h : Finds o id rest rest' found) :
    ∃ n, ∀ fuel ≥ n, findClose o id fuel rest = some (rest', found) := by
  induction h with
  | nothing =>
    refine ⟨1, fun fuel hfuel => ?_⟩
    obtain ⟨fuel, rfl⟩ := Nat.exists_eq_add_of_le' hfuel
    rfl
  | passes ht _ ih =>
    obtain ⟨n, hn⟩ := ih
    refine ⟨n + 1, fun fuel hfuel => ?_⟩
    obtain ⟨fuel, rfl⟩ := Nat.exists_eq_add_of_le' (Nat.le_of_add_left_le hfuel)
    rw [findClose_of_passes ht, hn fuel (by omega)]
    rfl
  | splits hc hthree ho _ ih =>
    obtain ⟨n, hn⟩ := ih
    refine ⟨n + 1, fun fuel hfuel => ?_⟩
    obtain ⟨fuel, rfl⟩ := Nat.exists_eq_add_of_le' (Nat.le_of_add_left_le hfuel)
    rw [findClose, if_pos hc, if_pos ⟨hthree, ho⟩, hthree, hn fuel (by omega)]
    rfl
  | matching hc hchar hsize =>
    refine ⟨1, fun fuel hfuel => ?_⟩
    obtain ⟨fuel, rfl⟩ := Nat.exists_eq_add_of_le' hfuel
    rw [findClose, if_pos hc, if_neg (fun h => h.2 (hsize ▸ h.1)), if_pos ⟨hchar, hsize⟩]
  | splitting hc ho hdiffers =>
    refine ⟨1, fun fuel hfuel => ?_⟩
    obtain ⟨fuel, rfl⟩ := Nat.exists_eq_add_of_le' hfuel
    rw [findClose, if_pos hc, if_neg (fun h => h.2 ho), if_neg hdiffers, if_pos ho]
  | differs hc hthree ho hdiffers _ ih =>
    obtain ⟨n, hn⟩ := ih
    refine ⟨n + 1, fun fuel hfuel => ?_⟩
    obtain ⟨fuel, rfl⟩ := Nat.exists_eq_add_of_le' (Nat.le_of_add_left_le hfuel)
    rw [findClose, if_pos hc, if_neg (fun h => hthree h.1), if_neg hdiffers, if_neg ho,
      hn fuel (by omega)]
    rfl

theorem matches_of_matchMarkers (h : matchMarkers fuel id rest = some rest') :
    Matches id rest rest' := by
  induction fuel generalizing id rest rest' with
  | zero => cases h
  | succ fuel ih =>
    rcases rest with _ | ⟨text | o, rest⟩
    · cases h
      exact .nil id
    · obtain ⟨_, hrest, rfl⟩ := Option.map_eq_some_iff.mp h
      exact .passes rfl (ih hrest)
    · rw [matchMarkers] at h
      split_ifs at h with ho
      · split at h
        next => cases h
        next rest₁ hfind =>
          obtain ⟨_, hrest, rfl⟩ := Option.map_eq_some_iff.mp h
          exact .unmatched ho (finds_of_findClose hfind) (ih hrest)
        next rest₁ hfind =>
          obtain ⟨_, hrest, rfl⟩ := Option.map_eq_some_iff.mp h
          exact .matching ho (finds_of_findClose hfind) (ih hrest)
        next rest₁ size hfind =>
          obtain ⟨_, hrest, rfl⟩ := Option.map_eq_some_iff.mp h
          exact .splits ho (finds_of_findClose hfind) (ih hrest)
      · obtain ⟨_, hrest, rfl⟩ := Option.map_eq_some_iff.mp h
        exact .passes (by simpa [SpanToken.opens] using ho) (ih hrest)

theorem matchMarkers_of_passes (ht : t.opens = false) :
    matchMarkers (fuel + 1) id (t :: rest) = (matchMarkers fuel id rest).map (t :: ·) := by
  cases t with
  | rawText text => rfl
  | marker m => rw [matchMarkers, if_neg (by simpa [SpanToken.opens] using ht)]

theorem matchMarkers_of_matches (h : Matches id rest rest') :
    ∃ n, ∀ fuel ≥ n, matchMarkers fuel id rest = some rest' := by
  induction h with
  | nil id =>
    refine ⟨1, fun fuel hfuel => ?_⟩
    obtain ⟨fuel, rfl⟩ := Nat.exists_eq_add_of_le' hfuel
    rfl
  | passes ht _ ih =>
    obtain ⟨n, hn⟩ := ih
    refine ⟨n + 1, fun fuel hfuel => ?_⟩
    obtain ⟨fuel, rfl⟩ := Nat.exists_eq_add_of_le' (Nat.le_of_add_left_le hfuel)
    rw [matchMarkers_of_passes ht, hn fuel (by omega)]
    rfl
  | unmatched ho hfinds _ ih =>
    obtain ⟨n, hn⟩ := ih
    obtain ⟨k, hk⟩ := findClose_of_finds hfinds
    refine ⟨n + k + 1, fun fuel hfuel => ?_⟩
    obtain ⟨fuel, rfl⟩ := Nat.exists_eq_add_of_le' (Nat.le_of_add_left_le hfuel)
    rw [matchMarkers, if_pos ho, hk fuel (by omega)]
    simp only [hn fuel (by omega), Option.map_some]
  | matching ho hfinds _ ih =>
    obtain ⟨n, hn⟩ := ih
    obtain ⟨k, hk⟩ := findClose_of_finds hfinds
    refine ⟨n + k + 1, fun fuel hfuel => ?_⟩
    obtain ⟨fuel, rfl⟩ := Nat.exists_eq_add_of_le' (Nat.le_of_add_left_le hfuel)
    rw [matchMarkers, if_pos ho, hk fuel (by omega)]
    simp only [hn fuel (by omega), Option.map_some]
  | splits ho hfinds _ ih =>
    obtain ⟨n, hn⟩ := ih
    obtain ⟨k, hk⟩ := findClose_of_finds hfinds
    refine ⟨n + k + 1, fun fuel hfuel => ?_⟩
    obtain ⟨fuel, rfl⟩ := Nat.exists_eq_add_of_le' (Nat.le_of_add_left_le hfuel)
    rw [matchMarkers, if_pos ho, hk fuel (by omega)]
    simp only [hn fuel (by omega), Option.map_some]

/-- The search comes to one result. -/
theorem Finds.unique {found' : Found} (h : Finds o id rest rest' found)
    (h' : Finds o id rest rest'' found') : rest' = rest'' ∧ found = found' := by
  obtain ⟨n, hn⟩ := findClose_of_finds h
  obtain ⟨k, hk⟩ := findClose_of_finds h'
  have heq := (hn (n + k) (by omega)).symm.trans (hk (n + k) (by omega))
  cases heq
  exact ⟨rfl, rfl⟩

/-! ### The markers stay in range -/

/-- A marker of one to three characters. -/
def SpanToken.InRange : SpanToken → Prop
  | .rawText _ => True
  | .marker m => 1 ≤ m.mSize ∧ m.mSize ≤ 3

theorem find?_closes_self (hc : c.isUnmatchedCloseMarker = true) (rest : List SpanToken) :
    (.marker c :: rest).find? SpanToken.closes = some (.marker c) :=
  List.find?_cons_of_pos (p := SpanToken.closes) hc

/-- A search for a marker of three characters looks at the first close-marker
and nothing else. -/
theorem Finds.of_three (h : Finds o id rest rest' found) (ho : o.mSize = 3) :
    match found with
    | .nothing => rest.find? SpanToken.closes = none ∧ rest' = rest
    | .matching => ∃ c, rest.find? SpanToken.closes = some (.marker c) ∧
        c.mTokenCharacter = o.mTokenCharacter ∧ c.mSize = 3
    | .splitting size => ∃ c, rest.find? SpanToken.closes = some (.marker c) ∧ c.mSize = size ∧
        ¬(c.mTokenCharacter = o.mTokenCharacter ∧ c.mSize = 3) ∧ rest' = rest := by
  induction h with
  | nothing => exact ⟨rfl, rfl⟩
  | @passes t rest rest' found ht _ ih =>
    rw [List.find?_cons_of_neg (by simpa using ht)]
    cases found with
    | nothing => exact ⟨ih.1, congrArg (t :: ·) ih.2⟩
    | matching => exact ih
    | splitting size =>
      obtain ⟨c, hc, hsize, hdiffers, hrest⟩ := ih
      exact ⟨c, hc, hsize, hdiffers, congrArg (t :: ·) hrest⟩
  | splits _ _ hne _ _ => exact absurd ho hne
  | @matching c rest hc hchar hsize => exact ⟨c, find?_closes_self hc rest, hchar, hsize ▸ ho⟩
  | @splitting c rest hc _ hdiffers =>
    exact ⟨c, find?_closes_self hc rest, rfl, ho ▸ hdiffers, rfl⟩
  | differs _ _ hne _ _ _ => exact absurd ho hne

/-- **A search for a marker of no characters does not end** before a
close-marker of three: it is split into itself and one of none. -/
theorem not_finds_of_zero (ho : o.mSize = 0) (hc : rest.find? SpanToken.closes = some (.marker c))
    (hthree : c.mSize = 3) : ¬Finds o id rest rest' found := by
  intro h
  induction h generalizing c with
  | nothing => cases hc
  | passes ht _ ih =>
    rw [List.find?_cons_of_neg (by simpa using ht)] at hc
    exact ih hc hthree
  | @splits d rest rest' found hd _ _ _ ih =>
    refine ih (c := .new false d.mTokenCharacter (3 - o.mSize)) rfl ?_
    rw [ho]
    rfl
  | @matching d rest hd hchar hsize =>
    rw [find?_closes_self hd] at hc
    obtain rfl := SpanToken.marker.inj (Option.some_inj.mp hc)
    omega
  | splitting _ hsize _ => omega
  | @differs d rest rest' found hd hne _ _ _ _ =>
    rw [find?_closes_self hd] at hc
    obtain rfl := SpanToken.marker.inj (Option.some_inj.mp hc)
    exact hne hthree

/-- What holds of all tokens before the search holds of all behind it, if it is
kept when a close-marker is split or matched. -/
theorem Finds.forall_mem {P : SpanToken → Prop} (h : Finds o id rest rest' found)
    (hsplits : ∀ c : BoldOrItalicMarker, c.isUnmatchedCloseMarker = true → o.mSize ≠ 3 →
      P (.marker c) → P (.marker c.disable) ∧
        P (.marker (.new false c.mTokenCharacter (3 - o.mSize))) ∧
        P (.marker (.new false c.mTokenCharacter o.mSize)))
    (hmatched : ∀ c : BoldOrItalicMarker, c.isUnmatchedCloseMarker = true → P (.marker c) →
      P (.marker (c.matched id)))
    (hrest : ∀ t ∈ rest, P t) : ∀ t ∈ rest', P t := by
  induction h with
  | nothing => exact hrest
  | passes _ _ ih | differs _ _ _ _ _ ih =>
    rw [List.forall_mem_cons] at hrest ⊢
    exact ⟨hrest.1, ih hrest.2⟩
  | @splits c rest rest' found hc _ hne _ ih =>
    rw [List.forall_mem_cons] at hrest ⊢
    obtain ⟨hdisable, hfirst, hsecond⟩ := hsplits c hc hne hrest.1
    refine ⟨hdisable, ih ?_⟩
    simp only [List.forall_mem_cons]
    exact ⟨hfirst, hsecond, hrest.2⟩
  | matching hc _ _ =>
    rw [List.forall_mem_cons] at hrest ⊢
    exact ⟨hmatched _ hc hrest.1, hrest.2⟩
  | splitting _ _ _ => exact hrest

theorem Finds.inRange (h : Finds o id rest rest' found) (ho : 1 ≤ o.mSize ∧ o.mSize ≤ 3)
    (hrest : ∀ t ∈ rest, t.InRange) : ∀ t ∈ rest', t.InRange := by
  refine h.forall_mem (fun c _ hne hrange => ⟨hrange, ?_, ho⟩) (fun c _ hrange => hrange) hrest
  show 1 ≤ 3 - o.mSize ∧ 3 - o.mSize ≤ 3
  omega

theorem Finds.three_of_splitting {size : ℕ} (h : Finds o id rest rest' (.splitting size)) :
    o.mSize = 3 := by
  generalize hfound : Found.splitting size = found at h
  induction h with
  | nothing | matching _ _ _ => cases hfound
  | passes _ _ ih => exact ih hfound
  | splits _ _ _ _ ih => exact ih hfound
  | splitting _ ho _ => exact ho
  | differs _ _ _ _ _ ih => exact ih hfound

/-- The next open-marker is one of three characters, and the first close-marker
behind it too, but of the other character. -/
def Clashes (o : BoldOrItalicMarker) (rest : List SpanToken) : Prop :=
  o.isUnmatchedOpenMarker = true ∧ o.mSize = 3 ∧
    ∃ c, rest.find? SpanToken.closes = some (.marker c) ∧ c.mSize = 3 ∧
      c.mTokenCharacter ≠ o.mTokenCharacter

/-- **There the loop does not end**: the open-marker is split into itself and
one of no characters, which is searched for first. -/
theorem not_matches_of_clashes (h : Clashes o rest) : ¬Matches id (.marker o :: rest) rest'' := by
  obtain ⟨hopen, hthree, c, hc, hsize, hchar⟩ := h
  intro hmatches
  cases hmatches with
  | passes ht _ => exact absurd hopen (by simpa [SpanToken.opens] using ht)
  | unmatched _ hfinds _ =>
    obtain ⟨hnone, -⟩ := hfinds.of_three hthree
    rw [hc] at hnone
    cases hnone
  | matching _ hfinds _ =>
    obtain ⟨c', hc', hchar', -⟩ := hfinds.of_three hthree
    obtain rfl := SpanToken.marker.inj (Option.some_inj.mp (hc.symm.trans hc'))
    exact hchar hchar'
  | @splits _ size _ _ rest' _ _ hfinds hrest =>
    obtain ⟨c', hc', hsize', -, rfl⟩ := hfinds.of_three hthree
    obtain rfl := SpanToken.marker.inj (Option.some_inj.mp (hc.symm.trans hc'))
    -- the first of the two new markers has no characters
    have hzero : ∀ found rest'', ¬Finds (.new true o.mTokenCharacter (o.mSize - size)) id
        (.marker (.new true o.mTokenCharacter size) :: rest') rest'' found := by
      intro found rest''
      refine not_finds_of_zero (c := c) ?_ ?_ hsize
      · show o.mSize - size = 0
        omega
      · rw [List.find?_cons_of_neg (by simp [SpanToken.closes,
          BoldOrItalicMarker.isUnmatchedCloseMarker, BoldOrItalicMarker.new])]
        exact hc
    cases hrest with
    | passes ht _ => cases ht
    | unmatched _ hfinds _ => exact hzero _ _ hfinds
    | matching _ hfinds _ => exact hzero _ _ hfinds
    | splits _ hfinds _ => exact hzero _ _ hfinds

/-- A marker that does not clash is split into markers of one and two
characters. -/
theorem size_of_splitting {size : ℕ} (ho : o.isUnmatchedOpenMarker = true)
    (hfinds : Finds o id rest rest' (.splitting size)) (hrest : ∀ t ∈ rest, t.InRange)
    (hclash : ¬Clashes o rest) : o.mSize = 3 ∧ (size = 1 ∨ size = 2) := by
  have hthree := hfinds.three_of_splitting
  obtain ⟨c, hc, rfl, hdiffers, -⟩ := hfinds.of_three hthree
  obtain ⟨hone, hle⟩ : 1 ≤ c.mSize ∧ c.mSize ≤ 3 := hrest _ (List.mem_of_find?_eq_some hc)
  have hne : c.mSize ≠ 3 := fun hsize =>
    hclash ⟨ho, hthree, c, hc, hsize, fun hchar => hdiffers ⟨hchar, hsize⟩⟩
  exact ⟨hthree, by omega⟩

theorem inRange_splits {size : ℕ} (hsize : size = 1 ∨ size = 2) (ho : o.mSize = 3) (ch : UInt8)
    (hrest : ∀ t ∈ rest, t.InRange) :
    ∀ t ∈ SpanToken.marker (.new true ch (o.mSize - size)) ::
      .marker (.new true ch size) :: rest, t.InRange := by
  simp only [List.forall_mem_cons]
  refine ⟨?_, ?_, hrest⟩
  · show 1 ≤ o.mSize - size ∧ o.mSize - size ≤ 3
    omega
  · show 1 ≤ size ∧ size ≤ 3
    omega

theorem Matches.inRange (h : Matches id rest rest') (hrest : ∀ t ∈ rest, t.InRange) :
    ∀ t ∈ rest', t.InRange := by
  induction h with
  | nil => exact hrest
  | passes _ _ ih =>
    rw [List.forall_mem_cons] at hrest ⊢
    exact ⟨hrest.1, ih hrest.2⟩
  | unmatched _ hfinds _ ih | matching _ hfinds _ ih =>
    rw [List.forall_mem_cons] at hrest ⊢
    exact ⟨hrest.1, ih (hfinds.inRange hrest.1 hrest.2)⟩
  | splits ho hfinds h ih =>
    rw [List.forall_mem_cons] at hrest ⊢
    have hclash := fun hclash => not_matches_of_clashes hclash (.splits ho hfinds h)
    obtain ⟨hthree, hsize⟩ := size_of_splitting ho hfinds hrest.2 hclash
    exact ⟨hrest.1, ih (inRange_splits hsize hthree _ (hfinds.inRange hrest.1 hrest.2))⟩

/-! ### When the loops end -/

/-- The tokens a token can still be split into. -/
def SpanToken.weight : SpanToken → ℕ
  | .rawText _ => 1
  | .marker m =>
    if (m.isUnmatchedOpenMarker || m.isUnmatchedCloseMarker) ∧ m.mSize = 3 then 3 else 1

def weight (tokens : List SpanToken) : ℕ := (tokens.map SpanToken.weight).sum

theorem weight_cons (t : SpanToken) (rest : List SpanToken) :
    weight (t :: rest) = t.weight + weight rest := by
  simp [weight]

theorem SpanToken.weight_pos (t : SpanToken) : 1 ≤ t.weight := by
  cases t with
  | rawText text => exact le_rfl
  | marker m =>
    rw [weight]
    split_ifs <;> omega

theorem weight_new_of_ne {isOpen : Bool} {ch : UInt8} {size : ℕ} (h : size ≠ 3) :
    (SpanToken.marker (.new isOpen ch size)).weight = 1 :=
  if_neg fun hthree => h hthree.2

theorem weight_of_closes (hc : c.isUnmatchedCloseMarker = true) (hthree : c.mSize = 3) :
    (SpanToken.marker c).weight = 3 :=
  if_pos ⟨by simp [hc], hthree⟩

theorem weight_of_opens (ho : o.isUnmatchedOpenMarker = true) (hthree : o.mSize = 3) :
    (SpanToken.marker o).weight = 3 :=
  if_pos ⟨by simp [ho], hthree⟩

theorem weight_disable (m : BoldOrItalicMarker) : (SpanToken.marker m.disable).weight = 1 :=
  if_neg (by simp [BoldOrItalicMarker.isUnmatchedOpenMarker,
    BoldOrItalicMarker.isUnmatchedCloseMarker, BoldOrItalicMarker.disable])

theorem weight_matched_le (m : BoldOrItalicMarker) (id : ℕ) :
    (SpanToken.marker (m.matched id)).weight ≤ (SpanToken.marker m).weight := by
  have hone : (SpanToken.marker (m.matched id)).weight = 1 :=
    if_neg (by simp [BoldOrItalicMarker.isUnmatchedOpenMarker,
      BoldOrItalicMarker.isUnmatchedCloseMarker, BoldOrItalicMarker.matched])
  rw [hone]
  exact SpanToken.weight_pos _

/-- **The search ends**, and leaves no more to split than there was. -/
theorem exists_finds (ho : 1 ≤ o.mSize ∧ o.mSize ≤ 3) (id : ℕ) (rest : List SpanToken) :
    ∃ rest' found, Finds o id rest rest' found ∧ weight rest' ≤ weight rest := by
  induction hn : weight rest using Nat.strong_induction_on generalizing rest with
  | _ n ih =>
    subst hn
    rcases rest with _ | ⟨t, rest⟩
    · exact ⟨[], .nothing, .nothing, le_rfl⟩
    have hpos := t.weight_pos
    rw [weight_cons]
    cases ht : t.closes with
    | false =>
      obtain ⟨rest', found, hfinds, hle⟩ := ih (weight rest) (by rw [weight_cons]; omega) rest rfl
      refine ⟨t :: rest', found, .passes ht hfinds, ?_⟩
      rw [weight_cons]
      omega
    | true =>
      obtain ⟨c, rfl, hc⟩ : ∃ c, t = .marker c ∧ c.isUnmatchedCloseMarker = true := by
        cases t with
        | rawText text => cases ht
        | marker c => exact ⟨c, rfl, ht⟩
      by_cases hsplits : c.mSize = 3 ∧ o.mSize ≠ 3
      · -- three characters become one and two, which are not split again
        obtain ⟨hthree, hne⟩ := hsplits
        have hweight : weight (.marker (.new false c.mTokenCharacter (3 - o.mSize)) ::
            .marker (.new false c.mTokenCharacter o.mSize) :: rest) = 2 + weight rest := by
          rw [weight_cons, weight_cons, weight_new_of_ne (by omega), weight_new_of_ne hne]
          omega
        have hc3 := weight_of_closes hc hthree
        obtain ⟨rest', found, hfinds, hle⟩ := ih _ (by rw [hweight, weight_cons]; omega) _ rfl
        refine ⟨_, found, .splits hc hthree hne hfinds, ?_⟩
        rw [weight_cons, weight_disable]
        omega
      · by_cases hmatching : c.mTokenCharacter = o.mTokenCharacter ∧ c.mSize = o.mSize
        · refine ⟨_, _, .matching hc hmatching.1 hmatching.2, ?_⟩
          rw [weight_cons]
          exact Nat.add_le_add_right (weight_matched_le c id) _
        · by_cases hthree : o.mSize = 3
          · exact ⟨_, _, .splitting hc hthree hmatching, by rw [weight_cons]⟩
          · obtain ⟨rest', found, hfinds, hle⟩ :=
              ih (weight rest) (by rw [weight_cons]; omega) rest rfl
            refine ⟨_, found,
              .differs hc (fun h => hsplits ⟨h, hthree⟩) hthree hmatching hfinds, ?_⟩
            rw [weight_cons]
            omega

/-- One iteration of the outer loop: the tokens it has still to go through. -/
inductive Advances : ℕ × List SpanToken → ℕ × List SpanToken → Prop
  | passes {id : ℕ} {t : SpanToken} {rest : List SpanToken} (ht : t.opens = false) :
    Advances (id, t :: rest) (id, rest)
  | unmatched {id : ℕ} {o : BoldOrItalicMarker} {rest rest' : List SpanToken}
    (ho : o.isUnmatchedOpenMarker = true) (hfinds : Finds o id rest rest' .nothing) :
    Advances (id, .marker o :: rest) (id, rest')
  | matching {id : ℕ} {o : BoldOrItalicMarker} {rest rest' : List SpanToken}
    (ho : o.isUnmatchedOpenMarker = true) (hfinds : Finds o id rest rest' .matching) :
    Advances (id, .marker o :: rest) (id + 1, rest')
  | splits {id size : ℕ} {o : BoldOrItalicMarker} {rest rest' : List SpanToken}
    (ho : o.isUnmatchedOpenMarker = true) (hfinds : Finds o id rest rest' (.splitting size)) :
    Advances (id, .marker o :: rest)
      (id, .marker (.new true o.mTokenCharacter (o.mSize - size)) ::
        .marker (.new true o.mTokenCharacter size) :: rest')

/-- The loop comes to this open-marker, with these tokens behind it. -/
def ComesTo (id : ℕ) (tgt : List SpanToken) (o : BoldOrItalicMarker) (rest : List SpanToken) :
    Prop := ∃ id', Relation.ReflTransGen Advances (id, tgt) (id', .marker o :: rest)

theorem ComesTo.head {id' : ℕ} (hadvances : Advances (id, tgt) (id', rest))
    (h : ComesTo id' rest o rest') : ComesTo id tgt o rest' := by
  obtain ⟨id'', hcomes⟩ := h
  exact ⟨id'', .head hadvances hcomes⟩

theorem exists_matches (hrange : ∀ t ∈ tgt, t.InRange)
    (hclash : ∀ o rest, ComesTo id tgt o rest → ¬Clashes o rest) :
    ∃ rest', Matches id tgt rest' := by
  induction hn : weight tgt using Nat.strong_induction_on generalizing id tgt with
  | _ n ih =>
    subst hn
    rcases tgt with _ | ⟨t, rest⟩
    · exact ⟨[], .nil id⟩
    obtain ⟨ht, hrest⟩ := List.forall_mem_cons.mp hrange
    have hpos := t.weight_pos
    have hcons := weight_cons t rest
    cases hopens : t.opens with
    | false =>
      have hadvances : Advances (id, t :: rest) (id, rest) := .passes hopens
      obtain ⟨rest', h⟩ := ih (weight rest) (by omega) hrest
        (fun o rest' hcomes => hclash o rest' (hcomes.head hadvances)) rfl
      exact ⟨_, .passes hopens h⟩
    | true =>
      obtain ⟨o, rfl, ho⟩ : ∃ o, t = .marker o ∧ o.isUnmatchedOpenMarker = true := by
        cases t with
        | rawText text => cases hopens
        | marker o => exact ⟨o, rfl, hopens⟩
      obtain ⟨rest', found, hfinds, hle⟩ := exists_finds ht id rest
      have hrange' := hfinds.inRange ht hrest
      cases found with
      | nothing =>
        obtain ⟨rest'', h⟩ := ih (weight rest') (by omega) hrange'
          (fun o rest' hcomes => hclash o rest' (hcomes.head (.unmatched ho hfinds))) rfl
        exact ⟨_, .unmatched ho hfinds h⟩
      | matching =>
        obtain ⟨rest'', h⟩ := ih (weight rest') (by omega) hrange'
          (fun o rest' hcomes => hclash o rest' (hcomes.head (.matching ho hfinds))) rfl
        exact ⟨_, .matching ho hfinds h⟩
      | splitting size =>
        -- the two new markers weigh less than the one that is split
        obtain ⟨hthree, hsize⟩ := size_of_splitting ho hfinds hrest (hclash o rest ⟨id, .refl⟩)
        have hweight : weight (.marker (.new true o.mTokenCharacter (o.mSize - size)) ::
            .marker (.new true o.mTokenCharacter size) :: rest') = 2 + weight rest' := by
          rw [weight_cons, weight_cons, weight_new_of_ne (by omega), weight_new_of_ne (by omega)]
          omega
        have hthree' := weight_of_opens ho hthree
        obtain ⟨rest'', h⟩ := ih _ (by omega) (inRange_splits hsize hthree _ hrange')
          (fun o rest' hcomes => hclash o rest' (hcomes.head (.splits ho hfinds))) rfl
        exact ⟨_, .splits ho hfinds h⟩

/-- The rest of a loop that ends is a loop that ends. -/
theorem Matches.advances {id' : ℕ} (h : Matches id tgt rest'')
    (hadvances : Advances (id, tgt) (id', rest)) : ∃ rest', Matches id' rest rest' := by
  have hopens : ∀ {o : BoldOrItalicMarker}, o.isUnmatchedOpenMarker = true →
      ¬(SpanToken.marker o).opens = false := by simp [SpanToken.opens]
  cases hadvances with
  | passes ht =>
    cases h with
    | passes _ h => exact ⟨_, h⟩
    | unmatched ho _ _ | matching ho _ _ | splits ho _ _ => exact absurd ht (hopens ho)
  | unmatched ho hfinds =>
    cases h with
    | passes ht _ => exact absurd ht (hopens ho)
    | unmatched _ hfinds' h => exact ⟨_, (hfinds.unique hfinds').1 ▸ h⟩
    | matching _ hfinds' _ | splits _ hfinds' _ => cases (hfinds.unique hfinds').2
  | matching ho hfinds =>
    cases h with
    | passes ht _ => exact absurd ht (hopens ho)
    | matching _ hfinds' h => exact ⟨_, (hfinds.unique hfinds').1 ▸ h⟩
    | unmatched _ hfinds' _ | splits _ hfinds' _ => cases (hfinds.unique hfinds').2
  | splits ho hfinds =>
    cases h with
    | passes ht _ => exact absurd ht (hopens ho)
    | unmatched _ hfinds' _ | matching _ hfinds' _ => cases (hfinds.unique hfinds').2
    | splits _ hfinds' h =>
      obtain ⟨rfl, heq⟩ := hfinds.unique hfinds'
      cases heq
      exact ⟨_, h⟩

/-- **When the loop over the markers ends**: it never comes to an open-marker
of three characters with a close-marker of three other characters next. -/
theorem matchMarkers_ends_iff (hrange : ∀ t ∈ tgt, t.InRange) :
    (∃ fuel rest, matchMarkers fuel id tgt = some rest) ↔
      ∀ o rest, ComesTo id tgt o rest → ¬Clashes o rest := by
  constructor
  · rintro ⟨fuel, rest', h⟩ o rest ⟨id', hcomes⟩ hclash
    have hmatches : ∀ q, Relation.ReflTransGen Advances (id, tgt) q →
        ∃ rest'', Matches q.1 q.2 rest'' := by
      intro q hq
      induction hq with
      | refl => exact ⟨rest', matches_of_matchMarkers h⟩
      | tail _ hadvances ih =>
        obtain ⟨rest'', h⟩ := ih
        exact h.advances hadvances
    obtain ⟨rest'', h⟩ := hmatches _ hcomes
    exact not_matches_of_clashes hclash h
  · intro hclash
    obtain ⟨rest', h⟩ := exists_matches hrange hclash
    obtain ⟨n, hn⟩ := matchMarkers_of_matches h
    exact ⟨n, rest', hn n le_rfl⟩

theorem comesTo_append {u : List SpanToken} (hu : ∀ t ∈ u, t.opens = false) (id : ℕ)
    (o : BoldOrItalicMarker) (rest : List SpanToken) :
    ComesTo id (u ++ .marker o :: rest) o rest := by
  induction u with
  | nil => exact ⟨id, .refl⟩
  | cons t u ih =>
    obtain ⟨ht, hu⟩ := List.forall_mem_cons.mp hu
    exact (ih hu).head (.passes ht)

/-- A marker of three characters has this character. -/
def SpanToken.Triple (ch : UInt8) : SpanToken → Prop
  | .rawText _ => True
  | .marker m => m.mSize = 3 → m.mTokenCharacter = ch

theorem triple_new {ch : UInt8} {isOpen : Bool} {c : UInt8} {size : ℕ} (h : size ≠ 3) :
    (SpanToken.marker (.new isOpen c size)).Triple ch := fun hthree => absurd hthree h

theorem Finds.triple {ch : UInt8} (h : Finds o id rest rest' found)
    (ho : 1 ≤ o.mSize ∧ o.mSize ≤ 3) (hrest : ∀ t ∈ rest, t.Triple ch) :
    ∀ t ∈ rest', t.Triple ch :=
  h.forall_mem (fun _ _ hne htriple => ⟨htriple, triple_new (by omega), triple_new hne⟩)
    (fun _ _ htriple => htriple) hrest

/-- Markers of three equal characters do not clash. -/
theorem not_clashes_of_triple {ch : UInt8} (ho : (SpanToken.marker o).Triple ch)
    (hrest : ∀ t ∈ rest, t.Triple ch) : ¬Clashes o rest := by
  rintro ⟨-, hthree, c, hc, hsize, hne⟩
  have hchar : c.mTokenCharacter = ch := hrest _ (List.mem_of_find?_eq_some hc) hsize
  exact hne (hchar.trans (ho hthree).symm)

/-- **The loop ends when all markers of three characters have the same.** -/
theorem not_clashes_of_comesTo {ch : UInt8} (hrange : ∀ t ∈ tgt, t.InRange)
    (htriple : ∀ t ∈ tgt, t.Triple ch) (h : ComesTo id tgt o rest) : ¬Clashes o rest := by
  obtain ⟨id', hcomes⟩ := h
  have hall : ∀ q, Relation.ReflTransGen Advances (id, tgt) q →
      (∀ t ∈ q.2, t.InRange) ∧ ∀ t ∈ q.2, t.Triple ch := by
    intro q hq
    induction hq with
    | refl => exact ⟨hrange, htriple⟩
    | tail _ hadvances ih =>
      obtain ⟨hrange, htriple⟩ := ih
      cases hadvances with
      | passes _ =>
        exact ⟨(List.forall_mem_cons.mp hrange).2, (List.forall_mem_cons.mp htriple).2⟩
      | unmatched _ hfinds | matching _ hfinds =>
        obtain ⟨ho, hrest⟩ := List.forall_mem_cons.mp hrange
        exact ⟨hfinds.inRange ho hrest, hfinds.triple ho (List.forall_mem_cons.mp htriple).2⟩
      | splits hopen hfinds =>
        obtain ⟨ho, hrest⟩ := List.forall_mem_cons.mp hrange
        obtain ⟨hto, htrest⟩ := List.forall_mem_cons.mp htriple
        obtain ⟨hthree, hsize⟩ :=
          size_of_splitting hopen hfinds hrest (not_clashes_of_triple hto htrest)
        refine ⟨inRange_splits hsize hthree _ (hfinds.inRange ho hrest), ?_⟩
        simp only [List.forall_mem_cons]
        exact ⟨triple_new (by omega), triple_new (by omega), hfinds.triple ho htrest⟩
  obtain ⟨ho, hrest⟩ := List.forall_mem_cons.mp (hall _ hcomes).2
  exact not_clashes_of_triple ho hrest

end Markdown
