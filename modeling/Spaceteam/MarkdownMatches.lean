/-
What is left of the matches between bold and italic markers.

The first loop gives each pair an id of its own, and the pairs may cross.  The
second one takes matches back until none do.

* `Markdown.processBoldAndItalicSpans_ends_iff` — the two loops end when the
  first one does: the second never looks at an empty stack;
* `Markdown.spans_nested` — the matches left are nested, and the two markers of
  a pair are of one character and one size;
* `Markdown.spans_kept_iff` — none is taken back exactly when none cross;
* `Markdown.spans_literal` — the text is the same as before, with the markers
  read as characters.
-/
import Spaceteam.MarkdownSpans

open Nesting

namespace Markdown

/-- The token is one that the regular expression has led to: a text, or a marker
of one to three characters without a match. -/
def SpanToken.Scanned : SpanToken → Prop
  | .rawText _ => True
  | .marker m => (∃ isOpen c size, m = .new isOpen c size) ∧ 1 ≤ m.mSize ∧ m.mSize ≤ 3

theorem SpanToken.Scanned.inRange {t : SpanToken} (h : t.Scanned) : t.InRange := by
  cases t with
  | rawText text => trivial
  | marker m => exact h.2

/-- What the two markers of a pair have in common. -/
structure Pair where
  id : ℕ
  character : UInt8
  size : ℕ
  deriving DecidableEq, Repr

/-- A marker with a match is a bracket. -/
def SpanToken.bracket : SpanToken → Option (Bracket Pair)
  | .rawText _ => none
  | .marker m => m.mMatch.map fun id =>
    if m.mOpenMarker then .opening ⟨id, m.mTokenCharacter, m.mSize⟩
    else .closing ⟨id, m.mTokenCharacter, m.mSize⟩

def brackets (tokens : List SpanToken) : List (Bracket Pair) := tokens.filterMap (·.bracket)

variable {o c : BoldOrItalicMarker} {id fuel : ℕ} {t : SpanToken}
  {rest rest' rest'' tgt r : List SpanToken} {found : Found} {dropped final : List ℕ}

theorem brackets_cons_of_none (ht : t.bracket = none) (rest : List SpanToken) :
    brackets (t :: rest) = brackets rest := List.filterMap_cons_none ht

theorem bracket_of_closes (hc : c.isUnmatchedCloseMarker = true) :
    (SpanToken.marker c).bracket = none := by
  have hnone : c.mMatch = none := by
    simp only [BoldOrItalicMarker.isUnmatchedCloseMarker, Bool.and_eq_true,
      Option.isNone_iff_eq_none] at hc
    exact hc.1.2
  rw [SpanToken.bracket, hnone]
  rfl

theorem bracket_of_opens (ho : o.isUnmatchedOpenMarker = true) :
    (SpanToken.marker o).bracket = none := by
  have hnone : o.mMatch = none := by
    simp only [BoldOrItalicMarker.isUnmatchedOpenMarker, Bool.and_eq_true,
      Option.isNone_iff_eq_none] at ho
    exact ho.1.2
  rw [SpanToken.bracket, hnone]
  rfl

theorem bracket_disable_of_opens (ho : o.isUnmatchedOpenMarker = true) :
    (SpanToken.marker o.disable).bracket = none := by
  have hnone := bracket_of_opens ho
  rw [SpanToken.bracket, Option.map_eq_none_iff] at hnone
  rw [SpanToken.bracket, BoldOrItalicMarker.disable, hnone]
  rfl

theorem bracket_matched_of_opens (ho : o.isUnmatchedOpenMarker = true) (id : ℕ) :
    (SpanToken.marker (o.matched id)).bracket =
      some (.opening ⟨id, o.mTokenCharacter, o.mSize⟩) := by
  have hopen : o.mOpenMarker = true := by
    simp only [BoldOrItalicMarker.isUnmatchedOpenMarker, Bool.and_eq_true] at ho
    exact ho.1.1
  simp [SpanToken.bracket, BoldOrItalicMarker.matched, hopen]

/-- The search has matched a close-marker in some place or left the matches as
they were. -/
def Rebracketed (p : Pair) (found : Found) (w w' : List (Bracket Pair)) : Prop :=
  if found = .matching then ∃ u v, w = u ++ v ∧ w' = u ++ .closing p :: v else w' = w

theorem rebracketed_self {p : Pair} {w : List (Bracket Pair)} (hfound : found ≠ .matching) :
    Rebracketed p found w w := by
  rw [Rebracketed, if_neg hfound]

theorem Rebracketed.eq {p : Pair} {w w' : List (Bracket Pair)} (h : Rebracketed p found w w')
    (hfound : found ≠ .matching) : w' = w := by
  rwa [Rebracketed, if_neg hfound] at h

theorem Rebracketed.exists_eq {p : Pair} {w w' : List (Bracket Pair)}
    (h : Rebracketed p .matching w w') : ∃ u v, w = u ++ v ∧ w' = u ++ .closing p :: v := by
  rwa [Rebracketed, if_pos rfl] at h

theorem Rebracketed.cons {p : Pair} {t t' : SpanToken} (hsame : t'.bracket = t.bracket)
    (h : Rebracketed p found (brackets rest) (brackets rest')) :
    Rebracketed p found (brackets (t :: rest)) (brackets (t' :: rest')) := by
  rcases hbracket : t.bracket with _ | b
  · rw [hbracket] at hsame
    rwa [brackets_cons_of_none hbracket, brackets_cons_of_none hsame]
  · rw [hbracket] at hsame
    rw [show brackets (t :: rest) = b :: brackets rest from List.filterMap_cons_some hbracket,
      show brackets (t' :: rest') = b :: brackets rest' from List.filterMap_cons_some hsame]
    unfold Rebracketed at h ⊢
    split_ifs at h ⊢
    · obtain ⟨u, v, hu, hv⟩ := h
      exact ⟨b :: u, v, by rw [hu]; rfl, by rw [hv]; rfl⟩
    · rw [h]

/-- What the search does to the matches. -/
theorem Finds.rebracketed (h : Finds o id rest rest' found) :
    Rebracketed ⟨id, o.mTokenCharacter, o.mSize⟩ found (brackets rest) (brackets rest') := by
  induction h with
  | nothing => exact rebracketed_self (by simp)
  | passes _ _ ih => exact ih.cons rfl
  | @splits c rest rest' found hc _ _ _ ih =>
    refine Rebracketed.cons ?_ ih
    -- the marker that is split had no match
    have hnone := bracket_of_closes hc
    rw [SpanToken.bracket, Option.map_eq_none_iff] at hnone
    rw [SpanToken.bracket, SpanToken.bracket, BoldOrItalicMarker.disable, hnone]
  | @matching c rest hc hchar hsize =>
    have hclose : c.mOpenMarker = false := by
      simp only [BoldOrItalicMarker.isUnmatchedCloseMarker, Bool.and_eq_true,
        Bool.not_eq_true'] at hc
      exact hc.1.1
    have hbracket : (SpanToken.marker (c.matched id)).bracket =
        some (.closing ⟨id, o.mTokenCharacter, o.mSize⟩) := by
      simp [SpanToken.bracket, BoldOrItalicMarker.matched, hclose, hchar, hsize]
    rw [Rebracketed, if_pos rfl]
    exact ⟨[], brackets rest, brackets_cons_of_none (bracket_of_closes hc) rest,
      List.filterMap_cons_some hbracket⟩
  | splitting _ _ _ => exact rebracketed_self (by simp)
  | differs _ _ _ _ _ ih => exact ih.cons rfl

/-! ### Pairs -/

/-- The brackets with one id. -/
def withId (k : ℕ) (w : List (Bracket Pair)) : List (Bracket Pair) := w.filter (·.kind.id = k)

theorem withId_cons (k : ℕ) (b : Bracket Pair) (w : List (Bracket Pair)) :
    withId k (b :: w) = if b.kind.id = k then b :: withId k w else withId k w := by
  rw [withId, List.filter_cons]
  simp only [decide_eq_true_eq]
  rfl

theorem withId_append (k : ℕ) (u v : List (Bracket Pair)) :
    withId k (u ++ v) = withId k u ++ withId k v := List.filter_append ..

theorem withId_eq_nil {k : ℕ} {w : List (Bracket Pair)} (h : ∀ b ∈ w, b.kind.id < k) :
    withId k w = [] := by
  refine List.filter_eq_nil_iff.mpr fun b hb => ?_
  have hlt := h b hb
  simp only [decide_eq_true_eq]
  omega

/-- The id has no brackets, or one opening one and behind it a closing one of the
same character and size. -/
def PairedAt (k : ℕ) (w : List (Bracket Pair)) : Prop :=
  withId k w = [] ∨ ∃ p : Pair, p.id = k ∧ withId k w = [.opening p, .closing p]

/-- What the first loop does to the matches: those that were there stay, and
each id from `id` on is given to one pair at most. -/
theorem Matches.pairedAt (h : Matches id rest rest')
    (hids : ∀ b ∈ brackets rest, b.kind.id < id) (k : ℕ) :
    (k < id → withId k (brackets rest') = withId k (brackets rest)) ∧
      (id ≤ k → PairedAt k (brackets rest')) := by
  induction h with
  | nil id => exact ⟨fun _ => rfl, fun _ => .inl rfl⟩
  | @passes id t rest rest' _ _ ih =>
    rcases hbracket : t.bracket with _ | b
    · rw [brackets_cons_of_none hbracket] at hids
      rw [brackets_cons_of_none hbracket, brackets_cons_of_none hbracket]
      exact ih hids
    · have hcons : ∀ l, brackets (t :: l) = b :: brackets l :=
        fun l => List.filterMap_cons_some hbracket
      rw [hcons, List.forall_mem_cons] at hids
      rw [hcons, hcons, withId_cons, withId_cons, PairedAt, withId_cons]
      obtain ⟨hold, hnew⟩ := ih hids.2
      refine ⟨fun hk => by rw [hold hk], fun hk => ?_⟩
      have hne : b.kind.id ≠ k := by omega
      rw [if_neg hne]
      exact hnew hk
  | @unmatched id o rest rest' rest'' ho hfinds _ ih =>
    have hsame : brackets rest' = brackets rest := hfinds.rebracketed.eq (by simp)
    rw [brackets_cons_of_none (bracket_of_opens ho)] at hids
    rw [brackets_cons_of_none (bracket_of_opens ho), brackets_cons_of_none (bracket_of_opens ho),
      ← hsame]
    exact ih (hsame ▸ hids)
  | @matching id o rest rest' rest'' ho hfinds _ ih =>
    obtain ⟨u, v, hu, hv⟩ := hfinds.rebracketed.exists_eq
    have hopening : brackets (.marker (o.matched id) :: rest'') =
        .opening ⟨id, o.mTokenCharacter, o.mSize⟩ :: brackets rest'' :=
      List.filterMap_cons_some (bracket_matched_of_opens ho id)
    rw [brackets_cons_of_none (bracket_of_opens ho)] at hids ⊢
    rw [hu, List.forall_mem_append] at hids
    have hids' : ∀ b ∈ brackets rest', b.kind.id < id + 1 := by
      rw [hv, List.forall_mem_append, List.forall_mem_cons]
      exact ⟨fun b hb => Nat.lt_succ_of_lt (hids.1 b hb), Nat.lt_succ_self id,
        fun b hb => Nat.lt_succ_of_lt (hids.2 b hb)⟩
    obtain ⟨hold, hnew⟩ := ih hids'
    have hrest : ∀ k, withId k (brackets rest') = withId k u ++
        if id = k then .closing ⟨id, o.mTokenCharacter, o.mSize⟩ :: withId k v
        else withId k v := by
      intro k
      rw [hv, withId_append]
      exact congrArg (withId k u ++ ·) (withId_cons k _ v)
    have hout : ∀ k, withId k (.opening ⟨id, o.mTokenCharacter, o.mSize⟩ :: brackets rest'') =
        if id = k then .opening ⟨id, o.mTokenCharacter, o.mSize⟩ :: withId k (brackets rest'')
        else withId k (brackets rest'') := fun k => withId_cons k _ _
    rw [hopening, PairedAt, hout, hu, withId_append]
    refine ⟨fun hk => ?_, fun hk => ?_⟩
    · have hne : id ≠ k := by omega
      rw [if_neg hne, hold (by omega), hrest, if_neg hne]
    · by_cases heq : id = k
      · -- the pair that has just been made
        subst heq
        refine .inr ⟨⟨id, o.mTokenCharacter, o.mSize⟩, rfl, ?_⟩
        rw [if_pos rfl, hold (by omega), hrest, if_pos rfl, withId_eq_nil hids.1,
          withId_eq_nil hids.2]
        rfl
      · rw [if_neg heq]
        exact hnew (by omega)
  | @splits id size o rest rest' rest'' ho hfinds _ ih =>
    have hsame : brackets rest' = brackets rest := hfinds.rebracketed.eq (by simp)
    rw [brackets_cons_of_none (bracket_of_opens ho)] at hids
    rw [brackets_cons_of_none (bracket_of_opens ho),
      brackets_cons_of_none (bracket_disable_of_opens ho), ← hsame]
    exact ih (hsame ▸ hids)

/-! ### Taking matches back -/

/-- The second loop prunes the ids. -/
theorem unmatch_eq_prune (openMatches dropped : List ℕ) (tokens : List SpanToken) :
    unmatch openMatches dropped tokens =
      prune openMatches dropped ((brackets tokens).map (·.map Pair.id)) := by
  induction tokens generalizing openMatches dropped with
  | nil => rfl
  | cons t rest ih =>
    rcases t with text | m
    · exact ih openMatches dropped
    rcases hmatch : m.mMatch with _ | k
    · rw [brackets_cons_of_none (by rw [SpanToken.bracket, hmatch]; rfl), ← ih]
      simp only [unmatch, hmatch]
    cases hopen : m.mOpenMarker with
    | true =>
      have hbracket : (SpanToken.marker m).bracket =
          some (.opening ⟨k, m.mTokenCharacter, m.mSize⟩) := by
        simp [SpanToken.bracket, hmatch, hopen]
      rw [brackets, List.filterMap_cons_some hbracket, List.map_cons, Bracket.map, prune]
      simp only [unmatch, hmatch, hopen, if_true]
      exact ih (k :: openMatches) dropped
    | false =>
      have hbracket : (SpanToken.marker m).bracket =
          some (.closing ⟨k, m.mTokenCharacter, m.mSize⟩) := by
        simp [SpanToken.bracket, hmatch, hopen]
      rw [brackets, List.filterMap_cons_some hbracket, List.map_cons, Bracket.map]
      rcases openMatches with _ | ⟨top, openMatches⟩
      · simp only [unmatch, hmatch, hopen, Bool.false_eq_true, if_false, prune]
      · simp only [unmatch, hmatch, hopen, Bool.false_eq_true, if_false, prune]
        split_ifs
        · exact ih (top :: openMatches) (k :: dropped)
        · exact ih (openMatches.dropWhile (· ∈ dropped)) dropped

theorem brackets_forget (dropped : List ℕ) (tokens : List SpanToken) :
    brackets (tokens.map (·.forget dropped)) =
      (brackets tokens).filter (·.kind.id ∉ dropped) := by
  induction tokens with
  | nil => rfl
  | cons t rest ih =>
    rw [List.map_cons]
    rcases t with text | m
    · exact ih
    rcases hmatch : m.mMatch with _ | k
    · have hsame : (SpanToken.marker m).forget dropped = .marker m := by
        simp [SpanToken.forget, hmatch]
      have hnone : (SpanToken.marker m).bracket = none := by rw [SpanToken.bracket, hmatch]; rfl
      rw [hsame, brackets_cons_of_none hnone, brackets_cons_of_none hnone, ih]
    obtain ⟨b, hbracket, hid⟩ : ∃ b, (SpanToken.marker m).bracket = some b ∧ b.kind.id = k := by
      rw [SpanToken.bracket, hmatch]
      refine ⟨_, rfl, ?_⟩
      split_ifs <;> rfl
    rw [show brackets (.marker m :: rest) = b :: brackets rest from
      List.filterMap_cons_some hbracket]
    by_cases hk : k ∈ dropped
    · have hforget : (SpanToken.marker m).forget dropped = .marker (m.matched none) := by
        simp [SpanToken.forget, hmatch, hk]
      have hskip : (b :: brackets rest).filter (·.kind.id ∉ dropped) =
          (brackets rest).filter (·.kind.id ∉ dropped) :=
        List.filter_cons_of_neg (by simp [hid, hk])
      rw [hforget, brackets_cons_of_none rfl, hskip, ih]
    · have hsame : (SpanToken.marker m).forget dropped = .marker m := by
        simp [SpanToken.forget, hmatch, hk]
      have hkeep : (b :: brackets rest).filter (·.kind.id ∉ dropped) =
          b :: (brackets rest).filter (·.kind.id ∉ dropped) :=
        List.filter_cons_of_pos (by simp [hid, hk])
      rw [hsame, hkeep, ← ih]
      exact List.filterMap_cons_some hbracket

theorem paired_of_pairedAt {w : List (Bracket Pair)} (h : ∀ k, PairedAt k w) :
    Paired (w.map (·.map Pair.id)) := by
  intro k
  have hkind : ofKind k (w.map (·.map Pair.id)) = (withId k w).map (·.map Pair.id) := by
    rw [ofKind, withId, List.filter_map]
    refine congrArg (List.map _) (List.filter_congr fun b _ => ?_)
    simp
  rw [hkind]
  rcases h k with hnil | ⟨p, rfl, hpair⟩
  · exact .inl (by rw [hnil]; rfl)
  · exact .inr (by rw [hpair]; rfl)

/-- The id tells the pairs apart. -/
theorem injOn_of_pairedAt {w : List (Bracket Pair)} (h : ∀ k, PairedAt k w) :
    {p | ∃ b ∈ w, b.kind = p}.InjOn Pair.id := by
  have hkind : ∀ b ∈ w, ∀ p : Pair, withId b.kind.id w = [.opening p, .closing p] →
      b.kind = p := by
    intro b hb p hpair
    have hmem : b ∈ withId b.kind.id w := List.mem_filter.mpr ⟨hb, by simp⟩
    rw [hpair] at hmem
    rcases List.mem_pair.mp hmem with rfl | rfl <;> rfl
  have hone : ∀ b ∈ w, ∃ p : Pair, withId b.kind.id w = [.opening p, .closing p] := by
    intro b hb
    rcases h b.kind.id with hnil | ⟨p, -, hpair⟩
    · have hmem : b ∈ withId b.kind.id w := List.mem_filter.mpr ⟨hb, by simp⟩
      rw [hnil] at hmem
      cases hmem
    · exact ⟨p, hpair⟩
  rintro _ ⟨b, hb, rfl⟩ _ ⟨b', hb', rfl⟩ hid
  obtain ⟨p, hpair⟩ := hone b hb
  rw [hkind b hb p hpair, hkind b' hb' p (hid ▸ hpair)]

/-! ### The two loops together -/

theorem brackets_of_scanned (h : ∀ t ∈ tgt, t.Scanned) : brackets tgt = [] := by
  refine List.filterMap_eq_nil_iff.mpr fun t ht => ?_
  cases t with
  | rawText text => rfl
  | marker m =>
    obtain ⟨⟨isOpen, c, size, rfl⟩, -⟩ := h _ ht
    rfl

theorem pairedAt_of_matchMarkers (hscanned : ∀ t ∈ tgt, t.Scanned)
    (h : matchMarkers fuel 0 tgt = some rest) (k : ℕ) : PairedAt k (brackets rest) := by
  have hnil := brackets_of_scanned hscanned
  exact ((matches_of_matchMarkers h).pairedAt (by simp [hnil]) k).2 (Nat.zero_le k)

/-- The second loop never looks at the top of an empty stack. -/
theorem exists_unmatch (hscanned : ∀ t ∈ tgt, t.Scanned)
    (h : matchMarkers fuel 0 tgt = some rest) : ∃ dropped, unmatch [] [] rest = some dropped := by
  rw [unmatch_eq_prune]
  exact exists_prune (paired_of_pairedAt (pairedAt_of_matchMarkers hscanned h)).pruning

/-- **When the loops end**: the first never comes to an open-marker of three
characters with a close-marker of three other characters next. -/
theorem processBoldAndItalicSpans_ends_iff (hscanned : ∀ t ∈ tgt, t.Scanned) :
    (∃ fuel r, processBoldAndItalicSpans fuel tgt = some r) ↔
      ∀ o rest, ComesTo 0 tgt o rest → ¬Clashes o rest := by
  rw [← matchMarkers_ends_iff fun t ht => (hscanned t ht).inRange]
  constructor
  · rintro ⟨fuel, r, h⟩
    obtain ⟨rest, hrest, -⟩ := Option.bind_eq_some_iff.mp h
    exact ⟨fuel, rest, hrest⟩
  · rintro ⟨fuel, rest, h⟩
    obtain ⟨dropped, hdropped⟩ := exists_unmatch hscanned h
    exact ⟨fuel, rest.map (·.forget dropped), by simp [processBoldAndItalicSpans, h, hdropped]⟩

/-- A text in which three asterisks meet three underscores, such as `***a b___`:
the loops do not end. -/
def mixedSpans : List SpanToken :=
  [.marker (.new true (ascii '*') 3), .rawText (bytes "a b"), .marker (.new false (ascii '_') 3)]

theorem scanned_mixedSpans : ∀ t ∈ mixedSpans, t.Scanned := by
  simp only [mixedSpans, List.forall_mem_cons]
  exact ⟨⟨⟨_, _, _, rfl⟩, by decide⟩, trivial, ⟨⟨_, _, _, rfl⟩, by decide⟩, by simp⟩

theorem not_processes_mixedSpans :
    ¬∃ fuel r, processBoldAndItalicSpans fuel mixedSpans = some r := by
  intro h
  refine (processBoldAndItalicSpans_ends_iff scanned_mixedSpans).mp h _ _
    (comesTo_append (u := []) (by simp) 0 _ _) ⟨rfl, rfl, _, rfl, rfl, by decide⟩

/-- A text whose matches cross, `***a** _b* c_`: its first marker is split, and the
match of the single asterisks is taken back. -/
def crossingSpans : List SpanToken :=
  [.marker (.new true (ascii '*') 3), .rawText (bytes "a"), .marker (.new false (ascii '*') 2),
    .rawText (bytes " "), .marker (.new true (ascii '_') 1), .rawText (bytes "b"),
    .marker (.new false (ascii '*') 1), .rawText (bytes " c"), .marker (.new false (ascii '_') 1)]

theorem scanned_crossingSpans : ∀ t ∈ crossingSpans, t.Scanned := by
  have hmarker : ∀ isOpen c size, 1 ≤ size → size ≤ 3 →
      (SpanToken.marker (.new isOpen c size)).Scanned :=
    fun isOpen c size hone hthree => ⟨⟨isOpen, c, size, rfl⟩, hone, hthree⟩
  simp only [crossingSpans, List.forall_mem_cons]
  refine ⟨?_, trivial, ?_, trivial, ?_, trivial, ?_, trivial, ?_, by simp⟩
  all_goals exact hmarker _ _ _ (by omega) (by omega)

theorem processes_crossingSpans : ∃ r, processBoldAndItalicSpans 20 crossingSpans = some r :=
  Option.isSome_iff_exists.mp (by decide +kernel)

/-- **The loops end on a text with one character for its triple markers**,
whatever else is in it. -/
theorem spans_end_of_triple {ch : UInt8} (hscanned : ∀ t ∈ tgt, t.Scanned)
    (htriple : ∀ t ∈ tgt, t.Triple ch) :
    ∃ fuel r, processBoldAndItalicSpans fuel tgt = some r := by
  have hrange : ∀ t ∈ tgt, t.InRange := fun t ht => (hscanned t ht).inRange
  obtain ⟨rest, h⟩ := exists_matches hrange fun o rest hcomes =>
    not_clashes_of_comesTo hrange htriple hcomes
  obtain ⟨n, hn⟩ := matchMarkers_of_matches h
  obtain ⟨dropped, hdropped⟩ := exists_unmatch hscanned (hn n le_rfl)
  exact ⟨n, rest.map (·.forget dropped), by simp [processBoldAndItalicSpans, hn n, hdropped]⟩

theorem spans_end_of_triple_crossing :
    ∃ fuel r, processBoldAndItalicSpans fuel crossingSpans = some r := by
  have htriple : ∀ t ∈ crossingSpans, t.Triple (ascii '*') := by
    simp only [crossingSpans, List.forall_mem_cons]
    refine ⟨fun _ => rfl, trivial, fun _ => rfl, trivial, triple_new (by omega), trivial,
      fun _ => rfl, trivial, triple_new (by omega), by simp⟩
  exact spans_end_of_triple scanned_crossingSpans htriple

theorem cases_of_process (h : processBoldAndItalicSpans fuel tgt = some r) :
    ∃ rest dropped, matchMarkers fuel 0 tgt = some rest ∧ unmatch [] [] rest = some dropped ∧
      r = rest.map (·.forget dropped) := by
  obtain ⟨rest, hrest, hmore⟩ := Option.bind_eq_some_iff.mp h
  obtain ⟨dropped, hdropped, heq⟩ := Option.bind_eq_some_iff.mp hmore
  exact ⟨rest, dropped, hrest, hdropped, (Option.some_inj.mp heq).symm⟩

theorem nested_of_process (hscanned : ∀ t ∈ tgt, t.Scanned)
    (h : processBoldAndItalicSpans fuel tgt = some r) : Nested (brackets r) := by
  obtain ⟨rest, dropped, hrest, hdropped, rfl⟩ := cases_of_process h
  have hpaired := pairedAt_of_matchMarkers hscanned hrest
  rw [unmatch_eq_prune] at hdropped
  rw [brackets_forget]
  refine nested_of_map (injOn_of_pairedAt hpaired)
    (fun b hb => ⟨b, (List.mem_filter.mp hb).1, rfl⟩) ?_
  have hids : (brackets rest).filter (·.kind.id ∉ dropped) = (brackets rest).filter
      ((fun b : Bracket ℕ => decide (b.kind ∉ dropped)) ∘ (·.map Pair.id)) :=
    List.filter_congr fun b _ => by simp
  have hnested := nested_of_prune (paired_of_pairedAt hpaired) hdropped
  rw [List.filter_map] at hnested
  rw [hids]
  exact hnested

theorem inRange_of_process (hscanned : ∀ t ∈ tgt, t.Scanned)
    (h : processBoldAndItalicSpans fuel tgt = some r) : ∀ t ∈ r, t.InRange := by
  obtain ⟨rest, dropped, hrest, -, rfl⟩ := cases_of_process h
  have hrange := (matches_of_matchMarkers hrest).inRange fun t ht => (hscanned t ht).inRange
  intro t ht
  obtain ⟨t₀, ht₀, rfl⟩ := List.mem_map.mp ht
  rcases t₀ with text | m
  · trivial
  · have hm := hrange _ ht₀
    rw [SpanToken.forget]
    split_ifs
    · exact hm
    · exact hm

/-- **The matches left are nested**, and every marker has one to three
characters. -/
theorem spans_nested (hscanned : ∀ t ∈ tgt, t.Scanned)
    (h : processBoldAndItalicSpans fuel tgt = some r) :
    Nested (brackets r) ∧ ∀ t ∈ r, t.InRange :=
  ⟨nested_of_process hscanned h, inRange_of_process hscanned h⟩

theorem spans_nested_crossing : ∃ r, processBoldAndItalicSpans 20 crossingSpans = some r ∧
    Nested (brackets r) ∧ ∀ t ∈ r, t.InRange := by
  obtain ⟨r, hr⟩ := processes_crossingSpans
  exact ⟨r, hr, spans_nested scanned_crossingSpans hr⟩

/-- **A match is taken back only when some matches cross.** -/
theorem spans_kept_iff (hscanned : ∀ t ∈ tgt, t.Scanned)
    (h : matchMarkers fuel 0 tgt = some rest) :
    processBoldAndItalicSpans fuel tgt = some rest ↔ Nested (brackets rest) := by
  constructor
  · intro hprocess
    exact nested_of_process hscanned hprocess
  · intro hnested
    have hdropped : unmatch [] [] rest = some [] := by
      rw [unmatch_eq_prune]
      exact prune_of_nested (hnested.map Pair.id)
    have hforget : rest.map (·.forget []) = rest := by
      refine List.map_id'' (fun t => ?_) rest
      cases t with
      | rawText text => rfl
      | marker m => simp [SpanToken.forget]
    rw [processBoldAndItalicSpans, h]
    simp [hdropped, hforget]

theorem spans_kept_iff_crossing : ∃ rest, matchMarkers 20 0 crossingSpans = some rest ∧
    (processBoldAndItalicSpans 20 crossingSpans = some rest ↔ Nested (brackets rest)) := by
  have hsome : (matchMarkers 20 0 crossingSpans).isSome = true := by decide +kernel
  obtain ⟨rest, hrest⟩ := Option.isSome_iff_exists.mp hsome
  exact ⟨rest, hrest, spans_kept_iff scanned_crossingSpans hrest⟩

/-! ### The characters of the markers -/

/-- The token as it stands in the text. -/
def SpanToken.literal : SpanToken → Bytes
  | .rawText text => text
  | .marker m => if m.mDisabled then [] else List.replicate m.mSize m.mTokenCharacter

def literal (tokens : List SpanToken) : Bytes := tokens.flatMap (·.literal)

theorem literal_cons (t : SpanToken) (rest : List SpanToken) :
    literal (t :: rest) = t.literal ++ literal rest := List.flatMap_cons

theorem literal_new (isOpen : Bool) (ch : UInt8) (size : ℕ) :
    (SpanToken.marker (.new isOpen ch size)).literal = List.replicate size ch := rfl

theorem literal_disable (m : BoldOrItalicMarker) : (SpanToken.marker m.disable).literal = [] := rfl

/-- A marker that can be matched is not disabled. -/
theorem literal_of_canMatch {m : BoldOrItalicMarker} (h : m.mCannotMatch = false) :
    (SpanToken.marker m).literal = List.replicate m.mSize m.mTokenCharacter := by
  have hdisabled : m.mDisabled = false := by
    by_contra hne
    have hcannot := m.cannotMatch (by simpa using hne)
    rw [h] at hcannot
    cases hcannot
  rw [SpanToken.literal, hdisabled]
  rfl

/-- The characters of a marker, in two parts. -/
theorem literal_split (isOpen : Bool) (ch : UInt8) {size : ℕ} (hsize : size ≤ 3)
    (rest : List SpanToken) :
    literal (.marker (.new isOpen ch (3 - size)) :: .marker (.new isOpen ch size) :: rest) =
      List.replicate 3 ch ++ literal rest := by
  have hthree : 3 - size + size = 3 := Nat.sub_add_cancel hsize
  rw [literal_cons, literal_cons, literal_new, literal_new, ← List.append_assoc,
    ← List.replicate_add, hthree]

theorem Finds.literal (h : Finds o id rest rest' found) (ho : o.mSize ≤ 3) :
    Markdown.literal rest' = Markdown.literal rest := by
  induction h with
  | nothing => rfl
  | passes _ _ ih => rw [literal_cons, literal_cons, ih]
  | @splits c rest rest' found hc hthree _ _ ih =>
    have hcan : c.mCannotMatch = false := by
      simp only [BoldOrItalicMarker.isUnmatchedCloseMarker, Bool.and_eq_true,
        Bool.not_eq_true'] at hc
      exact hc.2
    rw [literal_cons, literal_disable, List.nil_append, ih, literal_split _ _ ho, literal_cons,
      literal_of_canMatch hcan, hthree]
  | matching _ _ _ => rfl
  | splitting _ _ _ => rfl
  | differs _ _ _ _ _ ih => rw [literal_cons, literal_cons, ih]

theorem Matches.literal (h : Matches id rest rest') (hrest : ∀ t ∈ rest, t.InRange) :
    Markdown.literal rest' = Markdown.literal rest := by
  induction h with
  | nil => rfl
  | passes _ _ ih => rw [literal_cons, literal_cons, ih (List.forall_mem_cons.mp hrest).2]
  | unmatched _ hfinds _ ih =>
    obtain ⟨ho, hrest⟩ := List.forall_mem_cons.mp hrest
    rw [literal_cons, literal_cons, ih (hfinds.inRange ho hrest), hfinds.literal ho.2]
  | matching _ hfinds _ ih =>
    obtain ⟨ho, hrest⟩ := List.forall_mem_cons.mp hrest
    rw [literal_cons, literal_cons, ih (hfinds.inRange ho hrest), hfinds.literal ho.2]
    rfl
  | @splits id size o rest rest' rest'' hopen hfinds h ih =>
    obtain ⟨ho, hrest⟩ := List.forall_mem_cons.mp hrest
    have hclash := fun hclash => not_matches_of_clashes hclash (.splits hopen hfinds h)
    obtain ⟨hthree, hsize⟩ := size_of_splitting hopen hfinds hrest hclash
    have hcan : o.mCannotMatch = false := by
      simp only [BoldOrItalicMarker.isUnmatchedOpenMarker, Bool.and_eq_true,
        Bool.not_eq_true'] at hopen
      exact hopen.2
    have hrange := inRange_splits hsize hthree o.mTokenCharacter (hfinds.inRange ho hrest)
    rw [hthree] at ih hrange
    rw [literal_cons, literal_disable, List.nil_append, ih hrange,
      literal_split _ _ (by omega), hfinds.literal ho.2, literal_cons, literal_of_canMatch hcan,
      hthree]

/-- **No character is lost, added or moved**: the markers, matched or not, are
those of the text. -/
theorem spans_literal (hscanned : ∀ t ∈ tgt, t.Scanned)
    (h : processBoldAndItalicSpans fuel tgt = some r) : literal r = literal tgt := by
  obtain ⟨rest, dropped, hrest, -, rfl⟩ := cases_of_process h
  have hforget : literal (rest.map (·.forget dropped)) = literal rest := by
    rw [literal, literal, List.flatMap_map]
    refine List.flatMap_congr fun t _ => ?_
    cases t with
    | rawText text => rfl
    | marker m =>
      rw [SpanToken.forget]
      split_ifs <;> rfl
  rw [hforget]
  exact (matches_of_matchMarkers hrest).literal fun t ht => (hscanned t ht).inRange

theorem spans_literal_crossing : ∃ r, processBoldAndItalicSpans 20 crossingSpans = some r ∧
    literal r = bytes "***a** _b* c_" := by
  obtain ⟨r, hr⟩ := processes_crossingSpans
  exact ⟨r, hr, (spans_literal scanned_crossingSpans hr).trans (by decide)⟩

end Markdown
