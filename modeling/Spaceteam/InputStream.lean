/-
Formatted input: a `std::istream` over a stream buffer.

The buffer holds what has been received and not yet extracted; when it is
empty, extraction meets the end of the stream.  An extraction begins with a
sentry, which fails on a stream that is not good; `>>` skips white space
first, `getline` does not.

* `IStream.length_getline` — a line that is read makes the buffer shorter;
* `IStream.lines_getline` — `getline` reads the lines of a stream one by one.
-/
import Mathlib.Data.FinEnum
import Mathlib.Data.List.TakeWhile
import Spaceteam.Bytes
import Spaceteam.Delimited

structure IStream where
  buffer : Bytes
  eofbit : Bool
  failbit : Bool
  deriving DecidableEq, Repr

namespace IStream

/-- A stream just built on a buffer. -/
def ofBuffer (buffer : Bytes) : IStream := { buffer := buffer, eofbit := false, failbit := false }

def good (s : IStream) : Bool := !s.eofbit && !s.failbit

/-- `isspace` in the "C" locale. -/
def isSpace (c : UInt8) : Bool := c = ascii ' ' || (9 ≤ c && c ≤ 13)

def isDigit (c : UInt8) : Bool := ascii '0' ≤ c && c ≤ ascii '9'

/-- The sentry of `>>`: whether to go on, and the stream without leading space. -/
def sentry (s : IStream) : Bool × IStream :=
  if s.good then
    match s.buffer.dropWhile isSpace with
    | [] => (false, { buffer := [], eofbit := true, failbit := true })
    | rest => (true, { s with buffer := rest })
  else (false, { s with failbit := true })

/-- `>>` into an empty string. -/
def extractWord (s : IStream) : Bytes × IStream :=
  match s.sentry with
  | (false, s) => ([], s)
  | (true, s) =>
    let rest := s.buffer.dropWhile fun c => !isSpace c
    (s.buffer.takeWhile fun c => !isSpace c, { s with buffer := rest, eofbit := rest.isEmpty })

/-- The sign of a number, and what follows it. -/
def extractSign : Bytes → Bool × Bytes
  | [] => (false, [])
  | c :: rest =>
    if c = ascii '-' then (true, rest)
    else if c = ascii '+' then (false, rest)
    else (false, c :: rest)

def decimalValue (digits : Bytes) : ℕ :=
  digits.foldl (fun n c => 10 * n + (c.toNat - 48)) 0

/-- `>>` into an `unsigned int`.  Without digits it stores 0 and fails, past the
largest value it stores that and fails, and a negative number wraps.  When the
sentry fails, the variable keeps its value: it stands for 0 here. -/
def extractUnsigned (s : IStream) : UInt32 × IStream :=
  match s.sentry with
  | (false, s) => (0, s)
  | (true, s) =>
    let (negative, text) := extractSign s.buffer
    let digits := text.takeWhile isDigit
    let rest := text.dropWhile isDigit
    let s := { s with buffer := rest, eofbit := rest.isEmpty }
    if digits.isEmpty then (0, { s with failbit := true })
    else if decimalValue digits ≥ UInt32.size then (4294967295, { s with failbit := true })
    else if negative then (-UInt32.ofNat (decimalValue digits), s)
    else (UInt32.ofNat (decimalValue digits), s)

/-- `std::getline`: the line, empty when the sentry fails. -/
def getline (s : IStream) : Bytes × IStream :=
  if s.good then
    let line := s.buffer.takeWhile (· ≠ ascii '\n')
    match s.buffer.dropWhile (· ≠ ascii '\n') with
    | [] => (line, { buffer := [], eofbit := true, failbit := line.isEmpty })
    | _ :: rest => (line, { s with buffer := rest })
  else ([], { s with failbit := true })

theorem length_getline {s : IStream} (h : ¬s.getline.2.failbit = true) :
    s.getline.2.buffer.length < s.buffer.length := by
  unfold getline at h ⊢
  split at h
  next hgood =>
    rw [if_pos hgood]
    simp only at h ⊢
    have hsplit := List.takeWhile_append_dropWhile (p := (· ≠ ascii '\n')) (l := s.buffer)
    rcases hrest : s.buffer.dropWhile (· ≠ ascii '\n') with _ | ⟨c, rest⟩
    · rw [hrest] at h hsplit
      have hne : s.buffer.takeWhile (· ≠ ascii '\n') ≠ [] := by simpa using h
      rw [List.append_nil] at hsplit
      rw [hsplit] at hne
      simpa using List.length_pos_iff.mpr hne
    · rw [hrest] at hsplit
      have hlen := congrArg List.length hsplit
      simp only [List.length_append, List.length_cons] at hlen ⊢
      omega
  next hbad => exact absurd rfl h

/-! ### A buffer that begins with what is asked for -/

/-- A word is cut off before the first byte that does not belong to it. -/
theorem span_append {p : UInt8 → Bool} {word : Bytes} {c : UInt8}
    (hword : ∀ b ∈ word, p b = true) (hc : p c = false) (rest : Bytes) :
    (word ++ c :: rest).takeWhile p = word ∧ (word ++ c :: rest).dropWhile p = c :: rest := by
  constructor
  · rw [List.takeWhile_append_of_pos hword]
    simp [hc]
  · rw [List.dropWhile_append_of_pos hword]
    simp [hc]

theorem sentry_ofBuffer {blanks : Bytes} {c : UInt8} (hblanks : ∀ b ∈ blanks, isSpace b = true)
    (hc : isSpace c = false) (text : Bytes) :
    (ofBuffer (blanks ++ c :: text)).sentry = (true, ofBuffer (c :: text)) := by
  simp [sentry, ofBuffer, good, (span_append hblanks hc text).2]

theorem extractWord_append {word rest : Bytes} {c : UInt8} (hne : word ≠ [])
    (hword : ∀ b ∈ word, isSpace b = false) (hc : isSpace c = true) :
    (ofBuffer (word ++ c :: rest)).extractWord = (word, ofBuffer (c :: rest)) := by
  obtain ⟨d, tail, rfl⟩ := List.exists_cons_of_ne_nil hne
  have hsentry : (ofBuffer (d :: tail ++ c :: rest)).sentry =
      (true, ofBuffer (d :: tail ++ c :: rest)) :=
    sentry_ofBuffer (List.forall_mem_nil _) (hword d List.mem_cons_self) (tail ++ c :: rest)
  obtain ⟨htake, hdrop⟩ := span_append (p := fun b => !isSpace b)
    (fun b hb => by rw [hword b hb]; rfl) (show (!isSpace c) = false by rw [hc]; rfl) rest
  rw [extractWord, hsentry]
  simp only [ofBuffer, htake, hdrop, List.isEmpty_cons]

theorem isSpace_of_isDigit : ∀ c : UInt8, isDigit c = true → isSpace c = false := by
  decide +kernel

/-- A decimal number that fits. -/
theorem extractUnsigned_append {digits rest : Bytes} {c : UInt8} (hne : digits ≠ [])
    (hdigits : ∀ b ∈ digits, isDigit b = true) (hsmall : decimalValue digits < UInt32.size)
    (hc : isDigit c = false) :
    (ofBuffer (ascii ' ' :: digits ++ c :: rest)).extractUnsigned =
      (UInt32.ofNat (decimalValue digits), ofBuffer (c :: rest)) := by
  obtain ⟨d, tail, rfl⟩ := List.exists_cons_of_ne_nil hne
  have hd := hdigits d List.mem_cons_self
  have hsign : extractSign (d :: tail ++ c :: rest) = (false, d :: tail ++ c :: rest) := by
    rw [List.cons_append, extractSign, if_neg, if_neg]
    · rintro rfl
      exact absurd hd (by decide)
    · rintro rfl
      exact absurd hd (by decide)
  have hsentry : (ofBuffer (ascii ' ' :: (d :: tail) ++ c :: rest)).sentry =
      (true, ofBuffer (d :: tail ++ c :: rest)) :=
    sentry_ofBuffer (List.forall_mem_singleton.mpr (show isSpace (ascii ' ') = true from rfl))
      (isSpace_of_isDigit d hd) (tail ++ c :: rest)
  obtain ⟨htake, hdrop⟩ := span_append hdigits hc rest
  rw [extractUnsigned, hsentry]
  simp only [ofBuffer, hsign, htake, hdrop, List.isEmpty_cons, Bool.false_eq_true, if_false,
    ge_iff_le, not_le.mpr hsmall]

theorem getline_append {line rest : Bytes} (hline : ascii '\n' ∉ line) :
    (ofBuffer (line ++ ascii '\n' :: rest)).getline = (line, ofBuffer rest) := by
  obtain ⟨htake, hdrop⟩ := span_append (p := (· ≠ ascii '\n')) (c := ascii '\n')
    (fun b hb => decide_eq_true (ne_of_mem_of_not_mem hb hline)) (by simp) rest
  simp only [getline, ofBuffer, good, Bool.not_false, Bool.and_self, if_true, htake, hdrop]

/-! ### The lines of a stream -/

/-- The lines that are still to be read. -/
def lines (s : IStream) : List Bytes :=
  if s.good then Delimited.lines (ascii '\n') s.buffer else []

theorem lines_ofBuffer (buffer : Bytes) :
    (ofBuffer buffer).lines = Delimited.lines (ascii '\n') buffer := rfl

/-- The last line has no end; after it the stream is not good. -/
theorem getline_of_not_mem {buffer : Bytes} (h : ascii '\n' ∉ buffer) :
    (ofBuffer buffer).getline =
      (buffer, { buffer := [], eofbit := true, failbit := buffer.isEmpty }) := by
  have hall : ∀ b ∈ buffer, decide (b ≠ ascii '\n') = true :=
    fun b hb => decide_eq_true (ne_of_mem_of_not_mem hb h)
  have htake : buffer.takeWhile (· ≠ ascii '\n') = buffer := List.takeWhile_eq_self_iff.mpr hall
  have hdrop : buffer.dropWhile (· ≠ ascii '\n') = [] := List.dropWhile_eq_nil_iff.mpr hall
  simp only [getline, ofBuffer, good, Bool.not_false, Bool.and_self, if_true, htake, hdrop]

theorem eq_ofBuffer_of_good {s : IStream} (h : s.good = true) : s = ofBuffer s.buffer := by
  obtain ⟨buffer, eofbit, failbit⟩ := s
  obtain ⟨rfl, rfl⟩ : eofbit = false ∧ failbit = false := by simpa [good] using h
  rfl

/-- `getline` reads the next line and fails behind the last one. -/
theorem lines_getline (s : IStream) :
    (s.getline.2.failbit = true ∧ s.lines = []) ∨
      (¬s.getline.2.failbit = true ∧ s.lines = s.getline.1 :: s.getline.2.lines) := by
  by_cases hgood : s.good = true
  · rw [eq_ofBuffer_of_good hgood]
    by_cases hmem : ascii '\n' ∈ s.buffer
    · obtain ⟨line, rest, hbuffer, hline⟩ := List.eq_append_cons_of_mem hmem
      right
      rw [hbuffer, getline_append hline, lines_ofBuffer, Delimited.lines_append hline]
      exact ⟨Bool.false_ne_true, rfl⟩
    · rw [getline_of_not_mem hmem, lines_ofBuffer]
      rcases hbuffer : s.buffer with _ | ⟨c, rest⟩
      · exact .inl ⟨rfl, rfl⟩
      · right
        rw [← hbuffer, Delimited.lines_of_not_mem hmem (by simp [hbuffer])]
        exact ⟨by simp [hbuffer], rfl⟩
  · left
    rw [getline, lines, if_neg hgood, if_neg hgood]
    exact ⟨rfl, rfl⟩

end IStream
