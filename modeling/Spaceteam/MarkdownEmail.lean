/-
Automatic links (`looksLikeUrl`, `looksLikeEmailAddress`, `emailEncode` and what
`_processLinksImagesAndTags` makes of the text between two angle brackets).

The address of a mail is written in character references, decimal and hexadecimal
ones in turn, so that programs that look for addresses find none on the page.

* `Markdown.looksLikeEmailAddress_iff` — what counts as an address;
* `Markdown.address_hidden` — a reader of the page gets the address back, and the
  page has no `@`.
-/
import Spaceteam.MarkdownTokens

namespace Markdown

/-! ### The functions -/

/-- `isalpha`. -/
def isAlpha (c : UInt8) : Bool :=
  (ascii 'a' ≤ c && c ≤ ascii 'z') || (ascii 'A' ≤ c && c ≤ ascii 'Z')

/-- `isalnum`. -/
def isAlnum (c : UInt8) : Bool := isAlpha c || IStream.isDigit c

def looksLikeUrl (str : Bytes) : Bool :=
  [bytes "http://", bytes "https://", bytes "ftp://", bytes "ftps://", bytes "file://",
    bytes "www.", bytes "ftp."].any fun scheme => decide (scheme <+: str)

def notValidNameCharacter (c : UInt8) : Bool :=
  !(isAlnum c || c == ascii '.' || c == ascii '_' || c == ascii '%' || c == ascii '-' ||
    c == ascii '+')

def notValidSiteCharacter (c : UInt8) : Bool :=
  !(isAlnum c || c == ascii '.' || c == ascii '_' || c == ascii '%' || c == ascii '-' ||
    c &&& 0x80 != 0)

def isNotAlpha (c : UInt8) : Bool := !isAlpha c

/-- `std::find_if`: what comes before the character that is found, and the rest. -/
def findIf (p : UInt8 → Bool) (s : Bytes) : Bytes × Bytes :=
  (s.takeWhile (!p ·), s.dropWhile (!p ·))

def looksLikeEmailAddress (str : Bytes) : Bool :=
  let i := findIf notValidNameCharacter str
  match i.2 with
  | [] => false
  | c :: site =>
    if c = ascii '@' ∧ i.1 ≠ [] then
      if (findIf notValidSiteCharacter site).2 = [] then
        let ri := findIf isNotAlpha str.reverse
        -- `d` is the distance from `ri.base()` to the end
        let d := ri.1.length
        ri.2.head? = some (ascii '.') ∧ d ≥ 2 ∧ d ≤ 4
      else false
    else false

/-- `out << std::hex`. -/
def hexadecimal (n : ℕ) : Bytes := (Nat.toDigits 16 n).map ascii

/-- What stands for a character below 128. -/
def characterReference (inHex : Bool) (c : UInt8) : Bytes :=
  if inHex then bytes "&#x" ++ hexadecimal c.toNat ++ bytes ";"
  else bytes "&#" ++ decimal c.toNat ++ bytes ";"

def emailEncodeFrom : Bool → Bytes → Bytes
  | _, [] => []
  | inHex, c :: src =>
    (if c &&& 0x80 ≠ 0 then [c] else characterReference inHex c) ++ emailEncodeFrom (!inHex) src

def emailEncode (src : Bytes) : Bytes := emailEncodeFrom false src

variable (ignore : Bytes → Bool)

/-- What is put for the text between angle brackets when it is a URL or an address. -/
def autoLink (contents : Bytes) : Option Token :=
  if looksLikeUrl contents then
    some (.container .container [.htmlAnchorTag ignore contents [],
      .text (.rawText false) contents, .text .htmlTag (bytes "/a")])
  else if looksLikeEmailAddress contents then
    some (.container .container [
      .htmlAnchorTag ignore (emailEncode (bytes "mailto:" ++ contents)) [],
      .text (.rawText false) (emailEncode contents), .text .htmlTag (bytes "/a")])
  else none

def isHexDigit (c : UInt8) : Bool :=
  IStream.isDigit c || (ascii 'a' ≤ c && c ≤ ascii 'f') || (ascii 'A' ≤ c && c ≤ ascii 'F')

/-- Digits before a semicolon. -/
def digitsAt (p : UInt8 → Bool) (s : Bytes) : Option Bytes :=
  if (s.dropWhile p).head? = some (ascii ';') ∧ s.takeWhile p ≠ [] then some (s.takeWhile p)
  else none

/-- `(&#[0-9]{1,3};)|(&#[xX][0-9a-fA-F]{1,2};)` at the beginning of a text. -/
def matchesReference (s : Bytes) : Bool :=
  decide (bytes "&#" <+: s) &&
    ((digitsAt IStream.isDigit (s.drop 2)).any (·.length ≤ 3) ||
      (((s.drop 2).head? == some (ascii 'x') || (s.drop 2).head? == some (ascii 'X')) &&
        (digitsAt isHexDigit (s.drop 3)).any (·.length ≤ 2)))

/-- `boost::regex_search` for `cIgnore`, whose `^` is that of the first branch: it
stands for the beginning of any line. -/
def cIgnore (s : Bytes) : Bool :=
  decide (bytes "&amp;" <+: s) ||
    s.tails.any (fun t => matchesReference t ||
      (match t with
      | c :: t => (c == 10 || c == 12 || c == 13) && decide (bytes "&amp;" <+: t)
      | [] => false))

/-! ### Addresses -/

section FindIf

variable {p : UInt8 → Bool} {s : Bytes} {c : UInt8}

theorem findIf_append (hs : ∀ d ∈ s, p d = false) (hc : p c = true) (t : Bytes) :
    findIf p (s ++ c :: t) = (s, c :: t) := by
  have hs' : ∀ d ∈ s, (!p d) = true := by
    intro d hd
    rw [hs d hd]
    rfl
  have hc' : ¬(!p c) = true := by
    rw [hc]
    decide
  rw [findIf, List.takeWhile_append_of_pos hs', List.dropWhile_append_of_pos hs',
    List.takeWhile_cons_of_neg (p := fun d => !p d) hc',
    List.dropWhile_cons_of_neg (p := fun d => !p d) hc', List.append_nil]

theorem findIf_parts (p : UInt8 → Bool) (s : Bytes) :
    s = (findIf p s).1 ++ (findIf p s).2 ∧ ∀ d ∈ (findIf p s).1, p d = false := by
  refine ⟨List.takeWhile_append_dropWhile.symm, fun d hd => ?_⟩
  have hpd := List.mem_takeWhile_imp hd
  rwa [Bool.not_eq_true'] at hpd

theorem findIf_eq_nil : (findIf p s).2 = [] ↔ ∀ d ∈ s, p d = false := by
  rw [findIf, List.dropWhile_eq_nil_iff]
  simp only [Bool.not_eq_true']

end FindIf

theorem validSite_of_isAlpha {c : UInt8} (h : isAlpha c = true) :
    notValidSiteCharacter c = false := by
  rw [notValidSiteCharacter, isAlnum, h]
  rfl

/-- The last dot of an address is behind the `@`, as there are only letters behind it. -/
theorem split_at {name site front domain : Bytes} (hdomain : ∀ c ∈ domain, isAlpha c = true)
    (h : name ++ ascii '@' :: site = front ++ ascii '.' :: domain) :
    ∃ site', site = site' ++ ascii '.' :: domain := by
  rcases List.append_eq_append_iff.mp h with ⟨as, -, has⟩ | ⟨cs, -, hcs⟩
  · rcases as with _ | ⟨a, as⟩
    · exact absurd (List.cons.inj has).1 (by decide)
    · exact ⟨as, (List.cons.inj has).2⟩
  · rcases cs with _ | ⟨c, cs⟩
    · exact absurd (List.cons.inj hcs).1 (by decide)
    · have hat : ascii '@' ∈ domain := by
        rw [(List.cons.inj hcs).2]
        exact List.mem_append_right cs List.mem_cons_self
      exact absurd (hdomain _ hat) (by decide)

/-- **What counts as an address**: a name and a site behind an `@`, the site ending
in a dot and two to four letters. -/
theorem looksLikeEmailAddress_iff {str : Bytes} : looksLikeEmailAddress str = true ↔
    ∃ name site domain : Bytes, str = name ++ ascii '@' :: (site ++ ascii '.' :: domain) ∧
      name ≠ [] ∧ (∀ c ∈ name, notValidNameCharacter c = false) ∧
      (∀ c ∈ site, notValidSiteCharacter c = false) ∧ (∀ c ∈ domain, isAlpha c = true) ∧
      2 ≤ domain.length ∧ domain.length ≤ 4 := by
  constructor
  · intro h
    obtain ⟨hstr, hname⟩ := findIf_parts notValidNameCharacter str
    obtain ⟨hrev, hletters⟩ := findIf_parts isNotAlpha str.reverse
    rw [looksLikeEmailAddress] at h
    set name := (findIf notValidNameCharacter str).1
    set ri := findIf isNotAlpha str.reverse
    dsimp only at h
    split at h
    next => cases h
    next c site heq =>
      split_ifs at h with hat hsite
      rw [decide_eq_true_eq] at h
      obtain ⟨hdot, htwo, hfour⟩ := h
      obtain ⟨rfl, hne⟩ := hat
      obtain ⟨front, hfront⟩ := List.head?_eq_some_iff.mp hdot
      have hdomain : ∀ c ∈ ri.1.reverse, isAlpha c = true := by
        intro c hc
        have hc' := hletters c (List.mem_reverse.mp hc)
        rwa [isNotAlpha, Bool.not_eq_false'] at hc'
      have hlast : str = front.reverse ++ ascii '.' :: ri.1.reverse := by
        rw [← List.reverse_reverse str, hrev, hfront]
        simp
      rw [heq] at hstr
      obtain ⟨site', rfl⟩ := split_at hdomain (hstr.symm.trans hlast)
      rw [findIf_eq_nil] at hsite
      refine ⟨name, site', ri.1.reverse, hstr, hne, hname,
        fun c hc => hsite c (List.mem_append_left _ hc), hdomain, ?_, ?_⟩
      · rwa [List.length_reverse]
      · rwa [List.length_reverse]
  · rintro ⟨name, site, domain, rfl, hne, hname, hsite, hdomain, htwo, hfour⟩
    have hfirst : findIf notValidNameCharacter
        (name ++ ascii '@' :: (site ++ ascii '.' :: domain)) =
          (name, ascii '@' :: (site ++ ascii '.' :: domain)) :=
      findIf_append hname (by decide) _
    have hall : (findIf notValidSiteCharacter (site ++ ascii '.' :: domain)).2 = [] := by
      rw [findIf_eq_nil, List.forall_mem_append, List.forall_mem_cons]
      exact ⟨hsite, by decide, fun c hc => validSite_of_isAlpha (hdomain c hc)⟩
    have hlast : findIf isNotAlpha (name ++ ascii '@' :: (site ++ ascii '.' :: domain)).reverse =
        (domain.reverse, ascii '.' :: (site.reverse ++ ascii '@' :: name.reverse)) := by
      have hrev : (name ++ ascii '@' :: (site ++ ascii '.' :: domain)).reverse =
          domain.reverse ++ ascii '.' :: (site.reverse ++ ascii '@' :: name.reverse) := by simp
      rw [hrev]
      refine findIf_append (fun c hc => ?_) (by decide) _
      rw [isNotAlpha, hdomain c (List.mem_reverse.mp hc)]
      rfl
    rw [looksLikeEmailAddress]
    simp only [hfirst, hall, hlast]
    rw [if_pos ⟨trivial, hne⟩, if_pos trivial, decide_eq_true_eq]
    refine ⟨rfl, ?_, ?_⟩
    · rwa [List.length_reverse]
    · rwa [List.length_reverse]

/-! ### Character references -/

/-- Digits as `digitChar` writes them. -/
def hexDigitValue (c : UInt8) : ℕ := if IStream.isDigit c then c.toNat - 48 else c.toNat - 87

/-- The character reference that a text begins with: its character and its length. -/
def referenceAt (s : Bytes) : Option (UInt8 × ℕ) :=
  if bytes "&#x" <+: s then
    (digitsAt isHexDigit (s.drop 3)).map fun digits =>
      (UInt8.ofNat (digits.foldl (fun n c => 16 * n + hexDigitValue c) 0), digits.length + 4)
  else if bytes "&#" <+: s then
    (digitsAt IStream.isDigit (s.drop 2)).map fun digits =>
      (UInt8.ofNat (IStream.decimalValue digits), digits.length + 3)
  else none

/-- What a reader takes a text for behind the next `skip` characters. -/
def readReferences : ℕ → Bytes → Bytes
  | _, [] => []
  | skip + 1, _ :: s => readReferences skip s
  | 0, c :: s =>
    match referenceAt (c :: s) with
    | some (d, length) => d :: readReferences (length - 1) s
    | none => c :: readReferences 0 s

theorem readReferences_append (u s : Bytes) :
    readReferences u.length (u ++ s) = readReferences 0 s := by
  induction u with
  | nil => rfl
  | cons c u ih => exact ih

/-- The digits of the numbers below 128. -/
theorem digits_spec : ∀ n < 128,
    ((decimal n).all IStream.isDigit = true ∧ 1 ≤ (decimal n).length ∧ (decimal n).length ≤ 3 ∧
      IStream.decimalValue (decimal n) = n) ∧
    (hexadecimal n).all isHexDigit = true ∧ 1 ≤ (hexadecimal n).length ∧
      (hexadecimal n).length ≤ 2 ∧
      (hexadecimal n).foldl (fun n c => 16 * n + hexDigitValue c) 0 = n := by
  decide +kernel

section Reference

variable {p : UInt8 → Bool} {digits : Bytes} {c : UInt8}

theorem digitsAt_digits (hp : p (ascii ';') = false) (hdigits : digits.all p = true)
    (hlength : 1 ≤ digits.length) (rest : Bytes) :
    digitsAt p (digits ++ ascii ';' :: rest) = some digits := by
  have hall : ∀ d ∈ digits, p d = true := List.all_eq_true.mp hdigits
  have hsemicolon : ¬p (ascii ';') = true := by
    rw [hp]
    decide
  have htake : (digits ++ ascii ';' :: rest).takeWhile p = digits := by
    rw [List.takeWhile_append_of_pos hall, List.takeWhile_cons_of_neg hsemicolon, List.append_nil]
  have hdrop : (digits ++ ascii ';' :: rest).dropWhile p = ascii ';' :: rest := by
    rw [List.dropWhile_append_of_pos hall, List.dropWhile_cons_of_neg hsemicolon]
  rw [digitsAt, htake, hdrop, if_pos ⟨rfl, List.ne_nil_of_length_pos hlength⟩]

theorem characterReference_hex (c : UInt8) (rest : Bytes) :
    characterReference true c ++ rest =
      bytes "&#x" ++ (hexadecimal c.toNat ++ ascii ';' :: rest) := by
  rw [characterReference, if_pos rfl, List.append_assoc, List.append_assoc]
  rfl

theorem characterReference_decimal (c : UInt8) (rest : Bytes) :
    characterReference false c ++ rest =
      bytes "&#" ++ (decimal c.toNat ++ ascii ';' :: rest) := by
  rw [characterReference, if_neg Bool.false_ne_true, List.append_assoc, List.append_assoc]
  rfl

/-- A decimal reference is not taken for a hexadecimal one. -/
theorem not_prefix_decimal (hdigits : digits.all IStream.isDigit = true)
    (hlength : 1 ≤ digits.length) (s : Bytes) : ¬bytes "&#x" <+: bytes "&#" ++ (digits ++ s) := by
  obtain ⟨d, digits, rfl⟩ := List.exists_cons_of_length_pos hlength
  rintro ⟨t, ht⟩
  have hd : ascii 'x' = d := (List.cons.inj (List.cons.inj (List.cons.inj ht).2).2).1
  have hdigit : IStream.isDigit d = true := List.all_eq_true.mp hdigits d List.mem_cons_self
  rw [← hd] at hdigit
  exact absurd hdigit (by decide)

theorem referenceAt_characterReference (hc : c.toNat < 128) (inHex : Bool) (rest : Bytes) :
    referenceAt (characterReference inHex c ++ rest) =
      some (c, (characterReference inHex c).length) := by
  obtain ⟨⟨hdec, hdecpos, -, hdecval⟩, hhex, hhexpos, -, hhexval⟩ := digits_spec c.toNat hc
  cases inHex with
  | true =>
    have hdrop : (bytes "&#x" ++ (hexadecimal c.toNat ++ ascii ';' :: rest)).drop 3 =
        hexadecimal c.toNat ++ ascii ';' :: rest := rfl
    rw [characterReference_hex, referenceAt, if_pos (List.prefix_append _ _), hdrop,
      digitsAt_digits (by decide) hhex hhexpos, Option.map_some, hhexval, UInt8.ofNat_toNat]
    simp [characterReference, bytes]
  | false =>
    have hdrop : (bytes "&#" ++ (decimal c.toNat ++ ascii ';' :: rest)).drop 2 =
        decimal c.toNat ++ ascii ';' :: rest := rfl
    rw [characterReference_decimal, referenceAt, if_neg (not_prefix_decimal hdec hdecpos _),
      if_pos (List.prefix_append _ _), hdrop, digitsAt_digits (by decide) hdec hdecpos,
      Option.map_some, hdecval, UInt8.ofNat_toNat]
    simp [characterReference, bytes]

/-- The references that are written are those that `encodeString` leaves alone. -/
theorem matchesReference_characterReference (hc : c.toNat < 128) (inHex : Bool) (rest : Bytes) :
    matchesReference (characterReference inHex c ++ rest) = true := by
  obtain ⟨⟨hdec, hdecpos, hdecle, -⟩, hhex, hhexpos, hhexle, -⟩ := digits_spec c.toNat hc
  cases inHex with
  | true =>
    have hdrop : (bytes "&#x" ++ (hexadecimal c.toNat ++ ascii ';' :: rest)).drop 3 =
        hexadecimal c.toNat ++ ascii ';' :: rest := rfl
    have hx : ((bytes "&#x" ++ (hexadecimal c.toNat ++ ascii ';' :: rest)).drop 2).head? =
        some (ascii 'x') := rfl
    have hbegins : bytes "&#" <+: bytes "&#x" ++ (hexadecimal c.toNat ++ ascii ';' :: rest) :=
      ⟨ascii 'x' :: (hexadecimal c.toNat ++ ascii ';' :: rest), rfl⟩
    rw [characterReference_hex, matchesReference, hdrop, hx,
      digitsAt_digits (by decide) hhex hhexpos]
    simp [hbegins, hhexle]
  | false =>
    have hdrop : (bytes "&#" ++ (decimal c.toNat ++ ascii ';' :: rest)).drop 2 =
        decimal c.toNat ++ ascii ';' :: rest := rfl
    rw [characterReference_decimal, matchesReference, hdrop,
      digitsAt_digits (by decide) hdec hdecpos]
    simp [hdecle]

/-- The characters of a reference behind the ampersand. -/
theorem characterReference_spec (hc : c.toNat < 128) (inHex : Bool) :
    ∃ body, characterReference inHex c = ascii '&' :: body ∧ ∀ d ∈ body,
      d ≠ ascii '&' ∧ d ≠ ascii '<' ∧ d ≠ ascii '>' ∧ d ≠ ascii '"' ∧ d ≠ ascii '@' := by
  have hall : ∀ n < 128, ∀ inHex : Bool, (characterReference inHex (UInt8.ofNat n)).tail.all
      (fun d => decide (d ≠ ascii '&' ∧ d ≠ ascii '<' ∧ d ≠ ascii '>' ∧ d ≠ ascii '"' ∧
        d ≠ ascii '@')) = true := by decide +kernel
  have hbody := hall c.toNat hc inHex
  rw [UInt8.ofNat_toNat] at hbody
  refine ⟨(characterReference inHex c).tail, ?_, Bytes.forall_mem_of_all hbody⟩
  cases inHex with
  | true => rfl
  | false => rfl

end Reference

/-! ### Addresses on the page -/

theorem toNat_lt_of_not_high {c : UInt8} (h : ¬c &&& 0x80 ≠ 0) : c.toNat < 128 := by
  have hall : ∀ n < 256, ¬UInt8.ofNat n &&& 0x80 ≠ 0 → n < 128 := by decide +kernel
  refine hall c.toNat c.toNat_lt ?_
  rwa [UInt8.ofNat_toNat]

theorem referenceAt_of_ne {c : UInt8} (h : c ≠ ascii '&') (s : Bytes) :
    referenceAt (c :: s) = none := by
  have hbegins : ∀ t : Bytes, ¬ascii '&' :: t <+: c :: s := by
    rintro t ⟨u, hu⟩
    exact h (List.cons.inj hu).1.symm
  have hhex : ¬bytes "&#x" <+: c :: s := hbegins (bytes "#x")
  have hdecimal : ¬bytes "&#" <+: c :: s := hbegins (bytes "#")
  rw [referenceAt, if_neg hhex, if_neg hdecimal]

/-- A reader gets the characters back. -/
theorem readReferences_emailEncodeFrom (inHex : Bool) (src : Bytes) :
    readReferences 0 (emailEncodeFrom inHex src) = src := by
  induction src generalizing inHex with
  | nil => rfl
  | cons c src ih =>
    rw [emailEncodeFrom]
    split_ifs with hhigh
    · have hne : c ≠ ascii '&' := fun heq => hhigh (heq ▸ by decide)
      rw [List.singleton_append, readReferences, referenceAt_of_ne hne]
      exact congrArg (c :: ·) (ih _)
    · have hc := toNat_lt_of_not_high hhigh
      have hread := referenceAt_characterReference hc inHex (emailEncodeFrom (!inHex) src)
      obtain ⟨body, hbody, -⟩ := characterReference_spec hc inHex
      rw [hbody, List.cons_append] at hread
      rw [hbody, List.cons_append, readReferences, hread]
      show c :: readReferences body.length (body ++ emailEncodeFrom (!inHex) src) = c :: src
      rw [readReferences_append, ih]

/-- The characters that `emailEncode` writes. -/
theorem ne_of_mem_emailEncodeFrom {inHex : Bool} {src : Bytes} :
    ∀ d ∈ emailEncodeFrom inHex src,
      d ≠ ascii '<' ∧ d ≠ ascii '>' ∧ d ≠ ascii '"' ∧ d ≠ ascii '@' := by
  induction src generalizing inHex with
  | nil => exact fun d hd => absurd hd List.not_mem_nil
  | cons c src ih =>
    rw [emailEncodeFrom, List.forall_mem_append]
    refine ⟨?_, ih⟩
    split_ifs with hhigh
    · rw [List.forall_mem_singleton]
      refine ⟨?_, ?_, ?_, ?_⟩
      all_goals exact fun heq => hhigh (heq ▸ by decide)
    · obtain ⟨body, hbody, hchars⟩ := characterReference_spec (toNat_lt_of_not_high hhigh) inHex
      rw [hbody, List.forall_mem_cons]
      exact ⟨by decide, fun d hd => (hchars d hd).2⟩

theorem encodeString_of_plain (ignore : Bytes → Bool) (flags : EncodingFlags) {u : Bytes}
    (hu : ∀ d ∈ u, d ≠ ascii '&' ∧ d ≠ ascii '<' ∧ d ≠ ascii '>' ∧ d ≠ ascii '"') (s : Bytes) :
    encodeString ignore flags (u ++ s) = u ++ encodeString ignore flags s := by
  induction u with
  | nil => rfl
  | cons d u ih =>
    obtain ⟨⟨hamp, hlt, hgt, hquote⟩, hu⟩ := List.forall_mem_cons.mp hu
    rw [List.cons_append, encodeString_cons, if_neg (hamp ·.1), if_neg (hamp ·.1),
      if_neg (hlt ·.1), if_neg (hgt ·.1), if_neg (hquote ·.1), ih hu]
    rfl

/-- The references are not encoded again. -/
theorem encodeString_emailEncodeFrom (flags : EncodingFlags) (h : flags.cAmps = true)
    (inHex : Bool) (src : Bytes) :
    encodeString cIgnore flags (emailEncodeFrom inHex src) = emailEncodeFrom inHex src := by
  induction src generalizing inHex with
  | nil => rfl
  | cons c src ih =>
    rw [emailEncodeFrom]
    split_ifs with hhigh
    · have hplain : ∀ d ∈ [c],
          d ≠ ascii '&' ∧ d ≠ ascii '<' ∧ d ≠ ascii '>' ∧ d ≠ ascii '"' := by
        rw [List.forall_mem_singleton]
        refine ⟨?_, ?_, ?_, ?_⟩
        all_goals exact fun heq => hhigh (heq ▸ by decide)
      rw [encodeString_of_plain cIgnore flags hplain, ih]
    · have hc := toNat_lt_of_not_high hhigh
      have hmatches := matchesReference_characterReference hc inHex (emailEncodeFrom (!inHex) src)
      obtain ⟨body, hbody, hchars⟩ := characterReference_spec hc inHex
      rw [hbody, List.cons_append] at hmatches
      have hignore : cIgnore (ascii '&' :: (body ++ emailEncodeFrom (!inHex) src)) = true := by
        rw [cIgnore, List.tails_cons, List.any_cons, hmatches]
        simp
      rw [hbody, List.cons_append, encodeString_cons, if_pos ⟨rfl, h⟩, if_pos hignore,
        encodeString_of_plain cIgnore flags (fun d hd => ?_), ih]
      · rfl
      · obtain ⟨hamp, hlt, hgt, hquote, -⟩ := hchars d hd
        exact ⟨hamp, hlt, hgt, hquote⟩

/-- **Addresses are hidden**: the link to an address is written without any `@`, and
a reader of the page gets the address back from the text and from the attribute. -/
theorem address_hidden {contents : Bytes} (hurl : looksLikeUrl contents = false)
    (h : looksLikeEmailAddress contents = true) :
    ∃ (t : Token) (href text : Bytes), autoLink cIgnore contents = some t ∧
      t.writeAsHtml cIgnore =
        bytes "<a href=\"" ++ href ++ bytes "\">" ++ text ++ bytes "</a>" ∧
      readReferences 0 href = bytes "mailto:" ++ contents ∧ readReferences 0 text = contents ∧
      ascii '@' ∉ t.writeAsHtml cIgnore ∧ ascii '"' ∉ href := by
  have hlink : autoLink cIgnore contents = some (.container .container
      [.htmlAnchorTag cIgnore (emailEncode (bytes "mailto:" ++ contents)) [],
        .text (.rawText false) (emailEncode contents), .text .htmlTag (bytes "/a")]) := by
    rw [autoLink, hurl, if_neg Bool.false_ne_true, if_pos h]
  have hpage : (Token.container .container
      [.htmlAnchorTag cIgnore (emailEncode (bytes "mailto:" ++ contents)) [],
        .text (.rawText false) (emailEncode contents),
        .text .htmlTag (bytes "/a")]).writeAsHtml cIgnore =
      bytes "<a href=\"" ++ emailEncode (bytes "mailto:" ++ contents) ++ bytes "\">" ++
        emailEncode contents ++ bytes "</a>" := by
    have hhref := encodeString_emailEncodeFrom ⟨true, false, false, true⟩ rfl false
      (bytes "mailto:" ++ contents)
    have htext := encodeString_emailEncodeFrom textFlags rfl false contents
    have hend : (Token.text .htmlTag (bytes "/a")).writeAsHtml cIgnore = bytes "</a>" := rfl
    rw [Token.writeAsHtml, writeAllAsHtml, writeAllAsHtml, writeAllAsHtml, writeAllAsHtml,
      writeAsHtml_htmlAnchorTag, writeAsHtml_rawText, hend, emailEncode, emailEncode, hhref, htext]
    show [] ++ _ ++ [] = _
    simp only [List.nil_append, List.append_nil, List.append_assoc]
  refine ⟨_, _, _, hlink, hpage, readReferences_emailEncodeFrom false _,
    readReferences_emailEncodeFrom false _, ?_, fun hquote => ?_⟩
  · rw [hpage]
    simp only [List.mem_append, not_or]
    refine ⟨⟨⟨⟨by decide, fun hat => ?_⟩, by decide⟩, fun hat => ?_⟩, by decide⟩
    · exact (ne_of_mem_emailEncodeFrom _ hat).2.2.2 rfl
    · exact (ne_of_mem_emailEncodeFrom _ hat).2.2.2 rfl
  · exact (ne_of_mem_emailEncodeFrom _ hquote).2.2.1 rfl

theorem address_hidden_example : ∃ (t : Token) (href text : Bytes),
    autoLink cIgnore (bytes "me@example.com") = some t ∧
      t.writeAsHtml cIgnore =
        bytes "<a href=\"" ++ href ++ bytes "\">" ++ text ++ bytes "</a>" ∧
      readReferences 0 href = bytes "mailto:" ++ bytes "me@example.com" ∧
      readReferences 0 text = bytes "me@example.com" ∧
      ascii '@' ∉ t.writeAsHtml cIgnore ∧ ascii '"' ∉ href :=
  address_hidden (by decide +kernel) (by decide +kernel)

end Markdown
