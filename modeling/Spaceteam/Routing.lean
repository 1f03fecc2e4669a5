/-
Which handler a connection selects.

The paths `ShortenUriPrefix` leads through from `w` are `w` itself, the
prefixes of `w` that end just before a slash and, below them, the root
(`onChain_iff`): a chain that goes down in length, so that the loop is a search
along it (`findHandler_eq_search`).

* `Connection.select_cases` — the handler selected is the one at the longest
  registered path, or the default one;
* `Connection.handleRead_selects` — so is the handler `handle_read` calls.
-/
import Spaceteam.Connection
import Spaceteam.Descent

open RequestHandler

namespace Connection

/-- The paths at which a handler for `w` may be registered. -/
def IsCandidate (w p : Bytes) : Prop :=
  p ≠ [] ∧ (p = w ∨ (∃ rest, w = p ++ ascii '/' :: rest) ∨
    p = bytes "/" ∧ ∃ rest, w = ascii '/' :: rest)

/-! ### The chain of paths -/

/-- The next path of the loop, if the loop goes on. -/
def nextPath (w : Bytes) : Option Bytes :=
  if shortenUriPrefix w = [] then none else some (shortenUriPrefix w)

theorem nextPath_root : nextPath (bytes "/") = none := by decide

theorem nextPath_of_not_mem {w : Bytes} (h : ascii '/' ∉ w) : nextPath w = none := by
  have hroot : w ≠ bytes "/" := by
    rintro rfl
    exact h (by decide)
  simp [nextPath, shortenUriPrefix, hroot, Bytes.rfind_eq_none.mpr h]

/-- The last slash is where a path is cut. -/
theorem nextPath_append {q r : Bytes} (hroot : q ++ ascii '/' :: r ≠ bytes "/")
    (hr : ascii '/' ∉ r) :
    nextPath (q ++ ascii '/' :: r) = some (if q = [] then bytes "/" else q) := by
  have hrfind : (q ++ ascii '/' :: r).rfind (ascii '/') = some q.length :=
    Bytes.rfind_eq_some.mpr ⟨q, r, rfl, rfl, hr⟩
  have hshorten : shortenUriPrefix (q ++ ascii '/' :: r) = if q = [] then bytes "/" else q := by
    rw [shortenUriPrefix, if_neg hroot, hrfind]
    by_cases hq : q = [] <;> simp [hq]
  rw [nextPath, hshorten, if_neg]
  split_ifs with hq
  · decide
  · exact hq

/-- A string without the byte, or cut at its last occurrence. -/
theorem exists_last_slash (w : Bytes) :
    ascii '/' ∉ w ∨ ∃ q r, w = q ++ ascii '/' :: r ∧ ascii '/' ∉ r := by
  rcases h : w.rfind (ascii '/') with _ | i
  · exact .inl (Bytes.rfind_eq_none.mp h)
  · obtain ⟨q, r, hw, -, hr⟩ := Bytes.rfind_eq_some.mp h
    exact .inr ⟨q, r, hw, hr⟩

/-- **What one pass of the loop does to a path**: it cuts it at its last slash. -/
theorem nextPath_cases {w w' : Bytes} (h : nextPath w = some w') :
    ∃ q r, w = q ++ ascii '/' :: r ∧ ascii '/' ∉ r ∧ w ≠ bytes "/" ∧
      w' = if q = [] then bytes "/" else q := by
  rcases exists_last_slash w with hw | ⟨q, r, rfl, hr⟩
  · rw [nextPath_of_not_mem hw] at h
    cases h
  · by_cases hroot : q ++ ascii '/' :: r = bytes "/"
    · rw [hroot, nextPath_root] at h
      cases h
    · rw [nextPath_append hroot hr] at h
      exact ⟨q, r, rfl, hr, hroot, (Option.some_inj.mp h).symm⟩

theorem length_nextPath (w w' : Bytes) (h : nextPath w = some w') : w'.length < w.length := by
  obtain ⟨q, r, rfl, -, hroot, rfl⟩ := nextPath_cases h
  split_ifs with hq
  · -- `/r` goes to the root, which is shorter since `r` is not empty
    subst hq
    rcases r with _ | ⟨b, r⟩
    · exact absurd rfl hroot
    · simp [bytes]
  · simp

theorem isCandidate_self {w : Bytes} (hw : w ≠ []) : IsCandidate w w := ⟨hw, .inl rfl⟩

/-- A candidate of the next path is a candidate. -/
theorem IsCandidate.of_nextPath {w w' p : Bytes} (h : nextPath w = some w')
    (hp : IsCandidate w' p) : IsCandidate w p := by
  obtain ⟨q, r, rfl, -, -, rfl⟩ := nextPath_cases h
  obtain ⟨hne, hp⟩ := hp
  refine ⟨hne, .inr ?_⟩
  by_cases hq : q = []
  · -- the root is its own only candidate
    subst hq
    rw [if_pos rfl] at hp
    refine .inr ⟨?_, r, rfl⟩
    rcases hp with hp | ⟨rest, hrest⟩ | ⟨hp, -⟩
    · exact hp
    · rcases p with _ | ⟨b, p⟩
      · exact absurd rfl hne
      · simp [bytes] at hrest
    · exact hp
  · rw [if_neg hq] at hp
    rcases hp with rfl | ⟨rest, rfl⟩ | ⟨hp, rest, rfl⟩
    · exact .inl ⟨r, rfl⟩
    · exact .inl ⟨rest ++ ascii '/' :: r, by simp⟩
    · exact .inr ⟨hp, rest ++ ascii '/' :: r, rfl⟩

/-- A candidate other than the path itself is a candidate of the next path. -/
theorem IsCandidate.nextPath {w p : Bytes} (hp : IsCandidate w p) (hne : p ≠ w) :
    ∃ w', Connection.nextPath w = some w' ∧ IsCandidate w' p := by
  obtain ⟨hpne, hp⟩ := hp
  have hroot : w ≠ bytes "/" := by
    rintro rfl
    rcases hp with hp | ⟨rest, hrest⟩ | ⟨hp, -⟩
    · exact hne hp
    · rcases p with _ | ⟨b, p⟩
      · exact hpne rfl
      · simp [bytes] at hrest
    · exact hne hp
  rcases exists_last_slash w with hw | ⟨q, r, rfl, hr⟩
  · rcases hp with rfl | ⟨rest, rfl⟩ | ⟨-, rest, rfl⟩
    · exact absurd rfl hne
    · exact absurd (by simp) hw
    · exact absurd (by simp) hw
  · refine ⟨_, nextPath_append hroot hr, hpne, ?_⟩
    by_cases hq : q = []
    · -- below `/r` there is only the root
      subst hq
      rw [if_pos rfl]
      rcases hp with hp | ⟨rest, hrest⟩ | ⟨hp, -⟩
      · exact absurd hp hne
      · rcases p with _ | ⟨b, p⟩
        · exact absurd rfl hpne
        · have htail : r = p ++ ascii '/' :: rest := by
            simpa using (List.cons.inj hrest).2
          exact absurd (by simp [htail]) hr
      · exact .inl hp
    · rw [if_neg hq]
      rcases hp with hp | ⟨rest, hrest⟩ | ⟨hp, rest, hrest⟩
      · exact absurd hp hne
      · rcases List.append_eq_append_iff.mp hrest with ⟨s, rfl, hs⟩ | ⟨s, rfl, hs⟩
        · -- `q` would be a proper prefix of `p`, which has a slash after it
          rcases s with _ | ⟨b, s⟩
          · exact .inl (by simp)
          · have htail : r = s ++ ascii '/' :: rest := by
              simpa using (List.cons.inj hs).2
            exact absurd (by simp [htail]) hr
        · rcases s with _ | ⟨b, s⟩
          · exact .inl (by simp)
          · have hb : ascii '/' = b := by simpa using (List.cons.inj hs).1
            exact .inr (.inl ⟨s, by rw [hb]⟩)
      · obtain ⟨b, q, rfl⟩ := List.exists_cons_of_ne_nil hq
        have hb : b = ascii '/' := (List.cons.inj hrest).1
        exact .inr (.inr ⟨hp, q, by rw [hb]⟩)

theorem nextPath_ne_nil {w w' : Bytes} (h : nextPath w = some w') : w' ≠ [] := by
  rw [nextPath] at h
  split_ifs at h with hnil
  obtain rfl := Option.some_inj.mp h
  exact hnil

/-- **The paths the loop goes through are the candidates.** -/
theorem onChain_iff {w : Bytes} (hw : w ≠ []) (p : Bytes) :
    Descent.OnChain nextPath w p ↔ IsCandidate w p := by
  constructor
  · intro h
    induction h using Relation.ReflTransGen.head_induction_on with
    | refl => exact isCandidate_self hw
    | head hstep _ ih => exact IsCandidate.of_nextPath hstep (ih (nextPath_ne_nil hstep))
  · intro h
    -- the path gets shorter until it is the candidate
    induction hn : w.length using Nat.strong_induction_on generalizing w with
    | _ n ih =>
      by_cases hne : p = w
      · rw [hne]
        exact Relation.ReflTransGen.refl
      · obtain ⟨w', hnext, hp⟩ := h.nextPath hne
        have hlt := length_nextPath w w' hnext
        exact Relation.ReflTransGen.head hnext
          (ih _ (hn ▸ hlt) (nextPath_ne_nil hnext) hp rfl)

/-! ### The loop -/

section Selection

variable {H : Type*} {pathToHandler : HandlerMap H}

/-- The loop is a search along the chain. -/
theorem findHandler_eq_search (fuel : ℕ) (w : Bytes) :
    findHandler pathToHandler fuel w =
      Descent.search nextPath (fun p => pathToHandler[p]?) fuel
        (if w = [] then none else some w) := by
  induction fuel generalizing w with
  | zero => rfl
  | succ fuel ih =>
    rw [findHandler]
    by_cases hw : w = []
    · simp [hw, Descent.search]
    · rw [if_neg hw, if_neg hw, Descent.search]
      rcases pathToHandler[w]? with _ | h
      · simp only [ih, nextPath]
      · rfl

/-- The loop ends, whatever string it starts from. -/
theorem findHandler_total (pathToHandler : HandlerMap H) (fuel : ℕ) (w : Bytes)
    (hfuel : w.length + 2 ≤ fuel) : ∃ r, findHandler pathToHandler fuel w = some r := by
  rw [findHandler_eq_search]
  by_cases hw : w = []
  · obtain ⟨fuel, rfl⟩ := Nat.exists_eq_succ_of_ne_zero (show fuel ≠ 0 by omega)
    rw [if_pos hw]
    exact ⟨none, rfl⟩
  · rw [if_neg hw]
    exact Descent.search_total length_nextPath hfuel

theorem mem_of_getElem? {p : Bytes} {h : H} (hp : pathToHandler[p]? = some h) :
    p ∈ pathToHandler := Std.ExtTreeMap.mem_iff_isSome_getElem?.mpr (by simp [hp])

/-- `p` is the longest of the candidates that are registered. -/
def IsLongestRegistered (pathToHandler : HandlerMap H) (w p : Bytes) : Prop :=
  IsCandidate w p ∧ p ∈ pathToHandler ∧
    ∀ q, IsCandidate w q → q ∈ pathToHandler → q.length ≤ p.length

theorem findHandler_found {fuel : ℕ} {w p : Bytes} {h : H}
    (hfind : findHandler pathToHandler fuel w = some (some (p, h))) :
    IsLongestRegistered pathToHandler w p ∧ pathToHandler[p]? = some h := by
  rw [findHandler_eq_search] at hfind
  by_cases hw : w = []
  · rw [if_pos hw] at hfind
    cases fuel <;> cases hfind
  · rw [if_neg hw] at hfind
    obtain ⟨hchain, hp, hmax⟩ := Descent.search_eq_found length_nextPath hfind
    refine ⟨⟨(onChain_iff hw p).mp hchain, mem_of_getElem? hp, fun q hq hmem => ?_⟩, hp⟩
    exact hmax q ((onChain_iff hw q).mpr hq) (by simpa using hmem)

theorem findHandler_missing {fuel : ℕ} {w : Bytes}
    (hfind : findHandler pathToHandler fuel w = some none) :
    ∀ q, IsCandidate w q → q ∉ pathToHandler := by
  intro q hq
  rw [findHandler_eq_search] at hfind
  by_cases hw : w = []
  · subst hw
    obtain ⟨hne, rfl | ⟨rest, hrest⟩ | ⟨-, rest, hrest⟩⟩ := hq
    · exact absurd rfl hne
    · simp at hrest
    · cases hrest
  · rw [if_neg hw] at hfind
    have hnone := Descent.search_eq_missing hfind q ((onChain_iff hw q).mpr hq)
    simpa using hnone

/-! ### The path the selection starts from -/

/-- `value.substr(value.find("/", 8))`: the suffix from the first slash at
index 8 or later. -/
def IsRefererPath (value w : Bytes) : Prop :=
  ∃ pos, 8 ≤ pos ∧ value[pos]? = some (ascii '/') ∧
    (∀ j, 8 ≤ j → j < pos → value[j]? ≠ some (ascii '/')) ∧ w = value.drop pos

/-- The URI, or what the last `Referer` header says instead. -/
def IsStart (request : Request) (w : Bytes) : Prop :=
  ((∀ pair ∈ request.headers, pair.1 ≠ bytes "Referer") ∧ w = request.uri) ∨
    ∃ before value after, request.headers = before ++ (bytes "Referer", value) :: after ∧
      (∀ pair ∈ after, pair.1 ≠ bytes "Referer") ∧ IsRefererPath value w

/-- Every `Referer` header has a slash at index 8 or later. -/
def ReferersHavePath (request : Request) : Prop :=
  ∀ pair ∈ request.headers, pair.1 = bytes "Referer" →
    ∃ pos, 8 ≤ pos ∧ pair.2[pos]? = some (ascii '/')

theorem refererPath_eq_some {value w : Bytes} :
    refererPath value = some w ↔ IsRefererPath value w := by
  unfold refererPath
  rw [Option.bind_eq_some_iff]
  constructor
  · rintro ⟨pos, hpos, hw⟩
    obtain ⟨hle, hslash, hmin⟩ := Bytes.findFrom_eq_some.mp hpos
    obtain ⟨hlt, -⟩ := List.getElem?_eq_some_iff.mp hslash
    rw [Bytes.substr, if_pos hlt.le] at hw
    exact ⟨pos, hle, hslash, hmin, (Option.some_inj.mp hw).symm⟩
  · rintro ⟨pos, hle, hslash, hmin, rfl⟩
    obtain ⟨hlt, -⟩ := List.getElem?_eq_some_iff.mp hslash
    exact ⟨pos, Bytes.findFrom_eq_some.mpr ⟨hle, hslash, hmin⟩, by rw [Bytes.substr, if_pos hlt.le]⟩

theorem refererPath_isSome {value : Bytes} {pos : ℕ} (hle : 8 ≤ pos)
    (hslash : value[pos]? = some (ascii '/')) : ∃ w, refererPath value = some w := by
  classical
  have hex : ∃ pos, 8 ≤ pos ∧ value[pos]? = some (ascii '/') := ⟨pos, hle, hslash⟩
  refine ⟨_, refererPath_eq_some.mpr ⟨Nat.find hex, (Nat.find_spec hex).1, (Nat.find_spec hex).2,
    fun j hj hlt hsj => Nat.find_min hex hlt ⟨hj, hsj⟩, rfl⟩⟩

theorem foldlM_concat (headers : Headers) (pair : Bytes × Bytes) (path : Bytes) :
    (headers ++ [pair]).foldlM headerPath path =
      (headers.foldlM headerPath path).bind fun v => headerPath v pair := by
  rw [List.foldlM_append]
  simp

/-- The loop over the headers throws unless each of them has its path. -/
theorem foldlM_isSome (headers : Headers) (path : Bytes) :
    (∃ w, headers.foldlM headerPath path = some w) ↔
      ∀ pair ∈ headers, pair.1 = bytes "Referer" →
        ∃ pos, 8 ≤ pos ∧ pair.2[pos]? = some (ascii '/') := by
  induction headers using List.reverseRecOn with
  | nil => simp
  | append_singleton headers pair ih =>
    have hpair : (∀ v, ∃ w, headerPath v pair = some w) ↔ (pair.1 = bytes "Referer" →
        ∃ pos, 8 ≤ pos ∧ pair.2[pos]? = some (ascii '/')) := by
      by_cases hname : pair.1 = bytes "Referer"
      · simp only [headerPath, hname, if_true, forall_const]
        constructor
        · rintro ⟨w, hw⟩
          obtain ⟨pos, hle, hslash, -⟩ := refererPath_eq_some.mp hw
          exact ⟨pos, hle, hslash⟩
        · rintro ⟨pos, hle, hslash⟩
          exact refererPath_isSome hle hslash
      · simp [headerPath, hname]
    rw [foldlM_concat, List.forall_mem_append, ← ih, List.forall_mem_singleton, ← hpair]
    constructor
    · rintro ⟨w, hw⟩
      obtain ⟨v, hv, hstep⟩ := Option.bind_eq_some_iff.mp hw
      -- whether a pass throws does not depend on the path so far
      refine ⟨⟨v, hv⟩, fun v' => ?_⟩
      by_cases hname : pair.1 = bytes "Referer"
      · rw [headerPath, if_pos hname] at hstep ⊢
        exact ⟨w, hstep⟩
      · exact ⟨v', by rw [headerPath, if_neg hname]⟩
    · rintro ⟨⟨v, hv⟩, hstep⟩
      obtain ⟨w, hw⟩ := hstep v
      exact ⟨w, by rw [hv, Option.bind_some, hw]⟩

/-- The last `Referer` header decides. -/
theorem foldlM_start (headers : Headers) (path w : Bytes) :
    headers.foldlM headerPath path = some w →
      ((∀ pair ∈ headers, pair.1 ≠ bytes "Referer") ∧ w = path) ∨
        ∃ before value after, headers = before ++ (bytes "Referer", value) :: after ∧
          (∀ pair ∈ after, pair.1 ≠ bytes "Referer") ∧ IsRefererPath value w := by
  induction headers using List.reverseRecOn generalizing w with
  | nil =>
    intro h
    exact .inl ⟨by simp, (Option.some_inj.mp h).symm⟩
  | append_singleton headers pair ih =>
    intro h
    rw [foldlM_concat] at h
    obtain ⟨v, hv, hstep⟩ := Option.bind_eq_some_iff.mp h
    obtain ⟨name, value⟩ := pair
    -- a `Referer` at the end overrides what came before
    by_cases hname : name = bytes "Referer"
    · subst hname
      rw [headerPath, if_pos rfl] at hstep
      exact .inr ⟨headers, value, [], rfl, by simp, refererPath_eq_some.mp hstep⟩
    · rw [headerPath, if_neg hname] at hstep
      obtain rfl := Option.some_inj.mp hstep
      have hlast : ∀ pair ∈ [(name, value)], pair.1 ≠ bytes "Referer" := by simpa using hname
      rcases ih v hv with ⟨hnone, rfl⟩ | ⟨before, value', after, rfl, hafter, hpath⟩
      · exact .inl ⟨List.forall_mem_append.mpr ⟨hnone, hlast⟩, rfl⟩
      · exact .inr ⟨before, value', after ++ [(name, value)], by simp,
          List.forall_mem_append.mpr ⟨hafter, hlast⟩, hpath⟩

theorem handlerUriPrefix_isSome {request : Request} :
    (∃ w, handlerUriPrefix request = some w) ↔ ReferersHavePath request :=
  foldlM_isSome request.headers request.uri

theorem isStart_of_handlerUriPrefix {request : Request} {w : Bytes}
    (h : handlerUriPrefix request = some w) : IsStart request w :=
  foldlM_start request.headers request.uri w h

/-- **What the selection comes to**: it throws or finds the handler of the
longest registered candidate, or the default one. -/
theorem select_cases (pathToHandler : HandlerMap H) (request : Request) :
    (¬ReferersHavePath request ∧ select pathToHandler request = .throws) ∨
    ∃ w, ReferersHavePath request ∧ handlerUriPrefix request = some w ∧
      ((∃ path h, IsLongestRegistered pathToHandler w path ∧ pathToHandler[path]? = some h ∧
          select pathToHandler request = .handler path h) ∨
        (∀ q, IsCandidate w q → q ∉ pathToHandler) ∧
          ((∃ h, pathToHandler[defaultString]? = some h ∧
              select pathToHandler request = .handler defaultString h) ∨
            (defaultString ∉ pathToHandler ∧ select pathToHandler request = .throws))) := by
  unfold select
  rcases hw : handlerUriPrefix request with _ | w
  · refine .inl ⟨fun href => ?_, rfl⟩
    obtain ⟨w, hw'⟩ := handlerUriPrefix_isSome.mpr href
    rw [hw] at hw'
    cases hw'
  · refine .inr ⟨w, handlerUriPrefix_isSome.mp ⟨w, hw⟩, rfl, ?_⟩
    obtain ⟨r, hr⟩ := findHandler_total pathToHandler (w.length + 2) w le_rfl
    simp only [hr]
    rcases r with _ | ⟨path, h⟩
    · refine .inr ⟨findHandler_missing hr, ?_⟩
      rcases hdefault : pathToHandler[defaultString]? with _ | h
      · exact .inr ⟨by simpa using hdefault, rfl⟩
      · exact .inl ⟨h, rfl, rfl⟩
    · obtain ⟨hlongest, hpath⟩ := findHandler_found hr
      exact .inl ⟨path, h, hlongest, hpath, rfl⟩

/-- The selection succeeds when every `Referer` has its path and there is
something registered for it or a default. -/
def Selects (pathToHandler : HandlerMap H) (request : Request) : Prop :=
  ReferersHavePath request ∧ ∀ w, handlerUriPrefix request = some w →
    defaultString ∈ pathToHandler ∨ ∃ q, IsCandidate w q ∧ q ∈ pathToHandler

theorem select_of_selects {request : Request} (h : Selects pathToHandler request) :
    ∃ path h, select pathToHandler request = .handler path h := by
  rcases select_cases pathToHandler request with
    ⟨href, -⟩ | ⟨w, -, hw, ⟨path, h, -, -, hselect⟩ | ⟨hmissing, hdefault⟩⟩
  · exact absurd h.1 href
  · exact ⟨path, h, hselect⟩
  · rcases hdefault with ⟨h, -, hselect⟩ | ⟨hdefault, -⟩
    · exact ⟨defaultString, h, hselect⟩
    · rcases h.2 w hw with hmem | ⟨q, hq, hmem⟩
      · exact absurd hmem hdefault
      · exact absurd hmem (hmissing q hq)

theorem select_of_not_selects {request : Request} (h : ¬Selects pathToHandler request) :
    select pathToHandler request = .throws := by
  rcases select_cases pathToHandler request with
    ⟨-, hselect⟩ | ⟨w, href, hw, ⟨path, -, hlongest, -⟩ | ⟨-, hdefault⟩⟩
  · exact hselect
  · refine absurd ⟨href, fun w' hw' => .inr ?_⟩ h
    obtain rfl : w = w' := Option.some_inj.mp (hw.symm.trans hw')
    exact ⟨path, hlongest.1, hlongest.2.1⟩
  · rcases hdefault with ⟨h', hdefault, -⟩ | ⟨-, hselect⟩
    · exact absurd ⟨href, fun _ _ => .inl (mem_of_getElem? hdefault)⟩ h
    · exact hselect

theorem IsCandidate.isPrefix {w p : Bytes} (h : IsCandidate w p) : p <+: w := by
  obtain ⟨-, rfl | ⟨rest, rfl⟩ | ⟨rfl, rest, rfl⟩⟩ := h
  · exact List.prefix_rfl
  · exact List.prefix_append _ _
  · exact ⟨rest, rfl⟩

theorem IsLongestRegistered.unique {w p q : Bytes} (hp : IsLongestRegistered pathToHandler w p)
    (hq : IsLongestRegistered pathToHandler w q) : p = q := by
  obtain ⟨hpw, hpmem, hpmax⟩ := hp
  obtain ⟨hqw, hqmem, hqmax⟩ := hq
  exact List.prefix_of_prefix_length_le hpw.isPrefix hqw.isPrefix (hqmax p hpw hpmem)
    |>.eq_of_length (le_antisymm (hqmax p hpw hpmem) (hpmax q hqw hqmem))

theorem handlerUriPrefix_of_isStart {request : Request} {w : Bytes}
    (href : ReferersHavePath request) (h : IsStart request w) :
    handlerUriPrefix request = some w := by
  -- the other headers leave the path alone
  have hkeep : ∀ (headers : Headers) path, (∀ pair ∈ headers, pair.1 ≠ bytes "Referer") →
      headers.foldlM headerPath path = some path := by
    intro headers path hnone
    induction headers with
    | nil => rfl
    | cons pair headers ih =>
      rw [List.foldlM_cons, headerPath, if_neg (hnone pair List.mem_cons_self)]
      exact ih fun p hp => hnone p (List.mem_cons_of_mem _ hp)
  unfold handlerUriPrefix
  rcases h with ⟨hnone, rfl⟩ | ⟨before, value, after, hheaders, hafter, hpath⟩
  · exact hkeep _ _ hnone
  · have hbefore : ∃ v, before.foldlM headerPath request.uri = some v :=
      (foldlM_isSome before request.uri).mpr fun pair hpair =>
        href pair (by rw [hheaders]; exact List.mem_append_left _ hpair)
    obtain ⟨v, hv⟩ := hbefore
    have hstep : headerPath v (bytes "Referer", value) = some w := by
      rw [headerPath, if_pos rfl]
      exact refererPath_eq_some.mpr hpath
    rw [hheaders, List.foldlM_append, hv]
    show (headerPath v (bytes "Referer", value)).bind _ = _
    rw [hstep]
    exact hkeep after w hafter

/-- The handler a request belongs to, and the path it is registered at. -/
def Routed (pathToHandler : HandlerMap H) (request : Request) (path : Bytes) (h : H) : Prop :=
  ReferersHavePath request ∧ pathToHandler[path]? = some h ∧ ∃ w, IsStart request w ∧
    (IsLongestRegistered pathToHandler w path ∨
      path = defaultString ∧ ∀ q, IsCandidate w q → q ∉ pathToHandler)

theorem select_eq_handler_iff {request : Request} {path : Bytes} {h : H} :
    select pathToHandler request = .handler path h ↔ Routed pathToHandler request path h := by
  constructor
  · intro hselect
    rcases select_cases pathToHandler request with
      ⟨-, hthrows⟩ | ⟨w, href, hw, ⟨path', h', hlongest, hpath, hfound⟩ | ⟨hmissing, hcase⟩⟩
    · rw [hselect] at hthrows
      cases hthrows
    · rw [hselect] at hfound
      cases hfound
      exact ⟨href, hpath, w, isStart_of_handlerUriPrefix hw, .inl hlongest⟩
    · rcases hcase with ⟨h', hpath, hdefault⟩ | ⟨-, hthrows⟩
      · rw [hselect] at hdefault
        cases hdefault
        exact ⟨href, hpath, w, isStart_of_handlerUriPrefix hw, .inr ⟨rfl, hmissing⟩⟩
      · rw [hselect] at hthrows
        cases hthrows
  · rintro ⟨href, hpath, w, hstart, hcase⟩
    have hw := handlerUriPrefix_of_isStart href hstart
    rcases select_cases pathToHandler request with
      ⟨hno, -⟩ | ⟨w', -, hw', ⟨path', h', hlongest', hpath', hfound⟩ | ⟨hmissing, hcase'⟩⟩
    · exact absurd href hno
    · obtain rfl : w = w' := Option.some_inj.mp (hw.symm.trans hw')
      rcases hcase with hlongest | ⟨-, hmissing⟩
      · obtain rfl := hlongest.unique hlongest'
        obtain rfl : h = h' := Option.some_inj.mp (hpath.symm.trans hpath')
        exact hfound
      · exact absurd hlongest'.2.1 (hmissing path' hlongest'.1)
    · obtain rfl : w = w' := Option.some_inj.mp (hw.symm.trans hw')
      rcases hcase with hlongest | ⟨rfl, -⟩
      · exact absurd hlongest.2.1 (hmissing path hlongest.1)
      · rcases hcase' with ⟨h', hpath', hfound⟩ | ⟨hno, -⟩
        · obtain rfl : h = h' := Option.some_inj.mp (hpath.symm.trans hpath')
          exact hfound
        · exact absurd (mem_of_getElem? hpath) hno

/-! ### What `handle_read` calls -/

variable (handleRequest : HandleRequest H) (garbage : ResponseCode) (server : Server H)

theorem handled_handleRead_of_select {received path : Bytes} {h : H}
    (hselect : select server.pathToHandler
      (Request.parseWith received (some server.serverStatus)) = .handler path h) :
    handled (handleRead handleRequest garbage server false received).events =
      [(path, h, Request.parseWith received (some server.serverStatus))] := by
  unfold handleRead
  simp only [Bool.false_eq_true, if_false, hselect]
  rcases handleRequest h _ _ <;> rfl

theorem handled_handleRead_of_throws {received : Bytes}
    (hselect : select server.pathToHandler
      (Request.parseWith received (some server.serverStatus)) = .throws) :
    handled (handleRead handleRequest garbage server false received).events = [] := by
  unfold handleRead
  simp [hselect, handled]

/-- The call of a handler that returns. -/
theorem handleRead_of_returned {received path : Bytes} {h h' : H} {status : Status}
    {response : Response}
    (hselect : select server.pathToHandler
      (Request.parseWith received (some server.serverStatus)) = .handler path h)
    (hout : handleRequest h (Request.parseWith received (some server.serverStatus))
      (.fresh garbage) = .returned status response h') :
    handleRead handleRequest garbage server false received =
      { events := [
          .handle path h (Request.parseWith received (some server.serverStatus)),
          .write response.toString]
        server := {
          pathToHandler := server.pathToHandler.insert path h'
          serverStatus := server.serverStatus.updateStatus
            (Request.parseWith received (some server.serverStatus)).uri
            response.getResponseCode }
        ending := .returned true } := by
  simp [handleRead, hselect, hout]

/-- **Routing**: the loop ends from every string, and `handle_read` calls
exactly one handler, the one registered for the longest candidate path of the
request, or else the default one. -/
theorem handleRead_selects :
    (∀ w fuel, w.length + 2 ≤ fuel →
      ∃ r, findHandler server.pathToHandler fuel w = some r) ∧
    ∀ received : Bytes, defaultString ∈ server.pathToHandler →
      ReferersHavePath (Request.parseWith received (some server.serverStatus)) →
      ∃ w path h, IsStart (Request.parseWith received (some server.serverStatus)) w ∧
        handled (handleRead handleRequest garbage server false received).events =
          [(path, h, Request.parseWith received (some server.serverStatus))] ∧
        server.pathToHandler[path]? = some h ∧
        (IsLongestRegistered server.pathToHandler w path ∨
          path = defaultString ∧ ∀ q, IsCandidate w q → q ∉ server.pathToHandler) := by
  refine ⟨fun w fuel hfuel => findHandler_total server.pathToHandler fuel w hfuel,
    fun received hdefault href => ?_⟩
  rcases select_cases server.pathToHandler
      (Request.parseWith received (some server.serverStatus)) with
    ⟨hno, -⟩ | ⟨w, -, hw, ⟨path, h, hlongest, hpath, hselect⟩ | ⟨hmissing, hcase⟩⟩
  · exact absurd href hno
  · exact ⟨w, path, h, isStart_of_handlerUriPrefix hw,
      handled_handleRead_of_select handleRequest garbage server hselect, hpath, .inl hlongest⟩
  · rcases hcase with ⟨h, hpath, hselect⟩ | ⟨hno, -⟩
    · exact ⟨w, defaultString, h, isStart_of_handlerUriPrefix hw,
        handled_handleRead_of_select handleRequest garbage server hselect, hpath,
        .inr ⟨rfl, hmissing⟩⟩
    · exact absurd hdefault hno

end Selection

/-- Handlers below each other, and a default one. -/
def nestedHandlers : HandlerMap ℕ :=
  Std.ExtTreeMap.ofList [(defaultString, 0), (bytes "/a", 1), (bytes "/a/b", 2)]

theorem handleRead_selects_nested :
    ∃ w path h,
      IsStart (Request.parseWith (bytes "GET /x HTTP/1.1\r\nReferer: http://h:80/a/b/c\r\n\r\n")
        (some .new)) w ∧
      handled (handleRead (fun h _ response => .returned .ok response h) .ok
        ⟨nestedHandlers, .new⟩ false
        (bytes "GET /x HTTP/1.1\r\nReferer: http://h:80/a/b/c\r\n\r\n")).events =
          [(path, h, Request.parseWith
            (bytes "GET /x HTTP/1.1\r\nReferer: http://h:80/a/b/c\r\n\r\n") (some .new))] ∧
      nestedHandlers[path]? = some h ∧
      (IsLongestRegistered nestedHandlers w path ∨
        path = defaultString ∧ ∀ q, IsCandidate w q → q ∉ nestedHandlers) := by
  have hheaders : (Request.parseWith
      (bytes "GET /x HTTP/1.1\r\nReferer: http://h:80/a/b/c\r\n\r\n") (some .new)).headers =
        [(bytes "Referer", bytes "http://h:80/a/b/c")] := by decide +kernel
  refine (handleRead_selects (fun h _ response => .returned .ok response h) .ok
    ⟨nestedHandlers, .new⟩).2 _ (by decide +kernel) ?_
  intro pair hpair _
  rw [hheaders] at hpair
  obtain rfl := List.mem_singleton.mp hpair
  exact ⟨11, by decide, by decide⟩

end Connection
