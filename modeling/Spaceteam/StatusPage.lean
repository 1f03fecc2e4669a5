/-
The markup of the status page.

`ToHtml` puts the counted URIs into the page as they are, and a URI may hold
any byte but blanks and control characters.  `MarkupFixed` says that the `<`,
`>` and `"` of the page do not depend on the text of the URIs: other URIs in
their place, in the same order, leave them as they were.

* `ServerStatus.markup_rename` — what a replacement does to the page;
* `ServerStatus.markupFixed_iff` — no page with a URI on it is so.
-/
import Spaceteam.RequestFields
import Spaceteam.RequestRoundTrip
import Spaceteam.StatusAccounting

namespace ServerStatus

def markupBytes : Bytes := [ascii '<', ascii '>', ascii '"']

/-- The characters of a page that are markup, in order. -/
def markup (page : Bytes) : Bytes := page.filter (· ∈ markupBytes)

@[simp] theorem markup_append (p q : Bytes) : markup (p ++ q) = markup p ++ markup q :=
  List.filter_append ..

/-- A URI that `Request::Parse` takes from the bytes of a client. -/
def ClientUri (uri : Bytes) : Prop := ∃ text, (Request.parse text).uri = uri

/-- The history with other URIs in the place of its own. -/
def renameUris (f : Bytes → Bytes) (calls : List StatusCall) : List StatusCall :=
  calls.map fun c => (f c.1, c.2)

/-- Calls keep sharing a URI or not, and the map order stays. -/
def KeepsOrder (f : Bytes → Bytes) (calls : List StatusCall) : Prop :=
  ∀ c ∈ calls, ∀ c' ∈ calls, compare (f c.1) (f c'.1) = compare c.1 c'.1

/-- The markup does not depend on the text of the URIs. -/
def MarkupFixed (calls : List StatusCall) : Prop :=
  ∀ f, KeepsOrder f calls → (∀ c ∈ calls, ClientUri (f c.1)) →
    markup (new.record (renameUris f calls)).toHtml = markup (new.record calls).toHtml

variable {f : Bytes → Bytes} {calls : List StatusCall}

theorem KeepsOrder.injOn (h : KeepsOrder f calls) {c c' : StatusCall} (hc : c ∈ calls)
    (hc' : c' ∈ calls) (heq : f c.1 = f c'.1) : c.1 = c'.1 := by
  have hcompare := h c hc c' hc'
  rw [heq, Std.ReflOrd.compare_self] at hcompare
  exact Std.LawfulEqOrd.compare_eq_iff_eq.mp hcompare.symm

/-- A URI of the history is counted under its new name as often as before. -/
theorem KeepsOrder.count_key (h : KeepsOrder f calls) {c : StatusCall} (hc : c ∈ calls)
    (code : ℤ) :
    ((renameUris f calls).map key).count (f c.1, code) = (calls.map key).count (c.1, code) := by
  have hkeys : (renameUris f calls).map key = calls.map fun c => (f c.1, (key c).2) := by
    rw [renameUris, List.map_map]
    rfl
  rw [hkeys, List.count_eq_countP, List.count_eq_countP, List.countP_map, List.countP_map]
  refine List.countP_congr fun c' hc' => ?_
  simp only [Function.comp_apply, key, beq_iff_eq, Prod.mk.injEq]
  constructor
  · rintro ⟨huri, hcode⟩
    exact ⟨h.injOn hc' hc huri, hcode⟩
  · rintro ⟨huri, hcode⟩
    exact ⟨by rw [huri], hcode⟩

/-- A URI with a row is one of the history. -/
theorem Tallies.exists_call {s : ServerStatus} (h : Tallies s calls) {uri : Bytes}
    {row : Std.ExtTreeMap ℤ UInt32} (hrow : s.serverStatus[uri]? = some row) :
    ∃ c ∈ calls, c.1 = uri := by
  obtain ⟨hne, hlookup⟩ := h.filled.getElem?_eq_some.mp hrow
  by_contra hno
  refine hne (Std.ExtTreeMap.ext_getElem? fun code => ?_)
  have hentry : s.entry uri code = none := by
    rw [h.entry, if_pos]
    rw [List.count_eq_zero]
    intro hmem
    obtain ⟨c, hc, hkey⟩ := List.mem_map.mp hmem
    exact hno ⟨c, hc, congrArg Prod.fst hkey⟩
  rw [← hlookup, Std.ExtTreeMap.getElem?_empty]
  exact hentry

/-- **The rows after a replacement**: the same, in the same order, under the
new URIs. -/
theorem rows_rename (h : KeepsOrder f calls) :
    (new.record (renameUris f calls)).rows =
      (new.record calls).rows.map fun r => (f r.1, r.2) := by
  have hs : Tallies (new.record calls) calls := Tallies.new.record calls
  have hs' : Tallies (new.record (renameUris f calls)) (renameUris f calls) :=
    Tallies.new.record _
  have hentry : ∀ c ∈ calls, ∀ code, (new.record (renameUris f calls)).entry (f c.1) code =
      (new.record calls).entry c.1 code := by
    intro c hc code
    rw [hs'.entry, hs.entry, h.count_key hc]
  have hrow : ∀ c ∈ calls, ∀ row : Std.ExtTreeMap ℤ UInt32,
      (new.record (renameUris f calls)).serverStatus[f c.1]? = some row ↔
        (new.record calls).serverStatus[c.1]? = some row := by
    intro c hc row
    rw [hs'.filled.getElem?_eq_some, hs.filled.getElem?_eq_some]
    exact and_congr_right' (forall_congr' fun code => by
      rw [← ServerStatus.entry, ← ServerStatus.entry, hentry c hc])
  -- the rows are sorted by URI, and the new ones come in the same order
  have htoList : (new.record (renameUris f calls)).serverStatus.toList =
      (new.record calls).serverStatus.toList.map fun e => (f e.1, e.2) := by
    refine NestedMap.toList_rename (fun a b ha hb => ?_) fun a' row => ⟨fun hget => ?_, ?_⟩
    · obtain ⟨row, hrow⟩ :=
        Option.isSome_iff_exists.mp (Std.ExtTreeMap.mem_iff_isSome_getElem?.mp ha)
      obtain ⟨row', hrow'⟩ :=
        Option.isSome_iff_exists.mp (Std.ExtTreeMap.mem_iff_isSome_getElem?.mp hb)
      obtain ⟨c, hc, rfl⟩ := hs.exists_call hrow
      obtain ⟨c', hc', rfl⟩ := hs.exists_call hrow'
      exact h c hc c' hc'
    · obtain ⟨c', hc', rfl⟩ := hs'.exists_call hget
      obtain ⟨c, hc, rfl⟩ := List.mem_map.mp hc'
      exact ⟨c.1, rfl, (hrow c hc row).mp hget⟩
    · rintro ⟨a, rfl, hget⟩
      obtain ⟨c, hc, rfl⟩ := hs.exists_call hget
      exact (hrow c hc row).mpr hget
  rw [rows, rows, htoList, List.map_map, List.map_map]
  rfl

theorem toHtml_record (calls : List StatusCall) :
    (new.record calls).toHtml =
      bytes "<!doctype html><html><body><h1>Server Status</h1><h3>Handler Info</h3></br>"
        ++ bytes "<h2>Total Requests: " ++ decimal (new.record calls).numRequests.toNat
        ++ bytes "</h2>" ++ (new.record calls).rows.flatMap htmlRow ++ bytes "</body></html>" :=
  toHtml_rows (record_handlerNameToPrefixes new calls)

theorem numRequests_rename (f : Bytes → Bytes) (calls : List StatusCall) :
    (new.record (renameUris f calls)).numRequests = (new.record calls).numRequests := by
  rw [(Tallies.new.record (renameUris f calls)).numRequests, (Tallies.new.record calls).numRequests]
  simp [renameUris]

theorem markup_flatMap_congr {α : Type*} {l : List α} {g g' : α → Bytes}
    (h : ∀ a ∈ l, markup (g a) = markup (g' a)) : markup (l.flatMap g) = markup (l.flatMap g') := by
  induction l with
  | nil => rfl
  | cons a l ih =>
    rw [List.flatMap_cons, List.flatMap_cons, markup_append, markup_append, h a List.mem_cons_self,
      ih fun b hb => h b (List.mem_cons_of_mem _ hb)]

/-- **What a replacement does to the page**: nothing, when every URI keeps the
markup that it holds itself. -/
theorem markup_rename (h : KeepsOrder f calls)
    (hmarkup : ∀ c ∈ calls, markup (f c.1) = markup c.1) :
    markup (new.record (renameUris f calls)).toHtml = markup (new.record calls).toHtml := by
  rw [toHtml_record, toHtml_record, numRequests_rename, rows_rename h, List.flatMap_map]
  have hrows : markup ((new.record calls).rows.flatMap fun r => htmlRow (f r.1, r.2)) =
      markup ((new.record calls).rows.flatMap htmlRow) := by
    refine markup_flatMap_congr fun r hr => ?_
    obtain ⟨⟨uri, row⟩, he, rfl⟩ := List.mem_map.mp hr
    obtain ⟨c, hc, rfl⟩ := (Tallies.new.record calls).exists_call
      (Std.ExtTreeMap.mem_toList_iff_getElem?_eq_some.mp he)
    simp only [htmlRow, markup_append, hmarkup c hc]
  simp only [markup_append, hrows]

/-! ### URIs with markup in them -/

theorem compare_append_left (p u v : Bytes) : compare (p ++ u) (p ++ v) = compare u v := by
  induction p with
  | nil => rfl
  | cons b p ih =>
    rw [List.cons_append, List.cons_append, List.compare_cons_cons, Std.ReflOrd.compare_self, ih]
    rfl

/-- A slash and markup in front make one client URI of another. -/
theorem ClientUri.behind {uri : Bytes} (h : ClientUri uri) (n : ℕ) :
    ClientUri (ascii '/' :: (List.replicate n (ascii '<') ++ uri)) := by
  obtain ⟨text, rfl⟩ := h
  have hpath : ∀ b ∈ List.replicate n (ascii '<') ++ (Request.parse text).uri, UriByte b := by
    intro b hb
    rcases List.mem_append.mp hb with hb | hb
    · rw [List.eq_of_mem_replicate hb]
      decide
    · exact (Request.spelled_parse text).uriBytes b hb
  let m : Message :=
    { method := [ascii 'G'], path := _, major := [ascii '1'], minor := [ascii '1'], headers := []
      body := [], method_ne_nil := by decide, method_token := by decide +kernel
      path_uri := hpath, major_ne_nil := by decide, major_digit := by decide +kernel
      minor_ne_nil := by decide, minor_digit := by decide +kernel }
  exact ⟨m.serialize, (Request.parse_serialize m).2.2.1⟩

theorem count_markup (page : Bytes) : (markup page).count (ascii '<') = page.count (ascii '<') := by
  rw [markup, List.count_filter (by decide)]

/-- A row shows the markup of its URI. -/
theorem le_count_toHtml {calls : List StatusCall} {c : StatusCall} (hc : c ∈ calls) :
    c.1.count (ascii '<') ≤ (new.record calls).toHtml.count (ascii '<') := by
  have hs : Tallies (new.record calls) calls := Tallies.new.record calls
  obtain ⟨n, hn⟩ := (hs.entry_isSome (key c).1 (key c).2).mpr (List.mem_map.mpr ⟨c, hc, rfl⟩)
  obtain ⟨row, hrow, -⟩ := ((groups_rows hs.filled).entries _ _ _).mpr hn
  have hsub : c.1.Sublist (new.record calls).toHtml := by
    rw [toHtml_record]
    refine .trans ?_ (List.sublist_append_left ..)
    refine .trans ?_ (List.sublist_append_right ..)
    refine .trans ?_ (List.sublist_flatten_of_mem (List.mem_map.mpr ⟨_, hrow, rfl⟩))
    unfold htmlRow
    refine .trans ?_ (List.sublist_append_left ..)
    refine .trans ?_ (List.sublist_append_left ..)
    refine .trans ?_ (List.sublist_append_left ..)
    refine .trans ?_ (List.sublist_append_left ..)
    exact List.sublist_append_right ..
  exact hsub.count_le _

/-- **The markup depends on the URIs** of every history that has any: more `<`
can be brought in than there are.  A replacement that keeps the markup of each
URI, such as one among URIs without any, leaves that of the page. -/
theorem markupFixed_iff (calls : List StatusCall) (hclient : ∀ c ∈ calls, ClientUri c.1) :
    (MarkupFixed calls ↔ calls = []) ∧
      ∀ f, KeepsOrder f calls → (∀ c ∈ calls, markup (f c.1) = markup c.1) →
        markup (new.record (renameUris f calls)).toHtml = markup (new.record calls).toHtml := by
  refine ⟨⟨fun hfixed => ?_, ?_⟩, fun f => markup_rename⟩
  · by_contra hne
    obtain ⟨c, rest, rfl⟩ := List.exists_cons_of_ne_nil hne
    -- one `<` more than the page has, in front of every URI
    let n := (new.record (c :: rest)).toHtml.count (ascii '<') + 1
    let f : Bytes → Bytes := fun uri => ascii '/' :: (List.replicate n (ascii '<') ++ uri)
    have horder : KeepsOrder f (c :: rest) := by
      intro c _ c' _
      exact compare_append_left (ascii '/' :: List.replicate n (ascii '<')) c.1 c'.1
    have hsame := hfixed f horder fun c hc => (hclient c hc).behind n
    have hcount := congrArg (List.count (ascii '<')) hsame
    rw [count_markup, count_markup] at hcount
    have hle : (f c.1).count (ascii '<') ≤
        (new.record (renameUris f (c :: rest))).toHtml.count (ascii '<') :=
      le_count_toHtml (c := (f c.1, c.2)) List.mem_cons_self
    have hn : n ≤ (f c.1).count (ascii '<') := by
      simp only [f, List.count_cons, List.count_append, List.count_replicate_self]
      omega
    omega
  · rintro rfl f - -
    rfl

/-- Two URIs, one of them asked for twice. -/
def twoUris : List StatusCall := [(bytes "/a", .ok), (bytes "/b", .notFound), (bytes "/a", .ok)]

theorem markupFixed_iff_twoUris :
    ¬MarkupFixed twoUris ∧
      markup (new.record (renameUris (bytes "/x" ++ ·) twoUris)).toHtml =
        markup (new.record twoUris).toHtml := by
  have hclient : ∀ c ∈ twoUris, (Request.parse (bytes "GET " ++ c.1 ++ bytes " ")).uri = c.1 := by
    decide +kernel
  obtain ⟨hfixed, hkeeps⟩ := markupFixed_iff twoUris fun c hc => ⟨_, hclient c hc⟩
  refine ⟨fun h => ?_, hkeeps _ (fun c _ c' _ => compare_append_left _ _ _) (by decide +kernel)⟩
  cases hfixed.mp h

theorem not_markupFixed_angle :
    ¬∀ calls : List StatusCall, (∀ c ∈ calls, ClientUri c.1) → MarkupFixed calls := by
  intro h
  have hfixed : MarkupFixed [(bytes "/a", .ok)] := by
    refine h _ fun c hc => ⟨bytes "GET /a ", ?_⟩
    rw [List.mem_singleton.mp hc]
    decide +kernel
  have hsame := hfixed (fun _ => bytes "/<") ?_ fun c _ => ⟨bytes "GET /< ", by decide +kernel⟩
  · revert hsame
    decide +kernel
  · intro c hc c' hc'
    rw [List.mem_singleton.mp hc, List.mem_singleton.mp hc']
    decide +kernel

end ServerStatus
