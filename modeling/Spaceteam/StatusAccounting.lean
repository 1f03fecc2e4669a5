/-
What the counters of a server say about the calls it has made.

`UpdateStatus` is called once for every request answered.  `Tallies` relates a
`ServerStatus` to the calls behind it: each (URI, code) has an entry when it
was counted, holding how often modulo 2^32, and `num_requests_` is the number
of calls.

* `ServerStatus.Tallies.updateStatus` — one more call;
* `ServerStatus.Tallies.serverStatus_eq` — the order of the calls is not seen;
* `ServerStatus.accounting` — the entries, their sum and the two printers.
-/
import Mathlib.Algebra.BigOperators.Group.List.Lemmas
import Mathlib.Data.List.Dedup
import Spaceteam.NestedMap
import Spaceteam.ServerStatus

/-- The arguments of a call of `UpdateStatus`. -/
abbrev StatusCall := Bytes × ResponseCode

namespace ServerStatus

/-- The entry a call counts under. -/
def key (c : StatusCall) : Bytes × ℤ := (c.1, responseCodeToString c.2)

/-- Calls of `UpdateStatus` one after another. -/
def record (s : ServerStatus) (calls : List StatusCall) : ServerStatus :=
  calls.foldl (fun s c => s.updateStatus c.1 c.2) s

def entry (s : ServerStatus) (uri : Bytes) (code : ℤ) : Option UInt32 :=
  NestedMap.lookup s.serverStatus uri code

@[simp] theorem record_nil (s : ServerStatus) : s.record [] = s := rfl

@[simp] theorem record_cons (s : ServerStatus) (c : StatusCall) (calls : List StatusCall) :
    s.record (c :: calls) = (s.updateStatus c.1 c.2).record calls := rfl

/-- **What one call does.** -/
theorem updateStatus_eq (s : ServerStatus) (c : StatusCall) :
    s.updateStatus c.1 c.2 =
      { s.assign (key c).1 (key c).2 (s.count (key c).1 (key c).2 + 1) with
        numRequests := s.numRequests + 1 } := by
  unfold updateStatus count
  rcases h : (s.serverStatus[c.1]?).bind (·[responseCodeToString c.2]?) with _ | n
  · simp only [key, h, Option.getD_none, UInt32.zero_add]
    rfl
  · simp only [key, h, Option.getD_some]
    rfl

theorem updateStatus_serverStatus (s : ServerStatus) (c : StatusCall) :
    (s.updateStatus c.1 c.2).serverStatus =
      NestedMap.set s.serverStatus (key c).1 (key c).2 (s.count (key c).1 (key c).2 + 1) := by
  rw [updateStatus_eq]
  rfl

theorem updateStatus_numRequests (s : ServerStatus) (c : StatusCall) :
    (s.updateStatus c.1 c.2).numRequests = s.numRequests + 1 := by rw [updateStatus_eq]

theorem record_handlerNameToPrefixes (s : ServerStatus) (calls : List StatusCall) :
    (s.record calls).handlerNameToPrefixes = s.handlerNameToPrefixes := by
  induction calls generalizing s with
  | nil => rfl
  | cons c calls ih =>
    rw [record_cons, ih, updateStatus_eq]
    rfl

theorem count_eq_getD_entry (s : ServerStatus) (uri : Bytes) (code : ℤ) :
    s.count uri code = (s.entry uri code).getD 0 := rfl

/-- **What the table says about the calls.** -/
structure Tallies (s : ServerStatus) (calls : List StatusCall) : Prop where
  entry : ∀ uri code, s.entry uri code =
    if (calls.map key).count (uri, code) = 0 then none
    else some (UInt32.ofNat ((calls.map key).count (uri, code)))
  numRequests : s.numRequests = UInt32.ofNat calls.length
  filled : NestedMap.Filled s.serverStatus

namespace Tallies

variable {s s' : ServerStatus} {calls calls' : List StatusCall}

theorem new : Tallies ServerStatus.new [] where
  entry _ _ := NestedMap.lookup_empty _ _
  numRequests := rfl
  filled := NestedMap.filled_empty

theorem count (h : Tallies s calls) (uri : Bytes) (code : ℤ) :
    s.count uri code = UInt32.ofNat ((calls.map key).count (uri, code)) := by
  rw [count_eq_getD_entry, h.entry]
  split_ifs with hzero
  · rw [hzero]
    rfl
  · rfl

/-- One more call. -/
theorem updateStatus (h : Tallies s calls) (c : StatusCall) :
    Tallies (s.updateStatus c.1 c.2) (calls ++ [c]) where
  entry uri code := by
    unfold ServerStatus.entry
    rw [updateStatus_serverStatus, NestedMap.lookup_set, List.map_append, List.map_singleton,
      List.count_append, List.count_singleton]
    -- the entry of this call, or another one
    by_cases hkey : key c = (uri, code)
    · have hboth : (key c).1 = uri ∧ (key c).2 = code := Prod.ext_iff.mp hkey
      rw [if_pos hboth, hkey, h.count]
      simp [UInt32.ofNat_add]
    · have hboth : ¬((key c).1 = uri ∧ (key c).2 = code) := fun h => hkey (Prod.ext h.1 h.2)
      rw [if_neg hboth]
      have hentry := h.entry uri code
      unfold ServerStatus.entry at hentry
      simpa [hkey] using hentry
  numRequests := by
    rw [updateStatus_numRequests, h.numRequests, List.length_append]
    simp [UInt32.ofNat_add]
  filled := by
    rw [updateStatus_serverStatus]
    exact h.filled.set _ _ _

/-- Any number of calls more. -/
theorem record (h : Tallies s calls) (more : List StatusCall) :
    Tallies (s.record more) (calls ++ more) := by
  induction more generalizing s calls with
  | nil => simpa using h
  | cons c more ih => simpa using ih (h.updateStatus c)

theorem perm (h : Tallies s calls) (hperm : calls.Perm calls') : Tallies s calls' where
  entry uri code := by
    rw [← (hperm.map key).count_eq]
    exact h.entry uri code
  numRequests := by
    rw [← hperm.length_eq]
    exact h.numRequests
  filled := h.filled

/-- The order of the calls is not seen. -/
theorem serverStatus_eq (h : Tallies s calls) (h' : Tallies s' calls) :
    s.serverStatus = s'.serverStatus ∧ s.numRequests = s'.numRequests := by
  refine ⟨h.filled.ext h'.filled fun uri code => ?_, by rw [h.numRequests, h'.numRequests]⟩
  exact (h.entry uri code).trans (h'.entry uri code).symm

end Tallies

theorem record_perm {calls calls' : List StatusCall} (hperm : calls.Perm calls') :
    new.record calls' = new.record calls := by
  have h : Tallies (new.record calls') calls := (Tallies.new.record calls').perm hperm.symm
  obtain ⟨hstatus, hnum⟩ := h.serverStatus_eq (Tallies.new.record calls)
  have hinfo : (new.record calls').handlerNameToPrefixes =
      (new.record calls).handlerNameToPrefixes := by
    rw [record_handlerNameToPrefixes, record_handlerNameToPrefixes]
  generalize new.record calls' = s at *
  generalize new.record calls = s' at *
  cases s
  cases s'
  simp only [mk.injEq]
  exact ⟨hstatus, hinfo, hnum⟩

/-! ### The sum of the entries -/

/-- Every entry is a count of calls. -/
theorem Tallies.toNat_of_entry {s : ServerStatus} {calls : List StatusCall} (h : Tallies s calls)
    {uri : Bytes} {code : ℤ} {n : UInt32} (hn : s.entry uri code = some n) :
    n.toNat = (calls.map key).count (uri, code) % 2 ^ 32 := by
  rw [h.entry] at hn
  split_ifs at hn
  obtain rfl := Option.some.inj hn
  rfl

theorem Tallies.entry_isSome {s : ServerStatus} {calls : List StatusCall} (h : Tallies s calls)
    (uri : Bytes) (code : ℤ) :
    (∃ n, s.entry uri code = some n) ↔ (uri, code) ∈ calls.map key := by
  rw [h.entry, ← List.count_pos_iff]
  split_ifs with hzero
  · simp [hzero]
  · simp [Nat.pos_of_ne_zero hzero]

/-- **Conservation**: the entries add up to the number of calls. -/
theorem Tallies.sum_entries {s : ServerStatus} {calls : List StatusCall} (h : Tallies s calls) :
    ((NestedMap.entries s.serverStatus).map fun e => e.2.toNat).sum % 2 ^ 32 =
      calls.length % 2 ^ 32 := by
  -- the entries are those of the keys that were counted
  have hkeys : ((NestedMap.entries s.serverStatus).map Prod.fst).Perm (calls.map key).dedup := by
    refine (List.perm_ext_iff_of_nodup (NestedMap.nodup_keys_entries _)
      (List.nodup_dedup _)).mpr ?_
    rintro ⟨uri, code⟩
    rw [List.mem_dedup, ← h.entry_isSome]
    simp only [List.mem_map, Prod.exists, exists_and_right, exists_eq_right, NestedMap.mem_entries]
    rfl
  have hcounts : (NestedMap.entries s.serverStatus).map (fun e => e.2.toNat) =
      ((NestedMap.entries s.serverStatus).map Prod.fst).map
        fun p => (calls.map key).count p % 2 ^ 32 := by
    rw [List.map_map]
    refine List.map_congr_left ?_
    rintro ⟨⟨uri, code⟩, n⟩ he
    exact h.toNat_of_entry (NestedMap.mem_entries.mp he)
  have hsum : ((calls.map key).dedup.map fun p => (calls.map key).count p).sum = calls.length := by
    have hsame : (instBEqProd : BEq (Bytes × ℤ)) = instBEqOfDecidableEq :=
      lawful_beq_subsingleton _ _
    rw [hsame, List.sum_map_count_dedup_eq_length, List.length_map]
  rw [hcounts, (hkeys.map _).sum_eq, ← Function.comp_def (· % 2 ^ 32), ← List.map_map,
    ← List.sum_nat_mod, hsum]

/-! ### The printers -/

/-- What the loops of the two printers go through: the URIs, each with its
codes and counts. -/
def rows (s : ServerStatus) : List (Bytes × List (ℤ × UInt32)) :=
  s.serverStatus.toList.map fun e => (e.1, e.2.toList)

/-- The rows hold exactly the entries, once each, grouped by URI. -/
structure Groups (s : ServerStatus) (rows : List (Bytes × List (ℤ × UInt32))) : Prop where
  uris : (rows.map Prod.fst).Nodup
  codes : ∀ r ∈ rows, r.2 ≠ [] ∧ (r.2.map Prod.fst).Nodup
  entries : ∀ uri code n,
    (∃ row, (uri, row) ∈ rows ∧ (code, n) ∈ row) ↔ s.entry uri code = some n

def htmlRow (r : Bytes × List (ℤ × UInt32)) : Bytes :=
  bytes "<h5>Number of requests for \"" ++ r.1 ++ bytes "\"</h5>"
    ++ bytes "<ul style=\"list-style-type:none\">"
    ++ r.2.flatMap (fun f =>
        bytes "<li>" ++ decimal f.1.toNat ++ bytes ": " ++ decimal f.2.toNat ++ bytes "</li>")
    ++ bytes "</ul>"

def textRow (r : Bytes × List (ℤ × UInt32)) : Bytes :=
  bytes "Prefix: " ++ r.1 ++ bytes "\n"
    ++ r.2.flatMap fun f =>
        bytes "\t" ++ decimal f.1.toNat ++ bytes " " ++ decimal f.2.toNat ++ bytes "\n"

theorem toHtml_rows {s : ServerStatus} (h : s.handlerNameToPrefixes = ∅) :
    s.toHtml = bytes "<!doctype html><html><body><h1>Server Status</h1><h3>Handler Info</h3></br>"
      ++ bytes "<h2>Total Requests: " ++ decimal s.numRequests.toNat ++ bytes "</h2>"
      ++ s.rows.flatMap htmlRow ++ bytes "</body></html>" := by
  unfold toHtml rows htmlRow codeItems
  rw [h, List.flatMap_map]
  rfl

theorem toString_rows (s : ServerStatus) :
    s.toString = bytes "Total Requests: " ++ decimal s.numRequests.toNat ++ bytes "\n"
      ++ s.rows.flatMap textRow := by
  unfold toString rows textRow codeLines
  rw [List.flatMap_map]

theorem groups_rows {s : ServerStatus} (h : NestedMap.Filled s.serverStatus) :
    Groups s s.rows where
  uris := by
    rw [rows, List.map_map]
    exact (Std.ExtTreeMap.map_fst_toList_eq_keys (t := s.serverStatus)) ▸ s.serverStatus.nodup_keys
  codes r hr := by
    obtain ⟨⟨uri, row⟩, he, rfl⟩ := List.mem_map.mp hr
    refine ⟨?_, ?_⟩
    · rw [ne_eq, Std.ExtTreeMap.toList_eq_nil_iff]
      exact h uri row (Std.ExtTreeMap.mem_toList_iff_getElem?_eq_some.mp he)
    · rw [Std.ExtTreeMap.map_fst_toList_eq_keys]
      exact row.nodup_keys
  entries uri code n := by
    unfold entry
    rw [← NestedMap.mem_entries, NestedMap.entries, rows]
    simp only [List.mem_map, List.mem_flatMap, Prod.mk.injEq, Prod.exists]
    constructor
    · rintro ⟨row, ⟨uri', row', he, rfl, rfl⟩, hf⟩
      exact ⟨uri', row', he, code, n, hf, ⟨rfl, rfl⟩, rfl⟩
    · rintro ⟨uri', row', he, code', n', hf, ⟨rfl, rfl⟩, rfl⟩
      exact ⟨_, ⟨uri', row', he, rfl, rfl⟩, hf⟩

/-- **Status accounting.**  What the counters and the two pages say after any
sequence of calls. -/
theorem accounting (calls : List StatusCall) :
    (∀ uri code, (∃ n, (new.record calls).entry uri code = some n) ↔
      ∃ c ∈ calls, c.1 = uri ∧ responseCodeToString c.2 = code) ∧
    (∀ uri code n, (new.record calls).entry uri code = some n →
      n.toNat = calls.countP (fun c => c.1 = uri ∧ responseCodeToString c.2 = code) % 2 ^ 32) ∧
    (new.record calls).numRequests.toNat = calls.length % 2 ^ 32 ∧
    (new.record calls).numRequests.toNat =
      ((NestedMap.entries (new.record calls).serverStatus).map fun e => e.2.toNat).sum % 2 ^ 32 ∧
    (∀ calls', calls.Perm calls' → new.record calls' = new.record calls) ∧
    ∃ rows, Groups (new.record calls) rows ∧
      (new.record calls).toHtml =
        bytes "<!doctype html><html><body><h1>Server Status</h1><h3>Handler Info</h3></br>"
          ++ bytes "<h2>Total Requests: " ++ decimal (new.record calls).numRequests.toNat
          ++ bytes "</h2>" ++ rows.flatMap htmlRow ++ bytes "</body></html>" ∧
      (new.record calls).toString =
        bytes "Total Requests: " ++ decimal (new.record calls).numRequests.toNat ++ bytes "\n"
          ++ rows.flatMap textRow := by
  have h : Tallies (new.record calls) calls := Tallies.new.record calls
  have htotal : (new.record calls).numRequests.toNat = calls.length % 2 ^ 32 := by
    rw [h.numRequests]
    rfl
  refine ⟨fun uri code => ?_, fun uri code n hn => ?_, htotal, ?_, fun calls' hperm => ?_,
    (new.record calls).rows, groups_rows h.filled,
    toHtml_rows (record_handlerNameToPrefixes new calls), toString_rows _⟩
  · rw [h.entry_isSome]
    simp [key]
  · rw [h.toNat_of_entry hn, List.count_eq_countP, List.countP_map]
    congr 2
    ext c
    rw [Bool.eq_iff_iff]
    simp [key]
  · rw [htotal, h.sum_entries]
  · exact record_perm hperm

end ServerStatus
