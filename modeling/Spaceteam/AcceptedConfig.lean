/-
The configurations that are accepted.

A call that ends with true has looked at all statements, and none of them was
refused or faulty, so that the tables say what the statements declare.

* `Server.usable_iff` — when an accepted configuration can be served;
* `Server.loads_iff` — when the call ends with true or false at all;
* `Server.consistent_iff` — when an accepted configuration declares everything
  once and the two tables agree.
-/
import Spaceteam.ServerInfo

open RequestHandler Blocks

namespace Server

section Results

variable {text : Bytes} {garbage : ℤ} {config : NginxConfig} {info : ServerInfo}

theorem getServerInfo_cases
    (hparse : NginxConfigParser.parse [] text = some (.returned true config)) :
    ∃ result, getServerInfo text (.fresh garbage) = some result ∧ Loads garbage config 0 result := by
  refine ⟨(LoadState.initial (.fresh garbage)).load config, by simp only [getServerInfo, hparse], ?_⟩
  exact load_cases (List.nil_append config).symm (represents_initial garbage)
    (tokens_ne_nil hparse)

/-- An accepted configuration has gone into the tables, all of it. -/
theorem accepted_cases
    (hparse : NginxConfigParser.parse [] text = some (.returned true config))
    (haccepted : getServerInfo text (.fresh garbage) = some (.returned true info)) :
    ∃ s, info = { s.info with port := s.port } ∧ Represents garbage s config ∧
      ∀ j, ¬RefusedAt config j ∧ ¬FaultyAt config j := by
  obtain ⟨result, hresult, hloads⟩ := @getServerInfo_cases _ garbage _ hparse
  obtain rfl := Option.some_inj.mp (haccepted.symm.trans hresult)
  rcases hloads with ⟨i, info', hresult, -⟩ | ⟨i, hresult, -⟩ | ⟨s, hresult, hrep, hall⟩
  · cases hresult
  · exact absurd rfl (hresult true info)
  · cases hresult
    exact ⟨s, rfl, hrep, fun j => hall j (Nat.zero_le j)⟩

/-- A port and a default handler. -/
def smallConfig : NginxConfig :=
  [.mk [bytes "port", bytes "80"] none,
    .mk [bytes "default", bytes "NotFoundHandler"] (some [])]

def smallText : Bytes := bytes "port 80;default NotFoundHandler \x7b\x7d"

theorem parse_smallText :
    NginxConfigParser.parse [] smallText = some (.returned true smallConfig) := by rfl

/-- What is loaded of it. -/
def smallInfo : ServerInfo :=
  { (ServerInfo.fresh 0).register (bytes "default") (bytes "NotFoundHandler")
      (.notFoundHandler ⟨⟩) with port := 80 }

theorem getServerInfo_smallText :
    getServerInfo smallText (.fresh 0) = some (.returned true smallInfo) := by
  rw [getServerInfo, parse_smallText]
  rfl

/-! ### Loading ends -/

/-- A fault that nothing comes before leaves the call without a result. -/
theorem not_loads (hparse : NginxConfigParser.parse [] text = some (.returned true config))
    {i : ℕ} (hfaulty : FaultyAt config i) (hrefused : ∀ j ≤ i, ¬RefusedAt config j) :
    ¬∃ b info, getServerInfo text (.fresh garbage) = some (.returned b info) := by
  rintro ⟨b, info, hreturned⟩
  obtain ⟨result, hresult, hloads⟩ := @getServerInfo_cases _ garbage _ hparse
  obtain rfl := Option.some_inj.mp (hreturned.symm.trans hresult)
  rcases hloads with ⟨k, -, -, hk, hbefore⟩ | ⟨k, hresult, -⟩ | ⟨-, -, -, hall⟩
  · rcases Nat.lt_or_ge i k with hlt | hle
    · exact (hbefore i (Nat.zero_le i) hlt).2 hfaulty
    · exact hrefused k hle hk
  · exact hresult b info rfl
  · exact (hall i (Nat.zero_le i)).2 hfaulty

/-- **When loading ends** with true or false: every faulty statement is
refused, or comes after one that is. -/
theorem loads_iff (hparse : NginxConfigParser.parse [] text = some (.returned true config)) :
    (∃ b info, getServerInfo text (.fresh garbage) = some (.returned b info)) ↔
      ∀ i, FaultyAt config i → ∃ j ≤ i, RefusedAt config j := by
  constructor
  · intro hreturned i hfaulty
    by_contra hnone
    simp only [not_exists, not_and] at hnone
    exact not_loads hparse hfaulty hnone hreturned
  · intro hcond
    obtain ⟨result, hresult, hloads⟩ := @getServerInfo_cases _ garbage _ hparse
    rcases hloads with ⟨k, info, rfl, -⟩ | ⟨k, -, hk, hfaulty, -, hbefore⟩ | ⟨s, rfl, -⟩
    · exact ⟨false, info, hresult⟩
    · -- nothing is refused up to the statement that fails
      obtain ⟨j, hle, hrefused⟩ := hcond k hfaulty
      rcases Nat.lt_or_eq_of_le hle with hlt | rfl
      · exact absurd hrefused (hbefore j (Nat.zero_le j) hlt).1
      · exact absurd hrefused hk
    · exact ⟨true, _, hresult⟩

theorem loads_iff_small :
    (∃ b info, getServerInfo smallText (.fresh 0) = some (.returned b info)) ↔
      ∀ i, FaultyAt smallConfig i → ∃ j ≤ i, RefusedAt smallConfig j :=
  loads_iff parse_smallText

theorem not_loads_bare_port :
    (∃ config, NginxConfigParser.parse [] (bytes "port;") = some (.returned true config)) ∧
      ¬∃ b info, getServerInfo (bytes "port;") (.fresh 0) = some (.returned b info) := by
  have hparse : NginxConfigParser.parse [] (bytes "port;") =
      some (.returned true [.mk [bytes "port"] none]) := by rfl
  have hfaulty : FaultyAt [.mk [bytes "port"] none] 0 := ⟨_, rfl, .portToken [] rfl rfl⟩
  refine ⟨⟨_, hparse⟩, not_loads hparse hfaulty fun j hj => ?_⟩
  obtain rfl := Nat.le_zero.mp hj
  rintro ⟨statement, hat, hrefused⟩
  obtain rfl := Option.some_inj.mp hat
  obtain ⟨earlier, hmem, -⟩ := (refused_port_iff rfl).mp hrefused
  simp at hmem

/-! ### What is accepted can be served -/

/-- The port can be bound, and every lookup in the table of handlers finds one. -/
structure Usable (info : ServerInfo) : Prop where
  port : 1 ≤ info.port ∧ info.port ≤ 65535
  hasDefault : Connection.defaultString ∈ info.uriPrefixToHandler
  pointers : ∀ (name : Bytes) (pointer : Option Handler),
    info.uriPrefixToHandler[name]? = some pointer → pointer ≠ none

/-- A prefix is declared exactly if it is registered. -/
theorem exists_entry_iff {entries : List Registration}
    (hentries : entries.map (fun entry => (entry.name, entry.handlerId)) =
      config.filterMap declaration) {name handlerId : Bytes} :
    (∃ entry ∈ entries, entry.name = name ∧ entry.handlerId = handlerId) ↔
      ∃ statement ∈ config, declaration statement = some (name, handlerId) := by
  have hmem := congrArg (fun l => (name, handlerId) ∈ l) hentries
  simpa [eq_comm] using hmem

theorem exists_entry_name {entries : List Registration}
    (hentries : entries.map (fun entry => (entry.name, entry.handlerId)) =
      config.filterMap declaration) {name : Bytes} :
    (∃ entry ∈ entries, entry.name = name) ↔
      ∃ statement ∈ config, ∃ handlerId, declaration statement = some (name, handlerId) := by
  have hiff := fun handlerId => @exists_entry_iff _ _ hentries name handlerId
  constructor
  · rintro ⟨entry, hmem, hname⟩
    obtain ⟨statement, hst, hdeclares⟩ := (hiff entry.handlerId).mp ⟨entry, hmem, hname, rfl⟩
    exact ⟨statement, hst, entry.handlerId, hdeclares⟩
  · rintro ⟨statement, hst, handlerId, hdeclares⟩
    obtain ⟨entry, hmem, hname, -⟩ := (hiff handlerId).mpr ⟨statement, hst, hdeclares⟩
    exact ⟨entry, hmem, hname⟩

/-- **When an accepted configuration is usable**: it gives a port number from 1
to 65535 and declares a default handler. -/
theorem usable_iff (hparse : NginxConfigParser.parse [] text = some (.returned true config))
    (haccepted : getServerInfo text (.fresh garbage) = some (.returned true info)) :
    Usable info ↔
      (∃ statement ∈ config, ∃ n, portNumber statement = some n ∧ 1 ≤ n ∧ n ≤ 65535) ∧
        ∃ statement ∈ config, ∃ handlerId,
          declaration statement = some (bytes "default", handlerId) := by
  obtain ⟨s, rfl, hrep, -⟩ := accepted_cases hparse haccepted
  obtain ⟨entries, hentries, hinfo⟩ := hrep.info
  have hmem : bytes "default" ∈ s.info.uriPrefixToHandler ↔
      ∃ statement ∈ config, ∃ handlerId,
        declaration statement = some (bytes "default", handlerId) := by
    rw [hinfo, ServerInfo.mem_registerAll]
    exact exists_entry_name hentries
  constructor
  · rintro ⟨⟨hpos, hle⟩, hdefault, -⟩
    -- so a port has been read
    have hne : s.port ≠ -1 := by
      have hpos' : 1 ≤ s.port := hpos
      omega
    obtain ⟨statement, hst, hnumber⟩ := (hrep.port s.port hne).mp rfl
    exact ⟨⟨statement, hst, s.port, hnumber, hpos, hle⟩, hmem.mp hdefault⟩
  · rintro ⟨⟨statement, hst, n, hnumber, hpos, hle⟩, hdefault⟩
    have hport : s.port = n := (hrep.port n (by omega)).mpr ⟨statement, hst, hnumber⟩
    refine ⟨by rw [hport]; exact ⟨hpos, hle⟩, hmem.mpr hdefault, fun name pointer hpointer => ?_⟩
    rw [hinfo] at hpointer
    obtain ⟨entry, -, -, rfl⟩ := ServerInfo.pointer_registerAll hpointer
    exact Option.some_ne_none _

theorem usable_iff_small :
    Usable smallInfo ↔
      (∃ statement ∈ smallConfig, ∃ n, portNumber statement = some n ∧ 1 ≤ n ∧ n ≤ 65535) ∧
        ∃ statement ∈ smallConfig, ∃ handlerId,
          declaration statement = some (bytes "default", handlerId) :=
  usable_iff parse_smallText getServerInfo_smallText

/-- The empty file is accepted. -/
theorem not_usable_empty_text :
    ∃ info, getServerInfo [] (.fresh 0) = some (.returned true info) ∧ ¬Usable info := by
  refine ⟨{ ServerInfo.fresh 0 with port := -1 }, by rfl, fun h => ?_⟩
  exact absurd h.port.1 (by decide)

/-! ### Declaring everything once -/

/-- A statement that begins with `port`. -/
def IsPort (statement : NginxConfigStatement) : Prop :=
  ∃ arguments, statement.tokens = bytes "port" :: arguments

def Declares (statement : NginxConfigStatement) (name : Bytes) : Prop :=
  ∃ handlerId, declaration statement = some (name, handlerId)

/-- Nothing is declared twice, and the tables agree: the prefixes listed are
pairwise distinct, they are the keys of the table of handlers, and each key's
handler is of the class it is listed under. -/
structure Consistent (config : NginxConfig) (info : ServerInfo) : Prop where
  port : config.Pairwise fun r s => ¬(IsPort r ∧ IsPort s)
  declared : config.Pairwise fun r s => ∀ name, ¬(Declares r name ∧ Declares s name)
  nodup : ∀ (handlerId : Bytes) (prefixes : List Bytes),
    info.handlerNameToPrefixes[handlerId]? = some prefixes → prefixes.Nodup
  disjoint : ∀ (handlerId handlerId' : Bytes) (prefixes prefixes' : List Bytes),
    handlerId ≠ handlerId' → info.handlerNameToPrefixes[handlerId]? = some prefixes →
      info.handlerNameToPrefixes[handlerId']? = some prefixes' → prefixes.Disjoint prefixes'
  keys : ∀ name, name ∈ info.uriPrefixToHandler ↔
    ∃ (handlerId : Bytes) (prefixes : List Bytes),
      info.handlerNameToPrefixes[handlerId]? = some prefixes ∧ name ∈ prefixes
  classes : ∀ (handlerId : Bytes) (prefixes : List Bytes) (name : Bytes),
    info.handlerNameToPrefixes[handlerId]? = some prefixes → name ∈ prefixes →
      ∃ h, info.uriPrefixToHandler[name]? = some (some h) ∧ h.className = handlerId

/-- The duplicates that are not looked for: a second port after the number -1,
a second default handler; and no class is named with a NUL byte in its name. -/
structure Unambiguous (config : NginxConfig) : Prop where
  port : config.Pairwise fun r s => ¬(portNumber r = some (-1) ∧ IsPort s)
  default : config.Pairwise fun r s =>
    ¬(Declares r (bytes "default") ∧ Declares s (bytes "default"))
  noNul : ∀ statement ∈ config, ∀ name handlerId,
    declaration statement = some (name, handlerId) → (0 : UInt8) ∉ handlerId

theorem isPort_of_portNumber {statement : NginxConfigStatement} {n : ℤ}
    (h : portNumber statement = some n) : IsPort statement := by
  obtain ⟨token, rest, htokens, -⟩ := portNumber_eq_some.mp h
  exact ⟨token :: rest, htokens⟩

/-- The listed prefixes of a class are the names of its entries. -/
theorem listed_iff {entries : List Registration} {handlerId : Bytes} {prefixes : List Bytes} :
    ((ServerInfo.fresh garbage).registerAll entries).handlerNameToPrefixes[handlerId]? =
        some prefixes →
      prefixes = (entries.filter (·.handlerId = handlerId)).map Registration.name := by
  rw [ServerInfo.listed_registerAll]
  split_ifs
  · simp
  · intro h
    exact (Option.some_inj.mp h).symm

theorem exists_listed {entries : List Registration} {entry : Registration}
    (hmem : entry ∈ entries) : ∃ prefixes,
      ((ServerInfo.fresh garbage).registerAll entries).handlerNameToPrefixes[entry.handlerId]? =
        some prefixes ∧ entry.name ∈ prefixes := by
  have hentry : entry ∈ entries.filter (·.handlerId = entry.handlerId) := by simp [hmem]
  rw [ServerInfo.listed_registerAll, if_neg (List.ne_nil_of_mem hentry)]
  exact ⟨_, rfl, List.mem_map_of_mem hentry⟩

theorem mem_listed {entries : List Registration} {handlerId name : Bytes} {prefixes : List Bytes}
    (h : ((ServerInfo.fresh garbage).registerAll entries).handlerNameToPrefixes[handlerId]? =
      some prefixes) (hname : name ∈ prefixes) :
    ∃ entry ∈ entries, entry.name = name ∧ entry.handlerId = handlerId := by
  rw [listed_iff h] at hname
  obtain ⟨entry, hentry, rfl⟩ := List.mem_map.mp hname
  obtain ⟨hmem, hid⟩ := List.mem_filter.mp hentry
  exact ⟨entry, hmem, rfl, by simpa using hid⟩

/-- Tables filled with distinct names agree, if no class name was cut short. -/
theorem tables_agree {entries : List Registration}
    (hnames : (entries.map Registration.name).Nodup)
    (hnul : ∀ entry ∈ entries, (0 : UInt8) ∉ entry.handlerId)
    (hport : config.Pairwise fun r s => ¬(IsPort r ∧ IsPort s))
    (hdeclared : config.Pairwise fun r s => ∀ name, ¬(Declares r name ∧ Declares s name))
    (port : ℤ) :
    Consistent config { (ServerInfo.fresh garbage).registerAll entries with port := port } := by
  have hunique : ∀ entry ∈ entries, ∀ entry' ∈ entries, entry.name = entry'.name →
      entry = entry' := fun entry hentry entry' hentry' heq =>
    List.inj_on_of_nodup_map hnames hentry hentry' heq
  refine ⟨hport, hdeclared, fun handlerId prefixes h => ?_,
    fun handlerId handlerId' prefixes prefixes' hne h h' => ?_, fun name => ?_,
    fun handlerId prefixes name h hname => ?_⟩
  · rw [listed_iff h]
    exact (List.filter_sublist.map _).nodup hnames
  · intro name hname hname'
    obtain ⟨entry, hmem, hn, rfl⟩ := mem_listed h hname
    obtain ⟨entry', hmem', hn', rfl⟩ := mem_listed h' hname'
    rw [hunique entry hmem entry' hmem' (hn.trans hn'.symm)] at hne
    exact hne rfl
  · rw [ServerInfo.mem_registerAll]
    constructor
    · rintro ⟨entry, hmem, rfl⟩
      obtain ⟨prefixes, hlisted, hname⟩ := @exists_listed garbage _ _ hmem
      exact ⟨entry.handlerId, prefixes, hlisted, hname⟩
    · rintro ⟨handlerId, prefixes, h, hname⟩
      obtain ⟨entry, hmem, hn, -⟩ := mem_listed h hname
      exact ⟨entry, hmem, hn⟩
  · obtain ⟨entry, hmem, rfl, rfl⟩ := mem_listed h hname
    have hkey : entry.name ∈ ((ServerInfo.fresh garbage).registerAll entries).uriPrefixToHandler :=
      ServerInfo.mem_registerAll.mpr ⟨entry, hmem, rfl⟩
    obtain ⟨pointer, hpointer⟩ := Option.isSome_iff_exists.mp
      (Std.ExtTreeMap.mem_iff_isSome_getElem?.mp hkey)
    obtain ⟨entry', hmem', hn', rfl⟩ := ServerInfo.pointer_registerAll hpointer
    obtain rfl := hunique entry' hmem' entry hmem hn'
    refine ⟨entry'.handler, hpointer, ?_⟩
    -- a name without a NUL byte is a C string as it is
    rw [entry'.className_eq]
    exact Bytes.cString_eq_self_iff.mpr (hnul entry' hmem')

/-- An accepted configuration gives one port number at most, other than -1. -/
theorem port_pairwise (hall : ∀ j, ¬RefusedAt config j ∧ ¬FaultyAt config j)
    (hport : config.Pairwise fun r s => ¬(portNumber r = some (-1) ∧ IsPort s)) :
    config.Pairwise fun r s => ¬(IsPort r ∧ IsPort s) := by
  rw [List.pairwise_iff_getElem] at hport ⊢
  rintro i j hi hj hlt ⟨⟨arguments, htokens⟩, hports⟩
  rcases hnumber : portNumber config[i] with _ | n
  · exact (hall i).2 ⟨config[i], List.getElem?_eq_getElem hi, .portToken arguments htokens hnumber⟩
  · by_cases hn : n = -1
    · exact hport i j hi hj hlt ⟨hn ▸ hnumber, hports⟩
    · -- the later statement would be refused for this number
      obtain ⟨arguments', htokens'⟩ := hports
      refine (hall j).1 ⟨config[j], List.getElem?_eq_getElem hj, .secondPort arguments' htokens' ?_⟩
      exact ⟨config[i], List.mem_take_iff_getElem.mpr ⟨i, by omega, rfl⟩, n, hnumber, hn⟩

/-- An accepted configuration declares every prefix but `default` once. -/
theorem declared_pairwise (hall : ∀ j, ¬RefusedAt config j ∧ ¬FaultyAt config j)
    (hdefault : config.Pairwise fun r s =>
      ¬(Declares r (bytes "default") ∧ Declares s (bytes "default"))) :
    config.Pairwise fun r s => ∀ name, ¬(Declares r name ∧ Declares s name) := by
  rw [List.pairwise_iff_getElem] at hdefault ⊢
  rintro i j hi hj hlt name ⟨hr, hs⟩
  by_cases hname : name = bytes "default"
  · exact hdefault i j hi hj hlt ⟨hname ▸ hr, hname ▸ hs⟩
  · have hpath : ∀ {statement}, Declares statement name → pathName statement = some name := by
      rintro statement ⟨handlerId, hdeclares⟩
      obtain ⟨block, hblock, htokens | ⟨-, heq⟩⟩ := declaration_eq_some.mp hdeclares
      · exact pathName_eq_some.mpr ⟨handlerId, block, htokens, hblock⟩
      · exact absurd heq.symm hname
    refine (hall j).1 ⟨config[j], List.getElem?_eq_getElem hj, .secondPath name (hpath hs) ?_⟩
    exact ⟨config[i], List.mem_take_iff_getElem.mpr ⟨i, by omega, rfl⟩, hpath hr⟩

/-- Two ports are already no consistent configuration. -/
theorem not_consistent_of_ports {r s : NginxConfigStatement} (hr : IsPort r) (hs : IsPort s) :
    ¬Consistent [r, s] info := by
  intro h
  exact (List.pairwise_pair.mp h.port) ⟨hr, hs⟩

/-- **When an accepted configuration is consistent**: no second port follows
the number -1, there is no second default handler, and no class is named with
a NUL byte. -/
theorem consistent_iff (hparse : NginxConfigParser.parse [] text = some (.returned true config))
    (haccepted : getServerInfo text (.fresh garbage) = some (.returned true info)) :
    Consistent config info ↔ Unambiguous config := by
  obtain ⟨s, rfl, hrep, hall⟩ := accepted_cases hparse haccepted
  obtain ⟨entries, hentries, hinfo⟩ := hrep.info
  rw [hinfo]
  constructor
  · intro h
    refine ⟨h.port.imp fun hports hnumber => hports ⟨isPort_of_portNumber hnumber.1, hnumber.2⟩,
      h.declared.imp fun hdeclared => hdeclared _, fun statement hst name handlerId hdeclares => ?_⟩
    -- the handler entered for this statement is of the class it is listed under
    obtain ⟨entry, hmem, rfl, rfl⟩ := (exists_entry_iff hentries).mpr ⟨statement, hst, hdeclares⟩
    obtain ⟨prefixes, hlisted, hname⟩ := @exists_listed garbage _ _ hmem
    obtain ⟨handler, -, hclass⟩ := h.classes _ _ _ hlisted hname
    rw [← hclass]
    exact handler.zero_not_mem_className
  · rintro ⟨hport, hdefault, hnul⟩
    have hdeclared := declared_pairwise hall hdefault
    have hnames : (entries.map Registration.name).Nodup := by
      have hpairs : (config.filterMap declaration).Pairwise fun a b => a.1 ≠ b.1 := by
        rw [List.pairwise_filterMap]
        refine hdeclared.imp fun hno => ?_
        rintro ⟨name, handlerId⟩ hr ⟨name', handlerId'⟩ hs rfl
        exact hno name ⟨⟨handlerId, hr⟩, ⟨handlerId', hs⟩⟩
      rw [← hentries, List.pairwise_map] at hpairs
      exact List.pairwise_map.mpr hpairs
    refine tables_agree hnames (fun entry hmem => ?_) (port_pairwise hall hport) hdeclared s.port
    obtain ⟨statement, hst, hdeclares⟩ := (exists_entry_iff hentries).mp ⟨entry, hmem, rfl, rfl⟩
    exact hnul statement hst _ _ hdeclares

theorem consistent_iff_small : Consistent smallConfig smallInfo ↔ Unambiguous smallConfig :=
  consistent_iff parse_smallText getServerInfo_smallText

/-- The number -1 does not count as a port. -/
theorem not_consistent_two_ports :
    ∃ config info,
      NginxConfigParser.parse [] (bytes "port -1;port 80;") = some (.returned true config) ∧
        getServerInfo (bytes "port -1;port 80;") (.fresh 0) = some (.returned true info) ∧
        ¬Consistent config info := by
  have hparse : NginxConfigParser.parse [] (bytes "port -1;port 80;") =
      some (.returned true [.mk [bytes "port", bytes "-1"] none,
        .mk [bytes "port", bytes "80"] none]) := by rfl
  refine ⟨_, { ServerInfo.fresh 0 with port := 80 }, hparse, ?_, ?_⟩
  · rw [getServerInfo, hparse]
    rfl
  · exact not_consistent_of_ports ⟨_, rfl⟩ ⟨_, rfl⟩

end Results

end Server
