/-
What loading a configuration comes to.

Each statement is either refused, which ends the call with false, or faulty,
which ends it in another way, or it goes into the tables (`step_cases`).
`Represents` says what the variables of the loop hold of the statements looked
at, and the first statement that does not pass decides how the call ends
(`load_cases`).
-/
import Spaceteam.ConfigGrammar
import Spaceteam.ServerConfig

open RequestHandler Blocks

/-! ### Creating handlers -/

namespace Handler

/-- The name of the class. -/
def className : Handler → Bytes
  | .staticHandler _ => bytes "StaticHandler"
  | .echoHandler _ => bytes "EchoHandler"
  | .notFoundHandler _ => bytes "NotFoundHandler"
  | .statusHandler _ => bytes "StatusHandler"
  | .holdingHandler _ => bytes "HoldingHandler"
  | .proxyHandler _ => bytes "ProxyHandler"
  | .s3Handler _ => bytes "S3Handler"

/-- `Init` parses the child block. -/
def ReadsConfig : Handler → Prop
  | .staticHandler _ | .proxyHandler _ | .s3Handler _ => True
  | _ => False

theorem zero_not_mem_className (h : Handler) : (0 : UInt8) ∉ h.className := by
  cases h <;> (rw [className]; decide)

theorem className_init {h h' : Handler} {uriPrefix : Bytes} {config : NginxConfig}
    (hinit : h.init uriPrefix config = some h') : h'.className = h.className := by
  cases h with
  | staticHandler _ | proxyHandler _ | s3Handler _ =>
    obtain ⟨_, -, rfl⟩ := Option.map_eq_some_iff.mp hinit
    rfl
  | _ =>
    obtain rfl := Option.some_inj.mp hinit
    rfl

end Handler

namespace RequestHandler

theorem className_createByName {type : Bytes} {h : Handler} (hcreate : createByName type = some h) :
    h.className = Bytes.cString type := by
  have htable : ∀ entry ∈ requestHandlerBuilders, entry.2.className = entry.1 := by decide
  obtain ⟨before, after, htype, -⟩ := List.lookup_eq_some_iff.mp hcreate
  exact htable (Bytes.cString type, h) (by simp [htype])

/-- Parsing a child block fails on a statement without a second token. -/
theorem parseConfig_eq_none_iff {configMap : ConfigMap} {config : NginxConfig} :
    parseConfig configMap config = none ↔ ∃ statement ∈ config, statement.tokens.length < 2 := by
  induction config generalizing configMap with
  | nil => simp [parseConfig]
  | cons statement config ih =>
    rw [parseConfig, List.foldlM_cons]
    rcases htokens : statement.tokens with _ | ⟨name, _ | ⟨parameter, tokens⟩⟩
    · simp [htokens]
    · simp [htokens]
    · have hrest := @ih (configMap.insert name parameter)
      have hlen : ¬(name :: parameter :: tokens).length < 2 := by simp
      simp only [parseConfig] at hrest
      simp only [htokens, List.getElem?_cons_zero, List.getElem?_cons_succ, List.mem_cons,
        exists_eq_or_imp, hlen, false_or]
      exact hrest

end RequestHandler

/-- **`Init` reads a token that is not there** when the class parses its child
block and a statement of this block has a single token. -/
theorem Handler.init_eq_none_iff {h : Handler} {uriPrefix : Bytes} {config : NginxConfig} :
    h.init uriPrefix config = none ↔
      h.ReadsConfig ∧ ∃ statement ∈ config, statement.tokens.length < 2 := by
  cases h with
  | staticHandler _ =>
    simp [Handler.init, StaticHandler.init, Handler.ReadsConfig, parseConfig_eq_none_iff]
  | proxyHandler _ =>
    simp [Handler.init, ProxyHandler.init, Handler.ReadsConfig, parseConfig_eq_none_iff]
  | s3Handler _ =>
    simp [Handler.init, S3Handler.init, Handler.ReadsConfig, parseConfig_eq_none_iff]
  | _ => simp [Handler.init, Handler.ReadsConfig]

/-! ### The tables -/

/-- A handler entered into the tables; it is of the class it was created by. -/
structure Registration where
  name : Bytes
  handlerId : Bytes
  handler : Handler
  className_eq : handler.className = Bytes.cString handlerId

namespace ServerInfo

/-- The tables after some registrations. -/
def registerAll (info : ServerInfo) (entries : List Registration) : ServerInfo :=
  entries.foldl (fun info entry => info.register entry.name entry.handlerId entry.handler) info

variable {garbage : ℤ} {entries : List Registration}

theorem registerAll_concat (info : ServerInfo) (entries : List Registration)
    (entry : Registration) :
    info.registerAll (entries ++ [entry]) =
      (info.registerAll entries).register entry.name entry.handlerId entry.handler := by
  simp [registerAll]

/-- Every pointer is that of a registered handler. -/
theorem pointer_registerAll {name : Bytes} {pointer : Option Handler}
    (h : ((fresh garbage).registerAll entries).uriPrefixToHandler[name]? = some pointer) :
    ∃ entry ∈ entries, entry.name = name ∧ pointer = some entry.handler := by
  induction entries using List.reverseRecOn with
  | nil => simp [registerAll, fresh] at h
  | append_singleton entries entry ih =>
    rw [registerAll_concat] at h
    simp only [register, Std.ExtTreeMap.getElem?_insert, Std.LawfulEqCmp.compare_eq_iff_eq] at h
    split_ifs at h with hname
    · exact ⟨entry, by simp, hname, (Option.some_inj.mp h).symm⟩
    · obtain ⟨entry', hmem, hentry⟩ := ih h
      exact ⟨entry', List.mem_append_left _ hmem, hentry⟩

theorem mem_registerAll {name : Bytes} :
    name ∈ ((fresh garbage).registerAll entries).uriPrefixToHandler ↔
      ∃ entry ∈ entries, entry.name = name := by
  induction entries using List.reverseRecOn with
  | nil => simp [registerAll, fresh]
  | append_singleton entries entry ih =>
    rw [registerAll_concat]
    simp only [register, Std.ExtTreeMap.mem_insert, Std.LawfulEqCmp.compare_eq_iff_eq, ih]
    simp only [List.mem_append, List.mem_singleton, or_and_right, exists_or, exists_eq_left]
    exact or_comm

/-- A class is listed with the names registered for it, in their order. -/
theorem listed_registerAll {handlerId : Bytes} :
    ((fresh garbage).registerAll entries).handlerNameToPrefixes[handlerId]? =
      if entries.filter (·.handlerId = handlerId) = [] then none
      else some ((entries.filter (·.handlerId = handlerId)).map Registration.name) := by
  induction entries using List.reverseRecOn with
  | nil => simp [registerAll, fresh]
  | append_singleton entries entry ih =>
    rw [registerAll_concat]
    simp only [register, Std.ExtTreeMap.getElem?_insert, Std.LawfulEqCmp.compare_eq_iff_eq]
    by_cases hid : entry.handlerId = handlerId
    · subst hid
      rw [if_pos rfl, ih, List.filter_append]
      split_ifs with hnil <;> simp_all
    · rw [if_neg hid, ih, List.filter_append]
      simp [hid]

end ServerInfo

namespace Server

/-! ### What the statements say -/

/-- The number a `port` statement gives, if it gives one. -/
def portNumber (statement : NginxConfigStatement) : Option ℤ :=
  match statement.tokens with
  | key :: token :: _ => if key = bytes "port" then stoi token else none
  | _ => none

/-- The prefix a `path` statement declares. -/
def pathName (statement : NginxConfigStatement) : Option Bytes :=
  match statement.tokens, statement.childBlock with
  | [key, name, _], some _ => if key = bytes "path" then some name else none
  | _, _ => none

/-- The prefix a statement declares, with the class named for it. -/
def declaration (statement : NginxConfigStatement) : Option (Bytes × Bytes) :=
  match statement.tokens, statement.childBlock with
  | [key, name, handlerId], some _ =>
    if key = bytes "path" then some (name, handlerId) else none
  | [key, handlerId], some _ =>
    if key = bytes "default" then some (bytes "default", handlerId) else none
  | _, _ => none

theorem portNumber_eq_some {statement : NginxConfigStatement} {n : ℤ} :
    portNumber statement = some n ↔
      ∃ token rest, statement.tokens = bytes "port" :: token :: rest ∧ stoi token = some n := by
  rcases htokens : statement.tokens with _ | ⟨key, _ | ⟨token, rest⟩⟩ <;>
    simp [portNumber, htokens]

theorem pathName_eq_some {statement : NginxConfigStatement} {name : Bytes} :
    pathName statement = some name ↔ ∃ handlerId block,
      statement.tokens = [bytes "path", name, handlerId] ∧ statement.childBlock = some block := by
  rcases htokens : statement.tokens with _ | ⟨key, _ | ⟨name', _ | ⟨handlerId, _ | _⟩⟩⟩ <;>
    rcases hblock : statement.childBlock with _ | block <;>
    simp [pathName, htokens, hblock]

theorem declaration_eq_some {statement : NginxConfigStatement} {name handlerId : Bytes} :
    declaration statement = some (name, handlerId) ↔ ∃ block,
      statement.childBlock = some block ∧
        (statement.tokens = [bytes "path", name, handlerId] ∨
          statement.tokens = [bytes "default", handlerId] ∧ bytes "default" = name) := by
  rcases htokens : statement.tokens with _ | ⟨key, _ | ⟨name', _ | ⟨handlerId', _ | _⟩⟩⟩ <;>
    rcases hblock : statement.childBlock with _ | block <;>
    simp [declaration, htokens, hblock]
  tauto

/-- The first tokens `getServerInfo` knows. -/
def keywords : List Bytes := [bytes "port", bytes "path", bytes "default"]

/-- The statement is refused, coming after the statements `before`. -/
inductive Refused (before : List NginxConfigStatement) (statement : NginxConfigStatement) : Prop
  | secondPort (arguments : List Bytes) (htokens : statement.tokens = bytes "port" :: arguments)
    (h : ∃ earlier ∈ before, ∃ n, portNumber earlier = some n ∧ n ≠ -1)
  | pathFormat (arguments : List Bytes) (htokens : statement.tokens = bytes "path" :: arguments)
    (h : arguments.length ≠ 2 ∨ statement.childBlock = none)
  | secondPath (name : Bytes) (hname : pathName statement = some name)
    (h : ∃ earlier ∈ before, pathName earlier = some name)
  | unknownHandler (name handlerId : Bytes) (hname : pathName statement = some name)
    (hdeclares : declaration statement = some (name, handlerId))
    (h : createByName handlerId = none)
  | defaultFormat (arguments : List Bytes)
    (htokens : statement.tokens = bytes "default" :: arguments)
    (h : arguments.length ≠ 1 ∨ statement.childBlock = none)
  | unexpected (key argument : Bytes) (arguments : List Bytes)
    (htokens : statement.tokens = key :: argument :: arguments) (h : key ∉ keywords)

/-- The statement, if it is not refused, ends the call without a result: it
gives no number for the port, names no class for the default handler, has a
child block with a statement of one token that `Init` parses, or is a single
unknown token. -/
inductive Faulty (statement : NginxConfigStatement) : Prop
  | portToken (arguments : List Bytes) (htokens : statement.tokens = bytes "port" :: arguments)
    (h : portNumber statement = none)
  | nullHandler (handlerId : Bytes) (htokens : statement.tokens = [bytes "default", handlerId])
    (h : createByName handlerId = none)
  | childBlock (name handlerId : Bytes) (block : NginxConfig) (handler : Handler)
    (hdeclares : declaration statement = some (name, handlerId))
    (hblock : statement.childBlock = some block) (hcreate : createByName handlerId = some handler)
    (h : handler.ReadsConfig ∧ ∃ inner ∈ block, inner.tokens.length < 2)
  | unexpected (key : Bytes) (htokens : statement.tokens = [key]) (h : key ∉ keywords)

/-! ### One statement -/

/-- What the variables of the loop hold of the statements looked at. -/
structure Represents (garbage : ℤ) (s : LoadState) (before : List NginxConfigStatement) :
    Prop where
  port : ∀ n, n ≠ -1 → (s.port = n ↔ ∃ statement ∈ before, portNumber statement = some n)
  pathNames : ∀ name, name ∈ s.pathNames ↔ ∃ statement ∈ before, pathName statement = some name
  info : ∃ entries : List Registration,
    entries.map (fun entry => (entry.name, entry.handlerId)) = before.filterMap declaration ∧
      s.info = (ServerInfo.fresh garbage).registerAll entries

theorem represents_initial (garbage : ℤ) : Represents garbage (.initial (.fresh garbage)) [] where
  port n hn := by simp [LoadState.initial, Ne.symm hn]
  pathNames name := by simp [LoadState.initial]
  info := ⟨[], rfl, rfl⟩

/-- How a statement is taken: it is refused, or it ends the call without a
result, or the loop goes on with what it says. -/
inductive Takes (garbage : ℤ) (s : LoadState) (before : List NginxConfigStatement)
    (statement : NginxConfigStatement) : Prop
  | refuses (info : ServerInfo) (hstep : s.step statement = .returnsFalse info)
    (h : Refused before statement)
  | fails (hstep : s.step statement = .threw ∨ s.step statement = .undefined)
    (hrefused : ¬Refused before statement) (hfaulty : Faulty statement)
  | goesOn (s' : LoadState) (hstep : s.step statement = .next s')
    (hrefused : ¬Refused before statement) (hfaulty : ¬Faulty statement)
    (h : Represents garbage s' (before ++ [statement]))

theorem path_ne_port : bytes "path" ≠ bytes "port" := by decide
theorem default_ne_port : bytes "default" ≠ bytes "port" := by decide
theorem default_ne_path : bytes "default" ≠ bytes "path" := by decide

/-- The loop has seen a number for the port exactly if it would refuse another. -/
theorem Represents.port_ne_iff {garbage : ℤ} {s : LoadState} {before : List NginxConfigStatement}
    (h : Represents garbage s before) :
    s.port ≠ -1 ↔ ∃ earlier ∈ before, ∃ n, portNumber earlier = some n ∧ n ≠ -1 := by
  constructor
  · intro hne
    obtain ⟨earlier, hmem, hnumber⟩ := (h.port s.port hne).mp rfl
    exact ⟨earlier, hmem, s.port, hnumber, hne⟩
  · rintro ⟨earlier, hmem, n, hnumber, hne⟩
    rw [(h.port n hne).mpr ⟨earlier, hmem, hnumber⟩]
    exact hne

section Steps

variable {garbage : ℤ} {s : LoadState} {before : List NginxConfigStatement}
  {statement : NginxConfigStatement} {arguments : List Bytes}

/-- Statements begin with one keyword only. -/
theorem key_unique {key key' : Bytes} {rest rest' : List Bytes}
    (h : statement.tokens = key :: rest) (h' : statement.tokens = key' :: rest') :
    key = key' ∧ rest = rest' :=
  List.cons.inj (h.symm.trans h')

/-- Only a `path` statement names a path. -/
theorem pathName_eq_none {key : Bytes} (htokens : statement.tokens = key :: arguments)
    (hkey : key ≠ bytes "path") : pathName statement = none := by
  refine Option.eq_none_iff_forall_ne_some.mpr fun name hname => ?_
  obtain ⟨_, _, htokens', -⟩ := pathName_eq_some.mp hname
  exact hkey (key_unique htokens htokens').1

theorem declaration_of_port (htokens : statement.tokens = bytes "port" :: arguments) :
    pathName statement = none ∧ declaration statement = none := by
  constructor
  · exact pathName_eq_none htokens path_ne_port.symm
  · refine Option.eq_none_iff_forall_ne_some.mpr fun ⟨name, handlerId⟩ hdeclares => ?_
    obtain ⟨block, -, htokens' | ⟨htokens', -⟩⟩ := declaration_eq_some.mp hdeclares
    · exact path_ne_port (key_unique htokens' htokens).1
    · exact default_ne_port (key_unique htokens' htokens).1

/-- A `port` statement is refused for the one reason only. -/
theorem refused_port_iff (htokens : statement.tokens = bytes "port" :: arguments) :
    Refused before statement ↔ ∃ earlier ∈ before, ∃ n, portNumber earlier = some n ∧ n ≠ -1 := by
  obtain ⟨hpath, hdeclaration⟩ := declaration_of_port htokens
  constructor
  · rintro (⟨-, -, h⟩ | ⟨_, htokens', -⟩ | ⟨_, hname, -⟩ | ⟨_, _, hname, -, -⟩ | ⟨_, htokens', -⟩ |
      ⟨_, _, _, htokens', h⟩)
    · exact h
    · exact absurd (key_unique htokens' htokens).1 path_ne_port
    · simp [hpath] at hname
    · simp [hpath] at hname
    · exact absurd (key_unique htokens' htokens).1 default_ne_port
    · exact absurd (by simp [(key_unique htokens' htokens).1, keywords]) h
  · exact .secondPort arguments htokens

theorem faulty_port_iff (htokens : statement.tokens = bytes "port" :: arguments) :
    Faulty statement ↔ portNumber statement = none := by
  obtain ⟨-, hdeclaration⟩ := declaration_of_port htokens
  constructor
  · rintro (⟨-, -, h⟩ | ⟨_, htokens', -⟩ | ⟨_, _, _, _, hdeclares, -⟩ | ⟨_, htokens', h⟩)
    · exact h
    · exact absurd (key_unique htokens' htokens).1 default_ne_port
    · simp [hdeclaration] at hdeclares
    · exact absurd (by simp [(key_unique htokens' htokens).1, keywords]) h
  · exact .portToken arguments htokens

theorem takes_port (h : Represents garbage s before)
    (htokens : statement.tokens = bytes "port" :: arguments) :
    Takes garbage s before statement := by
  obtain ⟨hpath, hdeclaration⟩ := declaration_of_port htokens
  by_cases hport : s.port = -1
  · have hrefused : ¬Refused before statement := by
      rw [refused_port_iff htokens, ← h.port_ne_iff, not_not]
      exact hport
    rcases arguments with _ | ⟨token, arguments⟩
    · -- the number is not there
      refine .fails (.inr (by simp [LoadState.step, htokens, hport])) hrefused
        ((faulty_port_iff htokens).mpr ?_)
      simp [portNumber, htokens]
    · have hnumber : portNumber statement = stoi token := by simp [portNumber, htokens]
      rcases hstoi : stoi token with _ | n
      · exact .fails (.inl (by simp [LoadState.step, htokens, hport, hstoi])) hrefused
          ((faulty_port_iff htokens).mpr (hnumber.trans hstoi))
      · refine .goesOn { s with port := n } (by simp [LoadState.step, htokens, hport, hstoi])
          hrefused (by simp [faulty_port_iff htokens, hnumber, hstoi]) ⟨fun k hk => ?_, ?_, ?_⟩
        · -- no statement before has given another number than -1
          have hnone : ¬∃ earlier ∈ before, portNumber earlier = some k := by
            rw [← h.port k hk, hport]
            exact hk.symm
          simp only [List.mem_append, List.mem_singleton, or_and_right, exists_or, hnone,
            false_or, exists_eq_left, hnumber, hstoi, Option.some_inj]
        · intro name
          simp [h.pathNames name, or_and_right, exists_or, hpath]
        · obtain ⟨entries, hentries, hinfo⟩ := h.info
          exact ⟨entries, by simp [hentries, hdeclaration], hinfo⟩
  · exact .refuses s.info (by simp [LoadState.step, htokens, hport])
      ((refused_port_iff htokens).mpr (h.port_ne_iff.mp hport))

/-! #### Declarations -/

variable {name handlerId : Bytes} {block : NginxConfig}

theorem portNumber_of_declares (hdeclares : declaration statement = some (name, handlerId)) :
    portNumber statement = none := by
  refine Option.eq_none_iff_forall_ne_some.mpr fun n hnumber => ?_
  obtain ⟨token, rest, htokens, -⟩ := portNumber_eq_some.mp hnumber
  obtain ⟨-, -, htokens' | ⟨htokens', -⟩⟩ := declaration_eq_some.mp hdeclares
  · exact path_ne_port (key_unique htokens' htokens).1
  · exact default_ne_port (key_unique htokens' htokens).1

/-- A declaration is faulty when its class cannot be created and nobody looks,
or when `Init` reads too far. -/
theorem faulty_declares_iff (hdeclares : declaration statement = some (name, handlerId))
    (hblock : statement.childBlock = some block) :
    Faulty statement ↔
      (∃ handler, createByName handlerId = some handler ∧ handler.init name block = none) ∨
        statement.tokens = [bytes "default", handlerId] ∧ createByName handlerId = none := by
  constructor
  · rintro (⟨_, _, h⟩ | ⟨_, htokens, h⟩ | ⟨_, _, _, handler, hdeclares', hblock', hcreate, h⟩ |
      ⟨_, htokens, h⟩)
    · obtain ⟨-, -, htokens' | ⟨htokens', -⟩⟩ := declaration_eq_some.mp hdeclares
      · exact absurd (key_unique htokens' ‹_›).1 path_ne_port
      · exact absurd (key_unique htokens' ‹_›).1 default_ne_port
    · obtain ⟨-, -, htokens' | ⟨htokens', -⟩⟩ := declaration_eq_some.mp hdeclares
      · exact absurd (key_unique htokens htokens').1 default_ne_path
      · obtain rfl := List.head_eq_of_cons_eq (key_unique htokens htokens').2
        exact .inr ⟨htokens, h⟩
    · obtain ⟨rfl, rfl⟩ := Prod.mk.inj (Option.some_inj.mp (hdeclares.symm.trans hdeclares'))
      obtain rfl := Option.some_inj.mp (hblock.symm.trans hblock')
      exact .inl ⟨handler, hcreate, Handler.init_eq_none_iff.mpr h⟩
    · obtain ⟨-, -, htokens' | ⟨htokens', -⟩⟩ := declaration_eq_some.mp hdeclares
      · cases (key_unique htokens htokens').2
      · cases (key_unique htokens htokens').2
  · rintro (⟨handler, hcreate, hinit⟩ | ⟨htokens, hcreate⟩)
    · exact .childBlock name handlerId block handler hdeclares hblock hcreate
        (Handler.init_eq_none_iff.mp hinit)
    · exact .nullHandler handlerId htokens hcreate

theorem refused_path_iff (htokens : statement.tokens = [bytes "path", name, handlerId])
    (hblock : statement.childBlock = some block) :
    Refused before statement ↔
      (∃ earlier ∈ before, pathName earlier = some name) ∨ createByName handlerId = none := by
  have hname : pathName statement = some name := pathName_eq_some.mpr ⟨_, _, htokens, hblock⟩
  have hdeclares : declaration statement = some (name, handlerId) :=
    declaration_eq_some.mpr ⟨block, hblock, .inl htokens⟩
  constructor
  · rintro (⟨_, htokens', -⟩ | ⟨_, htokens', h⟩ | ⟨_, hname', h⟩ | ⟨_, _, -, hdeclares', h⟩ |
      ⟨_, htokens', -⟩ | ⟨_, _, _, htokens', h⟩)
    · exact absurd (key_unique htokens htokens').1 path_ne_port
    · rw [← (key_unique htokens htokens').2, hblock] at h
      simp at h
    · obtain rfl := Option.some_inj.mp (hname.symm.trans hname')
      exact .inl h
    · obtain ⟨rfl, rfl⟩ := Prod.mk.inj (Option.some_inj.mp (hdeclares.symm.trans hdeclares'))
      exact .inr h
    · exact absurd (key_unique htokens' htokens).1 default_ne_path
    · exact absurd (by simp [← (key_unique htokens htokens').1, keywords]) h
  · rintro (h | h)
    · exact .secondPath name hname h
    · exact .unknownHandler name handlerId hname hdeclares h

theorem not_refused_default (htokens : statement.tokens = [bytes "default", handlerId])
    (hblock : statement.childBlock = some block) : ¬Refused before statement := by
  have hname : pathName statement = none := pathName_eq_none htokens default_ne_path
  rintro (⟨_, htokens', -⟩ | ⟨_, htokens', h⟩ | ⟨_, hname', h⟩ | ⟨_, _, hname', -⟩ |
    ⟨_, htokens', h⟩ | ⟨_, _, _, htokens', h⟩)
  · exact default_ne_port (key_unique htokens htokens').1
  · exact default_ne_path (key_unique htokens htokens').1
  · simp [hname] at hname'
  · simp [hname] at hname'
  · rw [← (key_unique htokens htokens').2, hblock] at h
    simp at h
  · exact h (by simp [← (key_unique htokens htokens').1, keywords])

/-- A handler that is created and initialised goes into the tables. -/
theorem takes_declare (h : Represents garbage s before)
    (hdeclares : declaration statement = some (name, handlerId))
    (hblock : statement.childBlock = some block) (hrefused : ¬Refused before statement)
    (missing : LoadStep) (pathNames : List Bytes)
    (hstep : s.step statement =
      ({ s with pathNames := pathNames } : LoadState).declare name handlerId block missing)
    (hnames : ∀ p, p ∈ pathNames ↔ p ∈ s.pathNames ∨ pathName statement = some p)
    (hmissing : createByName handlerId = none →
      missing = .undefined ∧ statement.tokens = [bytes "default", handlerId]) :
    Takes garbage s before statement := by
  have hfaulty := faulty_declares_iff hdeclares hblock
  rw [LoadState.declare] at hstep
  rcases hcreate : createByName handlerId with _ | handler
  · obtain ⟨rfl, htokens⟩ := hmissing hcreate
    simp only [hcreate] at hstep
    exact .fails (.inr hstep) hrefused (hfaulty.mpr (.inr ⟨htokens, hcreate⟩))
  · simp only [hcreate] at hstep
    rcases hinit : handler.init name block with _ | handler'
    · simp only [hinit] at hstep
      exact .fails (.inr hstep) hrefused (hfaulty.mpr (.inl ⟨handler, hcreate, hinit⟩))
    · simp only [hinit] at hstep
      refine .goesOn _ hstep hrefused ?_ ⟨fun n hn => ?_, fun p => ?_, ?_⟩
      -- not faulty; then the port, the names of the paths and the tables
      · rw [hfaulty]
        simp [hcreate, hinit]
      · simp [h.port n hn, or_and_right, exists_or, portNumber_of_declares hdeclares]
      · simp [hnames p, h.pathNames p, or_and_right, exists_or]
      · obtain ⟨entries, hentries, hinfo⟩ := h.info
        have hclass : handler'.className = Bytes.cString handlerId :=
          (Handler.className_init hinit).trans (className_createByName hcreate)
        refine ⟨entries ++ [⟨name, handlerId, handler', hclass⟩], ?_, ?_⟩
        · simp [hentries, hdeclares]
        · rw [ServerInfo.registerAll_concat, ← hinfo]

theorem takes_path (h : Represents garbage s before)
    (htokens : statement.tokens = bytes "path" :: arguments) :
    Takes garbage s before statement := by
  by_cases hformat : arguments.length ≠ 2 ∨ statement.childBlock = none
  · refine .refuses s.info ?_ (.pathFormat arguments htokens hformat)
    rcases arguments with _ | ⟨name, _ | ⟨handlerId, _ | ⟨extra, arguments⟩⟩⟩ <;>
      rcases hblock : statement.childBlock with _ | block <;>
      simp_all [LoadState.step, path_ne_port]
  · obtain ⟨hlength, hblock⟩ := not_or.mp hformat
    obtain ⟨name, handlerId, rfl⟩ := List.length_eq_two.mp (not_not.mp hlength)
    obtain ⟨block, hblock⟩ := Option.ne_none_iff_exists'.mp hblock
    have hname : pathName statement = some name := pathName_eq_some.mpr ⟨_, _, htokens, hblock⟩
    have hdeclares : declaration statement = some (name, handlerId) :=
      declaration_eq_some.mpr ⟨block, hblock, .inl htokens⟩
    by_cases hduplicate : name ∈ s.pathNames
    · exact .refuses s.info (by simp [LoadState.step, htokens, hblock, path_ne_port, hduplicate])
        (.secondPath name hname ((h.pathNames name).mp hduplicate))
    -- a path of a class that is not registered is refused, not faulty
    · rcases hcreate : createByName handlerId with _ | handler
      · exact .refuses s.info (by
          simp [LoadState.step, LoadState.declare, htokens, hblock, path_ne_port, hduplicate,
            hcreate]) (.unknownHandler name handlerId hname hdeclares hcreate)
      · have hrefused : ¬Refused before statement := by
          rw [refused_path_iff htokens hblock, ← h.pathNames name, hcreate]
          simp [hduplicate]
        refine takes_declare h hdeclares hblock hrefused (.returnsFalse s.info)
          (s.pathNames ++ [name]) ?_ ?_ ?_
        · simp [LoadState.step, htokens, hblock, path_ne_port, hduplicate]
        · simp [hname, eq_comm]
        · simp [hcreate]

theorem takes_default (h : Represents garbage s before)
    (htokens : statement.tokens = bytes "default" :: arguments) :
    Takes garbage s before statement := by
  by_cases hformat : arguments.length ≠ 1 ∨ statement.childBlock = none
  · refine .refuses s.info ?_ (.defaultFormat arguments htokens hformat)
    rcases arguments with _ | ⟨handlerId, _ | ⟨extra, arguments⟩⟩ <;>
      rcases hblock : statement.childBlock with _ | block <;>
      simp_all [LoadState.step, default_ne_port, default_ne_path]
  · obtain ⟨hlength, hblock⟩ := not_or.mp hformat
    obtain ⟨handlerId, rfl⟩ := List.length_eq_one_iff.mp (not_not.mp hlength)
    obtain ⟨block, hblock⟩ := Option.ne_none_iff_exists'.mp hblock
    have hdeclares : declaration statement = some (bytes "default", handlerId) :=
      declaration_eq_some.mpr ⟨block, hblock, .inr ⟨htokens, rfl⟩⟩
    have hname : pathName statement = none := pathName_eq_none htokens default_ne_path
    refine takes_declare h hdeclares hblock (not_refused_default htokens hblock) .undefined
      s.pathNames ?_ ?_ ?_
    · simp [LoadState.step, htokens, hblock, default_ne_port, default_ne_path]
    · simp [hname]
    · exact fun _ => ⟨rfl, htokens⟩

theorem takes_unexpected {key : Bytes} (h : key ∉ keywords)
    (htokens : statement.tokens = key :: arguments) : Takes garbage s before statement := by
  simp only [keywords, List.mem_cons, List.not_mem_nil, or_false, not_or] at h
  obtain ⟨hport, hpath, hdefault⟩ := h
  have hkey : key ∉ keywords := by simp [keywords, hport, hpath, hdefault]
  rcases arguments with _ | ⟨argument, arguments⟩
  · refine .fails (.inr (by simp [LoadState.step, htokens, hport, hpath, hdefault])) ?_
      (.unexpected key htokens hkey)
    have hname : pathName statement = none := pathName_eq_none htokens hpath
    rintro (⟨_, htokens', -⟩ | ⟨_, htokens', -⟩ | ⟨_, hname', -⟩ | ⟨_, _, hname', -⟩ |
      ⟨_, htokens', -⟩ | ⟨_, _, _, htokens', -⟩)
    · exact hport (key_unique htokens htokens').1
    · exact hpath (key_unique htokens htokens').1
    · simp [hname] at hname'
    · simp [hname] at hname'
    · exact hdefault (key_unique htokens htokens').1
    · cases (key_unique htokens htokens').2
  · exact .refuses s.info (by simp [LoadState.step, htokens, hport, hpath, hdefault])
      (.unexpected key argument arguments htokens hkey)

/-- **What one statement does**, whichever it is. -/
theorem takes (h : Represents garbage s before) (htokens : statement.tokens ≠ []) :
    Takes garbage s before statement := by
  obtain ⟨key, arguments, htokens⟩ := List.exists_cons_of_ne_nil htokens
  by_cases hport : key = bytes "port"
  · exact takes_port h (hport ▸ htokens)
  · by_cases hpath : key = bytes "path"
    · exact takes_path h (hpath ▸ htokens)
    · by_cases hdefault : key = bytes "default"
      · exact takes_default h (hdefault ▸ htokens)
      · exact takes_unexpected (by simp [keywords, hport, hpath, hdefault]) htokens

end Steps

/-! ### All statements -/

/-- The statement at index `i` is refused. -/
def RefusedAt (config : NginxConfig) (i : ℕ) : Prop :=
  ∃ statement, config[i]? = some statement ∧ Refused (config.take i) statement

def FaultyAt (config : NginxConfig) (i : ℕ) : Prop :=
  ∃ statement, config[i]? = some statement ∧ Faulty statement

/-- How the loop ends from index `n` on. -/
inductive Loads (garbage : ℤ) (config : NginxConfig) (n : ℕ) (result : LoadResult) : Prop
  | refused (i : ℕ) (info : ServerInfo) (hresult : result = .returned false info)
    (h : RefusedAt config i)
    (hbefore : ∀ j, n ≤ j → j < i → ¬RefusedAt config j ∧ ¬FaultyAt config j)
  | failed (i : ℕ) (hresult : ∀ b info, result ≠ .returned b info) (hrefused : ¬RefusedAt config i)
    (hfaulty : FaultyAt config i) (hle : n ≤ i)
    (hbefore : ∀ j, n ≤ j → j < i → ¬RefusedAt config j ∧ ¬FaultyAt config j)
  | accepted (s : LoadState) (hresult : result = .returned true { s.info with port := s.port })
    (h : Represents garbage s config)
    (hall : ∀ j, n ≤ j → ¬RefusedAt config j ∧ ¬FaultyAt config j)

/-- **How the loop ends**: the first statement that does not pass decides. -/
theorem load_cases {garbage : ℤ} {config before rest : NginxConfig} {s : LoadState}
    (hsplit : config = before ++ rest) (h : Represents garbage s before)
    (htokens : ∀ statement ∈ rest, statement.tokens ≠ []) :
    Loads garbage config before.length (s.load rest) := by
  induction rest generalizing before s with
  | nil =>
    rw [List.append_nil] at hsplit
    subst hsplit
    refine .accepted s rfl h fun j hj => ⟨?_, ?_⟩
    · rintro ⟨statement, hat, -⟩
      simp [List.getElem?_eq_none hj] at hat
    · rintro ⟨statement, hat, -⟩
      simp [List.getElem?_eq_none hj] at hat
  | cons statement rest ih =>
    have hat : config[before.length]? = some statement := by simp [hsplit]
    have htake : config.take before.length = before := by simp [hsplit]
    have hunique : ∀ {P : NginxConfigStatement → Prop},
        (∃ st, config[before.length]? = some st ∧ P st) ↔ P statement := by
      intro P
      simp [hat]
    rcases takes h (htokens statement List.mem_cons_self) with
      ⟨info, hstep, hrefused⟩ | ⟨hstep, hrefused, hfaulty⟩ | ⟨s', hstep, hrefused, hfaulty, h'⟩
    · refine .refused before.length info (by rw [LoadState.load, hstep]) ?_ (by omega)
      exact ⟨statement, hat, htake.symm ▸ hrefused⟩
    · refine .failed before.length ?_ ?_ ⟨statement, hat, hfaulty⟩ le_rfl (by omega)
      · intro b info
        rw [LoadState.load]
        rcases hstep with hstep | hstep <;> simp [hstep]
      · rw [RefusedAt, hunique, htake]
        exact hrefused
    · have hrest := ih (s := s') (by simp [hsplit]) h'
        fun st hst => htokens st (List.mem_cons_of_mem _ hst)
      rw [List.length_append, List.length_singleton] at hrest
      have hload : s.load (statement :: rest) = s'.load rest := by rw [LoadState.load, hstep]
      have hpasses : ¬RefusedAt config before.length ∧ ¬FaultyAt config before.length := by
        rw [RefusedAt, FaultyAt, hunique, hunique, htake]
        exact ⟨hrefused, hfaulty⟩
      -- the statement at hand passes, and so do those before the one that decides
      have hextend : ∀ {j}, (before.length + 1 ≤ j → ¬RefusedAt config j ∧ ¬FaultyAt config j) →
          before.length ≤ j → ¬RefusedAt config j ∧ ¬FaultyAt config j := by
        intro j hj hle
        rcases Nat.eq_or_lt_of_le hle with rfl | hlt
        · exact hpasses
        · exact hj hlt
      rw [hload]
      rcases hrest with ⟨i, info, hresult, hrefused', hbefore⟩ |
        ⟨i, hresult, hrefused', hfaulty', hle, hbefore⟩ | ⟨s'', hresult, hrep, hall⟩
      · exact .refused i info hresult hrefused' fun j hle hlt =>
          hextend (fun hle' => hbefore j hle' hlt) hle
      · exact .failed i hresult hrefused' hfaulty' (by omega) fun j hle' hlt =>
          hextend (fun hle'' => hbefore j hle'' hlt) hle'
      · exact .accepted s'' hresult hrep fun j hle => hextend (hall j) hle

/-- Every statement of an accepted text has a token. -/
theorem tokens_ne_nil {text : Bytes} {config : NginxConfig}
    (hparse : NginxConfigParser.parse [] text = some (.returned true config)) :
    ∀ statement ∈ config, statement.tokens ≠ [] := by
  obtain ⟨us, final, htokens, hus, hfinal, -⟩ :=
    (NginxConfigParser.delivers_tokens text).exists_eq
  rw [NginxConfigParser.parse_eq, NginxConfigParser.Iteration.result_eq_returned, htokens,
    NginxConfigParser.run_returns_true_iff hus hfinal] at hparse
  obtain ⟨-, hwf, -⟩ := hparse
  clear htokens
  induction config with
  | nil => simp
  | cons statement config ih =>
    intro st hst
    rcases List.mem_cons.mp hst with rfl | hst
    · rcases st with ⟨tokens, _ | block⟩
      · exact hwf.1.1
      · exact hwf.1.1
    · exact ih hwf.2 st hst

end Server
