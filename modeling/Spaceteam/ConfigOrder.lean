/-
The order of the paths in a configuration.

Whether a configuration is accepted is a matter of its statements one by one
and of the pairs that clash (`exists_refusedAt_iff`), and the table of handlers
of an accepted one holds for each key what was declared for it last
(`getElem?_table`).  Neither depends on the order of the `path` statements.

* `Server.order_independent` — two configurations that differ in the order of
  their `path` statements are loaded alike and route every request alike.
-/
import Spaceteam.AcceptedConfig
import Spaceteam.Routing

open RequestHandler

namespace Server

/-! ### Refusals without an order -/

/-- Two statements that are not accepted in this order: a port after a number
has been given for it, or two paths of one name. -/
def Clashes (earlier later : NginxConfigStatement) : Prop :=
  (IsPort later ∧ ∃ n, portNumber earlier = some n ∧ n ≠ -1) ∨
    ∃ name, pathName earlier = some name ∧ pathName later = some name

theorem refused_iff {before : List NginxConfigStatement} {statement : NginxConfigStatement} :
    Refused before statement ↔
      Refused [] statement ∨ ∃ earlier ∈ before, Clashes earlier statement := by
  constructor
  · rintro (⟨arguments, htokens, earlier, hmem, h⟩ | ⟨arguments, htokens, h⟩ |
      ⟨name, hname, earlier, hmem, h⟩ | ⟨name, handlerId, hname, hdeclares, h⟩ |
      ⟨arguments, htokens, h⟩ | ⟨key, argument, arguments, htokens, h⟩)
    · exact .inr ⟨earlier, hmem, .inl ⟨⟨arguments, htokens⟩, h⟩⟩
    · exact .inl (.pathFormat arguments htokens h)
    · exact .inr ⟨earlier, hmem, .inr ⟨name, h, hname⟩⟩
    · exact .inl (.unknownHandler name handlerId hname hdeclares h)
    · exact .inl (.defaultFormat arguments htokens h)
    · exact .inl (.unexpected key argument arguments htokens h)
  · rintro (h | ⟨earlier, hmem, ⟨⟨arguments, htokens⟩, h⟩ | ⟨name, h, hname⟩⟩)
    · -- what is refused with nothing before it is refused after anything
      rcases h with ⟨_, _, _, hmem, _⟩ | ⟨arguments, htokens, h⟩ | ⟨_, _, _, hmem, _⟩ |
        ⟨name, handlerId, hname, hdeclares, h⟩ | ⟨arguments, htokens, h⟩ |
        ⟨key, argument, arguments, htokens, h⟩
      · cases hmem
      · exact .pathFormat arguments htokens h
      · cases hmem
      · exact .unknownHandler name handlerId hname hdeclares h
      · exact .defaultFormat arguments htokens h
      · exact .unexpected key argument arguments htokens h
    · exact .secondPort arguments htokens ⟨earlier, hmem, h⟩
    · exact .secondPath name hname ⟨earlier, hmem, h⟩

/-- **When a statement is refused**: one is by itself, or two of them clash. -/
theorem exists_refusedAt_iff {config : NginxConfig} :
    (∃ i, RefusedAt config i) ↔
      (∃ statement ∈ config, Refused [] statement) ∨
        ¬config.Pairwise fun r s => ¬Clashes r s := by
  rw [List.pairwise_iff_getElem]
  constructor
  · rintro ⟨i, statement, hat, hrefused⟩
    obtain ⟨hi, rfl⟩ := List.getElem?_eq_some_iff.mp hat
    rcases refused_iff.mp hrefused with h | ⟨earlier, hmem, hclash⟩
    · exact .inl ⟨config[i], List.getElem_mem hi, h⟩
    · obtain ⟨j, hj, rfl⟩ := List.mem_take_iff_getElem.mp hmem
      have hji : j < i := by omega
      exact .inr fun h => h j i (by omega) hi hji hclash
  · rintro (⟨statement, hmem, h⟩ | h)
    · obtain ⟨i, hi, rfl⟩ := List.mem_iff_getElem.mp hmem
      exact ⟨i, config[i], List.getElem?_eq_getElem hi, refused_iff.mpr (.inl h)⟩
    · simp only [not_forall, not_not] at h
      obtain ⟨j, i, hj, hi, hji, hclash⟩ := h
      refine ⟨i, config[i], List.getElem?_eq_getElem hi, refused_iff.mpr (.inr ?_)⟩
      refine ⟨config[j], ?_, hclash⟩
      exact List.mem_take_iff_getElem.mpr ⟨j, by omega, rfl⟩

/-! ### Permutations of the paths -/

/-- A statement that begins with `path`. -/
def isPath (statement : NginxConfigStatement) : Bool :=
  statement.tokens.head? = some (bytes "path")

/-- The `path` statements are permuted, and the others are the same. -/
structure PermutesPaths (config config' : NginxConfig) : Prop where
  paths : (config.filter isPath).Perm (config'.filter isPath)
  others : config.filter (!isPath ·) = config'.filter (!isPath ·)

theorem PermutesPaths.symm {config config' : NginxConfig} (h : PermutesPaths config config') :
    PermutesPaths config' config :=
  ⟨h.paths.symm, h.others.symm⟩

theorem PermutesPaths.mem_iff {config config' : NginxConfig} (h : PermutesPaths config config')
    {statement : NginxConfigStatement} : statement ∈ config ↔ statement ∈ config' := by
  have hpaths := h.paths.mem_iff (a := statement)
  have hothers := congrArg (statement ∈ ·) h.others
  simp only [List.mem_filter] at hpaths hothers
  rcases hpath : isPath statement <;> simp_all

theorem isPath_of_pathName {statement : NginxConfigStatement} {name : Bytes}
    (h : pathName statement = some name) : isPath statement = true := by
  obtain ⟨handlerId, block, htokens, -⟩ := pathName_eq_some.mp h
  simp [isPath, htokens]

theorem not_isPath_of_isPort {statement : NginxConfigStatement} (h : IsPort statement) :
    isPath statement = false := by
  obtain ⟨arguments, htokens⟩ := h
  simp [isPath, htokens, path_ne_port.symm]

/-- Only two paths, or two others, can clash. -/
theorem Clashes.isPath_eq {r s : NginxConfigStatement} (h : Clashes r s) : isPath r = isPath s := by
  rcases h with ⟨hs, n, hr, -⟩ | ⟨name, hr, hs⟩
  · rw [not_isPath_of_isPort hs, not_isPath_of_isPort (isPort_of_portNumber hr)]
  · rw [isPath_of_pathName hr, isPath_of_pathName hs]

theorem Clashes.symm_of_isPath {r s : NginxConfigStatement} (h : Clashes r s)
    (hr : isPath r = true) : Clashes s r := by
  rcases h with ⟨hs, n, hn, -⟩ | ⟨name, hname, hname'⟩
  · rw [not_isPath_of_isPort (isPort_of_portNumber hn)] at hr
    cases hr
  · exact .inr ⟨name, hname', hname⟩

/-- A relation that holds across a partition holds pairwise when it does so in
its parts. -/
theorem pairwise_iff_filter {α : Type*} {R : α → α → Prop} (p : α → Bool)
    (h : ∀ a b, p a ≠ p b → R a b) {l : List α} :
    l.Pairwise R ↔ (l.filter p).Pairwise R ∧ (l.filter (!p ·)).Pairwise R := by
  refine ⟨fun hl => ⟨hl.filter _, hl.filter _⟩, ?_⟩
  rintro ⟨hpos, hneg⟩
  induction l with
  | nil => exact .nil
  | cons a l ih =>
    by_cases ha : p a = true
    · rw [List.filter_cons_of_pos ha, List.pairwise_cons] at hpos
      rw [List.filter_cons_of_neg (by simp [ha])] at hneg
      refine .cons (fun b hb => ?_) (ih hpos.2 hneg)
      by_cases hb' : p b = true
      · exact hpos.1 b (List.mem_filter.mpr ⟨hb, hb'⟩)
      · exact h a b (by simp [ha, hb'])
    · rw [List.filter_cons_of_pos (by simp [ha]), List.pairwise_cons] at hneg
      rw [List.filter_cons_of_neg ha] at hpos
      refine .cons (fun b hb => ?_) (ih hpos hneg.2)
      by_cases hb' : p b = true
      · exact h a b (by simp [ha, hb'])
      · exact hneg.1 b (List.mem_filter.mpr ⟨hb, by simp [hb']⟩)

theorem pairwise_of_permutesPaths {config config' : NginxConfig}
    (h : PermutesPaths config config') (hconfig : config.Pairwise fun r s => ¬Clashes r s) :
    config'.Pairwise fun r s => ¬Clashes r s := by
  have hcross : ∀ r s, isPath r ≠ isPath s → ¬Clashes r s := fun r s hne hclash =>
    hne hclash.isPath_eq
  obtain ⟨hpaths, hothers⟩ := (pairwise_iff_filter isPath hcross).mp hconfig
  refine (pairwise_iff_filter isPath hcross).mpr ⟨?_, h.others ▸ hothers⟩
  -- among paths the order of a clash does not matter
  have hmem : ∀ r ∈ config.filter isPath, isPath r = true := fun r hr => (List.mem_filter.mp hr).2
  have hstrong : (config.filter isPath).Pairwise fun r s => ¬Clashes r s ∧ ¬Clashes s r := by
    refine hpaths.imp_of_mem fun {r s} _ hs hclash => ⟨hclash, fun hclash' => ?_⟩
    exact hclash (hclash'.symm_of_isPath (hmem s hs))
  exact (h.paths.pairwise hstrong fun hclash => hclash.symm).imp And.left

/-- The order of the paths does not decide whether a statement is refused. -/
theorem exists_refusedAt_of_permutesPaths {config config' : NginxConfig}
    (h : PermutesPaths config config') :
    (∃ i, RefusedAt config i) ↔ ∃ i, RefusedAt config' i := by
  have hone : ∀ {c c' : NginxConfig}, PermutesPaths c c' → (∃ i, RefusedAt c i) →
      ∃ i, RefusedAt c' i := by
    intro c c' hc hrefused
    rw [exists_refusedAt_iff] at hrefused ⊢
    rcases hrefused with ⟨statement, hmem, hst⟩ | hclash
    · exact .inl ⟨statement, hc.mem_iff.mp hmem, hst⟩
    · exact .inr fun hpairwise => hclash (pairwise_of_permutesPaths hc.symm hpairwise)
  exact ⟨hone h, hone h.symm⟩

/-! ### The table of handlers -/

/-- The key a statement declares, with the handler made for it. -/
def declared (statement : NginxConfigStatement) : Option (Bytes × Handler) := do
  let (name, handlerId) ← declaration statement
  let block ← statement.childBlock
  let handler ← (createByName handlerId).bind (·.init name block)
  return (name, handler)

theorem declared_eq_some {statement : NginxConfigStatement} {name : Bytes} {handler : Handler} :
    declared statement = some (name, handler) ↔ ∃ handlerId block,
      declaration statement = some (name, handlerId) ∧ statement.childBlock = some block ∧
        (createByName handlerId).bind (·.init name block) = some handler := by
  rcases hdeclares : declaration statement with _ | ⟨name', handlerId⟩
  · simp [declared, hdeclares]
  · rcases hblock : statement.childBlock with _ | block
    · simp [declared, hdeclares, hblock]
    · rcases hhandler : (createByName handlerId).bind (·.init name' block) with _ | handler'
      · simp only [declared, hdeclares, hblock, hhandler, Option.bind_eq_bind, Option.bind_some,
          Option.bind_none]
        constructor
        · rintro ⟨⟩
        · rintro ⟨_, _, ⟨⟩, ⟨⟩, h⟩
          rw [hhandler] at h
          cases h
      · simp only [declared, hdeclares, hblock, hhandler, Option.bind_eq_bind, Option.bind_some]
        constructor
        · rintro ⟨⟩
          exact ⟨handlerId, block, rfl, rfl, hhandler⟩
        · rintro ⟨_, _, ⟨⟩, ⟨⟩, h⟩
          rw [hhandler] at h
          cases h
          rfl

/-- A handler that is declared goes into the table. -/
theorem table_declare {s s' : LoadState} {statement : NginxConfigStatement}
    {name handlerId : Bytes} {block : NginxConfig} {missing : LoadStep}
    (hdeclares : declaration statement = some (name, handlerId))
    (hblock : statement.childBlock = some block) (hmissing : missing ≠ .next s')
    (h : s.declare name handlerId block missing = .next s') :
    s'.info.uriPrefixToHandler =
      (declared statement).toList.foldl (fun m d => m.insert d.1 (some d.2))
        s.info.uriPrefixToHandler := by
  rw [LoadState.declare] at h
  rcases hcreate : createByName handlerId with _ | handler
  · rw [hcreate] at h
    exact absurd h hmissing
  · rcases hinit : handler.init name block with _ | handler'
    · simp only [hcreate, hinit] at h
      cases h
    · simp only [hcreate, hinit] at h
      cases h
      have hhandler : (createByName handlerId).bind (·.init name block) = some handler' := by
        rw [hcreate, Option.bind_some, hinit]
      rw [declared_eq_some.mpr ⟨handlerId, block, hdeclares, hblock, hhandler⟩]
      rfl

/-- **What one statement does to the table.** -/
theorem table_step {s s' : LoadState} {statement : NginxConfigStatement}
    (h : s.step statement = .next s') :
    s'.info.uriPrefixToHandler =
      (declared statement).toList.foldl (fun m d => m.insert d.1 (some d.2))
        s.info.uriPrefixToHandler := by
  rcases htokens : statement.tokens with _ | ⟨key, arguments⟩
  · simp [LoadState.step, htokens] at h
  by_cases hport : key = bytes "port"
  · subst hport
    -- a port declares no handler
    have hnone : declared statement = none := by
      rw [declared, (declaration_of_port htokens).2]
      rfl
    rw [hnone]
    simp only [LoadState.step, htokens, if_pos] at h
    split_ifs at h
    rcases harguments : arguments[0]? with _ | token
    · simp [harguments] at h
    · rcases hstoi : stoi token with _ | n
      · simp [harguments, hstoi] at h
      · simp only [harguments, hstoi] at h
        cases h
        rfl
  by_cases hpath : key = bytes "path"
  · subst hpath
    simp only [LoadState.step, htokens, if_neg hport, if_pos] at h
    rcases arguments with _ | ⟨name, _ | ⟨handlerId, _ | ⟨extra, arguments⟩⟩⟩ <;>
      rcases hblock : statement.childBlock with _ | block <;>
      simp only [hblock, reduceCtorEq] at h
    split_ifs at h
    have htable := table_declare (declaration_eq_some.mpr ⟨block, hblock, .inl htokens⟩) hblock
      (by simp) h
    exact htable
  by_cases hdefault : key = bytes "default"
  · subst hdefault
    simp only [LoadState.step, htokens, if_neg hport, if_neg hpath, if_pos] at h
    rcases arguments with _ | ⟨handlerId, _ | ⟨extra, arguments⟩⟩ <;>
      rcases hblock : statement.childBlock with _ | block <;>
      simp only [hblock, reduceCtorEq] at h
    exact table_declare (declaration_eq_some.mpr ⟨block, hblock, .inr ⟨htokens, rfl⟩⟩) hblock
      (by simp) h
  · simp only [LoadState.step, htokens, if_neg hport, if_neg hpath, if_neg hdefault] at h
    rcases harguments : arguments[0]? with _ | token <;> simp [harguments] at h

theorem table_load {s : LoadState} {config : NginxConfig} {info : ServerInfo}
    (h : s.load config = .returned true info) :
    info.uriPrefixToHandler =
      (config.filterMap declared).foldl (fun m d => m.insert d.1 (some d.2))
        s.info.uriPrefixToHandler := by
  induction config generalizing s with
  | nil =>
    cases h
    rfl
  | cons statement config ih =>
    rw [LoadState.load] at h
    -- only a loop that goes on returns true
    rcases hstep : s.step statement with s' | info' | _ | _
    · simp only [hstep] at h
      rw [ih h, table_step hstep]
      rcases hd : declared statement with _ | d
      · rw [List.filterMap_cons_none hd]
        rfl
      · rw [List.filterMap_cons_some hd]
        rfl
    · simp [hstep] at h
    · simp [hstep] at h
    · simp [hstep] at h

/-- What was entered last for a key. -/
theorem getElem?_foldl_insert (l : List (Bytes × Handler)) (key : Bytes)
    (m : Std.ExtTreeMap Bytes (Option Handler)) :
    (l.foldl (fun m d => m.insert d.1 (some d.2)) m)[key]? =
      ((l.filter (·.1 = key)).getLast?.map fun d => some d.2).or m[key]? := by
  induction l using List.reverseRecOn with
  | nil => simp
  | append_singleton l d ih =>
    rw [List.foldl_append, List.foldl_cons, List.foldl_nil, Std.ExtTreeMap.getElem?_insert,
      List.filter_append]
    by_cases hd : d.1 = key
    · simp [hd]
    · simp [hd, ih]

/-! ### What is declared last -/

/-- The statement that declares a key last. -/
def lastDeclaration (config : NginxConfig) (key : Bytes) : Option NginxConfigStatement :=
  (config.filter fun statement => (declaration statement).map Prod.fst = some key).getLast?

/-- Among the handlers declared, those of a key come from its declarations. -/
theorem filter_declared (config : NginxConfig) (key : Bytes) :
    (config.filterMap declared).filter (·.1 = key) =
      (config.filter fun statement =>
        (declaration statement).map Prod.fst = some key).filterMap declared := by
  rw [List.filter_filterMap, List.filterMap_filter]
  refine List.filterMap_congr fun statement _ => ?_
  rcases hd : declared statement with _ | ⟨name, handler⟩
  · simp
  · obtain ⟨handlerId, block, hdeclares, -⟩ := declared_eq_some.mp hd
    by_cases hname : name = key <;> simp [hdeclares, hname]

/-- Every declaration of an accepted configuration has made a handler. -/
theorem exists_declared {config : NginxConfig}
    (hall : ∀ i, ¬RefusedAt config i ∧ ¬FaultyAt config i) {statement : NginxConfigStatement}
    (hmem : statement ∈ config) {name handlerId : Bytes}
    (hdeclares : declaration statement = some (name, handlerId)) :
    ∃ handler, declared statement = some (name, handler) := by
  obtain ⟨i, hi, rfl⟩ := List.mem_iff_getElem.mp hmem
  have hat : config[i]? = some config[i] := List.getElem?_eq_getElem hi
  have hfaulty : ¬Faulty config[i] := fun h => (hall i).2 ⟨_, hat, h⟩
  have hrefused : ¬Refused (config.take i) config[i] := fun h => (hall i).1 ⟨_, hat, h⟩
  obtain ⟨block, hblock, htokens⟩ := declaration_eq_some.mp hdeclares
  rw [faulty_declares_iff hdeclares hblock, not_or] at hfaulty
  -- without a class a path is refused and a default is faulty
  rcases hcreate : createByName handlerId with _ | handler
  · rcases htokens with htokens | ⟨htokens, -⟩
    · exact absurd ((refused_path_iff htokens hblock).mpr (.inr hcreate)) hrefused
    · exact absurd ⟨htokens, hcreate⟩ hfaulty.2
  · rcases hinit : handler.init name block with _ | handler'
    · exact absurd ⟨handler, hcreate, hinit⟩ hfaulty.1
    · refine ⟨handler', declared_eq_some.mpr ⟨handlerId, block, hdeclares, hblock, ?_⟩⟩
      rw [hcreate, Option.bind_some, hinit]

/-- **The table of an accepted configuration** holds for each key the handler
that was declared for it last. -/
theorem getElem?_table {garbage : ℤ} {config : NginxConfig} {info : ServerInfo}
    (hload : (LoadState.initial (.fresh garbage)).load config = .returned true info)
    (hall : ∀ i, ¬RefusedAt config i ∧ ¬FaultyAt config i) (key : Bytes) :
    info.uriPrefixToHandler[key]? =
      (lastDeclaration config key).map fun statement => (declared statement).map Prod.snd := by
  have hempty : (LoadState.initial (.fresh garbage)).info.uriPrefixToHandler = ∅ := rfl
  rw [table_load hload, getElem?_foldl_insert, hempty, Std.ExtTreeMap.getElem?_empty,
    Option.or_none, filter_declared, lastDeclaration]
  -- no declaration of the key is lost on the way to the table
  have hmem : ∀ statement ∈ config.filter fun statement =>
      (declaration statement).map Prod.fst = some key, ∃ d, declared statement = some d := by
    intro statement hst
    obtain ⟨hst, hkey⟩ := List.mem_filter.mp hst
    obtain ⟨⟨name, handlerId⟩, hdeclares, -⟩ := Option.map_eq_some_iff.mp (of_decide_eq_true hkey)
    obtain ⟨handler, hd⟩ := exists_declared hall hst hdeclares
    exact ⟨(name, handler), hd⟩
  rcases List.eq_nil_or_concat' (config.filter fun statement =>
    (declaration statement).map Prod.fst = some key) with hnil | ⟨before, last, hlast⟩
  · rw [hnil]
    rfl
  · obtain ⟨d, hd⟩ := hmem last (by rw [hlast]; simp)
    rw [hlast, List.filterMap_append, List.filterMap_cons_some hd]
    simp [hd]

/-- A path declares its prefix, and whatever else declares something declares
the default handler. -/
theorem isPath_of_declares {statement : NginxConfigStatement} {key : Bytes}
    (h : (declaration statement).map Prod.fst = some key) :
    (isPath statement = true ∧ pathName statement = some key) ∨
      (isPath statement = false ∧ key = bytes "default") := by
  obtain ⟨⟨name, handlerId⟩, hdeclares, rfl⟩ := Option.map_eq_some_iff.mp h
  obtain ⟨block, hblock, htokens | ⟨htokens, hname⟩⟩ := declaration_eq_some.mp hdeclares
  · have hpath : pathName statement = some name := pathName_eq_some.mpr ⟨_, _, htokens, hblock⟩
    exact .inl ⟨isPath_of_pathName hpath, hpath⟩
  · exact .inr ⟨by simp [isPath, htokens, default_ne_path], hname.symm⟩

/-- A handler in the table is that of the last declaration of its key. -/
theorem exists_lastDeclaration {garbage : ℤ} {config : NginxConfig} {info : ServerInfo}
    (hload : (LoadState.initial (.fresh garbage)).load config = .returned true info)
    (hall : ∀ i, ¬RefusedAt config i ∧ ¬FaultyAt config i) {key : Bytes} {pointer : Option Handler}
    (hpointer : info.uriPrefixToHandler[key]? = some pointer) :
    ∃ statement handlerId block handler, lastDeclaration config key = some statement ∧
      declaration statement = some (key, handlerId) ∧ statement.childBlock = some block ∧
      (createByName handlerId).bind (·.init key block) = some handler ∧ pointer = some handler := by
  rw [getElem?_table hload hall] at hpointer
  obtain ⟨statement, hlast, rfl⟩ := Option.map_eq_some_iff.mp hpointer
  obtain ⟨hmem, hkey⟩ := List.mem_filter.mp (List.mem_of_getLast? hlast)
  obtain ⟨⟨name, handlerId⟩, hdeclares, rfl⟩ := Option.map_eq_some_iff.mp (of_decide_eq_true hkey)
  obtain ⟨handler, hd⟩ := exists_declared hall hmem hdeclares
  obtain ⟨handlerId', block, hdeclares', hblock, hhandler⟩ := declared_eq_some.mp hd
  refine ⟨statement, handlerId', block, handler, hlast, hdeclares', hblock, hhandler, ?_⟩
  rw [hd]
  rfl

/-- Only what a second condition keeps is looked through for the first. -/
theorem filter_eq_filter_filter {α : Type*} {p q : α → Bool} {l : List α}
    (h : ∀ a ∈ l, p a = true → q a = true) : l.filter p = (l.filter q).filter p := by
  rw [List.filter_filter]
  refine List.filter_congr fun a ha => ?_
  by_cases hp : p a = true
  · simp [hp, h a ha hp]
  · simp [hp]

/-- What declares the default handler is none of the paths. -/
theorem lastDeclaration_default {config config' : NginxConfig} (h : PermutesPaths config config')
    (hdefault : ∀ statement ∈ config, pathName statement ≠ some (bytes "default")) :
    lastDeclaration config (bytes "default") = lastDeclaration config' (bytes "default") := by
  have hothers : ∀ c : NginxConfig,
      (∀ statement ∈ c, pathName statement ≠ some (bytes "default")) →
      lastDeclaration c (bytes "default") = lastDeclaration (c.filter (!isPath ·))
        (bytes "default") := by
    intro c hc
    unfold lastDeclaration
    congr 1
    refine filter_eq_filter_filter fun statement hst hdeclares => ?_
    rcases isPath_of_declares (of_decide_eq_true hdeclares) with ⟨-, hpath⟩ | ⟨hpath, -⟩
    · exact absurd hpath (hc statement hst)
    · simp [hpath]
  have hdefault' : ∀ statement ∈ config', pathName statement ≠ some (bytes "default") :=
    fun statement hst => hdefault statement (h.mem_iff.mpr hst)
  rw [hothers config hdefault, hothers config' hdefault', h.others]

/-- What declares another key is a path, and there is one at most. -/
theorem lastDeclaration_path {config config' : NginxConfig} (h : PermutesPaths config config')
    (hclash : config.Pairwise fun r s => ¬Clashes r s) {key : Bytes}
    (hkey : key ≠ bytes "default") : lastDeclaration config key = lastDeclaration config' key := by
  have hdeclares : ∀ statement, (declaration statement).map Prod.fst = some key →
      isPath statement = true ∧ pathName statement = some key := fun statement hst =>
    (isPath_of_declares hst).resolve_right fun hother => hkey hother.2
  have hpaths : ∀ c : NginxConfig,
      c.filter (fun statement => (declaration statement).map Prod.fst = some key) =
        (c.filter isPath).filter fun statement =>
          (declaration statement).map Prod.fst = some key := fun c =>
    filter_eq_filter_filter fun statement _ hst => (hdeclares statement (of_decide_eq_true hst)).1
  have hperm : (config.filter fun statement =>
      (declaration statement).map Prod.fst = some key).Perm
      (config'.filter fun statement => (declaration statement).map Prod.fst = some key) := by
    rw [hpaths config, hpaths config']
    exact h.paths.filter _
  have hname : ∀ statement ∈ config.filter fun statement =>
      (declaration statement).map Prod.fst = some key, pathName statement = some key :=
    fun statement hst => (hdeclares statement (of_decide_eq_true (List.mem_filter.mp hst).2)).2
  have hpairwise := hclash.filter fun statement =>
    decide ((declaration statement).map Prod.fst = some key)
  unfold lastDeclaration
  generalize config.filter (fun statement =>
    (declaration statement).map Prod.fst = some key) = l at *
  rcases l with _ | ⟨a, _ | ⟨b, l⟩⟩
  · rw [hperm.nil_eq]
  · rw [List.perm_singleton.mp hperm.symm]
  · -- two declarations of one path clash
    have hab : Clashes a b := .inr ⟨key, hname a (by simp), hname b (by simp)⟩
    exact absurd hab ((List.pairwise_cons.mp hpairwise).1 b (by simp))

/-- The order of the paths does not decide what is declared last. -/
theorem lastDeclaration_of_permutesPaths {config config' : NginxConfig}
    (h : PermutesPaths config config')
    (hdefault : ∀ statement ∈ config, pathName statement ≠ some (bytes "default"))
    (hclash : config.Pairwise fun r s => ¬Clashes r s) (key : Bytes) :
    lastDeclaration config key = lastDeclaration config' key := by
  by_cases hkey : key = bytes "default"
  · rw [hkey]
    exact lastDeclaration_default h hdefault
  · exact lastDeclaration_path h hclash hkey

/-! ### Loading in another order -/

/-- What loading reads of the statements is there: ports are numbers, the
default handler is of a registered class, and there are enough tokens. -/
structure Readable (config : NginxConfig) : Prop where
  port : ∀ statement ∈ config, IsPort statement → portNumber statement ≠ none
  default : ∀ statement ∈ config, ∀ handlerId, statement.tokens = [bytes "default", handlerId] →
    createByName handlerId ≠ none
  childBlock : ∀ statement ∈ config, ∀ name handlerId block handler,
    declaration statement = some (name, handlerId) → statement.childBlock = some block →
      createByName handlerId = some handler → handler.ReadsConfig →
        ∀ inner ∈ block, 2 ≤ inner.tokens.length
  keyword : ∀ statement ∈ config, ∀ key, statement.tokens = [key] → key ∈ keywords

theorem Readable.not_faulty {config : NginxConfig} (h : Readable config) (i : ℕ) :
    ¬FaultyAt config i := by
  rintro ⟨statement, hat, hfaulty⟩
  have hmem := List.mem_of_getElem? hat
  rcases hfaulty with ⟨arguments, htokens, hnumber⟩ | ⟨handlerId, htokens, hcreate⟩ |
    ⟨name, handlerId, block, handler, hdeclares, hblock, hcreate, hreads, inner, hinner, hlen⟩ |
    ⟨key, htokens, hkey⟩
  · exact h.port statement hmem ⟨arguments, htokens⟩ hnumber
  · exact h.default statement hmem handlerId htokens hcreate
  · have hle := h.childBlock statement hmem name handlerId block handler hdeclares hblock hcreate
      hreads inner hinner
    omega
  · exact hkey (h.keyword statement hmem key htokens)

theorem Readable.of_permutesPaths {config config' : NginxConfig} (h : Readable config)
    (hpermutes : PermutesPaths config config') : Readable config' where
  port statement hst := h.port statement (hpermutes.mem_iff.mpr hst)
  default statement hst := h.default statement (hpermutes.mem_iff.mpr hst)
  childBlock statement hst := h.childBlock statement (hpermutes.mem_iff.mpr hst)
  keyword statement hst := h.keyword statement (hpermutes.mem_iff.mpr hst)

/-- Both tables route a request alike, and to the handler of one declaration:
of the class and with the child block that both configurations give last. -/
def RoutesAlike (config config' : NginxConfig) (info info' : ServerInfo) (request : Request) :
    Prop :=
  Connection.select info.uriPrefixToHandler request =
    Connection.select info'.uriPrefixToHandler request ∧
  ∀ path pointer, Connection.select info.uriPrefixToHandler request = .handler path pointer →
    ∃ statement handlerId block handler,
      lastDeclaration config path = some statement ∧
      lastDeclaration config' path = some statement ∧
      declaration statement = some (path, handlerId) ∧ statement.childBlock = some block ∧
      (createByName handlerId).bind (·.init path block) = some handler ∧ pointer = some handler

/-- A readable configuration is accepted unless a statement of it is refused. -/
theorem getServerInfo_of_readable {text : Bytes} {garbage : ℤ} {config : NginxConfig}
    (hparse : NginxConfigParser.parse [] text = some (.returned true config))
    (hreadable : Readable config) :
    (∃ i, RefusedAt config i) ∧
        (∃ info, getServerInfo text (.fresh garbage) = some (.returned false info)) ∨
      (∀ i, ¬RefusedAt config i) ∧
        ∃ info, getServerInfo text (.fresh garbage) = some (.returned true info) := by
  obtain ⟨result, hresult, hloads⟩ := @getServerInfo_cases _ garbage _ hparse
  rcases hloads with ⟨i, info, rfl, h, -⟩ | ⟨i, -, -, hfaulty, -⟩ | ⟨s, rfl, -, hall⟩
  · exact .inl ⟨⟨i, h⟩, info, hresult⟩
  · exact absurd hfaulty (hreadable.not_faulty i)
  · exact .inr ⟨fun i => (hall i (Nat.zero_le i)).1, _, hresult⟩

theorem load_of_getServerInfo {text : Bytes} {garbage : ℤ} {config : NginxConfig}
    {info : ServerInfo} (hparse : NginxConfigParser.parse [] text = some (.returned true config))
    (h : getServerInfo text (.fresh garbage) = some (.returned true info)) :
    (LoadState.initial (.fresh garbage)).load config = .returned true info := by
  simpa [getServerInfo, hparse] using h

/-- **The order of the paths does not matter**: the configuration is accepted
in both orders or refused in both, and the requests are routed alike. -/
theorem order_independent {text text' : Bytes} {config config' : NginxConfig} (garbage : ℤ)
    (hparse : NginxConfigParser.parse [] text = some (.returned true config))
    (hparse' : NginxConfigParser.parse [] text' = some (.returned true config'))
    (hdefault : ∀ statement ∈ config, pathName statement ≠ some (bytes "default"))
    (hreadable : Readable config) (hpermutes : PermutesPaths config config') :
    ∃ result info info', getServerInfo text (.fresh garbage) = some (.returned result info) ∧
      getServerInfo text' (.fresh garbage) = some (.returned result info') ∧
      (result = true → ∀ request, RoutesAlike config config' info info' request) := by
  have hreadable' := hreadable.of_permutesPaths hpermutes
  rcases @getServerInfo_of_readable _ garbage _ hparse hreadable with
    ⟨hrefused, info, hinfo⟩ | ⟨hall, info, hinfo⟩
  · rcases @getServerInfo_of_readable _ garbage _ hparse' hreadable' with
      ⟨-, info', hinfo'⟩ | ⟨hall', -⟩
    · exact ⟨false, info, info', hinfo, hinfo', by simp⟩
    · obtain ⟨i, h⟩ := (exists_refusedAt_of_permutesPaths hpermutes).mp hrefused
      exact absurd h (hall' i)
  · rcases @getServerInfo_of_readable _ garbage _ hparse' hreadable' with
      ⟨hrefused', -⟩ | ⟨hall', info', hinfo'⟩
    · obtain ⟨i, h⟩ := (exists_refusedAt_of_permutesPaths hpermutes).mpr hrefused'
      exact absurd h (hall i)
    · refine ⟨true, info, info', hinfo, hinfo', fun _ request => ?_⟩
      have hpasses : ∀ i, ¬RefusedAt config i ∧ ¬FaultyAt config i :=
        fun i => ⟨hall i, hreadable.not_faulty i⟩
      have hclash : config.Pairwise fun r s => ¬Clashes r s := by
        by_contra hclash
        exact (exists_refusedAt_iff.mpr (.inr hclash)).elim hall
      have hlast := lastDeclaration_of_permutesPaths hpermutes hdefault hclash
      have hload := load_of_getServerInfo hparse hinfo
      -- the same handler is declared last for every key
      have hsame : info.uriPrefixToHandler = info'.uriPrefixToHandler := by
        refine Std.ExtTreeMap.ext_getElem? fun key => ?_
        rw [getElem?_table hload hpasses, getElem?_table (load_of_getServerInfo hparse' hinfo')
          fun i => ⟨hall' i, hreadable'.not_faulty i⟩, hlast]
      refine ⟨by rw [hsame], fun path pointer hselect => ?_⟩
      obtain ⟨statement, handlerId, block, handler, hst, hrest⟩ := exists_lastDeclaration hload
        hpasses (Connection.select_eq_handler_iff.mp hselect).2.1
      exact ⟨statement, handlerId, block, handler, hst, hlast path ▸ hst, hrest⟩

def echoPath : NginxConfigStatement := .mk [bytes "path", bytes "/e", bytes "EchoHandler"] (some [])

def staticPath : NginxConfigStatement :=
  .mk [bytes "path", bytes "/", bytes "StaticHandler"] (some [.mk [bytes "root", bytes "/r"] none])

theorem readable_twoPaths : Readable [echoPath, staticPath] where
  port statement hst := by
    rintro ⟨arguments, htokens⟩
    rcases List.mem_pair.mp hst with rfl | rfl <;>
      exact absurd (List.cons.inj htokens).1 path_ne_port
  default statement hst handlerId htokens := by
    rcases List.mem_pair.mp hst with rfl | rfl <;> cases (List.cons.inj htokens).2
  childBlock statement hst name handlerId block handler _ hblock _ _ inner hinner := by
    rcases List.mem_pair.mp hst with rfl | rfl
    · cases hblock
      cases hinner
    · cases hblock
      rw [List.mem_singleton.mp hinner]
      decide
  keyword statement hst key htokens := by
    rcases List.mem_pair.mp hst with rfl | rfl <;> cases (List.cons.inj htokens).2

theorem order_independent_twoPaths :
    ∃ result info info',
      getServerInfo (bytes "path /e EchoHandler \x7b\x7dpath / StaticHandler \x7broot /r;\x7d")
        (.fresh 0) = some (.returned result info) ∧
      getServerInfo (bytes "path / StaticHandler \x7broot /r;\x7dpath /e EchoHandler \x7b\x7d")
        (.fresh 0) = some (.returned result info') ∧
      (result = true → ∀ request,
        RoutesAlike [echoPath, staticPath] [staticPath, echoPath] info info' request) := by
  refine order_independent 0 rfl rfl (fun statement hst => ?_) readable_twoPaths
    ⟨.swap _ _ _, rfl⟩
  rcases List.mem_pair.mp hst with rfl | rfl <;> decide

end Server
