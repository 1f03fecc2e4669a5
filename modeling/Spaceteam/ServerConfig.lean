/-
Loading a configuration (`Server::getServerInfo` of `server.cc`, and what it
uses of `request_handler.cc`).

The statements of the configuration are looked at one by one; the tables of
handlers grow as paths are declared.  A token read behind the end of
`tokens_`, and `Init` called on a null pointer, are `undefined`; `std::stoi`
throws.  Handlers are created by name and then initialised; a pointer to a
handler is an `Option`, `none` for `nullptr`.
-/
import Spaceteam.ConfigParser
import Spaceteam.Handlers

/-- `std::stoi`; `none` when it throws. -/
def stoi (s : Bytes) : Option ℤ :=
  let (negative, text) := IStream.extractSign (s.dropWhile IStream.isSpace)
  let digits := text.takeWhile IStream.isDigit
  let value : ℤ :=
    if negative then -(IStream.decimalValue digits : ℤ) else IStream.decimalValue digits
  if digits ≠ [] ∧ -2147483648 ≤ value ∧ value ≤ 2147483647 then some value else none

/-! ### `request_handler.cc` -/

namespace RequestHandler

/-- `request_handler_builders`: the registered class names, each with what its
builder returns. -/
def requestHandlerBuilders : List (Bytes × Handler) :=
  [(bytes "EchoHandler", .echoHandler ⟨⟩),
    (bytes "HoldingHandler", .holdingHandler ⟨⟩),
    (bytes "NotFoundHandler", .notFoundHandler ⟨⟩),
    (bytes "ProxyHandler", .proxyHandler ⟨[], [], []⟩),
    (bytes "S3Handler", .s3Handler ⟨[], []⟩),
    (bytes "StaticHandler", .staticHandler ⟨[], []⟩),
    (bytes "StatusHandler", .statusHandler ⟨⟩)]

/-- `CreateByName`, which is given a C string. -/
def createByName (type : Bytes) : Option Handler :=
  requestHandlerBuilders.lookup (Bytes.cString type)

/-- `ConfigMap`. -/
abbrev ConfigMap := Std.ExtTreeMap Bytes Bytes

/-- `ParseConfig`: the first token of each statement is given the second; `none`
when one of them is not there. -/
def parseConfig (configMap : ConfigMap) (config : NginxConfig) : Option ConfigMap :=
  config.foldlM (fun configMap statement => do
    let name ← statement.tokens[0]?
    let parameter ← statement.tokens[1]?
    return configMap.insert name parameter) configMap

/-- `config_map_[key]`. -/
def ConfigMap.get (configMap : ConfigMap) (key : Bytes) : Bytes := configMap[key]?.getD []

end RequestHandler

open RequestHandler

/-! ### `Init` -/

def StaticHandler.init (uriPrefix : Bytes) (config : NginxConfig) : Option StaticHandler :=
  (parseConfig ∅ config).map fun configMap =>
    { uriPrefix := uriPrefix, root := configMap.get (bytes "root") }

def ProxyHandler.init (uriPrefix : Bytes) (config : NginxConfig) : Option ProxyHandler :=
  (parseConfig ∅ config).map fun configMap =>
    { uriPrefix := uriPrefix
      host := configMap.get (bytes "host")
      portno := configMap.get (bytes "portno") }

def S3Handler.init (uriPrefix : Bytes) (config : NginxConfig) : Option S3Handler :=
  (parseConfig ∅ config).map fun configMap =>
    { uriPrefix := uriPrefix, bucket := configMap.get (bytes "bucket") }

/-- `handler->Init(uri_prefix, config)`; `none` when it reads a token that is
not there. -/
def Handler.init (uriPrefix : Bytes) (config : NginxConfig) : Handler → Option Handler
  | .staticHandler _ => (StaticHandler.init uriPrefix config).map .staticHandler
  | .proxyHandler _ => (ProxyHandler.init uriPrefix config).map .proxyHandler
  | .s3Handler _ => (S3Handler.init uriPrefix config).map .s3Handler
  -- the others look at neither argument
  | handler => some handler

/-! ### `getServerInfo` -/

/-- `ServerInfo`. -/
structure ServerInfo where
  port : ℤ
  uriPrefixToHandler : Std.ExtTreeMap Bytes (Option Handler)
  handlerNameToPrefixes : Std.ExtTreeMap Bytes (List Bytes)

/-- `ServerInfo info;` with `garbage` the indeterminate `port`. -/
def ServerInfo.fresh (garbage : ℤ) : ServerInfo :=
  { port := garbage, uriPrefixToHandler := ∅, handlerNameToPrefixes := ∅ }

/-- `uri_prefix_to_handler[name] = handler` and
`handler_name_to_prefixes[handler_id].push_back(name)`. -/
def ServerInfo.register (info : ServerInfo) (name handlerId : Bytes) (handler : Handler) :
    ServerInfo :=
  { info with
    uriPrefixToHandler := info.uriPrefixToHandler.insert name (some handler)
    handlerNameToPrefixes := info.handlerNameToPrefixes.insert handlerId
      (info.handlerNameToPrefixes[handlerId]?.getD [] ++ [name]) }

/-- How a call of `getServerInfo` ends. -/
inductive LoadResult where
  | returned (result : Bool) (info : ServerInfo)
  | threw
  | undefined

namespace Server

/-- The variables of the loop. -/
structure LoadState where
  port : ℤ
  pathNames : List Bytes
  info : ServerInfo

/-- How an iteration of the loop ends. -/
inductive LoadStep where
  | next (s : LoadState)
  | returnsFalse (info : ServerInfo)
  | threw
  | undefined

namespace LoadState

def initial (info : ServerInfo) : LoadState := { port := -1, pathNames := [], info := info }

/-- The creation of a handler for `name`; `missing` is what happens when there
is no class of that name. -/
def declare (s : LoadState) (name handlerId : Bytes) (handlerConfig : NginxConfig)
    (missing : LoadStep) : LoadStep :=
  match createByName handlerId with
  | none => missing
  | some handler =>
    match handler.init name handlerConfig with
    | none => .undefined
    | some handler => .next { s with info := s.info.register name handlerId handler }

/-- One iteration of the loop over the statements. -/
def step (s : LoadState) (statement : NginxConfigStatement) : LoadStep :=
  match statement.tokens with
  | [] => .undefined
  | key :: arguments =>
    if key = bytes "port" then
      -- found duplicate port
      if s.port ≠ -1 then .returnsFalse s.info
      else
        match arguments[0]? with
        | none => .undefined
        | some token =>
          match stoi token with
          | none => .threw
          | some port => .next { s with port := port }
    else if key = bytes "path" then
      match arguments, statement.childBlock with
      | [name, handlerId], some handlerConfig =>
        -- found duplicate path
        if name ∈ s.pathNames then .returnsFalse s.info
        else
          ({ s with pathNames := s.pathNames ++ [name] } : LoadState).declare name handlerId
            handlerConfig (.returnsFalse s.info)
      | _, _ => .returnsFalse s.info
    else if key = bytes "default" then
      match arguments, statement.childBlock with
      -- `Init` is called without a look at the pointer
      | [handlerId], some block => s.declare (bytes "default") handlerId block .undefined
      | _, _ => .returnsFalse s.info
    else
      -- the message prints the second token
      match arguments[0]? with
      | none => .undefined
      | some _ => .returnsFalse s.info

/-- The loop, and what follows it. -/
def load (s : LoadState) : List NginxConfigStatement → LoadResult
  | [] => .returned true { s.info with port := s.port }
  | statement :: statements =>
    match s.step statement with
    | .next s => s.load statements
    | .returnsFalse info => .returned false info
    | .threw => .threw
    | .undefined => .undefined

end LoadState

/-- `getServerInfo` on the text of the file; `none` when the bound on the loop
of `Parse` is reached. -/
def getServerInfo (text : Bytes) (info : ServerInfo) : Option LoadResult :=
  match NginxConfigParser.parse [] text with
  | none => none
  | some .undefined => some .undefined
  | some (.returned false _) => some (.returned false info)
  | some (.returned true config) => some ((LoadState.initial info).load config)

end Server
