/-
The config file parser (`config_parser.h`, `config_parser.cc`).

A config is a list of statements, a statement a list of tokens with an
optional child block: the block-structured statements of `Blocks` with byte
strings for words.  `ParseToken` scans the stream for one token, giving the
rest of the stream back (`unget` included), and `Parse` loops over tokens,
growing the tree in place through a stack of pointers.

A pointer into the tree is the address of the block it points to.  Addresses
stay valid because statements are only ever appended.  Where the C++ would use
`top()`, `pop()` or `back()` on an empty container, an iteration is
`undefined`.
-/
import Mathlib.Data.List.ModifyLast
import Spaceteam.Blocks
import Spaceteam.Bytes

open Blocks

/-- `NginxConfigStatement`: `tokens_` and `child_block_`. -/
abbrev NginxConfigStatement := Blocks.Statement Bytes

/-- `NginxConfig`: its `statements_`. -/
abbrev NginxConfig := List NginxConfigStatement

/-! ### Printing -/

/-- `depth` times two spaces. -/
def indentation (depth : ℕ) : Bytes := (List.replicate depth (bytes "  ")).flatten

/-- The tokens of a statement, a space before each but the first. -/
def joinTokens : List Bytes → Bytes
  | [] => []
  | w :: ws => w ++ ws.flatMap fun w => bytes " " ++ w

mutual

def NginxConfigStatement.toString (depth : ℕ) : Blocks.Statement Bytes → Bytes
  | .mk tokens (some block) =>
    indentation depth ++ joinTokens tokens ++ bytes " \x7b\n"
      ++ NginxConfig.toString (depth + 1) block
      ++ indentation depth ++ bytes "\x7d" ++ bytes "\n"
  | .mk tokens none => indentation depth ++ joinTokens tokens ++ bytes ";" ++ bytes "\n"

def NginxConfig.toString (depth : ℕ) : List (Blocks.Statement Bytes) → Bytes
  | [] => []
  | statement :: statements =>
    NginxConfigStatement.toString depth statement ++ NginxConfig.toString depth statements

end

namespace NginxConfigParser

/-- `NginxConfigParser::TokenType`. -/
inductive TokenType where
  | start
  | normal
  | startBlock
  | endBlock
  | comment
  | statementEnd
  | eof
  | error
  deriving DecidableEq, Repr

/-- `NginxConfigParser::TokenParserState`. -/
inductive TokenParserState where
  | initialWhitespace
  | singleQuote
  | doubleQuote
  | comment
  | normal
  deriving DecidableEq, Repr

/-- A token type with the `value` that came with it. -/
structure Token where
  type : TokenType
  value : Bytes
  deriving DecidableEq, Repr

/-! ### `ParseToken` -/

/-- The bytes that end a bare word; the byte is put back with `unget`. -/
def endsWord (c : UInt8) : Bool :=
  c = ascii ' ' || c = ascii '\t' || c = ascii '\n' || c = ascii '\t' || c = ascii ';'
    || c = ascii '{' || c = ascii '}'

/-- The loop of `ParseToken`: the token and what is left of the stream. -/
def scan (state : TokenParserState) (value : Bytes) : Bytes → Token × Bytes
  | [] =>
    -- the end of the file
    if state = .singleQuote ∨ state = .doubleQuote then (⟨.error, value⟩, [])
    else (⟨.eof, value⟩, [])
  | c :: rest =>
    match state with
    | .initialWhitespace =>
      if c = ascii '{' then (⟨.startBlock, [c]⟩, rest)
      else if c = ascii '}' then (⟨.endBlock, [c]⟩, rest)
      else if c = ascii '#' then scan .comment [c] rest
      else if c = ascii '"' then scan .doubleQuote [c] rest
      else if c = ascii '\'' then scan .singleQuote [c] rest
      else if c = ascii ';' then (⟨.statementEnd, [c]⟩, rest)
      else if c = ascii ' ' ∨ c = ascii '\t' ∨ c = ascii '\n' ∨ c = ascii '\r' then
        scan .initialWhitespace value rest
      else scan .normal (value ++ [c]) rest
    | .singleQuote =>
      if c = ascii '\'' then (⟨.normal, value ++ [c]⟩, rest)
      else scan .singleQuote (value ++ [c]) rest
    | .doubleQuote =>
      if c = ascii '"' then (⟨.normal, value ++ [c]⟩, rest)
      else scan .doubleQuote (value ++ [c]) rest
    | .comment =>
      if c = ascii '\n' ∨ c = ascii '\r' then (⟨.comment, value⟩, rest)
      else scan .comment (value ++ [c]) rest
    | .normal =>
      if endsWord c then (⟨.normal, value⟩, c :: rest)
      else scan .normal (value ++ [c]) rest

def parseToken (input : Bytes) : Token × Bytes := scan .initialWhitespace [] input

/-! ### `Parse` -/

/-- The variables of `Parse`: `*config`, the stack with its top first, the last
token type and the number of open blocks. -/
structure ParserState where
  config : NginxConfig
  configStack : List (List ℕ)
  lastTokenType : TokenType
  numOpenBlocks : ℤ

/-- How an iteration of the loop ends. -/
inductive Iteration where
  | next (s : ParserState)
  | returns (result : Bool) (config : NginxConfig)
  | undefined

/-- What a call of `Parse` comes to. -/
inductive ParseResult where
  | returned (result : Bool) (config : NginxConfig)
  | undefined

namespace ParserState

def initial (config : NginxConfig) : ParserState :=
  { config := config, configStack := [[]], lastTokenType := .start, numOpenBlocks := 0 }

/-- `config_stack.top()->statements_.back()` is changed with `f`. -/
def modifyBack (s : ParserState) (f : NginxConfigStatement → NginxConfigStatement) :
    Option ParserState := do
  let top ← s.configStack.head?
  let statements ← blockAt top s.config
  if statements = [] then none
  else some { s with config := update (List.modifyLast f) top s.config }

/-- `config_stack.top()->statements_.emplace_back(new NginxConfigStatement)`. -/
def emplaceBack (s : ParserState) : Option ParserState := do
  let top ← s.configStack.head?
  some { s with config := update (· ++ [.mk [] none]) top s.config }

/-- The pointer to the child block of `config_stack.top()->statements_.back()`. -/
def backPointer (s : ParserState) : Option (List ℕ) := do
  let top ← s.configStack.head?
  let statements ← blockAt top s.config
  some (top ++ [statements.length - 1])

/-- `tokens_.push_back(token)`. -/
def pushToken (token : Bytes) (statement : NginxConfigStatement) : NginxConfigStatement :=
  .mk (statement.tokens ++ [token]) statement.childBlock

/-- `child_block_.reset(new NginxConfig)`. -/
def resetChildBlock (statement : NginxConfigStatement) : NginxConfigStatement :=
  .mk statement.tokens (some [])

/-- One iteration of the loop, on the token `ParseToken` delivers. -/
def step (s : ParserState) (token : Token) : Iteration :=
  let last := s.lastTokenType
  match token.type with
  | .error => .returns false s.config
  | .comment => .next s
  | .start => .returns false s.config
  | .normal =>
    if last = .start ∨ last = .statementEnd ∨ last = .startBlock ∨ last = .endBlock
        ∨ last = .normal then
      let s' := if last ≠ .normal then s.emplaceBack else some s
      match s'.bind (·.modifyBack (pushToken token.value)) with
      | none => .undefined
      | some s' => .next { s' with lastTokenType := .normal }
    else .returns false s.config
  | .statementEnd =>
    if last ≠ .normal then .returns false s.config
    else .next { s with lastTokenType := .statementEnd }
  | .startBlock =>
    if last ≠ .normal then .returns false s.config
    else
      match s.modifyBack resetChildBlock, s.backPointer with
      | some s', some newConfig =>
        .next { s' with
          configStack := newConfig :: s'.configStack
          numOpenBlocks := s'.numOpenBlocks + 1
          lastTokenType := .startBlock }
      | _, _ => .undefined
  | .endBlock =>
    if last ≠ .statementEnd ∧ last ≠ .endBlock ∧ last ≠ .startBlock then
      .returns false s.config
    else
      match s.configStack with
      | [] => .undefined
      | _ :: rest =>
        .next { s with
          configStack := rest
          numOpenBlocks := s.numOpenBlocks - 1
          lastTokenType := .endBlock }
  | .eof =>
    if s.numOpenBlocks ≠ 0 ∨ (last ≠ .statementEnd ∧ last ≠ .endBlock ∧ last ≠ .start) then
      .returns false s.config
    else .returns true s.config

end ParserState

/-- The loop of `Parse` over any source of tokens; `none` when `fuel`
iterations were not enough. -/
def parseLoop {σ : Type*} (nextToken : σ → Token × σ) : ℕ → σ → ParserState → Option ParseResult
  | 0, _, _ => none
  | fuel + 1, input, s =>
    match s.step (nextToken input).1 with
    | .next s' => parseLoop nextToken fuel (nextToken input).2 s'
    | .returns result config => some (.returned result config)
    | .undefined => some .undefined

/-- `Parse(config_file, config)` on the text of the stream. -/
def parse (config : NginxConfig) (text : Bytes) : Option ParseResult :=
  parseLoop parseToken (text.length + 1) text (.initial config)

/-- The tokens of a list one after the other, then the end of the file. -/
def nextOfList : List Token → Token × List Token
  | [] => (⟨.eof, []⟩, [])
  | t :: ts => (t, ts)

/-- `Parse` when `ParseToken` delivers the given tokens and then `EOF`. -/
def parseTokens (config : NginxConfig) (tokens : List Token) : Option ParseResult :=
  parseLoop nextOfList (tokens.length + 1) tokens (.initial config)

end NginxConfigParser
