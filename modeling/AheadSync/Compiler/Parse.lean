import AheadSync.Compiler.Validate
import AheadSync.Core.Protocol
import AheadSync.Lib.Parsing

/-! From the text of a schema to its declarations (`compiler/src/parse.rs`). The text of a string
    literal is read by a parameter, as `serde_json` reads it. -/

namespace AheadSync
namespace Compiler

structure Token where
  text : String
  line : ℕ
  col : ℕ

/-! ### Words and numbers -/

/-- `is_ascii_alphanumeric` or an underscore. -/
def isWordChar (c : Char) : Bool := c.isAlphanum || c = '_'

def isIdentifier (s : String) : Bool :=
  match s.toList with
  | [] => false
  | c :: cs => (c.isAlpha || c = '_') && (c :: cs).all isWordChar

structure Identifier where
  text : String
  valid : isIdentifier text

theorem Identifier.ne_empty (id : Identifier) : id.text ≠ "" := by
  intro h
  have hv := id.valid
  rw [h] at hv
  exact absurd hv (by decide)

/-- `str::parse::<u64>` on the text of a token. -/
def parseU64 (s : String) : Option ℕ :=
  let n := s.toList.foldl (fun n c => n * 10 + (c.toNat - '0'.toNat)) 0
  if s ≠ "" ∧ s.toList.all (·.isDigit) ∧ n < 2 ^ 64 then some n else none

/-! ### Tokens -/

/-- The end of a string literal whose opening quote is taken: what it holds with the closing quote,
    and the rest. -/
def scanString : List Char → Option (List Char × List Char)
  | [] => none
  | '"' :: cs => some (['"'], cs)
  | '\\' :: c :: cs => (scanString cs).map fun (text, rest) => ('\\' :: c :: text, rest)
  | c :: cs => (scanString cs).map fun (text, rest) => (c :: text, rest)

/-- What the lexer has come to: the characters left, the position of the first of them, and the tokens
    before it. -/
structure Lexer where
  chars : List Char
  line : ℕ := 1
  col : ℕ := 1
  tokens : List Token := []

/-- Take a token. -/
def Lexer.push (l : Lexer) (text rest : List Char) : Lexer :=
  { l with chars := rest, col := l.col + text.length
           tokens := l.tokens ++ [⟨String.ofList text, l.line, l.col⟩] }

/-- One turn of the lexer. -/
def lexStep (l : Lexer) : Except String (ForInStep Lexer) :=
  match l.chars with
  | [] => .ok (.done l)
  | c :: cs =>
    if c = '\n' then .ok (.yield { l with chars := cs, line := l.line + 1, col := 1 })
    else if isWhitespace c then .ok (.yield { l with chars := cs, col := l.col + 1 })
    else if c = '/' ∧ cs.head? = some '/' then
      let comment := (c :: cs).takeWhile (· ≠ '\n')
      .ok (.yield { l with chars := (c :: cs).dropWhile (· ≠ '\n'), col := l.col + comment.length })
    else if isWordChar c then
      .ok (.yield (l.push ((c :: cs).takeWhile isWordChar) ((c :: cs).dropWhile isWordChar)))
    else if c = '"' then
      match scanString cs with
      | none => .error (reportAt ⟨l.line, l.col⟩ "unterminated string")
      | some (text, rest) => .ok (.yield (l.push ('"' :: text) rest))
    else if "\x7b\x7d()[]?,.@<>:".toList.contains c then .ok (.yield (l.push [c] cs))
    else .error (reportAt ⟨l.line, l.col⟩ ("unsupported character " ++ String.singleton c))

/-- `lex`: the tokens of a source, the last of them its end. -/
def lex (source : String) : Except String (Cursor Token) := do
  let chars := source.toList
  let l ← turns lexStep (chars.length + 1) { chars }
  let eof : Token := ⟨"<eof>", l.line, l.col⟩
  match l.tokens with
  | [] => return ⟨eof, []⟩
  | token :: rest => return ⟨token, rest ++ [eof]⟩

/-! ### The parser -/

/-- A parser of a source. -/
abbrev Parse (α : Type) := Parser Token String α

namespace Parse

/-- `Parser::err`. -/
def fail {α : Type} (message : String) : Parse α := do
  let t := (← get).token
  throw (reportAt ⟨t.line, t.col⟩ (message ++ " (found '" ++ t.text ++ "')"))

def position : Parse Pos := do
  let t := (← get).token
  return ⟨t.line, t.col⟩

def peek : Parse String := do return (← get).token.text

/-- The text of the token after the current one. -/
def peekNext : Parse (Option String) := do return (← get).rest.head?.map (·.text)

def take : Parse String := do
  let s ← peek
  if s ≠ "<eof>" then modify Cursor.advance
  return s

def eat (s : String) : Parse Bool := do
  if (← peek) = s then
    let _ ← take
    return true
  else return false

def need (s : String) : Parse Unit := do
  if ← eat s then return () else fail ("expected " ++ s)

def ident : Parse Identifier := do
  let s ← take
  if h : isIdentifier s then return ⟨s, h⟩ else fail "expected identifier"

/-- The comma between the items of a list, unless the list ends. -/
def separator (close : String) : Parse Unit := do
  if (← peek) = close then return () else need ","

def startsQuote (s : String) : Bool := s.toList.head? = some '"'

section Expressions
variable (unquote : String → Option String)

/-- A string literal. -/
def stringLiteral : Parse String := do
  match unquote (← take) with
  | some s => return s
  | none => fail "invalid string"

/-- The name of an argument, or its place among those that have none. -/
def argumentKey (positional : ℕ) : Parse (String × ℕ) := do
  if (← peekNext) = some ":" then
    let name ← ident
    need ":"
    return (name.text, positional)
  else return (toString positional, positional + 1)

def argument (expression : Parse Value) (args : SortedMap String Value × ℕ) :
    Parse (ForInStep (SortedMap String Value × ℕ)) := do
  if ← eat ")" then return .done args
  else
    let (key, positional) ← argumentKey args.2
    let value ← expression
    if (args.1.lookup key).isSome then fail "duplicate argument"
    else
      separator ")"
      return .yield (args.1.insert key value, positional)

/-- `Parser::arguments`, on a parser of expressions. -/
def argumentsOf (expression : Parse Value) : Parse Value := do
  need "("
  let args ← Parser.loop (argument expression) (.empty, 0)
  return .obj args.1.entries

def item (expression : Parse Value) (items : List Value) : Parse (ForInStep (List Value)) := do
  if ← eat "]" then return .done items
  else
    let value ← expression
    separator "]"
    return .yield (items ++ [value])

def nameStep (name : String) : Parse (ForInStep String) := do
  if ← eat "." then return .yield (name ++ "." ++ (← ident).text) else return .done name

/-- One level of `Parser::expression`. -/
def expressionLevel (expression : Parse Value) : Parse Value := do
  if ← eat "[" then return .arr (← Parser.loop (item expression) [])
  else if startsQuote (← peek) then return .str (← stringLiteral unquote)
  else
    let name ← Parser.loop nameStep (← ident).text
    if (← peek) = "(" then
      return .ofEntries [("name", .str name), ("arguments", ← argumentsOf expression)]
    else return .str name

/-- `Parser::expression`. -/
def expression : Parse Value := Parser.recursive (expressionLevel unquote) "expression"

/-- `Parser::arguments`. -/
def arguments : Parse Value := argumentsOf (expression unquote)

/-- `Parser::version`, after the directive. -/
def version (seen : Bool) : Parse Version := do
  if seen then fail "duplicate version"
  else
    need "("
    match parseU64 (← take) with
    | none => fail "expected positive version"
    | some n =>
      if h : 0 < n ∧ n ≤ maxSafeInteger then
        need ")"
        return ⟨n, h.1, h.2⟩
      else fail "version must be positive"

/-- `Parser::deprecation`; the reason is left out. -/
def deprecation : Parse Unit := do
  if ← eat "(" then
    if ← eat ")" then return ()
    else if (← ident).text ≠ "reason" then fail "deprecated accepts only reason"
    else
      need ":"
      if startsQuote (← peek) then
        let _ ← stringLiteral unquote
        need ")"
      else fail "deprecated reason must be a string"
  else return ()

/-- `Parser::names`. -/
def names (close : String) : Parse (List String) :=
  Parser.loop (fun names => do
    if ← eat close then return .done names
    else
      let name ← ident
      separator close
      return .yield (names ++ [name.text])) []

/-- Whether a directive of one `@` follows. -/
def directiveFollows : Parse Bool := do
  return (← peek) = "@" && ((← peekNext).any (· ≠ "@"))

/-- The `@deprecated` directives after an enum value or a slot: at most one. -/
def deprecatedDirectives (unsupported : String) : Parse Bool :=
  Parser.loop (fun marked => do
    if ← directiveFollows then
      need "@"
      let attr ← ident
      if attr.text ≠ "deprecated" then fail (unsupported ++ attr.text)
      else if marked then fail "duplicate deprecated"
      else
        deprecation unquote
        return .yield true
    else return .done marked) false

/-! ### Declarations -/

def enumValue (values : List String) : Parse (ForInStep (List String)) := do
  if ← eat "\x7d" then return .done values
  else
    let value ← ident
    let _ ← deprecatedDirectives unquote "unsupported enum value directive "
    let _ ← eat ","
    return .yield (values ++ [value.text])

def enumDecl (name : String) (pos : Pos) : Parse EnumDecl := do
  return ⟨name, ← Parser.loop (enumValue unquote) [], pos⟩

/-- The directives of a field: its attributes, and whether it is deprecated. -/
def fieldDirective (found : SortedMap String Value × Bool) :
    Parse (ForInStep (SortedMap String Value × Bool)) := do
  if ← directiveFollows then
    need "@"
    let attr ← ident
    if attr.text = "deprecated" then
      if found.2 then fail "duplicate field directive"
      else
        deprecation unquote
        return .yield (found.1, true)
    else if attr.text ∉ ["reference", "inverse", "requires"] then
      fail ("unsupported field directive " ++ attr.text)
    else
      let args ← arguments unquote
      if (found.1.lookup attr.text).isSome then fail "duplicate field directive"
      else return .yield (found.1.insert attr.text args, found.2)
  else return .done found

def fieldDecl (pos : Pos) : Parse FieldDecl := do
  let name ← ident
  let typeName ← ident
  let isList ← eat "["
  if isList then need "]"
  let nullable ← eat "?"
  let found ← Parser.loop (fieldDirective unquote) (.empty, false)
  return ⟨name.text, typeName.text, isList, nullable, found.1, pos⟩

/-- What is read of the body of a model. -/
structure ModelBody where
  fields : List FieldDecl := []
  identity : List String := []
  unique : List UniqueDecl := []
  version : Version := .first
  versionSeen : Bool := false

/-- The directive of a model, after `@@`. -/
def modelDirective (body : ModelBody) (pos : Pos) : Parse ModelBody := do
  let attr ← ident
  if attr.text = "version" then
    return { body with version := ← version body.versionSeen, versionSeen := true }
  else
    need "("
    let names ← names ")"
    if attr.text = "id" then
      if body.identity ≠ [] then fail "duplicate identity"
      else return { body with identity := names }
    else if attr.text = "unique" then return { body with unique := body.unique ++ [⟨names, pos⟩] }
    else fail ("unsupported model directive " ++ attr.text)

def modelItem (body : ModelBody) : Parse (ForInStep ModelBody) := do
  if ← eat "\x7d" then return .done body
  else
    let pos ← position
    if ← eat "@" then
      need "@"
      return .yield (← modelDirective body pos)
    else return .yield { body with fields := body.fields ++ [← fieldDecl unquote pos] }

def modelDecl (name : String) (pos : Pos) : Parse ModelDecl := do
  let body ← Parser.loop (modelItem unquote) {}
  return ⟨name, body.version, body.identity, body.fields, body.unique, pos⟩

def operationOf : String → Option OperationKind
  | "create" => some .create
  | "update" => some .update
  | "delete" => some .delete
  | _ => none

/-- The `<…>` of a slot, which only an update has. -/
def restriction (op : OperationKind) :
    Parse { fields : Option (List String) // fields.isSome → op = .update } := do
  if ← eat "<" then
    if h : op = .update then return ⟨some (← names ">"), fun _ => h⟩
    else fail "field restriction requires update"
  else return ⟨none, nofun⟩

def cardinality : Parse Cardinality := do
  if ← eat "[" then
    need "]"
    return .list
  else if ← eat "?" then return .optional
  else return .single

def slotDecl (pos : Pos) : Parse SlotDecl := do
  let name ← ident
  let model ← ident
  need "."
  let operation ← ident
  match operationOf operation.text with
  | none => fail "unknown operation"
  | some op =>
    let allowed ← restriction op
    let bindings ← if (← peek) = "(" then arguments unquote else pure (.obj [])
    let cardinality ← cardinality
    let _ ← deprecatedDirectives unquote "unsupported slot directive "
    return ⟨name.text, model.text, op, cardinality, allowed.1, bindings, pos, allowed.2⟩

/-- What is read of the body of a mutation. -/
structure MutationBody where
  slots : List SlotDecl := []
  version : Version := .first
  sequence : Option SequenceDecl := none
  versionSeen : Bool := false

/-- The directive of a mutation, after `@@`. -/
def mutationDirective (body : MutationBody) (pos : Pos) : Parse MutationBody := do
  let attr ← ident
  if attr.text = "sequence" then
    return { body with sequence := some ⟨← arguments unquote, pos⟩ }
  else if attr.text = "version" then
    return { body with version := ← version body.versionSeen, versionSeen := true }
  else fail ("unsupported mutation directive " ++ attr.text)

def mutationItem (body : MutationBody) : Parse (ForInStep MutationBody) := do
  if ← eat "\x7d" then return .done body
  else
    let pos ← position
    if ← eat "@" then
      need "@"
      return .yield (← mutationDirective unquote body pos)
    else return .yield { body with slots := body.slots ++ [← slotDecl unquote pos] }

def mutationDecl (name : Identifier) (pos : Pos) : Parse MutationDecl := do
  let body ← Parser.loop (mutationItem unquote) {}
  return ⟨name.text, body.version, body.slots, body.sequence, pos, name.ne_empty⟩

def prerequisiteField (fields : List PrerequisiteField) :
    Parse (ForInStep (List PrerequisiteField)) := do
  if ← eat ")" then return .done fields
  else
    let pos ← position
    let name ← ident
    let typeName ← ident
    separator ")"
    return .yield (fields ++ [⟨name.text, typeName.text, pos⟩])

def prerequisiteDecl (name : String) (pos : Pos) : Parse PrerequisiteDecl := do
  need "("
  return ⟨name, ← Parser.loop prerequisiteField [], pos⟩

/-- One declaration, added to those before it. -/
def declaration (d : Declarations) : Parse (ForInStep Declarations) := do
  if (← peek) = "<eof>" then return .done d
  else
    let pos ← position
    let kind ← take
    let name ← ident
    if kind = "prerequisite" then
      return .yield { d with prerequisites := d.prerequisites ++ [← prerequisiteDecl name.text pos] }
    else
      need "\x7b"
      if kind = "enum" then
        return .yield { d with enums := d.enums ++ [← enumDecl unquote name.text pos] }
      else if kind = "model" then
        return .yield { d with models := d.models ++ [← modelDecl unquote name.text pos] }
      else if kind = "mutation" then
        return .yield { d with mutations := d.mutations ++ [← mutationDecl unquote name pos] }
      else fail ("unsupported declaration " ++ kind)

end Expressions

end Parse

variable (unquote : String → Option String)

/-- `parse`. -/
def parse (source : String) : Except String Declarations := do
  let (d, c) ← Parser.loop (Parse.declaration unquote) {} (← lex source)
  return { d with endPos := ⟨c.token.line, c.token.col⟩ }

/-- `compile`. -/
def compile (source : String) : Except String Compiled := do
  return descriptors (← validate (← parse unquote source))

end Compiler
end AheadSync
