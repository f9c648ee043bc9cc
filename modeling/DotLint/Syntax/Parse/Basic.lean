import DotLint.Syntax.Node
import DotLint.Syntax.Brackets

/-!
# Parser state, errors and token tests

The parser reads a token array from left to right; its state is the index of the next
token. It also knows the bracket pairing of the array, whether the keyword `in` may be read
as an operator (it may not in the head of a `for` loop), and how deeply statements and
expressions are nested.

A node's span starts at a *marker*, taken at the first token of the node, and ends where
the last token read so far ends (`finish`). A node of no tokens, which only the empty
program is, starts and ends at the marker.
-/

namespace DotLint

/-- Why a token list is not a program. -/
inductive ParseErrorKind where
  /-- A particular token was needed; `found` is the text of the token there, if any. -/
  | expected (what : String) (found : Option String)
  /-- A token that cannot stand here. -/
  | unexpectedToken (text : String)
  /-- The tokens end in the middle of a construct. -/
  | unexpectedEnd
  /-- The left side of an assignment is neither a name nor a member access. -/
  | invalidAssignmentTarget
  /-- Statements or expressions nest deeper than `Parse.maxDepth`. -/
  | nestingTooDeep
  /-- The recursion budget ran out; `parse` gives enough budget for every token list. -/
  | outOfBudget
deriving DecidableEq, Repr

/-- A syntax error and the position of the token at fault (or of the end of the input). -/
structure ParseError where
  kind : ParseErrorKind
  position : Position
deriving DecidableEq, Repr

/-- The description of a syntax error, without its position. -/
def ParseErrorKind.message : ParseErrorKind → String
  | .expected what none => "expected '" ++ what ++ "'"
  | .expected what (some t) => "expected '" ++ what ++ "', got '" ++ t ++ "'"
  | .unexpectedToken t => "unexpected token '" ++ t ++ "'"
  | .unexpectedEnd => "unexpected end of input"
  | .invalidAssignmentTarget => "invalid assignment target"
  | .nestingTooDeep => "nesting too deep"
  | .outOfBudget => "recursion budget exhausted"

/-- The text of a syntax error: what went wrong and where. -/
def ParseError.message (e : ParseError) : String :=
  e.kind.message ++ " at " ++ e.position.describe

/-- What the parser reads and the settings of the construct it is in. -/
structure ParseContext where
  tokens : Array Token
  closers : Array (Option Nat)
  allowIn : Bool
  depth : Nat

/-- A parser: reads the context, moves the index of the next token, may fail. -/
abbrev ParseM := ReaderT ParseContext (StateT Nat (Except ParseError))

/-- Where a node begins: the offset and position of its first token. -/
structure Marker where
  offset : Nat
  position : Position

namespace Parse

/-- The deepest nesting of statements, assignments, unary and `new` expressions. -/
def maxDepth : Nat := 200

/-- The text of an opening brace. -/
def openBrace : String := "\x7b"

/-- The text of a closing brace. -/
def closeBrace : String := "\x7d"

/-! ## Looking at tokens -/

/-- The next token, if any. -/
def peek : ParseM (Option Token) := do
  return (← read).tokens[← get]?

/-- The token `k` places after the next one, if any. -/
def peekAt (k : Nat) : ParseM (Option Token) := do
  return (← read).tokens[(← get) + k]?

/-- Moves past the next token. -/
def skip : ParseM Unit := modify (· + 1)

/-- Whether the next token is the punctuator `p`. -/
def atPunct (p : String) : ParseM Bool := do
  return (← peek).any (·.isPunct p)

/-- Whether the token `k` places after the next one is the punctuator `p`. -/
def peekAtPunct (k : Nat) (p : String) : ParseM Bool := do
  return (← peekAt k).any (·.isPunct p)

/-- Whether the next token is the reserved word `w`. -/
def atKeyword (w : String) : ParseM Bool := do
  return (← peek).any (·.isKeyword w)

/-- Whether the next token is the name `w` (a contextual word such as `of`). -/
def atIdentifier (w : String) : ParseM Bool := do
  return (← peek).any (fun t => t.kind == .identifier && t.text == w)

/-- Moves past the punctuator `p` if it is next, and says whether it was. -/
def eatPunct (p : String) : ParseM Bool := do
  if ← atPunct p then
    skip
    return true
  return false

/-- Moves past the reserved word `w` if it is next, and says whether it was. -/
def eatKeyword (w : String) : ParseM Bool := do
  if ← atKeyword w then
    skip
    return true
  return false

/-- The end of the last token: where the input ends. -/
def endOfInput : ParseM (Nat × Position) := do
  match (← read).tokens.back? with
  | some t => return (t.span.stop, t.loc.stop)
  | none => return (0, {})

/-- The position of the next token, or of the end of the input. -/
def position : ParseM Position := do
  match ← peek with
  | some t => return t.loc.start
  | none => return (← endOfInput).2

/-- The last token read, if any. -/
def previous : ParseM (Option Token) := do
  let i ← get
  if i = 0 then return none
  return (← read).tokens[i - 1]?

/-- Whether a line break stands between the last token read and the next one. -/
def newlineBefore : ParseM Bool := do
  match ← previous, ← peek with
  | some prev, some next => return prev.loc.stop.line < next.loc.start.line
  | _, _ => return false

/-- Whether a statement may end here: at the end, before `;` or a closing brace, or at a
line break. -/
def atStatementEnd : ParseM Bool := do
  return (← peek).isNone || (← atPunct ";") || (← atPunct closeBrace) || (← newlineBefore)

/-! ## Failing -/

/-- Fails for want of the token `what`. -/
def failExpected {α : Type} (what : String) : ParseM α := do
  throw ⟨.expected what ((← peek).map (·.text)), ← position⟩

/-- Fails at the next token, or at the end of the input. -/
def failUnexpected {α : Type} : ParseM α := do
  let kind := match ← peek with
    | some t => .unexpectedToken t.text
    | none => .unexpectedEnd
  throw ⟨kind, ← position⟩

/-- Fails for want of recursion budget. -/
def outOfBudget {α : Type} : ParseM α := do
  throw ⟨.outOfBudget, ← position⟩

/-- Reads the next token, which must exist. -/
def bump : ParseM Token := do
  match ← peek with
  | some t =>
    skip
    return t
  | none => failUnexpected

/-- Reads the punctuator `p`, which must be next. -/
def expectPunct (p : String) : ParseM Unit := do
  unless ← eatPunct p do failExpected p

/-- Reads the reserved word `w`, which must be next. -/
def expectKeyword (w : String) : ParseM Unit := do
  unless ← eatKeyword w do failExpected w

/-- Reads an optional semicolon: one is there, or the statement may end here anyway. -/
def consumeSemicolon : ParseM Unit := do
  if ← eatPunct ";" then return
  unless ← atStatementEnd do failExpected ";"

/-! ## Settings of a construct -/

/-- Runs `x` with the keyword `in` read as an operator or not. -/
def withAllowIn {α : Type} (allow : Bool) (x : ParseM α) : ParseM α :=
  withReader (fun c => ⟨c.tokens, c.closers, allow, c.depth⟩) x

/-- Runs `x` one nesting level deeper, failing past `maxDepth`. -/
def nested {α : Type} (x : ParseM α) : ParseM α := do
  if (← read).depth ≥ maxDepth then throw ⟨.nestingTooDeep, ← position⟩
  withReader (fun c => ⟨c.tokens, c.closers, c.allowIn, c.depth + 1⟩) x

/-! ## Building nodes -/

/-- A marker at the next token, or at the end of the input. -/
def marker : ParseM Marker := do
  match ← peek with
  | some t => return ⟨t.span.start, t.loc.start⟩
  | none =>
    let (offset, pos) ← endOfInput
    return ⟨offset, pos⟩

/-- A node that starts at `m` and ends with the last token read. -/
def finish (kind : NodeKind) (m : Marker) (fields : List (String × Field Node)) :
    ParseM Node := do
  let (stop, stopPos) := match ← previous with
    | some t => (t.span.stop, t.loc.stop)
    | none => (m.offset, m.position)
  return ⟨kind, ⟨m.offset, max stop m.offset⟩, ⟨m.position, stopPos.max m.position⟩, fields⟩

/-- The identifier node of a token. -/
def identifierNode (t : Token) : Node := ⟨.identifier, t.span, t.loc, [("name", .text t.text)]⟩

/-- The literal node of a token. -/
def literalNode (t : Token) : Node := ⟨.literal, t.span, t.loc, [("raw", .text t.text)]⟩

/-- Reads a name that is being bound: only a plain identifier will do. -/
def bindingIdentifier : ParseM Node := do
  match ← peek with
  | some t =>
    if t.kind == .identifier then
      skip
      return identifierNode t
    failExpected "identifier"
  | none => failExpected "identifier"

/-- Reads a property name after a dot, where reserved words and literals such as `true` are
names too; numbers, strings and punctuators are not. -/
def identifierName : ParseM Node := do
  match ← peek with
  | some t =>
    if t.kind != .punctuator && t.kind != .numeric && t.kind != .string then
      skip
      return identifierNode t
    failExpected "identifier"
  | none => failExpected "identifier"

/-- A member access of `object` to `property`, starting at `m`. -/
def member (m : Marker) (object property : Node) (computed optional : Bool) : ParseM Node :=
  finish .memberExpression m
    [("object", .node object), ("property", .node property), ("computed", .flag computed),
     ("optional", .flag optional)]

/-- Reads `get` or `set` when it is an accessor prefix rather than a property name: it is a
name when a parenthesis, colon, comma, closing brace or equals sign follows it. -/
def accessorPrefix : ParseM (Option String) := do
  let some t ← peek | return none
  unless t.kind == .identifier && (t.text == "get" || t.text == "set") do return none
  let isName ← ["(", ":", ",", closeBrace, "="].anyM (peekAtPunct 1)
  if isName then return none
  skip
  return some t.text

/-- The assignment operators. -/
def assignmentOperators : List String :=
  ["=", "+=", "-=", "*=", "/=", "%=", "**=", "&&=", "||=", "??="]

/-- The binding power of a binary operator token, if it is one; `in` is one only where
`allowIn` holds. Higher binds tighter. -/
def binaryPrecedence (allowIn : Bool) (t : Token) : Option Nat :=
  match t.kind with
  | .punctuator =>
    match t.text with
    | "??" | "||" => some 1
    | "&&" => some 2
    | "|" => some 3
    | "^" => some 4
    | "&" => some 5
    | "==" | "!=" | "===" | "!==" => some 6
    | "<" | ">" | "<=" | ">=" => some 7
    | "+" | "-" => some 9
    | "*" | "/" | "%" => some 10
    | "**" => some 11
    | _ => none
  | .keyword =>
    if t.text == "instanceof" then some 7
    else if t.text == "in" && allowIn then some 7
    else none
  | _ => none

/-- The next token as a binary operator with its binding power, if it is one here. -/
def binaryOperator : ParseM (Option (String × Nat)) := do
  let some t ← peek | return none
  return (binaryPrecedence (← read).allowIn t).map (t.text, ·)

/-- Whether a token is a prefix operator that builds a unary expression. -/
def isUnaryOperator (t : Token) : Bool :=
  match t.kind with
  | .punctuator => t.text == "!" || t.text == "-" || t.text == "+" || t.text == "~"
  | .keyword => t.text == "typeof" || t.text == "void" || t.text == "delete"
  | _ => false

/-- Whether an arrow function starts here: a name followed by `=>`, or a parenthesis whose
closing bracket is followed by `=>`. -/
def isArrowStart : ParseM Bool := do
  let some t ← peek | return false
  if t.kind == .identifier then return ← peekAtPunct 1 "=>"
  if !t.isPunct "(" then return false
  let c ← read
  match c.closers[← get]? with
  | some (some close) => return c.tokens[close + 1]?.any (·.isPunct "=>")
  | _ => return false

end Parse

end DotLint
