import DotLint.Syntax.Parse.Basic
import DotLint.Token.Lexer

/-!
# The grammar

A recursive-descent parser for the script language: statements, declarations, functions
and classes, and expressions by precedence climbing. Binary operators bind by
`Parse.binaryPrecedence`; all of them group to the left except `**`, which groups to the
right. Statements, assignments, unary and `new` expressions count as nesting levels, and
input nested deeper than `Parse.maxDepth` levels is refused.

Every function takes a recursion budget first and spends one unit per call, loops included;
`parse` gives a budget that grows with the number of tokens, more than any call chain on
them can use.
-/

namespace DotLint

namespace Parse

/-- The reserved words that start a variable declaration. -/
def isDeclarationKeyword (t : Token) : Bool :=
  t.kind == .keyword && (t.text == "var" || t.text == "let" || t.text == "const")

/-- Reads `break` or `continue` with an optional label on the same line. -/
def jump (kind : NodeKind) : ParseM Node := do
  let m ← marker
  skip
  let label ← match ← peek with
    | some t =>
      if t.kind == .identifier && !(← newlineBefore) then
        skip
        pure (some (identifierNode t))
      else pure none
    | none => pure none
  consumeSemicolon
  finish kind m [("label", .ofOption label)]

mutual

/-- Reads a statement, one nesting level deeper. -/
def statement : Nat → ParseM Node
  | 0 => outOfBudget
  | fuel + 1 => nested do
    let some tok ← peek | failUnexpected
    if tok.isPunct openBrace then block fuel
    else if tok.isPunct ";" then
      let m ← marker
      skip
      finish .emptyStatement m []
    else if isDeclarationKeyword tok then
      let m ← marker
      let (kind, declarations) ← declarators fuel
      consumeSemicolon
      finish .variableDeclaration m [("kind", .text kind), ("declarations", .list declarations)]
    else if tok.isKeyword "function" then function fuel .functionDeclaration
    else if tok.isKeyword "class" then classDeclaration fuel
    else if tok.isKeyword "return" then returnStatement fuel
    else if tok.isKeyword "if" then ifStatement fuel
    else if tok.isKeyword "for" then forStatement fuel
    else if tok.isKeyword "while" then whileStatement fuel
    else if tok.isKeyword "do" then doWhileStatement fuel
    else if tok.isKeyword "switch" then switchStatement fuel
    else if tok.isKeyword "break" then jump .breakStatement
    else if tok.isKeyword "continue" then jump .continueStatement
    else if tok.isKeyword "throw" then
      let m ← marker
      skip
      let argument ← expression fuel
      consumeSemicolon
      finish .throwStatement m [("argument", .node argument)]
    else
      let m ← marker
      let e ← expression fuel
      consumeSemicolon
      finish .expressionStatement m [("expression", .node e)]

/-- Reads a braced block of statements. -/
def block : Nat → ParseM Node
  | 0 => outOfBudget
  | fuel + 1 => do
    let m ← marker
    expectPunct openBrace
    let body ← withAllowIn true (blockBody fuel #[])
    expectPunct closeBrace
    finish .blockStatement m [("body", .list body.toList)]

/-- Reads statements up to a closing brace. -/
def blockBody : Nat → Array Node → ParseM (Array Node)
  | 0, _ => outOfBudget
  | fuel + 1, acc => do
    if ← atPunct closeBrace then return acc
    if (← peek).isNone then failExpected closeBrace
    let s ← statement fuel
    blockBody fuel (acc.push s)

/-- Reads `var`, `let` or `const` and its declarators. -/
def declarators : Nat → ParseM (String × List Node)
  | 0 => outOfBudget
  | fuel + 1 => do
    let kind := (← bump).text
    let ds ← declaratorList fuel #[]
    return (kind, ds.toList)

/-- Reads declarators separated by commas. -/
def declaratorList : Nat → Array Node → ParseM (Array Node)
  | 0, _ => outOfBudget
  | fuel + 1, acc => do
    let m ← marker
    let id ← bindingIdentifier
    let init ← if ← eatPunct "=" then some <$> assignment fuel else pure none
    let d ← finish .variableDeclarator m [("id", .node id), ("init", .ofOption init)]
    if ← eatPunct "," then declaratorList fuel (acc.push d) else return acc.push d

/-- Reads a `return` statement; its value is missing where the statement may end. -/
def returnStatement : Nat → ParseM Node
  | 0 => outOfBudget
  | fuel + 1 => do
    let m ← marker
    skip
    let argument ← if ← atStatementEnd then pure none else some <$> expression fuel
    consumeSemicolon
    finish .returnStatement m [("argument", .ofOption argument)]

/-- Reads an `if` statement. -/
def ifStatement : Nat → ParseM Node
  | 0 => outOfBudget
  | fuel + 1 => do
    let m ← marker
    skip
    let test ← parenExpression fuel
    let consequent ← statement fuel
    let alternate ← if ← eatKeyword "else" then some <$> statement fuel else pure none
    finish .ifStatement m
      [("test", .node test), ("consequent", .node consequent),
       ("alternate", .ofOption alternate)]

/-- Reads the head of a `for` statement up to its first clause; `in` is no operator there. -/
def forInit : Nat → ParseM (Option Node)
  | 0 => outOfBudget
  | fuel + 1 => do
    if ← atPunct ";" then return none
    let some t ← peek | some <$> withAllowIn false (expression fuel)
    if isDeclarationKeyword t then
      let m ← marker
      let (kind, declarations) ← withAllowIn false (declarators fuel)
      some <$> finish .variableDeclaration m
        [("kind", .text kind), ("declarations", .list declarations)]
    else some <$> withAllowIn false (expression fuel)

/-- Reads a `for` statement: a counted loop, or a `for`-`in` or `for`-`of` loop. -/
def forStatement : Nat → ParseM Node
  | 0 => outOfBudget
  | fuel + 1 => do
    let m ← marker
    skip
    expectPunct "("
    let init ← forInit fuel
    let each ← if ← atKeyword "in" then pure (some NodeKind.forInStatement)
      else if ← atIdentifier "of" then pure (some NodeKind.forOfStatement)
      else pure none
    match each, init with
    | some kind, some left => forEach fuel m kind left
    | _, _ =>
      expectPunct ";"
      let test ← if ← atPunct ";" then pure none else some <$> expression fuel
      expectPunct ";"
      let update ← if ← atPunct ")" then pure none else some <$> expression fuel
      expectPunct ")"
      let body ← statement fuel
      finish .forStatement m
        [("init", .ofOption init), ("test", .ofOption test), ("update", .ofOption update),
         ("body", .node body)]

/-- Reads the rest of a `for`-`in` or `for`-`of` loop after its left side. -/
def forEach : Nat → Marker → NodeKind → Node → ParseM Node
  | 0, _, _, _ => outOfBudget
  | fuel + 1, m, kind, left => do
    skip
    let right ← if kind == .forInStatement then expression fuel else assignment fuel
    expectPunct ")"
    let body ← statement fuel
    finish kind m [("left", .node left), ("right", .node right), ("body", .node body)]

/-- Reads a `while` loop. -/
def whileStatement : Nat → ParseM Node
  | 0 => outOfBudget
  | fuel + 1 => do
    let m ← marker
    skip
    let test ← parenExpression fuel
    let body ← statement fuel
    finish .whileStatement m [("test", .node test), ("body", .node body)]

/-- Reads a `do`-`while` loop; the semicolon after it is optional. -/
def doWhileStatement : Nat → ParseM Node
  | 0 => outOfBudget
  | fuel + 1 => do
    let m ← marker
    skip
    let body ← statement fuel
    expectKeyword "while"
    let test ← parenExpression fuel
    let _ ← eatPunct ";"
    finish .doWhileStatement m [("body", .node body), ("test", .node test)]

/-- Reads a `switch` statement. -/
def switchStatement : Nat → ParseM Node
  | 0 => outOfBudget
  | fuel + 1 => do
    let m ← marker
    skip
    let discriminant ← parenExpression fuel
    expectPunct openBrace
    let cases ← switchCases fuel #[]
    expectPunct closeBrace
    finish .switchStatement m
      [("discriminant", .node discriminant), ("cases", .list cases.toList)]

/-- Reads the cases of a `switch` up to its closing brace. -/
def switchCases : Nat → Array Node → ParseM (Array Node)
  | 0, _ => outOfBudget
  | fuel + 1, acc => do
    if ← atPunct closeBrace then return acc
    let m ← marker
    let test ← if ← eatKeyword "case" then some <$> expression fuel
      else do
        if ← eatKeyword "default" then pure none
        else failUnexpected
    expectPunct ":"
    let consequent ← caseBody fuel #[]
    let c ← finish .switchCase m [("test", .ofOption test), ("consequent", .list consequent.toList)]
    switchCases fuel (acc.push c)

/-- Reads the statements of a case up to the next case or the closing brace. -/
def caseBody : Nat → Array Node → ParseM (Array Node)
  | 0, _ => outOfBudget
  | fuel + 1, acc => do
    if (← atPunct closeBrace) || (← atKeyword "case") || (← atKeyword "default") then
      return acc
    if (← peek).isNone then failExpected closeBrace
    let s ← statement fuel
    caseBody fuel (acc.push s)

/-- Reads a function declaration (whose name is required) or expression. -/
def function : Nat → NodeKind → ParseM Node
  | 0, _ => outOfBudget
  | fuel + 1, kind => do
    let m ← marker
    expectKeyword "function"
    let id ← match ← peek with
      | some t =>
        if t.kind == .identifier then
          skip
          pure (some (identifierNode t))
        else if kind == .functionDeclaration then failExpected "identifier"
        else pure none
      | none => if kind == .functionDeclaration then failExpected "identifier" else pure none
    let ps ← params fuel
    let body ← block fuel
    finish kind m [("id", .ofOption id), ("params", .list ps), ("body", .node body)]

/-- Reads the parameters and body of a method, as an anonymous function expression. -/
def methodFunction : Nat → ParseM Node
  | 0 => outOfBudget
  | fuel + 1 => do
    let m ← marker
    let ps ← params fuel
    let body ← block fuel
    finish .functionExpression m [("id", .absent), ("params", .list ps), ("body", .node body)]

/-- Reads a parenthesised parameter list. -/
def params : Nat → ParseM (List Node)
  | 0 => outOfBudget
  | fuel + 1 => do
    expectPunct "("
    let ps ← paramList fuel #[]
    return ps.toList

/-- Reads parameters up to the closing parenthesis: names, names with defaults, and a rest
parameter. -/
def paramList : Nat → Array Node → ParseM (Array Node)
  | 0, _ => outOfBudget
  | fuel + 1, acc => do
    if ← eatPunct ")" then return acc
    let m ← marker
    let param ← if ← eatPunct "..." then
        let argument ← bindingIdentifier
        finish .restElement m [("argument", .node argument)]
      else
        let left ← bindingIdentifier
        if ← eatPunct "=" then
          let right ← withAllowIn true (assignment fuel)
          finish .assignmentPattern m [("left", .node left), ("right", .node right)]
        else pure left
    unless ← atPunct ")" do expectPunct ","
    paramList fuel (acc.push param)

/-- Reads a class declaration. -/
def classDeclaration : Nat → ParseM Node
  | 0 => outOfBudget
  | fuel + 1 => do
    let m ← marker
    skip
    let id ← bindingIdentifier
    let superClass ← if ← eatKeyword "extends" then some <$> leftHandSide fuel else pure none
    let bm ← marker
    expectPunct openBrace
    let members ← classMembers fuel #[]
    let body ← finish .classBody bm [("body", .list members.toList)]
    finish .classDeclaration m
      [("id", .node id), ("superClass", .ofOption superClass), ("body", .node body)]

/-- Reads class members up to the closing brace, passing over semicolons. -/
def classMembers : Nat → Array Node → ParseM (Array Node)
  | 0, _ => outOfBudget
  | fuel + 1, acc => do
    if ← eatPunct ";" then classMembers fuel acc
    else if ← eatPunct closeBrace then return acc
    else
      let member ← classMember fuel
      classMembers fuel (acc.push member)

/-- Reads a method of a class: `static` and an accessor prefix are optional. -/
def classMember : Nat → ParseM Node
  | 0 => outOfBudget
  | fuel + 1 => do
    let m ← marker
    let isStatic := (← atIdentifier "static") && !(← peekAtPunct 1 "(")
    if isStatic then skip
    let accessor ← accessorPrefix
    let (key, computed) ← propertyKey fuel
    let value ← methodFunction fuel
    let kind := match accessor with
      | some k => k
      | none =>
        if !isStatic && !computed && key.name? == some "constructor" then "constructor"
        else "method"
    finish .methodDefinition m
      [("key", .node key), ("value", .node value), ("kind", .text kind),
       ("static", .flag isStatic), ("computed", .flag computed)]

/-- Reads a property name: a bracketed expression (computed), a string or number literal,
or any word. -/
def propertyKey : Nat → ParseM (Node × Bool)
  | 0 => outOfBudget
  | fuel + 1 => do
    if ← eatPunct "[" then
      let key ← withAllowIn true (assignment fuel)
      expectPunct "]"
      return (key, true)
    let some tok ← peek | failUnexpected
    match tok.kind with
    | .string | .numeric =>
      skip
      return (literalNode tok, false)
    | .identifier | .keyword | .boolean | .null =>
      skip
      return (identifierNode tok, false)
    | .punctuator => failUnexpected

/-- Reads assignments separated by commas; two or more make a sequence. -/
def expression : Nat → ParseM Node
  | 0 => outOfBudget
  | fuel + 1 => do
    let m ← marker
    let first ← assignment fuel
    if !(← atPunct ",") then return first
    let all ← sequenceRest fuel #[first]
    finish .sequenceExpression m [("expressions", .list all.toList)]

/-- Reads the further members of a sequence, each after a comma. -/
def sequenceRest : Nat → Array Node → ParseM (Array Node)
  | 0, _ => outOfBudget
  | fuel + 1, acc => do
    if ← eatPunct "," then
      let e ← assignment fuel
      sequenceRest fuel (acc.push e)
    else return acc

/-- Reads a parenthesised expression; the parentheses make no node. -/
def parenExpression : Nat → ParseM Node
  | 0 => outOfBudget
  | fuel + 1 => do
    expectPunct "("
    let e ← withAllowIn true (expression fuel)
    expectPunct ")"
    return e

/-- Reads an arrow function or an assignment, one nesting level deeper; the target of an
assignment must be a name or a member access. -/
def assignment : Nat → ParseM Node
  | 0 => outOfBudget
  | fuel + 1 => nested do
    if ← isArrowStart then arrow fuel
    else
      let m ← marker
      let left ← conditional fuel
      let some tok ← peek | return left
      unless tok.kind == .punctuator && assignmentOperators.contains tok.text do return left
      unless left.kind == .identifier || left.kind == .memberExpression do
        throw ⟨.invalidAssignmentTarget, tok.loc.start⟩
      skip
      let right ← assignment fuel
      finish .assignmentExpression m
        [("operator", .text tok.text), ("left", .node left), ("right", .node right)]

/-- Reads an arrow function: parameters, `=>`, and a block or an expression. -/
def arrow : Nat → ParseM Node
  | 0 => outOfBudget
  | fuel + 1 => do
    let m ← marker
    let ps ← if ← atPunct "(" then params fuel else (fun b => [b]) <$> bindingIdentifier
    expectPunct "=>"
    let (body, isExpression) ← if ← atPunct openBrace then (·, false) <$> block fuel
      else (·, true) <$> assignment fuel
    finish .arrowFunctionExpression m
      [("params", .list ps), ("body", .node body), ("expression", .flag isExpression)]

/-- Reads a conditional expression `test ? consequent : alternate`, or just its test. -/
def conditional : Nat → ParseM Node
  | 0 => outOfBudget
  | fuel + 1 => do
    let m ← marker
    let test ← binary fuel 1
    if !(← eatPunct "?") then return test
    let consequent ← withAllowIn true (assignment fuel)
    expectPunct ":"
    let alternate ← assignment fuel
    finish .conditionalExpression m
      [("test", .node test), ("consequent", .node consequent), ("alternate", .node alternate)]

/-- Reads operands joined by binary operators that bind at least as tightly as `minPrec`. -/
def binary : Nat → Nat → ParseM Node
  | 0, _ => outOfBudget
  | fuel + 1, minPrec => do
    let m ← marker
    let left ← unary fuel
    binaryRest fuel minPrec m left

/-- Extends `left`, which started at `m`, by operators that bind at least as tightly as
`minPrec`. The right operand takes only tighter operators, or `**` again. -/
def binaryRest : Nat → Nat → Marker → Node → ParseM Node
  | 0, _, _, _ => outOfBudget
  | fuel + 1, minPrec, m, left => do
    let some (op, prec) ← binaryOperator | return left
    if prec < minPrec then return left
    skip
    let right ← binary fuel (if op == "**" then prec else prec + 1)
    let kind := if op == "||" || op == "&&" || op == "??" then NodeKind.logicalExpression
      else NodeKind.binaryExpression
    let node ← finish kind m [("left", .node left), ("operator", .text op), ("right", .node right)]
    binaryRest fuel minPrec m node

/-- Reads a prefix or postfix unary expression, one nesting level deeper. A postfix `++` or
`--` must stand on the line of its operand. -/
def unary : Nat → ParseM Node
  | 0 => outOfBudget
  | fuel + 1 => nested do
    let m ← marker
    let some tok ← peek | failUnexpected
    if isUnaryOperator tok then
      skip
      let argument ← unary fuel
      finish .unaryExpression m
        [("operator", .text tok.text), ("prefix", .flag true), ("argument", .node argument)]
    else if tok.isPunct "++" || tok.isPunct "--" then
      skip
      let argument ← unary fuel
      finish .updateExpression m
        [("operator", .text tok.text), ("prefix", .flag true), ("argument", .node argument)]
    else
      let e ← leftHandSide fuel
      match ← peek with
      | some t =>
        if (t.isPunct "++" || t.isPunct "--") && !(← newlineBefore) then
          skip
          finish .updateExpression m
            [("operator", .text t.text), ("prefix", .flag false), ("argument", .node e)]
        else return e
      | none => return e

/-- Reads a primary or `new` expression with its member accesses and calls. -/
def leftHandSide : Nat → ParseM Node
  | 0 => outOfBudget
  | fuel + 1 => do
    let m ← marker
    let e ← if ← atKeyword "new" then newExpression fuel else primary fuel
    memberTail fuel m e true

/-- Reads a `new` expression, one nesting level deeper: the callee takes member accesses
but no calls, and the argument list is optional. -/
def newExpression : Nat → ParseM Node
  | 0 => outOfBudget
  | fuel + 1 => nested do
    let m ← marker
    skip
    let cm ← marker
    let callee ← if ← atKeyword "new" then newExpression fuel else primary fuel
    let callee ← memberTail fuel cm callee false
    let args ← if ← atPunct "(" then arguments fuel else pure []
    finish .newExpression m [("callee", .node callee), ("arguments", .list args)]

/-- Extends `e`, which started at `m`, by member accesses, optional chains and, where
`allowCall` holds, calls. -/
def memberTail : Nat → Marker → Node → Bool → ParseM Node
  | 0, _, _, _ => outOfBudget
  | fuel + 1, m, e, allowCall => do
    if ← eatPunct "." then
      let property ← identifierName
      memberTail fuel m (← member m e property false false) allowCall
    else if ← atPunct "?." then
      skip
      if ← atPunct "(" then
        let args ← arguments fuel
        let call ← finish .callExpression m
          [("callee", .node e), ("arguments", .list args), ("optional", .flag true)]
        memberTail fuel m call allowCall
      else if ← eatPunct "[" then
        let property ← withAllowIn true (expression fuel)
        expectPunct "]"
        memberTail fuel m (← member m e property true true) allowCall
      else
        let property ← identifierName
        memberTail fuel m (← member m e property false true) allowCall
    else if ← eatPunct "[" then
      let property ← withAllowIn true (expression fuel)
      expectPunct "]"
      memberTail fuel m (← member m e property true false) allowCall
    else if allowCall && (← atPunct "(") then
      let args ← arguments fuel
      let call ← finish .callExpression m
        [("callee", .node e), ("arguments", .list args), ("optional", .flag false)]
      memberTail fuel m call allowCall
    else return e

/-- Reads a parenthesised argument list. -/
def arguments : Nat → ParseM (List Node)
  | 0 => outOfBudget
  | fuel + 1 => do
    expectPunct "("
    let args ← withAllowIn true (elementList fuel ")" #[])
    expectPunct ")"
    return args.toList

/-- Reads assignments and spread elements separated by commas, up to the punctuator
`close`; a comma before `close` is allowed. -/
def elementList : Nat → String → Array Node → ParseM (Array Node)
  | 0, _, _ => outOfBudget
  | fuel + 1, close, acc => do
    if ← atPunct close then return acc
    let m ← marker
    let element ← if ← eatPunct "..." then
        let argument ← assignment fuel
        finish .spreadElement m [("argument", .node argument)]
      else assignment fuel
    unless ← atPunct close do expectPunct ","
    elementList fuel close (acc.push element)

/-- Reads a name, a literal, `this`, a function expression, a parenthesised expression, an
array or an object. -/
def primary : Nat → ParseM Node
  | 0 => outOfBudget
  | fuel + 1 => do
    let some tok ← peek | failUnexpected
    match tok.kind with
    | .identifier =>
      skip
      return identifierNode tok
    | .numeric | .string | .boolean | .null =>
      skip
      return literalNode tok
    | .keyword =>
      if tok.text == "this" then
        skip
        return Node.leaf .thisExpression tok.span tok.loc
      else if tok.text == "function" then function fuel .functionExpression
      else failUnexpected
    | .punctuator =>
      if tok.text == "(" then parenExpression fuel
      else if tok.text == "[" then
        let m ← marker
        skip
        let elements ← withAllowIn true (elementList fuel "]" #[])
        expectPunct "]"
        finish .arrayExpression m [("elements", .list elements.toList)]
      else if tok.text == openBrace then object fuel
      else failUnexpected

/-- Reads an object literal. -/
def object : Nat → ParseM Node
  | 0 => outOfBudget
  | fuel + 1 => do
    let m ← marker
    expectPunct openBrace
    let properties ← withAllowIn true (propertyList fuel #[])
    expectPunct closeBrace
    finish .objectExpression m [("properties", .list properties.toList)]

/-- Reads properties separated by commas up to the closing brace. -/
def propertyList : Nat → Array Node → ParseM (Array Node)
  | 0, _ => outOfBudget
  | fuel + 1, acc => do
    if ← atPunct closeBrace then return acc
    let p ← property fuel
    unless ← atPunct closeBrace do expectPunct ","
    propertyList fuel (acc.push p)

/-- Reads a property of an object literal: a spread, an accessor, a method, a key with a
value, or a name standing for itself. -/
def property : Nat → ParseM Node
  | 0 => outOfBudget
  | fuel + 1 => do
    let m ← marker
    if ← eatPunct "..." then
      let argument ← assignment fuel
      return ← finish .spreadElement m [("argument", .node argument)]
    let accessor ← accessorPrefix
    let (key, computed) ← propertyKey fuel
    let (value, kind, method, shorthand) ← match accessor with
      | some k => (·, k, false, false) <$> methodFunction fuel
      | none =>
        if ← atPunct "(" then (·, "init", true, false) <$> methodFunction fuel
        else if ← eatPunct ":" then (·, "init", false, false) <$> assignment fuel
        else if key.kind == .identifier && !computed then pure (key, "init", false, true)
        else failExpected ":"
    finish .property m
      [("key", .node key), ("value", .node value), ("kind", .text kind),
       ("method", .flag method), ("shorthand", .flag shorthand), ("computed", .flag computed)]

end

/-- Reads statements up to the end of the tokens. -/
def programBody : Nat → Array Node → ParseM (Array Node)
  | 0, _ => outOfBudget
  | fuel + 1, acc => do
    if (← peek).isNone then return acc
    let s ← statement fuel
    programBody fuel (acc.push s)

/-- A recursion budget that no call chain on `n` tokens exhausts: sixteen units for each
token and for each nesting level, and some to spare (`parse_ne_outOfBudget`). -/
def budget (n : Nat) : Nat := 16 * (n + 256)

end Parse

/-- Parses a token array into a `Program` node, which spans from the first token to the
last (or is empty at the start of the text when there are none). -/
def parse (tokens : Array Token) : Except ParseError Node :=
  let ctx : ParseContext := ⟨tokens, matchBrackets tokens, true, 0⟩
  match ((Parse.programBody (Parse.budget tokens.size) #[]).run ctx).run 0 with
  | .error e => .error e
  | .ok (body, _) =>
    let (span, loc) : Span × Location := match tokens[0]?, tokens.back? with
      | some first, some last => (⟨first.span.start, last.span.stop⟩, ⟨first.loc.start, last.loc.stop⟩)
      | _, _ => (⟨0, 0⟩, {})
    .ok ⟨.program, span, loc, [("body", .list body.toList)]⟩

/-- Why a source text is not a program: it does not split into tokens, or its tokens do not
parse. -/
inductive SyntaxError where
  | lex (e : LexError)
  | parse (e : ParseError)
deriving DecidableEq, Repr

/-- The text of a lexical or syntax error. -/
def SyntaxError.message : SyntaxError → String
  | .lex e => e.message
  | .parse e => e.message

/-- Splits a source text into tokens and parses them. -/
def parseSource (source : String) : Except SyntaxError Node :=
  match tokenize source with
  | .error e => .error (.lex e)
  | .ok tokens =>
    match parse tokens with
    | .error e => .error (.parse e)
    | .ok n => .ok n

end DotLint
