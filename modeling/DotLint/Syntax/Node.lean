import DotLint.Source.Location

/-!
# Syntax trees

A syntax node has a kind, the span and location it covers, and a list of named fields in
the order the grammar gives them. A field holds one child node, a list of child nodes,
nothing (an optional part that is missing), a flag, or a text. The kinds and the field
names follow the ESTree vocabulary; the first field with a given name is the one a lookup
finds.

The *children* of a node are the nodes in its node-valued fields, in field order. A
*pre-order* lists a node before the pre-orders of its children.
-/

namespace DotLint

/-- The kinds of syntax node. -/
inductive NodeKind where
  | program
  | blockStatement
  | emptyStatement
  | expressionStatement
  | variableDeclaration
  | variableDeclarator
  | functionDeclaration
  | classDeclaration
  | classBody
  | methodDefinition
  | returnStatement
  | ifStatement
  | forStatement
  | forInStatement
  | forOfStatement
  | whileStatement
  | doWhileStatement
  | switchStatement
  | switchCase
  | breakStatement
  | continueStatement
  | throwStatement
  | identifier
  | literal
  | thisExpression
  | arrayExpression
  | objectExpression
  | property
  | spreadElement
  | functionExpression
  | arrowFunctionExpression
  | memberExpression
  | callExpression
  | newExpression
  | unaryExpression
  | updateExpression
  | binaryExpression
  | logicalExpression
  | conditionalExpression
  | assignmentExpression
  | sequenceExpression
  | assignmentPattern
  | restElement
deriving DecidableEq, Repr, Inhabited

namespace NodeKind

/-- The ESTree name of a kind. -/
def name : NodeKind → String
  | .program => "Program"
  | .blockStatement => "BlockStatement"
  | .emptyStatement => "EmptyStatement"
  | .expressionStatement => "ExpressionStatement"
  | .variableDeclaration => "VariableDeclaration"
  | .variableDeclarator => "VariableDeclarator"
  | .functionDeclaration => "FunctionDeclaration"
  | .classDeclaration => "ClassDeclaration"
  | .classBody => "ClassBody"
  | .methodDefinition => "MethodDefinition"
  | .returnStatement => "ReturnStatement"
  | .ifStatement => "IfStatement"
  | .forStatement => "ForStatement"
  | .forInStatement => "ForInStatement"
  | .forOfStatement => "ForOfStatement"
  | .whileStatement => "WhileStatement"
  | .doWhileStatement => "DoWhileStatement"
  | .switchStatement => "SwitchStatement"
  | .switchCase => "SwitchCase"
  | .breakStatement => "BreakStatement"
  | .continueStatement => "ContinueStatement"
  | .throwStatement => "ThrowStatement"
  | .identifier => "Identifier"
  | .literal => "Literal"
  | .thisExpression => "ThisExpression"
  | .arrayExpression => "ArrayExpression"
  | .objectExpression => "ObjectExpression"
  | .property => "Property"
  | .spreadElement => "SpreadElement"
  | .functionExpression => "FunctionExpression"
  | .arrowFunctionExpression => "ArrowFunctionExpression"
  | .memberExpression => "MemberExpression"
  | .callExpression => "CallExpression"
  | .newExpression => "NewExpression"
  | .unaryExpression => "UnaryExpression"
  | .updateExpression => "UpdateExpression"
  | .binaryExpression => "BinaryExpression"
  | .logicalExpression => "LogicalExpression"
  | .conditionalExpression => "ConditionalExpression"
  | .assignmentExpression => "AssignmentExpression"
  | .sequenceExpression => "SequenceExpression"
  | .assignmentPattern => "AssignmentPattern"
  | .restElement => "RestElement"

/-- Every kind, in declaration order. -/
def all : List NodeKind :=
  [.program, .blockStatement, .emptyStatement, .expressionStatement, .variableDeclaration,
   .variableDeclarator, .functionDeclaration, .classDeclaration, .classBody, .methodDefinition,
   .returnStatement, .ifStatement, .forStatement, .forInStatement, .forOfStatement,
   .whileStatement, .doWhileStatement, .switchStatement, .switchCase, .breakStatement,
   .continueStatement, .throwStatement, .identifier, .literal, .thisExpression,
   .arrayExpression, .objectExpression, .property, .spreadElement, .functionExpression,
   .arrowFunctionExpression, .memberExpression, .callExpression, .newExpression,
   .unaryExpression, .updateExpression, .binaryExpression, .logicalExpression,
   .conditionalExpression, .assignmentExpression, .sequenceExpression, .assignmentPattern,
   .restElement]

/-- The kind with the given ESTree name. -/
def ofName? (s : String) : Option NodeKind := all.find? (·.name == s)

/-- Kinds that own a parameter list and a body. -/
def isFunction : NodeKind → Bool
  | .functionDeclaration | .functionExpression | .arrowFunctionExpression => true
  | _ => false

end NodeKind

/-- The value stored under a field name; `α` is the type of child nodes. -/
inductive Field (α : Type) where
  /-- One child. -/
  | node (n : α)
  /-- A list of children. -/
  | list (ns : List α)
  /-- An optional part that is missing. -/
  | absent
  /-- A flag. -/
  | flag (b : Bool)
  /-- A text. -/
  | text (s : String)
deriving Repr

namespace Field

/-- The children stored in a field: one, a list, or none. -/
def nodes {α : Type} : Field α → List α
  | .node n => [n]
  | .list ns => ns
  | _ => []

/-- A child that may be missing. -/
def ofOption {α : Type} : Option α → Field α
  | some n => .node n
  | none => .absent

end Field

/-- A syntax node: its kind, the span and location it covers, and its named fields. -/
structure Node where
  kind : NodeKind
  span : Span
  loc : Location
  fields : List (String × Field Node)
deriving Repr, Inhabited

namespace Node

/-- The value of the first field with the given name. -/
def field? (n : Node) (name : String) : Option (Field Node) :=
  (n.fields.find? (·.1 == name)).map (·.2)

/-- The single child under `name`, if that field holds one node. -/
def child? (n : Node) (name : String) : Option Node :=
  match n.field? name with
  | some (.node c) => some c
  | _ => none

/-- The child list under `name`, empty if that field holds no list. -/
def list (n : Node) (name : String) : List Node :=
  match n.field? name with
  | some (.list cs) => cs
  | _ => []

/-- Whether the flag under `name` is set. -/
def flag (n : Node) (name : String) : Bool :=
  match n.field? name with
  | some (.flag true) => true
  | _ => false

/-- The text under `name`, if that field holds a text. -/
def text? (n : Node) (name : String) : Option String :=
  match n.field? name with
  | some (.text s) => some s
  | _ => none

/-- The nodes under `name`, whether the field holds one node or a list. -/
def nodesOf (n : Node) (name : String) : List Node :=
  match n.field? name with
  | some f => f.nodes
  | none => []

/-- Every child, field by field in declaration order. -/
def children (n : Node) : List Node := n.fields.flatMap (·.2.nodes)

/-- The name of an identifier, or the raw text of a literal. -/
def name? (n : Node) : Option String := (n.text? "name").orElse fun _ => n.text? "raw"

/-- A node with no fields. -/
def leaf (kind : NodeKind) (span : Span) (loc : Location) : Node := ⟨kind, span, loc, []⟩

/-! ## Children are smaller than their parent -/

/-- A node stored in one of a node's fields is smaller than the node. -/
theorem sizeOf_lt_of_mem_field {n : Node} {p : String × Field Node} (hp : p ∈ n.fields)
    {c : Node} (hc : c ∈ p.2.nodes) : sizeOf c < sizeOf n := by
  obtain ⟨kind, span, loc, fields⟩ := n
  have h1 := List.sizeOf_lt_of_mem hp
  obtain ⟨name, f⟩ := p
  cases f with
  | node d =>
    simp only [Field.nodes, List.mem_singleton] at hc
    subst hc
    simp at h1 ⊢
    omega
  | list ds =>
    simp only [Field.nodes] at hc
    have h2 := List.sizeOf_lt_of_mem hc
    simp at h1 ⊢
    omega
  | absent => simp [Field.nodes] at hc
  | flag b => simp [Field.nodes] at hc
  | text s => simp [Field.nodes] at hc

/-- A node under a field name is smaller than the node. -/
theorem sizeOf_lt_of_mem_nodesOf {n : Node} {name : String} {c : Node}
    (h : c ∈ n.nodesOf name) : sizeOf c < sizeOf n := by
  unfold nodesOf field? at h
  cases hf : n.fields.find? (·.1 == name) with
  | none => simp [hf] at h
  | some p =>
    simp only [hf, Option.map_some] at h
    exact sizeOf_lt_of_mem_field (List.mem_of_find?_eq_some hf) h

/-- A child is smaller than its parent. -/
theorem sizeOf_lt_of_mem_children {n : Node} {c : Node} (h : c ∈ n.children) :
    sizeOf c < sizeOf n := by
  obtain ⟨p, hp, hc⟩ := List.mem_flatMap.1 h
  exact sizeOf_lt_of_mem_field hp hc

end Node

end DotLint
