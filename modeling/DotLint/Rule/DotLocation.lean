import DotLint.Fix.Edit
import DotLint.Token.Cursor
import DotLint.Syntax.Node

/-!
# The dot-location rule

In a member access written across lines, the dot belongs either at the end of the object's
line or at the start of the property's line; the rule's position setting says which. A
non-computed member access (`a.b` or `a?.b`) whose dot is on the wrong side of the line break
is a finding, reported at the dot, with a fix that moves the dot across the incidental text
next to it:

* for the object position, the dot goes right after the token before it, with a space in
  between when that token is a plain decimal integer (`1.` would read as a number);
* for the property position, the dot goes right before the property.

Findings are ordered by where they are reported, then by message, then by the member
access's span.
-/

namespace DotLint

/-- Which side of a line break a member-access dot belongs to. -/
inductive DotPosition where
  /-- At the end of the object's line. -/
  | object
  /-- At the start of the property's line. -/
  | property
deriving DecidableEq, Repr, Inhabited

/-- The word for a position in configuration and requests. -/
def DotPosition.name : DotPosition → String
  | .object => "object"
  | .property => "property"

/-- The position named by a word. -/
def DotPosition.ofName? : String → Option DotPosition
  | "object" => some .object
  | "property" => some .property
  | _ => none

/-- What a finding says. -/
inductive MessageId where
  | expectedDotAfterObject
  | expectedDotBeforeProperty
deriving DecidableEq, Repr

namespace MessageId

/-- The identifier of a message. -/
def key : MessageId → String
  | .expectedDotAfterObject => "expectedDotAfterObject"
  | .expectedDotBeforeProperty => "expectedDotBeforeProperty"

/-- The text of a message. -/
def text : MessageId → String
  | .expectedDotAfterObject => "Expected dot to be on same line as object."
  | .expectedDotBeforeProperty => "Expected dot to be on same line as property."

/-- Messages are ordered as declared. -/
def rank : MessageId → Nat
  | .expectedDotAfterObject => 0
  | .expectedDotBeforeProperty => 1

end MessageId

/-- The rule's name. -/
def ruleName : String := "dot-location"

/-- A finding of the rule: what it says, the member access it is about, where it is
reported (the dot), and the fix. -/
structure Diagnostic where
  messageId : MessageId
  node : Span
  location : Location
  fix : Fix
deriving DecidableEq, Repr

namespace Diagnostic

/-- The message of a finding. -/
def message (d : Diagnostic) : String := d.messageId.text

/-- A finding as one line: `L:C: dot-location message`. -/
def display (d : Diagnostic) : String :=
  toString d.location.start.line ++ ":" ++ toString d.location.start.column ++ ": " ++
    ruleName ++ " " ++ d.message

/-- Findings are ordered by the start of their location, then by message, then by the span
of their member access. -/
def le (a b : Diagnostic) : Bool :=
  let pa := a.location.start
  let pb := b.location.start
  if pa != pb then pa.le pb
  else if a.messageId != b.messageId then a.messageId.rank < b.messageId.rank
  else a.node.le b.node

end Diagnostic

namespace DotLocation

/-- Whether a token is a plain decimal integer: digits and separators, starting with a
digit. -/
def isDecimalInteger (t : Token) : Bool :=
  t.kind == .numeric &&
    match t.text.toList with
    | c :: rest => c.isDigit && rest.all fun d => d.isDigit || d = '_'
    | [] => false

/-- The finding for node `n`, if it is a non-computed member access whose dot is misplaced
for `pos`. The dot is the token just before the property. -/
def check (pos : DotPosition) (c : TokenCursor) (n : Node) : Option Diagnostic := do
  if n.kind != .memberExpression || n.flag "computed" then none
  let property ← n.child? "property"
  let dot ← c.tokens[← c.before? property.span]?
  if !(dot.isPunct "." || dot.isPunct "?.") then none
  match pos with
  | .object =>
    let before ← c.tokens[← c.before? dot.span]?
    if before.loc.sameLine dot.loc then none
    let text := if dot.text.startsWith "." && isDecimalInteger before then " " ++ dot.text
      else dot.text
    some ⟨.expectedDotAfterObject, n.span, dot.loc,
      ⟨[.insert before.span.stop text, .remove dot.span]⟩⟩
  | .property =>
    if dot.loc.sameLine property.loc then none
    some ⟨.expectedDotBeforeProperty, n.span, dot.loc,
      ⟨[.remove dot.span, .insert property.span.start dot.text]⟩⟩

end DotLocation

end DotLint
