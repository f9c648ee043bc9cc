import DotLint.Toml.Scalar
import DotLint.Toml.Tables

/-!
# Reading TOML values and documents

A value is told by its first byte: a quote starts a string, `[` an array, `{` an inline
table, a sign or a digit a date, a float or an integer (tried in that order). `true`,
`false`, `inf` and `nan` are read by their first letter; anything else is reported as a
string missing its quotes.

Arrays and inline tables nest; the nesting is limited by `depthLimit`, and every reader of
the nesting takes a fuel argument as well, spent one unit per call, so that the readers are
total. The fuel the document gives is more than the input can ever spend: every round of a
loop reads at least one byte.

A document is a sequence of lines: blank lines, comments, headers and key-value lines.
Each line is placed into the table tree as soon as it is read (see `Placement`), and a
conflict is reported at the start of that line.
-/

namespace DotLint

namespace Toml

namespace Grammar

open Scan Bytes

/-- Fails for want of fuel; the document gives enough that this never happens. -/
def exhausted {α : Type} : Scan α := do
  commit (failAt (← get) (some Conflict.tooDeep.message))

/-- Marks a reader of a bare word as a string missing its quotes, for messages. -/
def unquoted {α : Type} (p : Scan α) : Scan α :=
  expecting '\'' (expecting '"' (label "string" p))

/-- Fails, before its opening bracket, where a nested array or inline table would reach the
nesting limit. -/
def deeper (depth : Nat) : Scan Nat := do
  if depth + 1 < depthLimit then return depth + 1
  failAt (← get) (some Conflict.tooDeep.message)

/-- Reads `=` between a key and its value. -/
def keyvalSeparator : Scan Unit := expecting '=' (expecting '.' (byte '='))

/-- The dotted prefix and the last key of a key path. -/
def splitPath (path : List Key) : List Key × Key :=
  (path.dropLast, path.getLast?.getD default)

mutual

/-- Reads a value, nested `depth` arrays and inline tables deep. -/
def value : Nat → Nat → Scan Item
  | 0, _ => exhausted
  | fuel + 1, depth => do
    let start ← get
    let some b ← peekByte | fail
    let spanned := fun (make : Span → Item) => do
      return make ⟨start, ← get⟩
    if is '"' b || is '\'' b then
      let s ← string
      spanned (.string s)
    else if is '[' b then
      let items ← array fuel depth
      spanned (.array items)
    else if is '\x7b' b then
      let t ← inlineTable fuel depth
      spanned fun s => .inlineTable (t.withSpan (some s))
    else if is '+' b || is '-' b || isDigit b then
      orElse (do dateTime; spanned .datetime)
        (orElse (do let f ← float; spanned (.float f))
          (do let n ← integer; spanned (.integer n)))
    else if is '_' b then
      let n ← withContext (.expected (.description "leading digit")) integer
      spanned (.integer n)
    else if is '.' b then
      let f ← withContext (.expected (.description "leading digit")) float
      spanned (.float f)
    else if is 't' b then
      unquoted (do
        lookahead (byte 't')
        commit (literal "true"))
      spanned (.boolean true)
    else if is 'f' b then
      unquoted (do
        lookahead (byte 'f')
        commit (literal "false"))
      spanned (.boolean false)
    else if is 'i' b then
      unquoted (literal "inf")
      spanned (.float "inf")
    else if is 'n' b then
      unquoted (literal "nan")
      spanned (.float "NaN")
    else unquoted fail

/-- Reads an array: `[`, values separated by commas with an optional trailing comma, `]`;
blanks, comments and line breaks may stand around every value. -/
def array : Nat → Nat → Scan (List Item)
  | 0, _ => exhausted
  | fuel + 1, depth => do
    let depth ← commit (deeper depth)
    byte '['
    let items ← commit (arrayValues fuel depth)
    expecting ']' (label "array" (commit (byte ']')))
    return items

/-- Reads the values of an array and the blanks after them. -/
def arrayValues : Nat → Nat → Scan (List Item)
  | 0, _ => exhausted
  | fuel + 1, depth => do
    let items ← attempt do
      let first ← arrayValue fuel depth
      let items ← arrayRest fuel depth #[first]
      let _ ← attempt (byte ',')
      pure items
    wsCommentNewline
    return items.getD []

/-- Reads further values of an array, each after a comma. -/
def arrayRest : Nat → Nat → Array Item → Scan (List Item)
  | 0, _, _ => exhausted
  | fuel + 1, depth, acc => do
    match ← attempt (do byte ','; arrayValue fuel depth) with
    | some v => arrayRest fuel depth (acc.push v)
    | none => pure acc.toList

/-- Reads one value of an array with the blanks, comments and line breaks around it. -/
def arrayValue : Nat → Nat → Scan Item
  | 0, _ => exhausted
  | fuel + 1, depth => do
    wsCommentNewline
    let v ← value fuel depth
    wsCommentNewline
    return v

/-- Reads an inline table: `{`, key-value pairs separated by commas, `}`. -/
def inlineTable : Nat → Nat → Scan Table
  | 0, _ => exhausted
  | fuel + 1, depth => do
    let depth ← commit (deeper depth)
    byte '\x7b'
    let afterOpen ← get
    let pairs ← commit (inlineKeyvals fuel depth)
    let t ← match inlineTableOf pairs with
      | .ok t => pure t
      | .error c => commit (failAt afterOpen (some c.message))
    expecting '\x7d' (label "inline table" (commit (byte '\x7d')))
    return t

/-- Reads the pairs of an inline table and the blanks after them. -/
def inlineKeyvals : Nat → Nat → Scan (List (List Key × Key × Item))
  | 0, _ => exhausted
  | fuel + 1, depth => do
    let pairs ← match ← attempt (inlineKeyval fuel depth) with
      | none => pure []
      | some kv => inlineRest fuel depth #[kv]
    ws
    return pairs

/-- Reads further pairs of an inline table, each after a comma. -/
def inlineRest : Nat → Nat → Array (List Key × Key × Item) →
    Scan (List (List Key × Key × Item))
  | 0, _, _ => exhausted
  | fuel + 1, depth, acc => do
    match ← attempt (do byte ','; inlineKeyval fuel depth) with
    | some kv => inlineRest fuel depth (acc.push kv)
    | none => pure acc.toList

/-- Reads one pair of an inline table: a key path, `=`, a value. -/
def inlineKeyval : Nat → Nat → Scan (List Key × Key × Item)
  | 0, _ => exhausted
  | fuel + 1, depth => do
    let path ← keyPath
    let v ← commit do
      keyvalSeparator
      ws
      let v ← value fuel depth
      ws
      pure v
    let (dottedPart, key) := splitPath path
    return (dottedPart, key, v)

end

/-- Fuel for reading one value of the input: more than any reading can spend. -/
def valueFuel : Scan Nat := do
  return 8 * ((← read).size + 8)

/-- Reads a key-value line and places it. -/
def keyvalLine (p : Placement) : Scan Placement := do
  let start ← get
  let path ← keyPath
  let item ← commit do
    keyvalSeparator
    ws
    let v ← value (← valueFuel) 0
    withContext (.expected (.char '#')) (expecting '\n' lineTrailing)
    pure v
  let (dottedPart, key) := splitPath path
  match p.onKeyval dottedPart key item with
  | .ok p => pure p
  | .error c => failAt start (some c.message)

/-- Reads a header, `[path]` or `[[path]]` by `isArray`, with the rest of its line, and opens
its table. -/
def header (p : Placement) (isArray : Bool) : Scan Placement := do
  let start ← get
  let (opening, closing) := if isArray then ("[[", "]]") else ("[", "]")
  literal opening
  let path ← commit keyPath
  withContext (.expected (.text closing)) (expecting '.' (commit (literal closing)))
  let span : Span := ⟨start, ← get⟩
  withContext (.expected (.char '#')) (expecting '\n' (commit lineTrailing))
  match p.onHeader isArray path span with
  | .ok p => pure p
  | .error c => failAt start (some c.message)

/-- Reads a header of either kind, told by its first two bytes. -/
def table (p : Placement) : Scan Placement :=
  label "table header" do
    let some second ← peekByteAt 1 | fail
    header p (is '[' second)

/-- Reads the lines of a document from the current one on. -/
def lines : Nat → Placement → Scan Placement
  | 0, p => pure p
  | budget + 1, p => do
    let some b ← peekByte | return p
    if is '\n' b || is '\r' b then
      match ← attempt newline with
      | none => return p
      | some () =>
        ws
        lines budget p
    else
      let p ← commit do
        if is '#' b then
          comment
          lineEnding
          pure p
        else if is '[' b then table p
        else keyvalLine p
      ws
      lines budget p

/-- Reads a document: an optional byte order mark, then lines to the end. -/
def document : Scan Placement := do
  let _ ← attempt (literal "\xEF\xBB\xBF")
  ws
  let p ← lines (← budget) Placement.initial
  eof
  return p

end Grammar

end Toml

end DotLint
