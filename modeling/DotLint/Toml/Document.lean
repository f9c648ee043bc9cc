import DotLint.Source.Location

/-!
# TOML documents

A TOML document is a table. A table maps keys, in the order they were first written, to
items: a value (string, integer, float, boolean, date-time, array or inline table), a
table, or an array of tables. Every key, value and header remembers the byte span it was
written at, so that a later complaint about it can point there; tables made on the way to a
dotted key or a nested header have no span of their own.

A table also remembers how it came to be: an *implicit* table was only named on the way to
another one, and a *dotted* table was made by a dotted key rather than by a header. Both
decide which later definitions of the same name are allowed.
-/

namespace DotLint

namespace Toml

/-- A key as written: its name and the span of its spelling. -/
structure Key where
  name : String
  span : Span
deriving Repr, Inhabited

/-- Whether a character of a key name can only be written as an escape: a control
character other than tab. -/
def Key.needsEscape (c : Char) : Bool := (c.toNat ≤ 0x1F && c != '\t') || c.toNat == 0x7F

/-- How a key name is written when it is named in a message: bare, when it is not empty and
every byte may stand in a bare key; else as a literal string, when a basic string would
have to escape a backslash or a double quote in it and a literal string can hold it, which
needs no control character other than tab and no single quote; else as a basic string, with
escapes where it needs them. -/
def Key.defaultRepr (name : String) : String :=
  let bare := fun (c : Char) =>
    c.isAlphanum && c.toNat < 0x80 || c == '-' || c == '_'
  let literal := name.any (fun c => c == '\\' || c == '"') &&
    !name.any (fun c => Key.needsEscape c || c == '\'')
  if !name.isEmpty && name.all bare then name
  else if literal then "'" ++ name ++ "'"
  else
    let escape := fun (c : Char) =>
      if c == '\x08' then "\\b"
      else if c == '\t' then "\\t"
      else if c == '\n' then "\\n"
      else if c == '\x0C' then "\\f"
      else if c == '\r' then "\\r"
      else if c == '"' then "\\\""
      else if c == '\\' then "\\\\"
      else if c.toNat ≤ 0x1F || c.toNat == 0x7F then
        let h := Nat.toDigits 16 c.toNat
        "\\u" ++ String.ofList ((List.replicate (4 - h.length) '0' ++ h).map Char.toUpper)
      else c.toString
    "\"" ++ String.join (name.toList.map escape) ++ "\""

mutual

/-- A value or a table stored under a key. -/
inductive Item where
  /-- A string value. -/
  | string (value : String) (span : Span)
  /-- An integer value. -/
  | integer (value : Int) (span : Span)
  /-- A float value, kept as the text that names it in messages. -/
  | float (shown : String) (span : Span)
  /-- A boolean value. -/
  | boolean (value : Bool) (span : Span)
  /-- A date, a time, or both. -/
  | datetime (span : Span)
  /-- An array value. -/
  | array (items : List Item) (span : Span)
  /-- An inline table value. -/
  | inlineTable (t : Table)
  /-- A table defined by a header, a dotted key, or on the way to one. -/
  | table (t : Table)
  /-- An array of tables, one per `[[...]]` header. -/
  | tableArray (ts : List Table)

/-- The entries of a table in the order their keys first appeared, whether the table is
implicit or dotted, and its span. -/
inductive Table where
  | mk (entries : List (Key × Item)) (implicit dotted : Bool) (span : Option Span)

end

namespace Table

/-- The table with no entries, neither implicit nor dotted, without a span. -/
def empty : Table := .mk [] false false none

/-- The entries of a table. -/
def entries : Table → List (Key × Item)
  | .mk es _ _ _ => es

/-- Whether the table was only named on the way to another. -/
def implicit : Table → Bool
  | .mk _ i _ _ => i

/-- Whether the table was made by a dotted key. -/
def dotted : Table → Bool
  | .mk _ _ d _ => d

/-- The span of the table, if it has one. -/
def span : Table → Option Span
  | .mk _ _ _ s => s

/-- The table with other entries. -/
def withEntries (t : Table) (es : List (Key × Item)) : Table :=
  .mk es t.implicit t.dotted t.span

/-- The table with another span. -/
def withSpan (t : Table) (s : Option Span) : Table := .mk t.entries t.implicit t.dotted s

/-- The item under `name`, if any. -/
def find? (t : Table) (name : String) : Option Item :=
  (t.entries.find? (·.1.name == name)).map (·.2)

/-- The table with `item` under `name`: in place if the name is present, else last. -/
def set (t : Table) (key : Key) (item : Item) : Table :=
  if t.entries.any (·.1.name == key.name) then
    t.withEntries (t.entries.map fun e => if e.1.name == key.name then (e.1, item) else e)
  else t.withEntries (t.entries ++ [(key, item)])

/-- The table without the entry under `name`, and that entry's item, if it had one. -/
def remove (t : Table) (name : String) : Table × Option Item :=
  (t.withEntries (t.entries.filter (·.1.name != name)), t.find? name)

/-- The number of entries. -/
def size (t : Table) : Nat := t.entries.length

end Table

namespace Item

/-- The span of an item, if it has one: an array of tables spans from its first table to its
last, when both have spans. -/
def span? : Item → Option Span
  | .string _ s | .integer _ s | .float _ s | .boolean _ s | .datetime s | .array _ s => some s
  | .inlineTable t | .table t => t.span
  | .tableArray ts =>
    match (ts.head?.bind Table.span), (ts.getLast?.bind Table.span) with
    | some first, some last => some ⟨first.start, last.stop⟩
    | _, _ => none

/-- The name of an item's type, as messages give it. -/
def typeName : Item → String
  | .string .. => "string"
  | .integer .. => "integer"
  | .float .. => "float"
  | .boolean .. => "boolean"
  | .datetime _ => "datetime"
  | .array .. => "array"
  | .inlineTable _ => "inline table"
  | .table _ => "table"
  | .tableArray _ => "array of tables"

end Item

/-- Why a document is not well formed although each line reads. -/
inductive Conflict where
  /-- A key defined twice; `table` is the path of the table it is in, when known. -/
  | duplicateKey (key : String) (table : Option (List String))
  /-- A dotted key that runs through a value that is not a table. -/
  | extendsValue (path : List String) (actual : String)
  /-- A number, date or code point outside its range. -/
  | outOfRange
  /-- Arrays, inline tables or dotted keys nested too deeply. -/
  | tooDeep

/-- The text of a conflict. -/
def Conflict.message : Conflict → String
  | .duplicateKey key none => "duplicate key `" ++ key ++ "`"
  | .duplicateKey key (some []) => "duplicate key `" ++ key ++ "` in document root"
  | .duplicateKey key (some path) =>
    "duplicate key `" ++ key ++ "` in table `" ++ ".".intercalate path ++ "`"
  | .extendsValue path actual =>
    "dotted key `" ++ ".".intercalate path ++ "` attempted to extend non-table type (" ++
      actual ++ ")"
  | .outOfRange => "value is out of range"
  | .tooDeep => "recursion limit exceeded"

end Toml

end DotLint
