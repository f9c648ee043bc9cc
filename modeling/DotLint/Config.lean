import DotLint.Toml.Report
import DotLint.Rule.DotLocation
import DotLint.Text.Visible

/-!
# The configuration file

The configuration is a TOML document with one optional table, `rules`, holding one optional
key, `dot-location`, whose value is `"object"` (the default) or `"property"`:

```toml
[rules]
dot-location = "property"
```

Any other key is refused. The reading is the general one of a structure from TOML, so it
accepts some other spellings too: `rules` may be an array whose first element is the
position, and a position may be a table holding one key, the position's name, whose value
is an empty table or array.

A complaint points at the innermost thing it is about that has a span: the value, else the
key it stands under.
-/

namespace DotLint

open Toml

/-- The settings a configuration file gives. -/
structure Config where
  dotLocation : DotPosition
deriving DecidableEq, Repr

/-- The settings when no file gives any. -/
def Config.default : Config := ⟨.object⟩

namespace Config

/-- A complaint without a span yet. -/
def complain {α : Type} (message : String) : Except Problem α := .error ⟨message, none⟩

/-- A complaint about `span`. -/
def complainAt {α : Type} (message : String) (span : Option Span) : Except Problem α :=
  .error ⟨message, span⟩

/-- Gives a complaint of `r` that has no span the span `span`. -/
def orAt {α : Type} (r : Except Problem α) (span : Option Span) : Except Problem α :=
  match r with
  | .error p => if p.span.isSome then .error p else .error { p with span := span }
  | ok => ok

/-- A text as a debugging display shows it: in double quotes, with quotes, backslashes and
the characters that are not visible on their own escaped. -/
def quoted (s : String) : String :=
  let escape := fun (c : Char) =>
    if c == '\x00' then "\\0"
    else if c == '\t' then "\\t"
    else if c == '\r' then "\\r"
    else if c == '\n' then "\\n"
    else if c == '\\' then "\\\\"
    else if c == '"' then "\\\""
    else if Visible.isEscaped c.toNat then
      "\\u\x7b" ++ String.ofList (Nat.toDigits 16 c.toNat) ++ "\x7d"
    else c.toString
  "\"" ++ String.join (s.toList.map escape) ++ "\""

/-- The refusal of a key that names no setting. -/
def unknownField (name expected : String) : String :=
  "unknown field \x60" ++ name ++ "\x60, expected \x60" ++ expected ++ "\x60"

/-- The position a variant name gives. -/
def variantNamed (name : String) : Except Problem DotPosition :=
  match DotPosition.ofName? name with
  | some pos => .ok pos
  | none =>
    complain ("unknown variant \x60" ++ name ++ "\x60, expected \x60object\x60 or \x60property\x60")

/-- Checks that the value under a variant name carries nothing. -/
def unitVariant (item : Item) : Except Problem Unit :=
  match item with
  | .tableArray ts => if ts.isEmpty then .ok () else complainAt "expected empty array" item.span?
  | .array items s => if items.isEmpty then .ok () else complainAt "expected empty table" (some s)
  | .table t | .inlineTable t =>
    if t.entries.isEmpty then .ok () else complainAt "expected empty table" t.span
  | other => complainAt ("expected table, found " ++ other.typeName) other.span?

/-- The position an item gives: a name, or a table holding one name with nothing under it. -/
def positionOf (item : Item) : Except Problem DotPosition :=
  let named := fun (t : Table) =>
    match t.entries with
    | [] => complainAt "wanted exactly 1 element, found 0 elements" t.span
    | [(k, v)] => do
      let pos ← orAt (variantNamed k.name) (some k.span)
      unitVariant v
      pure pos
    | _ => complainAt "wanted exactly 1 element, more than 1 element" t.span
  let r := match item with
    | .string s _ => variantNamed s
    | .table t | .inlineTable t => named t
    | other => complainAt "wanted string or table" other.span?
  orAt r item.span?

/-- The refusal of an item that cannot hold the rule settings. -/
def notRules (what : String) : Except Problem DotPosition :=
  complain ("invalid type: " ++ what ++ ", expected struct RulesConfig")

/-- The position the value of `rules` sets: by its key `dot-location` when it is a table, by
its first element when it is an array; the default when it does not say. -/
def rulesOf (item : Item) : Except Problem DotPosition :=
  let fields := fun (es : List (Key × Item)) =>
    es.foldlM (fun (_ : DotPosition) (e : Key × Item) =>
      if e.1.name == "dot-location" then orAt (positionOf e.2) (e.2.span?.orElse fun _ => e.1.span)
      else complainAt (unknownField e.1.name "dot-location") (some e.1.span))
      DotPosition.object
  let r := match item with
    | .string s _ => notRules ("string " ++ quoted s)
    | .integer n _ => notRules ("integer \x60" ++ toString n ++ "\x60")
    | .float shown _ => notRules ("floating point \x60" ++ shown ++ "\x60")
    | .boolean b _ => notRules ("boolean \x60" ++ toString b ++ "\x60")
    | .datetime _ => complain (unknownField "$__toml_private_datetime" "dot-location")
    | .array items _ =>
      match items with
      | [] => .ok .object
      | first :: _ => orAt (positionOf first) first.span?
    | .tableArray ts =>
      match ts with
      | [] => .ok .object
      | first :: _ => orAt (positionOf (.table first)) first.span
    | .table t | .inlineTable t => fields t.entries
  orAt r item.span?

/-- The settings a document's root table gives. -/
def ofTable (root : Table) : Except Problem Config :=
  let r := root.entries.foldlM (fun (_ : Config) (e : Key × Item) =>
      if e.1.name == "rules" then
        (orAt (rulesOf e.2) (e.2.span?.orElse fun _ => e.1.span)).map fun pos => ⟨pos⟩
      else complainAt (unknownField e.1.name "rules") (some e.1.span))
    Config.default
  orAt r root.span

/-- The settings a configuration text gives, or the report of why it gives none. -/
def ofToml (source : String) : Except String Config :=
  match parseDocument source >>= ofTable with
  | .ok c => .ok c
  | .error p => .error (p.render source)

end Config

end DotLint
