import DotLint.Toml.Grammar

/-!
# Reading a document, and showing what went wrong

A failure to read is reported at the character of the input it met (or at its end), and a complaint
about a document that reads may cover a span of it. Either is shown as the line it falls on,
with a row of carets under the span, and the message below:

```text
TOML parse error at line 2, column 16
  |
2 | dot-location = "middle"
  |                ^^^^^^^^
unknown variant `middle`, expected `object` or `property`
```

Lines are counted by line feeds. The column counts characters from the start of the line;
an offset at the very end counts on past the last byte. A conflict found only when the last
table is filed has no span and is shown by its message alone.
-/

namespace DotLint

namespace Toml

/-- A message about a document, with the span it is about, if any. -/
structure Problem where
  message : String
  span : Option Span
deriving Repr, Inhabited

/-- The line and column, both from zero, of byte offset `index` in `input`. -/
def translatePosition (input : ByteArray) (index : Nat) : Nat × Nat :=
  if input.size = 0 then (0, index)
  else
    let safe := min index (input.size - 1)
    let past := index - safe
    let before := (input.extract 0 safe).toList
    let lineStart := match (before.reverse.findIdx? (· == 10)) with
      | some k => safe - k
      | none => 0
    let line := ((input.extract 0 lineStart).toList.filter (· == 10)).length
    let column := match String.fromUTF8? (input.extract lineStart (safe + 1)) with
      | some s => s.length - 1
      | none => safe - lineStart
    (line, column + past)

/-- The text of a problem with `source`: the line it is on, carets under its span, the
message; or the message alone when it has no span. -/
def Problem.render (p : Problem) (source : String) : String :=
  match p.span with
  | none => p.message ++ "\n"
  | some span =>
    let (line, column) := translatePosition source.toUTF8 span.start
    let lineNumber := toString (line + 1)
    let content := (source.splitOn "\n")[line]?.getD ""
    let width := min (span.stop - span.start) (content.utf8ByteSize - column)
    let gutter := String.ofList (List.replicate (lineNumber.length + 1) ' ')
    "TOML parse error at line " ++ lineNumber ++ ", column " ++ toString (column + 1) ++ "\n" ++
      gutter ++ "|\n" ++
      lineNumber ++ " | " ++ content ++ "\n" ++
      gutter ++ "|" ++ String.ofList (List.replicate (column + 1) ' ') ++
        String.ofList (List.replicate (max 1 width) '^') ++ "\n" ++
      p.message ++ "\n"

/-- Whether the byte at offset `i` continues a character rather than starting one. -/
def continuesCharacter (input : ByteArray) (i : Nat) : Bool :=
  match input[i]? with
  | some b => 0x80 ≤ b && b < 0xC0
  | none => false

/-- The start of the character holding byte offset `i`: back past continuation bytes. -/
def characterStart (input : ByteArray) : Nat → Nat
  | 0 => 0
  | i + 1 => if continuesCharacter input (i + 1) then characterStart input i else i + 1

/-- The end of the character starting before byte offset `i`: on past continuation bytes,
at most `fuel` of them. -/
def characterStop (input : ByteArray) (i : Nat) : Nat → Nat
  | 0 => i
  | fuel + 1 =>
    if continuesCharacter input i then characterStop input (i + 1) fuel
    else i

/-- The span of the character at byte offset `i`; empty at the end of the input. -/
def characterSpan (input : ByteArray) (i : Nat) : Span :=
  if i ≥ input.size then ⟨i, i⟩
  else
    let start := characterStart input i
    ⟨start, characterStop input (start + 1) input.size⟩

/-- The root table of a document, or where and why it does not read. -/
def parseDocument (source : String) : Except Problem Table :=
  let input := source.toUTF8
  match (Grammar.document.run input).run 0 with
  | .error f =>
    .error ⟨f.message, some (characterSpan input f.offset)⟩
  | .ok (placement, _) =>
    match placement.finish with
    | .ok root => .ok root
    | .error c => .error ⟨c.message, none⟩

end Toml

end DotLint
