/-!
# Offsets, spans and line/column positions

A source text is addressed in two ways. An *offset* counts bytes of the text's UTF-8
encoding, and a `Span` is a half-open range of offsets. A `Position` is a 1-based line and
column: the column counts characters, a line feed ends a line, a carriage return ends one
unless a line feed follows it (the pair counts once), and nothing else does.

The text itself is handled as a `List Char`; `byteSize` turns a run of characters into the
number of bytes it occupies, which is how offsets advance.
-/

namespace DotLint

/-- Half-open byte range `[start, stop)` of a source text. -/
structure Span where
  start : Nat
  stop : Nat
deriving DecidableEq, Repr, Inhabited

namespace Span

/-- The smallest span that covers both spans. -/
def cover (a b : Span) : Span := ⟨min a.start b.start, max a.stop b.stop⟩

/-- Spans are ordered by start, then by stop. -/
def le (a b : Span) : Bool :=
  a.start < b.start || (a.start == b.start && a.stop ≤ b.stop)

end Span

/-- A 1-based line and column. -/
structure Position where
  line : Nat := 1
  column : Nat := 1
deriving DecidableEq, Repr, Inhabited

/-- The first and the one-past-last position of a token or node. -/
structure Location where
  start : Position := {}
  stop : Position := {}
deriving DecidableEq, Repr, Inhabited

namespace Position

/-- Positions are ordered by line, then by column. -/
def le (a b : Position) : Bool :=
  a.line < b.line || (a.line == b.line && a.column ≤ b.column)

/-- The later of two positions. -/
def max (a b : Position) : Position := if a.le b then b else a

/-- The position as it is written in messages: `line L, column C`. -/
def describe (p : Position) : String :=
  "line " ++ toString p.line ++ ", column " ++ toString p.column

/-- Steps over the character `c`, given the character that follows it. -/
def step (p : Position) (c : Char) (next : Option Char) : Position :=
  if c = '\n' then ⟨p.line + 1, 1⟩
  else if c = '\r' then (if next = some '\n' then p else ⟨p.line + 1, 1⟩)
  else ⟨p.line, p.column + 1⟩

/-- Steps over the first `n` characters of `cs`, each seeing the character after it. -/
def advance (p : Position) : Nat → List Char → Position
  | 0, _ => p
  | _ + 1, [] => p
  | n + 1, c :: rest => (p.step c rest.head?).advance n rest

@[simp] theorem advance_zero (p : Position) (cs : List Char) : p.advance 0 cs = p := rfl

@[simp] theorem advance_succ_cons (p : Position) (n : Nat) (c : Char) (rest : List Char) :
    p.advance (n + 1) (c :: rest) = (p.step c rest.head?).advance n rest := rfl

end Position

/-- Number of bytes that the characters `cs` occupy in UTF-8. -/
def byteSize : List Char → Nat
  | [] => 0
  | c :: cs => c.utf8Size + byteSize cs

@[simp] theorem byteSize_nil : byteSize [] = 0 := rfl

@[simp] theorem byteSize_cons (c : Char) (cs : List Char) :
    byteSize (c :: cs) = c.utf8Size + byteSize cs := rfl

@[simp] theorem byteSize_append (a b : List Char) :
    byteSize (a ++ b) = byteSize a + byteSize b := by
  induction a with
  | nil => simp
  | cons c a ih => simp only [List.cons_append, byteSize_cons, ih, Nat.add_assoc]

end DotLint
