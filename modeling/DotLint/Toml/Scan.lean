import DotLint.Toml.Document

/-!
# Reading bytes with committed and soft failures

TOML is read byte by byte with a small set of combinators. A reader either succeeds and moves
on, or fails at an offset. A *soft* failure lets an enclosing alternative try its next
choice from where the alternative began; a *committed* failure (after `commit`) is final
and ends the whole reading. On the way out, a failure collects *contexts*: what construct
was being read (a label such as `table header`) and what would have been accepted there
(such as `]`). The message of a failure names the first label, the expected items in the
order they were added, and the cause, one per line.

Repetitions carry a budget of rounds; the readers they repeat consume at least one byte per
round, so a budget of one more than the input length is never exhausted.
-/

namespace DotLint

namespace Toml

/-- Something a reader would have accepted where it failed. -/
inductive Expected where
  /-- A character, shown quoted, or as `newline` for a line feed. -/
  | char (c : Char)
  /-- A literal text, shown quoted. -/
  | text (s : String)
  /-- A description, shown as it is. -/
  | description (s : String)

/-- How an expected item is shown in a message. -/
def Expected.describe : Expected → String
  | .char '\n' => "newline"
  | .char '\x60' => "'\x60'"
  | .char c => "\x60" ++ c.toString ++ "\x60"
  | .text s => "\x60" ++ s ++ "\x60"
  | .description s => s

/-- What a failure collects on its way out of the readers. -/
inductive Context where
  /-- The construct being read. -/
  | label (what : String)
  /-- Something that would have been accepted. -/
  | expected (e : Expected)

/-- A failed reading: where it failed, what it collected, its cause, and whether it is
committed. -/
structure Failure where
  offset : Nat
  contexts : List Context
  cause : Option String
  committed : Bool

/-- The message of a failure: `invalid` and the first label, then `expected` and the
expected items, then the cause, each on a line of its own. -/
def Failure.message (f : Failure) : String :=
  let label := f.contexts.findSome? fun
    | .label s => some s
    | .expected _ => none
  let expected := f.contexts.filterMap fun
    | .expected e => some e.describe
    | .label _ => none
  let lines :=
    (match label with
      | some l => ["invalid " ++ l]
      | none => []) ++
    (if expected.isEmpty then [] else ["expected " ++ ", ".intercalate expected]) ++
    (match f.cause with
      | some c => [c]
      | none => [])
  "\n".intercalate lines

/-- A reader of a byte array: it moves the offset of the next byte, and may fail. -/
abbrev Scan := ReaderT ByteArray (StateT Nat (Except Failure))

namespace Scan

/-! ## Failing -/

/-- Fails softly here. -/
def fail {α : Type} : Scan α := do
  throw ⟨← get, [], none, false⟩

/-- Fails softly at `offset` with a cause. -/
def failAt {α : Type} (offset : Nat) (cause : Option String) : Scan α :=
  throw ⟨offset, [], cause, false⟩

/-- Makes every failure of `p` committed. -/
def commit {α : Type} (p : Scan α) : Scan α :=
  tryCatch p fun f => throw ⟨f.offset, f.contexts, f.cause, true⟩

/-- Adds a context to every failure of `p`. -/
def withContext {α : Type} (c : Context) (p : Scan α) : Scan α :=
  tryCatch p fun f => throw ⟨f.offset, f.contexts ++ [c], f.cause, f.committed⟩

/-- Adds a label to every failure of `p`. -/
def label {α : Type} (what : String) (p : Scan α) : Scan α := withContext (.label what) p

/-- Adds an expected character to every failure of `p`. -/
def expecting {α : Type} (c : Char) (p : Scan α) : Scan α := withContext (.expected (.char c)) p

/-! ## Choosing -/

/-- `p`, or `none` where it fails softly, back where it started. -/
def attempt {α : Type} (p : Scan α) : Scan (Option α) :=
  tryCatch (some <$> p) fun f => if f.committed then throw f else pure none

/-- `p`, or `q` from the same place where `p` fails softly. -/
def orElse {α : Type} (p q : Scan α) : Scan α :=
  tryCatch p fun f => if f.committed then throw f else q

/-- Runs `p` and goes back to where it started; a failure is placed there too. -/
def lookahead {α : Type} (p : Scan α) : Scan α := do
  let start ← get
  tryCatch (do
      let a ← p
      set start
      pure a)
    fun f => throw ⟨start, f.contexts, f.cause, f.committed⟩

/-- Runs `p` as long as it succeeds, at most `budget` times; a committed failure ends the
reading. -/
def repeatUpTo (p : Scan Unit) : Nat → Scan Unit
  | 0 => pure ()
  | budget + 1 => do
    match ← attempt p with
    | some () => repeatUpTo p budget
    | none => pure ()

/-- A repetition budget for the input: one round more than it has bytes. -/
def budget : Scan Nat := do
  return (← read).size + 1

/-- Runs `p` as long as it succeeds. -/
def many (p : Scan Unit) : Scan Unit := do
  repeatUpTo p (← budget)

/-! ## Bytes -/

/-- The next byte, if any, without moving. -/
def peekByte : Scan (Option UInt8) := do
  return (← read)[← get]?

/-- The byte `k` places after the next one, if any, without moving. -/
def peekByteAt (k : Nat) : Scan (Option UInt8) := do
  return (← read)[(← get) + k]?

/-- Reads one byte; fails at the end. -/
def anyByte : Scan UInt8 := do
  match ← peekByte with
  | some b =>
    modify (· + 1)
    return b
  | none => fail

/-- Reads one byte of the class `p`. -/
def oneOf (p : UInt8 → Bool) : Scan UInt8 := do
  match ← peekByte with
  | some b =>
    if p b then
      modify (· + 1)
      return b
    fail
  | none => fail

/-- Reads the byte of the ASCII character `c`. -/
def byte (c : Char) : Scan Unit := do
  let _ ← oneOf (·.toNat == c.toNat)

/-- Reads the bytes of the ASCII text `s`. -/
def literal (s : String) : Scan Unit := do
  let input ← read
  let i ← get
  let bs := s.toList.map (·.toNat)
  if (bs.zipIdx.all fun (b, j) => (input[i + j]?.map (·.toNat)) == some b) then
    set (i + bs.length)
  else fail

/-- The first offset at or after `i` whose byte is not of class `p`, looking at no more than
`limit` bytes. -/
def skipClass (input : ByteArray) (p : UInt8 → Bool) : Nat → Nat → Nat
  | 0, i => i
  | limit + 1, i =>
    match input[i]? with
    | some b => if p b then skipClass input p limit (i + 1) else i
    | none => i

/-- Reads bytes of class `p`, at most `limit` of them; returns how many. -/
def takeUpTo (limit : Nat) (p : UInt8 → Bool) : Scan Nat := do
  let i ← get
  let j := skipClass (← read) p limit i
  set j
  return j - i

/-- Reads all bytes of class `p` that follow; returns how many. -/
def takeWhile (p : UInt8 → Bool) : Scan Nat := do
  takeUpTo (← read).size p

/-- Reads one or more bytes of class `p`; returns how many. -/
def takeWhile1 (p : UInt8 → Bool) : Scan Nat := do
  let n ← takeWhile p
  if n = 0 then fail
  return n

/-- Succeeds at the end of the input only. -/
def eof : Scan Unit := do
  if (← peekByte).isNone then return
  fail

/-- The text of the bytes from `start` to `stop`. -/
def textOf (start stop : Nat) : Scan String := do
  return (String.fromUTF8? ((← read).extract start stop)).getD ""

/-- Runs `p` and returns the span it read. -/
def spanned {α : Type} (p : Scan α) : Scan (α × Span) := do
  let start ← get
  let a ← p
  return (a, ⟨start, ← get⟩)

end Scan

/-! ## Byte classes -/

namespace Bytes

/-- Whether `b` is the code of `c`. -/
def is (c : Char) (b : UInt8) : Bool := b.toNat == c.toNat

/-- Whether `b` lies in the range from `lo` to `hi`. -/
def within (lo hi : Nat) (b : UInt8) : Bool := lo ≤ b.toNat && b.toNat ≤ hi

/-- Blanks inside a line: space and tab. -/
def isBlank (b : UInt8) : Bool := is ' ' b || is '\t' b

/-- Bytes of characters outside ASCII. -/
def isNonAscii (b : UInt8) : Bool := within 0x80 0xFF b

/-- Bytes that may stand in a comment. -/
def isNonEol (b : UInt8) : Bool := b.toNat == 0x09 || within 0x20 0x7E b || isNonAscii b

/-- Bytes of a bare key: ASCII letters, digits, `-` and `_`. -/
def isBareKey (b : UInt8) : Bool :=
  within 0x41 0x5A b || within 0x61 0x7A b || within 0x30 0x39 b || is '-' b || is '_' b

/-- Bytes that stand for themselves in a basic string. -/
def isBasicPlain (b : UInt8) : Bool :=
  isBlank b || b.toNat == 0x21 || within 0x23 0x5B b || within 0x5D 0x7E b || isNonAscii b

/-- Bytes of a literal string. -/
def isLiteralPlain (b : UInt8) : Bool :=
  b.toNat == 0x09 || within 0x20 0x26 b || within 0x28 0x7E b || isNonAscii b

/-- Decimal digits. -/
def isDigit (b : UInt8) : Bool := within 0x30 0x39 b

/-- Hexadecimal digits. -/
def isHexDigit (b : UInt8) : Bool := isDigit b || within 0x41 0x46 b || within 0x61 0x66 b

/-- The value of a hexadecimal digit. -/
def hexValue (b : UInt8) : Nat :=
  if isDigit b then b.toNat - 0x30
  else if within 0x41 0x46 b then b.toNat - 0x41 + 10
  else b.toNat - 0x61 + 10

end Bytes

/-! ## Blanks, line ends and comments -/

namespace Scan

open Bytes

/-- Reads blanks inside a line. -/
def ws : Scan Unit := do
  let _ ← takeWhile isBlank

/-- Reads a line feed, or a carriage return and a line feed. The byte is taken before it is
looked at, so a failure on any other byte is placed after it. -/
def newline : Scan Unit := do
  let b ← anyByte
  if is '\n' b then return
  else if is '\r' b then byte '\n'
  else fail

/-- Reads blanks and line ends. -/
def wsNewline : Scan Unit :=
  many (orElse newline (do let _ ← takeWhile1 isBlank))

/-- Reads a line end, then blanks and line ends. -/
def wsNewlines : Scan Unit := do
  newline
  wsNewline

/-- Reads a comment, up to the end of its line. -/
def comment : Scan Unit := do
  byte '#'
  let _ ← takeWhile isNonEol

/-- Reads blanks, comments and line ends in any mix. -/
def wsCommentNewlineFrom : Nat → Scan Unit
  | 0 => pure ()
  | budget + 1 => do
    let start ← get
    ws
    match ← peekByte with
    | some b =>
      if is '#' b then
        comment
        newline
      else if is '\n' b || is '\r' b then newline
      else return
    | none => return
    if (← get) == start then return
    wsCommentNewlineFrom budget

/-- Reads blanks, comments and line ends in any mix. -/
def wsCommentNewline : Scan Unit := do
  wsCommentNewlineFrom (← budget)

/-- Reads a line end or the end of the input. -/
def lineEnding : Scan Unit := orElse newline eof

/-- Reads the rest of a line after a value or header: blanks, a comment, the line end. -/
def lineTrailing : Scan Unit := do
  ws
  let _ ← attempt comment
  lineEnding

end Scan

end Toml

end DotLint
