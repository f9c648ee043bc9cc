import DotLint.Token.Basic

/-!
# Splitting a source text into tokens

`tokenize` reads the text from left to right. At each point the first character decides
what stands there: a blank or a comment (incidental text, which becomes no token), a quoted
string, a number, a word, or a punctuator; anything else is an error. Each reader takes the
longest run that its rule allows, so the tokens and the incidental text between them tile
the text after an optional leading byte-order mark.

Offsets advance by the UTF-8 size of each character read, and positions by
`Position.step`, which looks one character ahead to count a carriage return and line feed
as one line break.
-/

namespace DotLint

open Lexical

/-- Why a text cannot be split into tokens. -/
inductive LexErrorKind where
  /-- A string literal meets a line break or the end before its closing quote. -/
  | unterminatedString
  /-- A block comment has no closing star and slash. -/
  | unterminatedComment
  /-- A number is followed directly by a word character, or a radix prefix has no digits;
  the text read so far is kept. -/
  | malformedNumber (text : String)
  /-- A character that starts no token. -/
  | unexpectedCharacter (c : Char)
deriving DecidableEq, Repr

/-- A lexical error and the position of the string, comment, number or character at fault. -/
structure LexError where
  kind : LexErrorKind
  position : Position
deriving DecidableEq, Repr

/-- The description of a lexical error, without its position. -/
def LexErrorKind.message : LexErrorKind → String
  | .unterminatedString => "unterminated string literal"
  | .unterminatedComment => "unterminated block comment"
  | .malformedNumber text => "malformed numeric literal: " ++ text
  | .unexpectedCharacter c => "unexpected character: " ++ c.toString

/-- The text of a lexical error: what went wrong and where. -/
def LexError.message (e : LexError) : String :=
  e.kind.message ++ " at " ++ e.position.describe

namespace Lexical

/-! ## Readers

Each reader looks at the text after the first character of what it reads and says how many
more characters belong to it. -/

/-- Characters of a line comment after its first slash: up to, not including, a line break. -/
def lineCommentRest (rest : List Char) : Nat :=
  (rest.takeWhile (fun c => !isLineBreak c)).length

/-- Characters up to and including the first star and slash, if there is one. -/
def commentClose : List Char → Option Nat
  | [] => none
  | '*' :: '/' :: _ => some 2
  | _ :: r => (commentClose r).map (· + 1)

/-- Characters of a string literal after its opening quote `q`, the closing quote included.
A backslash takes the next character with it, or a carriage return and line feed together;
an unescaped line break or the end of the text leaves the string open. -/
def stringRest (q : Char) : List Char → Option Nat
  | [] => none
  | c :: r =>
    if c = '\n' || c = '\r' then none
    else if c = '\\' then
      match r with
      | '\r' :: '\n' :: r' => (stringRest q r').map (· + 3)
      | _ :: r' => (stringRest q r').map (· + 2)
      | [] => none
    else if c = q then some 1
    else (stringRest q r).map (· + 1)

/-- The radix that a letter after a leading zero selects: hexadecimal, octal or binary. -/
def radixOf (x : Char) : Option Nat :=
  match x.toLower with
  | 'x' => some 16
  | 'o' => some 8
  | 'b' => some 2
  | _ => none

/-- One character for the big-integer suffix `n`, if it stands at the front. -/
def suffixLength : List Char → Nat
  | 'n' :: _ => 1
  | _ => 0

/-- Length of a decimal literal at the front of `cs`: digits, an optional fraction after a
point, an optional exponent, and the suffix `n` on an integer. An exponent without digits
is malformed, and the text read up to it is returned. -/
def decimalLength (cs : List Char) : Except (List Char) Nat :=
  let i := (cs.takeWhile isDecimalDigit).length
  let r1 := cs.drop i
  let (f, isInteger) : Nat × Bool :=
    match r1 with
    | '.' :: r => (1 + (r.takeWhile isDecimalDigit).length, false)
    | _ => (0, true)
  let r2 := r1.drop f
  match r2 with
  | e :: r =>
    if e = 'e' || e = 'E' then
      let s := match r with
        | '+' :: _ => 1
        | '-' :: _ => 1
        | _ => 0
      let d := ((r.drop s).takeWhile isDecimalDigit).length
      if d = 0 then .error (cs.take (i + f + 1 + s)) else .ok (i + f + 1 + s + d)
    else .ok (i + f + (if isInteger then suffixLength r2 else 0))
  | [] => .ok (i + f)

/-- Length of a numeric literal at the front of `cs`, before the check of what follows it:
a radix literal (`0x`, `0o`, `0b` in either case) needs at least one digit. -/
def numberBodyLength (cs : List Char) : Except (List Char) Nat :=
  match cs with
  | '0' :: x :: r =>
    match radixOf x with
    | some radix =>
      let k := (r.takeWhile (isRadixDigit radix)).length
      if k = 0 then .error ['0', x] else .ok (2 + k + suffixLength (r.drop k))
    | none => decimalLength cs
  | _ => decimalLength cs

/-- A character as it appears in the malformed text of a number: a character outside ASCII
is cut after its first byte, which shows as the replacement character. -/
def truncatedChar (c : Char) : Char := if c.toNat < 0x80 then c else '\uFFFD'

/-- Length of the numeric literal at the front of `cs`. A word character right after it
makes the literal malformed, and that character is part of the malformed text. -/
def numberLength (cs : List Char) : Except (List Char) Nat := do
  let n ← numberBodyLength cs
  match cs.drop n with
  | d :: _ => if isWordPart d then .error (cs.take n ++ [truncatedChar d]) else pure n
  | [] => pure n

/-- Length of the punctuator at the front of `cs`: the first of `punctuators` that fits,
except that `?.` before a digit is only `?`, so that a number with a leading point follows. -/
def punctuatorLength (cs : List Char) : Option Nat :=
  match punctuators.find? (fun p => p.toList.isPrefixOf cs) with
  | none => none
  | some p =>
    if p = "?." && ((cs.drop 2).head?.map Char.isDigit) = some true then some 1
    else some p.length

end Lexical

/-- What stands at the front of the unread text: its first character and `extra` more. -/
inductive Lexeme where
  /-- Blanks or a comment. -/
  | incidental (extra : Nat)
  /-- A token of the given kind. -/
  | token (kind : TokenKind) (extra : Nat)
  /-- Nothing that can be read. -/
  | fault (kind : LexErrorKind)
deriving DecidableEq, Repr

namespace Lexeme

open Lexical

/-- Classifies the text `c :: rest` by its first character (and the one after it). -/
def scan (c : Char) (rest : List Char) : Lexeme :=
  if isBlank c then .incidental 0
  else if c = '/' && rest.head? = some '/' then .incidental (lineCommentRest rest)
  else if c = '/' && rest.head? = some '*' then
    match commentClose rest.tail with
    | some n => .incidental (n + 1)
    | none => .fault .unterminatedComment
  else if c = '"' || c = '\'' then
    match stringRest c rest with
    | some n => .token .string n
    | none => .fault .unterminatedString
  else if c.isDigit || (c = '.' && (rest.head?.map Char.isDigit) = some true) then
    match numberLength (c :: rest) with
    | .ok n => .token .numeric (n - 1)
    | .error text => .fault (.malformedNumber (String.ofList text))
  else if isWordStart c then
    let word := rest.takeWhile isWordPart
    .token (wordKind (String.ofList (c :: word))) word.length
  else
    match punctuatorLength (c :: rest) with
    | some n => .token .punctuator (n - 1)
    | none => .fault (.unexpectedCharacter c)

end Lexeme

/-- Splits `cs`, which starts at byte offset `off` and position `pos`, into tokens after
those in `acc`. -/
def lexFrom (cs : List Char) (off : Nat) (pos : Position) (acc : Array Token) :
    Except LexError (Array Token) :=
  match cs with
  | [] => .ok acc
  | c :: rest =>
    match Lexeme.scan c rest with
    | .incidental n =>
      lexFrom (rest.drop n) (off + byteSize ((c :: rest).take (n + 1)))
        (pos.advance (n + 1) (c :: rest)) acc
    | .token kind n =>
      let text := (c :: rest).take (n + 1)
      let stop := off + byteSize text
      let stopPos := pos.advance (n + 1) (c :: rest)
      lexFrom (rest.drop n) stop stopPos
        (acc.push ⟨kind, String.ofList text, ⟨off, stop⟩, ⟨pos, stopPos⟩⟩)
    | .fault kind => .error ⟨kind, pos⟩
termination_by cs.length
decreasing_by all_goals (simp only [List.length_drop, List.length_cons]; omega)

/-- The tokens of a source text. A leading byte-order mark is skipped, and offsets still
count its three bytes. -/
def tokenize (source : String) : Except LexError (Array Token) :=
  match source.toList with
  | '\uFEFF' :: cs => lexFrom cs 3 {} #[]
  | cs => lexFrom cs 0 {} #[]

end DotLint
