import DotLint.Toml.Scan
import DotLint.Toml.Binary64

/-!
# TOML keys, strings, numbers and dates

Readers for the parts of TOML that hold no other values. Strings come in four forms: basic
(`"..."`, with backslash escapes), literal (`'...'`, taken as written), and the multi-line
forms of both (tripled quotes, where a line break right after the opening quotes is dropped).
Keys are bare words of letters, digits, `-` and `_`, or quoted like a one-line string, joined
by dots into a path.

Integers are decimal, or hexadecimal, octal or binary after `0x`, `0o`, `0b`; `_` may stand
between digits. A float is a decimal integer with a fraction, an exponent or both, or `inf`
or `nan` with an optional sign. A float is named in messages by its shortest decimal
spelling, written out without an exponent and with `.0` when it has no point.
-/

namespace DotLint

namespace Toml

namespace Grammar

open Scan Bytes

/-- How deeply arrays, inline tables and dotted keys may nest. -/
def depthLimit : Nat := 80

/-! ## Strings -/

/-- The code point of the hexadecimal digits in `ds`. -/
def hexNumber (ds : List UInt8) : Nat := ds.foldl (fun acc b => acc * 16 + hexValue b) 0

/-- Reads exactly `n` hexadecimal digits naming a character. -/
def hexEscape (n : Nat) : Scan Char := do
  let start ← get
  let count ← takeUpTo n isHexDigit
  if count != n then failAt start none
  let ds := ((← read).extract start (start + n)).toList
  let v := hexNumber ds
  if v < 0xD800 || (0xE000 ≤ v && v ≤ 0x10FFFF) then return Char.ofNat v
  failAt start (some Conflict.outOfRange.message)

/-- The characters that may follow a backslash, for messages. -/
def escapeLetters : List Char := ['b', 'f', 'n', 'r', 't', 'u', 'U', '\\', '"']

/-- Reads the character after a backslash: a letter naming a control character, a quote, a
backslash, or a code point in four or eight hexadecimal digits. -/
def escapeSeqChar : Scan Char := do
  let b ← anyByte
  if is 'b' b then return '\x08'
  if is 'f' b then return '\x0C'
  if is 'n' b then return '\n'
  if is 'r' b then return '\r'
  if is 't' b then return '\t'
  if is '\\' b then return '\\'
  if is '"' b then return '"'
  if is 'u' b then return ← label "unicode 4-digit hex code" (commit (hexEscape 4))
  if is 'U' b then return ← label "unicode 8-digit hex code" (commit (hexEscape 8))
  escapeLetters.foldl (fun p c => expecting c p) (label "escape sequence" (commit fail))

/-- Reads a backslash escape. -/
def escaped : Scan Char := do
  byte '\\'
  escapeSeqChar

/-- Reads a run of plain characters or one escape of a basic string. -/
def basicChunk : Scan String :=
  orElse (do
      let start ← get
      let _ ← takeWhile1 isBasicPlain
      textOf start (← get))
    (String.singleton <$> escaped)

/-- Reads chunks with `p` while it succeeds, joining their texts. -/
def chunks (p : Scan String) : Nat → String → Scan String
  | 0, acc => pure acc
  | budget + 1, acc => do
    match ← attempt p with
    | some s => chunks p budget (acc ++ s)
    | none => pure acc

/-- Reads a basic string: quotes, plain characters and escapes, no line break. -/
def basicString : Scan String := do
  byte '"'
  let body ← chunks basicChunk (← budget) ""
  label "basic string" (commit (byte '"'))
  return body

/-- Reads a literal string: apostrophes around characters taken as written. -/
def literalString : Scan String :=
  label "literal string" do
    byte '\''
    let start ← get
    let _ ← commit (takeWhile isLiteralPlain)
    let stop ← get
    commit (byte '\'')
    textOf start stop

/-- Reads a line break escaped by a backslash, with the blanks and line breaks after it. -/
def escapedNewline : Scan Unit := do
  let once : Scan Unit := do
    byte '\\'
    ws
    wsNewlines
  once
  many once

/-- Reads a run of content of a multi-line basic string. -/
def multiBasicContent : Scan String :=
  orElse (do
      let start ← get
      let _ ← takeWhile1 isBasicPlain
      textOf start (← get))
  (orElse (do escapedNewline; pure "")
  (orElse (String.singleton <$> escaped)
    (do newline; pure "\n")))

/-- Reads one or two quote characters `q` that `term` may follow. -/
def quotesBefore (q : Char) (term : Scan Unit) : Scan String :=
  orElse (do
      byte q
      byte q
      lookahead term
      pure (String.ofList [q, q]))
    (do
      byte q
      lookahead term
      pure (String.singleton q))

/-- Reads the body of a multi-line basic string, up to its closing quotes. -/
def multiBasicBody : Scan String := do
  let n ← budget
  let first ← chunks multiBasicContent n ""
  let notQuote : Scan Unit := do let _ ← oneOf (!is '"' ·)
  let rec more : Nat → String → Scan String
    | 0, acc => pure acc
    | budget + 1, acc => do
      match ← attempt (quotesBefore '"' notQuote) with
      | none => pure acc
      | some qs =>
        match ← attempt multiBasicContent with
        | none => pure acc
        | some c => more budget (← chunks multiBasicContent n (acc ++ qs ++ c))
  let body ← more n first
  match ← attempt (quotesBefore '"' (literal "\"\"\"")) with
  | some qs => return body ++ qs
  | none => return body

/-- Reads a multi-line basic string. -/
def multiBasicString : Scan String :=
  label "multiline basic string" do
    literal "\"\"\""
    let _ ← attempt newline
    let body ← commit multiBasicBody
    commit (literal "\"\"\"")
    return body

/-- Reads one character or line break of a multi-line literal string. -/
def multiLiteralContent : Scan Unit :=
  orElse (do let _ ← oneOf isLiteralPlain) newline

/-- Reads the body of a multi-line literal string, up to its closing apostrophes. -/
def multiLiteralBody : Scan Unit := do
  many multiLiteralContent
  let notApostrophe : Scan Unit := do let _ ← oneOf (!is '\'' ·)
  many do
    let _ ← quotesBefore '\'' notApostrophe
    multiLiteralContent
    many multiLiteralContent
  let _ ← attempt (quotesBefore '\'' (literal "'''"))

/-- Reads a multi-line literal string; its line breaks read as line feeds. -/
def multiLiteralString : Scan String :=
  label "multiline literal string" do
    literal "'''"
    let _ ← attempt newline
    let start ← get
    commit multiLiteralBody
    let stop ← get
    commit (literal "'''")
    let raw ← textOf start stop
    return "\n".intercalate (raw.splitOn "\r\n")

/-- Reads a string of any of the four forms. -/
def string : Scan String :=
  orElse multiBasicString (orElse basicString (orElse multiLiteralString literalString))

/-! ## Keys -/

/-- Reads one key: bare, or quoted as a basic or literal string. -/
def simpleKey : Scan Key := do
  let start ← get
  let some b ← lookahead (some <$> anyByte) | fail
  let name ← if is '"' b then basicString
    else if is '\'' b then literalString
    else do
      let _ ← takeWhile1 isBareKey
      textOf start (← get)
  return ⟨name, ⟨start, ← get⟩⟩

/-- Reads one key with the blanks around it. -/
def paddedKey : Scan Key := do
  ws
  let k ← simpleKey
  ws
  return k

/-- Reads further keys of a dotted path, each after a dot. -/
def dottedRest : Nat → Array Key → Scan (Array Key)
  | 0, acc => pure acc
  | budget + 1, acc => do
    match ← attempt (do byte '.'; paddedKey) with
    | some k => dottedRest budget (acc.push k)
    | none => pure acc

/-- Reads a key path: keys joined by dots, blanks allowed around each. -/
def keyPath : Scan (List Key) := do
  let start ← get
  let path ← label "key" do
    let first ← paddedKey
    dottedRest (← budget) #[first]
  if path.size < depthLimit then return path.toList
  failAt start (some Conflict.tooDeep.message)

/-! ## Numbers -/

/-- Reads a digit, or `_` and a digit, after the first digit of a number. -/
def digitOrSeparated (isDigitOf : UInt8 → Bool) : Scan Unit :=
  orElse (do let _ ← oneOf isDigitOf)
    (do
      byte '_'
      withContext (.expected (.description "digit")) (commit (do let _ ← oneOf isDigitOf)))

/-- Reads a decimal integer with an optional sign; no leading zero before other digits. -/
def decInt : Scan Unit :=
  label "integer" do
    let _ ← attempt (oneOf fun b => is '+' b || is '-' b)
    orElse (do
        let _ ← oneOf (within 0x31 0x39)
        many (digitOrSeparated isDigit))
      (do let _ ← oneOf isDigit)

/-- Reads digits, `_` allowed between them, starting with any digit. -/
def zeroPrefixableInt : Scan Unit := do
  let _ ← oneOf isDigit
  many (digitOrSeparated isDigit)

/-- Reads an exponent: `e` or `E`, an optional sign, digits. -/
def exponent : Scan Unit := do
  let _ ← oneOf fun b => is 'e' b || is 'E' b
  let _ ← attempt (oneOf fun b => is '+' b || is '-' b)
  commit zeroPrefixableInt

/-- Reads a fraction: a point and digits. -/
def fraction : Scan Unit := do
  byte '.'
  withContext (.expected (.description "digit")) (commit zeroPrefixableInt)

/-- The digits of a decimal number, without separators, and its sign. -/
def numberDigits (text : String) : Bool × List Char :=
  let cs := text.toList.filter (· != '_')
  match cs with
  | '-' :: rest => (true, rest)
  | '+' :: rest => (false, rest)
  | _ => (false, cs)

/-- The value of a decimal digit list. -/
def digitsValue (ds : List Char) : Nat := ds.foldl (fun acc c => acc * 10 + (c.toNat - 48)) 0

/-- The significant digits and the power of ten of a float spelling: the value is
`digits × 10 ^ exp`, with no zero at either end of the digits. -/
def floatParts (cs : List Char) : List Char × Int :=
  let (mant, exp) := match cs.splitOn 'e' with
    | [m, e] => (m, e)
    | _ => match cs.splitOn 'E' with
      | [m, e] => (m, e)
      | _ => (cs, [])
  let expValue : Int := match exp with
    | '-' :: ds => -(digitsValue ds : Int)
    | '+' :: ds => digitsValue ds
    | ds => digitsValue ds
  let (whole, frac) := match mant.splitOn '.' with
    | [w, f] => (w, f)
    | _ => (mant, [])
  let digits := (whole ++ frac).dropWhile (· == '0')
  let trailing := (digits.reverse.takeWhile (· == '0')).length
  let digits := digits.take (digits.length - trailing)
  (digits, expValue - frac.length + trailing)

/-- A number `digits × 10 ^ exp` written out without an exponent, with `.0` when it has no
point. -/
def positional (digits : List Char) (exp : Int) : String :=
  if digits.isEmpty then "0.0"
  else if exp ≥ 0 then String.ofList (digits ++ List.replicate exp.toNat '0') ++ ".0"
  else
    let k := (-exp).toNat
    if k < digits.length then
      String.ofList (digits.take (digits.length - k) ++ '.' :: digits.drop (digits.length - k))
    else String.ofList ('0' :: '.' :: List.replicate (k - digits.length) '0' ++ digits)

/-- Reads a decimal float; `some` the text that names it in messages, or `none` for one too
large, which is refused. A negative one too large is minus infinity. -/
def decimalFloat : Scan (Option String) := do
  let start ← get
  decInt
  orElse exponent (do fraction; let _ ← attempt exponent)
  let text ← textOf start (← get)
  let (negative, cs) := numberDigits text
  let (digits, exp) := floatParts cs
  let sign := if negative then "-" else ""
  match Binary64.ofDecimal (digitsValue digits) exp with
  | none => if negative then return some "-inf" else return none
  | some (0, _) => return some (sign ++ "0.0")
  | some (d, k) => return some (sign ++ positional (Nat.toDigits 10 d) k)

/-- Reads `inf` or `nan` with an optional sign. -/
def specialFloat : Scan String := do
  let sign ← attempt (oneOf fun b => is '+' b || is '-' b)
  let negative := sign.any (is '-')
  orElse (do literal "inf"; pure (if negative then "-inf" else "inf"))
    (do literal "nan"; pure "NaN")

/-- Reads a float. -/
def float : Scan String :=
  label "floating-point number" do
    let start ← get
    orElse (do
        match ← decimalFloat with
        | some s => pure s
        | none => commit (failAt start none))
      specialFloat

/-- Reads the digits of a radix integer after its prefix. -/
def radixDigits (isDigitOf : UInt8 → Bool) : Scan Unit :=
  commit do
    let _ ← oneOf isDigitOf
    many (digitOrSeparated isDigitOf)

/-- The largest and the smallest integer. -/
def maxInteger : Int := 9223372036854775807

/-- The least integer. -/
def minInteger : Int := -9223372036854775808

/-- The value of the digits `ds` in radix `radix`. -/
def radixValue (radix : Nat) (ds : List Char) : Nat :=
  ds.foldl (fun acc c =>
    acc * radix + (if c.isDigit then c.toNat - 48 else c.toLower.toNat - 97 + 10)) 0

/-- Reads an integer: radix-prefixed or decimal, within 64 bits. -/
def integer : Scan Int := do
  let start ← get
  let b0 ← peekByte
  let b1 ← peekByteAt 1
  let radix : Option (Nat × String × (UInt8 → Bool)) :=
    if b0.any (is '0') then
      if b1.any (is 'x') then some (16, "hexadecimal integer", isHexDigit)
      else if b1.any (is 'o') then some (8, "octal integer", within 0x30 0x37)
      else if b1.any (is 'b') then some (2, "binary integer", within 0x30 0x31)
      else none
    else none
  match radix with
  | some (r, name, isDigitOf) =>
    commit do
      label name do
        modify (· + 2)
        radixDigits isDigitOf
      let text ← textOf (start + 2) (← get)
      let v := radixValue r (text.toList.filter (· != '_'))
      if v ≤ maxInteger.toNat then return (v : Int)
      failAt start (some "number too large to fit in target type")
  | none =>
    decInt
    let text ← textOf start (← get)
    let (negative, ds) := numberDigits text
    let v : Int := if negative then -(digitsValue ds : Int) else digitsValue ds
    if v > maxInteger then commit (failAt start (some "number too large to fit in target type"))
    if v < minInteger then commit (failAt start (some "number too small to fit in target type"))
    return v

/-! ## Dates and times -/

/-- Reads exactly `n` digits and returns their value. -/
def fixedDigits (n : Nat) : Scan Nat := do
  let start ← get
  let count ← takeUpTo n isDigit
  if count != n then failAt start none
  let ds := ((← read).extract start (start + n)).toList
  return ds.foldl (fun acc b => acc * 10 + (b.toNat - 48)) 0

/-- Reads `n` digits whose value lies from `lo` to `hi`. -/
def ranged (n lo hi : Nat) : Scan Nat := do
  let start ← get
  let v ← fixedDigits n
  if lo ≤ v && v ≤ hi then return v
  failAt start (some Conflict.outOfRange.message)

/-- Reads a date `YYYY-MM-DD`, checking the day against the month. -/
def fullDate : Scan Unit := do
  let year ← fixedDigits 4
  byte '-'
  let month ← commit (ranged 2 1 12)
  commit (byte '-')
  let dayStart ← get
  let day ← commit (ranged 2 1 31)
  let leap := year % 4 == 0 && (year % 100 != 0 || year % 400 == 0)
  let maxDay := if month == 2 then (if leap then 29 else 28)
    else if month == 4 || month == 6 || month == 9 || month == 11 then 30 else 31
  if maxDay < day then commit (failAt dayStart (some Conflict.outOfRange.message))

/-- Reads a time `HH:MM:SS` with an optional fraction of a second. -/
def timeOfDay : Scan Unit := do
  let _ ← ranged 2 0 23
  byte ':'
  commit do
    let _ ← ranged 2 0 59
    byte ':'
    let _ ← ranged 2 0 60
    let _ ← attempt do
      byte '.'
      let _ ← takeWhile1 isDigit

/-- Reads a time offset: `Z`, or a sign and `HH:MM`. -/
def timeOffset : Scan Unit :=
  label "time offset" do
    orElse (do let _ ← oneOf fun b => is 'Z' b || is 'z' b)
      (do
        let start ← get
        let _ ← oneOf fun b => is '+' b || is '-' b
        let (h, m) ← commit do
          let h ← ranged 2 0 23
          byte ':'
          let m ← ranged 2 0 59
          pure (h, m)
        if h * 60 + m > 24 * 60 then failAt start none)

/-- Reads a date with an optional time and offset, or a time alone. -/
def dateTime : Scan Unit :=
  orElse (label "date-time" do
      fullDate
      let _ ← attempt do
        let _ ← oneOf fun b => is 'T' b || is 't' b || is ' ' b
        timeOfDay
        let _ ← attempt timeOffset)
    (label "time" timeOfDay)

end Grammar

end Toml

end DotLint
