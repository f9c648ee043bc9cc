import DotLint.Source.Location

/-!
# Tokens of the script language

A token is a kind, its literal text and where it stands. This module also holds the
lexical tables: which characters are blanks, which start and continue a word, the reserved
words, and the punctuators, listed so that a longer one comes before each of its prefixes.
-/

namespace DotLint

/-- The kinds of token. -/
inductive TokenKind where
  /-- A word that is not reserved, contextual words such as `of` included. -/
  | identifier
  /-- A reserved word. -/
  | keyword
  /-- `true` or `false`. -/
  | boolean
  /-- `null`. -/
  | null
  /-- A numeric literal in any radix. -/
  | numeric
  /-- A quoted string literal, quotes included. -/
  | string
  /-- An operator or a delimiter. -/
  | punctuator
deriving DecidableEq, Repr, Inhabited

/-- A token: its kind, its literal source text, its byte span and its location. -/
structure Token where
  kind : TokenKind
  text : String
  span : Span
  loc : Location
deriving DecidableEq, Repr, Inhabited

namespace Token

/-- Whether the token is the punctuator `p`. -/
def isPunct (t : Token) (p : String) : Bool := t.kind == .punctuator && t.text == p

/-- Whether the token is the reserved word `w`. -/
def isKeyword (t : Token) (w : String) : Bool := t.kind == .keyword && t.text == w

end Token

/-! ## Character classes -/

namespace Lexical

/-- Blanks between tokens: line feed, carriage return, space, tab, vertical tab, form feed. -/
def isBlank (c : Char) : Bool :=
  c = '\n' || c = '\r' || c = ' ' || c = '\t' || c = '\x0B' || c = '\x0C'

/-- Line breaks end a line comment. -/
def isLineBreak (c : Char) : Bool := c = '\n' || c = '\r'

/-- A word starts with an ASCII letter, `_`, `$`, or any character outside ASCII. -/
def isWordStart (c : Char) : Bool :=
  c.isAlpha || c = '_' || c = '$' || 0x80 ≤ c.toNat

/-- A word continues with what starts one, or an ASCII digit. -/
def isWordPart (c : Char) : Bool := isWordStart c || c.isDigit

/-- A digit of a numeric literal in radix 2, 8 or 16, or the separator `_`. -/
def isRadixDigit (radix : Nat) (c : Char) : Bool :=
  c = '_' ||
    (if radix = 16 then c.isDigit || ('a' ≤ c && c ≤ 'f') || ('A' ≤ c && c ≤ 'F')
     else c.isDigit && c.toNat - '0'.toNat < radix)

/-- A decimal digit or the separator `_`. -/
def isDecimalDigit (c : Char) : Bool := c.isDigit || c = '_'

/-- The reserved words. -/
def keywords : List String :=
  ["break", "case", "catch", "class", "const", "continue", "debugger", "default", "delete",
   "do", "else", "export", "extends", "finally", "for", "function", "if", "import", "in",
   "instanceof", "let", "new", "return", "super", "switch", "this", "throw", "try", "typeof",
   "var", "void", "while", "with", "yield"]

/-- The punctuators, each listed before every shorter one that is a prefix of it. -/
def punctuators : List String :=
  ["...", "===", "!==", "**=", "&&=", "||=", "??=", "=>", "==", "!=", "<=", ">=", "&&", "||",
   "??", "?.", "++", "--", "+=", "-=", "*=", "/=", "%=", "**", "\x7b", "\x7d", "(", ")", "[",
   "]", ";", ",", ":", "?", ".", "=", "<", ">", "+", "-", "*", "/", "%", "!", "~", "&", "|",
   "^"]

/-- The kind of a word: the literals `true`, `false` and `null`, a reserved word, or a name. -/
def wordKind (w : String) : TokenKind :=
  if w = "true" || w = "false" then .boolean
  else if w = "null" then .null
  else if keywords.contains w then .keyword
  else .identifier

end Lexical

end DotLint
