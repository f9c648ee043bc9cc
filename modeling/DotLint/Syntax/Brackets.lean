import DotLint.Token.Basic

/-!
# Matching brackets

Each opening bracket `(`, `[` or `{` of a token list is paired with the closing bracket that
ends it. The pairing ignores the bracket's shape: a closing bracket of any shape ends the
most recent opening bracket that is still open, and a closing bracket with none open is
passed over. The parser uses the pairing to look past a parenthesised list before deciding
whether it is the parameter list of an arrow function.
-/

namespace DotLint

namespace Brackets

/-- The opening bracket texts. -/
def openers : List String := ["(", "[", "\x7b"]

/-- The closing bracket texts. -/
def closers : List String := [")", "]", "\x7d"]

/-- Whether a token opens a bracket. -/
def isOpener (t : Token) : Bool := t.kind == .punctuator && openers.contains t.text

/-- Whether a token closes a bracket. -/
def isCloser (t : Token) : Bool := t.kind == .punctuator && closers.contains t.text

/-- Pairs the brackets of `ts`, whose first token has index `i`, given the indices `pending`
of the brackets still open (most recent first), recording pairs in `acc`. -/
def pairFrom : List Token → Nat → List Nat → Array (Option Nat) → Array (Option Nat)
  | [], _, _, acc => acc
  | t :: ts, i, pending, acc =>
    if isOpener t then pairFrom ts (i + 1) (i :: pending) acc
    else if isCloser t then
      match pending with
      | j :: rest => pairFrom ts (i + 1) rest (acc.setIfInBounds j (some i))
      | [] => pairFrom ts (i + 1) [] acc
    else pairFrom ts (i + 1) pending acc

end Brackets

/-- For each token, the index of the bracket that closes it, if it is an opening bracket
that is closed. -/
def matchBrackets (ts : Array Token) : Array (Option Nat) :=
  Brackets.pairFrom ts.toList 0 [] (Array.replicate ts.size none)

end DotLint
