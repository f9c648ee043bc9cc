import DotLint.Source.Location

/-!
# Cutting a text at byte offsets

A byte offset cuts a text only where a character begins or at the very end: a *character
boundary*. Cutting, slicing, inserting and removing at offsets are partial for that reason;
each returns `none` where an offset is not a boundary or lies past the end.
-/

namespace DotLint

namespace Text

/-- The characters before and after byte offset `k`, if `k` is a character boundary of
`cs`. -/
def splitAtByte : List Char → Nat → Option (List Char × List Char)
  | cs, 0 => some ([], cs)
  | [], _ + 1 => none
  | c :: cs, k + 1 =>
    if c.utf8Size ≤ k + 1 then
      (splitAtByte cs (k + 1 - c.utf8Size)).map fun (a, b) => (c :: a, b)
    else none

/-- The characters from byte offset `start` to byte offset `stop`, if both are character
boundaries and `start ≤ stop`. -/
def slice (cs : List Char) (start stop : Nat) : Option (List Char) := do
  if start ≤ stop then
    let (_, rest) ← splitAtByte cs start
    let (mid, _) ← splitAtByte rest (stop - start)
    some mid
  else none

/-- Line separators that end a line of incidental text: line feed, carriage return, and the
Unicode line and paragraph separators. -/
def isLineSeparator (c : Char) : Bool :=
  c = '\n' || c = '\r' || c = '\u2028' || c = '\u2029'

end Text

end DotLint
