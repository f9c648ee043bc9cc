import DotLint.Token.Basic
import DotLint.Source.Text

/-!
# Looking up tokens around a span

A `TokenCursor` holds a source text and its tokens, which the lexer gives in order and
without overlap. It answers, for any span (a node's, a token's, or an arbitrary one), which
tokens stand just before and just after it, which are its first and last tokens, and which
token starts the line it begins on. Lookups are binary searches: each asks where a predicate
that holds of a prefix of the tokens stops holding, so they agree with a scan from the left
as long as the tokens are in order.

Lookups return the index of a token in the token array.
-/

namespace DotLint

/-- The number of leading elements of `a` that satisfy `p`, found by halving. The answer is
that number when `p` holds of a prefix of `a` and of nothing after it. -/
def partitionPoint {α : Type} (a : Array α) (p : α → Bool) : Nat :=
  go 0 a.size (Nat.le_refl _)
where
  /-- Searches the indices from `lo` up to `hi`, all before which `p` is known to hold. -/
  go (lo hi : Nat) (h : hi ≤ a.size) : Nat :=
    if hlt : lo < hi then
      let mid := (lo + hi) / 2
      have hmid : mid < a.size := by omega
      if p a[mid] then go (mid + 1) hi h else go lo mid (by omega)
    else lo
  termination_by hi - lo

/-- A source text with its tokens. -/
structure TokenCursor where
  source : List Char
  tokens : Array Token

namespace TokenCursor

/-- The cursor over a source text and the tokens of it. -/
def ofSource (source : String) (tokens : Array Token) : TokenCursor := ⟨source.toList, tokens⟩

/-- The text of `span`, or the empty text if the span is reversed, runs past the end, or
does not start and end at character boundaries. -/
def text (c : TokenCursor) (span : Span) : String :=
  match Text.slice c.source span.start span.stop with
  | some cs => String.ofList cs
  | none => ""

/-- The last token that ends at or before `span` starts. -/
def before? (c : TokenCursor) (span : Span) : Option Nat :=
  let i := partitionPoint c.tokens (·.span.stop ≤ span.start)
  if i = 0 then none else some (i - 1)

/-- The first token that starts at or after `span` ends. -/
def after? (c : TokenCursor) (span : Span) : Option Nat :=
  let i := partitionPoint c.tokens (·.span.start < span.stop)
  if i < c.tokens.size then some i else none

/-- The first token inside `span`. -/
def first? (c : TokenCursor) (span : Span) : Option Nat :=
  let i := partitionPoint c.tokens (·.span.start < span.start)
  match c.tokens[i]? with
  | some t => if t.span.stop ≤ span.stop then some i else none
  | none => none

/-- The last token inside `span`. -/
def last? (c : TokenCursor) (span : Span) : Option Nat :=
  let i := partitionPoint c.tokens (·.span.stop ≤ span.stop)
  if i = 0 then none
  else
    match c.tokens[i - 1]? with
    | some t => if span.start ≤ t.span.start then some (i - 1) else none
    | none => none

/-- Whether the text between token `i` and the token after it holds a line separator. -/
def breakAfter (c : TokenCursor) (i : Nat) : Bool :=
  match c.tokens[i]?, c.tokens[i + 1]? with
  | some prev, some next => (c.text ⟨prev.span.stop, next.span.start⟩).any Text.isLineSeparator
  | _, _ => true

/-- The first token of the line of token `i`: going back while no line separator stands
between a token and the one before it. -/
def lineStart (c : TokenCursor) : Nat → Nat
  | 0 => 0
  | i + 1 => if c.breakAfter i then i + 1 else c.lineStart i

/-- The first token of the line on which `span` begins, taking the first token at or after
its start as the place where it begins. -/
def firstOnLine? (c : TokenCursor) (span : Span) : Option Nat :=
  let i := partitionPoint c.tokens (·.span.start < span.start)
  if i < c.tokens.size then some (c.lineStart i) else none

/-- Whether `span` starts where the first token of its line starts. -/
def startsLine (c : TokenCursor) (span : Span) : Bool :=
  match c.firstOnLine? span with
  | some i => c.tokens[i]?.any (·.span.start == span.start)
  | none => false

/-- Whether `span` is directly wrapped by an opening and a closing parenthesis. -/
def isParenthesized (c : TokenCursor) (span : Span) : Bool :=
  let opens := match c.before? span with
    | some i => c.tokens[i]?.any fun t => t.isPunct "(" && t.span.stop ≤ span.start
    | none => false
  let closes := match c.after? span with
    | some i => c.tokens[i]?.any fun t => t.isPunct ")" && span.stop ≤ t.span.start
    | none => false
  opens && closes

end TokenCursor

/-- Whether the first location ends on the line where the second starts. -/
def Location.sameLine (a b : Location) : Bool := a.stop.line == b.start.line

end DotLint
