import DotLint.Rule.DotLocation
import DotLint.Syntax.Walk
import DotLint.Syntax.Parse.Grammar

/-!
# Linting and fixing a source text

Linting checks every member access of a parsed source, in walk order, and sorts the
findings. Fixing lints, applies the fixes that do not overlap, and lints the result again,
until a pass applies nothing or ten passes have run; it reports the final text, how many
fixes were applied in all, and the findings that remain.
-/

namespace DotLint

/-- The findings for a parsed source, sorted. -/
def lintProgram (source : String) (tokens : Array Token) (program : Node) (pos : DotPosition) :
    List Diagnostic :=
  let c := TokenCursor.ofSource source tokens
  let visit := fun (acc : Array Diagnostic) (n : Node) =>
    let acc := if n.kind == .memberExpression then
        match DotLocation.check pos c n with
        | some d => acc.push d
        | none => acc
      else acc
    (acc, Control.descend)
  (ChildKeys.standard.walk program visit #[]).1.toList.mergeSort Diagnostic.le

/-- The findings for a source text, or why it does not parse. -/
def lintSource (source : String) (pos : DotPosition) : Except SyntaxError (List Diagnostic) :=
  match tokenize source with
  | .error e => .error (.lex e)
  | .ok tokens =>
    match parse tokens with
    | .error e => .error (.parse e)
    | .ok program => .ok (lintProgram source tokens program pos)

/-- The result of fixing a source text. -/
structure FixReport where
  output : String
  fixed : Nat
  remaining : List Diagnostic
deriving DecidableEq, Repr

/-- Why fixing failed: a fixed text that does not parse, or an edit that cuts a character. -/
inductive FixError where
  | unparsable (e : SyntaxError)
  | splitsCharacter
deriving DecidableEq, Repr

/-- The most lint-and-fix passes over one source. -/
def maxFixPasses : Nat := 10

/-- Runs at most `passes` more passes on `output`, whose findings are `found`, after `fixed`
fixes so far. -/
def fixPasses (pos : DotPosition) : Nat → String → Nat → List Diagnostic →
    Except FixError FixReport
  | 0, output, fixed, found => .ok ⟨output, fixed, found⟩
  | passes + 1, output, fixed, found =>
    match applyFixes output (found.map (·.fix)) with
    | none => .error .splitsCharacter
    | some outcome =>
      if outcome.applied = 0 then .ok ⟨output, fixed, found⟩
      else
        match lintSource outcome.output pos with
        | .error e => .error (.unparsable e)
        | .ok found' => fixPasses pos passes outcome.output (fixed + outcome.applied) found'

/-- Lints and fixes `source` until no fix applies or the pass limit is reached. -/
def fixSource (source : String) (pos : DotPosition) : Except FixError FixReport :=
  match lintSource source pos with
  | .error e => .error (.unparsable e)
  | .ok found => fixPasses pos maxFixPasses source 0 found

end DotLint
