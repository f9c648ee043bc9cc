import DotLint.Source.Text

/-!
# Edits and fixes

An edit inserts a text at a byte offset or removes a byte range, both in offsets of the text
the edits were made for. A fix is a list of edits that together repair one finding.

Edits are applied from the back of the text to the front, so that each still finds the
offsets it was made for: a later start goes first, and at the same start a removal goes
before an insertion, so the inserted text survives. An insertion past the end of the text,
and a removal that is reversed or runs past the end, are passed over. An offset that falls
inside a character is a fault, and application gives `none`.

When several fixes are applied together, each is placed by its covering span; a fix that
starts inside the span of a fix already taken is skipped.
-/

namespace DotLint

/-- A change to a text, in byte offsets of the text before any change. -/
inductive Edit where
  /-- Puts `text` at byte offset `offset`. -/
  | insert (offset : Nat) (text : String)
  /-- Deletes the bytes of `span`. -/
  | remove (span : Span)
deriving DecidableEq, Repr

namespace Edit

/-- The range an edit touches: empty at the offset of an insertion. -/
def span : Edit → Span
  | .insert offset _ => ⟨offset, offset⟩
  | .remove span => span

/-- Whether the edit is an insertion. -/
def isInsert : Edit → Bool
  | .insert .. => true
  | .remove _ => false

/-- Whether `a` is applied no later than `b`: a later start first, and at the same start a
removal first. -/
def appliesBefore (a b : Edit) : Bool :=
  b.span.start < a.span.start || (a.span.start == b.span.start && (!a.isInsert || b.isInsert))

/-- Applies one edit to `cs`, passing it over when it lies outside the text; `none` if an
offset falls inside a character. -/
def applyTo (e : Edit) (cs : List Char) : Option (List Char) :=
  match e with
  | .insert offset text =>
    if offset ≤ byteSize cs then
      (Text.splitAtByte cs offset).map fun (a, b) => a ++ text.toList ++ b
    else some cs
  | .remove span =>
    if span.stop ≤ byteSize cs && span.start ≤ span.stop then do
      let (a, rest) ← Text.splitAtByte cs span.start
      let (_, b) ← Text.splitAtByte rest (span.stop - span.start)
      some (a ++ b)
    else some cs

end Edit

/-- Applies `edits` to `source` from the back to the front; `none` if an offset falls inside
a character. -/
def applyEdits (source : String) (edits : List Edit) : Option String :=
  ((edits.mergeSort Edit.appliesBefore).foldlM (fun cs (e : Edit) => e.applyTo cs) source.toList).map
    String.ofList

/-- The edits that repair one finding. -/
structure Fix where
  edits : List Edit
deriving DecidableEq, Repr

namespace Fix

/-- The smallest span that covers every edit of the fix; none for a fix without edits. -/
def span? (f : Fix) : Option Span :=
  match f.edits with
  | [] => none
  | e :: es => some ((es.map Edit.span).foldl Span.cover e.span)

/-- The text with this fix alone applied. -/
def apply (f : Fix) (source : String) : Option String := applyEdits source f.edits

end Fix

/-- The result of applying several fixes together. -/
structure FixOutcome where
  output : String
  applied : Nat
  skipped : Nat
deriving DecidableEq, Repr

/-- Splits fixes, sorted by covering span, into those taken and the number skipped: a fix is
taken if it starts at or after the end of the last fix taken. -/
def selectFixes (sorted : List (Span × Fix)) : List Fix × Nat :=
  let step := fun (acc : Array Fix × Nat × Option Nat) (p : Span × Fix) =>
    let (taken, skipped, lastEnd) := acc
    if lastEnd.any (p.1.start < ·) then (taken, skipped + 1, lastEnd)
    else (taken.push p.2, skipped, some p.1.stop)
  let (taken, skipped, _) := sorted.foldl step (#[], 0, none)
  (taken.toList, skipped)

/-- Applies the fixes that do not overlap one taken before them, in order of covering span;
a fix without edits is left out. `none` if an offset falls inside a character. -/
def applyFixes (source : String) (fixes : List Fix) : Option FixOutcome :=
  let spanned := fixes.filterMap fun f => f.span?.map (·, f)
  let sorted := spanned.mergeSort fun a b => a.1.le b.1
  let (taken, skipped) := selectFixes sorted
  (applyEdits source (taken.flatMap (·.edits))).map fun out => ⟨out, taken.length, skipped⟩

end DotLint
