import Mathlib.Tactic.Lemma
import DotLint.Proofs.FixedFindings

/-!
# Fixing a source takes one pass

`fixSource` lints a source, applies the fixes of all its findings together, and lints the
output again, for at most `maxFixPasses` passes, stopping at the first pass that applies no
fix. On a source that lexes and parses, the first pass applies every fix and its output has
no finding (`fixChosen` with every finding chosen), so the second pass stops: the report
counts every finding as fixed and leaves none (`fixSource_eq`). A text without findings is
left as it is (`fixSource_of_clean`), so fixing the output again changes nothing.

Any choice of findings fixes the same way: every fix chosen is applied, none is skipped, and
the output's findings are those not chosen (`fixes_converge`). The output differs from the
source only in where the reported dots stand (`fixSource_only_moves_dots`).
-/

namespace DotLint

open Parse

variable {src : String} {ts : Array Token} {pos : DotPosition}

/-- No fixes leave the text as it is. -/
lemma applyFixes_nil (src : String) : applyFixes src [] = some ⟨src, 0, 0⟩ := by
  simp [applyFixes, selectFixes, applyEdits, String.ofList_toList]

/-- A pass over a text without findings applies nothing and stops. -/
lemma fixPasses_nil (passes : Nat) (output : String) (fixed : Nat) :
    fixPasses pos passes output fixed [] = .ok ⟨output, fixed, []⟩ := by
  cases passes with
  | zero => rfl
  | succ passes => simp [fixPasses, applyFixes_nil]

/-- A pass that applies some fixes goes on from the output, with its findings. -/
lemma fixPasses_step {passes : Nat} {output : String} {fixed : Nat} {found found' : List Diagnostic}
    {outcome : FixOutcome} (h : applyFixes output (found.map (·.fix)) = some outcome)
    (happlied : outcome.applied ≠ 0) (hlint : lintSource outcome.output pos = .ok found') :
    fixPasses pos (passes + 1) output fixed found =
      fixPasses pos passes outcome.output (fixed + outcome.applied) found' := by
  simp [fixPasses, h, happlied, hlint]

/-- A pass that applies no fix stops. -/
lemma fixPasses_stop {passes : Nat} {output : String} {fixed : Nat} {found : List Diagnostic}
    {outcome : FixOutcome} (h : applyFixes output (found.map (·.fix)) = some outcome)
    (happlied : outcome.applied = 0) :
    fixPasses pos (passes + 1) output fixed found = .ok ⟨output, fixed, found⟩ := by
  simp [fixPasses, h, happlied]

lemma lintSource_eq {root : Node} (hts : tokenize src = .ok ts) (hp : parse ts = .ok root) :
    lintSource src pos = .ok (lintProgram src ts root pos) := by
  simp [lintSource, hts, hp]

/-- The findings of a source that lexes are those of its tree. -/
lemma exists_parse_of_lintSource {D : List Diagnostic} (hts : tokenize src = .ok ts)
    (hD : lintSource src pos = .ok D) :
    ∃ root, parse ts = .ok root ∧ lintProgram src ts root pos = D := by
  unfold lintSource at hD
  rw [hts] at hD
  cases hp : parse ts with
  | error e => simp [hp] at hD
  | ok root =>
    simp only [hp, Except.ok.injEq] at hD
    exact ⟨root, rfl, hD⟩

/-- Fixing a text without findings leaves it as it is. -/
lemma fixSource_of_clean (h : lintSource src pos = .ok []) :
    fixSource src pos = .ok ⟨src, 0, []⟩ := by
  rw [fixSource, h]
  exact fixPasses_nil _ _ _

lemma tokens_view_eq {ts' : Array Token} (h : TokensAgree ts ts') :
    ts'.toList.map Token.view = ts.toList.map Token.view :=
  List.ext_getElem? fun i => by
    simpa only [List.getElem?_map, Array.getElem?_toList] using h.same i

/-- Fixing a source that lexes and parses moves the dot of every finding in one pass: the
output is the source's cells with those dots moved, it lexes to tokens that agree with the
source's and parses to the source's tree moved onto them, and it has no finding left. -/
lemma fixSource_eq (pos : DotPosition) {root : Node} (hts : tokenize src = .ok ts)
    (hp : parse ts = .ok root) :
    ∃ pre cs last ts', src.toList = pre ++ cellsText cs ++ last ∧ Reads cs last ∧
      ts.toList = cellTokens last cs (byteSize pre) {} ∧
      let out := String.ofList (pre ++ cellsText
        (moveDots pos ts ((lintProgram src ts root pos).map (·.dotIndex ts)) cs) ++ last)
      applyFixes src ((lintProgram src ts root pos).map (·.fix)) =
          some ⟨out, (lintProgram src ts root pos).length, 0⟩ ∧
        tokenize out = .ok ts' ∧ TokensAgree ts ts' ∧ parse ts' = .ok (move ts ts' root) ∧
        lintSource out pos = .ok [] ∧
        fixSource src pos = .ok ⟨out, (lintProgram src ts root pos).length, []⟩ := by
  obtain ⟨pre, cs, last, ts', hsrc, hr, hcells, happly, hout, hagree, hmoved, hperm⟩ :=
    fixChosen hts hp (List.Subperm.refl (lintProgram src ts root pos))
  -- every finding was chosen, so none is left
  have hclean : lintSource (String.ofList (pre ++ cellsText
      (moveDots pos ts ((lintProgram src ts root pos).map (·.dotIndex ts)) cs) ++ last)) pos =
      .ok [] := by
    have hnone : (lintProgram src ts root pos).filter (· ∉ lintProgram src ts root pos) = [] :=
      List.filter_eq_nil_iff.2 fun d hd => by simpa using hd
    rw [hnone, List.map_nil, List.perm_nil, List.map_eq_nil_iff] at hperm
    rw [lintSource_eq hout hmoved, hperm]
  refine ⟨pre, cs, last, ts', hsrc, hr, hcells, happly, hout, hagree, hmoved, hclean, ?_⟩
  rw [fixSource, lintSource_eq hts hp, maxFixPasses]
  by_cases hnil : lintProgram src ts root pos = []
  · -- nothing to fix: the output is the source
    have hsame : String.ofList (pre ++ cellsText
        (moveDots pos ts ((lintProgram src ts root pos).map (·.dotIndex ts)) cs) ++ last) =
        src := by
      rw [hnil, List.map_nil, moveDots_nil, ← hsrc, String.ofList_toList]
    rw [hsame] at happly ⊢
    exact (fixPasses_stop happly (by simp [hnil])).trans (by simp [hnil])
  · have hpos : (lintProgram src ts root pos).length ≠ 0 := by
      simpa [List.length_eq_zero_iff] using hnil
    exact (fixPasses_step happly hpos hclean).trans (by rw [fixPasses_nil, Nat.zero_add])

/-- Fixing any choice of the findings of a source that lexes and parses applies every fix
chosen and skips none, and the output's findings are at the dots of the findings not chosen,
one at each, over tokens that read as the source's. Fixing the source converges in one pass:
every finding is fixed and none remains, the output lints clean, and fixing the output again
leaves it as it is. -/
theorem fixes_converge {D : List Diagnostic} (hts : tokenize src = .ok ts)
    (hD : lintSource src pos = .ok D) :
    (∀ chosen : List Diagnostic, chosen.Subperm D → ∃ out ts' found,
      applyFixes src (chosen.map (·.fix)) = some ⟨out, chosen.length, 0⟩ ∧
      tokenize out = .ok ts' ∧ ts'.toList.map Token.view = ts.toList.map Token.view ∧
      lintSource out pos = .ok found ∧
      (found.map (·.dotIndex ts')).Perm ((D.filter (· ∉ chosen)).map (·.dotIndex ts))) ∧
    ∃ out, fixSource src pos = .ok ⟨out, D.length, []⟩ ∧ lintSource out pos = .ok [] ∧
      fixSource out pos = .ok ⟨out, 0, []⟩ := by
  obtain ⟨root, hp, rfl⟩ := exists_parse_of_lintSource hts hD
  refine ⟨fun chosen hsub => ?_, ?_⟩
  · obtain ⟨pre, cs, last, ts', -, -, -, happly, hout, hagree, hmoved, hperm⟩ :=
      fixChosen hts hp hsub
    exact ⟨_, ts', _, happly, hout, tokens_view_eq hagree, lintSource_eq hout hmoved, hperm⟩
  · obtain ⟨pre, cs, last, ts', -, -, -, -, -, -, -, hclean, hfix⟩ := fixSource_eq pos hts hp
    exact ⟨_, hfix, hclean, fixSource_of_clean hclean⟩

/-- Fixing a source that lexes and parses changes nothing but where the reported dots stand:
the output reads as the same tokens, parses to the same tree but for spans and locations, and
is the source's cells, whitespace and comments kept in order, with each reported dot moved by
`moveDots`. A `.` after a decimal integer gets a space before it under the object position, so
that it does not lex as the number's point; a `?.` does not. -/
theorem fixSource_only_moves_dots {D : List Diagnostic} (hts : tokenize src = .ok ts)
    (hD : lintSource src pos = .ok D) :
    ∃ out ts', fixSource src pos = .ok ⟨out, D.length, []⟩ ∧ tokenize out = .ok ts' ∧
      ts'.toList.map Token.view = ts.toList.map Token.view ∧
      (∃ root root', parse ts = .ok root ∧ parse ts' = .ok root' ∧ root'.erase = root.erase) ∧
      ∃ pre cs last, src.toList = pre ++ cellsText cs ++ last ∧ Reads cs last ∧
        ts.toList = cellTokens last cs (byteSize pre) {} ∧
        out.toList = pre ++ cellsText (moveDots pos ts (D.map (·.dotIndex ts)) cs) ++ last := by
  obtain ⟨root, hp, rfl⟩ := exists_parse_of_lintSource hts hD
  obtain ⟨pre, cs, last, ts', hsrc, hr, hcells, -, hout, hagree, hmoved, -, hfix⟩ :=
    fixSource_eq pos hts hp
  exact ⟨_, ts', hfix, hout, tokens_view_eq hagree,
    ⟨root, _, hp, hmoved, by rw [move_def, Node.erase_respan]⟩,
    pre, cs, last, hsrc, hr, hcells, String.toList_ofList⟩

/-! ## A dot after a number -/

lemma tokenize_number_optional_member : tokenize "1\n?.x" = .ok
    #[⟨.numeric, "1", ⟨0, 1⟩, ⟨⟨1, 1⟩, ⟨1, 2⟩⟩⟩, ⟨.punctuator, "?.", ⟨2, 4⟩, ⟨⟨2, 1⟩, ⟨2, 3⟩⟩⟩,
      ⟨.identifier, "x", ⟨4, 5⟩, ⟨⟨2, 3⟩, ⟨2, 4⟩⟩⟩] := by
  have hlen : "?.".length = 2 := rfl
  simp +decide [hlen, tokenize, lexFrom, Lexeme.scan, Position.advance, Position.step,
    Lexical.punctuatorLength, Lexical.punctuators, Char.utf8Size,
    Lexical.numberLength, Lexical.numberBodyLength, Lexical.decimalLength,
    Lexical.isDecimalDigit, Lexical.suffixLength, bind, Except.bind, pure, Except.pure]

lemma lintSource_number_optional_member : lintSource "1\n?.x" .object = .ok
    [⟨.expectedDotAfterObject, ⟨0, 5⟩, ⟨⟨2, 1⟩, ⟨2, 3⟩⟩, ⟨[.insert 1 "?.", .remove ⟨2, 4⟩]⟩⟩] := by
  cbv

/-- A `?.` moved up to a decimal integer goes right after it, with no space between. -/
theorem optional_dot_after_integer_unspaced :
    fixSource "1\n?.x" .object ≠ .ok ⟨"1 ?.\nx", 1, []⟩ := by
  have happly : applyFixes "1\n?.x" [⟨[.insert 1 "?.", .remove ⟨2, 4⟩]⟩] =
      some ⟨"1?.\nx", 1, 0⟩ := by
    have hsort : [Edit.insert 1 "?.", .remove ⟨2, 4⟩].mergeSort Edit.appliesBefore =
        [.remove ⟨2, 4⟩, .insert 1 "?."] :=
      Edit.mergeSort_appliesBefore (List.Perm.swap _ _ _) (by decide)
    simp [applyFixes, Fix.span?, selectFixes, applyEdits, hsort]
    decide
  obtain ⟨root, hp, hlint⟩ :=
    exists_parse_of_lintSource tokenize_number_optional_member lintSource_number_optional_member
  obtain ⟨pre, cs, last, ts', -, -, -, happly', -, -, -, -, hfix⟩ :=
    fixSource_eq .object tokenize_number_optional_member hp
  rw [hlint] at happly' hfix
  simp only [List.map_cons, List.map_nil] at happly' hfix
  rw [happly, Option.some.injEq, FixOutcome.mk.injEq] at happly'
  rw [hfix, ← happly'.1]
  decide

/-- The object position fixes the optional member access `1` newline `?.x` in one pass, the
dot moved up to the number. -/
theorem number_optional_member_fixed :
    tokenize "1\n?.x" = .ok
      #[⟨.numeric, "1", ⟨0, 1⟩, ⟨⟨1, 1⟩, ⟨1, 2⟩⟩⟩, ⟨.punctuator, "?.", ⟨2, 4⟩, ⟨⟨2, 1⟩, ⟨2, 3⟩⟩⟩,
        ⟨.identifier, "x", ⟨4, 5⟩, ⟨⟨2, 3⟩, ⟨2, 4⟩⟩⟩] ∧
    lintSource "1\n?.x" .object = .ok
      [⟨.expectedDotAfterObject, ⟨0, 5⟩, ⟨⟨2, 1⟩, ⟨2, 3⟩⟩, ⟨[.insert 1 "?.", .remove ⟨2, 4⟩]⟩⟩] ∧
    ∃ out, fixSource "1\n?.x" .object = .ok ⟨out, 1, []⟩ ∧ lintSource out .object = .ok [] ∧
      fixSource out .object = .ok ⟨out, 0, []⟩ :=
  ⟨tokenize_number_optional_member, lintSource_number_optional_member,
    (fixes_converge tokenize_number_optional_member lintSource_number_optional_member).2⟩

/-- Fixing `1` newline `?.x` under the object position moves only the dot: the output reads
as the same tokens and parses to the same tree but for spans. -/
theorem number_optional_member_moved :
    tokenize "1\n?.x" = .ok
      #[⟨.numeric, "1", ⟨0, 1⟩, ⟨⟨1, 1⟩, ⟨1, 2⟩⟩⟩, ⟨.punctuator, "?.", ⟨2, 4⟩, ⟨⟨2, 1⟩, ⟨2, 3⟩⟩⟩,
        ⟨.identifier, "x", ⟨4, 5⟩, ⟨⟨2, 3⟩, ⟨2, 4⟩⟩⟩] ∧
    lintSource "1\n?.x" .object = .ok
      [⟨.expectedDotAfterObject, ⟨0, 5⟩, ⟨⟨2, 1⟩, ⟨2, 3⟩⟩, ⟨[.insert 1 "?.", .remove ⟨2, 4⟩]⟩⟩] ∧
    ∃ out ts', fixSource "1\n?.x" .object = .ok ⟨out, 1, []⟩ ∧ tokenize out = .ok ts' ∧
      ts'.toList.map Token.view = [(.numeric, "1"), (.punctuator, "?."), (.identifier, "x")] := by
  refine ⟨tokenize_number_optional_member, lintSource_number_optional_member, ?_⟩
  obtain ⟨out, ts', hfix, hout, hview, -⟩ :=
    fixSource_only_moves_dots tokenize_number_optional_member lintSource_number_optional_member
  exact ⟨out, ts', hfix, hout, hview⟩

end DotLint
