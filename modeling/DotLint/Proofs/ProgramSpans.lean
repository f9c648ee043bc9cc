import Mathlib.Tactic.Lemma
import DotLint.Proofs.ExpressionSpans

/-!
# Parsed programs are aligned to their tokens

The steps of `DotLint.Proofs.GrammarSpans` and `DotLint.Proofs.ExpressionSpans` together
keep every guarantee of `Specs` from one budget to the next, so every function of the
grammar keeps its guarantee at every budget. The program loop reads statements one after
another up to the last token, so a program parsed from tokens in text order

* is made of statements that tile the tokens, each read exactly;
* has every node of its tree aligned to a first and a last token, holding its children
  inside its span and in text order, where a shorthand property holds its key twice;
* spans from the first token to the last, or is empty at the start of an empty text.
-/

namespace DotLint

namespace Parse

variable {fuel : Nat} {c : ParseContext}

/-- Every guarantee at one budget gives every guarantee at the next. -/
lemma Specs.succ (ih : Specs fuel) : Specs (fuel + 1) where
  statement hc := statement_step ih hc
  block hc := block_step ih hc
  blockBody acc hc := blockBody_step ih hc acc
  declarators hc := declarators_step ih hc
  declaratorList acc hc := declaratorList_step ih hc acc
  returnStatement hc hi := returnStatement_step ih hc hi
  ifStatement hc := ifStatement_step ih hc
  forInit hc := forInit_step ih hc
  forStatement hc := forStatement_step ih hc
  forEach hc hm hleft := forEach_step ih hc hm hleft
  whileStatement hc := whileStatement_step ih hc
  doWhileStatement hc := doWhileStatement_step ih hc
  switchStatement hc := switchStatement_step ih hc
  switchCases acc hc := switchCases_step ih hc acc
  caseBody acc hc := caseBody_step ih hc acc
  function kind hc := function_step ih hc kind
  methodFunction hc := methodFunction_step ih hc
  params hc := params_step ih hc
  paramList acc hc := paramList_step ih hc acc
  classDeclaration hc := classDeclaration_step ih hc
  classMembers acc hc := classMembers_step ih hc acc
  classMember hc := classMember_step ih hc
  propertyKey hc := propertyKey_step ih hc
  expression hc := expression_step ih hc
  sequenceRest acc hc hi := sequenceRest_step ih hc acc hi
  parenExpression hc := parenExpression_step ih hc
  assignment hc := assignment_step ih hc
  arrow hc := arrow_step ih hc
  conditional hc := conditional_step ih hc
  binary minPrec hc := binary_step ih hc minPrec
  binaryRest minPrec := fun hc hm hleft => binaryRest_step ih hc minPrec hm hleft
  unary hc := unary_step ih hc
  leftHandSide hc := leftHandSide_step ih hc
  newExpression hc := newExpression_step ih hc
  memberTail allowCall hc hm he := memberTail_step ih hc allowCall hm he
  arguments hc := arguments_step ih hc
  elementList close acc hc := elementList_step ih hc close acc
  primary hc := primary_step ih hc
  object hc := object_step ih hc
  propertyList acc hc := propertyList_step ih hc acc
  property hc := property_step ih hc

/-- Every function of the grammar keeps its guarantee at every budget. -/
lemma specs : ∀ fuel, Specs fuel
  | 0 => specs_zero
  | fuel + 1 => (specs fuel).succ

/-- The program loop reads statements one after another up to the last token, each read
exactly. -/
lemma programBody_tiles (hc : InTextOrder c.tokens.toList) :
    ∀ (fuel : Nat) (acc : Array Node) {i : Nat}, i ≤ c.tokens.size →
    Holds c (programBody fuel acc) i fun acc' _ => ∃ ss, acc'.toList = acc.toList ++ ss ∧
      Node.Tiles c.tokens ss i c.tokens.size ∧ ∀ s ∈ ss, s.WellSpanned c.tokens
  | 0, _, _, _ => holds_outOfBudget.2 trivial
  | fuel + 1, acc, i, hi => by
    rw [programBody]
    simp only [holds_bind, holds_peek]
    cases ht : c.tokens[i]? with
    | none =>
      -- no token is left, so the loop stops at the end
      have hend : i = c.tokens.size := by
        have := Array.getElem?_eq_none_iff.1 ht
        omega
      simp only [Option.isNone_none, ↓reduceIte, holds_pure]
      exact ⟨[], by simp, hend ▸ .nil i, by simp⟩
    | some tok =>
      simp only [Option.isNone_some, Bool.false_eq_true, ↓reduceIte, holds_bind]
      refine Holds.mono ((specs fuel).statement hc) fun s j hs => ?_
      refine Holds.mono (programBody_tiles hc fuel (acc.push s) hs.read.le_size)
        fun acc' _ hacc => ?_
      obtain ⟨ss, hacc', hss, hw⟩ := hacc
      refine ⟨s :: ss, by simp [hacc'], hs.tiles.append hss, ?_⟩
      rintro s' (_ | ⟨_, hs'⟩)
      · exact hs.wellSpanned
      · exact hw s' hs'

end Parse

/-- Nodes that tile from past the last token are none. -/
lemma Node.Tiles.eq_nil {ts : Array Token} {ns : List Node} {i j : Nat} (h : Node.Tiles ts ns i j)
    (hi : ts.size ≤ i) : ns = [] := by
  cases h with
  | nil => rfl
  | cons hcov _ =>
    obtain ⟨-, ta, -, hta, -⟩ := hcov
    have := (Array.getElem?_eq_some_iff.1 hta).1
    omega

/-- What the spans of a program parsed from the tokens `ts` guarantee. -/
structure ProgramSpans (ts : Array Token) (root : Node) : Prop where
  /-- The root is a program. -/
  program : root.kind = .program
  /-- Its statements tile the tokens: the first starts at the first token, each next one
  at the token after the last one of the previous, and the last ends at the last token. -/
  body : Node.Tiles ts (root.list "body") 0 ts.size
  /-- Over some tokens, every node of the tree is aligned to tokens and holds its children
  inside its span and in text order. -/
  wellSpanned : 0 < ts.size → root.WellSpanned ts
  /-- Over some tokens, the program spans from the first token to the last. -/
  covers : 0 < ts.size → root.Covers ts 0 (ts.size - 1)
  /-- Over no tokens, the program is empty, at the start of the text. -/
  empty : ts.size = 0 → root.span = ⟨0, 0⟩ ∧ root.list "body" = []

/-- A successful parse is a program node whose only field is the statements the program
loop returned. -/
lemma parse_eq_program {ts : Array Token} {root : Node} (hp : parse ts = .ok root) :
    ∃ body j, ((Parse.programBody (Parse.budget ts.size) #[]).run
        ⟨ts, matchBrackets ts, true, 0⟩).run 0 = .ok (body, j) ∧
      root.kind = .program ∧ root.fields = [("body", .list body.toList)] ∧
      (∀ first last, ts[0]? = some first → ts.back? = some last →
        root.span = ⟨first.span.start, last.span.stop⟩ ∧
        root.loc = ⟨first.loc.start, last.loc.stop⟩) ∧
      (ts[0]? = none → root.span = ⟨0, 0⟩) := by
  unfold parse at hp
  cases hrun : ((Parse.programBody (Parse.budget ts.size) #[]).run
      ⟨ts, matchBrackets ts, true, 0⟩).run 0 with
  | error e => simp [hrun] at hp
  | ok r =>
    obtain ⟨body, j⟩ := r
    refine ⟨body, j, rfl, ?_⟩
    simp only [hrun] at hp
    cases h0 : ts[0]? <;> cases hb : ts.back? <;> simp [h0, hb] at hp <;> subst hp <;> simp

/-- A program parsed from the tokens of a source text has spans aligned to those tokens:
its statements tile them, and every node of its tree spans from a first to a last token
and holds its children inside that span and in text order. -/
theorem parse_spans {s : String} {ts : Array Token} {root : Node} (hts : tokenize s = .ok ts)
    (hp : parse ts = .ok root) : ProgramSpans ts root := by
  have hc := tokenize_inTextOrder hts
  obtain ⟨body, j, hrun, hkind, hfields, hspan, hempty⟩ := parse_eq_program hp
  obtain ⟨ss, hss, htiles, hw⟩ : ∃ ss, body.toList = [] ++ ss ∧ Node.Tiles ts ss 0 ts.size ∧
      ∀ s ∈ ss, s.WellSpanned ts :=
    Parse.programBody_tiles (c := ⟨ts, matchBrackets ts, true, 0⟩) hc _ #[] (Nat.zero_le _)
      body j hrun
  have hbody : root.list "body" = ss := by simp [Node.list, Node.field?, hfields, hss]
  have hchildren : root.children = ss := by simp [Node.children, hfields, hss]
  -- with no token no statement is read, and the program is the empty one
  have hnil : ts.size = 0 → ss = [] := fun h0 => htiles.eq_nil (by omega)
  -- over some tokens the program covers them all
  have hcovers : 0 < ts.size → root.Covers ts 0 (ts.size - 1) := by
    intro hpos
    have h0 : ts[0]? = some ts[0] := Array.getElem?_eq_getElem hpos
    have hb : ts.back? = some ts[ts.size - 1] := by
      rw [Array.back?_eq_getElem?]
      exact Array.getElem?_eq_getElem (by omega)
    obtain ⟨hs, hl⟩ := hspan _ _ h0 hb
    exact ⟨Nat.zero_le _, _, _, h0, by rw [← Array.back?_eq_getElem?]; exact hb, hs, hl⟩
  refine ⟨hkind, hbody ▸ htiles, fun hpos => ?_, hcovers, fun h0 => ⟨hempty ?_, hbody ▸ hnil h0⟩⟩
  · have hwithin : Node.Within ts root.children 0 (ts.size - 1 + 1) := by
      rw [hchildren, Nat.sub_add_cancel hpos]
      exact htiles.within
    exact Node.wellSpanned_of_within hc (hcovers hpos) hwithin (hchildren ▸ hw)
  · exact Array.getElem?_eq_none_iff.2 (by omega)

/-- The member access of `a /* c */\n.b // x` spans both lines, from `a` to `b`. -/
theorem parse_spans_split_member :
    ProgramSpans #[⟨.identifier, "a", ⟨0, 1⟩, ⟨⟨1, 1⟩, ⟨1, 2⟩⟩⟩,
      ⟨.punctuator, ".", ⟨10, 11⟩, ⟨⟨2, 1⟩, ⟨2, 2⟩⟩⟩,
      ⟨.identifier, "b", ⟨11, 12⟩, ⟨⟨2, 2⟩, ⟨2, 3⟩⟩⟩]
    ⟨.program, ⟨0, 12⟩, ⟨⟨1, 1⟩, ⟨2, 3⟩⟩, [("body", .list [⟨.expressionStatement, ⟨0, 12⟩,
      ⟨⟨1, 1⟩, ⟨2, 3⟩⟩, [("expression", .node ⟨.memberExpression, ⟨0, 12⟩, ⟨⟨1, 1⟩, ⟨2, 3⟩⟩,
        [("object", .node ⟨.identifier, ⟨0, 1⟩, ⟨⟨1, 1⟩, ⟨1, 2⟩⟩, [("name", .text "a")]⟩),
         ("property", .node ⟨.identifier, ⟨11, 12⟩, ⟨⟨2, 2⟩, ⟨2, 3⟩⟩, [("name", .text "b")]⟩),
         ("computed", .flag false), ("optional", .flag false)]⟩)]⟩])]⟩ :=
  parse_spans tokenize_split_member rfl

end DotLint
