import Mathlib.Tactic.Lemma
import DotLint.Proofs.GrammarBudget

/-!
# The parser never runs out of budget

The steps of `DotLint.Proofs.GrammarBudget` and the expression steps below keep every
guarantee of `Budgets` from one budget to the next, so every function of the grammar keeps
its guarantee at every budget. The program loop reads statements, each of which reads a
token, up to the last token; it needs sixteen units per token and per nesting level, and
`Parse.budget` gives it more than that. So

* `parse` may refuse a token list, but never because its budget ran out
  (`parse_ne_outOfBudget`), and neither does `parseSource` refuse a text for that reason.
-/

namespace DotLint

namespace Parse

variable {fuel : Nat} {c : ParseContext} {i : Nat}

/-! ## Expressions -/

/-- An expression reads an assignment, and more after each comma. -/
lemma expression_spends (ih : Budgets fuel) (h : need c i + 2 ≤ fuel + 1) :
    Spends c (expression (fuel + 1)) i fun _ j => Advances c.tokens i j := by
  rw [expression]
  simp only [spends_bind, spends_atPunct]
  refine spends_marker fun m => ?_
  refine (ih.assignment (by omega)).mono fun first j hfirst => ?_
  have := need_add_le_of_advances hfirst
  refine spends_ite.2 ⟨fun _ => spends_pure.2 hfirst, fun _ => ?_⟩
  simp only [spends_bind]
  exact (ih.sequenceRest #[first] (by omega)).mono fun _ k hk =>
    spends_finish fun _ => hfirst.trans_moves hk

/-- The further members of a sequence, each after a comma. -/
lemma sequenceRest_spends (ih : Budgets fuel) (acc : Array Node) (h : need c i + 1 ≤ fuel + 1) :
    Spends c (sequenceRest (fuel + 1) acc) i fun _ j => Moves c.tokens i j := by
  rw [sequenceRest]
  simp only [spends_bind, spends_eatPunct]
  refine ⟨fun hcomma => ?_, fun _ => by simpa using Moves.refl c.tokens i⟩
  have hcomma := advances_of_any hcomma
  have := need_add_le_of_advances hcomma
  simp only [↓reduceIte, spends_bind]
  refine (ih.assignment (by omega)).mono fun e j hj => ?_
  have hij := hcomma.trans hj
  have := need_add_le_of_advances hij
  exact (ih.sequenceRest (acc.push e) (by omega)).mono fun _ k hk => (hij.trans_moves hk).moves

/-- A parenthesised expression reads its parentheses and the expression between them. -/
lemma parenExpression_spends (ih : Budgets fuel) (h : need c i + 1 ≤ fuel + 1) :
    Spends c (parenExpression (fuel + 1)) i fun _ j => Advances c.tokens i j := by
  rw [parenExpression]
  simp only [spends_bind, spends_expectPunct, spends_withAllowIn, spends_pure]
  intro hopen
  have hopen := advances_of_any hopen
  have := need_add_le_of_advances hopen
  exact (ih.expression (by simp only [need_withAllowIn]; omega)).mono fun _ j hj hclose =>
    (hopen.trans hj).trans (advances_of_any hclose)

/-- An assignment, one nesting level deeper, is an arrow function, a conditional
expression, or a target, an operator and a value. -/
lemma assignment_spends (ih : Budgets fuel) (h : need c i + 1 ≤ fuel + 1) :
    Spends c (assignment (fuel + 1)) i fun _ j => Advances c.tokens i j := by
  rw [assignment, spends_nested]
  intro hd
  have := need_nested (i := i) hd
  simp only [spends_bind]
  refine spends_isArrowStart fun b => ?_
  refine spends_ite.2 ⟨fun _ => ih.arrow (by omega), fun _ => ?_⟩
  simp only [spends_bind, spends_peek]
  refine spends_marker fun m => ?_
  refine (ih.conditional (by omega)).mono fun left j hleft => ?_
  cases ht : c.tokens[j]? with
  | none => exact spends_pure.2 hleft
  | some tok =>
    dsimp only
    refine spends_ite.2 ⟨fun _ => ?_, fun _ => spends_pure.2 hleft⟩
    -- a target that is neither a name nor a member access is refused
    simp only [spends_ite, spends_bind, spends_throw, spends_skip]
    refine ⟨fun _ => ?_, fun _ => by simp⟩
    have hop := hleft.trans (advances_of_getElem? ht)
    have := need_add_le_of_advances hop
    exact (ih.assignment (by omega)).mono fun _ k hk => spends_finish fun _ => hop.trans hk

/-- An arrow function reads its parameters, the arrow, and a block or an expression. -/
lemma arrow_spends (ih : Budgets fuel) (h : need c i + 2 ≤ fuel + 1) :
    Spends c (arrow (fuel + 1)) i fun _ j => Advances c.tokens i j := by
  rw [arrow]
  simp only [spends_bind, ite_bind_same, ← bind_assoc]
  refine spends_marker fun m => ?_
  refine Spends.mono_bind (fun _ j => Advances c.tokens i j) ?_ fun ps j hps => ?_
  · simp only [spends_atPunct]
    refine spends_ite.2 ⟨fun _ => ih.params (by omega), fun _ => ?_⟩
    simp only [spends_map]
    exact spends_bindingIdentifier fun t ht _ => advances_of_getElem? ht
  simp only [spends_expectPunct]
  intro harrow
  have harrow := hps.trans (advances_of_any harrow)
  have := need_add_le_of_advances harrow
  refine Spends.mono_bind (fun _ l => Advances c.tokens (j + 1) l) ?_ fun r l hr => ?_
  · simp only [spends_atPunct]
    refine spends_ite.2 ⟨fun _ => ?_, fun _ => ?_⟩
    · simp only [spends_map]
      exact ih.block (by omega)
    · simp only [spends_map]
      exact ih.assignment (by omega)
  obtain ⟨body, isExpression⟩ := r
  exact spends_finish fun _ => harrow.trans hr

/-- A conditional expression reads its test, and the two branches after a question mark. -/
lemma conditional_spends (ih : Budgets fuel) (h : need c i + 3 ≤ fuel + 1) :
    Spends c (conditional (fuel + 1)) i fun _ j => Advances c.tokens i j := by
  rw [conditional]
  simp only [spends_bind, spends_eatPunct]
  refine spends_marker fun m => ?_
  refine (ih.binary 1 (by omega)).mono fun test j htest => ?_
  refine ⟨fun hq => ?_, fun _ => by simpa using htest⟩
  have hq := htest.trans (advances_of_any hq)
  have := need_add_le_of_advances hq
  simp only [Bool.not_true, Bool.false_eq_true, ↓reduceIte, spends_bind, spends_withAllowIn,
    spends_expectPunct]
  refine (ih.assignment (by simp only [need_withAllowIn]; omega)).mono
    fun cons k hcons hcolon => ?_
  have hk := (hq.trans hcons).trans (advances_of_any hcolon)
  have := need_add_le_of_advances hk
  exact (ih.assignment (by omega)).mono fun _ l hl => spends_finish fun _ => hk.trans hl

/-- Operands joined by binary operators: a unary expression and what follows it. -/
lemma binary_spends (ih : Budgets fuel) (minPrec : Nat) (h : need c i + 2 ≤ fuel + 1) :
    Spends c (binary (fuel + 1) minPrec) i fun _ j => Advances c.tokens i j := by
  rw [binary]
  simp only [spends_bind]
  refine spends_marker fun m => ?_
  refine (ih.unary (by omega)).mono fun left j hleft => ?_
  have := need_add_le_of_advances hleft
  exact (ih.binaryRest minPrec m left (by omega)).mono fun _ k hk => hleft.trans_moves hk

/-- Each operator that binds tightly enough reads its token and a right operand. -/
lemma binaryRest_spends (ih : Budgets fuel) (minPrec : Nat) (m : Marker) (left : Node)
    (h : need c i + 1 ≤ fuel + 1) :
    Spends c (binaryRest (fuel + 1) minPrec m left) i fun _ j => Moves c.tokens i j := by
  rw [binaryRest]
  simp only [spends_bind]
  refine spends_binaryOperator (by simpa using Moves.refl c.tokens i) fun op prec hi => ?_
  simp only [spends_ite, spends_pure, spends_bind, spends_skip]
  refine ⟨fun _ => Moves.refl _ _, fun _ => ?_⟩
  have hop := advances_succ hi
  have := need_add_le_of_advances hop
  refine (ih.binary _ (by omega)).mono fun right j hright => spends_finish fun node => ?_
  have hij := hop.trans hright
  have := need_add_le_of_advances hij
  exact (ih.binaryRest minPrec m node (by omega)).mono fun _ k hk => (hij.trans_moves hk).moves

/-- A unary expression, one nesting level deeper: a prefix operator and its operand, or a
left-hand side with an optional postfix `++` or `--`. -/
lemma unary_spends (ih : Budgets fuel) (h : need c i + 1 ≤ fuel + 1) :
    Spends c (unary (fuel + 1)) i fun _ j => Advances c.tokens i j := by
  rw [unary, spends_nested]
  intro hd
  simp only [spends_bind, spends_peek]
  refine spends_marker fun m => ?_
  cases ht : c.tokens[i]? with
  | none => exact spends_failUnexpected
  | some tok =>
    have hop := advances_of_getElem? ht
    have := need_nested (i := i) hd
    have := need_nested (i := i + 1) hd
    have := need_add_le_of_advances hop
    dsimp only
    refine spends_ite.2 ⟨fun _ => ?_, fun _ => spends_ite.2 ⟨fun _ => ?_, fun _ => ?_⟩⟩
    · -- a prefix operator
      simp only [spends_bind, spends_skip]
      exact (ih.unary (by omega)).mono fun _ j hj => spends_finish fun _ => hop.trans hj
    · -- a prefix `++` or `--`
      simp only [spends_bind, spends_skip]
      exact (ih.unary (by omega)).mono fun _ j hj => spends_finish fun _ => hop.trans hj
    · -- a postfix operator counts only on the line of its operand
      simp only [spends_bind, spends_peek]
      refine (ih.leftHandSide (by omega)).mono fun e j he => ?_
      cases ht' : c.tokens[j]? with
      | none => exact spends_pure.2 he
      | some t =>
        dsimp only
        simp only [spends_bind]
        refine spends_newlineBefore fun b => ?_
        refine spends_ite.2 ⟨fun _ => ?_, fun _ => spends_pure.2 he⟩
        simp only [spends_bind, spends_skip]
        exact spends_finish fun _ => he.trans (advances_of_getElem? ht')

/-! ## Member accesses, calls and `new` -/

/-- A left-hand side is a primary or `new` expression and its member accesses and calls. -/
lemma leftHandSide_spends (ih : Budgets fuel) (h : need c i + 3 ≤ fuel + 1) :
    Spends c (leftHandSide (fuel + 1)) i fun _ j => Advances c.tokens i j := by
  rw [leftHandSide]
  simp only [spends_bind, ite_bind_same, spends_atKeyword]
  refine spends_marker fun m => ?_
  refine Spends.mono (Q := fun _ j => Advances c.tokens i j) ?_ fun e j he => ?_
  · exact spends_ite.2 ⟨fun _ => ih.newExpression (by omega), fun _ => ih.primary (by omega)⟩
  have := need_add_le_of_advances he
  exact (ih.memberTail m e true (by omega)).mono fun _ k hk => he.trans_moves hk

/-- A `new` expression, one nesting level deeper: the keyword, the callee with its member
accesses, and the arguments if there are any. -/
lemma newExpression_spends (ih : Budgets fuel) (h : need c i + 1 ≤ fuel + 1) :
    Spends c (newExpression (fuel + 1)) i fun _ j => Advances c.tokens i j := by
  rw [newExpression, spends_nested]
  intro hd
  simp only [spends_bind, spends_skip, spends_atKeyword, spends_atPunct, ite_bind_same]
  refine spends_marker fun m => ?_
  refine spends_marker fun cm => ?_
  have := need_nested (i := i + 1) hd
  have := need_succ_le (c := c) (i := i)
  refine Spends.mono (Q := fun _ j => Advances c.tokens (i + 1) j) ?_ fun e j he => ?_
  · exact spends_ite.2 ⟨fun _ => ih.newExpression (by omega), fun _ => ih.primary (by omega)⟩
  have := need_nested (i := j) hd
  have := need_add_le_of_advances he
  refine (ih.memberTail cm e false (by omega)).mono fun callee k hcallee => ?_
  have := need_nested (i := k) hd
  have := need_le_of_le (c := c) hcallee.1
  refine Spends.mono (Q := fun _ l => Moves c.tokens k l) ?_
    fun args l hargs => spends_finish fun _ => ?_
  · exact spends_ite.2 ⟨fun _ => (ih.arguments (by omega)).mono fun _ _ h => h.moves,
      fun _ => spends_pure.2 (Moves.refl _ _)⟩
  exact (he.mono_left (Nat.le_add_right i 1)).trans_moves (hcallee.trans hargs)

/-- Member accesses and calls after `e`, each of which reads a token or more. -/
lemma memberTail_spends (ih : Budgets fuel) (m : Marker) (e : Node) (allowCall : Bool)
    (h : need c i + 2 ≤ fuel + 1) :
    Spends c (memberTail (fuel + 1) m e allowCall) i fun _ j => Moves c.tokens i j := by
  rw [memberTail]
  -- each access finishes a node at the marker and goes on from it
  have hnext : ∀ (kind : NodeKind) (fields : List (String × Field Node)) (j : Nat),
      Advances c.tokens i j →
      Spends c (finish kind m fields) j fun n k =>
        Spends c (memberTail fuel m n allowCall) k fun _ l => Moves c.tokens i l := by
    intro kind fields j hj
    have := need_add_le_of_advances hj
    exact spends_finish fun n =>
      (ih.memberTail m n allowCall (by omega)).mono fun _ l hl => (hj.trans_moves hl).moves
  simp only [spends_bind, spends_eatPunct, member]
  refine ⟨fun hdot => ?_, fun _ => ?_⟩
  · -- `.` and a name
    simp only [↓reduceIte, spends_bind]
    exact spends_identifierName fun t ht _ => hnext _ _ _
      ((advances_of_any hdot).trans (advances_of_getElem? ht))
  simp only [Bool.false_eq_true, ↓reduceIte, spends_bind, spends_atPunct]
  refine spends_ite.2 ⟨fun hopt => ?_, fun _ => ?_⟩
  · -- `?.` and a call, a computed member or a name
    have hopt := advances_of_any hopt
    have := need_add_le_of_advances hopt
    simp only [spends_bind, spends_skip, spends_atPunct]
    refine spends_ite.2 ⟨fun _ => ?_, fun _ => ?_⟩
    · simp only [spends_bind]
      exact (ih.arguments (by omega)).mono fun _ j hj => hnext _ _ _ (hopt.trans hj)
    simp only [spends_bind, spends_eatPunct]
    refine ⟨fun hopen => ?_, fun _ => ?_⟩
    · have hopen := hopt.trans (advances_of_any hopen)
      have := need_add_le_of_advances hopen
      simp only [↓reduceIte, spends_bind, spends_withAllowIn, spends_expectPunct]
      exact (ih.expression (by simp only [need_withAllowIn]; omega)).mono fun _ j hj hclose =>
        hnext _ _ _ ((hopen.trans hj).trans (advances_of_any hclose))
    · simp only [Bool.false_eq_true, ↓reduceIte, spends_bind]
      exact spends_identifierName fun t ht _ => hnext _ _ _ (hopt.trans (advances_of_getElem? ht))
  simp only [spends_bind, spends_eatPunct]
  refine ⟨fun hopen => ?_, fun _ => ?_⟩
  · -- a computed member
    have hopen := advances_of_any hopen
    have := need_add_le_of_advances hopen
    simp only [↓reduceIte, spends_bind, spends_withAllowIn, spends_expectPunct]
    exact (ih.expression (by simp only [need_withAllowIn]; omega)).mono fun _ j hj hclose =>
      hnext _ _ _ ((hopen.trans hj).trans (advances_of_any hclose))
  simp only [Bool.false_eq_true, ↓reduceIte, spends_bind, spends_atPunct]
  refine spends_ite.2 ⟨fun _ => ?_, fun _ => spends_pure.2 (Moves.refl _ _)⟩
  · -- a call, where calls are allowed
    simp only [spends_bind]
    exact (ih.arguments (by omega)).mono fun _ j hj => hnext _ _ _ hj

/-- An argument list reads its parentheses and the elements between them. -/
lemma arguments_spends (ih : Budgets fuel) (h : need c i + 1 ≤ fuel + 1) :
    Spends c (arguments (fuel + 1)) i fun _ j => Advances c.tokens i j := by
  rw [arguments]
  simp only [spends_bind, spends_expectPunct, spends_withAllowIn, spends_pure]
  intro hopen
  have hopen := advances_of_any hopen
  have := need_add_le_of_advances hopen
  exact (ih.elementList ")" #[] (by simp only [need_withAllowIn]; omega)).mono
    fun _ j hj hclose => (hopen.trans_moves hj).trans (advances_of_any hclose)

/-- Elements up to the closing punctuator, each an assignment or a spread element before a
comma or the closing punctuator. -/
lemma elementList_spends (ih : Budgets fuel) (close : String) (acc : Array Node)
    (h : need c i + 2 ≤ fuel + 1) :
    Spends c (elementList (fuel + 1) close acc) i fun _ j => Moves c.tokens i j := by
  rw [elementList]
  simp only [spends_bind, spends_atPunct, ite_bind_same, ← bind_assoc]
  refine spends_ite.2 ⟨fun _ => spends_pure.2 (Moves.refl _ _), fun _ => ?_⟩
  simp only [spends_bind]
  refine spends_marker fun m => ?_
  refine Spends.mono_bind (fun _ j => Advances c.tokens i j) ?_ fun element j hel => ?_
  · simp only [spends_eatPunct]
    refine ⟨fun hspread => ?_, fun _ => ?_⟩
    · -- a spread element
      have hspread := advances_of_any hspread
      have := need_add_le_of_advances hspread
      simp only [↓reduceIte, spends_bind]
      exact (ih.assignment (by omega)).mono fun _ j hj => spends_finish fun _ => hspread.trans hj
    · simp only [Bool.false_eq_true, ↓reduceIte]
      exact ih.assignment (by omega)
  have := need_add_le_of_advances hel
  simp only [spends_atPunct, spends_ite, spends_bind, spends_expectPunct]
  refine ⟨fun _ => (ih.elementList close (acc.push element) (by omega)).mono fun _ k hk =>
    (hel.trans_moves hk).moves, fun _ hcomma => ?_⟩
  have hcomma := hel.trans (advances_of_any hcomma)
  have := need_add_le_of_advances hcomma
  exact (ih.elementList close (acc.push element) (by omega)).mono fun _ k hk =>
    (hcomma.trans_moves hk).moves

/-! ## Primary expressions and objects -/

/-- A primary expression is one token, a function, a parenthesised expression, or an array
or object. -/
lemma primary_spends (ih : Budgets fuel) (h : need c i + 2 ≤ fuel + 1) :
    Spends c (primary (fuel + 1)) i fun _ j => Advances c.tokens i j := by
  rw [primary]
  simp only [spends_bind, spends_peek]
  cases ht : c.tokens[i]? with
  | none => exact spends_failUnexpected
  | some tok =>
    have hi := advances_of_getElem? ht
    have := need_add_le_of_advances hi
    dsimp only
    cases hk : tok.kind <;> simp only [spends_bind, spends_skip, spends_pure]
    case keyword =>
      -- `this` and function expressions; other words cannot start an expression
      refine spends_ite.2 ⟨fun _ => ?_, fun _ => spends_ite.2 ⟨fun _ => ?_, fun _ => ?_⟩⟩
      · simp only [spends_bind, spends_skip, spends_pure]
        exact hi
      · exact ih.function _ (by omega)
      · exact spends_failUnexpected
    case punctuator =>
      refine spends_ite.2 ⟨fun _ => ih.parenExpression (by omega), fun _ => ?_⟩
      refine spends_ite.2 ⟨fun _ => ?_, fun _ => ?_⟩
      · -- an array
        simp only [spends_bind, spends_skip, spends_withAllowIn, spends_expectPunct]
        refine spends_marker fun m => ?_
        exact (ih.elementList "]" #[] (by simp only [need_withAllowIn]; omega)).mono
          fun _ j hj hclose => spends_finish fun _ =>
            (hi.trans_moves hj).trans (advances_of_any hclose)
      exact spends_ite.2 ⟨fun _ => ih.object (by omega), fun _ => spends_failUnexpected⟩
    all_goals exact hi

/-- An object literal reads its braces and the properties between them. -/
lemma object_spends (ih : Budgets fuel) (h : need c i + 1 ≤ fuel + 1) :
    Spends c (object (fuel + 1)) i fun _ j => Advances c.tokens i j := by
  rw [object]
  simp only [spends_bind, spends_expectPunct, spends_withAllowIn]
  refine spends_marker fun m hopen => ?_
  have hopen := advances_of_any hopen
  have := need_add_le_of_advances hopen
  exact (ih.propertyList #[] (by simp only [need_withAllowIn]; omega)).mono fun _ j hj hclose =>
    spends_finish fun _ => (hopen.trans_moves hj).trans (advances_of_any hclose)

/-- Properties up to the closing brace, each before a comma or the closing brace. -/
lemma propertyList_spends (ih : Budgets fuel) (acc : Array Node) (h : need c i + 3 ≤ fuel + 1) :
    Spends c (propertyList (fuel + 1) acc) i fun _ j => Moves c.tokens i j := by
  rw [propertyList]
  simp only [spends_bind, spends_atPunct, spends_ite, spends_pure, spends_expectPunct]
  refine ⟨fun _ => Moves.refl _ _, fun _ => ?_⟩
  refine (ih.property (by omega)).mono fun p j hp => ?_
  have := need_add_le_of_advances hp
  refine ⟨fun _ => (ih.propertyList (acc.push p) (by omega)).mono fun _ k hk =>
    (hp.trans_moves hk).moves, fun _ hcomma => ?_⟩
  have hcomma := hp.trans (advances_of_any hcomma)
  have := need_add_le_of_advances hcomma
  exact (ih.propertyList (acc.push p) (by omega)).mono fun _ k hk =>
    (hcomma.trans_moves hk).moves

/-- A property reads a spread element, or an optional accessor word, a key and a value; a
shorthand property's value is its key. -/
lemma property_spends (ih : Budgets fuel) (h : need c i + 2 ≤ fuel + 1) :
    Spends c (property (fuel + 1)) i fun _ j => Advances c.tokens i j := by
  rw [property]
  simp only [spends_bind, spends_eatPunct]
  refine spends_marker fun m => ?_
  refine ⟨fun hspread => ?_, fun _ => ?_⟩
  · -- a spread property
    have hspread := advances_of_any hspread
    have := need_add_le_of_advances hspread
    simp only [↓reduceIte, spends_bind]
    exact (ih.assignment (by omega)).mono fun _ j hj => spends_finish fun _ => hspread.trans hj
  simp only [Bool.false_eq_true, ↓reduceIte, spends_bind]
  -- an accessor word takes one token before the key
  refine Spends.mono (Q := fun _ i' => i ≤ i') (spends_accessorPrefix (Nat.le_refl i)
    fun _ _ => Nat.le_add_right i 1) fun accessor i' hi' => ?_
  have := need_le_of_le (c := c) hi'
  refine (ih.propertyKey (by omega)).mono fun key j hkey => ?_
  have hkey' := hkey.mono_left hi'
  have := need_add_le_of_advances hkey'
  cases accessor with
  | some w =>
    simp only [spends_bind, spends_map]
    exact (ih.methodFunction (by omega)).mono fun _ k hk => spends_finish fun _ => hkey'.trans hk
  | none =>
    simp only [spends_bind, spends_atPunct]
    refine spends_ite.2 ⟨fun _ => ?_, fun _ => ?_⟩
    · -- a method
      simp only [spends_bind, spends_map]
      exact (ih.methodFunction (by omega)).mono fun _ k hk =>
        spends_finish fun _ => hkey'.trans hk
    simp only [spends_bind, spends_eatPunct]
    refine ⟨fun hcolon => ?_, fun _ => ?_⟩
    · -- a value after a colon
      have hcolon := hkey'.trans (advances_of_any hcolon)
      have := need_add_le_of_advances hcolon
      simp only [↓reduceIte, spends_bind, spends_map]
      exact (ih.assignment (by omega)).mono fun _ k hk => spends_finish fun _ => hcolon.trans hk
    simp only [Bool.false_eq_true, ↓reduceIte]
    -- a shorthand property: its key is also its value
    refine spends_ite.2 ⟨fun _ => ?_, fun _ => ?_⟩
    · simp only [spends_bind, spends_pure]
      exact spends_finish fun _ => hkey'
    · simp only [spends_bind, spends_failExpected]

/-! ## Every budget, and the program -/

/-- Every guarantee at one budget gives every guarantee at the next. -/
lemma Budgets.succ (ih : Budgets fuel) : Budgets (fuel + 1) where
  statement h := statement_spends ih h
  block h := block_spends ih h
  blockBody acc h := blockBody_spends ih acc h
  declarators h := declarators_spends ih h
  declaratorList acc h := declaratorList_spends ih acc h
  returnStatement hi h := returnStatement_spends ih hi h
  ifStatement h := ifStatement_spends ih h
  forInit h := forInit_spends ih h
  forStatement h := forStatement_spends ih h
  forEach m kind left h := forEach_spends ih m kind left h
  whileStatement h := whileStatement_spends ih h
  doWhileStatement h := doWhileStatement_spends ih h
  switchStatement h := switchStatement_spends ih h
  switchCases acc h := switchCases_spends ih acc h
  caseBody acc h := caseBody_spends ih acc h
  function kind h := function_spends ih kind h
  methodFunction h := methodFunction_spends ih h
  params h := params_spends ih h
  paramList acc h := paramList_spends ih acc h
  classDeclaration h := classDeclaration_spends ih h
  classMembers acc h := classMembers_spends ih acc h
  classMember h := classMember_spends ih h
  propertyKey h := propertyKey_spends ih h
  expression h := expression_spends ih h
  sequenceRest acc h := sequenceRest_spends ih acc h
  parenExpression h := parenExpression_spends ih h
  assignment h := assignment_spends ih h
  arrow h := arrow_spends ih h
  conditional h := conditional_spends ih h
  binary minPrec h := binary_spends ih minPrec h
  binaryRest minPrec m left h := binaryRest_spends ih minPrec m left h
  unary h := unary_spends ih h
  leftHandSide h := leftHandSide_spends ih h
  newExpression h := newExpression_spends ih h
  memberTail m e allowCall h := memberTail_spends ih m e allowCall h
  arguments h := arguments_spends ih h
  elementList close acc h := elementList_spends ih close acc h
  primary h := primary_spends ih h
  object h := object_spends ih h
  propertyList acc h := propertyList_spends ih acc h
  property h := property_spends ih h

/-- Every function of the grammar keeps its guarantee at every budget. -/
lemma budgets : ∀ fuel, Budgets fuel
  | 0 => budgets_zero
  | fuel + 1 => (budgets fuel).succ

/-- The program loop reads statements, each of which reads a token, up to the last token,
without running out of budget. -/
lemma programBody_spends (acc : Array Node) (h : need c i + 2 ≤ fuel) :
    Spends c (programBody fuel acc) i fun _ j => Moves c.tokens i j := by
  induction fuel generalizing i acc with
  | zero => omega
  | succ fuel ih =>
    rw [programBody]
    simp only [spends_bind, spends_peek, spends_ite, spends_pure]
    refine ⟨fun _ => Moves.refl _ _, fun _ => ?_⟩
    refine ((budgets fuel).statement (by omega)).mono fun s j hs => ?_
    have := need_add_le_of_advances hs
    exact (ih (acc.push s) (by omega)).mono fun _ k hk => (hs.trans_moves hk).moves

end Parse

/-- The budget `parse` gives is enough: it may refuse a token list, but never because its
budget ran out. -/
theorem parse_ne_outOfBudget (tokens : Array Token) (pos : Position) :
    parse tokens ≠ .error ⟨.outOfBudget, pos⟩ := by
  intro hp
  -- the program loop starts at the first token and the outermost level, within its budget
  have hspends : Parse.Spends ⟨tokens, matchBrackets tokens, true, 0⟩
      (Parse.programBody (Parse.budget tokens.size) #[]) 0 fun _ j => Parse.Moves tokens 0 j :=
    Parse.programBody_spends #[] (by
      unfold Parse.need Parse.budget Parse.maxDepth
      dsimp only
      omega)
  unfold parse at hp
  cases hrun : ((Parse.programBody (Parse.budget tokens.size) #[]).run
      ⟨tokens, matchBrackets tokens, true, 0⟩).run 0 with
  | error e =>
    simp only [hrun, Except.error.injEq] at hp
    exact hspends.ne_outOfBudget hrun (by rw [hp])
  | ok r => simp [hrun] at hp

/-- Neither is a source text refused because the parser's budget ran out. -/
theorem parseSource_ne_outOfBudget (source : String) (pos : Position) :
    parseSource source ≠ .error (.parse ⟨.outOfBudget, pos⟩) := by
  unfold parseSource
  split
  · simp
  · split
    · next e he =>
      intro hp
      cases hp
      exact parse_ne_outOfBudget _ pos he
    · simp

end DotLint
