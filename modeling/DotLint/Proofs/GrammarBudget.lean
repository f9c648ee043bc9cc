import Mathlib.Tactic.Lemma
import DotLint.Proofs.BudgetRuns

/-!
# The grammar stays within its budget

`Budgets fuel` says, for each function of the grammar, that run with a recursion budget of
`fuel` from a token index `i` where `need c i` and the function's rank fit in `fuel`, it does
not run out of budget, and that when it succeeds it has moved forward: a function that reads
a construct reads at least one token (`Advances`), a loop may read none (`Moves`).

The rank (one, two or three) orders the functions that call one another at the same token
and the same nesting level: `conditional` calls `binary`, which calls `unary`. Every other
call reads a token or opens a nesting level first, and so has sixteen units more to spend,
more than any rank. With no budget no function is called within its need, so `Budgets 0`
holds. This module proves, one lemma per function, that the statement-level functions keep
their guarantee at `fuel + 1` when every function keeps its own at `fuel`;
`DotLint.Proofs.ParseBudget` does the same for expressions and concludes that `parse`
never runs out of budget.
-/

namespace DotLint

namespace Parse

/-- What each function of the grammar guarantees with a recursion budget of `fuel`, run from
an index whose need, with the function's rank, fits in the budget. -/
structure Budgets (fuel : Nat) : Prop where
  statement : ∀ {c : ParseContext} {i : Nat}, need c i + 1 ≤ fuel →
    Spends c (statement fuel) i fun _ j => Advances c.tokens i j
  block : ∀ {c : ParseContext} {i : Nat}, need c i + 1 ≤ fuel →
    Spends c (block fuel) i fun _ j => Advances c.tokens i j
  blockBody : ∀ {c : ParseContext} {i : Nat} (acc : Array Node), need c i + 2 ≤ fuel →
    Spends c (blockBody fuel acc) i fun _ j => Moves c.tokens i j
  declarators : ∀ {c : ParseContext} {i : Nat}, need c i + 1 ≤ fuel →
    Spends c (declarators fuel) i fun _ j => Advances c.tokens i j
  declaratorList : ∀ {c : ParseContext} {i : Nat} (acc : Array Node), need c i + 1 ≤ fuel →
    Spends c (declaratorList fuel acc) i fun _ j => Advances c.tokens i j
  returnStatement : ∀ {c : ParseContext} {i : Nat}, i < c.tokens.size →
    need c i + 3 ≤ fuel → Spends c (returnStatement fuel) i fun _ j => Advances c.tokens i j
  ifStatement : ∀ {c : ParseContext} {i : Nat}, need c i + 2 ≤ fuel →
    Spends c (ifStatement fuel) i fun _ j => Advances c.tokens i j
  forInit : ∀ {c : ParseContext} {i : Nat}, need c i + 3 ≤ fuel →
    Spends c (forInit fuel) i fun _ j => Moves c.tokens i j
  forStatement : ∀ {c : ParseContext} {i : Nat}, need c i + 1 ≤ fuel →
    Spends c (forStatement fuel) i fun _ j => Advances c.tokens i j
  forEach : ∀ {c : ParseContext} {i : Nat} (m : Marker) (kind : NodeKind) (left : Node),
    need c i + 3 ≤ fuel → Spends c (forEach fuel m kind left) i fun _ j => Advances c.tokens i j
  whileStatement : ∀ {c : ParseContext} {i : Nat}, need c i + 2 ≤ fuel →
    Spends c (whileStatement fuel) i fun _ j => Advances c.tokens i j
  doWhileStatement : ∀ {c : ParseContext} {i : Nat}, need c i + 2 ≤ fuel →
    Spends c (doWhileStatement fuel) i fun _ j => Advances c.tokens i j
  switchStatement : ∀ {c : ParseContext} {i : Nat}, need c i + 2 ≤ fuel →
    Spends c (switchStatement fuel) i fun _ j => Advances c.tokens i j
  switchCases : ∀ {c : ParseContext} {i : Nat} (acc : Array Node), need c i + 1 ≤ fuel →
    Spends c (switchCases fuel acc) i fun _ j => Moves c.tokens i j
  caseBody : ∀ {c : ParseContext} {i : Nat} (acc : Array Node), need c i + 2 ≤ fuel →
    Spends c (caseBody fuel acc) i fun _ j => Moves c.tokens i j
  function : ∀ {c : ParseContext} {i : Nat} (kind : NodeKind), need c i + 1 ≤ fuel →
    Spends c (function fuel kind) i fun _ j => Advances c.tokens i j
  methodFunction : ∀ {c : ParseContext} {i : Nat}, need c i + 2 ≤ fuel →
    Spends c (methodFunction fuel) i fun _ j => Advances c.tokens i j
  params : ∀ {c : ParseContext} {i : Nat}, need c i + 1 ≤ fuel →
    Spends c (params fuel) i fun _ j => Advances c.tokens i j
  paramList : ∀ {c : ParseContext} {i : Nat} (acc : Array Node), need c i + 1 ≤ fuel →
    Spends c (paramList fuel acc) i fun _ j => Advances c.tokens i j
  classDeclaration : ∀ {c : ParseContext} {i : Nat}, need c i + 1 ≤ fuel →
    Spends c (classDeclaration fuel) i fun _ j => Advances c.tokens i j
  classMembers : ∀ {c : ParseContext} {i : Nat} (acc : Array Node), need c i + 3 ≤ fuel →
    Spends c (classMembers fuel acc) i fun _ j => Advances c.tokens i j
  classMember : ∀ {c : ParseContext} {i : Nat}, need c i + 2 ≤ fuel →
    Spends c (classMember fuel) i fun _ j => Advances c.tokens i j
  propertyKey : ∀ {c : ParseContext} {i : Nat}, need c i + 1 ≤ fuel →
    Spends c (propertyKey fuel) i fun _ j => Advances c.tokens i j
  expression : ∀ {c : ParseContext} {i : Nat}, need c i + 2 ≤ fuel →
    Spends c (expression fuel) i fun _ j => Advances c.tokens i j
  sequenceRest : ∀ {c : ParseContext} {i : Nat} (acc : Array Node), need c i + 1 ≤ fuel →
    Spends c (sequenceRest fuel acc) i fun _ j => Moves c.tokens i j
  parenExpression : ∀ {c : ParseContext} {i : Nat}, need c i + 1 ≤ fuel →
    Spends c (parenExpression fuel) i fun _ j => Advances c.tokens i j
  assignment : ∀ {c : ParseContext} {i : Nat}, need c i + 1 ≤ fuel →
    Spends c (assignment fuel) i fun _ j => Advances c.tokens i j
  arrow : ∀ {c : ParseContext} {i : Nat}, need c i + 2 ≤ fuel →
    Spends c (arrow fuel) i fun _ j => Advances c.tokens i j
  conditional : ∀ {c : ParseContext} {i : Nat}, need c i + 3 ≤ fuel →
    Spends c (conditional fuel) i fun _ j => Advances c.tokens i j
  binary : ∀ {c : ParseContext} {i : Nat} (minPrec : Nat), need c i + 2 ≤ fuel →
    Spends c (binary fuel minPrec) i fun _ j => Advances c.tokens i j
  binaryRest : ∀ {c : ParseContext} {i : Nat} (minPrec : Nat) (m : Marker) (left : Node),
    need c i + 1 ≤ fuel →
    Spends c (binaryRest fuel minPrec m left) i fun _ j => Moves c.tokens i j
  unary : ∀ {c : ParseContext} {i : Nat}, need c i + 1 ≤ fuel →
    Spends c (unary fuel) i fun _ j => Advances c.tokens i j
  leftHandSide : ∀ {c : ParseContext} {i : Nat}, need c i + 3 ≤ fuel →
    Spends c (leftHandSide fuel) i fun _ j => Advances c.tokens i j
  newExpression : ∀ {c : ParseContext} {i : Nat}, need c i + 1 ≤ fuel →
    Spends c (newExpression fuel) i fun _ j => Advances c.tokens i j
  memberTail : ∀ {c : ParseContext} {i : Nat} (m : Marker) (e : Node) (allowCall : Bool),
    need c i + 2 ≤ fuel →
    Spends c (memberTail fuel m e allowCall) i fun _ j => Moves c.tokens i j
  arguments : ∀ {c : ParseContext} {i : Nat}, need c i + 1 ≤ fuel →
    Spends c (arguments fuel) i fun _ j => Advances c.tokens i j
  elementList : ∀ {c : ParseContext} {i : Nat} (close : String) (acc : Array Node),
    need c i + 2 ≤ fuel → Spends c (elementList fuel close acc) i fun _ j => Moves c.tokens i j
  primary : ∀ {c : ParseContext} {i : Nat}, need c i + 2 ≤ fuel →
    Spends c (primary fuel) i fun _ j => Advances c.tokens i j
  object : ∀ {c : ParseContext} {i : Nat}, need c i + 1 ≤ fuel →
    Spends c (object fuel) i fun _ j => Advances c.tokens i j
  propertyList : ∀ {c : ParseContext} {i : Nat} (acc : Array Node), need c i + 3 ≤ fuel →
    Spends c (propertyList fuel acc) i fun _ j => Moves c.tokens i j
  property : ∀ {c : ParseContext} {i : Nat}, need c i + 2 ≤ fuel →
    Spends c (property fuel) i fun _ j => Advances c.tokens i j

/-- With no budget no function is called within its need. -/
lemma budgets_zero : Budgets 0 := by
  constructor <;> intros <;> omega

variable {fuel : Nat} {c : ParseContext} {i : Nat}

/-! ## Statements -/

/-- A statement read up to `j` ends there, with an optional semicolon and its node. -/
lemma spends_statementEnd {j : Nat} {kind : NodeKind} {m : Marker}
    {F : List (String × Field Node)} (hj : Advances c.tokens i j) :
    Spends c consumeSemicolon j fun _ k =>
      Spends c (finish kind m F) k fun _ l => Advances c.tokens i l := by
  refine spends_consumeSemicolon (fun hsemi => ?_) (spends_finish fun _ => hj)
  exact spends_finish fun _ => hj.trans (advances_of_any hsemi)

/-- `break` and `continue` read their keyword, a label on the same line, and an optional
semicolon. -/
lemma spends_jump {kind : NodeKind} (hi : i < c.tokens.size) :
    Spends c (jump kind) i fun _ j => Advances c.tokens i j := by
  unfold jump
  simp only [spends_bind, spends_skip, spends_peek]
  refine spends_marker fun m => ?_
  split
  · next t ht =>
    simp only [spends_bind]
    refine spends_newlineBefore fun b => ?_
    simp only [spends_ite, spends_bind, spends_skip, spends_pure]
    exact ⟨fun _ => spends_statementEnd ((advances_succ hi).trans (advances_of_getElem? ht)),
      fun _ => spends_statementEnd (advances_succ hi)⟩
  · simp only [spends_bind, spends_pure]
    exact spends_statementEnd (advances_succ hi)

/-- A statement reads at least its first token; one nesting level deeper, it has sixteen
units more than any of its parts' ranks. -/
lemma statement_spends (ih : Budgets fuel) (h : need c i + 1 ≤ fuel + 1) :
    Spends c (statement (fuel + 1)) i fun _ j => Advances c.tokens i j := by
  rw [statement, spends_nested]
  intro hd
  have := need_nested (i := i) hd
  rw [spends_bind, spends_peek]
  cases ht : c.tokens[i]? with
  | none => exact spends_failUnexpected
  | some tok =>
    have hi := advances_of_getElem? ht
    dsimp only
    refine spends_ite.2 ⟨fun _ => ih.block (by omega), fun _ => ?_⟩
    refine spends_ite.2 ⟨fun _ => ?_, fun _ => ?_⟩
    · -- an empty statement is its semicolon
      simp only [spends_bind, spends_skip]
      exact spends_marker fun _ => spends_finish fun _ => hi
    refine spends_ite.2 ⟨fun _ => ?_, fun _ => ?_⟩
    · -- a declaration: its declarators, then an optional semicolon
      simp only [spends_bind]
      refine spends_marker fun m => ?_
      refine (ih.declarators (by omega)).mono fun r j hj => ?_
      obtain ⟨kind, ds⟩ := r
      exact spends_statementEnd hj
    refine spends_ite.2 ⟨fun _ => ih.function _ (by omega), fun _ => ?_⟩
    refine spends_ite.2 ⟨fun _ => ih.classDeclaration (by omega), fun _ => ?_⟩
    refine spends_ite.2 ⟨fun _ => ih.returnStatement hi.2 (by omega), fun _ => ?_⟩
    refine spends_ite.2 ⟨fun _ => ih.ifStatement (by omega), fun _ => ?_⟩
    refine spends_ite.2 ⟨fun _ => ih.forStatement (by omega), fun _ => ?_⟩
    refine spends_ite.2 ⟨fun _ => ih.whileStatement (by omega), fun _ => ?_⟩
    refine spends_ite.2 ⟨fun _ => ih.doWhileStatement (by omega), fun _ => ?_⟩
    refine spends_ite.2 ⟨fun _ => ih.switchStatement (by omega), fun _ => ?_⟩
    refine spends_ite.2 ⟨fun _ => spends_jump hi.2, fun _ => ?_⟩
    refine spends_ite.2 ⟨fun _ => spends_jump hi.2, fun _ => ?_⟩
    refine spends_ite.2 ⟨fun _ => ?_, fun _ => ?_⟩
    · -- a throw statement: the keyword, its argument, an optional semicolon
      simp only [spends_bind, spends_skip]
      have := need_add_le_of_advances (c := ⟨c.tokens, c.closers, c.allowIn, c.depth + 1⟩) hi
      refine spends_marker fun m => ?_
      exact (ih.expression (by omega)).mono fun e j hj => spends_statementEnd (hi.trans hj)
    · -- an expression statement: the expression, then an optional semicolon
      simp only [spends_bind]
      refine spends_marker fun m => ?_
      exact (ih.expression (by omega)).mono fun e j hj => spends_statementEnd hj

/-- A block reads its braces and the statements between them. -/
lemma block_spends (ih : Budgets fuel) (h : need c i + 1 ≤ fuel + 1) :
    Spends c (block (fuel + 1)) i fun _ j => Advances c.tokens i j := by
  rw [block]
  simp only [spends_bind, spends_expectPunct, spends_withAllowIn]
  refine spends_marker fun m hopen => ?_
  have hopen := advances_of_any hopen
  have := need_add_le_of_advances hopen
  refine (ih.blockBody #[] (by simp only [need_withAllowIn]; omega)).mono
    fun body j hj hclose => spends_finish fun _ => ?_
  exact (hopen.trans_moves hj).trans (advances_of_any hclose)

/-- The statements of a block, each of which reads a token, up to its closing brace. -/
lemma blockBody_spends (ih : Budgets fuel) (acc : Array Node) (h : need c i + 2 ≤ fuel + 1) :
    Spends c (blockBody (fuel + 1) acc) i fun _ j => Moves c.tokens i j := by
  rw [blockBody]
  simp only [spends_bind, spends_atPunct, spends_peek, spends_ite, spends_pure,
    spends_failExpected]
  refine ⟨fun _ => Moves.refl _ _, fun _ => ⟨fun _ => trivial, fun _ => ?_⟩⟩
  refine (ih.statement (by omega)).mono fun s j hj => ?_
  have := need_add_le_of_advances hj
  exact (ih.blockBody (acc.push s) (by omega)).mono fun _ k hk => (hj.trans_moves hk).moves

/-- The declarators of a declaration follow its keyword. -/
lemma declarators_spends (ih : Budgets fuel) (h : need c i + 1 ≤ fuel + 1) :
    Spends c (declarators (fuel + 1)) i fun _ j => Advances c.tokens i j := by
  rw [declarators]
  simp only [spends_bind, spends_bump, spends_pure]
  intro t ht
  have hkind := advances_of_getElem? ht
  have := need_add_le_of_advances hkind
  exact (ih.declaratorList #[] (by omega)).mono fun _ j hj => hkind.trans hj

/-- Declarators separated by commas: each is a name and an optional initialiser. -/
lemma declaratorList_spends (ih : Budgets fuel) (acc : Array Node) (h : need c i + 1 ≤ fuel + 1) :
    Spends c (declaratorList (fuel + 1) acc) i fun _ j => Advances c.tokens i j := by
  rw [declaratorList]
  simp only [spends_bind, ite_bind_same]
  refine spends_marker fun m => ?_
  refine spends_bindingIdentifier fun t ht id => ?_
  have hid := advances_of_getElem? ht
  -- the initialiser, if any, follows an equals sign
  refine Spends.mono_bind (fun _ k => Advances c.tokens i k) ?_ fun init k hk => ?_
  · simp only [spends_eatPunct]
    refine ⟨fun heq => ?_, fun _ => by simpa using hid⟩
    have heq := hid.trans (advances_of_any heq)
    have := need_add_le_of_advances heq
    simp only [↓reduceIte, spends_map]
    exact (ih.assignment (by omega)).mono fun _ k hk => heq.trans hk
  refine spends_finish fun d => ?_
  simp only [spends_eatPunct]
  refine ⟨fun hcomma => ?_, fun _ => by simpa using hk⟩
  have hcomma := hk.trans (advances_of_any hcomma)
  have := need_add_le_of_advances hcomma
  simp only [↓reduceIte]
  exact (ih.declaratorList (acc.push d) (by omega)).mono fun _ l hl => hcomma.trans hl

/-- An optional expression, missing where `b` holds, moves forward from where it starts. -/
lemma spends_optionalExpression (ih : Budgets fuel) (h : need c i + 2 ≤ fuel) (b : Bool) :
    Spends c (if b = true then pure none else some <$> expression fuel) i fun _ j =>
      Moves c.tokens i j := by
  cases b
  · simp only [Bool.false_eq_true, ↓reduceIte, spends_map]
    exact (ih.expression h).mono fun _ j hj => hj.moves
  · simpa using Moves.refl c.tokens i

/-- A `return` statement reads its keyword, an optional value and an optional semicolon. -/
lemma returnStatement_spends (ih : Budgets fuel) (hi : i < c.tokens.size)
    (h : need c i + 3 ≤ fuel + 1) :
    Spends c (returnStatement (fuel + 1)) i fun _ j => Advances c.tokens i j := by
  rw [returnStatement]
  simp only [spends_bind, spends_skip, ite_bind_same]
  refine spends_marker fun m => ?_
  have := need_succ_le (c := c) (i := i)
  refine Spends.mono_bind (fun _ k => Moves c.tokens (i + 1) k)
    (spends_atStatementEnd fun b => spends_optionalExpression ih (by omega) b)
    fun arg k harg => ?_
  exact spends_statementEnd ((advances_succ hi).trans_moves harg)

/-- An `if` statement reads its keyword, the test, the branch, and the `else` branch if
there is one. -/
lemma ifStatement_spends (ih : Budgets fuel) (h : need c i + 2 ≤ fuel + 1) :
    Spends c (ifStatement (fuel + 1)) i fun _ j => Advances c.tokens i j := by
  rw [ifStatement]
  simp only [spends_bind, spends_skip, ite_bind_same]
  refine spends_marker fun m => ?_
  have := need_succ_le (c := c) (i := i)
  refine (ih.parenExpression (by omega)).mono fun test j htest => ?_
  have := need_add_le_of_advances htest
  refine (ih.statement (by omega)).mono fun cons k hcons => ?_
  have := need_add_le_of_advances hcons
  refine Spends.mono_bind (fun _ l => Moves c.tokens k l) ?_
    fun alt l halt => spends_finish fun _ => ?_
  · simp only [spends_eatKeyword]
    refine ⟨fun helse => ?_, fun _ => by simpa using Moves.refl c.tokens k⟩
    have helse := advances_of_any helse
    have := need_add_le_of_advances helse
    simp only [↓reduceIte, spends_map]
    exact (ih.statement (by omega)).mono fun _ l hl => (helse.trans hl).moves
  exact ((htest.mono_left (Nat.le_add_right i 1)).trans hcons).trans_moves halt

/-- The head of a `for` loop up to its first clause: nothing, a declaration, or an
expression. -/
lemma forInit_spends (ih : Budgets fuel) (h : need c i + 3 ≤ fuel + 1) :
    Spends c (forInit (fuel + 1)) i fun _ j => Moves c.tokens i j := by
  rw [forInit]
  simp only [spends_bind, spends_atPunct, spends_peek, spends_ite, spends_pure]
  refine ⟨fun _ => Moves.refl _ _, fun _ => ?_⟩
  have hexpr : Spends c (some <$> withAllowIn false (expression fuel)) i fun _ j =>
      Moves c.tokens i j := by
    simp only [spends_map, spends_withAllowIn]
    exact (ih.expression (by simp only [need_withAllowIn]; omega)).mono fun _ j hj => hj.moves
  cases ht : c.tokens[i]? with
  | none => exact hexpr
  | some t =>
    dsimp only
    refine spends_ite.2 ⟨fun _ => ?_, fun _ => hexpr⟩
    simp only [spends_bind, spends_withAllowIn, spends_map]
    refine spends_marker fun m => ?_
    exact (ih.declarators (by simp only [need_withAllowIn]; omega)).mono fun _ j hj =>
      spends_finish fun _ => hj.moves

/-- A `for` loop reads its keyword and head, then the rest of a `for`-`in` or `for`-`of`
loop, or the clauses and body of a counted loop. -/
lemma forStatement_spends (ih : Budgets fuel) (h : need c i + 1 ≤ fuel + 1) :
    Spends c (forStatement (fuel + 1)) i fun _ j => Advances c.tokens i j := by
  rw [forStatement]
  simp only [spends_bind, spends_skip, spends_expectPunct, ite_bind_same, ← bind_assoc]
  refine spends_marker fun m => ?_
  intro hopen
  have := need_add_le_of_advances (advances_of_any hopen)
  have := need_succ_le (c := c) (i := i)
  refine (ih.forInit (by omega)).mono fun init j hinit => ?_
  have := need_le_of_le (c := c) hinit.1
  simp only [spends_atKeyword, spends_atIdentifier]
  -- which loop it is depends only on the token after the head, which stays unread
  refine Spends.mono (Q := fun _ k => k = j) ?_ ?_
  · simp
  rintro each _ rfl
  split
  · next kind left =>
    refine (ih.forEach m kind left (by omega)).mono fun _ k hk => ?_
    exact (hinit.trans_advances hk).mono_left (Nat.le_add_right i 2)
  · -- a counted loop: the test and the update are optional
    simp only [spends_bind, spends_expectPunct, spends_atPunct]
    intro hsemi
    have := need_add_le_of_advances (advances_of_any hsemi)
    refine (spends_optionalExpression ih (by omega) _).mono fun test k htest => ?_
    intro hsemi'
    have := need_le_of_le (c := c) htest.1
    have := need_add_le_of_advances (advances_of_any hsemi')
    refine (spends_optionalExpression ih (by omega) _).mono fun update l hupdate => ?_
    intro hclose
    have := need_le_of_le (c := c) hupdate.1
    have := need_add_le_of_advances (advances_of_any hclose)
    refine (ih.statement (by omega)).mono fun body n hbody => spends_finish fun _ => ?_
    have := hinit.1
    have := htest.1
    have := hupdate.1
    exact hbody.mono_left (by omega)

/-- The rest of a `for`-`in` or `for`-`of` loop after its head: the keyword, the right side,
the closing parenthesis and the body. -/
lemma forEach_spends (ih : Budgets fuel) (m : Marker) (kind : NodeKind) (left : Node)
    (h : need c i + 3 ≤ fuel + 1) :
    Spends c (forEach (fuel + 1) m kind left) i fun _ j => Advances c.tokens i j := by
  rw [forEach]
  simp only [spends_bind, spends_skip, spends_expectPunct, ite_bind_same]
  have := need_succ_le (c := c) (i := i)
  refine Spends.mono (Q := fun _ k => Advances c.tokens (i + 1) k) ?_ fun right k hright => ?_
  · split
    · exact ih.expression (by omega)
    · exact ih.assignment (by omega)
  intro hclose
  have hclose := hright.trans (advances_of_any hclose)
  have := need_add_le_of_advances hclose
  refine (ih.statement (by omega)).mono fun body j hbody => spends_finish fun _ => ?_
  exact (hclose.trans hbody).mono_left (Nat.le_add_right i 1)

/-- A `while` loop reads its keyword, the test and the body. -/
lemma whileStatement_spends (ih : Budgets fuel) (h : need c i + 2 ≤ fuel + 1) :
    Spends c (whileStatement (fuel + 1)) i fun _ j => Advances c.tokens i j := by
  rw [whileStatement]
  simp only [spends_bind, spends_skip]
  refine spends_marker fun m => ?_
  have := need_succ_le (c := c) (i := i)
  refine (ih.parenExpression (by omega)).mono fun test j htest => ?_
  have := need_add_le_of_advances htest
  refine (ih.statement (by omega)).mono fun body k hbody => spends_finish fun _ => ?_
  exact (htest.mono_left (Nat.le_add_right i 1)).trans hbody

/-- A `do`-`while` loop reads its keyword, the body, `while` and the test, and an optional
semicolon. -/
lemma doWhileStatement_spends (ih : Budgets fuel) (h : need c i + 2 ≤ fuel + 1) :
    Spends c (doWhileStatement (fuel + 1)) i fun _ j => Advances c.tokens i j := by
  rw [doWhileStatement]
  simp only [spends_bind, spends_skip, spends_expectKeyword]
  refine spends_marker fun m => ?_
  have := need_succ_le (c := c) (i := i)
  refine (ih.statement (by omega)).mono fun body j hbody => ?_
  intro hwhile
  have hwhile := (hbody.mono_left (Nat.le_add_right i 1)).trans (advances_of_any hwhile)
  have := need_add_le_of_advances hwhile
  refine (ih.parenExpression (by omega)).mono fun test k htest => ?_
  have hread := hwhile.trans htest
  simp only [spends_eatPunct]
  exact ⟨fun hsemi => spends_finish fun _ => hread.trans (advances_of_any hsemi),
    fun _ => spends_finish fun _ => hread⟩

/-- A `switch` statement reads its keyword, the discriminant and the braced cases. -/
lemma switchStatement_spends (ih : Budgets fuel) (h : need c i + 2 ≤ fuel + 1) :
    Spends c (switchStatement (fuel + 1)) i fun _ j => Advances c.tokens i j := by
  rw [switchStatement]
  simp only [spends_bind, spends_skip, spends_expectPunct]
  refine spends_marker fun m => ?_
  have := need_succ_le (c := c) (i := i)
  refine (ih.parenExpression (by omega)).mono fun disc j hdisc => ?_
  intro hopen
  have hopen := (hdisc.mono_left (Nat.le_add_right i 1)).trans (advances_of_any hopen)
  have := need_add_le_of_advances hopen
  refine (ih.switchCases #[] (by omega)).mono fun cases k hcases hclose => ?_
  exact spends_finish fun _ => (hopen.trans_moves hcases).trans (advances_of_any hclose)

/-- The cases of a `switch` up to its closing brace: each reads `case` and its test, or
`default`, then a colon and its statements. -/
lemma switchCases_spends (ih : Budgets fuel) (acc : Array Node) (h : need c i + 1 ≤ fuel + 1) :
    Spends c (switchCases (fuel + 1) acc) i fun _ j => Moves c.tokens i j := by
  rw [switchCases]
  simp only [spends_bind, spends_atPunct, ite_bind_same, ← bind_assoc]
  refine spends_ite.2 ⟨fun _ => spends_pure.2 (Moves.refl _ _), fun _ => ?_⟩
  simp only [spends_bind]
  refine spends_marker fun m => ?_
  -- the test of a case; `default` has none
  refine Spends.mono_bind (fun _ k => Advances c.tokens i k) ?_ fun test k htest => ?_
  · simp only [spends_eatKeyword]
    refine ⟨fun hcase => ?_, fun _ => ?_⟩
    · have hcase := advances_of_any hcase
      have := need_add_le_of_advances hcase
      simp only [↓reduceIte, spends_map]
      exact (ih.expression (by omega)).mono fun _ k hk => hcase.trans hk
    · simp only [Bool.false_eq_true, ↓reduceIte, spends_bind, spends_eatKeyword]
      exact ⟨fun hdefault => by simpa using advances_of_any hdefault, fun _ => by simp⟩
  simp only [spends_expectPunct]
  intro hcolon
  have hcolon := htest.trans (advances_of_any hcolon)
  have := need_add_le_of_advances hcolon
  refine (ih.caseBody #[] (by omega)).mono fun body l hbody => spends_finish fun sc => ?_
  have hcase := hcolon.trans_moves hbody
  have := need_add_le_of_advances hcase
  exact (ih.switchCases (acc.push sc) (by omega)).mono fun _ n hn => (hcase.trans_moves hn).moves

/-- The statements of a case, each of which reads a token, up to the next case or the
closing brace. -/
lemma caseBody_spends (ih : Budgets fuel) (acc : Array Node) (h : need c i + 2 ≤ fuel + 1) :
    Spends c (caseBody (fuel + 1) acc) i fun _ j => Moves c.tokens i j := by
  rw [caseBody]
  simp only [spends_bind, spends_atPunct, spends_atKeyword, spends_peek, spends_ite, spends_pure,
    spends_failExpected]
  refine ⟨fun _ => Moves.refl _ _, fun _ => ⟨fun _ => trivial, fun _ => ?_⟩⟩
  refine (ih.statement (by omega)).mono fun s j hs => ?_
  have := need_add_le_of_advances hs
  exact (ih.caseBody (acc.push s) (by omega)).mono fun _ k hk => (hs.trans_moves hk).moves

/-! ## Functions and classes -/

/-- A function reads its keyword, a name (required of a declaration), the parameters and
the body. -/
lemma function_spends (ih : Budgets fuel) (kind : NodeKind) (h : need c i + 1 ≤ fuel + 1) :
    Spends c (function (fuel + 1) kind) i fun _ j => Advances c.tokens i j := by
  rw [function]
  simp only [spends_bind, spends_expectKeyword, spends_peek, ite_bind_same, ← bind_assoc]
  refine spends_marker fun m => ?_
  intro hfun
  have hfun := advances_of_any hfun
  have := need_add_le_of_advances hfun
  -- with a name or without, the parameters and the body follow
  have hrest : ∀ (id : Option Node) (k : Nat), Moves c.tokens (i + 1) k →
      Spends c (params fuel) k fun ps l => Spends c (block fuel) l fun body n =>
        Spends c (finish kind m [("id", .ofOption id), ("params", .list ps),
          ("body", .node body)]) n fun _ j => Advances c.tokens i j := by
    intro id k hk
    have := need_le_of_le (c := c) hk.1
    refine (ih.params (by omega)).mono fun ps l hps => ?_
    have := need_add_le_of_advances hps
    refine (ih.block (by omega)).mono fun body n hbody => spends_finish fun _ => ?_
    exact hfun.trans_moves (hk.trans (hps.trans hbody).moves)
  split
  · next t ht =>
    simp only [spends_bind, spends_ite, spends_skip, spends_pure, spends_failExpected]
    exact ⟨fun _ => hrest _ _ (advances_of_getElem? ht).moves,
      fun _ => ⟨fun _ => trivial, fun _ => hrest none _ (Moves.refl _ _)⟩⟩
  · simp only [spends_bind, spends_ite, spends_pure, spends_failExpected]
    exact ⟨fun _ => trivial, fun _ => hrest none _ (Moves.refl _ _)⟩

/-- A method reads its parameters and body. -/
lemma methodFunction_spends (ih : Budgets fuel) (h : need c i + 2 ≤ fuel + 1) :
    Spends c (methodFunction (fuel + 1)) i fun _ j => Advances c.tokens i j := by
  rw [methodFunction]
  simp only [spends_bind]
  refine spends_marker fun m => ?_
  refine (ih.params (by omega)).mono fun ps j hps => ?_
  have := need_add_le_of_advances hps
  exact (ih.block (by omega)).mono fun body k hbody => spends_finish fun _ => hps.trans hbody

/-- A parameter list reads its parentheses and the parameters between them. -/
lemma params_spends (ih : Budgets fuel) (h : need c i + 1 ≤ fuel + 1) :
    Spends c (params (fuel + 1)) i fun _ j => Advances c.tokens i j := by
  rw [params]
  simp only [spends_bind, spends_expectPunct, spends_pure]
  intro hopen
  have hopen := advances_of_any hopen
  have := need_add_le_of_advances hopen
  exact (ih.paramList #[] (by omega)).mono fun _ j hj => hopen.trans hj

/-- Parameters up to the closing parenthesis, which is read too: a name, a name with a
default, or a rest parameter, each before a comma or the closing parenthesis. -/
lemma paramList_spends (ih : Budgets fuel) (acc : Array Node) (h : need c i + 1 ≤ fuel + 1) :
    Spends c (paramList (fuel + 1) acc) i fun _ j => Advances c.tokens i j := by
  rw [paramList]
  simp only [spends_bind, spends_eatPunct, ite_bind_same, ← bind_assoc]
  refine ⟨fun hclose => by simpa using advances_of_any hclose, fun _ => ?_⟩
  simp only [Bool.false_eq_true, ↓reduceIte, spends_bind]
  refine spends_marker fun m => ?_
  refine Spends.mono_bind (fun _ k => Advances c.tokens i k) ?_ fun param k hparam => ?_
  · simp only [spends_eatPunct]
    refine ⟨fun hrest => ?_, fun _ => ?_⟩
    · -- a rest parameter
      simp only [↓reduceIte, spends_bind]
      refine spends_bindingIdentifier fun t ht arg => spends_finish fun _ => ?_
      exact (advances_of_getElem? ht).mono_left (Nat.le_add_right i 1)
    · simp only [Bool.false_eq_true, ↓reduceIte, spends_bind]
      refine spends_bindingIdentifier fun t ht left => ?_
      have hleft := advances_of_getElem? ht
      simp only [spends_eatPunct]
      refine ⟨fun hdefault => ?_, fun _ => by simpa using hleft⟩
      · -- a name with a default value
        have hdefault := hleft.trans (advances_of_any hdefault)
        have := need_add_le_of_advances hdefault
        simp only [↓reduceIte, spends_bind, spends_withAllowIn]
        refine (ih.assignment (by simp only [need_withAllowIn]; omega)).mono
          fun right k hright => spends_finish fun _ => hdefault.trans hright
  have := need_add_le_of_advances hparam
  simp only [spends_atPunct, spends_ite, spends_bind, spends_expectPunct]
  refine ⟨fun _ => (ih.paramList (acc.push param) (by omega)).mono fun _ l hl =>
      hparam.trans hl, fun _ hcomma => ?_⟩
  have hcomma := hparam.trans (advances_of_any hcomma)
  have := need_add_le_of_advances hcomma
  exact (ih.paramList (acc.push param) (by omega)).mono fun _ l hl => hcomma.trans hl

/-- A class declaration reads its keyword, the name, an optional superclass and the braced
members. -/
lemma classDeclaration_spends (ih : Budgets fuel) (h : need c i + 1 ≤ fuel + 1) :
    Spends c (classDeclaration (fuel + 1)) i fun _ j => Advances c.tokens i j := by
  rw [classDeclaration]
  simp only [spends_bind, spends_skip, ite_bind_same, ← bind_assoc]
  refine spends_marker fun m => ?_
  refine spends_bindingIdentifier fun t ht id => ?_
  have hname := (advances_of_getElem? ht).mono_left (Nat.le_add_right i 1)
  refine Spends.mono_bind (fun _ k => Moves c.tokens (i + 1 + 1) k) ?_ fun sup k hsup => ?_
  · simp only [spends_eatKeyword]
    refine ⟨fun hextends => ?_, fun _ => by simpa using Moves.refl c.tokens (i + 1 + 1)⟩
    have hextends := advances_of_any hextends
    have := need_add_le_of_advances (hname.trans hextends)
    simp only [↓reduceIte, spends_map]
    exact (ih.leftHandSide (by omega)).mono fun _ l hl => (hextends.trans hl).moves
  refine spends_marker fun bm => ?_
  simp only [spends_expectPunct]
  intro hopen
  have hopen := (hname.trans_moves hsup).trans (advances_of_any hopen)
  have := need_add_le_of_advances hopen
  refine (ih.classMembers #[] (by omega)).mono fun members l hmembers =>
    spends_finish fun _ => spends_finish fun _ => hopen.trans hmembers

/-- Class members up to the closing brace, which is read too; semicolons between them are
passed over. -/
lemma classMembers_spends (ih : Budgets fuel) (acc : Array Node) (h : need c i + 3 ≤ fuel + 1) :
    Spends c (classMembers (fuel + 1) acc) i fun _ j => Advances c.tokens i j := by
  rw [classMembers]
  simp only [spends_bind, spends_eatPunct]
  refine ⟨fun hsemi => ?_, fun _ => ?_⟩
  · -- a semicolon between members
    have hsemi := advances_of_any hsemi
    have := need_add_le_of_advances hsemi
    simp only [↓reduceIte]
    exact (ih.classMembers acc (by omega)).mono fun _ j hj => hsemi.trans hj
  simp only [Bool.false_eq_true, ↓reduceIte, spends_bind, spends_eatPunct]
  refine ⟨fun hclose => by simpa using advances_of_any hclose, fun _ => ?_⟩
  refine (ih.classMember (by omega)).mono fun member j hmember => ?_
  have := need_add_le_of_advances hmember
  exact (ih.classMembers (acc.push member) (by omega)).mono fun _ k hk => hmember.trans hk

/-- A method of a class reads `static` and an accessor prefix where they are no names, then
the key, the parameters and the body. -/
lemma classMember_spends (ih : Budgets fuel) (h : need c i + 2 ≤ fuel + 1) :
    Spends c (classMember (fuel + 1)) i fun _ j => Advances c.tokens i j := by
  rw [classMember]
  simp only [spends_bind, spends_atIdentifier, spends_peekAtPunct, ite_bind_same, ← bind_assoc]
  refine spends_marker fun m => ?_
  -- `static` and an accessor prefix only move forward
  refine Spends.mono (Q := fun _ k => i ≤ k) ?_ fun _ k hk => ?_
  · refine spends_ite.2 ⟨fun _ => ?_, fun _ => ?_⟩
    · simp only [spends_bind, spends_skip]
      exact spends_accessorPrefix (Nat.le_add_right i 1) fun _ _ => by omega
    · exact spends_accessorPrefix (Nat.le_refl i) fun _ _ => Nat.le_add_right i 1
  have := need_le_of_le (c := c) hk
  refine (ih.propertyKey (by omega)).mono fun key l hkey => ?_
  have := need_add_le_of_advances hkey
  refine (ih.methodFunction (by omega)).mono fun value j hvalue => spends_finish fun _ => ?_
  exact (hkey.trans hvalue).mono_left hk

/-- A property name reads a bracketed expression or one token. -/
lemma propertyKey_spends (ih : Budgets fuel) (h : need c i + 1 ≤ fuel + 1) :
    Spends c (propertyKey (fuel + 1)) i fun _ j => Advances c.tokens i j := by
  rw [propertyKey]
  simp only [spends_bind, spends_eatPunct]
  refine ⟨fun hopen => ?_, fun _ => ?_⟩
  · have hopen := advances_of_any hopen
    have := need_add_le_of_advances hopen
    simp only [↓reduceIte, spends_bind, spends_withAllowIn, spends_expectPunct, spends_pure]
    exact (ih.assignment (by simp only [need_withAllowIn]; omega)).mono fun _ j hj hclose =>
      (hopen.trans hj).trans (advances_of_any hclose)
  simp only [Bool.false_eq_true, ↓reduceIte, spends_bind, spends_peek]
  cases ht : c.tokens[i]? with
  | none => exact spends_failUnexpected
  | some tok =>
    have hi := advances_of_getElem? ht
    dsimp only
    split <;> simp [hi]

end Parse

end DotLint
