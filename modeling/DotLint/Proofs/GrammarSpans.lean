import Mathlib.Tactic.Lemma
import DotLint.Proofs.NodeSpans

/-!
# Every grammar function reads what it returns

Each function of the grammar, run on tokens in text order, either fails or returns nodes
read from the tokens it moved over. `Specs fuel` collects these guarantees for every
function of the mutual block at one recursion budget:

* a function that takes a marker at its first token and finishes its node there reads that
  node exactly (`ReadAt`): statements, declarations, functions, classes, arrays, objects;
* the others return a node read from somewhere inside the tokens they moved over (`Read`),
  as a parenthesised expression, whose parentheses make no node, does;
* the loops return their accumulator extended by nodes read one after another (`Extends`).

With no budget every function fails, so `Specs 0` holds. This module proves, one lemma per
function, that the statement-level functions keep their guarantee at `fuel + 1` when every
function keeps its own at `fuel`; `DotLint.Proofs.ExpressionSpans` does the same for
expressions, and `DotLint.Proofs.ProgramSpans` puts the steps together.
-/

namespace DotLint

namespace Parse

/-- `acc'` is `acc` followed by nodes read one after another from the tokens `i` up to `j`
(excluded). -/
def Extends (ts : Array Token) (acc : Array Node) (i : Nat) (acc' : Array Node) (j : Nat) :
    Prop :=
  ∃ ns, acc'.toList = acc.toList ++ ns ∧ Read ts ns i j

/-- What each function of the grammar guarantees when it succeeds, run with a recursion
budget of `fuel` on tokens in text order from the index `i`. -/
structure Specs (fuel : Nat) : Prop where
  statement : ∀ {c : ParseContext} {i : Nat}, InTextOrder c.tokens.toList →
    Holds c (statement fuel) i fun n j => ReadAt c.tokens n i j
  block : ∀ {c : ParseContext} {i : Nat}, InTextOrder c.tokens.toList →
    Holds c (block fuel) i fun n j => ReadAt c.tokens n i j
  blockBody : ∀ {c : ParseContext} {i : Nat} (acc : Array Node), InTextOrder c.tokens.toList →
    Holds c (blockBody fuel acc) i (Extends c.tokens acc i)
  declarators : ∀ {c : ParseContext} {i : Nat}, InTextOrder c.tokens.toList →
    Holds c (declarators fuel) i fun r j => i < j ∧ Read c.tokens r.2 i j
  declaratorList : ∀ {c : ParseContext} {i : Nat} (acc : Array Node),
    InTextOrder c.tokens.toList →
    Holds c (declaratorList fuel acc) i fun r j => i < j ∧ Extends c.tokens acc i r j
  returnStatement : ∀ {c : ParseContext} {i : Nat}, InTextOrder c.tokens.toList →
    i < c.tokens.size → Holds c (returnStatement fuel) i fun n j => ReadAt c.tokens n i j
  ifStatement : ∀ {c : ParseContext} {i : Nat}, InTextOrder c.tokens.toList →
    Holds c (ifStatement fuel) i fun n j => ReadAt c.tokens n i j
  forInit : ∀ {c : ParseContext} {i : Nat}, InTextOrder c.tokens.toList →
    Holds c (forInit fuel) i fun o j => Read c.tokens o.toList i j
  forStatement : ∀ {c : ParseContext} {i : Nat}, InTextOrder c.tokens.toList →
    Holds c (forStatement fuel) i fun n j => ReadAt c.tokens n i j
  forEach : ∀ {c : ParseContext} {i₀ i : Nat} {m : Marker} {kind : NodeKind} {left : Node},
    InTextOrder c.tokens.toList → MarkerAt c.tokens m i₀ → Read c.tokens [left] i₀ i →
    Holds c (forEach fuel m kind left) i fun n j => ReadAt c.tokens n i₀ j
  whileStatement : ∀ {c : ParseContext} {i : Nat}, InTextOrder c.tokens.toList →
    Holds c (whileStatement fuel) i fun n j => ReadAt c.tokens n i j
  doWhileStatement : ∀ {c : ParseContext} {i : Nat}, InTextOrder c.tokens.toList →
    Holds c (doWhileStatement fuel) i fun n j => ReadAt c.tokens n i j
  switchStatement : ∀ {c : ParseContext} {i : Nat}, InTextOrder c.tokens.toList →
    Holds c (switchStatement fuel) i fun n j => ReadAt c.tokens n i j
  switchCases : ∀ {c : ParseContext} {i : Nat} (acc : Array Node),
    InTextOrder c.tokens.toList → Holds c (switchCases fuel acc) i (Extends c.tokens acc i)
  caseBody : ∀ {c : ParseContext} {i : Nat} (acc : Array Node), InTextOrder c.tokens.toList →
    Holds c (caseBody fuel acc) i (Extends c.tokens acc i)
  function : ∀ {c : ParseContext} {i : Nat} (kind : NodeKind), InTextOrder c.tokens.toList →
    Holds c (function fuel kind) i fun n j => ReadAt c.tokens n i j
  methodFunction : ∀ {c : ParseContext} {i : Nat}, InTextOrder c.tokens.toList →
    Holds c (methodFunction fuel) i fun n j => ReadAt c.tokens n i j
  params : ∀ {c : ParseContext} {i : Nat}, InTextOrder c.tokens.toList →
    Holds c (params fuel) i fun ps j => i < j ∧ Read c.tokens ps i j
  paramList : ∀ {c : ParseContext} {i : Nat} (acc : Array Node), InTextOrder c.tokens.toList →
    Holds c (paramList fuel acc) i (Extends c.tokens acc i)
  classDeclaration : ∀ {c : ParseContext} {i : Nat}, InTextOrder c.tokens.toList →
    Holds c (classDeclaration fuel) i fun n j => ReadAt c.tokens n i j
  classMembers : ∀ {c : ParseContext} {i : Nat} (acc : Array Node),
    InTextOrder c.tokens.toList → Holds c (classMembers fuel acc) i (Extends c.tokens acc i)
  classMember : ∀ {c : ParseContext} {i : Nat}, InTextOrder c.tokens.toList →
    Holds c (classMember fuel) i fun n j => ReadAt c.tokens n i j
  propertyKey : ∀ {c : ParseContext} {i : Nat}, InTextOrder c.tokens.toList →
    Holds c (propertyKey fuel) i fun r j => Read c.tokens [r.1] i j
  expression : ∀ {c : ParseContext} {i : Nat}, InTextOrder c.tokens.toList →
    Holds c (expression fuel) i fun n j => Read c.tokens [n] i j
  sequenceRest : ∀ {c : ParseContext} {i : Nat} (acc : Array Node),
    InTextOrder c.tokens.toList → i ≤ c.tokens.size →
    Holds c (sequenceRest fuel acc) i (Extends c.tokens acc i)
  parenExpression : ∀ {c : ParseContext} {i : Nat}, InTextOrder c.tokens.toList →
    Holds c (parenExpression fuel) i fun n j => Read c.tokens [n] i j
  assignment : ∀ {c : ParseContext} {i : Nat}, InTextOrder c.tokens.toList →
    Holds c (assignment fuel) i fun n j => Read c.tokens [n] i j
  arrow : ∀ {c : ParseContext} {i : Nat}, InTextOrder c.tokens.toList →
    Holds c (arrow fuel) i fun n j => ReadAt c.tokens n i j
  conditional : ∀ {c : ParseContext} {i : Nat}, InTextOrder c.tokens.toList →
    Holds c (conditional fuel) i fun n j => Read c.tokens [n] i j
  binary : ∀ {c : ParseContext} {i : Nat} (minPrec : Nat), InTextOrder c.tokens.toList →
    Holds c (binary fuel minPrec) i fun n j => Read c.tokens [n] i j
  binaryRest : ∀ {c : ParseContext} {i₀ i : Nat} (minPrec : Nat) {m : Marker} {left : Node},
    InTextOrder c.tokens.toList → MarkerAt c.tokens m i₀ → Read c.tokens [left] i₀ i →
    Holds c (binaryRest fuel minPrec m left) i fun n j => Read c.tokens [n] i₀ j
  unary : ∀ {c : ParseContext} {i : Nat}, InTextOrder c.tokens.toList →
    Holds c (unary fuel) i fun n j => Read c.tokens [n] i j
  leftHandSide : ∀ {c : ParseContext} {i : Nat}, InTextOrder c.tokens.toList →
    Holds c (leftHandSide fuel) i fun n j => Read c.tokens [n] i j
  newExpression : ∀ {c : ParseContext} {i : Nat}, InTextOrder c.tokens.toList →
    Holds c (newExpression fuel) i fun n j => ReadAt c.tokens n i j
  memberTail : ∀ {c : ParseContext} {i₀ i : Nat} {m : Marker} {e : Node} (allowCall : Bool),
    InTextOrder c.tokens.toList → MarkerAt c.tokens m i₀ → Read c.tokens [e] i₀ i →
    Holds c (memberTail fuel m e allowCall) i fun n j => Read c.tokens [n] i₀ j
  arguments : ∀ {c : ParseContext} {i : Nat}, InTextOrder c.tokens.toList →
    Holds c (arguments fuel) i fun args j => i < j ∧ Read c.tokens args i j
  elementList : ∀ {c : ParseContext} {i : Nat} (close : String) (acc : Array Node),
    InTextOrder c.tokens.toList → Holds c (elementList fuel close acc) i (Extends c.tokens acc i)
  primary : ∀ {c : ParseContext} {i : Nat}, InTextOrder c.tokens.toList →
    Holds c (primary fuel) i fun n j => Read c.tokens [n] i j
  object : ∀ {c : ParseContext} {i : Nat}, InTextOrder c.tokens.toList →
    Holds c (object fuel) i fun n j => ReadAt c.tokens n i j
  propertyList : ∀ {c : ParseContext} {i : Nat} (acc : Array Node),
    InTextOrder c.tokens.toList → Holds c (propertyList fuel acc) i (Extends c.tokens acc i)
  property : ∀ {c : ParseContext} {i : Nat}, InTextOrder c.tokens.toList →
    Holds c (property fuel) i fun n j => ReadAt c.tokens n i j

/-- With no budget every function fails at once, so each guarantee holds. -/
lemma specs_zero : Specs 0 := by
  constructor <;> intros <;> exact holds_outOfBudget.2 trivial

/-! ## Accumulators -/

section Extends

variable {ts : Array Token} {acc acc' : Array Node} {n : Node} {i j k : Nat}

/-- A loop that stops at once returns its accumulator unchanged. -/
lemma Extends.refl (hi : i ≤ ts.size) : Extends ts acc i acc i :=
  ⟨[], by simp, Read.nil (Nat.le_refl i) hi⟩

/-- A loop that reads a node and goes on extends its accumulator by that node first. -/
lemma Extends.push (hn : Read ts [n] i k) (h : Extends ts (acc.push n) k acc' j) :
    Extends ts acc i acc' j := by
  obtain ⟨ns, hacc', hns⟩ := h
  refine ⟨n :: ns, by simp [hacc'], ?_⟩
  simpa using hn.append hns

lemma Extends.mono_left {i' : Nat} (hi : i' ≤ i) (h : Extends ts acc i acc' j) :
    Extends ts acc i' acc' j := by
  obtain ⟨ns, hacc', hns⟩ := h
  exact ⟨ns, hacc', hns.mono hi (Nat.le_refl j) hns.le_size⟩

/-- A loop started with nothing returns the nodes it read. -/
lemma Extends.read_of_empty (h : Extends ts #[] i acc' j) : Read ts acc'.toList i j := by
  obtain ⟨ns, hacc', hns⟩ := h
  simpa [hacc'] using hns

end Extends

variable {fuel : Nat} {c : ParseContext} {i : Nat}

/-! ## Statements -/

/-- `break` and `continue` are read exactly: the keyword, a label on the same line, and an
optional semicolon. -/
lemma holds_jump {kind : NodeKind} (hc : InTextOrder c.tokens.toList) (hi : i < c.tokens.size) :
    Holds c (jump kind) i fun n j => ReadAt c.tokens n i j := by
  unfold jump
  simp only [holds_bind, holds_skip, holds_peek]
  refine holds_marker fun m hm => ?_
  -- whatever the label, the statement ends with an optional semicolon
  have hrest : ∀ (label : Option Node) (k : Nat), Read c.tokens label.toList (i + 1) k →
      Holds c consumeSemicolon k fun _ l =>
        Holds c (finish kind m [("label", .ofOption label)]) l fun n j =>
          ReadAt c.tokens n i j := by
    intro label k hlabel
    refine holds_consumeSemicolon_le hlabel.le_size fun l hkl hl => ?_
    refine holds_finish_read hc hm (by have := hlabel.le; omega) ?_ fun n hn => hn
    simpa using hlabel.mono (Nat.le_succ i) hkl hl
  split
  · next t ht =>
    simp only [holds_bind]
    refine holds_newlineBefore fun b => ?_
    simp only [holds_ite, holds_bind, holds_skip, holds_pure]
    exact ⟨fun _ => hrest _ _ (readAt_identifierNode ht).read,
      fun _ => hrest none _ (Read.nil (Nat.le_refl _) (by omega))⟩
  · simp only [holds_bind, holds_pure]
    exact hrest none _ (Read.nil (Nat.le_refl _) hi)

/-- An optional expression, missing where `b` holds, is read from where it starts. -/
lemma holds_optionalExpression (ih : Specs fuel) (hc : InTextOrder c.tokens.toList)
    (hi : i ≤ c.tokens.size) (b : Bool) :
    Holds c (if b = true then pure none else some <$> expression fuel) i fun o j =>
      Read c.tokens o.toList i j := by
  cases b
  · simp only [Bool.false_eq_true, ↓reduceIte, holds_map, Option.toList_some]
    exact ih.expression hc
  · simpa using Read.nil (Nat.le_refl i) hi

/-- A statement is read exactly: every kind of statement starts at its first token. -/
lemma statement_step (ih : Specs fuel) (hc : InTextOrder c.tokens.toList) :
    Holds c (statement (fuel + 1)) i fun n j => ReadAt c.tokens n i j := by
  rw [statement, holds_nested]
  intro _
  rw [holds_bind, holds_peek]
  cases ht : c.tokens[i]? with
  | none => exact holds_failUnexpected.2 trivial
  | some tok =>
    have hi : i < c.tokens.size := (Array.getElem?_eq_some_iff.1 ht).1
    dsimp only
    refine holds_ite.2 ⟨fun _ => ih.block hc, fun _ => ?_⟩
    refine holds_ite.2 ⟨fun _ => ?_, fun _ => ?_⟩
    · -- an empty statement is its semicolon
      simp only [holds_bind, holds_skip]
      refine holds_marker fun m hm => ?_
      exact holds_finish_read hc hm (Nat.lt_succ_self i) (Read.nil (by omega) hi) fun n hn => hn
    refine holds_ite.2 ⟨fun _ => ?_, fun _ => ?_⟩
    · -- a variable declaration: its declarators, then an optional semicolon
      simp only [holds_bind]
      refine holds_marker fun m hm => ?_
      refine Holds.mono (ih.declarators hc) fun r k hrk => ?_
      obtain ⟨hik, hr⟩ := hrk
      refine holds_consumeSemicolon_le hr.le_size fun l hkl hl => ?_
      refine holds_finish_read hc hm (by omega) ?_ fun n hn => hn
      simpa using hr.mono (Nat.le_refl i) hkl hl
    refine holds_ite.2 ⟨fun _ => ih.function _ hc, fun _ => ?_⟩
    refine holds_ite.2 ⟨fun _ => ih.classDeclaration hc, fun _ => ?_⟩
    refine holds_ite.2 ⟨fun _ => ih.returnStatement hc hi, fun _ => ?_⟩
    refine holds_ite.2 ⟨fun _ => ih.ifStatement hc, fun _ => ?_⟩
    refine holds_ite.2 ⟨fun _ => ih.forStatement hc, fun _ => ?_⟩
    refine holds_ite.2 ⟨fun _ => ih.whileStatement hc, fun _ => ?_⟩
    refine holds_ite.2 ⟨fun _ => ih.doWhileStatement hc, fun _ => ?_⟩
    refine holds_ite.2 ⟨fun _ => ih.switchStatement hc, fun _ => ?_⟩
    refine holds_ite.2 ⟨fun _ => holds_jump hc hi, fun _ => ?_⟩
    refine holds_ite.2 ⟨fun _ => holds_jump hc hi, fun _ => ?_⟩
    refine holds_ite.2 ⟨fun _ => ?_, fun _ => ?_⟩
    · -- a throw statement: the keyword, its argument, an optional semicolon
      simp only [holds_bind, holds_skip]
      refine holds_marker fun m hm => ?_
      refine Holds.mono (ih.expression hc) fun e k he => ?_
      refine holds_consumeSemicolon_le he.le_size fun l hkl hl => ?_
      refine holds_finish_read hc hm (by have := he.lt_of_cons; omega) ?_ fun n hn => hn
      simpa using he.mono (Nat.le_succ i) hkl hl
    · -- an expression statement: the expression, then an optional semicolon
      simp only [holds_bind]
      refine holds_marker fun m hm => ?_
      refine Holds.mono (ih.expression hc) fun e k he => ?_
      refine holds_consumeSemicolon_le he.le_size fun l hkl hl => ?_
      refine holds_finish_read hc hm (by have := he.lt_of_cons; omega) ?_ fun n hn => hn
      simpa using he.mono (Nat.le_refl i) hkl hl

/-- A block is read exactly, from its opening brace to its closing one. -/
lemma block_step (ih : Specs fuel) (hc : InTextOrder c.tokens.toList) :
    Holds c (block (fuel + 1)) i fun n j => ReadAt c.tokens n i j := by
  rw [block]
  simp only [holds_bind, holds_expectPunct, holds_withAllowIn]
  refine holds_marker fun m hm => ?_
  intro _
  refine Holds.mono (ih.blockBody #[] hc) fun body j hbody => ?_
  intro hclose
  have hread := hbody.read_of_empty
  have hj := lt_size_of_any hclose
  refine holds_finish_read hc hm (by have := hread.le; omega) ?_ fun n hn => hn
  simpa using hread.mono (Nat.le_succ i) (Nat.le_succ j) hj

/-- The statements of a block are read one after another up to its closing brace. -/
lemma blockBody_step (ih : Specs fuel) (hc : InTextOrder c.tokens.toList) (acc : Array Node) :
    Holds c (blockBody (fuel + 1) acc) i (Extends c.tokens acc i) := by
  rw [blockBody]
  simp only [holds_bind, holds_atPunct, holds_peek, holds_ite, holds_pure, holds_failExpected]
  refine ⟨fun hclose => Extends.refl (lt_size_of_any hclose).le, fun _ => ⟨fun _ => trivial, ?_⟩⟩
  intro _
  refine Holds.mono (ih.statement hc) fun s j hs => ?_
  exact Holds.mono (ih.blockBody (acc.push s) hc) fun acc' k h => Extends.push hs.read h

/-- The declarators of a declaration follow its keyword. -/
lemma declarators_step (ih : Specs fuel) (hc : InTextOrder c.tokens.toList) :
    Holds c (declarators (fuel + 1)) i fun r j => i < j ∧ Read c.tokens r.2 i j := by
  rw [declarators]
  simp only [holds_bind, holds_bump, holds_pure]
  intro t _
  refine Holds.mono (ih.declaratorList #[] hc) fun ds j hdsj => ?_
  obtain ⟨hij, hds⟩ := hdsj
  have hread := hds.read_of_empty
  exact ⟨by omega, hread.mono (Nat.le_succ i) (Nat.le_refl j) hread.le_size⟩

/-- Declarators separated by commas: each is a name and an optional initialiser. -/
lemma declaratorList_step (ih : Specs fuel) (hc : InTextOrder c.tokens.toList)
    (acc : Array Node) :
    Holds c (declaratorList (fuel + 1) acc) i fun r j => i < j ∧ Extends c.tokens acc i r j := by
  rw [declaratorList]
  simp only [holds_bind, ite_bind_same]
  refine holds_marker fun m hm => ?_
  refine holds_bindingIdentifier fun id hid => ?_
  -- the initialiser, if any, follows an equals sign
  refine Holds.mono_bind (fun init k => Read c.tokens init.toList (i + 1) k) ?_
    fun init k hinit => ?_
  · simp only [holds_eatPunct]
    refine ⟨fun _ => ?_, fun _ => by simpa using Read.nil (Nat.le_refl _) hid.read.le_size⟩
    simp only [↓reduceIte, holds_map, Option.toList_some]
    exact Holds.mono (ih.assignment hc) fun a k ha => ha.mono (Nat.le_succ _) (Nat.le_refl k) ha.le_size
  refine holds_finish_read hc hm (by have := hinit.le; omega) (by simpa using hid.read.append hinit)
    fun d hd => ?_
  simp only [holds_eatPunct]
  refine ⟨fun _ => ?_, fun _ => ?_⟩
  · -- a comma: more declarators follow
    simp only [↓reduceIte]
    refine Holds.mono (ih.declaratorList (acc.push d) hc) fun r l hrl =>
      ⟨by have := hd.lt; omega, ?_⟩
    obtain ⟨_, hr⟩ := hrl
    exact Extends.push hd.read (hr.mono_left (Nat.le_succ k))
  · simp only [Bool.false_eq_true, ↓reduceIte, holds_pure]
    exact ⟨hd.lt, Extends.push hd.read (Extends.refl hd.read.le_size)⟩

/-- A `return` statement is read exactly: the keyword, an optional value, an optional
semicolon. -/
lemma returnStatement_step (ih : Specs fuel) (hc : InTextOrder c.tokens.toList)
    (hi : i < c.tokens.size) :
    Holds c (returnStatement (fuel + 1)) i fun n j => ReadAt c.tokens n i j := by
  rw [returnStatement]
  simp only [holds_bind, holds_skip, ite_bind_same]
  refine holds_marker fun m hm => ?_
  refine Holds.mono_bind (fun arg k => Read c.tokens arg.toList (i + 1) k)
    (holds_atStatementEnd fun b => holds_optionalExpression ih hc hi b) fun arg k harg => ?_
  refine holds_consumeSemicolon_le harg.le_size fun l hkl hl => ?_
  refine holds_finish_read hc hm (by have := harg.le; omega) ?_ fun n hn => hn
  simpa using harg.mono (Nat.le_succ i) hkl hl

/-- An `if` statement is read exactly: the keyword, the test, the branch, and the `else`
branch if there is one. -/
lemma ifStatement_step (ih : Specs fuel) (hc : InTextOrder c.tokens.toList) :
    Holds c (ifStatement (fuel + 1)) i fun n j => ReadAt c.tokens n i j := by
  rw [ifStatement]
  simp only [holds_bind, holds_skip, ite_bind_same]
  refine holds_marker fun m hm => ?_
  refine Holds.mono (ih.parenExpression hc) fun test j htest => ?_
  refine Holds.mono (ih.statement hc) fun cons k hcons => ?_
  refine Holds.mono_bind (fun alt l => Read c.tokens alt.toList k l) ?_ fun alt l halt => ?_
  · simp only [holds_eatKeyword]
    refine ⟨fun _ => ?_, fun _ => by simpa using Read.nil (Nat.le_refl _) hcons.read.le_size⟩
    simp only [↓reduceIte, holds_map, Option.toList_some]
    exact Holds.mono (ih.statement hc) fun s l hs =>
      hs.read.mono (Nat.le_succ k) (Nat.le_refl l) hs.read.le_size
  have := htest.le
  have := hcons.lt
  have := halt.le
  refine holds_finish_read hc hm (by omega) ?_ fun n hn => hn
  simpa using (htest.mono (Nat.le_succ i) (Nat.le_refl j) htest.le_size).append
    (hcons.read.append halt)

/-- The head of a `for` loop up to its first clause: nothing, a declaration, or an
expression, with `in` read as no operator. -/
lemma forInit_step (ih : Specs fuel) (hc : InTextOrder c.tokens.toList) :
    Holds c (forInit (fuel + 1)) i fun o j => Read c.tokens o.toList i j := by
  rw [forInit]
  simp only [holds_bind, holds_atPunct, holds_peek, holds_ite, holds_pure]
  refine ⟨fun hsemi => by simpa using Read.nil (Nat.le_refl i) (lt_size_of_any hsemi).le,
    fun _ => ?_⟩
  have hexpr : Holds c (some <$> withAllowIn false (expression fuel)) i fun o j =>
      Read c.tokens o.toList i j := by
    simp only [holds_map, holds_withAllowIn, Option.toList_some]
    exact ih.expression hc
  cases ht : c.tokens[i]? with
  | none => exact hexpr
  | some t =>
    dsimp only
    refine holds_ite.2 ⟨fun _ => ?_, fun _ => hexpr⟩
    simp only [holds_bind, holds_withAllowIn, holds_map]
    refine holds_marker fun m hm => ?_
    refine Holds.mono (ih.declarators hc) fun r j hrj => ?_
    obtain ⟨hij, hr⟩ := hrj
    exact holds_finish_read hc hm hij (by simpa using hr) fun n hn => by simpa using hn.read

/-- A `for` loop is read exactly: a `for`-`in` or `for`-`of` loop when a left side is
followed by `in` or `of`, a counted loop otherwise. -/
lemma forStatement_step (ih : Specs fuel) (hc : InTextOrder c.tokens.toList) :
    Holds c (forStatement (fuel + 1)) i fun n j => ReadAt c.tokens n i j := by
  rw [forStatement]
  simp only [holds_bind, holds_skip, holds_expectPunct, ite_bind_same, ← bind_assoc]
  refine holds_marker fun m hm => ?_
  intro _
  refine Holds.mono (ih.forInit hc) fun init j hinit => ?_
  simp only [holds_atKeyword, holds_atIdentifier]
  -- which loop it is depends only on the token after the left side, which stays unread
  refine Holds.mono (Q := fun _ k => k = j) ?_ ?_
  · simp
  rintro each _ rfl
  split
  · next kind left =>
    have hleft := hinit.mono_left (Nat.le_add_right i 2)
    simp only [Option.toList_some] at hleft
    exact ih.forEach hc hm hleft
  · -- a counted loop: the test and the update are optional
    simp only [holds_bind, holds_expectPunct, holds_atPunct]
    intro hsemi
    refine Holds.mono (holds_optionalExpression ih hc (lt_size_of_any hsemi) _)
      fun test k htest => ?_
    intro hsemi'
    refine Holds.mono (holds_optionalExpression ih hc (lt_size_of_any hsemi') _)
      fun update l hupdate => ?_
    intro _
    refine Holds.mono (ih.statement hc) fun body n hbody => ?_
    have := hinit.le
    have := htest.le
    have := hupdate.le
    have := hbody.lt
    have hch : Read c.tokens (init.toList ++ (test.toList ++ (update.toList ++ [body]))) i n :=
      (hinit.mono_left (by omega)).append_of_le
        (htest.append_of_le (hupdate.append_of_le hbody.read (by omega)) (by omega)) (by omega)
    exact holds_finish_read hc hm (by omega) (by simpa using hch) fun n hn => hn

/-- The rest of a `for`-`in` or `for`-`of` loop after its left side: the keyword, the right
side, the closing parenthesis and the body. -/
lemma forEach_step (ih : Specs fuel) (hc : InTextOrder c.tokens.toList) {i₀ : Nat}
    {m : Marker} {kind : NodeKind} {left : Node} (hm : MarkerAt c.tokens m i₀)
    (hleft : Read c.tokens [left] i₀ i) :
    Holds c (forEach (fuel + 1) m kind left) i fun n j => ReadAt c.tokens n i₀ j := by
  rw [forEach]
  simp only [holds_bind, holds_skip, holds_expectPunct, ite_bind_same]
  refine Holds.mono (Q := fun right k => Read c.tokens [right] (i + 1) k) ?_
    fun right k hright => ?_
  · split
    · exact ih.expression hc
    · exact ih.assignment hc
  intro _
  refine Holds.mono (ih.statement hc) fun body j hbody => ?_
  have := hleft.lt_of_cons
  have := hright.le
  have := hbody.lt
  have hch : Read c.tokens [left, right, body] i₀ j :=
    hleft.append_of_le (hright.append_of_le hbody.read (Nat.le_succ k)) (Nat.le_succ i)
  exact holds_finish_read hc hm (by omega) (by simpa using hch) fun n hn => hn

/-- A `while` loop is read exactly: the keyword, the test and the body. -/
lemma whileStatement_step (ih : Specs fuel) (hc : InTextOrder c.tokens.toList) :
    Holds c (whileStatement (fuel + 1)) i fun n j => ReadAt c.tokens n i j := by
  rw [whileStatement]
  simp only [holds_bind, holds_skip]
  refine holds_marker fun m hm => ?_
  refine Holds.mono (ih.parenExpression hc) fun test j htest => ?_
  refine Holds.mono (ih.statement hc) fun body k hbody => ?_
  have := htest.le
  have := hbody.lt
  have hch : Read c.tokens [test, body] i k := (htest.mono_left (Nat.le_succ i)).append hbody.read
  exact holds_finish_read hc hm (by omega) (by simpa using hch) fun n hn => hn

/-- A `do`-`while` loop is read exactly, with its optional semicolon. -/
lemma doWhileStatement_step (ih : Specs fuel) (hc : InTextOrder c.tokens.toList) :
    Holds c (doWhileStatement (fuel + 1)) i fun n j => ReadAt c.tokens n i j := by
  rw [doWhileStatement]
  simp only [holds_bind, holds_skip, holds_expectKeyword]
  refine holds_marker fun m hm => ?_
  refine Holds.mono (ih.statement hc) fun body j hbody => ?_
  intro _
  refine Holds.mono (ih.parenExpression hc) fun test k htest => ?_
  have := hbody.lt
  have := htest.le
  have hch : Read c.tokens [body, test] i k :=
    (hbody.read.mono_left (Nat.le_succ i)).append_of_le htest (Nat.le_succ j)
  simp only [holds_eatPunct]
  refine ⟨fun hsemi => ?_, fun _ => ?_⟩
  · have hk := lt_size_of_any hsemi
    exact holds_finish_read hc hm (by omega) (by simpa using hch.mono (Nat.le_refl i) (Nat.le_succ k) hk)
      fun n hn => hn
  · exact holds_finish_read hc hm (by omega) (by simpa using hch) fun n hn => hn

/-- A `switch` statement is read exactly: the keyword, the discriminant and the braced
cases. -/
lemma switchStatement_step (ih : Specs fuel) (hc : InTextOrder c.tokens.toList) :
    Holds c (switchStatement (fuel + 1)) i fun n j => ReadAt c.tokens n i j := by
  rw [switchStatement]
  simp only [holds_bind, holds_skip, holds_expectPunct]
  refine holds_marker fun m hm => ?_
  refine Holds.mono (ih.parenExpression hc) fun disc j hdisc => ?_
  intro _
  refine Holds.mono (ih.switchCases #[] hc) fun cases k hcases => ?_
  intro hclose
  have hk := lt_size_of_any hclose
  have hread := hcases.read_of_empty
  have := hdisc.le
  have := hread.le
  have hch : Read c.tokens (disc :: cases.toList) i (k + 1) :=
    ((hdisc.mono_left (Nat.le_succ i)).append_of_le hread (Nat.le_succ j)).mono (Nat.le_refl i)
      (Nat.le_succ k) hk
  exact holds_finish_read hc hm (by omega) (by simpa using hch) fun n hn => hn

/-- The cases of a `switch` are read one after another up to its closing brace; each is
read exactly, from `case` or `default` to its last statement. -/
lemma switchCases_step (ih : Specs fuel) (hc : InTextOrder c.tokens.toList)
    (acc : Array Node) : Holds c (switchCases (fuel + 1) acc) i (Extends c.tokens acc i) := by
  rw [switchCases]
  simp only [holds_bind, holds_atPunct, ite_bind_same, ← bind_assoc]
  refine holds_ite.2 ⟨fun hclose => holds_pure.2 (Extends.refl (lt_size_of_any hclose).le),
    fun _ => ?_⟩
  simp only [holds_bind]
  refine holds_marker fun m hm => ?_
  -- the test of a case; `default` has none
  refine Holds.mono_bind (fun (test : Option Node) k => i < k ∧ Read c.tokens test.toList i k) ?_
    fun test k htk => ?_
  · simp only [holds_eatKeyword]
    refine ⟨fun _ => ?_, fun _ => ?_⟩
    · simp only [↓reduceIte, holds_map, Option.toList_some]
      exact Holds.mono (ih.expression hc) fun e k he =>
        ⟨by have := he.lt_of_cons; omega, he.mono_left (Nat.le_succ i)⟩
    · simp only [Bool.false_eq_true, ↓reduceIte, holds_bind, holds_eatKeyword]
      refine ⟨fun hdefault => ?_, fun _ => by simp⟩
      simpa using Read.nil (Nat.le_succ i) (lt_size_of_any hdefault)
  obtain ⟨hik, htest⟩ := htk
  simp only [holds_expectPunct]
  intro _
  refine Holds.mono (ih.caseBody #[] hc) fun body l hbody => ?_
  have hread := hbody.read_of_empty
  have := hread.le
  refine holds_finish_read hc hm (by omega)
    (by simpa using htest.append_of_le hread (Nat.le_succ k)) fun sc hsc => ?_
  exact Holds.mono (ih.switchCases (acc.push sc) hc) fun acc' n h => Extends.push hsc.read h

/-- The statements of a case are read one after another up to the next case or the closing
brace. -/
lemma caseBody_step (ih : Specs fuel) (hc : InTextOrder c.tokens.toList) (acc : Array Node) :
    Holds c (caseBody (fuel + 1) acc) i (Extends c.tokens acc i) := by
  rw [caseBody]
  simp only [holds_bind, holds_atPunct, holds_atKeyword, holds_peek, holds_ite, holds_pure,
    holds_failExpected]
  refine ⟨fun hend => Extends.refl ?_, fun _ => ⟨fun _ => trivial, fun _ => ?_⟩⟩
  · simp only [Bool.or_eq_true] at hend
    rcases hend with (h | h) | h <;> exact (lt_size_of_any h).le
  refine Holds.mono (ih.statement hc) fun s j hs => ?_
  exact Holds.mono (ih.caseBody (acc.push s) hc) fun acc' k h => Extends.push hs.read h

/-! ## Functions and classes -/

/-- A function is read exactly: the keyword, the name (required of a declaration), the
parameters and the body. -/
lemma function_step (ih : Specs fuel) (hc : InTextOrder c.tokens.toList) (kind : NodeKind) :
    Holds c (function (fuel + 1) kind) i fun n j => ReadAt c.tokens n i j := by
  rw [function]
  simp only [holds_bind, holds_expectKeyword, holds_peek, ite_bind_same, ← bind_assoc]
  refine holds_marker fun m hm => ?_
  intro hfun
  have hi := lt_size_of_any hfun
  -- with a name or without, the parameters and the body follow
  have hrest : ∀ (id : Option Node) (k : Nat), Read c.tokens id.toList (i + 1) k →
      Holds c (params fuel) k fun ps l => Holds c (block fuel) l fun body n =>
        Holds c (finish kind m [("id", .ofOption id), ("params", .list ps), ("body", .node body)])
          n fun n j => ReadAt c.tokens n i j := by
    intro id k hid
    refine Holds.mono (ih.params hc) fun ps l hpsl => ?_
    obtain ⟨_, hps⟩ := hpsl
    refine Holds.mono (ih.block hc) fun body n hbody => ?_
    have := hid.le
    have := hbody.lt
    have hch := (hid.mono_left (Nat.le_succ i)).append (hps.append hbody.read)
    exact holds_finish_read hc hm (by omega) (by simpa using hch) fun n hn => hn
  split
  · next t ht =>
    simp only [holds_bind, holds_ite, holds_skip, holds_pure, holds_failExpected]
    exact ⟨fun _ => hrest _ _ (readAt_identifierNode ht).read,
      fun _ => ⟨fun _ => trivial, fun _ => hrest none _ (Read.nil (Nat.le_refl _) hi)⟩⟩
  · simp only [holds_bind, holds_ite, holds_pure, holds_failExpected]
    exact ⟨fun _ => trivial, fun _ => hrest none _ (Read.nil (Nat.le_refl _) hi)⟩

/-- The parameters and body of a method are read exactly, as a function expression. -/
lemma methodFunction_step (ih : Specs fuel) (hc : InTextOrder c.tokens.toList) :
    Holds c (methodFunction (fuel + 1)) i fun n j => ReadAt c.tokens n i j := by
  rw [methodFunction]
  simp only [holds_bind]
  refine holds_marker fun m hm => ?_
  refine Holds.mono (ih.params hc) fun ps j hpsj => ?_
  obtain ⟨hij, hps⟩ := hpsj
  refine Holds.mono (ih.block hc) fun body k hbody => ?_
  have := hbody.lt
  exact holds_finish_read hc hm (by omega) (by simpa using hps.append hbody.read) fun n hn => hn

/-- A parameter list is read between its parentheses. -/
lemma params_step (ih : Specs fuel) (hc : InTextOrder c.tokens.toList) :
    Holds c (params (fuel + 1)) i fun ps j => i < j ∧ Read c.tokens ps i j := by
  rw [params]
  simp only [holds_bind, holds_expectPunct, holds_pure]
  intro _
  refine Holds.mono (ih.paramList #[] hc) fun ps j hps => ?_
  have hread := hps.read_of_empty
  exact ⟨by have := hread.le; omega, hread.mono_left (Nat.le_succ i)⟩

/-- Parameters are read one after another up to the closing parenthesis; each is read
exactly: a name, a name with a default, or a rest parameter. -/
lemma paramList_step (ih : Specs fuel) (hc : InTextOrder c.tokens.toList) (acc : Array Node) :
    Holds c (paramList (fuel + 1) acc) i (Extends c.tokens acc i) := by
  rw [paramList]
  simp only [holds_bind, holds_eatPunct, ite_bind_same, ← bind_assoc]
  refine ⟨fun hclose => ?_, fun _ => ?_⟩
  · simpa using (Extends.refl (lt_size_of_any hclose)).mono_left (Nat.le_succ i)
  simp only [Bool.false_eq_true, ↓reduceIte, holds_bind]
  refine holds_marker fun m hm => ?_
  refine Holds.mono_bind (fun param k => ReadAt c.tokens param i k) ?_ fun param k hparam => ?_
  · simp only [holds_eatPunct]
    refine ⟨fun _ => ?_, fun _ => ?_⟩
    · -- a rest parameter
      simp only [↓reduceIte, holds_bind]
      refine holds_bindingIdentifier fun arg harg => ?_
      exact holds_finish_read hc hm (by omega) (by simpa using harg.read.mono_left (Nat.le_succ i))
        fun n hn => hn
    · simp only [Bool.false_eq_true, ↓reduceIte, holds_bind]
      refine holds_bindingIdentifier fun left hleft => ?_
      simp only [holds_eatPunct]
      refine ⟨fun _ => ?_, fun _ => ?_⟩
      · -- a name with a default value
        simp only [↓reduceIte, holds_bind, holds_withAllowIn]
        refine Holds.mono (ih.assignment hc) fun right k hright => ?_
        have := hright.le
        exact holds_finish_read hc hm (by omega)
          (by simpa using hleft.read.append_of_le hright (Nat.le_succ _)) fun n hn => hn
      · simpa using hleft
  simp only [holds_atPunct, holds_ite, holds_bind, holds_expectPunct]
  refine ⟨fun _ => Holds.mono (ih.paramList (acc.push param) hc) fun acc' l h =>
      Extends.push hparam.read h,
    fun _ hcomma => Holds.mono (ih.paramList (acc.push param) hc) fun acc' l h =>
      Extends.push hparam.read (h.mono_left (Nat.le_succ k))⟩

/-- A class declaration is read exactly: the keyword, the name, an optional superclass and
the braced body, itself read exactly from its opening brace. -/
lemma classDeclaration_step (ih : Specs fuel) (hc : InTextOrder c.tokens.toList) :
    Holds c (classDeclaration (fuel + 1)) i fun n j => ReadAt c.tokens n i j := by
  rw [classDeclaration]
  simp only [holds_bind, holds_skip, ite_bind_same, ← bind_assoc]
  refine holds_marker fun m hm => ?_
  refine holds_bindingIdentifier fun id hid => ?_
  refine Holds.mono_bind (fun sup k => Read c.tokens sup.toList (i + 2) k) ?_ fun sup k hsup => ?_
  · simp only [holds_eatKeyword]
    refine ⟨fun _ => ?_, fun _ => by simpa using Read.nil (Nat.le_refl _) hid.read.le_size⟩
    simp only [↓reduceIte, holds_map, Option.toList_some]
    exact Holds.mono (ih.leftHandSide hc) fun e l he => he.mono_left (Nat.le_succ _)
  refine holds_marker fun bm hbm => ?_
  simp only [holds_expectPunct]
  intro hopen
  refine Holds.mono (ih.classMembers #[] hc) fun members l hmembers => ?_
  have hread := hmembers.read_of_empty
  have := hread.le
  refine holds_finish_read hc hbm (by omega) ?_ fun body hbody => ?_
  · simpa using hread.mono_left (Nat.le_succ k)
  have := hsup.le
  exact holds_finish_read hc hm (by omega)
    (by simpa using (hid.read.mono_left (Nat.le_succ i)).append (hsup.append hbody.read))
    fun n hn => hn

/-- Class members are read one after another up to the closing brace; semicolons between
them make no node. -/
lemma classMembers_step (ih : Specs fuel) (hc : InTextOrder c.tokens.toList)
    (acc : Array Node) : Holds c (classMembers (fuel + 1) acc) i (Extends c.tokens acc i) := by
  rw [classMembers]
  simp only [holds_bind, holds_eatPunct]
  refine ⟨fun _ => ?_, fun _ => ?_⟩
  · -- a semicolon between members makes no node
    simp only [↓reduceIte]
    exact Holds.mono (ih.classMembers acc hc) fun acc' j h => h.mono_left (Nat.le_succ i)
  simp only [Bool.false_eq_true, ↓reduceIte, holds_bind, holds_eatPunct]
  refine ⟨fun hclose => ?_, fun _ => ?_⟩
  · simpa using (Extends.refl (lt_size_of_any hclose)).mono_left (Nat.le_succ i)
  refine Holds.mono (ih.classMember hc) fun member j hmember => ?_
  exact Holds.mono (ih.classMembers (acc.push member) hc) fun acc' k h =>
    Extends.push hmember.read h

/-- A method of a class is read exactly: `static`, an accessor prefix, the key, the
parameters and the body. -/
lemma classMember_step (ih : Specs fuel) (hc : InTextOrder c.tokens.toList) :
    Holds c (classMember (fuel + 1)) i fun n j => ReadAt c.tokens n i j := by
  rw [classMember]
  simp only [holds_bind, holds_atIdentifier, holds_peekAtPunct, ite_bind_same, ← bind_assoc]
  refine holds_marker fun m hm => ?_
  -- `static` and an accessor prefix are read when they are no names themselves
  refine Holds.mono (Q := fun _ k => i ≤ k) ?_ fun _ k hk => ?_
  · refine holds_ite.2 ⟨fun _ => ?_, fun _ => ?_⟩
    · simp only [holds_bind, holds_skip]
      exact holds_accessorPrefix (Nat.le_succ i) fun _ _ => by omega
    · exact holds_accessorPrefix (Nat.le_refl i) fun _ _ => Nat.le_succ i
  refine Holds.mono (ih.propertyKey hc) fun key l hkey => ?_
  refine Holds.mono (ih.methodFunction hc) fun value j hvalue => ?_
  have := hvalue.lt
  have := hkey.le
  exact holds_finish_read hc hm (by omega) (by simpa using (hkey.mono_left hk).append hvalue.read)
    fun n hn => hn

end Parse

end DotLint
