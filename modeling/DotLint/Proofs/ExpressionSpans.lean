import Mathlib.Tactic.Lemma
import DotLint.Proofs.GrammarSpans

/-!
# Expressions read what they return

The expression half of the step from `Specs fuel` to `Specs (fuel + 1)`: one lemma per
function of the grammar, each proved from the guarantees of the functions it calls.

Most expression functions return a node read from somewhere inside the tokens they moved
over, not exactly them: a parenthesised expression returns its inner node, and the
functions above it pass that node on when no operator follows. Member accesses, calls and
binary operators build their node from the marker their caller took at the first token of
the left operand, so that node starts before the tokens the function itself reads; their
guarantee is stated from the marker's index on.
-/

namespace DotLint

namespace Parse

variable {fuel : Nat} {c : ParseContext} {i : Nat}

/-! ## Keys and sequences -/

/-- A property key is one token, or an expression in brackets. -/
lemma propertyKey_step (ih : Specs fuel) (hc : InTextOrder c.tokens.toList) :
    Holds c (propertyKey (fuel + 1)) i fun r j => Read c.tokens [r.1] i j := by
  rw [propertyKey]
  simp only [holds_bind, holds_eatPunct]
  refine ⟨fun _ => ?_, fun _ => ?_⟩
  · -- a computed key, in brackets
    simp only [↓reduceIte, holds_bind, holds_withAllowIn, holds_expectPunct, holds_pure]
    refine Holds.mono (ih.assignment hc) fun key j hkey hclose => ?_
    exact hkey.mono (Nat.le_succ i) (Nat.le_succ j) (lt_size_of_any hclose)
  simp only [Bool.false_eq_true, ↓reduceIte, holds_bind, holds_peek]
  cases ht : c.tokens[i]? with
  | none => exact holds_failUnexpected.2 trivial
  | some tok =>
    dsimp only
    -- numbers and strings are literal keys, punctuators fail, every other token is a name
    cases hk : tok.kind <;> simp only [holds_bind, holds_skip, holds_pure, holds_failUnexpected]
    case numeric | string => exact (readAt_literalNode ht).read
    all_goals exact (readAt_identifierNode ht).read

/-- An expression is an assignment, or assignments separated by commas read exactly as a
sequence. -/
lemma expression_step (ih : Specs fuel) (hc : InTextOrder c.tokens.toList) :
    Holds c (expression (fuel + 1)) i fun n j => Read c.tokens [n] i j := by
  rw [expression]
  simp only [holds_bind, holds_atPunct]
  refine holds_marker fun m hm => ?_
  refine Holds.mono (ih.assignment hc) fun first j hfirst => ?_
  refine holds_ite.2 ⟨fun _ => holds_pure.2 hfirst, fun _ => ?_⟩
  simp only [holds_bind]
  refine Holds.mono (ih.sequenceRest #[first] hc hfirst.le_size) fun all k hall => ?_
  obtain ⟨ns, hall_eq, hns⟩ := hall
  have := hfirst.lt_of_cons
  have := hns.le
  refine holds_finish_read hc hm (by omega) ?_ fun n hn => hn.read
  simpa [hall_eq] using hfirst.append hns

/-- The further members of a sequence are read one after another, each after a comma. -/
lemma sequenceRest_step (ih : Specs fuel) (hc : InTextOrder c.tokens.toList) (acc : Array Node)
    (hi : i ≤ c.tokens.size) :
    Holds c (sequenceRest (fuel + 1) acc) i (Extends c.tokens acc i) := by
  rw [sequenceRest]
  simp only [holds_bind, holds_eatPunct]
  refine ⟨fun _ => ?_, fun _ => ?_⟩
  · simp only [↓reduceIte, holds_bind]
    refine Holds.mono (ih.assignment hc) fun e j he => ?_
    exact Holds.mono (ih.sequenceRest (acc.push e) hc he.le_size) fun acc' k h =>
      Extends.push (he.mono_left (Nat.le_succ i)) h
  · simpa using Extends.refl hi

/-- A parenthesised expression returns the node inside the parentheses. -/
lemma parenExpression_step (ih : Specs fuel) (hc : InTextOrder c.tokens.toList) :
    Holds c (parenExpression (fuel + 1)) i fun n j => Read c.tokens [n] i j := by
  rw [parenExpression]
  simp only [holds_bind, holds_expectPunct, holds_withAllowIn, holds_pure]
  intro _
  refine Holds.mono (ih.expression hc) fun e j he hclose => ?_
  exact he.mono (Nat.le_succ i) (Nat.le_succ j) (lt_size_of_any hclose)

/-! ## Assignments and operators -/

/-- An assignment is an arrow function, a conditional expression, or a target, an operator
and a value read exactly from the target on. -/
lemma assignment_step (ih : Specs fuel) (hc : InTextOrder c.tokens.toList) :
    Holds c (assignment (fuel + 1)) i fun n j => Read c.tokens [n] i j := by
  rw [assignment, holds_nested]
  intro _
  simp only [holds_bind]
  refine holds_isArrowStart fun b => ?_
  refine holds_ite.2 ⟨fun _ => Holds.mono (ih.arrow hc) fun n j hn => hn.read, fun _ => ?_⟩
  simp only [holds_bind, holds_peek]
  refine holds_marker fun m hm => ?_
  refine Holds.mono (ih.conditional hc) fun left j hleft => ?_
  cases ht : c.tokens[j]? with
  | none => exact holds_pure.2 hleft
  | some tok =>
    dsimp only
    refine holds_ite.2 ⟨fun _ => ?_, fun _ => holds_pure.2 hleft⟩
    -- a target that is neither a name nor a member access is refused
    simp only [holds_ite, holds_bind, holds_throw, holds_skip]
    refine ⟨fun _ => ?_, fun _ => trivial⟩
    refine Holds.mono (ih.assignment hc) fun right k hright => ?_
    have := hleft.lt_of_cons
    have := hright.le
    exact holds_finish_read hc hm (by omega)
      (by simpa using hleft.append_of_le hright (Nat.le_succ j)) fun n hn => hn.read

/-- An arrow function is read exactly: its parameters, the arrow, and a block or an
expression. -/
lemma arrow_step (ih : Specs fuel) (hc : InTextOrder c.tokens.toList) :
    Holds c (arrow (fuel + 1)) i fun n j => ReadAt c.tokens n i j := by
  rw [arrow]
  simp only [holds_bind, ite_bind_same, ← bind_assoc]
  refine holds_marker fun m hm => ?_
  refine Holds.mono_bind (fun ps j => i < j ∧ Read c.tokens ps i j) ?_ fun ps j hpsj => ?_
  · simp only [holds_atPunct]
    refine holds_ite.2 ⟨fun _ => ih.params hc, fun _ => ?_⟩
    simp only [holds_map]
    exact holds_bindingIdentifier fun p hp => ⟨Nat.lt_succ_self i, hp.read⟩
  obtain ⟨hij, hps⟩ := hpsj
  simp only [holds_expectPunct]
  intro _
  refine Holds.mono_bind (fun (r : Node × Bool) l => Read c.tokens [r.1] (j + 1) l) ?_
    fun r l hr => ?_
  · simp only [holds_atPunct]
    refine holds_ite.2 ⟨fun _ => ?_, fun _ => ?_⟩
    · simp only [holds_map]
      exact Holds.mono (ih.block hc) fun b l hb => hb.read
    · simp only [holds_map]
      exact ih.assignment hc
  obtain ⟨body, isExpression⟩ := r
  have := hr.le
  exact holds_finish_read hc hm (by omega)
    (by simpa using hps.append_of_le hr (Nat.le_succ j)) fun n hn => hn

/-- A conditional expression is its test, or the test, `?`, two branches and `:` read
exactly from the test on. -/
lemma conditional_step (ih : Specs fuel) (hc : InTextOrder c.tokens.toList) :
    Holds c (conditional (fuel + 1)) i fun n j => Read c.tokens [n] i j := by
  rw [conditional]
  simp only [holds_bind]
  refine holds_marker fun m hm => ?_
  refine Holds.mono (ih.binary 1 hc) fun test j htest => ?_
  simp only [holds_eatPunct]
  refine ⟨fun _ => ?_, fun _ => by simpa using htest⟩
  simp only [Bool.not_true, Bool.false_eq_true, ↓reduceIte, holds_bind, holds_withAllowIn,
    holds_expectPunct]
  refine Holds.mono (ih.assignment hc) fun cons k hcons hcolon => ?_
  refine Holds.mono (ih.assignment hc) fun alt l halt => ?_
  have := htest.lt_of_cons
  have := hcons.le
  have := halt.le
  have hch := htest.append_of_le (hcons.append_of_le halt (Nat.le_succ k)) (Nat.le_succ j)
  exact holds_finish_read hc hm (by omega) (by simpa using hch) fun n hn => hn.read

/-- Operands joined by binary operators start at the first operand. -/
lemma binary_step (ih : Specs fuel) (hc : InTextOrder c.tokens.toList) (minPrec : Nat) :
    Holds c (binary (fuel + 1) minPrec) i fun n j => Read c.tokens [n] i j := by
  rw [binary]
  simp only [holds_bind]
  refine holds_marker fun m hm => ?_
  refine Holds.mono (ih.unary hc) fun left j hleft => ?_
  exact ih.binaryRest minPrec hc hm hleft

/-- Each operator extends the left operand, which started at the marker's token, into a
node read exactly from that token. -/
lemma binaryRest_step (ih : Specs fuel) (hc : InTextOrder c.tokens.toList) (minPrec : Nat)
    {i₀ : Nat} {m : Marker} {left : Node} (hm : MarkerAt c.tokens m i₀)
    (hleft : Read c.tokens [left] i₀ i) :
    Holds c (binaryRest (fuel + 1) minPrec m left) i fun n j => Read c.tokens [n] i₀ j := by
  rw [binaryRest]
  simp only [holds_bind]
  refine holds_binaryOperator (holds_pure.2 hleft) fun op prec _ => ?_
  dsimp only
  refine holds_ite.2 ⟨fun _ => holds_pure.2 hleft, fun _ => ?_⟩
  simp only [holds_bind, holds_skip]
  refine Holds.mono (ih.binary _ hc) fun right j hright => ?_
  have := hleft.lt_of_cons
  have := hright.le
  refine holds_finish_read hc hm (by omega)
    (by simpa using hleft.append_of_le hright (Nat.le_succ i)) fun node hnode => ?_
  exact ih.binaryRest minPrec hc hm hnode.read

/-- A unary expression is a prefix operator and its operand, or a left-hand side with an
optional postfix `++` or `--` on its line; the operator expressions are read exactly. -/
lemma unary_step (ih : Specs fuel) (hc : InTextOrder c.tokens.toList) :
    Holds c (unary (fuel + 1)) i fun n j => Read c.tokens [n] i j := by
  rw [unary, holds_nested]
  intro _
  simp only [holds_bind, holds_peek]
  refine holds_marker fun m hm => ?_
  cases ht : c.tokens[i]? with
  | none => exact holds_failUnexpected.2 trivial
  | some tok =>
    dsimp only
    refine holds_ite.2 ⟨fun _ => ?_, fun _ => holds_ite.2 ⟨fun _ => ?_, fun _ => ?_⟩⟩
    · -- a prefix operator
      simp only [holds_bind, holds_skip]
      refine Holds.mono (ih.unary hc) fun arg j harg => ?_
      have := harg.lt_of_cons
      exact holds_finish_read hc hm (by omega)
        (by simpa using harg.mono_left (Nat.le_succ i)) fun n hn => hn.read
    · -- a prefix `++` or `--`
      simp only [holds_bind, holds_skip]
      refine Holds.mono (ih.unary hc) fun arg j harg => ?_
      have := harg.lt_of_cons
      exact holds_finish_read hc hm (by omega)
        (by simpa using harg.mono_left (Nat.le_succ i)) fun n hn => hn.read
    · -- a postfix operator counts only on the line of its operand
      simp only [holds_bind, holds_peek]
      refine Holds.mono (ih.leftHandSide hc) fun e j he => ?_
      cases ht' : c.tokens[j]? with
      | none => exact holds_pure.2 he
      | some t =>
        dsimp only
        simp only [holds_bind]
        refine holds_newlineBefore fun b => ?_
        refine holds_ite.2 ⟨fun _ => ?_, fun _ => holds_pure.2 he⟩
        simp only [holds_bind, holds_skip]
        have hj : j < c.tokens.size := (Array.getElem?_eq_some_iff.1 ht').1
        have := he.lt_of_cons
        exact holds_finish_read hc hm (by omega)
          (by simpa using he.mono (Nat.le_refl i) (Nat.le_succ j) hj) fun n hn => hn.read

/-! ## Member accesses, calls and `new` -/

/-- A left-hand side is a primary or `new` expression extended by member accesses and calls,
all of which start at its first token. -/
lemma leftHandSide_step (ih : Specs fuel) (hc : InTextOrder c.tokens.toList) :
    Holds c (leftHandSide (fuel + 1)) i fun n j => Read c.tokens [n] i j := by
  rw [leftHandSide]
  simp only [holds_bind, ite_bind_same, holds_atKeyword]
  refine holds_marker fun m hm => ?_
  refine Holds.mono (Q := fun e j => Read c.tokens [e] i j) ?_ fun e j he =>
    ih.memberTail true hc hm he
  exact holds_ite.2 ⟨fun _ => Holds.mono (ih.newExpression hc) fun n j hn => hn.read,
    fun _ => ih.primary hc⟩

/-- A `new` expression is read exactly: the keyword, the callee with its member accesses,
and the arguments if there are any. -/
lemma newExpression_step (ih : Specs fuel) (hc : InTextOrder c.tokens.toList) :
    Holds c (newExpression (fuel + 1)) i fun n j => ReadAt c.tokens n i j := by
  rw [newExpression, holds_nested]
  intro _
  simp only [holds_bind, holds_skip, holds_atKeyword, holds_atPunct, ite_bind_same]
  refine holds_marker fun m hm => ?_
  refine holds_marker fun cm hcm => ?_
  refine Holds.mono (Q := fun e j => Read c.tokens [e] (i + 1) j) ?_ fun e j he => ?_
  · exact holds_ite.2 ⟨fun _ => Holds.mono (ih.newExpression hc) fun n j hn => hn.read,
      fun _ => ih.primary hc⟩
  refine Holds.mono (ih.memberTail false hc hcm he) fun callee k hcallee => ?_
  refine Holds.mono (Q := fun args l => Read c.tokens args k l) ?_ fun args l hargs => ?_
  · exact holds_ite.2 ⟨fun _ => Holds.mono (ih.arguments hc) fun _ _ h => h.2,
      fun _ => holds_pure.2 (Read.nil (Nat.le_refl k) hcallee.le_size)⟩
  have := hcallee.lt_of_cons
  have := hargs.le
  exact holds_finish_read hc hm (by omega)
    (by simpa using (hcallee.mono_left (Nat.le_succ i)).append hargs) fun n hn => hn

/-- Member accesses and calls extend `e`, which started at the marker's token, each into a
node read exactly from that token. -/
lemma memberTail_step (ih : Specs fuel) (hc : InTextOrder c.tokens.toList) {i₀ : Nat}
    {m : Marker} {e : Node} (allowCall : Bool) (hm : MarkerAt c.tokens m i₀)
    (he : Read c.tokens [e] i₀ i) :
    Holds c (memberTail (fuel + 1) m e allowCall) i fun n j => Read c.tokens [n] i₀ j := by
  rw [memberTail]
  have := he.lt_of_cons
  -- each access finishes a node at the marker and goes on from it
  have hnext : ∀ (kind : NodeKind) (fields : List (String × Field Node)) (j : Nat),
      i₀ < j → Read c.tokens (fields.flatMap (·.2.nodes)) i₀ j →
      Holds c (finish kind m fields) j fun n k =>
        Holds c (memberTail fuel m n allowCall) k fun n j => Read c.tokens [n] i₀ j :=
    fun kind fields j hj hch => holds_finish_read hc hm hj hch
      fun n hn => ih.memberTail allowCall hc hm hn.read
  simp only [holds_bind, holds_eatPunct, member]
  refine ⟨fun _ => ?_, fun _ => ?_⟩
  · -- `.` and a name
    simp only [↓reduceIte, holds_bind]
    refine holds_identifierName fun p hp => ?_
    have hch := he.append_of_le hp.read (Nat.le_succ i)
    exact hnext _ _ _ hch.lt_of_cons (by simpa using hch)
  simp only [Bool.false_eq_true, ↓reduceIte, holds_bind, holds_atPunct]
  refine holds_ite.2 ⟨fun hopt => ?_, fun _ => ?_⟩
  · -- `?.` and a call, a computed member or a name
    have hi := lt_size_of_any hopt
    simp only [holds_bind, holds_skip, holds_atPunct]
    refine holds_ite.2 ⟨fun _ => ?_, fun _ => ?_⟩
    · simp only [holds_bind]
      refine Holds.mono (ih.arguments hc) fun args j hargsj => ?_
      obtain ⟨_, hargs⟩ := hargsj
      have hch := he.append_of_le hargs (Nat.le_succ i)
      exact hnext _ _ _ hch.lt_of_cons (by simpa using hch)
    simp only [holds_bind, holds_eatPunct]
    refine ⟨fun _ => ?_, fun _ => ?_⟩
    · simp only [↓reduceIte, holds_bind, holds_withAllowIn, holds_expectPunct]
      refine Holds.mono (ih.expression hc) fun p j hp hclose => ?_
      have hch := (he.append_of_le hp (by omega : i ≤ i + 1 + 1)).mono (Nat.le_refl i₀)
        (Nat.le_succ j) (lt_size_of_any hclose)
      exact hnext _ _ _ hch.lt_of_cons (by simpa using hch)
    · simp only [Bool.false_eq_true, ↓reduceIte, holds_bind]
      refine holds_identifierName fun p hp => ?_
      have hch := he.append_of_le hp.read (by omega : i ≤ i + 1)
      exact hnext _ _ _ hch.lt_of_cons (by simpa using hch)
  simp only [holds_bind, holds_eatPunct]
  refine ⟨fun _ => ?_, fun _ => ?_⟩
  · -- a computed member
    simp only [↓reduceIte, holds_bind, holds_withAllowIn, holds_expectPunct]
    refine Holds.mono (ih.expression hc) fun p j hp hclose => ?_
    have hch := (he.append_of_le hp (Nat.le_succ i)).mono (Nat.le_refl i₀) (Nat.le_succ j)
      (lt_size_of_any hclose)
    exact hnext _ _ _ hch.lt_of_cons (by simpa using hch)
  simp only [Bool.false_eq_true, ↓reduceIte, holds_bind, holds_atPunct]
  refine holds_ite.2 ⟨fun _ => ?_, fun _ => holds_pure.2 he⟩
  · -- a call, where calls are allowed
    simp only [holds_bind]
    refine Holds.mono (ih.arguments hc) fun args j hargsj => ?_
    obtain ⟨_, hargs⟩ := hargsj
    have hch := he.append hargs
    exact hnext _ _ _ hch.lt_of_cons (by simpa using hch)

/-- An argument list is read between its parentheses. -/
lemma arguments_step (ih : Specs fuel) (hc : InTextOrder c.tokens.toList) :
    Holds c (arguments (fuel + 1)) i fun args j => i < j ∧ Read c.tokens args i j := by
  rw [arguments]
  simp only [holds_bind, holds_expectPunct, holds_withAllowIn, holds_pure]
  intro _
  refine Holds.mono (ih.elementList ")" #[] hc) fun args j hargs hclose => ?_
  have hread := hargs.read_of_empty
  have := hread.le
  exact ⟨by omega, hread.mono (Nat.le_succ i) (Nat.le_succ j) (lt_size_of_any hclose)⟩

/-- Elements are read one after another up to the closing punctuator; each is read from
where it starts, a spread element exactly. -/
lemma elementList_step (ih : Specs fuel) (hc : InTextOrder c.tokens.toList) (close : String)
    (acc : Array Node) :
    Holds c (elementList (fuel + 1) close acc) i (Extends c.tokens acc i) := by
  rw [elementList]
  simp only [holds_bind, holds_atPunct, ite_bind_same, ← bind_assoc]
  refine holds_ite.2 ⟨fun hclose => holds_pure.2 (Extends.refl (lt_size_of_any hclose).le),
    fun _ => ?_⟩
  simp only [holds_bind]
  refine holds_marker fun m hm => ?_
  refine Holds.mono_bind (fun element j => Read c.tokens [element] i j) ?_
    fun element j hel => ?_
  · simp only [holds_eatPunct]
    refine ⟨fun _ => ?_, fun _ => ?_⟩
    · -- a spread element
      simp only [↓reduceIte, holds_bind]
      refine Holds.mono (ih.assignment hc) fun arg j harg => ?_
      have := harg.lt_of_cons
      exact holds_finish_read hc hm (by omega) (by simpa using harg.mono_left (Nat.le_succ i))
        fun n hn => hn.read
    · simp only [Bool.false_eq_true, ↓reduceIte]
      exact ih.assignment hc
  simp only [holds_atPunct, holds_ite, holds_bind, holds_expectPunct]
  exact ⟨fun _ => Holds.mono (ih.elementList close (acc.push element) hc) fun acc' k h =>
      Extends.push hel h,
    fun _ _ => Holds.mono (ih.elementList close (acc.push element) hc) fun acc' k h =>
      Extends.push hel (h.mono_left (Nat.le_succ j))⟩

/-! ## Primary expressions and objects -/

/-- A primary expression is one token, a function, a parenthesised expression, or an array
or object read exactly. -/
lemma primary_step (ih : Specs fuel) (hc : InTextOrder c.tokens.toList) :
    Holds c (primary (fuel + 1)) i fun n j => Read c.tokens [n] i j := by
  rw [primary]
  simp only [holds_bind, holds_peek]
  cases ht : c.tokens[i]? with
  | none => exact holds_failUnexpected.2 trivial
  | some tok =>
    dsimp only
    cases hk : tok.kind <;> simp only [holds_bind, holds_skip, holds_pure]
    case identifier => exact (readAt_identifierNode ht).read
    case keyword =>
      -- `this` and function expressions; other words cannot start an expression
      refine holds_ite.2 ⟨fun _ => ?_, fun _ => holds_ite.2 ⟨fun _ => ?_, fun _ => ?_⟩⟩
      · simp only [holds_bind, holds_skip, holds_pure]
        exact (readAt_token ht rfl rfl (by simp [Node.leaf, Node.children])).read
      · exact Holds.mono (ih.function _ hc) fun n j hn => hn.read
      · exact holds_failUnexpected.2 trivial
    case punctuator =>
      refine holds_ite.2 ⟨fun _ => ih.parenExpression hc, fun _ => ?_⟩
      refine holds_ite.2 ⟨fun _ => ?_, fun _ => ?_⟩
      · -- an array
        simp only [holds_bind, holds_skip, holds_withAllowIn, holds_expectPunct]
        refine holds_marker fun m hm => ?_
        refine Holds.mono (ih.elementList "]" #[] hc) fun elements j hel hclose => ?_
        have hread := hel.read_of_empty
        have := hread.le
        exact holds_finish_read hc hm (by omega)
          (by simpa using hread.mono (Nat.le_succ i) (Nat.le_succ j) (lt_size_of_any hclose))
          fun n hn => hn.read
      refine holds_ite.2 ⟨fun _ => Holds.mono (ih.object hc) fun n j hn => hn.read,
        fun _ => holds_failUnexpected.2 trivial⟩
    all_goals exact (readAt_literalNode ht).read

/-- An object literal is read exactly, from its opening brace to its closing one. -/
lemma object_step (ih : Specs fuel) (hc : InTextOrder c.tokens.toList) :
    Holds c (object (fuel + 1)) i fun n j => ReadAt c.tokens n i j := by
  rw [object]
  simp only [holds_bind, holds_expectPunct, holds_withAllowIn]
  refine holds_marker fun m hm => ?_
  intro _
  refine Holds.mono (ih.propertyList #[] hc) fun props j hprops hclose => ?_
  have hread := hprops.read_of_empty
  have := hread.le
  exact holds_finish_read hc hm (by omega)
    (by simpa using hread.mono (Nat.le_succ i) (Nat.le_succ j) (lt_size_of_any hclose))
    fun n hn => hn

/-- Properties are read one after another up to the closing brace. -/
lemma propertyList_step (ih : Specs fuel) (hc : InTextOrder c.tokens.toList)
    (acc : Array Node) :
    Holds c (propertyList (fuel + 1) acc) i (Extends c.tokens acc i) := by
  rw [propertyList]
  simp only [holds_bind, holds_atPunct, holds_ite, holds_pure, holds_expectPunct]
  refine ⟨fun hclose => Extends.refl (lt_size_of_any hclose).le, fun _ => ?_⟩
  refine Holds.mono (ih.property hc) fun p j hp => ?_
  exact ⟨fun _ => Holds.mono (ih.propertyList (acc.push p) hc) fun acc' k h =>
      Extends.push hp.read h,
    fun _ _ => Holds.mono (ih.propertyList (acc.push p) hc) fun acc' k h =>
      Extends.push hp.read (h.mono_left (Nat.le_succ j))⟩

/-- A property is read exactly: a spread element, or an optional accessor word, a key and a
value; a shorthand property holds its key twice, as key and as value. -/
lemma property_step (ih : Specs fuel) (hc : InTextOrder c.tokens.toList) :
    Holds c (property (fuel + 1)) i fun n j => ReadAt c.tokens n i j := by
  rw [property]
  simp only [holds_bind, holds_eatPunct]
  refine holds_marker fun m hm => ?_
  refine ⟨fun _ => ?_, fun _ => ?_⟩
  · -- a spread property
    simp only [↓reduceIte, holds_bind]
    refine Holds.mono (ih.assignment hc) fun arg j harg => ?_
    have := harg.lt_of_cons
    exact holds_finish_read hc hm (by omega) (by simpa using harg.mono_left (Nat.le_succ i))
      fun n hn => hn
  simp only [Bool.false_eq_true, ↓reduceIte, holds_bind]
  -- an accessor word takes one token before the key
  refine Holds.mono (Q := fun _ i' => i ≤ i') (holds_accessorPrefix (Nat.le_refl i)
    fun _ _ => Nat.le_succ i) fun accessor i' hi' => ?_
  refine Holds.mono (ih.propertyKey hc) fun key j hkey => ?_
  -- a key followed by a value read from where the key ends
  have hpair : ∀ (value : Node) (j' k : Nat) (kind : String) (method : Bool), j ≤ j' →
      Read c.tokens [value] j' k →
      Holds c (finish .property m [("key", .node key.1), ("value", .node value),
        ("kind", .text kind), ("method", .flag method), ("shorthand", .flag false),
        ("computed", .flag key.2)]) k fun n j => ReadAt c.tokens n i j := by
    intro value j' k kind method hj' hvalue
    have hch := (hkey.mono_left hi').append_of_le hvalue hj'
    exact holds_finish_read hc hm hch.lt_of_cons (by simpa using hch) fun n hn => hn
  cases accessor with
  | some k =>
    simp only [holds_bind, holds_map]
    exact Holds.mono (ih.methodFunction hc) fun v k hv => hpair _ _ _ _ _ le_rfl hv.read
  | none =>
    simp only [holds_bind, holds_atPunct]
    refine holds_ite.2 ⟨fun _ => ?_, fun _ => ?_⟩
    · -- a method
      simp only [holds_bind, holds_map]
      exact Holds.mono (ih.methodFunction hc) fun v k hv => hpair _ _ _ _ _ le_rfl hv.read
    simp only [holds_bind, holds_eatPunct]
    refine ⟨fun _ => ?_, fun _ => ?_⟩
    · -- a value after a colon
      simp only [↓reduceIte, holds_bind, holds_map]
      exact Holds.mono (ih.assignment hc) fun v k hv => hpair _ _ _ _ _ (Nat.le_succ j) hv
    simp only [Bool.false_eq_true, ↓reduceIte]
    refine holds_ite.2 ⟨fun _ => ?_, fun _ => by simp only [holds_bind, holds_failExpected]⟩
    -- a shorthand property: its key is also its value
    simp only [holds_bind, holds_pure]
    have hk := hkey.mono_left hi'
    have hij := hk.lt_of_cons
    refine holds_finish hc hm hij hk.le_size fun n hkind hfields hn => ⟨hij, hn, ?_⟩
    have hkj : Node.Within c.tokens [key.1] i (j - 1 + 1) := by
      rw [Nat.sub_add_cancel (by omega : 1 ≤ j)]
      exact hk.within
    exact Node.wellSpanned_shorthand hc hn hkj (hk.wellSpanned _ (List.mem_singleton_self _))
      (by simp [Node.children, hfields]) hkind (by simp [Node.flag, Node.field?, hfields])

end Parse

end DotLint
