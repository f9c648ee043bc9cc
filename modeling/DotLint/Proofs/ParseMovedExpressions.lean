import Mathlib.Tactic.Lemma
import DotLint.Proofs.ParseMoved

/-!
# Parsing moved tokens builds the moved tree: expressions

The expression half of the step from `Parse.RSpecs fuel` to `Parse.RSpecs (fuel + 1)`, and
with the statement half of `DotLint.Proofs.ParseMoved`, the guarantee of every function at
every budget.

The dot facts are made here. A member access by name is built right after its dot, with
the name as the next token, and the run that built its object stopped cleanly, so the token
before the dot is no dot, `?` or `/`. A property that is its own shorthand holds its key twice,
and a shorthand key is a name. Every other node that `finish` builds is of a kind the dot
facts say nothing about.
-/

namespace DotLint

namespace Parse

/-! ## Tokens that are no dot -/

section Tokens

variable {ts : Array Token} {t : Token}

lemma not_open_of_isPunct {p : String} (h : t.isPunct p = true)
    (hp : p ≠ "." ∧ p ≠ "?." ∧ p ≠ "?" ∧ p ≠ "/") : t.isOpen = false := by
  simp only [Token.isPunct, Bool.and_eq_true, beq_iff_eq] at h
  simp [Token.isOpen, Token.isPunct, h.2, hp.1, hp.2.1, hp.2.2.1, hp.2.2.2]

lemma not_open_of_incDec (h : (t.isPunct "++" || t.isPunct "--") = true) : t.isOpen = false := by
  rcases Bool.or_eq_true_iff.1 h with h | h
  · exact not_open_of_isPunct h (by decide)
  · exact not_open_of_isPunct h (by decide)

lemma isDotAt_of_not_open {k : Nat} (ht : ts[k]? = some t) (h : t.isOpen = false) :
    isDotAt ts k = false := by
  simp only [Token.isOpen, Bool.or_eq_false_iff] at h
  simp [isDotAt, ht, h.1.1.1, h.1.1.2]

lemma isDotAt_of_any {p : String} {k : Nat} (hp : p = "." ∨ p = "?.")
    (h : ts[k]?.any (·.isPunct p) = true) : isDotAt ts k = true := by
  unfold isDotAt
  cases ht : ts[k]? with
  | none => simp [ht] at h
  | some t =>
    rw [ht] at h
    rcases hp with rfl | rfl <;> simp_all

lemma facts_leaf (kind : NodeKind) (hkind : PlainKind kind) (sp : Span) (loc : Location) :
    (Node.leaf kind sp loc).Facts ts :=
  Node.Facts.of_leaf hkind.1 hkind.2.1 (by simp [Node.leaf, Node.children])

/-- A member access by name, built right after a dot that follows a clean run, has the dot
facts: its property is the word after the dot, and the token before the dot is no dot, `?`
or `/`. -/
lemma dotFacts_member {e : Node} {k : Nat} (optional : Bool) (hk : 1 ≤ k)
    (ht : ts[k + 1]? = some t)
    (hword : (t.kind != .punctuator && t.kind != .numeric && t.kind != .string) = true)
    (hdot : isDotAt ts k = true) (hprev : isOpenAt ts (k - 1) = false) (n : Node)
    (hkind : n.kind = .memberExpression)
    (hfields : n.fields = [("object", .node e), ("property", .node (identifierNode t)),
      ("computed", .flag false), ("optional", .flag optional)]) : n.DotFacts ts := by
  refine ⟨ChildKeys.standard_children_of_kind (by rw [hkind]; decide) (by rw [hkind]; decide),
    fun _ _ => ⟨k + 1, t, e, optional, by omega, ht, hword, hfields, ?_, ?_⟩, fun hp => ?_⟩
  · rw [show k + 1 - 1 = k by omega]
    exact hdot
  · rw [show k + 1 - 2 = k - 1 by omega]
    exact hprev
  · rw [hkind] at hp
    cases hp

/-- A computed member access: the dot facts say nothing about it. -/
lemma dotFacts_computed {e p : Node} (optional : Bool) (n : Node)
    (hkind : n.kind = .memberExpression)
    (hfields : n.fields = [("object", .node e), ("property", .node p), ("computed", .flag true),
      ("optional", .flag optional)]) : n.DotFacts ts := by
  refine ⟨ChildKeys.standard_children_of_kind (by rw [hkind]; decide) (by rw [hkind]; decide),
    fun _ hc => ?_, fun hp => ?_⟩
  · simp [Node.flag, Node.field?, hfields] at hc
  · rw [hkind] at hp
    cases hp

end Tokens

/-! ## Sequences, parentheses and operators -/

section Expressions

variable {fuel : Nat} {c c' : ParseContext} {i : Nat}

lemma AccMoved.singleton {n n' : Node} {j : Nat} (h : Moved c c' i n n' j) :
    AccMoved c c' #[n] #[n'] :=
  AccMoved.empty.push h

/-- An expression in both runs: an assignment, or a sequence after a comma. -/
lemma expression_rstep (ih : RSpecs fuel) (hA : Agree c c') :
    RHolds c c' (expression (fuel + 1)) (expression (fuel + 1)) i (Moved c c' i) := by
  rw [expression]
  refine rholds_bind (rholds_marker hA fun m m' hm hm' => ?_)
  refine rholds_bind ((ih.assignment hA).mono fun first first' j hfirst => ?_)
  refine rholds_bind ((rholds_atPunct hA).2 ?_)
  by_cases hcomma : c.tokens[j]?.any (·.isPunct ",") = true
  · simp only [hcomma, Bool.not_true, Bool.false_eq_true, ↓reduceIte]
    refine rholds_bind ((ih.sequenceRest hA hfirst.2.1.le_size (AccMoved.singleton hfirst)).mono
      fun all all' k hall => ?_)
    obtain ⟨hk, hall', hfall⟩ := hall
    subst hall'
    exact rholds_finish_plain hA (by decide) hm hm' (by have := hfirst.1; have := hk.le; omega)
      (hfirst.2.1.trans hk) (by simp [move_def]) (by simpa using hfall)
  · simp only [hcomma, Bool.not_false, ↓reduceIte]
    exact rholds_pure hfirst

/-- The further members of a sequence in both runs, each after a comma. -/
lemma sequenceRest_rstep (ih : RSpecs fuel) (hA : Agree c c') {acc acc' : Array Node}
    (hi : i ≤ c.tokens.size) (hacc : AccMoved c c' acc acc') :
    RHolds c c' (sequenceRest (fuel + 1) acc) (sequenceRest (fuel + 1) acc') i
      (MovedAll c c' i) := by
  rw [sequenceRest, sequenceRest]
  refine rholds_bind (rholds_eatPunct hA (fun hcomma => ?_) fun _ => ?_)
  · simp only [↓reduceIte]
    refine rholds_bind ((ih.assignment hA).mono fun e e' j he => ?_)
    exact (ih.sequenceRest hA he.2.1.le_size (hacc.push he)).mono fun r r' k ⟨hk, hr⟩ =>
      ⟨((Clean.punct hcomma (by decide)).trans he.2.1).trans hk, hr⟩
  · simp only [Bool.false_eq_true, ↓reduceIte]
    exact rholds_pure ⟨Clean.refl hi, hacc⟩

/-- A parenthesised expression in both runs: the node inside. -/
lemma parenExpression_rstep (ih : RSpecs fuel) (hA : Agree c c') :
    RHolds c c' (parenExpression (fuel + 1)) (parenExpression (fuel + 1)) i (Moved c c' i) := by
  rw [parenExpression]
  refine rholds_bind (rholds_expectPunct hA fun hopen => ?_)
  refine rholds_bind (rholds_withAllowIn.2 ((ih.expression (hA.withAllowIn true)).mono
    fun e e' j ⟨_, he, he', hf⟩ => ?_))
  refine rholds_bind (rholds_expectPunct hA fun hclose => rholds_pure ?_)
  exact ⟨by have := he.le; omega,
    ((Clean.punct hopen (by decide)).trans he).trans (Clean.punct hclose (by decide)), he', hf⟩

/-- An assignment in both runs: an arrow function, or a conditional expression with an
optional operator and value. -/
lemma assignment_rstep (ih : RSpecs fuel) (hA : Agree c c') :
    RHolds c c' (assignment (fuel + 1)) (assignment (fuel + 1)) i (Moved c c' i) := by
  rw [assignment]
  refine rholds_nested hA fun _ => ?_
  have hA' := hA.nested
  refine rholds_bind ((rholds_isArrowStart hA').mono fun b b' j hbj => ?_)
  obtain ⟨hb, hj⟩ := hbj
  subst hb hj
  refine rholds_ite (fun _ => ih.arrow hA') fun _ => ?_
  refine rholds_bind (rholds_marker hA' fun m m' hm hm' => ?_)
  refine rholds_bind ((ih.conditional hA').mono fun left left' j hleft => ?_)
  refine rholds_peek_bind hA' (fun _ _ => rholds_pure hleft) fun tok tok' ht ht' hk htext => ?_
  dsimp only
  rw [hk, htext]
  refine rholds_ite (fun _ => ?_) fun _ => rholds_pure hleft
  obtain ⟨hij, hlc, hl', hfl⟩ := hleft
  subst hl'
  -- the target is the same kind of node in both runs
  have hkind : (move c.tokens c'.tokens left).kind = left.kind := by simp [move_def]
  rw [hkind]
  refine rholds_ite (fun _ => ?_) fun _ => rholds_throw
  refine rholds_bind (rholds_skip.2 ?_)
  refine rholds_bind ((ih.assignment hA').mono fun right right' k hright => ?_)
  obtain ⟨hk, hr, hr', hfr⟩ := hright
  subst hr'
  exact rholds_finish_plain hA' (by decide) hm hm' (by omega) (Clean.of_tail (by omega) hr hk)
    (by simp [move_def]) (by simpa [or_imp, forall_and] using And.intro hfl hfr)

/-- An arrow function in both runs: its parameters, the arrow, a block or an expression. -/
lemma arrow_rstep (ih : RSpecs fuel) (hA : Agree c c') :
    RHolds c c' (arrow (fuel + 1)) (arrow (fuel + 1)) i (Moved c c' i) := by
  rw [arrow]
  simp only [ite_bind_same, ← bind_assoc]
  refine rholds_bind (rholds_marker hA fun m m' hm hm' => ?_)
  -- the parameters: a list in parentheses, or one name
  refine rholds_bind (RHolds.mono (Q := MovedList c c' i) ?_
    fun ps ps' j hpsj => ?_)
  · refine rholds_bind ((rholds_atPunct hA).2 ?_)
    refine rholds_ite (fun _ => ih.params hA) fun _ => rholds_map ((rholds_bindingName hA).mono
      fun b b' j hbj => by
        obtain ⟨hij, hb, hb', hfb⟩ := hbj
        exact ⟨hij, hb, by simp [hb'], by simpa using hfb⟩)
  obtain ⟨hij, hps, hps', hfp⟩ := hpsj
  subst hps'
  -- the arrow, then the body: a block or an expression
  refine rholds_bind (RHolds.mono (Q := fun r r' k => Moved c c' (j + 1) r.1 r'.1 k ∧ r'.2 = r.2)
    ?_ fun r r' k hrk => ?_)
  · refine rholds_bind (rholds_bind (rholds_expectPunct hA fun _ => (rholds_atPunct hA).2 ?_))
    exact rholds_ite (fun _ => rholds_map ((ih.block hA).mono fun b b' k hb => ⟨hb, rfl⟩))
      fun _ => rholds_map ((ih.assignment hA).mono fun b b' k hb => ⟨hb, rfl⟩)
  obtain ⟨hbody, hflag⟩ := hrk
  obtain ⟨body, isExpression⟩ := r
  obtain ⟨body', isExpression'⟩ := r'
  obtain ⟨hjk, hb, hb', hfb⟩ := hbody
  dsimp only at hflag hb' hfb hjk hb ⊢
  subst hflag hb'
  exact rholds_finish_plain hA (by decide) hm hm' (by omega) (Clean.of_tail (by omega) hb hjk)
    (by simp [move_def]) (by simpa [or_imp, forall_and] using And.intro hfp hfb)

/-- A conditional expression in both runs: its test, or the test, `?`, and two branches. -/
lemma conditional_rstep (ih : RSpecs fuel) (hA : Agree c c') :
    RHolds c c' (conditional (fuel + 1)) (conditional (fuel + 1)) i (Moved c c' i) := by
  rw [conditional]
  refine rholds_bind (rholds_marker hA fun m m' hm hm' => ?_)
  refine rholds_bind ((ih.binary 1 hA).mono fun test test' j htest => ?_)
  refine rholds_bind (rholds_eatPunct hA (fun _ => ?_) fun _ => ?_)
  · simp only [Bool.not_true, Bool.false_eq_true, ↓reduceIte]
    obtain ⟨hij, -, htest', hft⟩ := htest
    subst htest'
    refine rholds_bind (rholds_withAllowIn.2 ((ih.assignment (hA.withAllowIn true)).mono
      fun cons cons' k hcons => ?_))
    obtain ⟨hk, _, hcons', hfc⟩ := hcons
    refine rholds_bind (rholds_expectPunct hA fun _ => ?_)
    refine rholds_bind ((ih.assignment hA).mono fun alt alt' l halt => ?_)
    obtain ⟨hl, halt, halt', hfa⟩ := halt
    subst hcons' halt'
    exact rholds_finish_plain hA (by decide) hm hm' (by omega) (Clean.of_tail (by omega) halt hl)
      (by simp [move_def])
      (by simpa [or_imp, forall_and] using And.intro hft (And.intro hfc hfa))
  · simp only [Bool.not_false, ↓reduceIte]
    exact rholds_pure htest

/-- Operands and binary operators in both runs, from the first operand. -/
lemma binary_rstep (ih : RSpecs fuel) (hA : Agree c c') (minPrec : Nat) :
    RHolds c c' (binary (fuel + 1) minPrec) (binary (fuel + 1) minPrec) i (Moved c c' i) := by
  rw [binary]
  refine rholds_bind (rholds_marker hA fun m m' hm hm' => ?_)
  refine rholds_bind ((ih.unary hA).mono fun left left' j hleft => ?_)
  exact ih.binaryRest minPrec hA hm hm' hleft

/-- Each binary operator in both runs extends the left operand, which started at the
marker's token. -/
lemma binaryRest_rstep (ih : RSpecs fuel) (hA : Agree c c') (minPrec : Nat) {i₀ : Nat}
    {m m' : Marker} {left left' : Node} (hm : MarkerAt c.tokens m i₀)
    (hm' : MarkerAt c'.tokens m' i₀) (hleft : Moved c c' i₀ left left' i) :
    RHolds c c' (binaryRest (fuel + 1) minPrec m left) (binaryRest (fuel + 1) minPrec m' left') i
      (Moved c c' i₀) := by
  rw [binaryRest, binaryRest]
  refine rholds_bind ((rholds_binaryOperator hA).mono fun o o' j ⟨ho, hj⟩ => ?_)
  subst o' j
  rcases o with _ | ⟨op, prec⟩
  · exact rholds_pure hleft
  dsimp only
  refine rholds_ite (fun _ => rholds_pure hleft) fun _ => ?_
  refine rholds_bind (rholds_skip.2 ?_)
  refine rholds_bind ((ih.binary _ hA).mono fun right right' k ⟨hk, hr, hr', hfr⟩ => ?_)
  obtain ⟨hi, -, hl', hfl⟩ := hleft
  subst hr' hl'
  refine rholds_bind ((rholds_finish_plain hA (by split <;> decide) hm hm' (by omega)
    (Clean.of_tail (by omega) hr hk) (by simp [move_def])
    (by simpa [or_imp, forall_and] using And.intro hfl hfr)).mono fun n n' l hn => ?_)
  exact ih.binaryRest minPrec hA hm hm' hn

/-- An operator token, then its operand, then the node, in both runs. -/
lemma rholds_prefix (hA : Agree c c') {kind : NodeKind} (hkind : PlainKind kind) {m m' : Marker}
    (hm : MarkerAt c.tokens m i) (hm' : MarkerAt c'.tokens m' i) {op : String}
    {x : ParseM Node} (hx : RHolds c c' x x (i + 1) (Moved c c' (i + 1))) :
    RHolds c c'
      (skip >>= fun _ => x >>= fun arg => finish kind m
        [("operator", .text op), ("prefix", .flag true), ("argument", .node arg)])
      (skip >>= fun _ => x >>= fun arg => finish kind m'
        [("operator", .text op), ("prefix", .flag true), ("argument", .node arg)])
      i (Moved c c' i) := by
  refine rholds_bind (rholds_skip.2 ?_)
  refine rholds_bind (hx.mono fun arg arg' j ⟨hj, ha, ha', hfa⟩ => ?_)
  subst ha'
  exact rholds_finish_plain hA hkind hm hm' (by omega) (Clean.of_tail (by omega) ha hj)
    (by simp [move_def]) (by simpa using hfa)

/-- A unary expression in both runs. A postfix `++` or `--` counts only on the line of its
operand, and the line break before it is the same in both runs: it follows the clean end
of the operand and is no dot. -/
lemma unary_rstep (ih : RSpecs fuel) (hA : Agree c c') :
    RHolds c c' (unary (fuel + 1)) (unary (fuel + 1)) i (Moved c c' i) := by
  rw [unary]
  refine rholds_nested hA fun _ => ?_
  have hA' := hA.nested
  refine rholds_bind (rholds_marker hA' fun m m' hm hm' => ?_)
  refine rholds_peek_bind hA' (fun _ _ => rholds_failUnexpected) fun tok tok' ht ht' hk htext => ?_
  dsimp only
  have hop : isUnaryOperator tok' = isUnaryOperator tok := by
    unfold isUnaryOperator
    rw [hk, htext]
  rw [hop, isPunct_congr (p := "++") tok tok' hk htext,
    isPunct_congr (p := "--") tok tok' hk htext, htext]
  refine rholds_ite (fun _ => rholds_prefix hA' (by decide) hm hm' (ih.unary hA')) fun _ =>
    rholds_ite (fun _ => rholds_prefix hA' (by decide) hm hm' (ih.unary hA')) fun _ => ?_
  -- a left-hand side, and a postfix operator on its line
  refine rholds_bind ((ih.leftHandSide hA').mono fun e e' j he => ?_)
  refine rholds_peek_bind hA' (fun _ _ => rholds_pure he) fun t t' ht2 ht2' hk2 htext2 => ?_
  dsimp only
  rw [isPunct_congr (p := "++") t t' hk2 htext2, isPunct_congr (p := "--") t t' hk2 htext2,
    htext2]
  refine rholds_bind (rholds_newlineBefore.2 ?_)
  cases hinc : (t.isPunct "++" || t.isPunct "--")
  · simp only [Bool.false_and, Bool.false_eq_true, ↓reduceIte]
    exact rholds_pure he
  obtain ⟨hij, hec, he', hfe⟩ := he
  subst he'
  have hnb : lineBreakBefore c'.tokens j = lineBreakBefore c.tokens j :=
    hA.lineBreakBefore_eq (isDotAt_of_not_open ht2 (not_open_of_incDec hinc))
      (hec.prev_not_dot hij)
  rw [hnb]
  refine rholds_ite (fun _ => ?_) fun _ => rholds_pure ⟨hij, hec, rfl, hfe⟩
  refine rholds_bind (rholds_skip.2 ?_)
  exact rholds_finish_plain hA' (by decide) hm hm' (by omega)
    (hec.trans (Clean.token ht2 (not_open_of_incDec hinc))) (by simp [move_def])
    (by simpa using hfe)

/-! ## Member accesses, calls and `new` -/

/-- A left-hand side in both runs: a primary or `new` expression and its member accesses. -/
lemma leftHandSide_rstep (ih : RSpecs fuel) (hA : Agree c c') :
    RHolds c c' (leftHandSide (fuel + 1)) (leftHandSide (fuel + 1)) i (Moved c c' i) := by
  rw [leftHandSide]
  simp only [ite_bind_same]
  refine rholds_bind (rholds_marker hA fun m m' hm hm' => ?_)
  refine rholds_bind ((rholds_atKeyword hA).2 ?_)
  refine rholds_bind (RHolds.mono (Q := Moved c c' i) ?_ fun e e' j he =>
    ih.memberTail true hA hm hm' he)
  exact rholds_ite (fun _ => ih.newExpression hA) fun _ => ih.primary hA

/-- A `new` expression in both runs: the callee with its member accesses, then the
arguments if any. -/
lemma newExpression_rstep (ih : RSpecs fuel) (hA : Agree c c') :
    RHolds c c' (newExpression (fuel + 1)) (newExpression (fuel + 1)) i (Moved c c' i) := by
  rw [newExpression]
  refine rholds_nested hA fun _ => ?_
  have hA' := hA.nested
  simp only [ite_bind_same]
  refine rholds_bind (rholds_marker hA' fun m m' hm hm' => ?_)
  refine rholds_bind (rholds_skip.2 ?_)
  refine rholds_bind (rholds_marker hA' fun cm cm' hcm hcm' => ?_)
  refine rholds_bind ((rholds_atKeyword hA').2 ?_)
  refine rholds_bind (RHolds.mono (Q := Moved c c' (i + 1)) ?_ fun e e' j he => ?_)
  · exact rholds_ite (fun _ => ih.newExpression hA') fun _ => ih.primary hA'
  refine rholds_bind ((ih.memberTail false hA' hcm hcm' he).mono
    fun callee callee' k ⟨hk, hcc, hcallee', hfc⟩ => ?_)
  subst hcallee'
  -- the arguments, if a parenthesis follows
  refine rholds_bind ((rholds_atPunct hA').2 ?_)
  refine rholds_bind (RHolds.mono (Q := fun (args args' : List Node) l => Clean c.tokens k l ∧
    args' = args.map (move c.tokens c'.tokens) ∧ ∀ n ∈ args, n.Facts c.tokens) ?_
    fun args args' l ⟨hl, hargs', hfa⟩ => ?_)
  · exact rholds_ite (fun _ => (ih.arguments hA').mono fun a a' l ⟨_, ha, ha', hfa⟩ =>
      ⟨ha, ha', hfa⟩) fun _ => rholds_pure ⟨Clean.refl hcc.le_size, rfl, by simp⟩
  subst hargs'
  have hkl := hl.le
  exact rholds_finish_plain hA' (by decide) hm hm' (by omega)
    (Clean.of_tail (by omega) (hcc.trans hl) (by omega)) (by simp [move_def])
    (by simpa [or_imp, forall_and] using And.intro hfc hfa)

/-- Member accesses and calls in both runs, each extending `e`, which started at the
marker's token. A member access by name is built right after its dot, so it has the dot
facts. -/
lemma memberTail_rstep (ih : RSpecs fuel) (hA : Agree c c') (allowCall : Bool) {i₀ : Nat}
    {m m' : Marker} {e e' : Node} (hm : MarkerAt c.tokens m i₀) (hm' : MarkerAt c'.tokens m' i₀)
    (he : Moved c c' i₀ e e' i) :
    RHolds c c' (memberTail (fuel + 1) m e allowCall) (memberTail (fuel + 1) m' e' allowCall) i
      (Moved c c' i₀) := by
  rw [memberTail, memberTail]
  simp only [member]
  obtain ⟨hi, hec, he', hfe⟩ := he
  subst he'
  have hprev : isOpenAt c.tokens (i - 1) = false := hec.2.2 hi
  -- every access finishes a node from the marker and goes on from it
  have hnext : ∀ n n' j, Moved c c' i₀ n n' j →
      RHolds c c' (memberTail fuel m n allowCall) (memberTail fuel m' n' allowCall) j
        (Moved c c' i₀) :=
    fun n n' j hn => ih.memberTail allowCall hA hm hm' hn
  -- a name after a dot at `i`
  have hname : ∀ (optional : Bool), isDotAt c.tokens i = true →
      RHolds c c' identifierName identifierName (i + 1) fun p p' j =>
        RHolds c c'
          (finish .memberExpression m [("object", .node e), ("property", .node p),
            ("computed", .flag false), ("optional", .flag optional)] >>= fun n =>
              memberTail fuel m n allowCall)
          (finish .memberExpression m' [("object", .node (move c.tokens c'.tokens e)),
            ("property", .node p'), ("computed", .flag false), ("optional", .flag optional)] >>=
              fun n => memberTail fuel m' n allowCall) j (Moved c c' i₀) := by
    intro optional hdot
    refine rholds_identifierName hA fun t t' ht ht' _ htext hword => ?_
    have hw : t.kind ≠ .punctuator := by
      simp only [Bool.and_eq_true, bne_iff_ne, ne_eq] at hword
      exact hword.1.1
    refine rholds_bind ((rholds_finish_moved hA hm hm' (by omega)
      (Clean.of_tail (by omega) (Clean.word ht hw) (Nat.lt_succ_self _))
      (by simp [move_def]; exact (hA.move_identifierNode ht ht' htext).symm)
      (dotFacts_member optional (by omega) ht hword hdot hprev)
      (by simpa [or_imp, forall_and] using And.intro hfe (facts_identifierNode t))).mono
      fun n n' j hn => hnext n n' j hn)
  -- a computed member: an expression in brackets after `i`
  have hcomputed : ∀ (optional : Bool) (k : Nat), i ≤ k → c.tokens[k]?.any (·.isPunct "[") = true →
      RHolds c c' (withAllowIn true (expression fuel)) (withAllowIn true (expression fuel)) (k + 1)
        fun p p' j => RHolds c c'
          (expectPunct "]" >>= fun _ => finish .memberExpression m [("object", .node e),
            ("property", .node p), ("computed", .flag true), ("optional", .flag optional)] >>=
              fun n => memberTail fuel m n allowCall)
          (expectPunct "]" >>= fun _ => finish .memberExpression m'
            [("object", .node (move c.tokens c'.tokens e)), ("property", .node p'),
              ("computed", .flag true), ("optional", .flag optional)] >>=
              fun n => memberTail fuel m' n allowCall) j (Moved c c' i₀) := by
    intro optional k hik _
    refine rholds_withAllowIn.2 ((ih.expression (hA.withAllowIn true)).mono
      fun p p' j ⟨hj, hp, hp', hfp⟩ => ?_)
    subst hp'
    refine rholds_bind (rholds_expectPunct hA fun hclose => ?_)
    refine rholds_bind ((rholds_finish_moved hA hm hm' (by omega)
      (Clean.of_tail (by omega) (Clean.punct hclose (by decide)) (Nat.lt_succ_self _))
      (by simp [move_def]) (dotFacts_computed optional)
      (by simpa [or_imp, forall_and] using And.intro hfe hfp)).mono
      fun n n' j hn => hnext n n' j hn)
  -- a call: arguments after `i`
  have hcall : ∀ (optional : Bool) (k : Nat), i ≤ k →
      RHolds c c' (arguments fuel) (arguments fuel) k fun args args' j =>
        RHolds c c'
          (finish .callExpression m [("callee", .node e), ("arguments", .list args),
            ("optional", .flag optional)] >>= fun n => memberTail fuel m n allowCall)
          (finish .callExpression m' [("callee", .node (move c.tokens c'.tokens e)),
            ("arguments", .list args'), ("optional", .flag optional)] >>=
              fun n => memberTail fuel m' n allowCall) j (Moved c c' i₀) := by
    intro optional k hik
    refine (ih.arguments hA).mono fun args args' j ⟨hj, hargs, hargs', hfa⟩ => ?_
    subst hargs'
    exact rholds_bind ((rholds_finish_plain hA (by decide) hm hm' (by omega)
      (Clean.of_tail (by omega) hargs hj) (by simp [move_def])
      (by simpa [or_imp, forall_and] using And.intro hfe hfa)).mono
      fun n n' j hn => hnext n n' j hn)
  refine rholds_bind (rholds_eatPunct hA (fun hdot => ?_) fun _ => ?_)
  · -- `.` and a name
    simp only [↓reduceIte]
    exact rholds_bind (hname false (isDotAt_of_any (Or.inl rfl) hdot))
  simp only [Bool.false_eq_true, ↓reduceIte]
  refine rholds_bind ((rholds_atPunct hA).2 (rholds_ite (fun hopt => ?_) fun _ => ?_))
  · -- `?.` and a call, a computed member or a name
    have hdot : isDotAt c.tokens i = true := isDotAt_of_any (Or.inr rfl) hopt
    refine rholds_bind (rholds_skip.2 ?_)
    refine rholds_bind ((rholds_atPunct hA).2 (rholds_ite (fun _ => ?_) fun _ => ?_))
    · exact rholds_bind (hcall true (i + 1) (Nat.le_succ i))
    refine rholds_bind (rholds_eatPunct hA (fun hopen => ?_) fun _ => ?_)
    · simp only [↓reduceIte]
      exact rholds_bind (hcomputed true (i + 1) (Nat.le_succ i) hopen)
    · simp only [Bool.false_eq_true, ↓reduceIte]
      exact rholds_bind (hname true hdot)
  refine rholds_bind (rholds_eatPunct hA (fun hopen => ?_) fun _ => ?_)
  · -- a computed member
    simp only [↓reduceIte]
    exact rholds_bind (hcomputed false i (Nat.le_refl i) hopen)
  simp only [Bool.false_eq_true, ↓reduceIte]
  refine rholds_bind ((rholds_atPunct hA).2 (rholds_ite (fun _ => ?_) fun _ => ?_))
  · -- a call, where calls are allowed
    exact rholds_bind (hcall false i (Nat.le_refl i))
  · exact rholds_pure ⟨hi, hec, rfl, hfe⟩

/-- An argument list in both runs, between its parentheses. -/
lemma arguments_rstep (ih : RSpecs fuel) (hA : Agree c c') :
    RHolds c c' (arguments (fuel + 1)) (arguments (fuel + 1)) i (MovedList c c' i) := by
  rw [arguments]
  refine rholds_bind (rholds_expectPunct hA fun hopen => ?_)
  refine rholds_bind (rholds_withAllowIn.2 ((ih.elementList ")" (hA.withAllowIn true)
    AccMoved.empty).mono fun args args' j ⟨hargs, hargs', hfa⟩ => ?_))
  refine rholds_bind (rholds_expectPunct hA fun hclose => rholds_pure ?_)
  have := hargs.le
  exact ⟨by omega, Clean.of_tail (by omega) (Clean.punct hclose (by decide)) (Nat.lt_succ_self j),
    by simp [hargs'], hfa⟩

/-- Elements in both runs, up to the punctuator `close`. -/
lemma elementList_rstep (ih : RSpecs fuel) (hA : Agree c c') (close : String)
    {acc acc' : Array Node} (hacc : AccMoved c c' acc acc') :
    RHolds c c' (elementList (fuel + 1) close acc) (elementList (fuel + 1) close acc') i
      (MovedAll c c' i) := by
  rw [elementList, elementList]
  simp only [ite_bind_same, ← bind_assoc]
  refine rholds_bind ((rholds_atPunct hA).2 ?_)
  by_cases hclose : c.tokens[i]?.any (·.isPunct close) = true
  · simp only [hclose, ↓reduceIte]
    exact rholds_pure ⟨Clean.refl (lt_size_of_any hclose).le, hacc⟩
  simp only [hclose, Bool.false_eq_true, ↓reduceIte]
  -- one element: a spread or an assignment
  refine rholds_bind (RHolds.mono (Q := Moved c c' i) ?_ fun el el' j hel => ?_)
  · refine rholds_bind (rholds_marker hA fun m m' hm hm' => ?_)
    refine rholds_bind (rholds_eatPunct hA (fun _ => ?_) fun _ => ?_)
    · simp only [↓reduceIte]
      refine rholds_bind ((ih.assignment hA).mono fun a a' j ⟨hj, ha, ha', hfa⟩ => ?_)
      subst ha'
      exact rholds_finish_plain hA (by decide) hm hm' (by omega) (Clean.of_tail (by omega) ha hj)
        (by simp [move_def]) (by simpa using hfa)
    · simp only [Bool.false_eq_true, ↓reduceIte]
      exact ih.assignment hA
  -- a comma unless the list closes
  refine rholds_bind ((rholds_atPunct hA).2 ?_)
  by_cases hclose' : c.tokens[j]?.any (·.isPunct close) = true
  · simp only [hclose', ↓reduceIte]
    exact (ih.elementList close hA (hacc.push hel)).mono fun r r' k ⟨hk, hr⟩ =>
      ⟨hel.2.1.trans hk, hr⟩
  · simp only [hclose', Bool.false_eq_true, ↓reduceIte]
    refine rholds_bind (rholds_expectPunct hA fun hcomma => ?_)
    exact (ih.elementList close hA (hacc.push hel)).mono fun r r' k ⟨hk, hr⟩ =>
      ⟨(hel.2.1.trans (Clean.punct hcomma (by decide))).trans hk, hr⟩

/-! ## Primary expressions and objects -/

/-- A primary expression in both runs, chosen by its first token. -/
lemma primary_rstep (ih : RSpecs fuel) (hA : Agree c c') :
    RHolds c c' (primary (fuel + 1)) (primary (fuel + 1)) i (Moved c c' i) := by
  rw [primary]
  refine rholds_peek_bind hA (fun _ _ => rholds_failUnexpected) fun tok tok' ht ht' hk htext => ?_
  dsimp only
  rw [hk, htext]
  -- a token that is the node itself
  have hleaf : ∀ n n', tok.kind ≠ .punctuator → n' = move c.tokens c'.tokens n →
      n.Facts c.tokens →
      RHolds c c' (skip >>= fun _ => pure n) (skip >>= fun _ => pure n') i (Moved c c' i) :=
    fun n n' hp hn hf =>
      rholds_bind (rholds_skip.2 (rholds_pure ⟨Nat.lt_succ_self i, Clean.word ht hp, hn, hf⟩))
  cases hkind : tok.kind with
  | identifier =>
    exact hleaf _ _ (by rw [hkind]; decide) (hA.move_identifierNode ht ht' htext).symm
      (facts_identifierNode tok)
  | numeric | string | boolean | null =>
    exact hleaf _ _ (by rw [hkind]; decide) (hA.move_literalNode ht ht' htext).symm
      (facts_literalNode tok)
  | keyword =>
    refine rholds_ite (fun _ => hleaf _ _ (by rw [hkind]; decide) (hA.move_leaf ht ht').symm
      (facts_leaf _ (by decide) _ _)) fun _ =>
        rholds_ite (fun _ => ih.function hA (by decide)) fun _ => rholds_failUnexpected
  | punctuator =>
    refine rholds_ite (fun _ => ih.parenExpression hA) fun _ =>
      rholds_ite (fun _ => ?_) fun _ =>
        rholds_ite (fun _ => ih.object hA) fun _ => rholds_failUnexpected
    -- an array
    refine rholds_bind (rholds_marker hA fun m m' hm hm' => ?_)
    refine rholds_bind (rholds_skip.2 ?_)
    refine rholds_bind (rholds_withAllowIn.2 ((ih.elementList "]" (hA.withAllowIn true)
      AccMoved.empty).mono fun es es' j hesj => ?_))
    obtain ⟨hes, hes', hfe⟩ := hesj
    refine rholds_bind (rholds_expectPunct hA fun hclose => ?_)
    subst hes'
    have := hes.le
    exact rholds_finish_literal hA rfl (by decide) hm hm' (by omega)
      (Clean.of_tail (by omega) (Clean.punct hclose (by decide)) (Nat.lt_succ_self j))
      (by simp [move_def]) (by simpa using hfe)

/-- An object literal in both runs: its properties in braces. -/
lemma object_rstep (ih : RSpecs fuel) (hA : Agree c c') :
    RHolds c c' (object (fuel + 1)) (object (fuel + 1)) i (Moved c c' i) := by
  rw [object]
  refine rholds_bind (rholds_marker hA fun m m' hm hm' => ?_)
  refine rholds_bind (rholds_expectPunct hA fun _ => ?_)
  refine rholds_bind (rholds_withAllowIn.2 ((ih.propertyList (hA.withAllowIn true)
    AccMoved.empty).mono fun ps ps' j ⟨hps, hps', hfp⟩ => ?_))
  refine rholds_bind (rholds_expectPunct hA fun hclose => ?_)
  subst hps'
  have := hps.le
  exact rholds_finish_literal hA rfl (by decide) hm hm' (by omega)
    (Clean.of_tail (by omega) (Clean.punct hclose (by decide)) (Nat.lt_succ_self j))
    (by simp [move_def]) (by simpa using hfp)

/-- The properties of an object in both runs, up to its closing brace. -/
lemma propertyList_rstep (ih : RSpecs fuel) (hA : Agree c c') {acc acc' : Array Node}
    (hacc : AccMoved c c' acc acc') :
    RHolds c c' (propertyList (fuel + 1) acc) (propertyList (fuel + 1) acc') i
      (MovedAll c c' i) := by
  rw [propertyList, propertyList]
  refine rholds_bind ((rholds_atPunct hA).2 ?_)
  by_cases hclose : c.tokens[i]?.any (·.isPunct closeBrace) = true
  · simp only [hclose, ↓reduceIte]
    exact rholds_pure ⟨Clean.refl (lt_size_of_any hclose).le, hacc⟩
  simp only [hclose, Bool.false_eq_true, ↓reduceIte]
  refine rholds_bind ((ih.property hA).mono fun p p' j hp => ?_)
  -- a comma unless the object closes
  refine rholds_bind ((rholds_atPunct hA).2 ?_)
  by_cases hclose' : c.tokens[j]?.any (·.isPunct closeBrace) = true
  · simp only [hclose', ↓reduceIte]
    exact (ih.propertyList hA (hacc.push hp)).mono fun r r' k ⟨hk, hr⟩ => ⟨hp.2.1.trans hk, hr⟩
  · simp only [hclose', Bool.false_eq_true, ↓reduceIte]
    refine rholds_bind (rholds_expectPunct hA fun hcomma => ?_)
    exact (ih.propertyList hA (hacc.push hp)).mono fun r r' k ⟨hk, hr⟩ =>
      ⟨(hp.2.1.trans (Clean.punct hcomma (by decide))).trans hk, hr⟩

/-- A property in both runs: a spread, or a key and its value. A shorthand property holds
its key twice, and a shorthand key is a name, so it has the dot facts. -/
lemma property_rstep (ih : RSpecs fuel) (hA : Agree c c') :
    RHolds c c' (property (fuel + 1)) (property (fuel + 1)) i (Moved c c' i) := by
  rw [property]
  refine rholds_bind (rholds_marker hA fun m m' hm hm' => ?_)
  refine rholds_bind (rholds_eatPunct hA (fun _ => ?_) fun _ => ?_)
  · -- a spread
    simp only [↓reduceIte]
    refine rholds_bind ((ih.assignment hA).mono fun a a' j haj => ?_)
    obtain ⟨hj, ha, ha', hfa⟩ := haj
    subst ha'
    exact rholds_finish_plain hA (by decide) hm hm' (by omega) (Clean.of_tail (by omega) ha hj)
      (by simp [move_def]) (by simpa using hfa)
  simp only [Bool.false_eq_true, ↓reduceIte]
  refine rholds_bind ((rholds_accessorPrefix hA (Q := fun a a' k => a' = a ∧
    (k = i ∨ Clean c.tokens i k)) ⟨rfl, Or.inl rfl⟩ fun t ht hid =>
      ⟨rfl, Or.inr (Clean.word ht (by rw [hid]; decide))⟩).mono fun acc acc' k haccs => ?_)
  obtain ⟨hacc, hk⟩ := haccs
  subst acc'
  refine rholds_bind ((ih.propertyKey hA).mono fun r r' l hrl => ?_)
  obtain ⟨hkey, hcomp, hshape⟩ := hrl
  obtain ⟨key, computed⟩ := r
  obtain ⟨key', computed'⟩ := r'
  dsimp only at hkey hcomp hshape ⊢
  subst computed'
  obtain ⟨hkl, hkc, hkey', hfk⟩ := hkey
  subst hkey'
  have hik : i ≤ k := hk.elim (fun h => h ▸ Nat.le_refl i) Clean.le
  -- the node, whatever its value; a shorthand value is the key, a name
  have hfin : ∀ (value : Node) (kind : String) (method shorthand : Bool) (n : Nat),
      Clean c.tokens l n → value.Facts c.tokens →
      (shorthand = true → value = key ∧ ∃ t, key = identifierNode t) →
      RHolds c c'
        (finish .property m [("key", .node key), ("value", .node value), ("kind", .text kind),
          ("method", .flag method), ("shorthand", .flag shorthand), ("computed", .flag computed)])
        (finish .property m' [("key", .node (move c.tokens c'.tokens key)),
          ("value", .node (move c.tokens c'.tokens value)), ("kind", .text kind),
          ("method", .flag method), ("shorthand", .flag shorthand), ("computed", .flag computed)])
        n (Moved c c' i) := by
    intro value kind method shorthand n hn hfv hsh
    refine rholds_finish_moved hA hm hm' (by have := hn.le; omega)
      (Clean.trans_of_eq_or hk (hkc.trans hn)) (by simp [move_def])
      (fun p hpk hpf => ⟨ChildKeys.standard_children_of_kind (by rw [hpk]; decide)
        (by rw [hpk]; decide), fun h => absurd (hpk.symm.trans h) (by decide), fun _ hflag => ?_⟩)
      (by simpa [or_imp, forall_and] using And.intro hfk hfv)
    have hshort : shorthand = true := by
      cases shorthand
      · simp [Node.flag, Node.field?, hpf] at hflag
      · rfl
    obtain ⟨rfl, t, rfl⟩ := hsh hshort
    exact ⟨t, by simp [Node.children, hpf]⟩
  cases acc with
  | some kind =>
    -- an accessor: the method
    dsimp only
    refine rholds_bind (rholds_map ((ih.methodFunction hA).mono
      fun v v' n hvn => ?_))
    obtain ⟨_, hv, hv', hfv⟩ := hvn
    subst hv'
    exact hfin v kind false false n hv hfv (by simp)
  | none =>
    dsimp only
    refine rholds_bind ((rholds_atPunct hA).2 (rholds_ite (fun _ => ?_) fun _ => ?_))
    · -- a method
      refine rholds_bind (rholds_map ((ih.methodFunction hA).mono
        fun v v' n hvn => ?_))
      obtain ⟨_, hv, hv', hfv⟩ := hvn
      subst hv'
      exact hfin v "init" true false n hv hfv (by simp)
    refine rholds_bind (rholds_eatPunct hA (fun hcolon => ?_) fun _ => ?_)
    · -- a value after a colon
      simp only [↓reduceIte]
      refine rholds_bind (rholds_map ((ih.assignment hA).mono
        fun v v' n hvn => ?_))
      obtain ⟨_, hv, hv', hfv⟩ := hvn
      subst hv'
      exact hfin v "init" false false n ((Clean.punct hcolon (by decide)).trans hv) hfv (by simp)
    · -- the key standing for itself
      simp only [Bool.false_eq_true, ↓reduceIte]
      have hkind : (move c.tokens c'.tokens key).kind = key.kind := by simp [move_def]
      rw [hkind]
      refine rholds_ite (fun hsh => ?_) fun _ => rholds_bind rholds_failExpected
      have hname : ∃ t, key = identifierNode t := by
        simp only [Bool.and_eq_true, beq_iff_eq, Bool.not_eq_true'] at hsh
        obtain ⟨t, ht | ht⟩ := hshape hsh.2
        · exact ⟨t, ht⟩
        · rw [ht] at hsh
          simp [literalNode] at hsh
      exact rholds_bind (rholds_pure (hfin key "init" false true l (Clean.refl hkc.le_size) hfk
        fun _ => ⟨rfl, hname⟩))

end Expressions

/-! ## Every budget -/

/-- Every guarantee at one budget gives every guarantee at the next. -/
lemma RSpecs.succ {fuel : Nat} (ih : RSpecs fuel) : RSpecs (fuel + 1) where
  statement hA := statement_rstep ih hA
  block hA := block_rstep ih hA
  blockBody hA hacc := blockBody_rstep ih hA hacc
  declarators hA := declarators_rstep ih hA
  declaratorList hA hacc := declaratorList_rstep ih hA hacc
  returnStatement hA hw := returnStatement_rstep ih hA hw
  ifStatement hA hw := ifStatement_rstep ih hA hw
  forInit hA := forInit_rstep ih hA
  forStatement hA hw := forStatement_rstep ih hA hw
  forEach hA hkind hw hm hm' hleft := forEach_rstep ih hA hkind hw hm hm' hleft
  whileStatement hA hw := whileStatement_rstep ih hA hw
  doWhileStatement hA hw := doWhileStatement_rstep ih hA hw
  switchStatement hA hw := switchStatement_rstep ih hA hw
  switchCases hA hacc := switchCases_rstep ih hA hacc
  caseBody hA hacc := caseBody_rstep ih hA hacc
  function hA hkind := function_rstep ih hA hkind
  methodFunction hA := methodFunction_rstep ih hA
  params hA := params_rstep ih hA
  paramList hA hacc := paramList_rstep ih hA hacc
  classDeclaration hA hw := classDeclaration_rstep ih hA hw
  classMembers hA hacc := classMembers_rstep ih hA hacc
  classMember hA := classMember_rstep ih hA
  propertyKey hA := propertyKey_rstep ih hA
  expression hA := expression_rstep ih hA
  sequenceRest hA hi hacc := sequenceRest_rstep ih hA hi hacc
  parenExpression hA := parenExpression_rstep ih hA
  assignment hA := assignment_rstep ih hA
  arrow hA := arrow_rstep ih hA
  conditional hA := conditional_rstep ih hA
  binary minPrec hA := binary_rstep ih hA minPrec
  binaryRest minPrec := fun hA hm hm' hleft => binaryRest_rstep ih hA minPrec hm hm' hleft
  unary hA := unary_rstep ih hA
  leftHandSide hA := leftHandSide_rstep ih hA
  newExpression hA := newExpression_rstep ih hA
  memberTail allowCall hA hm hm' he := memberTail_rstep ih hA allowCall hm hm' he
  arguments hA := arguments_rstep ih hA
  elementList close := fun hA hacc => elementList_rstep ih hA close hacc
  primary hA := primary_rstep ih hA
  object hA := object_rstep ih hA
  propertyList hA hacc := propertyList_rstep ih hA hacc
  property hA := property_rstep ih hA

/-- Every function of the grammar keeps its guarantee at every budget. -/
lemma rspecs : ∀ fuel, RSpecs fuel
  | 0 => rspecs_zero
  | fuel + 1 => (rspecs fuel).succ

/-- No program loop goes on at a dot. -/
lemma programBody_fails_at_dot {ts : Array Token} {i : Nat} (h : DotAt ts i) :
    ∀ fuel (acc : Array Node) {c : ParseContext}, c.tokens = ts →
      Holds c (programBody fuel acc) i fun _ _ => False
  | 0, _, _, _ => holds_outOfBudget.2 trivial
  | fuel + 1, acc, c, hc => by
    subst hc
    obtain ⟨t, ht, -, -⟩ := h.token
    rw [programBody]
    simp only [holds_bind, holds_peek, ht, Option.isNone_some, Bool.false_eq_true, ↓reduceIte]
    exact fun a j hx => (statement_fails_at_dot h fuel (by rfl) a j hx).elim

/-- The program loop in both runs: the same statements, each moved, with the dot facts. -/
lemma programBody_rmoved {c c' : ParseContext} (hA : Agree c c') :
    ∀ (fuel : Nat) {acc acc' : Array Node} {i : Nat}, AccMoved c c' acc acc' →
      RHolds c c' (programBody fuel acc) (programBody fuel acc') i fun r r' _ =>
        AccMoved c c' r r'
  | 0, _, _, _, _ => rholds_outOfBudget
  | fuel + 1, acc, acc', i, hacc => by
    rw [programBody, programBody]
    refine rholds_peek_bind hA (fun _ _ => ?_) fun _ _ _ _ _ _ => ?_
    · simp only [Option.isNone_none, ↓reduceIte]
      exact rholds_pure hacc
    simp only [Option.isNone_some, Bool.false_eq_true, ↓reduceIte]
    -- a statement that stops at a dot leaves a dot where no statement starts
    refine rholds_bind_of_unless (((rspecs fuel).statement hA).mono fun s s' j hs => ?_)
      fun s j hj => programBody_fails_at_dot hj fuel _ (by rfl)
    exact programBody_rmoved hA fuel (hacc.push hs)

/-! ## Programs -/

section Programs

variable {ts ts' : Array Token}

lemma SameTokens.map_view (h : SameTokens ts ts') :
    ts'.toList.map Token.view = ts.toList.map Token.view := by
  apply List.ext_getElem?
  intro k
  simp only [List.getElem?_map, Array.getElem?_toList]
  exact h k

/-- The pairing of brackets reads only the kinds and texts of the tokens. -/
lemma pairFrom_congr : ∀ {l l' : List Token}, l'.map Token.view = l.map Token.view →
    ∀ (k : Nat) (pending : List Nat) (acc : Array (Option Nat)),
      Brackets.pairFrom l' k pending acc = Brackets.pairFrom l k pending acc
  | [], [], _, _, _, _ => rfl
  | [], _ :: _, h, _, _, _ => by simp at h
  | _ :: _, [], h, _, _, _ => by simp at h
  | t :: l, t' :: l', h, k, pending, acc => by
    simp only [List.map_cons, List.cons.injEq, Token.view, Prod.mk.injEq] at h
    obtain ⟨⟨hk, ht⟩, hl⟩ := h
    have hopen : Brackets.isOpener t' = Brackets.isOpener t := by
      unfold Brackets.isOpener
      rw [hk, ht]
    have hclose : Brackets.isCloser t' = Brackets.isCloser t := by
      unfold Brackets.isCloser
      rw [hk, ht]
    simp only [Brackets.pairFrom, hopen, hclose, pairFrom_congr hl]

lemma matchBrackets_congr (h : SameTokens ts ts') : matchBrackets ts' = matchBrackets ts := by
  unfold matchBrackets
  rw [h.size, pairFrom_congr h.map_view]

/-- Two token arrays that a parse cannot tell apart: both in text order, of the same kinds
and texts, with the same line break before every token except a dot and the token right
after one. -/
structure TokensAgree (ts ts' : Array Token) : Prop where
  ordered : InTextOrder ts.toList
  ordered' : InTextOrder ts'.toList
  same : SameTokens ts ts'
  lineBreak : ∀ k, lineBreakBefore ts' k ≠ lineBreakBefore ts k →
    isDotAt ts k = true ∨ (0 < k ∧ isDotAt ts (k - 1) = true)

/-- The contexts a program is parsed in agree. -/
lemma TokensAgree.context (h : TokensAgree ts ts') :
    Agree ⟨ts, matchBrackets ts, true, 0⟩ ⟨ts', matchBrackets ts', true, 0⟩ :=
  ⟨h.ordered, h.ordered', h.same, matchBrackets_congr h.same, rfl, rfl, h.lineBreak⟩

end Programs

end Parse

open Parse in
/-- A program parsed from tokens is parsed again from any tokens it cannot tell apart, as the
same tree moved onto them; and every node of its tree has the dot facts. -/
theorem parse_moved {ts ts' : Array Token} {root : Node} (h : TokensAgree ts ts')
    (hp : parse ts = .ok root) : parse ts' = .ok (move ts ts' root) ∧ root.Facts ts := by
  have hA := h.context
  unfold parse at hp ⊢
  cases hrun : ((programBody (budget ts.size) #[]).run ⟨ts, matchBrackets ts, true, 0⟩).run 0 with
  | error e => simp [hrun] at hp
  | ok r =>
    obtain ⟨body, j⟩ := r
    obtain ⟨body', hrun', hbody', hfb⟩ := programBody_rmoved hA _ AccMoved.empty body j hrun
    have hsize := h.same.size
    rw [hsize]
    simp only [hrun, Except.ok.injEq] at hp
    subst hp
    refine ⟨?_, Node.Facts.of_children (Node.dotFacts_of_kind
      (ChildKeys.standard_children_of_kind (by simp) (by simp)) (by simp) (by simp))
      (by simpa [Node.children] using hfb)⟩
    simp only [hrun', hbody']
    by_cases hsz : ts.size = 0
    · -- no token: the empty program at the start, in both
      have he : ts = #[] := Array.eq_empty_of_size_eq_zero hsz
      have he' : ts' = #[] := Array.eq_empty_of_size_eq_zero (hsize.trans hsz)
      subst he he'
      simp [move_def, Node.respan, respanBy]
    · -- the program spans from the first token to the last, in both
      obtain ⟨first, h0⟩ : ∃ t, ts[0]? = some t := ⟨_, Array.getElem?_eq_getElem (by omega)⟩
      obtain ⟨last, hb⟩ : ∃ t, ts[ts.size - 1]? = some t :=
        ⟨_, Array.getElem?_eq_getElem (by omega)⟩
      obtain ⟨first', h0', -⟩ := h.same.getElem? h0
      obtain ⟨last', hb', -⟩ := h.same.getElem? hb
      have hback : ts.back? = some last := by rw [Array.back?_eq_getElem?, hb]
      have hback' : ts'.back? = some last' := by rw [Array.back?_eq_getElem?, hsize, hb']
      have hmv : move ts ts' ⟨.program, ⟨first.span.start, last.span.stop⟩,
          ⟨first.loc.start, last.loc.stop⟩, [("body", .list body.toList)]⟩ = _ :=
        hA.move_finished h0 hb h0' hb'
      simp only [h0, hback, h0', hback', hmv]
      simp [move_def]

end DotLint
