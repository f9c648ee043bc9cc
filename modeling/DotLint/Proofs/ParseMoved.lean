import Mathlib.Tactic.Lemma
import DotLint.Proofs.ParseAgree
import DotLint.Proofs.WalkPreorder

/-!
# Parsing moved tokens builds the moved tree

Two contexts in agreement (`Parse.Agree`) hold tokens of the same kinds and texts whose line
breaks differ at most around dots. Every function of the grammar, run in both, takes the same
decisions: when the run over the first tokens succeeds, so does the run over the second,
stopping at the same index, and it builds the same tree moved onto its own tokens
(`Parse.move`). `RSpecs fuel` collects this for every function of the mutual block at one
recursion budget, together with what the first run guarantees on its own:

* it stops cleanly (`Parse.Clean`): never right after a dot, a `?` or a `/`, since no
  construct of the grammar ends there;
* the tree it builds has the dot facts (`Node.Facts`) that the dot-location rule reads: the
  property of a non-computed member access is the word right after a dot, and the token
  before that dot is no dot, `?` or `/`.

A statement may end right before a dot, where the line break that lets it end may have moved.
There the second run may fail, so the statement-level functions are related only where the
first run does not stop at a dot (`RHoldsUnless`); the loops over statements discharge that
case, since no statement starts with a dot.

This module proves the statement-level steps; `DotLint.Proofs.ParseMovedExpressions` proves
the expression steps and puts them together.
-/

namespace DotLint

namespace Node

/-- What the dot-location rule reads off a node over the tokens `ts`: a walk by the standard
child keys enters all of its children; a non-computed member access holds its object and, as
its property, the word right after a dot, and the token before that dot is no dot, `?` or
`/`; a shorthand property holds one name as its key and as its value. -/
def DotFacts (ts : Array Token) (n : Node) : Prop :=
  ChildKeys.standard.children n = n.children ∧
  (n.kind = .memberExpression → n.flag "computed" = false →
    ∃ k t o optional, 2 ≤ k ∧ ts[k]? = some t ∧
      (t.kind != .punctuator && t.kind != .numeric && t.kind != .string) = true ∧
      n.fields = [("object", .node o), ("property", .node (Parse.identifierNode t)),
        ("computed", .flag false), ("optional", .flag optional)] ∧
      Parse.isDotAt ts (k - 1) = true ∧ Parse.isOpenAt ts (k - 2) = false) ∧
  (n.kind = .property → n.flag "shorthand" = true →
    ∃ t, n.children = [Parse.identifierNode t, Parse.identifierNode t])

/-- Every node of the tree of `n` has the dot facts. -/
def Facts (ts : Array Token) (n : Node) : Prop := ∀ d : Node, d.InTree n → d.DotFacts ts

variable {ts : Array Token} {n : Node}

/-- A node of any other kind, all of whose children the standard table gives, has the dot
facts. -/
lemma dotFacts_of_kind (hc : ChildKeys.standard.children n = n.children)
    (h : n.kind ≠ .memberExpression) (h' : n.kind ≠ .property) : n.DotFacts ts :=
  ⟨hc, fun hk => absurd hk h, fun hk => absurd hk h'⟩

/-- A tree has the dot facts when its root has them and the trees of its children do. -/
lemma Facts.of_children (hn : n.DotFacts ts) (hc : ∀ d ∈ n.children, d.Facts ts) :
    n.Facts ts := by
  intro d hd
  cases hd with
  | self => exact hn
  | child hmem hin => exact hc _ hmem _ hin

/-- A tree of one node of any other kind has the dot facts. -/
lemma Facts.of_leaf (h : n.kind ≠ .memberExpression) (h' : n.kind ≠ .property)
    (hc : n.children = []) : n.Facts ts :=
  Facts.of_children (dotFacts_of_kind ((ChildKeys.children_eq_nil hc).trans hc.symm) h h')
    (by simp [hc])

end Node

namespace Parse

/-! ## The relation of two runs -/

/-- The run over the first tokens read from `i` up to `j` and stopped cleanly, building `n`,
which has the dot facts; the run over the second built `n` moved onto its tokens. -/
def Moved (c c' : ParseContext) (i : Nat) (n n' : Node) (j : Nat) : Prop :=
  i < j ∧ Clean c.tokens i j ∧ n' = move c.tokens c'.tokens n ∧ n.Facts c.tokens

/-- Nodes that a loop collected in the first run, with the dot facts, and the same nodes
moved in the second. -/
def AccMoved (c c' : ParseContext) (acc acc' : Array Node) : Prop :=
  acc' = acc.map (move c.tokens c'.tokens) ∧ ∀ n ∈ acc.toList, n.Facts c.tokens

/-- A loop run from `i` up to `j` that stopped cleanly with the nodes it collected. -/
def MovedAll (c c' : ParseContext) (i : Nat) (acc acc' : Array Node) (j : Nat) : Prop :=
  Clean c.tokens i j ∧ AccMoved c c' acc acc'

/-- A list of nodes read from `i` up to `j`, which is past `i`. -/
def MovedList (c c' : ParseContext) (i : Nat) (ns ns' : List Node) (j : Nat) : Prop :=
  i < j ∧ Clean c.tokens i j ∧ ns' = ns.map (move c.tokens c'.tokens) ∧
    ∀ n ∈ ns, n.Facts c.tokens

/-- An optional node read from `i` up to `j`. -/
def MovedOpt (c c' : ParseContext) (i : Nat) (o o' : Option Node) (j : Nat) : Prop :=
  Clean c.tokens i j ∧ o' = o.map (move c.tokens c'.tokens) ∧ ∀ n ∈ o, n.Facts c.tokens

/-- Where the first run stops at a dot. -/
def DotAt (ts : Array Token) (j : Nat) : Prop := isDotAt ts j = true

/-- The token at `i` is a word: a name, a reserved word or a literal, no punctuator. -/
def WordAt (ts : Array Token) (i : Nat) : Prop := ∃ t, ts[i]? = some t ∧ t.kind ≠ .punctuator

/-! ## Runs that stop cleanly -/

section Clean

variable {ts : Array Token} {i j k : Nat}

lemma Clean.refl (hi : i ≤ ts.size) : Clean ts i i := ⟨Nat.le_refl i, hi, fun h => absurd h (by omega)⟩

lemma Clean.trans (h : Clean ts i k) (h' : Clean ts k j) : Clean ts i j := by
  refine ⟨by have := h.1; have := h'.1; omega, h'.2.1, fun hij => ?_⟩
  by_cases hkj : k < j
  · exact h'.2.2 hkj
  · have hk : k = j := by have := h'.1; omega
    subst hk
    exact h.2.2 hij

lemma Clean.le (h : Clean ts i j) : i ≤ j := h.1

/-- Whether a run stopped cleanly depends only on the last token it read. -/
lemma Clean.of_tail (h : i ≤ k) (h' : Clean ts k j) (hkj : k < j) : Clean ts i j :=
  ⟨by have := h'.1; omega, h'.2.1, fun _ => h'.2.2 hkj⟩

/-- A run that read nothing or stopped cleanly, then a clean run. -/
lemma Clean.trans_of_eq_or (h : k = i ∨ Clean ts i k) (h' : Clean ts k j) : Clean ts i j := by
  rcases h with rfl | h
  · exact h'
  · exact h.trans h'

lemma Clean.le_size (h : Clean ts i j) : j ≤ ts.size := h.2.1

/-- Reading one token that is no dot, `?` or `/` stops cleanly. -/
lemma Clean.token {t : Token} (ht : ts[i]? = some t) (hno : t.isOpen = false) :
    Clean ts i (i + 1) := by
  have hi := (Array.getElem?_eq_some_iff.1 ht).1
  refine ⟨Nat.le_succ i, hi, fun _ => ?_⟩
  simp [isOpenAt, ht, hno]

/-- Reading a punctuator other than a dot, `?` or `/` stops cleanly. -/
lemma Clean.punct {p : String} (h : ts[i]?.any (·.isPunct p) = true)
    (hp : p ≠ "." ∧ p ≠ "?." ∧ p ≠ "?" ∧ p ≠ "/") : Clean ts i (i + 1) := by
  obtain ⟨t, ht, htp⟩ : ∃ t, ts[i]? = some t ∧ t.isPunct p = true := by
    cases ht : ts[i]? with
    | none => simp [ht] at h
    | some t => exact ⟨t, rfl, by simpa [ht] using h⟩
  refine Clean.token ht ?_
  simp only [Token.isPunct, Bool.and_eq_true, beq_iff_eq] at htp
  simp [Token.isOpen, Token.isPunct, htp.2, hp.1, hp.2.1, hp.2.2.1, hp.2.2.2]

/-- Reading a reserved word stops cleanly. -/
lemma Clean.keyword {w : String} (h : ts[i]?.any (·.isKeyword w) = true) : Clean ts i (i + 1) := by
  obtain ⟨t, ht, htw⟩ : ∃ t, ts[i]? = some t ∧ t.isKeyword w = true := by
    cases ht : ts[i]? with
    | none => simp [ht] at h
    | some t => exact ⟨t, rfl, by simpa [ht] using h⟩
  refine Clean.token ht ?_
  simp only [Token.isKeyword, Bool.and_eq_true, beq_iff_eq] at htw
  simp [Token.isOpen, Token.isPunct, htw.1]

/-- Reading a token that is no punctuator stops cleanly. -/
lemma Clean.word {t : Token} (ht : ts[i]? = some t) (hk : t.kind ≠ .punctuator) :
    Clean ts i (i + 1) :=
  Clean.token ht (by simp [Token.isOpen, Token.isPunct, hk])

lemma WordAt.clean (h : WordAt ts i) : Clean ts i (i + 1) := by
  obtain ⟨t, ht, hk⟩ := h
  exact Clean.word ht hk

lemma wordAt_of_isKeyword {t : Token} {w : String} (ht : ts[i]? = some t)
    (h : t.isKeyword w = true) : WordAt ts i := by
  refine ⟨t, ht, ?_⟩
  simp only [Token.isKeyword, Bool.and_eq_true, beq_iff_eq] at h
  rw [h.1]
  decide

lemma wordAt_of_any {p : Token → Bool} (h : ts[i]?.any p = true)
    (hp : ∀ t, p t = true → t.kind ≠ .punctuator) : WordAt ts i := by
  cases ht : ts[i]? with
  | none => simp [ht] at h
  | some t => exact ⟨t, ht, hp t (by simpa [ht] using h)⟩

end Clean

/-! ## No statement starts with a dot -/

section AtDot

variable {c : ParseContext} {i : Nat}

/-- The token at a dot index is the punctuator `.` or `?.`. -/
lemma DotAt.token (h : DotAt c.tokens i) :
    ∃ t, c.tokens[i]? = some t ∧ t.kind = .punctuator ∧ (t.text = "." ∨ t.text = "?.") := by
  unfold DotAt isDotAt at h
  cases ht : c.tokens[i]? with
  | none => simp [ht] at h
  | some t =>
    simp only [ht, Option.any_some, Bool.or_eq_true, Token.isPunct, Bool.and_eq_true,
      beq_iff_eq] at h
    rcases h with ⟨hk, ht'⟩ | ⟨hk, ht'⟩
    · exact ⟨t, rfl, hk, Or.inl ht'⟩
    · exact ⟨t, rfl, hk, Or.inr ht'⟩

lemma DotAt.not_punct {p : String} (h : DotAt c.tokens i) (hp : p ≠ "." ∧ p ≠ "?.") :
    c.tokens[i]?.any (·.isPunct p) = false := by
  obtain ⟨t, ht, -, htext⟩ := h.token
  rcases htext with htext | htext <;> simp [ht, Token.isPunct, htext, Ne.symm hp.1, Ne.symm hp.2]

lemma DotAt.not_keyword {w : String} (h : DotAt c.tokens i) :
    c.tokens[i]?.any (·.isKeyword w) = false := by
  obtain ⟨t, ht, hk, -⟩ := h.token
  simp [ht, Token.isKeyword, hk]

lemma primary_fails_at_dot {ts : Array Token} (h : DotAt ts i) :
    ∀ fuel {c : ParseContext}, c.tokens = ts → Holds c (primary fuel) i fun _ _ => False
  | 0, _, _ => holds_outOfBudget.2 trivial
  | fuel + 1, c, hc => by
    subst hc
    obtain ⟨t, ht, hk, htext⟩ := h.token
    rw [primary, holds_bind, holds_peek, ht]
    dsimp only
    rw [hk]
    rcases htext with htext | htext <;>
      simp [htext, openBrace]

lemma leftHandSide_fails_at_dot {ts : Array Token} (h : DotAt ts i) :
    ∀ fuel {c : ParseContext}, c.tokens = ts → Holds c (leftHandSide fuel) i fun _ _ => False
  | 0, _, _ => holds_outOfBudget.2 trivial
  | fuel + 1, c, hc => by
    subst hc
    obtain ⟨t, ht, hk, -⟩ := h.token
    rw [leftHandSide, holds_bind]
    refine holds_marker fun _ _ => ?_
    have hnew : c.tokens[i]?.any (·.isKeyword "new") = false := by simp [ht, Token.isKeyword, hk]
    simp only [holds_bind, holds_atKeyword, hnew, Bool.false_eq_true, ↓reduceIte]
    exact fun a j hx => (primary_fails_at_dot h fuel (by rfl) a j hx).elim

lemma unary_fails_at_dot {ts : Array Token} (h : DotAt ts i) :
    ∀ fuel {c : ParseContext}, c.tokens = ts → Holds c (unary fuel) i fun _ _ => False
  | 0, _, _ => holds_outOfBudget.2 trivial
  | fuel + 1, c, hc => by
    subst hc
    obtain ⟨t, ht, hk, htext⟩ := h.token
    rw [unary, holds_nested]
    intro _
    rw [holds_bind]
    refine holds_marker fun _ _ => ?_
    simp only [holds_bind, holds_peek, ht]
    have hnot : isUnaryOperator t = false ∧ (t.isPunct "++" || t.isPunct "--") = false := by
      rcases htext with htext | htext <;> simp [isUnaryOperator, Token.isPunct, hk, htext]
    simp only [hnot, Bool.false_eq_true, ↓reduceIte, holds_bind]
    exact fun a j hx => (leftHandSide_fails_at_dot h fuel (by rfl) a j hx).elim

lemma binary_fails_at_dot {ts : Array Token} (h : DotAt ts i) (minPrec : Nat) :
    ∀ fuel {c : ParseContext}, c.tokens = ts → Holds c (binary fuel minPrec) i fun _ _ => False
  | 0, _, _ => holds_outOfBudget.2 trivial
  | fuel + 1, c, hc => by
    rw [binary, holds_bind]
    refine holds_marker fun _ _ => ?_
    rw [holds_bind]
    exact fun a j hx => (unary_fails_at_dot h fuel hc a j hx).elim

lemma conditional_fails_at_dot {ts : Array Token} (h : DotAt ts i) :
    ∀ fuel {c : ParseContext}, c.tokens = ts → Holds c (conditional fuel) i fun _ _ => False
  | 0, _, _ => holds_outOfBudget.2 trivial
  | fuel + 1, c, hc => by
    rw [conditional, holds_bind]
    refine holds_marker fun _ _ => ?_
    rw [holds_bind]
    exact fun a j hx => (binary_fails_at_dot h 1 fuel hc a j hx).elim

lemma arrow_fails_at_dot {ts : Array Token} (h : DotAt ts i) :
    ∀ fuel {c : ParseContext}, c.tokens = ts → Holds c (arrow fuel) i fun _ _ => False
  | 0, _, _ => holds_outOfBudget.2 trivial
  | fuel + 1, c, hc => by
    subst hc
    obtain ⟨t, ht, hk, htext⟩ := h.token
    rw [arrow, holds_bind]
    refine holds_marker fun _ _ => ?_
    have hparen : c.tokens[i]?.any (·.isPunct "(") = false := by
      rcases htext with htext | htext <;> simp [ht, Token.isPunct, htext]
    simp only [holds_bind, holds_atPunct, hparen, Bool.false_eq_true, ↓reduceIte, holds_map]
    unfold bindingIdentifier
    simp [ht, hk]

lemma assignment_fails_at_dot {ts : Array Token} (h : DotAt ts i) :
    ∀ fuel {c : ParseContext}, c.tokens = ts → Holds c (assignment fuel) i fun _ _ => False
  | 0, _, _ => holds_outOfBudget.2 trivial
  | fuel + 1, c, hc => by
    rw [assignment, holds_nested]
    intro _
    rw [holds_bind]
    refine holds_isArrowStart fun b => ?_
    cases b
    · simp only [Bool.false_eq_true, ↓reduceIte, holds_bind]
      refine holds_marker fun _ _ => ?_
      exact fun a j hx => (conditional_fails_at_dot h fuel (by exact hc) a j hx).elim
    · simp only [↓reduceIte]
      exact arrow_fails_at_dot h fuel (by exact hc)

lemma expression_fails_at_dot {ts : Array Token} (h : DotAt ts i) :
    ∀ fuel {c : ParseContext}, c.tokens = ts → Holds c (expression fuel) i fun _ _ => False
  | 0, _, _ => holds_outOfBudget.2 trivial
  | fuel + 1, c, hc => by
    rw [expression, holds_bind]
    refine holds_marker fun _ _ => ?_
    rw [holds_bind]
    exact fun a j hx => (assignment_fails_at_dot h fuel hc a j hx).elim

/-- No statement starts with a dot. -/
lemma statement_fails_at_dot {ts : Array Token} (h : DotAt ts i) :
    ∀ fuel {c : ParseContext}, c.tokens = ts → Holds c (statement fuel) i fun _ _ => False
  | 0, _, _ => holds_outOfBudget.2 trivial
  | fuel + 1, c, hc => by
    subst hc
    obtain ⟨t, ht, hk, htext⟩ := h.token
    rw [statement, holds_nested]
    intro _
    rw [holds_bind, holds_peek, ht]
    dsimp only
    -- a dot is none of the tokens that start another statement
    have hexpr : Holds ⟨c.tokens, c.closers, c.allowIn, c.depth + 1⟩ (do
        let m ← marker
        let e ← expression fuel
        consumeSemicolon
        finish .expressionStatement m [("expression", .node e)]) i fun _ _ => False := by
      rw [holds_bind]
      refine holds_marker fun _ _ => ?_
      rw [holds_bind]
      exact fun a j hx => (expression_fails_at_dot h fuel (by rfl) a j hx).elim
    rcases htext with htext | htext <;>
      simpa [Token.isPunct, Token.isKeyword, isDeclarationKeyword, hk, htext, openBrace] using hexpr

end AtDot

/-- Kinds of node that are no member access, no property and no array or object literal,
which the dot facts say nothing about beyond their children. -/
def PlainKind (kind : NodeKind) : Prop :=
  kind ≠ .memberExpression ∧ kind ≠ .property ∧ kind ≠ .arrayExpression ∧
    kind ≠ .objectExpression

instance (kind : NodeKind) : Decidable (PlainKind kind) :=
  inferInstanceAs (Decidable (_ ∧ _ ∧ _ ∧ _))

/-! ## Building blocks of the steps -/

section Blocks

variable {c c' : ParseContext} {i : Nat}

lemma isDotAt_eq_false_of_isOpenAt {ts : Array Token} {k : Nat} (h : isOpenAt ts k = false) :
    isDotAt ts k = false := by
  unfold isOpenAt at h
  unfold isDotAt
  cases ht : ts[k]? with
  | none => rfl
  | some t =>
    simp only [ht, Option.any_some, Token.isOpen, Bool.or_eq_false_iff] at h
    simp [h.1.1.1, h.1.1.2]

lemma isDotAt_of_kind {ts : Array Token} {k : Nat} {t : Token} (ht : ts[k]? = some t)
    (hk : t.kind ≠ .punctuator) : isDotAt ts k = false := by
  simp [isDotAt, ht, Token.isPunct, hk]

lemma WordAt.not_dot {ts : Array Token} {k : Nat} (h : WordAt ts k) : isDotAt ts k = false := by
  obtain ⟨t, ht, hk⟩ := h
  exact isDotAt_of_kind ht hk

/-- A clean run that read a token did not stop right after a dot. -/
lemma Clean.prev_not_dot {ts : Array Token} {j : Nat} (h : Clean ts i j) (hij : i < j) :
    0 < j → isDotAt ts (j - 1) = false :=
  fun _ => isDotAt_eq_false_of_isOpenAt (h.2.2 hij)

lemma AccMoved.empty : AccMoved c c' #[] #[] := ⟨by simp, by simp⟩

lemma AccMoved.push {acc acc' : Array Node} {n n' : Node} {j : Nat}
    (h : AccMoved c c' acc acc') (hn : Moved c c' i n n' j) :
    AccMoved c c' (acc.push n) (acc'.push n') := by
  obtain ⟨rfl, hf⟩ := h
  obtain ⟨-, -, rfl, hnf⟩ := hn
  refine ⟨by simp, fun d hd => ?_⟩
  simp only [Array.toList_push, List.mem_append, List.mem_singleton] at hd
  rcases hd with hd | rfl
  · exact hf d hd
  · exact hnf

lemma facts_identifierNode {ts : Array Token} (t : Token) : (identifierNode t).Facts ts :=
  Node.Facts.of_leaf (by simp [identifierNode]) (by simp [identifierNode])
    (by simp [identifierNode, Node.children])

lemma facts_literalNode {ts : Array Token} (t : Token) : (literalNode t).Facts ts :=
  Node.Facts.of_leaf (by simp [literalNode]) (by simp [literalNode])
    (by simp [literalNode, Node.children])

/-- A name being bound, read in both runs: one node, moved. -/
lemma rholds_bindingName (hA : Agree c c') :
    RHolds c c' bindingIdentifier bindingIdentifier i (Moved c c' i) :=
  rholds_bindingIdentifier hA fun t _ ht ht' _ htext hid =>
    ⟨Nat.lt_succ_self i, Clean.word ht (by rw [hid]; decide),
      (hA.move_identifierNode ht ht' htext).symm, facts_identifierNode t⟩

/-- `finish` does not move the index. -/
lemma holds_finish_stays {m : Marker} {kind : NodeKind} {F : List (String × Field Node)}
    {j : Nat} : Holds c (finish kind m F) j fun _ l => l = j := by
  unfold finish previous
  simp [holds_bind, holds_get, holds_read, holds_pure, holds_ite]

/-- `finish` after a clean run from the marker's token: in both runs the node, and the node
moved, with the dot facts when its own hold and its children's trees have them. -/
lemma rholds_finish_moved (hA : Agree c c') {m m' : Marker} {kind : NodeKind}
    {F F' : List (String × Field Node)} {i₀ j : Nat}
    (hm : MarkerAt c.tokens m i₀) (hm' : MarkerAt c'.tokens m' i₀) (hij : i₀ < j)
    (hclean : Clean c.tokens i₀ j) (hF : F' = Node.respanFields (respanBy c.tokens c'.tokens) F)
    (hdot : ∀ n : Node, n.kind = kind → n.fields = F → n.DotFacts c.tokens)
    (hch : ∀ d ∈ F.flatMap (·.2.nodes), d.Facts c.tokens) :
    RHolds c c' (finish kind m F) (finish kind m' F') j (Moved c c' i₀) :=
  rholds_finish hA hm hm' hij hclean.le_size hF fun n hk hfields _ =>
    ⟨hij, hclean, rfl, Node.Facts.of_children (hdot n hk hfields)
      (by rw [Node.children, hfields]; exact hch)⟩

/-- `finish` of a node that is no member access and no property. -/
lemma rholds_finish_plain (hA : Agree c c') {m m' : Marker} {kind : NodeKind}
    {F F' : List (String × Field Node)} {i₀ j : Nat} (hkind : PlainKind kind)
    (hm : MarkerAt c.tokens m i₀) (hm' : MarkerAt c'.tokens m' i₀) (hij : i₀ < j)
    (hclean : Clean c.tokens i₀ j) (hF : F' = Node.respanFields (respanBy c.tokens c'.tokens) F)
    (hch : ∀ d ∈ F.flatMap (·.2.nodes), d.Facts c.tokens) :
    RHolds c c' (finish kind m F) (finish kind m' F') j (Moved c c' i₀) :=
  rholds_finish_moved hA hm hm' hij hclean hF
    (fun _ hk _ => Node.dotFacts_of_kind
      (ChildKeys.standard_children_of_kind (hk ▸ hkind.2.2.1) (hk ▸ hkind.2.2.2))
      (hk ▸ hkind.1) (hk ▸ hkind.2.1)) hch

/-- `finish` of an array or object literal, whose one field holds the children that the
standard table names for its kind. -/
lemma rholds_finish_literal (hA : Agree c c') {m m' : Marker} {kind : NodeKind}
    {name : String} {f : Field Node} {F' : List (String × Field Node)} {i₀ j : Nat}
    (hkeys : ChildKeys.standard.keys? kind = some [name])
    (hkind : kind ≠ .memberExpression ∧ kind ≠ .property)
    (hm : MarkerAt c.tokens m i₀) (hm' : MarkerAt c'.tokens m' i₀) (hij : i₀ < j)
    (hclean : Clean c.tokens i₀ j)
    (hF : F' = Node.respanFields (respanBy c.tokens c'.tokens) [(name, f)])
    (hch : ∀ d ∈ f.nodes, d.Facts c.tokens) :
    RHolds c c' (finish kind m [(name, f)]) (finish kind m' F') j (Moved c c' i₀) :=
  rholds_finish_moved hA hm hm' hij hclean hF
    (fun _ hk hf => Node.dotFacts_of_kind
      (ChildKeys.standard_children_of_fields (hk ▸ hkeys) hf) (hk ▸ hkind.1) (hk ▸ hkind.2))
    (by simpa using hch)

/-- The end of a statement after a clean run: an optional semicolon, then the node. -/
lemma rholdsUnless_semicolon_finish (hA : Agree c c') {m m' : Marker} {kind : NodeKind}
    {F F' : List (String × Field Node)} {i₀ k : Nat} (hkind : PlainKind kind)
    (hm : MarkerAt c.tokens m i₀) (hm' : MarkerAt c'.tokens m' i₀) (hik : i₀ < k)
    (hclean : Clean c.tokens i₀ k) (hF : F' = Node.respanFields (respanBy c.tokens c'.tokens) F)
    (hch : ∀ d ∈ F.flatMap (·.2.nodes), d.Facts c.tokens) :
    RHoldsUnless (DotAt c.tokens) c c' (consumeSemicolon >>= fun _ => finish kind m F)
      (consumeSemicolon >>= fun _ => finish kind m' F') k (Moved c c' i₀) := by
  refine rholdsUnless_bind ((rholdsUnless_consumeSemicolon hA (hclean.prev_not_dot hik)).mono
    fun _ _ l hl => ?_) fun _ j hj => holds_finish_stays.mono fun _ l hl => hl ▸ hj
  -- the semicolon, if read, is no dot
  have hl : Clean c.tokens i₀ l := by
    rcases hl with rfl | ⟨rfl, hsemi⟩
    · exact hclean
    · exact hclean.trans (Clean.punct hsemi (by decide))
  exact (rholds_finish_plain hA hkind hm hm' (by have := hl.le; omega) hl hF hch).unless _

/-- `break` and `continue`: the keyword, a label on the same line, an optional semicolon. A
label is a name, so the line break before it is the same in both runs. -/
lemma rholdsUnless_jump (hA : Agree c c') {kind : NodeKind} (hkind : PlainKind kind)
    {tok : Token} (ht : c.tokens[i]? = some tok) (hk : tok.kind = .keyword) :
    RHoldsUnless (DotAt c.tokens) c c' (jump kind) (jump kind) i (Moved c c' i) := by
  unfold jump
  refine rholds_bind_unless (rholds_marker hA fun m m' hm hm' => ?_)
  refine rholds_bind_unless (rholds_skip.2 ?_)
  have hkw : Clean c.tokens i (i + 1) := Clean.word ht (by rw [hk]; decide)
  -- whatever the label, the statement ends with an optional semicolon
  have hrest : ∀ (label : Option Node) (k : Nat), Clean c.tokens (i + 1) k →
      (∀ n ∈ label, n.Facts c.tokens) →
      RHoldsUnless (DotAt c.tokens) c c'
        (consumeSemicolon >>= fun _ => finish kind m [("label", .ofOption label)])
        (consumeSemicolon >>= fun _ =>
          finish kind m' [("label", .ofOption (label.map (move c.tokens c'.tokens)))]) k
        (Moved c c' i) := fun label k hl hlf =>
    rholdsUnless_semicolon_finish hA hkind hm hm' (by have := hl.le; omega) (hkw.trans hl)
      (by simp [move_def]) (by simpa using hlf)
  refine rholdsUnless_peek_bind hA (fun _ _ => hrest none _ (Clean.refl hkw.le_size) (by simp))
    fun t t' ht1 ht1' hk1 htext1 => ?_
  dsimp only
  refine rholds_bind_unless (rholds_newlineBefore.2 ?_)
  rw [hk1]
  by_cases hid : t.kind = .identifier
  · -- a name after the keyword: no dot on either side of the line break
    have hnb := hA.lineBreakBefore_eq (isDotAt_of_kind ht1 (by rw [hid]; decide))
      (fun _ => isDotAt_of_kind ht (by rw [hk]; decide))
    rw [hnb]
    refine rholdsUnless_ite (fun _ => ?_) fun _ => hrest none _ (Clean.refl hkw.le_size) (by simp)
    refine rholds_bind_unless (rholds_skip.2 ?_)
    have hlabel := hrest (some (identifierNode t)) _ (Clean.word ht1 (by rw [hid]; decide))
      (by simpa using facts_identifierNode t)
    simpa [hA.move_identifierNode ht1 ht1' htext1] using hlabel
  · have hf : (t.kind == .identifier) = false := by simpa using hid
    simp only [hf, Bool.false_and, Bool.false_eq_true, ↓reduceIte]
    exact hrest none _ (Clean.refl hkw.le_size) (by simp)

end Blocks

/-! ## The guarantees of every function -/

/-- What each function of the grammar guarantees of two runs in agreement, with a recursion
budget of `fuel`, from the index `i`. -/
structure RSpecs (fuel : Nat) : Prop where
  statement : ∀ {c c' : ParseContext} {i : Nat}, Agree c c' →
    RHoldsUnless (DotAt c.tokens) c c' (statement fuel) (statement fuel) i (Moved c c' i)
  block : ∀ {c c' : ParseContext} {i : Nat}, Agree c c' →
    RHolds c c' (block fuel) (block fuel) i (Moved c c' i)
  blockBody : ∀ {c c' : ParseContext} {i : Nat} {acc acc' : Array Node}, Agree c c' →
    AccMoved c c' acc acc' →
    RHolds c c' (blockBody fuel acc) (blockBody fuel acc') i (MovedAll c c' i)
  declarators : ∀ {c c' : ParseContext} {i : Nat}, Agree c c' →
    RHolds c c' (declarators fuel) (declarators fuel) i fun r r' j =>
      r'.1 = r.1 ∧ MovedList c c' (i + 1) r.2 r'.2 j
  declaratorList : ∀ {c c' : ParseContext} {i : Nat} {acc acc' : Array Node}, Agree c c' →
    AccMoved c c' acc acc' →
    RHolds c c' (declaratorList fuel acc) (declaratorList fuel acc') i fun r r' j =>
      i < j ∧ MovedAll c c' i r r' j
  returnStatement : ∀ {c c' : ParseContext} {i : Nat}, Agree c c' → WordAt c.tokens i →
    RHoldsUnless (DotAt c.tokens) c c' (returnStatement fuel) (returnStatement fuel) i
      (Moved c c' i)
  ifStatement : ∀ {c c' : ParseContext} {i : Nat}, Agree c c' → WordAt c.tokens i →
    RHoldsUnless (DotAt c.tokens) c c' (ifStatement fuel) (ifStatement fuel) i (Moved c c' i)
  forInit : ∀ {c c' : ParseContext} {i : Nat}, Agree c c' →
    RHolds c c' (forInit fuel) (forInit fuel) i fun o o' j =>
      Clean c.tokens i j ∧ o' = o.map (move c.tokens c'.tokens) ∧ ∀ n ∈ o, n.Facts c.tokens
  forStatement : ∀ {c c' : ParseContext} {i : Nat}, Agree c c' → WordAt c.tokens i →
    RHoldsUnless (DotAt c.tokens) c c' (forStatement fuel) (forStatement fuel) i (Moved c c' i)
  forEach : ∀ {c c' : ParseContext} {i₀ i : Nat} {m m' : Marker} {kind : NodeKind}
    {left left' : Node}, Agree c c' → PlainKind kind → WordAt c.tokens i →
    MarkerAt c.tokens m i₀ → MarkerAt c'.tokens m' i₀ → Moved c c' i₀ left left' i →
    RHoldsUnless (DotAt c.tokens) c c' (forEach fuel m kind left) (forEach fuel m' kind left') i
      (Moved c c' i₀)
  whileStatement : ∀ {c c' : ParseContext} {i : Nat}, Agree c c' → WordAt c.tokens i →
    RHoldsUnless (DotAt c.tokens) c c' (whileStatement fuel) (whileStatement fuel) i
      (Moved c c' i)
  doWhileStatement : ∀ {c c' : ParseContext} {i : Nat}, Agree c c' → WordAt c.tokens i →
    RHolds c c' (doWhileStatement fuel) (doWhileStatement fuel) i (Moved c c' i)
  switchStatement : ∀ {c c' : ParseContext} {i : Nat}, Agree c c' → WordAt c.tokens i →
    RHolds c c' (switchStatement fuel) (switchStatement fuel) i (Moved c c' i)
  switchCases : ∀ {c c' : ParseContext} {i : Nat} {acc acc' : Array Node}, Agree c c' →
    AccMoved c c' acc acc' →
    RHolds c c' (switchCases fuel acc) (switchCases fuel acc') i (MovedAll c c' i)
  caseBody : ∀ {c c' : ParseContext} {i : Nat} {acc acc' : Array Node}, Agree c c' →
    AccMoved c c' acc acc' →
    RHolds c c' (caseBody fuel acc) (caseBody fuel acc') i (MovedAll c c' i)
  function : ∀ {c c' : ParseContext} {i : Nat} {kind : NodeKind}, Agree c c' → PlainKind kind →
    RHolds c c' (function fuel kind) (function fuel kind) i (Moved c c' i)
  methodFunction : ∀ {c c' : ParseContext} {i : Nat}, Agree c c' →
    RHolds c c' (methodFunction fuel) (methodFunction fuel) i (Moved c c' i)
  params : ∀ {c c' : ParseContext} {i : Nat}, Agree c c' →
    RHolds c c' (params fuel) (params fuel) i (MovedList c c' i)
  paramList : ∀ {c c' : ParseContext} {i : Nat} {acc acc' : Array Node}, Agree c c' →
    AccMoved c c' acc acc' →
    RHolds c c' (paramList fuel acc) (paramList fuel acc') i (MovedAll c c' i)
  classDeclaration : ∀ {c c' : ParseContext} {i : Nat}, Agree c c' → WordAt c.tokens i →
    RHolds c c' (classDeclaration fuel) (classDeclaration fuel) i (Moved c c' i)
  classMembers : ∀ {c c' : ParseContext} {i : Nat} {acc acc' : Array Node}, Agree c c' →
    AccMoved c c' acc acc' →
    RHolds c c' (classMembers fuel acc) (classMembers fuel acc') i (MovedAll c c' i)
  classMember : ∀ {c c' : ParseContext} {i : Nat}, Agree c c' →
    RHolds c c' (classMember fuel) (classMember fuel) i (Moved c c' i)
  propertyKey : ∀ {c c' : ParseContext} {i : Nat}, Agree c c' →
    RHolds c c' (propertyKey fuel) (propertyKey fuel) i fun r r' j =>
      Moved c c' i r.1 r'.1 j ∧ r'.2 = r.2 ∧
        (r.2 = false → ∃ t, r.1 = identifierNode t ∨ r.1 = literalNode t)
  expression : ∀ {c c' : ParseContext} {i : Nat}, Agree c c' →
    RHolds c c' (expression fuel) (expression fuel) i (Moved c c' i)
  sequenceRest : ∀ {c c' : ParseContext} {i : Nat} {acc acc' : Array Node}, Agree c c' →
    i ≤ c.tokens.size → AccMoved c c' acc acc' →
    RHolds c c' (sequenceRest fuel acc) (sequenceRest fuel acc') i (MovedAll c c' i)
  parenExpression : ∀ {c c' : ParseContext} {i : Nat}, Agree c c' →
    RHolds c c' (parenExpression fuel) (parenExpression fuel) i (Moved c c' i)
  assignment : ∀ {c c' : ParseContext} {i : Nat}, Agree c c' →
    RHolds c c' (assignment fuel) (assignment fuel) i (Moved c c' i)
  arrow : ∀ {c c' : ParseContext} {i : Nat}, Agree c c' →
    RHolds c c' (arrow fuel) (arrow fuel) i (Moved c c' i)
  conditional : ∀ {c c' : ParseContext} {i : Nat}, Agree c c' →
    RHolds c c' (conditional fuel) (conditional fuel) i (Moved c c' i)
  binary : ∀ {c c' : ParseContext} {i : Nat} (minPrec : Nat), Agree c c' →
    RHolds c c' (binary fuel minPrec) (binary fuel minPrec) i (Moved c c' i)
  binaryRest : ∀ {c c' : ParseContext} {i₀ i : Nat} (minPrec : Nat) {m m' : Marker}
    {left left' : Node}, Agree c c' → MarkerAt c.tokens m i₀ → MarkerAt c'.tokens m' i₀ →
    Moved c c' i₀ left left' i →
    RHolds c c' (binaryRest fuel minPrec m left) (binaryRest fuel minPrec m' left') i
      (Moved c c' i₀)
  unary : ∀ {c c' : ParseContext} {i : Nat}, Agree c c' →
    RHolds c c' (unary fuel) (unary fuel) i (Moved c c' i)
  leftHandSide : ∀ {c c' : ParseContext} {i : Nat}, Agree c c' →
    RHolds c c' (leftHandSide fuel) (leftHandSide fuel) i (Moved c c' i)
  newExpression : ∀ {c c' : ParseContext} {i : Nat}, Agree c c' →
    RHolds c c' (newExpression fuel) (newExpression fuel) i (Moved c c' i)
  memberTail : ∀ {c c' : ParseContext} {i₀ i : Nat} {m m' : Marker} {e e' : Node}
    (allowCall : Bool), Agree c c' → MarkerAt c.tokens m i₀ → MarkerAt c'.tokens m' i₀ →
    Moved c c' i₀ e e' i →
    RHolds c c' (memberTail fuel m e allowCall) (memberTail fuel m' e' allowCall) i
      (Moved c c' i₀)
  arguments : ∀ {c c' : ParseContext} {i : Nat}, Agree c c' →
    RHolds c c' (arguments fuel) (arguments fuel) i (MovedList c c' i)
  elementList : ∀ {c c' : ParseContext} {i : Nat} (close : String) {acc acc' : Array Node},
    Agree c c' → AccMoved c c' acc acc' →
    RHolds c c' (elementList fuel close acc) (elementList fuel close acc') i (MovedAll c c' i)
  primary : ∀ {c c' : ParseContext} {i : Nat}, Agree c c' →
    RHolds c c' (primary fuel) (primary fuel) i (Moved c c' i)
  object : ∀ {c c' : ParseContext} {i : Nat}, Agree c c' →
    RHolds c c' (object fuel) (object fuel) i (Moved c c' i)
  propertyList : ∀ {c c' : ParseContext} {i : Nat} {acc acc' : Array Node}, Agree c c' →
    AccMoved c c' acc acc' →
    RHolds c c' (propertyList fuel acc) (propertyList fuel acc') i (MovedAll c c' i)
  property : ∀ {c c' : ParseContext} {i : Nat}, Agree c c' →
    RHolds c c' (property fuel) (property fuel) i (Moved c c' i)

/-- With no budget every first run fails at once, so each guarantee holds. -/
lemma rspecs_zero : RSpecs 0 := by
  constructor <;> intros <;>
    first
    | exact (RHolds.of_holds_false (holds_outOfBudget.2 trivial)).unless _
    | exact RHolds.of_holds_false (holds_outOfBudget.2 trivial)


/-! ## Statements -/

section Statements

variable {fuel : Nat} {c c' : ParseContext} {i : Nat}

lemma isDeclarationKeyword_congr {t t' : Token} (hk : t'.kind = t.kind) (ht : t'.text = t.text) :
    isDeclarationKeyword t' = isDeclarationKeyword t := by
  simp [isDeclarationKeyword, hk, ht]

lemma wordAt_of_isDeclarationKeyword {ts : Array Token} {t : Token} (ht : ts[i]? = some t)
    (h : isDeclarationKeyword t = true) : WordAt ts i := by
  refine ⟨t, ht, ?_⟩
  simp only [isDeclarationKeyword, Bool.and_eq_true, beq_iff_eq] at h
  rw [h.1]
  decide

/-- No loop over the statements of a block goes on at a dot. -/
lemma blockBody_fails_at_dot {ts : Array Token} (h : DotAt ts i) :
    ∀ fuel (acc : Array Node) {c : ParseContext}, c.tokens = ts →
      Holds c (blockBody fuel acc) i fun _ _ => False
  | 0, _, _, _ => holds_outOfBudget.2 trivial
  | fuel + 1, acc, c, hc => by
    subst hc
    obtain ⟨t, ht, hk, htext⟩ := h.token
    rw [blockBody]
    have hclose : t.isPunct closeBrace = false := by
      rcases htext with htext | htext <;> simp [Token.isPunct, htext, closeBrace]
    simp only [holds_bind, holds_atPunct, ht, Option.any_some, hclose, holds_peek,
      Option.isNone_some, Bool.false_eq_true, holds_ite]
    exact ⟨fun h => h.elim, fun _ => ⟨fun h => h.elim, fun _ a j hx =>
      (statement_fails_at_dot h fuel (by rfl) _ _ hx).elim⟩⟩

/-- A statement in both runs: the same kind of statement, chosen by its first token. -/
lemma statement_rstep (ih : RSpecs fuel) (hA : Agree c c') :
    RHoldsUnless (DotAt c.tokens) c c' (statement (fuel + 1)) (statement (fuel + 1)) i
      (Moved c c' i) := by
  rw [statement]
  refine rholdsUnless_nested hA fun _ => ?_
  have hA' := hA.nested
  refine rholdsUnless_peek_bind hA' (fun _ _ => ?_) fun tok tok' ht _ hk htext => ?_
  · exact rholds_failUnexpected.unless _
  dsimp only
  simp only [isPunct_congr tok tok' hk htext, isKeyword_congr tok tok' hk htext,
    isDeclarationKeyword_congr hk htext]
  refine rholdsUnless_ite (fun _ => (ih.block hA').unless _) fun _ => ?_
  refine rholdsUnless_ite (fun hsemi => ?_) fun _ => ?_
  · -- an empty statement is its semicolon
    refine rholds_bind_unless (rholds_marker hA' fun m m' hm hm' => ?_)
    refine rholds_bind_unless (rholds_skip.2 ?_)
    exact (rholds_finish_plain hA' (by decide) hm hm' (Nat.lt_succ_self i)
      (Clean.punct (p := ";") (by simp [ht, hsemi]) (by decide)) (by simp) (by simp)).unless _
  refine rholdsUnless_ite (fun hdecl => ?_) fun _ => ?_
  · -- a variable declaration: its declarators, then an optional semicolon
    refine rholds_bind_unless (rholds_marker hA' fun m m' hm hm' => ?_)
    refine rholds_bind_unless ((ih.declarators hA').mono fun r r' k hrk => ?_)
    obtain ⟨hkind, hds⟩ := hrk
    obtain ⟨kind, ds⟩ := r
    obtain ⟨kind', ds'⟩ := r'
    obtain ⟨hik, hclean, rfl, hf⟩ := hds
    dsimp only at hkind ⊢
    subst hkind
    exact rholdsUnless_semicolon_finish hA' (by decide) hm hm' (by omega)
      ((wordAt_of_isDeclarationKeyword ht hdecl).clean.trans hclean)
      (by simp [move_def]) (by simpa using hf)
  refine rholdsUnless_ite (fun _ => (ih.function hA' (by decide)).unless _) fun _ => ?_
  -- the statements that start with their keyword
  have hw : ∀ {w : String}, tok.isKeyword w = true → WordAt c.tokens i :=
    fun hkw => wordAt_of_isKeyword ht hkw
  refine rholdsUnless_ite (fun hkw => (ih.classDeclaration hA' (hw hkw)).unless _) fun _ => ?_
  refine rholdsUnless_ite (fun hkw => ih.returnStatement hA' (hw hkw)) fun _ => ?_
  refine rholdsUnless_ite (fun hkw => ih.ifStatement hA' (hw hkw)) fun _ => ?_
  refine rholdsUnless_ite (fun hkw => ih.forStatement hA' (hw hkw)) fun _ => ?_
  refine rholdsUnless_ite (fun hkw => ih.whileStatement hA' (hw hkw)) fun _ => ?_
  refine rholdsUnless_ite (fun hkw => (ih.doWhileStatement hA' (hw hkw)).unless _) fun _ => ?_
  refine rholdsUnless_ite (fun hkw => (ih.switchStatement hA' (hw hkw)).unless _) fun _ => ?_
  refine rholdsUnless_ite (fun hkw => rholdsUnless_jump hA' (by decide) ht ?_) fun _ => ?_
  · simp only [Token.isKeyword, Bool.and_eq_true, beq_iff_eq] at hkw
    exact hkw.1
  refine rholdsUnless_ite (fun hkw => rholdsUnless_jump hA' (by decide) ht ?_) fun _ => ?_
  · simp only [Token.isKeyword, Bool.and_eq_true, beq_iff_eq] at hkw
    exact hkw.1
  refine rholdsUnless_ite (fun hkw => ?_) fun _ => ?_
  · -- a throw statement: the keyword, its argument, an optional semicolon
    refine rholds_bind_unless (rholds_marker hA' fun m m' hm hm' => ?_)
    refine rholds_bind_unless (rholds_skip.2 ?_)
    refine rholds_bind_unless ((ih.expression hA').mono fun e e' k hek => ?_)
    obtain ⟨hik, hclean, he, hf⟩ := hek
    subst he
    exact rholdsUnless_semicolon_finish hA' (by decide) hm hm' (by omega)
      ((Clean.keyword (w := "throw") (by simp [ht, hkw])).trans hclean) (by simp [move_def]) (by simpa using hf)
  · -- an expression statement: the expression, then an optional semicolon
    refine rholds_bind_unless (rholds_marker hA' fun m m' hm hm' => ?_)
    refine rholds_bind_unless ((ih.expression hA').mono fun e e' k hek => ?_)
    obtain ⟨hik, hclean, he, hf⟩ := hek
    subst he
    exact rholdsUnless_semicolon_finish hA' (by decide) hm hm' hik hclean
      (by simp [move_def]) (by simpa using hf)

/-- A block in both runs, from its opening brace to its closing one. -/
lemma block_rstep (ih : RSpecs fuel) (hA : Agree c c') :
    RHolds c c' (block (fuel + 1)) (block (fuel + 1)) i (Moved c c' i) := by
  rw [block]
  refine rholds_bind (rholds_marker hA fun m m' hm hm' => ?_)
  refine rholds_bind (rholds_expectPunct hA fun hopen => ?_)
  refine rholds_bind (rholds_withAllowIn.2 ((ih.blockBody (hA.withAllowIn true)
    AccMoved.empty).mono fun body body' j ⟨hclean, hbody, hf⟩ => ?_))
  refine rholds_bind (rholds_expectPunct hA fun hclose => ?_)
  subst hbody
  have hc : Clean c.tokens i (j + 1) :=
    (Clean.punct hopen (by decide)).trans (hclean.trans (Clean.punct hclose (by decide)))
  exact rholds_finish_plain hA (by decide) hm hm' (by have := hc.le; have := hclean.le; omega) hc
    (by simp [move_def]) (by simpa using hf)

/-- The statements of a block in both runs, up to its closing brace. -/
lemma blockBody_rstep (ih : RSpecs fuel) (hA : Agree c c') {acc acc' : Array Node}
    (hacc : AccMoved c c' acc acc') :
    RHolds c c' (blockBody (fuel + 1) acc) (blockBody (fuel + 1) acc') i (MovedAll c c' i) := by
  rw [blockBody]
  refine rholds_bind ((rholds_atPunct hA).2 ?_)
  by_cases hclose : c.tokens[i]?.any (·.isPunct closeBrace) = true
  · simp only [hclose, ↓reduceIte]
    exact rholds_pure ⟨Clean.refl (lt_size_of_any hclose).le, hacc⟩
  simp only [hclose, Bool.false_eq_true, ↓reduceIte]
  refine rholds_peek_bind hA (fun _ _ => ?_) fun _ _ _ _ _ _ => ?_
  · simp only [Option.isNone_none, ↓reduceIte]
    exact rholds_bind rholds_failExpected
  simp only [Option.isNone_some, Bool.false_eq_true, ↓reduceIte]
  -- a statement that stops at a dot leaves a dot where no statement starts
  refine rholds_bind_of_unless ((ih.statement hA).mono fun s s' j hs => ?_)
    fun s j hj => blockBody_fails_at_dot hj fuel _ (by rfl)
  exact (ih.blockBody hA (hacc.push hs)).mono fun r r' k ⟨hclean, hr⟩ =>
    ⟨hs.2.1.trans hclean, hr⟩

/-- The keyword of a declaration, then its declarators in both runs. -/
lemma declarators_rstep (ih : RSpecs fuel) (hA : Agree c c') :
    RHolds c c' (declarators (fuel + 1)) (declarators (fuel + 1)) i fun r r' j =>
      r'.1 = r.1 ∧ MovedList c c' (i + 1) r.2 r'.2 j := by
  rw [declarators]
  refine rholds_bind (rholds_bump hA fun t t' _ _ _ htext => ?_)
  refine rholds_bind ((ih.declaratorList hA AccMoved.empty).mono
    fun ds ds' j ⟨hij, hclean, hds, hf⟩ => rholds_pure ⟨htext, hij, hclean, ?_, hf⟩)
  simp [hds]

/-- A declarator in both runs: a name, an optional initialiser; then more after a comma. -/
lemma declaratorList_rstep (ih : RSpecs fuel) (hA : Agree c c') {acc acc' : Array Node}
    (hacc : AccMoved c c' acc acc') :
    RHolds c c' (declaratorList (fuel + 1) acc) (declaratorList (fuel + 1) acc') i fun r r' j =>
      i < j ∧ MovedAll c c' i r r' j := by
  rw [declaratorList, declaratorList]
  simp only [ite_bind_same, ← bind_assoc]
  -- one declarator, then a comma and more
  refine rholds_bind (RHolds.mono (Q := Moved c c' i) ?_ fun d d' l hdl => ?_)
  · refine rholds_bind (rholds_marker hA fun m m' hm hm' => ?_)
    refine rholds_bind (rholds_bindingIdentifier hA fun t t' ht ht' _ htext hid => ?_)
    have hname : Clean c.tokens i (i + 1) := Clean.word ht (by rw [hid]; decide)
    -- the initialiser, if any, follows an equals sign
    refine rholds_bind (RHolds.mono (Q := MovedOpt c c' (i + 1)) ?_ fun init init' k hinit => ?_)
    · refine rholds_bind (rholds_eatPunct hA (fun heq => ?_) fun _ => ?_)
      · simp only [↓reduceIte]
        refine rholds_map ((ih.assignment hA).mono fun a a' k ⟨hk, hclean, ha, hf⟩ => ?_)
        exact ⟨(Clean.punct heq (by decide)).trans hclean, by simp [ha], by simpa using hf⟩
      · simp only [Bool.false_eq_true, ↓reduceIte]
        exact rholds_pure ⟨Clean.refl hname.le_size, rfl, by simp⟩
    obtain ⟨hclean, rfl, hf⟩ := hinit
    have hd : Clean c.tokens i k := hname.trans hclean
    refine rholds_finish_plain hA (by decide) hm hm' (by have := hclean.le; omega) hd
      (by simp [move_def]; exact (hA.move_identifierNode ht ht' htext).symm) ?_
    simpa [facts_identifierNode] using hf
  refine rholds_bind (rholds_eatPunct hA (fun hcomma => ?_) fun _ => ?_)
  · -- a comma: more declarators follow
    simp only [↓reduceIte]
    refine (ih.declaratorList hA (hacc.push hdl)).mono fun r r' n ⟨hn, hr, hrs⟩ =>
      ⟨by have := hdl.1; omega, (hdl.2.1.trans (Clean.punct hcomma (by decide))).trans hr, hrs⟩
  · simp only [Bool.false_eq_true, ↓reduceIte]
    exact rholds_pure ⟨hdl.1, hdl.2.1, hacc.push hdl⟩

/-- A `return` statement in both runs. Right before a dot the first run either fails or
stops at the dot, so both runs are needed only where no dot follows the keyword. -/
lemma returnStatement_rstep (ih : RSpecs fuel) (hA : Agree c c') (hw : WordAt c.tokens i) :
    RHoldsUnless (DotAt c.tokens) c c' (returnStatement (fuel + 1)) (returnStatement (fuel + 1))
      i (Moved c c' i) := by
  rw [returnStatement]
  simp only [ite_bind_same]
  refine rholds_bind_unless (rholds_marker hA fun m m' hm hm' => ?_)
  refine rholds_bind_unless (rholds_skip.2 ?_)
  have hkw := hw.clean
  have hrest : ∀ (arg : Option Node) (k : Nat), Clean c.tokens (i + 1) k →
      (∀ n ∈ arg, n.Facts c.tokens) →
      RHoldsUnless (DotAt c.tokens) c c'
        (consumeSemicolon >>= fun _ => finish .returnStatement m [("argument", .ofOption arg)])
        (consumeSemicolon >>= fun _ => finish .returnStatement m'
          [("argument", .ofOption (arg.map (move c.tokens c'.tokens)))]) k (Moved c c' i) :=
    fun arg k hk hf => rholdsUnless_semicolon_finish hA (by decide) hm hm'
      (by have := hk.le; omega) (hkw.trans hk) (by simp [move_def]) (by simpa using hf)
  cases hdot : isDotAt c.tokens (i + 1)
  · -- no dot next: both runs ask alike whether the statement ends here
    refine rholds_bind_unless (rholds_atStatementEnd.2 ?_)
    rw [hA.statementEndAt_eq hdot fun _ => by simpa using hw.not_dot]
    cases statementEndAt c.tokens (i + 1)
    · simp only [Bool.false_eq_true, ↓reduceIte]
      refine rholds_bind_unless (rholds_map ((ih.expression hA).mono
        fun e e' k ⟨_, hclean, he, hf⟩ => ?_))
      subst he
      exact hrest (some e) k hclean (by simpa using hf)
    · simp only [↓reduceIte]
      exact rholds_bind_unless (rholds_pure (hrest none _ (Clean.refl hkw.le_size) (by simp)))
  · -- a dot next: the first run fails, or the statement stops right before the dot
    refine RHoldsUnless.of_holds ?_
    simp only [holds_bind]
    refine holds_atStatementEnd fun b => ?_
    cases b
    · simp only [Bool.false_eq_true, ↓reduceIte, holds_map]
      exact fun a j hx => (expression_fails_at_dot hdot fuel (by rfl) a j hx).elim
    · simp only [↓reduceIte, holds_pure]
      refine holds_consumeSemicolon (fun hsemi => ?_)
        (holds_finish_stays.mono fun _ l hl => hl ▸ hdot)
      simp [DotAt.not_punct (p := ";") hdot (by decide)] at hsemi

/-- An `if` statement in both runs: the test, the branch, and the `else` branch if any. -/
lemma ifStatement_rstep (ih : RSpecs fuel) (hA : Agree c c') (hw : WordAt c.tokens i) :
    RHoldsUnless (DotAt c.tokens) c c' (ifStatement (fuel + 1)) (ifStatement (fuel + 1)) i
      (Moved c c' i) := by
  rw [ifStatement]
  simp only [ite_bind_same]
  refine rholds_bind_unless (rholds_marker hA fun m m' hm hm' => ?_)
  refine rholds_bind_unless (rholds_skip.2 ?_)
  refine rholds_bind_unless ((ih.parenExpression hA).mono
    fun test test' j ⟨hij, htest, htest', hft⟩ => ?_)
  subst htest'
  have hj : Clean c.tokens i j := hw.clean.trans htest
  -- after the branch, a dot leaves no `else` to read, and the statement stops there
  refine rholdsUnless_bind ((ih.statement hA).mono fun cons cons' k ⟨hjk, hcons, hcons', hfc⟩ => ?_)
    fun _ k hk => ?_
  · subst hcons'
    have hk : Clean c.tokens i k := hj.trans hcons
    refine rholds_bind_unless (rholds_eatKeyword hA (fun helse => ?_) fun _ => ?_)
    · simp only [↓reduceIte]
      refine rholdsUnless_bind (rholdsUnless_map ((ih.statement hA).mono
        fun alt alt' l ⟨_, halt, halt', hfa⟩ => ?_)) fun _ l hl =>
          holds_finish_stays.mono fun _ n hn => hn ▸ hl
      subst halt'
      have hl : Clean c.tokens i l := hk.trans ((Clean.keyword helse).trans halt)
      exact (rholds_finish_plain hA (by decide) hm hm' (by have := hl.le; omega) hl
        (by simp [move_def]) (by simpa [or_imp, forall_and] using ⟨hft, hfc, hfa⟩)).unless _
    · simp only [Bool.false_eq_true, ↓reduceIte]
      refine rholds_bind_unless (rholds_pure ?_)
      exact (rholds_finish_plain hA (by decide) hm hm' (by omega) hk (by simp [move_def])
        (by simpa [or_imp, forall_and] using ⟨hft, hfc⟩)).unless _
  · simp only [holds_bind, holds_eatKeyword, DotAt.not_keyword hk, Bool.false_eq_true,
      ↓reduceIte, holds_pure]
    exact ⟨False.elim, fun _ => holds_finish_stays.mono fun _ l hl => hl ▸ hk⟩

/-- The head of a `for` loop in both runs: nothing, a declaration, or an expression. -/
lemma forInit_rstep (ih : RSpecs fuel) (hA : Agree c c') :
    RHolds c c' (forInit (fuel + 1)) (forInit (fuel + 1)) i fun o o' j =>
      Clean c.tokens i j ∧ o' = o.map (move c.tokens c'.tokens) ∧ ∀ n ∈ o, n.Facts c.tokens := by
  rw [forInit]
  have hexpr : RHolds c c' (some <$> withAllowIn false (expression fuel))
      (some <$> withAllowIn false (expression fuel)) i fun o o' j =>
        Clean c.tokens i j ∧ o' = o.map (move c.tokens c'.tokens) ∧
          ∀ n ∈ o, n.Facts c.tokens :=
    rholds_map (rholds_withAllowIn.2 ((ih.expression (hA.withAllowIn false)).mono
      fun e e' j ⟨_, he, he', hf⟩ => ⟨he, by simp [he'], by simpa using hf⟩))
  refine rholds_bind ((rholds_atPunct hA).2 ?_)
  by_cases hsemi : c.tokens[i]?.any (·.isPunct ";") = true
  · simp only [hsemi, ↓reduceIte]
    exact rholds_pure ⟨Clean.refl (lt_size_of_any hsemi).le, rfl, by simp⟩
  simp only [hsemi, Bool.false_eq_true, ↓reduceIte]
  refine rholds_peek_bind hA (fun _ _ => hexpr) fun t t' ht _ hk htext => ?_
  dsimp only
  rw [isDeclarationKeyword_congr hk htext]
  refine rholds_ite (fun hdecl => ?_) fun _ => hexpr
  -- a declaration, read with `in` as no operator
  refine rholds_bind (rholds_marker hA fun m m' hm hm' => ?_)
  refine rholds_bind (rholds_withAllowIn.2 ((ih.declarators (hA.withAllowIn false)).mono
    fun r r' k ⟨hkind, hds⟩ => ?_))
  obtain ⟨kind, ds⟩ := r
  obtain ⟨kind', ds'⟩ := r'
  obtain ⟨hik, hclean, rfl, hf⟩ := hds
  dsimp only at hkind ⊢
  subst hkind
  refine rholds_map ((rholds_finish_plain hA (by decide) hm hm' (by omega)
    ((wordAt_of_isDeclarationKeyword ht hdecl).clean.trans hclean) (by simp [move_def])
    (by simpa using hf)).mono fun n n' l ⟨_, hl, hn, hfn⟩ => ⟨hl, by simp [hn], by simpa using hfn⟩)

/-- The rest of a loop over a collection in both runs: `in` or `of`, the collection, the
body. -/
lemma forEach_rstep (ih : RSpecs fuel) (hA : Agree c c') {i₀ : Nat} {m m' : Marker}
    {kind : NodeKind} {left left' : Node} (hkind : PlainKind kind) (hw : WordAt c.tokens i)
    (hm : MarkerAt c.tokens m i₀) (hm' : MarkerAt c'.tokens m' i₀)
    (hleft : Moved c c' i₀ left left' i) :
    RHoldsUnless (DotAt c.tokens) c c' (forEach (fuel + 1) m kind left)
      (forEach (fuel + 1) m' kind left') i (Moved c c' i₀) := by
  rw [forEach, forEach]
  simp only [ite_bind_same]
  obtain ⟨hi₀, hleftc, rfl, hfl⟩ := hleft
  refine rholds_bind_unless (rholds_skip.2 ?_)
  refine rholds_bind_unless (RHolds.mono (Q := Moved c c' (i + 1)) ?_
    fun right right' j ⟨_, hr, hr', hfr⟩ => ?_)
  · exact rholds_ite (fun _ => ih.expression hA) fun _ => ih.assignment hA
  subst hr'
  refine rholds_bind_unless (rholds_expectPunct hA fun hclose => ?_)
  refine rholdsUnless_bind ((ih.statement hA).mono fun body body' k ⟨_, hb, hb', hfb⟩ => ?_)
    fun _ k hk => holds_finish_stays.mono fun _ l hl => hl ▸ hk
  subst hb'
  have hk : Clean c.tokens i₀ k :=
    (((hleftc.trans hw.clean).trans hr).trans (Clean.punct hclose (by decide))).trans hb
  exact (rholds_finish_plain hA hkind hm hm' (by have := hk.le; omega) hk (by simp [move_def])
    (by simpa [or_imp, forall_and] using And.intro hfl (And.intro hfr hfb))).unless _

/-- An expression, unless the punctuator `p` comes first, then the rest, in both runs. -/
lemma rholdsUnless_optionalExpression (ih : RSpecs fuel) (hA : Agree c c') {β : Type}
    {E : Nat → Prop} {p : String} {k k' : Option Node → ParseM β} {Q : β → β → Nat → Prop}
    (hrest : ∀ o j, Clean c.tokens i j → (∀ n ∈ o, n.Facts c.tokens) →
      RHoldsUnless E c c' (k o) (k' (o.map (move c.tokens c'.tokens))) j Q) :
    RHoldsUnless E c c'
      (atPunct p >>= fun b => (if b = true then pure none else some <$> expression fuel) >>= k)
      (atPunct p >>= fun b => (if b = true then pure none else some <$> expression fuel) >>= k')
      i Q := by
  refine rholds_bind_unless ((rholds_atPunct hA).2 ?_)
  cases hb : c.tokens[i]?.any (·.isPunct p)
  · simp only [Bool.false_eq_true, ↓reduceIte]
    refine rholds_bind_unless (rholds_map ((ih.expression hA).mono
      fun e e' j ⟨_, he, he', hf⟩ => ?_))
    subst he'
    exact hrest (some e) j he (by simpa using hf)
  · simp only [↓reduceIte]
    exact rholds_bind_unless (rholds_pure
      (hrest none i (Clean.refl (lt_size_of_any hb).le) (by simp)))

/-- A `for` statement in both runs: after the head, `in` or `of` makes a loop over a
collection; otherwise the test, the update and the body of a counted loop follow. -/
lemma forStatement_rstep (ih : RSpecs fuel) (hA : Agree c c') (hw : WordAt c.tokens i) :
    RHoldsUnless (DotAt c.tokens) c c' (forStatement (fuel + 1)) (forStatement (fuel + 1)) i
      (Moved c c' i) := by
  rw [forStatement]
  simp only [ite_bind_same]
  refine rholds_bind_unless (rholds_marker hA fun m m' hm hm' => ?_)
  refine rholds_bind_unless (rholds_skip.2 ?_)
  refine rholds_bind_unless (rholds_expectPunct hA fun hopen => ?_)
  refine rholds_bind_unless ((ih.forInit hA).mono fun init init' j hij => ?_)
  obtain ⟨hinit, hinit', hfi⟩ := hij
  subst hinit'
  have hj : Clean c.tokens i j := (hw.clean.trans (Clean.punct hopen (by decide))).trans hinit
  refine rholds_bind_unless ((rholds_atKeyword hA).2 ?_)
  refine rholds_bind_unless ((rholds_atIdentifier hA).2 ?_)
  -- which loop it is: both runs see the same `in` or `of`, a word
  refine rholds_bind_unless (RHolds.mono (Q := fun e e' l => e' = e ∧ l = j ∧
    (e.isSome → WordAt c.tokens j) ∧ ∀ kind ∈ e, PlainKind kind) ?_
      fun e e' l hel => ?_)
  · by_cases hin : c.tokens[j]?.any (·.isKeyword "in") = true
    · simp only [hin, ↓reduceIte]
      refine rholds_pure ⟨rfl, rfl, fun _ => wordAt_of_any hin fun t ht => ?_, by simp [PlainKind]⟩
      simp only [Token.isKeyword, Bool.and_eq_true, beq_iff_eq] at ht
      rw [ht.1]
      decide
    simp only [hin, Bool.false_eq_true, ↓reduceIte]
    by_cases hof : (c.tokens[j]?.any fun t => t.kind == .identifier && t.text == "of") = true
    · simp only [hof, ↓reduceIte]
      refine rholds_pure ⟨rfl, rfl, fun _ => wordAt_of_any hof fun t ht => ?_, by simp [PlainKind]⟩
      simp only [Bool.and_eq_true, beq_iff_eq] at ht
      rw [ht.1]
      decide
    simp only [hof, Bool.false_eq_true, ↓reduceIte]
    exact rholds_pure ⟨rfl, rfl, by simp, by simp⟩
  obtain ⟨he, hl, hword, hkind⟩ := hel
  subst he hl
  split
  next kind left =>
    -- a loop over a collection
    simp only [Option.map_some]
    exact ih.forEach hA (hkind _ rfl) (hword rfl) hm hm'
      ⟨by have := hinit.le; omega, hj, rfl, hfi _ rfl⟩
  next hno =>
    split
    next _ kind left' hleft' =>
      -- the second run loops over a collection only where the first does
      obtain ⟨left, hleft, -⟩ := Option.map_eq_some_iff.1 hleft'
      exact (hno kind left rfl hleft).elim
    -- a counted loop
    refine rholds_bind_unless (rholds_expectPunct hA fun hsemi => ?_)
    refine rholdsUnless_optionalExpression ih hA fun test k htest hft => ?_
    refine rholds_bind_unless (rholds_expectPunct hA fun hsemi' => ?_)
    refine rholdsUnless_optionalExpression ih hA fun update n hupdate hfu => ?_
    refine rholds_bind_unless (rholds_expectPunct hA fun hclose => ?_)
    refine rholdsUnless_bind ((ih.statement hA).mono fun body body' q hbq => ?_)
      fun _ q hq => holds_finish_stays.mono fun _ r hr => hr ▸ hq
    obtain ⟨_, hb, hb', hfb⟩ := hbq
    subst hb'
    have hq : Clean c.tokens i q :=
      (((((hj.trans (Clean.punct hsemi (by decide))).trans htest).trans
        (Clean.punct hsemi' (by decide))).trans hupdate).trans (Clean.punct hclose (by decide))).trans hb
    have hiq : i < q := by
      have := hinit.le; have := htest.le; have := hupdate.le; have := hb.le; omega
    have hch := And.intro hfi (And.intro hft (And.intro hfu hfb))
    exact (rholds_finish_plain hA (by decide) hm hm' hiq hq (by simp [move_def])
      (by simpa [or_imp, forall_and] using hch)).unless _

/-- A `while` loop in both runs: the test, then the body. -/
lemma whileStatement_rstep (ih : RSpecs fuel) (hA : Agree c c') (hw : WordAt c.tokens i) :
    RHoldsUnless (DotAt c.tokens) c c' (whileStatement (fuel + 1)) (whileStatement (fuel + 1)) i
      (Moved c c' i) := by
  rw [whileStatement]
  refine rholds_bind_unless (rholds_marker hA fun m m' hm hm' => ?_)
  refine rholds_bind_unless (rholds_skip.2 ?_)
  refine rholds_bind_unless ((ih.parenExpression hA).mono
    fun test test' j ⟨_, htest, htest', hft⟩ => ?_)
  subst htest'
  refine rholdsUnless_bind ((ih.statement hA).mono fun body body' k ⟨hjk, hbody, hbody', hfb⟩ => ?_)
    fun _ k hk => holds_finish_stays.mono fun _ l hl => hl ▸ hk
  subst hbody'
  have hk : Clean c.tokens i k := (hw.clean.trans htest).trans hbody
  exact (rholds_finish_plain hA (by decide) hm hm' (by have := htest.le; omega) hk
    (by simp [move_def]) (by simpa [or_imp, forall_and] using ⟨hft, hfb⟩)).unless _

/-- A `do`-`while` loop in both runs: the body, `while`, the test, an optional semicolon. A
body that stops at a dot leaves no `while` to read. -/
lemma doWhileStatement_rstep (ih : RSpecs fuel) (hA : Agree c c') (hw : WordAt c.tokens i) :
    RHolds c c' (doWhileStatement (fuel + 1)) (doWhileStatement (fuel + 1)) i (Moved c c' i) := by
  rw [doWhileStatement]
  refine rholds_bind (rholds_marker hA fun m m' hm hm' => ?_)
  refine rholds_bind (rholds_skip.2 ?_)
  refine rholds_bind_of_unless ((ih.statement hA).mono
    fun body body' j ⟨hij, hbody, hbody', hfb⟩ => ?_) fun _ j hj => ?_
  · subst hbody'
    refine rholds_bind (rholds_expectKeyword hA fun hwhile => ?_)
    refine rholds_bind ((ih.parenExpression hA).mono
      fun test test' k ⟨hk, htest, htest', hft⟩ => ?_)
    subst htest'
    have hk : Clean c.tokens i k :=
      ((hw.clean.trans hbody).trans (Clean.keyword hwhile)).trans htest
    have hlt : i < k := by have := hbody.le; have := htest.le; omega
    have hch : ∀ d ∈ [("body", Field.node body), ("test", Field.node test)].flatMap (·.2.nodes),
        d.Facts c.tokens := by
      simpa [or_imp, forall_and] using ⟨hfb, hft⟩
    refine rholds_bind (rholds_eatPunct hA (fun hsemi => ?_) fun _ => ?_)
    · exact rholds_finish_plain hA (by decide) hm hm' (by omega)
        (hk.trans (Clean.punct hsemi (by decide))) (by simp [move_def]) hch
    · exact rholds_finish_plain hA (by decide) hm hm' hlt hk (by simp [move_def]) hch
  · simp [holds_bind, holds_expectKeyword, DotAt.not_keyword hj]

/-- A `switch` statement in both runs: the discriminant, then its cases in braces. -/
lemma switchStatement_rstep (ih : RSpecs fuel) (hA : Agree c c') (hw : WordAt c.tokens i) :
    RHolds c c' (switchStatement (fuel + 1)) (switchStatement (fuel + 1)) i (Moved c c' i) := by
  rw [switchStatement]
  refine rholds_bind (rholds_marker hA fun m m' hm hm' => ?_)
  refine rholds_bind (rholds_skip.2 ?_)
  refine rholds_bind ((ih.parenExpression hA).mono fun d d' j ⟨_, hd, hd', hfd⟩ => ?_)
  subst hd'
  refine rholds_bind (rholds_expectPunct hA fun hopen => ?_)
  refine rholds_bind ((ih.switchCases hA AccMoved.empty).mono
    fun cs cs' k ⟨hcs, hcs', hfc⟩ => ?_)
  refine rholds_bind (rholds_expectPunct hA fun hclose => ?_)
  subst hcs'
  have hk : Clean c.tokens i (k + 1) :=
    (((hw.clean.trans hd).trans (Clean.punct hopen (by decide))).trans hcs).trans
      (Clean.punct hclose (by decide))
  exact rholds_finish_plain hA (by decide) hm hm' (by have := hd.le; have := hcs.le; omega) hk
    (by simp [move_def]) (by simpa [or_imp, forall_and] using And.intro hfd hfc)

/-- The cases of a `switch` in both runs, up to its closing brace. -/
lemma switchCases_rstep (ih : RSpecs fuel) (hA : Agree c c') {acc acc' : Array Node}
    (hacc : AccMoved c c' acc acc') :
    RHolds c c' (switchCases (fuel + 1) acc) (switchCases (fuel + 1) acc') i
      (MovedAll c c' i) := by
  rw [switchCases, switchCases]
  simp only [ite_bind_same, ← bind_assoc]
  refine rholds_bind ((rholds_atPunct hA).2 ?_)
  by_cases hclose : c.tokens[i]?.any (·.isPunct closeBrace) = true
  · simp only [hclose, ↓reduceIte]
    exact rholds_pure ⟨Clean.refl (lt_size_of_any hclose).le, hacc⟩
  simp only [hclose, Bool.false_eq_true, ↓reduceIte]
  -- one case, then the others
  refine rholds_bind (RHolds.mono (Q := Moved c c' i) ?_ fun s s' l hs => ?_)
  · refine rholds_bind (rholds_marker hA fun m m' hm hm' => ?_)
    -- `case` and its expression, or `default`
    refine rholds_bind (RHolds.mono (Q := MovedOpt c c' i) ?_ fun test test' j htest => ?_)
    · refine rholds_bind (rholds_eatKeyword hA (fun hcase => ?_) fun _ => ?_)
      · simp only [↓reduceIte]
        exact rholds_map ((ih.expression hA).mono fun e e' j ⟨_, he, he', hf⟩ =>
          ⟨(Clean.keyword hcase).trans he, by simp [he'], by simpa using hf⟩)
      · simp only [Bool.false_eq_true, ↓reduceIte]
        refine rholds_bind (rholds_eatKeyword hA (fun hdefault => ?_) fun _ => ?_)
        · simp only [↓reduceIte]
          exact rholds_pure ⟨Clean.keyword hdefault, rfl, by simp⟩
        · simp only [Bool.false_eq_true, ↓reduceIte]
          exact rholds_failUnexpected
    obtain ⟨hj, rfl, hft⟩ := htest
    -- a colon, then the statements of the case
    refine rholds_bind (RHolds.mono (Q := fun body body' k => MovedAll c c' j body body' k ∧ j < k)
      ?_ fun body body' k ⟨⟨hbody, hbody', hfb⟩, hjk⟩ => ?_)
    · refine rholds_bind (rholds_expectPunct hA fun hcolon => ?_)
      exact (ih.caseBody hA AccMoved.empty).mono fun body body' k ⟨hb, hb'⟩ =>
        ⟨⟨(Clean.punct hcolon (by decide)).trans hb, hb'⟩, by have := hb.le; omega⟩
    subst hbody'
    have hk : Clean c.tokens i k := hj.trans hbody
    exact rholds_finish_plain hA (by decide) hm hm' (by have := hj.le; omega) hk
      (by simp [move_def]) (by simpa [or_imp, forall_and] using And.intro hft hfb)
  exact (ih.switchCases hA (hacc.push hs)).mono fun r r' n ⟨hn, hr⟩ => ⟨hs.2.1.trans hn, hr⟩

/-- No loop over the statements of a case goes on at a dot. -/
lemma caseBody_fails_at_dot {ts : Array Token} (h : DotAt ts i) :
    ∀ fuel (acc : Array Node) {c : ParseContext}, c.tokens = ts →
      Holds c (caseBody fuel acc) i fun _ _ => False
  | 0, _, _, _ => holds_outOfBudget.2 trivial
  | fuel + 1, acc, c, hc => by
    subst hc
    obtain ⟨t, ht, hk, htext⟩ := h.token
    rw [caseBody]
    have hend : t.isPunct closeBrace = false ∧ t.isKeyword "case" = false ∧
        t.isKeyword "default" = false := by
      rcases htext with htext | htext <;> simp [Token.isPunct, Token.isKeyword, hk, htext, closeBrace]
    simp only [holds_bind, holds_atPunct, holds_atKeyword, ht, Option.any_some, hend.1, hend.2.1,
      hend.2.2, Bool.or_false, holds_peek, Option.isNone_some, Bool.false_eq_true, holds_ite]
    exact ⟨fun h => h.elim, fun _ => ⟨fun h => h.elim, fun _ a j hx =>
      (statement_fails_at_dot h fuel (by rfl) _ _ hx).elim⟩⟩

/-- The statements of a case in both runs, up to the next case or the closing brace. -/
lemma caseBody_rstep (ih : RSpecs fuel) (hA : Agree c c') {acc acc' : Array Node}
    (hacc : AccMoved c c' acc acc') :
    RHolds c c' (caseBody (fuel + 1) acc) (caseBody (fuel + 1) acc') i (MovedAll c c' i) := by
  rw [caseBody, caseBody]
  refine rholds_bind ((rholds_atPunct hA).2 ?_)
  refine rholds_bind ((rholds_atKeyword hA).2 ?_)
  refine rholds_bind ((rholds_atKeyword hA).2 ?_)
  by_cases hend : (c.tokens[i]?.any (·.isPunct closeBrace) || c.tokens[i]?.any (·.isKeyword "case")
      || c.tokens[i]?.any (·.isKeyword "default")) = true
  · simp only [hend, ↓reduceIte]
    have hi : i < c.tokens.size := by
      simp only [Bool.or_eq_true] at hend
      rcases hend with (h | h) | h <;> exact lt_size_of_any h
    exact rholds_pure ⟨Clean.refl hi.le, hacc⟩
  simp only [hend, Bool.false_eq_true, ↓reduceIte]
  refine rholds_peek_bind hA (fun _ _ => ?_) fun _ _ _ _ _ _ => ?_
  · simp only [Option.isNone_none, ↓reduceIte]
    exact rholds_bind rholds_failExpected
  simp only [Option.isNone_some, Bool.false_eq_true, ↓reduceIte]
  -- a statement that stops at a dot leaves a dot where no statement starts
  refine rholds_bind_of_unless ((ih.statement hA).mono fun s s' j hs => ?_)
    fun s j hj => caseBody_fails_at_dot hj fuel _ (by rfl)
  exact (ih.caseBody hA (hacc.push hs)).mono fun r r' k ⟨hclean, hr⟩ =>
    ⟨hs.2.1.trans hclean, hr⟩

/-- A function in both runs: `function`, an optional name, the parameters and the body. -/
lemma function_rstep (ih : RSpecs fuel) (hA : Agree c c') {kind : NodeKind}
    (hkind : PlainKind kind) :
    RHolds c c' (function (fuel + 1) kind) (function (fuel + 1) kind) i (Moved c c' i) := by
  rw [function]
  simp only [ite_bind_same, ← bind_assoc]
  refine rholds_bind (rholds_marker hA fun m m' hm hm' => ?_)
  refine rholds_bind (rholds_bind (rholds_expectKeyword hA fun hfn => rholds_peek.2 ?_))
  -- with a name or without, the parameters and the body follow
  have hrest : ∀ (id : Option Node) (j : Nat), Clean c.tokens (i + 1) j →
      (∀ n ∈ id, n.Facts c.tokens) →
      RHolds c c'
        (params fuel >>= fun ps => block fuel >>= fun body =>
          finish kind m [("id", .ofOption id), ("params", .list ps), ("body", .node body)])
        (params fuel >>= fun ps => block fuel >>= fun body =>
          finish kind m' [("id", .ofOption (id.map (move c.tokens c'.tokens))),
            ("params", .list ps), ("body", .node body)])
        j (Moved c c' i) := by
    intro id j hj hfid
    refine rholds_bind ((ih.params hA).mono fun ps ps' k ⟨_, hps, hps', hfp⟩ => ?_)
    refine rholds_bind ((ih.block hA).mono fun body body' l ⟨hkl, hb, hb', hfb⟩ => ?_)
    subst hps' hb'
    have hl : Clean c.tokens i l := (((Clean.keyword hfn).trans hj).trans hps).trans hb
    exact rholds_finish_plain hA hkind hm hm' (by have := hj.le; have := hps.le; omega) hl
      (by simp [move_def]) (by simpa [or_imp, forall_and] using And.intro hfid (And.intro hfp hfb))
  have hnone := hrest none (i + 1) (Clean.refl (lt_size_of_any hfn)) (by simp)
  cases ht : c.tokens[i + 1]? with
  | none =>
    rw [hA.same.getElem?_none ht]
    exact rholds_bind (rholds_ite (fun _ => rholds_failExpected) fun _ => rholds_pure hnone)
  | some t =>
    obtain ⟨t', ht', hk, htext⟩ := hA.same.getElem? ht
    rw [ht']
    dsimp only
    rw [hk]
    refine rholds_bind (rholds_ite (fun hname => ?_) fun _ =>
      rholds_ite (fun _ => rholds_failExpected) fun _ => rholds_pure hnone)
    have hid : t.kind = .identifier := by simpa using hname
    have hsome := hrest (some (identifierNode t)) (i + 1 + 1) (Clean.word ht (by rw [hid]; decide))
      (by simpa using facts_identifierNode t)
    simp only [Option.map_some, hA.move_identifierNode ht ht' htext] at hsome
    exact rholds_bind (rholds_skip.2 (rholds_pure hsome))

/-- A method in both runs: its parameters and body, as a function. -/
lemma methodFunction_rstep (ih : RSpecs fuel) (hA : Agree c c') :
    RHolds c c' (methodFunction (fuel + 1)) (methodFunction (fuel + 1)) i (Moved c c' i) := by
  rw [methodFunction]
  refine rholds_bind (rholds_marker hA fun m m' hm hm' => ?_)
  refine rholds_bind ((ih.params hA).mono fun ps ps' k ⟨hik, hps, hps', hfp⟩ => ?_)
  refine rholds_bind ((ih.block hA).mono fun body body' l ⟨hkl, hb, hb', hfb⟩ => ?_)
  subst hps' hb'
  exact rholds_finish_plain hA (by decide) hm hm' (by omega) (hps.trans hb) (by simp [move_def])
    (by simpa [or_imp, forall_and] using And.intro hfp hfb)

/-- A parameter list in both runs, from its opening parenthesis. -/
lemma params_rstep (ih : RSpecs fuel) (hA : Agree c c') :
    RHolds c c' (params (fuel + 1)) (params (fuel + 1)) i (MovedList c c' i) := by
  rw [params]
  refine rholds_bind (rholds_expectPunct hA fun hopen => ?_)
  refine rholds_bind ((ih.paramList hA AccMoved.empty).mono fun ps ps' j ⟨hps, hps', hfp⟩ => ?_)
  exact rholds_pure ⟨by have := hps.le; omega, (Clean.punct hopen (by decide)).trans hps,
    by simp [hps'], hfp⟩

/-- The parameters in both runs, up to the closing parenthesis. -/
lemma paramList_rstep (ih : RSpecs fuel) (hA : Agree c c') {acc acc' : Array Node}
    (hacc : AccMoved c c' acc acc') :
    RHolds c c' (paramList (fuel + 1) acc) (paramList (fuel + 1) acc') i (MovedAll c c' i) := by
  rw [paramList, paramList]
  simp only [ite_bind_same, ← bind_assoc]
  refine rholds_bind (rholds_eatPunct hA (fun hclose => ?_) fun _ => ?_)
  · simp only [↓reduceIte]
    exact rholds_pure ⟨Clean.punct hclose (by decide), hacc⟩
  simp only [Bool.false_eq_true, ↓reduceIte]
  refine rholds_bind (RHolds.mono (Q := Moved c c' i) ?_ fun p p' j hp => ?_)
  · refine rholds_bind (rholds_marker hA fun m m' hm hm' => ?_)
    refine rholds_bind (rholds_eatPunct hA (fun hdots => ?_) fun _ => ?_)
    · -- a rest parameter
      simp only [↓reduceIte]
      refine rholds_bind ((rholds_bindingName hA).mono fun a a' j ⟨_, ha, ha', hfa⟩ => ?_)
      subst ha'
      exact rholds_finish_plain hA (by decide) hm hm' (by have := ha.le; omega)
        ((Clean.punct hdots (by decide)).trans ha) (by simp [move_def]) (by simpa using hfa)
    · simp only [Bool.false_eq_true, ↓reduceIte]
      refine rholds_bind ((rholds_bindingName hA).mono fun l l' j hl => ?_)
      refine rholds_bind (rholds_eatPunct hA (fun heq => ?_) fun _ => ?_)
      · -- a name with a default value
        simp only [↓reduceIte]
        obtain ⟨_, hlc, hl', hfl⟩ := hl
        subst hl'
        refine rholds_bind (rholds_withAllowIn.2 ((ih.assignment (hA.withAllowIn true)).mono
          fun r r' k ⟨_, hr, hr', hfr⟩ => ?_))
        subst hr'
        exact rholds_finish_plain hA (by decide) hm hm' (by have := hlc.le; have := hr.le; omega)
          ((hlc.trans (Clean.punct heq (by decide))).trans hr) (by simp [move_def])
          (by simpa [or_imp, forall_and] using And.intro hfl hfr)
      · simp only [Bool.false_eq_true, ↓reduceIte]
        exact rholds_pure hl
  -- a comma unless the list closes
  refine rholds_bind ((rholds_atPunct hA).2 ?_)
  by_cases hclose : c.tokens[j]?.any (·.isPunct ")") = true
  · simp only [hclose, ↓reduceIte]
    exact (ih.paramList hA (hacc.push hp)).mono fun r r' k ⟨hk, hr⟩ => ⟨hp.2.1.trans hk, hr⟩
  · simp only [hclose, Bool.false_eq_true, ↓reduceIte]
    refine rholds_bind (rholds_expectPunct hA fun hcomma => ?_)
    exact (ih.paramList hA (hacc.push hp)).mono fun r r' k ⟨hk, hr⟩ =>
      ⟨(hp.2.1.trans (Clean.punct hcomma (by decide))).trans hk, hr⟩

/-- A class declaration in both runs: the name, an optional superclass, the members. -/
lemma classDeclaration_rstep (ih : RSpecs fuel) (hA : Agree c c') (hw : WordAt c.tokens i) :
    RHolds c c' (classDeclaration (fuel + 1)) (classDeclaration (fuel + 1)) i (Moved c c' i) := by
  rw [classDeclaration]
  simp only [ite_bind_same, ← bind_assoc]
  refine rholds_bind (rholds_marker hA fun m m' hm hm' => ?_)
  refine rholds_bind (rholds_bind (rholds_skip.2 ((rholds_bindingName hA).mono
    fun id id' j ⟨_, hid, hid', hfid⟩ => ?_)))
  subst hid'
  refine rholds_bind (RHolds.mono (Q := MovedOpt c c' j) ?_ fun sc sc' k hsc => ?_)
  · refine rholds_bind (rholds_eatKeyword hA (fun hext => ?_) fun _ => ?_)
    · simp only [↓reduceIte]
      exact rholds_map ((ih.leftHandSide hA).mono fun e e' k ⟨_, he, he', hf⟩ =>
        ⟨(Clean.keyword hext).trans he, by simp [he'], by simpa using hf⟩)
    · simp only [Bool.false_eq_true, ↓reduceIte]
      exact rholds_pure ⟨Clean.refl hid.le_size, rfl, by simp⟩
  obtain ⟨hsc, hsc', hfsc⟩ := hsc
  subst hsc'
  -- the body: its members in braces
  refine rholds_bind (RHolds.mono (Q := Moved c c' k) ?_ fun body body' n hb => ?_)
  · refine rholds_bind (rholds_marker hA fun bm bm' hbm hbm' => ?_)
    refine rholds_bind (RHolds.mono (Q := fun ms ms' l => MovedAll c c' k ms ms' l ∧ k < l) ?_
      fun ms ms' l ⟨⟨hms, hms', hfms⟩, hkl⟩ => ?_)
    · refine rholds_bind (rholds_expectPunct hA fun hopen => ?_)
      exact (ih.classMembers hA AccMoved.empty).mono fun ms ms' l ⟨hms, hacc⟩ =>
        ⟨⟨(Clean.punct hopen (by decide)).trans hms, hacc⟩, by have := hms.le; omega⟩
    subst hms'
    exact rholds_finish_plain hA (by decide) hbm hbm' hkl hms (by simp [move_def])
      (by simpa using hfms)
  obtain ⟨hkn, hbn, hb', hfb⟩ := hb
  subst hb'
  have hn : Clean c.tokens i n := ((hw.clean.trans hid).trans hsc).trans hbn
  exact rholds_finish_plain hA (by decide) hm hm' (by have := hid.le; have := hsc.le; omega) hn
    (by simp [move_def]) (by simpa [or_imp, forall_and] using And.intro hfid (And.intro hfsc hfb))

/-- The members of a class in both runs, up to its closing brace. -/
lemma classMembers_rstep (ih : RSpecs fuel) (hA : Agree c c') {acc acc' : Array Node}
    (hacc : AccMoved c c' acc acc') :
    RHolds c c' (classMembers (fuel + 1) acc) (classMembers (fuel + 1) acc') i
      (MovedAll c c' i) := by
  rw [classMembers, classMembers]
  refine rholds_bind (rholds_eatPunct hA (fun hsemi => ?_) fun _ => ?_)
  · simp only [↓reduceIte]
    exact (ih.classMembers hA hacc).mono fun r r' j ⟨hj, hr⟩ =>
      ⟨(Clean.punct hsemi (by decide)).trans hj, hr⟩
  simp only [Bool.false_eq_true, ↓reduceIte]
  refine rholds_bind (rholds_eatPunct hA (fun hclose => ?_) fun _ => ?_)
  · simp only [↓reduceIte]
    exact rholds_pure ⟨Clean.punct hclose (by decide), hacc⟩
  simp only [Bool.false_eq_true, ↓reduceIte]
  refine rholds_bind ((ih.classMember hA).mono fun mem mem' j hmem => ?_)
  exact (ih.classMembers hA (hacc.push hmem)).mono fun r r' k ⟨hk, hr⟩ => ⟨hmem.2.1.trans hk, hr⟩

/-- A method of a class in both runs: `static`, an accessor prefix, the key, the function. -/
lemma classMember_rstep (ih : RSpecs fuel) (hA : Agree c c') :
    RHolds c c' (classMember (fuel + 1)) (classMember (fuel + 1)) i (Moved c c' i) := by
  rw [classMember]
  simp only [ite_bind_same, ← bind_assoc]
  refine rholds_bind (rholds_marker hA fun m m' hm hm' => ?_)
  refine rholds_bind ((rholds_atIdentifier hA).2 ?_)
  refine rholds_bind ((rholds_peekAtPunct hA).2 ?_)
  -- `static` and an accessor prefix, read when they are no names themselves
  refine rholds_bind (RHolds.mono (Q := fun a a' k => a' = a ∧ (k = i ∨ Clean c.tokens i k)) ?_
    fun acc acc' k ⟨hacc, hk⟩ => ?_)
  · have haccessor : ∀ j, (j = i ∨ Clean c.tokens i j) → RHolds c c' accessorPrefix accessorPrefix j
        fun a a' k => a' = a ∧ (k = i ∨ Clean c.tokens i k) := fun j hj =>
      rholds_accessorPrefix hA ⟨rfl, hj⟩ fun t ht hid =>
        ⟨rfl, Or.inr (Clean.trans_of_eq_or hj (Clean.word ht (by rw [hid]; decide)))⟩
    refine rholds_ite (fun hstatic => ?_) fun _ => haccessor i (Or.inl rfl)
    have hw : WordAt c.tokens i := by
      simp only [Bool.and_eq_true] at hstatic
      refine wordAt_of_any hstatic.1 fun t ht => ?_
      simp only [Bool.and_eq_true, beq_iff_eq] at ht
      rw [ht.1]
      decide
    exact rholds_bind (rholds_skip.2 (haccessor (i + 1) (Or.inr hw.clean)))
  subst hacc
  refine rholds_bind ((ih.propertyKey hA).mono fun key key' l ⟨hkey, hcomp, _⟩ => ?_)
  refine rholds_bind ((ih.methodFunction hA).mono fun value value' n ⟨hln, hv, hv', hfv⟩ => ?_)
  obtain ⟨hkl, hkc, hkey', hfk⟩ := hkey
  subst hv'
  have hn : Clean c.tokens i n := (Clean.trans_of_eq_or hk hkc).trans hv
  have hik : i ≤ k := hk.elim (fun h => h ▸ Nat.le_refl i) Clean.le
  refine rholds_finish_plain hA (by decide) hm hm' (by omega) hn
    ?_ (by simpa [or_imp, forall_and] using And.intro hfk hfv)
  rw [hkey', hcomp]
  simp [move_def]

/-- A property name in both runs: a bracketed expression, a literal, or a word. -/
lemma propertyKey_rstep (ih : RSpecs fuel) (hA : Agree c c') :
    RHolds c c' (propertyKey (fuel + 1)) (propertyKey (fuel + 1)) i fun r r' j =>
      Moved c c' i r.1 r'.1 j ∧ r'.2 = r.2 ∧
        (r.2 = false → ∃ t, r.1 = identifierNode t ∨ r.1 = literalNode t) := by
  rw [propertyKey]
  refine rholds_bind (rholds_eatPunct hA (fun hopen => ?_) fun _ => ?_)
  · simp only [↓reduceIte]
    refine rholds_bind (rholds_withAllowIn.2 ((ih.assignment (hA.withAllowIn true)).mono
      fun key key' j ⟨_, hkey, hkey', hf⟩ => ?_))
    refine rholds_bind (rholds_expectPunct hA fun hclose => ?_)
    exact rholds_pure ⟨⟨by have := hkey.le; omega, ((Clean.punct hopen (by decide)).trans hkey).trans
      (Clean.punct hclose (by decide)), hkey', hf⟩, rfl, by simp⟩
  simp only [Bool.false_eq_true, ↓reduceIte]
  refine rholds_peek_bind hA (fun _ _ => rholds_failUnexpected) fun t t' ht ht' hk htext => ?_
  dsimp only
  rw [hk]
  -- a literal or a word is the key itself
  have hleaf : ∀ n n', t.kind ≠ .punctuator → n' = move c.tokens c'.tokens n →
      n.Facts c.tokens → (∃ u, n = identifierNode u ∨ n = literalNode u) →
      RHolds c c' (skip >>= fun _ => pure (n, false)) (skip >>= fun _ => pure (n', false)) i
        fun r r' j => Moved c c' i r.1 r'.1 j ∧ r'.2 = r.2 ∧
          (r.2 = false → ∃ t, r.1 = identifierNode t ∨ r.1 = literalNode t) :=
    fun n n' hp hn hf hshape => rholds_bind (rholds_skip.2
      (rholds_pure ⟨⟨Nat.lt_succ_self i, Clean.word ht hp, hn, hf⟩, rfl, fun _ => hshape⟩))
  have hlit := fun hp => hleaf _ _ hp (hA.move_literalNode ht ht' htext).symm
    (facts_literalNode t) ⟨t, Or.inr rfl⟩
  have hword := fun hp => hleaf _ _ hp (hA.move_identifierNode ht ht' htext).symm
    (facts_identifierNode t) ⟨t, Or.inl rfl⟩
  cases hkind : t.kind with
  | string | numeric => exact hlit (by rw [hkind]; decide)
  | identifier | keyword | boolean | null => exact hword (by rw [hkind]; decide)
  | punctuator => exact rholds_failUnexpected

end Statements

end Parse

end DotLint
