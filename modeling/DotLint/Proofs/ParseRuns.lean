import Mathlib.Tactic.Lemma
import DotLint.Proofs.ParseRun

/-!
# Parser runs that succeed

`Parse.Holds` (in `DotLint.Proofs.ParseRun`) says what a parser guarantees *if* it
succeeds. To say that a parser *does* succeed, and with what, this module gives the total
counterpart: `Parse.Runs c x i a j` says that `x`, run in context `c` from token index `i`,
returns `a` and stops at `j`, and `Parse.Fails c x i kind` that it fails with an error of
`kind`. There is one rule for each way a parser is built (`pure`, bind, a change of
context) and one for each primitive of `Parse.Basic` that the grammar's runs below need.

The grammar functions take a recursion budget. The last section runs a name as a unary
expression: with a budget of three it reads the one token, with less it runs out.
-/

namespace DotLint

namespace Parse

/-- `x`, run in context `c` from token index `i`, returns `a` and stops at `j`. -/
def Runs {α : Type} (c : ParseContext) (x : ParseM α) (i : Nat) (a : α) (j : Nat) : Prop :=
  (x.run c).run i = .ok (a, j)

/-- `x`, run in context `c` from token index `i`, fails with an error of `kind`. -/
def Fails {α : Type} (c : ParseContext) (x : ParseM α) (i : Nat) (kind : ParseErrorKind) :
    Prop :=
  ∃ pos, (x.run c).run i = .error ⟨kind, pos⟩

variable {α β : Type} {c : ParseContext} {i j k : Nat}

/-! ## Building blocks -/

lemma Runs.bind {x : ParseM α} {f : α → ParseM β} {a : α} {b : β} (hx : Runs c x i a j)
    (hf : Runs c (f a) j b k) : Runs c (x >>= f) i b k := by
  unfold Runs at *
  rw [run_bind_of_eq_ok hx]
  exact hf

lemma Fails.bind {x : ParseM α} {f : α → ParseM β} {kind : ParseErrorKind}
    (hx : Fails c x i kind) : Fails c (x >>= f) i kind := by
  obtain ⟨pos, hx⟩ := hx
  exact ⟨pos, run_bind_of_eq_error hx⟩

lemma Runs.bind_fails {x : ParseM α} {f : α → ParseM β} {a : α} {kind : ParseErrorKind}
    (hx : Runs c x i a j) (hf : Fails c (f a) j kind) : Fails c (x >>= f) i kind := by
  obtain ⟨pos, hf⟩ := hf
  unfold Runs at hx
  exact ⟨pos, by rw [run_bind_of_eq_ok hx]; exact hf⟩

lemma runs_pure {a : α} : Runs c (pure a) i a i := rfl

/-! ## Primitives -/

lemma runs_read : Runs c read i c i := rfl

lemma runs_peek : Runs c peek i c.tokens[i]? i := rfl

lemma runs_skip : Runs c skip i () (i + 1) := rfl

lemma runs_marker {t : Token} (ht : c.tokens[i]? = some t) :
    Runs c marker i ⟨t.span.start, t.loc.start⟩ i := by
  unfold marker
  refine Runs.bind runs_peek ?_
  rw [ht]
  exact runs_pure

lemma runs_atPunct {p : String} : Runs c (atPunct p) i (c.tokens[i]?.any (·.isPunct p)) i := rfl

lemma runs_atKeyword {w : String} :
    Runs c (atKeyword w) i (c.tokens[i]?.any (·.isKeyword w)) i := rfl

lemma runs_eatPunct_of_not {p : String} (h : c.tokens[i]?.any (·.isPunct p) = false) :
    Runs c (eatPunct p) i false i := by
  unfold eatPunct
  refine Runs.bind runs_atPunct ?_
  rw [h]
  exact runs_pure

lemma runs_previous : Runs c previous i (if i = 0 then none else c.tokens[i - 1]?) i := by
  unfold previous
  refine Runs.bind (a := i) rfl ?_
  split
  · exact runs_pure
  · exact Runs.bind runs_read runs_pure

/-- Looking for a line break before the next token always succeeds. -/
lemma runs_newlineBefore : ∃ b, Runs c newlineBefore i b i := by
  unfold newlineBefore
  have hprev := runs_previous (c := c) (i := i)
  have hpeek := runs_peek (c := c) (i := i)
  revert hprev hpeek
  generalize (if i = 0 then none else c.tokens[i - 1]?) = prev
  generalize c.tokens[i]? = next
  intro hprev hpeek
  cases prev <;> cases next <;> exact ⟨_, Runs.bind hprev (Runs.bind hpeek runs_pure)⟩

lemma runs_finish {kind : NodeKind} {m : Marker} {fields : List (String × Field Node)}
    {t : Token} (hk : 0 < k) (ht : c.tokens[k - 1]? = some t) :
    Runs c (finish kind m fields) k
      ⟨kind, ⟨m.offset, max t.span.stop m.offset⟩, ⟨m.position, t.loc.stop.max m.position⟩,
        fields⟩ k := by
  unfold finish
  refine Runs.bind runs_previous ?_
  rw [if_neg (by omega), ht]
  exact runs_pure

lemma runs_binaryOperator :
    Runs c binaryOperator i
      (c.tokens[i]?.bind fun t => (binaryPrecedence c.allowIn t).map (t.text, ·)) i := by
  unfold binaryOperator
  refine Runs.bind runs_peek ?_
  cases c.tokens[i]? with
  | none => exact runs_pure
  | some t => exact Runs.bind runs_read runs_pure

lemma fails_throw {kind : ParseErrorKind} {pos : Position} :
    Fails c (throw ⟨kind, pos⟩ : ParseM α) i kind := ⟨pos, rfl⟩

lemma runs_endOfInput : ∃ r, Runs c endOfInput i r i := by
  unfold endOfInput
  cases hb : c.tokens.back? with
  | none => exact ⟨_, Runs.bind runs_read (by rw [hb]; exact runs_pure)⟩
  | some t => exact ⟨_, Runs.bind runs_read (by rw [hb]; exact runs_pure)⟩

/-- Finding the position of the next token, or of the end, always succeeds. -/
lemma runs_position : ∃ pos, Runs c position i pos i := by
  unfold position
  cases ht : c.tokens[i]? with
  | none =>
    obtain ⟨r, hr⟩ := runs_endOfInput (c := c) (i := i)
    exact ⟨_, Runs.bind runs_peek (by rw [ht]; exact Runs.bind hr runs_pure)⟩
  | some t => exact ⟨_, Runs.bind runs_peek (by rw [ht]; exact runs_pure)⟩

lemma fails_outOfBudget : Fails c (outOfBudget : ParseM α) i .outOfBudget := by
  obtain ⟨pos, hpos⟩ := runs_position (c := c) (i := i)
  exact Runs.bind_fails hpos fails_throw

lemma runs_nested {x : ParseM α} {a : α} (hd : c.depth < maxDepth)
    (hx : Runs ⟨c.tokens, c.closers, c.allowIn, c.depth + 1⟩ x i a j) :
    Runs c (nested x) i a j := by
  unfold nested
  refine Runs.bind runs_read ?_
  rw [if_neg (by omega)]
  exact hx

lemma fails_nested {x : ParseM α} {kind : ParseErrorKind} (hd : c.depth < maxDepth)
    (hx : Fails ⟨c.tokens, c.closers, c.allowIn, c.depth + 1⟩ x i kind) :
    Fails c (nested x) i kind := by
  unfold nested
  refine Runs.bind_fails runs_read ?_
  rw [if_neg (by omega)]
  exact hx

/-! ## A name as an operand -/

/-- Whether a token after an operand continues it: a member access, an optional chain, an
index, a call, or a postfix update. -/
def continuesOperand (t : Token) : Bool :=
  t.isPunct "." || t.isPunct "?." || t.isPunct "[" || t.isPunct "(" || t.isPunct "++" ||
    t.isPunct "--"

variable {t : Token} {f : Nat}

/-- A binary operator does not continue the operand before it. -/
lemma continuesOperand_of_binaryPrecedence {allowIn : Bool} {p : Nat}
    (h : binaryPrecedence allowIn t = some p) : continuesOperand t = false := by
  unfold binaryPrecedence at h
  split at h
  · split at h <;> simp_all [continuesOperand, Token.isPunct]
  · rename_i hk
    simp [continuesOperand, Token.isPunct, hk]
  · cases h

lemma runs_primary_identifier (ht : c.tokens[i]? = some t) (hk : t.kind = .identifier) :
    Runs c (primary (f + 1)) i (identifierNode t) (i + 1) := by
  rw [primary]
  refine Runs.bind runs_peek ?_
  rw [ht]
  simp only [hk]
  exact Runs.bind runs_skip runs_pure

lemma runs_memberTail_done {m : Marker} {e : Node} {allowCall : Bool}
    (hnext : ∀ t, c.tokens[i]? = some t → continuesOperand t = false) :
    Runs c (memberTail (f + 1) m e allowCall) i e i := by
  have hno : ∀ p ∈ [".", "?.", "[", "("], c.tokens[i]?.any (·.isPunct p) = false := by
    intro p hp
    cases ht : c.tokens[i]? with
    | none => rfl
    | some t =>
      have := hnext t ht
      simp only [continuesOperand, Bool.or_eq_false_iff] at this
      simp only [List.mem_cons, List.not_mem_nil, or_false] at hp
      rcases hp with rfl | rfl | rfl | rfl <;> simp [this]
  rw [memberTail]
  refine Runs.bind (runs_eatPunct_of_not (hno "." (by simp))) ?_
  refine Runs.bind runs_atPunct ?_
  rw [hno "?." (by simp)]
  refine Runs.bind (runs_eatPunct_of_not (hno "[" (by simp))) ?_
  refine Runs.bind runs_atPunct ?_
  rw [hno "(" (by simp), Bool.and_false]
  exact runs_pure

lemma runs_leftHandSide_identifier (ht : c.tokens[i]? = some t) (hk : t.kind = .identifier)
    (hnext : ∀ t, c.tokens[i + 1]? = some t → continuesOperand t = false) :
    Runs c (leftHandSide (f + 2)) i (identifierNode t) (i + 1) := by
  have hnew : c.tokens[i]?.any (·.isKeyword "new") = false := by
    simp [ht, Token.isKeyword, hk]
  rw [leftHandSide]
  refine Runs.bind (runs_marker ht) (Runs.bind runs_atKeyword ?_)
  rw [hnew]
  exact Runs.bind (runs_primary_identifier ht hk) (runs_memberTail_done hnext)

/-- A name that nothing after it continues is a unary expression of one token. -/
lemma runs_unary_identifier (hd : c.depth < maxDepth) (ht : c.tokens[i]? = some t)
    (hk : t.kind = .identifier)
    (hnext : ∀ t, c.tokens[i + 1]? = some t → continuesOperand t = false) :
    Runs c (unary (f + 3)) i (identifierNode t) (i + 1) := by
  rw [unary]
  refine runs_nested hd (Runs.bind (runs_marker ht) (Runs.bind runs_peek ?_))
  have hop : isUnaryOperator t = false := by simp [isUnaryOperator, hk]
  have hupd : (t.isPunct "++" || t.isPunct "--") = false := by simp [Token.isPunct, hk]
  simp only [ht, hop, hupd, Bool.false_eq_true, if_false]
  refine Runs.bind (runs_leftHandSide_identifier ht hk hnext) (Runs.bind runs_peek ?_)
  cases ht' : c.tokens[i + 1]? with
  | none => exact runs_pure
  | some t' =>
    obtain ⟨b, hb⟩ := runs_newlineBefore (c := ⟨c.tokens, c.closers, c.allowIn, c.depth + 1⟩)
      (i := i + 1)
    have hpost : (t'.isPunct "++" || t'.isPunct "--") = false := by
      have := hnext t' ht'
      simp only [continuesOperand, Bool.or_eq_false_iff] at this
      simp [this]
    refine Runs.bind hb ?_
    simp only [hpost, Bool.false_and, Bool.false_eq_true, if_false]
    exact runs_pure

lemma fails_leftHandSide_identifier (ht : c.tokens[i]? = some t) (hk : t.kind = .identifier)
    (hf : f < 2) : Fails c (leftHandSide f) i .outOfBudget := by
  match f, hf with
  | 0, _ =>
    rw [leftHandSide]
    exact fails_outOfBudget
  | 1, _ =>
    have hnew : c.tokens[i]?.any (·.isKeyword "new") = false := by
      simp [ht, Token.isKeyword, hk]
    rw [leftHandSide]
    refine Runs.bind_fails (runs_marker ht) (Runs.bind_fails runs_atKeyword ?_)
    rw [hnew, primary]
    exact Fails.bind fails_outOfBudget

/-- With a budget under three, reading a name as a unary expression runs out of budget. -/
lemma fails_unary_identifier (hd : c.depth < maxDepth) (ht : c.tokens[i]? = some t)
    (hk : t.kind = .identifier) (hf : f < 3) : Fails c (unary f) i .outOfBudget := by
  match f, hf with
  | 0, _ =>
    rw [unary]
    exact fails_outOfBudget
  | g + 1, hg =>
    have hop : isUnaryOperator t = false := by simp [isUnaryOperator, hk]
    have hupd : (t.isPunct "++" || t.isPunct "--") = false := by simp [Token.isPunct, hk]
    rw [unary]
    refine fails_nested hd (Runs.bind_fails (runs_marker ht) (Runs.bind_fails runs_peek ?_))
    simp only [ht, hop, hupd, Bool.false_eq_true, if_false]
    exact Fails.bind (fails_leftHandSide_identifier ht hk (by omega))

end Parse

end DotLint
