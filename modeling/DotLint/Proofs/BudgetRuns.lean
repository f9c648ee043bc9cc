import Mathlib.Tactic.Lemma
import DotLint.Proofs.ParseRuns

/-!
# Runs that stay within their budget

Every function of the grammar takes a recursion budget and fails with `outOfBudget` once it
is spent. `Parse.Spends c x i Q` says that `x`, run in context `c` from token index `i`,
does not end in that error: it fails with an error of another kind, or it succeeds and `Q`
holds of its result and of the index where it stops.

This module gives the rules for building such statements, one for each way a parser is
built and one for each primitive of `Parse.Basic`, and the measure that the grammar's budget
is checked against: `need c i`, sixteen units for each token left from `i` and for each
nesting level still open in `c`. A run moves forward (`Moves`), or reads at least one token
that is there (`Advances`); reading a token lowers the measure by sixteen, and so does going
one nesting level deeper.
-/

namespace DotLint

namespace Parse

variable {α β : Type} {c : ParseContext} {i j : Nat}

/-- What a run may end in under `Q`: a result and a stopping index that satisfy `Q`, or an
error of any kind but a spent budget. -/
def Concludes (Q : α → Nat → Prop) : Except ParseError (α × Nat) → Prop
  | .ok p => Q p.1 p.2
  | .error e => e.kind ≠ .outOfBudget

/-- `x`, run in `c` from `i`, does not run out of budget, and if it succeeds, `Q` holds of its
result and of where it stops. -/
def Spends (c : ParseContext) (x : ParseM α) (i : Nat) (Q : α → Nat → Prop) : Prop :=
  Concludes Q ((x.run c).run i)

/-! ## Building blocks -/

section Rules

variable {x : ParseM α} {Q Q' : α → Nat → Prop}

lemma Spends.mono (h : Spends c x i Q) (hQ : ∀ a j, Q a j → Q' a j) : Spends c x i Q' := by
  unfold Spends at *
  cases hx : (x.run c).run i with
  | error e =>
    rw [hx] at h
    exact h
  | ok p =>
    rw [hx] at h
    exact hQ p.1 p.2 h

/-- A run that does not run out of budget does not end in that error. -/
lemma Spends.ne_outOfBudget (h : Spends c x i Q) {e : ParseError}
    (hx : (x.run c).run i = .error e) : e.kind ≠ .outOfBudget := by
  unfold Spends at h
  rw [hx] at h
  exact h

/-- A run that succeeds with a known result spends what its continuation spends. -/
lemma spends_of_runs {a : α} (h : Runs c x i a j) : Spends c x i Q ↔ Q a j := by
  unfold Spends
  rw [show (x.run c).run i = .ok (a, j) from h]
  rfl

@[simp] lemma spends_pure {a : α} : Spends c (pure a) i Q ↔ Q a i :=
  spends_of_runs runs_pure

@[simp] lemma spends_bind {f : α → ParseM β} {Q : β → Nat → Prop} :
    Spends c (x >>= f) i Q ↔ Spends c x i fun a j => Spends c (f a) j Q := by
  unfold Spends
  cases hx : (x.run c).run i with
  | error e =>
    rw [run_bind_of_eq_error hx]
    exact Iff.rfl
  | ok p =>
    rw [run_bind_of_eq_ok hx]
    exact Iff.rfl

/-- Weakening what a parser run after `x` establishes. -/
lemma Spends.mono_bind {y : α → ParseM β} (P : β → Nat → Prop) {K : β → Nat → Prop}
    (h : Spends c x i fun a j => Spends c (y a) j P) (hK : ∀ b j, P b j → K b j) :
    Spends c x i fun a j => Spends c (y a) j K :=
  h.mono fun _ _ h' => h'.mono hK

@[simp] lemma spends_map {f : α → β} {Q : β → Nat → Prop} :
    Spends c (f <$> x) i Q ↔ Spends c x i fun a j => Q (f a) j := by
  rw [← bind_pure_comp, spends_bind]
  simp

@[simp] lemma spends_ite {p : Prop} [Decidable p] {y : ParseM α} :
    Spends c (if p then x else y) i Q ↔ (p → Spends c x i Q) ∧ (¬ p → Spends c y i Q) := by
  by_cases hp : p <;> simp [hp]

@[simp] lemma spends_throw {e : ParseError} :
    Spends c (throw e : ParseM α) i Q ↔ e.kind ≠ .outOfBudget :=
  Iff.rfl

@[simp] lemma spends_read {Q : ParseContext → Nat → Prop} : Spends c read i Q ↔ Q c i :=
  spends_of_runs runs_read

@[simp] lemma spends_get {Q : Nat → Nat → Prop} : Spends c get i Q ↔ Q i i :=
  spends_of_runs rfl

@[simp] lemma spends_withReader {f : ParseContext → ParseContext} :
    Spends c (withReader f x) i Q ↔ Spends (f c) x i Q :=
  Iff.rfl

@[simp] lemma spends_withAllowIn {allow : Bool} :
    Spends c (withAllowIn allow x) i Q ↔ Spends ⟨c.tokens, c.closers, allow, c.depth⟩ x i Q :=
  Iff.rfl

/-- Going one level deeper fails past the deepest nesting, with an error of its own. -/
@[simp] lemma spends_nested :
    Spends c (nested x) i Q ↔
      (c.depth < maxDepth → Spends ⟨c.tokens, c.closers, c.allowIn, c.depth + 1⟩ x i Q) := by
  unfold nested
  by_cases hd : c.depth < maxDepth
  · simp only [hd, true_implies, spends_bind, spends_read, ge_iff_le, Nat.not_le.2 hd, if_false,
      spends_withReader]
  · obtain ⟨pos, hpos⟩ := runs_position (c := c) (i := i)
    simp only [hd, false_implies, iff_true, spends_bind, spends_read,
      show c.depth ≥ maxDepth by omega, if_true, spends_of_runs hpos, spends_throw]
    exact fun h => by cases h

end Rules

/-! ## The primitives of the parser -/

@[simp] lemma spends_peek {Q : Option Token → Nat → Prop} :
    Spends c peek i Q ↔ Q c.tokens[i]? i :=
  spends_of_runs runs_peek

@[simp] lemma spends_skip {Q : Unit → Nat → Prop} : Spends c skip i Q ↔ Q () (i + 1) :=
  spends_of_runs runs_skip

@[simp] lemma spends_atPunct {p : String} {Q : Bool → Nat → Prop} :
    Spends c (atPunct p) i Q ↔ Q (c.tokens[i]?.any (·.isPunct p)) i :=
  spends_of_runs runs_atPunct

@[simp] lemma spends_peekAtPunct {k : Nat} {p : String} {Q : Bool → Nat → Prop} :
    Spends c (peekAtPunct k p) i Q ↔ Q (c.tokens[i + k]?.any (·.isPunct p)) i :=
  spends_of_runs rfl

@[simp] lemma spends_atKeyword {w : String} {Q : Bool → Nat → Prop} :
    Spends c (atKeyword w) i Q ↔ Q (c.tokens[i]?.any (·.isKeyword w)) i :=
  spends_of_runs runs_atKeyword

@[simp] lemma spends_atIdentifier {w : String} {Q : Bool → Nat → Prop} :
    Spends c (atIdentifier w) i Q ↔
      Q (c.tokens[i]?.any (fun t => t.kind == .identifier && t.text == w)) i :=
  spends_of_runs rfl

@[simp] lemma spends_eatPunct {p : String} {Q : Bool → Nat → Prop} :
    Spends c (eatPunct p) i Q ↔
      (c.tokens[i]?.any (·.isPunct p) = true → Q true (i + 1)) ∧
      (c.tokens[i]?.any (·.isPunct p) = false → Q false i) := by
  unfold eatPunct
  cases h : c.tokens[i]?.any (·.isPunct p) <;> simp [h]

@[simp] lemma spends_eatKeyword {w : String} {Q : Bool → Nat → Prop} :
    Spends c (eatKeyword w) i Q ↔
      (c.tokens[i]?.any (·.isKeyword w) = true → Q true (i + 1)) ∧
      (c.tokens[i]?.any (·.isKeyword w) = false → Q false i) := by
  unfold eatKeyword
  cases h : c.tokens[i]?.any (·.isKeyword w) <;> simp [h]

/-- Failing for want of a token is no spent budget. -/
@[simp] lemma spends_failExpected {what : String} {Q : α → Nat → Prop} :
    Spends c (failExpected what) i Q := by
  obtain ⟨pos, hpos⟩ := runs_position (c := c) (i := i)
  unfold failExpected
  simp [spends_of_runs hpos]

/-- Failing at an unexpected token is no spent budget. -/
@[simp] lemma spends_failUnexpected {Q : α → Nat → Prop} : Spends c failUnexpected i Q := by
  obtain ⟨pos, hpos⟩ := runs_position (c := c) (i := i)
  unfold failUnexpected
  cases ht : c.tokens[i]? <;> simp [ht, spends_of_runs hpos]

@[simp] lemma spends_expectPunct {p : String} {Q : Unit → Nat → Prop} :
    Spends c (expectPunct p) i Q ↔ (c.tokens[i]?.any (·.isPunct p) = true → Q () (i + 1)) := by
  unfold expectPunct
  simp

@[simp] lemma spends_expectKeyword {w : String} {Q : Unit → Nat → Prop} :
    Spends c (expectKeyword w) i Q ↔
      (c.tokens[i]?.any (·.isKeyword w) = true → Q () (i + 1)) := by
  unfold expectKeyword
  simp

@[simp] lemma spends_bump {Q : Token → Nat → Prop} :
    Spends c bump i Q ↔ ∀ t, c.tokens[i]? = some t → Q t (i + 1) := by
  unfold bump
  simp only [spends_bind, spends_peek]
  cases c.tokens[i]? <;> simp

/-- A marker is taken without moving. -/
lemma spends_marker {Q : Marker → Nat → Prop} (h : ∀ m, Q m i) : Spends c marker i Q := by
  unfold marker
  simp only [spends_bind, spends_peek]
  cases c.tokens[i]? with
  | some t => exact h _
  | none =>
    obtain ⟨r, hr⟩ := runs_endOfInput (c := c) (i := i)
    simpa [spends_of_runs hr] using h _

/-- A node is finished without moving. -/
lemma spends_finish {kind : NodeKind} {m : Marker} {F : List (String × Field Node)}
    {Q : Node → Nat → Prop} (h : ∀ n, Q n i) : Spends c (finish kind m F) i Q := by
  unfold finish
  simp only [spends_bind, spends_of_runs runs_previous]
  split <;> exact h _

/-- Looking for a line break before the next token moves nothing. -/
lemma spends_newlineBefore {Q : Bool → Nat → Prop} (h : ∀ b, Q b i) :
    Spends c newlineBefore i Q := by
  obtain ⟨b, hb⟩ := runs_newlineBefore (c := c) (i := i)
  exact (spends_of_runs hb).2 (h b)

/-- Looking for the end of a statement moves nothing. -/
lemma spends_atStatementEnd {Q : Bool → Nat → Prop} (h : ∀ b, Q b i) :
    Spends c atStatementEnd i Q := by
  unfold atStatementEnd
  simp only [spends_bind, spends_peek, spends_atPunct, spends_pure]
  exact spends_newlineBefore fun _ => h _

/-- An optional semicolon is read where one is next; otherwise nothing moves. -/
lemma spends_consumeSemicolon {Q : Unit → Nat → Prop}
    (h : c.tokens[i]?.any (·.isPunct ";") = true → Q () (i + 1)) (h' : Q () i) :
    Spends c consumeSemicolon i Q := by
  unfold consumeSemicolon
  simp only [spends_bind, spends_eatPunct]
  refine ⟨fun hsemi => by simpa using h hsemi, fun _ => ?_⟩
  simp only [Bool.false_eq_true, if_false, spends_bind]
  exact spends_atStatementEnd fun b => by cases b <;> simp [h']

/-- Looking for the start of an arrow function moves nothing. -/
lemma spends_isArrowStart {Q : Bool → Nat → Prop} (h : ∀ b, Q b i) :
    Spends c isArrowStart i Q := by
  unfold isArrowStart
  simp only [spends_bind, spends_peek]
  cases c.tokens[i]? with
  | none => simpa using h false
  | some t =>
    simp only [spends_ite, spends_pure, spends_peekAtPunct, spends_bind, spends_read, spends_get]
    refine ⟨fun _ => h _, fun _ => ⟨fun _ => h _, fun _ => ?_⟩⟩
    split <;> simp [h]

/-- An accessor prefix is read, and the index moves past it, or nothing is read. -/
lemma spends_accessorPrefix {Q : Option String → Nat → Prop} (hnone : Q none i)
    (hsome : ∀ t, c.tokens[i]? = some t → Q (some t.text) (i + 1)) :
    Spends c accessorPrefix i Q := by
  have hany : ∀ ps : List String, ∀ {R : Bool → Nat → Prop}, (∀ b, R b i) →
      Spends c (ps.anyM (peekAtPunct 1)) i R := by
    intro ps
    induction ps with
    | nil => intro R hR; simpa [List.anyM] using hR false
    | cons p ps ih =>
      intro R hR
      simp only [List.anyM, spends_bind, spends_peekAtPunct]
      split
      · exact spends_pure.2 (hR _)
      · exact ih hR
  unfold accessorPrefix
  simp only [spends_bind, spends_peek]
  cases ht : c.tokens[i]? with
  | none => simpa using hnone
  | some t =>
    simp only [spends_ite, spends_pure, spends_bind]
    refine ⟨fun _ => hany _ fun b => ?_, fun _ => hnone⟩
    cases b <;> simp [hnone, hsome t ht]

/-- Looking for a binary operator moves nothing; one is found only at a token. -/
lemma spends_binaryOperator {Q : Option (String × Nat) → Nat → Prop} (hnone : Q none i)
    (hsome : ∀ op prec, i < c.tokens.size → Q (some (op, prec)) i) :
    Spends c binaryOperator i Q := by
  refine (spends_of_runs runs_binaryOperator).2 ?_
  cases ht : c.tokens[i]? with
  | none => exact hnone
  | some t =>
    have hi : i < c.tokens.size := (Array.getElem?_eq_some_iff.1 ht).1
    simp only [Option.bind_some]
    cases binaryPrecedence c.allowIn t with
    | none => exact hnone
    | some prec => exact hsome _ _ hi

/-- A name being bound is read at a token that is there. -/
lemma spends_bindingIdentifier {Q : Node → Nat → Prop}
    (h : ∀ t, c.tokens[i]? = some t → ∀ n, Q n (i + 1)) : Spends c bindingIdentifier i Q := by
  unfold bindingIdentifier
  simp only [spends_bind, spends_peek]
  cases ht : c.tokens[i]? with
  | none => exact spends_failExpected
  | some t =>
    simp only [spends_ite, spends_bind, spends_skip, spends_pure, spends_failExpected]
    exact ⟨fun _ => h t ht _, fun _ => trivial⟩

/-- A property name after a dot is read at a token that is there. -/
lemma spends_identifierName {Q : Node → Nat → Prop}
    (h : ∀ t, c.tokens[i]? = some t → ∀ n, Q n (i + 1)) : Spends c identifierName i Q := by
  unfold identifierName
  simp only [spends_bind, spends_peek]
  cases ht : c.tokens[i]? with
  | none => exact spends_failExpected
  | some t =>
    simp only [spends_ite, spends_bind, spends_skip, spends_pure, spends_failExpected]
    exact ⟨fun _ => h t ht _, fun _ => trivial⟩

/-! ## How far a run gets, and what is left to spend -/

/-- A run from `i` that stopped at `j` read at least one token, and only tokens that are
there. -/
def Advances (ts : Array Token) (i j : Nat) : Prop := i < j ∧ j ≤ ts.size

/-- A run from `i` that stopped at `j` moved forward, and past `i` only over tokens that are
there. -/
def Moves (ts : Array Token) (i j : Nat) : Prop := i ≤ j ∧ j ≤ max i ts.size

section Progress

variable {ts : Array Token} {k : Nat}

lemma Advances.moves (h : Advances ts i j) : Moves ts i j := by
  unfold Advances Moves at *
  omega

lemma Moves.refl (ts : Array Token) (i : Nat) : Moves ts i i := by
  unfold Moves
  omega

/-- Reading the token at `i`, which is there. -/
lemma advances_succ (hi : i < ts.size) : Advances ts i (i + 1) := by
  unfold Advances
  omega

/-- Reading a token that a lookahead found there. -/
lemma advances_of_any {p : Token → Bool} (h : ts[i]?.any p = true) : Advances ts i (i + 1) :=
  advances_succ (lt_size_of_any h)

/-- Reading a token that is there. -/
lemma advances_of_getElem? {t : Token} (h : ts[i]? = some t) : Advances ts i (i + 1) :=
  advances_succ (Array.getElem?_eq_some_iff.1 h).1

lemma Advances.trans_moves (h : Advances ts i j) (h' : Moves ts j k) : Advances ts i k := by
  unfold Advances Moves at *
  omega

lemma Moves.trans_advances (h : Moves ts i j) (h' : Advances ts j k) : Advances ts i k := by
  unfold Advances Moves at *
  omega

lemma Moves.trans (h : Moves ts i j) (h' : Moves ts j k) : Moves ts i k := by
  unfold Moves at *
  omega

lemma Advances.mono_left (hi : i ≤ j) (h : Advances ts j k) : Advances ts i k := by
  unfold Advances at *
  omega

lemma Advances.trans (h : Advances ts i j) (h' : Advances ts j k) : Advances ts i k :=
  h.trans_moves h'.moves

end Progress

/-- What a run from the token `i` in `c` may have to spend: sixteen units for each token left
to read and for each nesting level still open. -/
def need (c : ParseContext) (i : Nat) : Nat :=
  16 * (c.tokens.size - i) + 16 * (maxDepth - c.depth)

/-- Reading on lowers what is left to spend. -/
lemma need_le_of_le (h : i ≤ j) : need c j ≤ need c i := by
  unfold need
  omega

/-- A run that read a token leaves at least sixteen units less to spend. -/
lemma need_add_le_of_advances (h : Advances c.tokens i j) : need c j + 16 ≤ need c i := by
  unfold need Advances at *
  omega

lemma need_succ_le : need c (i + 1) ≤ need c i :=
  need_le_of_le (Nat.le_add_right i 1)

/-- Reading `in` as an operator or not changes nothing of what is left to spend. -/
@[simp] lemma need_withAllowIn (b : Bool) :
    need ⟨c.tokens, c.closers, b, c.depth⟩ i = need c i :=
  rfl

/-- One nesting level deeper, sixteen units less are left to spend. -/
lemma need_nested (hd : c.depth < maxDepth) :
    need ⟨c.tokens, c.closers, c.allowIn, c.depth + 1⟩ i + 16 = need c i := by
  unfold need
  dsimp only
  omega

end Parse

end DotLint
