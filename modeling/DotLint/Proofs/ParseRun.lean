import Mathlib.Tactic.Lemma
import DotLint.Syntax.Parse.Grammar

/-!
# What a successful parser run guarantees

A parser reads a context and moves the index of the next token, and may fail. Most facts
about the grammar say what holds *when a run succeeds*: where it stops and what it builds.
`Parse.Holds c x i Q` says exactly that for the parser `x` run in context `c` from index
`i`: if the run succeeds, its result and the index where it stops satisfy `Q`.

This module gives the rules of that predicate, one for each way a parser is built (`pure`,
bind, `if`, a change of context) and one for each primitive of `Parse.Basic` (looking at,
reading and expecting tokens, markers, failing). The rules for the building blocks are
equivalences, so that `simp only` turns a `do` block into the condition on its steps; the
grammar's own functions then get one lemma each, proved from these rules and the lemmas
of the functions they call.
-/

namespace DotLint

namespace Parse

/-- `x`, run in context `c` from token index `i`, either fails or ends with `Q` of its
result and of the index where it stops. -/
def Holds {α : Type} (c : ParseContext) (x : ParseM α) (i : Nat) (Q : α → Nat → Prop) :
    Prop :=
  ∀ a j, (x.run c).run i = .ok (a, j) → Q a j

variable {α β : Type} {c : ParseContext} {i : Nat}

/-! ## Building blocks -/

lemma Holds.mono {x : ParseM α} {Q Q' : α → Nat → Prop} (h : Holds c x i Q)
    (hQ : ∀ a j, Q a j → Q' a j) : Holds c x i Q' :=
  fun a j hx => hQ a j (h a j hx)

/-- The consequence rule for the second of two steps: what the rest needs of the result of
`x` and then `y` may be proved of a weaker condition first. -/
lemma Holds.mono_bind {x : ParseM α} {y : α → ParseM β} (P : β → Nat → Prop)
    {K : β → Nat → Prop} (h : Holds c x i fun a j => Holds c (y a) j P)
    (hK : ∀ b j, P b j → K b j) : Holds c x i fun a j => Holds c (y a) j K :=
  h.mono fun _ _ h' => h'.mono hK

@[simp] lemma holds_pure {a : α} {Q : α → Nat → Prop} : Holds c (pure a) i Q ↔ Q a i := by
  constructor
  · intro h
    exact h a i rfl
  · intro h a' j hx
    cases hx
    exact h

/-- A bind whose first step succeeds goes on as its second step from where the first
stopped. -/
lemma run_bind_of_eq_ok {x : ParseM α} {f : α → ParseM β} {a : α} {j : Nat}
    (h : (x.run c).run i = .ok (a, j)) : ((x >>= f).run c).run i = ((f a).run c).run j := by
  simp only [ReaderT.run, StateT.run] at h ⊢
  show (do let p ← x c i; f p.1 c p.2) = _
  rw [h]
  rfl

/-- A bind whose first step fails fails with the same error. -/
lemma run_bind_of_eq_error {x : ParseM α} {f : α → ParseM β} {e : ParseError}
    (h : (x.run c).run i = .error e) : ((x >>= f).run c).run i = .error e := by
  simp only [ReaderT.run, StateT.run] at h ⊢
  show (do let p ← x c i; f p.1 c p.2) = _
  rw [h]
  rfl

/-- A bind that succeeds ran its first step to success and went on from where that step
stopped. -/
lemma run_bind_eq_ok {x : ParseM α} {f : α → ParseM β} {b : β} {k : Nat}
    (h : ((x >>= f).run c).run i = .ok (b, k)) :
    ∃ a j, (x.run c).run i = .ok (a, j) ∧ ((f a).run c).run j = .ok (b, k) := by
  cases hx : (x.run c).run i with
  | error e =>
    rw [run_bind_of_eq_error hx] at h
    cases h
  | ok p => exact ⟨p.1, p.2, rfl, by rwa [run_bind_of_eq_ok hx] at h⟩

@[simp] lemma holds_bind {x : ParseM α} {f : α → ParseM β} {Q : β → Nat → Prop} :
    Holds c (x >>= f) i Q ↔ Holds c x i (fun a j => Holds c (f a) j Q) := by
  constructor
  · intro h a j hx b k hf
    exact h b k (by rwa [run_bind_of_eq_ok hx])
  · intro h b k hxf
    obtain ⟨a, j, hx, hf⟩ := run_bind_eq_ok hxf
    exact h a j hx b k hf

@[simp] lemma holds_map {x : ParseM α} {f : α → β} {Q : β → Nat → Prop} :
    Holds c (f <$> x) i Q ↔ Holds c x i (fun a j => Q (f a) j) := by
  rw [← bind_pure_comp, holds_bind]
  simp

@[simp] lemma holds_throw {e : ParseError} {Q : α → Nat → Prop} :
    Holds c (throw e) i Q ↔ True := by
  simp only [iff_true]
  intro a j hx
  cases hx

/-- Nothing is claimed of a run. -/
@[simp] lemma holds_true {x : ParseM α} : Holds c x i (fun _ _ => True) ↔ True :=
  iff_true_intro fun _ _ _ => trivial

@[simp] lemma holds_read {Q : ParseContext → Nat → Prop} : Holds c read i Q ↔ Q c i :=
  holds_pure (c := c)

@[simp] lemma holds_get {Q : Nat → Nat → Prop} : Holds c get i Q ↔ Q i i :=
  holds_pure (c := c)

@[simp] lemma holds_skip {Q : Unit → Nat → Prop} : Holds c skip i Q ↔ Q () (i + 1) :=
  holds_pure (c := c)

@[simp] lemma holds_ite {p : Prop} [Decidable p] {x y : ParseM α} {Q : α → Nat → Prop} :
    Holds c (if p then x else y) i Q ↔ (p → Holds c x i Q) ∧ (¬ p → Holds c y i Q) := by
  by_cases hp : p <;> simp [hp]

@[simp] lemma holds_withReader {f : ParseContext → ParseContext} {x : ParseM α}
    {Q : α → Nat → Prop} : Holds c (withReader f x) i Q ↔ Holds (f c) x i Q :=
  Iff.rfl

/-- A choice between two parsers that go on the same way is the choice followed by that
way; `simp` uses it to keep the rest of a `do` block after an `if` in one copy. -/
lemma ite_bind_same {m : Type → Type} [Monad m] {p : Prop} [Decidable p] {A B : m β}
    {K : β → m α} : (if p then A >>= K else B >>= K) = (if p then A else B) >>= K := by
  split <;> rfl

/-! ## The primitives of the parser -/

@[simp] lemma holds_peek {Q : Option Token → Nat → Prop} :
    Holds c peek i Q ↔ Q c.tokens[i]? i :=
  holds_pure (c := c)

@[simp] lemma holds_peekAt {k : Nat} {Q : Option Token → Nat → Prop} :
    Holds c (peekAt k) i Q ↔ Q c.tokens[i + k]? i :=
  holds_pure (c := c)

@[simp] lemma holds_atPunct {p : String} {Q : Bool → Nat → Prop} :
    Holds c (atPunct p) i Q ↔ Q (c.tokens[i]?.any (·.isPunct p)) i :=
  holds_pure (c := c)

@[simp] lemma holds_peekAtPunct {k : Nat} {p : String} {Q : Bool → Nat → Prop} :
    Holds c (peekAtPunct k p) i Q ↔ Q (c.tokens[i + k]?.any (·.isPunct p)) i :=
  holds_pure (c := c)

@[simp] lemma holds_atKeyword {w : String} {Q : Bool → Nat → Prop} :
    Holds c (atKeyword w) i Q ↔ Q (c.tokens[i]?.any (·.isKeyword w)) i :=
  holds_pure (c := c)

@[simp] lemma holds_atIdentifier {w : String} {Q : Bool → Nat → Prop} :
    Holds c (atIdentifier w) i Q ↔
      Q (c.tokens[i]?.any (fun t => t.kind == .identifier && t.text == w)) i :=
  holds_pure (c := c)

@[simp] lemma holds_eatPunct {p : String} {Q : Bool → Nat → Prop} :
    Holds c (eatPunct p) i Q ↔
      (c.tokens[i]?.any (·.isPunct p) = true → Q true (i + 1)) ∧
      (c.tokens[i]?.any (·.isPunct p) = false → Q false i) := by
  unfold eatPunct
  cases h : c.tokens[i]?.any (·.isPunct p) <;> simp [h]

@[simp] lemma holds_eatKeyword {w : String} {Q : Bool → Nat → Prop} :
    Holds c (eatKeyword w) i Q ↔
      (c.tokens[i]?.any (·.isKeyword w) = true → Q true (i + 1)) ∧
      (c.tokens[i]?.any (·.isKeyword w) = false → Q false i) := by
  unfold eatKeyword
  cases h : c.tokens[i]?.any (·.isKeyword w) <;> simp [h]

@[simp] lemma holds_failExpected {what : String} {Q : α → Nat → Prop} :
    Holds c (failExpected what) i Q ↔ True := by
  simp [failExpected]

@[simp] lemma holds_failUnexpected {Q : α → Nat → Prop} :
    Holds c failUnexpected i Q ↔ True := by
  simp [failUnexpected]

@[simp] lemma holds_outOfBudget {Q : α → Nat → Prop} : Holds c outOfBudget i Q ↔ True := by
  simp [outOfBudget]

@[simp] lemma holds_expectPunct {p : String} {Q : Unit → Nat → Prop} :
    Holds c (expectPunct p) i Q ↔ (c.tokens[i]?.any (·.isPunct p) = true → Q () (i + 1)) := by
  unfold expectPunct
  simp

@[simp] lemma holds_expectKeyword {w : String} {Q : Unit → Nat → Prop} :
    Holds c (expectKeyword w) i Q ↔ (c.tokens[i]?.any (·.isKeyword w) = true → Q () (i + 1)) := by
  unfold expectKeyword
  simp

@[simp] lemma holds_bump {Q : Token → Nat → Prop} :
    Holds c bump i Q ↔ ∀ t, c.tokens[i]? = some t → Q t (i + 1) := by
  unfold bump
  simp only [holds_bind, holds_peek]
  cases c.tokens[i]? <;> simp

@[simp] lemma holds_withAllowIn {allow : Bool} {x : ParseM α} {Q : α → Nat → Prop} :
    Holds c (withAllowIn allow x) i Q ↔ Holds ⟨c.tokens, c.closers, allow, c.depth⟩ x i Q :=
  Iff.rfl

@[simp] lemma holds_nested {x : ParseM α} {Q : α → Nat → Prop} :
    Holds c (nested x) i Q ↔
      (c.depth < maxDepth → Holds ⟨c.tokens, c.closers, c.allowIn, c.depth + 1⟩ x i Q) := by
  unfold nested
  by_cases h : c.depth < maxDepth
  · simp [h]
  · simp [h]

/-- A token that passes a test is there. -/
lemma lt_size_of_any {ts : Array Token} {p : Token → Bool} {j : Nat} (h : ts[j]?.any p = true) :
    j < ts.size := by
  cases ht : ts[j]? with
  | none => simp [ht] at h
  | some t => exact (Array.getElem?_eq_some_iff.1 ht).1

/-- Asking whether a line break comes before the next token moves nothing. -/
lemma holds_newlineBefore {Q : Bool → Nat → Prop} (h : ∀ b, Q b i) :
    Holds c newlineBefore i Q := by
  unfold newlineBefore previous
  simp only [holds_bind, holds_get, holds_read, holds_peek, holds_ite, holds_pure]
  refine ⟨fun _ => h false, fun _ => ?_⟩
  split <;> simp [h]

/-- Asking whether a statement may end here moves nothing. -/
lemma holds_atStatementEnd {Q : Bool → Nat → Prop} (h : ∀ b, Q b i) :
    Holds c atStatementEnd i Q := by
  unfold atStatementEnd
  simp only [holds_bind, holds_peek, holds_atPunct, holds_pure]
  exact holds_newlineBefore fun _ => h _

/-- A semicolon is read if one is next; otherwise the index does not move. -/
lemma holds_consumeSemicolon {Q : Unit → Nat → Prop}
    (h : c.tokens[i]?.any (·.isPunct ";") = true → Q () (i + 1)) (h' : Q () i) :
    Holds c consumeSemicolon i Q := by
  unfold consumeSemicolon
  simp only [holds_bind, holds_eatPunct]
  refine ⟨fun hsemi => by simpa using h hsemi, fun _ => ?_⟩
  simp only [holds_ite, holds_bind]
  refine ⟨by simp, fun _ => holds_atStatementEnd fun b => ?_⟩
  cases b <;> simp [h']

/-- Looking for the start of an arrow function moves nothing. -/
lemma holds_isArrowStart {Q : Bool → Nat → Prop} (h : ∀ b, Q b i) :
    Holds c isArrowStart i Q := by
  unfold isArrowStart
  simp only [holds_bind, holds_peek]
  cases c.tokens[i]? with
  | none => simpa using h false
  | some t =>
    simp only [holds_ite, holds_pure, holds_peekAtPunct, holds_bind, holds_read, holds_get]
    refine ⟨fun _ => h _, fun _ => ⟨fun _ => h _, fun _ => ?_⟩⟩
    split <;> simp [h]

/-- Testing the token after the next one against a list of punctuators moves nothing. -/
lemma holds_anyM_peekAtPunct {Q : Bool → Nat → Prop} (ps : List String) (h : ∀ b, Q b i) :
    Holds c (ps.anyM (peekAtPunct 1)) i Q := by
  induction ps with
  | nil => simpa [List.anyM] using h false
  | cons p ps ih =>
    simp only [List.anyM, holds_bind, holds_peekAtPunct]
    split <;> simp [h, ih]

/-- An accessor prefix is read, and the index moves past it, or nothing is read. -/
lemma holds_accessorPrefix {Q : Option String → Nat → Prop} (hnone : Q none i)
    (hsome : ∀ t, c.tokens[i]? = some t → Q (some t.text) (i + 1)) :
    Holds c accessorPrefix i Q := by
  unfold accessorPrefix
  simp only [holds_bind, holds_peek]
  cases ht : c.tokens[i]? with
  | none => simpa using hnone
  | some t =>
    simp only [holds_ite, holds_pure, holds_bind]
    refine ⟨fun _ => holds_anyM_peekAtPunct _ fun b => ?_, fun _ => hnone⟩
    cases b <;> simp [hnone, hsome t ht]

/-- Looking for a binary operator moves nothing; one is found only at a token. -/
lemma holds_binaryOperator {Q : Option (String × Nat) → Nat → Prop} (hnone : Q none i)
    (hsome : ∀ op prec, i < c.tokens.size → Q (some (op, prec)) i) :
    Holds c binaryOperator i Q := by
  unfold binaryOperator
  simp only [holds_bind, holds_peek]
  cases ht : c.tokens[i]? with
  | none => simpa using hnone
  | some t =>
    have hi : i < c.tokens.size := (Array.getElem?_eq_some_iff.1 ht).1
    simp only [holds_bind, holds_read, holds_pure]
    cases binaryPrecedence c.allowIn t with
    | none => simpa using hnone
    | some prec => simpa using hsome t.text prec hi

end Parse

end DotLint
