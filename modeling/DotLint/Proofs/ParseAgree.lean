import Mathlib.Tactic.Lemma
import DotLint.Proofs.Respan

/-!
# Two parser runs that take the same decisions

A fix moves dots across blanks and comments. The tokens keep their kinds and texts, but
their spans and locations change, and so does whether a line break stands right before a
dot or right after one. This module sets up the comparison of a parser run over the
original tokens with a run over the moved ones.

* `Agree c c'` says what the two contexts share: token kinds and texts, bracket pairs, the
  settings, and the line breaks before every token except a dot and the token after one.
* `RHolds c c' x x' i Q` says that whenever `x` succeeds in `c` from index `i`, then `x'`
  succeeds in `c'` from `i` too, stops at the same index, and the two results satisfy `Q`.
  `RHoldsUnless E` allows the second run to fail where the first stops at an index of `E`.
* `Clean ts i j` says that a run from `i` to `j` moved forward and, if it read anything,
  did not stop right after a dot, a `?` or a `/`: no construct of the grammar ends there.

Each primitive of the parser gets a rule: the tests of `Parse.Basic` give equal answers,
`finish` builds nodes that `respanBy` maps onto each other, and the line-break test gives
equal answers away from dots.
-/

namespace DotLint

namespace Token

/-- What a token is, apart from where it stands: its kind and its text. -/
def view (t : Token) : TokenKind × String := (t.kind, t.text)

/-- Whether the token is one that no construct of the grammar ends with: a dot, a `?` or a
`/`. -/
def isOpen (t : Token) : Bool := t.isPunct "." || t.isPunct "?." || t.isPunct "?" || t.isPunct "/"

end Token

namespace Parse

/-! ## Contexts that a parser cannot tell apart -/

/-- Two token arrays with the same kinds and texts, index by index. -/
def SameTokens (ts ts' : Array Token) : Prop :=
  ∀ k : Nat, ts'[k]?.map Token.view = ts[k]?.map Token.view

/-- Whether a line break stands between token `i - 1` and token `i`, as the parser asks it. -/
def lineBreakBefore (ts : Array Token) (i : Nat) : Bool :=
  match (if i = 0 then none else ts[i - 1]?), ts[i]? with
  | some prev, some next => decide (prev.loc.stop.line < next.loc.start.line)
  | _, _ => false

/-- Whether token `k` is a member-access dot, `.` or `?.`. -/
def isDotAt (ts : Array Token) (k : Nat) : Bool :=
  ts[k]?.any fun t => t.isPunct "." || t.isPunct "?."

/-- Whether token `k` is a dot, a `?` or a `/`: tokens that no construct of the grammar ends
with. -/
def isOpenAt (ts : Array Token) (k : Nat) : Bool := ts[k]?.any Token.isOpen

/-- A run from `i` to `j` moved forward, not past the last token, and, if it read a token,
did not stop right after a dot, a `?` or a `/`. -/
def Clean (ts : Array Token) (i j : Nat) : Prop :=
  i ≤ j ∧ j ≤ ts.size ∧ (i < j → isOpenAt ts (j - 1) = false)

/-- Two contexts whose runs take the same decisions: both token arrays are in text order,
they have the same kinds and texts, bracket pairs and settings, and the same line breaks
before every token except a dot and the token right after one. -/
structure Agree (c c' : ParseContext) : Prop where
  ordered : InTextOrder c.tokens.toList
  ordered' : InTextOrder c'.tokens.toList
  same : SameTokens c.tokens c'.tokens
  closers : c'.closers = c.closers
  allowIn : c'.allowIn = c.allowIn
  depth : c'.depth = c.depth
  lineBreak : ∀ k, lineBreakBefore c'.tokens k ≠ lineBreakBefore c.tokens k →
    isDotAt c.tokens k = true ∨ (0 < k ∧ isDotAt c.tokens (k - 1) = true)

/-- A node over the tokens of `c` moved onto the tokens of `c'`. -/
def move (ts ts' : Array Token) (n : Node) : Node := n.respan (respanBy ts ts')

lemma move_def (ts ts' : Array Token) : move ts ts' = Node.respan (respanBy ts ts') := rfl

section SameTokens

variable {ts ts' : Array Token} {k : Nat} {t : Token}

lemma SameTokens.size (h : SameTokens ts ts') : ts'.size = ts.size := by
  by_contra hne
  rcases Nat.lt_or_gt_of_ne hne with hlt | hlt
  · have := h ts'.size
    rw [Array.getElem?_eq_none (Nat.le_refl _), Array.getElem?_eq_getElem hlt] at this
    simp at this
  · have := h ts.size
    rw [Array.getElem?_eq_none (Nat.le_refl _), Array.getElem?_eq_getElem hlt] at this
    simp at this

/-- The token at an index of the other array has the same kind and text. -/
lemma SameTokens.getElem? (h : SameTokens ts ts') (ht : ts[k]? = some t) :
    ∃ t', ts'[k]? = some t' ∧ t'.kind = t.kind ∧ t'.text = t.text := by
  have hk := h k
  rw [ht] at hk
  cases ht' : ts'[k]? with
  | none => rw [ht'] at hk; simp at hk
  | some t' =>
    rw [ht'] at hk
    simp only [Option.map_some, Option.some.injEq, Token.view, Prod.mk.injEq] at hk
    exact ⟨t', rfl, hk⟩

lemma SameTokens.getElem?_none (h : SameTokens ts ts') (ht : ts[k]? = none) : ts'[k]? = none := by
  have hk := h k
  rw [ht] at hk
  simpa using hk

/-- A test that reads only kinds and texts gives the same answer on both arrays. -/
lemma SameTokens.any (h : SameTokens ts ts') {p : Token → Bool}
    (hp : ∀ t t' : Token, t'.kind = t.kind → t'.text = t.text → p t' = p t) :
    ts'[k]?.any p = ts[k]?.any p := by
  cases ht : ts[k]? with
  | none => simp [h.getElem?_none ht]
  | some t =>
    obtain ⟨t', ht', hkind, htext⟩ := h.getElem? ht
    simp [ht', hp t t' hkind htext]

lemma isPunct_congr {p : String} (t t' : Token) (hk : t'.kind = t.kind) (ht : t'.text = t.text) :
    t'.isPunct p = t.isPunct p := by
  simp [Token.isPunct, hk, ht]

lemma isKeyword_congr {w : String} (t t' : Token) (hk : t'.kind = t.kind)
    (ht : t'.text = t.text) : t'.isKeyword w = t.isKeyword w := by
  simp [Token.isKeyword, hk, ht]

end SameTokens

namespace Agree

variable {c c' : ParseContext}

/-- Reading the keyword `in` as an operator or not keeps two contexts in agreement. -/
lemma withAllowIn (h : Agree c c') (b : Bool) :
    Agree ⟨c.tokens, c.closers, b, c.depth⟩ ⟨c'.tokens, c'.closers, b, c'.depth⟩ :=
  ⟨h.ordered, h.ordered', h.same, h.closers, rfl, h.depth, h.lineBreak⟩

/-- Going one level deeper keeps two contexts in agreement. -/
lemma nested (h : Agree c c') :
    Agree ⟨c.tokens, c.closers, c.allowIn, c.depth + 1⟩
      ⟨c'.tokens, c'.closers, c'.allowIn, c'.depth + 1⟩ :=
  ⟨h.ordered, h.ordered', h.same, h.closers, h.allowIn, by simp [h.depth], h.lineBreak⟩

lemma size (h : Agree c c') : c'.tokens.size = c.tokens.size := h.same.size

end Agree

/-! ## Runs that end alike -/

variable {α β : Type} {c c' : ParseContext} {i : Nat}

/-- Whenever `x` succeeds in `c` from `i`, `x'` succeeds in `c'` from `i`, stops at the same
index, and the two results satisfy `Q`. -/
def RHolds (c c' : ParseContext) (x x' : ParseM α) (i : Nat) (Q : α → α → Nat → Prop) : Prop :=
  ∀ a j, (x.run c).run i = .ok (a, j) → ∃ a', (x'.run c').run i = .ok (a', j) ∧ Q a a' j

/-- `RHolds`, except where the first run stops at an index of `E`. -/
def RHoldsUnless (E : Nat → Prop) (c c' : ParseContext) (x x' : ParseM α) (i : Nat)
    (Q : α → α → Nat → Prop) : Prop :=
  ∀ a j, (x.run c).run i = .ok (a, j) → ¬ E j → ∃ a', (x'.run c').run i = .ok (a', j) ∧ Q a a' j

section Rules

variable {x x' : ParseM α} {Q Q' : α → α → Nat → Prop}

lemma RHolds.mono (h : RHolds c c' x x' i Q) (hQ : ∀ a a' j, Q a a' j → Q' a a' j) :
    RHolds c c' x x' i Q' := fun a j hx => by
  obtain ⟨a', hx', hq⟩ := h a j hx
  exact ⟨a', hx', hQ a a' j hq⟩

lemma RHolds.unless (h : RHolds c c' x x' i Q) (E : Nat → Prop) :
    RHoldsUnless E c c' x x' i Q := fun a j hx _ => h a j hx

lemma RHoldsUnless.mono {E : Nat → Prop} (h : RHoldsUnless E c c' x x' i Q)
    (hQ : ∀ a a' j, Q a a' j → Q' a a' j) : RHoldsUnless E c c' x x' i Q' := fun a j hx hE => by
  obtain ⟨a', hx', hq⟩ := h a j hx hE
  exact ⟨a', hx', hQ a a' j hq⟩

/-- A run that cannot succeed is related to anything. -/
lemma RHolds.of_holds_false (h : Holds c x i fun _ _ => False) : RHolds c c' x x' i Q :=
  fun a j hx => (h a j hx).elim

lemma rholds_pure {a a' : α} (h : Q a a' i) : RHolds c c' (pure a) (pure a') i Q := by
  intro b j hb
  cases hb
  exact ⟨a', rfl, h⟩

lemma rholds_bind {k k' : α → ParseM β} {Q : β → β → Nat → Prop}
    (h : RHolds c c' x x' i fun a a' j => RHolds c c' (k a) (k' a') j Q) :
    RHolds c c' (x >>= k) (x' >>= k') i Q := by
  intro b l hb
  obtain ⟨a, j, hx, hk⟩ := run_bind_eq_ok hb
  obtain ⟨a', hx', hk'⟩ := h a j hx
  obtain ⟨b', hb', hq⟩ := hk' b l hk
  exact ⟨b', by rwa [run_bind_of_eq_ok hx'], hq⟩

/-- Binding after a run that may fail at an index of `E`: if it does stop there, the rest
stops there too or fails. -/
lemma rholdsUnless_bind {E : Nat → Prop} {k k' : α → ParseM β} {Q : β → β → Nat → Prop}
    (h : RHoldsUnless E c c' x x' i fun a a' j => RHoldsUnless E c c' (k a) (k' a') j Q)
    (hstay : ∀ a j, E j → Holds c (k a) j fun _ l => E l) :
    RHoldsUnless E c c' (x >>= k) (x' >>= k') i Q := by
  intro b l hb hE
  obtain ⟨a, j, hx, hk⟩ := run_bind_eq_ok hb
  -- the first run stops away from `E`, or the rest would stop there too
  have hEj : ¬ E j := fun hEj => hE (hstay a j hEj b l hk)
  obtain ⟨a', hx', hk'⟩ := h a j hx hEj
  obtain ⟨b', hb', hq⟩ := hk' b l hk hE
  exact ⟨b', by rwa [run_bind_of_eq_ok hx'], hq⟩

/-- Binding a rest that may fail at an index of `E` after a run that may not. -/
lemma rholds_bind_unless {E : Nat → Prop} {k k' : α → ParseM β} {Q : β → β → Nat → Prop}
    (h : RHolds c c' x x' i fun a a' j => RHoldsUnless E c c' (k a) (k' a') j Q) :
    RHoldsUnless E c c' (x >>= k) (x' >>= k') i Q := by
  intro b l hb hE
  obtain ⟨a, j, hx, hk⟩ := run_bind_eq_ok hb
  obtain ⟨a', hx', hk'⟩ := h a j hx
  obtain ⟨b', hb', hq⟩ := hk' b l hk hE
  exact ⟨b', by rwa [run_bind_of_eq_ok hx'], hq⟩

/-- Binding after a run that may stop at an index of `E`, where the rest fails. -/
lemma rholds_bind_of_unless {E : Nat → Prop} {k k' : α → ParseM β} {Q : β → β → Nat → Prop}
    (h : RHoldsUnless E c c' x x' i fun a a' j => RHolds c c' (k a) (k' a') j Q)
    (hfail : ∀ a j, E j → Holds c (k a) j fun _ _ => False) :
    RHolds c c' (x >>= k) (x' >>= k') i Q := by
  intro b l hb
  obtain ⟨a, j, hx, hk⟩ := run_bind_eq_ok hb
  -- the first run stops away from `E`, where the rest fails
  have hEj : ¬ E j := fun hEj => hfail a j hEj b l hk
  obtain ⟨a', hx', hk'⟩ := h a j hx hEj
  obtain ⟨b', hb', hq⟩ := hk' b l hk
  exact ⟨b', by rwa [run_bind_of_eq_ok hx'], hq⟩

/-- A run that, when it succeeds, stops at an index of `E` is related to anything there. -/
lemma RHoldsUnless.of_holds {E : Nat → Prop} (h : Holds c x i fun _ j => E j) :
    RHoldsUnless E c c' x x' i Q :=
  fun a j hx hE => absurd (h a j hx) hE

lemma rholds_map {f : α → β} {Q : β → β → Nat → Prop}
    (h : RHolds c c' x x' i fun a a' j => Q (f a) (f a') j) :
    RHolds c c' (f <$> x) (f <$> x') i Q := by
  rw [← bind_pure_comp, ← bind_pure_comp]
  exact rholds_bind (h.mono fun a a' j hq => rholds_pure hq)

lemma rholdsUnless_map {E : Nat → Prop} {f : α → β} {Q : β → β → Nat → Prop}
    (h : RHoldsUnless E c c' x x' i fun a a' j => Q (f a) (f a') j) :
    RHoldsUnless E c c' (f <$> x) (f <$> x') i Q := by
  rw [← bind_pure_comp, ← bind_pure_comp]
  exact rholdsUnless_bind (h.mono fun a a' j hq => (rholds_pure hq).unless E)
    fun _ j hj => (holds_pure (c := c)).2 hj

lemma rholds_ite {p : Prop} [Decidable p] {y y' : ParseM α}
    (hx : p → RHolds c c' x x' i Q) (hy : ¬ p → RHolds c c' y y' i Q) :
    RHolds c c' (if p then x else y) (if p then x' else y') i Q := by
  by_cases hp : p
  · simpa [hp] using hx hp
  · simpa [hp] using hy hp

lemma rholdsUnless_ite {E : Nat → Prop} {p : Prop} [Decidable p] {y y' : ParseM α}
    (hx : p → RHoldsUnless E c c' x x' i Q) (hy : ¬ p → RHoldsUnless E c c' y y' i Q) :
    RHoldsUnless E c c' (if p then x else y) (if p then x' else y') i Q := by
  by_cases hp : p
  · simpa [hp] using hx hp
  · simpa [hp] using hy hp

lemma rholds_throw {e : ParseError} : RHolds c c' (throw e) x' i Q := by
  intro a j hx
  cases hx

end Rules

/-! ## The primitives -/

section Primitives

variable {Q : α → α → Nat → Prop}

/-- Two runs that succeed with known results at the same index relate as their results do. -/
lemma rholds_of_run {x x' : ParseM α} {a a' : α} {j : Nat}
    (hx : (x.run c).run i = .ok (a, j)) (hx' : (x'.run c').run i = .ok (a', j)) :
    RHolds c c' x x' i Q ↔ Q a a' j := by
  unfold RHolds
  rw [hx, hx']
  constructor
  · intro h
    obtain ⟨b', hb, hq⟩ := h a j rfl
    cases hb
    exact hq
  · rintro hq b l ⟨⟩
    exact ⟨a', rfl, hq⟩

lemma Agree.anyPunct (hA : Agree c c') (p : String) (k : Nat) :
    c'.tokens[k]?.any (·.isPunct p) = c.tokens[k]?.any (·.isPunct p) :=
  hA.same.any fun t t' hk ht => isPunct_congr t t' hk ht

lemma Agree.anyKeyword (hA : Agree c c') (w : String) (k : Nat) :
    c'.tokens[k]?.any (·.isKeyword w) = c.tokens[k]?.any (·.isKeyword w) :=
  hA.same.any fun t t' hk ht => isKeyword_congr t t' hk ht

/-- The line break before a token that is no dot and does not follow one is the same in
two contexts in agreement. -/
lemma Agree.lineBreakBefore_eq (hA : Agree c c') {k : Nat} (hk : isDotAt c.tokens k = false)
    (hprev : 0 < k → isDotAt c.tokens (k - 1) = false) :
    lineBreakBefore c'.tokens k = lineBreakBefore c.tokens k := by
  by_contra hne
  rcases hA.lineBreak k hne with h | ⟨hpos, h⟩
  · rw [hk] at h
    cases h
  · rw [hprev hpos] at h
    cases h

lemma rholds_read {Q : ParseContext → ParseContext → Nat → Prop} :
    RHolds c c' read read i Q ↔ Q c c' i :=
  rholds_of_run rfl rfl

lemma rholds_get {Q : Nat → Nat → Nat → Prop} : RHolds c c' get get i Q ↔ Q i i i :=
  rholds_of_run rfl rfl

lemma rholds_peek {Q : Option Token → Option Token → Nat → Prop} :
    RHolds c c' peek peek i Q ↔ Q c.tokens[i]? c'.tokens[i]? i :=
  rholds_of_run rfl rfl

lemma rholds_skip {Q : Unit → Unit → Nat → Prop} : RHolds c c' skip skip i Q ↔ Q () () (i + 1) :=
  rholds_of_run rfl rfl

lemma rholds_atPunct (hA : Agree c c') {p : String} {Q : Bool → Bool → Nat → Prop} :
    RHolds c c' (atPunct p) (atPunct p) i Q ↔
      Q (c.tokens[i]?.any (·.isPunct p)) (c.tokens[i]?.any (·.isPunct p)) i :=
  rholds_of_run rfl (by rw [← hA.anyPunct]; rfl)

lemma rholds_peekAtPunct (hA : Agree c c') {k : Nat} {p : String} {Q : Bool → Bool → Nat → Prop} :
    RHolds c c' (peekAtPunct k p) (peekAtPunct k p) i Q ↔
      Q (c.tokens[i + k]?.any (·.isPunct p)) (c.tokens[i + k]?.any (·.isPunct p)) i :=
  rholds_of_run rfl (by rw [← hA.anyPunct]; rfl)

/-- Peeking in two runs in agreement: both see no token, or two tokens of one kind and
text. -/
lemma rholds_peek_bind (hA : Agree c c') {k k' : Option Token → ParseM β}
    {Q : β → β → Nat → Prop}
    (hnone : c.tokens[i]? = none → c'.tokens[i]? = none → RHolds c c' (k none) (k' none) i Q)
    (hsome : ∀ t t', c.tokens[i]? = some t → c'.tokens[i]? = some t' → t'.kind = t.kind →
      t'.text = t.text → RHolds c c' (k (some t)) (k' (some t')) i Q) :
    RHolds c c' (peek >>= k) (peek >>= k') i Q := by
  refine rholds_bind (rholds_peek.2 ?_)
  cases ht : c.tokens[i]? with
  | none =>
    have ht' := hA.same.getElem?_none ht
    rw [ht']
    exact hnone ht ht'
  | some t =>
    obtain ⟨t', ht', hk, htext⟩ := hA.same.getElem? ht
    rw [ht']
    exact hsome t t' ht ht' hk htext

/-- Peeking in two runs in agreement, where the second may fail at an index of `E`. -/
lemma rholdsUnless_peek_bind (hA : Agree c c') {E : Nat → Prop} {k k' : Option Token → ParseM β}
    {Q : β → β → Nat → Prop}
    (hnone : c.tokens[i]? = none → c'.tokens[i]? = none →
      RHoldsUnless E c c' (k none) (k' none) i Q)
    (hsome : ∀ t t', c.tokens[i]? = some t → c'.tokens[i]? = some t' → t'.kind = t.kind →
      t'.text = t.text → RHoldsUnless E c c' (k (some t)) (k' (some t')) i Q) :
    RHoldsUnless E c c' (peek >>= k) (peek >>= k') i Q := by
  refine rholds_bind_unless (rholds_peek.2 ?_)
  cases ht : c.tokens[i]? with
  | none =>
    have ht' := hA.same.getElem?_none ht
    rw [ht']
    exact hnone ht ht'
  | some t =>
    obtain ⟨t', ht', hk, htext⟩ := hA.same.getElem? ht
    rw [ht']
    exact hsome t t' ht ht' hk htext

lemma rholds_atKeyword (hA : Agree c c') {w : String} {Q : Bool → Bool → Nat → Prop} :
    RHolds c c' (atKeyword w) (atKeyword w) i Q ↔
      Q (c.tokens[i]?.any (·.isKeyword w)) (c.tokens[i]?.any (·.isKeyword w)) i :=
  rholds_of_run rfl (by rw [← hA.anyKeyword]; rfl)

lemma rholds_atIdentifier (hA : Agree c c') {w : String} {Q : Bool → Bool → Nat → Prop} :
    RHolds c c' (atIdentifier w) (atIdentifier w) i Q ↔
      Q (c.tokens[i]?.any fun t => t.kind == .identifier && t.text == w)
        (c.tokens[i]?.any fun t => t.kind == .identifier && t.text == w) i := by
  have h := hA.same.any (k := i) (p := fun t => t.kind == .identifier && t.text == w)
    fun t t' hk ht => by rw [hk, ht]
  exact rholds_of_run rfl (by rw [← h]; rfl)

lemma rholds_eatPunct (hA : Agree c c') {p : String} {Q : Bool → Bool → Nat → Prop}
    (h : c.tokens[i]?.any (·.isPunct p) = true → Q true true (i + 1))
    (h' : c.tokens[i]?.any (·.isPunct p) = false → Q false false i) :
    RHolds c c' (eatPunct p) (eatPunct p) i Q := by
  unfold eatPunct
  refine rholds_bind ((rholds_atPunct hA).2 ?_)
  cases hb : c.tokens[i]?.any (·.isPunct p)
  · exact rholds_pure (h' hb)
  · exact rholds_bind (rholds_skip.2 (rholds_pure (h hb)))

lemma rholds_eatKeyword (hA : Agree c c') {w : String} {Q : Bool → Bool → Nat → Prop}
    (h : c.tokens[i]?.any (·.isKeyword w) = true → Q true true (i + 1))
    (h' : c.tokens[i]?.any (·.isKeyword w) = false → Q false false i) :
    RHolds c c' (eatKeyword w) (eatKeyword w) i Q := by
  unfold eatKeyword
  refine rholds_bind ((rholds_atKeyword hA).2 ?_)
  cases hb : c.tokens[i]?.any (·.isKeyword w)
  · exact rholds_pure (h' hb)
  · exact rholds_bind (rholds_skip.2 (rholds_pure (h hb)))

lemma rholds_failExpected {what : String} {x' : ParseM α} :
    RHolds c c' (failExpected what) x' i Q :=
  RHolds.of_holds_false (holds_failExpected.2 trivial)

lemma rholds_failUnexpected {x' : ParseM α} : RHolds c c' failUnexpected x' i Q :=
  RHolds.of_holds_false (holds_failUnexpected.2 trivial)

lemma rholds_outOfBudget {x' : ParseM α} : RHolds c c' outOfBudget x' i Q :=
  RHolds.of_holds_false (holds_outOfBudget.2 trivial)

lemma rholds_expectPunct (hA : Agree c c') {p : String} {Q : Unit → Unit → Nat → Prop}
    (h : c.tokens[i]?.any (·.isPunct p) = true → Q () () (i + 1)) :
    RHolds c c' (expectPunct p) (expectPunct p) i Q := by
  unfold expectPunct
  refine rholds_bind (rholds_eatPunct hA (fun hb => rholds_pure (h hb)) fun _ => rholds_failExpected)

lemma rholds_expectKeyword (hA : Agree c c') {w : String} {Q : Unit → Unit → Nat → Prop}
    (h : c.tokens[i]?.any (·.isKeyword w) = true → Q () () (i + 1)) :
    RHolds c c' (expectKeyword w) (expectKeyword w) i Q := by
  unfold expectKeyword
  refine rholds_bind (rholds_eatKeyword hA (fun hb => rholds_pure (h hb)) fun _ => rholds_failExpected)

/-- The next token, read in both contexts: tokens of the same kind and text. -/
lemma rholds_bump (hA : Agree c c') {Q : Token → Token → Nat → Prop}
    (h : ∀ t t', c.tokens[i]? = some t → c'.tokens[i]? = some t' → t'.kind = t.kind →
      t'.text = t.text → Q t t' (i + 1)) :
    RHolds c c' bump bump i Q := by
  unfold bump
  refine rholds_peek_bind hA (fun _ _ => rholds_failUnexpected) fun t t' ht ht' hk htext => ?_
  exact rholds_bind (rholds_skip.2 (rholds_pure (h t t' ht ht' hk htext)))

lemma rholds_withAllowIn {allow : Bool} {x x' : ParseM α} :
    RHolds c c' (withAllowIn allow x) (withAllowIn allow x') i Q ↔
      RHolds ⟨c.tokens, c.closers, allow, c.depth⟩ ⟨c'.tokens, c'.closers, allow, c'.depth⟩
        x x' i Q :=
  Iff.rfl

/-- One level deeper in both contexts, which are equally deep. -/
lemma rholdsUnless_nested (hA : Agree c c') {E : Nat → Prop} {x x' : ParseM α}
    (h : c.depth < maxDepth → RHoldsUnless E ⟨c.tokens, c.closers, c.allowIn, c.depth + 1⟩
      ⟨c'.tokens, c'.closers, c'.allowIn, c'.depth + 1⟩ x x' i Q) :
    RHoldsUnless E c c' (nested x) (nested x') i Q := by
  by_cases hd : c.depth < maxDepth
  · unfold nested
    refine rholds_bind_unless (rholds_read.2 ?_)
    have hd' : ¬ c'.depth ≥ maxDepth := by rw [hA.depth]; omega
    have hd'' : ¬ c.depth ≥ maxDepth := by omega
    simp only [hd', hd'', ↓reduceIte]
    exact h hd
  · -- too deep: the first run fails
    intro a j hx
    exact (holds_nested (Q := fun _ _ => False).2 (fun h' => absurd h' hd) a j hx).elim

lemma rholds_nested (hA : Agree c c') {x x' : ParseM α}
    (h : c.depth < maxDepth → RHolds ⟨c.tokens, c.closers, c.allowIn, c.depth + 1⟩
      ⟨c'.tokens, c'.closers, c'.allowIn, c'.depth + 1⟩ x x' i Q) :
    RHolds c c' (nested x) (nested x') i Q := by
  intro a j hx
  exact rholdsUnless_nested (E := fun _ => False) hA (fun hd b l hb _ => h hd b l hb) a j hx id

/-- Markers at the same index of two contexts. -/
lemma rholds_marker (hA : Agree c c') {Q : Marker → Marker → Nat → Prop}
    (h : ∀ m m', MarkerAt c.tokens m i → MarkerAt c'.tokens m' i → Q m m' i) :
    RHolds c c' marker marker i Q := by
  unfold marker
  refine rholds_peek_bind hA (fun ht ht' => ?_) fun t t' ht ht' _ _ => ?_
  · -- past the last token the markers mark nothing
    unfold endOfInput
    refine rholds_bind (rholds_bind (rholds_read.2 ?_))
    have hm : ∀ m, MarkerAt c.tokens m i := fun m t h => by simp [ht] at h
    have hm' : ∀ m, MarkerAt c'.tokens m i := fun m t h => by simp [ht'] at h
    cases c.tokens.back? <;> cases c'.tokens.back? <;>
      exact rholds_pure (rholds_pure (h _ _ (hm _) (hm' _)))
  · refine rholds_pure (h _ _ (fun u hu => ?_) (fun u hu => ?_))
    · rw [ht] at hu
      cases hu
      rfl
    · rw [ht'] at hu
      cases hu
      rfl

/-! ### Runs that always succeed -/

lemma run_bind {β : Type} {x : ParseM α} {k : α → ParseM β} {a : α} {j : Nat}
    (hx : (x.run c).run i = .ok (a, j)) :
    ((x >>= k).run c).run i = ((k a).run c).run j := by
  change ((x.run c).run i).bind _ = _
  rw [hx]
  rfl

lemma run_previous : (previous.run c).run i = .ok (if i = 0 then none else c.tokens[i - 1]?, i) := by
  unfold previous
  rw [run_bind (x := get) (a := i) (j := i) rfl]
  by_cases h : i = 0
  · simp only [h, ↓reduceIte]
    rfl
  · simp only [h, ↓reduceIte]
    rfl

lemma run_newlineBefore : (newlineBefore.run c).run i = .ok (lineBreakBefore c.tokens i, i) := by
  unfold newlineBefore
  rw [run_bind run_previous, run_bind (x := peek) (a := c.tokens[i]?) (j := i) rfl]
  unfold lineBreakBefore
  generalize (if i = 0 then none else c.tokens[i - 1]?) = p
  generalize c.tokens[i]? = q
  rcases p with _ | p <;> rcases q with _ | q <;> rfl

/-- Whether a statement may end before token `i`, as the parser asks it. -/
def statementEndAt (ts : Array Token) (i : Nat) : Bool :=
  ts[i]?.isNone || ts[i]?.any (·.isPunct ";") || ts[i]?.any (·.isPunct closeBrace) ||
    lineBreakBefore ts i

lemma run_atStatementEnd :
    (atStatementEnd.run c).run i = .ok (statementEndAt c.tokens i, i) := by
  unfold atStatementEnd
  rw [run_bind (x := peek) (a := c.tokens[i]?) (j := i) rfl,
    run_bind (x := atPunct ";") (a := c.tokens[i]?.any (·.isPunct ";")) (j := i) rfl,
    run_bind (x := atPunct closeBrace) (a := c.tokens[i]?.any (·.isPunct closeBrace)) (j := i) rfl,
    run_bind run_newlineBefore]
  rfl

lemma rholds_newlineBefore {Q : Bool → Bool → Nat → Prop} :
    RHolds c c' newlineBefore newlineBefore i Q ↔
      Q (lineBreakBefore c.tokens i) (lineBreakBefore c'.tokens i) i :=
  rholds_of_run run_newlineBefore run_newlineBefore

lemma rholds_atStatementEnd {Q : Bool → Bool → Nat → Prop} :
    RHolds c c' atStatementEnd atStatementEnd i Q ↔
      Q (statementEndAt c.tokens i) (statementEndAt c'.tokens i) i :=
  rholds_of_run run_atStatementEnd run_atStatementEnd

/-- Whether a statement may end before a token that is no dot and follows none is the same
in two contexts in agreement. -/
lemma Agree.statementEndAt_eq (hA : Agree c c') (hk : isDotAt c.tokens i = false)
    (hprev : 0 < i → isDotAt c.tokens (i - 1) = false) :
    statementEndAt c'.tokens i = statementEndAt c.tokens i := by
  have hnone : c'.tokens[i]?.isNone = c.tokens[i]?.isNone := by
    cases ht : c.tokens[i]? with
    | none => simp [hA.same.getElem?_none ht]
    | some t =>
      obtain ⟨t', ht', -⟩ := hA.same.getElem? ht
      simp [ht']
  unfold statementEndAt
  rw [hnone, hA.anyPunct, hA.anyPunct, hA.lineBreakBefore_eq hk hprev]

/-- The optional semicolon after a construct that does not end with a dot: both runs take
the same decision, unless the next token is a dot, where a line break may have moved. -/
lemma rholdsUnless_consumeSemicolon (hA : Agree c c')
    (hprev : 0 < i → isDotAt c.tokens (i - 1) = false) :
    RHoldsUnless (fun j => isDotAt c.tokens j = true) c c' consumeSemicolon consumeSemicolon i
      fun _ _ j => j = i ∨ (j = i + 1 ∧ c.tokens[i]?.any (·.isPunct ";") = true) := by
  unfold consumeSemicolon
  refine rholds_bind_unless (rholds_eatPunct hA (fun hs => ?_) fun _ => ?_)
  · exact (rholds_pure (Or.inr ⟨rfl, hs⟩)).unless _
  cases hk : isDotAt c.tokens i
  · -- away from a dot both runs ask the same question
    refine (rholds_bind ((rholds_atStatementEnd).2 ?_)).unless _
    rw [hA.statementEndAt_eq hk hprev]
    cases statementEndAt c.tokens i
    · exact rholds_failExpected
    · exact rholds_pure (Or.inl rfl)
  · -- at a dot the first run stops at the dot, if it goes on at all
    intro a j hx hE
    have hj : Holds c (atStatementEnd >>= fun b => if b = true then pure () else failExpected ";")
        i fun _ l => l = i := by
      rw [holds_bind]
      exact holds_atStatementEnd fun b => by cases b <;> simp
    exact absurd (hj a j hx ▸ hk) hE

/-! ### Tests that read kinds and texts only -/

lemma rholds_isArrowStart (hA : Agree c c') :
    RHolds c c' isArrowStart isArrowStart i fun b b' j => b' = b ∧ j = i := by
  unfold isArrowStart
  refine rholds_peek_bind hA (fun _ _ => rholds_pure ⟨rfl, rfl⟩) fun t t' _ _ hk htext => ?_
  dsimp only
  rw [hk, isPunct_congr (p := "(") t t' hk htext]
  refine rholds_ite (fun _ => (rholds_peekAtPunct hA).2 ⟨rfl, rfl⟩) fun _ =>
    rholds_ite (fun _ => rholds_pure ⟨rfl, rfl⟩) fun _ => ?_
  refine rholds_bind (rholds_read.2 ?_)
  refine rholds_bind (rholds_get.2 ?_)
  rw [hA.closers]
  rcases c.closers[i]? with _ | _ | close
  · exact rholds_pure ⟨rfl, rfl⟩
  · exact rholds_pure ⟨rfl, rfl⟩
  · exact rholds_pure ⟨hA.anyPunct _ _, rfl⟩

lemma binaryPrecedence_congr {allowIn : Bool} {t t' : Token} (hk : t'.kind = t.kind)
    (ht : t'.text = t.text) : binaryPrecedence allowIn t' = binaryPrecedence allowIn t := by
  unfold binaryPrecedence
  rw [hk, ht]

lemma rholds_binaryOperator (hA : Agree c c') :
    RHolds c c' binaryOperator binaryOperator i fun o o' j => o' = o ∧ j = i := by
  unfold binaryOperator
  refine rholds_peek_bind hA (fun _ _ => rholds_pure ⟨rfl, rfl⟩) fun t t' _ _ hk htext => ?_
  refine rholds_bind (rholds_read.2 ?_)
  rw [hA.allowIn, binaryPrecedence_congr hk htext, htext]
  exact rholds_pure ⟨rfl, rfl⟩

lemma rholds_anyM_peekAtPunct (hA : Agree c c') (ps : List String) :
    RHolds c c' (ps.anyM (peekAtPunct 1)) (ps.anyM (peekAtPunct 1)) i fun b b' j =>
      b' = b ∧ j = i := by
  induction ps with
  | nil => exact rholds_pure ⟨rfl, rfl⟩
  | cons p ps ih =>
    refine rholds_bind ((rholds_peekAtPunct hA).2 ?_)
    cases c.tokens[i + 1]?.any (·.isPunct p)
    · exact ih
    · exact rholds_pure ⟨rfl, rfl⟩

/-- An accessor prefix is read in both runs or in neither. -/
lemma rholds_accessorPrefix (hA : Agree c c') {Q : Option String → Option String → Nat → Prop}
    (hnone : Q none none i)
    (hsome : ∀ t, c.tokens[i]? = some t → t.kind = .identifier → Q (some t.text) (some t.text) (i + 1)) :
    RHolds c c' accessorPrefix accessorPrefix i Q := by
  unfold accessorPrefix
  refine rholds_peek_bind hA (fun _ _ => rholds_pure hnone) fun t t' ht _ hk htext => ?_
  dsimp only
  rw [hk, htext]
  refine rholds_ite (fun hcond => ?_) fun _ => rholds_pure hnone
  have hid : t.kind = .identifier := by
    simp only [Bool.and_eq_true, beq_iff_eq] at hcond
    exact hcond.1
  refine rholds_bind ((rholds_anyM_peekAtPunct hA _).mono fun b b' j ⟨hb, hj⟩ => ?_)
  rw [hb, hj]
  cases b
  · exact rholds_bind (rholds_skip.2 (rholds_pure (hsome t ht hid)))
  · exact rholds_pure hnone

/-- A property name after a dot: the same word in both runs. -/
lemma rholds_identifierName (hA : Agree c c') {Q : Node → Node → Nat → Prop}
    (h : ∀ t t', c.tokens[i]? = some t → c'.tokens[i]? = some t' → t'.kind = t.kind →
      t'.text = t.text → (t.kind != .punctuator && t.kind != .numeric && t.kind != .string) = true →
      Q (identifierNode t) (identifierNode t') (i + 1)) :
    RHolds c c' identifierName identifierName i Q := by
  unfold identifierName
  refine rholds_peek_bind hA (fun _ _ => rholds_failExpected) fun t t' ht ht' hk htext => ?_
  dsimp only
  rw [hk]
  refine rholds_ite (fun hw => ?_) fun _ => rholds_failExpected
  exact rholds_bind (rholds_skip.2 (rholds_pure (h t t' ht ht' hk htext hw)))

/-- A name being bound: the same identifier in both runs. -/
lemma rholds_bindingIdentifier (hA : Agree c c') {Q : Node → Node → Nat → Prop}
    (h : ∀ t t', c.tokens[i]? = some t → c'.tokens[i]? = some t' → t'.kind = t.kind →
      t'.text = t.text → t.kind = .identifier → Q (identifierNode t) (identifierNode t') (i + 1)) :
    RHolds c c' bindingIdentifier bindingIdentifier i Q := by
  unfold bindingIdentifier
  refine rholds_peek_bind hA (fun _ _ => rholds_failExpected) fun t t' ht ht' hk htext => ?_
  dsimp only
  rw [hk]
  refine rholds_ite (fun hw => ?_) fun _ => rholds_failExpected
  exact rholds_bind (rholds_skip.2 (rholds_pure (h t t' ht ht' hk htext (by simpa using hw))))

/-! ### Finished nodes -/

/-- `finish` after reading the tokens from a marker at token `i₀` up to token `j - 1`. -/
lemma run_finish {m : Marker} {kind : NodeKind} {F : List (String × Field Node)} {i₀ j : Nat}
    {ti tl : Token} (hc : InTextOrder c.tokens.toList) (hm : MarkerAt c.tokens m i₀)
    (hij : i₀ < j) (hti : c.tokens[i₀]? = some ti) (htl : c.tokens[j - 1]? = some tl) :
    ((finish kind m F).run c).run j =
      .ok (⟨kind, ⟨ti.span.start, tl.span.stop⟩, ⟨ti.loc.start, tl.loc.stop⟩, F⟩, j) := by
  have hmi := hm ti hti
  subst hmi
  have hspan := hc.start_le_stop (show i₀ ≤ j - 1 by omega) hti htl
  have hloc := hc.loc_start_le_stop (show i₀ ≤ j - 1 by omega) hti htl
  unfold finish
  rw [run_bind run_previous]
  have hj0 : j ≠ 0 := by omega
  simp only [hj0, ↓reduceIte, htl, Position.max_eq_left hloc, Nat.max_eq_left hspan]
  rfl

/-- A span from the `x`-th to the `y`-th token goes to the same tokens of an array in
agreement. -/
lemma Agree.move_finished (hA : Agree c c') {kind : NodeKind} {F : List (String × Field Node)}
    {x y : Nat} {a b a' b' : Token} (ha : c.tokens[x]? = some a) (hb : c.tokens[y]? = some b)
    (ha' : c'.tokens[x]? = some a') (hb' : c'.tokens[y]? = some b') :
    move c.tokens c'.tokens ⟨kind, ⟨a.span.start, b.span.stop⟩, ⟨a.loc.start, b.loc.stop⟩, F⟩ =
      ⟨kind, ⟨a'.span.start, b'.span.stop⟩, ⟨a'.loc.start, b'.loc.stop⟩,
        Node.respanFields (respanBy c.tokens c'.tokens) F⟩ := by
  simp only [move, Node.respan, hA.ordered.respanBy_tokens ha hb ha' hb']

/-- `finish` builds, in two runs in agreement, a node and that node moved. -/
lemma rholds_finish (hA : Agree c c') {m m' : Marker} {kind : NodeKind}
    {F F' : List (String × Field Node)} {i₀ j : Nat} {Q : Node → Node → Nat → Prop}
    (hm : MarkerAt c.tokens m i₀) (hm' : MarkerAt c'.tokens m' i₀) (hij : i₀ < j)
    (hj : j ≤ c.tokens.size) (hF : F' = Node.respanFields (respanBy c.tokens c'.tokens) F)
    (hQ : ∀ n : Node, n.kind = kind → n.fields = F → n.Covers c.tokens i₀ (j - 1) →
      Q n (move c.tokens c'.tokens n) j) :
    RHolds c c' (finish kind m F) (finish kind m' F') j Q := by
  obtain ⟨ti, hti⟩ : ∃ ti, c.tokens[i₀]? = some ti :=
    ⟨_, Array.getElem?_eq_getElem (show i₀ < c.tokens.size by omega)⟩
  obtain ⟨tl, htl⟩ : ∃ tl, c.tokens[j - 1]? = some tl :=
    ⟨_, Array.getElem?_eq_getElem (show j - 1 < c.tokens.size by omega)⟩
  obtain ⟨ti', hti', -⟩ := hA.same.getElem? hti
  obtain ⟨tl', htl', -⟩ := hA.same.getElem? htl
  refine (rholds_of_run (run_finish hA.ordered hm hij hti htl)
    (run_finish hA.ordered' hm' hij hti' htl')).2 ?_
  rw [hF, ← hA.move_finished hti htl hti' htl']
  exact hQ _ rfl rfl ⟨by omega, ti, tl, hti, htl, rfl, rfl⟩

/-- A node of one token moves to the node of the token at its index. -/
lemma Agree.move_token (hA : Agree c c') {k : Nat} {t t' : Token} {kind : NodeKind}
    {F : List (String × Field Node)} (ht : c.tokens[k]? = some t) (ht' : c'.tokens[k]? = some t')
    (hF : ∀ g, Node.respanFields g F = F) :
    move c.tokens c'.tokens ⟨kind, t.span, t.loc, F⟩ = ⟨kind, t'.span, t'.loc, F⟩ := by
  have h : respanBy c.tokens c'.tokens ⟨t.span.start, t.span.stop⟩ t.loc = _ :=
    hA.ordered.respanBy_tokens ht ht ht' ht'
  simp only [move, Node.respan, hF]
  rw [show t.span = ⟨t.span.start, t.span.stop⟩ from rfl, h]

lemma Agree.move_identifierNode (hA : Agree c c') {k : Nat} {t t' : Token}
    (ht : c.tokens[k]? = some t) (ht' : c'.tokens[k]? = some t') (htext : t'.text = t.text) :
    move c.tokens c'.tokens (identifierNode t) = identifierNode t' := by
  unfold identifierNode
  rw [hA.move_token ht ht' fun g => by simp, htext]

lemma Agree.move_literalNode (hA : Agree c c') {k : Nat} {t t' : Token}
    (ht : c.tokens[k]? = some t) (ht' : c'.tokens[k]? = some t') (htext : t'.text = t.text) :
    move c.tokens c'.tokens (literalNode t) = literalNode t' := by
  unfold literalNode
  rw [hA.move_token ht ht' fun g => by simp, htext]

lemma Agree.move_leaf (hA : Agree c c') {k : Nat} {t t' : Token} {kind : NodeKind}
    (ht : c.tokens[k]? = some t) (ht' : c'.tokens[k]? = some t') :
    move c.tokens c'.tokens (Node.leaf kind t.span t.loc) = Node.leaf kind t'.span t'.loc :=
  hA.move_token ht ht' fun g => by simp

end Primitives


end Parse

end DotLint
