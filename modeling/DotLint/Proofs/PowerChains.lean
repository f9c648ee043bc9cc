import Mathlib.Tactic.Lemma
import DotLint.Proofs.PrecedenceClimbing

/-!
# Chains of `**` and the nesting guard

The nesting guard `Parse.nested` counts statements, assignments, unary and `new`
expressions, but not the right operand of `**`: `binaryRest` reads it with `binary`
directly, and a chain `a ** b ** … ** z` is read by one `binary` per operator, each
inside the one before. On such a chain of `n` operators between names, `binary` needs a
recursion budget of exactly `2 * n + 4`, while the nesting depth stays where it was
(`binary_power_chain_budget`): the depth of recursion grows with the chain, and no
nesting error stops it.
-/

namespace DotLint

namespace Parse

/-- The operand of the name `t` at token `i`. -/
def Operand.name (i : Nat) (t : Token) : Operand := ⟨identifierNode t, i, i + 1, t, t⟩

/-- From the first operand on, the tokens are names joined by `**`, followed by a token that
neither continues the last name nor is a binary operator, or by the end. -/
inductive PowerChain (c : ParseContext) : Operand → List (Token × Operand) → Prop
  | last {i : Nat} {t : Token} : c.tokens[i]? = some t → t.kind = .identifier →
      (∀ t', c.tokens[i + 1]? = some t' →
        continuesOperand t' = false ∧ binaryPrecedence c.allowIn t' = none) →
      PowerChain c (.name i t) []
  | cons {i : Nat} {t op : Token} {v : Operand} {rest : List (Token × Operand)} :
      c.tokens[i]? = some t → t.kind = .identifier → c.tokens[i + 1]? = some op →
      op.isPunct "**" = true → v.first = i + 2 → PowerChain c v rest →
      PowerChain c (.name i t) ((op, v) :: rest)

lemma binaryPrecedence_of_power (allowIn : Bool) {op : Token} (h : op.isPunct "**" = true) :
    binaryPrecedence allowIn op = some 11 := by
  simp only [Token.isPunct, Bool.and_eq_true, beq_iff_eq] at h
  simp [binaryPrecedence, h.1, h.2]

lemma continuesOperand_of_power {op : Token} (h : op.isPunct "**" = true) :
    continuesOperand op = false :=
  continuesOperand_of_binaryPrecedence (binaryPrecedence_of_power true h)

lemma rightLevel_of_power {op : Token} (h : op.isPunct "**" = true) : rightLevel op 11 = 11 := by
  simp only [Token.isPunct, Bool.and_eq_true, beq_iff_eq] at h
  simp [rightLevel, h.2]

/-- Operands joined to the right end where the last of them ends. -/
lemma joinRight_last (u : Operand) (rest : List (Token × Operand)) :
    (u.joinRight rest).stop = (u.lastOf rest).stop ∧
      (u.joinRight rest).lastTok = (u.lastOf rest).lastTok := by
  induction rest generalizing u with
  | nil => exact ⟨rfl, rfl⟩
  | cons q rest ih =>
    obtain ⟨op, v⟩ := q
    exact ih v

section Chain

variable {c : ParseContext} {u : Operand} {rest : List (Token × Operand)}

/-- The last name of a chain is its own last token, and the token after it ends the chain. -/
lemma PowerChain.lastOf (h : PowerChain c u rest) :
    0 < (u.lastOf rest).stop ∧
      c.tokens[(u.lastOf rest).stop - 1]? = some (u.lastOf rest).lastTok ∧
      ∀ t', c.tokens[(u.lastOf rest).stop]? = some t' → binaryPrecedence c.allowIn t' = none := by
  induction h with
  | last ht _ hend => exact ⟨Nat.succ_pos _, ht, fun t' ht' => (hend t' ht').2⟩
  | cons _ _ _ _ _ _ ih => exact ih

/-- The first name of a chain is a unary expression of one token. -/
lemma PowerChain.runs_unary (hd : c.depth < maxDepth) (h : PowerChain c u rest) (f : Nat) :
    c.tokens[u.first]? = some u.firstTok ∧ Runs c (unary (f + 3)) u.first u.node u.stop := by
  cases h with
  | last ht hk hend => exact ⟨ht, runs_unary_identifier hd ht hk fun t' ht' => (hend t' ht').1⟩
  | @cons i t op v rest ht hk hop hpow _ _ =>
    refine ⟨ht, runs_unary_identifier hd ht hk fun t' ht' => ?_⟩
    change c.tokens[i + 1]? = some t' at ht'
    rw [hop] at ht'
    cases ht'
    exact continuesOperand_of_power hpow

end Chain

section Budget

variable {c : ParseContext}

lemma fails_binary_zero {L i : Nat} : Fails c (binary 0 L) i .outOfBudget := by
  rw [binary]
  exact fails_outOfBudget

lemma fails_binary_of_unary {f L i : Nat} {t : Token} {kind : ParseErrorKind}
    (ht : c.tokens[i]? = some t) (h : Fails c (unary f) i kind) :
    Fails c (binary (f + 1) L) i kind := by
  rw [binary]
  exact Runs.bind_fails (runs_marker ht) (Fails.bind h)

lemma fails_binary_of_rest {f L i j : Nat} {t : Token} {left : Node} {kind : ParseErrorKind}
    (ht : c.tokens[i]? = some t) (hleft : Runs c (unary f) i left j)
    (hrest : Fails c (binaryRest f L ⟨t.span.start, t.loc.start⟩ left) j kind) :
    Fails c (binary (f + 1) L) i kind := by
  rw [binary]
  exact Runs.bind_fails (runs_marker ht) (Runs.bind_fails hleft hrest)

/-- A failure of the right operand is a failure of the loop. -/
lemma fails_binaryRest_step {f L p i : Nat} {m : Marker} {left : Node} {op : Token}
    {kind : ParseErrorKind} (ht : c.tokens[i]? = some op)
    (hp : binaryPrecedence c.allowIn op = some p) (hL : L ≤ p)
    (hright : Fails c (binary f (rightLevel op p)) (i + 1) kind) :
    Fails c (binaryRest (f + 1) L m left) i kind := by
  rw [binaryRest]
  refine Runs.bind_fails runs_binaryOperator ?_
  simp only [ht, Option.bind_some, hp, Option.map_some]
  rw [if_neg (by omega)]
  exact Runs.bind_fails runs_skip (Fails.bind hright)

/-- With a budget of `2 * n + 4`, `binary` at any level reads a chain of `n` operators `**`
into the operands joined to the right. -/
lemma runs_binary_power {L : Nat} (hL : L ≤ 11) (hd : c.depth < maxDepth) {u : Operand}
    {rest : List (Token × Operand)} (h : PowerChain c u rest) :
    ∀ f, 2 * rest.length + 4 ≤ f →
      Runs c (binary f L) u.first (u.joinRight rest).node (u.lastOf rest).stop := by
  -- induction on the chain: the right operand of the first `**` is the rest of the chain
  induction h generalizing L with
  | @last i t ht hk hend =>
    intro f hf
    simp only [List.length_nil] at hf
    obtain ⟨g, rfl⟩ : ∃ g, f = g + 4 := ⟨f - 4, by omega⟩
    have hunary : Runs c (unary (g + 3)) i (identifierNode t) (i + 1) :=
      runs_unary_identifier hd ht hk fun t' ht' => (hend t' ht').1
    have hstop : StopsBelow c L (i + 1) := .of_none fun t' ht' => (hend t' ht').2
    exact runs_binary ht hunary (runs_binaryRest_stop hstop)
  | @cons i t op v rest ht hk hop hpow hv hchain ih =>
    intro f hf
    simp only [List.length_cons] at hf
    obtain ⟨g, rfl⟩ : ∃ g, f = g + 5 := ⟨f - 5, by omega⟩
    have h11 := binaryPrecedence_of_power c.allowIn hpow
    obtain ⟨hpos, hlast, hend⟩ := hchain.lastOf
    have hlastv := (joinRight_last v rest).2
    -- the right operand, read at level 11, takes the whole rest of the chain
    have hright : Runs c (binary (g + 3) (rightLevel op 11)) (i + 1 + 1)
        (v.joinRight rest).node (v.lastOf rest).stop := by
      rw [rightLevel_of_power hpow, ← hv]
      exact ih (Nat.le_refl 11) (g + 3) (by omega)
    have hstop : StopsBelow c L (v.lastOf rest).stop := .of_none hend
    have hunary := (PowerChain.runs_unary hd (.cons ht hk hop hpow hv hchain) (g + 1)).2
    refine runs_binary ht hunary (runs_binaryRest_step hop h11 (by omega) hright hpos hlast ?_)
    rw [← hlastv]
    exact runs_binaryRest_stop hstop

/-- With a budget under `2 * n + 4`, `binary` at any level runs out of budget on a chain of
`n` operators `**`. -/
lemma fails_binary_power {L : Nat} (hL : L ≤ 11) (hd : c.depth < maxDepth) {u : Operand}
    {rest : List (Token × Operand)} (h : PowerChain c u rest) :
    ∀ f, f < 2 * rest.length + 4 → Fails c (binary f L) u.first .outOfBudget := by
  induction h generalizing L with
  | last ht hk _ =>
    intro f hf
    simp only [List.length_nil] at hf
    rcases f with _ | g
    · exact fails_binary_zero
    · exact fails_binary_of_unary ht (fails_unary_identifier hd ht hk (by omega))
  | @cons i t op v rest ht hk hop hpow hv hchain ih =>
    intro f hf
    simp only [List.length_cons] at hf
    rcases f with _ | g
    · exact fails_binary_zero
    by_cases hg : g < 3
    · exact fails_binary_of_unary ht (fails_unary_identifier hd ht hk hg)
    -- the name is read; the right operand of `**` gets two less than `binary` had
    obtain ⟨g, rfl⟩ : ∃ h, g = h + 3 := ⟨g - 3, by omega⟩
    have h11 := binaryPrecedence_of_power c.allowIn hpow
    have hright : Fails c (binary (g + 2) (rightLevel op 11)) (i + 1 + 1) .outOfBudget := by
      rw [rightLevel_of_power hpow, ← hv]
      exact ih (Nat.le_refl 11) (g + 2) (by omega)
    have hunary := (PowerChain.runs_unary hd (.cons ht hk hop hpow hv hchain) g).2
    exact fails_binary_of_rest ht hunary (fails_binaryRest_step hop h11 (by omega) hright)

end Budget

/-- A chain `t₀ ** t₁ ** … ** tₙ` of names is read by `binary` with a recursion budget of
`2 * n + 4` or more, into the names joined to the right, and runs out of budget with less;
the nesting depth only has to be under `maxDepth` at the start, whatever `n` is. -/
theorem binary_power_chain_budget {c : ParseContext} {u : Operand}
    {rest : List (Token × Operand)} (hd : c.depth < maxDepth) (h : PowerChain c u rest)
    (f : Nat) :
    (2 * rest.length + 4 ≤ f →
      ((binary f 1).run c).run u.first = .ok ((u.joinRight rest).node, (u.lastOf rest).stop)) ∧
    (f < 2 * rest.length + 4 →
      ∃ pos, ((binary f 1).run c).run u.first = .error ⟨.outOfBudget, pos⟩) :=
  ⟨runs_binary_power (by omega) hd h f, fails_binary_power (by omega) hd h f⟩

/-- `a ** b ** c` groups to the right; `binary` reads it with a budget of eight and runs out
with seven. -/
theorem binary_reads_power_of_power :
    let a : Token := ⟨.identifier, "a", ⟨0, 1⟩, ⟨⟨1, 1⟩, ⟨1, 2⟩⟩⟩
    let pow₁ : Token := ⟨.punctuator, "**", ⟨2, 4⟩, ⟨⟨1, 3⟩, ⟨1, 5⟩⟩⟩
    let b : Token := ⟨.identifier, "b", ⟨5, 6⟩, ⟨⟨1, 6⟩, ⟨1, 7⟩⟩⟩
    let pow₂ : Token := ⟨.punctuator, "**", ⟨7, 9⟩, ⟨⟨1, 8⟩, ⟨1, 10⟩⟩⟩
    let d : Token := ⟨.identifier, "c", ⟨10, 11⟩, ⟨⟨1, 11⟩, ⟨1, 12⟩⟩⟩
    let c : ParseContext := ⟨#[a, pow₁, b, pow₂, d], #[none, none, none, none, none], true, 0⟩
    let inner : Node := ⟨.binaryExpression, ⟨5, 11⟩, ⟨⟨1, 6⟩, ⟨1, 12⟩⟩,
      [("left", .node (identifierNode b)), ("operator", .text "**"),
        ("right", .node (identifierNode d))]⟩
    let outer : Node := ⟨.binaryExpression, ⟨0, 11⟩, ⟨⟨1, 1⟩, ⟨1, 12⟩⟩,
      [("left", .node (identifierNode a)), ("operator", .text "**"), ("right", .node inner)]⟩
    ((binary 8 1).run c).run 0 = .ok (outer, 5) ∧
      ∃ pos, ((binary 7 1).run c).run 0 = .error ⟨.outOfBudget, pos⟩ := by
  intro a pow₁ b pow₂ d c inner outer
  have hchain : PowerChain c (.name 0 a) [(pow₁, .name 2 b), (pow₂, .name 4 d)] :=
    .cons rfl rfl rfl rfl rfl (.cons rfl rfl rfl rfl rfl (.last rfl rfl fun t' ht' => by
      simp [c] at ht'))
  have h8 := (binary_power_chain_budget (by decide) hchain 8).1 (by decide)
  have h7 := (binary_power_chain_budget (by decide) hchain 7).2 (by decide)
  refine ⟨h8.trans ?_, h7⟩
  cbv

end Parse

end DotLint
