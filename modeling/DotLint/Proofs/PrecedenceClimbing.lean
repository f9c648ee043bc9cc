import Mathlib
import DotLint.Proofs.ParseRuns
import DotLint.Proofs.Stratified

/-!
# Precedence climbing builds the stratified tree

`Parse.binary` reads binary operators by precedence climbing: it reads an operand, then, as
long as the next operator binds at least as tightly as its level, reads the right operand
one level up (at the same level for `**`) and joins. On a chain of operands
`u₀ op₁ u₁ … opₙ uₙ`, each what `Parse.unary` reads, followed by a token that is no binary
operator, `binary` at the lowest level returns the tree of the stratified grammar,
`Parse.stratify` of `DotLint.Proofs.Stratified` (`binary_builds_stratified_tree`).

A chain is its first operand (`Operand.Reads`) and the operators and operands after it
(`Tail`). The proof is by induction on the length of the chain: the loop `binaryRest` reads
the next operator, takes as right operand the longest run that binds at least at the right
level, which `binary` reads by the induction hypothesis, and goes on from the joined node;
`stratify_climb` says that the tree is the same.
-/

namespace DotLint

namespace Parse

/-- `x` returns `a` and stops at `j` with every large enough recursion budget. -/
def Settles {α : Type} (c : ParseContext) (x : Nat → ParseM α) (i : Nat) (a : α) (j : Nat) :
    Prop :=
  ∃ F, ∀ f ≥ F, Runs c (x f) i a j

/-- A parser that, with one unit of budget more, runs whenever two eventual facts hold at its
budget, settles. -/
lemma settles_succ {α : Type} {c : ParseContext} {x : Nat → ParseM α} {i j : Nat} {a : α}
    {P Q : Nat → Prop} (hP : ∃ F, ∀ f ≥ F, P f) (hQ : ∃ F, ∀ f ≥ F, Q f)
    (h : ∀ g, P g → Q g → Runs c (x (g + 1)) i a j) : Settles c x i a j := by
  obtain ⟨F₁, h₁⟩ := hP
  obtain ⟨F₂, h₂⟩ := hQ
  refine ⟨max F₁ F₂ + 1, fun f hf => ?_⟩
  obtain ⟨g, rfl⟩ : ∃ g, f = g + 1 := ⟨f - 1, by omega⟩
  exact h g (h₁ g (by omega)) (h₂ g (by omega))

namespace Operand

/-- The marker at the first token of `u`, where every node joined from `u` on starts. -/
def marker (u : Operand) : Marker := ⟨u.firstTok.span.start, u.firstTok.loc.start⟩

/-- `u` is what a unary expression reads in context `c`: the tokens from `u.first` up to
`u.stop`, at least one, the first of them `u.firstTok` and the last `u.lastTok`, read into
`u.node` with every large enough budget. -/
structure Reads (c : ParseContext) (u : Operand) : Prop where
  first_lt_stop : u.first < u.stop
  first_tok : c.tokens[u.first]? = some u.firstTok
  last_tok : c.tokens[u.stop - 1]? = some u.lastTok
  unary : Settles c unary u.first u.node u.stop

/-- A name that nothing after it continues is an operand of one token. -/
lemma reads_identifier {c : ParseContext} {i : Nat} {t : Token} (hd : c.depth < maxDepth)
    (ht : c.tokens[i]? = some t) (hk : t.kind = .identifier)
    (hnext : ∀ t', c.tokens[i + 1]? = some t' → continuesOperand t' = false) :
    Reads c ⟨identifierNode t, i, i + 1, t, t⟩ where
  first_lt_stop := Nat.lt_succ_self i
  first_tok := ht
  last_tok := ht
  unary := ⟨3, fun f hf => by
    obtain ⟨g, rfl⟩ : ∃ g, f = g + 3 := ⟨f - 3, by omega⟩
    exact runs_unary_identifier hd ht hk hnext⟩

end Operand

/-- `rest` continues a chain that has reached token `k`: each operator is the token where
the chain so far stops, a binary operator in context `c`, and the operand after it is what a
unary expression reads from the next token on. -/
inductive Tail (c : ParseContext) : Nat → List (Token × Operand) → Prop
  | nil (k : Nat) : Tail c k []
  | cons {k : Nat} {op : Token} {v : Operand} {rest : List (Token × Operand)} :
      c.tokens[k]? = some op → (binaryPrecedence c.allowIn op).isSome → v.first = k + 1 →
      v.Reads c → Tail c v.stop rest → Tail c k ((op, v) :: rest)

/-- The token at `k`, if any, is no operator of level `L` or tighter: the loop of level `L`
stops there. -/
def StopsBelow (c : ParseContext) (L k : Nat) : Prop :=
  ∀ t, c.tokens[k]? = some t → ∀ p, binaryPrecedence c.allowIn t = some p → p < L

/-! ## Chains -/

section Chain

variable {c : ParseContext} {rest : List (Token × Operand)}

lemma lastOf_stop_congr {x y : Operand} (h : x.stop = y.stop) (rest : List (Token × Operand)) :
    (x.lastOf rest).stop = (y.lastOf rest).stop := by
  rcases rest with _ | ⟨⟨op, v⟩, rest⟩
  · exact h
  · rfl

/-- A chain cut in two: the first part continues the chain, the second continues it from
where the first part stops. -/
lemma Tail.of_append {t : Operand} {xs ys : List (Token × Operand)}
    (h : Tail c t.stop (xs ++ ys)) : Tail c t.stop xs ∧ Tail c (t.lastOf xs).stop ys := by
  induction xs generalizing t with
  | nil => exact ⟨.nil _, h⟩
  | cons q xs ih =>
    obtain ⟨op, v⟩ := q
    rcases h with _ | ⟨hop, hsome, hv1, hv, hrest⟩
    obtain ⟨h₁, h₂⟩ := ih hrest
    exact ⟨.cons hop hsome hv1 hv h₁, h₂⟩

/-- The last operand of a chain is read by a unary expression. -/
lemma Tail.lastOf_reads {v : Operand} (hv : v.Reads c) (h : Tail c v.stop rest) :
    (v.lastOf rest).Reads c := by
  induction rest generalizing v with
  | nil => exact hv
  | cons q rest ih =>
    obtain ⟨op, w⟩ := q
    rcases h with _ | ⟨-, -, -, hw, hrest⟩
    exact ih hw hrest

/-- Every operator of a chain binds at level 1 or tighter. -/
lemma Tail.bindsFrom {k : Nat} (h : Tail c k rest) : BindsFrom c.allowIn 1 rest := by
  induction h with
  | nil => exact fun q hq => absurd hq List.not_mem_nil
  | cons _ hsome _ _ _ ih =>
    intro q hq
    rcases List.mem_cons.1 hq with rfl | hq
    · rw [binaryPrecedence_eq_levelOf] at hsome
      obtain ⟨p, hp⟩ := Option.isSome_iff_exists.1 hsome
      exact ⟨p, hp, (levelOf_bounds hp).1⟩
    · exact ih q hq

/-- Every loop stops at a token that is no binary operator. -/
lemma StopsBelow.of_none {L k : Nat}
    (h : ∀ t, c.tokens[k]? = some t → binaryPrecedence c.allowIn t = none) : StopsBelow c L k :=
  fun t ht p hp => by
    rw [h t ht] at hp
    cases hp

lemma StopsBelow.mono {L R k : Nat} (h : StopsBelow c L k) (hLR : L ≤ R) : StopsBelow c R k :=
  fun t ht p hp => Nat.lt_of_lt_of_le (h t ht p hp) hLR

/-- A loop of level `R` stops before a chain that starts looser. -/
lemma Tail.stopsBelow {k R : Nat} {q : Token × Operand} (h : Tail c k (q :: rest))
    (hs : StartsBelow c.allowIn R (q :: rest)) : StopsBelow c R k := by
  obtain ⟨op, v⟩ := q
  rcases h with _ | ⟨hop, -, -, -, -⟩
  obtain ⟨p, hp, hlt⟩ := hs (op, v) rfl
  intro t ht p' hp'
  rw [hop] at ht
  cases ht
  rw [binaryPrecedence_eq_levelOf, hp] at hp'
  cases hp'
  exact hlt

end Chain

/-! ## Runs of the loop -/

section Runs

variable {c : ParseContext} {i f L : Nat}

/-- The loop returns its node at a token that is no operator of its level or tighter. -/
lemma runs_binaryRest_stop {m : Marker} {left : Node} (h : StopsBelow c L i) :
    Runs c (binaryRest (f + 1) L m left) i left i := by
  rw [binaryRest]
  refine Runs.bind runs_binaryOperator ?_
  cases ht : c.tokens[i]? with
  | none => exact runs_pure
  | some t =>
    cases hp : binaryPrecedence c.allowIn t with
    | none => simpa [hp] using runs_pure (c := c) (i := i) (a := left)
    | some p =>
      simp only [Option.bind_some, hp, Option.map_some, if_pos (h t ht p hp)]
      exact runs_pure

/-- One round of the loop: an operator of level `p`, at least the loop's, then the right
operand read one level up (at level `p` for `**`), joined to the node so far. -/
lemma runs_binaryRest_step {p : Nat} {m : Marker} {left right r : Node} {op tl : Token}
    {k k' : Nat} (ht : c.tokens[i]? = some op) (hp : binaryPrecedence c.allowIn op = some p)
    (hL : L ≤ p) (hright : Runs c (binary f (rightLevel op p)) (i + 1) right k)
    (hk : 0 < k) (htl : c.tokens[k - 1]? = some tl)
    (hrest : Runs c (binaryRest f L m ⟨operatorKind op.text,
      ⟨m.offset, max tl.span.stop m.offset⟩, ⟨m.position, tl.loc.stop.max m.position⟩,
      [("left", .node left), ("operator", .text op.text), ("right", .node right)]⟩) k r k') :
    Runs c (binaryRest (f + 1) L m left) i r k' := by
  rw [binaryRest]
  refine Runs.bind runs_binaryOperator ?_
  simp only [ht, Option.bind_some, hp, Option.map_some]
  rw [if_neg (by omega)]
  exact Runs.bind runs_skip (Runs.bind hright (Runs.bind (runs_finish hk htl) hrest))

lemma runs_binary {t : Token} {left r : Node} {j k : Nat} (ht : c.tokens[i]? = some t)
    (hleft : Runs c (unary f) i left j)
    (hrest : Runs c (binaryRest f L ⟨t.span.start, t.loc.start⟩ left) j r k) :
    Runs c (binary (f + 1) L) i r k := by
  rw [binary]
  exact Runs.bind (runs_marker ht) (Runs.bind hleft hrest)

/-- `binary` reads an operand and goes on with the loop from its marker. -/
lemma Operand.settles_binary {v : Operand} {a : Node} {k : Nat} (hv : v.Reads c)
    (hrest : Settles c (fun f => binaryRest f L v.marker v.node) v.stop a k) :
    Settles c (fun f => binary f L) v.first a k :=
  settles_succ hv.unary hrest fun _ hleft hloop => runs_binary hv.first_tok hleft hloop

/-- With the operand `S` read to the right of the operator at `t.stop`, the loop goes on
from the node that joins `t` and `S`. -/
lemma settles_binaryRest_join {t S : Operand} {op : Token} {p : Nat} {a : Node} {k : Nat}
    (ht : c.tokens[t.stop]? = some op) (hp : binaryPrecedence c.allowIn op = some p)
    (hL : L ≤ p)
    (hright : Settles c (fun f => binary f (rightLevel op p)) (t.stop + 1) S.node S.stop)
    (hS : 0 < S.stop) (hlast : c.tokens[S.stop - 1]? = some S.lastTok)
    (hrest : Settles c (fun f => binaryRest f L t.marker (t.join op S).node) S.stop a k) :
    Settles c (fun f => binaryRest f L t.marker t.node) t.stop a k :=
  settles_succ hright hrest fun _ hr hloop => runs_binaryRest_step ht hp hL hr hS hlast hloop

end Runs

/-! ## The climb -/

section Climb

variable {c : ParseContext}

lemma settles_binaryRest_nil {L : Nat} {t : Operand} (h : StopsBelow c L t.stop) :
    Settles c (fun f => binaryRest f L t.marker t.node) t.stop
      (stratify c.allowIn (levelsFrom L) t []).node (t.lastOf []).stop := by
  refine ⟨1, fun f hf => ?_⟩
  obtain ⟨g, rfl⟩ : ∃ g, f = g + 1 := ⟨f - 1, by omega⟩
  rw [stratify_nil]
  exact runs_binaryRest_stop h

/-- The loop of level `L`, run after the node of `t` on a chain whose operators bind at `L`
or tighter and which is followed by no such operator, returns the tree of the chain. -/
lemma settles_binaryRest (n : Nat) : ∀ {L : Nat} {t : Operand} {rest : List (Token × Operand)},
    rest.length ≤ n → Tail c t.stop rest → BindsFrom c.allowIn L rest →
    StopsBelow c L (t.lastOf rest).stop →
    Settles c (fun f => binaryRest f L t.marker t.node) t.stop
      (stratify c.allowIn (levelsFrom L) t rest).node (t.lastOf rest).stop := by
  -- induction on a bound of the chain's length: the right operand and the rest after it
  -- are both shorter than the chain
  induction n with
  | zero =>
    intro L t rest hlen _ _ hstop
    obtain rfl : rest = [] := List.eq_nil_of_length_eq_zero (by omega)
    exact settles_binaryRest_nil hstop
  | succ n ih =>
    intro L t rest hlen htail hbinds hstop
    rcases rest with _ | ⟨⟨op, v⟩, r⟩
    · exact settles_binaryRest_nil hstop
    obtain ⟨p, hp, hLp⟩ := hbinds (op, v) List.mem_cons_self
    have hR : p ≤ rightLevel op p ∧ rightLevel op p ≤ 12 := by
      have := (levelOf_bounds hp).2.1
      rw [rightLevel_eq hp]
      split <;> omega
    -- the right operand is the longest run that binds at its level or tighter
    obtain ⟨r₁, r₂, rfl, h₁, hstart, h₂⟩ :=
      BindsFrom.exists_climb_split (fun q hq => hbinds q (List.mem_cons_of_mem _ hq))
        (rightLevel op p)
    rcases htail with _ | ⟨hop, -, hv1, hv, hr⟩
    obtain ⟨hr₁, hr₂⟩ := Tail.of_append hr
    simp only [List.length_cons, List.length_append] at hlen
    have hlen₁ : r₁.length ≤ n := by omega
    have hlen₂ : r₂.length ≤ n := by omega
    have hlast := Tail.lastOf_reads hv hr₁
    obtain ⟨hSstop, hSlast⟩ := stratify_last hR.2 v r₁ h₁
    -- after the right operand comes a looser operator or the end of the chain
    have hstop₁ : StopsBelow c (rightLevel op p) (v.lastOf r₁).stop := by
      rcases r₂ with _ | ⟨q, r₂⟩
      · simpa using hstop.mono (hLp.trans hR.1)
      · exact hr₂.stopsBelow hstart
    set S := stratify c.allowIn (levelsFrom (rightLevel op p)) v r₁
    have hright : Settles c (fun f => binary f (rightLevel op p)) (t.stop + 1) S.node S.stop := by
      rw [← hv1, hSstop]
      exact Operand.settles_binary hv (ih hlen₁ hr₁ h₁ hstop₁)
    -- the rest of the chain goes on from the joined node, which stops where `S` does
    have hjoin : ((t.join op S).lastOf r₂).stop = (t.lastOf ((op, v) :: (r₁ ++ r₂))).stop := by
      rw [Operand.lastOf_cons, lastOf_append]
      exact lastOf_stop_congr (x := t.join op S) hSstop r₂
    have htail₂ : Tail c (t.join op S).stop r₂ := by
      show Tail c S.stop r₂
      rw [hSstop]
      exact hr₂
    have hrest := ih hlen₂ htail₂ h₂ (by rw [hjoin]; exact hstop)
    rw [hjoin] at hrest
    rw [stratify_climb hp hLp h₁ h₂ hstart]
    refine settles_binaryRest_join hop ((binaryPrecedence_eq_levelOf _ _).trans hp) hLp hright
      ?_ ?_ hrest
    · rw [hSstop]
      have := hlast.first_lt_stop
      omega
    · rw [hSstop, hSlast]
      exact hlast.last_tok

end Climb

/-- Precedence climbing builds the tree of the stratified grammar. On a chain
`u₀ op₁ u₁ … opₙ uₙ` of operands read by unary expressions and joined by binary operators,
followed by a token that is no binary operator here (or by the end), `binary` at the lowest
level returns, with every large enough budget, the tree `stratify` gives the chain over the
levels 1 to 11 and stops after the last operand. The node of a chain with an operator
spans from the first token of its first operand to the last token of its last operand. -/
theorem binary_builds_stratified_tree {c : ParseContext} {u : Operand}
    {rest : List (Token × Operand)} (hu : u.Reads c) (hrest : Tail c u.stop rest)
    (hend : ∀ t, c.tokens[(u.lastOf rest).stop]? = some t → binaryPrecedence c.allowIn t = none) :
    (∃ F, ∀ f ≥ F, ((binary f 1).run c).run u.first =
      .ok ((stratify c.allowIn (levelsFrom 1) u rest).node, (u.lastOf rest).stop)) ∧
    (rest ≠ [] → (stratify c.allowIn (levelsFrom 1) u rest).node.span =
      ⟨u.firstTok.span.start, max (u.lastOf rest).lastTok.span.stop u.firstTok.span.start⟩) := by
  have hbinds := hrest.bindsFrom
  have hstop : StopsBelow c 1 (u.lastOf rest).stop := .of_none hend
  refine ⟨Operand.settles_binary hu (settles_binaryRest rest.length le_rfl hrest hbinds hstop),
    fun hne => ?_⟩
  have hspan := stratify_spansTokens u hbinds hne
  rw [Operand.SpansTokens, stratify_firstTok, (stratify_last (by omega) u rest hbinds).2] at hspan
  exact hspan

/-- In `a + b * c` the product binds tighter: `binary` returns the sum of `a` and the product
of `b` and `c`. -/
theorem binary_groups_product_under_sum :
    let a : Token := ⟨.identifier, "a", ⟨0, 1⟩, ⟨⟨1, 1⟩, ⟨1, 2⟩⟩⟩
    let plus : Token := ⟨.punctuator, "+", ⟨2, 3⟩, ⟨⟨1, 3⟩, ⟨1, 4⟩⟩⟩
    let b : Token := ⟨.identifier, "b", ⟨4, 5⟩, ⟨⟨1, 5⟩, ⟨1, 6⟩⟩⟩
    let times : Token := ⟨.punctuator, "*", ⟨6, 7⟩, ⟨⟨1, 7⟩, ⟨1, 8⟩⟩⟩
    let d : Token := ⟨.identifier, "c", ⟨8, 9⟩, ⟨⟨1, 9⟩, ⟨1, 10⟩⟩⟩
    let c : ParseContext := ⟨#[a, plus, b, times, d], #[none, none, none, none, none], true, 0⟩
    let product : Node := ⟨.binaryExpression, ⟨4, 9⟩, ⟨⟨1, 5⟩, ⟨1, 10⟩⟩,
      [("left", .node (identifierNode b)), ("operator", .text "*"),
        ("right", .node (identifierNode d))]⟩
    let sum : Node := ⟨.binaryExpression, ⟨0, 9⟩, ⟨⟨1, 1⟩, ⟨1, 10⟩⟩,
      [("left", .node (identifierNode a)), ("operator", .text "+"), ("right", .node product)]⟩
    ∃ F, ∀ f ≥ F, ((binary f 1).run c).run 0 = .ok (sum, 5) := by
  intro a plus b times d c product sum
  have hu := Operand.reads_identifier (c := c) (i := 0) (by decide) rfl rfl
    (fun t ht => by simp [c] at ht; subst ht; rfl)
  have hb := Operand.reads_identifier (c := c) (i := 2) (by decide) rfl rfl
    (fun t ht => by simp [c] at ht; subst ht; rfl)
  have hd := Operand.reads_identifier (c := c) (i := 4) (by decide) rfl rfl
    (fun t ht => by simp [c] at ht)
  have htail := Tail.cons (c := c) (k := 0 + 1) rfl rfl rfl hb (Tail.cons rfl rfl rfl hd (.nil _))
  have h := (binary_builds_stratified_tree hu htail (fun t ht => by simp [c] at ht)).1
  obtain ⟨F, hF⟩ := h
  refine ⟨F, fun f hf => (hF f hf).trans ?_⟩
  cbv

end Parse

end DotLint
