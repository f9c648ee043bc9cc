import Mathlib
import DotLint.Syntax.Parse.Basic

/-!
# The stratified grammar of binary operators

Binary operators come in levels of binding power (`Parse.levelOf`): `??` and `||` (1), `&&`
(2), `|` (3), `^` (4), `&` (5), equality (6), relational, `instanceof` and, where it is
allowed, `in` (7), additive (9), multiplicative (10) and `**` (11); the parser's
`binaryPrecedence` gives the same levels (`binaryPrecedence_eq_levelOf`). The stratified
grammar has one rule per level,

  E_L ::= E_{L+1} (op_L E_{L+1})*

whose operands group to the left, except at level 11, where `**` groups to the right.

This module gives the tree that grammar assigns to a chain `u₀ op₁ u₁ … opₙ uₙ` of operands
joined by operators: `stratify` cuts the chain at the operators of the lowest level, builds
each piece over the levels above, and joins the pieces at that level. The main fact,
`stratify_climb`, is the step of precedence climbing: after an operator of level `p`, take
as right operand the longest run whose operators bind tighter than `p` (or as tightly, for
`**`), join, and go on from the joined node; the tree is the same.
-/

namespace DotLint

namespace Parse

/-- An operand of a chain of binary operators: the node built for it, the index of its first
token and the index right after its last one, and those two tokens. -/
structure Operand where
  node : Node
  first : Nat
  stop : Nat
  firstTok : Token
  lastTok : Token

/-- The kind of node a binary operator builds: a logical expression for `||`, `&&` and `??`,
a binary expression for the others. -/
def operatorKind (op : String) : NodeKind :=
  if op == "||" || op == "&&" || op == "??" then .logicalExpression else .binaryExpression

/-- The levels of the punctuators that are binary operators, loosest first. -/
def punctuatorLevels : List (String × Nat) :=
  [("??", 1), ("||", 1), ("&&", 2), ("|", 3), ("^", 4), ("&", 5),
    ("==", 6), ("!=", 6), ("===", 6), ("!==", 6), ("<", 7), (">", 7), ("<=", 7), (">=", 7),
    ("+", 9), ("-", 9), ("*", 10), ("/", 10), ("%", 10), ("**", 11)]

/-- The level of a binary operator: a punctuator of the table, or `instanceof` and, where it
is allowed, `in`, which are relational. -/
def levelOf (allowIn : Bool) (t : Token) : Option Nat :=
  match t.kind with
  | .punctuator => punctuatorLevels.lookup t.text
  | .keyword => if t.text = "instanceof" ∨ (t.text = "in" ∧ allowIn = true) then some 7 else none
  | _ => none

namespace Operand

/-- `l` and `r` joined by the operator `op`. The node spans from the first token of `l` to the
last token of `r`; were that token to end before the first one starts, which tokens in text
order never do, the span would be the empty one at the first token. -/
def join (op : Token) (l r : Operand) : Operand where
  node := ⟨operatorKind op.text,
    ⟨l.firstTok.span.start, max r.lastTok.span.stop l.firstTok.span.start⟩,
    ⟨l.firstTok.loc.start, r.lastTok.loc.stop.max l.firstTok.loc.start⟩,
    [("left", .node l.node), ("operator", .text op.text), ("right", .node r.node)]⟩
  first := l.first
  stop := r.stop
  firstTok := l.firstTok
  lastTok := r.lastTok

/-- Operands joined to the right: `u op₁ (v₁ op₂ (v₂ …))`. -/
def joinRight : Operand → List (Token × Operand) → Operand
  | u, [] => u
  | u, (op, v) :: rest => u.join op (joinRight v rest)

/-- Operands joined at level `L`: to the right at level 11, the level of `**`, and to the
left at every other level. -/
def combine (L : Nat) (first : Operand) (others : List (Token × Operand)) : Operand :=
  if L = 11 then first.joinRight others else others.foldl (fun acc o => acc.join o.1 o.2) first

/-- The last operand of the chain `u op₁ v₁ … opₙ vₙ`. -/
def lastOf : Operand → List (Token × Operand) → Operand
  | u, [] => u
  | _, (_, v) :: rest => lastOf v rest

/-- The node of `o` spans from the start of its first token to the end of its last one. -/
def SpansTokens (o : Operand) : Prop :=
  o.node.span = ⟨o.firstTok.span.start, max o.lastTok.span.stop o.firstTok.span.start⟩

lemma join_spansTokens (op : Token) (l r : Operand) : (l.join op r).SpansTokens := rfl

@[simp] lemma lastOf_nil (u : Operand) : u.lastOf [] = u := rfl

@[simp] lemma lastOf_cons (u v : Operand) (op : Token) (rest : List (Token × Operand)) :
    u.lastOf ((op, v) :: rest) = v.lastOf rest := rfl

end Operand

/-- The chain after a first operand, cut at the operators of level `L`: the run before the
first of them, then each of them with the operand after it and the run that follows. -/
def splitLevel (allowIn : Bool) (L : Nat) : List (Token × Operand) →
    List (Token × Operand) × List (Token × Operand × List (Token × Operand))
  | [] => ([], [])
  | (op, v) :: rest =>
    if levelOf allowIn op = some L then
      ([], (op, v, (splitLevel allowIn L rest).1) :: (splitLevel allowIn L rest).2)
    else ((op, v) :: (splitLevel allowIn L rest).1, (splitLevel allowIn L rest).2)

/-- The tree the stratified grammar over the levels `Ls`, lowest first, gives the chain of `u`
and `rest`: cut at the operators of the lowest level, each piece built over the levels above,
and the pieces combined at that level. -/
def stratify (allowIn : Bool) : List Nat → Operand → List (Token × Operand) → Operand
  | [], u, _ => u
  | L :: Ls, u, rest =>
    Operand.combine L (stratify allowIn Ls u (splitLevel allowIn L rest).1)
      ((splitLevel allowIn L rest).2.map fun s => (s.1, stratify allowIn Ls s.2.1 s.2.2))

/-- The levels from `L` up to 11, lowest first. -/
def levelsFrom (L : Nat) : List Nat := List.range' L (12 - L)

/-- The level of the right operand of an operator of level `p`: the next level up, or the
same one for `**`, which groups to the right. -/
def rightLevel (op : Token) (p : Nat) : Nat := if op.text == "**" then p else p + 1

/-- Every operator of the chain binds at level `L` or tighter. -/
def BindsFrom (allowIn : Bool) (L : Nat) (rest : List (Token × Operand)) : Prop :=
  ∀ q ∈ rest, ∃ p, levelOf allowIn q.1 = some p ∧ L ≤ p

/-- The chain is empty or starts with an operator looser than level `L`. -/
def StartsBelow (allowIn : Bool) (L : Nat) (rest : List (Token × Operand)) : Prop :=
  ∀ q ∈ rest.head?, ∃ p, levelOf allowIn q.1 = some p ∧ p < L

variable {allowIn : Bool}

/-! ## Levels -/

/-- The parser's binding powers are the levels of the grammar. -/
lemma binaryPrecedence_eq_levelOf (allowIn : Bool) (t : Token) :
    binaryPrecedence allowIn t = levelOf allowIn t := by
  unfold binaryPrecedence levelOf
  cases hk : t.kind
  case punctuator =>
    simp only
    split <;> simp_all [punctuatorLevels, List.lookup, beq_false_of_ne]
  case keyword =>
    simp only
    split <;> simp_all
  all_goals rfl

/-- Levels run from 1 to 11, and only `**` is at 11. -/
lemma levelOf_bounds {t : Token} {p : Nat} (h : levelOf allowIn t = some p) :
    1 ≤ p ∧ p ≤ 11 ∧ (t.text = "**" ↔ p = 11) := by
  rw [← binaryPrecedence_eq_levelOf] at h
  unfold binaryPrecedence at h
  split at h
  · split at h <;> cases h <;> simp_all
  · split at h
    · cases h
      simp_all
    · split at h
      · cases h
        simp_all
      · cases h
  · cases h

lemma rightLevel_eq {t : Token} {p : Nat} (h : levelOf allowIn t = some p) :
    rightLevel t p = if p = 11 then p else p + 1 := by
  have := (levelOf_bounds h).2.2
  by_cases hp : p = 11 <;> simp_all [rightLevel]

lemma levelsFrom_of_le {L : Nat} (h : L ≤ 11) : levelsFrom L = L :: levelsFrom (L + 1) := by
  rw [levelsFrom, levelsFrom, show 12 - L = (12 - (L + 1)) + 1 by omega, List.range'_succ]

lemma levelsFrom_twelve : levelsFrom 12 = [] := rfl

lemma BindsFrom.mono {L L' : Nat} {rest : List (Token × Operand)} (hle : L ≤ L')
    (h : BindsFrom allowIn L' rest) : BindsFrom allowIn L rest := fun q hq => by
  obtain ⟨p, hp, hLp⟩ := h q hq
  exact ⟨p, hp, by omega⟩

lemma BindsFrom.nil_of_twelve {rest : List (Token × Operand)} (h : BindsFrom allowIn 12 rest) :
    rest = [] := by
  rcases rest with _ | ⟨q, rest⟩
  · rfl
  · obtain ⟨p, hp, hle⟩ := h q List.mem_cons_self
    have := (levelOf_bounds hp).2.1
    omega

section Bounds

variable {L : Nat} {rest xs ys : List (Token × Operand)}

/-- A chain that binds tighter than `L` has no operator of level `L`. -/
lemma BindsFrom.ne_of_lt {L' : Nat} (h : BindsFrom allowIn L' rest) (hlt : L < L') :
    ∀ q ∈ rest, levelOf allowIn q.1 ≠ some L := fun q hq hq' => by
  obtain ⟨p, hp, hle⟩ := h q hq
  rw [hq'] at hp
  cases hp
  omega

/-- A chain that binds at level 11 or tighter is all `**`. -/
lemma BindsFrom.eq_eleven (h : BindsFrom allowIn 11 rest) :
    ∀ q ∈ rest, levelOf allowIn q.1 = some 11 := fun q hq => by
  obtain ⟨p, hp, hle⟩ := h q hq
  have := (levelOf_bounds hp).2.1
  rw [hp, show p = 11 by omega]

/-- A chain that binds at `L` or tighter and starts looser than `L` is empty. -/
lemma BindsFrom.eq_nil_of_startsBelow (h : BindsFrom allowIn L rest)
    (hs : StartsBelow allowIn L rest) : rest = [] := by
  rcases rest with _ | ⟨q, rest⟩
  · rfl
  · obtain ⟨p, hp, hlt⟩ := hs q rfl
    obtain ⟨p', hp', hle⟩ := h q List.mem_cons_self
    rw [hp] at hp'
    cases hp'
    omega

/-- A chain that binds at `L` or tighter and starts looser than `L + 1` starts at level `L`. -/
lemma BindsFrom.head_eq_of_startsBelow (h : BindsFrom allowIn L rest)
    (hs : StartsBelow allowIn (L + 1) rest) :
    ∀ q ∈ rest.head?, levelOf allowIn q.1 = some L := fun q hq => by
  obtain ⟨p, hp, hlt⟩ := hs q hq
  obtain ⟨p', hp', hle⟩ := h q (List.mem_of_mem_head? hq)
  rw [hp] at hp'
  cases hp'
  rw [hp, show p = L by omega]

/-- A front part of a chain starts as the chain does. -/
lemma StartsBelow.left_of_append {R : Nat} (h : StartsBelow allowIn R (xs ++ ys)) :
    StartsBelow allowIn R xs := fun q hq => by
  rcases xs with _ | ⟨q', xs⟩
  · cases hq
  · exact h q hq

end Bounds

/-! ## Cutting a chain at a level -/

section Split

variable {L : Nat} {op : Token} {v : Operand} {rest xs ys : List (Token × Operand)}

lemma splitLevel_cons_of_eq (h : levelOf allowIn op = some L) :
    splitLevel allowIn L ((op, v) :: rest) =
      ([], (op, v, (splitLevel allowIn L rest).1) :: (splitLevel allowIn L rest).2) := by
  simp [splitLevel, h]

lemma splitLevel_cons_of_ne (h : levelOf allowIn op ≠ some L) :
    splitLevel allowIn L ((op, v) :: rest) =
      ((op, v) :: (splitLevel allowIn L rest).1, (splitLevel allowIn L rest).2) := by
  simp [splitLevel, h]

/-- A run with no operator of level `L` stays in front of the cut. -/
lemma splitLevel_append_of_ne (h : ∀ q ∈ xs, levelOf allowIn q.1 ≠ some L) :
    splitLevel allowIn L (xs ++ ys) =
      (xs ++ (splitLevel allowIn L ys).1, (splitLevel allowIn L ys).2) := by
  induction xs with
  | nil => rfl
  | cons q xs ih =>
    obtain ⟨op, v⟩ := q
    rw [List.cons_append, splitLevel_cons_of_ne (h _ List.mem_cons_self),
      ih fun q hq => h q (List.mem_cons_of_mem _ hq)]
    rfl

/-- A chain that starts at level `L` has nothing in front of the cut. -/
lemma splitLevel_fst_eq_nil
    (h : ∀ q ∈ ys.head?, levelOf allowIn q.1 = some L) :
    (splitLevel allowIn L ys).1 = [] := by
  rcases ys with _ | ⟨⟨op, v⟩, ys⟩
  · rfl
  · rw [splitLevel_cons_of_eq (h _ rfl)]

/-- The chain is the run in front of the cut, then each operator of level `L` with its operand
and run. -/
lemma splitLevel_eq (rest : List (Token × Operand)) :
    rest = (splitLevel allowIn L rest).1 ++
      (splitLevel allowIn L rest).2.flatMap fun s => (s.1, s.2.1) :: s.2.2 := by
  induction rest with
  | nil => rfl
  | cons q rest ih =>
    obtain ⟨op, v⟩ := q
    by_cases h : levelOf allowIn op = some L
    · rw [splitLevel_cons_of_eq h]
      simp only [List.nil_append, List.flatMap_cons, List.cons_append, ← ih]
    · rw [splitLevel_cons_of_ne h, List.cons_append, ← ih]

/-- The runs of a cut hold operators of the chain, none of level `L`. -/
lemma mem_splitLevel_runs {q : Token × Operand}
    (h : q ∈ (splitLevel allowIn L rest).1 ∨ ∃ s ∈ (splitLevel allowIn L rest).2, q ∈ s.2.2) :
    q ∈ rest ∧ levelOf allowIn q.1 ≠ some L := by
  induction rest with
  | nil => simp [splitLevel] at h
  | cons q' rest ih =>
    obtain ⟨op, v⟩ := q'
    by_cases hop : levelOf allowIn op = some L
    · rw [splitLevel_cons_of_eq hop] at h
      simp only [List.not_mem_nil, List.mem_cons, exists_eq_or_imp, false_or] at h
      rcases h with h | h
      · exact ⟨List.mem_cons_of_mem _ (ih (.inl h)).1, (ih (.inl h)).2⟩
      · exact ⟨List.mem_cons_of_mem _ (ih (.inr h)).1, (ih (.inr h)).2⟩
    · rw [splitLevel_cons_of_ne hop] at h
      simp only [List.mem_cons] at h
      rcases h with (rfl | h) | h
      · exact ⟨List.mem_cons_self, hop⟩
      · exact ⟨List.mem_cons_of_mem _ (ih (.inl h)).1, (ih (.inl h)).2⟩
      · exact ⟨List.mem_cons_of_mem _ (ih (.inr h)).1, (ih (.inr h)).2⟩

/-- Cut at level `L`, a chain whose operators bind at `L` or tighter leaves runs whose
operators bind tighter. -/
lemma BindsFrom.runs_of_split (h : BindsFrom allowIn L rest) :
    BindsFrom allowIn (L + 1) (splitLevel allowIn L rest).1 ∧
      ∀ s ∈ (splitLevel allowIn L rest).2, BindsFrom allowIn (L + 1) s.2.2 := by
  have hrun : ∀ q, (q ∈ (splitLevel allowIn L rest).1 ∨
      ∃ s ∈ (splitLevel allowIn L rest).2, q ∈ s.2.2) →
      ∃ p, levelOf allowIn q.1 = some p ∧ L + 1 ≤ p := by
    intro q hq
    obtain ⟨hmem, hne⟩ := mem_splitLevel_runs hq
    obtain ⟨p, hp, hle⟩ := h q hmem
    refine ⟨p, hp, ?_⟩
    have : p ≠ L := fun hpl => hne (hpl ▸ hp)
    omega
  exact ⟨fun q hq => hrun q (.inl hq), fun s hs q hq => hrun q (.inr ⟨s, hs, hq⟩)⟩

/-- A chain of `**` alone, cut at level 11, is all operators of that level. -/
lemma splitLevel_eleven (h : ∀ q ∈ rest, levelOf allowIn q.1 = some 11) :
    splitLevel allowIn 11 rest = ([], rest.map fun q => (q.1, q.2, [])) := by
  induction rest with
  | nil => rfl
  | cons q rest ih =>
    obtain ⟨op, v⟩ := q
    rw [splitLevel_cons_of_eq (h _ List.mem_cons_self),
      ih fun q hq => h q (List.mem_cons_of_mem _ hq)]
    rfl

/-- The cut of precedence climbing after an operator whose right operand takes level `R`:
the longest run that binds at `R` or tighter, then the rest, which starts looser. -/
lemma BindsFrom.exists_climb_split (h : BindsFrom allowIn L rest) (R : Nat) :
    ∃ r₁ r₂, rest = r₁ ++ r₂ ∧ BindsFrom allowIn R r₁ ∧ StartsBelow allowIn R r₂ ∧
      BindsFrom allowIn L r₂ := by
  let atLeast : Token × Operand → Bool := fun q => (levelOf allowIn q.1).any (R ≤ ·)
  refine ⟨rest.takeWhile atLeast, rest.dropWhile atLeast, List.takeWhile_append_dropWhile.symm,
    fun q hq => ?_, fun q hq => ?_, fun q hq => h q (List.dropWhile_subset _ hq)⟩
  · have hq' : atLeast q = true := List.mem_takeWhile_imp hq
    simp only [atLeast, Option.any_eq_true, decide_eq_true_eq] at hq'
    exact hq'
  · -- the run stops at the first operator looser than `R`
    have hnot := List.head?_dropWhile_not atLeast rest
    rw [Option.mem_def.1 hq] at hnot
    obtain ⟨p, hp, -⟩ := h q (List.dropWhile_subset _ (List.mem_of_mem_head? hq))
    simp only [atLeast, hp, Option.any_some, decide_eq_false_iff_not, not_le] at hnot
    exact ⟨p, hp, hnot⟩

end Split

/-! ## The tree of a chain -/

section Tree

variable {L : Nat} {u t v : Operand} {op : Token} {rest : List (Token × Operand)}

@[simp] lemma stratify_nil (Ls : List Nat) (u : Operand) : stratify allowIn Ls u [] = u := by
  induction Ls with
  | nil => rfl
  | cons L Ls ih => simp [stratify, splitLevel, ih, Operand.combine, Operand.joinRight]

lemma stratify_levelsFrom (h : L ≤ 11) (u : Operand) (rest : List (Token × Operand)) :
    stratify allowIn (levelsFrom L) u rest =
      Operand.combine L (stratify allowIn (levelsFrom (L + 1)) u (splitLevel allowIn L rest).1)
        ((splitLevel allowIn L rest).2.map
          fun s => (s.1, stratify allowIn (levelsFrom (L + 1)) s.2.1 s.2.2)) := by
  rw [levelsFrom_of_le h, stratify]

/-- At level 11, a chain of `**` groups to the right. -/
lemma stratify_eleven (h : ∀ q ∈ rest, levelOf allowIn q.1 = some 11) :
    stratify allowIn (levelsFrom 11) u rest = u.joinRight rest := by
  rw [stratify_levelsFrom (Nat.le_refl 11), splitLevel_eleven h, levelsFrom_twelve]
  simp [stratify, Operand.combine, Function.comp_def]

lemma lastOf_append (u : Operand) (xs ys : List (Token × Operand)) :
    u.lastOf (xs ++ ys) = (u.lastOf xs).lastOf ys := by
  induction xs generalizing u with
  | nil => rfl
  | cons q xs ih => exact ih q.2

/-- A property that a join takes from its right operand holds of the pieces combined at a
level when it holds of the last operand of the chain they come from. -/
lemma combine_keeps {P : Operand → Prop} (hjoin : ∀ op l r, P r → P (Operand.join op l r))
    (L : Nat) (S : Operand → List (Token × Operand) → Operand)
    (segs : List (Token × Operand × List (Token × Operand)))
    (hS : ∀ s ∈ segs, P (s.2.1.lastOf s.2.2) → P (S s.2.1 s.2.2)) (first x : Operand)
    (hx : P x → P first) (h : P (x.lastOf (segs.flatMap fun s => (s.1, s.2.1) :: s.2.2))) :
    P (Operand.combine L first (segs.map fun s => (s.1, S s.2.1 s.2.2))) := by
  unfold Operand.combine
  split
  · -- to the right: the last piece is the innermost right operand
    induction segs generalizing first x with
    | nil => exact hx h
    | cons s segs ih =>
      rw [List.flatMap_cons, List.cons_append, Operand.lastOf_cons, lastOf_append] at h
      exact hjoin _ _ _ (ih (fun s' hs' => hS s' (List.mem_cons_of_mem s hs'))
        (S s.2.1 s.2.2) _ (hS s List.mem_cons_self) h)
  · -- to the left: the last piece is the right operand of the outermost join
    induction segs generalizing first x with
    | nil => exact hx h
    | cons s segs ih =>
      rw [List.flatMap_cons, List.cons_append, Operand.lastOf_cons, lastOf_append] at h
      exact ih (fun s' hs' => hS s' (List.mem_cons_of_mem s hs'))
        (first.join s.1 (S s.2.1 s.2.2)) _
        (fun hs => hjoin _ _ _ (hS s List.mem_cons_self hs)) h

@[simp] lemma combine_nil (L : Nat) (first : Operand) : Operand.combine L first [] = first := by
  unfold Operand.combine
  split <;> rfl

lemma combine_firstTok (L : Nat) (first : Operand) (others : List (Token × Operand)) :
    (Operand.combine L first others).firstTok = first.firstTok := by
  unfold Operand.combine
  split
  · cases others <;> rfl
  · induction others generalizing first with
    | nil => rfl
    | cons q others ih => exact ih (first.join q.1 q.2)

/-- The tree of a chain starts with the first token of its first operand. -/
lemma stratify_firstTok (Ls : List Nat) (u : Operand) (rest : List (Token × Operand)) :
    (stratify allowIn Ls u rest).firstTok = u.firstTok := by
  induction Ls generalizing u rest with
  | nil => rfl
  | cons L Ls ih => rw [stratify, combine_firstTok, ih]

/-- Pieces joined at a level, at least two of them, span their tokens. -/
lemma combine_spansTokens {L : Nat} (first : Operand) {others : List (Token × Operand)}
    (h : others ≠ []) : (Operand.combine L first others).SpansTokens := by
  obtain ⟨q, others, rfl⟩ := List.exists_cons_of_ne_nil h
  clear h
  unfold Operand.combine
  split
  · exact Operand.join_spansTokens _ _ _
  · -- every left fold from a joined node ends in a joined node
    rw [List.foldl_cons]
    have hacc := Operand.join_spansTokens q.1 first q.2
    generalize first.join q.1 q.2 = acc at hacc
    induction others generalizing acc with
    | nil => exact hacc
    | cons q' others ih => exact ih _ (Operand.join_spansTokens _ _ _)

/-- The tree of a chain with at least one operator is a joined node, which spans its
tokens. -/
lemma stratify_spansTokens {L : Nat} (u : Operand) {rest : List (Token × Operand)}
    (h : BindsFrom allowIn L rest) (hne : rest ≠ []) :
    (stratify allowIn (levelsFrom L) u rest).SpansTokens := by
  -- induction on the levels left above `L`
  induction hd : 12 - L generalizing L rest with
  | zero => exact absurd (h.mono (by omega)).nil_of_twelve hne
  | succ d ih =>
    have hre : rest = (splitLevel allowIn L rest).1 ++ _ := splitLevel_eq rest
    rw [stratify_levelsFrom (by omega)]
    rcases hsegs : (splitLevel allowIn L rest).2 with _ | ⟨s, segs⟩
    · -- no operator of level `L`: the whole chain is one piece, built at the levels above
      rw [hsegs, List.flatMap_nil, List.append_nil] at hre
      rw [List.map_nil, combine_nil]
      exact ih h.runs_of_split.1 (by rw [← hre]; exact hne) (by omega)
    · exact combine_spansTokens _ (List.cons_ne_nil _ _)

/-- The tree of a chain ends where its last operand ends, with that operand's last token. -/
lemma stratify_last {L : Nat} (hL : L ≤ 12) (u : Operand) (rest : List (Token × Operand))
    (h : BindsFrom allowIn L rest) :
    (stratify allowIn (levelsFrom L) u rest).stop = (u.lastOf rest).stop ∧
      (stratify allowIn (levelsFrom L) u rest).lastTok = (u.lastOf rest).lastTok := by
  -- induction on the levels left above `L`
  induction hd : 12 - L generalizing L u rest with
  | zero =>
    obtain rfl : L = 12 := by omega
    rw [h.nil_of_twelve]
    simp [Operand.lastOf]
  | succ d ih =>
    have hsplit := h.runs_of_split
    rw [stratify_levelsFrom (by omega)]
    refine combine_keeps (P := fun x => x.stop = (u.lastOf rest).stop ∧
      x.lastTok = (u.lastOf rest).lastTok) (fun _ _ _ hr => hr) L _ _ ?_ _ (u.lastOf
        (splitLevel allowIn L rest).1) ?_ ?_
    · intro s hs hlast
      obtain ⟨h1, h2⟩ := ih (by omega) s.2.1 s.2.2 (hsplit.2 s hs) (by omega)
      exact ⟨h1.trans hlast.1, h2.trans hlast.2⟩
    · intro hlast
      obtain ⟨h1, h2⟩ := ih (by omega) u _ hsplit.1 (by omega)
      exact ⟨h1.trans hlast.1, h2.trans hlast.2⟩
    · rw [← lastOf_append, ← splitLevel_eq]
      exact ⟨rfl, rfl⟩

/-- The step of precedence climbing. After an operator `op` of level `p`, at least `L`, the
right operand is the longest run `r₁` whose operators bind at its right level or tighter;
the operators after it bind looser. Joining it to `t` and going on from the joined node
gives the tree of the whole chain. -/
lemma stratify_climb {p : Nat} (hp : levelOf allowIn op = some p) (hL : L ≤ p)
    {r₁ r₂ : List (Token × Operand)} (h₁ : BindsFrom allowIn (rightLevel op p) r₁)
    (h₂ : BindsFrom allowIn L r₂) (hstart : StartsBelow allowIn (rightLevel op p) r₂) :
    stratify allowIn (levelsFrom L) t ((op, v) :: (r₁ ++ r₂)) =
      stratify allowIn (levelsFrom L) (t.join op (stratify allowIn (levelsFrom (rightLevel op p))
        v r₁)) r₂ := by
  obtain ⟨hp1, hp11, hpow⟩ := levelOf_bounds hp
  have hnext := rightLevel_eq hp
  -- induction on the levels between `L` and the operator's own
  induction hd : p - L generalizing L r₂ with
  | zero =>
    obtain rfl : p = L := by omega
    by_cases h11 : p = 11
    · -- `**`: nothing looser follows, and the run groups to the right
      subst h11
      rw [hnext, if_pos rfl] at h₁ hstart ⊢
      obtain rfl : r₂ = [] := h₂.eq_nil_of_startsBelow hstart
      have hall : ∀ q ∈ (op, v) :: r₁, levelOf allowIn q.1 = some 11 := by
        intro q hq
        rcases List.mem_cons.1 hq with rfl | hq
        · exact hp
        · exact h₁.eq_eleven q hq
      rw [List.append_nil, stratify_eleven hall, stratify_eleven h₁.eq_eleven, stratify_nil]
      rfl
    · -- a left-grouping level: the run is the first piece after `op`
      rw [hnext, if_neg h11] at h₁ hstart ⊢
      rw [stratify_levelsFrom hp11, stratify_levelsFrom hp11, splitLevel_cons_of_eq hp,
        splitLevel_append_of_ne (h₁.ne_of_lt (Nat.lt_succ_self p)),
        splitLevel_fst_eq_nil (h₂.head_eq_of_startsBelow hstart), List.append_nil]
      simp [Operand.combine, h11]
  | succ d ih =>
    -- `op` binds tighter than `L`: it stays inside the first piece at level `L`
    have hLp : L < p := by omega
    have hnext_gt : L < rightLevel op p := by rw [hnext]; split <;> omega
    have hne : ∀ q ∈ (op, v) :: r₁, levelOf allowIn q.1 ≠ some L := by
      intro q hq
      rcases List.mem_cons.1 hq with rfl | hq
      · rw [hp]
        exact fun h => by cases h; omega
      · exact h₁.ne_of_lt hnext_gt q hq
    have hrun := h₂.runs_of_split.1
    -- the run of `r₂` in front of the cut starts as `r₂` does
    have hstart₂ : StartsBelow allowIn (rightLevel op p) (splitLevel allowIn L r₂).1 := by
      have hpre : r₂ = (splitLevel allowIn L r₂).1 ++ _ := splitLevel_eq r₂
      rw [hpre] at hstart
      exact hstart.left_of_append
    have hstep := ih (L := L + 1) (by omega) hrun hstart₂ (by omega)
    rw [stratify_levelsFrom (L := L) (by omega), stratify_levelsFrom (L := L) (by omega),
      ← List.cons_append, splitLevel_append_of_ne hne, List.cons_append, hstep]

end Tree

end Parse

end DotLint
