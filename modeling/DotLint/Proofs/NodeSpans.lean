import Mathlib.Tactic.Lemma
import Mathlib.Data.List.Chain
import DotLint.Proofs.TokenTiling
import DotLint.Proofs.ParseRun

/-!
# Nodes that cover tokens

A node of a syntax tree is *token-aligned* when its span and location run from the start of
one token to the end of the same or a later one. This module states that, and what a whole
tree of such nodes looks like, in terms of token indices:

* `Node.Covers ts n a b`: `n` covers the tokens `a` to `b` of `ts`;
* `Node.Within ts ns lo hi`: the nodes `ns` lie one after another in the tokens from `lo`
  up to `hi`, and `Node.Tiles` the same with no token left out;
* `Node.Aligned` and `Node.WellSpanned`: a node covers some tokens, its children lie
  inside its span and come in order; and so does every node of its tree.

When the tokens come in text order, as the lexer produces them, token indices in order give
offsets in order; `Node.Within` then turns into the span facts of `Node.Aligned`.

The last part gives what the parser's node builders guarantee: `marker` marks the token it
looks at, and `finish`, run after reading tokens `i` up to `j`, builds a node covering
exactly them. `Parse.Read` and `Parse.ReadAt` say what a run of a grammar function has read.
-/

namespace DotLint

/-! ## Tokens in text order -/

namespace InTextOrder

variable {ts : Array Token} {a b : Nat} {ta tb : Token}

/-- Every token of an ordered array is non-empty. -/
lemma nonempty_of_getElem? (h : InTextOrder ts.toList) (ha : ts[a]? = some ta) :
    ta.span.start < ta.span.stop ∧ ta.loc.start.le ta.loc.stop = true :=
  h.nonempty ta (Array.mem_toList_iff.2 (Array.mem_of_getElem? ha))

/-- An earlier token of an ordered array ends before a later one starts. -/
lemma precedes_of_lt (h : InTextOrder ts.toList) (hab : a < b) (ha : ts[a]? = some ta)
    (hb : ts[b]? = some tb) : Token.Precedes ta tb := by
  obtain ⟨hal, rfl⟩ := Array.getElem?_eq_some_iff.1 ha
  obtain ⟨hbl, rfl⟩ := Array.getElem?_eq_some_iff.1 hb
  have hp := List.pairwise_iff_getElem.1 h.precedes a b (by simpa using hal)
    (by simpa using hbl) hab
  simpa using hp

lemma stop_le_start (h : InTextOrder ts.toList) (hab : a < b) (ha : ts[a]? = some ta)
    (hb : ts[b]? = some tb) : ta.span.stop ≤ tb.span.start :=
  (h.precedes_of_lt hab ha hb).1

lemma start_le_start (h : InTextOrder ts.toList) (hab : a ≤ b) (ha : ts[a]? = some ta)
    (hb : ts[b]? = some tb) : ta.span.start ≤ tb.span.start := by
  rcases Nat.lt_or_eq_of_le hab with hlt | rfl
  · have h1 := h.stop_le_start hlt ha hb
    have h2 := (h.nonempty_of_getElem? ha).1
    omega
  · rw [ha] at hb
    cases hb
    exact Nat.le_refl _

lemma stop_le_stop (h : InTextOrder ts.toList) (hab : a ≤ b) (ha : ts[a]? = some ta)
    (hb : ts[b]? = some tb) : ta.span.stop ≤ tb.span.stop := by
  rcases Nat.lt_or_eq_of_le hab with hlt | rfl
  · have h1 := h.stop_le_start hlt ha hb
    have h2 := (h.nonempty_of_getElem? hb).1
    omega
  · rw [ha] at hb
    cases hb
    exact Nat.le_refl _

lemma start_le_stop (h : InTextOrder ts.toList) (hab : a ≤ b) (ha : ts[a]? = some ta)
    (hb : ts[b]? = some tb) : ta.span.start ≤ tb.span.stop := by
  have h1 := h.start_le_start hab ha hb
  have h2 := (h.nonempty_of_getElem? hb).1
  omega

/-- A token starts, in lines and columns, no later than the same or a later one ends. -/
lemma loc_start_le_stop (h : InTextOrder ts.toList) (hab : a ≤ b) (ha : ts[a]? = some ta)
    (hb : ts[b]? = some tb) : ta.loc.start.le tb.loc.stop = true := by
  rcases Nat.lt_or_eq_of_le hab with hlt | rfl
  · have h1 := (h.nonempty_of_getElem? ha).2
    have h2 := (h.precedes_of_lt hlt ha hb).2
    have h3 := (h.nonempty_of_getElem? hb).2
    exact Position.le_trans h1 (Position.le_trans h2 h3)
  · rw [ha] at hb
    cases hb
    exact (h.nonempty_of_getElem? ha).2

end InTextOrder

/-! ## Nodes over tokens -/

namespace Node

/-- `n` covers the tokens `a` to `b` of `ts`, both included: its span and its location run
from the start of token `a` to the end of token `b`. -/
def Covers (ts : Array Token) (n : Node) (a b : Nat) : Prop :=
  a ≤ b ∧ ∃ ta tb, ts[a]? = some ta ∧ ts[b]? = some tb ∧
    n.span = ⟨ta.span.start, tb.span.stop⟩ ∧ n.loc = ⟨ta.loc.start, tb.loc.stop⟩

/-- The nodes `ns` lie one after another in the tokens from `lo` up to `hi` (excluded): each
covers tokens that come after those of the node before it. -/
inductive Within (ts : Array Token) : List Node → Nat → Nat → Prop
  | nil {lo hi : Nat} : lo ≤ hi → Within ts [] lo hi
  | cons {n : Node} {ns : List Node} {lo a b hi : Nat} :
      lo ≤ a → n.Covers ts a b → Within ts ns (b + 1) hi → Within ts (n :: ns) lo hi

/-- The nodes `ns` cover the tokens from `i` up to `j` (excluded) one after another with no
token left out: each starts at the token right after the last token of the one before. -/
inductive Tiles (ts : Array Token) : List Node → Nat → Nat → Prop
  | nil (i : Nat) : Tiles ts [] i i
  | cons {n : Node} {ns : List Node} {i b j : Nat} :
      n.Covers ts i b → Tiles ts ns (b + 1) j → Tiles ts (n :: ns) i j

/-- `d` is `n` or a node of the tree of one of `n`'s children. -/
inductive InTree : Node → Node → Prop
  | self (n : Node) : InTree n n
  | child {d c n : Node} : c ∈ n.children → InTree d c → InTree d n

/-- The children of `n` come one after another: each ends where or before the next one
starts. A shorthand property is the exception: its key stands as its value too. -/
def ChildrenInOrder (n : Node) : Prop :=
  n.children.IsChain (fun c d => c.span.stop ≤ d.span.start) ∨
    (n.kind = .property ∧ n.flag "shorthand" = true ∧ ∃ k, n.children = [k, k])

/-- A node built right: it covers some tokens, its children lie inside its span, and they
come in order. -/
structure Aligned (ts : Array Token) (n : Node) : Prop where
  covers : ∃ a b, n.Covers ts a b
  inside : ∀ c ∈ n.children, n.span.start ≤ c.span.start ∧ c.span.stop ≤ n.span.stop
  inOrder : n.ChildrenInOrder

/-- Every node of the tree of `n` is built right. -/
def WellSpanned (ts : Array Token) (n : Node) : Prop := ∀ d : Node, d.InTree n → d.Aligned ts

variable {ts : Array Token}

/-! ### The algebra of `Within` -/

lemma Within.le {ns : List Node} {lo hi : Nat} (h : Within ts ns lo hi) : lo ≤ hi := by
  induction h with
  | nil hle => exact hle
  | cons hla hc _ ih =>
    have := hc.1
    omega

lemma Within.mono {ns : List Node} {lo hi lo' hi' : Nat} (h : Within ts ns lo hi)
    (hlo : lo' ≤ lo) (hhi : hi ≤ hi') : Within ts ns lo' hi' := by
  induction h generalizing lo' with
  | nil hle => exact .nil (by omega)
  | cons hla hc _ ih => exact .cons (by omega) hc (ih (Nat.le_refl _) hhi)

lemma Within.append {xs ys : List Node} {lo mid hi : Nat} (hx : Within ts xs lo mid)
    (hy : Within ts ys mid hi) : Within ts (xs ++ ys) lo hi := by
  induction hx with
  | nil hle => exact hy.mono hle (Nat.le_refl _)
  | cons hla hc _ ih => exact .cons hla hc (ih hy)

lemma Within.singleton {n : Node} {lo a b hi : Nat} (hla : lo ≤ a) (hc : n.Covers ts a b)
    (hbh : b < hi) : Within ts [n] lo hi :=
  .cons hla hc (.nil hbh)

lemma Tiles.within {ns : List Node} {i j : Nat} (h : Tiles ts ns i j) : Within ts ns i j := by
  induction h with
  | nil i => exact .nil (Nat.le_refl i)
  | cons hc _ ih => exact .cons (Nat.le_refl _) hc ih

lemma Tiles.append {xs ys : List Node} {i k j : Nat} (hx : Tiles ts xs i k)
    (hy : Tiles ts ys k j) : Tiles ts (xs ++ ys) i j := by
  induction hx with
  | nil => exact hy
  | cons hc _ ih => exact .cons hc (ih hy)

/-! ### From token indices to spans -/

variable (hord : InTextOrder ts.toList)
include hord

/-- Nodes lying within the tokens a node covers lie inside its span. -/
lemma Within.inside {n : Node} {cs : List Node} {i b lo hi : Nat} (hn : n.Covers ts i b)
    (hcs : Within ts cs lo hi) :
    i ≤ lo → hi ≤ b + 1 → ∀ c ∈ cs, n.span.start ≤ c.span.start ∧ c.span.stop ≤ n.span.stop := by
  obtain ⟨-, ti, tb, hti, htb, hspan, -⟩ := hn
  induction hcs with
  | nil => simp
  | cons hla hc _ ih =>
    intro hlo hhi d hd
    obtain ⟨hab, ta, tb', hta, htb', hcspan, -⟩ := hc
    have hle := Within.le ‹_›
    rcases List.mem_cons.1 hd with rfl | hd
    · rw [hspan, hcspan]
      exact ⟨hord.start_le_start (by omega) hti hta, hord.stop_le_stop (by omega) htb' htb⟩
    · exact ih (by omega) hhi d hd

/-- Nodes lying one after another end before the next one starts. -/
lemma Within.isChain {cs : List Node} {lo hi : Nat} (h : Within ts cs lo hi) :
    cs.IsChain (fun c d => c.span.stop ≤ d.span.start) := by
  induction h with
  | nil => exact .nil
  | @cons c cs lo a b hi _ hc hrest ih =>
    cases hrest with
    | nil => exact .singleton c
    | @cons d ds _ a' b' _ hba' hd _ =>
      refine .cons_cons ?_ ih
      obtain ⟨-, _, tb, -, htb, hcspan, -⟩ := hc
      obtain ⟨-, ta', _, hta', -, hdspan, -⟩ := hd
      rw [hcspan, hdspan]
      exact hord.stop_le_start (by omega) htb hta'

omit hord in
lemma wellSpanned_iff {n : Node} :
    n.WellSpanned ts ↔ n.Aligned ts ∧ ∀ c ∈ n.children, c.WellSpanned ts := by
  unfold WellSpanned
  constructor
  · intro h
    exact ⟨h n (.self n), fun c hc d hd => h d (.child hc hd)⟩
  · rintro ⟨hn, hcs⟩ d hd
    cases hd with
    | self => exact hn
    | child hc hd => exact hcs _ hc d hd

/-- A node covering tokens `i` to `b`, whose children lie one after another in them and are
well spanned, is well spanned. -/
lemma wellSpanned_of_within {n : Node} {i b : Nat} (hn : n.Covers ts i b)
    (hcs : Within ts n.children i (b + 1)) (hw : ∀ c ∈ n.children, c.WellSpanned ts) :
    n.WellSpanned ts :=
  wellSpanned_iff.2
    ⟨⟨⟨i, b, hn⟩, hcs.inside hord hn (Nat.le_refl i) (Nat.le_refl _), .inl (hcs.isChain hord)⟩,
      hw⟩

omit hord in
/-- A node of no children that covers one token is well spanned. -/
lemma wellSpanned_of_children_eq_nil {n : Node} {a b : Nat} (hn : n.Covers ts a b)
    (hch : n.children = []) : n.WellSpanned ts :=
  wellSpanned_iff.2 ⟨⟨⟨a, b, hn⟩, by simp [hch], .inl (by simp [hch])⟩, by simp [hch]⟩

/-- A shorthand property, whose key stands as its value too, is well spanned when its key
is and lies in the tokens it covers. -/
lemma wellSpanned_shorthand {n k : Node} {i b : Nat} (hn : n.Covers ts i b)
    (hk : Within ts [k] i (b + 1)) (hkw : k.WellSpanned ts) (hch : n.children = [k, k])
    (hkind : n.kind = .property) (hflag : n.flag "shorthand" = true) : n.WellSpanned ts := by
  have hin := hk.inside hord hn (Nat.le_refl i) (Nat.le_refl _) k (List.mem_singleton_self k)
  refine wellSpanned_iff.2 ⟨⟨⟨i, b, hn⟩, ?_, .inr ⟨hkind, hflag, k, hch⟩⟩, ?_⟩
  · intro c hc
    rw [hch] at hc
    obtain rfl | rfl : c = k ∨ c = k := by simpa using hc
    all_goals exact hin
  · intro c hc
    rw [hch] at hc
    obtain rfl | rfl : c = k ∨ c = k := by simpa using hc
    all_goals exact hkw

end Node

namespace Field

variable {α : Type}

@[simp] lemma nodes_node (n : α) : (Field.node n).nodes = [n] := rfl
@[simp] lemma nodes_list (ns : List α) : (Field.list ns).nodes = ns := rfl
@[simp] lemma nodes_absent : (Field.absent : Field α).nodes = [] := rfl
@[simp] lemma nodes_flag (b : Bool) : (Field.flag b : Field α).nodes = [] := rfl
@[simp] lemma nodes_text (s : String) : (Field.text s : Field α).nodes = [] := rfl

@[simp] lemma nodes_ofOption (o : Option α) : (Field.ofOption o).nodes = o.toList := by
  cases o <;> rfl

end Field

/-! ## What a grammar function has read -/

namespace Parse

/-- The nodes `ns` were read from the tokens `i` up to `j` (excluded): they lie there one
after another, each is well spanned, and `j` does not pass the end of the tokens. -/
structure Read (ts : Array Token) (ns : List Node) (i j : Nat) : Prop where
  within : Node.Within ts ns i j
  wellSpanned : ∀ n ∈ ns, n.WellSpanned ts
  le_size : j ≤ ts.size

/-- The node `n` was read from exactly the tokens `i` up to `j` (excluded): it covers them
all, and is well spanned. -/
structure ReadAt (ts : Array Token) (n : Node) (i j : Nat) : Prop where
  lt : i < j
  covers : n.Covers ts i (j - 1)
  wellSpanned : n.WellSpanned ts

variable {ts : Array Token} {ns ns' : List Node} {n : Node} {i j k : Nat}

lemma Read.le (h : Read ts ns i j) : i ≤ j := h.within.le

lemma Read.nil (hij : i ≤ j) (hj : j ≤ ts.size) : Read ts [] i j :=
  ⟨.nil hij, by simp, hj⟩

lemma Read.append (h : Read ts ns i k) (h' : Read ts ns' k j) : Read ts (ns ++ ns') i j :=
  ⟨h.within.append h'.within, by simpa [or_imp, forall_and] using ⟨h.wellSpanned, h'.wellSpanned⟩,
    h'.le_size⟩

lemma Read.mono {i' j' : Nat} (h : Read ts ns i j) (hi : i' ≤ i) (hj : j ≤ j')
    (hj' : j' ≤ ts.size) : Read ts ns i' j' :=
  ⟨h.within.mono hi hj, h.wellSpanned, hj'⟩

lemma Read.mono_left {i' : Nat} (h : Read ts ns i j) (hi : i' ≤ i) : Read ts ns i' j :=
  h.mono hi (Nat.le_refl j) h.le_size

/-- Nodes read one after another, with tokens between them that make no node. -/
lemma Read.append_of_le {k' : Nat} (h : Read ts ns i k) (h' : Read ts ns' k' j) (hk : k ≤ k') :
    Read ts (ns ++ ns') i j :=
  h.append (h'.mono_left hk)

lemma Read.lt_of_cons (h : Read ts (n :: ns) i j) : i < j := by
  cases h.within with
  | cons hla hc hrest =>
    have := hc.1
    have := hrest.le
    omega

lemma ReadAt.read (h : ReadAt ts n i j) : Read ts [n] i j := by
  have hj : j - 1 < ts.size := by
    obtain ⟨-, -, tb, -, htb, -⟩ := h.covers
    exact (Array.getElem?_eq_some_iff.1 htb).1
  exact ⟨.singleton (Nat.le_refl i) h.covers (by have := h.lt; omega), by simpa using h.wellSpanned,
    by omega⟩

lemma ReadAt.tiles (h : ReadAt ts n i j) : Node.Tiles ts [n] i j := by
  have := h.lt
  exact .cons h.covers (by rw [show j - 1 + 1 = j by omega]; exact .nil j)

/-- A node made of one token, with no children, is read exactly from that token. -/
lemma readAt_token {t : Token} (ht : ts[i]? = some t) (hspan : n.span = t.span)
    (hloc : n.loc = t.loc) (hch : n.children = []) : ReadAt ts n i (i + 1) := by
  have hcov : n.Covers ts i i := ⟨Nat.le_refl i, t, t, ht, ht, hspan, hloc⟩
  exact ⟨Nat.lt_succ_self i, hcov, Node.wellSpanned_of_children_eq_nil hcov hch⟩

lemma readAt_identifierNode {t : Token} (ht : ts[i]? = some t) :
    ReadAt ts (identifierNode t) i (i + 1) :=
  readAt_token ht rfl rfl (by simp [identifierNode, Node.children])

lemma readAt_literalNode {t : Token} (ht : ts[i]? = some t) :
    ReadAt ts (literalNode t) i (i + 1) :=
  readAt_token ht rfl rfl (by simp [literalNode, Node.children])

/-! ## Markers and finished nodes -/

variable {c : ParseContext}

/-- `m` marks the token `i`, if there is one: it is where that token starts. -/
def MarkerAt (ts : Array Token) (m : Marker) (i : Nat) : Prop :=
  ∀ t, ts[i]? = some t → m = ⟨t.span.start, t.loc.start⟩

lemma holds_marker {Q : Marker → Nat → Prop} (h : ∀ m, MarkerAt c.tokens m i → Q m i) :
    Holds c marker i Q := by
  unfold marker
  simp only [holds_bind, holds_peek]
  cases ht : c.tokens[i]? with
  | none =>
    have hm : ∀ m, MarkerAt c.tokens m i := fun m t ht' => by simp [ht] at ht'
    simp only [endOfInput, holds_bind, holds_read]
    split <;> simp [h _ (hm _)]
  | some t =>
    refine holds_pure.2 (h _ fun t' ht' => ?_)
    rw [ht] at ht'
    cases ht'
    rfl

lemma Position.max_eq_left {a b : Position} (h : b.le a = true) : a.max b = a := by
  unfold Position.max
  split
  · exact (Position.le_antisymm ‹_› h).symm
  · rfl

/-- `finish`, run after reading the tokens `i` up to `j` (excluded) from a marker at token
`i`, builds a node with the given kind and fields that covers exactly those tokens. -/
lemma holds_finish {m : Marker} {kind : NodeKind} {fields : List (String × Field Node)}
    {Q : Node → Nat → Prop} (hc : InTextOrder c.tokens.toList) (hm : MarkerAt c.tokens m i)
    (hij : i < j) (hj : j ≤ c.tokens.size)
    (hQ : ∀ n : Node, n.kind = kind → n.fields = fields → n.Covers c.tokens i (j - 1) → Q n j) :
    Holds c (finish kind m fields) j Q := by
  obtain ⟨ti, hti⟩ : ∃ ti, c.tokens[i]? = some ti :=
    Option.isSome_iff_exists.1 (by simp [Array.getElem?_eq_getElem (show i < c.tokens.size by omega)])
  obtain ⟨tl, htl⟩ : ∃ tl, c.tokens[j - 1]? = some tl :=
    Option.isSome_iff_exists.1 (by simp [Array.getElem?_eq_getElem (show j - 1 < c.tokens.size by omega)])
  have hmi := hm ti hti
  subst hmi
  have hspan := hc.start_le_stop (show i ≤ j - 1 by omega) hti htl
  have hloc := hc.loc_start_le_stop (show i ≤ j - 1 by omega) hti htl
  unfold finish previous
  simp only [holds_bind, holds_get, holds_read, holds_pure, holds_ite]
  refine ⟨fun hj0 => absurd hj0 (by omega), fun _ => ?_⟩
  simp only [htl]
  refine hQ _ rfl rfl ⟨by omega, ti, tl, hti, htl, ?_, ?_⟩
  · simp only [Span.mk.injEq, true_and]
    omega
  · simp [Position.max_eq_left hloc]

/-- `finish` after reading the children of a node, one after another, from its marker on:
the node is read exactly from the marker's token up to the index where `finish` runs. -/
lemma holds_finish_read {m : Marker} {kind : NodeKind} {fields : List (String × Field Node)}
    {Q : Node → Nat → Prop} (hc : InTextOrder c.tokens.toList) (hm : MarkerAt c.tokens m i)
    (hij : i < j) (hch : Read c.tokens (fields.flatMap (·.2.nodes)) i j)
    (hQ : ∀ n, ReadAt c.tokens n i j → Q n j) : Holds c (finish kind m fields) j Q := by
  refine holds_finish hc hm hij hch.le_size fun n _ hfields hcov => hQ n ⟨hij, hcov, ?_⟩
  have hchildren : n.children = fields.flatMap (·.2.nodes) := by
    rw [Node.children, hfields]
  refine Node.wellSpanned_of_within hc hcov ?_ (hchildren ▸ hch.wellSpanned)
  rw [hchildren, show j - 1 + 1 = j by omega]
  exact hch.within

/-! ## Reading names and semicolons -/

/-- A name being bound is one identifier token. -/
lemma holds_bindingIdentifier {Q : Node → Nat → Prop}
    (h : ∀ n, ReadAt c.tokens n i (i + 1) → Q n (i + 1)) : Holds c bindingIdentifier i Q := by
  unfold bindingIdentifier
  simp only [holds_bind, holds_peek]
  cases ht : c.tokens[i]? with
  | none => simp
  | some t =>
    simp only [holds_ite, holds_bind, holds_skip, holds_pure, holds_failExpected]
    exact ⟨fun _ => h _ (readAt_identifierNode ht), fun _ => trivial⟩

/-- A property name after a dot is one token. -/
lemma holds_identifierName {Q : Node → Nat → Prop}
    (h : ∀ n, ReadAt c.tokens n i (i + 1) → Q n (i + 1)) : Holds c identifierName i Q := by
  unfold identifierName
  simp only [holds_bind, holds_peek]
  cases ht : c.tokens[i]? with
  | none => simp
  | some t =>
    simp only [holds_ite, holds_bind, holds_skip, holds_pure, holds_failExpected]
    exact ⟨fun _ => h _ (readAt_identifierNode ht), fun _ => trivial⟩

/-- The optional semicolon moves the index by at most one token, and not past the end. -/
lemma holds_consumeSemicolon_le {Q : Unit → Nat → Prop} (hi : i ≤ c.tokens.size)
    (h : ∀ k, i ≤ k → k ≤ c.tokens.size → Q () k) : Holds c consumeSemicolon i Q := by
  refine holds_consumeSemicolon (fun hsemi => h _ (by omega) ?_) (h _ (Nat.le_refl i) hi)
  have := lt_size_of_any hsemi
  omega

end Parse

end DotLint
