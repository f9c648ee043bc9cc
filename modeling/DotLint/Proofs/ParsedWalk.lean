import Mathlib
import DotLint.Proofs.ParsedTree

/-!
# Walking a parsed tree

A walk by the standard child keys over a tree that the parser built, with a visitor that
always descends, enters every node occurrence of the tree once and in source order:

* the table with no entries gives every node all of its children, so its walk order
  `ChildKeys.empty.order` is the recursive pre-order over `Node.children`; it lists
  `Node.count` nodes, the key and the value of a shorthand property each once
  (`ChildKeys.length_empty_order`);
* on a parsed tree the entries of the standard table, for array and object literals, change
  nothing (`Node.Facts.standard_order_eq`);
* over tokens in text order, every node of a well-spanned tree starts no earlier than the
  nodes entered before it (`Node.WellSpanned.order_starts_sorted`).
-/

namespace DotLint

namespace Node

/-- The number of node occurrences in the tree of `n`, counted through all children: the key
and the value of a shorthand property count once each. -/
def count (n : Node) : Nat := 1 + (n.children.attach.map fun c => c.1.count).sum
termination_by sizeOf n
decreasing_by exact sizeOf_lt_of_mem_children c.2

lemma count_eq (n : Node) : n.count = 1 + (n.children.map count).sum := by
  rw [count]
  simp

end Node

namespace ChildKeys

@[simp] lemma empty_children (n : Node) : empty.children n = n.children := by
  simp [children, keys?, empty]

lemma empty_order_eq (n : Node) : empty.order n = n :: n.children.flatMap empty.order := by
  rw [order_eq, empty_children]

/-- The pre-order over all children lists each node occurrence once. -/
lemma length_empty_order (n : Node) : (empty.order n).length = n.count := by
  induction n using order.induct empty with
  | case1 n ih =>
    have hsum : (n.children.map fun c => (empty.order c).length) = n.children.map Node.count :=
      List.map_congr_left fun c hc => ih ⟨c, by simpa using hc⟩
    rw [empty_order_eq, Node.count_eq, List.length_cons, List.length_flatMap, hsum]
    omega

end ChildKeys

namespace Node

variable {ts : Array Token}

/-- In a tree with the dot facts, the standard child keys give the recursive pre-order over
all children: array and object literals hold no nodes beside their elements and
properties. -/
lemma Facts.standard_order_eq {n : Node} (h : n.Facts ts) :
    ChildKeys.standard.order n = ChildKeys.empty.order n := by
  induction n using ChildKeys.order.induct ChildKeys.empty with
  | case1 n ih =>
    rw [h.order_eq, ChildKeys.empty_order_eq, List.flatMap_congr fun c hc =>
      ih ⟨c, by simpa using hc⟩ (h.of_inTree (.child hc (.self c)))]

/-- Over tokens in text order, every node of a well-spanned tree takes at least one byte. -/
lemma WellSpanned.start_lt_stop (hord : InTextOrder ts.toList) {n d : Node}
    (hw : n.WellSpanned ts) (hd : d.InTree n) : d.span.start < d.span.stop := by
  obtain ⟨a, b, hcov⟩ := (hw d hd).covers
  exact hcov.start_lt_stop hord

/-- The children of a node with the dot facts whose own trees are entered one after
another: each child's tree ends no later than the next child starts, or the node is a
shorthand property, whose key and value are one name with no children. -/
lemma children_pairwise_order (hord : InTextOrder ts.toList) {n : Node}
    (hw : n.WellSpanned ts) (hf : n.Facts ts) :
    n.children.Pairwise fun c c' => ∀ x ∈ ChildKeys.empty.order c,
      ∀ y ∈ ChildKeys.empty.order c', x.span.start ≤ y.span.start := by
  rcases (hw n (.self n)).inOrder with hchain | ⟨hkind, hshort, -⟩
  · -- children in a chain: a node of an earlier child's tree ends before a later child starts
    have hne : ∀ c ∈ n.children, c.span.start < c.span.stop := fun c hc =>
      hw.start_lt_stop hord (.child hc (.self c))
    refine (pairwise_of_isChain hchain hne).imp_of_mem fun {c c'} hc hc' hcc' x hx y hy => ?_
    have hwc := hw.of_inTree (.child hc (.self c))
    have hwc' := hw.of_inTree (.child hc' (.self c'))
    have hxc := inTree_of_mem_order hx
    have hx1 := hwc.start_lt_stop hord hxc
    have hx2 := (hwc.inside hxc).2
    have hy := (hwc'.inside (inTree_of_mem_order hy)).1
    omega
  · -- a shorthand property: its two children are one leaf
    obtain ⟨t, ht⟩ := (hf n (.self n)).2.2 hkind hshort
    have hleaf : ChildKeys.empty.order (Parse.identifierNode t) = [Parse.identifierNode t] := by
      rw [ChildKeys.empty_order_eq]
      simp [Parse.identifierNode, Node.children, Field.nodes]
    rw [ht]
    simp [hleaf]

/-- Over tokens in text order, the nodes of a well-spanned tree with the dot facts start, in
pre-order over all children, no earlier than the nodes entered before them. -/
lemma WellSpanned.order_starts_sorted (hord : InTextOrder ts.toList) {n : Node}
    (hw : n.WellSpanned ts) (hf : n.Facts ts) :
    (ChildKeys.empty.order n).Pairwise fun a b => a.span.start ≤ b.span.start := by
  induction n using ChildKeys.order.induct ChildKeys.empty with
  | case1 n ih =>
    rw [ChildKeys.empty_order_eq, List.pairwise_cons, List.pairwise_flatMap]
    refine ⟨fun d hd => ?_, fun c hc => ?_, children_pairwise_order hord hw hf⟩
    · -- every node of the tree starts no earlier than its root
      have hmem : d ∈ ChildKeys.empty.order n := by
        rw [ChildKeys.empty_order_eq]
        exact List.mem_cons_of_mem n hd
      exact (hw.inside (inTree_of_mem_order hmem)).1
    · exact ih ⟨c, by simpa using hc⟩ (hw.of_inTree (.child hc (.self c)))
        (hf.of_inTree (.child hc (.self c)))

end Node

/-- A source that parses has tokens, and the tree is their parse. -/
lemma parseSource_eq_ok {source : String} {root : Node} (h : parseSource source = .ok root) :
    ∃ ts, tokenize source = .ok ts ∧ parse ts = .ok root := by
  unfold parseSource at h
  split at h
  · cases h
  · rename_i ts hts
    split at h
    · cases h
    · rename_i n hn
      cases h
      exact ⟨ts, hts, hn⟩

/-- A walk by the standard child keys over a parsed tree, with a visitor that always
descends, enters each node occurrence of the tree once, in the recursive pre-order over all
children: it folds the visitor over that order and is never stopped. The order lists
`Node.count` nodes, exactly the nodes of the tree, and their spans start in source order. -/
theorem walk_enters_parsed_tree {source : String} {root : Node}
    (hp : parseSource source = .ok root) {σ : Type} (g : σ → Node → σ) (s : σ) :
    ChildKeys.standard.walk root (fun s n => (g s n, .descend)) s =
      ((ChildKeys.empty.order root).foldl g s, false) ∧
    (ChildKeys.empty.order root).length = root.count ∧
    (∀ d, d ∈ ChildKeys.empty.order root ↔ d.InTree root) ∧
    ((ChildKeys.empty.order root).map (·.span.start)).Pairwise (· ≤ ·) := by
  obtain ⟨ts, hts, hparse⟩ := parseSource_eq_ok hp
  have hord := tokenize_inTextOrder hts
  have hf := parse_facts hord hparse
  have horder := hf.standard_order_eq
  refine ⟨?_, ChildKeys.length_empty_order root, fun d => horder ▸ hf.mem_order_iff, ?_⟩
  · rw [ChildKeys.walk_descending, horder]
  · rw [List.pairwise_map]
    rcases Nat.eq_zero_or_pos ts.size with h0 | hpos
    · -- no tokens: the tree is the empty program
      rw [ChildKeys.empty_order_eq, parse_children_eq_nil hord hparse h0]
      simp
    · exact (parse_wellSpanned hord hparse hpos).order_starts_sorted hord hf

/-- The tokens of a parenthesised object literal with one shorthand property. -/
lemma tokenize_shorthand_object :
    tokenize "(\x7ba\x7d)" = .ok #[⟨.punctuator, "(", ⟨0, 1⟩, ⟨⟨1, 1⟩, ⟨1, 2⟩⟩⟩,
      ⟨.punctuator, Parse.openBrace, ⟨1, 2⟩, ⟨⟨1, 2⟩, ⟨1, 3⟩⟩⟩,
      ⟨.identifier, "a", ⟨2, 3⟩, ⟨⟨1, 3⟩, ⟨1, 4⟩⟩⟩,
      ⟨.punctuator, Parse.closeBrace, ⟨3, 4⟩, ⟨⟨1, 4⟩, ⟨1, 5⟩⟩⟩,
      ⟨.punctuator, ")", ⟨4, 5⟩, ⟨⟨1, 5⟩, ⟨1, 6⟩⟩⟩] := by
  simp +decide [tokenize, lexFrom, Lexeme.scan, Lexical.isWordStart, Lexical.isWordPart,
    Lexical.wordKind, Position.advance, Position.step, Lexical.punctuatorLength,
    Lexical.punctuators, Char.utf8Size, Parse.openBrace, Parse.closeBrace]

set_option maxRecDepth 2000 in
/-- The walk over a shorthand property enters its key and its value, one name, apart: six
nodes in all. -/
theorem walk_enters_shorthand_object :
    let key : Node := Parse.identifierNode ⟨.identifier, "a", ⟨2, 3⟩, ⟨⟨1, 3⟩, ⟨1, 4⟩⟩⟩
    let prop : Node := ⟨.property, ⟨2, 3⟩, ⟨⟨1, 3⟩, ⟨1, 4⟩⟩,
      [("key", .node key), ("value", .node key), ("kind", .text "init"), ("method", .flag false),
        ("shorthand", .flag true), ("computed", .flag false)]⟩
    let obj : Node := ⟨.objectExpression, ⟨1, 4⟩, ⟨⟨1, 2⟩, ⟨1, 5⟩⟩, [("properties", .list [prop])]⟩
    let root : Node := ⟨.program, ⟨0, 5⟩, ⟨⟨1, 1⟩, ⟨1, 6⟩⟩, [("body", .list
      [⟨.expressionStatement, ⟨0, 5⟩, ⟨⟨1, 1⟩, ⟨1, 6⟩⟩, [("expression", .node obj)]⟩])]⟩
    let g : List NodeKind → Node → List NodeKind := fun acc n => acc ++ [n.kind]
    parseSource "(\x7ba\x7d)" = .ok root ∧
      (ChildKeys.standard.walk root (fun s n => (g s n, .descend)) [] =
        ((ChildKeys.empty.order root).foldl g [], false) ∧
      (ChildKeys.empty.order root).length = root.count ∧
      (∀ d, d ∈ ChildKeys.empty.order root ↔ d.InTree root) ∧
      ((ChildKeys.empty.order root).map (·.span.start)).Pairwise (· ≤ ·)) := by
  intro key prop obj root g
  have hp : parseSource "(\x7ba\x7d)" = .ok root := by
    rw [parseSource, tokenize_shorthand_object]
    rfl
  exact ⟨hp, walk_enters_parsed_tree hp g []⟩

end DotLint
