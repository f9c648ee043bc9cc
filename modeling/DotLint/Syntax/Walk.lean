import DotLint.Syntax.Node

/-!
# Walking a syntax tree

A walk enters the nodes of a tree in pre-order and lets a visitor decide, at each node,
whether to go on into its children, to leave them, or to stop the whole walk. Which
children a node has is decided by a `ChildKeys` table: for a kind with an entry, the
children are those stored under the entry's field names, name by name (a name listed twice
gives its children twice, a missing or non-node field gives none); for any other kind they
are all the node's children in field order.

The walk keeps a stack of the nodes still to enter, with the next one on top. It ends because
the total *weight* of the stack, where a node weighs one more than its children together,
goes down at every step.
-/

namespace DotLint

/-- What a walk does after entering a node. -/
inductive Control where
  /-- Go on into the node's children. -/
  | descend
  /-- Leave the node's children and go on with the rest. -/
  | skip
  /-- End the walk. -/
  | stop
deriving DecidableEq, Repr

/-- A table from node kinds to the names of the fields whose children a walk enters. -/
structure ChildKeys where
  entries : List (NodeKind × List String)

namespace ChildKeys

/-- The table with no entries: every node's children are all its children. -/
def empty : ChildKeys := ⟨[]⟩

/-- The table with the entry for `kind` set to `names`, replacing any earlier one. -/
def insert (t : ChildKeys) (kind : NodeKind) (names : List String) : ChildKeys :=
  ⟨(kind, names) :: t.entries.filter (·.1 != kind)⟩

/-- The table that a walk uses unless told otherwise: array literals enter their elements
and object literals their properties. -/
def standard : ChildKeys :=
  (empty.insert .arrayExpression ["elements"]).insert .objectExpression ["properties"]

/-- The field names of the entry for `kind`, if there is one. -/
def keys? (t : ChildKeys) (kind : NodeKind) : Option (List String) :=
  (t.entries.find? (·.1 == kind)).map (·.2)

/-- The children of `n` that a walk enters, in order. -/
def children (t : ChildKeys) (n : Node) : List Node :=
  match t.keys? n.kind with
  | some names => names.flatMap n.nodesOf
  | none => n.children

/-- The children that a table gives are smaller than their parent. -/
theorem sizeOf_lt_of_mem_children {t : ChildKeys} {n c : Node} (h : c ∈ t.children n) :
    sizeOf c < sizeOf n := by
  unfold children at h
  split at h
  · obtain ⟨name, _, hc⟩ := List.mem_flatMap.1 h
    exact Node.sizeOf_lt_of_mem_nodesOf hc
  · exact Node.sizeOf_lt_of_mem_children h

/-- The number of times a walk that always goes on enters a node of `n`'s subtree. -/
def weight (t : ChildKeys) (n : Node) : Nat :=
  1 + ((t.children n).attach.map fun c => t.weight c.1).foldr (· + ·) 0
termination_by sizeOf n
decreasing_by exact sizeOf_lt_of_mem_children c.2

/-- A node weighs one more than its children together. -/
theorem weight_eq (t : ChildKeys) (n : Node) :
    t.weight n = 1 + ((t.children n).map t.weight).foldr (· + ·) 0 := by
  rw [weight]
  simp

/-- Adding up from `a` is adding up from zero, then `a`. -/
theorem foldr_add (l : List Nat) (a : Nat) : l.foldr (· + ·) a = l.foldr (· + ·) 0 + a := by
  induction l with
  | nil => simp
  | cons x l ih =>
    simp only [List.foldr_cons, ih]
    omega

/-- Enters the nodes of the stack `pending` (top first) in pre-order, threading the
visitor's state; says at the end whether the visitor stopped the walk. -/
def walkFrom {σ : Type} (t : ChildKeys) (visit : σ → Node → σ × Control) :
    List Node → σ → σ × Bool
  | [], s => (s, false)
  | n :: rest, s =>
    match visit s n with
    | (s', .stop) => (s', true)
    | (s', .skip) => t.walkFrom visit rest s'
    | (s', .descend) => t.walkFrom visit (t.children n ++ rest) s'
termination_by pending => (pending.map t.weight).foldr (· + ·) 0
decreasing_by
  all_goals simp only [List.map_cons, List.foldr_cons, List.map_append, List.foldr_append]
  · have := t.weight_eq n
    omega
  · have := t.weight_eq n
    have := foldr_add ((t.children n).map t.weight) ((rest.map t.weight).foldr (· + ·) 0)
    omega

/-- Walks the tree under `root` in pre-order from the state `s`; says at the end whether
the visitor stopped the walk. -/
def walk {σ : Type} (t : ChildKeys) (root : Node) (visit : σ → Node → σ × Control) (s : σ) :
    σ × Bool :=
  t.walkFrom visit [root] s

end ChildKeys

/-- The nodes of the tree under `n` in pre-order, by the standard child keys. -/
def Node.preorder (n : Node) : List Node :=
  (ChildKeys.standard.walk n (fun acc m => (acc.push m, .descend)) #[]).1.toList

end DotLint
