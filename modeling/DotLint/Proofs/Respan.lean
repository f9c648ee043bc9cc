import Mathlib.Tactic.Lemma
import DotLint.Proofs.NodeSpans

/-!
# Moving a tree onto other tokens

`Node.respan g` rewrites the span and location of every node of a tree by `g` and keeps
everything else: kinds, field names, flags, texts and the shape of the tree. Two instances
matter:

* `Node.erase` forgets every span and location, so that two trees are *equal except for
  spans and locations* when their erasures are equal;
* `respanBy ts ts'` moves a tree aligned to the tokens `ts` onto the tokens `ts'`: a node
  that spans from the `x`-th to the `y`-th token of `ts` goes to the `x`-th to the `y`-th
  token of `ts'`.

Every accessor of a node commutes with `respan`, so facts about the children, fields and
flags of a tree carry over to the tree it is moved to.
-/

namespace DotLint

namespace Node

section Respan

variable (g : Span → Location → Span × Location)

mutual
/-- The tree with the span and location of every node rewritten by `g`. -/
def respan : Node → Node
  | ⟨k, sp, loc, fields⟩ => ⟨k, (g sp loc).1, (g sp loc).2, respanFields fields⟩
/-- `respan` on the nodes of each field. -/
def respanFields : List (String × Field Node) → List (String × Field Node)
  | [] => []
  | (name, f) :: rest => (name, respanField f) :: respanFields rest
/-- `respan` on the nodes of one field. -/
def respanField : Field Node → Field Node
  | .node n => .node (respan n)
  | .list ns => .list (respanList ns)
  | .absent => .absent
  | .flag b => .flag b
  | .text s => .text s
/-- `respan` on each node of a list. -/
def respanList : List Node → List Node
  | [] => []
  | n :: ns => respan n :: respanList ns
end

variable {g} {n : Node}

@[simp] lemma respan_kind : (respan g n).kind = n.kind := by
  cases n; rfl

@[simp] lemma respan_span : (respan g n).span = (g n.span n.loc).1 := by
  cases n; rfl

@[simp] lemma respan_loc : (respan g n).loc = (g n.span n.loc).2 := by
  cases n; rfl

lemma respan_fields : (respan g n).fields = respanFields g n.fields := by
  cases n; rfl

@[simp] lemma respanList_eq (ns : List Node) : respanList g ns = ns.map (respan g) := by
  induction ns with
  | nil => rfl
  | cons n ns ih => simp [respanList, ih]

@[simp] lemma respanFields_eq (fs : List (String × Field Node)) :
    respanFields g fs = fs.map fun p => (p.1, respanField g p.2) := by
  induction fs with
  | nil => rfl
  | cons p fs ih => obtain ⟨name, f⟩ := p; simp [respanFields, ih]

@[simp] lemma nodes_respanField (f : Field Node) :
    (respanField g f).nodes = f.nodes.map (respan g) := by
  cases f <;> simp [respanField, Field.nodes]

@[simp] lemma respanField_node (d : Node) : respanField g (.node d) = .node (respan g d) := rfl

@[simp] lemma respanField_list (ds : List Node) :
    respanField g (.list ds) = .list (ds.map (respan g)) := by
  simp [respanField]

@[simp] lemma respanField_flag (b : Bool) : respanField g (.flag b) = .flag b := rfl

@[simp] lemma respanField_text (s : String) : respanField g (.text s) = .text s := rfl

@[simp] lemma respanField_absent : respanField g .absent = .absent := rfl

@[simp] lemma respanField_ofOption (o : Option Node) :
    respanField g (Field.ofOption o) = Field.ofOption (o.map (respan g)) := by
  cases o <;> rfl

@[simp] lemma children_respan : (respan g n).children = n.children.map (respan g) := by
  simp [children, respan_fields, List.map_flatMap, List.flatMap_map]

@[simp] lemma field?_respan (name : String) :
    (respan g n).field? name = (n.field? name).map (respanField g) := by
  simp only [field?, respan_fields, respanFields_eq, List.find?_map, Function.comp_def,
    Option.map_map]

@[simp] lemma child?_respan (name : String) :
    (respan g n).child? name = (n.child? name).map (respan g) := by
  unfold child?
  rw [field?_respan]
  cases n.field? name with
  | none => rfl
  | some f => cases f <;> rfl

@[simp] lemma flag_respan (name : String) : (respan g n).flag name = n.flag name := by
  unfold flag
  rw [field?_respan]
  cases n.field? name with
  | none => rfl
  | some f => cases f <;> rfl

@[simp] lemma text?_respan (name : String) : (respan g n).text? name = n.text? name := by
  unfold text?
  rw [field?_respan]
  cases n.field? name with
  | none => rfl
  | some f => cases f <;> rfl

@[simp] lemma name?_respan : (respan g n).name? = n.name? := by
  simp [name?]

@[simp] lemma list_respan (name : String) :
    (respan g n).list name = (n.list name).map (respan g) := by
  unfold list
  rw [field?_respan]
  cases n.field? name with
  | none => rfl
  | some f => cases f <;> simp [respanField]

@[simp] lemma nodesOf_respan (name : String) :
    (respan g n).nodesOf name = (n.nodesOf name).map (respan g) := by
  unfold nodesOf
  rw [field?_respan]
  cases n.field? name <;> simp

/-- Rewriting twice is rewriting once by the composite. -/
lemma respan_respan (g' : Span → Location → Span × Location) (n : Node) :
    respan g' (respan g n) = respan (fun sp loc => g' (g sp loc).1 (g sp loc).2) n := by
  obtain ⟨k, sp, loc, fields⟩ := n
  simp only [respan, respanFields_eq, List.map_map, Node.mk.injEq, true_and]
  refine List.map_congr_left fun p hp => ?_
  obtain ⟨name, f⟩ := p
  have hlt : ∀ d ∈ f.nodes, sizeOf d < sizeOf (Node.mk k sp loc fields) := fun d hd =>
    sizeOf_lt_of_mem_field (n := ⟨k, sp, loc, fields⟩) hp hd
  cases f with
  | node d =>
    have := respan_respan g' d
    simp [this]
  | list ds =>
    simp only [Function.comp_apply, respanField_list, List.map_map, Prod.mk.injEq, true_and,
      Field.list.injEq]
    exact List.map_congr_left fun d _ => respan_respan g' d
  | absent => rfl
  | flag b => rfl
  | text s => rfl
termination_by sizeOf n
decreasing_by
  · exact hlt d (by simp [Field.nodes])
  · exact hlt d (by simpa [Field.nodes])

end Respan

/-- The tree with every span and location forgotten. -/
def erase (n : Node) : Node := n.respan fun _ _ => (⟨0, 0⟩, {})

/-- Moving a tree changes nothing but spans and locations. -/
@[simp] lemma erase_respan (g : Span → Location → Span × Location) (n : Node) :
    (n.respan g).erase = n.erase := by
  unfold erase
  rw [respan_respan]

end Node

/-- Where a span over the tokens `ts` lies over the tokens `ts'`: from the start of the
`x`-th token of `ts` to the end of its `y`-th goes to the same tokens of `ts'`; any other
span, and a span past the end of `ts'`, stays. -/
def respanBy (ts ts' : Array Token) (sp : Span) (loc : Location) : Span × Location :=
  match ts.findIdx? (·.span.start == sp.start), ts.findIdx? (·.span.stop == sp.stop) with
  | some x, some y =>
    match ts'[x]?, ts'[y]? with
    | some a, some b => (⟨a.span.start, b.span.stop⟩, ⟨a.loc.start, b.loc.stop⟩)
    | _, _ => (sp, loc)
  | _, _ => (sp, loc)

namespace InTextOrder

variable {ts : Array Token} {x y : Nat} {a b : Token}

/-- In an ordered array the token that starts at a token's start is that token. -/
lemma findIdx?_start (h : InTextOrder ts.toList) (ha : ts[x]? = some a) :
    ts.findIdx? (·.span.start == a.span.start) = some x := by
  obtain ⟨hx, rfl⟩ := Array.getElem?_eq_some_iff.1 ha
  refine Array.findIdx?_eq_some_iff_getElem.2 ⟨hx, by simp, fun j hj => ?_⟩
  have hlt := h.stop_le_start hj (Array.getElem?_eq_getElem (by omega)) ha
  have hne := (h.nonempty_of_getElem? (Array.getElem?_eq_getElem (by omega : j < ts.size))).1
  simp only [beq_iff_eq]
  omega

/-- In an ordered array the token that ends at a token's end is that token. -/
lemma findIdx?_stop (h : InTextOrder ts.toList) (hb : ts[y]? = some b) :
    ts.findIdx? (·.span.stop == b.span.stop) = some y := by
  obtain ⟨hy, rfl⟩ := Array.getElem?_eq_some_iff.1 hb
  refine Array.findIdx?_eq_some_iff_getElem.2 ⟨hy, by simp, fun j hj => ?_⟩
  have hlt := h.stop_le_start hj (Array.getElem?_eq_getElem (by omega)) hb
  have hne := (h.nonempty_of_getElem? hb).1
  simp only [beq_iff_eq]
  omega

/-- A span from the `x`-th to the `y`-th token of an ordered array goes to the `x`-th to
the `y`-th token of the other array. -/
lemma respanBy_tokens {ts' : Array Token} {a' b' : Token} {loc : Location}
    (h : InTextOrder ts.toList) (ha : ts[x]? = some a) (hb : ts[y]? = some b)
    (ha' : ts'[x]? = some a') (hb' : ts'[y]? = some b') :
    respanBy ts ts' ⟨a.span.start, b.span.stop⟩ loc =
      (⟨a'.span.start, b'.span.stop⟩, ⟨a'.loc.start, b'.loc.stop⟩) := by
  simp [respanBy, h.findIdx?_start ha, h.findIdx?_stop hb, ha', hb']

end InTextOrder

end DotLint
