import Mathlib.Tactic.Lemma
import DotLint.Proofs.ParseMovedExpressions
import DotLint.Proofs.ProgramSpans

/-!
# What every parsed tree satisfies

The trees `parse` builds from tokens in text order, seen from the walks and the spans:

* every node has the dot facts (`parse_facts`): the parse of moved tokens, with nothing
  moved. Among them, the standard child keys give every node all of its children, so a walk
  by them enters exactly the nodes of the tree (`Node.Facts.mem_order_iff`), in the recursive
  pre-order over all children (`Node.Facts.order_eq`);
* over some tokens every node is aligned to them (`parse_wellSpanned`): its span runs from a
  first to a last token and holds its children one after another; over none the tree is
  the empty program (`parse_children_eq_nil`).
-/

namespace DotLint

namespace Node

/-- A node stored as the single child under a name is one of the node's children. -/
lemma mem_children_of_child? {n c : Node} {name : String} (h : n.child? name = some c) :
    c ∈ n.children := by
  unfold child? at h
  split at h
  · rename_i hf
    cases h
    unfold field? at hf
    obtain ⟨p, hp, hpc⟩ := Option.map_eq_some_iff.1 hf
    exact List.mem_flatMap.2 ⟨p, List.mem_of_find?_eq_some hp, by simp [hpc]⟩
  · cases h

/-- A node of the tree of a node of the tree of `n` is a node of the tree of `n`. -/
lemma InTree.trans {d c n : Node} (hdc : d.InTree c) (hcn : c.InTree n) : d.InTree n := by
  induction hcn with
  | self => exact hdc
  | child hmem _ ih => exact .child hmem ih

variable {ts : Array Token}

lemma WellSpanned.of_inTree {d n : Node} (h : n.WellSpanned ts) (hd : d.InTree n) :
    d.WellSpanned ts :=
  fun e he => h e (he.trans hd)

lemma WellSpanned.of_child? {n c : Node} {name : String} (h : n.WellSpanned ts)
    (hc : n.child? name = some c) : c.WellSpanned ts :=
  h.of_inTree (.child (mem_children_of_child? hc) (.self c))

/-- Every node of the tree of a well-spanned node lies inside its span. -/
lemma WellSpanned.inside {d n : Node} (h : n.WellSpanned ts) (hd : d.InTree n) :
    n.span.start ≤ d.span.start ∧ d.span.stop ≤ n.span.stop := by
  induction hd with
  | self => exact ⟨Nat.le_refl _, Nat.le_refl _⟩
  | @child c n hmem _ ih =>
    -- `c` lies inside `n`, and `d` inside `c`
    have hc := (h n (.self n)).inside c hmem
    have hd := ih (h.of_inTree (.child hmem (.self c)))
    omega

/-- A node over tokens in text order takes at least one byte. -/
lemma Covers.start_lt_stop {n : Node} {a b : Nat} (hord : InTextOrder ts.toList)
    (h : n.Covers ts a b) : n.span.start < n.span.stop := by
  obtain ⟨hab, ta, tb, hta, htb, hspan, -⟩ := h
  have h1 := (hord.nonempty_of_getElem? hta).1
  have h2 := hord.stop_le_stop hab hta htb
  rw [hspan]
  exact Nat.lt_of_lt_of_le h1 h2

lemma Facts.of_inTree {d n : Node} (h : n.Facts ts) (hd : d.InTree n) : d.Facts ts :=
  fun e he => h e (he.trans hd)

/-- In a tree with the dot facts, a walk by the standard child keys enters a node and then
the nodes entered from each of its children. -/
lemma Facts.order_eq {n : Node} (h : n.Facts ts) :
    ChildKeys.standard.order n = n :: n.children.flatMap ChildKeys.standard.order := by
  rw [ChildKeys.order_eq, (h n (.self n)).1]

/-- A walk by any table enters only nodes of the tree. -/
lemma inTree_of_mem_order {t : ChildKeys} {n d : Node} (h : d ∈ t.order n) : d.InTree n := by
  induction n using ChildKeys.order.induct t with
  | case1 n ih =>
    rw [ChildKeys.order_eq] at h
    rcases List.mem_cons.1 h with rfl | h
    · exact .self d
    · obtain ⟨c, hc, hd⟩ := List.mem_flatMap.1 h
      exact .child (ChildKeys.mem_children_of_mem hc) (ih ⟨c, hc⟩ hd)

/-- A walk by the standard child keys enters exactly the nodes of a tree with the dot
facts. -/
lemma Facts.mem_order_iff {n d : Node} (h : n.Facts ts) :
    d ∈ ChildKeys.standard.order n ↔ d.InTree n := by
  refine ⟨inTree_of_mem_order, fun hd => ?_⟩
  induction hd with
  | self =>
    rw [ChildKeys.order_eq]
    exact List.mem_cons_self
  | @child c n hmem _ ih =>
    rw [h.order_eq]
    exact List.mem_cons_of_mem _
      (List.mem_flatMap.2 ⟨c, hmem, ih (h.of_inTree (.child hmem (.self c)))⟩)

end Node

/-- Nodes that each take some bytes and end before the next one starts come pairwise in
order. -/
lemma pairwise_of_isChain {cs : List Node}
    (hc : cs.IsChain fun c d => c.span.stop ≤ d.span.start)
    (hne : ∀ c ∈ cs, c.span.start < c.span.stop) :
    cs.Pairwise fun c d => c.span.stop ≤ d.span.start := by
  induction hc with
  | nil => exact .nil
  | singleton a => exact List.pairwise_singleton _ a
  | @cons_cons a b l hab hbl ih =>
    have ih := ih fun c hc => hne c (List.mem_cons_of_mem a hc)
    refine List.Pairwise.cons (fun x hx => ?_) ih
    rcases List.mem_cons.1 hx with rfl | hx
    · exact hab
    · -- `b` takes some bytes and ends before `x` starts
      have hb := hne b (by simp)
      have hbx := List.rel_of_pairwise_cons ih hx
      omega

namespace Parse

/-- Tokens in text order cannot be told apart from themselves. -/
lemma TokensAgree.refl {ts : Array Token} (h : InTextOrder ts.toList) : TokensAgree ts ts :=
  ⟨h, h, fun _ => rfl, fun _ hne => absurd rfl hne⟩

end Parse

variable {ts : Array Token} {root : Node}

/-- Every node of a tree parsed from tokens in text order has the dot facts. -/
lemma parse_facts (hord : InTextOrder ts.toList) (hp : parse ts = .ok root) : root.Facts ts :=
  (parse_moved (Parse.TokensAgree.refl hord) hp).2

/-- The statements of a parsed program are its children; they tile the tokens and are well
spanned. -/
lemma parse_statements (hord : InTextOrder ts.toList) (hp : parse ts = .ok root) :
    Node.Tiles ts root.children 0 ts.size ∧ ∀ s ∈ root.children, s.WellSpanned ts := by
  obtain ⟨body, j, hrun, -, hfields, -⟩ := parse_eq_program hp
  obtain ⟨ss, hss, htiles, hw⟩ : ∃ ss, body.toList = [] ++ ss ∧ Node.Tiles ts ss 0 ts.size ∧
      ∀ s ∈ ss, s.WellSpanned ts :=
    Parse.programBody_tiles (c := ⟨ts, matchBrackets ts, true, 0⟩) hord _ #[] (Nat.zero_le _)
      body j hrun
  have hchildren : root.children = ss := by simp [Node.children, hfields, hss]
  exact hchildren ▸ ⟨htiles, hw⟩

/-- Over some tokens in text order, every node of the parsed tree is aligned to them. -/
lemma parse_wellSpanned (hord : InTextOrder ts.toList) (hp : parse ts = .ok root)
    (hpos : 0 < ts.size) : root.WellSpanned ts := by
  obtain ⟨htiles, hw⟩ := parse_statements hord hp
  obtain ⟨-, -, -, -, -, hspan, -⟩ := parse_eq_program hp
  -- the program runs from the first token to the last
  have h0 : ts[0]? = some ts[0] := Array.getElem?_eq_getElem hpos
  have hb : ts[ts.size - 1]? = some ts[ts.size - 1] := Array.getElem?_eq_getElem (by omega)
  obtain ⟨hs, hl⟩ := hspan _ _ h0 (by rw [Array.back?_eq_getElem?]; exact hb)
  have hcovers : root.Covers ts 0 (ts.size - 1) := ⟨Nat.zero_le _, _, _, h0, hb, hs, hl⟩
  have hwithin : Node.Within ts root.children 0 (ts.size - 1 + 1) := by
    rw [Nat.sub_add_cancel hpos]
    exact htiles.within
  exact Node.wellSpanned_of_within hord hcovers hwithin hw

/-- Over no tokens, the parsed tree is the empty program. -/
lemma parse_children_eq_nil (hord : InTextOrder ts.toList) (hp : parse ts = .ok root)
    (h0 : ts.size = 0) : root.children = [] :=
  (parse_statements hord hp).1.eq_nil (by omega)

end DotLint
