import Mathlib.Tactic.Lemma
import DotLint.Syntax.Walk

/-!
# The stack walk is the recursive pre-order

`ChildKeys.walk` keeps a stack of the nodes still to enter. This module defines the walk
the way it is usually described, by recursion on the tree, and proves the two the same:

* `ChildKeys.visit` enters a node; on `stop` it ends everything, on `skip` it does nothing
  more for the node, and on `descend` it visits the node's children in order
  (`ChildKeys.visitAll`), ending as soon as one of their visits is stopped. A `Visit` records
  the calls made to the visitor, each with the state it was given, the state at the end, and
  whether the visitor stopped.
* `walkFrom_visit` is the stack invariant: walking a stack whose top is a node first visits
  that node recursively, and goes on with the rest of the stack only if it was not stopped.
* `walk_refines_visit`: a walk makes the same calls as the recursive pre-order, in the same
  order and with the same states (observed through a visitor that logs its calls), ends in
  the same state, and reports a stop exactly when one of those calls asked for one.

The table of child keys is arbitrary throughout: any entries, names listed twice, missing
or non-node fields.
-/

namespace DotLint

namespace ChildKeys

/-- What a recursive visit leaves: the calls made to the visitor, in order, each with the
state it was given; the state at the end; and whether the visitor stopped the visit. -/
structure Visit (σ : Type) where
  calls : List (σ × Node)
  state : σ
  stopped : Bool

variable {σ : Type}

/-- Every node weighs at least one. -/
lemma one_le_weight (t : ChildKeys) (n : Node) : 1 ≤ t.weight n := by
  rw [weight_eq]
  omega

mutual

/-- The recursive pre-order from `n` in the state `s`: enter `n`, then, if the visitor says
to descend, visit its children in order. -/
def visit (t : ChildKeys) (f : σ → Node → σ × Control) (n : Node) (s : σ) : Visit σ :=
  match f s n with
  | (s', .stop) => ⟨[(s, n)], s', true⟩
  | (s', .skip) => ⟨[(s, n)], s', false⟩
  | (s', .descend) =>
    let r := visitAll t f (t.children n) s'
    ⟨(s, n) :: r.calls, r.state, r.stopped⟩
termination_by 2 * t.weight n
decreasing_by
  have := t.weight_eq n
  omega

/-- Visits the nodes `ns` one after another from the state `s`, ending at the first visit
that is stopped. -/
def visitAll (t : ChildKeys) (f : σ → Node → σ × Control) (ns : List Node) (s : σ) :
    Visit σ :=
  match ns with
  | [] => ⟨[], s, false⟩
  | n :: rest =>
    let r := visit t f n s
    if r.stopped then r
    else
      let r' := visitAll t f rest r.state
      ⟨r.calls ++ r'.calls, r'.state, r'.stopped⟩
termination_by 2 * (ns.map t.weight).foldr (· + ·) 0 + 1
decreasing_by
  all_goals simp only [List.map_cons, List.foldr_cons]
  · omega
  · have := t.one_le_weight n
    omega

end

/-- The rest of a stack walk after a recursive visit: nothing if the visit was stopped,
else the walk `k` from the state the visit reached. -/
def Visit.andThen (r : Visit σ) (k : σ → σ × Bool) : σ × Bool :=
  if r.stopped then (r.state, true) else k r.state

/-- The visitor `f` that also logs the calls it receives, each with the state it was
given. -/
def logging (f : σ → Node → σ × Control) :
    σ × List (σ × Node) → Node → (σ × List (σ × Node)) × Control :=
  fun p n => (((f p.1 n).1, p.2 ++ [(p.1, n)]), (f p.1 n).2)

variable {t : ChildKeys} {f : σ → Node → σ × Control}

/-- The stack invariant: a stack walk enters the nodes on top of its stack exactly as their
recursive visits do, and goes on with the rest of the stack only if none was stopped. -/
lemma walkFrom_visit :
    (∀ n s rest, t.walkFrom f (n :: rest) s = (t.visit f n s).andThen (t.walkFrom f rest)) ∧
    (∀ ns s rest, t.walkFrom f (ns ++ rest) s =
      (t.visitAll f ns s).andThen (t.walkFrom f rest)) := by
  -- induction along the recursion of `visit`: a node's children are pushed as one block
  apply visit.mutual_induct t f
  case case1 =>
    intro n s s' h rest
    rw [walkFrom, visit]
    simp [h, Visit.andThen]
  case case2 =>
    intro n s s' h rest
    rw [walkFrom, visit]
    simp [h, Visit.andThen]
  case case3 =>
    intro n s s' h ih rest
    rw [walkFrom, visit]
    simp [h, Visit.andThen, ih]
  case case4 =>
    intro s rest
    simp [visitAll, Visit.andThen]
  case case5 =>
    intro s n ns r hr ih rest
    rw [List.cons_append, ih, visitAll]
    simp [r, hr, Visit.andThen]
  case case6 =>
    intro s n ns r hr ih ih' rest
    rw [List.cons_append, ih, visitAll]
    simp [r, hr, Visit.andThen, ih']

/-- A walk from `root` ends where the recursive visit of `root` ends, and is stopped exactly
when that visit is. -/
lemma walk_eq_visit (root : Node) (s : σ) :
    t.walk root f s = ((t.visit f root s).state, (t.visit f root s).stopped) := by
  rw [walk, walkFrom_visit.1 root s [], Visit.andThen]
  split <;> simp [walkFrom, *]

/-- Visiting with the logging visitor runs the visit of `f` and appends its calls to the
log. -/
lemma visit_logging :
    (∀ n s log, (t.visit (logging f) n (s, log)).state =
        ((t.visit f n s).state, log ++ (t.visit f n s).calls) ∧
      (t.visit (logging f) n (s, log)).stopped = (t.visit f n s).stopped) ∧
    (∀ ns s log, (t.visitAll (logging f) ns (s, log)).state =
        ((t.visitAll f ns s).state, log ++ (t.visitAll f ns s).calls) ∧
      (t.visitAll (logging f) ns (s, log)).stopped = (t.visitAll f ns s).stopped) := by
  apply visit.mutual_induct t f
  case case1 =>
    intro n s s' h log
    rw [visit, visit]
    simp [logging, h]
  case case2 =>
    intro n s s' h log
    rw [visit, visit]
    simp [logging, h]
  case case3 =>
    intro n s s' h ih log
    rw [visit, visit]
    simp [logging, h, ih]
  case case4 =>
    intro s log
    simp [visitAll]
  case case5 =>
    intro s n ns r hr ih log
    obtain ⟨hstate, hstop⟩ := ih log
    rw [visitAll, visitAll]
    simp [r, hr, hstate, hstop]
  case case6 =>
    intro s n ns r hr ih ih' log
    simp only [r] at hr ih'
    obtain ⟨hstate, hstop⟩ := ih log
    obtain ⟨hstate', hstop'⟩ := ih' (log ++ (t.visit f n s).calls)
    rw [visitAll, visitAll]
    simp [hr, hstate, hstop, hstate', hstop']

/-- A recursive visit is stopped exactly when one of its calls asked to stop. -/
lemma stopped_iff_call_stops :
    (∀ n s, (t.visit f n s).stopped = true ↔
      ∃ c ∈ (t.visit f n s).calls, (f c.1 c.2).2 = .stop) ∧
    (∀ ns s, (t.visitAll f ns s).stopped = true ↔
      ∃ c ∈ (t.visitAll f ns s).calls, (f c.1 c.2).2 = .stop) := by
  apply visit.mutual_induct t f
  case case1 =>
    intro n s s' h
    rw [visit]
    simp [h]
  case case2 =>
    intro n s s' h
    rw [visit]
    simp [h]
  case case3 =>
    intro n s s' h ih
    rw [visit]
    simp [h, ih]
  case case4 =>
    intro s
    simp [visitAll]
  case case5 =>
    intro s n ns r hr ih
    rw [visitAll]
    simp only [r] at hr
    simp only [hr, ↓reduceIte, true_iff]
    exact ih.1 hr
  case case6 =>
    intro s n ns r hr ih ih'
    rw [visitAll]
    simp only [r] at hr ih'
    -- the first visit was not stopped, so none of its calls asked to stop
    have hnone : ∀ c ∈ (t.visit f n s).calls, (f c.1 c.2).2 ≠ .stop := by
      intro c hc hstop
      exact hr (ih.2 ⟨c, hc, hstop⟩)
    simp only [hr, Bool.false_eq_true, ↓reduceIte, ih', List.mem_append]
    constructor
    · rintro ⟨c, hc, hstop⟩
      exact ⟨c, .inr hc, hstop⟩
    · rintro ⟨c, hc | hc, hstop⟩
      · exact absurd hstop (hnone c hc)
      · exact ⟨c, hc, hstop⟩

/-! ## The children a table gives -/

/-- The children a table gives for a node are children of the node. -/
lemma mem_children_of_mem {n c : Node} (h : c ∈ t.children n) : c ∈ n.children := by
  unfold children at h
  split at h
  · obtain ⟨name, -, hc⟩ := List.mem_flatMap.1 h
    unfold Node.nodesOf Node.field? at hc
    cases hf : n.fields.find? (·.1 == name) with
    | none => simp [hf] at hc
    | some p =>
      simp only [hf, Option.map_some] at hc
      exact List.mem_flatMap.2 ⟨p, List.mem_of_find?_eq_some hf, hc⟩
  · exact h

/-- A node with no children has none by any table. -/
lemma children_eq_nil {n : Node} (h : n.children = []) : t.children n = [] :=
  List.eq_nil_iff_forall_not_mem.2 fun c hc => by
    simpa [h] using mem_children_of_mem hc

/-- The standard table gives all the children of a node that is no array or object
literal. -/
lemma standard_children_of_kind {n : Node} (h : n.kind ≠ .arrayExpression)
    (h' : n.kind ≠ .objectExpression) : standard.children n = n.children := by
  have hkeys : standard.keys? n.kind = none := by
    simp [keys?, standard, insert, empty, Ne.symm h, Ne.symm h']
  simp [children, hkeys]

/-- The standard table gives all the children of a node whose only field is the one the
table names for its kind. -/
lemma standard_children_of_fields {n : Node} {name : String} {f : Field Node}
    (hk : standard.keys? n.kind = some [name]) (hf : n.fields = [(name, f)]) :
    standard.children n = n.children := by
  simp [children, hk, Node.nodesOf, Node.field?, Node.children, hf]

/-! ## Walks that always descend -/

/-- The nodes that a walk which always descends enters from `n`, in order: `n`, then those
entered from each of its children. -/
def order (t : ChildKeys) (n : Node) : List Node :=
  n :: (t.children n).attach.flatMap fun c => t.order c.1
termination_by sizeOf n
decreasing_by exact sizeOf_lt_of_mem_children c.2

lemma order_eq (t : ChildKeys) (n : Node) :
    t.order n = n :: (t.children n).flatMap t.order := by
  rw [order]
  simp

/-- A visit that always descends folds its visitor over the nodes it enters and is never
stopped. -/
lemma visit_descending (g : σ → Node → σ) :
    (∀ n s, (t.visit (fun s n => (g s n, .descend)) n s).state = (t.order n).foldl g s ∧
      (t.visit (fun s n => (g s n, .descend)) n s).stopped = false) ∧
    (∀ ns s, (t.visitAll (fun s n => (g s n, .descend)) ns s).state =
        (ns.flatMap t.order).foldl g s ∧
      (t.visitAll (fun s n => (g s n, .descend)) ns s).stopped = false) := by
  apply visit.mutual_induct t (fun s n => (g s n, .descend))
  case case1 =>
    intro n s s' h
    cases h
  case case2 =>
    intro n s s' h
    cases h
  case case3 =>
    intro n s s' h ih
    cases h
    rw [visit, order_eq]
    simp [ih]
  case case4 =>
    intro s
    simp [visitAll]
  case case5 =>
    intro s n ns r hr ih
    simp only [r] at hr
    rw [ih.2] at hr
    cases hr
  case case6 =>
    intro s n ns r hr ih ih'
    simp only [r] at hr ih'
    rw [visitAll]
    simp only [hr, Bool.false_eq_true, ↓reduceIte]
    rw [ih'.1, ih'.2, ih.1]
    simp

/-- A walk that always descends folds its visitor over the nodes in order and is never
stopped. -/
lemma walk_descending (g : σ → Node → σ) (root : Node) (s : σ) :
    t.walk root (fun s n => (g s n, .descend)) s = ((t.order root).foldl g s, false) := by
  obtain ⟨hstate, hstop⟩ := (visit_descending (t := t) g).1 root s
  rw [walk_eq_visit, hstate, hstop]

end ChildKeys

/-- The pre-order of a tree is the order in which a walk by the standard child keys enters
its nodes. -/
lemma Node.preorder_eq_order (n : Node) : n.preorder = ChildKeys.standard.order n := by
  simp [Node.preorder, ChildKeys.walk_descending]

open ChildKeys in
/-- A walk is the recursive pre-order: it ends in the state the recursive visit of the root
ends in and is stopped exactly when that visit is; it makes the same calls to the visitor,
in the same order and with the same states, as a visitor that logs its calls shows; and it
is stopped exactly when one of those calls asked to stop. -/
theorem walk_refines_visit {σ : Type} (t : ChildKeys) (root : Node)
    (f : σ → Node → σ × Control) (s : σ) :
    t.walk root f s = ((t.visit f root s).state, (t.visit f root s).stopped) ∧
    (t.walk root (logging f) (s, [])).1.2 = (t.visit f root s).calls ∧
    ((t.walk root f s).2 = true ↔ ∃ c ∈ (t.visit f root s).calls, (f c.1 c.2).2 = .stop) := by
  have hwalk := walk_eq_visit (t := t) (f := f) root s
  refine ⟨hwalk, ?_, ?_⟩
  · rw [walk_eq_visit, (visit_logging.1 root s []).1]
    simp
  · rw [hwalk]
    exact stopped_iff_call_stops.1 root s

end DotLint
