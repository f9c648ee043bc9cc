import Mathlib.Tactic.Lemma
import DotLint.Syntax.Returns
import DotLint.Proofs.WalkPreorder
import DotLint.Proofs.ParsedTree

/-!
# The return search reports the return points in source order

`forEachReturn` finds the `return` statements of a function by a walk that goes into blocks,
conditionals, loops, `switch` and `case` and leaves everything else, and hands each value to
a callback that may stop it. This module says by recursion on the tree what it reports and
proves the search right:

* `Returns.found n` are the `return` statements under `n` that belong to the enclosing
  function, and `returnRef F` the values the search of `F` reports, by the kind of `F`;
* `forEachReturn_eq_feed`: the search of `F` hands the values of `returnRef F` to the
  callback one after another until the callback stops, so it reports all of them
  (`returnPoints_eq`) or, with a callback that stops on its `k`-th call, the first `k`;
* in a parsed tree the `return` statements reported come in strictly increasing source
  position, since a node's children lie inside its span and one after another.

The walk's own behaviour is taken from `DotLint.Proofs.WalkPreorder`: the search is the
recursive pre-order with the search's visitor.
-/

namespace DotLint

namespace Returns

variable {σ : Type}

/-- The `return` statements under `n` that belong to the function whose body holds `n`, in
pre-order: `n` itself if it is one, those under the children of a block, conditional, loop,
`switch` or `case`, and none under anything else. -/
def found (n : Node) : List Node :=
  if n.kind = .returnStatement then [n]
  else if n.kind ∈ transparent then
    (ChildKeys.standard.children n).attach.flatMap fun c => found c.1
  else []
termination_by sizeOf n
decreasing_by exact ChildKeys.sizeOf_lt_of_mem_children c.2

lemma found_eq (n : Node) : found n =
    if n.kind = .returnStatement then [n]
    else if n.kind ∈ transparent then (ChildKeys.standard.children n).flatMap found
    else [] := by
  rw [found]
  split_ifs <;> simp

/-- The value a `return` statement hands back; `none` for a bare `return`. -/
def argument (r : Node) : Option Node := r.child? "argument"

/-- The `return` statements found in the body of a function, if it has one. -/
def bodySites (fn : Node) : List Node :=
  match fn.child? "body" with
  | some body => found body
  | none => []

/-- Hands the values `vs` to `report` one after another from the state `s`, until `report`
stops; says at the end whether it stopped. -/
def feed (report : σ → Option Node → σ × Flow) : List (Option Node) → σ → σ × Bool
  | [], s => (s, false)
  | v :: vs, s =>
    match report s v with
    | (s', .stop) => (s', true)
    | (s', .proceed) => feed report vs s'

/-- What the return search of a body answers at a node it enters: at a `return`, hand its
value to `report` and leave it, or stop if `report` says so; go into blocks, conditionals,
loops, `switch` and `case`; leave anything else. -/
def visitor (report : σ → Option Node → σ × Flow) (s : σ) (n : Node) : σ × Control :=
  if n.kind == .returnStatement then
    match report s (argument n) with
    | (s', .stop) => (s', Control.stop)
    | (s', .proceed) => (s', Control.skip)
  else if transparent.contains n.kind then (s, Control.descend)
  else (s, Control.skip)

end Returns

open Returns

/-- The `return` statements whose values the return search of `F` reports: `F` itself if it
is one; those in the body of a function whose body is a block; those in the body of the
function expression that is the value of a method or a property; none otherwise. -/
def returnSites (F : Node) : List Node :=
  if F.kind = .returnStatement then [F]
  else if F.kind.isFunction then
    if F.kind = .arrowFunctionExpression ∧ F.flag "expression" = true then [] else bodySites F
  else if F.kind = .methodDefinition ∨ F.kind = .property then
    match F.child? "value" with
    | some v => if v.kind = .functionExpression then bodySites v else []
    | none => []
  else []

/-- The return points of `F`: the body of an arrow function whose body is an expression, and
otherwise the values of its return sites. -/
def returnRef (F : Node) : List (Option Node) :=
  if F.kind = .arrowFunctionExpression ∧ F.flag "expression" = true then
    (F.child? "body").toList.map some
  else (returnSites F).map argument

/-- The callback that collects the values it is handed and stops on its `k`-th call. -/
def collectUpTo (k : Nat) (acc : List (Option Node)) (v : Option Node) :
    List (Option Node) × Flow :=
  (acc ++ [v], if acc.length + 1 = k then .stop else .proceed)

namespace Returns

variable {σ : Type} {report : σ → Option Node → σ × Flow}

/-! ## Handing values over one after another -/

lemma feed_append (vs ws : List (Option Node)) (s : σ) :
    feed report (vs ++ ws) s =
      if (feed report vs s).2 then feed report vs s else feed report ws (feed report vs s).1 := by
  induction vs generalizing s with
  | nil => simp [feed]
  | cons v vs ih =>
    rw [List.cons_append, feed, feed]
    cases report s v with
    | mk s' flow => cases flow <;> simp [ih]

/-- A single value is handed over whatever the callback answers. -/
lemma feed_singleton (v : Option Node) (s : σ) : (feed report [v] s).1 = (report s v).1 := by
  unfold feed
  cases report s v with
  | mk s' flow => cases flow <;> rfl

/-- Collecting everything keeps every value, in order. -/
lemma feed_push (vs : List (Option Node)) (acc : Array (Option Node)) :
    (feed (fun acc v => (acc.push v, Flow.proceed)) vs acc).1.toList = acc.toList ++ vs := by
  induction vs generalizing acc with
  | nil => simp [feed]
  | cons v vs ih => simp [feed, ih]

/-- A callback that stops on its `k`-th call collects the first `k` values. -/
lemma feed_collectUpTo (k : Nat) (vs : List (Option Node)) (acc : List (Option Node))
    (hk : acc.length < k) :
    (feed (collectUpTo k) vs acc).1 = acc ++ vs.take (k - acc.length) := by
  induction vs generalizing acc with
  | nil => simp [feed]
  | cons v vs ih =>
    by_cases hlast : acc.length + 1 = k
    · -- the `k`-th call stops the search after keeping its value
      have htake : k - acc.length = 0 + 1 := by omega
      simp [feed, collectUpTo, hlast, htake]
    · have hstep : k - acc.length = (k - (acc ++ [v]).length) + 1 := by simp; omega
      rw [feed, collectUpTo, if_neg hlast, ih (acc ++ [v]) (by simp; omega), hstep]
      simp

/-! ## What the visitor answers -/

lemma visitor_eq_stop {s s' : σ} {n : Node} (h : visitor report s n = (s', .stop)) :
    n.kind = .returnStatement ∧ report s (argument n) = (s', .stop) := by
  unfold visitor at h
  by_cases hret : n.kind = .returnStatement
  · cases hr : report s (argument n) with
    | mk s'' flow => cases flow <;> simp_all
  · by_cases htr : n.kind ∈ transparent <;> simp_all

lemma visitor_eq_skip {s s' : σ} {n : Node} (h : visitor report s n = (s', .skip)) :
    (n.kind = .returnStatement ∧ report s (argument n) = (s', .proceed)) ∨
      (n.kind ≠ .returnStatement ∧ n.kind ∉ transparent ∧ s' = s) := by
  unfold visitor at h
  by_cases hret : n.kind = .returnStatement
  · cases hr : report s (argument n) with
    | mk s'' flow => cases flow <;> simp_all
  · by_cases htr : n.kind ∈ transparent <;> simp_all

lemma visitor_eq_descend {s s' : σ} {n : Node} (h : visitor report s n = (s', .descend)) :
    n.kind ≠ .returnStatement ∧ n.kind ∈ transparent ∧ s' = s := by
  unfold visitor at h
  by_cases hret : n.kind = .returnStatement
  · cases hr : report s (argument n) with
    | mk s'' flow => cases flow <;> simp_all
  · by_cases htr : n.kind ∈ transparent <;> simp_all

/-! ## The search is the recursive one -/

/-- A recursive visit with the search's visitor hands over the values of the `return`
statements it finds, until `report` stops, and is stopped exactly when `report` stops. -/
lemma visit_visitor :
    (∀ n s, ((ChildKeys.standard.visit (visitor report) n s).state,
        (ChildKeys.standard.visit (visitor report) n s).stopped) =
      feed report ((found n).map argument) s) ∧
    (∀ ns s, ((ChildKeys.standard.visitAll (visitor report) ns s).state,
        (ChildKeys.standard.visitAll (visitor report) ns s).stopped) =
      feed report ((ns.flatMap found).map argument) s) := by
  apply ChildKeys.visit.mutual_induct ChildKeys.standard (visitor report)
  case case1 =>
    -- a `return` whose value stops the search
    intro n s s' h
    obtain ⟨hret, hrep⟩ := visitor_eq_stop h
    rw [ChildKeys.visit, h, found_eq, if_pos hret]
    simp [feed, hrep]
  case case2 =>
    intro n s s' h
    rw [ChildKeys.visit, h]
    rcases visitor_eq_skip h with ⟨hret, hrep⟩ | ⟨hret, htr, rfl⟩
    · -- a `return` whose value lets the search go on
      rw [found_eq, if_pos hret]
      simp [feed, hrep]
    · -- a node the search leaves
      rw [found_eq, if_neg hret, if_neg htr]
      simp [feed]
  case case3 =>
    -- a node the search goes into: its children, one after another
    intro n s s' h ih
    obtain ⟨hret, htr, rfl⟩ := visitor_eq_descend h
    rw [ChildKeys.visit, h, found_eq, if_neg hret, if_pos htr]
    simpa using ih
  case case4 =>
    intro s
    simp [ChildKeys.visitAll, feed]
  case case5 =>
    intro s n ns r hr ih
    simp only [r] at hr
    rw [ChildKeys.visitAll, List.flatMap_cons, List.map_append, feed_append, ← ih]
    simp [hr]
  case case6 =>
    intro s n ns r hr ih ih'
    simp only [r] at hr ih'
    rw [ChildKeys.visitAll, List.flatMap_cons, List.map_append, feed_append, ← ih, ← ih']
    simp [hr]

/-- The return search of a body hands the values of the `return` statements found in it to
`report`, in order, until `report` stops. -/
lemma inBody_eq_feed (body : Node) (s : σ) :
    inBody body report s = (feed report ((found body).map argument) s).1 := by
  have hwalk : inBody body report s = (ChildKeys.standard.walk body (visitor report) s).1 := rfl
  rw [hwalk, ChildKeys.walk_eq_visit, ← (visit_visitor.1 body s)]

lemma ofFunction_eq_feed (fn : Node) (s : σ) :
    ofFunction fn report s = (feed report ((bodySites fn).map argument) s).1 := by
  unfold ofFunction bodySites
  cases fn.child? "body" with
  | none => simp [feed]
  | some body => simp [inBody_eq_feed]

end Returns

/-- A method or a property reports the returns of its value when that is a function
expression. -/
lemma methodValue_eq_feed {σ : Type} {F : Node} (report : σ → Option Node → σ × Flow) (s : σ)
    (hk : F.kind = .methodDefinition ∨ F.kind = .property) :
    (match F.child? "value" with
      | some value =>
        if (value.kind == .functionExpression) = true then ofFunction value report s else s
      | none => s) = (feed report (returnRef F) s).1 := by
  have hnf : F.kind.isFunction = false := by
    rcases hk with hk | hk <;> simp [hk, NodeKind.isFunction]
  have hna : F.kind ≠ .arrowFunctionExpression := by rcases hk with hk | hk <;> simp [hk]
  have hnr : F.kind ≠ .returnStatement := by rcases hk with hk | hk <;> simp [hk]
  simp only [returnRef, hna, false_and, ↓reduceIte, returnSites, hnr, hnf, Bool.false_eq_true, hk]
  cases F.child? "value" with
  | none => simp [feed]
  | some v => by_cases hv : v.kind = .functionExpression <;> simp [hv, ofFunction_eq_feed, feed]

lemma forEachReturn_eq_feed {σ : Type} (F : Node) (report : σ → Option Node → σ × Flow)
    (s : σ) : forEachReturn F report s = (feed report (returnRef F) s).1 := by
  unfold forEachReturn
  split
  next hk =>
    -- a `return` statement reports its own value
    simp [returnRef, returnSites, hk, feed_singleton, argument]
  next hk => exact methodValue_eq_feed report s (.inl hk)
  next hk => exact methodValue_eq_feed report s (.inr hk)
  next hr hm hp =>
    by_cases harrow : F.kind = .arrowFunctionExpression ∧ F.flag "expression" = true
    · -- an arrow function with an expression body reports that body
      obtain ⟨hk, hflag⟩ := harrow
      simp only [hk, hflag, beq_self_eq_true, Bool.and_self, ↓reduceIte, returnRef, and_self]
      cases F.child? "body" with
      | none => simp [feed]
      | some body => simp [feed_singleton]
    · have hcond : (F.kind == .arrowFunctionExpression && F.flag "expression") = false := by
        simpa using harrow
      simp only [hcond, Bool.false_eq_true, ↓reduceIte, returnRef, harrow, returnSites]
      split_ifs with hf hmp
      · exact ofFunction_eq_feed F s
      · exact (hmp.elim hm hp).elim
      · rfl

/-- The search reports every return point, in order. -/
lemma returnPoints_eq (F : Node) : returnPoints F = returnRef F := by
  rw [returnPoints, forEachReturn_eq_feed, feed_push]
  rfl

/-- A callback that stops on its `k`-th call has been handed the first `k` return points. -/
lemma forEachReturn_collectUpTo (F : Node) {k : Nat} (hk : 1 ≤ k) :
    forEachReturn F (collectUpTo k) [] = (returnRef F).take k := by
  rw [forEachReturn_eq_feed, feed_collectUpTo k _ [] (by simp; omega)]
  simp

/-! ## Return statements come in source order -/

namespace Returns

/-- The default child keys give a block, conditional, loop, `switch` or `case` all its
children. -/
lemma standard_children_of_transparent {n : Node} (h : n.kind ∈ transparent) :
    ChildKeys.standard.children n = n.children := by
  have hkeys : ChildKeys.standard.keys? n.kind = none := by
    simp only [transparent, List.mem_cons, List.not_mem_nil, or_false] at h
    rcases h with h | h | h | h | h | h | h | h | h <;>
      simp [h, ChildKeys.keys?, ChildKeys.standard, ChildKeys.insert, ChildKeys.empty]
  simp [ChildKeys.children, hkeys]

variable {ts : Array Token}

/-- The `return` statements found under a well-spanned node lie inside it, each takes some
bytes, and each ends before the next one starts. -/
lemma found_in_order (hord : InTextOrder ts.toList) (n : Node) (hw : n.WellSpanned ts) :
    (∀ r ∈ found n, n.span.start ≤ r.span.start ∧ r.span.stop ≤ n.span.stop ∧
      r.span.start < r.span.stop) ∧
    (found n).Pairwise fun a b => a.span.stop ≤ b.span.start := by
  have hal := hw n (.self n)
  have hne : n.span.start < n.span.stop := by
    obtain ⟨a, b, hcov⟩ := hal.covers
    exact hcov.start_lt_stop hord
  rw [found_eq]
  split_ifs with hret htr
  · -- a `return` statement is found alone
    simp [hne]
  · -- a block, conditional, loop, `switch` or `case`: its children's finds, one after another
    rw [standard_children_of_transparent htr]
    have hcw : ∀ c ∈ n.children, c.WellSpanned ts := (Node.wellSpanned_iff.1 hw).2
    have ih : ∀ c ∈ n.children, (∀ r ∈ found c, c.span.start ≤ r.span.start ∧
        r.span.stop ≤ c.span.stop ∧ r.span.start < r.span.stop) ∧
        (found c).Pairwise fun a b => a.span.stop ≤ b.span.start :=
      fun c hc => found_in_order hord c (hcw c hc)
    -- the shorthand property is the only node whose children overlap, and it is no statement
    have hchain : n.children.IsChain fun c d => c.span.stop ≤ d.span.start := by
      refine hal.inOrder.resolve_right fun ⟨hk, _⟩ => ?_
      simp [hk, transparent] at htr
    have hcne : ∀ c ∈ n.children, c.span.start < c.span.stop := by
      intro c hc
      obtain ⟨a, b, hcov⟩ := ((hcw c hc) c (.self c)).covers
      exact hcov.start_lt_stop hord
    refine ⟨fun r hr => ?_, List.pairwise_flatMap.2 ⟨fun c hc => (ih c hc).2, ?_⟩⟩
    · obtain ⟨c, hc, hrc⟩ := List.mem_flatMap.1 hr
      have hin := hal.inside c hc
      have hr' := (ih c hc).1 r hrc
      omega
    · refine (pairwise_of_isChain hchain hcne).imp_of_mem fun {c d} hc hd hcd x hx y hy => ?_
      have hx' := (ih c hc).1 x hx
      have hy' := (ih d hd).1 y hy
      omega
  · simp
termination_by sizeOf n
decreasing_by exact Node.sizeOf_lt_of_mem_children ‹_›

/-- Nodes that each take some bytes and end before the next one starts start in strictly
increasing order. -/
lemma pairwise_start_lt {rs : List Node} (hne : ∀ r ∈ rs, r.span.start < r.span.stop)
    (h : rs.Pairwise fun a b => a.span.stop ≤ b.span.start) :
    rs.Pairwise fun a b => a.span.start < b.span.start :=
  h.imp_of_mem fun {a _} ha _ hab => Nat.lt_of_lt_of_le (hne a ha) hab

/-- The `return` statements found in the body of a well-spanned function start in strictly
increasing order. -/
lemma bodySites_in_order (hord : InTextOrder ts.toList) {fn : Node} (hw : fn.WellSpanned ts) :
    (bodySites fn).Pairwise fun a b => a.span.start < b.span.start := by
  unfold bodySites
  split
  · rename_i body hbody
    obtain ⟨hin, hpair⟩ := found_in_order hord body (hw.of_child? hbody)
    exact pairwise_start_lt (fun r hr => (hin r hr).2.2) hpair
  · exact .nil

end Returns

/-- The return sites of a well-spanned node start in strictly increasing order. -/
lemma returnSites_in_order {ts : Array Token} (hord : InTextOrder ts.toList) {F : Node}
    (hw : F.WellSpanned ts) :
    (returnSites F).Pairwise fun a b => a.span.start < b.span.start := by
  unfold returnSites
  split_ifs
  · exact List.pairwise_singleton _ F
  · exact .nil
  · exact bodySites_in_order hord hw
  · split
    · rename_i v hv
      split_ifs
      · exact bodySites_in_order hord (hw.of_child? hv)
      · exact .nil
    · exact .nil
  · exact .nil

/-- The return search of a node of a parsed tree reports its return points, `returnRef`, in
order: all of them when the callback never stops, the first `k` when it stops on its `k`-th
call; and the `return` statements it reports start in strictly increasing source position. -/
theorem returnPoints_eq_returnRef {src : String} {ts : Array Token} {root F : Node}
    (hts : tokenize src = .ok ts) (hp : parse ts = .ok root) (hF : F.InTree root) :
    returnPoints F = returnRef F ∧
    (∀ k, 1 ≤ k → forEachReturn F (collectUpTo k) [] = (returnRef F).take k) ∧
    (returnSites F).Pairwise fun a b => a.span.start < b.span.start := by
  refine ⟨returnPoints_eq F, fun k hk => forEachReturn_collectUpTo F hk, ?_⟩
  have hord := tokenize_inTextOrder hts
  by_cases hsize : 0 < ts.size
  · exact returnSites_in_order hord ((parse_wellSpanned hord hp hsize).of_inTree hF)
  · -- over no tokens the tree is the empty program, which reports nothing
    obtain ⟨-, -, -, hkind, -⟩ := parse_eq_program hp
    have hchildren := parse_children_eq_nil hord hp (by omega)
    cases hF with
    | self => simp [returnSites, hkind, NodeKind.isFunction]
    | child hmem => simp [hchildren] at hmem

/-- A function with two `return` statements, one with a value and a bare one, reports them
in order. -/
theorem returnPoints_two_returns :
    let ts : Array Token := #[⟨.keyword, "function", ⟨0, 8⟩, ⟨⟨1, 1⟩, ⟨1, 9⟩⟩⟩,
      ⟨.identifier, "f", ⟨9, 10⟩, ⟨⟨1, 10⟩, ⟨1, 11⟩⟩⟩,
      ⟨.punctuator, "(", ⟨10, 11⟩, ⟨⟨1, 11⟩, ⟨1, 12⟩⟩⟩,
      ⟨.punctuator, ")", ⟨11, 12⟩, ⟨⟨1, 12⟩, ⟨1, 13⟩⟩⟩,
      ⟨.punctuator, "\x7b", ⟨12, 13⟩, ⟨⟨1, 13⟩, ⟨1, 14⟩⟩⟩,
      ⟨.keyword, "return", ⟨13, 19⟩, ⟨⟨1, 14⟩, ⟨1, 20⟩⟩⟩,
      ⟨.identifier, "a", ⟨20, 21⟩, ⟨⟨1, 21⟩, ⟨1, 22⟩⟩⟩,
      ⟨.punctuator, ";", ⟨21, 22⟩, ⟨⟨1, 22⟩, ⟨1, 23⟩⟩⟩,
      ⟨.keyword, "return", ⟨22, 28⟩, ⟨⟨1, 23⟩, ⟨1, 29⟩⟩⟩,
      ⟨.punctuator, "\x7d", ⟨28, 29⟩, ⟨⟨1, 29⟩, ⟨1, 30⟩⟩⟩]
    let fn : Node := ⟨.functionDeclaration, ⟨0, 29⟩, ⟨⟨1, 1⟩, ⟨1, 30⟩⟩,
      [("id", .node ⟨.identifier, ⟨9, 10⟩, ⟨⟨1, 10⟩, ⟨1, 11⟩⟩, [("name", .text "f")]⟩),
       ("params", .list []),
       ("body", .node ⟨.blockStatement, ⟨12, 29⟩, ⟨⟨1, 13⟩, ⟨1, 30⟩⟩, [("body", .list
         [⟨.returnStatement, ⟨13, 22⟩, ⟨⟨1, 14⟩, ⟨1, 23⟩⟩, [("argument",
           .node ⟨.identifier, ⟨20, 21⟩, ⟨⟨1, 21⟩, ⟨1, 22⟩⟩, [("name", .text "a")]⟩)]⟩,
          ⟨.returnStatement, ⟨22, 28⟩, ⟨⟨1, 23⟩, ⟨1, 29⟩⟩, [("argument", .absent)]⟩])]⟩)]⟩
    let root : Node := ⟨.program, ⟨0, 29⟩, ⟨⟨1, 1⟩, ⟨1, 30⟩⟩, [("body", .list [fn])]⟩
    tokenize "function f()\x7breturn a;return\x7d" = .ok ts ∧ parse ts = .ok root ∧
      fn.InTree root ∧ returnPoints fn = returnRef fn ∧
      (∀ k, 1 ≤ k → forEachReturn fn (collectUpTo k) [] = (returnRef fn).take k) ∧
      (returnSites fn).Pairwise fun a b => a.span.start < b.span.start := by
  intro ts fn root
  refine ⟨?hts, ?hp, ?hF, returnPoints_eq_returnRef ?hts ?hp ?hF⟩
  case hts =>
    simp +decide [ts, tokenize, lexFrom, Lexeme.scan, Lexical.isWordStart, Lexical.isWordPart,
      Lexical.wordKind, Position.advance, Position.step, Lexical.punctuatorLength,
      Lexical.punctuators, Char.utf8Size]
  case hp => rfl
  case hF => exact .child (by simp [root, Node.children]) (.self fn)

end DotLint
