import DotLint.Syntax.Walk

/-!
# Return points of a function

The return points of a function are the values it can hand back, in source order: the body
of an arrow function whose body is an expression, or else the argument of each `return`
statement that belongs to the function (a bare `return` gives no value). A `return` belongs
to the function when only blocks, conditionals, loops and `switch` stand between it and the
function body; nested functions, classes and expressions are not searched.

The search hands each value to a callback, which may end it early.
-/

namespace DotLint

/-- What a search does after a callback. -/
inductive Flow where
  /-- Go on searching. -/
  | proceed
  /-- End the search. -/
  | stop
deriving DecidableEq, Repr

namespace Returns

/-- Statement kinds whose `return` statements belong to the enclosing function. -/
def transparent : List NodeKind :=
  [.blockStatement, .ifStatement, .forStatement, .forInStatement, .forOfStatement,
   .whileStatement, .doWhileStatement, .switchStatement, .switchCase]

/-- Hands the value of each `return` under `body` that belongs to it to `report`, from the
state `s`, until `report` stops the search. -/
def inBody {σ : Type} (body : Node) (report : σ → Option Node → σ × Flow) (s : σ) : σ :=
  let visit := fun (s : σ) (n : Node) =>
    if n.kind == .returnStatement then
      match report s (n.child? "argument") with
      | (s', .stop) => (s', Control.stop)
      | (s', .proceed) => (s', Control.skip)
    else if transparent.contains n.kind then (s, Control.descend)
    else (s, Control.skip)
  (ChildKeys.standard.walk body visit s).1

/-- The return search of a function: the `return` statements of its body. -/
def ofFunction {σ : Type} (fn : Node) (report : σ → Option Node → σ × Flow) (s : σ) : σ :=
  match fn.child? "body" with
  | some body => inBody body report s
  | none => s

end Returns

/-- Hands the return points of `fn` to `report` in source order, from the state `s`, until
`report` stops. An arrow function with an expression body reports that body, a `return`
statement reports its own argument, a function reports the `return` statements of its body,
and a method or a property whose value is a function expression reports those of that
function; any other node reports nothing. -/
def forEachReturn {σ : Type} (fn : Node) (report : σ → Option Node → σ × Flow) (s : σ) : σ :=
  match fn.kind with
  | .returnStatement => (report s (fn.child? "argument")).1
  | .methodDefinition | .property =>
    match fn.child? "value" with
    | some value =>
      if value.kind == .functionExpression then Returns.ofFunction value report s else s
    | none => s
  | kind =>
    if kind == .arrowFunctionExpression && fn.flag "expression" then
      match fn.child? "body" with
      | some body => (report s (some body)).1
      | none => s
    else if kind.isFunction then Returns.ofFunction fn report s
    else s

/-- All return points of `fn`, in source order; `none` stands for a bare `return`. -/
def returnPoints (fn : Node) : List (Option Node) :=
  (forEachReturn fn (fun acc v => (acc.push v, Flow.proceed)) #[]).toList

end DotLint
