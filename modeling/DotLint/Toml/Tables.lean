import DotLint.Toml.Document

/-!
# Placing keys and tables

A document is read line by line, and each key-value line and each header is placed into the
table tree as soon as it is read, so that a conflict is reported at the line that causes it.

A key-value line goes into the *current table*: the root until the first header, then the
table the last header opened. A dotted key walks down from there, making *dotted* tables on
the way; it may walk through tables that dotted keys made, and into the last table of an
array of tables, but never into a table a header defined, nor through a value.

A header `[a.b]` first files the current table away, then walks down from the root to `a`,
making *implicit* tables on the way, and opens `b`: a fresh table, or the implicit table
that an earlier header `[a.b.c]` made. Any other earlier `b` is a duplicate. A header
`[[a.b]]` opens one more table of the array of tables `b`.

Inline tables `{ ... }` follow the same rules among their own keys, with dotted keys making
inline tables.
-/

namespace DotLint

namespace Toml

/-- A duplicate key at position `i` of a header path, reported with the path before it. -/
def Conflict.duplicateAt (path : List Key) (i : Nat) : Conflict :=
  .duplicateKey (Key.defaultRepr ((path[i]?.map (·.name)).getD "")) (some ((path.take i).map (·.name)))

namespace Table

/-- Walks down `path` from `t`, applying `f` to the table at its end and putting the result
back. Missing tables are made on the way: inline tables when `inline` (implicit and dotted
as `dotted` says), else implicit tables that are dotted when `dotted`. A walk by a dotted
key may not enter a table that is not implicit; a walk through an array of tables enters
its last table; a walk into a value fails. `walked` is the part of the path already
walked, for messages. -/
def descend {α : Type} (inline dotted : Bool) (f : Table → Except Conflict (Table × α)) :
    List Key → List Key → Table → Except Conflict (Table × α)
  | _, [], t => f t
  | walked, k :: ks, t => do
    let made : Item :=
      if inline then .inlineTable (.mk [] dotted dotted none) else .table (.mk [] true dotted none)
    let child := (t.find? k.name).getD made
    let wrong := fun (it : Item) =>
      Except.error (Conflict.extendsValue ((walked ++ [k]).map (·.name)) it.typeName)
    let enter := fun (c : Table) (wrap : Table → Item) => do
      if dotted && !c.implicit then throw (Conflict.duplicateKey k.name none)
      let (c', a) ← descend inline dotted f (walked ++ [k]) ks c
      pure (t.set k (wrap c'), a)
    match child with
    | .table c => if inline then wrong child else enter c .table
    | .inlineTable c => if inline then enter c .inlineTable else wrong child
    | .tableArray ts =>
      if inline then wrong child
      else
        match ts.getLast? with
        | some last => do
          let (last', a) ← descend inline dotted f (walked ++ [k]) ks last
          pure (t.set k (.tableArray (ts.dropLast ++ [last'])), a)
        | none => wrong child
    | _ => wrong child

/-- Adds `key = item` under the dotted prefix `path`, refusing a key that is already there
(named with the path of `table`, when given) and a key whose table was made the other way:
by a dotted key for a plain key, or not for a dotted one. -/
def placeKeyval (inline : Bool) (table : Option (List String)) (t : Table) (path : List Key)
    (key : Key) (item : Item) : Except Conflict Table := do
  let place := fun (target : Table) =>
    if target.dotted == path.isEmpty then Except.error (Conflict.duplicateKey key.name none)
    else if (target.find? key.name).isSome then Except.error (Conflict.duplicateKey key.name table)
    else Except.ok (target.withEntries (target.entries ++ [(key, item)]), ())
  let (t', ()) ← descend inline true place [] path t
  return t'

end Table

/-- The inline table of the key-value pairs written between its braces, each with the
dotted prefix of its key. -/
def inlineTableOf (pairs : List (List Key × Key × Item)) : Except Conflict Table :=
  pairs.foldlM (fun t (path, key, item) => t.placeKeyval true none path key item)
    (.mk [] false false none)

/-- The state of placing a document: the root as filed so far, the current table, its
header path, and whether it belongs to an array of tables. -/
structure Placement where
  root : Table
  current : Table
  path : List Key
  isArray : Bool

namespace Placement

/-- Before any header: an empty root that is current. -/
def initial : Placement := ⟨Table.empty, Table.empty.withSpan (some ⟨0, 0⟩), [], false⟩

/-- Places a key-value line in the current table; the current table's span grows to the end
of the value. -/
def onKeyval (p : Placement) (path : List Key) (key : Key) (item : Item) :
    Except Conflict Placement := do
  let current := match p.current.span, item.span? with
    | some s, some v => p.current.withSpan (some ⟨s.start, v.stop⟩)
    | _, _ => p.current
  let current ← current.placeKeyval false (some (p.path.map (·.name))) path key item
  return { p with current }

/-- Files the current table under its path and leaves an empty current table. -/
def finalize (p : Placement) : Except Conflict Placement := do
  let table := p.current
  let emptied := { p with current := Table.empty, path := [], isArray := false }
  match p.path.getLast?, p.path.dropLast with
  | none, _ => return { emptied with root := table }
  | some key, parent =>
    let i := parent.length
    let file := fun (t : Table) =>
      if p.isArray then
        match t.find? key.name with
        | none => Except.ok (t.set key (.tableArray [table]), ())
        | some (.tableArray ts) => Except.ok (t.set key (.tableArray (ts ++ [table])), ())
        | some _ => Except.error (Conflict.duplicateAt p.path i)
      else
        match t.find? key.name with
        | none => Except.ok (t.set key (.table table), ())
        | some (.table old) =>
          if old.implicit then Except.ok (t.set key (.table table), ())
          else Except.error (Conflict.duplicateAt p.path i)
        | some _ => Except.error (Conflict.duplicateAt p.path i)
    let (root, ()) ← p.root.descend false false file [] parent
    return { emptied with root }

/-- Opens the table of the header `[path]` written at `span`. -/
def startTable (p : Placement) (path : List Key) (span : Span) : Except Conflict Placement := do
  match path.getLast?, path.dropLast with
  | none, _ => return p
  | some key, parent =>
    let i := parent.length
    let take := fun (t : Table) =>
      let (rest, old) := t.remove key.name
      match old with
      | none => Except.ok (rest, p.current)
      | some (.table c) =>
        if c.implicit && !c.dotted then Except.ok (rest, c)
        else Except.error (Conflict.duplicateAt path i)
      | some _ => Except.error (Conflict.duplicateAt path i)
    let (root, opened) ← p.root.descend false false take [] parent
    return ⟨root, .mk opened.entries false false (some span), path, false⟩

/-- Opens one more table of the array of tables of the header `[[path]]` written at
`span`. -/
def startArray (p : Placement) (path : List Key) (span : Span) : Except Conflict Placement := do
  match path.getLast?, path.dropLast with
  | none, _ => return p
  | some key, parent =>
    let i := parent.length
    let check := fun (t : Table) =>
      match t.find? key.name with
      | none => Except.ok (t.set key (.tableArray []), ())
      | some (.tableArray _) => Except.ok (t, ())
      | some _ => Except.error (Conflict.duplicateAt path i)
    let (root, ()) ← p.root.descend false false check [] parent
    return ⟨root, .mk p.current.entries false false (some span), path, true⟩

/-- Handles a header: files the current table, then opens the new one. -/
def onHeader (p : Placement) (isArray : Bool) (path : List Key) (span : Span) :
    Except Conflict Placement := do
  let p ← p.finalize
  if isArray then p.startArray path span else p.startTable path span

/-- The root table of the document, once the last table is filed. -/
def finish (p : Placement) : Except Conflict Table :=
  (·.root) <$> p.finalize

end Placement

end Toml

end DotLint
