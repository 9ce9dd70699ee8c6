/-
  TinyScript.Host.Perform — what a function of the host does to a store.

  The values that the function knows are a list: what it keeps, its arguments, and behind them what
  it has come to see or has made. A place where there is no value stands for nil.
-/

import TinyScript.Store.Access

namespace TinyScript

namespace Store

/-- What is seen of a value, and the values that it holds. -/
def see (s : Store) : Value → Seen × List Value
  | .number x => (.literal (.number x), [])
  | .string text => (.literal (.string text), [])
  | .boolean b => (.literal (.boolean b), [])
  | .nil => (.literal .nil, [])
  | .array r => (.array (s.items r).size, (s.items r).toList)
  | .object r =>
    match s.object? r with
    | some (c, fields) => (.object fields.names, .type (.classRef c) :: fields.values)
    | none => (.object [], [])
  | .function r =>
    match s.cell? r with
    | some (.function f) => (.function f.decl.shownName f.this.isSome, f.this.toList)
    | some (.native n) => (.function n.name false, [])
    | _ => (.function "" false, [])
  | .type (.builtin t) => (.type t, [])
  | .type (.classRef c) =>
    match s.class? c with
    | some d => (.classDef d.name (d.properties.map (·.name)) d.methods.names, [])
    | none => (.classDef "" [] [], [])
  | .namespaceRef r => (.namespaceDef (s.space r).1 (s.space r).2.length, (s.space r).2.map .symbol)
  | .symbol r =>
    match s.symbol? r with
    | some (identifier, value, constant) => (.symbol identifier constant, [value])
    | none => (.symbol "" false, [])

def newClass (s : Store) (c : Class) : Value × Store :=
  let (r, s) := s.alloc (.classDef c)
  (.type (.classRef r), s)

mutual

/-- Puts what the host makes into the store. -/
def place (s : Store) (objectClass : Ref) (known : List Value) : Made → Value × Store
  | .value literal => (.ofLiteral literal, s)
  | .type t => (.type (.builtin t), s)
  | .known i => (known.getD i .nil, s)
  | .array items =>
    let (items, s) := s.placeAll objectClass known items
    s.newArray items.toArray
  | .object names values =>
    let (values, s) := s.placeAll objectClass known values
    s.newObject objectClass (.ofList (names.zip values))
  | .classDef name properties => s.newClass (.hosted name properties)
  | .function name arity keeps run =>
    let (v, s) := s.place objectClass known keeps
    s.newNative (.host name arity v run)

def placeAll (s : Store) (objectClass : Ref) (known : List Value) :
    List Made → List Value × Store
  | [] => ([], s)
  | made :: rest =>
    let (v, s) := s.place objectClass known made
    let (vs, s) := s.placeAll objectClass known rest
    (v :: vs, s)

end

/-- The change that the host asks for, where it can be made. -/
def edit? (s : Store) (known : List Value) : HostEdit → Option Change
  | .set owner key value =>
    (s.setElement (known.getD owner .nil) (known.getD key .nil) (known.getD value .nil)
      default).toOption
  | .append array value =>
    match known.getD array .nil with
    | .array r => some (.append r (known.getD value .nil))
    | _ => none
  | .dropLast array =>
    match known.getD array .nil with
    | .array r => some (.dropLast r)
    | _ => none

end Store

/-- What comes out of it, with the store after it. What was done before a failure stays. -/
def HostCode.perform (objectClass : Ref) : HostCode → Store → List Value →
    Except String Value × Store
  | .give place, s, known => (.ok (known.getD place .nil), s)
  | .fail message, s, _ => (.error message, s)
  | .look place next, s, known =>
    let (seen, parts) := s.see (known.getD place .nil)
    (next seen).perform objectClass s (known ++ parts)
  | .compare left right next, s, known =>
    (next ((known.getD left .nil).same (known.getD right .nil))).perform objectClass s known
  | .make made next, s, known =>
    let (v, s) := s.place objectClass known made
    next.perform objectClass s (known ++ [v])
  | .change edit next, s, known =>
    match s.edit? known edit with
    | some c => (next true).perform objectClass (s.apply c) known
    | none => (next false).perform objectClass s known

end TinyScript
