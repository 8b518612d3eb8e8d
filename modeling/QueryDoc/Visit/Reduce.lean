import QueryDoc.Visit.Context

/-!
# Reducing

A reduction computes a value for every node from the values of its children. It
reads the fields of each kind off a table of its own, and keeps path and containers
on stacks of its own. It edits nothing. The entering hook may supply the value of a
node, which leaves out the children and the leaving hook, or leave the node out
altogether.

The values of the children come by slot, in slot order. A slot that holds one
node has an entry if that node has a value; a slot that holds a list always has
one, also when the list is empty.
-/
namespace QueryDoc

/-- The values from one slot. -/
inductive SlotValue (ρ : Type) where
  | one (value : ρ)
  | list (values : List ρ)

/-- The values of the children of a node, by the key of their slot. -/
structure Reduced (ρ : Type) where
  fields : List (String × SlotValue ρ)

namespace Reduced

variable {ρ : Type}

/-- The value of the single child under a key. -/
def get? (r : Reduced ρ) (key : String) : Option ρ :=
  r.fields.findSome? fun f =>
    match f.2 with
    | .one v => if f.1 = key then some v else none
    | .list _ => none

/-- The values of the children in the list under a key. -/
def getList (r : Reduced ρ) (key : String) : List ρ :=
  (r.fields.findSome? fun f =>
    match f.2 with
    | .one _ => none
    | .list vs => if f.1 = key then some vs else none).getD []

/-- An entry for a single child under a key. -/
def isOneAt (key : String) (f : String × SlotValue ρ) : Bool :=
  match f.2 with
  | .one _ => f.1 == key
  | .list _ => false

/-- An entry for a list under a key. -/
def isListAt (key : String) (f : String × SlotValue ρ) : Bool :=
  match f.2 with
  | .one _ => false
  | .list _ => f.1 == key

/-- Takes the value of the single child under a key out. -/
def take (r : Reduced ρ) (key : String) : Option ρ × Reduced ρ :=
  (r.get? key, ⟨r.fields.eraseP (isOneAt key)⟩)

/-- Takes the values of the children in the list under a key out. -/
def takeList (r : Reduced ρ) (key : String) : List ρ × Reduced ρ :=
  (r.getList key, ⟨r.fields.eraseP (isListAt key)⟩)

/-- All values, in the order of the children. -/
def values (r : Reduced ρ) : List ρ :=
  r.fields.flatMap fun f =>
    match f.2 with
    | .one v => [v]
    | .list vs => vs

end Reduced

/-- What an entering hook wants to happen. -/
inductive ReduceAction (ρ : Type) where
  | descend
  /-- Take this value for the node. -/
  | use (value : ρ)
  | omit
  | stop
  | fail (message : String)

structure Reducer (σ α ρ : Type) where
  enter : Context α → Tree α → StateM σ (ReduceAction ρ)
  leave : Context α → Tree α → Reduced ρ → StateM σ (Except String ρ)

/-- The reducer whose entering hook always descends. -/
def Reducer.ofLeave {σ α ρ : Type}
    (leave : Context α → Tree α → Reduced ρ → StateM σ (Except String ρ)) : Reducer σ α ρ :=
  ⟨fun _ _ => pure .descend, leave⟩

/-- A field of a node as a reduction takes it, by its name: with one child, or with
a list. -/
inductive ChildField where
  | one (field : String)
  | list (field : String)
deriving DecidableEq, Repr

/-- A field with one child, if there is any. -/
def ChildField.optional (field : String) : ChildField := one field

/-- The fields of a node that hold nodes, in the order of a reduction. -/
def Kind.childFields : Kind → List ChildField
  | .document => [.list "definitions"]
  | .operationDefinition =>
    [.optional "description", .optional "name", .list "variable_definitions",
      .list "directives", .one "selection_set"]
  | .fragmentDefinition =>
    [.optional "description", .one "name", .one "type_condition", .list "directives",
      .one "selection_set"]
  | .variableDefinition =>
    [.optional "description", .one "variable", .one "type", .optional "default_value",
      .list "directives"]
  | .variable => [.one "name"]
  | .selectionSet => [.list "selections"]
  | .field =>
    [.optional "alias", .one "name", .list "arguments", .list "directives",
      .optional "selection_set"]
  | .argument => [.one "name", .one "value"]
  | .fragmentSpread => [.one "name", .list "directives"]
  | .inlineFragment => [.optional "type_condition", .list "directives", .one "selection_set"]
  | .listValue => [.list "values"]
  | .objectValue => [.list "fields"]
  | .objectField => [.one "name", .one "value"]
  | .directive => [.one "name", .list "arguments"]
  | .namedType => [.one "name"]
  | .listType => [.one "type"]
  | .nonNullType => [.one "type"]
  | .name => []
  | .intValue => []
  | .floatValue => []
  | .stringValue => []
  | .booleanValue => []
  | .nullValue => []
  | .enumValue => []

/-- A reduction without its stacks. -/
abbrev Reduction.Walk (σ β : Type) : Type := ExceptT Stop (StateM σ) β

/-- A reduction with its stacks. -/
abbrev Reducing (σ α β : Type) : Type := Stacked α (Reduction.Walk σ) β

namespace Reducing
open Stacks (underKey inside below)

variable {σ α ρ : Type}

mutual

/-- The value of a node, given its key and what holds it; none if it is left out. -/
def node (r : Reducer σ α ρ) (key : Option PathKey) (parent : Option (Ancestor α)) :
    Tree α → Reducing σ α (Option ρ)
  | .node head info contents => do
    let t : Tree α := .node head info contents
    match ← (r.enter ((← get).context key parent) t : StateM σ (ReduceAction ρ)) with
    | .descend =>
      let values ← below parent (fields r t head.kind.childFields contents)
      match ← (r.leave ((← get).context key parent) t ⟨values⟩ : StateM σ (Except String ρ)) with
      | .ok v => return some v
      | .error message => throw (.failed (.callback message))
    | .use v => return some v
    | .omit => return none
    | .stop => throw .broken
    | .fail message => throw (.failed (.callback message))

/-- The entries for the fields of `owner`. A list has one in any case. -/
def fields (r : Reducer σ α ρ) (owner : Tree α) (table : List ChildField) :
    List (List (Tree α)) → Reducing σ α (List (String × SlotValue ρ))
  | [] => return []
  | ts :: rest =>
    match table with
    | [] => return []
    | .one field :: table => do
      return (← single r owner field ts) ++ (← fields r owner table rest)
    | .list field :: table => do
      let values ← underKey (.field field) (inside (.node owner) (items r (.list ts) 0 ts))
      return (field, .list values) :: (← fields r owner table rest)

/-- The entry for a field of `owner` that holds no list, if the child has a value. -/
def single (r : Reducer σ α ρ) (owner : Tree α) (field : String) :
    List (Tree α) → Reducing σ α (List (String × SlotValue ρ))
  | [] => return []
  | t :: ts => do
    let key := .field field
    let value ← underKey key (node r (some key) (some (.node owner)) t)
    return (value.toList.map fun v => (field, .one v)) ++ (← single r owner field ts)

/-- The values of the items of a list from place `i` on. -/
def items (r : Reducer σ α ρ) (container : Ancestor α) (i : Nat) :
    List (Tree α) → Reducing σ α (List ρ)
  | [] => return []
  | t :: ts => do
    let key := .index i
    let value ← underKey key (node r (some key) (some container) t)
    return value.toList ++ (← items r container (i + 1) ts)

end

end Reducing

/-- The walk of a reduction from the root on. -/
def Reducer.walk {σ α ρ : Type} (r : Reducer σ α ρ) (root : Tree α) :
    Reduction.Walk σ (Option ρ) :=
  (Reducing.node r none none root).run' .empty

variable {σ α ρ : Type}

/-- The value of a tree, none if a hook ended the reduction. -/
def reduce (r : Reducer σ α ρ) (root : Tree α) (state : σ) :
    Except VisitError (Option ρ) × σ :=
  match (r.walk root).run state with
  | (.ok (some v), s) => (.ok (some v), s)
  | (.ok none, s) => (.error .removedRoot, s)
  | (.error .broken, s) => (.ok none, s)
  | (.error (.failed e), s) => (.error e, s)

end QueryDoc
