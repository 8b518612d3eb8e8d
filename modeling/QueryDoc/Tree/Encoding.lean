import QueryDoc.Tree
import QueryDoc.Json
import QueryDoc.Text.Source

/-!
# Trees as JSON

A node is an object that names its kind first and holds its own texts and flags,
then its slots, and its span last if it has a location. A slot that holds at
most one node is left out when it is empty, and so are lists of things that a
node can do without; the lists that make up a node are always written.

Reading accepts what writing produces and is lenient in two ways: any empty list
may be left out, and a name may be a plain string. Nodes that are read have no
location.
-/
namespace QueryDoc

def Position.toJson (p : Position) : Json Nat :=
  .object [("line", .number p.line), ("col_utf8", .number p.column),
    ("col_utf16", .number p.column16), ("byte_offset", .number p.offset)]

def Span.toJson (s : Span) : Json Nat :=
  .object [("startInclusive", s.start.toJson), ("endExclusive", s.stop.toJson)]

/-- The member that holds the location of a node. -/
def Location.members : Option Location → List (String × Json Nat)
  | some l => [("loc", .object [("span", l.span.toJson)])]
  | none => []

namespace Head

variable {ν : Type}

/-- The texts and flags of a node that has no slots. -/
def leafMembers : Head → List (String × Json ν)
  | .name value => [("value", .string value)]
  | .intValue text => [("value", .string text)]
  | .floatValue text => [("value", .string text)]
  | .stringValue value block => [("value", .string value), ("block", .bool block)]
  | .booleanValue value => [("value", .bool value)]
  | .enumValue text => [("value", .string text)]
  | _ => []

/-- The members of a node, given those of its slots. The keyword of an operation
comes after its description, which is its first slot. -/
def members (head : Head) (slots : List (List (String × Json ν))) : List (String × Json ν) :=
  ("kind", .string head.kind.text) ::
    match head with
    | .operationDefinition kind =>
      (slots.take 1).flatten ++ ("operation", .string kind.keyword) :: (slots.drop 1).flatten
    | _ => head.leafMembers ++ slots.flatten

end Head

/-- The member for a slot, given its contents. -/
def Slot.members {ν : Type} (s : Slot) (contents : List (Json ν)) : List (String × Json ν) :=
  match s.arity with
  | .many => if contents.isEmpty && !s.shownEmpty then [] else [(s.label, .array contents)]
  | _ => (contents.take 1).map fun j => (s.label, j)

namespace Tree

mutual

def toJson : Tree (Option Location) → Json Nat
  | .node head loc slots =>
    .object (head.members (slotMembers head.kind.slots slots) ++ Location.members loc)

def slotMembers (rules : List Slot) :
    List (List (Tree (Option Location))) → List (List (String × Json Nat))
  | [] => []
  | ts :: rest =>
    (match rules with
      | [] => []
      | r :: _ => r.members (toJsonList ts)) :: slotMembers rules.tail rest

def toJsonList : List (Tree (Option Location)) → List (Json Nat)
  | [] => []
  | t :: ts => t.toJson :: toJsonList ts

end

end Tree

namespace Json

variable {ν : Type}

def text? : Json ν → Option String
  | .string s => some s
  | _ => none

def flag? : Json ν → Option Bool
  | .bool b => some b
  | _ => none

/-- What a node says by itself, read from its members. -/
def head? (j : Json ν) : Option Head := do
  let kind ← Kind.ofText? (← (← j.member? "kind").text?)
  let value := j.member? "value"
  match kind with
  | .name => return .name (← (← value).text?)
  | .document => return .document
  | .operationDefinition =>
    return .operationDefinition (← OperationKind.ofKeyword? (← (← j.member? "operation").text?))
  | .variableDefinition => return .variableDefinition
  | .variable => return .variable
  | .selectionSet => return .selectionSet
  | .field => return .field
  | .argument => return .argument
  | .fragmentSpread => return .fragmentSpread
  | .inlineFragment => return .inlineFragment
  | .fragmentDefinition => return .fragmentDefinition
  | .intValue => return .intValue (← (← value).text?)
  | .floatValue => return .floatValue (← (← value).text?)
  | .stringValue =>
    return .stringValue (← (← value).text?) (((j.member? "block").bind flag?).getD false)
  | .booleanValue => return .booleanValue (← (← value).flag?)
  | .nullValue => return .nullValue
  | .enumValue => return .enumValue (← (← value).text?)
  | .listValue => return .listValue
  | .objectValue => return .objectValue
  | .objectField => return .objectField
  | .directive => return .directive
  | .namedType => return .namedType
  | .listType => return .listType
  | .nonNullType => return .nonNullType

/-- The values of the nodes in a slot. -/
def slotItems (s : Slot) (j : Json ν) : List (Json ν) :=
  match j.member? s.label with
  | some (.array items) => items
  | some .null => []
  | some v => [v]
  | none => []

/-- Reads a node of at most `depth` levels. -/
def toTree? : (depth : Nat) → Json ν → Option (Tree (Option Location))
  | _, .string s => some (.node (.name s) none [])
  | 0, _ => none
  | depth + 1, j => do
    let head ← j.head?
    let slots ← head.kind.slots.mapM fun s => (slotItems s j).mapM (toTree? depth)
    return .node head none slots

mutual

/-- How deep arrays and objects nest. -/
def depth : Json ν → Nat
  | .array items => depthItems items + 1
  | .object members => depthMembers members + 1
  | _ => 1

def depthItems : List (Json ν) → Nat
  | [] => 0
  | v :: vs => max v.depth (depthItems vs)

def depthMembers : List (String × Json ν) → Nat
  | [] => 0
  | (_, v) :: ms => max v.depth (depthMembers ms)

end

end Json

/-- The tree that a JSON value encodes. -/
def Tree.ofJson? {ν : Type} (j : Json ν) : Option (Tree (Option Location)) := j.toTree? j.depth

end QueryDoc
