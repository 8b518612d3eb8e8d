import QueryDoc.Syntax.Node

/-!
# Uniform trees

One shape for every node: what the node itself says, the information it carries,
and the nodes in each of its slots. What slots there are, in which order, how
many nodes they hold and which kinds they admit is a table over the kinds of
nodes. Walking, comparing and encoding are defined on this shape, once for all
kinds; the table is the only place that tells the kinds apart.
-/
namespace QueryDoc

/-- The kinds of nodes. -/
inductive Kind where
  | name
  | document
  | operationDefinition
  | variableDefinition
  | variable
  | selectionSet
  | field
  | argument
  | fragmentSpread
  | inlineFragment
  | fragmentDefinition
  | intValue
  | floatValue
  | stringValue
  | booleanValue
  | nullValue
  | enumValue
  | listValue
  | objectValue
  | objectField
  | directive
  | namedType
  | listType
  | nonNullType
deriving DecidableEq, Repr

namespace Kind

def text : Kind → String
  | .name => "Name"
  | .document => "Document"
  | .operationDefinition => "OperationDefinition"
  | .variableDefinition => "VariableDefinition"
  | .variable => "Variable"
  | .selectionSet => "SelectionSet"
  | .field => "Field"
  | .argument => "Argument"
  | .fragmentSpread => "FragmentSpread"
  | .inlineFragment => "InlineFragment"
  | .fragmentDefinition => "FragmentDefinition"
  | .intValue => "IntValue"
  | .floatValue => "FloatValue"
  | .stringValue => "StringValue"
  | .booleanValue => "BooleanValue"
  | .nullValue => "NullValue"
  | .enumValue => "EnumValue"
  | .listValue => "ListValue"
  | .objectValue => "ObjectValue"
  | .objectField => "ObjectField"
  | .directive => "Directive"
  | .namedType => "NamedType"
  | .listType => "ListType"
  | .nonNullType => "NonNullType"

/-- All kinds, in the order in which they are listed. -/
def all : List Kind :=
  [.name, .document, .operationDefinition, .variableDefinition, .variable, .selectionSet,
    .field, .argument, .fragmentSpread, .inlineFragment, .fragmentDefinition, .intValue,
    .floatValue, .stringValue, .booleanValue, .nullValue, .enumValue, .listValue,
    .objectValue, .objectField, .directive, .namedType, .listType, .nonNullType]

def ofText? (text : String) : Option Kind := all.find? (fun k => k.text == text)

def isSelection (k : Kind) : Bool := [field, fragmentSpread, inlineFragment].contains k

end Kind

/-- What a slot admits: nodes of one kind, or of any kind of a family. -/
inductive Category where
  | only (k : Kind)
  | definition
  | selection
  | value
  | type
  | nullableType
deriving DecidableEq, Repr

namespace Category

def kinds : Category → List Kind
  | .only k => [k]
  | .definition => [.operationDefinition, .fragmentDefinition]
  | .selection => [.field, .fragmentSpread, .inlineFragment]
  | .value =>
    [.variable, .intValue, .floatValue, .stringValue, .booleanValue, .nullValue, .enumValue,
      .listValue, .objectValue]
  | .type => [.namedType, .listType, .nonNullType]
  | .nullableType => [.namedType, .listType]

def admits (c : Category) (k : Kind) : Bool := c.kinds.contains k

/-- How a message names what a slot admits. -/
def text : Category → String
  | .only k => k.text
  | .definition => "OperationDefinition or FragmentDefinition"
  | .selection => "Field, FragmentSpread or InlineFragment"
  | .value => "value"
  | .type => "NamedType, ListType or NonNullType"
  | .nullableType => "NamedType or ListType"

end Category

/-- How many nodes a slot holds. -/
inductive Arity where
  | required
  | optional
  | many
deriving DecidableEq, Repr

/-- A slot of a kind of node. -/
structure Slot where
  /-- The name of the slot in a path. -/
  key : String
  /-- The name of the slot in the encoding of a node. -/
  label : String
  arity : Arity
  category : Category
  /-- An empty list is written down, not left out. -/
  shownEmpty : Bool
deriving DecidableEq, Repr

namespace Slot

def one (name : String) (c : Category) : Slot := ⟨name, name, .required, c, false⟩

def option (name : String) (c : Category) : Slot := ⟨name, name, .optional, c, false⟩

/-- A list that is left out when it is empty. -/
def list (name : String) (c : Category) : Slot := ⟨name, name, .many, c, false⟩

/-- A list that makes up its node and is always written. -/
def body (name : String) (c : Category) : Slot := ⟨name, name, .many, c, true⟩

def labelled (s : Slot) (label : String) : Slot := { s with label := label }

def name : Slot := one "name" (.only .name)

def arguments : Slot := list "arguments" (.only .argument)

def directives : Slot := list "directives" (.only .directive)

def description : Slot := option "description" (.only .stringValue)

def selections : Slot := (one "selection_set" (.only .selectionSet)).labelled "selectionSet"

def typeCondition : Slot := (one "type_condition" (.only .namedType)).labelled "typeCondition"

end Slot

/-- The slots of a node, in the order of a walk. -/
def Kind.slots : Kind → List Slot
  | .document => [.body "definitions" .definition]
  | .operationDefinition =>
    [.description, .option "name" (.only .name),
      (Slot.list "variable_definitions" (.only .variableDefinition)).labelled "variableDefinitions",
      .directives, .selections]
  | .fragmentDefinition =>
    [.description, .name, .typeCondition, .directives, .selections]
  | .variableDefinition =>
    [.description, .one "variable" (.only .variable), .one "type" .type,
      (Slot.option "default_value" .value).labelled "defaultValue", .directives]
  | .variable => [.name]
  | .selectionSet => [.body "selections" .selection]
  | .field =>
    [.option "alias" (.only .name), .name, .arguments, .directives,
      { Slot.selections with arity := .optional }]
  | .argument => [.name, .one "value" .value]
  | .fragmentSpread => [.name, .directives]
  | .inlineFragment =>
    [{ Slot.typeCondition with arity := .optional }, .directives, .selections]
  | .listValue => [.body "values" .value]
  | .objectValue => [.body "fields" (.only .objectField)]
  | .objectField => [.name, .one "value" .value]
  | .directive => [.name, .arguments]
  | .namedType => [.name]
  | .listType => [.one "type" .type]
  | .nonNullType => [.one "type" .nullableType]
  | .name => []
  | .intValue => []
  | .floatValue => []
  | .stringValue => []
  | .booleanValue => []
  | .nullValue => []
  | .enumValue => []

/-- What a node says by itself: its kind, and the texts and flags that are not
nodes. -/
inductive Head where
  | name (value : String)
  | document
  | operationDefinition (kind : OperationKind)
  | variableDefinition
  | variable
  | selectionSet
  | field
  | argument
  | fragmentSpread
  | inlineFragment
  | fragmentDefinition
  | intValue (text : String)
  | floatValue (text : String)
  | stringValue (value : String) (block : Bool)
  | booleanValue (value : Bool)
  | nullValue
  | enumValue (name : String)
  | listValue
  | objectValue
  | objectField
  | directive
  | namedType
  | listType
  | nonNullType
deriving DecidableEq, Repr

def Head.kind : Head → Kind
  | .name _ => .name
  | .document => .document
  | .operationDefinition _ => .operationDefinition
  | .variableDefinition => .variableDefinition
  | .variable => .variable
  | .selectionSet => .selectionSet
  | .field => .field
  | .argument => .argument
  | .fragmentSpread => .fragmentSpread
  | .inlineFragment => .inlineFragment
  | .fragmentDefinition => .fragmentDefinition
  | .intValue _ => .intValue
  | .floatValue _ => .floatValue
  | .stringValue _ _ => .stringValue
  | .booleanValue _ => .booleanValue
  | .nullValue => .nullValue
  | .enumValue _ => .enumValue
  | .listValue => .listValue
  | .objectValue => .objectValue
  | .objectField => .objectField
  | .directive => .directive
  | .namedType => .namedType
  | .listType => .listType
  | .nonNullType => .nonNullType

/-- A node: what it says, what it carries, and the nodes in each of its slots. -/
inductive Tree (α : Type) where
  | node (head : Head) (info : α) (slots : List (List (Tree α)))

namespace Tree

variable {α β : Type}

def head : Tree α → Head
  | .node head _ _ => head

def info : Tree α → α
  | .node _ info _ => info

/-- The contents of the slots, in the order of the kind's slots. -/
def slots : Tree α → List (List (Tree α))
  | .node _ _ slots => slots

def kind (t : Tree α) : Kind := t.head.kind

/-- The slots of a node with their contents. -/
def fields (t : Tree α) : List (Slot × List (Tree α)) := t.kind.slots.zip t.slots

/-- The first node in the slot under a key. -/
def child? (t : Tree α) (key : String) : Option (Tree α) :=
  (t.fields.find? (fun f => f.1.key == key)).bind (fun f => f.2.head?)

mutual

def map (f : α → β) : Tree α → Tree β
  | .node head info slots => .node head (f info) (mapSlots f slots)

def mapSlots (f : α → β) : List (List (Tree α)) → List (List (Tree β))
  | [] => []
  | s :: ss => mapList f s :: mapSlots f ss

def mapList (f : α → β) : List (Tree α) → List (Tree β)
  | [] => []
  | t :: ts => t.map f :: mapList f ts

end

mutual

/-- Equality of trees, information included, is decided node by node. -/
def decEq [DecidableEq α] : (a b : Tree α) → Decidable (a = b)
  | .node h i ss, .node h' i' ss' =>
    if hh : h = h' then
      if hi : i = i' then
        match decEqSlots ss ss' with
        | isTrue hs => isTrue (by rw [hh, hi, hs])
        | isFalse hs => isFalse (fun e => hs (by injection e))
      else isFalse (fun e => hi (by injection e))
    else isFalse (fun e => hh (by injection e))

def decEqSlots [DecidableEq α] : (a b : List (List (Tree α))) → Decidable (a = b)
  | [], [] => isTrue rfl
  | [], _ :: _ => isFalse (fun e => nomatch e)
  | _ :: _, [] => isFalse (fun e => nomatch e)
  | s :: ss, s' :: ss' =>
    match decEqList s s' with
    | isTrue hs =>
      match decEqSlots ss ss' with
      | isTrue hss => isTrue (by rw [hs, hss])
      | isFalse hss => isFalse (fun e => hss (by injection e))
    | isFalse hs => isFalse (fun e => hs (by injection e))

def decEqList [DecidableEq α] : (a b : List (Tree α)) → Decidable (a = b)
  | [], [] => isTrue rfl
  | [], _ :: _ => isFalse (fun e => nomatch e)
  | _ :: _, [] => isFalse (fun e => nomatch e)
  | t :: ts, t' :: ts' =>
    match decEq t t' with
    | isTrue ht =>
      match decEqList ts ts' with
      | isTrue hts => isTrue (by rw [ht, hts])
      | isFalse hts => isFalse (fun e => hts (by injection e))
    | isFalse ht => isFalse (fun e => ht (by injection e))

end

instance [DecidableEq α] : DecidableEq (Tree α) := decEq

end Tree

/-- One step of a path: a slot, or a place in the list that a slot holds. -/
inductive PathKey where
  | field (key : String)
  | index (n : Nat)
deriving DecidableEq, Repr

def PathKey.text : PathKey → String
  | .field key => key
  | .index n => toString n

/-- A path as text, its steps joined by dots. -/
def renderPath (path : List PathKey) : String := ".".intercalate (path.map PathKey.text)

namespace Tree

variable {α : Type}

mutual

/-- All nodes with their paths, parents before children and in slot order. -/
def walk (path : List PathKey) : Tree α → List (List PathKey × Tree α)
  | .node head info slots =>
    (path, .node head info slots) :: walkSlots path head.kind.slots slots

def walkSlots (path : List PathKey) (rules : List Slot) :
    List (List (Tree α)) → List (List PathKey × Tree α)
  | [] => []
  | ts :: rest =>
    (match rules with
      | [] => []
      | r :: _ => walkList path r 0 ts) ++ walkSlots path rules.tail rest

def walkList (path : List PathKey) (rule : Slot) (i : Nat) :
    List (Tree α) → List (List PathKey × Tree α)
  | [] => []
  | t :: ts =>
    let here := match rule.arity with
      | .many => path ++ [.field rule.key, .index i]
      | _ => path ++ [.field rule.key]
    walk here t ++ walkList path rule (i + 1) ts

end

/-- The nodes of a tree with their paths, in the order of a walk. -/
def nodes (t : Tree α) : List (List PathKey × Tree α) := t.walk []

end Tree

end QueryDoc
