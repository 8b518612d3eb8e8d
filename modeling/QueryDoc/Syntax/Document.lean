import QueryDoc.Syntax.Selection

/-!
# Documents

An executable document is a list of operations and fragments. An operation
without a name and without variables is the short form of a query.
-/
namespace QueryDoc

inductive OperationKind where
  | query
  | mutation
  | subscription
deriving DecidableEq, Repr

def OperationKind.keyword : OperationKind → String
  | .query => "query"
  | .mutation => "mutation"
  | .subscription => "subscription"

def OperationKind.ofKeyword? (text : String) : Option OperationKind :=
  if text = "query" then some .query
  else if text = "mutation" then some .mutation
  else if text = "subscription" then some .subscription
  else none

structure VariableDefinition (α : Type) where
  description : Option (StringValue α)
  var : Variable α
  type : TypeRef α
  default : Option (Value α)
  directives : List (Directive α)
  info : α

structure Operation (α : Type) where
  description : Option (StringValue α)
  kind : OperationKind
  name : Option (Name α)
  variableDefinitions : List (VariableDefinition α)
  directives : List (Directive α)
  selections : SelectionSet α
  info : α

structure Fragment (α : Type) where
  description : Option (StringValue α)
  name : Name α
  typeCondition : NamedType α
  directives : List (Directive α)
  selections : SelectionSet α
  info : α

inductive Definition (α : Type) where
  | operation (o : Operation α)
  | fragment (f : Fragment α)

structure Document (α : Type) where
  definitions : List (Definition α)
  info : α

variable {α β : Type}

def Definition.info : Definition α → α
  | .operation o => o.info
  | .fragment f => f.info

def VariableDefinition.map (f : α → β) (v : VariableDefinition α) : VariableDefinition β where
  description := v.description.map (StringValue.map f)
  var := v.var.map f
  type := v.type.map f
  default := v.default.map (Value.map f)
  directives := v.directives.map (Directive.map f)
  info := f v.info

def Operation.map (f : α → β) (o : Operation α) : Operation β where
  description := o.description.map (StringValue.map f)
  kind := o.kind
  name := o.name.map (Name.map f)
  variableDefinitions := o.variableDefinitions.map (VariableDefinition.map f)
  directives := o.directives.map (Directive.map f)
  selections := o.selections.map f
  info := f o.info

def Fragment.map (f : α → β) (d : Fragment α) : Fragment β where
  description := d.description.map (StringValue.map f)
  name := d.name.map f
  typeCondition := d.typeCondition.map f
  directives := d.directives.map (Directive.map f)
  selections := d.selections.map f
  info := f d.info

def Definition.map (f : α → β) : Definition α → Definition β
  | .operation o => .operation (o.map f)
  | .fragment d => .fragment (d.map f)

def Document.map (f : α → β) (d : Document α) : Document β :=
  ⟨d.definitions.map (Definition.map f), f d.info⟩

namespace Document

/-- The operations of a document, in order. -/
def operations (d : Document α) : List (Operation α) :=
  d.definitions.filterMap fun
    | .operation o => some o
    | .fragment _ => none

/-- The fragments of a document, in order. -/
def fragments (d : Document α) : List (Fragment α) :=
  d.definitions.filterMap fun
    | .operation _ => none
    | .fragment f => some f

end Document

end QueryDoc
