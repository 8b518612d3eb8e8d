import QueryDoc.Syntax.Document

/-!
# Nodes

Any piece of a document that stands for itself in the syntax. A description is
the node of its string, a variable is a value, and the type that a fragment
applies to is a type reference, so no piece has two forms as a node.
-/
namespace QueryDoc

inductive Node (α : Type) where
  | name (n : Name α)
  | document (d : Document α)
  | definition (d : Definition α)
  | variableDefinition (v : VariableDefinition α)
  | selectionSet (s : SelectionSet α)
  | selection (s : Selection α)
  | argument (a : Argument α)
  | value (v : Value α)
  | objectField (f : ObjectField α)
  | directive (d : Directive α)
  | type (t : TypeRef α)

namespace Node

variable {α β : Type}

def info : Node α → α
  | .name n => n.info
  | .document d => d.info
  | .definition d => d.info
  | .variableDefinition v => v.info
  | .selectionSet s => s.info
  | .selection s => s.info
  | .argument a => a.info
  | .value v => v.info
  | .objectField f => f.info
  | .directive d => d.info
  | .type t => t.info

def map (g : α → β) : Node α → Node β
  | .name n => .name (n.map g)
  | .document d => .document (d.map g)
  | .definition d => .definition (d.map g)
  | .variableDefinition v => .variableDefinition (v.map g)
  | .selectionSet s => .selectionSet (s.map g)
  | .selection s => .selection (s.map g)
  | .argument a => .argument (a.map g)
  | .value v => .value (v.map g)
  | .objectField f => .objectField (f.map g)
  | .directive d => .directive (d.map g)
  | .type t => .type (t.map g)

end Node

end QueryDoc
