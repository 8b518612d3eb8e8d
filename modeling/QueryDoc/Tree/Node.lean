import QueryDoc.Tree
import QueryDoc.Syntax.Printer

/-!
# Nodes as uniform trees

Every node has a uniform tree, and a tree whose slots hold what their kinds
admit is the tree of a node. Going back is partial because the uniform shape
can also hold trees that are no syntax at all.
-/
namespace QueryDoc

variable {α : Type}

def Name.toTree (n : Name α) : Tree α := .node (.name n.value) n.info []

def StringValue.toTree (s : StringValue α) : Tree α :=
  .node (.stringValue s.value s.block) s.info []

def Variable.toTree (v : Variable α) : Tree α := .node .variable v.info [[v.name.toTree]]

mutual

def Value.toTree : Value α → Tree α
  | .variable v => v.toTree
  | .int text info => .node (.intValue text) info []
  | .float text info => .node (.floatValue text) info []
  | .string s => s.toTree
  | .boolean b info => .node (.booleanValue b) info []
  | .null info => .node .nullValue info []
  | .enum name info => .node (.enumValue name) info []
  | .list items info => .node .listValue info [Value.toTrees items]
  | .object fields info => .node .objectValue info [ObjectField.toTrees fields]

def Value.toTrees : List (Value α) → List (Tree α)
  | [] => []
  | v :: vs => v.toTree :: Value.toTrees vs

def ObjectField.toTree : ObjectField α → Tree α
  | .mk name value info => .node .objectField info [[name.toTree], [value.toTree]]

def ObjectField.toTrees : List (ObjectField α) → List (Tree α)
  | [] => []
  | f :: fs => f.toTree :: ObjectField.toTrees fs

end

def NamedType.toTree (t : NamedType α) : Tree α := .node .namedType t.info [[t.name.toTree]]

mutual

def TypeRef.toTree : TypeRef α → Tree α
  | .nullable t => t.toTree
  | .nonNull t info => .node .nonNullType info [[t.toTree]]

def NullableType.toTree : NullableType α → Tree α
  | .named t => t.toTree
  | .list item info => .node .listType info [[item.toTree]]

end

def Argument.toTree (a : Argument α) : Tree α :=
  .node .argument a.info [[a.name.toTree], [a.value.toTree]]

def Directive.toTree (d : Directive α) : Tree α :=
  .node .directive d.info [[d.name.toTree], d.arguments.map Argument.toTree]

def FragmentSpread.toTree (s : FragmentSpread α) : Tree α :=
  .node .fragmentSpread s.info [[s.name.toTree], s.directives.map Directive.toTree]

mutual

def Selection.toTree : Selection α → Tree α
  | .field aliasName name arguments directives none info =>
    .node .field info
      [(aliasName.map Name.toTree).toList, [name.toTree], arguments.map Argument.toTree,
        directives.map Directive.toTree, []]
  | .field aliasName name arguments directives (some set) info =>
    .node .field info
      [(aliasName.map Name.toTree).toList, [name.toTree], arguments.map Argument.toTree,
        directives.map Directive.toTree, [set.toTree]]
  | .spread s => s.toTree
  | .inlineFragment typeCondition directives set info =>
    .node .inlineFragment info
      [(typeCondition.map NamedType.toTree).toList, directives.map Directive.toTree,
        [set.toTree]]

def Selection.toTrees : List (Selection α) → List (Tree α)
  | [] => []
  | s :: ss => s.toTree :: Selection.toTrees ss

def SelectionSet.toTree : SelectionSet α → Tree α
  | .mk items info => .node .selectionSet info [Selection.toTrees items]

end

def VariableDefinition.toTree (v : VariableDefinition α) : Tree α :=
  .node .variableDefinition v.info
    [(v.description.map StringValue.toTree).toList, [v.var.toTree], [v.type.toTree],
      (v.default.map Value.toTree).toList, v.directives.map Directive.toTree]

def Operation.toTree (o : Operation α) : Tree α :=
  .node (.operationDefinition o.kind) o.info
    [(o.description.map StringValue.toTree).toList, (o.name.map Name.toTree).toList,
      o.variableDefinitions.map VariableDefinition.toTree, o.directives.map Directive.toTree,
      [o.selections.toTree]]

def Fragment.toTree (f : Fragment α) : Tree α :=
  .node .fragmentDefinition f.info
    [(f.description.map StringValue.toTree).toList, [f.name.toTree], [f.typeCondition.toTree],
      f.directives.map Directive.toTree, [f.selections.toTree]]

def Definition.toTree : Definition α → Tree α
  | .operation o => o.toTree
  | .fragment f => f.toTree

def Document.toTree (d : Document α) : Tree α :=
  .node .document d.info [d.definitions.map Definition.toTree]

/-- The uniform tree of a node. -/
def Node.toTree : Node α → Tree α
  | .name n => n.toTree
  | .document d => d.toTree
  | .definition d => d.toTree
  | .variableDefinition v => v.toTree
  | .selectionSet s => s.toTree
  | .selection s => s.toTree
  | .argument a => a.toTree
  | .value v => v.toTree
  | .objectField f => f.toTree
  | .directive d => d.toTree
  | .type t => t.toTree

namespace Tree

/-- A slot that may be empty, its node read by `f`. -/
def optional? {β : Type} (f : Tree α → Option β) : List (Tree α) → Option (Option β)
  | [] => some none
  | [t] => (f t).map some
  | _ => none

def toName? : Tree α → Option (Name α)
  | .node (.name value) info [] => some ⟨value, info⟩
  | _ => none

def toStringValue? : Tree α → Option (StringValue α)
  | .node (.stringValue value block) info [] => some ⟨value, block, info⟩
  | _ => none

def toVariable? : Tree α → Option (Variable α)
  | .node .variable info [[name]] => return ⟨← name.toName?, info⟩
  | _ => none

mutual

def toValue? : Tree α → Option (Value α)
  | .node .variable info slots => (toVariable? (.node .variable info slots)).map .variable
  | .node (.intValue text) info [] => some (.int text info)
  | .node (.floatValue text) info [] => some (.float text info)
  | .node (.stringValue value block) info [] => some (.string ⟨value, block, info⟩)
  | .node (.booleanValue b) info [] => some (.boolean b info)
  | .node .nullValue info [] => some (.null info)
  | .node (.enumValue name) info [] => some (.enum name info)
  | .node .listValue info [items] => return .list (← toValues? items) info
  | .node .objectValue info [fields] => return .object (← toObjectFields? fields) info
  | _ => none

def toValues? : List (Tree α) → Option (List (Value α))
  | [] => some []
  | t :: ts => return (← t.toValue?) :: (← toValues? ts)

def toObjectField? : Tree α → Option (ObjectField α)
  | .node .objectField info [[name], [value]] =>
    return .mk (← name.toName?) (← value.toValue?) info
  | _ => none

def toObjectFields? : List (Tree α) → Option (List (ObjectField α))
  | [] => some []
  | t :: ts => return (← t.toObjectField?) :: (← toObjectFields? ts)

end

def toNamedType? : Tree α → Option (NamedType α)
  | .node .namedType info [[name]] => return ⟨← name.toName?, info⟩
  | _ => none

def toTypeRef? : Tree α → Option (TypeRef α)
  | .node .namedType info slots =>
    (toNamedType? (.node .namedType info slots)).map fun t => .nullable (.named t)
  | .node .listType info [[item]] => return .nullable (.list (← item.toTypeRef?) info)
  | .node .nonNullType info [[t]] =>
    match t.toTypeRef? with
    | some (.nullable t) => some (.nonNull t info)
    | _ => none
  | _ => none

def toArgument? : Tree α → Option (Argument α)
  | .node .argument info [[name], [value]] =>
    return ⟨← name.toName?, ← value.toValue?, info⟩
  | _ => none

def toDirective? : Tree α → Option (Directive α)
  | .node .directive info [[name], arguments] =>
    return ⟨← name.toName?, ← arguments.mapM toArgument?, info⟩
  | _ => none

mutual

def toSelection? : Tree α → Option (Selection α)
  | .node .field info [aliasName, [name], arguments, directives, []] =>
    return .field (← optional? toName? aliasName) (← name.toName?)
      (← arguments.mapM toArgument?) (← directives.mapM toDirective?) none info
  | .node .field info [aliasName, [name], arguments, directives, [set]] =>
    return .field (← optional? toName? aliasName) (← name.toName?)
      (← arguments.mapM toArgument?) (← directives.mapM toDirective?)
      (some (← set.toSelectionSet?)) info
  | .node .fragmentSpread info [[name], directives] =>
    return .spread ⟨← name.toName?, ← directives.mapM toDirective?, info⟩
  | .node .inlineFragment info [typeCondition, directives, [set]] =>
    return .inlineFragment (← optional? toNamedType? typeCondition)
      (← directives.mapM toDirective?) (← set.toSelectionSet?) info
  | _ => none

def toSelections? : List (Tree α) → Option (List (Selection α))
  | [] => some []
  | t :: ts => return (← t.toSelection?) :: (← toSelections? ts)

def toSelectionSet? : Tree α → Option (SelectionSet α)
  | .node .selectionSet info [items] => return .mk (← toSelections? items) info
  | _ => none

end

def toVariableDefinition? : Tree α → Option (VariableDefinition α)
  | .node .variableDefinition info [description, [v], [type], default, directives] =>
    return ⟨← optional? toStringValue? description, ← v.toVariable?, ← type.toTypeRef?,
      ← optional? toValue? default, ← directives.mapM toDirective?, info⟩
  | _ => none

def toDefinition? : Tree α → Option (Definition α)
  | .node (.operationDefinition kind) info [description, name, definitions, directives, [set]] =>
    return .operation ⟨← optional? toStringValue? description, kind, ← optional? toName? name,
      ← definitions.mapM toVariableDefinition?, ← directives.mapM toDirective?,
      ← set.toSelectionSet?, info⟩
  | .node .fragmentDefinition info [description, [name], [typeCondition], directives, [set]] =>
    return .fragment ⟨← optional? toStringValue? description, ← name.toName?,
      ← typeCondition.toNamedType?, ← directives.mapM toDirective?, ← set.toSelectionSet?, info⟩
  | _ => none

def toDocument? : Tree α → Option (Document α)
  | .node .document info [definitions] => return ⟨← definitions.mapM toDefinition?, info⟩
  | _ => none

/-- The node that a tree is the uniform tree of, if there is one. -/
def toNode? (t : Tree α) : Option (Node α) :=
  match t.kind with
  | .name => t.toName?.map .name
  | .document => t.toDocument?.map .document
  | .operationDefinition => t.toDefinition?.map .definition
  | .fragmentDefinition => t.toDefinition?.map .definition
  | .variableDefinition => t.toVariableDefinition?.map .variableDefinition
  | .selectionSet => t.toSelectionSet?.map .selectionSet
  | .field => t.toSelection?.map .selection
  | .fragmentSpread => t.toSelection?.map .selection
  | .inlineFragment => t.toSelection?.map .selection
  | .argument => t.toArgument?.map .argument
  | .objectField => t.toObjectField?.map .objectField
  | .directive => t.toDirective?.map .directive
  | .namedType => t.toTypeRef?.map .type
  | .listType => t.toTypeRef?.map .type
  | .nonNullType => t.toTypeRef?.map .type
  | .variable => t.toValue?.map .value
  | .intValue => t.toValue?.map .value
  | .floatValue => t.toValue?.map .value
  | .stringValue => t.toValue?.map .value
  | .booleanValue => t.toValue?.map .value
  | .nullValue => t.toValue?.map .value
  | .enumValue => t.toValue?.map .value
  | .listValue => t.toValue?.map .value
  | .objectValue => t.toValue?.map .value

/-- The canonical text of a tree, empty for a tree that is no node. -/
def print (t : Tree α) : String := (t.toNode?.map Node.print).getD ""

end Tree

end QueryDoc
