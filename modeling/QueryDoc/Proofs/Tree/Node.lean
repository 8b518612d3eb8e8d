import QueryDoc.Proofs.Tree.Shape

/-!
# Back from uniform trees

The tree of a node is read back as that node. So no two nodes have the same
tree, and what a tree is the tree of can be computed.
-/
namespace QueryDoc

variable {α β : Type}

namespace Tree

theorem optional_toList {f : Tree α → Option β} {g : β → Tree α} (o : Option β)
    (h : ∀ x ∈ o, f (g x) = some x) : optional? f (o.map g).toList = some o := by
  cases o with
  | none => rfl
  | some x => rw [Option.map_some, Option.toList_some, optional?, h x rfl, Option.map_some]

theorem mapM_map {f : Tree α → Option β} {g : β → Tree α} (xs : List β)
    (h : ∀ x ∈ xs, f (g x) = some x) : (xs.map g).mapM f = some xs := by
  induction xs with
  | nil => rfl
  | cons x xs ih =>
    rw [List.forall_mem_cons] at h
    rw [List.map_cons, List.mapM_cons, h.1, ih h.2]
    rfl

end Tree

open QueryDoc.Tree

theorem Name.toName_toTree (n : Name α) : n.toTree.toName? = some n := rfl

theorem StringValue.toStringValue_toTree (s : StringValue α) :
    s.toTree.toStringValue? = some s := rfl

theorem Value.toValue_toTree (v : Value α) : v.toTree.toValue? = some v := by
  induction v using Value.induct with
  | list items i ih =>
    have hitems : toValues? (toTrees items) = some items := by
      clear i
      induction items with
      | nil => rfl
      | cons v vs ihs =>
        rw [List.forall_mem_cons] at ih
        rw [toTrees, toValues?, ih.1, ihs ih.2]
        rfl
    rw [toTree, toValue?, hitems]
    rfl
  | object fields i ih =>
    have hfields : toObjectFields? (ObjectField.toTrees fields) = some fields := by
      clear i
      induction fields with
      | nil => rfl
      | cons f fs ihs =>
        rw [List.forall_mem_cons] at ih
        obtain ⟨name, value, j⟩ := f
        have hvalue : value.toTree.toValue? = some value := ih.1
        rw [ObjectField.toTrees, toObjectFields?, ObjectField.toTree, toObjectField?, hvalue,
          ihs ih.2]
        rfl
    rw [toTree, toValue?, hfields]
    rfl
  | _ => rfl

theorem ObjectField.toObjectField_toTree (f : ObjectField α) :
    f.toTree.toObjectField? = some f := by
  obtain ⟨name, value, i⟩ := f
  rw [toTree, toObjectField?, value.toValue_toTree]
  rfl

theorem NamedType.toNamedType_toTree (t : NamedType α) : t.toTree.toNamedType? = some t := rfl

mutual

theorem TypeRef.toTypeRef_toTree : (t : TypeRef α) → t.toTree.toTypeRef? = some t
  | .nullable t => t.toTypeRef_toTree
  | .nonNull t i => by rw [TypeRef.toTree, toTypeRef?, t.toTypeRef_toTree]

theorem NullableType.toTypeRef_toTree :
    (t : NullableType α) → t.toTree.toTypeRef? = some (.nullable t)
  | .named t => rfl
  | .list item i => by rw [NullableType.toTree, toTypeRef?, item.toTypeRef_toTree]; rfl

end

theorem Argument.toArgument_toTree (a : Argument α) : a.toTree.toArgument? = some a := by
  rw [toTree, toArgument?, a.value.toValue_toTree]
  rfl

theorem Directive.toDirective_toTree (d : Directive α) : d.toTree.toDirective? = some d := by
  rw [toTree, toDirective?, mapM_map _ fun a _ => Argument.toArgument_toTree a]
  rfl

theorem directives_mapM (ds : List (Directive α)) :
    (ds.map Directive.toTree).mapM toDirective? = some ds :=
  mapM_map _ fun d _ => d.toDirective_toTree

theorem Selection.toSelection_of_inner {s : Selection α}
    (inner : ∀ set ∈ s.inner?, set.toTree.toSelectionSet? = some set) :
    s.toTree.toSelection? = some s := by
  have arguments (as : List (Argument α)) : (as.map Argument.toTree).mapM toArgument? = some as :=
    mapM_map _ fun a _ => a.toArgument_toTree
  cases s with
  | field a n as ds set i =>
    have aliasName := optional_toList a fun x _ => x.toName_toTree
    cases set with
    | none =>
      rw [toTree, toSelection?, aliasName, arguments, directives_mapM]
      rfl
    | some set =>
      rw [toTree, toSelection?, aliasName, arguments, directives_mapM, inner set rfl]
      rfl
  | spread s =>
    rw [toTree, FragmentSpread.toTree, toSelection?, directives_mapM]
    rfl
  | inlineFragment c ds set i =>
    have cond := optional_toList c fun x _ => x.toNamedType_toTree
    rw [toTree, toSelection?, cond, directives_mapM, inner set rfl]
    rfl

theorem SelectionSet.toSelectionSet_toTree (set : SelectionSet α) :
    set.toTree.toSelectionSet? = some set := by
  induction set using SelectionSet.induct with
  | mk items i ih =>
    have hitems : toSelections? (Selection.toTrees items) = some items := by
      clear i
      induction items with
      | nil => rfl
      | cons s ss ihs =>
        rw [List.forall_mem_cons] at ih
        rw [Selection.toTrees, toSelections?, Selection.toSelection_of_inner ih.1, ihs ih.2]
        rfl
    rw [toTree, toSelectionSet?, hitems]
    rfl

theorem Selection.toSelection_toTree (s : Selection α) : s.toTree.toSelection? = some s :=
  toSelection_of_inner fun set _ => set.toSelectionSet_toTree

theorem VariableDefinition.toVariableDefinition_toTree (v : VariableDefinition α) :
    v.toTree.toVariableDefinition? = some v := by
  rw [toTree, toVariableDefinition?, v.type.toTypeRef_toTree, directives_mapM,
    optional_toList _ fun x _ => x.toStringValue_toTree,
    optional_toList _ fun x _ => x.toValue_toTree]
  rfl

theorem Definition.toDefinition_toTree (d : Definition α) : d.toTree.toDefinition? = some d := by
  cases d with
  | operation o =>
    rw [toTree, Operation.toTree, toDefinition?, directives_mapM,
      o.selections.toSelectionSet_toTree, optional_toList _ fun x _ => x.toStringValue_toTree,
      optional_toList _ fun x _ => x.toName_toTree,
      mapM_map _ fun v _ => VariableDefinition.toVariableDefinition_toTree v]
    rfl
  | fragment f =>
    rw [toTree, Fragment.toTree, toDefinition?, directives_mapM, f.selections.toSelectionSet_toTree,
      optional_toList _ fun x _ => x.toStringValue_toTree]
    rfl

theorem Document.toDocument_toTree (d : Document α) : d.toTree.toDocument? = some d := by
  rw [toTree, toDocument?, mapM_map _ fun d _ => Definition.toDefinition_toTree d]
  rfl

/-- The tree of a node is read back as the node. -/
theorem Node.toNode_toTree (n : Node α) : n.toTree.toNode? = some n := by
  cases n with
  | name n => rfl
  | document d => exact congrArg (Option.map Node.document) d.toDocument_toTree
  | definition d =>
    have h := congrArg (Option.map Node.definition) d.toDefinition_toTree
    cases d <;> exact h
  | variableDefinition v =>
    exact congrArg (Option.map Node.variableDefinition) v.toVariableDefinition_toTree
  | selectionSet s =>
    have h := congrArg (Option.map Node.selectionSet) s.toSelectionSet_toTree
    cases s
    exact h
  | selection s =>
    have h := congrArg (Option.map Node.selection) s.toSelection_toTree
    cases s with
    | field a n as ds set i => cases set <;> exact h
    | spread s => exact h
    | inlineFragment c ds set i => exact h
  | argument a => exact congrArg (Option.map Node.argument) a.toArgument_toTree
  | value v =>
    have h := congrArg (Option.map Node.value) v.toValue_toTree
    cases v <;> exact h
  | objectField f =>
    have h := congrArg (Option.map Node.objectField) f.toObjectField_toTree
    cases f
    exact h
  | directive d => exact congrArg (Option.map Node.directive) d.toDirective_toTree
  | type t =>
    have h := congrArg (Option.map Node.type) t.toTypeRef_toTree
    cases t with
    | nullable t => cases t <;> exact h
    | nonNull t i => exact h

/-- No two nodes have the same tree. -/
theorem Node.toTree_injective : Function.Injective (@Node.toTree α) := fun n m h =>
  Option.some.inj (by rw [← n.toNode_toTree, ← m.toNode_toTree, h])

end QueryDoc
