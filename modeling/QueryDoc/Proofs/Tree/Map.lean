import QueryDoc.Proofs.Syntax.Map
import QueryDoc.Proofs.Tree.Shape

/-!
# Uniform trees and what nodes carry

The uniform tree of a node follows its shape, so it does not matter whether what
the nodes carry is changed before the tree is made or after.
-/
namespace QueryDoc

variable {α β : Type}

theorem Name.toTree_map (f : α → β) (n : Name α) : (n.map f).toTree = n.toTree.map f := rfl

theorem StringValue.toTree_map (f : α → β) (s : StringValue α) :
    (s.map f).toTree = s.toTree.map f := rfl

theorem Variable.toTree_map (f : α → β) (v : Variable α) : (v.map f).toTree = v.toTree.map f := rfl

theorem NamedType.toTree_map (f : α → β) (t : NamedType α) :
    (t.map f).toTree = t.toTree.map f := rfl

/-- Trees of the members of a list, changed before or after. -/
theorem Tree.map_toTrees {γ δ : Type} {f : α → β} {g : γ → δ} {tree : γ → Tree α}
    {tree' : δ → Tree β} {cs : List γ} (h : ∀ c ∈ cs, tree' (g c) = (tree c).map f) :
    (cs.map g).map tree' = (cs.map tree).map (Tree.map f) := by
  rw [List.map_map, List.map_map]
  exact List.map_congr_left h

theorem Tree.map_toTree? {γ δ : Type} {f : α → β} {g : γ → δ} {tree : γ → Tree α}
    {tree' : δ → Tree β} {o : Option γ} (h : ∀ c ∈ o, tree' (g c) = (tree c).map f) :
    ((o.map g).map tree').toList = (o.map tree).toList.map (Tree.map f) := by
  cases o with
  | none => rfl
  | some c => exact congrArg (fun t => [t]) (h c rfl)

theorem Value.toTree_map (f : α → β) (v : Value α) : (v.map f).toTree = v.toTree.map f := by
  induction v using Value.induct with
  | list items i ih =>
    simp only [map, mapList_eq, toTree, toTrees_eq, Tree.map_node, List.map_cons, List.map_nil]
    rw [Tree.map_toTrees ih]
  | object fields i ih =>
    have field : ∀ x ∈ fields, (x.map f).toTree = x.toTree.map f := by
      rintro ⟨name, value, j⟩ hx
      have h : (value.map f).toTree = value.toTree.map f := ih _ hx
      simp only [ObjectField.map, ObjectField.toTree, Tree.map_node, List.map_cons, List.map_nil, h,
        Name.toTree_map]
    simp only [map, ObjectField.mapList_eq, toTree, ObjectField.toTrees_eq, Tree.map_node,
      List.map_cons, List.map_nil]
    rw [Tree.map_toTrees field]
  | _ => rfl

theorem ObjectField.toTree_map (f : α → β) (x : ObjectField α) :
    (x.map f).toTree = x.toTree.map f := by
  cases x
  simp only [map, toTree, Tree.map_node, List.map_cons, List.map_nil, Value.toTree_map,
    Name.toTree_map]

mutual

theorem TypeRef.toTree_map (f : α → β) : (t : TypeRef α) → (t.map f).toTree = t.toTree.map f
  | .nullable t => t.toTree_map f
  | .nonNull t i => by
    simp only [TypeRef.map, TypeRef.toTree, Tree.map_node, List.map_cons, List.map_nil,
      NullableType.toTree_map f t]

theorem NullableType.toTree_map (f : α → β) :
    (t : NullableType α) → (t.map f).toTree = t.toTree.map f
  | .named _ => rfl
  | .list item i => by
    simp only [NullableType.map, NullableType.toTree, Tree.map_node, List.map_cons, List.map_nil,
      TypeRef.toTree_map f item]

end

theorem Argument.toTree_map (f : α → β) (a : Argument α) : (a.map f).toTree = a.toTree.map f := by
  simp only [map, toTree, Tree.map_node, List.map_cons, List.map_nil, Value.toTree_map,
    Name.toTree_map]

theorem arguments_toTree_map (f : α → β) (as : List (Argument α)) :
    (as.map (Argument.map f)).map Argument.toTree =
      (as.map Argument.toTree).map (Tree.map f) :=
  Tree.map_toTrees fun a _ => a.toTree_map f

theorem Directive.toTree_map (f : α → β) (d : Directive α) :
    (d.map f).toTree = d.toTree.map f := by
  simp only [map, toTree, Tree.map_node, List.map_cons, List.map_nil, Name.toTree_map]
  rw [arguments_toTree_map]

theorem directives_toTree_map (f : α → β) (ds : List (Directive α)) :
    (ds.map (Directive.map f)).map Directive.toTree =
      (ds.map Directive.toTree).map (Tree.map f) :=
  Tree.map_toTrees fun d _ => d.toTree_map f

theorem FragmentSpread.toTree_map (f : α → β) (s : FragmentSpread α) :
    (s.map f).toTree = s.toTree.map f := by
  simp only [map, toTree, Tree.map_node, List.map_cons, List.map_nil, Name.toTree_map]
  rw [directives_toTree_map]

theorem Selection.toTree_map_of_inner {f : α → β} {s : Selection α}
    (inner : ∀ set ∈ s.inner?, (set.map f).toTree = set.toTree.map f) :
    (s.map f).toTree = s.toTree.map f := by
  cases s with
  | field a n as ds set i =>
    simp only [map_field, toTree_field, Tree.map_node, List.map_cons, List.map_nil,
      Name.toTree_map]
    have set' : ((set.map (SelectionSet.map f)).map SelectionSet.toTree).toList =
        (set.map SelectionSet.toTree).toList.map (Tree.map f) := Tree.map_toTree? inner
    rw [Tree.map_toTree? fun a _ => a.toTree_map f, arguments_toTree_map, directives_toTree_map,
      set']
  | spread s => exact s.toTree_map f
  | inlineFragment c ds set i =>
    simp only [map, toTree, Tree.map_node, List.map_cons, List.map_nil, inner set rfl]
    rw [Tree.map_toTree? fun c _ => c.toTree_map f, directives_toTree_map]

theorem SelectionSet.toTree_map (f : α → β) (set : SelectionSet α) :
    (set.map f).toTree = set.toTree.map f := by
  induction set using SelectionSet.induct with
  | mk items i ih =>
    simp only [map, Selection.mapList_eq, toTree, Selection.toTrees_eq, Tree.map_node,
      List.map_cons, List.map_nil]
    rw [Tree.map_toTrees fun s hs => Selection.toTree_map_of_inner (ih s hs)]

theorem Selection.toTree_map (f : α → β) (s : Selection α) : (s.map f).toTree = s.toTree.map f :=
  toTree_map_of_inner fun set _ => set.toTree_map f

theorem VariableDefinition.toTree_map (f : α → β) (v : VariableDefinition α) :
    (v.map f).toTree = v.toTree.map f := by
  simp only [map, toTree, Tree.map_node, List.map_cons, List.map_nil, Variable.toTree_map,
    TypeRef.toTree_map]
  rw [Tree.map_toTree? fun s _ => s.toTree_map f, Tree.map_toTree? fun x _ => x.toTree_map f,
    directives_toTree_map]

theorem Definition.toTree_map (f : α → β) (d : Definition α) :
    (d.map f).toTree = d.toTree.map f := by
  cases d with
  | operation o =>
    simp only [map, toTree, Operation.map, Operation.toTree, Tree.map_node, List.map_cons,
      List.map_nil, SelectionSet.toTree_map]
    have vs : (o.variableDefinitions.map (VariableDefinition.map f)).map
        VariableDefinition.toTree =
          (o.variableDefinitions.map VariableDefinition.toTree).map (Tree.map f) :=
      Tree.map_toTrees fun v _ => v.toTree_map f
    rw [Tree.map_toTree? fun s _ => s.toTree_map f, Tree.map_toTree? fun n _ => n.toTree_map f,
      vs, directives_toTree_map]
  | fragment x =>
    simp only [map, toTree, Fragment.map, Fragment.toTree, Tree.map_node, List.map_cons,
      List.map_nil, SelectionSet.toTree_map, Name.toTree_map, NamedType.toTree_map]
    rw [Tree.map_toTree? fun s _ => s.toTree_map f, directives_toTree_map]

theorem Document.toTree_map (f : α → β) (d : Document α) : (d.map f).toTree = d.toTree.map f := by
  simp only [map, toTree, Tree.map_node, List.map_cons, List.map_nil]
  rw [Tree.map_toTrees fun x _ => x.toTree_map f]

theorem Node.toTree_map (f : α → β) (n : Node α) : (n.map f).toTree = n.toTree.map f := by
  cases n with
  | name n => exact n.toTree_map f
  | document d => exact d.toTree_map f
  | definition d => exact d.toTree_map f
  | variableDefinition v => exact v.toTree_map f
  | selectionSet s => exact s.toTree_map f
  | selection s => exact s.toTree_map f
  | argument a => exact a.toTree_map f
  | value v => exact v.toTree_map f
  | objectField x => exact x.toTree_map f
  | directive d => exact d.toTree_map f
  | type t => exact t.toTree_map f

end QueryDoc
