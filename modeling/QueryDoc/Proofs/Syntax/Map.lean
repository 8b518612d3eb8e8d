import QueryDoc.Syntax.Document
import Mathlib.Logic.Basic

/-!
# Changing what nodes carry

Mapping the information of a tree follows its shape, so two maps in a row are
one. A tree that carries nothing is the shape itself, and every tree with the
same information at all nodes is a map of its shape.
-/
namespace QueryDoc

variable {α β γ : Type}

/-- Drops what a node carries. -/
def forget (_ : α) : Unit := ()

@[simp] theorem Value.mapList_eq (f : α → β) (vs : List (Value α)) :
    Value.mapList f vs = vs.map (Value.map f) := by
  induction vs with
  | nil => rfl
  | cons v vs ih => simp only [Value.mapList, ih, List.map_cons]

@[simp] theorem ObjectField.mapList_eq (f : α → β) (fs : List (ObjectField α)) :
    ObjectField.mapList f fs = fs.map (ObjectField.map f) := by
  induction fs with
  | nil => rfl
  | cons x fs ih => simp only [ObjectField.mapList, ih, List.map_cons]

@[simp] theorem Selection.mapList_eq (f : α → β) (ss : List (Selection α)) :
    Selection.mapList f ss = ss.map (Selection.map f) := by
  induction ss with
  | nil => rfl
  | cons s ss ih => simp only [Selection.mapList, ih, List.map_cons]

@[simp] theorem Selection.map_field (f : α → β) (a : Option (Name α)) (n : Name α)
    (as : List (Argument α)) (ds : List (Directive α)) (set : Option (SelectionSet α)) (i : α) :
    (Selection.field a n as ds set i).map f =
      .field (a.map (Name.map f)) (n.map f) (as.map (Argument.map f)) (ds.map (Directive.map f))
        (set.map (SelectionSet.map f)) (f i) := by
  cases set <;> simp only [Selection.map, Option.map_none, Option.map_some]

/-! ## Two maps in a row -/

@[simp] theorem Name.map_map (f : α → β) (g : β → γ) (n : Name α) :
    (n.map f).map g = n.map fun a => g (f a) := rfl

@[simp] theorem StringValue.map_map (f : α → β) (g : β → γ) (s : StringValue α) :
    (s.map f).map g = s.map fun a => g (f a) := rfl

@[simp] theorem Variable.map_map (f : α → β) (g : β → γ) (v : Variable α) :
    (v.map f).map g = v.map fun a => g (f a) := rfl

@[simp] theorem NamedType.map_map (f : α → β) (g : β → γ) (t : NamedType α) :
    (t.map f).map g = t.map fun a => g (f a) := rfl

mutual

theorem Value.map_map (f : α → β) (g : β → γ) :
    (v : Value α) → (v.map f).map g = v.map fun a => g (f a)
  | .variable _ => rfl
  | .int _ _ => rfl
  | .float _ _ => rfl
  | .string _ => rfl
  | .boolean _ _ => rfl
  | .null _ => rfl
  | .enum _ _ => rfl
  | .list items _ => congrArg (Value.list · _) (Value.mapList_mapList f g items)
  | .object fields _ => congrArg (Value.object · _) (ObjectField.mapList_mapList f g fields)

theorem Value.mapList_mapList (f : α → β) (g : β → γ) : (vs : List (Value α)) →
    Value.mapList g (Value.mapList f vs) = Value.mapList (fun a => g (f a)) vs
  | [] => rfl
  | v :: vs => congrArg₂ List.cons (Value.map_map f g v) (Value.mapList_mapList f g vs)

theorem ObjectField.map_map (f : α → β) (g : β → γ) :
    (x : ObjectField α) → (x.map f).map g = x.map fun a => g (f a)
  | .mk _ v _ => congrArg (ObjectField.mk _ · _) (Value.map_map f g v)

theorem ObjectField.mapList_mapList (f : α → β) (g : β → γ) : (xs : List (ObjectField α)) →
    ObjectField.mapList g (ObjectField.mapList f xs) = ObjectField.mapList (fun a => g (f a)) xs
  | [] => rfl
  | x :: xs => congrArg₂ List.cons (ObjectField.map_map f g x) (ObjectField.mapList_mapList f g xs)

end

mutual

theorem TypeRef.map_map (f : α → β) (g : β → γ) :
    (t : TypeRef α) → (t.map f).map g = t.map fun a => g (f a)
  | .nullable t => congrArg TypeRef.nullable (NullableType.map_map f g t)
  | .nonNull t _ => congrArg (TypeRef.nonNull · _) (NullableType.map_map f g t)

theorem NullableType.map_map (f : α → β) (g : β → γ) :
    (t : NullableType α) → (t.map f).map g = t.map fun a => g (f a)
  | .named _ => rfl
  | .list t _ => congrArg (NullableType.list · _) (TypeRef.map_map f g t)

end

@[simp] theorem Argument.map_map (f : α → β) (g : β → γ) (a : Argument α) :
    (a.map f).map g = a.map fun i => g (f i) := by
  simp only [Argument.map, Name.map_map, Value.map_map]

@[simp] theorem Directive.map_map (f : α → β) (g : β → γ) (d : Directive α) :
    (d.map f).map g = d.map fun i => g (f i) := by
  simp only [Directive.map, Name.map_map, List.map_map, Function.comp_def, Argument.map_map]

@[simp] theorem FragmentSpread.map_map (f : α → β) (g : β → γ) (s : FragmentSpread α) :
    (s.map f).map g = s.map fun i => g (f i) := by
  simp only [FragmentSpread.map, Name.map_map, List.map_map, Function.comp_def, Directive.map_map]

mutual

theorem Selection.map_map (f : α → β) (g : β → γ) :
    (s : Selection α) → (s.map f).map g = s.map fun a => g (f a)
  | .field _ _ _ _ none _ => by
    simp only [Selection.map, Option.map_map, List.map_map, Function.comp_def, Name.map_map,
      Argument.map_map, Directive.map_map]
  | .field _ _ _ _ (some set) _ => by
    simp only [Selection.map, Option.map_map, List.map_map, Function.comp_def, Name.map_map,
      Argument.map_map, Directive.map_map, SelectionSet.map_map f g set]
  | .spread _ => by simp only [Selection.map, FragmentSpread.map_map]
  | .inlineFragment _ _ set _ => by
    simp only [Selection.map, Option.map_map, List.map_map, Function.comp_def, NamedType.map_map,
      Directive.map_map, SelectionSet.map_map f g set]

theorem Selection.mapList_mapList (f : α → β) (g : β → γ) : (ss : List (Selection α)) →
    Selection.mapList g (Selection.mapList f ss) = Selection.mapList (fun a => g (f a)) ss
  | [] => rfl
  | s :: ss => congrArg₂ List.cons (Selection.map_map f g s) (Selection.mapList_mapList f g ss)

theorem SelectionSet.map_map (f : α → β) (g : β → γ) :
    (s : SelectionSet α) → (s.map f).map g = s.map fun a => g (f a)
  | .mk items _ => congrArg (SelectionSet.mk · _) (Selection.mapList_mapList f g items)

end

@[simp] theorem VariableDefinition.map_map (f : α → β) (g : β → γ) (v : VariableDefinition α) :
    (v.map f).map g = v.map fun i => g (f i) := by
  simp only [VariableDefinition.map, Option.map_map, List.map_map, Function.comp_def,
    StringValue.map_map, Variable.map_map, TypeRef.map_map, Value.map_map, Directive.map_map]

@[simp] theorem Operation.map_map (f : α → β) (g : β → γ) (o : Operation α) :
    (o.map f).map g = o.map fun i => g (f i) := by
  simp only [Operation.map, Option.map_map, List.map_map, Function.comp_def, StringValue.map_map,
    Name.map_map, VariableDefinition.map_map, Directive.map_map, SelectionSet.map_map]

@[simp] theorem Fragment.map_map (f : α → β) (g : β → γ) (d : Fragment α) :
    (d.map f).map g = d.map fun i => g (f i) := by
  simp only [Fragment.map, Option.map_map, List.map_map, Function.comp_def, StringValue.map_map,
    Name.map_map, NamedType.map_map, Directive.map_map, SelectionSet.map_map]

@[simp] theorem Definition.map_map (f : α → β) (g : β → γ) (d : Definition α) :
    (d.map f).map g = d.map fun i => g (f i) := by
  cases d <;> simp only [Definition.map, Operation.map_map, Fragment.map_map]

theorem Document.map_map (f : α → β) (g : β → γ) (d : Document α) :
    (d.map f).map g = d.map fun i => g (f i) := by
  simp only [Document.map, List.map_map, Function.comp_def, Definition.map_map]

end QueryDoc
