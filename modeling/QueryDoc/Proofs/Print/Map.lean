import QueryDoc.Proofs.Print.Emission

/-!
# Printing looks at the shape alone

What nodes carry does not reach the text, so a tree and its shape are printed
alike, and their strings lie at the same depths.
-/
namespace QueryDoc

variable {α β γ δ : Type} (f : α → β) (depth : Nat)

theorem map_map_eq {r : α → β} {g : β → γ} {h : α → γ} {xs : List α}
    (hr : ∀ x ∈ xs, g (r x) = h x) : (xs.map r).map g = xs.map h := by
  rw [List.map_map]
  exact List.map_congr_left hr

theorem flatMap_map_eq {r : α → β} {g : γ → δ} {t : α → List γ} {u : β → List δ} {xs : List α}
    (hr : ∀ x ∈ xs, u (r x) = (t x).map g) :
    (xs.map r).flatMap u = (xs.flatMap t).map g := by
  rw [List.flatMap_map, List.map_flatMap]
  exact List.flatMap_congr hr

namespace Printer

/-! ## Texts -/

@[simp] theorem value_map (v : Value α) : value depth (v.map f) = value depth v := by
  induction v using Value.induct with
  | list items i ih =>
    rw [Value.map, value, value, Value.mapList_eq, values_eq, values_eq, map_map_eq ih]
  | object fields i ih =>
    have hfields : ∀ x ∈ fields, objectField depth (x.map f) = objectField depth x := by
      intro x hx
      have hv := ih x hx
      obtain ⟨n, v, j⟩ := x
      exact congrArg (n.value ++ ": " ++ ·) hv
    rw [Value.map, value, value, ObjectField.mapList_eq, objectFields_eq, objectFields_eq,
      map_map_eq hfields]
  | _ => rfl

@[simp] theorem argument_map (a : Argument α) : argument depth (a.map f) = argument depth a :=
  congrArg (a.name.value ++ ": " ++ ·) (value_map f depth a.value)

theorem arguments_map (as : List (Argument α)) :
    (as.map (Argument.map f)).map (argument depth) = as.map (argument depth) :=
  map_map_eq fun a _ => argument_map f depth a

@[simp] theorem argumentLine_map (as : List (Argument α)) :
    argumentLine depth (as.map (Argument.map f)) = argumentLine depth as := by
  rw [argumentLine, argumentLine, arguments_map]

@[simp] theorem argumentLines_map (as : List (Argument α)) :
    argumentLines depth (as.map (Argument.map f)) = argumentLines depth as := by
  rw [argumentLines, argumentLines, arguments_map]

@[simp] theorem directive_map (d : Directive α) :
    directive depth (d.map f) = directive depth d := by
  simp [directive, Directive.map, Name.map]

@[simp] theorem directives_map (ds : List (Directive α)) :
    directives depth (ds.map (Directive.map f)) = directives depth ds := by
  have hspaced : ∀ d ∈ ds, " " ++ directive depth (d.map f) = " " ++ directive depth d :=
    fun d _ => congrArg (" " ++ ·) (directive_map f depth d)
  exact congrArg String.join (map_map_eq hspaced)

@[simp] theorem fieldName_map (a : Option (Name α)) (n : Name α) :
    fieldName (a.map (Name.map f)) (n.map f) = fieldName a n := by cases a <;> rfl

@[simp] theorem fieldHead_map (a : Option (Name α)) (n : Name α) (as : List (Argument α))
    (ds : List (Directive α)) :
    fieldHead depth (a.map (Name.map f)) (n.map f) (as.map (Argument.map f))
      (ds.map (Directive.map f)) = fieldHead depth a n as ds := by
  simp [fieldHead, fieldArguments]

@[simp] theorem inlineHead_map (t : Option (NamedType α)) (ds : List (Directive α)) :
    inlineHead depth (t.map (NamedType.map f)) (ds.map (Directive.map f)) =
      inlineHead depth t ds := by
  cases t <;> simp [inlineHead, NamedType.map, Name.map]

theorem selection_map {s : Selection α}
    (h : ∀ set ∈ s.inner?, selectionSet depth (set.map f) = selectionSet depth set) :
    selection depth (s.map f) = selection depth s := by
  cases s with
  | field a n as ds set i =>
    cases set with
    | none => exact fieldHead_map f depth a n as ds
    | some set =>
      rw [Selection.map_field, Option.map_some, selection, selection, fieldHead_map, h set rfl]
  | spread s => exact congrArg ("..." ++ s.name.value ++ ·) (directives_map f depth s.directives)
  | inlineFragment t ds set i =>
    rw [Selection.map, selection, selection, inlineHead_map, h set rfl]

theorem selections_map {ss : List (Selection α)}
    (h : ∀ s ∈ ss, selection depth (s.map f) = selection depth s) :
    selections depth (ss.map (Selection.map f)) = selections depth ss := by
  induction ss with
  | nil => rfl
  | cons s ss ih =>
    obtain ⟨hs, hss⟩ := List.forall_mem_cons.1 h
    rw [List.map_cons, selections_cons, selections_cons, hs, ih hss]

@[simp] theorem selectionSet_map (set : SelectionSet α) :
    selectionSet depth (set.map f) = selectionSet depth set := by
  induction set using SelectionSet.induct generalizing depth with
  | mk items i ih =>
    have hitems := selections_map f (depth + 1) fun s hs => selection_map f (depth + 1)
      fun set hset => ih s hs set hset (depth + 1)
    cases items with
    | nil => rfl
    | cons s ss =>
      rw [SelectionSet.map, Selection.mapList_eq, selectionSet_mk depth (by simp),
        selectionSet_mk depth (by simp), hitems]

mutual

@[simp] theorem typeRef_map (f : α → β) : (t : TypeRef α) → typeRef (t.map f) = typeRef t
  | .nullable t => nullableType_map f t
  | .nonNull t _ => congrArg (· ++ "!") (nullableType_map f t)

theorem nullableType_map (f : α → β) :
    (t : NullableType α) → nullableType (t.map f) = nullableType t
  | .named _ => rfl
  | .list t _ => congrArg ("[" ++ · ++ "]") (typeRef_map f t)

end

@[simp] theorem described_map (d : Option (StringValue α)) (separator text : String) :
    described (d.map (StringValue.map f)) separator text = described d separator text := by
  cases d <;> rfl

@[simp] theorem variableDefinition_map (v : VariableDefinition α) :
    variableDefinition (v.map f) = variableDefinition v := by
  cases hd : v.default <;>
    simp [variableDefinition, VariableDefinition.map, hd, varRef, Variable.map, Name.map]

@[simp] theorem variableDefinitions_map (vs : List (VariableDefinition α)) :
    variableDefinitions (vs.map (VariableDefinition.map f)) = variableDefinitions vs := by
  rw [variableDefinitions, variableDefinitions, List.isEmpty_map,
    map_map_eq fun v _ => variableDefinition_map f v]

@[simp] theorem operation_map (o : Operation α) : operation (o.map f) = operation o := by
  cases hn : o.name <;>
    simp [operation, operationHead, isShort, Operation.map, hn, Name.map]

@[simp] theorem fragment_map (x : Fragment α) : fragment (x.map f) = fragment x := by
  simp [fragment, Fragment.map, NamedType.map, Name.map]

@[simp] theorem definition_map (d : Definition α) : definition (d.map f) = definition d := by
  cases d with
  | operation o => exact operation_map f o
  | fragment x => exact fragment_map f x

@[simp] theorem document_map (d : Document α) : document (d.map f) = document d := by
  rw [document, document, Document.map, map_map_eq fun x _ => definition_map f x]

end Printer

/-! ## Strings -/

/-- A listed string with something else in its node. -/
def relabel (p : Nat × StringValue α) : Nat × StringValue β := (p.1, p.2.map f)

@[simp] theorem argumentDepth_map (a : Option (Name α)) (n : Name α) (as : List (Argument α)) :
    argumentDepth depth (a.map (Name.map f)) (n.map f) (as.map (Argument.map f)) =
      argumentDepth depth a n as := by
  simp [argumentDepth]

theorem Value.strings_map (v : Value α) :
    (v.map f).strings depth = (v.strings depth).map (relabel f) := by
  induction v using Value.induct with
  | list items i ih =>
    simp only [Value.map, Value.strings, Value.mapList_eq, Value.allStrings_eq]
    exact flatMap_map_eq ih
  | object fields i ih =>
    simp only [Value.map, Value.strings, ObjectField.mapList_eq, ObjectField.allStrings_eq]
    apply flatMap_map_eq
    intro x hx
    obtain ⟨n, v, j⟩ := x
    exact ih _ hx
  | _ => rfl

theorem arguments_strings_map (as : List (Argument α)) :
    (as.map (Argument.map f)).flatMap (Argument.strings depth) =
      (as.flatMap (Argument.strings depth)).map (relabel f) :=
  flatMap_map_eq fun a _ => Value.strings_map f depth a.value

theorem directives_strings_map (ds : List (Directive α)) :
    (ds.map (Directive.map f)).flatMap (Directive.strings depth) =
      (ds.flatMap (Directive.strings depth)).map (relabel f) :=
  flatMap_map_eq fun d _ => arguments_strings_map f depth d.arguments

theorem Selection.strings_map {s : Selection α}
    (h : ∀ set ∈ s.inner?, (set.map f).strings depth = (set.strings depth).map (relabel f)) :
    (s.map f).strings depth = (s.strings depth).map (relabel f) := by
  cases s with
  | field a n as ds set i =>
    have hset : (set.map (SelectionSet.map f)).toList.flatMap (SelectionSet.strings depth) =
        (set.toList.flatMap (SelectionSet.strings depth)).map (relabel f) := by
      cases set with
      | none => rfl
      | some set => simpa using h set rfl
    rw [Selection.map_field, Selection.strings_field, Selection.strings_field, argumentDepth_map,
      arguments_strings_map, directives_strings_map, hset, List.map_append, List.map_append]
  | spread s => exact directives_strings_map f depth s.directives
  | inlineFragment t ds set i =>
    rw [Selection.map, Selection.strings, Selection.strings, directives_strings_map, h set rfl,
      List.map_append]

theorem SelectionSet.strings_map (set : SelectionSet α) :
    (set.map f).strings depth = (set.strings depth).map (relabel f) := by
  induction set using SelectionSet.induct generalizing depth with
  | mk items i ih =>
    simp only [SelectionSet.map, SelectionSet.strings, Selection.mapList_eq,
      Selection.allStrings_eq]
    exact flatMap_map_eq fun s hs => Selection.strings_map f (depth + 1) fun set hset =>
      ih s hs set hset (depth + 1)

theorem descriptionStrings_map (d : Option (StringValue α)) :
    descriptionStrings (d.map (StringValue.map f)) = (descriptionStrings d).map (relabel f) := by
  cases d <;> rfl

theorem VariableDefinition.strings_map (v : VariableDefinition α) :
    (v.map f).strings = v.strings.map (relabel f) := by
  have hdefault : (v.default.map (Value.map f)).toList.flatMap (Value.strings 0) =
      (v.default.toList.flatMap (Value.strings 0)).map (relabel f) := by
    cases v.default with
    | none => rfl
    | some d => simpa using Value.strings_map f 0 d
  simp only [VariableDefinition.strings, VariableDefinition.map, descriptionStrings_map, hdefault,
    directives_strings_map, List.map_append]

theorem Definition.strings_map (d : Definition α) :
    (d.map f).strings = d.strings.map (relabel f) := by
  cases d with
  | operation o =>
    have hvars : (o.variableDefinitions.map (VariableDefinition.map f)).flatMap
        VariableDefinition.strings =
          (o.variableDefinitions.flatMap VariableDefinition.strings).map (relabel f) :=
      flatMap_map_eq fun v _ => VariableDefinition.strings_map f v
    simp only [Definition.map, Definition.strings, Operation.map, Operation.strings,
      descriptionStrings_map, hvars, directives_strings_map, SelectionSet.strings_map,
      List.map_append]
  | fragment x =>
    simp only [Definition.map, Definition.strings, Fragment.map, Fragment.strings,
      descriptionStrings_map, directives_strings_map, SelectionSet.strings_map, List.map_append]

theorem Document.strings_map (d : Document α) :
    (d.map f).strings = d.strings.map (relabel f) :=
  flatMap_map_eq fun x _ => Definition.strings_map f x

theorem Node.strings_map (n : Node α) : (n.map f).strings = n.strings.map (relabel f) := by
  cases n with
  | name n => rfl
  | document d => exact d.strings_map f
  | definition d => exact d.strings_map f
  | variableDefinition v => exact v.strings_map f
  | selectionSet s => exact s.strings_map f 0
  | selection s => exact s.strings_map f 0 fun set _ => set.strings_map f 0
  | argument a => exact a.value.strings_map f 0
  | value v => exact v.strings_map f 0
  | objectField x =>
    obtain ⟨n, v, i⟩ := x
    exact v.strings_map f 0
  | directive d => exact arguments_strings_map f 0 d.arguments
  | type t => rfl

end QueryDoc
