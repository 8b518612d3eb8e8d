import QueryDoc.Proofs.Syntax.Induction
import QueryDoc.Proofs.Syntax.Map
import QueryDoc.Syntax.Node

/-!
# How deep a tree nests

A value counts one level, and each list or object in it one more. A selection
set counts one level, and the values and selection sets in it lie below that
level. A type counts its lists. Other nodes are as deep as the deepest of these
in them.
-/
namespace QueryDoc

variable {α β : Type}

/-- The largest number that `f` assigns to an item. -/
def deepest (f : β → Nat) (xs : List β) : Nat := (xs.map f).foldr max 0

@[simp] theorem deepest_le {f : β → Nat} {xs : List β} {n : Nat} :
    deepest f xs ≤ n ↔ ∀ x ∈ xs, f x ≤ n := by
  induction xs with
  | nil => simp [deepest]
  | cons x xs ih =>
    have h : deepest f (x :: xs) = max (f x) (deepest f xs) := rfl
    rw [h, Nat.max_le, ih, List.forall_mem_cons]

theorem deepest_congr {β γ : Type} {g : β → Nat} {h : γ → Nat} {r : γ → β} {xs : List γ}
    (hr : ∀ x ∈ xs, g (r x) = h x) : deepest g (xs.map r) = deepest h xs := by
  rw [deepest, deepest, List.map_map]
  congr 1
  exact List.map_congr_left hr

mutual

def Value.nesting : Value α → Nat
  | .list items _ => Value.nestingAll items + 1
  | .object fields _ => ObjectField.nestingAll fields + 1
  | _ => 1

def Value.nestingAll : List (Value α) → Nat
  | [] => 0
  | v :: vs => max v.nesting (Value.nestingAll vs)

def ObjectField.nesting : ObjectField α → Nat
  | .mk _ v _ => v.nesting

def ObjectField.nestingAll : List (ObjectField α) → Nat
  | [] => 0
  | x :: xs => max x.nesting (ObjectField.nestingAll xs)

end

mutual

def TypeRef.nesting : TypeRef α → Nat
  | .nullable t => t.nesting
  | .nonNull t _ => t.nesting

def NullableType.nesting : NullableType α → Nat
  | .named _ => 0
  | .list t _ => t.nesting + 1

end

def Argument.nesting (a : Argument α) : Nat := a.value.nesting

def Directive.nesting (d : Directive α) : Nat := deepest Argument.nesting d.arguments

mutual

def Selection.nesting : Selection α → Nat
  | .field _ _ as ds none _ => max (deepest Argument.nesting as) (deepest Directive.nesting ds)
  | .field _ _ as ds (some set) _ =>
    max (max (deepest Argument.nesting as) (deepest Directive.nesting ds)) set.nesting
  | .spread s => deepest Directive.nesting s.directives
  | .inlineFragment _ ds set _ => max (deepest Directive.nesting ds) set.nesting

def Selection.nestingAll : List (Selection α) → Nat
  | [] => 0
  | s :: ss => max s.nesting (Selection.nestingAll ss)

def SelectionSet.nesting : SelectionSet α → Nat
  | .mk items _ => Selection.nestingAll items + 1

end

def VariableDefinition.nesting (v : VariableDefinition α) : Nat :=
  max (max v.type.nesting ((v.default.map Value.nesting).getD 0))
    (deepest Directive.nesting v.directives)

def Operation.nesting (o : Operation α) : Nat :=
  max (max (deepest VariableDefinition.nesting o.variableDefinitions)
    (deepest Directive.nesting o.directives)) o.selections.nesting

def Fragment.nesting (f : Fragment α) : Nat :=
  max (deepest Directive.nesting f.directives) f.selections.nesting

def Definition.nesting : Definition α → Nat
  | .operation o => o.nesting
  | .fragment f => f.nesting

def Document.nesting (d : Document α) : Nat := deepest Definition.nesting d.definitions

def Node.nesting : Node α → Nat
  | .name _ => 0
  | .document d => d.nesting
  | .definition d => d.nesting
  | .variableDefinition v => v.nesting
  | .selectionSet s => s.nesting
  | .selection s => s.nesting
  | .argument a => a.nesting
  | .value v => v.nesting
  | .objectField x => x.nesting
  | .directive d => d.nesting
  | .type t => t.nesting

/-! ## Lists of children -/

@[simp] theorem Value.nestingAll_eq (vs : List (Value α)) :
    Value.nestingAll vs = deepest Value.nesting vs := by
  induction vs with
  | nil => rfl
  | cons v vs ih => rw [Value.nestingAll, ih]; rfl

@[simp] theorem ObjectField.nestingAll_eq (xs : List (ObjectField α)) :
    ObjectField.nestingAll xs = deepest ObjectField.nesting xs := by
  induction xs with
  | nil => rfl
  | cons x xs ih => rw [ObjectField.nestingAll, ih]; rfl

@[simp] theorem Selection.nestingAll_eq (ss : List (Selection α)) :
    Selection.nestingAll ss = deepest Selection.nesting ss := by
  induction ss with
  | nil => rfl
  | cons s ss ih => rw [Selection.nestingAll, ih]; rfl

theorem Value.nesting_pos (v : Value α) : 0 < v.nesting := by
  cases v <;> simp [Value.nesting]

theorem Selection.nesting_field_le {a : Option (Name α)} {n : Name α} {as : List (Argument α)}
    {ds : List (Directive α)} {set : Option (SelectionSet α)} {i : α} {m : Nat} :
    (Selection.field a n as ds set i).nesting ≤ m ↔
      (∀ a ∈ as, a.nesting ≤ m) ∧ (∀ d ∈ ds, d.nesting ≤ m) ∧ ∀ s ∈ set, s.nesting ≤ m := by
  cases set with
  | none =>
    rw [Selection.nesting, Nat.max_le, deepest_le, deepest_le]
    simp
  | some set =>
    rw [Selection.nesting, Nat.max_le, Nat.max_le, deepest_le, deepest_le, and_assoc]
    simp

/-! ## The shape alone matters -/

mutual

@[simp] theorem TypeRef.nesting_map (f : α → β) :
    (t : TypeRef α) → (t.map f).nesting = t.nesting
  | .nullable t => NullableType.nesting_map f t
  | .nonNull t _ => NullableType.nesting_map f t

theorem NullableType.nesting_map (f : α → β) :
    (t : NullableType α) → (t.map f).nesting = t.nesting
  | .named _ => rfl
  | .list t _ => congrArg (· + 1) (TypeRef.nesting_map f t)

end

section Map
variable (f : α → β)

@[simp] theorem Value.nesting_map (v : Value α) : (v.map f).nesting = v.nesting := by
  induction v using Value.induct with
  | list items i ih =>
    simp only [Value.map, Value.nesting, Value.mapList_eq, Value.nestingAll_eq, deepest_congr ih]
  | object fields i ih =>
    have hfields : ∀ x ∈ fields, (x.map f).nesting = x.nesting := by
      intro x hx
      have hv := ih x hx
      obtain ⟨n, v, j⟩ := x
      exact hv
    simp only [Value.map, Value.nesting, ObjectField.mapList_eq, ObjectField.nestingAll_eq,
      deepest_congr hfields]
  | _ => rfl

@[simp] theorem ObjectField.nesting_map (x : ObjectField α) : (x.map f).nesting = x.nesting := by
  obtain ⟨n, v, i⟩ := x
  exact v.nesting_map f

@[simp] theorem Argument.nesting_map (a : Argument α) : (a.map f).nesting = a.nesting :=
  a.value.nesting_map f

@[simp] theorem Argument.deepest_map (as : List (Argument α)) :
    deepest Argument.nesting (as.map (Argument.map f)) = deepest Argument.nesting as :=
  deepest_congr fun a _ => a.nesting_map f

@[simp] theorem Directive.nesting_map (d : Directive α) : (d.map f).nesting = d.nesting :=
  Argument.deepest_map f d.arguments

@[simp] theorem Directive.deepest_map (ds : List (Directive α)) :
    deepest Directive.nesting (ds.map (Directive.map f)) = deepest Directive.nesting ds :=
  deepest_congr fun d _ => d.nesting_map f

theorem Selection.nesting_map {s : Selection α}
    (h : ∀ set ∈ s.inner?, (set.map f).nesting = set.nesting) :
    (s.map f).nesting = s.nesting := by
  cases s with
  | field a n as ds set i =>
    cases set with
    | none => simp [Selection.map, Selection.nesting]
    | some set => simp [Selection.map, Selection.nesting, h set rfl]
  | spread s => exact Directive.deepest_map f s.directives
  | inlineFragment t ds set i => simp [Selection.map, Selection.nesting, h set rfl]

@[simp] theorem SelectionSet.nesting_map (set : SelectionSet α) :
    (set.map f).nesting = set.nesting := by
  induction set using SelectionSet.induct with
  | mk items i ih =>
    simp only [SelectionSet.map, SelectionSet.nesting, Selection.mapList_eq,
      Selection.nestingAll_eq, deepest_congr fun s hs => Selection.nesting_map f (ih s hs)]

@[simp] theorem VariableDefinition.nesting_map (v : VariableDefinition α) :
    (v.map f).nesting = v.nesting := by
  have hdefault : (v.default.map (Value.map f)).map Value.nesting =
      v.default.map Value.nesting := by cases v.default <;> simp
  simp [VariableDefinition.nesting, VariableDefinition.map, hdefault]

@[simp] theorem Operation.nesting_map (o : Operation α) : (o.map f).nesting = o.nesting := by
  simp only [Operation.nesting, Operation.map, Directive.deepest_map, SelectionSet.nesting_map,
    deepest_congr fun v _ => VariableDefinition.nesting_map f v]

@[simp] theorem Fragment.nesting_map (x : Fragment α) : (x.map f).nesting = x.nesting := by
  simp only [Fragment.nesting, Fragment.map, Directive.deepest_map, SelectionSet.nesting_map]

@[simp] theorem Definition.nesting_map (d : Definition α) : (d.map f).nesting = d.nesting := by
  cases d with
  | operation o => exact o.nesting_map f
  | fragment x => exact x.nesting_map f

@[simp] theorem Document.nesting_map (d : Document α) : (d.map f).nesting = d.nesting :=
  deepest_congr fun x _ => x.nesting_map f

theorem Node.nesting_map (n : Node α) : (n.map f).nesting = n.nesting := by
  cases n with
  | name n => rfl
  | document d => exact d.nesting_map f
  | definition d => exact d.nesting_map f
  | variableDefinition v => exact v.nesting_map f
  | selectionSet s => exact s.nesting_map f
  | selection s => exact s.nesting_map f fun set _ => set.nesting_map f
  | argument a => exact a.nesting_map f
  | value v => exact v.nesting_map f
  | objectField x => exact x.nesting_map f
  | directive d => exact d.nesting_map f
  | type t => exact t.nesting_map f

end Map

end QueryDoc
