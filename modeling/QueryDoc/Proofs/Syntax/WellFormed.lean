import QueryDoc.Proofs.Lexical.Rule
import QueryDoc.Proofs.Syntax.Induction
import QueryDoc.Proofs.Syntax.Map
import QueryDoc.Syntax.Node
import Mathlib.Data.Option.Basic
import Mathlib.Tactic.MkIffOfInductiveProp

/-!
# Well-formed trees

What a tree must satisfy to be written down at all: names and numbers are spelt
by the lexical rules, names with a meaning are kept apart from others, nothing
that is written with delimiters is empty where it may not be, and no variable
stands where a constant is asked for. Strings may hold anything.
-/
namespace QueryDoc
open Lexical

variable {α β : Type}

def Name.WellFormed (n : Name α) : Prop := IsName n.value.toList

mutual

def Value.WellFormed : Value α → Prop
  | .variable v => v.name.WellFormed
  | .int text _ => IsInteger text.toList
  | .float text _ => IsFloat text.toList
  | .string _ => True
  | .boolean _ _ => True
  | .null _ => True
  | .enum name _ => IsName name.toList ∧ name.toList ∉ literalNames
  | .list items _ => Value.AllWellFormed items
  | .object fields _ => ObjectField.AllWellFormed fields

def Value.AllWellFormed : List (Value α) → Prop
  | [] => True
  | v :: vs => v.WellFormed ∧ Value.AllWellFormed vs

def ObjectField.WellFormed : ObjectField α → Prop
  | .mk n v _ => n.WellFormed ∧ v.WellFormed

def ObjectField.AllWellFormed : List (ObjectField α) → Prop
  | [] => True
  | x :: xs => x.WellFormed ∧ ObjectField.AllWellFormed xs

end

/-- A type holds a single name. -/
def TypeRef.WellFormed (t : TypeRef α) : Prop := t.innermost.name.WellFormed

def Argument.WellFormed (a : Argument α) : Prop := a.name.WellFormed ∧ a.value.WellFormed

def Directive.WellFormed (d : Directive α) : Prop :=
  d.name.WellFormed ∧ ∀ a ∈ d.arguments, a.WellFormed

/-- No variable occurs in an argument. -/
def Directive.IsConst (d : Directive α) : Prop := ∀ a ∈ d.arguments, a.value.isConst = true

mutual

def Selection.WellFormed : Selection α → Prop
  | .field a n as ds none _ =>
    (∀ m ∈ a, m.WellFormed) ∧ n.WellFormed ∧ (∀ x ∈ as, x.WellFormed) ∧ ∀ d ∈ ds, d.WellFormed
  | .field a n as ds (some set) _ =>
    ((∀ m ∈ a, m.WellFormed) ∧ n.WellFormed ∧ (∀ x ∈ as, x.WellFormed) ∧
      ∀ d ∈ ds, d.WellFormed) ∧ set.WellFormed
  | .spread s => s.name.WellFormed ∧ s.name.value ≠ "on" ∧ ∀ d ∈ s.directives, d.WellFormed
  | .inlineFragment t ds set _ =>
    (∀ x ∈ t, x.name.WellFormed) ∧ (∀ d ∈ ds, d.WellFormed) ∧ set.WellFormed

def Selection.AllWellFormed : List (Selection α) → Prop
  | [] => True
  | s :: ss => s.WellFormed ∧ Selection.AllWellFormed ss

def SelectionSet.WellFormed : SelectionSet α → Prop
  | .mk items _ => items ≠ [] ∧ Selection.AllWellFormed items

end

@[mk_iff]
structure VariableDefinition.WellFormed (v : VariableDefinition α) : Prop where
  var : v.var.name.WellFormed
  type : v.type.WellFormed
  default : ∀ d ∈ v.default, d.WellFormed ∧ d.isConst = true
  directives : ∀ d ∈ v.directives, d.WellFormed ∧ d.IsConst

@[mk_iff]
structure Operation.WellFormed (o : Operation α) : Prop where
  name : ∀ n ∈ o.name, n.WellFormed
  variableDefinitions : ∀ v ∈ o.variableDefinitions, v.WellFormed
  directives : ∀ d ∈ o.directives, d.WellFormed
  selections : o.selections.WellFormed

@[mk_iff]
structure Fragment.WellFormed (f : Fragment α) : Prop where
  name : f.name.WellFormed
  notOn : f.name.value ≠ "on"
  typeCondition : f.typeCondition.name.WellFormed
  directives : ∀ d ∈ f.directives, d.WellFormed
  selections : f.selections.WellFormed

def Definition.WellFormed : Definition α → Prop
  | .operation o => o.WellFormed
  | .fragment f => f.WellFormed

@[mk_iff]
structure Document.WellFormed (d : Document α) : Prop where
  nonempty : d.definitions ≠ []
  definitions : ∀ x ∈ d.definitions, x.WellFormed

def Node.WellFormed : Node α → Prop
  | .name n => n.WellFormed
  | .document d => d.WellFormed
  | .definition d => d.WellFormed
  | .variableDefinition v => v.WellFormed
  | .selectionSet s => s.WellFormed
  | .selection s => s.WellFormed
  | .argument a => a.WellFormed
  | .value v => v.WellFormed
  | .objectField x => x.WellFormed
  | .directive d => d.WellFormed
  | .type t => t.WellFormed

/-! ## Lists of children -/

@[simp] theorem Value.allWellFormed_iff {vs : List (Value α)} :
    Value.AllWellFormed vs ↔ ∀ v ∈ vs, v.WellFormed := by
  induction vs with
  | nil => simp [Value.AllWellFormed]
  | cons v vs ih => rw [Value.AllWellFormed, ih, List.forall_mem_cons]

@[simp] theorem ObjectField.allWellFormed_iff {xs : List (ObjectField α)} :
    ObjectField.AllWellFormed xs ↔ ∀ x ∈ xs, x.WellFormed := by
  induction xs with
  | nil => simp [ObjectField.AllWellFormed]
  | cons x xs ih => rw [ObjectField.AllWellFormed, ih, List.forall_mem_cons]

@[simp] theorem Selection.allWellFormed_iff {ss : List (Selection α)} :
    Selection.AllWellFormed ss ↔ ∀ s ∈ ss, s.WellFormed := by
  induction ss with
  | nil => simp [Selection.AllWellFormed]
  | cons s ss ih => rw [Selection.AllWellFormed, ih, List.forall_mem_cons]

@[simp] theorem Value.allConst_iff {vs : List (Value α)} :
    Value.allConst vs = true ↔ ∀ v ∈ vs, v.isConst = true := by
  induction vs with
  | nil => simp [Value.allConst]
  | cons v vs ih => rw [Value.allConst, Bool.and_eq_true, ih, List.forall_mem_cons]

@[simp] theorem ObjectField.allConst_iff {xs : List (ObjectField α)} :
    ObjectField.allConst xs = true ↔ ∀ x ∈ xs, x.isConst = true := by
  induction xs with
  | nil => simp [ObjectField.allConst]
  | cons x xs ih => rw [ObjectField.allConst, Bool.and_eq_true, ih, List.forall_mem_cons]

theorem Selection.wellFormed_field {a : Option (Name α)} {n : Name α} {as : List (Argument α)}
    {ds : List (Directive α)} {set : Option (SelectionSet α)} {i : α} :
    (Selection.field a n as ds set i).WellFormed ↔
      (∀ m ∈ a, m.WellFormed) ∧ n.WellFormed ∧ (∀ x ∈ as, x.WellFormed) ∧
        (∀ d ∈ ds, d.WellFormed) ∧ ∀ s ∈ set, s.WellFormed := by
  cases set <;> simp [Selection.WellFormed, and_assoc]

/-! ## The shape alone matters -/

section Map
variable (f : α → β)

@[simp] theorem Name.wellFormed_map (n : Name α) : (n.map f).WellFormed ↔ n.WellFormed := Iff.rfl

@[simp] theorem Value.wellFormed_map (v : Value α) : (v.map f).WellFormed ↔ v.WellFormed := by
  induction v using Value.induct with
  | list items i ih =>
    simp only [Value.map, Value.WellFormed, Value.mapList_eq, Value.allWellFormed_iff,
      List.forall_mem_map]
    exact forall₂_congr ih
  | object fields i ih =>
    simp only [Value.map, Value.WellFormed, ObjectField.mapList_eq, ObjectField.allWellFormed_iff,
      List.forall_mem_map]
    refine forall₂_congr fun x hx => ?_
    obtain ⟨n, v, j⟩ := x
    exact and_congr Iff.rfl (ih _ hx)
  | _ => exact Iff.rfl

@[simp] theorem ObjectField.wellFormed_map (x : ObjectField α) :
    (x.map f).WellFormed ↔ x.WellFormed := by
  obtain ⟨n, v, i⟩ := x
  exact and_congr Iff.rfl (v.wellFormed_map f)

mutual

theorem TypeRef.innermost_map (f : α → β) :
    (t : TypeRef α) → (t.map f).innermost = t.innermost.map f
  | .nullable t => NullableType.innermost_map f t
  | .nonNull t _ => NullableType.innermost_map f t

theorem NullableType.innermost_map (f : α → β) :
    (t : NullableType α) → (t.map f).innermost = t.innermost.map f
  | .named _ => rfl
  | .list t _ => TypeRef.innermost_map f t

end

@[simp] theorem TypeRef.wellFormed_map (t : TypeRef α) : (t.map f).WellFormed ↔ t.WellFormed := by
  rw [TypeRef.WellFormed, TypeRef.innermost_map]
  exact Iff.rfl

@[simp] theorem Argument.wellFormed_map (a : Argument α) :
    (a.map f).WellFormed ↔ a.WellFormed :=
  and_congr Iff.rfl (a.value.wellFormed_map f)

@[simp] theorem Directive.wellFormed_map (d : Directive α) :
    (d.map f).WellFormed ↔ d.WellFormed := by
  simp [Directive.WellFormed, Directive.map]

@[simp] theorem Value.isConst_map (v : Value α) : (v.map f).isConst = v.isConst := by
  induction v using Value.induct with
  | list items i ih =>
    rw [Bool.eq_iff_iff]
    simp only [Value.map, Value.isConst, Value.mapList_eq, Value.allConst_iff, List.forall_mem_map]
    exact forall₂_congr fun v hv => by rw [ih v hv]
  | object fields i ih =>
    rw [Bool.eq_iff_iff]
    simp only [Value.map, Value.isConst, ObjectField.mapList_eq, ObjectField.allConst_iff,
      List.forall_mem_map]
    refine forall₂_congr fun x hx => ?_
    obtain ⟨n, v, j⟩ := x
    exact iff_of_eq (congrArg (· = true) (ih _ hx))
  | _ => rfl

@[simp] theorem Directive.isConst_map (d : Directive α) : (d.map f).IsConst ↔ d.IsConst := by
  simp [Directive.IsConst, Directive.map, Argument.map]

theorem Selection.wellFormed_map {s : Selection α}
    (h : ∀ set ∈ s.inner?, (set.map f).WellFormed ↔ set.WellFormed) :
    (s.map f).WellFormed ↔ s.WellFormed := by
  cases s with
  | field a n as ds set i =>
    have hset : (∀ s ∈ set, (SelectionSet.map f s).WellFormed) ↔ ∀ s ∈ set, s.WellFormed :=
      forall₂_congr h
    simp only [Selection.map_field, Selection.wellFormed_field, Option.forall_mem_map,
      List.forall_mem_map, Name.wellFormed_map, Argument.wellFormed_map,
      Directive.wellFormed_map, hset]
  | spread s =>
    have hds : (∀ d ∈ (s.map f).directives, d.WellFormed) ↔ ∀ d ∈ s.directives, d.WellFormed := by
      simp [FragmentSpread.map]
    exact and_congr Iff.rfl (and_congr Iff.rfl hds)
  | inlineFragment t ds set i =>
    simp [Selection.map, Selection.WellFormed, NamedType.map, h set rfl]

@[simp] theorem SelectionSet.wellFormed_map (set : SelectionSet α) :
    (set.map f).WellFormed ↔ set.WellFormed := by
  induction set using SelectionSet.induct with
  | mk items i ih =>
    simp only [SelectionSet.map, SelectionSet.WellFormed, Selection.mapList_eq,
      Selection.allWellFormed_iff, List.forall_mem_map, ne_eq, List.map_eq_nil_iff]
    exact and_congr_right fun _ => forall₂_congr fun s hs => Selection.wellFormed_map f (ih s hs)

@[simp] theorem VariableDefinition.wellFormed_map (v : VariableDefinition α) :
    (v.map f).WellFormed ↔ v.WellFormed := by
  simp only [VariableDefinition.wellFormed_iff, VariableDefinition.map, Option.forall_mem_map,
    List.forall_mem_map, TypeRef.wellFormed_map, Value.wellFormed_map, Value.isConst_map,
    Directive.wellFormed_map, Directive.isConst_map]
  exact Iff.rfl

@[simp] theorem Operation.wellFormed_map (o : Operation α) :
    (o.map f).WellFormed ↔ o.WellFormed := by
  simp only [Operation.wellFormed_iff, Operation.map, Option.forall_mem_map, List.forall_mem_map,
    Name.wellFormed_map, VariableDefinition.wellFormed_map, Directive.wellFormed_map,
    SelectionSet.wellFormed_map]

@[simp] theorem Fragment.wellFormed_map (x : Fragment α) :
    (x.map f).WellFormed ↔ x.WellFormed := by
  simp only [Fragment.wellFormed_iff, Fragment.map, List.forall_mem_map, Name.wellFormed_map,
    NamedType.map, Directive.wellFormed_map, SelectionSet.wellFormed_map]
  exact Iff.rfl

@[simp] theorem Definition.wellFormed_map (d : Definition α) :
    (d.map f).WellFormed ↔ d.WellFormed := by
  cases d with
  | operation o => exact o.wellFormed_map f
  | fragment x => exact x.wellFormed_map f

@[simp] theorem Document.wellFormed_map (d : Document α) :
    (d.map f).WellFormed ↔ d.WellFormed := by
  simp only [Document.wellFormed_iff, Document.map, List.forall_mem_map, ne_eq,
    List.map_eq_nil_iff, Definition.wellFormed_map]

theorem Node.wellFormed_map (n : Node α) : (n.map f).WellFormed ↔ n.WellFormed := by
  cases n with
  | name n => exact n.wellFormed_map f
  | document d => exact d.wellFormed_map f
  | definition d => exact d.wellFormed_map f
  | variableDefinition v => exact v.wellFormed_map f
  | selectionSet s => exact s.wellFormed_map f
  | selection s => exact s.wellFormed_map f fun set _ => set.wellFormed_map f
  | argument a => exact a.wellFormed_map f
  | value v => exact v.wellFormed_map f
  | objectField x => exact x.wellFormed_map f
  | directive d => exact d.wellFormed_map f
  | type t => exact t.wellFormed_map f

end Map

end QueryDoc
