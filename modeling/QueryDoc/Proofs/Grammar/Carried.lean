import QueryDoc.Proofs.Parse.Refinement
import QueryDoc.Proofs.Syntax.Map

/-!
# What nodes carry is only carried along

A parser makes what its nodes carry and does not look at it again, but for the
start of a named type, which only goes into what another node carries. So two
runs that differ in what nodes carry take the same steps, with the same faults,
and one makes the tree that the other makes with something else in its nodes.
-/
namespace QueryDoc

variable {α β γ δ : Type}

/-- With `f` one way to carry is turned into another. Either both tell the same of
where nodes start, or it makes no difference, for all spans are carried alike. -/
structure Carried.Becomes [Carried α] [Carried β] (f : α → β) : Prop where
  made : ∀ s, f (ofSpan s) = ofSpan s
  start : (∀ i, start? (f i) = start? i) ∨ ∀ s s', (ofSpan s : β) = ofSpan s'

namespace Parser
open Carried (ofSpan start?)

/-! ## Steps -/

section Steps
variable (g : γ → δ)

theorem map_fail (cause : Cause) (production : Production) (s : Span) :
    g <$> fail cause production s = fail cause production s :=
  funext fun _ => rfl

theorem map_unexpected (expected : List Expected) (production : Production) :
    g <$> unexpected expected production = unexpected expected production := by
  simp only [unexpected, map_bind, map_fail]

theorem map_tooDeep (production : Production) :
    g <$> tooDeep production = tooDeep production := by
  simp only [tooDeep, map_bind, map_fail]

theorem map_noDefinition (f : α → β) (next : Option TokenKind) :
    Definition.map f <$> noDefinition next = noDefinition next := by
  simp only [noDefinition, map_bind]
  exact bind_congr fun _ => funext fun _ => rfl

theorem map_if {p : Prop} [Decidable p] (x y : Parser γ) :
    g <$> (if p then x else y) = if p then g <$> x else g <$> y :=
  apply_ite _ _ _ _

end Steps

/-! ## Loops -/

section Loops
variable (g : γ → δ) (item : Parser γ)

theorem map_someUntil (close : Punctuator) (n : Nat) :
    someUntil close (g <$> item) n = List.map g <$> someUntil close item n := by
  induction n with
  | zero => simp only [someUntil, map_pure, List.map_nil]
  | succ n ih =>
    simp only [someUntil, ih, map_bind, bind_map_left, map_if, map_pure, List.map_cons,
      List.map_nil]

theorem map_manyUntil (close : Punctuator) (production : Production) (n : Nat) :
    manyUntil close production (g <$> item) n =
      List.map g <$> manyUntil close production item n := by
  induction n with
  | zero => simp only [manyUntil, map_pure, List.map_nil]
  | succ n ih =>
    simp only [manyUntil, ih, map_bind, bind_map_left, map_if, map_pure, map_unexpected,
      List.map_cons, List.map_nil]

theorem map_manyWhile (first : Punctuator) (n : Nat) :
    manyWhile first (g <$> item) n = List.map g <$> manyWhile first item n := by
  induction n with
  | zero => simp only [manyWhile, map_pure, List.map_nil]
  | succ n ih =>
    simp only [manyWhile, ih, map_bind, bind_map_left, map_if, map_pure, List.map_cons,
      List.map_nil]

theorem map_optionalSelections (f : α → β) (inner : Parser (SelectionSet α)) :
    optionalSelections (SelectionSet.map f <$> inner) =
      Option.map (SelectionSet.map f) <$> optionalSelections inner := by
  simp only [optionalSelections, map_bind, bind_map_left, map_if, map_pure, Option.map_some,
    Option.map_none]

theorem map_nonempty (opening closing : Punctuator) (construct : Construct)
    (production : Production) :
    nonempty opening closing construct production (g <$> item) =
      Prod.map id (List.map g) <$> nonempty opening closing construct production item := by
  simp only [nonempty, map_someUntil, map_bind, bind_map_left, map_if, map_pure, map_fail,
    Prod.map, id]

end Loops

variable [Carried α] [Carried β] {f : α → β} (hf : Carried.Becomes f)
include hf

/-! ## Values and types -/

theorem carries_name (production : Production) :
    name production = Name.map f <$> name production := by
  simp only [name, map_bind]
  refine bind_congr fun next => ?_
  split
  · simp only [map_bind, map_pure, Name.map, hf.made]
  · rw [map_unexpected]

theorem carries_stringValue (raw : String) :
    stringValue raw = StringValue.map f <$> stringValue raw := by
  simp only [stringValue, map_bind]
  refine bind_congr fun s => bind_congr fun _ => ?_
  split
  · simp only [map_pure, StringValue.map, hf.made]
  · rw [map_fail]

theorem carries_description :
    description = Option.map (StringValue.map f) <$> description := by
  simp only [description, map_bind]
  refine bind_congr fun next => ?_
  split
  · simp only [carries_stringValue hf, map_bind, bind_map_left, map_pure, Option.map_some]
  · rw [map_pure, Option.map_none]

theorem carries_varRef : varRef = Variable.map f <$> varRef := by
  simp only [varRef, carries_name hf, map_bind, bind_map_left, map_pure, Variable.map, hf.made]

theorem carries_literal {form : α → Value α} {form' : β → Value β}
    (h : ∀ i, form' (f i) = (form i).map f) : literal form' = Value.map f <$> literal form := by
  simp only [literal, map_bind, map_pure, ← h, hf.made]

section Items
variable (item : Parser (Value α))

theorem carries_listValue :
    listValue (Value.map f <$> item) = Value.map f <$> listValue item := by
  simp only [listValue, map_manyUntil, map_bind, bind_map_left, map_pure, Value.map,
    Value.mapList_eq, hf.made]

theorem carries_objectField :
    objectField (Value.map f <$> item) = ObjectField.map f <$> objectField item := by
  simp only [objectField, carries_name hf, map_bind, bind_map_left, map_pure, ObjectField.map,
    hf.made]

theorem carries_objectValue :
    objectValue (Value.map f <$> item) = Value.map f <$> objectValue item := by
  simp only [objectValue, carries_objectField hf, map_manyUntil, map_bind, bind_map_left, map_pure,
    Value.map, ObjectField.mapList_eq, hf.made]

end Items

theorem carries_value (context : ValueContext) (room : Nat) :
    value context room = Value.map f <$> value context room := by
  induction room with
  | zero => rw [value, value, map_tooDeep]
  | succ room ih =>
    simp only [value, map_bind]
    refine bind_congr fun next => ?_
    split
    · simp only [carries_varRef hf, map_if, map_bind, bind_map_left, map_pure, map_fail, Value.map]
    · rw [ih, carries_listValue hf]
    · rw [ih, carries_objectValue hf]
    · exact carries_literal hf fun _ => rfl
    · exact carries_literal hf fun _ => rfl
    · simp only [carries_stringValue hf, map_bind, bind_map_left, map_pure, Value.map]
    · exact carries_literal hf fun _ => rfl
    · exact carries_literal hf fun _ => rfl
    · exact carries_literal hf fun _ => rfl
    · rw [map_unexpected]

theorem carries_namedType (production : Production) :
    namedType production = NamedType.map f <$> namedType production := by
  simp only [namedType, carries_name hf, map_bind, bind_map_left, map_pure, NamedType.map, Name.map]

theorem carries_marked (start : Position) (t : NullableType α) :
    marked start (t.map f) = TypeRef.map f <$> marked start t := by
  simp only [marked, map_bind, map_if, map_pure, TypeRef.map, hf.made]

omit hf in
theorem marked_of_alike (alike : ∀ s s', (ofSpan s : α) = ofSpan s') (p q : Position)
    (t : NullableType α) : marked p t = marked q t := by
  refine bind_congr fun next => ?_
  split
  · refine bind_congr fun _ => funext fun c => ?_
    exact congrArg (fun i => Except.ok (TypeRef.nonNull t i, c)) (alike _ _)
  · rfl

/-- The start of a named type may be told in one run only, and then it makes no
difference to the node that it goes into. -/
theorem carries_markedName : markedName = TypeRef.map f <$> markedName := by
  simp only [markedName, carries_namedType hf, map_bind, bind_map_left, ← carries_marked hf]
  refine bind_congr fun t => ?_
  rcases hf.start with same | alike
  · have start : namedTypeStart (t.map f) = namedTypeStart t := by
      unfold namedTypeStart
      rw [NamedType.map, same]
    rw [start]
    rfl
  · -- the starts may differ, one of them an end, but no node shows it
    exact funext fun c => congrFun (marked_of_alike alike _ _ _) c

theorem carries_typeRef (room : Nat) : typeRef room = TypeRef.map f <$> typeRef room := by
  induction room with
  | zero => simp only [typeRef, carries_markedName hf, map_bind, map_if, map_tooDeep]
  | succ room ih =>
    simp only [typeRef, ih, carries_markedName hf, ← carries_marked hf, map_bind, bind_map_left,
      map_if, NullableType.map, hf.made]

/-! ## Selections -/

section Items
variable (item : Parser (Value α))

theorem carries_argument :
    argument (Value.map f <$> item) = Argument.map f <$> argument item := by
  simp only [argument, carries_name hf, map_bind, bind_map_left, map_pure, Argument.map, hf.made]

theorem carries_arguments :
    arguments (Value.map f <$> item) = List.map (Argument.map f) <$> arguments item := by
  simp only [arguments, carries_argument hf, map_nonempty, map_bind, bind_map_left, map_if,
    map_pure, Prod.map, List.map_nil]

theorem carries_directive :
    directive (Value.map f <$> item) = Directive.map f <$> directive item := by
  simp only [directive, carries_name hf, carries_arguments hf, map_bind, bind_map_left, map_pure,
    Directive.map, hf.made]

theorem carries_directives :
    directives (Value.map f <$> item) = List.map (Directive.map f) <$> directives item := by
  simp only [directives, carries_directive hf, map_manyWhile, map_bind]

end Items

theorem carries_fieldName :
    fieldName = Prod.map (Option.map (Name.map f)) (Name.map f) <$> fieldName := by
  simp only [fieldName, carries_name hf, map_bind, bind_map_left, map_if, map_pure, Prod.map,
    Option.map_some, Option.map_none]

theorem carries_typeCondition :
    typeCondition = Option.map (NamedType.map f) <$> typeCondition := by
  simp only [typeCondition, carries_namedType hf, map_bind, bind_map_left, map_if, map_pure,
    Option.map_some, Option.map_none]

section Items
variable (item : Parser (Value α)) (inner : Parser (SelectionSet α))

theorem carries_field :
    field (Value.map f <$> item) (SelectionSet.map f <$> inner) =
      Selection.map f <$> field item inner := by
  simp only [field, carries_fieldName hf, carries_arguments hf, carries_directives hf,
    map_optionalSelections, map_bind, bind_map_left, map_pure, Prod.map, Selection.map_field,
    hf.made]

theorem carries_fragmentSelection :
    fragmentSelection (Value.map f <$> item) (SelectionSet.map f <$> inner) =
      Selection.map f <$> fragmentSelection item inner := by
  simp only [fragmentSelection, carries_name hf, carries_directives hf, carries_typeCondition hf,
    map_bind, bind_map_left, map_if, map_pure, Selection.map, FragmentSpread.map, hf.made]

theorem carries_selection :
    selection (Value.map f <$> item) (SelectionSet.map f <$> inner) =
      Selection.map f <$> selection item inner := by
  simp only [selection, carries_fragmentSelection hf, carries_field hf, map_bind, map_if]

end Items

theorem carries_selectionSet (room : Nat) :
    selectionSet room = SelectionSet.map f <$> selectionSet room := by
  induction room with
  | zero => rw [selectionSet, selectionSet, map_tooDeep]
  | succ room ih =>
    simp only [selectionSet, ih, carries_value hf, carries_selection hf, map_nonempty, map_bind,
      bind_map_left, map_pure, Prod.map, id, SelectionSet.map, Selection.mapList_eq, hf.made]

/-! ## Definitions -/

theorem carries_defaultValue : defaultValue = Option.map (Value.map f) <$> defaultValue := by
  simp only [defaultValue, carries_value hf, map_bind, bind_map_left, map_if, map_pure,
    Option.map_some, Option.map_none]

theorem carries_variableDefinition :
    variableDefinition = VariableDefinition.map f <$> variableDefinition := by
  simp only [variableDefinition, carries_description hf, carries_varRef hf, carries_typeRef hf,
    carries_defaultValue hf, carries_value hf, carries_directives hf, map_bind, bind_map_left,
    map_pure, VariableDefinition.map, hf.made]

theorem carries_variableDefinitions :
    variableDefinitions = List.map (VariableDefinition.map f) <$> variableDefinitions := by
  simp only [variableDefinitions, carries_variableDefinition hf, map_nonempty, map_bind,
    bind_map_left, map_if, map_pure, Prod.map, List.map_nil]

theorem carries_operationName : operationName = Option.map (Name.map f) <$> operationName := by
  simp only [operationName, carries_name hf, map_bind, bind_map_left, map_if, map_pure,
    Option.map_some, Option.map_none]

section Definitions
variable (start : Position) (description : Option (StringValue α))

theorem carries_operation (kind : OperationKind) :
    operation start (description.map (StringValue.map f)) kind =
      Operation.map f <$> operation start description kind := by
  simp only [operation, carries_operationName hf, carries_variableDefinitions hf,
    carries_value hf, carries_directives hf, carries_selectionSet hf, map_bind, bind_map_left,
    map_pure, Operation.map, hf.made]

theorem carries_shortQuery : shortQuery start = Operation.map f <$> shortQuery start := by
  simp only [shortQuery, carries_selectionSet hf, map_bind, bind_map_left, map_pure,
    Operation.map, Option.map_none, List.map_nil, hf.made]

theorem carries_fragment :
    fragment start (description.map (StringValue.map f)) =
      Fragment.map f <$> fragment start description := by
  simp only [fragment, carries_name hf, carries_namedType hf, carries_value hf,
    carries_directives hf, carries_selectionSet hf, map_bind, bind_map_left, map_if, map_pure,
    map_fail, Fragment.map, hf.made]

end Definitions

theorem carries_definition : definition = Definition.map f <$> definition := by
  simp only [definition, carries_description hf, map_bind, bind_map_left]
  refine bind_congr fun start => bind_congr fun d => bind_congr fun next => ?_
  split
  · simp only [carries_shortQuery hf, map_bind, bind_map_left, map_if, map_pure, map_fail,
      Definition.map, Option.isSome_map]
  · simp only [carries_fragment hf, map_if, map_bind, bind_map_left, map_pure, Definition.map]
    split
    · rfl
    · split
      · simp only [carries_operation hf, map_bind, bind_map_left, map_pure, Definition.map]
      · exact (map_noDefinition f _).symm
  · exact (map_noDefinition f _).symm

theorem carries_definitions (n : Nat) :
    definitions n = List.map (Definition.map f) <$> definitions n := by
  induction n with
  | zero => simp only [definitions, map_pure, List.map_nil]
  | succ n ih =>
    simp only [definitions, ih, carries_definition hf, map_bind, bind_map_left, map_if, map_pure,
      List.map_cons, List.map_nil]

theorem carries_document : document = Document.map f <$> document := by
  simp only [document, carries_definitions hf, map_bind, bind_map_left, map_if, map_pure, map_fail,
    Document.map, hf.made]

theorem carries_wholeValue (context : ValueContext) :
    wholeValue context = Value.map f <$> wholeValue context := by
  simp only [wholeValue, carries_value hf, map_bind, bind_map_left, map_pure]

theorem carries_wholeType : wholeType = TypeRef.map f <$> wholeType := by
  simp only [wholeType, carries_typeRef hf, map_bind, bind_map_left, map_pure]

end Parser

/-! ## Locations -/

section Locations
variable (options : ParseOptions) (source : Source) (tokens : List Token)

/-- Whatever the options ask for is made from the spans of the nodes. If it is
nothing, nodes do not tell where they start, but all spans are carried alike. -/
theorem ParseOptions.becomes :
    @Carried.Becomes Span (Option Location) _ (options.carried source)
      (options.locate source) := by
  let _ := options.carried source
  refine ⟨fun s => rfl, ?_⟩
  obtain ⟨noLocation⟩ := options
  cases noLocation with
  | false => exact .inl fun s => rfl
  | true => exact .inr fun s s' => rfl

theorem Parser.run_map (g : γ → δ) (p : Parser γ) :
    (g <$> p).run source tokens = (p.run source tokens).map g := by
  have step : (g <$> p) ⟨tokens, none⟩ = (p ⟨tokens, none⟩).map (Prod.map g id) := by
    change (StateT.map g p : Parser δ) _ = _
    unfold StateT.map
    cases p ⟨tokens, none⟩ <;> rfl
  rw [run, run, step]
  cases p ⟨tokens, none⟩ <;> rfl

theorem Document.ofTokens_eq :
    Document.ofTokens options source tokens =
      (Parser.document.run source tokens).map (Document.map (options.locate source)) := by
  let _ := options.carried source
  rw [ofTokens_eq_run, Parser.carries_document (options.becomes source), Parser.run_map]

theorem Value.ofTokens_eq :
    Value.ofTokens options source tokens =
      ((Parser.wholeValue .anyValue).run source tokens).map
        (Value.map (options.locate source)) := by
  let _ := options.carried source
  rw [ofTokens_eq_run, Parser.carries_wholeValue (options.becomes source), Parser.run_map]

theorem Value.constOfTokens_eq :
    Value.constOfTokens options source tokens =
      ((Parser.wholeValue .constantValue).run source tokens).map
        (Value.map (options.locate source)) := by
  let _ := options.carried source
  rw [constOfTokens_eq_run, Parser.carries_wholeValue (options.becomes source), Parser.run_map]

theorem TypeRef.ofTokens_eq :
    TypeRef.ofTokens options source tokens =
      (Parser.wholeType.run source tokens).map (TypeRef.map (options.locate source)) := by
  let _ := options.carried source
  rw [ofTokens_eq_run, Parser.carries_wholeType (options.becomes source), Parser.run_map]

end Locations

end QueryDoc
