import QueryDoc.Proofs.Location.Entry
import QueryDoc.Proofs.Location.View

/-!
# Every production through a view

What a parser gives through a view is what it gives without, with the view's spans in
the nodes. Each production is seen so if its parts are; values, selection sets and
types go by induction on the levels that are left, like their parsers.
-/
namespace QueryDoc.Parser

variable {v : View} {c : Cursor}

/-- Nodes that carry spans carry their own. -/
theorem carried_span (s : Span) : (Carried.ofSpan s : Span) = s := rfl

/-! ## Values and types -/

theorem seen_stringValue {raw : String} (hraw : c.kinds.head? = some (.string raw)) :
    Seen v (StringValue.map v.span) (stringValue raw) (stringValue raw) c := by
  refine .take hraw nofun fun s c' => ?_
  split
  · exact .pure rfl
  · exact .fail rfl

theorem sees_description : Sees v (Option.map (StringValue.map v.span)) description := by
  refine fun c => .nextKind rfl (fun k _ hnext => ?_) fun _ _ => .pure rfl
  cases k with
  | string raw => exact .bind (seen_stringValue (hnext nofun)) fun _ _ _ => .pure rfl
  | _ => exact .pure rfl

theorem sees_varRef : Sees v (Variable.map v.span) varRef := fun c =>
  .bind (sees_expect .dollar .variable c) fun _ c _ =>
  .bind (sees_name .variable c) fun _ _ _ => .close fun _ => rfl

theorem seen_literal {k : TokenKind} {form : Span → Value Span} (hk : c.kinds.head? = some k)
    (hend : k ≠ .endOfInput) (h : ∀ s, form (v.span s) = (form s).map v.span) :
    Seen v (Value.map v.span) (literal form) (literal form) c :=
  .take hk hend fun s _ => .pure (h s)

section

variable {item : Parser (Value Span)} (hitem : Sees v (Value.map v.span) item)

include hitem

theorem sees_listValue (hshrinks : Shrinks item) :
    Sees v (Value.map v.span) (listValue item) := fun c =>
  .bind (sees_expect .openBracket .listValue c) fun _ c _ =>
  .repeated (sees_manyUntil hitem hshrinks .closeBracket .listValue c) fun _ c =>
  .bind (sees_expect .closeBracket .listValue c) fun _ _ _ =>
  .close fun _ => by simp only [Value.map, Value.mapList_eq, carried_span]

theorem sees_objectField : Sees v (ObjectField.map v.span) (objectField item) := fun _ =>
  .nextSpan fun _ =>
  .bind (sees_name .objectField _) fun _ c _ =>
  .bind (sees_expect .colon .objectField c) fun _ c _ =>
  .bind (hitem c) fun _ _ _ => .close fun _ => rfl

theorem sees_objectValue (hshrinks : Shrinks (objectField item)) :
    Sees v (Value.map v.span) (objectValue item) := fun c =>
  .bind (sees_expect .openBrace .objectValue c) fun _ c _ =>
  .repeated (sees_manyUntil (sees_objectField hitem) hshrinks .closeBrace .objectValue c)
    fun _ c =>
  .bind (sees_expect .closeBrace .objectValue c) fun _ _ _ =>
  .close fun _ => by simp only [Value.map, ObjectField.mapList_eq, carried_span]

end

theorem sees_value (context : ValueContext) (room : Nat) :
    Sees v (Value.map v.span) (value context room) := by
  induction room with
  | zero => exact fun _ => .tooDeep
  | succ room ih =>
    have hvalue := settles_value context room
    refine fun c => .nextKind rfl (fun k _ hnext => ?_) fun _ _ => .unexpected
    cases k with
    | punctuator p =>
      cases p with
      | dollar =>
        dsimp only
        split
        · exact .bind (sees_varRef c) fun _ _ _ => .pure rfl
        · exact .nextSpan fun _ => .fail rfl
      | openBracket => exact sees_listValue ih (value_items hvalue).shrinks c
      | openBrace => exact sees_objectValue ih (objectField_items hvalue).shrinks c
      | _ => exact .unexpected
    | string raw => exact .bind (seen_stringValue (hnext nofun)) fun _ _ _ => .pure rfl
    | endOfInput => exact .unexpected
    | error => exact .unexpected
    | _ => exact seen_literal (hnext nofun) nofun fun _ => rfl

theorem sees_namedType (production : Production) :
    Sees v (NamedType.map v.span) (namedType production) := fun c =>
  .bind (sees_name production c) fun _ _ _ => .pure rfl

theorem seen_marked (start : Position) (t : NullableType Span) :
    Seen v (TypeRef.map v.span) (marked start t) (marked (v.place start) (t.map v.span)) c :=
  .nextIs (fun hnext => .bind (.advance hnext nofun) fun _ _ _ => .close fun _ => rfl) (.pure rfl)

theorem sees_markedName : Sees v (TypeRef.map v.span) markedName := fun c =>
  .bind (sees_namedType .namedType c) fun t _ _ =>
  .look (x := t.info.start) (y := v.place t.info.start) rfl rfl (seen_marked _ _)

theorem sees_typeRef (room : Nat) : Sees v (TypeRef.map v.span) (typeRef room) := by
  induction room with
  | zero => exact fun c => .nextIs (fun _ => .tooDeep) (sees_markedName c)
  | succ room ih =>
    refine fun c => .nextIs (fun _ => ?_) (sees_markedName c)
    refine .bind (sees_expect .openBracket .listType c) fun _ c _ => .bind (ih c) fun _ c _ => ?_
    refine .bind (sees_expect .closeBracket .listType c) fun _ _ _ => .spanFrom fun _ => ?_
    exact seen_marked _ _

/-! ## Selections -/

section

variable {item : Parser (Value Span)} (hitem : Sees v (Value.map v.span) item)

include hitem

theorem sees_argument : Sees v (Argument.map v.span) (argument item) := fun _ =>
  .nextSpan fun _ =>
  .bind (sees_name .argument _) fun _ c _ =>
  .bind (sees_expect .colon .argument c) fun _ c _ =>
  .bind (hitem c) fun _ _ _ => .close fun _ => rfl

theorem sees_arguments (hshrinks : Shrinks (argument item)) :
    Sees v (List.map (Argument.map v.span)) (arguments item) := fun c =>
  .nextIs (fun _ => .bind (sees_nonempty (sees_argument hitem) hshrinks _ _ _ _ c)
    fun _ _ _ => .pure rfl) (.pure rfl)

theorem sees_directive (hshrinks : Shrinks (argument item)) :
    Sees v (Directive.map v.span) (directive item) := fun c =>
  .bind (sees_expect .at .directive c) fun _ c _ =>
  .bind (sees_name .directive c) fun _ c _ =>
  .bind (sees_arguments hitem hshrinks c) fun _ _ _ => .close fun _ => rfl

end

section

variable (context : ValueContext) (room : Nat)

theorem sees_arguments_value :
    Sees v (List.map (Argument.map v.span)) (arguments (value context room)) :=
  sees_arguments (sees_value context room) (argument_items context room).shrinks

theorem sees_directives :
    Sees v (List.map (Directive.map v.span)) (directives (value context room)) :=
  sees_manyWhile
    (sees_directive (sees_value context room) (argument_items context room).shrinks)
    (directive_items context room).shrinks .at

end

theorem sees_fieldName :
    Sees v (Prod.map (Option.map (Name.map v.span)) (Name.map v.span)) fieldName := fun c =>
  .bind (sees_name .field c) fun _ _ _ =>
  .nextIs (fun hnext => .bind (.advance hnext nofun) fun _ c _ =>
    .bind (sees_name .field c) fun _ _ _ => .pure rfl) (.pure rfl)

theorem sees_typeCondition : Sees v (Option.map (NamedType.map v.span)) typeCondition := fun _ =>
  .nextIsKeyword (fun hnext => .bind (.advance hnext nofun) fun _ c _ =>
    .bind (sees_namedType .inlineFragment c) fun _ _ _ => .pure rfl) (.pure rfl)

section

variable {room : Nat} {inner : Parser (SelectionSet Span)}
  (hinner : Sees v (SelectionSet.map v.span) inner)

include hinner

theorem sees_optionalSelections :
    Sees v (Option.map (SelectionSet.map v.span)) (optionalSelections inner) := fun c =>
  .nextIs (fun _ => .bind (hinner c) fun _ _ _ => .pure rfl) (.pure rfl)

theorem sees_field : Sees v (Selection.map v.span) (field (value .anyValue room) inner) := fun _ =>
  .nextSpan fun _ =>
  .bind (sees_fieldName _) fun _ c _ =>
  .bind (sees_arguments_value .anyValue room c) fun _ c _ =>
  .bind (sees_directives .anyValue room c) fun _ c _ =>
  .bind (sees_optionalSelections hinner c) fun _ _ _ =>
  .close fun _ => by simp only [Selection.map_field, carried_span]

/-- After the dots the next token decides, and the end of input is no name. -/
theorem sees_fragmentSelection :
    Sees v (Selection.map v.span) (fragmentSelection (value .anyValue room) inner) := by
  refine fun c => .bind (sees_expect .ellipsis .fragmentSpread c) fun s c _ => ?_
  have inPlace : Seen v (Selection.map v.span)
      (do
        let t ← typeCondition
        let ds ← directives (value .anyValue room)
        let set ← inner
        return Selection.inlineFragment t ds set (← spanFrom s.start))
      (do
        let t ← typeCondition
        let ds ← directives (value .anyValue room)
        let set ← inner
        return Selection.inlineFragment t ds set (← spanFrom (v.place s.start))) c :=
    .bind (sees_typeCondition c) fun _ c _ =>
    .bind (sees_directives .anyValue room c) fun _ c _ =>
    .bind (hinner c) fun _ _ _ => .close fun _ => rfl
  refine .nextKind rfl (fun k _ _ => ?_) fun _ _ => inPlace
  split
  · exact .bind (sees_name .fragmentSpread c) fun _ c _ =>
      .bind (sees_directives .anyValue room c) fun _ _ _ => .close fun _ => rfl
  · exact inPlace

theorem sees_selection :
    Sees v (Selection.map v.span) (selection (value .anyValue room) inner) := fun c =>
  .nextIs (fun _ => sees_fragmentSelection hinner c) (sees_field hinner c)

end

theorem sees_selectionSet (room : Nat) :
    Sees v (SelectionSet.map v.span) (selectionSet room) := by
  induction room with
  | zero => exact fun _ => .tooDeep
  | succ room ih =>
    have hshrinks := (selection_items (settles_selectionSet room)).shrinks
    exact fun c => .bind (sees_nonempty (sees_selection ih) hshrinks _ _ _ _ c) fun _ _ _ =>
      .close fun _ => by simp only [SelectionSet.map, Selection.mapList_eq, carried_span]

/-! ## Definitions -/

theorem sees_defaultValue : Sees v (Option.map (Value.map v.span)) defaultValue := fun _ =>
  .nextIs (fun hnext => .bind (.advance hnext nofun) fun _ c _ =>
    .bind (sees_value .defaultValue maxDepth c) fun _ _ _ => .pure rfl) (.pure rfl)

theorem sees_variableDefinition :
    Sees v (VariableDefinition.map v.span) variableDefinition := fun _ =>
  .nextSpan fun _ =>
  .bind (sees_description _) fun _ c _ =>
  .bind (sees_varRef c) fun _ c _ =>
  .bind (sees_expect .colon .variableDefinition c) fun _ c _ =>
  .bind (sees_typeRef maxDepth c) fun _ c _ =>
  .bind (sees_defaultValue c) fun _ c _ =>
  .bind (sees_directives .variableDirective maxDepth c) fun _ _ _ => .close fun _ => rfl

theorem sees_variableDefinitions :
    Sees v (List.map (VariableDefinition.map v.span)) variableDefinitions := fun c =>
  .nextIs (fun _ => .bind
    (sees_nonempty sees_variableDefinition variableDefinition_items.shrinks _ _ _ _ c)
    fun _ _ _ => .pure rfl) (.pure rfl)

theorem sees_operationName : Sees v (Option.map (Name.map v.span)) operationName := by
  refine fun c => .look (nextIs_run _ c) (v.nextIs_cursor _ c) <|
    .look (nextIs_run _ c) (v.nextIs_cursor _ c) <|
    .look (nextIs_run _ c) (v.nextIs_cursor _ c) ?_
  split
  · exact .pure rfl
  · exact .bind (sees_name .operationDefinition c) fun _ _ _ => .pure rfl

/-- The body of an operation or a fragment comes after its keyword. -/
theorem seen_operation {k : TokenKind} (hk : c.kinds.head? = some k) (hend : k ≠ .endOfInput)
    (start : Position) (d : Option (StringValue Span)) (kind : OperationKind) :
    Seen v (Operation.map v.span) (operation start d kind)
      (operation (v.place start) (d.map (StringValue.map v.span)) kind) c :=
  .bind (.advance hk hend) fun _ c _ =>
  .bind (sees_operationName c) fun _ c _ =>
  .bind (sees_variableDefinitions c) fun _ c _ =>
  .bind (sees_directives .anyValue maxDepth c) fun _ c _ =>
  .bind (sees_selectionSet maxDepth c) fun _ _ _ => .close fun _ => rfl

theorem seen_shortQuery (start : Position) :
    Seen v (Operation.map v.span) (shortQuery start) (shortQuery (v.place start)) c :=
  .bind (sees_selectionSet maxDepth c) fun _ _ _ => .close fun _ => rfl

theorem seen_fragment {k : TokenKind} (hk : c.kinds.head? = some k) (hend : k ≠ .endOfInput)
    (start : Position) (d : Option (StringValue Span)) :
    Seen v (Fragment.map v.span) (fragment start d)
      (fragment (v.place start) (d.map (StringValue.map v.span))) c :=
  .bind (.advance hk hend) fun _ c _ =>
  .nextIsKeyword (fun _ => .nextSpan fun _ => .fail rfl) <|
  .bind (sees_name .fragmentDefinition c) fun _ c _ =>
  .bind (sees_expectKeyword "on" .fragmentDefinition c) fun _ c _ =>
  .bind (sees_namedType .fragmentDefinition c) fun _ c _ =>
  .bind (sees_directives .anyValue maxDepth c) fun _ c _ =>
  .bind (sees_selectionSet maxDepth c) fun _ _ _ => .close fun _ => rfl

/-- A token that starts no definition is at fault as the view shows it. -/
theorem seen_noDefinition {next next' : Option TokenKind} (h : next' = next.map v.kind) :
    Seen v (Definition.map v.span) (noDefinition next) (noDefinition next') c := by
  subst h
  refine .nextSpan fun s => ?_
  cases next with
  | none => rfl
  | some k => cases k <;> rfl

theorem sees_definition : Sees v (Definition.map v.span) definition := by
  refine fun c => .nextSpan fun s => .bind (sees_description c) fun d c _ => ?_
  refine .nextKind rfl (fun k hk hnext => ?_) fun _ _ => seen_noDefinition rfl
  cases k with
  | punctuator p =>
    cases p with
    | openBrace =>
      dsimp only
      rw [Option.isSome_map]
      split
      · exact .nextSpan fun _ => .fail rfl
      · exact .bind (seen_shortQuery s.start) fun _ _ _ => .pure rfl
    | _ => exact seen_noDefinition rfl
  | name text =>
    have htext := hnext nofun
    dsimp only
    split
    · exact .bind (seen_fragment htext nofun s.start d) fun _ _ _ => .pure rfl
    · split
      · exact .bind (seen_operation htext nofun s.start d _) fun _ _ _ => .pure rfl
      · exact seen_noDefinition rfl
  | _ => exact seen_noDefinition (congrArg some hk.symm)

theorem sees_definitions :
    Sees v (List.map (Definition.map v.span)) (unbounded definitions) :=
  rounds_definitions.sees fun _ _ ih =>
    .atEnd (.pure rfl) (seen_cons sees_definition definition_items.shrinks ih)

theorem sees_document : Sees v (Document.map v.span) document := fun c =>
  .atEnd (.nextSpan fun _ => .fail rfl) <|
  .repeated (sees_definitions c) fun _ _ =>
  .nextSpan fun s => .pure <| by
    simp only [Document.map, carried_span, View.span, v.zero]

theorem sees_wholeValue (context : ValueContext) :
    Sees v (Value.map v.span) (wholeValue context) := fun c =>
  .bind (sees_value context maxDepth c) fun _ c _ =>
  .bind (sees_expectEnd .value c) fun _ _ _ => .pure rfl

theorem sees_wholeType : Sees v (TypeRef.map v.span) wholeType := fun c =>
  .bind (sees_typeRef maxDepth c) fun _ c _ =>
  .bind (sees_expectEnd .namedType c) fun _ _ _ => .pure rfl

/-- Whatever is to be parsed, a parser does through a view what it does without. -/
theorem sees_whole (entry : Entry) : Sees v (Node.map v.span) (whole entry) := by
  intro c
  cases entry with
  | document => exact .bind (sees_document c) fun _ _ _ => .pure rfl
  | value => exact .bind (sees_wholeValue .anyValue c) fun _ _ _ => .pure rfl
  | constValue => exact .bind (sees_wholeValue .constantValue c) fun _ _ _ => .pure rfl
  | type => exact .bind (sees_wholeType c) fun _ _ _ => .pure rfl

/-- What a list of tokens forms, seen through the view, is what is formed by the tokens
that are seen. -/
theorem run_seen (v : View) (entry : Entry) (source : Source) (tokens : List Token) :
    (whole entry).run source (v.tokens none tokens) =
      (((whole entry).run source tokens).map (Node.map v.span)).mapError
        fun e => { e with fault := v.fault e.fault } := by
  have seen : whole entry ⟨v.tokens none tokens, none⟩ =
      v.outcome (Node.map v.span) (whole entry ⟨tokens, none⟩) := sees_whole entry ⟨tokens, none⟩
  rw [run, run, seen]
  cases whole entry ⟨tokens, none⟩ <;> rfl

end QueryDoc.Parser
