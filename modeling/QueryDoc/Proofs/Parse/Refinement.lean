import QueryDoc.Proofs.Parse.Document
import QueryDoc.Proofs.Parse.Lockstep

/-!
# What the descent does on a list

A parser that takes the number of levels still allowed goes in step with the descent,
which counts the levels it is in: at depth `d` there are `maxDepth - d` left. For type
references the brackets on the stack are such levels too, and closing them one by one
does what the lists of a reference that recurs do after their items. So what is formed
of all the tokens, or the error, is what the parsers on the list give.
-/
namespace QueryDoc.Descent
open Carried (ofSpan)

variable {α β γ : Type} [Carried α] {d : Nat}

/-! ## Strings and scalars -/

/-- The token of a string that was seen is taken and decoded. -/
theorem string_agrees {s : State} (depth : s.depth = d) {raw : String} {span : Span}
    {rest : List Token} (next : s.cursor.tokens = ⟨.string raw, span⟩ :: rest)
    {k : Option Token → Descent γ} {f : StringValue α → Descent γ} {g : StringValue α → Parser γ}
    (taken : k (some ⟨.string raw, span⟩) = stringNode raw span >>= f)
    (h : ∀ x, Lockstep d (f x) (g x)) :
    Agrees d ((consume >>= k) s) ((Parser.stringValue raw >>= g) s.cursor) := by
  rw [Parser.stringValue, bind_assoc, nextSpan_seen next, bind_assoc]
  refine consume_agrees depth next ?_
  rw [taken, stringNode]
  refine Lockstep.bind ?_ h
  cases StringLiteral.decode raw.toList with
  | ok cs => exact .pure _
  | error error => exact .fail _ _ _

theorem literal_agrees {s : State} (depth : s.depth = d) {t : Token} {rest : List Token}
    (next : s.cursor.tokens = t :: rest) {k : Option Token → Descent (Value α)}
    {form : α → Value α} (taken : k (some t) = pure (form (ofSpan t.span))) :
    Agrees d ((consume >>= k) s) (Parser.literal form s.cursor) := by
  rw [Parser.literal, nextSpan_seen next]
  refine consume_agrees depth next ?_
  rw [taken]
  exact .pure _

theorem description_lockstep :
    Lockstep d (description : Descent (Option (StringValue α))) Parser.description := by
  rw [description, nextKind_bind]
  refine .peek_bind fun s depth => ?_
  rw [Parser.description, nextKind_seen]
  cases next : s.cursor.tokens with
  | nil => exact Lockstep.pure none s depth
  | cons t rest =>
    obtain ⟨kind, span⟩ := t
    cases kind with
    | string raw => exact string_agrees depth next rfl fun x => .pure (some x)
    | _ => exact Lockstep.pure none s depth

/-! ## Values -/

/-- Where no level is left, nothing is read. -/
theorem nested_full {production : Production} {body : Descent β} (full : maxDepth ≤ d) :
    Lockstep d (nested production body) (Parser.tooDeep production) := by
  rw [nested, enterRecursion, bind_assoc]
  refine .get_bind fun s depth => ?_
  rw [if_pos (by omega), ← bind_pure (Parser.tooDeep production)]
  exact .tooDeep_bind production _ _

/-- Where a level is left, what is read there is read one level deeper. -/
theorem nested_lockstep {production : Production} {body : Descent β} {p : Parser β}
    (room : d < maxDepth) (h : Lockstep (d + 1) body p) :
    Lockstep d (nested production body) p := by
  intro s depth
  have known : (get : Descent State) s = .ok (s, s) := rfl
  have entered : enterRecursion production s = .ok ((), { s with depth := s.depth + 1 }) := by
    rw [enterRecursion, bind_run known, if_neg (by omega)]
    rfl
  -- what was read leaves the counter where it was, and leaving takes the level off
  have inner := h { s with depth := s.depth + 1 } (congrArg (· + 1) depth)
  rw [nested, bind_run entered]
  change Agrees d ((body >>= _) _) (p (State.cursor { s with depth := s.depth + 1 }))
  simp only [bind, StateT.bind, Except.bind]
  generalize body { s with depth := s.depth + 1 } = a at inner
  generalize p (State.cursor { s with depth := s.depth + 1 }) = b at inner
  cases inner with
  | ok cursor depth => exact .ok cursor (congrArg (· - 1) depth)
  | error => exact .error

/-- What counts a level for itself and for each part inside it goes in step with what
takes the levels left. No bound `n` stops it before the counter does. -/
theorem within_lockstep {production : Production} {body : Descent β → Descent β}
    {within : Nat → Descent β} {byRoom : Nat → Parser β}
    (deeper : ∀ n, within (n + 1) = nested production (body (within n)))
    (full : byRoom 0 = Parser.tooDeep production)
    (h : ∀ d item, Lockstep d item (byRoom (maxDepth - d)) →
      Lockstep d (body item) (byRoom (maxDepth - d + 1))) (n : Nat) :
    ∀ d, maxDepth - d < n → Lockstep d (within n) (byRoom (maxDepth - d)) := by
  induction n with
  | zero => intro d bound; omega
  | succ n ih =>
    intro d bound
    rw [deeper]
    by_cases none : maxDepth ≤ d
    · rw [Nat.sub_eq_zero_of_le none, full]
      exact nested_full none
    · have inside := h (d + 1) _ (ih (d + 1) (by omega))
      rw [show maxDepth - (d + 1) + 1 = maxDepth - d by omega] at inside
      exact nested_lockstep (by omega) inside

theorem varRef_lockstep : Lockstep d (varRef : Descent (Variable α)) Parser.varRef := by
  refine (expect_lockstep _ _).bind fun dollar => (name_lockstep _).bind fun name => ?_
  exact (spanFrom_lockstep _).bind fun span => .pure _

section Items
variable {item : Descent (Value α)} {item' : Parser (Value α)} (h : Lockstep d item item')

include h

theorem listValue_lockstep : Lockstep d (listValue item) (Parser.listValue item') := by
  refine (expect_lockstep _ _).bind fun start => remaining_lockstep.bind fun n => ?_
  refine (manyUntil_lockstep h _ _ _).bind fun items => (expect_lockstep _ _).bind fun _ => ?_
  exact (spanFrom_lockstep _).bind fun span => .pure _

theorem objectField_lockstep : Lockstep d (objectField item) (Parser.objectField item') := by
  refine currentSpan_lockstep.bind fun start => (name_lockstep _).bind fun name => ?_
  refine (expect_lockstep _ _).bind fun _ => h.bind fun value => ?_
  exact (spanFrom_lockstep _).bind fun span => .pure _

theorem objectValue_lockstep : Lockstep d (objectValue item) (Parser.objectValue item') := by
  refine (expect_lockstep _ _).bind fun start => remaining_lockstep.bind fun n => ?_
  refine (manyUntil_lockstep (objectField_lockstep h) _ _ _).bind fun fields => ?_
  refine (expect_lockstep _ _).bind fun _ => ?_
  exact (spanFrom_lockstep _).bind fun span => .pure _

end Items

/-- The first token decides which form of a value is read. -/
theorem valueBody_lockstep {context : ValueContext} {item : Descent (Value α)} {room : Nat}
    (h : Lockstep d item (Parser.value context room)) :
    Lockstep d (valueBody context item) (Parser.value context (room + 1)) := by
  rw [valueBody, nextKind_bind, Parser.value]
  refine .peek_bind fun s depth => ?_
  rw [nextKind_seen]
  cases next : s.cursor.tokens with
  | nil => exact unexpected_lockstep _ _ s depth
  | cons t rest =>
    obtain ⟨kind, span⟩ := t
    cases kind with
    | punctuator p =>
      cases p
      case dollar =>
        refine Lockstep.ite ?_ ?_ s depth
        · exact varRef_lockstep.bind fun v => .pure _
        · exact currentSpan_lockstep.bind fun span => .fail _ _ _
      case openBracket => exact listValue_lockstep h s depth
      case openBrace => exact objectValue_lockstep h s depth
      all_goals exact unexpected_lockstep _ _ s depth
    | int text => exact literal_agrees depth next rfl
    | float text => exact literal_agrees depth next rfl
    | string raw => exact string_agrees depth next rfl fun x => .pure _
    | boolean b => exact literal_agrees depth next rfl
    | null => exact literal_agrees depth next rfl
    | name text => exact literal_agrees depth next rfl
    | _ => exact unexpected_lockstep _ _ s depth

theorem value_lockstep (context : ValueContext) :
    Lockstep d (value context : Descent (Value α)) (Parser.value context (maxDepth - d)) :=
  within_lockstep (fun _ => rfl) rfl (fun _ _ => valueBody_lockstep) _ d (by omega)

/-! ## Types -/

theorem namedType_lockstep (production : Production) :
    Lockstep d (namedType production : Descent (NamedType α)) (Parser.namedType production) :=
  (name_lockstep production).bind fun _ => .pure _

theorem namedTypeStart_lockstep (t : NamedType α) :
    Lockstep d (namedTypeStart t) (Parser.namedTypeStart t) := fun _ depth => .ok rfl depth

theorem marked_lockstep (start : Position) (t : NullableType α) :
    Lockstep d (marked start t) (Parser.marked start t) := by
  refine (nextIs_lockstep _).bind fun b => .ite ?_ (.pure _)
  exact .consume_bind ((spanFrom_lockstep start).bind fun span => .pure _)

/-- The end of a list type that starts at `bracket`, after its item. -/
def closeList (bracket : Position) (item : TypeRef α) : Parser (TypeRef α) := do
  let _ ← Parser.expect .closeBracket .listType
  let span ← Parser.spanFrom bracket
  Parser.marked bracket (.list item (ofSpan span))

/-- The ends of the list types that start at these positions, the innermost one first. -/
def finishLists : List Position → TypeRef α → Parser (TypeRef α)
  | [], t => return t
  | bracket :: stack, item => do finishLists stack (← closeList bracket item)

theorem bind_finishLists_nil (p : Parser (TypeRef α)) : p >>= finishLists [] = p := bind_pure p

theorem closeBrackets_lockstep (stack : List Position) :
    ∀ (start : Position) (t : NullableType α),
      Lockstep d (closeBrackets start t stack) (Parser.marked start t >>= finishLists stack) := by
  induction stack with
  | nil =>
    intro start t
    rw [bind_finishLists_nil]
    exact marked_lockstep start t
  | cons bracket stack ih =>
    intro start t
    refine (marked_lockstep start t).bind fun item => ?_
    rw [finishLists, closeList, bind_assoc]
    refine (expect_lockstep _ _).bind fun _ => ?_
    rw [bind_assoc]
    exact (spanFrom_lockstep bracket).bind fun span => ih bracket _

theorem typeInside_lockstep (stack : List Position) :
    Lockstep d (typeInside stack : Descent (TypeRef α))
      (Parser.markedName >>= finishLists stack) := by
  rw [Parser.markedName, bind_assoc]
  refine (namedType_lockstep _).bind fun named => ?_
  rw [bind_assoc]
  exact (namedTypeStart_lockstep named).bind fun start => closeBrackets_lockstep stack start _

/-- Each bracket on the stack is a list around what is read next. By induction on the
bound, which the levels left stay below. -/
theorem openBrackets_lockstep (n : Nat) :
    ∀ (stack : List Position) (room : Nat), room = maxDepth - (d + stack.length) → room < n →
      Lockstep d (openBrackets stack n >>= typeInside : Descent (TypeRef α))
        (Parser.typeRef room >>= finishLists stack) := by
  induction n with
  | zero => intro stack room _ bound; omega
  | succ n ih =>
    intro stack room left bound
    rw [openBrackets, bind_assoc]
    cases room with
    | zero =>
      rw [Parser.typeRef, bind_assoc]
      refine (nextIs_lockstep _).bind fun b => ?_
      cases b with
      | false => exact typeInside_lockstep stack
      | true =>
        -- no level is left for what the bracket opens
        rw [if_pos rfl, if_pos rfl, bind_assoc]
        refine .get_bind fun s depth => ?_
        rw [if_pos (by omega)]
        exact .tooDeep_bind .listType _ _
    | succ room =>
      rw [Parser.typeRef, bind_assoc]
      refine (nextIs_lockstep _).bind fun b => ?_
      cases b with
      | false => exact typeInside_lockstep stack
      | true =>
        -- on the stack the bracket takes a level, as it does where the reference recurs
        rw [if_pos rfl, if_pos rfl, bind_assoc]
        refine .get_bind fun s depth => ?_
        rw [if_neg (by omega), bind_assoc, bind_assoc]
        refine (expect_lockstep _ _).bind fun bracket => ?_
        rw [bind_assoc]
        exact ih (bracket.start :: stack) room (by simp only [List.length_cons]; omega)
          (by omega)

theorem typeReference_lockstep :
    Lockstep d (typeReference : Descent (TypeRef α)) (Parser.typeRef (maxDepth - d)) := by
  have whole := openBrackets_lockstep (α := α) (d := d) (maxDepth + 1) [] (maxDepth - d) rfl
    (by omega)
  rw [bind_finishLists_nil] at whole
  exact whole

/-! ## Selections -/

theorem argument_lockstep (context : ValueContext) :
    Lockstep d (argument context : Descent (Argument α))
      (Parser.argument (Parser.value context (maxDepth - d))) := by
  refine currentSpan_lockstep.bind fun start => (name_lockstep _).bind fun name => ?_
  refine (expect_lockstep _ _).bind fun _ => (value_lockstep context).bind fun value => ?_
  exact (spanFrom_lockstep _).bind fun span => .pure _

theorem arguments_lockstep (context : ValueContext) :
    Lockstep d (arguments context : Descent (List (Argument α)))
      (Parser.arguments (Parser.value context (maxDepth - d))) := by
  refine (nextIs_lockstep _).bind fun b => .ite ?_ (.pure [])
  exact (nonempty_lockstep (argument_lockstep context) _ _ _ _).bind fun x => .pure _

theorem directive_lockstep (context : ValueContext) :
    Lockstep d (directive context : Descent (Directive α))
      (Parser.directive (Parser.value context (maxDepth - d))) := by
  refine (expect_lockstep _ _).bind fun start => (name_lockstep _).bind fun name => ?_
  refine (arguments_lockstep context).bind fun arguments => ?_
  exact (spanFrom_lockstep _).bind fun span => .pure _

theorem directives_lockstep (context : ValueContext) :
    Lockstep d (directives context : Descent (List (Directive α)))
      (Parser.directives (Parser.value context (maxDepth - d))) :=
  remaining_lockstep.bind fun n => manyWhile_lockstep (directive_lockstep context) _ (n + 1)

theorem fieldName_lockstep :
    Lockstep d (fieldName : Descent (Option (Name α) × Name α)) Parser.fieldName := by
  refine (name_lockstep _).bind fun first => (nextIs_lockstep _).bind fun b => .ite ?_ (.pure _)
  exact .consume_bind ((name_lockstep _).bind fun name => .pure _)

theorem typeCondition_lockstep :
    Lockstep d (typeCondition : Descent (Option (NamedType α))) Parser.typeCondition := by
  refine (nextIsKeyword_lockstep _).bind fun b => .ite ?_ (.pure none)
  exact .consume_bind ((namedType_lockstep _).bind fun t => .pure _)

section Sets
variable {inner : Descent (SelectionSet α)} {inner' : Parser (SelectionSet α)}
  (h : Lockstep d inner inner')

include h

omit [Carried α] in
theorem optionalSelections_lockstep :
    Lockstep d (optionalSelections inner) (Parser.optionalSelections inner') := by
  refine (nextIs_lockstep _).bind fun b => .ite ?_ (.pure none)
  exact h.bind fun selections => .pure _

theorem field_lockstep :
    Lockstep d (field inner) (Parser.field (Parser.value .anyValue (maxDepth - d)) inner') := by
  refine currentSpan_lockstep.bind fun start => fieldName_lockstep.bind fun names => ?_
  refine (arguments_lockstep _).bind fun arguments => ?_
  refine (directives_lockstep _).bind fun directives => ?_
  refine (optionalSelections_lockstep h).bind fun selections => ?_
  exact (spanFrom_lockstep _).bind fun span => .pure _

/-- The two looks at the token after the dots see the same token. -/
theorem fragmentSelection_lockstep :
    Lockstep d (fragmentSelection inner)
      (Parser.fragmentSelection (Parser.value .anyValue (maxDepth - d)) inner') := by
  refine (expect_lockstep _ _).bind fun start => ?_
  rw [nextIsKeyword_bind]
  refine .peek_bind fun s depth => ?_
  rw [nextIsName_bind]
  refine peek_agrees depth rfl fun s' depth' cursor => ?_
  rw [nextKind_seen, ← cursor]
  simp only [Bool.and_eq_true, Bool.not_eq_true', beq_eq_false_iff_ne]
  refine Lockstep.ite ?_ ?_ s' depth'
  · refine (name_lockstep _).bind fun name => (directives_lockstep _).bind fun directives => ?_
    exact (spanFrom_lockstep _).bind fun span => .pure _
  · refine typeCondition_lockstep.bind fun type => (directives_lockstep _).bind fun directives => ?_
    exact h.bind fun selections => (spanFrom_lockstep _).bind fun span => .pure _

theorem selection_lockstep :
    Lockstep d (selection inner)
      (Parser.selection (Parser.value .anyValue (maxDepth - d)) inner') :=
  (nextIs_lockstep _).bind fun _ => .ite (fragmentSelection_lockstep h) (field_lockstep h)

end Sets

theorem selectionSetBody_lockstep {inner : Descent (SelectionSet α)}
    (h : Lockstep d inner (Parser.selectionSet (maxDepth - d))) :
    Lockstep d (selectionSetBody inner) (Parser.selectionSet (maxDepth - d + 1)) := by
  refine (nonempty_lockstep (selection_lockstep h) _ _ _ _).bind fun items => ?_
  exact (spanFrom_lockstep _).bind fun span => .pure _

theorem selectionSet_lockstep :
    Lockstep d (selectionSet : Descent (SelectionSet α)) (Parser.selectionSet (maxDepth - d)) :=
  within_lockstep (fun _ => rfl) rfl (fun _ _ => selectionSetBody_lockstep) _ d (by omega)

/-! ## Documents -/

theorem defaultValue_lockstep :
    Lockstep 0 (defaultValue : Descent (Option (Value α))) Parser.defaultValue := by
  refine (nextIs_lockstep _).bind fun b => .ite ?_ (.pure none)
  exact .consume_bind ((value_lockstep _).bind fun value => .pure _)

theorem variableDefinition_lockstep :
    Lockstep 0 (variableDefinition : Descent (VariableDefinition α))
      Parser.variableDefinition := by
  refine currentSpan_lockstep.bind fun start => description_lockstep.bind fun description => ?_
  refine varRef_lockstep.bind fun v => (expect_lockstep _ _).bind fun _ => ?_
  refine typeReference_lockstep.bind fun type => defaultValue_lockstep.bind fun default => ?_
  refine (directives_lockstep _).bind fun directives => ?_
  exact (spanFrom_lockstep _).bind fun span => .pure _

theorem variableDefinitions_lockstep :
    Lockstep 0 (variableDefinitions : Descent (List (VariableDefinition α)))
      Parser.variableDefinitions := by
  refine (nextIs_lockstep _).bind fun b => .ite ?_ (.pure [])
  exact (nonempty_lockstep variableDefinition_lockstep _ _ _ _).bind fun x => .pure _

theorem operationName_lockstep :
    Lockstep d (operationName : Descent (Option (Name α))) Parser.operationName := by
  refine (nextIs_lockstep _).bind fun a => (nextIs_lockstep _).bind fun b => ?_
  refine (nextIs_lockstep _).bind fun c => .ite (.pure none) ?_
  exact (name_lockstep _).bind fun name => .pure _

theorem operation_lockstep (start : Position) (description : Option (StringValue α))
    (kind : OperationKind) :
    Lockstep 0 (operation start description kind) (Parser.operation start description kind) := by
  refine .consume_bind (operationName_lockstep.bind fun name => ?_)
  refine variableDefinitions_lockstep.bind fun definitions => ?_
  refine (directives_lockstep _).bind fun directives => ?_
  refine selectionSet_lockstep.bind fun selections => ?_
  exact (spanFrom_lockstep _).bind fun span => .pure _

theorem shortQuery_lockstep (start : Position) :
    Lockstep 0 (shortQuery start : Descent (Operation α)) (Parser.shortQuery start) := by
  refine selectionSet_lockstep.bind fun selections => ?_
  exact (spanFrom_lockstep _).bind fun span => .pure _

theorem fragment_lockstep (start : Position) (description : Option (StringValue α)) :
    Lockstep 0 (fragment start description) (Parser.fragment start description) := by
  refine .consume_bind ((nextIsKeyword_lockstep _).bind fun b => .ite ?_ ?_)
  · exact currentSpan_lockstep.bind fun span => .fail _ _ _
  · refine (name_lockstep _).bind fun name => (expectKeyword_lockstep _ _).bind fun _ => ?_
    refine (namedType_lockstep _).bind fun type => ?_
    refine (directives_lockstep _).bind fun directives => ?_
    refine selectionSet_lockstep.bind fun selections => ?_
    exact (spanFrom_lockstep _).bind fun span => .pure _

omit [Carried α] in
theorem noDefinition_lockstep :
    Lockstep d (noDefinition : Descent (Definition α))
      (Parser.nextKind >>= Parser.noDefinition) := by
  refine nextKind_lockstep.bind fun next => currentSpan_lockstep.bind fun span => ?_
  exact fun s depth => .error

section Keywords
variable {s : State} {c : Cursor} (depth : s.depth = 0) (seen : s.cursor = c) (start : Position)
  (description : Option (StringValue α))

include depth seen

theorem keywordDefinition_fragment
    (word : c.tokens.head?.map Token.kind = some (.name "fragment")) :
    Agrees 0 (keywordDefinition start description s)
      ((do return Definition.fragment (← Parser.fragment start description)) c) := by
  rw [keywordDefinition, nextIsKeyword_bind]
  refine peek_agrees depth seen fun s depth seen => ?_
  rw [if_pos (beq_iff_eq.2 word), ← seen]
  exact (fragment_lockstep start description).bind (fun x => .pure _) s depth

theorem keywordDefinition_operation {text : String} {kind : OperationKind}
    (word : c.tokens.head?.map Token.kind = some (.name text)) (other : text ≠ "fragment")
    (keyword : OperationKind.ofKeyword? text = some kind) :
    Agrees 0 (keywordDefinition start description s)
      ((do return Definition.operation (← Parser.operation start description kind)) c) := by
  rw [keywordDefinition, nextIsKeyword_bind]
  refine peek_agrees depth seen fun s depth seen => ?_
  rw [if_neg (by simpa [word] using other), nextKind_bind]
  refine peek_agrees depth seen fun s depth seen => ?_
  rw [word]
  dsimp only
  rw [keyword, ← seen]
  exact (operation_lockstep start description kind).bind (fun x => .pure _) s depth

/-- Nothing else starts a definition. -/
theorem keywordDefinition_fails
    (other : ∀ text, c.tokens.head?.map Token.kind = some (.name text) →
      text ≠ "fragment" ∧ OperationKind.ofKeyword? text = none) :
    Agrees 0 (keywordDefinition start description s)
      (Parser.noDefinition (c.tokens.head?.map Token.kind) c) := by
  rw [keywordDefinition, nextIsKeyword_bind]
  refine peek_agrees depth seen fun s depth seen => ?_
  rw [if_neg fun word => (other _ (beq_iff_eq.1 word)).1 rfl, nextKind_bind]
  refine peek_agrees depth seen fun s depth seen => ?_
  have agrees := noDefinition_lockstep (α := α) s depth
  rw [seen, nextKind_seen] at agrees
  cases next : c.tokens.head?.map Token.kind with
  | none =>
    rw [next] at agrees
    exact agrees
  | some kind =>
    rw [next] at agrees
    cases kind with
    | name text =>
      dsimp only
      rw [(other text next).2]
      exact agrees
    | _ => exact agrees

end Keywords

/-- The looks at the token after the description see the same token. -/
theorem definition_lockstep :
    Lockstep 0 (definition : Descent (Definition α)) Parser.definition := by
  refine currentSpan_lockstep.bind fun start => description_lockstep.bind fun description => ?_
  rw [nextIs_bind]
  refine .peek_bind fun s depth => ?_
  rw [nextKind_seen]
  have fails := keywordDefinition_fails depth rfl start.start description
  cases next : s.cursor.tokens.head?.map Token.kind with
  | none =>
    rw [next] at fails
    exact fails (by simp)
  | some kind =>
    rw [next] at fails
    cases kind with
    | name text =>
      dsimp only
      rw [if_neg (by simp)]
      by_cases fragment : text = "fragment"
      · rw [if_pos fragment]
        subst fragment
        exact keywordDefinition_fragment depth rfl start.start description next
      · rw [if_neg fragment]
        cases keyword : OperationKind.ofKeyword? text with
        | some kind =>
          exact keywordDefinition_operation depth rfl start.start description next fragment keyword
        | none =>
          refine fails ?_
          rintro _ ⟨⟩
          exact ⟨fragment, keyword⟩
    | punctuator p =>
      cases p
      case openBrace =>
        rw [if_pos (by rfl)]
        refine Lockstep.ite ?_ ?_ s depth
        · exact currentSpan_lockstep.bind fun span => .fail _ _ _
        · exact (shortQuery_lockstep _).bind fun query => .pure _
      all_goals exact fails (by simp)
    | _ => exact fails (by simp)

theorem definitions_lockstep (n : Nat) :
    Lockstep 0 (definitions n : Descent (List (Definition α))) (Parser.definitions n) := by
  induction n with
  | zero => exact .pure []
  | succ n ih =>
    refine isAtEnd_lockstep.bind fun b => .ite (.pure []) ?_
    exact definition_lockstep.bind fun x => ih.bind fun xs => .pure _

theorem document_lockstep : Lockstep 0 (document : Descent (Document α)) Parser.document := by
  refine isAtEnd_lockstep.bind fun b => .ite ?_ ?_
  · exact currentSpan_lockstep.bind fun span => .fail _ _ _
  · refine remaining_lockstep.bind fun n => (definitions_lockstep (n + 1)).bind fun ds => ?_
    exact currentSpan_lockstep.bind fun stop => .pure _

theorem wholeValue_lockstep (context : ValueContext) :
    Lockstep 0 (wholeValue context : Descent (Value α)) (Parser.wholeValue context) := by
  refine (value_lockstep context).bind fun v => ?_
  exact (expectEnd_lockstep _).bind fun _ => .pure v

theorem wholeType_lockstep : Lockstep 0 (wholeType : Descent (TypeRef α)) Parser.wholeType := by
  refine typeReference_lockstep.bind fun t => ?_
  exact (expectEnd_lockstep _).bind fun _ => .pure t

/-! ## All of the input -/

/-- Parsers in step give the same on all the tokens of a source. -/
theorem Lockstep.run_eq {m : Descent β} {p : Parser β} (h : Lockstep 0 m p) (source : Source)
    (tokens : List Token) : m.run source tokens = p.run source tokens := by
  have whole := h ⟨.ofList tokens, none, 0⟩ rfl
  rw [show State.cursor ⟨.ofList tokens, none, 0⟩ = ⟨tokens, none⟩ from rfl] at whole
  rw [Descent.run, Parser.run]
  generalize m _ = a at whole
  generalize p _ = b at whole
  cases whole with
  | ok => rfl
  | error => rfl

end QueryDoc.Descent

namespace QueryDoc

variable (options : ParseOptions) (source : Source) (tokens : List Token)

theorem Document.ofTokens_eq_run :
    letI := options.carried source
    Document.ofTokens options source tokens = Parser.document.run source tokens :=
  letI := options.carried source
  Descent.document_lockstep.run_eq source tokens

theorem Value.ofTokens_eq_run :
    letI := options.carried source
    Value.ofTokens options source tokens = (Parser.wholeValue .anyValue).run source tokens :=
  letI := options.carried source
  (Descent.wholeValue_lockstep .anyValue).run_eq source tokens

theorem Value.constOfTokens_eq_run :
    letI := options.carried source
    Value.constOfTokens options source tokens =
      (Parser.wholeValue .constantValue).run source tokens :=
  letI := options.carried source
  (Descent.wholeValue_lockstep .constantValue).run_eq source tokens

theorem TypeRef.ofTokens_eq_run :
    letI := options.carried source
    TypeRef.ofTokens options source tokens = Parser.wholeType.run source tokens :=
  letI := options.carried source
  Descent.wholeType_lockstep.run_eq source tokens

end QueryDoc
