import QueryDoc.Proofs.Grammar.Completeness
import QueryDoc.Proofs.Grammar.Rounds

/-!
# One token is enough for every production

Each parser settles its production, in front of anything that does not go on with
it. What would go on with it is said for each production that ends with an optional
part: after a field no colon may follow, no parenthesis and no at sign, and so on.
Values and selection sets go by induction on the levels that are left, like their
parsers; the levels do not show in the languages.
-/
namespace QueryDoc.Parser
open Grammar Computability

variable {F : Language TokenKind} {c : Cursor}

/-! ## Values -/

theorem settles_varRef : Settles (mark .dollar * names) F varRef c :=
  .bind (settles_expect .dollar .variable) fun _ _ _ =>
    .last (settles_name .variable) fun _ _ => .spanFrom fun _ => .pure _

theorem settles_literal {t : TokenKind} {form : Span → Value Span} (ht : c.kinds.head? = some t)
    (hend : t ≠ .endOfInput) : Settles (token t) F (literal form) c :=
  .nextSpan fun _ => .take ht rfl hend fun _ => .pure _

section Values
variable {constant : Bool}

/-- The next token says what kind of value comes. -/
theorem Settles.value {t : TokenKind} {p : Parser (Value Span)} (ht : c.kinds.head? = some t)
    (hp : Settles (valuesFrom constant t) F p c) : Settles (values constant) F p c := by
  refine hp.narrow (fun us hus => valuesFrom_sub hus) fun us hus vs _ hhead => ?_
  obtain ⟨u, hu, hmem⟩ := values_from hus
  obtain rfl : u = t := by simpa [List.head?_append, hu, ht] using hhead
  exact hmem

theorem bars_values (h : ∀ t, c.kinds.head? = some t → valuesFrom constant t = 0) :
    Bars (values constant * F) c := by
  rintro _ ⟨us, hus, vs, -, rfl⟩ hhead
  obtain ⟨t, ht, hmem⟩ := values_from hus
  rw [h t (by simpa [List.head?_append, ht] using hhead.symm)] at hmem
  exact Language.notMem_zero us hmem

variable {context : ValueContext} {room : Nat}

/-- The parser of values settles them under the given limit. -/
def ValuesSettled (context : ValueContext) (room : Nat) : Prop :=
  ∀ F c, Settles (values (isConstant context)) F (value context room : Parser (Value Span)) c

section Nested
variable (hvalue : ValuesSettled context room)
include hvalue

theorem value_items :
    SettlesItems (value context room : Parser (Value Span)) (values (isConstant context))
      [.dollar, .openBracket, .openBrace] [] :=
  .of_production rfl (fun _ _ h => h.starts) (yields_value context room) (by simp)
    fun F _ c => hvalue F c

theorem settles_listValue :
    Settles (mark .openBracket * ((values (isConstant context))∗ * mark .closeBracket)) F
      (listValue (value context room)) c :=
  .bind (settles_expect .openBracket .listValue) fun _ c' _ =>
    .repeated (settles_manyUntil (value_items hvalue) .listValue (by simp) (by simp)
      (.mark_mul (by simp)) c') fun _ _ =>
    .last (settles_expect .closeBracket .listValue) fun _ _ => .spanFrom fun _ => .pure _

theorem settles_objectField :
    Settles (objectFields (isConstant context)) F (objectField (value context room)) c :=
  .nextSpan fun _ => .bind (settles_name .objectField) fun _ _ _ =>
    .bind (settles_expect .colon .objectField) fun _ c' _ =>
    .last (hvalue F c') fun _ _ => .spanFrom fun _ => .pure _

theorem objectField_items :
    SettlesItems (objectField (value context room)) (objectFields (isConstant context)) [] [] :=
  .of_production (words_objectField _) (fun _ _ h => h.starts)
    (yields_objectField (yields_value context room)) (by simp)
    fun _ _ _ => settles_objectField hvalue

theorem settles_objectValue :
    Settles (mark .openBrace * ((objectFields (isConstant context))∗ * mark .closeBrace)) F
      (objectValue (value context room)) c :=
  .bind (settles_expect .openBrace .objectValue) fun _ c' _ =>
    .repeated (settles_manyUntil (objectField_items hvalue) .objectValue (by simp) (by simp)
      (.mark_mul (by simp)) c') fun _ _ =>
    .last (settles_expect .closeBrace .objectValue) fun _ _ => .spanFrom fun _ => .pure _

end Nested

theorem settles_value (context : ValueContext) (room : Nat) : ValuesSettled context room := by
  induction room with
  | zero => exact fun F c => .tooDeep
  | succ room ih =>
    intro F c
    refine .look (peeks_nextKind c) ?_
    split
    · rename_i hnext
      split
      · rename_i hany
        refine .value hnext ?_
        simp only [valuesFrom, isConstant, hany, bne_self_eq_false, Bool.false_eq_true, if_false]
        exact .last settles_varRef fun v _ => .pure _
      · rename_i hconst
        refine .fail (bars_values fun t ht => ?_) (by simp) (by simp [Cause.notes])
        rw [hnext, Option.some.injEq] at ht
        subst ht
        simp [valuesFrom, isConstant, hconst]
    · rename_i hnext
      exact .value hnext (settles_listValue ih)
    · rename_i hnext
      exact .value hnext (settles_objectValue ih)
    · rename_i hnext
      exact .value hnext (settles_literal hnext (by simp))
    · rename_i hnext
      exact .value hnext (settles_literal hnext (by simp))
    · rename_i hnext
      exact .value hnext (.last (settles_stringValue hnext) fun _ _ => .pure _)
    · rename_i hnext
      exact .value hnext (settles_literal hnext (by simp))
    · rename_i hnext
      exact .value hnext (settles_literal hnext (by simp))
    · rename_i hnext
      exact .value hnext (settles_literal hnext (by simp))
    · refine .unexpected (bars_values fun t ht => ?_)
      cases t with
      | punctuator p => cases p <;> simp_all [valuesFrom]
      | _ => simp_all [valuesFrom]

end Values

/-! ## Types -/

theorem settles_namedType (production : Production) :
    Settles names F (namedType production : Parser (NamedType Span)) c :=
  .last (settles_name production) fun _ _ => .pure _

theorem settles_marked {start : Position} {t : NullableType Span} (hF : Shuns [.bang] F) :
    Settles (1 + mark .bang) F (marked start t) c :=
  .optional (.mark (by simp)) hF
    (fun hbang => .take hbang rfl (by simp) fun _ => .spanFrom fun _ => .pure _) (.pure _)

theorem settles_markedName (hF : Shuns [.bang] F) :
    Settles (names * (1 + mark .bang)) F (markedName : Parser (TypeRef Span)) c :=
  .bind (settles_namedType .namedType) fun t _ _ =>
    .look (x := t.info.start) (fun _ _ => rfl) (settles_marked hF)

theorem settles_namedTypeRef (hnext : c.kinds.head? ≠ some (.punctuator .openBracket))
    (hF : Shuns [.bang] F) : Settles types F (markedName : Parser (TypeRef Span)) c := by
  have hlist : Leads [.openBracket] (listTypes * (1 + mark .bang)) := (Leads.mark_mul (by simp)).mul
  rw [words_type, add_mul]
  exact .left (.of_leads hlist.mul (by simpa using hnext)) (settles_markedName hF)

theorem settles_typeRef (room : Nat) (hF : Shuns [.bang] F) :
    Settles types F (typeRef room : Parser (TypeRef Span)) c := by
  induction room generalizing F c with
  | zero =>
    refine .look (peeks_nextIs .openBracket c) ?_
    split
    · exact .tooDeep
    · rename_i hnext
      exact settles_namedTypeRef (by simpa using hnext) hF
  | succ room ih =>
    refine .look (peeks_nextIs .openBracket c) ?_
    split
    · rename_i hnext
      have hclose : Leads [.closeBracket] (mark .closeBracket * (1 + mark .bang)) :=
        .mark_mul (by simp)
      rw [words_type, add_mul]
      refine .right ?_ ?_
      · rw [mul_assoc]
        exact bars_names (beq_iff_eq.1 hnext)
      · rw [listTypes, mul_assoc, mul_assoc]
        exact .bind (settles_expect .openBracket .listType) fun _ c₁ _ =>
          .bind (ih (hclose.mul.shuns (by simp))) fun _ c₂ _ =>
          .bind (settles_expect .closeBracket .listType) fun _ c₃ _ =>
          .spanFrom fun _ => settles_marked hF
    · rename_i hnext
      exact settles_namedTypeRef (by simpa using hnext) hF

/-! ## Arguments and directives -/

section Directives
variable {ps : List Punctuator} (constant : Bool) (context : ValueContext) (room : Nat)

theorem shuns_arguments (hps : .openParen ∉ ps) : Shuns ps (argumentLists constant) :=
  .optional (Leads.enclosed.shuns_of_notMem hps)

theorem leads_directive : Leads [.at] (directiveWords constant) := .mark_mul (by simp)

theorem shuns_directives (hps : .at ∉ ps) : Shuns ps ((directiveWords constant)∗) :=
  ((leads_directive constant).shuns_of_notMem hps).star

theorem settles_argument :
    Settles (objectFields (isConstant context)) F (argument (value context room)) c :=
  .nextSpan fun _ => .bind (settles_name .argument) fun _ _ _ =>
    .bind (settles_expect .colon .argument) fun _ c' _ =>
    .last (settles_value context room F c') fun _ _ => .spanFrom fun _ => .pure _

theorem argument_items :
    SettlesItems (argument (value context room)) (objectFields (isConstant context)) [] [] :=
  .of_production (words_argument _) (fun _ _ h => h.starts)
    (yields_argument (yields_value context room)) (by simp)
    fun _ _ _ => settles_argument context room

theorem settles_arguments (hF : Shuns [.openParen] F) :
    Settles (argumentLists (isConstant context)) F (arguments (value context room)) c :=
  .optional .enclosed hF
    (fun _ => .last (settles_nonempty (argument_items context room) .argumentList .argument
      (by simp) (by simp) c) fun _ _ => .pure _) (.pure [])

theorem settles_directive (hF : Shuns [.openParen] F) :
    Settles (directiveWords (isConstant context)) F (directive (value context room)) c :=
  .bind (settles_expect .at .directive) fun _ _ _ =>
    .bind (settles_name .directive) fun _ _ _ =>
    .last (settles_arguments context room hF) fun _ _ => .spanFrom fun _ => .pure _

theorem directive_items :
    SettlesItems (directive (value context room)) (directiveWords (isConstant context))
      [.at] [.openParen] :=
  .of_production (words_directive _) (fun _ _ h => h.starts)
    (yields_directive (yields_value context room)) (by simp)
    fun _ hF _ => settles_directive context room hF

theorem settles_directives (hF : Shuns [.at, .openParen] F) :
    Settles ((directiveWords (isConstant context))∗) F (directives (value context room)) c :=
  settles_manyWhile (directive_items context room) (leads_directive _) (hF.mono (by simp))
    (hF.mono (by simp)) c

end Directives

/-! ## Selections -/

/-- What goes on with a field, if it follows. -/
def fieldEnds : List Punctuator := [.colon, .openParen, .at, .openBrace]

theorem shuns_selectionSets {ps : List Punctuator} (hps : .openBrace ∉ ps) :
    Shuns ps selectionSets :=
  Leads.selectionSets.shuns_of_notMem hps

theorem leads_body : Leads [.at, .openBrace] ((directiveWords false)∗ * selectionSets) :=
  .star_mul ((leads_directive false).mono (by simp)) (Leads.selectionSets.mono (by simp))

theorem settles_fieldName (hF : Shuns [.colon] F) : Settles fieldNames F fieldName c :=
  .bind (settles_name .field) fun _ _ _ => .optional (.mark_mul (by simp)) hF
    (fun hcolon => .bind (.advance hcolon rfl (by simp)) fun _ _ _ =>
      .last (settles_name .field) fun _ _ => .pure _) (.pure _)

theorem settles_typeCondition (hF : Leads [.at, .openBrace] F) :
    Settles (1 + typeConditions) F typeCondition c := by
  refine .look (peeks_nextIsKeyword "on" c) ?_
  split
  · rename_i hnext
    have hon : c.kinds.head? = some (.name "on") := beq_iff_eq.1 hnext
    exact .present (.of_leads hF (by simp [hon])) (.bind (.advance hon rfl (by simp)) fun _ _ _ =>
      .last (settles_namedType .inlineFragment) fun _ _ => .pure _)
  · rename_i hnext
    exact .left (.single_mul_mul fun t ht hon => hnext (by simp [ht, hon])) (.pure none)

section Selections
variable {room : Nat}

/-- The parser of selection sets settles them under the given limit. -/
def SetsSettled (room : Nat) : Prop :=
  ∀ F c, Settles selectionSets F (selectionSet room : Parser (SelectionSet Span)) c

variable (hinner : SetsSettled room)
include hinner

theorem settles_optionalSelections (hF : Shuns [.openBrace] F) :
    Settles (1 + selectionSets) F
      (optionalSelections (selectionSet room : Parser (SelectionSet Span))) c :=
  .optional .selectionSets hF (fun _ => .last (hinner F c) fun _ _ => .pure _) (.pure none)

theorem settles_field (hF : Shuns fieldEnds F) :
    Settles (fields selectionSets) F (field (value .anyValue room) (selectionSet room)) c := by
  have hset {ps : List Punctuator} (hps : ∀ p ∈ ps, p ∈ fieldEnds) (hbrace : .openBrace ∉ ps) :
      Shuns ps ((1 + selectionSets) * F) :=
    (shuns_selectionSets hbrace).optional.mul (hF.mono hps)
  have hdirectives {ps : List Punctuator} (hps : ∀ p ∈ ps, p ∈ fieldEnds)
      (hbrace : .openBrace ∉ ps) (hat : .at ∉ ps) :
      Shuns ps (((directiveWords false)∗ * (1 + selectionSets)) * F) := by
    rw [mul_assoc]
    exact (shuns_directives false hat).mul (hset hps hbrace)
  refine .nextSpan fun _ => .bind (settles_fieldName ?_) fun (_, _) _ _ =>
    .bind (settles_arguments .anyValue room ?_) fun _ _ _ =>
    .bind (settles_directives .anyValue room ?_) fun _ _ _ =>
    .last (settles_optionalSelections hinner (hF.mono ?_)) fun _ _ => .spanFrom fun _ => .pure _
  · rw [mul_assoc]
    exact (shuns_arguments false (by simp)).mul (hdirectives (by simp [fieldEnds]) (by simp)
      (by simp))
  · exact hdirectives (by simp [fieldEnds]) (by simp) (by simp)
  · exact hset (by simp [fieldEnds]) (by simp)
  · simp [fieldEnds]

theorem settles_fragmentSelection (hF : Shuns fieldEnds F) :
    Settles (mark .ellipsis * (spreads + inlineFragments selectionSets)) F
      (fragmentSelection (value .anyValue room) (selectionSet room)) c := by
  have hends : Shuns [.at, .openParen] F := hF.mono (by simp [fieldEnds])
  refine .bind (settles_expect .ellipsis .fragmentSpread) fun _ c' _ =>
    .look (peeks_nextKind c') ?_
  split
  · rename_i hnext
    refine .left ?_ (.bind (settles_fragmentName .fragmentSpread hnext.1) fun _ _ _ =>
      .last (settles_directives .anyValue room hends) fun _ _ => .spanFrom fun _ => .pure _)
    rw [inlineFragments, mul_optional_mul, add_mul]
    refine .add (.of_leads leads_body.mul fun p _ hp => ?_) ?_
    · simp [hp, TokenKind.nameText?] at hnext
    · rw [mul_assoc]
      exact .single_mul_mul fun t ht hon => hnext.1 (ht.trans (congrArg some hon))
  · rename_i hnext
    refine .right ?_ (.bind (settles_typeCondition leads_body.mul) fun _ _ _ =>
      .bind (settles_directives .anyValue room ?_) fun _ c'' _ =>
      .last (hinner F c'') fun _ _ => .spanFrom fun _ => .pure _)
    · refine .single_mul_mul fun t ht hname => hnext ?_
      obtain ⟨text, htext, hon⟩ := hname
      refine ⟨fun h => hon ?_, by simp [ht, htext]⟩
      obtain rfl := Option.some.inj (ht.symm.trans h)
      exact (Option.some.inj htext).symm
    · exact (shuns_selectionSets (by simp)).mul hends

theorem settles_selection (hF : Shuns fieldEnds F) :
    Settles (selections selectionSets) F
      (selection (value .anyValue room) (selectionSet room)) c := by
  refine .look (peeks_nextIs .ellipsis c) ?_
  split
  · rename_i hnext
    refine .right ?_ (settles_fragmentSelection hinner hF)
    rw [fields, fieldNames, mul_assoc, mul_assoc]
    exact bars_names (beq_iff_eq.1 hnext)
  · rename_i hnext
    have hdots : Leads [.ellipsis]
        (mark .ellipsis * (spreads + inlineFragments selectionSets)) := .mark_mul (by simp)
    exact .left (.of_leads hdots.mul (by simpa using hnext)) (settles_field hinner hF)

theorem selection_items :
    SettlesItems (selection (value .anyValue room) (selectionSet room))
      (selections selectionSets) [.ellipsis] fieldEnds :=
  .of_production (words_selection SelectionSetForm) (fun _ _ h => h.starts)
    (yields_selection (yields_value .anyValue room) (yields_selectionSet room))
    (by simp [fieldEnds]) fun _ hF _ => settles_selection hinner hF

end Selections

theorem settles_selectionSet (room : Nat) : SetsSettled room := by
  induction room with
  | zero => exact fun F c => .tooDeep
  | succ room ih =>
    intro F c
    rw [words_selectionSet]
    exact .last (settles_nonempty (selection_items ih) .selectionSet .selectionSet (by simp)
      (by simp [fieldEnds]) c) fun (_, _) _ => .spanFrom fun _ => .pure _

/-! ## Descriptions and variable definitions -/

theorem settles_described {raw : String} (hraw : c.kinds.head? = some (.string raw)) :
    Settles strings F (description : Parser (Option (StringValue Span))) c := by
  refine .look (peeks_nextKind c) ?_
  split
  · exact .last (settles_stringValue ‹_›) fun _ _ => .pure _
  · rename_i hother
    exact absurd hraw (hother raw)

theorem peeks_undescribed (hraw : ∀ raw, c.kinds.head? ≠ some (.string raw)) :
    Peeks (description : Parser (Option (StringValue Span))) c none := by
  intro others h
  rw [description, bind_ok (nextKind_run _), kinds_head h]
  generalize c.kinds.head? = next at hraw
  cases next with
  | none => rfl
  | some t =>
    cases t with
    | string raw => exact absurd rfl (hraw raw)
    | _ => rfl

theorem description_isSome {raw : String} {c' : Cursor} {d : Option (StringValue Span)}
    (hraw : c.kinds.head? = some (.string raw)) (h : description c = .ok (d, c')) :
    d.isSome := by
  rw [description, bind_ok (nextKind_run c), hraw] at h
  obtain ⟨s, c₁, -, h⟩ := bind_eq_ok h
  cases h
  rfl

theorem bars_strings {L : Language TokenKind} (hraw : ∀ raw, c.kinds.head? ≠ some (.string raw)) :
    Bars (strings * L) c := by
  refine .single_mul fun t ht hstring => ?_
  obtain ⟨raw, cs, rfl, -⟩ := hstring
  exact hraw raw ht

theorem settles_description {ps : List Punctuator} (hF : Leads ps F) :
    Settles (1 + strings) F (description : Parser (Option (StringValue Span))) c := by
  by_cases h : ∃ raw, c.kinds.head? = some (.string raw)
  · obtain ⟨raw, hraw⟩ := h
    exact .present (.of_leads hF (by simp [hraw])) (settles_described hraw)
  · rw [not_exists] at h
    exact .left (bars_strings h) (.peek (peeks_undescribed h))

theorem settles_defaultValue (hF : Shuns [.equals] F) :
    Settles (1 + defaults) F (defaultValue : Parser (Option (Value Span))) c :=
  .optional (.mark_mul (by simp)) hF
    (fun hequals => .bind (.advance hequals rfl (by simp)) fun _ c' _ =>
      .last (settles_value .defaultValue maxDepth F c') fun _ _ => .pure _) (.pure none)

/-- What goes on with a variable definition, if it follows. -/
def definitionEnds : List Punctuator := [.bang, .equals, .at, .openParen]

theorem settles_variableDefinition (hF : Shuns definitionEnds F) :
    Settles ((1 + strings) * Grammar.variableDefinitions) F variableDefinition c := by
  have hdirectives {ps : List Punctuator} (hps : ∀ p ∈ ps, p ∈ definitionEnds)
      (hat : .at ∉ ps) : Shuns ps ((directiveWords true)∗ * F) :=
    (shuns_directives true hat).mul (hF.mono hps)
  have hdollar : Leads [.dollar] Grammar.variableDefinitions := (Leads.mark_mul (by simp)).mul
  have hequals : Leads [.equals] defaults := .mark_mul (by simp)
  refine .nextSpan fun _ => .bind (settles_description hdollar.mul) fun _ _ _ =>
    .bind settles_varRef fun _ _ _ =>
    .bind (settles_expect .colon .variableDefinition) fun _ _ _ =>
    .bind (settles_typeRef maxDepth ?_) fun _ _ _ =>
    .bind (settles_defaultValue (hdirectives (by simp [definitionEnds]) (by simp))) fun _ _ _ =>
    .last (settles_directives .variableDirective maxDepth (hF.mono (by simp [definitionEnds])))
      fun _ _ => .spanFrom fun _ => .pure _
  rw [mul_assoc]
  exact (hequals.shuns_of_notMem (by simp)).optional.mul
    (hdirectives (by simp [definitionEnds]) (by simp))

theorem variableDefinition_items :
    SettlesItems variableDefinition ((1 + strings) * Grammar.variableDefinitions) [.dollar]
      definitionEnds :=
  .of_production words_variableDefinition (fun _ _ h => h.starts) yields_variableDefinition
    (by simp [definitionEnds]) fun _ hF _ => settles_variableDefinition hF

theorem settles_variableDefinitions (hF : Shuns [.openParen] F) :
    Settles variableLists F variableDefinitions c :=
  .optional .enclosed hF
    (fun _ => .last (settles_nonempty variableDefinition_items .variableDefinitions
      .variableDefinition (by simp) (by simp [definitionEnds]) c) fun _ _ => .pure _) (.pure [])

/-! ## Documents -/

theorem settles_operationName (hF : Leads [.openParen, .at, .openBrace] F) :
    Settles (1 + names) F (operationName : Parser (Option (Name Span))) c := by
  refine .look (peeks_nextIs .openParen c) (.look (peeks_nextIs .at c)
    (.look (peeks_nextIs .openBrace c) ?_))
  split
  · rename_i hnext
    have hmark : ∃ p, c.kinds.head? = some (.punctuator p) := by
      simp only [Bool.or_eq_true, beq_iff_eq] at hnext
      rcases hnext with (h | h) | h <;> exact ⟨_, h⟩
    obtain ⟨p, hp⟩ := hmark
    exact .left (bars_names hp) (.pure none)
  · rename_i hnext
    exact .present (.of_leads hF (by simpa [and_assoc] using hnext))
      (.last (settles_name .operationDefinition) fun _ _ => .pure _)

theorem shuns_body : Shuns [.openParen] (((directiveWords false)∗ * selectionSets) * F) :=
  leads_body.mul.shuns (by simp)

theorem settles_operation {start : Position} {d : Option (StringValue Span)}
    {kind : OperationKind} (hc : c.kinds.head? = some (.name kind.keyword)) :
    Settles (operationKeywords * operationTails) F (operation start d kind) c := by
  have hlead : Leads [.openParen, .at, .openBrace]
      (variableLists * ((directiveWords false)∗ * selectionSets)) :=
    .optional_mul (Leads.enclosed.mono (by simp)) (leads_body.mono (by simp))
  exact .bind (.advance hc ⟨kind, rfl⟩ (by simp)) fun _ _ _ =>
    .bind (settles_operationName hlead.mul) fun _ _ _ =>
    .bind (settles_variableDefinitions shuns_body) fun _ _ _ =>
    .bind (settles_directives .anyValue maxDepth (Leads.selectionSets.mul.shuns (by simp)))
      fun _ c' _ =>
    .last (settles_selectionSet maxDepth F c') fun _ _ => .spanFrom fun _ => .pure _

theorem settles_fragment {start : Position} {d : Option (StringValue Span)}
    (hc : c.kinds.head? = some (.name "fragment")) :
    Settles (token (.name "fragment") * fragmentTails) F (fragment start d) c := by
  refine .bind (.advance hc rfl (by simp)) fun _ c' _ => .look (peeks_nextIsKeyword "on" c') ?_
  rw [fragmentTails]
  split
  · rename_i hon
    refine .fail (.single_mul_mul fun t ht hname => ?_) (by simp) (by simp [Cause.notes, Note.help])
    obtain ⟨text, htext, hne⟩ := hname
    obtain rfl := Option.some.inj (ht.symm.trans (beq_iff_eq.1 hon))
    exact hne (Option.some.inj htext).symm
  · rename_i hon
    refine .bind (settles_fragmentName .fragmentDefinition (by simpa using hon)) fun _ _ _ => ?_
    rw [typeConditions, mul_assoc]
    exact .bind (settles_expectKeyword "on" .fragmentDefinition) fun _ _ _ =>
      .bind (settles_namedType .fragmentDefinition) fun _ _ _ =>
      .bind (settles_directives .anyValue maxDepth (Leads.selectionSets.mul.shuns (by simp)))
        fun _ c'' _ =>
      .last (settles_selectionSet maxDepth F c'') fun _ _ => .spanFrom fun _ => .pure _

theorem settles_shortQuery (start : Position) :
    Settles selectionSets F (shortQuery start) c :=
  .last (settles_selectionSet maxDepth F c) fun _ _ => .spanFrom fun _ => .pure _

theorem settles_noDefinition {P : Language TokenKind} [Spoken P] (hnext : Bars (P * F) c) :
    Settles P F (noDefinition c.kinds.head? : Parser (Definition Span)) c := by
  intro hc
  refine Settles.blame (fun _ _ => rfl) hnext
    (fun _ h => unexpectedCause_end (kinds_head_ne_none hc) h) ?_ hc
  intro t ht n hn s hs
  rw [ht] at hn
  rcases List.mem_append.1 hn with hn | hn
  · exact unexpectedCause_notes hn hs
  · -- the one remark there may be points at nothing
    split at hn
    · split at hn
      · obtain rfl := List.mem_singleton.1 hn
        cases hs
      · cases hn
    · cases hn

/-- No word that is described starts with a token that is no keyword. -/
theorem bars_describable {L : Language TokenKind}
    (hkind : ∀ kind : OperationKind, c.kinds.head? ≠ some (.name kind.keyword))
    (hfragment : c.kinds.head? ≠ some (.name "fragment")) : Bars (describable * L) c := by
  rw [describable, add_mul]
  refine .add (.single_mul_mul fun t ht hk => ?_) (.single_mul_mul fun t ht hf => ?_)
  · obtain ⟨kind, rfl⟩ := hk
    exact hkind kind ht
  · exact hfragment (ht.trans (congrArg some hf))

theorem keyword_ne_fragment (kind : OperationKind) : kind.keyword ≠ "fragment" := by
  cases kind <;> decide

/-- A definition after its description. -/
def afterDescription (start : Position) (d : Option (StringValue Span)) :
    Parser (Definition Span) := do
  let next ← nextKind
  match next with
  | some (.punctuator .openBrace) =>
    if d.isSome then fail .describedShortQuery .document (← nextSpan)
    else return .operation (← shortQuery start)
  | some (.name text) =>
    if text = "fragment" then return .fragment (← fragment start d)
    else
      match OperationKind.ofKeyword? text with
      | some kind => return .operation (← operation start d kind)
      | none => noDefinition next
  | _ => noDefinition next

theorem definition_eq :
    definition = (do
      let start ← nextSpan
      afterDescription start.start (← description)) :=
  rfl

theorem settles_afterDescription {start : Position} {d : Option (StringValue Span)}
    (hd : c.kinds.head? = some (.punctuator .openBrace) → d.isSome) :
    Settles describable F (afterDescription start d) c := by
  refine .look (peeks_nextKind c) ?_
  split
  · rename_i hnext
    rw [if_pos (hd hnext)]
    exact .fail (bars_describable (by simp [hnext]) (by simp [hnext])) (by simp)
      (by simp [Cause.notes, Note.help])
  · rename_i text hnext
    split
    · rename_i htext
      subst htext
      refine .right (.single_mul_mul fun t ht hk => ?_)
        (.last (settles_fragment hnext) fun _ _ => .pure _)
      obtain ⟨kind, rfl⟩ := hk
      exact keyword_ne_fragment kind (by simpa [hnext] using ht.symm)
    · rename_i htext
      split
      · rename_i kind hkind
        rw [← keyword_of_ofKeyword hkind] at hnext htext
        refine .left (.single_mul_mul fun t ht hf => htext ?_)
          (.last (settles_operation hnext) fun _ _ => .pure _)
        simpa [hnext, hf] using ht
      · rename_i hkind
        refine settles_noDefinition (bars_describable (fun kind h => ?_) fun h => htext ?_)
        · obtain rfl : text = kind.keyword := by simpa [hnext] using h
          rw [ofKeyword_keyword] at hkind
          cases hkind
        · simpa [hnext] using h
  · rename_i hname
    exact settles_noDefinition (bars_describable (fun kind => hname kind.keyword) (hname _))

theorem settles_definition : Settles (words DefinitionForm) F definition c := by
  rw [definition_eq]
  refine .nextSpan fun s => ?_
  have hsets : Leads [.openBrace] (selectionSets * F) := Leads.selectionSets.mul
  by_cases hstring : ∃ raw, c.kinds.head? = some (.string raw)
  · obtain ⟨raw, hraw⟩ := hstring
    rw [words_definition, mul_optional_mul]
    refine .right (.of_leads hsets (by simp [hraw])) (.right ?_ ?_)
    · exact bars_describable (by simp [hraw]) (by simp [hraw])
    · exact .bind (settles_described hraw) fun d c' hrun =>
        settles_afterDescription fun _ => description_isSome hraw hrun
  · rw [not_exists] at hstring
    refine .look (peeks_undescribed hstring) ?_
    have hdescribed : Bars (strings * describable * F) c := by
      rw [mul_assoc]
      exact bars_strings hstring
    rw [words_definition, mul_optional_mul]
    by_cases hbrace : c.kinds.head? = some (.punctuator .openBrace)
    · refine .left ?_ (.look (peeks_nextKind c) ?_)
      · rw [add_mul]
        exact .add (bars_describable (by simp [hbrace]) (by simp [hbrace])) hdescribed
      · rw [hbrace]
        exact .last (settles_shortQuery s.start) fun _ _ => .pure _
    · refine .right (.of_leads hsets (by simpa using hbrace)) (.left hdescribed ?_)
      exact settles_afterDescription fun h => absurd h hbrace

theorem definition_items :
    SettlesItems definition (words DefinitionForm) [.openBrace] [] :=
  .of_production rfl (fun _ _ h => h.starts) yields_definition (by simp)
    fun _ _ _ => settles_definition

theorem rounds_definitions :
    Rounds (definitions : Nat → Parser (List (Definition Span))) fun next => do
      if ← atEnd then return []
      else
        let d ← definition
        return d :: (← next) where
  next n := rfl
  congr p q c h := by
    rw [bind_ok (atEnd_run c), bind_ok (atEnd_run c)]
    split
    · rfl
    · exact bind_congr_below definition_items.shrinks fun d c' hc' => cons_congr d (h c' hc')

theorem settles_definitions :
    Settles ((words DefinitionForm)∗) (token .endOfInput)
      (unbounded (definitions : Nat → Parser (List (Definition Span)))) c := by
  refine rounds_definitions.settles (fun next c ih => ?_) c
  rw [← Language.one_add_self_mul_kstar_eq_kstar]
  intro hc
  refine Settles.look (peeks_atEnd c) ?_ hc
  split
  · rename_i hend
    exact .left (definition_items.bars (.inl (head_of_endsHere hc hend))) (.pure [])
  · rename_i hend
    exact .present (bars_end hend) (definition_items.cons .nil ih)

/-- There is a definition at least, for the end of the input is not next. -/
theorem settles_document :
    Settles (words DocumentForm) (token .endOfInput) (document : Parser (Document Span)) c := by
  refine .look (peeks_atEnd c) ?_
  rw [words_document]
  split
  · exact .setApart (fun _ _ => rfl) rfl
  · rename_i hend
    have hround : Settles (words DefinitionForm * (words DefinitionForm)∗) (1 * token .endOfInput)
        (unbounded definitions) c := by
      rw [one_mul, rounds_definitions.unfold]
      refine .look (peeks_atEnd c) ?_
      rw [if_neg hend]
      exact definition_items.cons .nil fun c' _ =>
        settles_definitions
    rw [← mul_one (words DefinitionForm * (words DefinitionForm)∗)]
    exact .repeated hround fun _ _ => .nextSpan fun _ => .pure _

theorem settles_wholeValue (context : ValueContext) :
    Settles (values (isConstant context)) (token .endOfInput)
      (wholeValue context : Parser (Value Span)) c :=
  .last (settles_value context maxDepth _ c) fun _ _ =>
    .last (settles_expectEnd .value) fun _ _ => .pure _

theorem settles_wholeType :
    Settles types (token .endOfInput) (wholeType : Parser (TypeRef Span)) c := by
  have hend : Shuns [.bang] (token .endOfInput) := by
    intro ts ht p _
    obtain rfl := mem_token.1 ht
    exact .end p
  exact .last (settles_typeRef maxDepth hend) fun _ _ =>
    .last (settles_expectEnd .namedType) fun _ _ => .pure _

end QueryDoc.Parser
