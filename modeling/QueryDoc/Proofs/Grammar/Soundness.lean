import QueryDoc.Proofs.Grammar.Run
import QueryDoc.Proofs.Syntax.Nesting

/-!
# What a parser accepts is derived

Each parser yields what its production derives, within the levels of nesting it
was given. The loops that collect items are treated once, for any item. Values
and selection sets go by induction on the levels that are left, which is how
their parsers recurse.
-/
namespace QueryDoc.Parser
open Grammar

variable {β γ : Type}

/-- The shape of a node is derived and nests at most `room` levels. -/
def Within (F : List TokenKind → γ → Prop) (depth : γ → Nat) (room : Nat) (shape : β → γ)
    (ts : List TokenKind) (x : β) : Prop :=
  F ts (shape x) ∧ depth (shape x) ≤ room

theorem Within.many {F : List TokenKind → γ → Prop} {depth : γ → Nat} {room : Nat}
    {shape : β → γ} {ts : List TokenKind} {xs : List β}
    (h : Many (Within F depth room shape) ts xs) :
    Many F ts (xs.map shape) ∧ deepest depth (xs.map shape) ≤ room := by
  refine ⟨h.map shape fun us x _ hx => hx.1, deepest_le.2 ?_⟩
  intro y hy
  obtain ⟨x, hx, rfl⟩ := List.mem_map.1 hy
  exact h.forall (fun _ _ hx => hx.2) x hx

/-- Variables may not occur in the context. -/
def isConstant (context : ValueContext) : Bool := context != .anyValue

/-! ## Tokens -/

theorem yields_expect (p : Punctuator) (production : Production) (c : Cursor) :
    Yields (expect p production) c fun ts _ => ts = [.punctuator p] := by
  refine .look (nextIs_run p c) ?_
  split
  · rename_i h
    exact .nextSpan fun s => .advance (beq_iff_eq.1 h) fun c' => .pure rfl
  · exact .unexpected

theorem yields_expectKeyword (word : String) (production : Production) (c : Cursor) :
    Yields (expectKeyword word production) c fun ts _ => ts = [.name word] := by
  refine .look (nextIsKeyword_run word c) ?_
  split
  · rename_i h
    exact yields_advance (beq_iff_eq.1 h)
  · exact .unexpected

/-- A name is read from the next token. -/
theorem yields_nextName (production : Production) (c : Cursor) :
    Yields (name production) c fun ts n =>
      ∃ t, c.kinds.head? = some t ∧ ts = [t] ∧ t.nameText? = some n.value := by
  refine .look (nextKind_run c) ?_
  split
  · rename_i text h
    obtain ⟨t, ht, htext⟩ := Option.bind_eq_some_iff.1 h
    exact .nextSpan fun s => .advance ht fun c' => .pure ⟨t, ht, rfl, htext⟩
  · exact .unexpected

theorem yields_name (production : Production) (c : Cursor) :
    Yields (name production) c fun ts n => NameForm ts (n.map forget) := by
  refine (yields_nextName production c).mono ?_
  rintro ts n ⟨t, -, rfl, ht⟩
  exact .mk ht

theorem eq_of_nameText {t : TokenKind} (h : t.nameText? = some "on") : t = .name "on" := by
  cases t with
  | name text =>
    simp only [TokenKind.nameText?, Option.some.injEq] at h
    rw [h]
  | boolean b => cases b <;> simp [TokenKind.nameText?] at h
  | null => simp [TokenKind.nameText?] at h
  | _ => cases h

/-- A name other than the word that introduces a type. -/
theorem yields_nameNotOn (production : Production) {c : Cursor}
    (hc : c.kinds.head? ≠ some (.name "on")) :
    Yields (name production) c fun ts n => NameForm ts (n.map forget) ∧ n.value ≠ "on" := by
  refine (yields_nextName production c).mono ?_
  rintro ts n ⟨t, hn, rfl, ht⟩
  refine ⟨.mk ht, fun hon => hc ?_⟩
  rw [hon] at ht
  rw [hn, eq_of_nameText ht]

theorem yields_stringValue {raw : String} {c : Cursor} (hc : c.kinds.head? = some (.string raw)) :
    Yields (stringValue raw) c fun ts s => StringForm ts (s.map forget) := by
  refine .nextSpan fun s => .advance hc fun c' => ?_
  split
  · rename_i cs h
    exact .pure (.mk h)
  · exact .fail

theorem yields_description (c : Cursor) :
    Yields description c fun ts d => Perhaps StringForm ts (d.map (StringValue.map forget)) := by
  refine .look (nextKind_run c) ?_
  split
  · rename_i raw h
    refine .bind (yields_stringValue h) fun us s c' hs => .pure ?_
    simpa using Perhaps.some hs
  · exact .pure .none

/-! ## Loops -/

section Loops
variable {item : Parser β} {P : List TokenKind → β → Prop}

theorem yields_manyUntil (close : Punctuator) (production : Production)
    (hitem : ∀ c, Yields item c P) (n : Nat) (c : Cursor) :
    Yields (manyUntil close production item n) c (Many P) := by
  induction n generalizing c with
  | zero => exact .pure .nil
  | succ n ih =>
    refine .look (nextIs_run close c) ?_
    split
    · exact .pure .nil
    · refine .look (atEnd_run c) ?_
      split
      · exact .unexpected
      · refine .bind (hitem c) fun us x c' hx => .bind (ih c') fun vs xs c'' hxs => .pure ?_
        rw [List.append_nil]
        exact .cons hx hxs

theorem yields_manyWhile (first : Punctuator) (hitem : ∀ c, Yields item c P) (n : Nat)
    (c : Cursor) : Yields (manyWhile first item n) c (Many P) := by
  induction n generalizing c with
  | zero => exact .pure .nil
  | succ n ih =>
    refine .look (nextIs_run first c) ?_
    split
    · refine .bind (hitem c) fun us x c' hx => .bind (ih c') fun vs xs c'' hxs => .pure ?_
      rw [List.append_nil]
      exact .cons hx hxs
    · exact .pure .nil

theorem yields_someUntil (close : Punctuator) (hitem : ∀ c, Yields item c P) (n : Nat)
    (c : Cursor) :
    Yields (someUntil close item n) c fun ts xs => Many P ts xs ∧ (n ≠ 0 → xs ≠ []) := by
  induction n generalizing c with
  | zero => exact .pure ⟨.nil, by simp⟩
  | succ n ih =>
    refine .bind (hitem c) fun us x c' hx => .look (nextIs_run close c') ?_
    split
    · refine .pure ⟨?_, by simp⟩
      simpa using Many.cons hx .nil
    · refine .bind (ih c') fun vs xs c'' hxs => .pure ⟨?_, by simp⟩
      rw [List.append_nil]
      exact .cons hx hxs.1

theorem yields_nonempty (opening closing : Punctuator) (construct : Construct)
    (production : Production) (hitem : ∀ c, Yields item c P) (c : Cursor) :
    Yields (nonempty opening closing construct production item) c
      fun ts r => Enclosed opening closing P ts r.2 := by
  refine .bind (yields_expect opening production c) fun us s c₁ hs =>
    .look (nextIs_run closing c₁) ?_
  subst hs
  split
  · exact .nextSpan fun _ => .fail
  · refine .look (x := c₁.tokens.length) rfl ?_
    refine .bind (yields_someUntil closing hitem _ c₁) fun vs xs c₂ hxs =>
      .bind (yields_expect closing production c₂) fun ws _ c₃ hw => .pure ?_
    subst hw
    rw [List.append_nil]
    exact .mk hxs.1 (hxs.2 (by omega))

end Loops

/-! ## Values -/

theorem yields_varRef (c : Cursor) :
    Yields varRef c fun ts v => VariableForm ts (v.map forget) := by
  refine .bind (yields_expect .dollar .variable c) fun us s c₁ hs =>
    .bind (yields_name .variable c₁) fun vs n c₂ hn => .spanFrom fun _ => .pure ?_
  subst hs
  rw [List.append_nil]
  exact .mk hn

theorem yields_literal {form : Span → Value Span} {c : Cursor} {t : TokenKind}
    {R : List TokenKind → Value Span → Prop} (ht : c.kinds.head? = some t)
    (hr : ∀ s, R [t] (form s)) : Yields (literal form) c R :=
  .nextSpan fun s => .advance ht fun _ => .pure (hr s)

section Items
variable {item : Parser (Value Span)} {constant : Bool} {room : Nat}
variable (hitem : ∀ c, Yields item c
  (Within (ValueForm constant) Value.nesting room (Value.map forget)))
include hitem

theorem yields_listValue (c : Cursor) :
    Yields (listValue item) c
      (Within (ValueForm constant) Value.nesting (room + 1) (Value.map forget)) := by
  refine .bind (yields_expect .openBracket .listValue c) fun us s c₁ hs =>
    .look (x := c₁.tokens.length) rfl <|
    .bind (yields_manyUntil .closeBracket .listValue hitem _ c₁) fun vs xs c₂ hxs =>
    .bind (yields_expect .closeBracket .listValue c₂) fun ws _ c₃ hw => .spanFrom fun _ => .pure ?_
  subst hs hw
  obtain ⟨hm, hd⟩ := Within.many hxs
  constructor
  · rw [List.append_nil, Value.map, Value.mapList_eq]
    exact .list hm
  · rw [Value.map, Value.nesting, Value.mapList_eq, Value.nestingAll_eq]
    exact Nat.succ_le_succ hd

theorem yields_objectField (c : Cursor) :
    Yields (objectField item) c (Within (ObjectFieldForm (ValueForm constant))
      ObjectField.nesting room (ObjectField.map forget)) := by
  refine .nextSpan fun _ => .bind (yields_name .objectField c) fun us n c₁ hn =>
    .bind (yields_expect .colon .objectField c₁) fun vs _ c₂ hv =>
    .bind (hitem c₂) fun ws x c₃ hx => .spanFrom fun _ => .pure ?_
  subst hv
  rw [List.append_nil]
  exact ⟨.mk hn hx.1, hx.2⟩

theorem yields_objectValue (c : Cursor) :
    Yields (objectValue item) c
      (Within (ValueForm constant) Value.nesting (room + 1) (Value.map forget)) := by
  refine .bind (yields_expect .openBrace .objectValue c) fun us s c₁ hs =>
    .look (x := c₁.tokens.length) rfl <|
    .bind (yields_manyUntil .closeBrace .objectValue (yields_objectField hitem) _ c₁)
      fun vs xs c₂ hxs =>
    .bind (yields_expect .closeBrace .objectValue c₂) fun ws _ c₃ hw => .spanFrom fun _ => .pure ?_
  subst hs hw
  obtain ⟨hm, hd⟩ := Within.many hxs
  constructor
  · rw [List.append_nil, Value.map, ObjectField.mapList_eq]
    exact .object hm
  · rw [Value.map, Value.nesting, ObjectField.mapList_eq, ObjectField.nestingAll_eq]
    exact Nat.succ_le_succ hd

end Items

theorem yields_value (context : ValueContext) (room : Nat) (c : Cursor) :
    Yields (value context room) c
      (Within (ValueForm (isConstant context)) Value.nesting room (Value.map forget)) := by
  induction room generalizing c with
  | zero => exact .tooDeep
  | succ room ih =>
    have hone : 1 ≤ room + 1 := by omega
    refine .look (nextKind_run c) ?_
    split
    · split
      · rename_i hctx
        refine .bind (yields_varRef c) fun us v c' hv => .pure ?_
        rw [List.append_nil]
        exact ⟨.var (by simp [isConstant, hctx]) hv, hone⟩
      · exact .nextSpan fun _ => .fail
    · exact yields_listValue ih c
    · exact yields_objectValue ih c
    · exact yields_literal ‹_› fun s => ⟨.int, hone⟩
    · exact yields_literal ‹_› fun s => ⟨.float, hone⟩
    · refine .bind (yields_stringValue ‹_›) fun us s c' hs => .pure ?_
      rw [List.append_nil]
      exact ⟨.string hs, hone⟩
    · exact yields_literal ‹_› fun s => ⟨.boolean, hone⟩
    · exact yields_literal ‹_› fun s => ⟨.null, hone⟩
    · exact yields_literal ‹_› fun s => ⟨.enum, hone⟩
    · exact .unexpected

/-! ## Types -/

theorem yields_namedType (production : Production) (c : Cursor) :
    Yields (namedType production) c fun ts t => NamedTypeForm ts (t.map forget) := by
  refine .bind (yields_name production c) fun us n c' hn => .pure ?_
  rw [List.append_nil]
  exact .mk hn

/-- The mark, if it follows, belongs to the type in front. -/
theorem yields_marked {t : NullableType Span} {us : List TokenKind} {room : Nat}
    (start : Position) (ht : NullableForm us (t.map forget)) (hd : (t.map forget).nesting ≤ room)
    (c : Cursor) :
    Yields (marked start t) c fun vs r =>
      Within TypeForm TypeRef.nesting room (TypeRef.map forget) (us ++ vs) r := by
  refine .look (nextIs_run .bang c) ?_
  split
  · rename_i h
    exact .advance (beq_iff_eq.1 h) fun c' => .spanFrom fun _ => .pure ⟨.nonNull ht, hd⟩
  · refine .pure ?_
    rw [List.append_nil]
    exact ⟨.nullable ht, hd⟩

theorem yields_markedName (room : Nat) (c : Cursor) :
    Yields markedName c (Within TypeForm TypeRef.nesting room (TypeRef.map forget)) :=
  .bind (yields_namedType .namedType c) fun _ t c' ht =>
    .look (x := t.info.start) rfl (yields_marked _ (.named ht) (Nat.zero_le room) c')

theorem yields_typeRef (room : Nat) (c : Cursor) :
    Yields (typeRef room) c (Within TypeForm TypeRef.nesting room (TypeRef.map forget)) := by
  induction room generalizing c with
  | zero =>
    refine .look (nextIs_run .openBracket c) ?_
    split
    · exact .tooDeep
    · exact yields_markedName _ c
  | succ room ih =>
    refine .look (nextIs_run .openBracket c) ?_
    split
    · refine .bind (yields_expect .openBracket .listType c) fun us s c₁ hs =>
        .bind (ih c₁) fun vs t c₂ ht =>
        .bind (yields_expect .closeBracket .listType c₂) fun ws _ c₃ hw => .spanFrom fun i => ?_
      subst hs hw
      have hl : NullableForm (.punctuator .openBracket :: (vs ++ [.punctuator .closeBracket]))
          ((NullableType.list t i).map forget) := .list ht.1
      have hd : ((NullableType.list t i).map forget).nesting ≤ room + 1 := Nat.succ_le_succ ht.2
      have hm := yields_marked s.start hl hd c₃
      refine hm.mono fun xs r hr => ?_
      simpa only [List.cons_append, List.nil_append, List.append_assoc] using hr
    · exact yields_markedName _ c

/-! ## Arguments and directives -/

section Items
variable {item : Parser (Value Span)} {constant : Bool} {room : Nat}
variable (hitem : ∀ c, Yields item c
  (Within (ValueForm constant) Value.nesting room (Value.map forget)))
include hitem

theorem yields_argument (c : Cursor) :
    Yields (argument item) c
      (Within (ArgumentForm constant) Argument.nesting room (Argument.map forget)) := by
  refine .nextSpan fun s => .bind (yields_name .argument c) fun us n c₁ hn =>
    .bind (yields_expect .colon .argument c₁) fun vs _ c₂ hv =>
    .bind (hitem c₂) fun ws x c₃ hx => .spanFrom fun _ => .pure ?_
  subst hv
  rw [List.append_nil]
  exact ⟨.mk hn hx.1, hx.2⟩

theorem yields_arguments (c : Cursor) :
    Yields (arguments item) c fun ts as =>
      ArgumentsForm constant ts (as.map (Argument.map forget)) ∧
        deepest Argument.nesting (as.map (Argument.map forget)) ≤ room := by
  refine .look (nextIs_run .openParen c) ?_
  split
  · refine .bind (yields_nonempty .openParen .closeParen .argumentList .argument
      (yields_argument hitem) c) fun us r c' hr => .pure ?_
    rw [List.append_nil]
    generalize r.2 = as at hr
    obtain ⟨hm, hne⟩ := hr
    exact ⟨.present (.mk (Within.many hm).1 (by simpa using hne)), (Within.many hm).2⟩
  · exact .pure ⟨.absent, by simp⟩

theorem yields_directive (c : Cursor) :
    Yields (directive item) c
      (Within (DirectiveForm constant) Directive.nesting room (Directive.map forget)) := by
  refine .bind (yields_expect .at .directive c) fun us s c₁ hs =>
    .bind (yields_name .directive c₁) fun vs n c₂ hn =>
    .bind (yields_arguments hitem c₂) fun ws as c₃ has => .spanFrom fun _ => .pure ?_
  subst hs
  rw [List.append_nil, List.singleton_append]
  exact ⟨.mk hn has.1, has.2⟩

theorem yields_directives (c : Cursor) :
    Yields (directives item) c fun ts ds =>
      DirectivesForm constant ts (ds.map (Directive.map forget)) ∧
        deepest Directive.nesting (ds.map (Directive.map forget)) ≤ room :=
  .look (x := c.tokens.length) rfl <|
    (yields_manyWhile .at (yields_directive hitem) _ c).mono fun _ _ h => Within.many h

end Items

/-! ## Selections -/

section Selections
variable {item : Parser (Value Span)} {inner : Parser (SelectionSet Span)} {room : Nat}
variable (hitem : ∀ c, Yields item c
  (Within (ValueForm false) Value.nesting room (Value.map forget)))
variable (hinner : ∀ c, Yields inner c
  (Within SelectionSetForm SelectionSet.nesting room (SelectionSet.map forget)))

theorem yields_typeCondition (c : Cursor) :
    Yields typeCondition c fun ts t =>
      Perhaps TypeConditionForm ts (t.map (NamedType.map forget)) := by
  refine .look (nextIsKeyword_run "on" c) ?_
  split
  · rename_i h
    refine .advance (beq_iff_eq.1 h) fun c₁ =>
      .bind (yields_namedType .inlineFragment c₁) fun us t c₂ ht => .pure ?_
    rw [List.append_nil]
    exact .some (.mk ht)
  · exact .pure .none

theorem yields_fieldName (c : Cursor) :
    Yields fieldName c fun ts r => ∃ us vs, ts = us ++ vs ∧
      Perhaps AliasForm us (r.1.map (Name.map forget)) ∧ NameForm vs (r.2.map forget) := by
  refine .bind (yields_name .field c) fun us first c₁ hfirst => .look (nextIs_run .colon c₁) ?_
  split
  · rename_i h
    refine .advance (beq_iff_eq.1 h) fun c₂ =>
      .bind (yields_name .field c₂) fun vs n c₃ hn => .pure ?_
    exact ⟨us ++ [.punctuator .colon], vs, by simp, .some (.mk hfirst), hn⟩
  · exact .pure ⟨[], us, by simp, .none, hfirst⟩

include hinner in
theorem yields_optionalSelections (c : Cursor) :
    Yields (optionalSelections inner) c fun ts s =>
      Perhaps SelectionSetForm ts (s.map (SelectionSet.map forget)) ∧
        ∀ x ∈ s.map (SelectionSet.map forget), x.nesting ≤ room := by
  refine .look (nextIs_run .openBrace c) ?_
  split
  · refine .bind (hinner c) fun us s c₁ hs => .pure ?_
    rw [List.append_nil]
    exact ⟨.some hs.1, by simpa using hs.2⟩
  · exact .pure ⟨.none, by simp⟩

include hitem hinner

theorem yields_field (c : Cursor) :
    Yields (field item inner) c
      (Within (SelectionForm SelectionSetForm) Selection.nesting room (Selection.map forget)) := by
  refine .nextSpan fun s => .bind (yields_fieldName c) fun us r c₁ hr =>
    .bind (yields_arguments hitem c₁) fun vs as c₂ has =>
    .bind (yields_directives hitem c₂) fun ws ds c₃ hds =>
    .bind (yields_optionalSelections hinner c₃) fun xs set c₄ hset => .spanFrom fun i => .pure ?_
  obtain ⟨ts₁, ts₂, rfl, ha, hn⟩ := hr
  rw [deepest_le] at has hds
  rw [List.append_nil, List.append_assoc]
  constructor
  · rw [Selection.map_field]
    exact .field ha hn has.1 hds.1 hset.1
  · rw [Selection.map_field]
    exact Selection.nesting_field_le.2 ⟨has.2, hds.2, hset.2⟩

theorem yields_fragmentSelection (c : Cursor) :
    Yields (fragmentSelection item inner) c
      (Within (SelectionForm SelectionSetForm) Selection.nesting room (Selection.map forget)) := by
  refine .bind (yields_expect .ellipsis .fragmentSpread c) fun us s c₁ hs =>
    .look (nextKind_run c₁) ?_
  subst hs
  split
  · rename_i hnext
    refine .bind (yields_nameNotOn .fragmentSpread hnext.1) fun vs n c₂ hn =>
      .bind (yields_directives hitem c₂) fun ws ds c₃ hds => .spanFrom fun i => .pure ?_
    rw [List.append_nil, List.singleton_append]
    constructor
    · exact .spread hn.1 hn.2 hds.1
    · exact hds.2
  · refine .bind (yields_typeCondition c₁) fun vs t c₂ ht =>
      .bind (yields_directives hitem c₂) fun ws ds c₃ hds =>
      .bind (hinner c₃) fun xs set c₄ hset => .spanFrom fun i => .pure ?_
    rw [List.append_nil, List.singleton_append]
    constructor
    · exact .inlineFragment ht hds.1 hset.1
    · exact Nat.max_le.2 ⟨hds.2, hset.2⟩

theorem yields_selection (c : Cursor) :
    Yields (selection item inner) c
      (Within (SelectionForm SelectionSetForm) Selection.nesting room (Selection.map forget)) := by
  refine .look (nextIs_run .ellipsis c) ?_
  split
  · exact yields_fragmentSelection hitem hinner c
  · exact yields_field hitem hinner c

end Selections

theorem yields_selectionSet (room : Nat) (c : Cursor) :
    Yields (selectionSet room) c
      (Within SelectionSetForm SelectionSet.nesting room (SelectionSet.map forget)) := by
  induction room generalizing c with
  | zero => exact .tooDeep
  | succ room ih =>
    refine .bind (yields_nonempty .openBrace .closeBrace .selectionSet .selectionSet
      (yields_selection (yields_value .anyValue room) ih) c) fun us r c₁ hr =>
      .spanFrom fun i => .pure ?_
    rw [List.append_nil]
    obtain ⟨start, items⟩ := r
    obtain ⟨hm, hne⟩ := hr
    constructor
    · rw [SelectionSet.map, Selection.mapList_eq]
      exact .mk (.mk (Within.many hm).1 (by simpa using hne))
    · rw [SelectionSet.map, SelectionSet.nesting, Selection.mapList_eq, Selection.nestingAll_eq]
      exact Nat.succ_le_succ (Within.many hm).2

/-! ## Definitions -/

theorem yields_defaultValue (c : Cursor) :
    Yields defaultValue c fun ts v => Perhaps DefaultForm ts (v.map (Value.map forget)) ∧
      ((v.map (Value.map forget)).map Value.nesting).getD 0 ≤ maxDepth := by
  refine .look (nextIs_run .equals c) ?_
  split
  · rename_i h
    refine .advance (beq_iff_eq.1 h) fun c₁ =>
      .bind (yields_value .defaultValue maxDepth c₁) fun us v c₂ hv => .pure ?_
    rw [List.append_nil]
    exact ⟨.some (.mk hv.1), hv.2⟩
  · exact .pure ⟨.none, Nat.zero_le _⟩

theorem yields_variableDefinition (c : Cursor) :
    Yields variableDefinition c (Within VariableDefinitionForm VariableDefinition.nesting maxDepth
      (VariableDefinition.map forget)) := by
  refine .nextSpan fun s => .bind (yields_description c) fun us d c₁ hd =>
    .bind (yields_varRef c₁) fun vs v c₂ hv =>
    .bind (yields_expect .colon .variableDefinition c₂) fun ws _ c₃ hw =>
    .bind (yields_typeRef maxDepth c₃) fun xs t c₄ ht =>
    .bind (yields_defaultValue c₄) fun ys e c₅ he =>
    .bind (yields_directives (yields_value .variableDirective maxDepth) c₅) fun zs ds c₆ hds =>
    .spanFrom fun i => .pure ?_
  subst hw
  rw [List.append_nil, List.singleton_append]
  constructor
  · exact .mk hd hv ht.1 he.1 hds.1
  · exact Nat.max_le.2 ⟨Nat.max_le.2 ⟨ht.2, he.2⟩, hds.2⟩

theorem yields_variableDefinitions (c : Cursor) :
    Yields variableDefinitions c fun ts vs =>
      Listed .openParen .closeParen VariableDefinitionForm ts
          (vs.map (VariableDefinition.map forget)) ∧
        deepest VariableDefinition.nesting (vs.map (VariableDefinition.map forget)) ≤ maxDepth := by
  refine .look (nextIs_run .openParen c) ?_
  split
  · refine .bind (yields_nonempty .openParen .closeParen .variableDefinitions .variableDefinition
      yields_variableDefinition c) fun us r c' hr => .pure ?_
    rw [List.append_nil]
    generalize r.2 = vs at hr
    obtain ⟨hm, hne⟩ := hr
    exact ⟨.present (.mk (Within.many hm).1 (by simpa using hne)), (Within.many hm).2⟩
  · exact .pure ⟨.absent, by simp⟩

theorem yields_operationName (c : Cursor) :
    Yields operationName c fun ts n => Perhaps NameForm ts (n.map (Name.map forget)) := by
  refine .look (nextIs_run .openParen c) (.look (nextIs_run .at c)
    (.look (nextIs_run .openBrace c) ?_))
  split
  · exact .pure .none
  · refine .bind (yields_name .operationDefinition c) fun us n c' hn => .pure ?_
    rw [List.append_nil]
    exact .some hn

theorem yields_operation {start : Position} {description : Option (StringValue Span)}
    {kind : OperationKind} {us : List TokenKind} {c : Cursor}
    (hd : Perhaps StringForm us (description.map (StringValue.map forget)))
    (hc : c.kinds.head? = some (.name kind.keyword)) :
    Yields (operation start description kind) c fun ts o =>
      Within OperationForm Operation.nesting maxDepth (Operation.map forget) (us ++ ts) o := by
  refine .advance hc fun c₁ => .bind (yields_operationName c₁) fun vs n c₂ hn =>
    .bind (yields_variableDefinitions c₂) fun ws defs c₃ hdefs =>
    .bind (yields_directives (yields_value .anyValue maxDepth) c₃) fun xs ds c₄ hds =>
    .bind (yields_selectionSet maxDepth c₄) fun ys set c₅ hset => .spanFrom fun i => .pure ?_
  rw [List.append_nil]
  constructor
  · exact .full hd hn hdefs.1 hds.1 hset.1
  · exact Nat.max_le.2 ⟨Nat.max_le.2 ⟨hdefs.2, hds.2⟩, hset.2⟩

theorem yields_shortQuery (start : Position) (c : Cursor) :
    Yields (shortQuery start) c
      (Within OperationForm Operation.nesting maxDepth (Operation.map forget)) := by
  refine .bind (yields_selectionSet maxDepth c) fun us set c₁ hset => .spanFrom fun i => .pure ?_
  rw [List.append_nil]
  constructor
  · exact .short hset.1
  · exact Nat.max_le.2 ⟨Nat.zero_le _, hset.2⟩

theorem yields_fragment {start : Position} {description : Option (StringValue Span)}
    {us : List TokenKind} {c : Cursor}
    (hd : Perhaps StringForm us (description.map (StringValue.map forget)))
    (hc : c.kinds.head? = some (.name "fragment")) :
    Yields (fragment start description) c fun ts f =>
      Within FragmentForm Fragment.nesting maxDepth (Fragment.map forget) (us ++ ts) f := by
  refine .advance hc fun c₁ => .look (nextIsKeyword_run "on" c₁) ?_
  split
  · exact .nextSpan fun _ => .fail
  · rename_i hon
    refine .bind (yields_nameNotOn .fragmentDefinition (by simpa using hon)) fun vs n c₂ hn =>
      .bind (yields_expectKeyword "on" .fragmentDefinition c₂) fun ws _ c₃ hw =>
      .bind (yields_namedType .fragmentDefinition c₃) fun xs t c₄ ht =>
      .bind (yields_directives (yields_value .anyValue maxDepth) c₄) fun ys ds c₅ hds =>
      .bind (yields_selectionSet maxDepth c₅) fun zs set c₆ hset => .spanFrom fun i => .pure ?_
    subst hw
    rw [List.append_nil, List.singleton_append, ← List.cons_append]
    constructor
    · exact .mk hd hn.1 hn.2 (.mk ht) hds.1 hset.1
    · exact Nat.max_le.2 ⟨hds.2, hset.2⟩

theorem keyword_of_ofKeyword {text : String} {kind : OperationKind}
    (h : OperationKind.ofKeyword? text = some kind) : kind.keyword = text := by
  unfold OperationKind.ofKeyword? at h
  split at h
  · cases h
    exact ‹text = "query"›.symm
  · split at h
    · cases h
      exact ‹text = "mutation"›.symm
    · split at h
      · cases h
        exact ‹text = "subscription"›.symm
      · cases h

theorem yields_noDefinition (next : Option TokenKind) (c : Cursor)
    {R : List TokenKind → Definition Span → Prop} : Yields (noDefinition next) c R :=
  .nextSpan fun _ => .error rfl

theorem yields_definition (c : Cursor) :
    Yields definition c
      (Within DefinitionForm Definition.nesting maxDepth (Definition.map forget)) := by
  refine .nextSpan fun s => .bind (yields_description c) fun us d c₁ hd =>
    .look (nextKind_run c₁) ?_
  split
  · split
    · exact .nextSpan fun _ => .fail
    · rename_i hnone
      obtain rfl : d = none := by simpa using hnone
      obtain rfl : us = [] := by
        cases hd
        rfl
      refine .bind (yields_shortQuery _ c₁) fun vs o c₂ ho => .pure ?_
      rw [List.append_nil, List.nil_append]
      exact ⟨.operation ho.1, ho.2⟩
  · rename_i text hnext
    split
    · rename_i htext
      subst htext
      refine .bind (yields_fragment hd hnext) fun vs f c₂ hf => .pure ?_
      rw [List.append_nil]
      exact ⟨.fragment hf.1, hf.2⟩
    · split
      · rename_i kind hkind
        refine .bind (yields_operation hd (by rw [keyword_of_ofKeyword hkind, hnext]))
          fun vs o c₂ ho => .pure ?_
        rw [List.append_nil]
        exact ⟨.operation ho.1, ho.2⟩
      · exact yields_noDefinition _ c₁
  · exact yields_noDefinition _ c₁

/-! ## Documents -/

/-- With enough steps, definitions are read up to the end of input. -/
theorem definitions_sound (n : Nat) (c c' : Cursor) (ds : List (Definition Span))
    (hn : c.kinds.length < n) (h : definitions n c = .ok (ds, c')) :
    ∃ ts, c.kinds = ts ++ c'.kinds ∧
      Many (Within DefinitionForm Definition.nesting maxDepth (Definition.map forget)) ts ds ∧
      endsHere c'.kinds = true := by
  induction n generalizing c ds with
  | zero => omega
  | succ n ih =>
    rw [definitions, bind_ok (atEnd_run c)] at h
    split at h
    · cases h
      exact ⟨[], rfl, .nil, ‹_›⟩
    · obtain ⟨d, c₁, hd, h⟩ := bind_eq_ok h
      obtain ⟨ds', c₂, hds, h⟩ := bind_eq_ok h
      cases h
      obtain ⟨us, hu, hd⟩ := yields_definition c d c₁ hd
      have hpos := List.length_pos_iff.2 hd.1.starts.ne_nil
      have hlen : c₁.kinds.length < n := by
        rw [hu, List.length_append] at hn
        omega
      obtain ⟨vs, hv, hm, hend⟩ := ih c₁ ds' hlen hds
      exact ⟨us ++ vs, by rw [hu, hv, List.append_assoc], .cons hd hm, hend⟩

theorem document_sound {c c' : Cursor} {d : Document Span} (h : document c = .ok (d, c')) :
    ∃ ts, c.kinds = ts ++ c'.kinds ∧ DocumentForm ts (d.map forget) ∧
      (d.map forget).nesting ≤ maxDepth ∧ endsHere c'.kinds = true := by
  rw [document, bind_ok (atEnd_run c)] at h
  split at h
  · obtain ⟨s, hs⟩ := nextSpan_run c
    rw [bind_ok hs] at h
    cases h
  · rename_i hstart
    rw [bind_ok (x := c.tokens.length) rfl] at h
    obtain ⟨ds, c₁, hds, h⟩ := bind_eq_ok h
    obtain ⟨s, hs⟩ := nextSpan_run c₁
    rw [bind_ok hs] at h
    cases h
    obtain ⟨ts, hts, hm, hend⟩ := definitions_sound _ c _ ds (by simp [Cursor.kinds]) hds
    refine ⟨ts, hts, ?_, (Within.many hm).2, hend⟩
    refine .mk (Within.many hm).1 ?_
    intro hnil
    obtain rfl : ds = [] := by simpa using hnil
    cases hm
    rw [List.nil_append] at hts
    rw [hts] at hstart
    exact hstart hend

end QueryDoc.Parser
