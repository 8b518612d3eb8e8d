import QueryDoc.Proofs.Grammar.Acceptance
import QueryDoc.Proofs.Location.Cover
import QueryDoc.Proofs.Location.Entry
import QueryDoc.Proofs.Tree.Shape

/-!
# Every production covers its tokens

Each parser returns nodes that stand for the tokens it took. The loops are
treated once, for any item. Values, types and selection sets go by induction on
the levels of nesting that are left, and none of these is more than there are at
the start. That the tokens derive a node comes from what its parser yields.
-/
namespace QueryDoc
open Grammar

variable {β γ : Type}

/-- What is derived as a constant is derived as a value. -/
theorem Grammar.ValueForm.weaken {constant : Bool} {ts : List TokenKind} {v : Value Unit}
    (h : ValueForm constant ts v) : ValueForm false ts v := by
  induction v using Value.induct generalizing ts with
  | var v =>
    cases h with
    | var _ hv => exact .var rfl hv
  | int text i => cases h; exact .int
  | float text i => cases h; exact .float
  | string s =>
    cases h with
    | string hs => exact .string hs
  | boolean b i => cases h; exact .boolean
  | null i => cases h; exact .null
  | enum name i => cases h; exact .enum
  | list items i ih =>
    cases h with
    | list hm => exact .list (hm.imp fun us v hv h => ih v hv h)
  | object fields i ih =>
    cases h with
    | object hm =>
      refine .object (hm.imp fun us f hf h => ?_)
      cases h with
      | mk hn hv => exact .mk hn (ih _ hf hv)

namespace Parser

theorem one_le_maxDepth : 1 ≤ maxDepth := by decide

/-! ## Tokens -/

section Tokens
variable {c : Cursor}

theorem takes_expect (p : Punctuator) (production : Production) (c : Cursor) :
    Takes (expect p production) c [] c fun ts s =>
      ∃ t, ts = [t] ∧ t.kind = .punctuator p ∧ s = t.span := by
  refine .look (nextIs_run p c) ?_
  split
  · rename_i h
    exact .token (beq_iff_eq.1 h) rfl fun t _ kind => .pure ⟨t, rfl, kind, rfl⟩
  · exact .unexpected

theorem takes_expectKeyword (word : String) (production : Production) (c : Cursor) :
    Takes (expectKeyword word production) c [] c fun _ _ => True := by
  refine .look (nextIsKeyword_run word c) ?_
  split
  · rename_i h
    rw [← bind_pure advance]
    exact .advance (beq_iff_eq.1 h) rfl fun _ _ _ => .pure trivial
  · exact .unexpected

theorem isProper_of_nameText {k : TokenKind} {text : String} (h : k.nameText? = some text) :
    k.isProper = true := by
  cases k <;> first | rfl | cases h

theorem takes_name (production : Production) (c : Cursor) :
    Takes (name production) c [] c fun ts n => Covers ts n.toTree := by
  refine .look (nextKind_run c) ?_
  split
  · rename_i text h
    obtain ⟨k, hk, htext⟩ := Option.bind_eq_some_iff.1 h
    refine .token hk (isProper_of_nameText htext) fun t _ kind => .pure ?_
    have spreads : Spreads [t] (Name.mk text t.span).toTree := ⟨rfl, .gap _⟩
    refine .of_spreads (n := .name ⟨text, t.span⟩) spreads (.mk ?_)
    rw [kind, htext]
  · exact .unexpected

theorem takes_stringValue {raw : String} (hc : c.kinds.head? = some (.string raw)) :
    Takes (stringValue raw) c [] c fun ts s => Covers ts s.toTree := by
  refine Takes.mono (.and_yields (P := fun ts s => Spreads ts s.toTree) ?_ (yields_stringValue hc))
    fun ts s h => ?_
  · refine .token hc rfl fun t c' _ => ?_
    split
    · exact .pure ⟨rfl, .gap _⟩
    · exact .fail
  · exact .of_spreads (n := .value (.string s)) h.1 ⟨.string h.2, one_le_maxDepth⟩

theorem takes_description (c : Cursor) :
    Takes description c [] c fun ts d =>
      Scattered Covers ts (d.map StringValue.toTree).toList := by
  refine .look (nextKind_run c) ?_
  split
  · rename_i raw h
    exact .bind (takes_stringValue h) fun us s c' hs => .pure (.item hs)
  · exact .pure (.gap _)

end Tokens

/-! ## Loops -/

section Loops
variable {item : Parser β} {tree : β → Tree Span}
variable (hitem : ∀ c, Takes item c [] c fun ts x => Covers ts (tree x))
include hitem

theorem takes_manyUntil (close : Punctuator) (production : Production) (n : Nat) (c : Cursor) :
    Takes (manyUntil close production item n) c [] c fun ts xs =>
      Scattered Covers ts (xs.map tree) := by
  induction n generalizing c with
  | zero => exact .pure (.gap _)
  | succ n ih =>
    refine .look (nextIs_run close c) ?_
    split
    · exact .pure (.gap _)
    · refine .look (atEnd_run c) ?_
      split
      · exact .unexpected
      · exact .bind (hitem c) fun us x c₁ hx => .bind (ih c₁) fun vs xs c₂ hxs =>
          .pure (.append (.item hx) hxs)

theorem takes_manyWhile (first : Punctuator) (n : Nat) (c : Cursor) :
    Takes (manyWhile first item n) c [] c fun ts xs => Scattered Covers ts (xs.map tree) := by
  induction n generalizing c with
  | zero => exact .pure (.gap _)
  | succ n ih =>
    refine .look (nextIs_run first c) ?_
    split
    · exact .bind (hitem c) fun us x c₁ hx => .bind (ih c₁) fun vs xs c₂ hxs =>
        .pure (.append (.item hx) hxs)
    · exact .pure (.gap _)

theorem takes_someUntil (close : Punctuator) (n : Nat) (c : Cursor) :
    Takes (someUntil close item n) c [] c fun ts xs => Scattered Covers ts (xs.map tree) := by
  induction n generalizing c with
  | zero => exact .pure (.gap _)
  | succ n ih =>
    refine .bind (hitem c) fun us x c₁ hx => .look (nextIs_run close c₁) ?_
    split
    · exact .pure (.item hx)
    · exact .bind (ih c₁) fun vs xs c₂ hxs => .pure (.append (.item hx) hxs)

theorem takes_nonempty (opening closing : Punctuator) (construct : Construct)
    (production : Production) (c : Cursor) :
    Takes (nonempty opening closing construct production item) c [] c fun ts r =>
      startOf ts = some r.1.start ∧ Scattered Covers ts (r.2.map tree) := by
  refine .bind (takes_expect opening production c) fun us s c₁ hs =>
    .look (nextIs_run closing c₁) ?_
  obtain ⟨t, rfl, -, rfl⟩ := hs
  split
  · exact .nextSpan fun _ => .fail
  · refine .look (x := c₁.tokens.length) rfl ?_
    exact .bind (takes_someUntil hitem closing _ c₁) fun vs xs c₂ hxs =>
      .bind (takes_expect closing production c₂) fun ws _ c₃ _ =>
      .pure ⟨rfl, (hxs.after [t]).before ws⟩

end Loops

/-! ## Values -/

theorem takes_varRef (c : Cursor) : Takes varRef c [] c fun ts v => Covers ts v.toTree := by
  refine Takes.mono (.and_yields (P := fun ts v => Spreads ts v.toTree) ?_ (yields_varRef c))
    fun ts v h => ?_
  · refine .bind (takes_expect .dollar .variable c) fun us s c₁ hs =>
      .bind (takes_name .variable c₁) fun vs n c₂ hn => ?_
    obtain ⟨t, rfl, -, rfl⟩ := hs
    exact .spanFrom (fun _ => rfl) fun i _ hi => .pure ⟨hi, .after [t] (.item hn)⟩
  · exact .of_spreads (n := .value (.variable v)) h.1 ⟨.var rfl h.2, one_le_maxDepth⟩

theorem takes_literal {form : Span → Value Span} {c : Cursor} {k : TokenKind}
    (hk : c.kinds.head? = some k) (proper : k.isProper = true)
    (leaf : ∀ s, (form s).toTree.slots = [] ∧ (form s).toTree.info = s) :
    Takes (literal form) c [] c fun ts v => Spreads ts v.toTree := by
  refine .token hk proper fun t _ _ => .pure ?_
  have spreads : Spreads ([] ++ [t]) (form t.span).toTree := by
    constructor
    · rw [(leaf t.span).2]
      rfl
    · rw [(leaf t.span).1]
      exact .gap _
  exact spreads

section Items
variable {item : Parser (Value Span)}
variable (hitem : ∀ c, Takes item c [] c fun ts v => Covers ts v.toTree)
include hitem

theorem takes_listValue (c : Cursor) :
    Takes (listValue item) c [] c fun ts v => Spreads ts v.toTree := by
  refine .bind (takes_expect .openBracket .listValue c) fun us s c₁ hs =>
    .look (x := c₁.tokens.length) rfl <|
    .bind (takes_manyUntil hitem .closeBracket .listValue _ c₁) fun vs items c₂ hitems =>
    .bind (takes_expect .closeBracket .listValue c₂) fun ws _ c₃ _ => ?_
  obtain ⟨t, rfl, -, rfl⟩ := hs
  refine .spanFrom (fun _ => rfl) fun i _ hi => .pure ⟨hi, ?_⟩
  simpa [Value.toTree, Tree.slots] using (hitems.after [t]).before ws

theorem takes_objectField (c : Cursor) :
    Takes (objectField item) c [] c fun ts f => Covers ts f.toTree := by
  refine .startSpan fun s hs => .bind (takes_name .objectField c) fun us n c₁ hn =>
    .bind (takes_expect .colon .objectField c₁) fun vs _ c₂ _ =>
    .bind (hitem c₂) fun ws v c₃ hv =>
    .spanFrom (hs _ (by simp [ne_nil_of_startOf hn.startOf_eq])) fun i _ hi => .pure ?_
  exact .of_spreads (n := .objectField (.mk n v i))
    ⟨hi, .append (.before vs (.item hn)) (.item hv)⟩ trivial

theorem takes_objectValue (c : Cursor) :
    Takes (objectValue item) c [] c fun ts v => Spreads ts v.toTree := by
  refine .bind (takes_expect .openBrace .objectValue c) fun us s c₁ hs =>
    .look (x := c₁.tokens.length) rfl <|
    .bind (takes_manyUntil (takes_objectField hitem) .closeBrace .objectValue _ c₁)
      fun vs fields c₂ hfields =>
    .bind (takes_expect .closeBrace .objectValue c₂) fun ws _ c₃ _ => ?_
  obtain ⟨t, rfl, -, rfl⟩ := hs
  refine .spanFrom (fun _ => rfl) fun i _ hi => .pure ⟨hi, ?_⟩
  simpa [Value.toTree, Tree.slots] using (hfields.after [t]).before ws

end Items

theorem takes_value (context : ValueContext) {room : Nat} (hroom : room ≤ maxDepth) (c : Cursor) :
    Takes (value context room) c [] c fun ts v => Covers ts v.toTree := by
  induction room generalizing c with
  | zero => exact .tooDeep
  | succ room ih =>
    have ih := ih (Nat.le_of_succ_le hroom)
    -- the tokens derive the value in its context, hence also where variables may stand
    refine Takes.mono (.and_yields (P := fun ts v => Spreads ts v.toTree) ?_
      (yields_value context (room + 1) c)) fun ts v h =>
      .of_spreads (n := .value v) h.1 ⟨h.2.1.weaken, Nat.le_trans h.2.2 hroom⟩
    refine .look (nextKind_run c) ?_
    split
    · split
      · exact .bind (takes_varRef c) fun us v c' hv => .pure hv.spreads
      · exact .nextSpan fun _ => .fail
    · exact takes_listValue ih c
    · exact takes_objectValue ih c
    · exact takes_literal ‹_› rfl fun s => ⟨rfl, rfl⟩
    · exact takes_literal ‹_› rfl fun s => ⟨rfl, rfl⟩
    · exact .bind (takes_stringValue ‹_›) fun us s c' hs => .pure hs.spreads
    · exact takes_literal ‹_› rfl fun s => ⟨rfl, rfl⟩
    · exact takes_literal ‹_› rfl fun s => ⟨rfl, rfl⟩
    · exact takes_literal ‹_› rfl fun s => ⟨rfl, rfl⟩
    · exact .unexpected

/-! ## Types -/

theorem takes_namedType (production : Production) (c : Cursor) :
    Takes (namedType production) c [] c fun ts t =>
      Covers ts t.toTree ∧ NamedTypeForm (ts.map Token.kind) (t.map forget) := by
  refine Takes.mono (.and_yields (P := fun ts t => Spreads ts t.toTree) ?_
    (yields_namedType production c)) fun ts t h =>
    ⟨.of_spreads (n := .type (.nullable (.named t))) h.1 ⟨.nullable (.named h.2), Nat.zero_le _⟩,
      h.2⟩
  exact .bind (takes_name production c) fun us n c' hn => .pure ⟨hn.spreads.hull, .item hn⟩

/-- A type that has been read, with what derives it. -/
structure IsType (room : Nat) (ts : List Token) (t : NullableType Span) : Prop where
  covers : Covers ts t.toTree
  form : NullableForm (ts.map Token.kind) (t.map forget)
  nesting : (t.map forget).nesting ≤ room

/-- The mark, if it follows, makes another node around the type in front. -/
theorem takes_marked {t : NullableType Span} {ts : List Token} {room : Nat} {o : Cursor}
    {p : Position} (ht : IsType room ts t) (start : startOf ts = some p)
    (hroom : room ≤ maxDepth) (c : Cursor) :
    Takes (marked p t) o ts c fun us r => Covers us r.toTree ∧
      Within TypeForm TypeRef.nesting room (TypeRef.map forget) (us.map Token.kind) r := by
  refine .look (nextIs_run .bang c) ?_
  split
  · rename_i h
    refine .advance (beq_iff_eq.1 h) rfl fun b c' kind =>
      .spanFrom (fun _ => startOf_append start [b]) fun i _ hi => .pure ?_
    have form : Within TypeForm TypeRef.nesting room (TypeRef.map forget)
        ((ts ++ [b]).map Token.kind) (.nonNull t i) := by
      rw [List.map_append, List.map_singleton, kind]
      exact ⟨.nonNull ht.form, ht.nesting⟩
    have spreads : Spreads (ts ++ [b]) (TypeRef.nonNull t i).toTree :=
      ⟨hi, .before [b] (.item ht.covers)⟩
    exact ⟨.of_spreads (n := .type (.nonNull t i)) spreads
      ⟨form.1, Nat.le_trans form.2 hroom⟩, form⟩
  · exact .pure ⟨ht.covers, .nullable ht.form, ht.nesting⟩

/-- A named type, marked or not. -/
theorem takes_markedName {room : Nat} (hroom : room ≤ maxDepth) (c : Cursor) :
    Takes markedName c [] c fun ts t => Covers ts t.toTree ∧
      Within TypeForm TypeRef.nesting room (TypeRef.map forget) (ts.map Token.kind) t :=
  .bind (takes_namedType .namedType c) fun _ t c' ht =>
    .look (x := t.info.start) rfl
      (takes_marked ⟨ht.1, .named ht.2, Nat.zero_le _⟩ ht.1.startOf_eq hroom c')

theorem takes_typeRef {room : Nat} (hroom : room ≤ maxDepth) (c : Cursor) :
    Takes (typeRef room) c [] c fun ts t => Covers ts t.toTree ∧
      Within TypeForm TypeRef.nesting room (TypeRef.map forget) (ts.map Token.kind) t := by
  induction room generalizing c with
  | zero =>
    refine .look (nextIs_run .openBracket c) ?_
    split
    · exact .tooDeep
    · exact takes_markedName hroom c
  | succ room ih =>
    refine .look (nextIs_run .openBracket c) ?_
    split
    · refine .bind (takes_expect .openBracket .listType c) fun us s c₁ hs =>
        .bind (ih (Nat.le_of_succ_le hroom) c₁) fun vs item c₂ hitem =>
        .bind (takes_expect .closeBracket .listType c₂) fun ws _ c₃ hw => ?_
      obtain ⟨a, rfl, opens, rfl⟩ := hs
      obtain ⟨b, rfl, closes, -⟩ := hw
      refine .spanFrom (fun _ => rfl) fun i _ hi => takes_marked ?_ rfl hroom c₃
      have form : NullableForm (([] ++ [a] ++ vs ++ [b]).map Token.kind)
          (.list (item.map forget) ()) := by
        simpa [opens, closes] using NullableForm.list hitem.2.1
      have nesting : ((NullableType.list item i).map forget).nesting ≤ room + 1 :=
        Nat.succ_le_succ hitem.2.2
      have spreads : Spreads ([] ++ [a] ++ vs ++ [b]) (NullableType.list item i).toTree :=
        ⟨hi, .before [b] (.after [a] (.item hitem.1))⟩
      exact ⟨.of_spreads (n := .type (.nullable (.list item i))) spreads
        ⟨.nullable form, Nat.le_trans nesting hroom⟩, form, nesting⟩
    · exact takes_markedName hroom c

/-! ## Arguments and directives -/

section Items
variable {item : Parser (Value Span)}
variable (hitem : ∀ c, Takes item c [] c fun ts v => Covers ts v.toTree)
include hitem

theorem takes_argument (c : Cursor) :
    Takes (argument item) c [] c fun ts a => Covers ts a.toTree := by
  refine .startSpan fun s hs => .bind (takes_name .argument c) fun us n c₁ hn =>
    .bind (takes_expect .colon .argument c₁) fun vs _ c₂ _ =>
    .bind (hitem c₂) fun ws v c₃ hv =>
    .spanFrom (hs _ (by simp [ne_nil_of_startOf hn.startOf_eq])) fun i _ hi => .pure ?_
  exact .of_spreads (n := .argument ⟨n, v, i⟩)
    ⟨hi, .append (.before vs (.item hn)) (.item hv)⟩ trivial

theorem takes_arguments (c : Cursor) :
    Takes (arguments item) c [] c fun ts as => Scattered Covers ts (as.map Argument.toTree) := by
  refine .look (nextIs_run .openParen c) ?_
  split
  · exact .bind (takes_nonempty (takes_argument hitem) .openParen .closeParen .argumentList
      .argument c) fun us r c' hr => .pure hr.2
  · exact .pure (.gap _)

theorem takes_directive (c : Cursor) :
    Takes (directive item) c [] c fun ts d => Covers ts d.toTree := by
  refine .bind (takes_expect .at .directive c) fun us s c₁ hs =>
    .bind (takes_name .directive c₁) fun vs n c₂ hn =>
    .bind (takes_arguments hitem c₂) fun ws as c₃ has => ?_
  obtain ⟨t, rfl, -, rfl⟩ := hs
  refine .spanFrom (fun _ => rfl) fun i _ hi => .pure ?_
  refine .of_spreads (n := .directive ⟨n, as, i⟩) ⟨hi, ?_⟩ trivial
  simpa [Node.toTree, Directive.toTree, Tree.slots] using
    Scattered.append (.after [t] (.item hn)) has

theorem takes_directives (c : Cursor) :
    Takes (directives item) c [] c fun ts ds => Scattered Covers ts (ds.map Directive.toTree) :=
  .look (x := c.tokens.length) rfl (takes_manyWhile (takes_directive hitem) .at _ c)

end Items

/-! ## Selections -/

section Selections
variable {item : Parser (Value Span)} {inner : Parser (SelectionSet Span)}
variable (hitem : ∀ c, Takes item c [] c fun ts v => Covers ts v.toTree)
variable (hinner : ∀ c, Takes inner c [] c fun ts s => Covers ts s.toTree)

theorem takes_typeCondition (c : Cursor) :
    Takes typeCondition c [] c fun ts t =>
      Scattered Covers ts (t.map NamedType.toTree).toList := by
  refine .look (nextIsKeyword_run "on" c) ?_
  split
  · rename_i h
    exact .advance (beq_iff_eq.1 h) rfl fun t c₁ _ =>
      .bind (takes_namedType .inlineFragment c₁) fun us n c₂ hn =>
      .pure (.after [t] (.item hn.1))
  · exact .pure (.gap _)

theorem takes_fieldName (c : Cursor) :
    Takes fieldName c [] c fun ts r => ts ≠ [] ∧
      Scattered Covers ts ((r.1.map Name.toTree).toList ++ [r.2.toTree]) := by
  refine .bind (takes_name .field c) fun us first c₁ hfirst => .look (nextIs_run .colon c₁) ?_
  split
  · rename_i h
    exact .advance (beq_iff_eq.1 h) rfl fun t c₂ _ =>
      .bind (takes_name .field c₂) fun vs n c₃ hn =>
      .pure ⟨by simp, .append (.before [t] (.item hfirst)) (.item hn)⟩
  · exact .pure ⟨ne_nil_of_startOf hfirst.startOf_eq, .item hfirst⟩

include hinner in
theorem takes_optionalSelections (c : Cursor) :
    Takes (optionalSelections inner) c [] c fun ts s =>
      Scattered Covers ts (s.map SelectionSet.toTree).toList := by
  refine .look (nextIs_run .openBrace c) ?_
  split
  · exact .bind (hinner c) fun us s c₁ hs => .pure (.item hs)
  · exact .pure (.gap _)

include hitem hinner

theorem takes_field (c : Cursor) :
    Takes (field item inner) c [] c fun ts s => Covers ts s.toTree := by
  refine .startSpan fun s hs => .bind (takes_fieldName c) fun us r c₁ hr =>
    .bind (takes_arguments hitem c₁) fun vs as c₂ has =>
    .bind (takes_directives hitem c₂) fun ws ds c₃ hds =>
    .bind (takes_optionalSelections hinner c₃) fun xs set c₄ hset =>
    .spanFrom (hs _ (by simp [hr.1])) fun i _ hi => .pure ?_
  have tree := Selection.toTree_field r.1 r.2 as ds set i
  refine .of_spreads (n := .selection (.field r.1 r.2 as ds set i)) ⟨?_, ?_⟩ trivial
  · rw [Node.toTree, tree]
    exact hi
  · rw [Node.toTree, tree]
    simpa [Tree.slots] using ((hr.2.append has).append hds).append hset

theorem takes_fragmentSelection (c : Cursor) :
    Takes (fragmentSelection item inner) c [] c fun ts s => Covers ts s.toTree := by
  refine .bind (takes_expect .ellipsis .fragmentSpread c) fun us s c₁ hs =>
    .look (nextKind_run c₁) ?_
  obtain ⟨t, rfl, -, rfl⟩ := hs
  split
  · refine .bind (takes_name .fragmentSpread c₁) fun vs n c₂ hn =>
      .bind (takes_directives hitem c₂) fun ws ds c₃ hds =>
      .spanFrom (fun _ => rfl) fun i _ hi => .pure ?_
    refine .of_spreads (n := .selection (.spread ⟨n, ds, i⟩)) ⟨hi, ?_⟩ trivial
    simpa [Node.toTree, Selection.toTree, FragmentSpread.toTree, Tree.slots] using
      Scattered.append (.after [t] (.item hn)) hds
  · refine .bind (takes_typeCondition c₁) fun vs cond c₂ hcond =>
      .bind (takes_directives hitem c₂) fun ws ds c₃ hds =>
      .bind (hinner c₃) fun xs set c₄ hset => .spanFrom (fun _ => rfl) fun i _ hi => .pure ?_
    refine .of_spreads (n := .selection (.inlineFragment cond ds set i)) ⟨hi, ?_⟩ trivial
    simpa [Node.toTree, Selection.toTree, Tree.slots] using
      ((hcond.after [t]).append hds).append (.item hset)

theorem takes_selection (c : Cursor) :
    Takes (selection item inner) c [] c fun ts s => Covers ts s.toTree := by
  refine .look (nextIs_run .ellipsis c) ?_
  split
  · exact takes_fragmentSelection hitem hinner c
  · exact takes_field hitem hinner c

end Selections

theorem takes_selectionSet {room : Nat} (hroom : room ≤ maxDepth) (c : Cursor) :
    Takes (selectionSet room) c [] c fun ts s => Covers ts s.toTree := by
  induction room generalizing c with
  | zero => exact .tooDeep
  | succ room ih =>
    have hroom' := Nat.le_of_succ_le hroom
    refine Takes.mono (.and_yields (P := fun ts s => Spreads ts s.toTree) ?_
      (yields_selectionSet (room + 1) c)) fun ts s h =>
      .of_spreads (n := .selectionSet s) h.1 ⟨h.2.1, Nat.le_trans h.2.2 hroom⟩
    refine .bind (takes_nonempty (takes_selection (takes_value .anyValue hroom') (ih hroom'))
      .openBrace .closeBrace .selectionSet .selectionSet c) fun us r c₁ hr =>
      .spanFrom (fun _ => hr.1) fun i _ hi => .pure ⟨hi, ?_⟩
    simpa [SelectionSet.toTree, Tree.slots] using hr.2

/-! ## Definitions -/

theorem takes_defaultValue (c : Cursor) :
    Takes defaultValue c [] c fun ts v => Scattered Covers ts (v.map Value.toTree).toList := by
  refine .look (nextIs_run .equals c) ?_
  split
  · rename_i h
    exact .advance (beq_iff_eq.1 h) rfl fun t c₁ _ =>
      .bind (takes_value .defaultValue (Nat.le_refl _) c₁) fun us v c₂ hv =>
      .pure (.after [t] (.item hv))
  · exact .pure (.gap _)

theorem takes_variableDefinition (c : Cursor) :
    Takes variableDefinition c [] c fun ts v => Covers ts v.toTree := by
  refine .startSpan fun s hs => .bind (takes_description c) fun us d c₁ hd =>
    .bind (takes_varRef c₁) fun vs v c₂ hv =>
    .bind (takes_expect .colon .variableDefinition c₂) fun ws _ c₃ _ =>
    .bind (takes_typeRef (Nat.le_refl _) c₃) fun xs t c₄ ht =>
    .bind (takes_defaultValue c₄) fun ys e c₅ he =>
    .bind (takes_directives (takes_value .variableDirective (Nat.le_refl _)) c₅)
      fun zs ds c₆ hds =>
    .spanFrom (hs _ (by simp [ne_nil_of_startOf hv.startOf_eq])) fun i _ hi => .pure ?_
  refine .of_spreads (n := .variableDefinition ⟨d, v, t, e, ds, i⟩) ⟨hi, ?_⟩ trivial
  simpa [Node.toTree, VariableDefinition.toTree, Tree.slots] using
    ((((hd.append (.item hv)).before ws).append (.item ht.1)).append he).append hds

theorem takes_variableDefinitions (c : Cursor) :
    Takes variableDefinitions c [] c fun ts vs =>
      Scattered Covers ts (vs.map VariableDefinition.toTree) := by
  refine .look (nextIs_run .openParen c) ?_
  split
  · exact .bind (takes_nonempty takes_variableDefinition .openParen .closeParen
      .variableDefinitions .variableDefinition c) fun us r c' hr => .pure hr.2
  · exact .pure (.gap _)

theorem takes_operationName (c : Cursor) :
    Takes operationName c [] c fun ts n => Scattered Covers ts (n.map Name.toTree).toList := by
  refine .look (nextIs_run .openParen c) (.look (nextIs_run .at c)
    (.look (nextIs_run .openBrace c) ?_))
  split
  · exact .pure (.gap _)
  · exact .bind (takes_name .operationDefinition c) fun us n c' hn => .pure (.item hn)

section Definitions
variable {o c : Cursor} {start : Position} {description : Option (StringValue Span)}
  {ts : List Token} (hs : Begins o start)
include hs

theorem takes_shortQuery :
    Takes (shortQuery start) o ts c fun us d => Spreads us d.toTree :=
  .bind (takes_selectionSet (Nat.le_refl _) c) fun _ _ _ hset =>
    .spanFrom (hs _ (by simp [ne_nil_of_startOf hset.startOf_eq])) fun _ _ hi =>
    .pure ⟨hi, .after ts (.item hset)⟩

variable (hd : Scattered Covers ts (description.map StringValue.toTree).toList)
include hd

theorem takes_operation {kind : OperationKind} {k : TokenKind} (hk : c.kinds.head? = some k)
    (proper : k.isProper = true) :
    Takes (operation start description kind) o ts c fun us d => Spreads us d.toTree := by
  refine .advance hk proper fun t c₁ _ => .bind (takes_operationName c₁) fun us n c₂ hn =>
    .bind (takes_variableDefinitions c₂) fun vs defs c₃ hdefs =>
    .bind (takes_directives (takes_value .anyValue (Nat.le_refl _)) c₃) fun ws ds c₄ hds =>
    .bind (takes_selectionSet (Nat.le_refl _) c₄) fun xs set c₅ hset =>
    .spanFrom (hs _ (by simp)) fun i _ hi => .pure ⟨hi, ?_⟩
  simpa [Operation.toTree, Tree.slots] using
    ((((hd.before [t]).append hn).append hdefs).append hds).append (.item hset)

theorem takes_fragment {k : TokenKind} (hk : c.kinds.head? = some k)
    (proper : k.isProper = true) :
    Takes (fragment start description) o ts c fun us d => Spreads us d.toTree := by
  refine .advance hk proper fun t c₁ _ => .look (nextIsKeyword_run "on" c₁) ?_
  split
  · exact .nextSpan fun _ => .fail
  · refine .bind (takes_name .fragmentDefinition c₁) fun us n c₂ hn =>
      .bind (takes_expectKeyword "on" .fragmentDefinition c₂) fun vs _ c₃ _ =>
      .bind (takes_namedType .fragmentDefinition c₃) fun ws cond c₄ hcond =>
      .bind (takes_directives (takes_value .anyValue (Nat.le_refl _)) c₄) fun xs ds c₅ hds =>
      .bind (takes_selectionSet (Nat.le_refl _) c₅) fun ys set c₆ hset =>
      .spanFrom (hs _ (by simp)) fun i _ hi => .pure ⟨hi, ?_⟩
    simpa [Fragment.toTree, Tree.slots] using
      (((((hd.before [t]).append (.item hn)).before vs).append (.item hcond.1)).append hds).append
        (.item hset)

end Definitions

theorem takes_definition (c : Cursor) :
    Takes definition c [] c fun ts d => Covers ts d.toTree := by
  refine Takes.mono (.and_yields (P := fun ts d => Spreads ts d.toTree) ?_
    (yields_definition c)) fun ts d h => .of_spreads (n := .definition d) h.1 h.2
  refine .startSpan fun s hs => .bind (takes_description c) fun us d c₁ hd =>
    .look (nextKind_run c₁) ?_
  split
  · split
    · exact .nextSpan fun _ => .fail
    · exact .andThen (takes_shortQuery hs) fun vs o c₂ ho => .pure ho
  · rename_i text hnext
    split
    · exact .andThen (takes_fragment hs hd hnext rfl) fun vs f c₂ hf => .pure hf
    · split
      · exact .andThen (takes_operation hs hd hnext rfl) fun vs o c₂ ho => .pure ho
      · exact .nextSpan fun _ => .error rfl
  · exact .nextSpan fun _ => .error rfl

/-! ## What is parsed as a whole -/

theorem takes_expectEnd (production : Production) (c : Cursor) :
    Takes (expectEnd production) c [] c fun ts _ => ts = [] := by
  refine .look (atEnd_run c) ?_
  split
  · exact .pure rfl
  · exact .unexpected

theorem takes_wholeValue (context : ValueContext) (c : Cursor) :
    Takes (wholeValue context) c [] c fun ts v => Covers ts v.toTree := by
  refine .bind (takes_value context (Nat.le_refl _) c) fun us v c₁ hv =>
    .bind (takes_expectEnd .value c₁) fun vs _ c₂ hvs => .pure ?_
  subst hvs
  simpa using hv

theorem takes_wholeType (c : Cursor) :
    Takes wholeType c [] c fun ts t => Covers ts t.toTree := by
  refine .bind (takes_typeRef (Nat.le_refl _) c) fun us t c₁ ht =>
    .bind (takes_expectEnd .namedType c₁) fun vs _ c₂ hvs => .pure ?_
  subst hvs
  simpa using ht.1

theorem takes_definitions (n : Nat) (c : Cursor) :
    Takes (definitions n) c [] c fun ts ds =>
      Scattered Covers ts (ds.map Definition.toTree) := by
  induction n generalizing c with
  | zero => exact .pure (.gap _)
  | succ n ih =>
    refine .look (atEnd_run c) ?_
    split
    · exact .pure (.gap _)
    · exact .bind (takes_definition c) fun us d c₁ hd => .bind (ih c₁) fun vs ds c₂ hds =>
        .pure (.append (.item hd) hds)

theorem document_covers {c c' : Cursor} {d : Document Span} (h : document c = .ok (d, c')) :
    ∃ ts s, c.Took ts c' ∧ Scattered Covers ts (d.definitions.map Definition.toTree) ∧
      d.definitions ≠ [] ∧ endsHere c'.kinds = true ∧ nextSpan c' = .ok (s, c') ∧
      d.info = ⟨.zero, s.stop⟩ := by
  obtain ⟨_, -, derived, -, hend⟩ := document_sound h
  rw [document, bind_ok (atEnd_run c)] at h
  split at h
  · obtain ⟨s, hs⟩ := nextSpan_run c
    rw [bind_ok hs] at h
    cases h
  · rw [bind_ok (x := c.tokens.length) rfl] at h
    obtain ⟨ds, c₁, hds, h⟩ := bind_eq_ok h
    obtain ⟨s, hs⟩ := nextSpan_run c₁
    rw [bind_ok hs] at h
    cases h
    obtain ⟨ts, took, covers⟩ := takes_definitions _ c (.refl c) ds _ hds
    refine ⟨ts, s, took, covers, ?_, hend, hs, rfl⟩
    rintro rfl
    cases derived with
    | mk _ hne => exact hne rfl

end Parser

/-- What is parsed as a whole stands over the tokens `ts`, with `rest` after them: a
node as always, and a document from the start of the text to the end of input. -/
inductive Stands (ts rest : List Token) : Node Span → Prop
  | node {n : Node Span} : Covers ts n.toTree → Stands ts rest n
  | document {ds : List (Definition Span)} {e : Token} : rest.head? = some e →
      e.kind = .endOfInput → ds ≠ [] → Scattered Covers ts (ds.map Definition.toTree) →
      Stands ts rest (.document ⟨ds, ⟨.zero, e.span.stop⟩⟩)

section Whole
variable {entry : Entry} {source : Source} {tokens : List Token} {n : Node Span}

/-- What a parser took is in front of the end of input. -/
theorem Cursor.Took.exists_rest {ts : List Token} {c : Cursor}
    (h : Cursor.Took ⟨tokens, none⟩ ts c)
    (hend : tokens.getLast?.map Token.kind = some .endOfInput) :
    ∃ e rest, c.tokens = e :: rest ∧ tokens = ts ++ e :: rest := by
  cases hrest : c.tokens with
  | nil =>
    have htokens := h.tokens
    rw [hrest, List.append_nil] at htokens
    obtain ⟨e, he, kind⟩ := Option.map_eq_some_iff.1 hend
    have proper := h.proper e (htokens ▸ List.mem_of_getLast? he)
    exact absurd kind (TokenKind.ne_endOfInput_of_isProper proper)
  | cons e rest => exact ⟨e, rest, rfl, hrest ▸ h.tokens⟩

theorem Parser.whole_stands (h : (whole entry).run source tokens = .ok n)
    (hend : tokens.getLast?.map Token.kind = some .endOfInput) :
    ∃ ts rest, tokens = ts ++ rest ∧ (∀ t ∈ ts, t.kind.isProper = true) ∧ Stands ts rest n := by
  obtain ⟨c', h⟩ := run_eq_ok.1 h
  have node (takes : Takes (whole entry) ⟨tokens, none⟩ [] ⟨tokens, none⟩
      fun ts n => Covers ts n.toTree) :
      ∃ ts rest, tokens = ts ++ rest ∧ (∀ t ∈ ts, t.kind.isProper = true) ∧ Stands ts rest n := by
    obtain ⟨ts, took, covers⟩ := takes (.refl _) n c' h
    exact ⟨ts, c'.tokens, took.tokens, took.proper, .node covers⟩
  cases entry with
  | document =>
    obtain ⟨d, c₁, hd, h⟩ := bind_eq_ok h
    cases h
    obtain ⟨ts, s, took, covers, hne, ends, hs, info⟩ := document_covers hd
    -- a document ends with the token in front of the parser, which it does not take
    obtain ⟨e, rest, hrest, htokens⟩ := took.exists_rest hend
    rw [nextSpan, hrest] at hs
    cases hs
    have kind : e.kind = .endOfInput := by
      simpa [endsHere, Cursor.kinds, hrest] using ends
    refine ⟨ts, e :: rest, htokens, took.proper, ?_⟩
    obtain ⟨ds, info'⟩ := d
    subst info
    exact .document rfl kind hne covers
  | value =>
    exact node (.bind (takes_wholeValue _ _) fun _ _ _ hv => .pure hv)
  | constValue =>
    exact node (.bind (takes_wholeValue _ _) fun _ _ _ hv => .pure hv)
  | type =>
    exact node (.bind (takes_wholeType _) fun _ _ _ ht => .pure ht)

end Whole

end QueryDoc
