import QueryDoc.Proofs.Grammar.Run
import QueryDoc.Proofs.Syntax.Nesting

/-!
# What is derived is accepted

Each parser reads every list of tokens that its production derives, as long as
the nesting stays within the levels it was given and the tokens after it do not
go on with the production. Which these are is said for each production that ends
with an optional part: after a field no colon may follow, after a type no mark,
and so on. Values and selection sets are closed by their last token, so they may
stand in front of anything.
-/
namespace QueryDoc.Parser
open Grammar

variable {β γ : Type} {ts rest : List TokenKind}

/-! ## Tokens -/

theorem reads_expect (p : Punctuator) (production : Production) :
    Reads (expect p production) [.punctuator p] rest fun _ => True := by
  refine .isNext rfl ?_
  rw [if_pos rfl]
  exact .nextSpan fun s => .advance (.pure trivial)

theorem reads_expectKeyword (word : String) (production : Production) :
    Reads (expectKeyword word production) [.name word] rest fun _ => True := by
  refine .isKeyword (b := true) (by simp) ?_
  rw [if_pos rfl]
  intro c hc
  obtain ⟨c', h, hk⟩ := advance_run c
  exact ⟨(), c', h, by rw [hk, hc]; rfl, trivial⟩

theorem reads_name (production : Production) {n : Name Unit} (h : NameForm ts n) :
    Reads (name production) ts rest fun m => m.map forget = n := by
  obtain ⟨ht⟩ := h
  refine .nextKind rfl ?_
  simp only [List.cons_append, List.head?_cons, Option.bind_some, ht]
  exact .nextSpan fun s => .advance (.pure rfl)

theorem reads_stringValue {raw : String} {s : StringValue Unit} (h : StringForm [.string raw] s) :
    Reads (stringValue raw) [.string raw] rest fun r => r.map forget = s := by
  cases h with
  | mk hd =>
    refine .nextSpan fun i => .advance ?_
    rw [hd]
    exact .pure rfl

/-- No string literal is next, so nothing is described. -/
def NoString (kinds : List TokenKind) : Prop := ∀ raw, kinds.head? ≠ some (.string raw)

theorem reads_description {d : Option (StringValue Unit)} (h : Perhaps StringForm ts d)
    (hrest : NoString rest) :
    Reads description ts rest fun r => r.map (StringValue.map forget) = d := by
  cases h with
  | none =>
    refine .nextKind (k := rest.head?) rfl ?_
    split
    · exact absurd ‹_› (hrest _)
    · exact .pure rfl
  | some hs =>
    have hs' := hs
    cases hs' with
    | mk hd =>
      refine .nextKind rfl (.bind_last (reads_stringValue hs) fun r hr => .pure ?_)
      rw [Option.map_some, hr]

/-! ## Loops -/

section Loops
variable {item : Parser β} {shape : β → γ} {P : List TokenKind → γ → Prop}
variable {F : List TokenKind → Prop} {allowed : List Punctuator}

/-- Each item is read in front of what may follow it. -/
def ReadsItems (item : Parser β) (shape : β → γ) (P : List TokenKind → γ → Prop)
    (F : List TokenKind → Prop) : Prop :=
  ∀ ts x rest, P ts x → F rest → Reads item ts rest fun y => shape y = x

theorem follows_many (hF : ∀ us x more, P us x → F (us ++ more)) (hrest : F rest)
    {xs : List γ} (h : Many P ts xs) : F (ts ++ rest) := by
  cases h with
  | nil => exact hrest
  | cons hx _ =>
    rw [List.append_assoc]
    exact hF _ _ _ hx

theorem reads_manyUntil {close : Punctuator} (production : Production)
    (hitem : ReadsItems item shape P F) (hF : ∀ us x more, P us x → F (us ++ more))
    (hrest : F (.punctuator close :: rest)) (hstart : ∀ us x, P us x → Starts allowed us)
    (hclose : close ∉ allowed) {xs : List γ} (h : Many P ts xs) (n : Nat) (hn : xs.length < n) :
    Reads (manyUntil close production item n) ts (.punctuator close :: rest)
      fun ys => ys.map shape = xs := by
  induction h generalizing n with
  | nil =>
    cases n with
    | zero => exact absurd hn (Nat.not_lt_zero _)
    | succ n => exact .isNext rfl (.pure rfl)
  | @cons us vs x xs hx hxs ih =>
    cases n with
    | zero => exact absurd hn (Nat.not_lt_zero _)
    | succ n =>
      have hs : Starts allowed (us ++ vs) := (hstart us x hx).append
      have hend : endsHere (us ++ vs ++ .punctuator close :: rest) = false := by
        obtain ⟨t, ws, ht, hne, -⟩ := hs
        simpa [endsHere, ht] using hne
      refine .notNext (hs.append.avoids hclose) (.atEnd hend ?_)
      refine .bind (hitem us x _ hx (follows_many hF hrest hxs)) fun y hy =>
        .bind_last (ih n (Nat.lt_of_succ_lt_succ hn)) fun ys hys => .pure ?_
      rw [List.map_cons, hy, hys]

theorem reads_manyWhile {first : Punctuator} (hitem : ReadsItems item shape P F)
    (hF : ∀ us x more, P us x → F (us ++ more)) (hrest : F rest) (hstop : Avoids first rest)
    (hstart : ∀ us x, P us x → us.head? = some (.punctuator first))
    {xs : List γ} (h : Many P ts xs) (n : Nat) (hn : xs.length < n) :
    Reads (manyWhile first item n) ts rest fun ys => ys.map shape = xs := by
  induction h generalizing n with
  | nil =>
    cases n with
    | zero => exact absurd hn (Nat.not_lt_zero _)
    | succ n => exact .notNext hstop (.pure rfl)
  | @cons us vs x xs hx hxs ih =>
    cases n with
    | zero => exact absurd hn (Nat.not_lt_zero _)
    | succ n =>
      have hhead : (us ++ vs ++ rest).head? = some (.punctuator first) := by
        simp [List.head?_append, hstart us x hx]
      refine .isNext hhead (.bind (hitem us x _ hx (follows_many hF hrest hxs)) fun y hy =>
        .bind_last (ih n (Nat.lt_of_succ_lt_succ hn)) fun ys hys => .pure ?_)
      rw [List.map_cons, hy, hys]

theorem reads_someUntil {close : Punctuator} (hitem : ReadsItems item shape P F)
    (hF : ∀ us x more, P us x → F (us ++ more)) (hrest : F (.punctuator close :: rest))
    (hstart : ∀ us x, P us x → Starts allowed us) (hclose : close ∉ allowed)
    {xs : List γ} (h : Many P ts xs) (hne : xs ≠ []) (n : Nat) (hn : xs.length ≤ n) :
    Reads (someUntil close item n) ts (.punctuator close :: rest)
      fun ys => ys.map shape = xs := by
  induction h generalizing n with
  | nil => exact absurd rfl hne
  | @cons us vs x xs hx hxs ih =>
    cases n with
    | zero => exact absurd hn (Nat.not_succ_le_zero _)
    | succ n =>
      refine .bind (hitem us x _ hx (follows_many hF hrest hxs)) fun y hy => ?_
      cases hxs with
      | nil =>
        refine .isNext rfl (.pure ?_)
        rw [List.map_singleton, hy]
      | @cons vs ws x' xs hx' hxs =>
        have hs : Starts allowed (vs ++ ws) := (hstart vs x' hx').append
        refine .notNext (hs.append.avoids hclose) (.bind_last
          (ih (List.cons_ne_nil _ _) n (Nat.le_of_succ_le_succ hn)) fun ys hys => .pure ?_)
        rw [List.map_cons, hy, hys]

theorem reads_nonempty {opening closing : Punctuator} (construct : Construct)
    (production : Production) (hitem : ReadsItems item shape P F)
    (hF : ∀ us x more, P us x → F (us ++ more)) (hrest : ∀ more, F (.punctuator closing :: more))
    (hstart : ∀ us x, P us x → Starts allowed us) (hclose : closing ∉ allowed)
    {xs : List γ} (h : Enclosed opening closing P ts xs) :
    Reads (nonempty opening closing construct production item) ts rest
      fun r => r.2.map shape = xs := by
  cases h with
  | @mk us xs hm hne =>
    refine .bind_token (reads_expect opening production) fun s _ => ?_
    have hs : Starts allowed us := by
      cases hm with
      | nil => exact absurd rfl hne
      | cons hx _ => exact (hstart _ _ hx).append
    have hlen := hm.length_le fun us x hx => (hstart us x hx).ne_nil
    refine .notNext (hs.append.append.avoids hclose) (.remaining fun n hn => ?_)
    have hle : xs.length ≤ n + 1 := by
      rw [List.length_append] at hn
      omega
    exact .bind (reads_someUntil hitem hF (hrest rest) hstart hclose hm hne _ hle)
      fun ys hys => .bind_last (reads_expect closing production) fun _ _ => .pure hys

end Loops

/-! ## Values -/

theorem reads_varRef {v : Variable Unit} (h : VariableForm ts v) :
    Reads varRef ts rest fun w => w.map forget = v := by
  obtain ⟨hn⟩ := h
  refine .bind_token (reads_expect .dollar .variable) fun s _ =>
    .bind_last (reads_name .variable hn) fun m hm => .spanFrom fun i => .pure ?_
  rw [Variable.map, hm]

theorem reads_literal {form : Span → Value Span} {t : TokenKind} {v : Value Unit}
    (h : ∀ s, (form s).map forget = v) :
    Reads (literal form) [t] rest fun w => w.map forget = v :=
  .nextSpan fun s => .advance (.pure (h s))

section Items
variable {item : Parser (Value Span)} {P : List TokenKind → Value Unit → Prop}
variable (hitem : ReadsItems item (Value.map forget) P fun _ => True)
include hitem

theorem reads_listValue (hstart : ∀ us v, P us v → Starts [.dollar, .openBracket, .openBrace] us)
    {vs : List (Value Unit)} (h : Many P ts vs) :
    Reads (listValue item) (.punctuator .openBracket :: (ts ++ [.punctuator .closeBracket])) rest
      fun w => w.map forget = .list vs () := by
  refine .bind_token (reads_expect .openBracket .listValue) fun s _ =>
    .remaining fun n hn => ?_
  have hlen := h.length_le fun us x hx => (hstart us x hx).ne_nil
  have hlt : vs.length < n + 1 := by
    rw [List.length_append] at hn
    omega
  refine .bind (reads_manyUntil .listValue hitem (fun _ _ _ _ => trivial) trivial hstart
    (by decide) h _ hlt) fun ys hys => .bind_last (reads_expect .closeBracket .listValue)
    fun _ _ => .spanFrom fun i => .pure ?_
  rw [Value.map, Value.mapList_eq, hys]

theorem reads_objectField :
    ReadsItems (objectField item) (ObjectField.map forget) (ObjectFieldForm P) fun _ => True := by
  intro ts f rest h _
  obtain ⟨hn, hv⟩ := h
  refine .nextSpan fun _ => .bind (reads_name .objectField hn) fun m hm =>
    .bind_token (reads_expect .colon .objectField) fun s _ =>
    .bind_last (hitem _ _ _ hv trivial) fun w hw => .spanFrom fun i => .pure ?_
  rw [ObjectField.map, hm, hw]

theorem reads_objectValue {fs : List (ObjectField Unit)} (h : Many (ObjectFieldForm P) ts fs) :
    Reads (objectValue item) (.punctuator .openBrace :: (ts ++ [.punctuator .closeBrace])) rest
      fun w => w.map forget = .object fs () := by
  refine .bind_token (reads_expect .openBrace .objectValue) fun s _ =>
    .remaining fun n hn => ?_
  have hlen := h.length_le fun us x hx => hx.starts.ne_nil
  have hlt : fs.length < n + 1 := by
    rw [List.length_append] at hn
    omega
  refine .bind (reads_manyUntil .objectValue (reads_objectField hitem) (fun _ _ _ _ => trivial)
    trivial (fun _ _ hx => hx.starts) (by decide) h _ hlt) fun ys hys =>
    .bind_last (reads_expect .closeBrace .objectValue) fun _ _ => .spanFrom fun i => .pure ?_
  rw [Value.map, ObjectField.mapList_eq, hys]

end Items

theorem reads_value (context : ValueContext) (room : Nat) :
    ReadsItems (value context room) (Value.map forget)
      (fun us v => ValueForm (context != .anyValue) us v ∧ v.nesting ≤ room) fun _ => True := by
  induction room with
  | zero =>
    intro ts v rest h _
    have := v.nesting_pos
    omega
  | succ room ih =>
    intro ts v rest ⟨h, hroom⟩ _
    cases h with
    | var hctx hv =>
      have hctx' : context = .anyValue := by simpa using hctx
      have hv' := hv
      obtain ⟨hn⟩ := hv'
      refine .nextKind rfl ?_
      simp only [if_pos hctx']
      refine .bind_last (reads_varRef hv) fun w hw => .pure ?_
      rw [Value.map, hw]
    | int => exact .nextKind rfl (reads_literal fun s => rfl)
    | float => exact .nextKind rfl (reads_literal fun s => rfl)
    | string hs =>
      have hs' := hs
      obtain ⟨-⟩ := hs'
      refine .nextKind rfl (.bind_last (reads_stringValue hs) fun w hw => .pure ?_)
      rw [Value.map, hw]
    | boolean => exact .nextKind rfl (reads_literal fun s => rfl)
    | null => exact .nextKind rfl (reads_literal fun s => rfl)
    | enum => exact .nextKind rfl (reads_literal fun s => rfl)
    | @list us vs hm =>
      rw [Value.nesting, Value.nestingAll_eq] at hroom
      have hd := deepest_le.1 (Nat.le_of_succ_le_succ hroom)
      exact .nextKind rfl (reads_listValue ih (fun us v hv => hv.1.starts)
        (hm.imp fun us v hmem hv => ⟨hv, hd v hmem⟩))
    | @object us fs hm =>
      rw [Value.nesting, ObjectField.nestingAll_eq] at hroom
      have hd := deepest_le.1 (Nat.le_of_succ_le_succ hroom)
      refine .nextKind rfl (reads_objectValue ih (hm.imp fun us f hmem hf => ?_))
      have hle := hd f hmem
      obtain ⟨hn, hv⟩ := hf
      exact .mk hn ⟨hv, hle⟩

/-! ## Types -/

theorem reads_namedType (production : Production) {t : NamedType Unit} (h : NamedTypeForm ts t) :
    Reads (namedType production) ts rest fun r => r.map forget = t := by
  obtain ⟨hn⟩ := h
  refine .bind_last (reads_name production hn) fun m hm => .pure ?_
  rw [NamedType.map, hm]

/-- A type reference is a nullable type with or without the mark. -/
theorem typeForm_split {t : TypeRef Unit} (h : TypeForm ts t) :
    ∃ us vs n, ts = us ++ vs ∧ NullableForm us n ∧
      ((vs = [] ∧ t = .nullable n) ∨ (vs = [.punctuator .bang] ∧ t = .nonNull n ())) := by
  cases h with
  | nullable hn => exact ⟨ts, [], _, (List.append_nil ts).symm, hn, .inl ⟨rfl, rfl⟩⟩
  | nonNull hn => exact ⟨_, _, _, rfl, hn, .inr ⟨rfl, rfl⟩⟩

theorem reads_marked {t : TypeRef Unit} {n : NullableType Unit} {r : NullableType Span}
    {start : Position} (hr : r.map forget = n)
    (h : (ts = [] ∧ t = .nullable n) ∨ (ts = [.punctuator .bang] ∧ t = .nonNull n ()))
    (hrest : Avoids .bang rest) : Reads (marked start r) ts rest fun x => x.map forget = t := by
  rcases h with ⟨rfl, rfl⟩ | ⟨rfl, rfl⟩
  · refine .notNext hrest (.pure ?_)
    rw [TypeRef.map, hr]
  · refine .isNext rfl (.advance (.spanFrom fun i => .pure ?_))
    rw [TypeRef.map, hr]

theorem reads_markedName {t : TypeRef Unit} {n : NamedType Unit} (hn : NamedTypeForm ts n)
    (h : (us = [] ∧ t = .nullable (.named n)) ∨
      (us = [.punctuator .bang] ∧ t = .nonNull (.named n) ()))
    (hrest : Avoids .bang rest) :
    Reads markedName (ts ++ us) rest fun x => x.map forget = t := by
  refine .bind (reads_namedType .namedType hn) fun r hr =>
    .look (x := r.info.start) (fun _ _ => rfl) (reads_marked ?_ h hrest)
  rw [NullableType.map, hr]

theorem reads_typeRef (room : Nat) :
    ReadsItems (typeRef room) (TypeRef.map forget)
      (fun us t => TypeForm us t ∧ t.nesting ≤ room) (Avoids .bang) := by
  induction room with
  | zero =>
    rintro ts t rest ⟨h, hroom⟩ hrest
    obtain ⟨us, vs, n, rfl, hn, hmark⟩ := typeForm_split h
    have hzero : n.nesting ≤ 0 := by
      rcases hmark with ⟨-, rfl⟩ | ⟨-, rfl⟩ <;> exact hroom
    cases hn with
    | named ht =>
      have hstart : Starts [] us := by
        obtain ⟨hname⟩ := ht
        exact hname.starts
      exact .notNext (hstart.append.append.avoids (by simp)) (reads_markedName ht hmark hrest)
    | list => exact absurd hzero (Nat.not_succ_le_zero _)
  | succ room ih =>
    rintro ts t rest ⟨h, hroom⟩ hrest
    obtain ⟨us, vs, n, rfl, hn, hmark⟩ := typeForm_split h
    have hle : n.nesting ≤ room + 1 := by
      rcases hmark with ⟨-, rfl⟩ | ⟨-, rfl⟩ <;> exact hroom
    cases hn with
    | named ht =>
      have hstart : Starts [] us := by
        obtain ⟨hname⟩ := ht
        exact hname.starts
      exact .notNext (hstart.append.append.avoids (by simp)) (reads_markedName ht hmark hrest)
    | @list us item hitem =>
      rw [List.cons_append, List.append_assoc]
      refine .isNext rfl (.bind_token (reads_expect .openBracket .listType) fun s _ => ?_)
      refine .bind (ih _ _ _ ⟨hitem, Nat.le_of_succ_le_succ hle⟩ (.cons (by decide) _))
        fun r hr => ?_
      refine .bind_token (reads_expect .closeBracket .listType) fun _ _ => .spanFrom fun i => ?_
      refine reads_marked ?_ hmark hrest
      rw [NullableType.map, hr]

/-! ## Arguments and directives -/

section Items
variable {item : Parser (Value Span)} {constant : Bool} {room : Nat}
variable (hitem : ReadsItems item (Value.map forget)
  (fun us v => ValueForm constant us v ∧ v.nesting ≤ room) fun _ => True)
include hitem

theorem reads_argument :
    ReadsItems (argument item) (Argument.map forget)
      (fun us a => ArgumentForm constant us a ∧ a.nesting ≤ room) fun _ => True := by
  rintro ts a rest ⟨h, hroom⟩ _
  obtain ⟨hn, hv⟩ := h
  refine .nextSpan fun s => .bind (reads_name .argument hn) fun m hm =>
    .bind_token (reads_expect .colon .argument) fun _ _ =>
    .bind_last (hitem _ _ _ ⟨hv, hroom⟩ trivial) fun w hw => .spanFrom fun i => .pure ?_
  rw [Argument.map, hm, hw]

theorem reads_arguments {as : List (Argument Unit)} (h : ArgumentsForm constant ts as)
    (hroom : ∀ a ∈ as, a.nesting ≤ room) (hrest : Avoids .openParen rest) :
    Reads (arguments item) ts rest fun r => r.map (Argument.map forget) = as := by
  cases h with
  | absent => exact .notNext hrest (.pure rfl)
  | present h =>
    cases h with
    | mk hm hne =>
      refine .isNext rfl (.bind_last (reads_nonempty .argumentList .argument (reads_argument hitem)
        (fun _ _ _ _ => trivial) (fun _ => trivial) (fun _ _ hx => hx.1.starts) (by simp)
        (.mk (hm.imp fun us a hmem ha => ⟨ha, hroom a hmem⟩) hne)) fun r hr => .pure hr)

theorem reads_directive :
    ReadsItems (directive item) (Directive.map forget)
      (fun us d => DirectiveForm constant us d ∧ d.nesting ≤ room) (Avoids .openParen) := by
  rintro ts d rest ⟨h, hroom⟩ hrest
  obtain ⟨hn, has⟩ := h
  refine .bind_token (reads_expect .at .directive) fun s _ =>
    .bind (reads_name .directive hn) fun m hm =>
    .bind_last (reads_arguments hitem has (deepest_le.1 hroom) hrest) fun as' has' =>
    .spanFrom fun i => .pure ?_
  rw [Directive.map, hm, has']

theorem reads_directives {ds : List (Directive Unit)} (h : DirectivesForm constant ts ds)
    (hroom : ∀ d ∈ ds, d.nesting ≤ room) (hparen : Avoids .openParen rest)
    (hat : Avoids .at rest) :
    Reads (directives item) ts rest fun r => r.map (Directive.map forget) = ds := by
  refine .remaining fun n hn => ?_
  have hlen := h.length_le fun us x hx => hx.starts.ne_nil
  refine reads_manyWhile (reads_directive hitem)
    (fun us d more hd => hd.1.starts.append.avoids (by decide)) hparen hat ?_
    (h.imp fun us d hmem hd => ⟨hd, hroom d hmem⟩) _ (by omega)
  rintro us d ⟨hd, -⟩
  cases hd
  rfl

end Items

/-! ## Selections -/

/-- What a field could go on with does not come next. -/
def EndsField (kinds : List TokenKind) : Prop :=
  Avoids .colon kinds ∧ Avoids .openParen kinds ∧ Avoids .at kinds ∧ Avoids .openBrace kinds

section Selections
variable {item : Parser (Value Span)} {inner : Parser (SelectionSet Span)} {room : Nat}
variable (hitem : ReadsItems item (Value.map forget)
  (fun us v => ValueForm false us v ∧ v.nesting ≤ room) fun _ => True)
variable (hinner : ReadsItems inner (SelectionSet.map forget)
  (fun us s => SelectionSetForm us s ∧ s.nesting ≤ room) fun _ => True)

theorem reads_typeCondition {t : Option (NamedType Unit)} (h : Perhaps TypeConditionForm ts t)
    (hrest : rest.head? ≠ some (.name "on")) :
    Reads typeCondition ts rest fun r => r.map (NamedType.map forget) = t := by
  cases h with
  | none =>
    refine .isKeyword (b := false) (by simpa using hrest) (.pure rfl)
  | some ht =>
    cases ht with
    | mk ht =>
      refine .isKeyword (b := true) (by simp) (.advance ?_)
      refine .bind_last (reads_namedType .inlineFragment ht) fun r hr => .pure ?_
      rw [Option.map_some, hr]

theorem reads_fieldName {a : Option (Name Unit)} {n : Name Unit} {us : List TokenKind}
    (ha : Perhaps AliasForm ts a) (hn : NameForm us n) (hrest : Avoids .colon rest) :
    Reads fieldName (ts ++ us) rest
      fun r => r.1.map (Name.map forget) = a ∧ r.2.map forget = n := by
  cases ha with
  | none =>
    refine .bind_last (reads_name .field hn) fun m hm => .notNext hrest (.pure ⟨rfl, hm⟩)
  | some ha =>
    obtain ⟨hfirst⟩ := ha
    rw [List.append_assoc]
    refine .bind (reads_name .field hfirst) fun m hm => .isNext rfl (.advance ?_)
    refine .bind_last (reads_name .field hn) fun m' hm' => .pure ⟨?_, hm'⟩
    rw [Option.map_some, hm]

include hinner in
theorem reads_optionalSelections {set : Option (SelectionSet Unit)}
    (h : Perhaps SelectionSetForm ts set) (hroom : ∀ s ∈ set, s.nesting ≤ room)
    (hrest : Avoids .openBrace rest) :
    Reads (optionalSelections inner) ts rest fun r => r.map (SelectionSet.map forget) = set := by
  cases h with
  | none => exact .notNext hrest (.pure rfl)
  | some hs =>
    have hhead : (ts ++ rest).head? = some (.punctuator .openBrace) := by
      rw [List.head?_append, hs.opens, Option.some_or]
    refine .isNext hhead (.bind_last (hinner _ _ _ ⟨hs, hroom _ rfl⟩ trivial) fun r hr => .pure ?_)
    rw [Option.map_some, hr]

include hitem hinner

theorem reads_field {a : Option (Name Unit)} {n : Name Unit} {as : List (Argument Unit)}
    {ds : List (Directive Unit)} {set : Option (SelectionSet Unit)}
    {us vs ws xs : List TokenKind} (ha : Perhaps AliasForm ts a) (hn : NameForm us n)
    (has : ArgumentsForm false vs as) (hds : DirectivesForm false ws ds)
    (hset : Perhaps SelectionSetForm xs set)
    (hroom : (Selection.field a n as ds set ()).nesting ≤ room) (hrest : EndsField rest) :
    Reads (field item inner) (ts ++ (us ++ (vs ++ (ws ++ xs)))) rest
      fun r => r.map forget = .field a n as ds set () := by
  obtain ⟨hroomAs, hroomDs, hroomSet⟩ := Selection.nesting_field_le.1 hroom
  obtain ⟨hcolon, hparen, hat, hbrace⟩ := hrest
  have avoidSet : ∀ p, p ≠ .openBrace → Avoids p rest → Avoids p (xs ++ rest) := fun p hp hr =>
    (hset.avoids (fun _ _ hx => hx.starts) (by simpa using hp)).append hr
  have avoidDs : ∀ p, p ≠ .at → Avoids p (xs ++ rest) → Avoids p (ws ++ xs ++ rest) := by
    intro p hp hr
    rw [List.append_assoc]
    exact (hds.avoids (fun _ _ hx => hx.starts) (by simpa using hp)).append hr
  have avoidAs : Avoids .colon (vs ++ (ws ++ xs) ++ rest) := by
    rw [List.append_assoc]
    exact (has.avoids (by decide)).append
      (avoidDs _ (by decide) (avoidSet _ (by decide) hcolon))
  rw [← List.append_assoc]
  refine .nextSpan fun s => .bind (reads_fieldName ha hn avoidAs) fun r hr =>
    .bind (reads_arguments hitem has hroomAs (avoidDs _ (by decide) (avoidSet _ (by decide) hparen)))
      fun as' has' =>
    .bind (reads_directives hitem hds hroomDs (avoidSet _ (by decide) hparen)
      (avoidSet _ (by decide) hat)) fun ds' hds' =>
    .bind_last (reads_optionalSelections hinner hset hroomSet hbrace) fun set' hset' =>
    .spanFrom fun i => .pure ?_
  rw [Selection.map_field, hr.1, hr.2, has', hds', hset']

omit hinner in
theorem reads_spread {n : Name Unit} {ds : List (Directive Unit)} {us : List TokenKind}
    (hn : NameForm ts n) (hon : n.value ≠ "on") (hds : DirectivesForm false us ds)
    (hroom : ∀ d ∈ ds, d.nesting ≤ room) (hrest : EndsField rest) :
    Reads (fragmentSelection item inner) (.punctuator .ellipsis :: (ts ++ us)) rest
      fun r => r.map forget = .spread ⟨n, ds, ()⟩ := by
  obtain ⟨-, hparen, hat, -⟩ := hrest
  refine .bind_token (reads_expect .ellipsis .fragmentSpread) fun s _ => ?_
  have hn' := hn
  cases hn' with
  | @mk t text ht =>
    have hnot : t ≠ .name "on" := by
      rintro rfl
      exact hon (Option.some.inj ht).symm
    refine .nextKind rfl ?_
    rw [if_pos ⟨by simpa using hnot, by simp [ht]⟩]
    refine .bind (reads_name .fragmentSpread hn) fun m hm =>
      .bind_last (reads_directives hitem hds hroom hparen hat) fun ds' hds' =>
      .spanFrom fun i => .pure ?_
    rw [Selection.map, FragmentSpread.map, hm, hds']

theorem reads_inlineFragment {t : Option (NamedType Unit)} {ds : List (Directive Unit)}
    {set : SelectionSet Unit} {us vs : List TokenKind} (ht : Perhaps TypeConditionForm ts t)
    (hds : DirectivesForm false us ds) (hset : SelectionSetForm vs set)
    (hroomDs : ∀ d ∈ ds, d.nesting ≤ room) (hroomSet : set.nesting ≤ room) :
    Reads (fragmentSelection item inner) (.punctuator .ellipsis :: (ts ++ (us ++ vs))) rest
      fun r => r.map forget = .inlineFragment t ds set () := by
  refine .bind_token (reads_expect .ellipsis .fragmentSpread) fun s _ => ?_
  have hopen : ∃ p, (us ++ vs ++ rest).head? = some (.punctuator p) := by
    cases hds with
    | nil =>
      obtain ⟨⟨-, -⟩⟩ := hset
      exact ⟨_, rfl⟩
    | cons hd _ =>
      cases hd
      exact ⟨_, rfl⟩
  obtain ⟨p, hp⟩ := hopen
  have hno : ¬ ((ts ++ (us ++ vs) ++ rest).head? ≠ some (.name "on") ∧
      ((ts ++ (us ++ vs) ++ rest).head?.bind TokenKind.nameText?).isSome) := by
    rintro ⟨hne, hsome⟩
    cases ht with
    | none =>
      rw [List.nil_append, hp] at hsome
      cases hsome
    | some ht =>
      cases ht
      exact hne rfl
  refine .nextKind rfl ?_
  rw [if_neg hno]
  refine .bind (reads_typeCondition ht (by rw [hp]; simp)) fun t' ht' =>
    .bind (reads_directives hitem hds hroomDs (hset.starts.append.avoids (by decide))
      (hset.starts.append.avoids (by decide))) fun ds' hds' =>
    .bind_last (hinner _ _ _ ⟨hset, hroomSet⟩ trivial) fun set' hset' => .spanFrom fun i => .pure ?_
  rw [Selection.map, ht', hds', hset']

theorem reads_selection :
    ReadsItems (selection item inner) (Selection.map forget)
      (fun us s => SelectionForm SelectionSetForm us s ∧ s.nesting ≤ room) EndsField := by
  rintro ts s rest ⟨h, hroom⟩ hrest
  cases h with
  | @field us vs ws xs ys a n as ds set ha hn has hds hset =>
    have hstart : Starts [] (us ++ (vs ++ (ws ++ (xs ++ ys)))) := by
      cases ha with
      | none => exact hn.starts.append
      | some ha => exact ha.starts.append
    exact .notNext (hstart.append.avoids (by simp))
      (reads_field hitem hinner ha hn has hds hset hroom hrest)
  | spread hn hon hds =>
    exact .isNext rfl (reads_spread hitem hn hon hds (deepest_le.1 hroom) hrest)
  | inlineFragment ht hds hset =>
    obtain ⟨hd, hs⟩ := Nat.max_le.1 hroom
    exact .isNext rfl (reads_inlineFragment hitem hinner ht hds hset (deepest_le.1 hd) hs)

end Selections

theorem endsField_of_selection {S : List TokenKind → SelectionSet Unit → Prop}
    {s : Selection Unit} (h : SelectionForm S ts s) (more : List TokenKind) :
    EndsField (ts ++ more) :=
  have hs := h.starts.append
  ⟨hs.avoids (by decide), hs.avoids (by decide), hs.avoids (by decide), hs.avoids (by decide)⟩

theorem reads_selectionSet (room : Nat) :
    ReadsItems (selectionSet room) (SelectionSet.map forget)
      (fun us s => SelectionSetForm us s ∧ s.nesting ≤ room) fun _ => True := by
  induction room with
  | zero =>
    rintro ts ⟨items, _⟩ rest ⟨-, hroom⟩ _
    exact absurd hroom (Nat.not_succ_le_zero _)
  | succ room ih =>
    rintro ts s rest ⟨h, hroom⟩ _
    obtain ⟨hitems⟩ := h
    cases hitems with
    | mk hm hne =>
      rw [SelectionSet.nesting, Selection.nestingAll_eq] at hroom
      have hd := deepest_le.1 (Nat.le_of_succ_le_succ hroom)
      refine .bind_last (reads_nonempty .selectionSet .selectionSet
        (reads_selection (reads_value .anyValue room) ih)
        (fun us s more hs => endsField_of_selection hs.1 more)
        (fun more => ⟨.cons (by decide) _, .cons (by decide) _, .cons (by decide) _,
          .cons (by decide) _⟩)
        (fun us s hs => hs.1.starts) (by decide)
        (.mk (hm.imp fun us s hmem hs => ⟨hs, hd s hmem⟩) hne)) fun r hr => .spanFrom fun i => ?_
      refine .pure ?_
      rw [SelectionSet.map, Selection.mapList_eq, hr]

/-! ## Definitions -/

/-- What a default value or a directive starts with does not come next. -/
def EndsVariable (kinds : List TokenKind) : Prop :=
  Avoids .bang kinds ∧ Avoids .equals kinds ∧ Avoids .at kinds ∧ Avoids .openParen kinds

theorem noString_of_variable {v : Variable Unit} (h : VariableForm ts v)
    (more : List TokenKind) : NoString (ts ++ more) := by
  obtain ⟨-⟩ := h
  intro raw heq
  cases heq

theorem reads_defaultValue {v : Option (Value Unit)} (h : Perhaps DefaultForm ts v)
    (hroom : ∀ w ∈ v, w.nesting ≤ maxDepth) (hrest : Avoids .equals rest) :
    Reads defaultValue ts rest fun r => r.map (Value.map forget) = v := by
  cases h with
  | none => exact .notNext hrest (.pure rfl)
  | some hv =>
    obtain ⟨hv⟩ := hv
    refine .isNext rfl (.advance (.bind_last (reads_value .defaultValue maxDepth _ _ _
      ⟨hv, hroom _ rfl⟩ trivial) fun r hr => .pure ?_))
    rw [Option.map_some, hr]

theorem VariableDefinition.nesting_le {v : VariableDefinition Unit} {m : Nat} :
    v.nesting ≤ m ↔ v.type.nesting ≤ m ∧ (∀ w ∈ v.default, w.nesting ≤ m) ∧
      ∀ d ∈ v.directives, d.nesting ≤ m := by
  obtain ⟨_, _, type, default, directives, _⟩ := v
  rw [VariableDefinition.nesting, Nat.max_le, Nat.max_le, deepest_le, and_assoc]
  cases default <;> simp

theorem reads_variableDefinition :
    ReadsItems variableDefinition (VariableDefinition.map forget)
      (fun us v => VariableDefinitionForm us v ∧ v.nesting ≤ maxDepth) EndsVariable := by
  rintro ts v rest ⟨h, hroom⟩ ⟨hbang, hequals, hat, hparen⟩
  obtain ⟨htype, hdefault, hdirectives⟩ := VariableDefinition.nesting_le.1 hroom
  cases h with
  | @mk us vs ws xs ys description w t d ds hd hv ht he hds =>
    have avoidDs : ∀ p, p ≠ .at → Avoids p rest → Avoids p (ys ++ rest) := fun p hp hr =>
      (hds.avoids (fun _ _ hx => hx.starts) (by simpa using hp)).append hr
    have avoidDefault : Avoids .bang (xs ++ ys ++ rest) := by
      rw [List.append_assoc]
      exact (he.avoids (fun _ _ hx => hx.starts) (by decide)).append
        (avoidDs _ (by decide) hbang)
    refine .nextSpan fun s => .bind (reads_description hd (by
      rw [List.append_assoc]
      exact noString_of_variable hv _)) fun r hr => ?_
    refine .bind (reads_varRef hv) fun w' hw =>
      .bind_token (reads_expect .colon .variableDefinition) fun _ _ =>
      .bind (reads_typeRef maxDepth _ _ _ ⟨ht, htype⟩ avoidDefault) fun t' ht' =>
      .bind (reads_defaultValue he hdefault (avoidDs _ (by decide) hequals)) fun d' hd' =>
      .bind_last (reads_directives (reads_value .variableDirective maxDepth) hds hdirectives
        hparen hat) fun ds' hds' => .spanFrom fun i => .pure ?_
    rw [VariableDefinition.map, hr, hw, ht', hd', hds']

theorem endsVariable_of_definition {v : VariableDefinition Unit}
    (h : VariableDefinitionForm ts v) (more : List TokenKind) : EndsVariable (ts ++ more) :=
  have hs := h.starts.append
  ⟨hs.avoids (by decide), hs.avoids (by decide), hs.avoids (by decide), hs.avoids (by decide)⟩

theorem reads_variableDefinitions {vs : List (VariableDefinition Unit)}
    (h : Listed .openParen .closeParen VariableDefinitionForm ts vs)
    (hroom : ∀ v ∈ vs, v.nesting ≤ maxDepth) (hrest : Avoids .openParen rest) :
    Reads variableDefinitions ts rest
      fun r => r.map (VariableDefinition.map forget) = vs := by
  cases h with
  | absent => exact .notNext hrest (.pure rfl)
  | present h =>
    cases h with
    | mk hm hne =>
      refine .isNext rfl (.bind_last (reads_nonempty .variableDefinitions .variableDefinition
        reads_variableDefinition (fun us v more hv => endsVariable_of_definition hv.1 more)
        (fun more => ⟨.cons (by decide) _, .cons (by decide) _, .cons (by decide) _,
          .cons (by decide) _⟩)
        (fun us v hv => hv.1.starts) (by decide)
        (.mk (hm.imp fun us v hmem hv => ⟨hv, hroom v hmem⟩) hne)) fun r hr => .pure hr)

/-- What an operation goes on with after its name. -/
def Resumes (kinds : List TokenKind) : Prop :=
  ∃ p ∈ [Punctuator.openParen, .at, .openBrace], kinds.head? = some (.punctuator p)

theorem resumes {vs : List (VariableDefinition Unit)} {ds : List (Directive Unit)}
    {set : SelectionSet Unit} {us ws : List TokenKind}
    (hvs : Listed .openParen .closeParen VariableDefinitionForm ts vs)
    (hds : DirectivesForm false us ds) (hset : SelectionSetForm ws set) :
    Resumes (ts ++ (us ++ ws) ++ rest) := by
  cases hvs with
  | absent =>
    cases hds with
    | nil =>
      obtain ⟨⟨-, -⟩⟩ := hset
      exact ⟨.openBrace, by simp, rfl⟩
    | cons hd _ =>
      obtain ⟨-, -⟩ := hd
      exact ⟨.at, by simp, rfl⟩
  | present hvs =>
    obtain ⟨-, -⟩ := hvs
    exact ⟨.openParen, by simp, rfl⟩

theorem reads_operationName {n : Option (Name Unit)} (h : Perhaps NameForm ts n)
    (hrest : Resumes rest) :
    Reads operationName ts rest fun r => r.map (Name.map forget) = n := by
  cases h with
  | none =>
    obtain ⟨p, hp, hhead⟩ := hrest
    have other : ∀ q, p ≠ q → Avoids q ([] ++ rest) := by
      intro q hq
      simpa [Avoids, hhead] using hq
    simp only [List.mem_cons, List.not_mem_nil, or_false] at hp
    rcases hp with rfl | rfl | rfl
    · exact .isNext hhead (.notNext (other _ (by decide)) (.notNext (other _ (by decide))
        (.pure rfl)))
    · exact .notNext (other _ (by decide)) (.isNext hhead (.notNext (other _ (by decide))
        (.pure rfl)))
    · exact .notNext (other _ (by decide)) (.notNext (other _ (by decide)) (.isNext hhead
        (.pure rfl)))
  | some hn =>
    have hs : Starts [] (ts ++ rest) := hn.starts.append
    refine .notNext (hs.avoids (by simp)) (.notNext (hs.avoids (by simp))
      (.notNext (hs.avoids (by simp)) (.bind_last (reads_name .operationDefinition hn)
        fun m hm => .pure ?_)))
    rw [Option.map_some, hm]

section Definitions
variable {description : Option (StringValue Span)} {start : Position}
variable {ds : List (Directive Unit)} {set : SelectionSet Unit} {us vs ws : List TokenKind}

theorem Operation.nesting_le {o : Operation Unit} {m : Nat} :
    o.nesting ≤ m ↔ (∀ v ∈ o.variableDefinitions, v.nesting ≤ m) ∧
      (∀ d ∈ o.directives, d.nesting ≤ m) ∧ o.selections.nesting ≤ m := by
  rw [Operation.nesting, Nat.max_le, Nat.max_le, deepest_le, deepest_le, and_assoc]

theorem Fragment.nesting_le {f : Fragment Unit} {m : Nat} :
    f.nesting ≤ m ↔ (∀ d ∈ f.directives, d.nesting ≤ m) ∧ f.selections.nesting ≤ m := by
  rw [Fragment.nesting, Nat.max_le, deepest_le]

theorem reads_operation {kind : OperationKind} {name : Option (Name Unit)}
    {definitions : List (VariableDefinition Unit)} (hname : Perhaps NameForm ts name)
    (hdefs : Listed .openParen .closeParen VariableDefinitionForm us definitions)
    (hds : DirectivesForm false vs ds) (hset : SelectionSetForm ws set)
    (hroom : (Operation.mk (description.map (StringValue.map forget)) kind name definitions ds
      set ()).nesting ≤ maxDepth) :
    Reads (operation start description kind)
      (.name kind.keyword :: (ts ++ (us ++ (vs ++ ws)))) rest fun r => r.map forget =
        ⟨description.map (StringValue.map forget), kind, name, definitions, ds, set, ()⟩ := by
  obtain ⟨hroomDefs, hroomDs, hroomSet⟩ := Operation.nesting_le.1 hroom
  have avoidSet : ∀ p, p ≠ .openBrace → Avoids p (ws ++ rest) := fun p hp =>
    hset.starts.append.avoids (by simpa using hp)
  have avoidDs : Avoids .openParen (vs ++ ws ++ rest) := by
    rw [List.append_assoc]
    exact (hds.avoids (fun _ _ hx => hx.starts) (by decide)).append (avoidSet _ (by decide))
  refine .advance (.bind (reads_operationName hname (resumes hdefs hds hset)) fun n hn =>
    .bind (reads_variableDefinitions hdefs hroomDefs avoidDs) fun defs hdefs' =>
    .bind (reads_directives (reads_value .anyValue maxDepth) hds hroomDs (avoidSet _ (by decide))
      (avoidSet _ (by decide))) fun ds' hds' =>
    .bind_last (reads_selectionSet maxDepth _ _ _ ⟨hset, hroomSet⟩ trivial) fun set' hset' =>
    .spanFrom fun i => .pure ?_)
  rw [Operation.map, hn, hdefs', hds', hset']

theorem reads_shortQuery (hset : SelectionSetForm ws set) (hroom : set.nesting ≤ maxDepth) :
    Reads (shortQuery start) ws rest fun r => r.map forget =
      ⟨none, .query, none, [], [], set, ()⟩ := by
  refine .bind_last (reads_selectionSet maxDepth _ _ _ ⟨hset, hroom⟩ trivial) fun set' hset' =>
    .spanFrom fun i => .pure ?_
  rw [Operation.map, hset']
  rfl

theorem reads_fragment {n : Name Unit} {t : NamedType Unit} (hn : NameForm ts n)
    (hon : n.value ≠ "on") (ht : TypeConditionForm us t) (hds : DirectivesForm false vs ds)
    (hset : SelectionSetForm ws set)
    (hroom : (Fragment.mk (description.map (StringValue.map forget)) n t ds set ()).nesting ≤
      maxDepth) :
    Reads (fragment start description) (.name "fragment" :: (ts ++ (us ++ (vs ++ ws)))) rest
      fun r => r.map forget = ⟨description.map (StringValue.map forget), n, t, ds, set, ()⟩ := by
  obtain ⟨hroomDs, hroomSet⟩ := Fragment.nesting_le.1 hroom
  have avoidSet : ∀ p, p ≠ .openBrace → Avoids p (ws ++ rest) := fun p hp =>
    hset.starts.append.avoids (by simpa using hp)
  have hnot : ((ts ++ (us ++ (vs ++ ws)) ++ rest).head? == some (.name "on")) = false := by
    obtain ⟨ht⟩ := hn
    simp only [List.cons_append, List.head?_cons, beq_eq_false_iff_ne]
    rintro ⟨⟩
    exact hon (Option.some.inj ht).symm
  obtain ⟨ht⟩ := ht
  refine .advance (.isKeyword hnot (.bind (reads_name .fragmentDefinition hn) fun m hm =>
    .bind_token (reads_expectKeyword "on" .fragmentDefinition) fun _ _ =>
    .bind (reads_namedType .fragmentDefinition ht) fun t' ht' =>
    .bind (reads_directives (reads_value .anyValue maxDepth) hds hroomDs (avoidSet _ (by decide))
      (avoidSet _ (by decide))) fun ds' hds' =>
    .bind_last (reads_selectionSet maxDepth _ _ _ ⟨hset, hroomSet⟩ trivial) fun set' hset' =>
    .spanFrom fun i => .pure ?_))
  rw [Fragment.map, hm, ht', hds', hset']

end Definitions

theorem ofKeyword_keyword (kind : OperationKind) :
    OperationKind.ofKeyword? kind.keyword = some kind := by
  cases kind <;> rfl

theorem noString_of_keyword (text : String) (more : List TokenKind) :
    NoString (.name text :: more) := by
  intro raw heq
  cases heq

theorem reads_definition :
    ReadsItems definition (Definition.map forget)
      (fun us d => DefinitionForm us d ∧ d.nesting ≤ maxDepth) fun _ => True := by
  rintro ts d rest ⟨h, hroom⟩ _
  cases h with
  | operation ho =>
    cases ho with
    | short hset =>
      have hhead : (ts ++ rest).head? = some (.punctuator .openBrace) := by
        rw [List.head?_append, hset.opens, Option.some_or]
      have hno : NoString (ts ++ rest) := by
        intro raw heq
        cases hhead.symm.trans heq
      have hdescription : Reads description [] (ts ++ rest) fun r => r = none :=
        (reads_description .none hno).mono fun r hr => Option.map_eq_none_iff.1 hr
      refine .nextSpan fun s => .bind hdescription fun r hr => .nextKind hhead ?_
      subst hr
      refine .bind_last (reads_shortQuery hset (Operation.nesting_le.1 hroom).2.2) fun o ho =>
        .pure ?_
      rw [Definition.map, ho]
    | @full us vs ws xs ys d kind name defs ds set hd hname hdefs hds hset =>
      refine .nextSpan fun s => .bind (reads_description hd (noString_of_keyword _ _))
        fun r hr => .nextKind (k := some (.name kind.keyword)) rfl ?_
      subst hr
      have hkey : kind.keyword ≠ "fragment" := by cases kind <;> decide
      simp only [if_neg hkey, ofKeyword_keyword]
      refine .bind_last (reads_operation hname hdefs hds hset hroom) fun o ho => .pure ?_
      rw [Definition.map, ho]
  | fragment hf =>
    cases hf with
    | @mk us vs ws xs ys d n t ds set hd hn hon ht hds hset =>
      refine .nextSpan fun s => .bind (reads_description hd (noString_of_keyword _ _))
        fun r hr => .nextKind rfl ?_
      subst hr
      refine .bind_last (reads_fragment hn hon ht hds hset hroom) fun f hf => .pure ?_
      rw [Definition.map, hf]

/-! ## Documents -/

theorem reads_definitions {ds : List (Definition Unit)} (h : Many DefinitionForm ts ds)
    (hroom : ∀ d ∈ ds, d.nesting ≤ maxDepth) (n : Nat) (hn : ds.length < n) :
    Reads (definitions n) ts [.endOfInput] fun r => r.map (Definition.map forget) = ds := by
  induction h generalizing n with
  | nil =>
    cases n with
    | zero => exact absurd hn (Nat.not_lt_zero _)
    | succ n => exact .atEnd rfl (.pure rfl)
  | @cons us vs d ds hd hds ih =>
    cases n with
    | zero => exact absurd hn (Nat.not_lt_zero _)
    | succ n =>
      obtain ⟨hroomD, hroomDs⟩ := List.forall_mem_cons.1 hroom
      have hend : endsHere (us ++ vs ++ [.endOfInput]) = false := by
        obtain ⟨t, ws, ht, hne, -⟩ := hd.starts
        simpa [endsHere, ht] using hne
      refine .atEnd hend (.bind (reads_definition _ _ _ ⟨hd, hroomD⟩ trivial) fun d' hd' =>
        .bind_last (ih hroomDs n (Nat.lt_of_succ_lt_succ hn)) fun ds' hds' => .pure ?_)
      rw [List.map_cons, hd', hds']

theorem reads_document {d : Document Unit} (h : DocumentForm ts d) (hroom : d.nesting ≤ maxDepth) :
    Reads document ts [.endOfInput] fun r => r.map forget = d := by
  obtain ⟨hm, hne⟩ := h
  have hlen := hm.length_le fun us d hd => hd.starts.ne_nil
  have hend : endsHere (ts ++ [.endOfInput]) = false := by
    cases hm with
    | nil => exact absurd rfl hne
    | cons hd _ =>
      obtain ⟨t, us, ht, hnot, -⟩ := hd.starts
      simpa [endsHere, ht] using hnot
  refine .atEnd hend (.remaining fun n hn => .bind_last (reads_definitions hm
    (deepest_le.1 hroom) (n + 1) (by omega)) fun ds hds => .nextSpan fun s => .pure ?_)
  rw [Document.map, hds]

/-! ## Whole values and types -/

theorem reads_expectEnd (production : Production) :
    Reads (expectEnd production) [] [.endOfInput] fun _ => True :=
  .atEnd rfl (.pure trivial)

theorem reads_wholeValue (context : ValueContext) {v : Value Unit}
    (h : ValueForm (context != .anyValue) ts v) (hroom : v.nesting ≤ maxDepth) :
    Reads (wholeValue context) ts [.endOfInput] fun r => r.map forget = v :=
  .bind_last (reads_value context maxDepth _ _ _ ⟨h, hroom⟩ trivial) fun _ hw =>
    .bind_last (reads_expectEnd .value) fun _ _ => .pure hw

theorem reads_wholeType {t : TypeRef Unit} (h : TypeForm ts t) (hroom : t.nesting ≤ maxDepth) :
    Reads wholeType ts [.endOfInput] fun r => r.map forget = t :=
  .bind_last (reads_typeRef maxDepth _ _ _ ⟨h, hroom⟩ (.end .bang)) fun _ hr =>
    .bind_last (reads_expectEnd .namedType) fun _ _ => .pure hr

end QueryDoc.Parser
