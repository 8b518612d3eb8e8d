import QueryDoc.Token
import QueryDoc.Syntax.Document

/-!
# The grammar of executable documents

Which lists of token kinds derive which trees, said without a parser. Trees
carry no information here. A derivation is built from the productions alone: no
token is looked at before it is read, nothing bounds the nesting, and there is no
state. Productions that occur with and without variables take a flag, which is
set where values must be constant. Repeated and optional parts are combinators,
so the recursive productions, values and selection sets, pass through them.
-/
namespace QueryDoc.Grammar

section Combinators
variable {β : Type}

/-- Any number of items one after the other. -/
inductive Many (P : List TokenKind → β → Prop) : List TokenKind → List β → Prop
  | nil : Many P [] []
  | cons {ts us : List TokenKind} {x : β} {xs : List β} :
      P ts x → Many P us xs → Many P (ts ++ us) (x :: xs)

/-- One item or none. -/
inductive Perhaps (P : List TokenKind → β → Prop) : List TokenKind → Option β → Prop
  | none : Perhaps P [] none
  | some {ts : List TokenKind} {x : β} : P ts x → Perhaps P ts (some x)

/-- One item or more between delimiters. -/
inductive Enclosed (opening closing : Punctuator) (P : List TokenKind → β → Prop) :
    List TokenKind → List β → Prop
  | mk {ts : List TokenKind} {xs : List β} : Many P ts xs → xs ≠ [] →
      Enclosed opening closing P (.punctuator opening :: (ts ++ [.punctuator closing])) xs

/-- One item or more between delimiters, or nothing at all. -/
inductive Listed (opening closing : Punctuator) (P : List TokenKind → β → Prop) :
    List TokenKind → List β → Prop
  | absent : Listed opening closing P [] []
  | present {ts : List TokenKind} {xs : List β} :
      Enclosed opening closing P ts xs → Listed opening closing P ts xs

end Combinators

/-- A name; the literals `true`, `false` and `null` are names too. -/
inductive NameForm : List TokenKind → Name Unit → Prop
  | mk {t : TokenKind} {text : String} : t.nameText? = some text → NameForm [t] ⟨text, ()⟩

/-- A string literal whose contents decode. -/
inductive StringForm : List TokenKind → StringValue Unit → Prop
  | mk {raw : String} {cs : List Char} : StringLiteral.decode raw.toList = .ok cs →
      StringForm [.string raw] ⟨String.ofList cs, StringLiteral.isBlock raw.toList, ()⟩

inductive VariableForm : List TokenKind → Variable Unit → Prop
  | mk {ts : List TokenKind} {n : Name Unit} :
      NameForm ts n → VariableForm (.punctuator .dollar :: ts) ⟨n, ()⟩

/-! ## Values -/

inductive ObjectFieldForm (V : List TokenKind → Value Unit → Prop) :
    List TokenKind → ObjectField Unit → Prop
  | mk {ts us : List TokenKind} {n : Name Unit} {v : Value Unit} : NameForm ts n → V us v →
      ObjectFieldForm V (ts ++ .punctuator .colon :: us) (.mk n v ())

/-- A value, without variables if the flag is set. -/
inductive ValueForm (constant : Bool) : List TokenKind → Value Unit → Prop
  | var {ts : List TokenKind} {v : Variable Unit} :
      constant = false → VariableForm ts v → ValueForm constant ts (.variable v)
  | int {text : String} : ValueForm constant [.int text] (.int text ())
  | float {text : String} : ValueForm constant [.float text] (.float text ())
  | string {ts : List TokenKind} {s : StringValue Unit} :
      StringForm ts s → ValueForm constant ts (.string s)
  | boolean {b : Bool} : ValueForm constant [.boolean b] (.boolean b ())
  | null : ValueForm constant [.null] (.null ())
  | enum {text : String} : ValueForm constant [.name text] (.enum text ())
  | list {ts : List TokenKind} {vs : List (Value Unit)} : Many (ValueForm constant) ts vs →
      ValueForm constant (.punctuator .openBracket :: (ts ++ [.punctuator .closeBracket]))
        (.list vs ())
  | object {ts : List TokenKind} {fs : List (ObjectField Unit)} :
      Many (ObjectFieldForm (ValueForm constant)) ts fs →
      ValueForm constant (.punctuator .openBrace :: (ts ++ [.punctuator .closeBrace]))
        (.object fs ())

/-! ## Types -/

inductive NamedTypeForm : List TokenKind → NamedType Unit → Prop
  | mk {ts : List TokenKind} {n : Name Unit} : NameForm ts n → NamedTypeForm ts ⟨n, ()⟩

mutual

inductive NullableForm : List TokenKind → NullableType Unit → Prop
  | named {ts : List TokenKind} {t : NamedType Unit} :
      NamedTypeForm ts t → NullableForm ts (.named t)
  | list {ts : List TokenKind} {t : TypeRef Unit} : TypeForm ts t →
      NullableForm (.punctuator .openBracket :: (ts ++ [.punctuator .closeBracket])) (.list t ())

inductive TypeForm : List TokenKind → TypeRef Unit → Prop
  | nullable {ts : List TokenKind} {t : NullableType Unit} :
      NullableForm ts t → TypeForm ts (.nullable t)
  | nonNull {ts : List TokenKind} {t : NullableType Unit} :
      NullableForm ts t → TypeForm (ts ++ [.punctuator .bang]) (.nonNull t ())

end

/-- A named type after the word that introduces it. -/
inductive TypeConditionForm : List TokenKind → NamedType Unit → Prop
  | mk {ts : List TokenKind} {t : NamedType Unit} :
      NamedTypeForm ts t → TypeConditionForm (.name "on" :: ts) t

/-! ## Selections -/

inductive ArgumentForm (constant : Bool) : List TokenKind → Argument Unit → Prop
  | mk {ts us : List TokenKind} {n : Name Unit} {v : Value Unit} :
      NameForm ts n → ValueForm constant us v →
      ArgumentForm constant (ts ++ .punctuator .colon :: us) ⟨n, v, ()⟩

def ArgumentsForm (constant : Bool) : List TokenKind → List (Argument Unit) → Prop :=
  Listed .openParen .closeParen (ArgumentForm constant)

inductive DirectiveForm (constant : Bool) : List TokenKind → Directive Unit → Prop
  | mk {ts us : List TokenKind} {n : Name Unit} {as : List (Argument Unit)} :
      NameForm ts n → ArgumentsForm constant us as →
      DirectiveForm constant (.punctuator .at :: (ts ++ us)) ⟨n, as, ()⟩

def DirectivesForm (constant : Bool) : List TokenKind → List (Directive Unit) → Prop :=
  Many (DirectiveForm constant)

inductive AliasForm : List TokenKind → Name Unit → Prop
  | mk {ts : List TokenKind} {n : Name Unit} :
      NameForm ts n → AliasForm (ts ++ [.punctuator .colon]) n

/-- A selection, given what a selection set is. A fragment that is spread is not
named `on`, for that word introduces a type. -/
inductive SelectionForm (S : List TokenKind → SelectionSet Unit → Prop) :
    List TokenKind → Selection Unit → Prop
  | field {ts us vs ws xs : List TokenKind} {a : Option (Name Unit)} {n : Name Unit}
      {as : List (Argument Unit)} {ds : List (Directive Unit)} {set : Option (SelectionSet Unit)} :
      Perhaps AliasForm ts a → NameForm us n → ArgumentsForm false vs as →
      DirectivesForm false ws ds → Perhaps S xs set →
      SelectionForm S (ts ++ (us ++ (vs ++ (ws ++ xs)))) (.field a n as ds set ())
  | spread {ts us : List TokenKind} {n : Name Unit} {ds : List (Directive Unit)} :
      NameForm ts n → n.value ≠ "on" → DirectivesForm false us ds →
      SelectionForm S (.punctuator .ellipsis :: (ts ++ us)) (.spread ⟨n, ds, ()⟩)
  | inlineFragment {ts us vs : List TokenKind} {t : Option (NamedType Unit)}
      {ds : List (Directive Unit)} {set : SelectionSet Unit} :
      Perhaps TypeConditionForm ts t → DirectivesForm false us ds → S vs set →
      SelectionForm S (.punctuator .ellipsis :: (ts ++ (us ++ vs))) (.inlineFragment t ds set ())

inductive SelectionSetForm : List TokenKind → SelectionSet Unit → Prop
  | mk {ts : List TokenKind} {items : List (Selection Unit)} :
      Enclosed .openBrace .closeBrace (SelectionForm SelectionSetForm) ts items →
      SelectionSetForm ts (.mk items ())

/-! ## Documents -/

/-- A constant after an equals sign. -/
inductive DefaultForm : List TokenKind → Value Unit → Prop
  | mk {ts : List TokenKind} {v : Value Unit} :
      ValueForm true ts v → DefaultForm (.punctuator .equals :: ts) v

inductive VariableDefinitionForm : List TokenKind → VariableDefinition Unit → Prop
  | mk {ts us vs ws xs : List TokenKind} {description : Option (StringValue Unit)}
      {v : Variable Unit} {t : TypeRef Unit} {d : Option (Value Unit)}
      {ds : List (Directive Unit)} :
      Perhaps StringForm ts description → VariableForm us v → TypeForm vs t →
      Perhaps DefaultForm ws d → DirectivesForm true xs ds →
      VariableDefinitionForm (ts ++ (us ++ .punctuator .colon :: (vs ++ (ws ++ xs))))
        ⟨description, v, t, d, ds, ()⟩

/-- An operation; a selection set alone is a query, and has no description. -/
inductive OperationForm : List TokenKind → Operation Unit → Prop
  | short {ts : List TokenKind} {set : SelectionSet Unit} :
      SelectionSetForm ts set → OperationForm ts ⟨none, .query, none, [], [], set, ()⟩
  | full {ts us vs ws xs : List TokenKind} {description : Option (StringValue Unit)}
      {kind : OperationKind} {name : Option (Name Unit)}
      {definitions : List (VariableDefinition Unit)} {ds : List (Directive Unit)}
      {set : SelectionSet Unit} :
      Perhaps StringForm ts description → Perhaps NameForm us name →
      Listed .openParen .closeParen VariableDefinitionForm vs definitions →
      DirectivesForm false ws ds → SelectionSetForm xs set →
      OperationForm (ts ++ .name kind.keyword :: (us ++ (vs ++ (ws ++ xs))))
        ⟨description, kind, name, definitions, ds, set, ()⟩

inductive FragmentForm : List TokenKind → Fragment Unit → Prop
  | mk {ts us vs ws xs : List TokenKind} {description : Option (StringValue Unit)}
      {n : Name Unit} {t : NamedType Unit} {ds : List (Directive Unit)}
      {set : SelectionSet Unit} :
      Perhaps StringForm ts description → NameForm us n → n.value ≠ "on" →
      TypeConditionForm vs t → DirectivesForm false ws ds → SelectionSetForm xs set →
      FragmentForm (ts ++ .name "fragment" :: (us ++ (vs ++ (ws ++ xs))))
        ⟨description, n, t, ds, set, ()⟩

inductive DefinitionForm : List TokenKind → Definition Unit → Prop
  | operation {ts : List TokenKind} {o : Operation Unit} :
      OperationForm ts o → DefinitionForm ts (.operation o)
  | fragment {ts : List TokenKind} {f : Fragment Unit} :
      FragmentForm ts f → DefinitionForm ts (.fragment f)

inductive DocumentForm : List TokenKind → Document Unit → Prop
  | mk {ts : List TokenKind} {ds : List (Definition Unit)} :
      Many DefinitionForm ts ds → ds ≠ [] → DocumentForm ts ⟨ds, ()⟩

end QueryDoc.Grammar
