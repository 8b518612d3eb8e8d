import QueryDoc.Proofs.Grammar.Shape
import QueryDoc.Proofs.StringLiteral.Quote
import Mathlib.Computability.Language

/-!
# The languages of the productions

The lists of tokens from which a production derives anything form a language, and
the productions are equations between these languages: a sequence is a product, a
repeated part a star, an optional part a sum with the empty list. The products are
bracketed to the right, in the order in which their parts are read.

A parser that decides on its next token needs three facts about a language: that it
is inhabited, which tokens its words can start with, and which they cannot.
-/
namespace QueryDoc.Grammar
open Computability

variable {β γ : Type}

/-- The lists of tokens from which something is derived. -/
def words (P : List TokenKind → β → Prop) : Language TokenKind := {ts | ∃ x, P ts x}

/-- One token of a certain sort. -/
def single (sort : TokenKind → Prop) : Language TokenKind := {ts | ∃ t, sort t ∧ ts = [t]}

/-- One token. -/
def token (t : TokenKind) : Language TokenKind := single (· = t)

/-- A punctuator. -/
abbrev mark (p : Punctuator) : Language TokenKind := token (.punctuator p)

section Membership
variable {P : List TokenKind → β → Prop} {L M : Language TokenKind}
variable {sort : TokenKind → Prop} {t : TokenKind} {ts us : List TokenKind}

theorem mem_words {x : β} (h : P ts x) : ts ∈ words P := ⟨x, h⟩

/-- The trees do not matter, as long as there are any. -/
theorem words_congr {Q : List TokenKind → γ → Prop} (hP : ∀ ts x, P ts x → ∃ y, Q ts y)
    (hQ : ∀ ts y, Q ts y → ∃ x, P ts x) : words P = words Q := by
  ext ts
  exact ⟨fun ⟨x, hx⟩ => hP ts x hx, fun ⟨y, hy⟩ => hQ ts y hy⟩

theorem mem_single : ts ∈ single sort ↔ ∃ t, sort t ∧ ts = [t] := Iff.rfl

theorem mem_token : ts ∈ token t ↔ ts = [t] := by simp [token, mem_single]

theorem mem_single_mul : ts ∈ single sort * L ↔ ∃ t, sort t ∧ ∃ us ∈ L, ts = t :: us := by
  rw [Language.mem_mul]
  constructor
  · rintro ⟨_, ⟨t, ht, rfl⟩, us, hu, rfl⟩
    exact ⟨t, ht, us, hu, rfl⟩
  · rintro ⟨t, ht, us, hu, rfl⟩
    exact ⟨[t], ⟨t, ht, rfl⟩, us, hu, rfl⟩

theorem mem_token_mul : ts ∈ token t * L ↔ ∃ us ∈ L, ts = t :: us := by
  rw [token, mem_single_mul]
  simp

/-- A star holds the empty list and the words that start with a word of the
language. -/
theorem mem_star : ts ∈ L∗ ↔ ts = [] ∨ ts ∈ L * L∗ := by
  rw [← Language.mem_one, ← Language.mem_add, Language.one_add_self_mul_kstar_eq_kstar]

theorem mem_optional : ts ∈ 1 + L ↔ ts = [] ∨ ts ∈ L := by
  rw [Language.mem_add, Language.mem_one]

theorem mul_optional_mul : (1 + M) * L = L + M * L := by rw [add_mul, one_mul]

end Membership

/-! ## Languages that are not empty -/

/-- The language has a word. -/
class Spoken (L : Language TokenKind) : Prop where
  exists_mem : ∃ ts, ts ∈ L

section Spoken
variable {L M : Language TokenKind}

instance : Spoken 1 := ⟨[], Language.nil_mem_one⟩

instance (t : TokenKind) : Spoken (token t) := ⟨[t], mem_token.2 rfl⟩

instance : Spoken (L∗) := ⟨[], Language.nil_mem_kstar L⟩

instance : Spoken (1 + M) := ⟨[], .inl Language.nil_mem_one⟩

instance [hL : Spoken L] : Spoken (L + M) := by
  obtain ⟨ts, ht⟩ := hL.exists_mem
  exact ⟨ts, .inl ht⟩

instance [hL : Spoken L] [hM : Spoken M] : Spoken (L * M) := by
  obtain ⟨ts, ht⟩ := hL.exists_mem
  obtain ⟨us, hu⟩ := hM.exists_mem
  exact ⟨ts ++ us, Language.append_mem_mul ht hu⟩

end Spoken

/-! ## First tokens -/

/-- Every word starts with one of certain punctuators. -/
def Leads (ps : List Punctuator) (L : Language TokenKind) : Prop :=
  ∀ ts ∈ L, ∃ p ∈ ps, ts.head? = some (.punctuator p)

/-- No word starts with one of certain punctuators. -/
def Shuns (ps : List Punctuator) (L : Language TokenKind) : Prop :=
  ∀ ts ∈ L, ∀ p ∈ ps, Avoids p ts

section First
variable {ps qs : List Punctuator} {L M : Language TokenKind}

theorem Leads.mono (h : Leads ps L) (hsub : ∀ p ∈ ps, p ∈ qs) : Leads qs L := by
  intro ts ht
  obtain ⟨p, hp, hhead⟩ := h ts ht
  exact ⟨p, hsub p hp, hhead⟩

theorem Leads.mark {p : Punctuator} (hp : p ∈ ps) : Leads ps (mark p) := by
  intro ts ht
  obtain rfl := mem_token.1 ht
  exact ⟨p, hp, rfl⟩

theorem Leads.mul (h : Leads ps L) : Leads ps (L * M) := by
  rintro _ ⟨ts, ht, us, -, rfl⟩
  obtain ⟨p, hp, hhead⟩ := h ts ht
  exact ⟨p, hp, by simp [List.head?_append, hhead]⟩

theorem Leads.mark_mul {p : Punctuator} (hp : p ∈ ps) : Leads ps (Grammar.mark p * L) :=
  (Leads.mark hp).mul

theorem Leads.optional_mul (hM : Leads ps M) (hL : Leads ps L) : Leads ps ((1 + M) * L) := by
  rw [mul_optional_mul]
  rintro ts (ht | ht)
  · exact hL ts ht
  · exact hM.mul ts ht

theorem Leads.star_mul (hM : Leads ps M) (hL : Leads ps L) : Leads ps (M∗ * L) := by
  rw [← Language.one_add_self_mul_kstar_eq_kstar]
  exact .optional_mul hM.mul hL

theorem Leads.shuns (h : Leads ps L) (hd : ∀ p ∈ qs, p ∉ ps) : Shuns qs L := by
  intro ts ht q hq heq
  obtain ⟨p, hp, hhead⟩ := h ts ht
  obtain rfl : p = q := by simpa [hhead] using heq
  exact hd p hq hp

theorem Leads.shuns_of_notMem {p : Punctuator} (h : Leads [p] L) (hp : p ∉ qs) : Shuns qs L :=
  h.shuns fun _ hq hmem => hp (List.mem_singleton.1 hmem ▸ hq)

theorem Shuns.of_starts {allowed : List Punctuator} (h : ∀ ts ∈ L, Starts allowed ts)
    (hd : ∀ p ∈ ps, p ∉ allowed) : Shuns ps L :=
  fun ts ht p hp => (h ts ht).avoids (hd p hp)

theorem Shuns.mono (h : Shuns ps L) (hsub : ∀ q ∈ qs, q ∈ ps) : Shuns qs L :=
  fun ts ht q hq => h ts ht q (hsub q hq)

theorem Shuns.nil : Shuns [] L := fun _ _ _ hp => absurd hp List.not_mem_nil

theorem Shuns.one : Shuns ps 1 := by
  intro ts ht p _
  obtain rfl := (Language.mem_one ts).1 ht
  exact .nil p

theorem Shuns.mul (hL : Shuns ps L) (hM : Shuns ps M) : Shuns ps (L * M) := by
  rintro _ ⟨ts, ht, us, hu, rfl⟩ p hp
  exact (hL ts ht p hp).append (hM us hu p hp)

theorem Shuns.optional (h : Shuns ps L) : Shuns ps (1 + L) := by
  rintro ts (ht | ht)
  · exact Shuns.one ts ht
  · exact h ts ht

theorem Shuns.star (h : Shuns ps L) : Shuns ps (L∗) := by
  rintro _ ⟨tss, rfl, hts⟩ p hp
  induction tss with
  | nil => exact .nil p
  | cons ts tss ih =>
    obtain ⟨ht, hts⟩ := List.forall_mem_cons.1 hts
    exact (h ts ht p hp).append (ih hts)

end First

/-! ## Combinators -/

section Combinators
variable (P : List TokenKind → β → Prop)

theorem words_many : words (Many P) = (words P)∗ := by
  ext ts
  constructor
  · rintro ⟨xs, h⟩
    induction h with
    | nil => exact Language.nil_mem_kstar _
    | cons hx _ ih => exact mem_star.2 (.inr (Language.append_mem_mul ⟨_, hx⟩ ih))
  · rintro ⟨tss, rfl, h⟩
    induction tss with
    | nil => exact ⟨[], .nil⟩
    | cons ts tss ih =>
      obtain ⟨⟨x, hx⟩, hts⟩ := List.forall_mem_cons.1 h
      obtain ⟨xs, hxs⟩ := ih hts
      exact ⟨x :: xs, .cons hx hxs⟩

theorem words_some : (words fun ts xs => Many P ts xs ∧ xs ≠ []) = words P * (words P)∗ := by
  ext ts
  rw [← words_many]
  constructor
  · rintro ⟨_, ⟨⟩ | ⟨hx, hxs⟩, hne⟩
    · exact absurd rfl hne
    · exact Language.append_mem_mul ⟨_, hx⟩ ⟨_, hxs⟩
  · rintro ⟨us, ⟨x, hx⟩, vs, ⟨xs, hxs⟩, rfl⟩
    exact ⟨x :: xs, .cons hx hxs, List.cons_ne_nil x xs⟩

theorem words_perhaps : words (Perhaps P) = 1 + words P := by
  ext ts
  rw [mem_optional]
  constructor
  · rintro ⟨_, ⟨⟩ | hx⟩
    · exact .inl rfl
    · exact .inr ⟨_, hx⟩
  · rintro (rfl | ⟨x, hx⟩)
    · exact ⟨none, .none⟩
    · exact ⟨some x, .some hx⟩

/-- One item or more between delimiters, in the order in which they are read. -/
abbrev enclosed (opening closing : Punctuator) (L : Language TokenKind) : Language TokenKind :=
  mark opening * ((L * L∗) * mark closing)

variable (opening closing : Punctuator)

theorem words_enclosed :
    words (Enclosed opening closing P) = enclosed opening closing (words P) := by
  ext ts
  rw [enclosed, ← words_some, mem_token_mul]
  constructor
  · rintro ⟨xs, ⟨hm, hne⟩⟩
    exact ⟨_, Language.append_mem_mul ⟨xs, hm, hne⟩ (mem_token.2 rfl), rfl⟩
  · rintro ⟨_, ⟨us, ⟨xs, hm, hne⟩, vs, hv, rfl⟩, rfl⟩
    obtain rfl := mem_token.1 hv
    exact ⟨xs, .mk hm hne⟩

theorem words_listed :
    words (Listed opening closing P) = 1 + enclosed opening closing (words P) := by
  rw [← words_enclosed, ← words_perhaps]
  refine words_congr ?_ ?_
  · rintro _ _ (⟨⟩ | hx)
    · exact ⟨none, .none⟩
    · exact ⟨_, .some hx⟩
  · rintro _ _ (⟨⟩ | hx)
    · exact ⟨[], .absent⟩
    · exact ⟨_, .present hx⟩

end Combinators

theorem Leads.enclosed {opening closing : Punctuator} {L : Language TokenKind} :
    Leads [opening] (enclosed opening closing L) :=
  .mark_mul (by simp)

/-! ## Names and strings -/

/-- A name. -/
def names : Language TokenKind := single fun t => ∃ text, t.nameText? = some text

/-- A name other than the word that introduces a type. -/
def fragmentNames : Language TokenKind :=
  single fun t => ∃ text, t.nameText? = some text ∧ text ≠ "on"

/-- A string literal whose contents decode. -/
def strings : Language TokenKind :=
  single fun t => ∃ raw cs, t = .string raw ∧ StringLiteral.decode raw.toList = .ok cs

instance : Spoken names := ⟨[.name "f"], _, ⟨"f", rfl⟩, rfl⟩

instance : Spoken fragmentNames := ⟨[.name "f"], _, ⟨"f", rfl, by decide⟩, rfl⟩

instance : Spoken strings := by
  have hdecode : StringLiteral.decode (String.ofList (StringLiteral.quote [])).toList = .ok [] := by
    rw [String.toList_ofList, StringLiteral.decode_quote]
  exact ⟨_, _, ⟨_, _, rfl, hdecode⟩, rfl⟩

theorem words_name : words NameForm = names := by
  ext ts
  constructor
  · rintro ⟨_, ⟨ht⟩⟩
    exact ⟨_, ⟨_, ht⟩, rfl⟩
  · rintro ⟨t, ⟨text, ht⟩, rfl⟩
    exact ⟨_, .mk ht⟩

theorem words_nameNotOn :
    (words fun ts n => NameForm ts n ∧ n.value ≠ "on") = fragmentNames := by
  ext ts
  constructor
  · rintro ⟨_, ⟨ht⟩, hon⟩
    exact ⟨_, ⟨_, ht, hon⟩, rfl⟩
  · rintro ⟨t, ⟨text, ht, hon⟩, rfl⟩
    exact ⟨_, .mk ht, hon⟩

theorem words_string : words StringForm = strings := by
  ext ts
  constructor
  · rintro ⟨_, ⟨h⟩⟩
    exact ⟨_, ⟨_, _, rfl, h⟩, rfl⟩
  · rintro ⟨_, ⟨raw, cs, rfl, h⟩, rfl⟩
    exact ⟨_, .mk h⟩

theorem words_variable : words VariableForm = mark .dollar * names := by
  ext ts
  rw [← words_name, mem_token_mul]
  constructor
  · rintro ⟨_, ⟨hn⟩⟩
    exact ⟨_, ⟨_, hn⟩, rfl⟩
  · rintro ⟨us, ⟨n, hn⟩, rfl⟩
    exact ⟨_, .mk hn⟩

/-! ## Values -/

/-- The values, without variables if the flag is set. -/
abbrev values (constant : Bool) : Language TokenKind := words (ValueForm constant)

/-- The named values in objects. -/
abbrev objectFields (constant : Bool) : Language TokenKind :=
  names * (mark .colon * values constant)

/-- The values that start with a certain token. -/
def valuesFrom (constant : Bool) : TokenKind → Language TokenKind
  | .punctuator .dollar => if constant then 0 else mark .dollar * names
  | .punctuator .openBracket => mark .openBracket * ((values constant)∗ * mark .closeBracket)
  | .punctuator .openBrace => mark .openBrace * ((objectFields constant)∗ * mark .closeBrace)
  | .punctuator _ => 0
  | .string _ => strings
  | .endOfInput => 0
  | .error _ _ => 0
  | t => token t

instance (constant : Bool) : Spoken (values constant) := ⟨[.null], _, .null⟩

theorem words_objectField (constant : Bool) :
    words (ObjectFieldForm (ValueForm constant)) = objectFields constant := by
  ext ts
  rw [objectFields, ← words_name]
  constructor
  · rintro ⟨_, ⟨hn, hv⟩⟩
    exact Language.append_mem_mul ⟨_, hn⟩ (mem_token_mul.2 ⟨_, ⟨_, hv⟩, rfl⟩)
  · rintro ⟨us, ⟨n, hn⟩, _, hvs, rfl⟩
    obtain ⟨vs, ⟨v, hv⟩, rfl⟩ := mem_token_mul.1 hvs
    exact ⟨_, .mk hn hv⟩

theorem values_from {constant : Bool} {ts : List TokenKind} (h : ts ∈ values constant) :
    ∃ t, ts.head? = some t ∧ ts ∈ valuesFrom constant t := by
  obtain ⟨v, h⟩ := h
  cases h with
  | var hc hv =>
    have hmem := mem_words hv
    rw [words_variable] at hmem
    obtain ⟨_, -, rfl⟩ := mem_token_mul.1 hmem
    exact ⟨_, rfl, by simpa [valuesFrom, hc] using hmem⟩
  | string hs =>
    have hmem := mem_words hs
    rw [words_string] at hmem
    obtain ⟨_, ⟨raw, cs, rfl, -⟩, rfl⟩ := mem_single.1 hmem
    exact ⟨_, rfl, hmem⟩
  | list hm =>
    have hmem := mem_words hm
    rw [words_many] at hmem
    exact ⟨_, rfl, mem_token_mul.2 ⟨_, Language.append_mem_mul hmem (mem_token.2 rfl), rfl⟩⟩
  | object hm =>
    have hmem := mem_words hm
    rw [words_many, words_objectField] at hmem
    exact ⟨_, rfl, mem_token_mul.2 ⟨_, Language.append_mem_mul hmem (mem_token.2 rfl), rfl⟩⟩
  | _ => exact ⟨_, rfl, mem_token.2 rfl⟩

theorem valuesFrom_sub {constant : Bool} {t : TokenKind} {ts : List TokenKind}
    (h : ts ∈ valuesFrom constant t) : ts ∈ values constant := by
  unfold valuesFrom at h
  split at h
  · split at h
    · exact absurd h (Language.notMem_zero ts)
    · rw [← words_variable] at h
      obtain ⟨v, hv⟩ := h
      exact ⟨_, .var (by simpa using ‹¬constant = true›) hv⟩
  · obtain ⟨_, ⟨us, hus, vs, hvs, rfl⟩, rfl⟩ := mem_token_mul.1 h
    obtain rfl := mem_token.1 hvs
    rw [← words_many] at hus
    obtain ⟨xs, hxs⟩ := hus
    exact ⟨_, .list hxs⟩
  · obtain ⟨_, ⟨us, hus, vs, hvs, rfl⟩, rfl⟩ := mem_token_mul.1 h
    obtain rfl := mem_token.1 hvs
    rw [← words_objectField, ← words_many] at hus
    obtain ⟨xs, hxs⟩ := hus
    exact ⟨_, .object hxs⟩
  · exact absurd h (Language.notMem_zero ts)
  · rw [← words_string] at h
    obtain ⟨s, hs⟩ := h
    exact ⟨_, .string hs⟩
  · exact absurd h (Language.notMem_zero ts)
  · exact absurd h (Language.notMem_zero ts)
  · obtain rfl := mem_token.1 h
    cases t with
    | int text => exact ⟨_, .int⟩
    | float text => exact ⟨_, .float⟩
    | boolean b => exact ⟨_, .boolean⟩
    | null => exact ⟨_, .null⟩
    | name text => exact ⟨_, .enum⟩
    | punctuator p => simp_all
    | string raw => simp_all
    | endOfInput => simp_all
    | error message notes => simp_all

/-! ## Types -/

/-- The type references. -/
abbrev types : Language TokenKind := words TypeForm

/-- A type in brackets. -/
def listTypes : Language TokenKind := mark .openBracket * (types * mark .closeBracket)

theorem words_namedType : words NamedTypeForm = names := by
  rw [← words_name]
  exact words_congr (fun _ _ ⟨hn⟩ => ⟨_, hn⟩) fun _ _ hn => ⟨_, .mk hn⟩

theorem words_nullable : words NullableForm = names + listTypes := by
  ext ts
  rw [← words_namedType, Language.mem_add, listTypes, mem_token_mul]
  constructor
  · rintro ⟨_, hn | ht⟩
    · exact .inl ⟨_, hn⟩
    · exact .inr ⟨_, Language.append_mem_mul ⟨_, ht⟩ (mem_token.2 rfl), rfl⟩
  · rintro (⟨n, hn⟩ | ⟨_, ⟨us, ⟨t, ht⟩, vs, hvs, rfl⟩, rfl⟩)
    · exact ⟨_, .named hn⟩
    · obtain rfl := mem_token.1 hvs
      exact ⟨_, .list ht⟩

theorem words_type : types = (names + listTypes) * (1 + mark .bang) := by
  ext ts
  rw [← words_nullable]
  constructor
  · rintro ⟨_, hn | hn⟩
    · exact ⟨_, ⟨_, hn⟩, [], .inl rfl, List.append_nil _⟩
    · exact Language.append_mem_mul ⟨_, hn⟩ (.inr (mem_token.2 rfl))
  · rintro ⟨us, ⟨n, hn⟩, vs, hvs, rfl⟩
    rcases mem_optional.1 hvs with rfl | hbang
    · exact ⟨_, by simpa using TypeForm.nullable hn⟩
    · obtain rfl := mem_token.1 hbang
      exact ⟨_, .nonNull hn⟩

instance : Spoken types := by
  rw [words_type]
  infer_instance

/-- A named type after the word that introduces it. -/
abbrev typeConditions : Language TokenKind := token (.name "on") * names

theorem words_typeCondition : words TypeConditionForm = typeConditions := by
  ext ts
  rw [typeConditions, ← words_namedType, mem_token_mul]
  constructor
  · rintro ⟨_, ⟨ht⟩⟩
    exact ⟨_, ⟨_, ht⟩, rfl⟩
  · rintro ⟨us, ⟨t, ht⟩, rfl⟩
    exact ⟨_, .mk ht⟩

/-! ## Selections -/

/-- Named values in parentheses, or nothing. -/
abbrev argumentLists (constant : Bool) : Language TokenKind :=
  1 + enclosed .openParen .closeParen (objectFields constant)

theorem words_argument (constant : Bool) :
    words (ArgumentForm constant) = objectFields constant := by
  rw [← words_objectField]
  exact words_congr (fun _ _ ⟨hn, hv⟩ => ⟨_, .mk hn hv⟩) fun _ _ ⟨hn, hv⟩ => ⟨_, .mk hn hv⟩

theorem words_arguments (constant : Bool) :
    words (ArgumentsForm constant) = argumentLists constant := by
  rw [ArgumentsForm, words_listed, words_argument, argumentLists]

/-- An at sign, a name and arguments. -/
def directiveWords (constant : Bool) : Language TokenKind :=
  mark .at * (names * argumentLists constant)

theorem words_directive (constant : Bool) :
    words (DirectiveForm constant) = directiveWords constant := by
  ext ts
  rw [directiveWords, ← words_name, ← words_arguments, mem_token_mul]
  constructor
  · rintro ⟨_, ⟨hn, has⟩⟩
    exact ⟨_, Language.append_mem_mul ⟨_, hn⟩ ⟨_, has⟩, rfl⟩
  · rintro ⟨_, ⟨us, ⟨n, hn⟩, vs, ⟨as, has⟩, rfl⟩, rfl⟩
    exact ⟨_, .mk hn has⟩

theorem words_directives (constant : Bool) :
    words (DirectivesForm constant) = (directiveWords constant)∗ := by
  rw [DirectivesForm, words_many, words_directive]

/-- The selection sets. -/
abbrev selectionSets : Language TokenKind := words SelectionSetForm

/-- The name of a field after its alias, which is a name with a colon. -/
abbrev fieldNames : Language TokenKind := names * (1 + mark .colon * names)

/-- A field, given the selection sets. -/
abbrev fields (S : Language TokenKind) : Language TokenKind :=
  fieldNames * (argumentLists false * ((directiveWords false)∗ * (1 + S)))

/-- A fragment that is spread by name, after its dots. -/
abbrev spreads : Language TokenKind := fragmentNames * (directiveWords false)∗

/-- A fragment that is written in place, after its dots. -/
def inlineFragments (S : Language TokenKind) : Language TokenKind :=
  (1 + typeConditions) * ((directiveWords false)∗ * S)

/-- A selection, given the selection sets. -/
abbrev selections (S : Language TokenKind) : Language TokenKind :=
  fields S + mark .ellipsis * (spreads + inlineFragments S)

theorem words_alias : words AliasForm = names * mark .colon := by
  ext ts
  rw [← words_name]
  constructor
  · rintro ⟨_, ⟨hn⟩⟩
    exact Language.append_mem_mul ⟨_, hn⟩ (mem_token.2 rfl)
  · rintro ⟨us, ⟨n, hn⟩, vs, hvs, rfl⟩
    obtain rfl := mem_token.1 hvs
    exact ⟨_, .mk hn⟩

theorem aliased_names : (1 + words AliasForm) * names = fieldNames := by
  rw [words_alias, fieldNames, mul_optional_mul, mul_add, mul_one, mul_assoc]

theorem words_selection (S : List TokenKind → SelectionSet Unit → Prop) :
    words (SelectionForm S) = selections (words S) := by
  ext ts
  simp only [selections, spreads, inlineFragments, fields, ← aliased_names, ← words_nameNotOn,
    ← words_arguments, ← words_directives, ← words_typeCondition, ← words_perhaps, mul_assoc]
  rw [← words_name, Language.mem_add, mem_token_mul]
  constructor
  · rintro ⟨_, h⟩
    cases h with
    | field ha hn has hds hset =>
      exact .inl <| Language.append_mem_mul ⟨_, ha⟩ <| Language.append_mem_mul ⟨_, hn⟩ <|
        Language.append_mem_mul ⟨_, has⟩ <| Language.append_mem_mul ⟨_, hds⟩ ⟨_, hset⟩
    | spread hn hon hds =>
      exact .inr ⟨_, .inl (Language.append_mem_mul ⟨_, hn, hon⟩ ⟨_, hds⟩), rfl⟩
    | inlineFragment ht hds hset =>
      exact .inr ⟨_, .inr (Language.append_mem_mul ⟨_, ht⟩ <|
        Language.append_mem_mul ⟨_, hds⟩ ⟨_, hset⟩), rfl⟩
  · rintro (⟨_, ⟨a, ha⟩, _, ⟨_, ⟨n, hn⟩, _, ⟨_, ⟨as, has⟩, _, ⟨_, ⟨ds, hds⟩, _, ⟨set, hset⟩, rfl⟩,
        rfl⟩, rfl⟩, rfl⟩ | ⟨us, ⟨_, ⟨n, hn, hon⟩, _, ⟨ds, hds⟩, rfl⟩ |
        ⟨_, ⟨t, ht⟩, _, ⟨_, ⟨ds, hds⟩, _, ⟨set, hset⟩, rfl⟩, rfl⟩, rfl⟩)
    · exact ⟨_, .field ha hn has hds hset⟩
    · exact ⟨_, .spread hn hon hds⟩
    · exact ⟨_, .inlineFragment ht hds hset⟩

theorem words_selectionSet :
    selectionSets = enclosed .openBrace .closeBrace (selections selectionSets) := by
  rw [← words_selection, ← words_enclosed]
  exact words_congr (fun _ _ ⟨h⟩ => ⟨_, h⟩) fun _ _ h => ⟨_, .mk h⟩

theorem Leads.selectionSets : Leads [.openBrace] selectionSets := by
  rw [words_selectionSet]
  exact .enclosed

instance : Spoken selectionSets := by
  -- a set of one field needs no set inside
  have hfield : [TokenKind.name "f"] ∈ words (SelectionForm SelectionSetForm) :=
    ⟨_, .field .none (.mk rfl) .absent .nil .none⟩
  obtain ⟨s, hs⟩ := hfield
  exact ⟨_, _, .mk (.mk (.cons hs .nil) (List.cons_ne_nil _ _))⟩

/-! ## Documents -/

/-- A constant after an equals sign. -/
def defaults : Language TokenKind := mark .equals * values true

theorem words_default : words DefaultForm = defaults := by
  ext ts
  rw [defaults, mem_token_mul]
  constructor
  · rintro ⟨_, ⟨hv⟩⟩
    exact ⟨_, ⟨_, hv⟩, rfl⟩
  · rintro ⟨us, ⟨v, hv⟩, rfl⟩
    exact ⟨_, .mk hv⟩

/-- A variable definition after its description. -/
abbrev variableDefinitions : Language TokenKind :=
  (mark .dollar * names) * (mark .colon * (types * ((1 + defaults) * (directiveWords true)∗)))

theorem words_variableDefinition :
    words VariableDefinitionForm = (1 + strings) * variableDefinitions := by
  ext ts
  rw [variableDefinitions, ← words_string, ← words_perhaps, ← words_default, ← words_perhaps,
    ← words_directives, ← words_variable]
  constructor
  · rintro ⟨_, ⟨hs, hv, ht, hd, hds⟩⟩
    exact Language.append_mem_mul ⟨_, hs⟩ <| Language.append_mem_mul ⟨_, hv⟩ <|
      mem_token_mul.2 ⟨_, Language.append_mem_mul ⟨_, ht⟩ <|
        Language.append_mem_mul ⟨_, hd⟩ ⟨_, hds⟩, rfl⟩
  · rintro ⟨_, ⟨s, hs⟩, _, ⟨_, ⟨v, hv⟩, _, hrest, rfl⟩, rfl⟩
    obtain ⟨_, ⟨_, ⟨t, ht⟩, _, ⟨_, ⟨d, hd⟩, _, ⟨ds, hds⟩, rfl⟩, rfl⟩, rfl⟩ := mem_token_mul.1 hrest
    exact ⟨_, .mk hs hv ht hd hds⟩

/-- Variable definitions in parentheses, or nothing. -/
abbrev variableLists : Language TokenKind :=
  1 + enclosed .openParen .closeParen ((1 + strings) * variableDefinitions)

theorem words_variableDefinitions :
    words (Listed .openParen .closeParen VariableDefinitionForm) = variableLists := by
  rw [words_listed, words_variableDefinition, variableLists]

/-- An operation after its keyword. -/
abbrev operationTails : Language TokenKind :=
  (1 + names) * (variableLists * ((directiveWords false)∗ * selectionSets))

/-- A fragment after its keyword. -/
abbrev fragmentTails : Language TokenKind :=
  fragmentNames * (typeConditions * ((directiveWords false)∗ * selectionSets))

/-- The keyword of an operation. -/
def operationKeywords : Language TokenKind :=
  single fun t => ∃ kind : OperationKind, t = .name kind.keyword

/-- What a description may describe. -/
abbrev describable : Language TokenKind :=
  operationKeywords * operationTails + token (.name "fragment") * fragmentTails

instance : Spoken operationKeywords := ⟨_, _, ⟨.query, rfl⟩, rfl⟩

instance : Spoken (words DefinitionForm) := by
  obtain ⟨ts, set, hset⟩ := Spoken.exists_mem (L := selectionSets)
  exact ⟨ts, _, .operation (.short hset)⟩

theorem words_definition :
    words DefinitionForm = selectionSets + (1 + strings) * describable := by
  ext ts
  simp only [describable, operationKeywords, operationTails, fragmentTails, mul_add,
    ← words_variableDefinitions, ← words_nameNotOn, ← words_typeCondition, ← words_directives,
    ← words_string, ← words_perhaps, ← words_name]
  simp only [Language.mem_add]
  constructor
  · rintro ⟨_, h⟩
    cases h with
    | operation ho =>
      cases ho with
      | short hs => exact .inl ⟨_, hs⟩
      | full hd hn hvs hds hs =>
        exact .inr <| .inl <| Language.append_mem_mul ⟨_, hd⟩ <| mem_single_mul.2
          ⟨_, ⟨_, rfl⟩, _, Language.append_mem_mul ⟨_, hn⟩ <| Language.append_mem_mul ⟨_, hvs⟩ <|
            Language.append_mem_mul ⟨_, hds⟩ ⟨_, hs⟩, rfl⟩
    | fragment hf =>
      obtain ⟨hd, hn, hon, ht, hds, hs⟩ := hf
      exact .inr <| .inr <| Language.append_mem_mul ⟨_, hd⟩ <| mem_token_mul.2
        ⟨_, Language.append_mem_mul ⟨_, hn, hon⟩ <| Language.append_mem_mul ⟨_, ht⟩ <|
          Language.append_mem_mul ⟨_, hds⟩ ⟨_, hs⟩, rfl⟩
  · rintro (⟨_, hs⟩ | ⟨_, ⟨d, hd⟩, _, hrest, rfl⟩ | ⟨_, ⟨d, hd⟩, _, hrest, rfl⟩)
    · exact ⟨_, .operation (.short hs)⟩
    · obtain ⟨_, ⟨kind, rfl⟩, _, ⟨_, ⟨n, hn⟩, _, ⟨_, ⟨vs, hvs⟩, _, ⟨_, ⟨ds, hds⟩, _, ⟨set, hset⟩,
        rfl⟩, rfl⟩, rfl⟩, rfl⟩ := mem_single_mul.1 hrest
      exact ⟨_, .operation (.full hd hn hvs hds hset)⟩
    · obtain ⟨_, ⟨_, ⟨n, hn, hon⟩, _, ⟨_, ⟨t, ht⟩, _, ⟨_, ⟨ds, hds⟩, _, ⟨set, hset⟩,
        rfl⟩, rfl⟩, rfl⟩, rfl⟩ := mem_token_mul.1 hrest
      exact ⟨_, .fragment (.mk hd hn hon ht hds hset)⟩

theorem words_document :
    words DocumentForm = words DefinitionForm * (words DefinitionForm)∗ := by
  rw [← words_some]
  exact words_congr (fun _ _ ⟨hm, hne⟩ => ⟨_, hm, hne⟩) fun _ _ ⟨hm, hne⟩ => ⟨_, .mk hm hne⟩

end QueryDoc.Grammar
