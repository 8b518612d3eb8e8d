import QueryDoc.Proofs.Grammar.Form
import QueryDoc.Proofs.Syntax.Strings
import QueryDoc.Proofs.Syntax.WellFormed

/-!
# What is derived is well-formed

The grammar looks at names and numbers as whole tokens. A tree that it derives is
well-formed if the names and the numbers among its tokens obey the lexical rules,
for everything else that a well-formed tree needs is in the productions. Each of
its strings is what some literal denotes.
-/
namespace QueryDoc
open Lexical

/-- The text of a name or a number obeys the rule of its kind. -/
def TokenKind.Spelt : TokenKind → Prop
  | .name text => IsName text.toList ∧ text.toList ∉ literalNames
  | .int text => IsInteger text.toList
  | .float text => IsFloat text.toList
  | _ => True

namespace Grammar

/-! ## The parts of a derivation -/

section Parts
variable {β : Type} {P : List TokenKind → β → Prop} {ts : List TokenKind}

theorem Many.mem {xs : List β} (h : Many P ts xs) {x : β} (hx : x ∈ xs) :
    ∃ us, us ⊆ ts ∧ P us x := by
  induction h with
  | nil => cases hx
  | @cons us vs y ys hy _ ih =>
    rcases List.mem_cons.1 hx with rfl | hx
    · exact ⟨us, List.subset_append_left us vs, hy⟩
    · obtain ⟨ws, hsub, hform⟩ := ih hx
      exact ⟨ws, List.subset_append_of_subset_right us hsub, hform⟩

theorem Perhaps.mem {o : Option β} (h : Perhaps P ts o) {x : β} (hx : x ∈ o) : P ts x := by
  cases h with
  | none => cases hx
  | some hform => exact Option.some.inj hx ▸ hform

theorem Enclosed.mem {opening closing : Punctuator} {xs : List β}
    (h : Enclosed opening closing P ts xs) {x : β} (hx : x ∈ xs) : ∃ us, us ⊆ ts ∧ P us x := by
  obtain ⟨hm, -⟩ := h
  obtain ⟨us, hsub, hform⟩ := hm.mem hx
  exact ⟨us, fun t ht => by simp [hsub ht], hform⟩

theorem Listed.mem {opening closing : Punctuator} {xs : List β}
    (h : Listed opening closing P ts xs) {x : β} (hx : x ∈ xs) : ∃ us, us ⊆ ts ∧ P us x := by
  cases h with
  | absent => cases hx
  | present hform => exact hform.mem hx

end Parts

/-! ## Spelling -/

def AllSpelt (ts : List TokenKind) : Prop := ∀ t ∈ ts, t.Spelt

@[simp] theorem allSpelt_append {ts us : List TokenKind} :
    AllSpelt (ts ++ us) ↔ AllSpelt ts ∧ AllSpelt us := List.forall_mem_append

@[simp] theorem allSpelt_cons {t : TokenKind} {ts : List TokenKind} :
    AllSpelt (t :: ts) ↔ t.Spelt ∧ AllSpelt ts := List.forall_mem_cons

theorem AllSpelt.subset {ts us : List TokenKind} (h : AllSpelt ts) (hsub : us ⊆ ts) :
    AllSpelt us := fun t ht => h t (hsub ht)

variable {constant : Bool} {ts : List TokenKind}

theorem NameForm.wellFormed {n : Name Unit} (h : NameForm ts n) (hs : AllSpelt ts) :
    n.WellFormed := by
  obtain ⟨hn⟩ := h
  rename_i t text
  have ht := hs t (List.mem_singleton_self t)
  cases t with
  | name s =>
    cases hn
    exact ht.1
  | boolean b =>
    cases b with
    | true =>
      cases hn
      exact show IsName "true".toList by decide
    | false =>
      cases hn
      exact show IsName "false".toList by decide
  | null =>
    cases hn
    exact show IsName "null".toList by decide
  | _ => cases hn

theorem ValueForm.isConst {v : Value Unit} (h : ValueForm true ts v) : v.isConst = true := by
  induction v using Value.induct generalizing ts with
  | var v =>
    cases h with
    | var hc => cases hc
  | list items i ih =>
    cases h with
    | list hm =>
      apply Value.allConst_iff.2
      intro v hv
      obtain ⟨us, -, hform⟩ := hm.mem hv
      exact ih v hv hform
  | object fields i ih =>
    cases h with
    | object hm =>
      apply ObjectField.allConst_iff.2
      intro x hx
      obtain ⟨us, -, hform⟩ := hm.mem hx
      have hv := @ih x hx
      obtain ⟨-, hv'⟩ := hform
      exact hv hv'
  | _ => rfl

theorem ValueForm.wellFormed {v : Value Unit} (h : ValueForm constant ts v) (hs : AllSpelt ts) :
    v.WellFormed := by
  induction v using Value.induct generalizing ts with
  | var v =>
    cases h with
    | var _ hv =>
      obtain ⟨hn⟩ := hv
      exact hn.wellFormed (allSpelt_cons.1 hs).2
  | int text i =>
    cases h
    exact hs _ (List.mem_singleton_self _)
  | float text i =>
    cases h
    exact hs _ (List.mem_singleton_self _)
  | enum text i =>
    cases h
    exact hs _ (List.mem_singleton_self _)
  | list items i ih =>
    cases h with
    | list hm =>
      apply Value.allWellFormed_iff.2
      intro v hv
      obtain ⟨us, hsub, hform⟩ := hm.mem hv
      exact ih v hv hform (hs.subset fun t ht => by simp [hsub ht])
  | object fields i ih =>
    cases h with
    | object hm =>
      apply ObjectField.allWellFormed_iff.2
      intro x hx
      obtain ⟨us, hsub, hform⟩ := hm.mem hx
      have hus : AllSpelt us := hs.subset fun t ht => by simp [hsub ht]
      have hv := @ih x hx
      obtain ⟨hn, hv'⟩ := hform
      simp only [allSpelt_append, allSpelt_cons] at hus
      exact ⟨hn.wellFormed hus.1, hv hv' hus.2.2⟩
  | _ => trivial

/-! ## Types -/

theorem NamedTypeForm.wellFormed {t : NamedType Unit} (h : NamedTypeForm ts t)
    (hs : AllSpelt ts) : t.name.WellFormed := by
  obtain ⟨hn⟩ := h
  exact hn.wellFormed hs

theorem TypeConditionForm.wellFormed {t : NamedType Unit} (h : TypeConditionForm ts t)
    (hs : AllSpelt ts) : t.name.WellFormed := by
  obtain ⟨ht⟩ := h
  exact ht.wellFormed (allSpelt_cons.1 hs).2

mutual

theorem TypeForm.wellFormed {ts : List TokenKind} {t : TypeRef Unit} :
    TypeForm ts t → AllSpelt ts → t.WellFormed
  | .nullable h, hs => NullableForm.wellFormed h hs
  | .nonNull h, hs => NullableForm.wellFormed h (allSpelt_append.1 hs).1

theorem NullableForm.wellFormed {ts : List TokenKind} {t : NullableType Unit} :
    NullableForm ts t → AllSpelt ts → t.innermost.name.WellFormed
  | .named h, hs => h.wellFormed hs
  | .list h, hs => TypeForm.wellFormed h (allSpelt_append.1 (allSpelt_cons.1 hs).2).1

end

/-! ## Selections -/

theorem ArgumentForm.wellFormed {a : Argument Unit} (h : ArgumentForm constant ts a)
    (hs : AllSpelt ts) : a.WellFormed := by
  obtain ⟨hn, hv⟩ := h
  simp only [allSpelt_append, allSpelt_cons] at hs
  exact ⟨hn.wellFormed hs.1, hv.wellFormed hs.2.2⟩

theorem arguments_wellFormed {as : List (Argument Unit)} (h : ArgumentsForm constant ts as)
    (hs : AllSpelt ts) : ∀ a ∈ as, a.WellFormed := by
  intro a ha
  obtain ⟨us, hsub, hform⟩ := Listed.mem h ha
  exact hform.wellFormed (hs.subset hsub)

theorem DirectiveForm.wellFormed {d : Directive Unit} (h : DirectiveForm constant ts d)
    (hs : AllSpelt ts) : d.WellFormed := by
  obtain ⟨hn, has⟩ := h
  simp only [allSpelt_cons, allSpelt_append] at hs
  exact ⟨hn.wellFormed hs.2.1, arguments_wellFormed has hs.2.2⟩

theorem DirectiveForm.isConst {d : Directive Unit} (h : DirectiveForm true ts d) :
    d.IsConst := by
  obtain ⟨-, has⟩ := h
  intro a ha
  obtain ⟨us, -, hform⟩ := Listed.mem has ha
  obtain ⟨-, hv⟩ := hform
  exact hv.isConst

theorem directives_wellFormed {ds : List (Directive Unit)} (h : DirectivesForm constant ts ds)
    (hs : AllSpelt ts) : ∀ d ∈ ds, d.WellFormed := by
  intro d hd
  obtain ⟨us, hsub, hform⟩ := Many.mem h hd
  exact hform.wellFormed (hs.subset hsub)

theorem SelectionForm.wellFormed {S : List TokenKind → SelectionSet Unit → Prop}
    {s : Selection Unit} (h : SelectionForm S ts s) (hs : AllSpelt ts)
    (hset : ∀ set ∈ s.inner?, ∀ us, S us set → AllSpelt us → set.WellFormed) :
    s.WellFormed := by
  cases h with
  | field ha hn has hds hsets =>
    simp only [allSpelt_append] at hs
    obtain ⟨hs₁, hs₂, hs₃, hs₄, hs₅⟩ := hs
    refine Selection.wellFormed_field.2 ⟨fun m hm => ?_, hn.wellFormed hs₂,
      arguments_wellFormed has hs₃, directives_wellFormed hds hs₄, fun set hmem =>
        hset set hmem _ (hsets.mem hmem) hs₅⟩
    obtain ⟨hm⟩ := ha.mem hm
    exact hm.wellFormed (allSpelt_append.1 hs₁).1
  | spread hn hon hds =>
    simp only [allSpelt_cons, allSpelt_append] at hs
    exact ⟨hn.wellFormed hs.2.1, hon, directives_wellFormed hds hs.2.2⟩
  | inlineFragment ht hds hsets =>
    simp only [allSpelt_cons, allSpelt_append] at hs
    obtain ⟨-, hs₁, hs₂, hs₃⟩ := hs
    exact ⟨fun t hmem => (ht.mem hmem).wellFormed hs₁, directives_wellFormed hds hs₂,
      hset _ rfl _ hsets hs₃⟩

theorem SelectionSetForm.wellFormed {set : SelectionSet Unit} (h : SelectionSetForm ts set)
    (hs : AllSpelt ts) : set.WellFormed := by
  induction set using SelectionSet.induct generalizing ts with
  | mk items i ih =>
    obtain ⟨he⟩ := h
    have hitems : ∀ s ∈ items, s.WellFormed := by
      intro s hmem
      obtain ⟨us, hsub, hform⟩ := he.mem hmem
      exact hform.wellFormed (hs.subset hsub) fun set hset us h hs => ih s hmem set hset h hs
    obtain ⟨-, hne⟩ := he
    exact ⟨hne, Selection.allWellFormed_iff.2 hitems⟩

/-! ## Documents -/

/-- The values in the definition of a variable are constant. -/
theorem VariableDefinitionForm.isConst {v : VariableDefinition Unit}
    (h : VariableDefinitionForm ts v) :
    (∀ x ∈ v.default, x.isConst = true) ∧ ∀ d ∈ v.directives, d.IsConst := by
  obtain ⟨-, -, -, hdefault, hds⟩ := h
  refine ⟨fun x hx => ?_, fun d hd => ?_⟩
  · obtain ⟨hv⟩ := hdefault.mem hx
    exact hv.isConst
  · obtain ⟨us, -, hform⟩ := Many.mem hds hd
    exact hform.isConst

theorem VariableDefinitionForm.wellFormed {v : VariableDefinition Unit}
    (h : VariableDefinitionForm ts v) (hs : AllSpelt ts) : v.WellFormed := by
  obtain ⟨hdefault, hdirectives⟩ := h.isConst
  obtain ⟨-, ⟨hn⟩, ht, hd, hds⟩ := h
  simp only [allSpelt_append, allSpelt_cons] at hs
  obtain ⟨-, ⟨-, hs₁⟩, -, hs₂, hs₃, hs₄⟩ := hs
  refine ⟨hn.wellFormed hs₁, ht.wellFormed hs₂, fun x hx => ⟨?_, hdefault x hx⟩,
    fun d hmem => ⟨directives_wellFormed hds hs₄ d hmem, hdirectives d hmem⟩⟩
  obtain ⟨hv⟩ := hd.mem hx
  exact hv.wellFormed (allSpelt_cons.1 hs₃).2

theorem OperationForm.wellFormed {o : Operation Unit} (h : OperationForm ts o)
    (hs : AllSpelt ts) : o.WellFormed := by
  cases h with
  | short hset => exact ⟨by simp, by simp, by simp, hset.wellFormed hs⟩
  | full _ hn hvs hds hset =>
    simp only [allSpelt_append, allSpelt_cons] at hs
    obtain ⟨-, -, hs₁, hs₂, hs₃, hs₄⟩ := hs
    refine ⟨fun n hmem => (hn.mem hmem).wellFormed hs₁, fun v hmem => ?_,
      directives_wellFormed hds hs₃, hset.wellFormed hs₄⟩
    obtain ⟨us, hsub, hform⟩ := hvs.mem hmem
    exact hform.wellFormed (hs₂.subset hsub)

theorem FragmentForm.wellFormed {f : Fragment Unit} (h : FragmentForm ts f)
    (hs : AllSpelt ts) : f.WellFormed := by
  obtain ⟨-, hn, hon, ht, hds, hset⟩ := h
  simp only [allSpelt_append, allSpelt_cons] at hs
  obtain ⟨-, -, hs₁, hs₂, hs₃, hs₄⟩ := hs
  exact ⟨hn.wellFormed hs₁, hon, ht.wellFormed hs₂, directives_wellFormed hds hs₃,
    hset.wellFormed hs₄⟩

/-- A derived document is well-formed if its tokens are spelt by the rules. -/
theorem DocumentForm.wellFormed {d : Document Unit} (h : DocumentForm ts d)
    (hs : AllSpelt ts) : d.WellFormed := by
  obtain ⟨hm, hne⟩ := h
  refine ⟨hne, fun x hx => ?_⟩
  obtain ⟨us, hsub, hform⟩ := hm.mem hx
  cases hform with
  | operation ho => exact ho.wellFormed (hs.subset hsub)
  | fragment hf => exact hf.wellFormed (hs.subset hsub)

/-! ## Strings -/

/-- Every string is derived from a literal. -/
def FromLiterals (strings : List (Nat × StringValue Unit)) : Prop :=
  ∀ p ∈ strings, ∃ ts, StringForm ts p.2

@[simp] theorem fromLiterals_nil : FromLiterals [] := fun _ hp => nomatch hp

@[simp] theorem fromLiterals_append {ps qs : List (Nat × StringValue Unit)} :
    FromLiterals (ps ++ qs) ↔ FromLiterals ps ∧ FromLiterals qs := List.forall_mem_append

theorem fromLiterals_flatMap {β : Type} {xs : List β} {f : β → List (Nat × StringValue Unit)}
    (h : ∀ x ∈ xs, FromLiterals (f x)) : FromLiterals (xs.flatMap f) := by
  intro p hp
  obtain ⟨x, hx, hp⟩ := List.mem_flatMap.1 hp
  exact h x hx p hp

theorem descriptionStrings_fromLiterals {d : Option (StringValue Unit)}
    (h : Perhaps StringForm ts d) : FromLiterals (descriptionStrings d) := by
  cases h with
  | none => exact fromLiterals_nil
  | some hs =>
    intro p hp
    rw [List.mem_singleton.1 hp]
    exact ⟨_, hs⟩

theorem ValueForm.strings {v : Value Unit} (h : ValueForm constant ts v) (depth : Nat) :
    FromLiterals (v.strings depth) := by
  induction v using Value.induct generalizing ts with
  | string s =>
    cases h with
    | string hs =>
      intro p hp
      rw [List.mem_singleton.1 hp]
      exact ⟨_, hs⟩
  | list items i ih =>
    cases h with
    | list hm =>
      rw [Value.strings, Value.allStrings_eq]
      apply fromLiterals_flatMap
      intro v hv
      obtain ⟨us, -, hform⟩ := hm.mem hv
      exact ih v hv hform
  | object fields i ih =>
    cases h with
    | object hm =>
      rw [Value.strings, ObjectField.allStrings_eq]
      apply fromLiterals_flatMap
      intro x hx
      obtain ⟨us, -, hform⟩ := hm.mem hx
      have hv := @ih x hx
      obtain ⟨-, hv'⟩ := hform
      exact hv hv'
  | _ => exact fromLiterals_nil

theorem arguments_strings {as : List (Argument Unit)} (h : ArgumentsForm constant ts as)
    (depth : Nat) : FromLiterals (as.flatMap (Argument.strings depth)) := by
  apply fromLiterals_flatMap
  intro a ha
  obtain ⟨us, -, hform⟩ := Listed.mem h ha
  obtain ⟨-, hv⟩ := hform
  exact hv.strings depth

theorem directives_strings {ds : List (Directive Unit)} (h : DirectivesForm constant ts ds)
    (depth : Nat) : FromLiterals (ds.flatMap (Directive.strings depth)) := by
  apply fromLiterals_flatMap
  intro d hd
  obtain ⟨us, -, hform⟩ := Many.mem h hd
  obtain ⟨-, has⟩ := hform
  exact arguments_strings has depth

theorem SelectionForm.strings {S : List TokenKind → SelectionSet Unit → Prop}
    {s : Selection Unit} (h : SelectionForm S ts s) (depth : Nat)
    (hset : ∀ set ∈ s.inner?, ∀ us, S us set → FromLiterals (set.strings depth)) :
    FromLiterals (s.strings depth) := by
  cases h with
  | field _ _ has hds hsets =>
    simp only [Selection.strings_field, fromLiterals_append]
    refine ⟨arguments_strings has _, directives_strings hds _, ?_⟩
    exact fromLiterals_flatMap fun set hmem =>
      hset set (Option.mem_toList.1 hmem) _ (hsets.mem (Option.mem_toList.1 hmem))
  | spread _ _ hds => exact directives_strings hds depth
  | inlineFragment _ hds hsets =>
    exact fromLiterals_append.2 ⟨directives_strings hds depth, hset _ rfl _ hsets⟩

theorem SelectionSetForm.strings {set : SelectionSet Unit} (h : SelectionSetForm ts set)
    (depth : Nat) : FromLiterals (set.strings depth) := by
  induction set using SelectionSet.induct generalizing ts depth with
  | mk items i ih =>
    obtain ⟨he⟩ := h
    rw [SelectionSet.strings, Selection.allStrings_eq]
    apply fromLiterals_flatMap
    intro s hmem
    obtain ⟨us, -, hform⟩ := he.mem hmem
    exact hform.strings _ fun set hset us h => ih s hmem set hset h _

theorem VariableDefinitionForm.strings {v : VariableDefinition Unit}
    (h : VariableDefinitionForm ts v) : FromLiterals v.strings := by
  obtain ⟨hdescription, -, -, hd, hds⟩ := h
  simp only [VariableDefinition.strings, fromLiterals_append]
  refine ⟨descriptionStrings_fromLiterals hdescription, ?_, directives_strings hds 0⟩
  apply fromLiterals_flatMap
  intro d hmem
  obtain ⟨hv⟩ := hd.mem (Option.mem_toList.1 hmem)
  exact hv.strings 0

theorem OperationForm.strings {o : Operation Unit} (h : OperationForm ts o) :
    FromLiterals o.strings := by
  cases h with
  | short hset => exact hset.strings 0
  | full hdescription _ hvs hds hset =>
    simp only [Operation.strings, fromLiterals_append]
    refine ⟨descriptionStrings_fromLiterals hdescription, ?_, directives_strings hds 0,
      hset.strings 0⟩
    apply fromLiterals_flatMap
    intro v hmem
    obtain ⟨us, -, hform⟩ := hvs.mem hmem
    exact hform.strings

theorem FragmentForm.strings {f : Fragment Unit} (h : FragmentForm ts f) :
    FromLiterals f.strings := by
  obtain ⟨hdescription, -, -, -, hds, hset⟩ := h
  simp only [Fragment.strings, fromLiterals_append]
  exact ⟨descriptionStrings_fromLiterals hdescription, directives_strings hds 0, hset.strings 0⟩

theorem DocumentForm.strings {d : Document Unit} (h : DocumentForm ts d) :
    FromLiterals d.strings := by
  obtain ⟨hm, -⟩ := h
  apply fromLiterals_flatMap
  intro x hx
  obtain ⟨us, -, hform⟩ := hm.mem hx
  cases hform with
  | operation ho => exact ho.strings
  | fragment hf => exact hf.strings

end Grammar

end QueryDoc
