import QueryDoc.Proofs.Grammar.Form
import Mathlib.Data.List.Basic

/-!
# Where derived lists of tokens start and end

A parser that looks at one token is right about a production if the tokens the
production can start with are known, and those that can come after it. Here are
the first tokens of every production, as the punctuators among them, and what
follows for parts put together.
-/
namespace QueryDoc.Grammar

/-- The list does not start with a certain punctuator. -/
def Avoids (p : Punctuator) (ts : List TokenKind) : Prop :=
  ts.head? ≠ some (.punctuator p)

/-- The list starts with a token of the input which is no punctuator, or is one
of the given. -/
def Starts (allowed : List Punctuator) (ts : List TokenKind) : Prop :=
  ∃ t us, ts = t :: us ∧ t ≠ .endOfInput ∧ ∀ p, t = .punctuator p → p ∈ allowed

theorem Avoids.nil (p : Punctuator) : Avoids p [] := by simp [Avoids]

theorem Avoids.append {p : Punctuator} {ts us : List TokenKind} (ht : Avoids p ts)
    (hu : Avoids p us) : Avoids p (ts ++ us) := by
  cases ts with
  | nil => exact hu
  | cons t ts => exact ht

theorem Avoids.cons {p q : Punctuator} (h : q ≠ p) (ts : List TokenKind) :
    Avoids p (.punctuator q :: ts) := by
  intro heq
  simp only [List.head?_cons, Option.some.injEq, TokenKind.punctuator.injEq] at heq
  exact h heq

theorem Avoids.end (p : Punctuator) : Avoids p [.endOfInput] := by simp [Avoids]

section Starts
variable {allowed : List Punctuator} {ts us : List TokenKind}

theorem Starts.ne_nil (h : Starts allowed ts) : ts ≠ [] := by
  obtain ⟨t, us, rfl, -⟩ := h
  exact List.cons_ne_nil t us

theorem Starts.append (h : Starts allowed ts) : Starts allowed (ts ++ us) := by
  obtain ⟨t, vs, rfl, ht, hp⟩ := h
  exact ⟨t, vs ++ us, rfl, ht, hp⟩

theorem Starts.mono {more : List Punctuator} (h : Starts allowed ts)
    (hsub : ∀ p ∈ allowed, p ∈ more) : Starts more ts := by
  obtain ⟨t, vs, rfl, ht, hp⟩ := h
  exact ⟨t, vs, rfl, ht, fun p hpt => hsub p (hp p hpt)⟩

theorem Starts.avoids {p : Punctuator} (h : Starts allowed ts) (hp : p ∉ allowed) :
    Avoids p ts := by
  obtain ⟨t, vs, rfl, -, ha⟩ := h
  intro heq
  exact hp (ha p (by simpa using heq))

theorem Starts.punctuator (p : Punctuator) (ts : List TokenKind) :
    Starts [p] (.punctuator p :: ts) :=
  ⟨_, _, rfl, by simp, fun q hq => by simpa using hq.symm⟩

end Starts

/-! ## Combinators -/

section Combinators
variable {β γ : Type} {P : List TokenKind → β → Prop} {Q : List TokenKind → γ → Prop}
variable {allowed : List Punctuator} {ts : List TokenKind} {p : Punctuator}

theorem Many.map {xs : List β} (f : β → γ) (h : Many P ts xs)
    (hf : ∀ us x, x ∈ xs → P us x → Q us (f x)) : Many Q ts (xs.map f) := by
  induction h with
  | nil => exact .nil
  | cons hx _ ih =>
    exact .cons (hf _ _ (by simp) hx) (ih fun us x hm => hf us x (by simp [hm]))

theorem Many.imp {R : List TokenKind → β → Prop} {xs : List β} (h : Many P ts xs)
    (hf : ∀ us x, x ∈ xs → P us x → R us x) : Many R ts xs := by
  simpa only [List.map_id] using h.map id hf

theorem Many.forall {xs : List β} {R : β → Prop} (h : Many P ts xs)
    (hr : ∀ us x, P us x → R x) : ∀ x ∈ xs, R x := by
  induction h with
  | nil => simp
  | cons hx _ ih => exact List.forall_mem_cons.2 ⟨hr _ _ hx, ih⟩

theorem Many.length_le {xs : List β} (hs : ∀ us x, P us x → us ≠ []) (h : Many P ts xs) :
    xs.length ≤ ts.length := by
  induction h with
  | nil => exact Nat.le_refl _
  | @cons us vs x xs hx _ ih =>
    have := List.length_pos_iff.2 (hs _ _ hx)
    simp only [List.length_cons, List.length_append]
    omega

theorem Many.avoids {xs : List β} (hs : ∀ us x, P us x → Starts allowed us) (hp : p ∉ allowed)
    (h : Many P ts xs) : Avoids p ts := by
  cases h with
  | nil => exact .nil p
  | cons hx _ => exact (hs _ _ hx).append.avoids hp

theorem Perhaps.avoids {x : Option β} (hs : ∀ us x, P us x → Starts allowed us)
    (hp : p ∉ allowed) (h : Perhaps P ts x) : Avoids p ts := by
  cases h with
  | none => exact .nil p
  | some hx => exact (hs _ _ hx).avoids hp

theorem Enclosed.starts {opening closing : Punctuator} {xs : List β}
    (h : Enclosed opening closing P ts xs) : Starts [opening] ts := by
  cases h
  exact .punctuator _ _

theorem Listed.avoids {opening closing : Punctuator} {xs : List β} (hp : opening ≠ p)
    (h : Listed opening closing P ts xs) : Avoids p ts := by
  cases h with
  | absent => exact .nil p
  | present hx => exact hx.starts.avoids (by simpa using hp.symm)

end Combinators

/-! ## Productions -/

variable {ts : List TokenKind} {constant : Bool}

theorem NameForm.starts {n : Name Unit} (h : NameForm ts n) : Starts [] ts := by
  obtain ⟨ht⟩ := h
  rename_i t text
  refine ⟨t, [], rfl, ?_, ?_⟩
  · rintro rfl
    cases ht
  · rintro p rfl
    cases ht

theorem StringForm.starts {s : StringValue Unit} (h : StringForm ts s) : Starts [] ts := by
  cases h
  exact ⟨_, _, rfl, by simp, by simp⟩

theorem VariableForm.starts {v : Variable Unit} (h : VariableForm ts v) :
    Starts [.dollar] ts := by
  cases h
  exact .punctuator _ _

theorem ValueForm.starts {v : Value Unit} (h : ValueForm constant ts v) :
    Starts [.dollar, .openBracket, .openBrace] ts := by
  cases h with
  | var _ hv => exact hv.starts.mono (by simp)
  | string hs => exact hs.starts.mono (by simp)
  | list => exact (Starts.punctuator _ _).mono (by simp)
  | object => exact (Starts.punctuator _ _).mono (by simp)
  | _ => exact ⟨_, _, rfl, by simp, by simp⟩

theorem ObjectFieldForm.starts {V : List TokenKind → Value Unit → Prop} {f : ObjectField Unit}
    (h : ObjectFieldForm V ts f) : Starts [] ts := by
  obtain ⟨hn, -⟩ := h
  exact hn.starts.append

theorem ArgumentForm.starts {a : Argument Unit} (h : ArgumentForm constant ts a) :
    Starts [] ts := by
  obtain ⟨hn, -⟩ := h
  exact hn.starts.append

theorem DirectiveForm.starts {d : Directive Unit} (h : DirectiveForm constant ts d) :
    Starts [.at] ts := by
  cases h
  exact .punctuator _ _

theorem SelectionSetForm.starts {s : SelectionSet Unit} (h : SelectionSetForm ts s) :
    Starts [.openBrace] ts := by
  obtain ⟨hs⟩ := h
  exact hs.starts

theorem SelectionSetForm.opens {s : SelectionSet Unit} (h : SelectionSetForm ts s) :
    ts.head? = some (.punctuator .openBrace) := by
  obtain ⟨⟨-, -⟩⟩ := h
  rfl

theorem AliasForm.starts {n : Name Unit} (h : AliasForm ts n) : Starts [] ts := by
  obtain ⟨hn⟩ := h
  exact hn.starts.append

theorem SelectionForm.starts {S : List TokenKind → SelectionSet Unit → Prop} {s : Selection Unit}
    (h : SelectionForm S ts s) : Starts [.ellipsis] ts := by
  cases h with
  | field ha hn =>
    cases ha with
    | none => exact hn.starts.append.mono (by simp)
    | some ha => exact ha.starts.append.mono (by simp)
  | spread => exact .punctuator _ _
  | inlineFragment => exact .punctuator _ _

theorem DefaultForm.starts {v : Value Unit} (h : DefaultForm ts v) : Starts [.equals] ts := by
  cases h
  exact .punctuator _ _

theorem VariableDefinitionForm.starts {v : VariableDefinition Unit}
    (h : VariableDefinitionForm ts v) : Starts [.dollar] ts := by
  obtain ⟨hd, hv, -⟩ := h
  cases hd with
  | none => exact hv.starts.append
  | some hs => exact hs.starts.append.mono (by simp)

theorem OperationForm.starts {o : Operation Unit} (h : OperationForm ts o) :
    Starts [.openBrace] ts := by
  cases h with
  | short hs => exact hs.starts
  | full hd =>
    cases hd with
    | none => exact ⟨_, _, rfl, by simp, by simp⟩
    | some hs => exact hs.starts.append.mono (by simp)

theorem FragmentForm.starts {f : Fragment Unit} (h : FragmentForm ts f) : Starts [] ts := by
  obtain ⟨hd, -⟩ := h
  cases hd with
  | none => exact ⟨_, _, rfl, by simp, by simp⟩
  | some hs => exact hs.starts.append

theorem DefinitionForm.starts {d : Definition Unit} (h : DefinitionForm ts d) :
    Starts [.openBrace] ts := by
  cases h with
  | operation ho => exact ho.starts
  | fragment hf => exact hf.starts.mono (by simp)

/-! ## Definitions end with their selections -/

theorem SelectionSetForm.ends {s : SelectionSet Unit} (h : SelectionSetForm ts s) :
    ts.getLast? = some (.punctuator .closeBrace) := by
  obtain ⟨⟨-, -⟩⟩ := h
  rw [← List.cons_append, List.getLast?_concat]

theorem DefinitionForm.ends {d : Definition Unit} (h : DefinitionForm ts d) :
    ts.getLast? = some (.punctuator .closeBrace) := by
  cases h with
  | operation ho =>
    cases ho with
    | short hs => exact hs.ends
    | full _ _ _ _ hs => simp [List.getLast?_append, List.getLast?_cons, hs.ends]
  | fragment hf =>
    obtain ⟨-, -, -, -, -, hs⟩ := hf
    simp [List.getLast?_append, List.getLast?_cons, hs.ends]

theorem Many.definitions_end {ds : List (Definition Unit)} (h : Many DefinitionForm ts ds)
    (hne : ds ≠ []) : ts.getLast? = some (.punctuator .closeBrace) := by
  induction h with
  | nil => exact absurd rfl hne
  | @cons us vs d ds hd hds ih =>
    cases hds with
    | nil => simpa using hd.ends
    | cons => simp [List.getLast?_append, ih]

end QueryDoc.Grammar
