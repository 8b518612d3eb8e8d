import QueryDoc.Proofs.Grammar.Carried
import QueryDoc.Proofs.Grammar.Completeness
import QueryDoc.Proofs.Grammar.Soundness

/-!
# The parser accepts its grammar

The tokens of an input are followed by one token for its end. A document, a value
or a type is returned for them if and only if the grammar derives it from their
kinds and it nests within the limit. Without locations nodes carry nothing, so a
tree that is returned is a tree of the grammar.
-/
namespace QueryDoc
open Grammar

variable {β : Type} {source : Source} {tokens : List Token} {kinds : List TokenKind}

theorem Parser.run_eq_ok {p : Parser β} {x : β} :
    p.run source tokens = .ok x ↔ ∃ c, p ⟨tokens, none⟩ = .ok (x, c) := by
  unfold Parser.run
  cases p ⟨tokens, none⟩ with
  | error e => simp
  | ok r => simp [Prod.ext_iff]

/-- The tree without anything in its nodes, as the parser returns it. -/
def Document.bare (d : Document Unit) : Document (Option Location) := d.map fun _ => none

def Value.bare (v : Value Unit) : Value (Option Location) := v.map fun _ => none

def TypeRef.bare (t : TypeRef Unit) : TypeRef (Option Location) := t.map fun _ => none

theorem Document.map_unlocated (d : Document Span) :
    d.map (ParseOptions.unlocated.locate source) = (d.map forget).bare :=
  (Document.map_map forget (fun _ => none) d).symm

theorem Value.map_unlocated (v : Value Span) :
    v.map (ParseOptions.unlocated.locate source) = (v.map forget).bare :=
  (Value.map_map forget (fun _ => none) v).symm

theorem TypeRef.map_unlocated (t : TypeRef Span) :
    t.map (ParseOptions.unlocated.locate source) = (t.map forget).bare :=
  (TypeRef.map_map forget (fun _ => none) t).symm

/-! ## What is derived is returned -/

theorem Parser.Reads.run {p : Parser β} {Q : β → Prop} (source : Source)
    (h : Reads p kinds [.endOfInput] Q)
    (htokens : tokens.map Token.kind = kinds ++ [.endOfInput]) :
    ∃ x, p.run source tokens = .ok x ∧ Q x := by
  obtain ⟨x, c, hp, -, hx⟩ := h ⟨tokens, none⟩ htokens
  exact ⟨x, run_eq_ok.2 ⟨c, hp⟩, hx⟩

theorem Document.ofTokens_of_derived {d : Document Unit}
    (htokens : tokens.map Token.kind = kinds ++ [.endOfInput]) (h : DocumentForm kinds d)
    (hroom : d.nesting ≤ maxDepth) :
    Document.ofTokens .unlocated source tokens = .ok d.bare := by
  obtain ⟨x, hrun, hx⟩ := (Parser.reads_document h hroom).run source htokens
  rw [Document.ofTokens_eq, hrun, Except.map, Document.map_unlocated, hx]

theorem Value.ofTokens_of_derived {v : Value Unit}
    (htokens : tokens.map Token.kind = kinds ++ [.endOfInput]) (h : ValueForm false kinds v)
    (hroom : v.nesting ≤ maxDepth) : Value.ofTokens .unlocated source tokens = .ok v.bare := by
  obtain ⟨x, hrun, hx⟩ := (Parser.reads_wholeValue .anyValue h hroom).run source htokens
  rw [Value.ofTokens_eq, hrun, Except.map, Value.map_unlocated, hx]

theorem TypeRef.ofTokens_of_derived {t : TypeRef Unit}
    (htokens : tokens.map Token.kind = kinds ++ [.endOfInput]) (h : TypeForm kinds t)
    (hroom : t.nesting ≤ maxDepth) : TypeRef.ofTokens .unlocated source tokens = .ok t.bare := by
  obtain ⟨x, hrun, hx⟩ := (Parser.reads_wholeType h hroom).run source htokens
  rw [TypeRef.ofTokens_eq, hrun, Except.map, TypeRef.map_unlocated, hx]

/-! ## What is returned is derived -/

/-- The tokens taken are all but the end, for definitions end with a brace. -/
theorem Document.derived_of_ofTokens {d : Document (Option Location)}
    (htokens : tokens.map Token.kind = kinds ++ [.endOfInput]) (hkinds : .endOfInput ∉ kinds)
    (h : Document.ofTokens .unlocated source tokens = .ok d) :
    ∃ e : Document Unit, d = e.bare ∧ DocumentForm kinds e ∧ e.nesting ≤ maxDepth := by
  rw [Document.ofTokens_eq] at h
  cases hrun : Parser.document.run source tokens with
  | error e =>
    rw [hrun] at h
    cases h
  | ok n =>
    rw [hrun] at h
    obtain rfl := Except.ok.inj h
    obtain ⟨c, hc⟩ := Parser.run_eq_ok.1 hrun
    obtain ⟨ts, hsplit, hform, hroom, hend⟩ := Parser.document_sound hc
    have hall : ts ++ c.kinds = kinds ++ [.endOfInput] := hsplit.symm.trans htokens
    refine ⟨n.map forget, Document.map_unlocated n, ?_, hroom⟩
    suffices hts : ts = kinds by rwa [hts] at hform
    rcases List.append_eq_append_iff.1 hall with ⟨us, hk, hrest⟩ | ⟨us, hk, hrest⟩
    · cases us with
      | nil => simpa using hk.symm
      | cons t us =>
        -- a token of the input was left, though nothing but the end may be left
        have ht : t = .endOfInput := by simpa [hrest, Parser.endsHere] using hend
        exact absurd (by simp [hk, ht]) hkinds
    · cases us with
      | nil => simpa using hk
      | cons t us =>
        -- the end was taken
        obtain ⟨rfl, hus⟩ := List.cons.inj hrest
        obtain ⟨rfl, -⟩ := List.append_eq_nil_iff.1 hus.symm
        obtain ⟨hm, hne⟩ := hform
        have hlast := hm.definitions_end hne
        rw [hk, List.getLast?_concat] at hlast
        cases hlast

/-- **The parser accepts exactly its grammar.** -/
theorem Document.ofTokens_iff_derived (source : Source) (tokens : List Token) (span : Span)
    (htokens : ∀ t ∈ tokens, t.kind ≠ .endOfInput) (d : Document (Option Location)) :
    Document.ofTokens .unlocated source (tokens ++ [⟨.endOfInput, span⟩]) = .ok d ↔
      ∃ e : Document Unit, d = e.bare ∧ DocumentForm (tokens.map Token.kind) e ∧
        e.nesting ≤ maxDepth := by
  have hkinds : (tokens ++ [Token.mk .endOfInput span]).map Token.kind =
      tokens.map Token.kind ++ [.endOfInput] := List.map_append
  constructor
  · intro h
    refine derived_of_ofTokens hkinds ?_ h
    intro hmem
    obtain ⟨t, ht, hkind⟩ := List.mem_map.1 hmem
    exact htokens t ht hkind
  · rintro ⟨e, rfl, hform, hroom⟩
    exact ofTokens_of_derived hkinds hform hroom

theorem shortQuery_derived :
    ∃ e : Document Unit, e.bare = ⟨[.operation ⟨none, .query, none, [], [], .mk
        [.field none ⟨"f", none⟩ [] [] none none] none, none⟩], none⟩ ∧
      DocumentForm [.punctuator .openBrace, .name "f", .punctuator .closeBrace] e := by
  have h := (Document.ofTokens_iff_derived (.ofText "\x7bf\x7d")
    [⟨.punctuator .openBrace, ⟨⟨0, 0, 0, 0⟩, ⟨0, 1, 1, 1⟩⟩⟩, ⟨.name "f", ⟨⟨0, 1, 1, 1⟩, ⟨0, 2, 2, 2⟩⟩⟩,
      ⟨.punctuator .closeBrace, ⟨⟨0, 2, 2, 2⟩, ⟨0, 3, 3, 3⟩⟩⟩] ⟨⟨0, 3, 3, 3⟩, ⟨0, 3, 3, 3⟩⟩ (by decide)
    _).1 ((Document.ofTokens_eq_run _ _ _).trans rfl)
  obtain ⟨e, he, hform, -⟩ := h
  exact ⟨e, he.symm, hform⟩

end QueryDoc
