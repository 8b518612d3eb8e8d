import QueryDoc.Proofs.Location.Irrelevance
import QueryDoc.Proofs.Location.Seen

/-!
# The end of input

Input may end with its last token, or with a token for the end of input. The parser
takes both for the same, and never looks at what comes behind such a token. Only
locations can tell them apart: what stands at the end of input stands behind the last
token in the one case and where the token for the end stands in the other.
-/
namespace QueryDoc

/-- Outcomes that differ in locations at most: trees that are equal without them, or the
same error at spans that may differ. -/
inductive SameButLocations : Except ParseError (Node (Option Location)) →
    Except ParseError (Node (Option Location)) → Prop where
  | ok {n n'} (trees : n.unlocated = n'.unlocated) : SameButLocations (.ok n) (.ok n')
  | error {e e'} (message : e.message = e'.message) (cause : e.cause = e'.cause)
    (production : e.production = e'.production) (notes : e.notes = e'.notes) :
    SameButLocations (.error e) (.error e')

theorem SameButLocations.of_fault {f f' : Fault} (cause : f.cause = f'.cause)
    (production : f.production = f'.production) (remarks : f.remarks = f'.remarks)
    (source : Source) : SameButLocations (.error ⟨f, source⟩) (.error ⟨f', source⟩) := by
  refine .error ?_ cause production ?_
  · exact congrArg Cause.message cause
  · simp only [ParseError.notes, ParseError.cause, cause, remarks]

namespace View

/-- Without positions, a token for the end of input is the end of the list. -/
theorem tokens_closed {tokens : List Token} (noEnd : ∀ t ∈ tokens, t.kind ≠ .endOfInput)
    (note : Note → Note) (last : Option Position) (s : Span) :
    (placeless note).tokens last (tokens ++ [⟨.endOfInput, s⟩]) =
      (placeless note).tokens last tokens := by
  induction tokens generalizing last with
  | nil => rfl
  | cons t rest ih =>
    obtain ⟨ht, hrest⟩ := List.forall_mem_cons.1 noEnd
    rw [List.cons_append, tokens_cons _ _ _ ht, tokens_cons _ _ _ ht, ih hrest]

end View

namespace Node

variable (entry : Entry) (options : ParseOptions) (source : Source)

/-- Tokens that are all the same up to the end of input form the same, or fail in the
same way. -/
theorem ofTokens_of_clear {tokens tokens' : List Token}
    (same : View.clear.tokens none tokens = View.clear.tokens none tokens') :
    ofTokens entry options source tokens = ofTokens entry options source tokens' := by
  have cleared (tokens : List Token) : ofTokens entry options source tokens =
      ((Parser.whole entry).run source (View.clear.tokens none tokens)).map
        (Node.map (options.locate source)) := by
    rw [ofTokens_eq, Parser.run_seen]
    cases (Parser.whole entry).run source tokens with
    | ok n => exact congrArg Except.ok (n.map_map View.clear.span (options.locate source)).symm
    | error e =>
      simp only [Except.map, Except.mapError, View.clear_fault]
  rw [cleared, cleared, same]

/-- Tokens that are the same up to the end of input, positions apart, form the same but
for locations. -/
theorem ofTokens_of_placeless {tokens tokens' : List Token}
    (same : (View.placeless id).tokens none tokens = (View.placeless id).tokens none tokens') :
    SameButLocations (ofTokens entry options source tokens)
      (ofTokens entry options source tokens') := by
  rw [ofTokens_eq, ofTokens_eq]
  rcases Parser.run_placeless entry same source source with
    ⟨n, n', hn, hn', trees⟩ | ⟨f, f', hf, hf', faults⟩
  · rw [hn, hn']
    exact .ok (by simpa only [unlocated, map_map] using trees)
  · rw [hf, hf']
    obtain ⟨cause, production, -, remarks⟩ := Fault.mk.inj faults
    rw [View.cause_of_id _ rfl, View.cause_of_id _ rfl] at cause
    exact .of_fault cause production remarks source

/-- **A token for the end of input changes nothing.** Tokens, none of them for the end
of input, form the same without such a token behind them and with one, wherever it
stands, apart from locations: trees that are equal without these, or an error with the
same message, cause, production and notes. With more tokens behind it the outcome is
the very same. -/
theorem endToken_immaterial {tokens : List Token} (noEnd : ∀ t ∈ tokens, t.kind ≠ .endOfInput)
    (s : Span) (later : List Token) :
    SameButLocations (ofTokens entry options source tokens)
      (ofTokens entry options source (tokens ++ [⟨.endOfInput, s⟩])) ∧
    ofTokens entry options source (tokens ++ ⟨.endOfInput, s⟩ :: later) =
      ofTokens entry options source (tokens ++ [⟨.endOfInput, s⟩]) :=
  ⟨ofTokens_of_placeless entry options source (View.tokens_closed noEnd id none s).symm,
    ofTokens_of_clear entry options source (View.clear.tokens_end none tokens later rfl)⟩

/-- A list that is open at the end of input is not closed by what comes behind it, and
it is open all the same if no token says that input has ended. -/
theorem openList_ends_alike :
    (∀ t ∈ [⟨.punctuator .openBracket, pointAt 0⟩], (t : Token).kind ≠ .endOfInput) ∧
    SameButLocations
      (ofTokens .value .standard (.ofText "[") [⟨.punctuator .openBracket, pointAt 0⟩])
      (ofTokens .value .standard (.ofText "[")
        [⟨.punctuator .openBracket, pointAt 0⟩, ⟨.endOfInput, pointAt 1⟩]) ∧
    ofTokens .value .standard (.ofText "[")
        [⟨.punctuator .openBracket, pointAt 0⟩, ⟨.endOfInput, pointAt 1⟩,
          ⟨.punctuator .closeBracket, pointAt 1⟩] =
      .error ⟨⟨.unexpectedEnd [.literal "]"], .listValue, pointAt 1, []⟩, .ofText "["⟩ := by
  have noEnd : ∀ t ∈ [⟨.punctuator .openBracket, pointAt 0⟩], (t : Token).kind ≠ .endOfInput := by
    simp
  obtain ⟨alike, same⟩ := endToken_immaterial .value .standard (.ofText "[") noEnd (pointAt 1)
    [⟨.punctuator .closeBracket, pointAt 1⟩]
  exact ⟨noEnd, alike, same.trans rfl⟩

end Node

end QueryDoc
