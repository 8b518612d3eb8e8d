import QueryDoc.Proofs.Grammar.Viable
import QueryDoc.Proofs.Location.Entry

/-!
# Errors point at the first wrong token

One token of lookahead settles what is to be parsed, with the end of the input after
it. So an error that blames a token stands at the first token that no input of the
grammar goes on with, and depends on nothing behind that token. The limit on nesting
does not show in the grammar.
-/
namespace QueryDoc
open Grammar

/-- The grammar of what is to be parsed. -/
def Entry.language : Entry → Language TokenKind
  | .document => words DocumentForm
  | .value => words (ValueForm false)
  | .constValue => words (ValueForm true)
  | .type => words TypeForm

theorem Parser.settles_whole (entry : Entry) (c : Cursor) :
    Settles entry.language (token .endOfInput) (whole entry : Parser (Node Span)) c := by
  cases entry with
  | document => exact .last settles_document fun _ _ => .pure _
  | value => exact .last (settles_wholeValue .anyValue) fun _ _ => .pure _
  | constValue => exact .last (settles_wholeValue .constantValue) fun _ _ => .pure _
  | type => exact .last settles_wholeType fun _ _ => .pure _

section Errors
variable {entry : Entry} {options : ParseOptions} {source : Source} {tokens : List Token}
variable {e : ParseError}

theorem Node.ofTokens_eq_error :
    Node.ofTokens entry options source tokens = .error e ↔
      Parser.whole entry ⟨tokens, none⟩ = .error e.fault ∧ e.source = source := by
  obtain ⟨fault, src⟩ := e
  rw [Node.ofTokens_eq, Parser.run]
  cases Parser.whole (α := Span) entry ⟨tokens, none⟩ with
  | ok r => simp [Except.map]
  | error f =>
    simp only [Except.map, Except.error.injEq, ParseError.mk.injEq]
    exact and_congr_right fun _ => eq_comm

theorem Cursor.ends_of_last (h : tokens.getLast?.map Token.kind = some .endOfInput) :
    (Cursor.mk tokens none).Ends := by
  obtain ⟨t, ht, hkind⟩ := Option.map_eq_some_iff.1 h
  exact List.mem_map.2 ⟨t, List.mem_of_getLast? ht, hkind⟩

/-- Errors start where a token starts and stop where one stops, and their notes are about
tokens. -/
theorem Node.error_standsIn
    (hlast : tokens.getLast?.map Token.kind = some .endOfInput)
    (h : Node.ofTokens entry options source tokens = .error e) : e.fault.StandsIn tokens := by
  have hrun := (Node.ofTokens_eq_error.1 h).1
  cases Parser.settles_whole entry ⟨tokens, none⟩ (Cursor.ends_of_last hlast) with
  | took taken rest x last split run =>
    simp only at split
    rw [split, run rest rfl] at hrun
    cases hrun
  | setApart fault run cause place =>
    rw [run] at hrun
    obtain rfl := Except.error.inj hrun
    exact place
  | blamed taken rest t fault split run span viable dead atEnd notes =>
    simp only at split run
    subst split
    obtain rfl : fault = e.fault := Except.error.inj ((run rest).symm.trans hrun)
    have ht : t ∈ taken ++ t :: rest := by simp
    exact ⟨⟨t, ht, congrArg Span.start span⟩, ⟨t, ht, congrArg Span.stop span⟩,
      fun n hn s hs => ⟨t, ht, notes n hn s hs⟩⟩

/-- Errors start where a token starts. -/
theorem Node.error_starts_at_token
    (hlast : tokens.getLast?.map Token.kind = some .endOfInput)
    (h : Node.ofTokens entry options source tokens = .error e) :
    ∃ t ∈ tokens, e.span.start = t.span.start := (Node.error_standsIn hlast h).start

/-- The token at a position is the first that no input of the grammar goes on with. -/
structure FirstWrong (L : Language TokenKind) (tokens : List Token) (i : Nat) (t : Token) :
    Prop where
  here : tokens[i]? = some t
  before : ∃ more, kindsOf (tokens.take i) ++ more ∈ L
  wrong : ∀ more, kindsOf (tokens.take (i + 1)) ++ more ∉ L

/-- **Errors point at the first token that cannot be right.** What was read before can
be completed, with the token it cannot; at the end of the input, what was read before
is not complete. Whatever else comes after the token, the error is the same. -/
theorem Node.error_at_firstWrong (entry : Entry) (options : ParseOptions) (source : Source)
    (tokens : List Token) (e : ParseError)
    (hlast : tokens.getLast?.map Token.kind = some .endOfInput)
    (h : Node.ofTokens entry options source tokens = .error e) (hcause : e.cause.blamesToken) :
    ∃ i t, FirstWrong entry.language tokens i t ∧ e.span = t.span ∧
      (∀ expected, e.cause = .unexpectedEnd expected →
        t.kind = .endOfInput ∧ kindsOf (tokens.take i) ∉ entry.language) ∧
      ∀ others : List Token, others.take (i + 1) = tokens.take (i + 1) →
        Node.ofTokens entry options source others = .error e := by
  obtain ⟨hrun, hsource⟩ := Node.ofTokens_eq_error.1 h
  cases Parser.settles_whole entry ⟨tokens, none⟩ (Cursor.ends_of_last hlast) with
  | took taken rest x last split run =>
    simp only at split
    rw [split, run rest rfl] at hrun
    cases hrun
  | setApart fault run cause =>
    rw [run] at hrun
    obtain rfl := Except.error.inj hrun
    exact absurd (cause.symm.trans hcause) (by decide)
  | blamed taken rest t fault split run span viable dead atEnd =>
    simp only at split run
    subst split
    obtain rfl : fault = e.fault := Except.error.inj ((run rest).symm.trans hrun)
    -- nothing but the end of the input may follow a word
    have hword {more : List TokenKind} : kindsOf taken ++ t.kind :: more ∉ entry.language := by
      intro hmem
      exact dead _ hmem _ (mem_token.2 rfl) (more ++ [.endOfInput]) (by simp)
    have htake : (taken ++ t :: rest).take (taken.length + 1) = taken ++ [t] := by
      simp [List.take_append]
    refine ⟨taken.length, t, ⟨by simp, ?_, ?_⟩, span, fun expected he => ⟨atEnd expected he, ?_⟩,
      fun others hothers => ?_⟩
    · simpa using viable
    · intro more
      rw [htake]
      simpa using hword
    · intro hmem
      rw [List.take_left] at hmem
      have ht := atEnd expected he
      exact dead _ hmem _ (mem_token.2 rfl) [] (by rw [ht])
    · rw [htake] at hothers
      refine Node.ofTokens_eq_error.2 ⟨?_, hsource⟩
      rw [← List.take_append_drop (taken.length + 1) others, hothers, List.append_assoc]
      exact run _

end Errors

/-- An open bracket and a dollar sign. -/
def bracketDollar : List Token :=
  [⟨.punctuator .openBracket, ⟨⟨0, 0, 0, 0⟩, ⟨0, 1, 1, 1⟩⟩⟩,
    ⟨.punctuator .dollar, ⟨⟨0, 1, 1, 1⟩, ⟨0, 2, 2, 2⟩⟩⟩,
    ⟨.endOfInput, ⟨⟨0, 2, 2, 2⟩, ⟨0, 2, 2, 2⟩⟩⟩]

/-- The dollar sign cannot come in a constant, whatever follows it. -/
theorem bracketDollar_firstWrong :
    ∃ i t, FirstWrong Entry.constValue.language bracketDollar i t ∧
      t.span = ⟨⟨0, 1, 1, 1⟩, ⟨0, 2, 2, 2⟩⟩ ∧
      ∀ others : List Token, others.take (i + 1) = bracketDollar.take (i + 1) →
        Node.ofTokens .constValue .standard (.ofText "[$") others = .error
          ⟨⟨.variableIn .constantValue, .variable, t.span, []⟩, .ofText "[$"⟩ := by
  obtain ⟨i, t, hwrong, hspan, -, hothers⟩ :=
    Node.error_at_firstWrong .constValue .standard (.ofText "[$") bracketDollar
      ⟨⟨.variableIn .constantValue, .variable, ⟨⟨0, 1, 1, 1⟩, ⟨0, 2, 2, 2⟩⟩, []⟩, .ofText "[$"⟩
      rfl rfl rfl
  refine ⟨i, t, hwrong, hspan.symm, fun others h => ?_⟩
  rw [← hspan]
  exact hothers others h

end QueryDoc
