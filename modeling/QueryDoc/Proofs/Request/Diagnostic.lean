import QueryDoc.Parse.Diagnostic
import QueryDoc.Proofs.Location.Line
import QueryDoc.Proofs.Request.Places

/-!
# Errors are shown where they are

A detailed report shows the line of the source on which the error starts, with carets
from the place of the error on, and the line of each place that a note points at, with
a mark under the place. The number of the line and the columns come from positions the
lexer has tracked, the line itself comes from splitting the body again. Errors start at
tokens, and a token starts in front of a character that ends no line, so the line that
is shown is the one of the place.
-/
namespace QueryDoc

/-! ## Lines with a mark -/

/-- The number of the line of a place, as the reader of the enclosing file counts it. -/
def LinePlace.number {text : List Char} {offset : Nat} (p : LinePlace text offset)
    (origin : Place) : Nat := lineBreaks p.front + origin.line

/-- The line of a place after its number, and below it a mark at the place. Both stand
behind a margin. -/
def LinePlace.shown {text : List Char} {offset : Nat} (p : LinePlace text offset)
    (origin : Place) (margin mark : String) : String :=
  margin ++ lineNumber (p.number origin) ++ " | " ++ String.ofList (p.before ++ p.after) ++ "\n" ++
    margin ++ lineMargin (p.number origin) ++ " | " ++ fill ' ' p.before.length ++ mark ++ "\n"

/-- The report of an error up to the line that it shows. -/
def ParseError.headline (e : ParseError) : String :=
  "error: " ++ e.message ++ "\n" ++
    "  --> " ++ e.source.name ++ ":" ++ toString e.place.line ++ ":" ++
      toString e.place.column ++ " (in " ++ e.production.text ++ ")\n"

/-! ## Finding the line -/

/-- The place of the position is found by its line and its column. -/
structure LinePlace.Found (source : Source) (p : Position) (l : LinePlace source.chars p.offset) :
    Prop where
  line : source.line? p.line = some (l.before ++ l.after)
  number : (source.place p).line = l.number source.origin
  column : p.column = l.before.length

/-- The position stands in front of a character that ends no line, or at the end. -/
def Position.OnLine (text : List Char) (p : Position) : Prop :=
  ∃ pre post, text = pre ++ post ∧ p = .after pre ∧ ∀ c ∈ post.head?, isLineEnd c = false

section Found
variable {source : Source} {p : Position} {s : Span}

theorem Position.OnLine.exists_found (h : p.OnLine source.chars) :
    ∃ l : LinePlace source.chars p.offset, l.Found source p := by
  obtain ⟨pre, post, htext, rfl, hpost⟩ := h
  rw [Position.after_eq_measured]
  refine ⟨.ofSplit htext hpost, ?_, ?_, rfl⟩
  · have hline : (splitLines (pre ++ post))[lineBreaks pre]? =
        some (lastLine pre ++ firstLine post) := by
      refine splitLines_getElem fun _ hfeed => ?_
      cases hpost '\n' hfeed
    rw [← htext] at hline
    exact hline
  · exact congrArg (· + source.origin.line) (lineBreaks_frontLines pre).symm

theorem LinePlace.Found.noteSnippet_eq {l : LinePlace source.chars s.start.offset}
    (h : l.Found source s.start) :
    source.noteSnippet s = some (l.shown source.origin "     " "-") := by
  rw [Source.noteSnippet, h.line, h.number, h.column]
  simp only [Option.map_some, LinePlace.shown, String.append_assoc]
  rfl

/-- A place has no more characters in front of it than its line has. -/
theorem Position.IsBoundary.column_le {line : List Char} (h : p.IsBoundary source.body)
    (hline : source.line? p.line = some line) : p.column ≤ line.length := by
  obtain ⟨pre, ⟨post, htext⟩, rfl⟩ := h
  have hchars : source.chars = pre ++ post := htext.symm
  rw [Position.after_eq_measured, Source.line?, hchars] at hline
  rw [Position.after_eq_measured]
  exact length_lastLine_le hline

/-- Carets lie below the line, but for the first one, which may lie behind it. -/
theorem LinePlace.Found.caretCount_le {l : LinePlace source.chars s.start.offset}
    (h : l.Found source s.start) (hstop : s.stop.IsBoundary source.body) :
    s.caretCount (l.before ++ l.after) ≤ max l.after.length 1 := by
  have hlength : (if s.stop.line = s.start.line then s.stop.column
      else (l.before ++ l.after).length) ≤ (l.before ++ l.after).length := by
    split
    · rename_i hsame
      exact hstop.column_le (hsame ▸ h.line)
    · exact Nat.le_refl _
  rw [List.length_append] at hlength
  rw [Span.caretCount, h.column, List.length_append]
  omega

theorem LinePlace.Found.snippet_eq {l : LinePlace source.chars s.start.offset}
    (h : l.Found source s.start) :
    source.snippet s = some (lineMargin (l.number source.origin) ++ " |\n" ++
      l.shown source.origin "" (fill '^' (s.caretCount (l.before ++ l.after)))) := by
  rw [Source.snippet, h.line, h.number, h.column]
  simp only [Option.map_some, LinePlace.shown, String.append_assoc, String.empty_append]

end Found

/-! ## Tokens and errors -/

theorem isLineEnd_of_isInsignificant {c : Char} (h : isInsignificant c = false) :
    isLineEnd c = false := by
  simp only [isInsignificant, Bool.or_eq_false_iff] at h
  rw [isLineEnd, h.1.1.2, h.1.2]
  rfl

/-- Tokens start on a line, and so does what their notes point at. -/
theorem tokenize_onLine (source : Source) :
    ∀ t ∈ tokenize source.body, t.span.start.OnLine source.chars ∧
      ∀ s ∈ t.kind.noteSpans, s.start.OnLine source.chars := by
  intro t ht
  obtain ⟨before, left, origin, hleft⟩ := tokenize_origin source.body t ht
  have hstart : t.span.start.OnLine source.chars :=
    ⟨before, left, origin.body_eq, origin.start_eq,
      fun c hc => isLineEnd_of_isInsignificant (hleft c hc)⟩
  refine ⟨hstart, fun s hs => ?_⟩
  rw [origin.noteSpans_eq s hs]
  exact hstart

theorem ParseError.detailed_eq (e : ParseError) :
    e.detailed = e.headline ++ (e.source.snippet e.span).getD "" ++
      String.join (e.notes.map e.source.renderNote) := rfl

/-- **Errors are shown where they are.** The report of an error has the line on which
the error starts, with carets that begin below the character of the error, one of them
at least; all but the first lie below the line. Each note that points at a place is
followed by the line of that place, with a mark below the place; and every note of a
token can be shown so. -/
theorem diagnostic_exact (source : Source) :
    (∀ entry options e, Node.parse entry options source = .error e →
      (∃ (l : LinePlace source.chars e.offset) (carets : Nat),
        1 ≤ carets ∧ carets ≤ max l.after.length 1 ∧
        e.detailed = e.headline ++
          (lineMargin (l.number source.origin) ++ " |\n" ++
            l.shown source.origin "" (fill '^' carets)) ++
          String.join (e.notes.map source.renderNote)) ∧
      ∀ n ∈ e.notes, ∀ s ∈ n.span, ∃ l : LinePlace source.chars s.start.offset,
        source.renderNote n = "   = " ++ n.kind.label ++ ": " ++ n.message ++ "\n" ++
          l.shown source.origin "     " "-") ∧
    ∀ t ∈ tokenize source.body, ∀ s ∈ t.kind.noteSpans,
      ∃ l : LinePlace source.chars s.start.offset,
        source.noteSnippet s = some (l.shown source.origin "     " "-") := by
  refine ⟨fun entry options e h => ?_, fun t ht s hs => ?_⟩
  · have hsource := (Node.ofTokens_eq_error.1 h).2
    have place := Node.error_standsIn (tokenize_ends source.body) h
    constructor
    · obtain ⟨t, ht, hstart⟩ := place.start
      obtain ⟨u, hu, hstop⟩ := place.stop
      have honLine : e.span.start.OnLine source.chars :=
        hstart ▸ (tokenize_onLine source t ht).1
      obtain ⟨l, found⟩ := honLine.exists_found
      have hboundary : e.span.stop.IsBoundary source.body :=
        hstop ▸ (tokenize_boundaries source.body u hu).2
      refine ⟨l, e.span.caretCount (l.before ++ l.after), Nat.le_max_right _ _,
        found.caretCount_le hboundary, ?_⟩
      rw [e.detailed_eq, hsource, found.snippet_eq]
      rfl
    · intro n hn s hs
      obtain ⟨t, ht, hspan⟩ := place.notes n hn s hs
      obtain ⟨l, found⟩ := ((tokenize_onLine source t ht).2 s hspan).exists_found
      refine ⟨l, ?_⟩
      rw [Source.renderNote, hs, Option.bind_some, found.noteSnippet_eq, Option.getD_some]
  · obtain ⟨l, found⟩ := ((tokenize_onLine source t ht).2 s hs).exists_found
    exact ⟨l, found.noteSnippet_eq⟩

/-- A string that is left open on the second line, in a file that goes on before. -/
def openQuote : Source := ⟨"\r\n \"a", "query", ⟨3, 5⟩⟩

/-- The string, with the note that points at its quote. -/
def openQuoteToken : Token :=
  ⟨.error LexicalFault.stringAtEnd.message (LexicalFault.stringAtEnd.notes ⟨1, 1, 1, 3⟩),
    ⟨⟨1, 1, 1, 3⟩, ⟨1, 3, 3, 5⟩⟩⟩

theorem tokenize_openQuote :
    tokenize openQuote.body = [openQuoteToken, ⟨.endOfInput, .emptyAt ⟨1, 3, 3, 5⟩⟩] := by
  have chars : openQuote.body.toList = ['\r', '\n', ' ', '"', 'a'] := by decide
  rw [tokenize, Token.listOf, chars, Lexical.listFrom_cons (c := '"') rfl, Lexical.listFrom_end rfl]
  rfl

/-- The error that the string gives rise to. -/
def openQuoteError : ParseError :=
  ⟨⟨.lexical LexicalFault.stringAtEnd.message (LexicalFault.stringAtEnd.notes ⟨1, 1, 1, 3⟩), .value,
    openQuoteToken.span, []⟩, openQuote⟩

theorem parse_openQuote : Node.parse .value .standard openQuote = .error openQuoteError := by
  rw [Node.parse, tokenize_openQuote]
  rfl

/-- The line of the quote is the fourth one of the file. It is shown for the error and
for the note. -/
theorem openQuote_shown :
    openQuoteError.detailed = "error: Unterminated string literal\n  --> query:4:2 (in Value)\n" ++
        "   |\n 4 |  \"a\n   |  ^^\n" ++ "   = note: String started here\n" ++
        "      4 |  \"a\n        |  -\n" ++ "   = help: Add closing `\"`\n" ∧
      (∃ (l : LinePlace openQuote.chars openQuoteError.offset) (carets : Nat),
        1 ≤ carets ∧ carets ≤ max l.after.length 1 ∧
        openQuoteError.detailed = openQuoteError.headline ++
          (lineMargin (l.number openQuote.origin) ++ " |\n" ++
            l.shown openQuote.origin "" (fill '^' carets)) ++
          String.join (openQuoteError.notes.map openQuote.renderNote)) ∧
      ∃ l : LinePlace openQuote.chars 3,
        openQuote.renderNote (.pointing "String started here" (.emptyAt ⟨1, 1, 1, 3⟩)) =
            "   = note: String started here\n" ++ l.shown openQuote.origin "     " "-" ∧
          ∃ l' : LinePlace openQuote.chars 3,
            openQuote.noteSnippet (.emptyAt ⟨1, 1, 1, 3⟩) =
              some (l'.shown openQuote.origin "     " "-") := by
  obtain ⟨hparse, htokens⟩ := diagnostic_exact openQuote
  obtain ⟨herror, hnotes⟩ := hparse _ _ _ parse_openQuote
  have hmem : openQuoteToken ∈ tokenize openQuote.body := by simp [tokenize_openQuote]
  obtain ⟨l, hl⟩ := hnotes (.pointing "String started here" (.emptyAt ⟨1, 1, 1, 3⟩)) (.head _) _ rfl
  obtain ⟨l', hl'⟩ := htokens openQuoteToken hmem (.emptyAt ⟨1, 1, 1, 3⟩) (.head _)
  exact ⟨by decide +kernel, herror, l, hl, l', hl'⟩

end QueryDoc
