import QueryDoc.Parse.Error

/-!
# Rendering syntax errors

An error is shown on one line, or in detail with the line of the source it
points into and carets below. Lines are numbered as the reader of the enclosing
file counts them. Carets stand under the characters of the span that are on its
first line, and there is one caret at least, so an empty span can be seen too.
A span whose line the source does not have is shown without a snippet.
-/
namespace QueryDoc

/-- The character `c`, `n` times. -/
def fill (c : Char) (n : Nat) : String := String.ofList (List.replicate n c)

/-- A number of at least two columns, spaces first. -/
def lineNumber (n : Nat) : String :=
  let digits := toString n
  fill ' ' (2 - digits.length) ++ digits

/-- Blanks as wide as a line number. -/
def lineMargin (n : Nat) : String := fill ' ' (lineNumber n).length

/-- Carets under a span that starts on the given line. -/
def Span.caretCount (span : Span) (line : List Char) : Nat :=
  let stop := if span.stop.line = span.start.line then span.stop.column else line.length
  max (stop - span.start.column) 1

/-- The line that a span starts on, with carets under the span. -/
def Source.snippet (source : Source) (span : Span) : Option String :=
  (source.line? span.start.line).map fun line =>
    let number := (source.place span.start).line
    lineMargin number ++ " |\n" ++
      lineNumber number ++ " | " ++ String.ofList line ++ "\n" ++
      lineMargin number ++ " | " ++ fill ' ' span.start.column ++
        fill '^' (span.caretCount line) ++ "\n"

/-- The line that the span of a note starts on, with a mark under its start. -/
def Source.noteSnippet (source : Source) (span : Span) : Option String :=
  (source.line? span.start.line).map fun line =>
    let number := (source.place span.start).line
    "     " ++ lineNumber number ++ " | " ++ String.ofList line ++ "\n" ++
      "     " ++ lineMargin number ++ " | " ++ fill ' ' span.start.column ++ "-\n"

/-- A note of an error in a source. -/
def Source.renderNote (source : Source) (note : Note) : String :=
  "   = " ++ note.kind.label ++ ": " ++ note.message ++ "\n" ++
    ((note.span.bind source.noteSnippet).getD "")

namespace ParseError

/-- The error on one line. -/
def oneLine (e : ParseError) : String :=
  e.source.name ++ ":" ++ toString e.place.line ++ ":" ++ toString e.place.column ++
    ": Syntax Error: " ++ e.message ++ " (in " ++ e.production.text ++ " at offset " ++
    toString e.offset ++ ")"

/-- The error with the line it points into and with its notes. -/
def detailed (e : ParseError) : String :=
  "error: " ++ e.message ++ "\n" ++
    "  --> " ++ e.source.name ++ ":" ++ toString e.place.line ++ ":" ++
      toString e.place.column ++ " (in " ++ e.production.text ++ ")\n" ++
    (e.source.snippet e.span).getD "" ++
    String.join (e.notes.map e.source.renderNote)

end ParseError

end QueryDoc
