import QueryDoc.Text.Position
import QueryDoc.Text.Line

/-!
# Sources

A source is a body of text together with what is needed to report places in
it: a name, and where the body starts in the file that encloses it. Readers see
lines and columns counted from one in that file. The column shift touches only
the first line of the body, because every later line starts at the first column
of the enclosing file.
-/
namespace QueryDoc

/-- A line and a column, counted from one, as shown to a reader. -/
structure Place where
  line : Nat
  column : Nat
deriving DecidableEq, Repr

/-- A text with the name and the starting place it is reported under. -/
structure Source where
  body : String
  name : String
  origin : Place
deriving DecidableEq, Repr

namespace Source

/-- A source that stands alone under the default name. -/
def ofText (body : String) : Source := ⟨body, "GraphQL request", ⟨1, 1⟩⟩

def withName (s : Source) (name : String) : Source := { s with name := name }

/-- Moves the starting place; a line or column below one counts as one. -/
def startingAt (s : Source) (line column : Nat) : Source :=
  { s with origin := ⟨max line 1, max column 1⟩ }

/-- The characters of the body. -/
def chars (s : Source) : List Char := s.body.toList

/-- The place at which a reader finds a position of the body. -/
def place (s : Source) (p : Position) : Place where
  line := p.line + s.origin.line
  column := if p.line = 0 then p.column + s.origin.column else p.column + 1

/-- The line of the body with the given number, counted from zero. -/
def line? (s : Source) (n : Nat) : Option (List Char) := (splitLines s.chars)[n]?

end Source

/-- A span of a source. -/
structure Location where
  span : Span
  source : Source
deriving DecidableEq, Repr

/-- The characters left after the first `n` bytes, if these end between two
characters. -/
def dropBytes : Nat → List Char → Option (List Char)
  | 0, cs => some cs
  | _ + 1, [] => none
  | n + 1, c :: cs => if c.utf8Size ≤ n + 1 then dropBytes (n + 1 - c.utf8Size) cs else none

/-- The characters of the first `n` bytes, if these end between two characters. -/
def takeBytes : Nat → List Char → Option (List Char)
  | 0, _ => some []
  | _ + 1, [] => none
  | n + 1, c :: cs =>
    if c.utf8Size ≤ n + 1 then (takeBytes (n + 1 - c.utf8Size) cs).map (c :: ·) else none

theorem dropBytes_append (cs ds : List Char) : dropBytes (byteLength cs) (cs ++ ds) = some ds := by
  induction cs with
  | nil => simp only [byteLength, List.nil_append, dropBytes]
  | cons c cs ih =>
    obtain ⟨n, hn⟩ : ∃ n, byteLength (c :: cs) = n + 1 :=
      ⟨byteLength (c :: cs) - 1, by have := c.utf8Size_pos; simp only [byteLength]; omega⟩
    have hc : c.utf8Size ≤ n + 1 := by simp only [byteLength] at hn; omega
    have hr : n + 1 - c.utf8Size = byteLength cs := by simp only [byteLength] at hn; omega
    rw [hn, List.cons_append, dropBytes, if_pos hc, hr, ih]

theorem takeBytes_append (cs ds : List Char) : takeBytes (byteLength cs) (cs ++ ds) = some cs := by
  induction cs with
  | nil => simp only [byteLength, List.nil_append, takeBytes]
  | cons c cs ih =>
    obtain ⟨n, hn⟩ : ∃ n, byteLength (c :: cs) = n + 1 :=
      ⟨byteLength (c :: cs) - 1, by have := c.utf8Size_pos; simp only [byteLength]; omega⟩
    have hc : c.utf8Size ≤ n + 1 := by simp only [byteLength] at hn; omega
    have hr : n + 1 - c.utf8Size = byteLength cs := by simp only [byteLength] at hn; omega
    rw [hn, List.cons_append, takeBytes, if_pos hc, hr, ih]
    rfl

/-- The text of a location, empty unless both ends fall between characters of
the body and the start is not after the stop. -/
def Location.text (l : Location) : String :=
  if l.span.start.offset ≤ l.span.stop.offset then
    match dropBytes l.span.start.offset l.source.chars with
    | none => ""
    | some rest =>
      ((takeBytes (l.span.stop.offset - l.span.start.offset) rest).map String.ofList).getD ""
  else ""

end QueryDoc
