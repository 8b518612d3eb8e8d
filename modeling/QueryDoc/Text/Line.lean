/-!
# Lines of a text

A line ends at a line feed, at a carriage return, or at a carriage return with
a line feed right after it. The terminators belong to no line, and a text with
n terminators has n + 1 lines, the last of which may be empty. A text falls into
pieces at a separator in the same way.
-/
namespace QueryDoc

/-- A character that ends a line, alone or as part of a pair. -/
def isLineEnd (c : Char) : Bool := c == '\n' || c == '\r'

/-- Puts a character in front of the first line. -/
def consFirst (c : Char) : List (List Char) → List (List Char)
  | [] => [[c]]
  | l :: ls => (c :: l) :: ls

/-- The lines of a text, in order and without their terminators. -/
def splitLines : List Char → List (List Char)
  | [] => [[]]
  | '\r' :: '\n' :: cs => [] :: splitLines cs
  | c :: cs => if isLineEnd c then [] :: splitLines cs else consFirst c (splitLines cs)

/-- The pieces between the places where `sep` stands; there is one at least. -/
def splitChars (sep : Char) : List Char → List (List Char)
  | [] => [[]]
  | c :: cs =>
    if c = sep then [] :: splitChars sep cs else consFirst c (splitChars sep cs)

/-- The pieces of a text between the places where `sep` stands. -/
def splitText (sep : Char) (text : String) : List String :=
  (splitChars sep text.toList).map String.ofList

/-- A line feed and the indentation of `depth` levels, two spaces each. -/
def lineFeed (depth : Nat) : String := "\n" ++ String.ofList (List.replicate (2 * depth) ' ')

end QueryDoc
