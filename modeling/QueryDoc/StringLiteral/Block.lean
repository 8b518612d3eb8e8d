import QueryDoc.Text.Char
import QueryDoc.Text.Line

/-!
# Block strings

The content of a block string is read line by line. Blank lines at both ends
are dropped, and what the indented lines have in common is taken off every line
that is left. The common indent looks only at lines after the first that are
not blank, and of those only at the ones that are indented at all, so one line
at the margin does not keep the others where they are. The first line is cut
like any other.

Three quotes inside a block string are written with a backslash in front.
-/
namespace QueryDoc.StringLiteral

/-- Three quotes, which open and close a block string. -/
def tripleQuote : List Char := ['"', '"', '"']

/-- Takes the backslash off every escaped triple quote, left to right. -/
def unescapeTriples : List Char → List Char
  | '\\' :: '"' :: '"' :: '"' :: cs => '"' :: '"' :: '"' :: unescapeTriples cs
  | c :: cs => c :: unescapeTriples cs
  | [] => []

/-- Puts a backslash in front of every triple quote, left to right. -/
def escapeTriples : List Char → List Char
  | '"' :: '"' :: '"' :: cs => '\\' :: '"' :: '"' :: '"' :: escapeTriples cs
  | c :: cs => c :: escapeTriples cs
  | [] => []

/-- Spaces and tabs at the start of a line. -/
def indentOf (line : List Char) : Nat := (line.takeWhile isBlank).length

def isBlankLine (line : List Char) : Bool := line.all isBlank

/-- The least indent of the indented lines after the first, zero if there are
none. -/
def commonIndent (lines : List (List Char)) : Nat :=
  ((((lines.drop 1).filter (fun l => !isBlankLine l)).map indentOf).filter (0 < ·)).min?.getD 0

/-- Drops the blank lines at both ends. -/
def trimBlankLines (lines : List (List Char)) : List (List Char) :=
  ((lines.dropWhile isBlankLine).reverse.dropWhile isBlankLine).reverse

/-- Joins lines by line feeds. -/
def joinLines (lines : List (List Char)) : List Char := ['\n'].intercalate lines

/-- The characters that the content of a block string denotes. -/
def dedent (content : List Char) : List Char :=
  let lines := splitLines content
  let indent := commonIndent lines
  unescapeTriples
    (joinLines ((trimBlankLines lines).map fun l => l.drop (min (indentOf l) indent)))

/-- A block literal for the given characters, with the quotes on lines of their
own. -/
def quoteBlock (cs : List Char) : List Char :=
  tripleQuote ++ '\n' :: (escapeTriples cs ++ '\n' :: tripleQuote)

end QueryDoc.StringLiteral
