import QueryDoc.StringLiteral.Escape
import QueryDoc.StringLiteral.Block

/-!
# String literals

The value of a literal as it stands in a document, quotes included. A literal
that starts with three quotes is a block string; any other is a single-line
string, and the two are decoded by different rules.
-/
namespace QueryDoc.StringLiteral

/-- Takes `ending` off the end of a list, if it is there. -/
def dropSuffix? (ending cs : List Char) : Option (List Char) :=
  if ending.isSuffixOf cs then some (cs.take (cs.length - ending.length)) else none

/-- The raw text of a literal starts a block string. -/
def isBlock (raw : List Char) : Bool := tripleQuote.isPrefixOf raw

/-- The characters that a literal denotes. -/
def decode (raw : List Char) : Except StringError (List Char) :=
  match raw with
  | '"' :: '"' :: '"' :: rest =>
    match dropSuffix? tripleQuote rest with
    | some content => .ok (dedent content)
    | none => .error .unterminated
  | '"' :: rest =>
    match dropSuffix? ['"'] rest with
    | some content => unescape content
    | none => .error .unterminated
  | _ => .error .unterminated

end QueryDoc.StringLiteral
