import QueryDoc.Note
import QueryDoc.StringLiteral

/-!
# Tokens

A token is a lexical unit with its span. Literals keep their raw text: the sign
and the digits of a number, a string with its quotes. The names `true`, `false`
and `null` are kinds of their own, and text that forms no unit is a token too,
which carries its own error message.
-/
namespace QueryDoc

inductive Punctuator where
  | at
  | bang
  | colon
  | closeBrace
  | openBrace
  | dollar
  | ellipsis
  | equals
  | closeParen
  | openParen
  | closeBracket
  | openBracket
deriving DecidableEq, Repr

def Punctuator.text : Punctuator → String
  | .at => "@"
  | .bang => "!"
  | .colon => ":"
  | .closeBrace => "\x7d"
  | .openBrace => "\x7b"
  | .dollar => "$"
  | .ellipsis => "..."
  | .equals => "="
  | .closeParen => ")"
  | .openParen => "("
  | .closeBracket => "]"
  | .openBracket => "["

inductive TokenKind where
  | punctuator (p : Punctuator)
  | name (text : String)
  | int (text : String)
  | float (text : String)
  | string (raw : String)
  | boolean (value : Bool)
  | null
  | endOfInput
  | error (message : String) (notes : List Note)
deriving DecidableEq, Repr

/-- How a message names a token. -/
def TokenKind.describe : TokenKind → String
  | .punctuator p => p.text
  | .name text => text
  | .int text => text
  | .float text => text
  | .string _ => "string"
  | .boolean true => "true"
  | .boolean false => "false"
  | .null => "null"
  | .endOfInput => "end of input"
  | .error message _ => "tokenization error: " ++ message

/-- The text of a token that may serve as a name. The literals `true`, `false`
and `null` may. -/
def TokenKind.nameText? : TokenKind → Option String
  | .name text => some text
  | .boolean true => some "true"
  | .boolean false => some "false"
  | .null => some "null"
  | _ => none

structure Token where
  kind : TokenKind
  span : Span
deriving DecidableEq, Repr

end QueryDoc
