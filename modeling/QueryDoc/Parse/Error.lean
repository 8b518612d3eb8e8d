import QueryDoc.Text.Source
import QueryDoc.Token

/-!
# Syntax errors

A syntax error says what went wrong, in which production, and over which span
of which source. What went wrong is a cause; the message, the short summary and
the standing advice all follow from it. Parsing itself does not look at the
source, so an error without its source is a type of its own.
-/
namespace QueryDoc

/-- The production of the grammar that was being read. -/
inductive Production where
  | document
  | operationDefinition
  | fragmentDefinition
  | variableDefinition
  | variable
  | selectionSet
  | field
  | fragmentSpread
  | inlineFragment
  | argument
  | objectField
  | directive
  | name
  | namedType
  | listType
  | value
  | listValue
  | objectValue
  | intValue
  | floatValue
  | stringValue
deriving DecidableEq, Repr

def Production.text : Production → String
  | .document => "Document"
  | .operationDefinition => "OperationDefinition"
  | .fragmentDefinition => "FragmentDefinition"
  | .variableDefinition => "VariableDefinition"
  | .variable => "Variable"
  | .selectionSet => "SelectionSet"
  | .field => "Field"
  | .fragmentSpread => "FragmentSpread"
  | .inlineFragment => "InlineFragment"
  | .argument => "Argument"
  | .objectField => "ObjectField"
  | .directive => "Directive"
  | .name => "Name"
  | .namedType => "NamedType"
  | .listType => "ListType"
  | .value => "Value"
  | .listValue => "ListValue"
  | .objectValue => "ObjectValue"
  | .intValue => "IntValue"
  | .floatValue => "FloatValue"
  | .stringValue => "StringValue"

/-- What a production would have accepted. -/
inductive Expected where
  /-- This very text. -/
  | literal (text : String)
  | name
  | value
  | endOfInput
deriving DecidableEq, Repr

namespace Expected

/-- The bare description. -/
def text : Expected → String
  | .literal text => text
  | .name => "name"
  | .value => "value"
  | .endOfInput => "end of input"

/-- The description as it stands in a message, text in backticks. -/
def shown : Expected → String
  | .literal text => "`" ++ text ++ "`"
  | e => e.text

/-- How a message names one alternative or several. -/
def listShown : List Expected → String
  | [e] => e.shown
  | es => "one of " ++ ", ".intercalate (es.map shown)

end Expected

/-- Constructs that must not be empty. -/
inductive Construct where
  | document
  | variableDefinitions
  | argumentList
  | selectionSet
deriving DecidableEq, Repr

def Construct.text : Construct → String
  | .document => "document"
  | .variableDefinitions => "variable definitions"
  | .argumentList => "argument list"
  | .selectionSet => "selection set"

/-- Where a value stands, which decides whether variables may occur in it. -/
inductive ValueContext where
  | anyValue
  | defaultValue
  | variableDirective
  | constantValue
deriving DecidableEq, Repr

def ValueContext.text : ValueContext → String
  | .anyValue => "values"
  | .defaultValue => "variable default values"
  | .variableDirective => "directives on variable definitions"
  | .constantValue => "constant values"

/-- How deep values, selection sets and list types may nest. -/
def maxDepth : Nat := 64

/-- Why a text is not in the language. -/
inductive Cause where
  | unexpectedToken (expected : List Expected) (found : String)
  | unexpectedEnd (expected : List Expected)
  /-- A token that the lexer could not form, with the lexer's message. -/
  | lexical (message : String) (notes : List Note)
  | invalidString (error : StringError)
  | empty (construct : Construct)
  | tooDeep
  /-- A description in front of a query in its short form. -/
  | describedShortQuery
  | fragmentNamedOn
  | variableIn (context : ValueContext)
deriving DecidableEq, Repr

namespace Cause

def message : Cause → String
  | .unexpectedToken expected found =>
    "expected " ++ Expected.listShown expected ++ ", found `" ++ found ++ "`"
  | .unexpectedEnd expected =>
    "expected " ++ Expected.listShown expected ++ ", found end of input"
  | .lexical message _ => message
  | .invalidString error => "invalid string literal: " ++ error.message
  | .empty .document => "document must contain at least one definition"
  | .empty construct => construct.text ++ " cannot be empty"
  | .tooDeep => "maximum nesting depth exceeded"
  | .describedShortQuery => "descriptions are not allowed on shorthand queries"
  | .fragmentNamedOn => "fragment name cannot be `on`"
  | .variableIn context => "variables are not allowed in " ++ context.text

/-- The kind of mistake, without the particulars of a message. -/
def summary : Cause → String
  | .unexpectedToken _ found => "unexpected token: `" ++ found ++ "`"
  | .unexpectedEnd _ => "unexpected end of input"
  | .lexical _ _ => "lexer error"
  | .invalidString error => "invalid string: " ++ error.message
  | .empty construct => "invalid empty construct: `" ++ construct.text ++ "`"
  | .tooDeep => "maximum nesting depth exceeded"
  | .describedShortQuery => "invalid syntax"
  | .fragmentNamedOn => "invalid syntax"
  | .variableIn _ => "invalid syntax"

/-- The notes that always come with a cause. -/
def notes : Cause → List Note
  | .unexpectedToken _ _ => []
  | .unexpectedEnd _ => []
  | .lexical _ notes => notes
  | .invalidString _ => []
  | .empty .document => [.help "Add a query, mutation, subscription or fragment definition"]
  | .empty construct =>
    [.help ("Remove the empty delimiters or add at least one item to the " ++ construct.text)]
  | .tooDeep =>
    [.help ("Values, selection sets and list types may nest at most " ++ toString maxDepth ++
      " levels deep")]
  | .describedShortQuery =>
    [.help "Write the operation as `query \x7b ... \x7d` to give it a description"]
  | .fragmentNamedOn => [.help "Fragments are written as `fragment Name on Type \x7b ... \x7d`"]
  | .variableIn _ => []

end Cause

/-- A syntax error, its source left open. -/
structure Fault where
  cause : Cause
  production : Production
  span : Span
  /-- Notes on this occasion, beside those of the cause. -/
  remarks : List Note
deriving DecidableEq, Repr

/-- A syntax error in a source. -/
structure ParseError where
  fault : Fault
  source : Source
deriving DecidableEq, Repr

namespace ParseError

def cause (e : ParseError) : Cause := e.fault.cause

def production (e : ParseError) : Production := e.fault.production

def span (e : ParseError) : Span := e.fault.span

def message (e : ParseError) : String := e.cause.message

def notes (e : ParseError) : List Note := e.cause.notes ++ e.fault.remarks

/-- The byte at which the error starts. -/
def offset (e : ParseError) : Nat := e.span.start.offset

/-- Where a reader finds the error. -/
def place (e : ParseError) : Place := e.source.place e.span.start

def addNote (e : ParseError) (note : Note) : ParseError :=
  { e with fault := { e.fault with remarks := e.fault.remarks ++ [note] } }

end ParseError

end QueryDoc
