import QueryDoc.Parse.Selection
import QueryDoc.Syntax.Node
import QueryDoc.Token.Lexer

/-!
# Parsing documents

The four things that can be parsed are a document, a value, a value without
variables, and a type reference. Each must use up its input. Nodes are made
with locations, or without any if none are asked for.
-/
namespace QueryDoc

/-- The name of a type system definition, which a document cannot hold. -/
def Parser.isTypeSystemKeyword (text : String) : Bool :=
  ["directive", "enum", "extend", "input", "interface", "scalar", "schema", "type",
    "union"].contains text

/-- What a definition may start with, its description apart. -/
def Parser.definitionStarts : List Expected :=
  [.literal "query", .literal "mutation", .literal "subscription", .literal "fragment",
    .literal "\x7b"]

namespace Descent
open Carried (ofSpan)

variable {α : Type} [Carried α]

/-- The value after an equals sign, if there is one. -/
def defaultValue : Descent (Option (Value α)) := do
  if ← nextIs .equals then
    let _ ← consume
    return some (← value .defaultValue)
  else return none

/-- A variable with its type, default value and directives. -/
def variableDefinition : Descent (VariableDefinition α) := do
  let start ← currentSpan
  let description ← description
  let v ← varRef
  let _ ← expect .colon .variableDefinition
  let type ← typeReference
  let default ← defaultValue
  let directives ← directives .variableDirective
  return ⟨description, v, type, default, directives, ofSpan (← spanFrom start.start)⟩

/-- Variable definitions in parentheses, or nothing. -/
def variableDefinitions : Descent (List (VariableDefinition α)) := do
  if ← nextIs .openParen then
    return (← nonempty .openParen .closeParen .variableDefinitions .variableDefinition
      variableDefinition).2
  else return []

/-- The name of an operation, absent if what follows a name comes at once. -/
def operationName : Descent (Option (Name α)) := do
  if (← nextIs .openParen) || (← nextIs .at) || (← nextIs .openBrace) then return none
  else return some (← name .operationDefinition)

/-- An operation from its keyword on. -/
def operation (start : Position) (description : Option (StringValue α))
    (kind : OperationKind) : Descent (Operation α) := do
  let _ ← consume
  let name ← operationName
  let definitions ← variableDefinitions
  let directives ← directives .anyValue
  let selections ← selectionSet
  return ⟨description, kind, name, definitions, directives, selections, ofSpan (← spanFrom start)⟩

/-- A query in its short form, a selection set alone. -/
def shortQuery (start : Position) : Descent (Operation α) := do
  let selections ← selectionSet
  return ⟨none, .query, none, [], [], selections, ofSpan (← spanFrom start)⟩

/-- A fragment from its keyword on. -/
def fragment (start : Position) (description : Option (StringValue α)) :
    Descent (Fragment α) := do
  let _ ← consume
  if ← nextIsKeyword "on" then
    fail .fragmentNamedOn .fragmentDefinition (← currentSpan)
  else
    let name ← name .fragmentDefinition
    expectKeyword "on" .fragmentDefinition
    let typeCondition ← namedType .fragmentDefinition
    let directives ← directives .anyValue
    let selections ← selectionSet
    return ⟨description, name, typeCondition, directives, selections, ofSpan (← spanFrom start)⟩

/-- Stops at a token that starts no definition. -/
def noDefinition : Descent (Definition α) := do
  let next ← nextKind
  let remarks := match next with
    | some (.name text) =>
      if Parser.isTypeSystemKeyword text then
        [Note.general "type system definitions are not supported in executable documents"]
      else []
    | _ => []
  let span ← currentSpan
  throw ⟨Parser.unexpectedCause Parser.definitionStarts next, .document, span, remarks⟩

/-- A definition that starts with a keyword. -/
def keywordDefinition (start : Position) (description : Option (StringValue α)) :
    Descent (Definition α) := do
  if ← nextIsKeyword "fragment" then
    return .fragment (← fragment start description)
  else
    let kind := match ← nextKind with
      | some (.name text) => OperationKind.ofKeyword? text
      | _ => none
    match kind with
    | some kind => return .operation (← operation start description kind)
    | none => noDefinition

def definition : Descent (Definition α) := do
  let start ← currentSpan
  let description ← description
  if ← nextIs .openBrace then
    if description.isSome then fail .describedShortQuery .document (← currentSpan)
    else return .operation (← shortQuery start.start)
  else keywordDefinition start.start description

/-- Definitions up to the end of input; `n` bounds their number. -/
def definitions : Nat → Descent (List (Definition α))
  | 0 => return []
  | n + 1 => do
    if ← isAtEnd then return []
    else
      let d ← definition
      return d :: (← definitions n)

/-- A document reaches from the start of the text to the end of the input. -/
def document : Descent (Document α) := do
  if ← isAtEnd then fail (.empty .document) .document (← currentSpan)
  else
    let definitions ← definitions ((← remaining) + 1)
    let stop ← currentSpan
    return ⟨definitions, ofSpan ⟨.zero, stop.stop⟩⟩

/-- A value that is all of the input. -/
def wholeValue (context : ValueContext) : Descent (Value α) := do
  let v ← value context
  expectEnd .value
  return v

/-- A type reference that is all of the input. -/
def wholeType : Descent (TypeRef α) := do
  let t ← typeReference
  expectEnd .namedType
  return t

end Descent

structure ParseOptions where
  /-- Leave the locations of nodes out. -/
  noLocation : Bool
deriving DecidableEq, Repr

/-- Nodes carry their locations. -/
def ParseOptions.standard : ParseOptions := ⟨false⟩

/-- Nodes carry no locations. -/
def ParseOptions.unlocated : ParseOptions := ⟨true⟩

/-- What a node with the given span carries. -/
def ParseOptions.locate (options : ParseOptions) (source : Source) (span : Span) :
    Option Location :=
  if options.noLocation then none else some ⟨span, source⟩

/-- Nodes that carry what the options ask for. -/
abbrev ParseOptions.carried (options : ParseOptions) (source : Source) :
    Carried (Option Location) :=
  ⟨options.locate source, fun location => location.map fun l => l.span.start⟩

section Tokens

variable (options : ParseOptions) (source : Source) (tokens : List Token)

/-- The document that a list of tokens forms. -/
def Document.ofTokens : Except ParseError (Document (Option Location)) :=
  letI := options.carried source
  Descent.document.run source tokens

/-- The value that a list of tokens forms. -/
def Value.ofTokens : Except ParseError (Value (Option Location)) :=
  letI := options.carried source
  (Descent.wholeValue .anyValue).run source tokens

/-- The value without variables that a list of tokens forms. -/
def Value.constOfTokens : Except ParseError (Value (Option Location)) :=
  letI := options.carried source
  (Descent.wholeValue .constantValue).run source tokens

/-- The type reference that a list of tokens forms. -/
def TypeRef.ofTokens : Except ParseError (TypeRef (Option Location)) :=
  letI := options.carried source
  Descent.wholeType.run source tokens

end Tokens

section Sources

variable (options : ParseOptions) (source : Source)

def Document.parse : Except ParseError (Document (Option Location)) :=
  Document.ofTokens options source (tokenize source.body)

def Value.parse : Except ParseError (Value (Option Location)) :=
  Value.ofTokens options source (tokenize source.body)

def Value.parseConst : Except ParseError (Value (Option Location)) :=
  Value.constOfTokens options source (tokenize source.body)

def TypeRef.parse : Except ParseError (TypeRef (Option Location)) :=
  TypeRef.ofTokens options source (tokenize source.body)

end Sources

/-- What is to be parsed. -/
inductive Entry where
  | document
  | value
  | constValue
  | type
deriving DecidableEq, Repr

/-- The node that a list of tokens forms. -/
def Node.ofTokens (entry : Entry) (options : ParseOptions) (source : Source)
    (tokens : List Token) : Except ParseError (Node (Option Location)) :=
  match entry with
  | .document => (Document.ofTokens options source tokens).map .document
  | .value => (Value.ofTokens options source tokens).map .value
  | .constValue => (Value.constOfTokens options source tokens).map .value
  | .type => (TypeRef.ofTokens options source tokens).map .type

def Node.parse (entry : Entry) (options : ParseOptions) (source : Source) :
    Except ParseError (Node (Option Location)) :=
  Node.ofTokens entry options source (tokenize source.body)

end QueryDoc
