import QueryDoc.Parse.Document
import QueryDoc.Proofs.Parse.Selection

/-!
# Documents from a list

Whatever stands outside of all selection sets has all the levels that are allowed.
-/
namespace QueryDoc

namespace Parser
open Carried (ofSpan)

variable {α : Type} [Carried α]

/-- The value after an equals sign, if there is one. -/
def defaultValue : Parser (Option (Value α)) := do
  if ← nextIs .equals then
    advance
    return some (← value .defaultValue maxDepth)
  else return none

/-- A variable with its type, default value and directives. -/
def variableDefinition : Parser (VariableDefinition α) := do
  let start ← nextSpan
  let description ← description
  let v ← varRef
  let _ ← expect .colon .variableDefinition
  let type ← typeRef maxDepth
  let default ← defaultValue
  let directives ← directives (value .variableDirective maxDepth)
  return ⟨description, v, type, default, directives, ofSpan (← spanFrom start.start)⟩

/-- Variable definitions in parentheses, or nothing. -/
def variableDefinitions : Parser (List (VariableDefinition α)) := do
  if ← nextIs .openParen then
    return (← nonempty .openParen .closeParen .variableDefinitions .variableDefinition
      variableDefinition).2
  else return []

/-- The name of an operation, absent if what follows a name comes at once. -/
def operationName : Parser (Option (Name α)) := do
  if (← nextIs .openParen) || (← nextIs .at) || (← nextIs .openBrace) then return none
  else return some (← name .operationDefinition)

/-- An operation from its keyword on. -/
def operation (start : Position) (description : Option (StringValue α))
    (kind : OperationKind) : Parser (Operation α) := do
  advance
  let name ← operationName
  let definitions ← variableDefinitions
  let directives ← directives (value .anyValue maxDepth)
  let selections ← selectionSet maxDepth
  return ⟨description, kind, name, definitions, directives, selections, ofSpan (← spanFrom start)⟩

/-- A query in its short form, a selection set alone. -/
def shortQuery (start : Position) : Parser (Operation α) := do
  let selections ← selectionSet maxDepth
  return ⟨none, .query, none, [], [], selections, ofSpan (← spanFrom start)⟩

/-- A fragment from its keyword on. -/
def fragment (start : Position) (description : Option (StringValue α)) :
    Parser (Fragment α) := do
  advance
  if ← nextIsKeyword "on" then
    fail .fragmentNamedOn .fragmentDefinition (← nextSpan)
  else
    let name ← name .fragmentDefinition
    expectKeyword "on" .fragmentDefinition
    let typeCondition ← namedType .fragmentDefinition
    let directives ← directives (value .anyValue maxDepth)
    let selections ← selectionSet maxDepth
    return ⟨description, name, typeCondition, directives, selections, ofSpan (← spanFrom start)⟩

/-- Stops at a token that starts no definition. -/
def noDefinition (next : Option TokenKind) : Parser (Definition α) := do
  let remarks := match next with
    | some (.name text) =>
      if isTypeSystemKeyword text then
        [Note.general "type system definitions are not supported in executable documents"]
      else []
    | _ => []
  let span ← nextSpan
  throw ⟨unexpectedCause definitionStarts next, .document, span, remarks⟩

def definition : Parser (Definition α) := do
  let start ← nextSpan
  let description ← description
  let next ← nextKind
  match next with
  | some (.punctuator .openBrace) =>
    if description.isSome then fail .describedShortQuery .document (← nextSpan)
    else return .operation (← shortQuery start.start)
  | some (.name text) =>
    if text = "fragment" then return .fragment (← fragment start.start description)
    else
      match OperationKind.ofKeyword? text with
      | some kind => return .operation (← operation start.start description kind)
      | none => noDefinition next
  | _ => noDefinition next

/-- Definitions up to the end of input; `n` bounds their number. -/
def definitions : Nat → Parser (List (Definition α))
  | 0 => return []
  | n + 1 => do
    if ← atEnd then return []
    else
      let d ← definition
      return d :: (← definitions n)

/-- A document reaches from the start of the text to the end of the input. -/
def document : Parser (Document α) := do
  if ← atEnd then fail (.empty .document) .document (← nextSpan)
  else
    let definitions ← definitions ((← remaining) + 1)
    let stop ← nextSpan
    return ⟨definitions, ofSpan ⟨.zero, stop.stop⟩⟩

/-- A value that is all of the input. -/
def wholeValue (context : ValueContext) : Parser (Value α) := do
  let v ← value context maxDepth
  expectEnd .value
  return v

/-- A type reference that is all of the input. -/
def wholeType : Parser (TypeRef α) := do
  let t ← typeRef maxDepth
  expectEnd .namedType
  return t

end Parser

end QueryDoc
