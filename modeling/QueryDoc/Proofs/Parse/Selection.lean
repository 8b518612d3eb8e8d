import QueryDoc.Proofs.Parse.Value
import QueryDoc.Syntax.Selection

/-!
# Selections from a list

A selection set takes one level of those that are still allowed, and the values and
sets inside it have what the set leaves.
-/
namespace QueryDoc.Parser
open Carried (ofSpan)

variable {α : Type} [Carried α]

/-- A name, a colon and a value. -/
def argument (item : Parser (Value α)) : Parser (Argument α) := do
  let start ← nextSpan
  let name ← name .argument
  let _ ← expect .colon .argument
  let value ← item
  return ⟨name, value, ofSpan (← spanFrom start.start)⟩

/-- Arguments in parentheses, or nothing. -/
def arguments (item : Parser (Value α)) : Parser (List (Argument α)) := do
  if ← nextIs .openParen then
    return (← nonempty .openParen .closeParen .argumentList .argument (argument item)).2
  else return []

/-- An at sign, a name and arguments. -/
def directive (item : Parser (Value α)) : Parser (Directive α) := do
  let start ← expect .at .directive
  let name ← name .directive
  let arguments ← arguments item
  return ⟨name, arguments, ofSpan (← spanFrom start.start)⟩

def directives (item : Parser (Value α)) : Parser (List (Directive α)) := do
  manyWhile .at (directive item) ((← remaining) + 1)

/-- The name of a field after its alias, which is a name with a colon. -/
def fieldName : Parser (Option (Name α) × Name α) := do
  let first ← name .field
  if ← nextIs .colon then
    advance
    return (some first, ← name .field)
  else return (none, first)

/-- The selections of a field, if they follow. -/
def optionalSelections (inner : Parser (SelectionSet α)) :
    Parser (Option (SelectionSet α)) := do
  if ← nextIs .openBrace then return some (← inner) else return none

/-- A field with its alias, arguments, directives and selections. -/
def field (item : Parser (Value α)) (inner : Parser (SelectionSet α)) :
    Parser (Selection α) := do
  let start ← nextSpan
  let (aliasName, name) ← fieldName
  let arguments ← arguments item
  let directives ← directives item
  let selections ← optionalSelections inner
  return .field aliasName name arguments directives selections (ofSpan (← spanFrom start.start))

/-- The type after the word `on`, if that word is next. -/
def typeCondition : Parser (Option (NamedType α)) := do
  if ← nextIsKeyword "on" then
    advance
    return some (← namedType .inlineFragment)
  else return none

/-- A fragment, spread by name or written in place. -/
def fragmentSelection (item : Parser (Value α)) (inner : Parser (SelectionSet α)) :
    Parser (Selection α) := do
  let start ← expect .ellipsis .fragmentSpread
  let next ← nextKind
  if next ≠ some (.name "on") ∧ (next.bind TokenKind.nameText?).isSome then
    let name ← name .fragmentSpread
    let directives ← directives item
    return .spread ⟨name, directives, ofSpan (← spanFrom start.start)⟩
  else
    let typeCondition ← typeCondition
    let directives ← directives item
    let selections ← inner
    return .inlineFragment typeCondition directives selections (ofSpan (← spanFrom start.start))

def selection (item : Parser (Value α)) (inner : Parser (SelectionSet α)) :
    Parser (Selection α) := do
  if ← nextIs .ellipsis then fragmentSelection item inner else field item inner

/-- A selection set with at most `room` levels. -/
def selectionSet : (room : Nat) → Parser (SelectionSet α)
  | 0 => tooDeep .selectionSet
  | room + 1 => do
    let (start, items) ← nonempty .openBrace .closeBrace .selectionSet .selectionSet
      (selection (value .anyValue room) (selectionSet room))
    return .mk items (ofSpan (← spanFrom start.start))

end QueryDoc.Parser
