import QueryDoc.Parse.Value
import QueryDoc.Syntax.Selection

/-!
# Parsing selections

A selection set counts one level of nesting, and the values and sets inside it are
counted on from there. Arguments and selection sets must not be empty. After the three
dots a name spreads a fragment, unless it is the word that introduces a type.
-/
namespace QueryDoc.Descent
open Carried (ofSpan)

variable {α : Type} [Carried α]

/-- A name, a colon and a value. -/
def argument (context : ValueContext) : Descent (Argument α) := do
  let start ← currentSpan
  let name ← name .argument
  let _ ← expect .colon .argument
  let value ← value context
  return ⟨name, value, ofSpan (← spanFrom start.start)⟩

/-- Arguments in parentheses, or nothing. -/
def arguments (context : ValueContext) : Descent (List (Argument α)) := do
  if ← nextIs .openParen then
    return (← nonempty .openParen .closeParen .argumentList .argument (argument context)).2
  else return []

/-- An at sign, a name and arguments. -/
def directive (context : ValueContext) : Descent (Directive α) := do
  let start ← expect .at .directive
  let name ← name .directive
  let arguments ← arguments context
  return ⟨name, arguments, ofSpan (← spanFrom start.start)⟩

def directives (context : ValueContext) : Descent (List (Directive α)) := do
  manyWhile .at (directive context) ((← remaining) + 1)

/-- The name of a field after its alias, which is a name with a colon. -/
def fieldName : Descent (Option (Name α) × Name α) := do
  let first ← name .field
  if ← nextIs .colon then
    let _ ← consume
    return (some first, ← name .field)
  else return (none, first)

/-- The selections of a field, if they follow. -/
def optionalSelections (inner : Descent (SelectionSet α)) :
    Descent (Option (SelectionSet α)) := do
  if ← nextIs .openBrace then return some (← inner) else return none

/-- A field with its alias, arguments, directives and selections. -/
def field (inner : Descent (SelectionSet α)) : Descent (Selection α) := do
  let start ← currentSpan
  let (aliasName, name) ← fieldName
  let arguments ← arguments .anyValue
  let directives ← directives .anyValue
  let selections ← optionalSelections inner
  return .field aliasName name arguments directives selections (ofSpan (← spanFrom start.start))

/-- The type after the word `on`, if that word is next. -/
def typeCondition : Descent (Option (NamedType α)) := do
  if ← nextIsKeyword "on" then
    let _ ← consume
    return some (← namedType .inlineFragment)
  else return none

/-- A fragment, spread by name or written in place. -/
def fragmentSelection (inner : Descent (SelectionSet α)) : Descent (Selection α) := do
  let start ← expect .ellipsis .fragmentSpread
  if !(← nextIsKeyword "on") && (← nextIsName) then
    let name ← name .fragmentSpread
    let directives ← directives .anyValue
    return .spread ⟨name, directives, ofSpan (← spanFrom start.start)⟩
  else
    let typeCondition ← typeCondition
    let directives ← directives .anyValue
    let selections ← inner
    return .inlineFragment typeCondition directives selections (ofSpan (← spanFrom start.start))

def selection (inner : Descent (SelectionSet α)) : Descent (Selection α) := do
  if ← nextIs .ellipsis then fragmentSelection inner else field inner

/-- A selection set, where the level that it takes has been counted. -/
def selectionSetBody (inner : Descent (SelectionSet α)) : Descent (SelectionSet α) := do
  let (start, items) ← nonempty .openBrace .closeBrace .selectionSet .selectionSet
    (selection inner)
  return .mk items (ofSpan (← spanFrom start.start))

/-- A selection set of at most `n` levels, which is no bound of its own if the counter
does not let it go so deep. -/
def selectionSetWithin : (n : Nat) → Descent (SelectionSet α)
  | 0 => tooDeep .selectionSet
  | n + 1 => nested .selectionSet (selectionSetBody (selectionSetWithin n))

def selectionSet : Descent (SelectionSet α) := selectionSetWithin (maxDepth + 1)

end QueryDoc.Descent
