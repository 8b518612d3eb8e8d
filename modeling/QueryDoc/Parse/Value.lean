import QueryDoc.Parse.Descent
import QueryDoc.Syntax.TypeRef

/-!
# Parsing values and type references

Values nest in lists and objects, and each value counts one level before its first
token is looked at. Variables are errors in contexts that are known before the query
is run. A type reference is read without going deeper: its opening brackets are put on
a stack first, and after the named type each of them is closed in turn.
-/
namespace QueryDoc.Descent
open Carried (ofSpan start?)

variable {α : Type} [Carried α]

/-- The node of a string literal that was taken. -/
def stringNode (raw : String) (span : Span) : Descent (StringValue α) :=
  match StringLiteral.decode raw.toList with
  | .ok cs => return ⟨String.ofList cs, StringLiteral.isBlock raw.toList, ofSpan span⟩
  | .error error => fail (.invalidString error) .stringValue span

/-- A description, if the next token is a string. -/
def description : Descent (Option (StringValue α)) := do
  match ← nextKind with
  | some (.string _) =>
    match ← consume with
    | some ⟨.string raw, span⟩ => return some (← stringNode raw span)
    | _ => unexpected [.literal "string"] .stringValue
  | _ => return none

/-- A dollar sign and a name. -/
def varRef : Descent (Variable α) := do
  let dollar ← expect .dollar .variable
  let name ← name .variable
  return ⟨name, ofSpan (← spanFrom dollar.start)⟩

/-- Takes the next token for the value that it is by itself. -/
def scalar : Descent (Value α) := do
  match ← consume with
  | some ⟨.int text, span⟩ => return .int text (ofSpan span)
  | some ⟨.float text, span⟩ => return .float text (ofSpan span)
  | some ⟨.string raw, span⟩ => return .string (← stringNode raw span)
  | some ⟨.boolean b, span⟩ => return .boolean b (ofSpan span)
  | some ⟨.null, span⟩ => return .null (ofSpan span)
  | some ⟨.name text, span⟩ => return .enum text (ofSpan span)
  | _ => unexpected [.value] .value

/-- Values in brackets, possibly none. -/
def listValue (item : Descent (Value α)) : Descent (Value α) := do
  let start ← expect .openBracket .listValue
  let items ← manyUntil .closeBracket .listValue item ((← remaining) + 1)
  let _ ← expect .closeBracket .listValue
  return .list items (ofSpan (← spanFrom start.start))

/-- A name, a colon and a value. -/
def objectField (item : Descent (Value α)) : Descent (ObjectField α) := do
  let start ← currentSpan
  let name ← name .objectField
  let _ ← expect .colon .objectField
  let value ← item
  return .mk name value (ofSpan (← spanFrom start.start))

/-- Named values in braces, possibly none. -/
def objectValue (item : Descent (Value α)) : Descent (Value α) := do
  let start ← expect .openBrace .objectValue
  let fields ← manyUntil .closeBrace .objectValue (objectField item) ((← remaining) + 1)
  let _ ← expect .closeBrace .objectValue
  return .object fields (ofSpan (← spanFrom start.start))

/-- A value, where the level that it takes has been counted. -/
def valueBody (context : ValueContext) (item : Descent (Value α)) : Descent (Value α) := do
  match ← nextKind with
  | some (.punctuator .dollar) =>
    if context = .anyValue then return .variable (← varRef)
    else fail (.variableIn context) .variable (← currentSpan)
  | some (.punctuator .openBracket) => listValue item
  | some (.punctuator .openBrace) => objectValue item
  | some (.int _) => scalar
  | some (.float _) => scalar
  | some (.string _) => scalar
  | some (.boolean _) => scalar
  | some .null => scalar
  | some (.name _) => scalar
  | _ => unexpected [.value] .value

/-- A value of at most `n` levels, which is no bound of its own if the counter does
not let it go so deep. -/
def valueWithin (context : ValueContext) : (n : Nat) → Descent (Value α)
  | 0 => tooDeep .value
  | n + 1 => nested .value (valueBody context (valueWithin context n))

def value (context : ValueContext) : Descent (Value α) := valueWithin context (maxDepth + 1)

/-! ## Types -/

/-- A name where a type is meant. -/
def namedType (production : Production) : Descent (NamedType α) := do
  let name ← name production
  return ⟨name, name.info⟩

/-- Where a named type that was just taken starts, as far as its node tells. If it
does not, the end of the type will do. -/
def namedTypeStart (t : NamedType α) : Descent Position := do
  return ((start? t.info).or (← get).last).getD .zero

/-- Takes opening brackets and puts on a stack where they start; `n` bounds their
number. -/
def openBrackets (stack : List Position) : (n : Nat) → Descent (List Position)
  | 0 => tooDeep .listType
  | n + 1 => do
    if ← nextIs .openBracket then
      if maxDepth ≤ (← get).depth + stack.length then tooDeep .listType
      else
        let bracket ← expect .openBracket .listType
        openBrackets (bracket.start :: stack) n
    else return stack

/-- A type that starts at `start`, with or without the mark that follows it. -/
def marked (start : Position) (t : NullableType α) : Descent (TypeRef α) := do
  if ← nextIs .bang then
    let _ ← consume
    return .nonNull t (ofSpan (← spanFrom start))
  else return .nullable t

/-- Closes the brackets on the stack, from the type in the innermost one outwards. -/
def closeBrackets (start : Position) (t : NullableType α) : List Position → Descent (TypeRef α)
  | [] => marked start t
  | bracket :: stack => do
    let item ← marked start t
    let _ ← expect .closeBracket .listType
    let span ← spanFrom bracket
    closeBrackets bracket (.list item (ofSpan span)) stack

/-- A named type in the brackets on the stack, which are closed after it. -/
def typeInside (stack : List Position) : Descent (TypeRef α) := do
  let named ← namedType .namedType
  let start ← namedTypeStart named
  closeBrackets start (.named named) stack

/-- A type reference. -/
def typeReference : Descent (TypeRef α) := do
  typeInside (← openBrackets [] (maxDepth + 1))

end QueryDoc.Descent
