import QueryDoc.Proofs.Parse.Cursor
import QueryDoc.Syntax.TypeRef

/-!
# Values and type references from a list

Values nest in lists and objects, type references in lists. Both recur, and take the
number of levels that are still allowed: one more level than that is an error before
its first token is looked at.
-/
namespace QueryDoc.Parser
open Carried (ofSpan start?)

variable {α : Type} [Carried α]

/-- Takes a string literal. -/
def stringValue (raw : String) : Parser (StringValue α) := do
  let span ← nextSpan
  advance
  match StringLiteral.decode raw.toList with
  | .ok cs => return ⟨String.ofList cs, StringLiteral.isBlock raw.toList, ofSpan span⟩
  | .error error => fail (.invalidString error) .stringValue span

/-- A description, if the next token is a string. -/
def description : Parser (Option (StringValue α)) := do
  match ← nextKind with
  | some (.string raw) => return some (← stringValue raw)
  | _ => return none

/-- A dollar sign and a name. -/
def varRef : Parser (Variable α) := do
  let dollar ← expect .dollar .variable
  let name ← name .variable
  return ⟨name, ofSpan (← spanFrom dollar.start)⟩

/-- Takes the next token for the value of the given form. -/
def literal (form : α → Value α) : Parser (Value α) := do
  let span ← nextSpan
  advance
  return form (ofSpan span)

/-- Values in brackets, possibly none. -/
def listValue (item : Parser (Value α)) : Parser (Value α) := do
  let start ← expect .openBracket .listValue
  let items ← manyUntil .closeBracket .listValue item ((← remaining) + 1)
  let _ ← expect .closeBracket .listValue
  return .list items (ofSpan (← spanFrom start.start))

/-- A name, a colon and a value. -/
def objectField (item : Parser (Value α)) : Parser (ObjectField α) := do
  let start ← nextSpan
  let name ← name .objectField
  let _ ← expect .colon .objectField
  let value ← item
  return .mk name value (ofSpan (← spanFrom start.start))

/-- Named values in braces, possibly none. -/
def objectValue (item : Parser (Value α)) : Parser (Value α) := do
  let start ← expect .openBrace .objectValue
  let fields ← manyUntil .closeBrace .objectValue (objectField item) ((← remaining) + 1)
  let _ ← expect .closeBrace .objectValue
  return .object fields (ofSpan (← spanFrom start.start))

/-- A value with at most `room` levels. -/
def value (context : ValueContext) : (room : Nat) → Parser (Value α)
  | 0 => tooDeep .value
  | room + 1 => do
    match ← nextKind with
    | some (.punctuator .dollar) =>
      if context = .anyValue then return .variable (← varRef)
      else fail (.variableIn context) .variable (← nextSpan)
    | some (.punctuator .openBracket) => listValue (value context room)
    | some (.punctuator .openBrace) => objectValue (value context room)
    | some (.int text) => literal (.int text)
    | some (.float text) => literal (.float text)
    | some (.string raw) => return .string (← stringValue raw)
    | some (.boolean b) => literal (.boolean b)
    | some .null => literal .null
    | some (.name text) => literal (.enum text)
    | _ => unexpected [.value] .value

/-- A name where a type is meant. -/
def namedType (production : Production) : Parser (NamedType α) := do
  let name ← name production
  return ⟨name, name.info⟩

/-- Where a named type that was just taken starts, as far as its node tells. If it
does not, the end of the type will do. -/
def namedTypeStart (t : NamedType α) : Parser Position := fun c =>
  .ok (((start? t.info).or c.last).getD .zero, c)

/-- A type that starts at `start`, with or without the mark that follows it. -/
def marked (start : Position) (t : NullableType α) : Parser (TypeRef α) := do
  if ← nextIs .bang then
    advance
    return .nonNull t (ofSpan (← spanFrom start))
  else return .nullable t

/-- A named type, marked or not. -/
def markedName : Parser (TypeRef α) := do
  let named ← namedType .namedType
  let start ← namedTypeStart named
  marked start (.named named)

/-- A type reference with at most `room` levels of lists. -/
def typeRef : (room : Nat) → Parser (TypeRef α)
  | 0 => do
    if ← nextIs .openBracket then tooDeep .listType else markedName
  | room + 1 => do
    if ← nextIs .openBracket then
      let start ← expect .openBracket .listType
      let item ← typeRef room
      let _ ← expect .closeBracket .listType
      let span ← spanFrom start.start
      marked start.start (.list item (ofSpan span))
    else markedName

end QueryDoc.Parser
