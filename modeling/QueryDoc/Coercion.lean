import QueryDoc.Json
import QueryDoc.Number
import QueryDoc.Syntax.TypeRef

/-!
# Values as JSON

A value literal denotes a JSON value once its variables are given. Without a
type, something that has no value becomes null in a list and disappears in an
object. With a type, a value must fit: literals of the four built-in scalars, a
list for a list, nothing null where null is excluded. Variables are taken as
they are, but for null, and named types that are not built in admit any value.
-/
namespace QueryDoc

/-- The values of variables by name. -/
abbrev Variables := Option (List (String × Json Number))

namespace Coercion

variable {α β : Type}

/-- Sets the member under a key, in place if there is one already. -/
def setMember {ν : Type} (key : String) (v : Json ν) :
    List (String × Json ν) → List (String × Json ν)
  | [] => [(key, v)]
  | (k, w) :: ms => if k = key then (k, v) :: ms else (k, w) :: setMember key v ms

/-- The members of an object; of several under one key the last counts. -/
def members {ν : Type} (fields : List (String × Json ν)) : List (String × Json ν) :=
  fields.foldl (fun ms f => setMember f.1 f.2 ms) []

/-- The value given for a variable. -/
def lookup (given : Variables) (name : String) : Option (Json Number) :=
  given.bind (List.lookup name)

mutual

/-- The value of a literal without a type. -/
def untyped (given : Variables) : Value α → Option (Json Number)
  | .variable v => lookup given v.name.value
  | .int text _ => (Number.ofIntText? text).map .number
  | .float text _ => (Number.ofFloatText? text).map .number
  | .string s => some (.string s.value)
  | .boolean b _ => some (.bool b)
  | .null _ => some .null
  | .enum name _ => some (.string name)
  | .list items _ => some (.array (untypedItems given items))
  | .object fields _ => some (.object (members (untypedFields given fields)))

/-- The values of the items of a list, null for an item without one. -/
def untypedItems (given : Variables) : List (Value α) → List (Json Number)
  | [] => []
  | v :: vs => (untyped given v).getD .null :: untypedItems given vs

/-- The fields of an object that have a value. -/
def untypedFields (given : Variables) : List (ObjectField α) → List (String × Json Number)
  | [] => []
  | .mk name v _ :: fs =>
    match untyped given v with
    | some j => (name.value, j) :: untypedFields given fs
    | none => untypedFields given fs

end

/-- A type reference without its mark. -/
def nullablePart : TypeRef β → NullableType β
  | .nullable t => t
  | .nonNull t _ => t

def isNonNull : TypeRef β → Bool
  | .nullable _ => false
  | .nonNull _ _ => true

/-- A literal is of the kind that a named type requires. -/
def fitsNamed (typeName : String) (v : Value α) : Bool :=
  if typeName = "Int" then v matches .int _ _
  else if typeName = "Float" then v matches .float _ _
  else if typeName = "String" then v matches .string _
  else if typeName = "Boolean" then v matches .boolean _ _
  else true

/-- The value of a literal for a named type. -/
def ofNamed (given : Variables) (typeName : String) (v : Value α) : Option (Json Number) :=
  if fitsNamed typeName v then untyped given v else none

mutual

/-- The value of a literal for a type, if it fits. -/
def typed (given : Variables) (t : TypeRef β) : Value α → Option (Json Number)
  | .variable v =>
    match lookup given v.name.value with
    | some j => if j.isNull && isNonNull t then none else some j
    | none => none
  | .null _ => if isNonNull t then none else some .null
  | .list items info =>
    match nullablePart t with
    | .list item _ => (typedItems given item items).map .array
    | .named n => ofNamed given n.name.value (.list items info)
  | v =>
    match nullablePart t with
    | .list _ _ => none
    | .named n => ofNamed given n.name.value v

/-- The values of the items of a list, if all of them fit. -/
def typedItems (given : Variables) (t : TypeRef β) :
    List (Value α) → Option (List (Json Number))
  | [] => some []
  | v :: vs => do return (← typed given t v) :: (← typedItems given t vs)

end

end Coercion

end QueryDoc
