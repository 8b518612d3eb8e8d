/-!
# Names and values

The leaves of a document. Every node of the syntax carries a piece of
information of the same type, for instance where it stands in a source. Numbers
and strings keep what was written: a number its digits, a string its decoded
characters and which of the two notations it used.
-/
namespace QueryDoc

structure Name (α : Type) where
  value : String
  info : α
deriving DecidableEq, Repr

structure StringValue (α : Type) where
  value : String
  /-- Written as a block string. -/
  block : Bool
  info : α
deriving DecidableEq, Repr

structure Variable (α : Type) where
  name : Name α
  info : α
deriving DecidableEq, Repr

mutual

inductive Value (α : Type) where
  | variable (v : Variable α)
  | int (text : String) (info : α)
  | float (text : String) (info : α)
  | string (s : StringValue α)
  | boolean (value : Bool) (info : α)
  | null (info : α)
  | enum (name : String) (info : α)
  | list (items : List (Value α)) (info : α)
  | object (fields : List (ObjectField α)) (info : α)

inductive ObjectField (α : Type) where
  | mk (name : Name α) (value : Value α) (info : α)

end

namespace ObjectField

variable {α : Type}

def name : ObjectField α → Name α
  | .mk name _ _ => name

def value : ObjectField α → Value α
  | .mk _ value _ => value

def info : ObjectField α → α
  | .mk _ _ info => info

end ObjectField

/-- The information that the node of a value carries. -/
def Value.info {α : Type} : Value α → α
  | .variable v => v.info
  | .int _ info => info
  | .float _ info => info
  | .string s => s.info
  | .boolean _ info => info
  | .null info => info
  | .enum _ info => info
  | .list _ info => info
  | .object _ info => info

variable {α β : Type}

def Name.map (f : α → β) (n : Name α) : Name β := ⟨n.value, f n.info⟩

def StringValue.map (f : α → β) (s : StringValue α) : StringValue β := ⟨s.value, s.block, f s.info⟩

def Variable.map (f : α → β) (v : Variable α) : Variable β := ⟨v.name.map f, f v.info⟩

mutual

def Value.map (f : α → β) : Value α → Value β
  | .variable v => .variable (v.map f)
  | .int text info => .int text (f info)
  | .float text info => .float text (f info)
  | .string s => .string (s.map f)
  | .boolean value info => .boolean value (f info)
  | .null info => .null (f info)
  | .enum name info => .enum name (f info)
  | .list items info => .list (Value.mapList f items) (f info)
  | .object fields info => .object (ObjectField.mapList f fields) (f info)

def Value.mapList (f : α → β) : List (Value α) → List (Value β)
  | [] => []
  | v :: vs => v.map f :: Value.mapList f vs

def ObjectField.map (f : α → β) : ObjectField α → ObjectField β
  | .mk name value info => .mk (name.map f) (value.map f) (f info)

def ObjectField.mapList (f : α → β) : List (ObjectField α) → List (ObjectField β)
  | [] => []
  | x :: xs => x.map f :: ObjectField.mapList f xs

end

mutual

/-- No variable occurs in the value. -/
def Value.isConst : Value α → Bool
  | .variable _ => false
  | .list items _ => Value.allConst items
  | .object fields _ => ObjectField.allConst fields
  | _ => true

def Value.allConst : List (Value α) → Bool
  | [] => true
  | v :: vs => v.isConst && Value.allConst vs

def ObjectField.isConst : ObjectField α → Bool
  | .mk _ value _ => value.isConst

def ObjectField.allConst : List (ObjectField α) → Bool
  | [] => true
  | x :: xs => x.isConst && ObjectField.allConst xs

end

end QueryDoc
