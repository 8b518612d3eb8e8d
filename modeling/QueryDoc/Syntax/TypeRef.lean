import QueryDoc.Syntax.Value

/-!
# Type references

A type reference is a named type or a list of another, and either may be marked
as never null. The mark applies once only, so a reference is built in two
layers: a nullable type, and a reference that marks it or not.
-/
namespace QueryDoc

structure NamedType (α : Type) where
  name : Name α
  info : α
deriving DecidableEq, Repr

mutual

inductive TypeRef (α : Type) where
  | nullable (t : NullableType α)
  | nonNull (t : NullableType α) (info : α)

inductive NullableType (α : Type) where
  | named (t : NamedType α)
  | list (item : TypeRef α) (info : α)

end

variable {α β : Type}

def NullableType.info : NullableType α → α
  | .named t => t.info
  | .list _ info => info

def TypeRef.info : TypeRef α → α
  | .nullable t => t.info
  | .nonNull _ info => info

def NamedType.map (f : α → β) (t : NamedType α) : NamedType β := ⟨t.name.map f, f t.info⟩

mutual

def TypeRef.map (f : α → β) : TypeRef α → TypeRef β
  | .nullable t => .nullable (t.map f)
  | .nonNull t info => .nonNull (t.map f) (f info)

def NullableType.map (f : α → β) : NullableType α → NullableType β
  | .named t => .named (t.map f)
  | .list item info => .list (item.map f) (f info)

end

mutual

/-- The named type inside all lists and marks. -/
def TypeRef.innermost : TypeRef α → NamedType α
  | .nullable t => t.innermost
  | .nonNull t _ => t.innermost

def NullableType.innermost : NullableType α → NamedType α
  | .named t => t
  | .list item _ => item.innermost

end

end QueryDoc
