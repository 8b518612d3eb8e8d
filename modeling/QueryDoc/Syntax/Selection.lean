import QueryDoc.Syntax.TypeRef

/-!
# Selections

What a query asks for: fields with their arguments, fragments spread by name,
and fragments written in place. Fields and fragments in place hold further
selections.
-/
namespace QueryDoc

structure Argument (α : Type) where
  name : Name α
  value : Value α
  info : α

structure Directive (α : Type) where
  name : Name α
  arguments : List (Argument α)
  info : α

structure FragmentSpread (α : Type) where
  name : Name α
  directives : List (Directive α)
  info : α

mutual

inductive Selection (α : Type) where
  | field (aliasName : Option (Name α)) (name : Name α) (arguments : List (Argument α))
      (directives : List (Directive α)) (selections : Option (SelectionSet α)) (info : α)
  | spread (s : FragmentSpread α)
  | inlineFragment (typeCondition : Option (NamedType α)) (directives : List (Directive α))
      (selections : SelectionSet α) (info : α)

inductive SelectionSet (α : Type) where
  | mk (items : List (Selection α)) (info : α)

end

variable {α β : Type}

namespace SelectionSet

def items : SelectionSet α → List (Selection α)
  | .mk items _ => items

def info : SelectionSet α → α
  | .mk _ info => info

end SelectionSet

def Selection.info : Selection α → α
  | .field _ _ _ _ _ info => info
  | .spread s => s.info
  | .inlineFragment _ _ _ info => info

def Argument.map (f : α → β) (a : Argument α) : Argument β :=
  ⟨a.name.map f, a.value.map f, f a.info⟩

def Directive.map (f : α → β) (d : Directive α) : Directive β :=
  ⟨d.name.map f, d.arguments.map (Argument.map f), f d.info⟩

def FragmentSpread.map (f : α → β) (s : FragmentSpread α) : FragmentSpread β :=
  ⟨s.name.map f, s.directives.map (Directive.map f), f s.info⟩

mutual

def Selection.map (f : α → β) : Selection α → Selection β
  | .field aliasName name arguments directives none info =>
    .field (aliasName.map (Name.map f)) (name.map f) (arguments.map (Argument.map f))
      (directives.map (Directive.map f)) none (f info)
  | .field aliasName name arguments directives (some selections) info =>
    .field (aliasName.map (Name.map f)) (name.map f) (arguments.map (Argument.map f))
      (directives.map (Directive.map f)) (some (selections.map f)) (f info)
  | .spread s => .spread (s.map f)
  | .inlineFragment typeCondition directives selections info =>
    .inlineFragment (typeCondition.map (NamedType.map f)) (directives.map (Directive.map f))
      (selections.map f) (f info)

def Selection.mapList (f : α → β) : List (Selection α) → List (Selection β)
  | [] => []
  | s :: ss => s.map f :: Selection.mapList f ss

def SelectionSet.map (f : α → β) : SelectionSet α → SelectionSet β
  | .mk items info => .mk (Selection.mapList f items) (f info)

end

end QueryDoc
