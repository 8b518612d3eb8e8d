import QueryDoc.StringLiteral.Escape
import QueryDoc.Text.Line

/-!
# JSON values

JSON values with a type of numbers left open: trees are written with natural
numbers only, while values of variables hold integers and floats. An object is
a list of members in the order in which they are written. Its keys are expected
to differ, and looking one up finds the first.

A value is written over several lines with two spaces a level. Empty arrays and
objects stay on one line.
-/
namespace QueryDoc

inductive Json (ν : Type) where
  | null
  | bool (b : Bool)
  | number (n : ν)
  | string (s : String)
  | array (items : List (Json ν))
  | object (members : List (String × Json ν))

namespace Json

variable {ν : Type}

instance : Inhabited (Json ν) := ⟨.null⟩

def isNull : Json ν → Bool
  | .null => true
  | _ => false

/-- The member of an object under a key. -/
def member? (key : String) : Json ν → Option (Json ν)
  | .object members => members.lookup key
  | _ => none

def quoted (s : String) : String := String.ofList (StringLiteral.quote s.toList)

mutual

/-- The text of a value at the given level. -/
def render (number : ν → String) (depth : Nat) : Json ν → String
  | .null => "null"
  | .bool true => "true"
  | .bool false => "false"
  | .number n => number n
  | .string s => quoted s
  | .array [] => "[]"
  | .array (v :: vs) =>
    "[" ++ lineFeed (depth + 1) ++ render number (depth + 1) v ++
      renderItems number (depth + 1) vs ++ lineFeed depth ++ "]"
  | .object [] => "\x7b\x7d"
  | .object ((k, v) :: ms) =>
    "\x7b" ++ lineFeed (depth + 1) ++ quoted k ++ ": " ++ render number (depth + 1) v ++
      renderMembers number (depth + 1) ms ++ lineFeed depth ++ "\x7d"

/-- The text of the items after the first. -/
def renderItems (number : ν → String) (depth : Nat) : List (Json ν) → String
  | [] => ""
  | v :: vs => "," ++ lineFeed depth ++ render number depth v ++ renderItems number depth vs

/-- The text of the members after the first. -/
def renderMembers (number : ν → String) (depth : Nat) : List (String × Json ν) → String
  | [] => ""
  | (k, v) :: ms =>
    "," ++ lineFeed depth ++ quoted k ++ ": " ++ render number depth v ++
      renderMembers number depth ms

end

end Json

end QueryDoc
