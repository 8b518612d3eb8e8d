import QueryDoc.Syntax.Node
import QueryDoc.StringLiteral

/-!
# Printing

The canonical text of a node. Selection sets are indented by two spaces a level.
Lists that are empty disappear with their delimiters, and a query that has
nothing but selections is printed as these alone. The arguments of a field stand
on its line as long as its name and they take at most eighty characters, and on
lines of their own otherwise. A block string is indented with what surrounds it.

Printing depends on depth through the line break alone. Each function takes the
indentation that follows a line feed; a node that stands by itself has none.
-/
namespace QueryDoc

/-- How many characters a field may take with its arguments on its line. -/
def maxLineLength : Nat := 80

namespace Printer

variable {α : Type}

/-- Replaces each line feed in `text`. -/
def withLineFeed (feed : String) (text : List Char) : String :=
  String.ofList (text.flatMap fun c => if c = '\n' then feed.toList else [c])

def stringValue (depth : Nat) (s : StringValue α) : String :=
  if s.block then withLineFeed (lineFeed depth) (StringLiteral.quoteBlock s.value.toList)
  else String.ofList (StringLiteral.quote s.value.toList)

def varRef (v : Variable α) : String := "$" ++ v.name.value

def boolean (b : Bool) : String := if b then "true" else "false"

mutual

def value (depth : Nat) : Value α → String
  | .variable v => varRef v
  | .int text _ => text
  | .float text _ => text
  | .string s => stringValue depth s
  | .boolean b _ => boolean b
  | .null _ => "null"
  | .enum name _ => name
  | .list items _ => "[" ++ values depth items ++ "]"
  | .object fields _ => "\x7b" ++ objectFields depth fields ++ "\x7d"

/-- Values with commas between them. -/
def values (depth : Nat) : List (Value α) → String
  | [] => ""
  | [v] => value depth v
  | v :: vs => value depth v ++ ", " ++ values depth vs

def objectField (depth : Nat) : ObjectField α → String
  | .mk name v _ => name.value ++ ": " ++ value depth v

/-- Fields of an object with commas between them. -/
def objectFields (depth : Nat) : List (ObjectField α) → String
  | [] => ""
  | [f] => objectField depth f
  | f :: fs => objectField depth f ++ ", " ++ objectFields depth fs

end

mutual

def typeRef : TypeRef α → String
  | .nullable t => nullableType t
  | .nonNull t _ => nullableType t ++ "!"

def nullableType : NullableType α → String
  | .named t => t.name.value
  | .list item _ => "[" ++ typeRef item ++ "]"

end

def argument (depth : Nat) (a : Argument α) : String := a.name.value ++ ": " ++ value depth a.value

/-- Arguments on one line. -/
def argumentLine (depth : Nat) (as : List (Argument α)) : String :=
  ", ".intercalate (as.map (argument depth))

/-- Arguments on lines of their own. -/
def argumentLines (depth : Nat) (as : List (Argument α)) : String :=
  lineFeed (depth + 1) ++ (lineFeed (depth + 1)).intercalate (as.map (argument (depth + 1))) ++
    lineFeed depth

def inParens (text : String) : String := "(" ++ text ++ ")"

def directive (depth : Nat) (d : Directive α) : String :=
  "@" ++ d.name.value ++
    if d.arguments.isEmpty then "" else inParens (argumentLine depth d.arguments)

/-- Directives, each after a space. -/
def directives (depth : Nat) (ds : List (Directive α)) : String :=
  String.join (ds.map fun d => " " ++ directive depth d)

/-- The arguments of a field whose name takes `width` characters. -/
def fieldArguments (depth width : Nat) (as : List (Argument α)) : String :=
  if as.isEmpty then ""
  else
    let line := argumentLine depth as
    if width + line.length + 2 > maxLineLength then inParens (argumentLines depth as)
    else inParens line

/-- The name of a field after its alias. -/
def fieldName (aliasName : Option (Name α)) (name : Name α) : String :=
  match aliasName with
  | some a => a.value ++ ": " ++ name.value
  | none => name.value

/-- A field up to its selections. -/
def fieldHead (depth : Nat) (aliasName : Option (Name α)) (name : Name α)
    (arguments : List (Argument α)) (ds : List (Directive α)) : String :=
  let shown := fieldName aliasName name
  shown ++ fieldArguments depth shown.length arguments ++ directives depth ds

def spread (depth : Nat) (s : FragmentSpread α) : String :=
  "..." ++ s.name.value ++ directives depth s.directives

/-- A fragment in place, up to its selections. -/
def inlineHead (depth : Nat) (typeCondition : Option (NamedType α)) (ds : List (Directive α)) :
    String :=
  "..." ++ (match typeCondition with
    | some t => " on " ++ t.name.value
    | none => "") ++ directives depth ds

/-- A text after a space, nothing after nothing. -/
def afterSpace (text : String) : String := if text.isEmpty then "" else " " ++ text

mutual

def selection (depth : Nat) : Selection α → String
  | .field aliasName name arguments ds none _ => fieldHead depth aliasName name arguments ds
  | .field aliasName name arguments ds (some set) _ =>
    fieldHead depth aliasName name arguments ds ++ afterSpace (selectionSet depth set)
  | .spread s => spread depth s
  | .inlineFragment typeCondition ds set _ =>
    inlineHead depth typeCondition ds ++ afterSpace (selectionSet depth set)

/-- Selections, each on a line of its own. -/
def selections (depth : Nat) : List (Selection α) → String
  | [] => ""
  | s :: ss => lineFeed depth ++ selection depth s ++ selections depth ss

/-- A selection set; nothing if it has no selections. -/
def selectionSet (depth : Nat) : SelectionSet α → String
  | .mk [] _ => ""
  | .mk (s :: ss) _ =>
    "\x7b" ++ selections (depth + 1) (s :: ss) ++ lineFeed depth ++ "\x7d"

end

/-- A text after its description. -/
def described (description : Option (StringValue α)) (separator text : String) : String :=
  match description with
  | some s => stringValue 0 s ++ separator ++ text
  | none => text

def variableDefinition (v : VariableDefinition α) : String :=
  described v.description " "
    (varRef v.var ++ ": " ++ typeRef v.type ++
      (match v.default with
        | some d => " = " ++ value 0 d
        | none => "") ++
      directives 0 v.directives)

/-- Variable definitions in parentheses, nothing if there are none. -/
def variableDefinitions (vs : List (VariableDefinition α)) : String :=
  if vs.isEmpty then "" else inParens (", ".intercalate (vs.map variableDefinition))

/-- An operation up to its selections. -/
def operationHead (o : Operation α) : String :=
  o.kind.keyword ++
    (match o.name with
      | some name => " " ++ name.value
      | none => if o.variableDefinitions.isEmpty then "" else " ") ++
    variableDefinitions o.variableDefinitions ++ directives 0 o.directives

/-- A query of which there is nothing to print but its selections. -/
def isShort (o : Operation α) : Bool :=
  o.kind == .query && o.name.isNone && o.variableDefinitions.isEmpty && o.directives.isEmpty &&
    o.description.isNone

def operation (o : Operation α) : String :=
  if isShort o then selectionSet 0 o.selections
  else
    described o.description "\n" (operationHead o ++ afterSpace (selectionSet 0 o.selections))

def fragment (f : Fragment α) : String :=
  described f.description "\n"
    ("fragment " ++ f.name.value ++ " on " ++ f.typeCondition.name.value ++
      directives 0 f.directives ++ afterSpace (selectionSet 0 f.selections))

def definition : Definition α → String
  | .operation o => operation o
  | .fragment f => fragment f

/-- Definitions with an empty line between them. -/
def document (d : Document α) : String := "\n\n".intercalate (d.definitions.map definition)

end Printer

/-- The canonical text of a node. -/
def Node.print {α : Type} : Node α → String
  | .name n => n.value
  | .document d => Printer.document d
  | .definition d => Printer.definition d
  | .variableDefinition v => Printer.variableDefinition v
  | .selectionSet s => Printer.selectionSet 0 s
  | .selection s => Printer.selection 0 s
  | .argument a => Printer.argument 0 a
  | .value v => Printer.value 0 v
  | .objectField f => Printer.objectField 0 f
  | .directive d => Printer.directive 0 d
  | .type t => Printer.typeRef t

end QueryDoc
