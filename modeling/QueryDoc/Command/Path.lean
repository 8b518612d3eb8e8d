import QueryDoc.Text.Hidden
import QueryDoc.Text.Line

/-!
# File paths

A path is a text. Its parts are the names between slashes, where a doubled
slash, a slash at the end and a dot say nothing, except that a leading slash
stands for the root and a leading dot for the current directory. Paths are
ordered part by part, so everything in a directory comes before a file whose
name merely continues that of the directory.
-/
namespace QueryDoc

/-- One part of a path, in the order in which parts are sorted. -/
inductive PathPart where
  | root
  | current
  | parent
  | named (name : String)
deriving DecidableEq, Repr

namespace PathPart

def rank : PathPart → Nat
  | .root => 0
  | .current => 1
  | .parent => 2
  | .named _ => 3

/-- Names compare by code points. -/
def compare : PathPart → PathPart → Ordering
  | .named a, .named b => Ord.compare a b
  | a, b => Ord.compare a.rank b.rank

end PathPart

namespace Path

def isAbsolute (path : String) : Bool := path.toList.head? == some '/'

/-- The pieces of a path between its slashes, the empty ones among them. -/
def pieces (path : String) : List String := splitText '/' path

/-- A piece after the first; an empty one or a dot says nothing. -/
def innerPart? (piece : String) : Option PathPart :=
  if piece = "" || piece = "." then none
  else if piece = ".." then some .parent
  else some (.named piece)

def parts (path : String) : List PathPart :=
  match pieces path with
  | first :: rest =>
    let start :=
      if isAbsolute path then some PathPart.root
      else if first = "." then some .current
      else innerPart? first
    start.toList ++ rest.filterMap innerPart?
  | [] => []

/-- The first part that differs decides, and a path comes after its beginnings. -/
def compare (a b : String) : Ordering := List.compareLex PathPart.compare (parts a) (parts b)

/-- The name of a file after its last dot. A name whose only dot is its first
character has none. -/
def nameExtension? (name : String) : Option String :=
  let cs := name.toList.reverse
  match cs.dropWhile (· != '.') with
  | _ :: _ :: _ => some (String.ofList (cs.takeWhile (· != '.')).reverse)
  | _ => none

/-- The extension of the last part, if that part is a name. -/
def extension? (path : String) : Option String :=
  match (parts path).getLast? with
  | some (.named name) => nameExtension? name
  | _ => none

/-- What lies under a path by the given name. -/
def join (path name : String) : String :=
  if path.toList.getLast? == some '/' then path ++ name else path ++ "/" ++ name

/-- The form of a character in a quoted path. -/
def quoteChar (c : Char) : List Char :=
  if c = '"' || c = '\\' then ['\\', c]
  else if c = '\n' then ['\\', 'n']
  else if c = '\r' then ['\\', 'r']
  else if c = '\t' then ['\\', 't']
  else if c.toNat = 0 then ['\\', '0']
  else if isHidden c then spelledOut c
  else [c]

/-- A path in quotes, as a message cites it. -/
def quoted (path : String) : String :=
  String.ofList ('"' :: path.toList.flatMap quoteChar ++ ['"'])

end Path

end QueryDoc
