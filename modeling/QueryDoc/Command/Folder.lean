import QueryDoc.Command.Disk

/-!
# Folders in memory

A folder is a list of files and empty directories, each with the names that
lead to it. The directories in between are understood. As a disk, a folder is
the current directory, and of what is outside of it nothing is known but the
directories above.

A path is followed piece by piece from the top, as an operating system does:
every piece, an empty one or a dot too, must be looked up in a directory. So a
slash behind the name of a file is a mistake of its own. Names and paths have a
longest length, in bytes.
-/
namespace QueryDoc

/-- The files, and the directories that hold nothing, by the names that lead to
them. -/
structure Folder where
  entries : List (List String × Option ByteArray)

namespace Folder

/-- A folder from paths; one that ends in a slash is an empty directory. -/
def ofFiles (files : List (String × ByteArray)) : Folder :=
  ⟨files.map fun f =>
    ((Path.pieces f.1).filter (fun piece => piece != "" && piece != "."),
      if f.1.toList.getLast? == some '/' then none else some f.2)⟩

/-- A name that no file can have. -/
def isLongName (name : String) : Bool := name.utf8ByteSize > 255

/-- A path that is not followed at all. -/
def isLongPath (path : String) : Bool := path.utf8ByteSize > 4095

/-- What a path leads to. -/
inductive Found where
  | file (bytes : ByteArray)
  /-- A directory, by the names that lead to it. -/
  | directory (names : List String)
  /-- A directory above the top. -/
  | outside

variable (folder : Folder)

/-- What lies at the end of a list of names. -/
def at? (names : List String) : Option Found :=
  match folder.entries.lookup names with
  | some (some bytes) => some (.file bytes)
  | some none => some (.directory names)
  | none =>
    if names.isEmpty || folder.entries.any (fun e => names.isPrefixOf e.1) then
      some (.directory names)
    else none

/-- Looks up a name in a directory whose own names are given, if it is known. -/
def lookup (names : Option (List String)) (name : String) : Except FileError Found :=
  if isLongName name then .error .nameTooLong
  else
    match names.bind fun names => folder.at? (names ++ [name]) with
    | some found => .ok found
    | none => .error .notFound

/-- Follows one piece of a path. -/
def step (here : Found) (piece : String) : Except FileError Found :=
  match here with
  | .file _ => .error .notDirectory
  | .outside =>
    if piece = "" || piece = "." || piece = ".." then .ok .outside else folder.lookup none piece
  | .directory names =>
    if piece = "" || piece = "." then .ok here
    else if piece = ".." then
      .ok (if names.isEmpty then .outside else .directory names.dropLast)
    else folder.lookup (some names) piece

/-- What a path leads to. -/
def find (path : String) : Except FileError Found :=
  if path = "" then .error .notFound
  else if isLongPath path then .error .nameTooLong
  else
    (Path.pieces path).foldlM folder.step (if Path.isAbsolute path then .outside else .directory [])

/-- The first path that is too long to be listed, on the way from a directory
down to another. -/
def longOnTheWay? (path : String) : List String → Option String
  | [] => if isLongPath path then some path else none
  | name :: names =>
    if isLongPath path then some path else longOnTheWay? (Path.join path name) names

/-- What a walk meets below a directory: the files that it gets to, and the
directories that it cannot list, each of them once. -/
def below (path : String) (names : List String) : List (Except ScanError String) :=
  let entries := (folder.entries.filter fun e => names.isPrefixOf e.1).map fun e =>
    (e.1.drop names.length, e.2.isSome)
  let failure? (e : List String × Bool) : Option String :=
    longOnTheWay? path (if e.2 then e.1.dropLast else e.1)
  let files := entries.filter fun e => e.2 && (failure? e).isNone
  (entries.filterMap failure?).eraseDups.map (fun long => .error ⟨long, .nameTooLong⟩) ++
    files.map fun e => .ok (e.1.foldl Path.join path)

def disk : Disk Id where
  read path :=
    match folder.find path with
    | .ok (.file bytes) => .ok bytes
    | .ok _ => .error .isDirectory
    | .error e => .error e
  walk path :=
    match folder.find path with
    | .ok (.file _) => [.ok path]
    | .ok (.directory names) => folder.below path names
    | .ok .outside => []
    | .error e => [.error ⟨path, e⟩]
  isFile path :=
    match folder.find path with
    | .ok (.file _) => true
    | _ => false

end Folder

end QueryDoc
