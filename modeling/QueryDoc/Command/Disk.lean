import QueryDoc.Command.Path
import QueryDoc.Text.Source

/-!
# Disks

Commands see files through a disk: something that reads a file and lists the
files below a path, in a monad of its own, so that a command can run on real
files as well as on a folder that is only a value. What goes wrong is reported
with the number and the wording of the operating system.
-/
namespace QueryDoc

/-- A failure as the operating system reports it. -/
structure FileError where
  code : Nat
  text : String
deriving DecidableEq, Repr

namespace FileError

def notFound : FileError := ⟨2, "No such file or directory"⟩

def notDirectory : FileError := ⟨20, "Not a directory"⟩

def isDirectory : FileError := ⟨21, "Is a directory"⟩

def nameTooLong : FileError := ⟨36, "File name too long"⟩

def message (e : FileError) : String := e.text ++ " (os error " ++ toString e.code ++ ")"

end FileError

/-- A path that could not be looked at while files were listed. -/
structure ScanError where
  path : String
  error : FileError
deriving DecidableEq, Repr

def ScanError.message (e : ScanError) : String :=
  "IO error for operation on " ++ e.path ++ ": " ++ e.error.message

structure Disk (m : Type → Type) where
  read (path : String) : m (Except FileError ByteArray)
  /-- The files at and below a path, each named by that path and its own place
  below it. -/
  walk (path : String) : m (List (Except ScanError String))
  isFile (path : String) : m Bool

/-- Why a file gave no text. -/
inductive ReadError where
  | file (error : FileError)
  | notText
deriving DecidableEq, Repr

def ReadError.message : ReadError → String
  | .file error => error.message
  | .notText => "stream did not contain valid UTF-8"

/-- The text that bytes encode. -/
def textOfBytes (bytes : ByteArray) : Except ReadError String :=
  match String.fromUTF8? bytes with
  | some text => .ok text
  | none => .error .notText

variable {m : Type → Type} [Monad m]

/-- The text of a file, as a source that is named after the file. -/
def Disk.source (disk : Disk m) (path : String) : m (Except ReadError Source) := do
  return match ← disk.read path with
    | .ok bytes => (textOfBytes bytes).map fun text => (Source.ofText text).withName path
    | .error e => .error (.file e)

end QueryDoc
