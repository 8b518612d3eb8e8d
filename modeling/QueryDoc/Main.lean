import QueryDoc.Command

/-!
# The program

The program reads real files, takes the log threshold from the environment, and
prints what a run leaves. A command line that makes no sense ends it with the
code 2.
-/
namespace QueryDoc

/-- The failure with a number of the operating system, which some calls give
with the opposite sign. -/
def FileError.ofCode (code : UInt32) (text : String) : FileError :=
  let code := (min code (0 - code)).toNat
  ([notFound, notDirectory, isDirectory, nameTooLong].find? (fun e => e.code == code)).getD
    ⟨code, text.capitalize⟩

/-- A failure as a disk reports it. -/
def FileError.ofIO : IO.Error → FileError
  | .noFileOrDirectory _ code text => .ofCode code text
  | .inappropriateType _ code text => .ofCode code text
  | .resourceExhausted _ code text => .ofCode code text
  | .permissionDenied _ code text => .ofCode code text
  | .invalidArgument _ code text => .ofCode code text
  | .otherError code text => .ofCode code text
  | e => ⟨0, toString e⟩

/-- The files at and below a path. -/
partial def walkFiles (path : String) : IO (List (Except ScanError String)) := do
  let here ← IO.currentDir
  try
    match (← (here / path).metadata).type with
    | .file => return [.ok path]
    | .dir =>
      let entries ← (here / path).readDir
      return (← entries.toList.mapM fun e => walkFiles (Path.join path e.fileName)).flatten
    | _ => return []
  catch e => return [.error ⟨path, .ofIO e⟩]

def realDisk : Disk IO where
  read path := do
    try return .ok (← IO.FS.readBinFile ⟨path⟩)
    catch e => return .error (.ofIO e)
  walk path := walkFiles path
  isFile path := do
    let here ← IO.currentDir
    try return (← (here / path).metadata).type == .file
    catch _ => return false

end QueryDoc

open QueryDoc in
def main (args : List String) : IO UInt32 := do
  match Invocation.ofArguments? args with
  | none =>
    IO.eprintln "error: the arguments make no sense\n\nFor more information, try '--help'."
    return 2
  | some invocation =>
    let outcome ← invocation.run realDisk (← IO.getEnv "LOG_LEVEL")
    for entry in outcome.log do
      IO.eprintln entry.line
    IO.print outcome.output
    IO.eprint outcome.errors
    return outcome.exitCode.toUInt32
