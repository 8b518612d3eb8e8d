import QueryDoc.Command.Disk
import QueryDoc.Command.Log
import QueryDoc.Parse.Diagnostic
import QueryDoc.Parse.Document

/-!
# Checking files

A check looks for files with certain extensions, parses each of them and reports
on all together. The files may be parsed in any order: a report depends on its
own file only, and reports are put in the order of their paths before they are
summed up. A file that is the only path given is checked whatever its extension.
-/
namespace QueryDoc

/-- The sign in front of what went well. -/
def successSign : String := "✅"

/-- The sign in front of what went wrong. -/
def failureSign : String := "❌"

/-- The text to print, or the text that says why there is none. -/
abbrev Printout := Except String String

variable {m : Type → Type} [Monad m]

/-- Why a file could not be read. -/
def readFailure (path : String) (e : ReadError) : String :=
  "failed to read " ++ path ++ ": " ++ e.message

/-- Parses a source as a document. -/
def parseLogged (options : ParseOptions) (source : Source) :
    Logged m (Except ParseError (Document (Option Location))) := do
  log .debug .parser ("parsing document `" ++ source.name ++ "` (" ++
    toString source.body.utf8ByteSize ++ " bytes)")
  return Document.parse options source

/-! ## Finding files -/

/-- What a search found. -/
structure Findings where
  paths : List String
  skipped : Nat
  failures : List ScanError

/-- Whether the extension of a path is among those given. -/
def hasExtension (extensions : List String) (path : String) : Bool :=
  match Path.extension? path with
  | some extension => extensions.contains extension
  | none => false

/-- Sorts out what lies below the paths given. -/
def Findings.ofWalk (extensions : List String) (walked : List (Except ScanError String)) :
    Findings :=
  let files := walked.filterMap fun w => match w with
    | .ok path => some path
    | .error _ => none
  { paths := files.filter (hasExtension extensions)
    skipped := (files.filter fun path => !hasExtension extensions path).length
    failures := walked.filterMap fun w => match w with
      | .ok _ => none
      | .error e => some e }

/-- An extension without the dots in front of it. -/
def withoutDots (extension : String) : String :=
  String.ofList (extension.toList.dropWhile (· == '.'))

/-- That a file is checked although its extension is not asked for. -/
def unlistedMessage (extensions : List String) (path : String) : String :=
  "Proceeding to check " ++ Path.quoted path ++
    " even though it doesn't match any of the --graphql-file-exts (" ++
    ", ".intercalate (extensions.map fun e => "`." ++ e ++ "`") ++ ")."

/-- The files to check at and below the paths given. -/
def findFiles (disk : Disk m) (extensions roots : List String) : Logged m Findings := do
  let extensions := (extensions.map withoutDots).eraseDups
  log .debug .search ("Scanning " ++ toString roots.length ++ " input paths...")
  let walked ← (roots.mapM disk.walk : m _)
  let found := Findings.ofWalk extensions walked.flatten
  match found.paths, roots with
  | [], [root] =>
    if ← (disk.isFile root : m _) then
      log .warn .search (unlistedMessage extensions root)
      return { found with paths := [root], skipped := found.skipped - 1 }
    else return found
  | _, _ => return found

/-! ## Reports -/

/-- How many definitions of each sort there are. -/
structure Tally where
  operations : Nat
  fragments : Nat
deriving DecidableEq, Repr

namespace Tally

def zero : Tally := ⟨0, 0⟩

def add (a b : Tally) : Tally := ⟨a.operations + b.operations, a.fragments + b.fragments⟩

end Tally

def Document.tally {α : Type} (d : Document α) : Tally :=
  ⟨d.operations.length, d.fragments.length⟩

/-- What came of checking a file: how many definitions it holds, or why it was
not parsed. -/
structure FileReport where
  path : String
  result : Except String Tally

namespace FileReport

/-- Whether a report may stand before another. -/
def precedes (a b : FileReport) : Bool := (Path.compare a.path b.path).isLE

/-- Reports in the order of their paths. Reports on the same path keep their
order. -/
def sorted (reports : List FileReport) : List FileReport := reports.mergeSort precedes

def tally? (r : FileReport) : Option Tally :=
  match r.result with
  | .ok tally => some tally
  | .error _ => none

def failure? (r : FileReport) : Option String :=
  match r.result with
  | .ok _ => none
  | .error message => some message

/-- The definitions in all files that were parsed. -/
def total (reports : List FileReport) : Tally :=
  (reports.filterMap tally?).foldl .add .zero

/-- What is printed about reports, in whatever order they came in. -/
def summary (skipped : Nat) (reports : List FileReport) : Printout :=
  let failures := (sorted reports).filterMap failure?
  if failures.isEmpty then
    let total := total reports
    .ok (successSign ++ " All GraphQL parsed successfully:\n" ++
      "  * Analyzed " ++ toString reports.length ++ " files.\n" ++
      "  * Skipped " ++ toString skipped ++ " non-graphql files.\n" ++
      "  * Parsed " ++ toString total.operations ++ " operations.\n" ++
      "  * Parsed " ++ toString total.fragments ++ " fragments.")
  else
    .error ("\n".intercalate failures ++ "\n" ++ failureSign ++ " " ++ toString failures.length ++
      " of " ++ toString reports.length ++ " GraphQL files failed to parse.")

end FileReport

/-- Checks one file. -/
def checkFile (disk : Disk m) (path : String) : Logged m FileReport := do
  match ← (disk.source path : m _) with
  | .error e => return ⟨path, .error (readFailure path e)⟩
  | .ok source =>
    match ← parseLogged .unlocated source with
    | .error e => return ⟨path, .error e.detailed⟩
    | .ok document => return ⟨path, .ok document.tally⟩

/-- Checks the files at and below the paths given. -/
def checkFiles (disk : Disk m) (extensions roots : List String) : Logged m Printout := do
  let found ← findFiles disk extensions roots
  if !found.failures.isEmpty then
    return .error (failureSign ++ " Failed to scan input paths:\n" ++
      "\n".intercalate (found.failures.map fun e => "  * " ++ e.message))
  log .debug .check ("Found " ++ toString found.paths.length ++ " GraphQL files to be checked.")
  let reports ← found.paths.mapM (checkFile disk)
  for report in FileReport.sorted reports do
    if report.tally?.isSome then
      log .debug .check (report.path ++ " parsed successfully.")
  return FileReport.summary found.skipped reports

end QueryDoc
