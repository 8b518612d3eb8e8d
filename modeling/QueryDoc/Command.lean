import QueryDoc.Command.Arguments
import QueryDoc.Command.Check
import QueryDoc.Tree.Encoding
import QueryDoc.Tree.Node

/-!
# Running a command

A command prints a text, or fails with a text that says why. Both end with a
line break. The log is kept apart from them and holds what the threshold lets
through; being asked to be verbose overrides the threshold that the user set.
What a command line asks to be done at once is done without a log.
-/
namespace QueryDoc

variable {m : Type → Type} [Monad m]

/-- Parses a file and prints what `render` makes of it. -/
def printParsed (disk : Disk m) (options : ParseOptions) (file : String)
    (render : Node (Option Location) → String) : Logged m Printout := do
  match ← (disk.source file : m _) with
  | .error e => return .error (failureSign ++ " " ++ readFailure file e)
  | .ok source =>
    match ← parseLogged options source with
    | .error e => return .error e.detailed
    | .ok document => return .ok (render (.document document))

/-- Prints a file in canonical form. -/
def printFile (disk : Disk m) (file : String) : Logged m Printout :=
  printParsed disk ParseOptions.unlocated file fun node => node.toTree.print

/-- Prints the tree of a file as JSON. -/
def printTree (disk : Disk m) (noLocation : Bool) (file : String) : Logged m Printout :=
  printParsed disk ⟨noLocation⟩ file fun node => node.toTree.toJson.render toString 0

/-! ## Help -/

def versionText : String := "graphql 0.1.0"

/-- The lines on the flags that every command knows. -/
def commonFlags : String :=
  "  -v, --verbose  Log at debug level (overrides `LOG_LEVEL`).\n" ++
  "  -h, --help     Print help"

def helpText : Option Subcommand → String
  | none =>
    "Check, format and inspect GraphQL executable documents\n" ++
    "\n" ++
    "Usage: graphql [OPTIONS] [COMMAND]\n" ++
    "\n" ++
    "Commands:\n" ++
    "  check  Parse GraphQL files and report any syntax errors\n" ++
    "  print  Print a GraphQL file in canonical form\n" ++
    "  ast    Dump the syntax tree of a GraphQL file as JSON\n" ++
    "  help   Print this message or the help of the given subcommand(s)\n" ++
    "\n" ++
    "Options:\n" ++
    commonFlags ++ "\n" ++
    "  -V, --version  Print version"
  | some .check =>
    "Parse GraphQL files and report any syntax errors\n" ++
    "\n" ++
    "Usage: graphql check [OPTIONS] <FILE_OR_DIR_PATHS>...\n" ++
    "\n" ++
    "Options:\n" ++
    "  --graphql-file-exts <LIST>  File extensions to look for [default: graphql,gql]\n" ++
    commonFlags
  | some .print =>
    "Print a GraphQL file in canonical form\n" ++
    "\n" ++
    "Usage: graphql print [OPTIONS] <FILE>\n" ++
    "\n" ++
    "Options:\n" ++
    commonFlags
  | some .ast =>
    "Dump the syntax tree of a GraphQL file as JSON\n" ++
    "\n" ++
    "Usage: graphql ast [OPTIONS] <FILE>\n" ++
    "\n" ++
    "Options:\n" ++
    "  --no-location  Leave source locations out of the dumped tree.\n" ++
    commonFlags
  | some .help =>
    "Print this message or the help of the given subcommand(s)\n" ++
    "\n" ++
    "Usage: graphql help [COMMAND]..."

/-! ## Outcomes -/

/-- What is left of a run: how it ended, the two texts it printed and its log. -/
structure Outcome where
  exitCode : Nat
  output : String
  errors : String
  log : List LogEntry

def Outcome.ofPrintout (log : List LogEntry) : Printout → Outcome
  | .ok text => ⟨0, text ++ "\n", "", log⟩
  | .error text => ⟨1, "", text ++ "\n", log⟩

/-- Whether a job is done at once, before there is a log. -/
def Job.isAtOnce : Job → Bool
  | .help _ => true
  | .version => true
  | _ => false

def Job.run (disk : Disk m) : Job → Logged m Printout
  | .overview => return .ok (helpText none)
  | .help topic => return .ok (helpText topic)
  | .version => return .ok versionText
  | .check extensions paths => checkFiles disk extensions paths
  | .print file => printFile disk file
  | .ast noLocation file => printTree disk noLocation file

/-- The threshold of a run and what is to be said about it. -/
def Invocation.threshold (setting : Option String) (invocation : Invocation) :
    LogLevel × List LogEntry :=
  if invocation.verbose then (.debug, []) else LogLevel.ofSetting setting

/-- Runs a command under the threshold that the user set. -/
def Invocation.run (disk : Disk m) (setting : Option String) (invocation : Invocation) :
    m Outcome := do
  let (threshold, warnings) := invocation.threshold setting
  let (printout, entries) ← (invocation.job.run disk).run
    (if invocation.job.isAtOnce then [] else warnings)
  return .ofPrintout (entries.filter threshold.admits) printout

end QueryDoc
