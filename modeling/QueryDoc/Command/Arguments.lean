import QueryDoc.Text.Line

/-!
# Command lines

A command line is read from left to right. Flags may come before the name of a
subcommand, and then again among the arguments of the subcommand; on each side
a flag may be given once. Short flags may be written in one cluster. Asking for
help or for the version takes effect at once, so what comes after it does not
matter, while a mistake before it does. After a double dash everything is an
operand.
-/
namespace QueryDoc

inductive Subcommand where
  | check
  | print
  | ast
  | help
deriving DecidableEq, Repr

def Subcommand.ofName? : String → Option Subcommand
  | "check" => some .check
  | "print" => some .print
  | "ast" => some .ast
  | "help" => some .help
  | _ => none

/-- What a command line asks for. -/
inductive Job where
  /-- No subcommand: there is nothing to do but to explain. -/
  | overview
  | help (topic : Option Subcommand)
  | version
  | check (extensions paths : List String)
  | print (file : String)
  | ast (noLocation : Bool) (file : String)
deriving DecidableEq, Repr

structure Invocation where
  verbose : Bool
  job : Job
deriving DecidableEq, Repr

/-- Why the rest of a command line is not read. -/
inductive Ending where
  /-- The command line makes no sense. -/
  | misuse
  /-- It asks for something that is done at once. -/
  | atOnce (job : Job)
deriving DecidableEq, Repr

inductive Flag where
  | verbose
  | help
  | version
  | noLocation
deriving DecidableEq, Repr

namespace Flag

def ofLongName? : String → Option Flag
  | "--verbose" => some .verbose
  | "--help" => some .help
  | "--version" => some .version
  | "--no-location" => some .noLocation
  | _ => none

def ofShortName? : Char → Option Flag
  | 'v' => some .verbose
  | 'h' => some .help
  | 'V' => some .version
  | _ => none

end Flag

/-- Whether an argument starts with a dash and is not just one dash. -/
def isOption (arg : String) : Bool :=
  match arg.toList with
  | '-' :: _ :: _ => true
  | _ => false

/-- The flags that an option stands for, in order. A part of it that stands for
no flag is `none`. -/
def optionFlags (arg : String) : List (Option Flag) :=
  match arg.toList with
  | '-' :: '-' :: _ => [Flag.ofLongName? arg]
  | _ :: names => names.map Flag.ofShortName?
  | [] => []

/-- Where flags stand: in front of the subcommand or behind it. -/
abbrev Side := Option Subcommand

/-- Whether a flag is known on a side. -/
def Side.knows (side : Side) : Flag → Bool
  | .verbose => true
  | .help => true
  | .version => side == none
  | .noLocation => side == some .ast

/-- Takes note of a flag. -/
def Side.addFlag (side : Side) (given : List Flag) : Option Flag → Except Ending (List Flag)
  | none => .error .misuse
  | some flag =>
    if !side.knows flag then .error .misuse
    else
      match flag with
      | .help => .error (.atOnce (.help side))
      | .version => .error (.atOnce .version)
      | _ => if given.contains flag then .error .misuse else .ok (flag :: given)

/-- Takes note of the flags of an option. -/
def Side.addOption (side : Side) (given : List Flag) (arg : String) : Except Ending (List Flag) :=
  (optionFlags arg).foldlM side.addFlag given

/-- What the arguments of a subcommand say. -/
structure Given where
  flags : List Flag
  /-- The file extensions, if they are given. -/
  extensions : Option (List String)
  operands : List String
deriving DecidableEq, Repr

namespace Given

def none : Given := ⟨[], .none, []⟩

/-- Adds a list of extensions, written with commas. -/
def addExtensions (given : Given) (value : String) : Given :=
  { given with extensions := some (given.extensions.getD [] ++ splitText ',' value) }

end Given

/-- The option that names file extensions. -/
def extensionsOption : String := "--graphql-file-exts"

/-- The value of that option when it is written in one argument with it. -/
def attachedExtensions? (arg : String) : Option String :=
  let start := (extensionsOption ++ "=").toList
  if start.isPrefixOf arg.toList then some (String.ofList (arg.toList.drop start.length)) else none

namespace Subcommand

/-- Whether one operand is all that a subcommand takes. -/
def takesOne : Subcommand → Bool
  | .check => false
  | _ => true

def addOperand (sub : Subcommand) (given : Given) (arg : String) : Except Ending Given :=
  if arg = "" || (sub.takesOne && !given.operands.isEmpty) then .error .misuse
  else .ok { given with operands := given.operands ++ [arg] }

/-- Reads the arguments of a subcommand. -/
def read (sub : Subcommand) (given : Given) : List String → Except Ending Given
  | [] => .ok given
  | arg :: rest =>
    if arg = "--" then rest.foldlM sub.addOperand given
    else if sub = .check && arg = extensionsOption then
      match rest with
      | value :: rest => if isOption value then .error .misuse
        else sub.read (given.addExtensions value) rest
      | [] => .error .misuse
    else
      match if sub = .check then attachedExtensions? arg else none with
      | some value => sub.read (given.addExtensions value) rest
      | none =>
        if isOption arg then
          match Side.addOption (some sub) given.flags arg with
          | .ok flags => sub.read { given with flags := flags } rest
          | .error ending => .error ending
        else
          match sub.addOperand given arg with
          | .ok given => sub.read given rest
          | .error ending => .error ending

/-- The extensions that are looked for when none are given. -/
def standardExtensions : List String := ["graphql", "gql"]

/-- What a subcommand and its arguments ask for. -/
def job (sub : Subcommand) (given : Given) : Except Ending Job :=
  match sub, given.operands with
  | .print, [file] => .ok (.print file)
  | .ast, [file] => .ok (.ast (given.flags.contains .noLocation) file)
  | .check, path :: paths =>
    .ok (.check (given.extensions.getD standardExtensions) (path :: paths))
  | _, _ => .error .misuse

/-- What the arguments after the name of the help subcommand ask for. -/
def helpTopic : List String → Ending
  | [] => .atOnce (.help none)
  | [name] => match ofName? name with
    | some sub => .atOnce (.help (some sub))
    | none => .misuse
  | _ => .misuse

end Subcommand

namespace Invocation

/-- Reads a command line behind the flags given so far. -/
def read (flags : List Flag) : List String → Except Ending Invocation
  | [] => .ok ⟨flags.contains .verbose, .overview⟩
  | arg :: rest =>
    if arg = "--" then
      if rest.isEmpty then .ok ⟨flags.contains .verbose, .overview⟩ else .error .misuse
    else if isOption arg then
      match Side.addOption none flags arg with
      | .ok flags => read flags rest
      | .error ending => .error ending
    else
      match Subcommand.ofName? arg with
      | none => .error .misuse
      | some .help => .error (Subcommand.helpTopic rest)
      | some sub => do
        let given ← sub.read .none rest
        return ⟨flags.contains .verbose || given.flags.contains .verbose, ← sub.job given⟩

/-- What a command line asks for, unless it makes no sense. -/
def ofArguments? (args : List String) : Option Invocation :=
  match read [] args with
  | .ok invocation => some invocation
  | .error (.atOnce job) => some ⟨false, job⟩
  | .error .misuse => none

end Invocation

end QueryDoc
