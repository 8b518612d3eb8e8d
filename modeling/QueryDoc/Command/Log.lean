import QueryDoc.Text.Char

/-!
# Logs

A log entry has a level, the part of the program that it comes from, and a
message. A threshold keeps the entries of its own level and of the more severe
ones. The user sets the threshold by a word; a word that is not known is
reported and leaves the standard threshold in force.
-/
namespace QueryDoc

/-- Levels from the most to the least severe. -/
inductive LogLevel where
  | error
  | warn
  | info
  | debug
  | trace
deriving DecidableEq, Repr

namespace LogLevel

def verbosity : LogLevel → Nat
  | .error => 0
  | .warn => 1
  | .info => 2
  | .debug => 3
  | .trace => 4

def label : LogLevel → String
  | .error => "ERROR"
  | .warn => "WARN"
  | .info => "INFO"
  | .debug => "DEBUG"
  | .trace => "TRACE"

/-- The level that is in force when none is asked for. -/
def standard : LogLevel := .info

/-- The level that a word in lower case asks for. -/
def ofWord? : String → Option LogLevel
  | "trace" => some .trace
  | "debug" => some .debug
  | "verbose" => some .debug
  | "info" => some .info
  | "warn" => some .warn
  | "error" => some .error
  | _ => none

end LogLevel

/-- The part of the program that an entry comes from. -/
inductive LogOrigin where
  | start
  | search
  | check
  | parser
deriving DecidableEq, Repr

def LogOrigin.label : LogOrigin → String
  | .start => "graphql"
  | .search => "graphql::output_utils"
  | .check => "graphql::commands::check"
  | .parser => "graphql_web::graphql_parser"

structure LogEntry where
  level : LogLevel
  origin : LogOrigin
  message : String
deriving DecidableEq, Repr

/-- Whether a terminal may take a character of ASCII for the start of a command. -/
def steersTerminal (c : Char) : Bool :=
  let n := c.toNat
  n == 0x07 || n == 0x08 || n == 0x0C || n == 0x1B || n == 0x7F

/-- The form of a character in a log, such that no message can steer the
terminal that shows it. Line feeds stay, so a message may have several lines. -/
def logChar (c : Char) : List Char :=
  let n := c.toNat
  if steersTerminal c then ['\\', 'x', hexDigit (n / 16), hexDigit (n % 16)]
  else if 0x80 ≤ n && n < 0xA0 then spelledOut c
  else [c]

/-- The line that shows an entry. -/
def LogEntry.line (e : LogEntry) : String :=
  e.level.label ++ " " ++ e.origin.label ++ ": " ++ String.ofList (e.message.toList.flatMap logChar)

/-- Whether an entry passes a threshold. -/
def LogLevel.admits (threshold : LogLevel) (e : LogEntry) : Bool :=
  e.level.verbosity ≤ threshold.verbosity

/-- A text without the white space around it. -/
def trimmed (text : String) : String :=
  let front := text.toList.dropWhile isSpace
  String.ofList (front.reverse.dropWhile isSpace).reverse

/-- The threshold for what the user set, if anything, and what is to be said
about it. -/
def LogLevel.ofSetting (setting : Option String) : LogLevel × List LogEntry :=
  match setting with
  | none => (standard, [])
  | some text =>
    let word := trimmed text
    match ofWord? (String.ofList (word.toList.map Char.toLower)) with
    | some level => (level, [])
    | none =>
      (standard,
        [⟨.warn, .start, "Invalid `LOG_LEVEL` environment variable value: `" ++ word ++ "`"⟩])

/-- A computation that keeps a log. -/
abbrev Logged (m : Type → Type) : Type → Type := StateT (List LogEntry) m

/-- Adds an entry to the log. -/
def log {m : Type → Type} [Monad m] (level : LogLevel) (origin : LogOrigin) (message : String) :
    Logged m Unit :=
  modify (· ++ [⟨level, origin, message⟩])

end QueryDoc
