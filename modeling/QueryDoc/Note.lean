import QueryDoc.Text.Position

/-!
# Notes

A note adds to an error what its message leaves out: an explanation, a
suggested correction, a reference to the language specification, or a second
place to look at.
-/
namespace QueryDoc

inductive NoteKind where
  | general
  | help
  | spec
deriving DecidableEq, Repr

/-- The word that introduces a note of this kind. -/
def NoteKind.label : NoteKind → String
  | .general => "note"
  | .help => "help"
  | .spec => "spec"

structure Note where
  kind : NoteKind
  message : String
  span : Option Span
deriving DecidableEq, Repr

namespace Note

def general (message : String) : Note := ⟨.general, message, none⟩

def help (message : String) : Note := ⟨.help, message, none⟩

def spec (message : String) : Note := ⟨.spec, message, none⟩

/-- A general note that points at a span. -/
def pointing (message : String) (span : Span) : Note := ⟨.general, message, some span⟩

end Note

end QueryDoc
