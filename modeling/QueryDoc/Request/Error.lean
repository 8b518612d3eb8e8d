import QueryDoc.Json
import QueryDoc.Number
import QueryDoc.Parse.Diagnostic
import QueryDoc.Tree

/-!
# Request errors

An error as a response reports it: a message, the nodes or the places it is
about, the path in the response, further data, and what caused it. A request
error may wrap another one, and so on down to a root cause, so the whole is a
list of reports and what stands behind the last of them.

Places can be given as nodes, which know their positions, or as byte offsets,
whose positions are computed from the source; given offsets go first. The
further data of a report that has none is that of the report it wraps.
-/
namespace QueryDoc

/-- A step of a path in a response. -/
inductive PathSegment where
  | key (name : String)
  | index (n : Nat)
deriving DecidableEq, Repr

/-- One error, without what caused it. -/
structure Report where
  message : String
  nodes : List (Tree (Option Location))
  source : Option Source
  offsets : List Nat
  path : List PathSegment
  extensions : Option (List (String × Json Number))

/-- What stands behind a request error and is none itself. -/
inductive RootCause where
  | text (message : String)
  | parse (e : ParseError)

structure RequestError where
  report : Report
  /-- The reports wrapped in this one, outermost first. -/
  wrapped : List Report
  root : Option RootCause

namespace Report

def ofMessage (message : String) : Report := ⟨message, [], none, [], [], none⟩

/-- The locations of the nodes that have one. -/
def nodeLocations (r : Report) : List Location := r.nodes.filterMap Tree.info

/-- The source given, or that of the first node with a location. -/
def source? (r : Report) : Option Source :=
  r.source.or (r.nodeLocations.head?.map Location.source)

/-- The byte offsets given, or where the nodes start. -/
def positions (r : Report) : List Nat :=
  if r.offsets.isEmpty then r.nodeLocations.map (fun l => l.span.start.offset) else r.offsets

/-- Where a reader finds the error. -/
def places (r : Report) : List Place :=
  if r.offsets.isEmpty then r.nodeLocations.map fun l => l.source.place l.span.start
  else
    match r.source? with
    | some s => r.offsets.map fun n => s.place (.atOffset s.chars n)
    | none => []

end Report

def RootCause.message : RootCause → String
  | .text message => message
  | .parse e => e.oneLine

namespace RequestError

def ofMessage (message : String) : RequestError := ⟨.ofMessage message, [], none⟩

/-- A syntax error as a request error. -/
def ofParse (e : ParseError) : RequestError :=
  { report := { Report.ofMessage ("Syntax Error: " ++ e.message) with
      source := some e.source
      offsets := [e.offset] }
    wrapped := []
    root := some (.parse e) }

/-- Replaces what caused the error by another request error. -/
def wrapping (e inner : RequestError) : RequestError :=
  { e with wrapped := inner.report :: inner.wrapped, root := inner.root }

/-- Replaces what caused the error. -/
def causedBy (e : RequestError) (root : RootCause) : RequestError :=
  { e with wrapped := [], root := some root }

def hasCause (e : RequestError) : Bool := !e.wrapped.isEmpty || e.root.isSome

/-- The messages of all causes, the nearest first. -/
def causes (e : RequestError) : List String :=
  e.wrapped.map Report.message ++ (e.root.map RootCause.message).toList

/-- The further data of the first report that has any. -/
def extensions (e : RequestError) : List (String × Json Number) :=
  ((e.report :: e.wrapped).findSome? Report.extensions).getD []

def natural (n : Nat) : Json Number := .number (.int n)

def Place.toJson (p : Place) : Json Number :=
  .object [("line", natural p.line), ("column", natural p.column)]

def PathSegment.toJson : PathSegment → Json Number
  | .key name => .string name
  | .index n => natural n

/-- The error as it stands in a response. -/
def toResponse (e : RequestError) : Json Number :=
  let list (key : String) (items : List (Json Number)) : List (String × Json Number) :=
    if items.isEmpty then [] else [(key, .array items)]
  .object
    (("message", .string e.report.message) ::
      (list "locations" (e.report.places.map Place.toJson) ++
        list "path" (e.report.path.map PathSegment.toJson) ++
        (if e.extensions.isEmpty then [] else [("extensions", .object e.extensions)])))

end RequestError

end QueryDoc
