import QueryDoc.Parse.Error
import QueryDoc.Syntax.Value
import QueryDoc.Token.Stream

/-!
# Reading a stream of tokens

A parser descends from a construct to its parts. It reads tokens from a stream, looks
at the next one only, and gives a result or a fault. Beside the stream it keeps where
the last token that it took ended: nodes end there, and errors after the last token
stand there. It also counts how deep it is in values and selection sets. One counter
serves both, and whatever would go deeper than is allowed is an error.

The end of the stream and the token for the end of input are treated alike, and
neither is ever taken.

Nodes are made with what they carry. What that is, is left open: it is made from
the span of the node, and it may or may not tell where the node starts.
-/
namespace QueryDoc

/-- What nodes carry is made from their spans, and may tell where a node starts. -/
class Carried (α : Type) where
  ofSpan : Span → α
  start? : α → Option Position

/-- Nodes that carry their spans. -/
@[default_instance]
instance : Carried Span := ⟨fun s => s, fun s => some s.start⟩

/-- The fault of a next token that is none of those expected. -/
def Parser.unexpectedCause (expected : List Expected) : Option TokenKind → Cause
  | none => .unexpectedEnd expected
  | some .endOfInput => .unexpectedEnd expected
  | some (.error message notes) => .lexical message notes
  | some kind => .unexpectedToken expected kind.describe

/-- What a parser keeps while it descends. -/
structure Descent.State where
  stream : TokenStream
  /-- Where the last token taken ended. -/
  last : Option Position
  /-- How deep it is in values and selection sets. -/
  depth : Nat

abbrev Descent (β : Type) := StateT Descent.State (Except Fault) β

namespace Descent

variable {α β : Type}

/-! ## The stream -/

/-- Looks at the next token. -/
def peek : Descent (Option Token) := fun s =>
  .ok (s.stream.peek.1, { s with stream := s.stream.peek.2 })

/-- Takes the next token. -/
def consume : Descent (Option Token) := fun s =>
  let token := s.stream.consume.1
  .ok (token, { s with
    stream := s.stream.consume.2, last := (token.map fun t => t.span.stop).or s.last })

/-- No token is left but the end of input. -/
def isAtEnd : Descent Bool := fun s =>
  .ok (s.stream.isAtEnd.1, { s with stream := s.stream.isAtEnd.2 })

/-- How many tokens are left. Loops take one in each round, which bounds them. -/
def remaining : Descent Nat := fun s =>
  .ok (s.stream.buffer.length + s.stream.supply.length, s)

/-- The kind of the next token. -/
def nextKind : Descent (Option TokenKind) := do
  return (← peek).map Token.kind

/-- The span of the next token. If there is none, it is empty and stands after the
last token taken. -/
def currentSpan : Descent Span := do
  match ← peek with
  | some t => return t.span
  | none => return .emptyAt ((← get).last.getD .zero)

/-- The span from `start` to the end of the last token taken. -/
def spanFrom (start : Position) : Descent Span := do
  return ⟨start, (← get).last.getD start⟩

/-! ## Faults -/

/-- Stops with a fault at a span. -/
def fail (cause : Cause) (production : Production) (span : Span) : Descent β :=
  throw ⟨cause, production, span, []⟩

/-- Stops because the next token is none of those expected. -/
def unexpected (expected : List Expected) (production : Production) : Descent β := do
  fail (Parser.unexpectedCause expected (← nextKind)) production (← currentSpan)

/-- Stops because the nesting is too deep. -/
def tooDeep (production : Production) : Descent β := do
  fail .tooDeep production (← currentSpan)

/-! ## The counter -/

/-- Goes one level deeper, if that is allowed. -/
def enterRecursion (production : Production) : Descent Unit := do
  if maxDepth ≤ (← get).depth then tooDeep production
  else modify fun s => { s with depth := s.depth + 1 }

def exitRecursion : Descent Unit := modify fun s => { s with depth := s.depth - 1 }

/-- Reads something one level deeper. -/
def nested (production : Production) (body : Descent β) : Descent β := do
  enterRecursion production
  let x ← body
  exitRecursion
  return x

/-! ## Single tokens -/

def nextIs (p : Punctuator) : Descent Bool := do
  return (← nextKind) == some (.punctuator p)

/-- The next token is the name `word`. -/
def nextIsKeyword (word : String) : Descent Bool := do
  return (← nextKind) == some (.name word)

/-- The next token may stand for a name. -/
def nextIsName : Descent Bool := do
  return ((← nextKind).bind TokenKind.nameText?).isSome

/-- Takes a punctuator and gives its span. -/
def expect (p : Punctuator) (production : Production) : Descent Span := do
  if ← nextIs p then
    match ← consume with
    | some t => return t.span
    | none => unexpected [.literal p.text] production
  else unexpected [.literal p.text] production

/-- Takes the name `word`. -/
def expectKeyword (word : String) (production : Production) : Descent Unit := do
  if ← nextIsKeyword word then
    match ← consume with
    | some _ => return ()
    | none => unexpected [.literal word] production
  else unexpected [.literal word] production

/-- Takes a name. -/
def name [Carried α] (production : Production) : Descent (Name α) := do
  if ← nextIsName then
    match ← consume with
    | some t =>
      match t.kind.nameText? with
      | some text => return ⟨text, Carried.ofSpan t.span⟩
      | none => unexpected [.name] production
    | none => unexpected [.name] production
  else unexpected [.name] production

/-- Requires that no token is left. -/
def expectEnd (production : Production) : Descent Unit := do
  if ← isAtEnd then return () else unexpected [.endOfInput] production

/-! ## Loops -/

/-- One item or more, up to a closing punctuator that is left alone; `n` bounds
their number. -/
def someUntil (close : Punctuator) (item : Descent β) : Nat → Descent (List β)
  | 0 => return []
  | n + 1 => do
    let x ← item
    if ← nextIs close then return [x]
    else return x :: (← someUntil close item n)

/-- Any number of items, up to a closing punctuator that is left alone; `n`
bounds their number. -/
def manyUntil (close : Punctuator) (production : Production) (item : Descent β) :
    Nat → Descent (List β)
  | 0 => return []
  | n + 1 => do
    if ← nextIs close then return []
    else if ← isAtEnd then unexpected [.literal close.text] production
    else
      let x ← item
      return x :: (← manyUntil close production item n)

/-- Items that each start with the punctuator `first`; `n` bounds their number. -/
def manyWhile (first : Punctuator) (item : Descent β) : Nat → Descent (List β)
  | 0 => return []
  | n + 1 => do
    if ← nextIs first then
      let x ← item
      return x :: (← manyWhile first item n)
    else return []

/-- A list in delimiters that must not be empty, with the span of the opening
one. -/
def nonempty (opening closing : Punctuator) (construct : Construct) (production : Production)
    (item : Descent β) : Descent (Span × List β) := do
  let start ← expect opening production
  if ← nextIs closing then
    let stop ← currentSpan
    fail (.empty construct) production ⟨start.start, stop.stop⟩
  else
    let items ← someUntil closing item ((← remaining) + 1)
    let _ ← expect closing production
    return (start, items)

/-- Runs a parser on all the tokens of a source. -/
def run (p : Descent β) (source : Source) (tokens : List Token) : Except ParseError β :=
  match p ⟨.ofList tokens, none, 0⟩ with
  | .ok (x, _) => .ok x
  | .error fault => .error ⟨fault, source⟩

end Descent

end QueryDoc
