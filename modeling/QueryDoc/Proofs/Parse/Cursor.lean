import QueryDoc.Parse.Descent

/-!
# Reading a list of tokens

The steps of a descent are told here without a stream and without a counter. A parser
reads tokens from the front of a list and gives a result or a fault. Beside the tokens
that are left it knows one thing: where the last token it took ended.

A look ahead does not change where a parser stands, so what is proved of the steps
and of their combinations is about the tokens taken alone.
-/
namespace QueryDoc

/-- Where a parser stands. -/
structure Cursor where
  tokens : List Token
  /-- Where the last token taken ended. -/
  last : Option Position
deriving DecidableEq, Repr

abbrev Parser (β : Type) := StateT Cursor (Except Fault) β

namespace Parser

variable {α β : Type}

/-- The kind of the next token. -/
def nextKind : Parser (Option TokenKind) := fun c => .ok (c.tokens.head?.map Token.kind, c)

/-- The span of the next token. At the end of the list it is empty and stands
after the last token taken. -/
def nextSpan : Parser Span := fun c =>
  match c.tokens with
  | t :: _ => .ok (t.span, c)
  | [] => .ok (.emptyAt (c.last.getD .zero), c)

/-- Takes the next token. -/
def advance : Parser Unit := fun c =>
  match c.tokens with
  | t :: rest => .ok ((), ⟨rest, some t.span.stop⟩)
  | [] => .ok ((), c)

/-- How many tokens are left. -/
def remaining : Parser Nat := fun c => .ok (c.tokens.length, c)

/-- The span from `start` to the end of the last token taken. -/
def spanFrom (start : Position) : Parser Span := fun c => .ok (⟨start, c.last.getD start⟩, c)

/-- Stops with a fault at a span. -/
def fail (cause : Cause) (production : Production) (span : Span) : Parser β :=
  fun _ => .error ⟨cause, production, span, []⟩

/-- Stops because the next token is none of those expected. -/
def unexpected (expected : List Expected) (production : Production) : Parser β := do
  fail (unexpectedCause expected (← nextKind)) production (← nextSpan)

/-- Stops because the nesting is too deep. -/
def tooDeep (production : Production) : Parser β := do
  fail .tooDeep production (← nextSpan)

/-- No token is left but the end of input. -/
def atEnd : Parser Bool := do
  match ← nextKind with
  | none => return true
  | some kind => return kind == .endOfInput

def nextIs (p : Punctuator) : Parser Bool := do
  return (← nextKind) == some (.punctuator p)

/-- The next token is the name `word`. -/
def nextIsKeyword (word : String) : Parser Bool := do
  return (← nextKind) == some (.name word)

/-- Takes a punctuator and gives its span. -/
def expect (p : Punctuator) (production : Production) : Parser Span := do
  if ← nextIs p then
    let span ← nextSpan
    advance
    return span
  else unexpected [.literal p.text] production

/-- Takes the name `word`. -/
def expectKeyword (word : String) (production : Production) : Parser Unit := do
  if ← nextIsKeyword word then advance else unexpected [.literal word] production

/-- Takes a name. -/
def name [Carried α] (production : Production) : Parser (Name α) := do
  match (← nextKind).bind TokenKind.nameText? with
  | some text =>
    let span ← nextSpan
    advance
    return ⟨text, Carried.ofSpan span⟩
  | none => unexpected [.name] production

/-- Requires that no token is left. -/
def expectEnd (production : Production) : Parser Unit := do
  if ← atEnd then return () else unexpected [.endOfInput] production

/-- One item or more, up to a closing punctuator that is left alone; `n` bounds
their number. -/
def someUntil (close : Punctuator) (item : Parser β) : Nat → Parser (List β)
  | 0 => return []
  | n + 1 => do
    let x ← item
    if ← nextIs close then return [x]
    else return x :: (← someUntil close item n)

/-- Any number of items, up to a closing punctuator that is left alone; `n`
bounds their number. -/
def manyUntil (close : Punctuator) (production : Production) (item : Parser β) :
    Nat → Parser (List β)
  | 0 => return []
  | n + 1 => do
    if ← nextIs close then return []
    else if ← atEnd then unexpected [.literal close.text] production
    else
      let x ← item
      return x :: (← manyUntil close production item n)

/-- Items that each start with the punctuator `first`; `n` bounds their number. -/
def manyWhile (first : Punctuator) (item : Parser β) : Nat → Parser (List β)
  | 0 => return []
  | n + 1 => do
    if ← nextIs first then
      let x ← item
      return x :: (← manyWhile first item n)
    else return []

/-- A list in delimiters that must not be empty, with the span of the opening
one. An item takes a token at least, which bounds the number of items. -/
def nonempty (opening closing : Punctuator) (construct : Construct) (production : Production)
    (item : Parser β) : Parser (Span × List β) := do
  let start ← expect opening production
  if ← nextIs closing then
    let stop ← nextSpan
    fail (.empty construct) production ⟨start.start, stop.stop⟩
  else
    let items ← someUntil closing item ((← remaining) + 1)
    let _ ← expect closing production
    return (start, items)

/-- Runs a parser on all the tokens of a source. -/
def run (p : Parser β) (source : Source) (tokens : List Token) : Except ParseError β :=
  match p ⟨tokens, none⟩ with
  | .ok (x, _) => .ok x
  | .error fault => .error ⟨fault, source⟩

end Parser

end QueryDoc
