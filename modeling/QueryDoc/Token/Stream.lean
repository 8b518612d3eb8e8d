import QueryDoc.Token

/-!
# Token streams

A stream hands out the tokens of a supply one by one and lets its reader look
ahead. Tokens that were looked at and not yet consumed wait in a buffer, and
the supply is asked for no more tokens than some call needed, so a reader that
stops early leaves the rest of the supply alone.
-/
namespace QueryDoc

/-- Tokens looked at and not consumed, in front of those not yet asked for. -/
structure TokenStream where
  buffer : List Token
  supply : List Token
deriving DecidableEq, Repr

namespace TokenStream

def ofList (tokens : List Token) : TokenStream := ⟨[], tokens⟩

/-- Asks the supply until the buffer holds `n` tokens or the supply is empty. -/
def fill (n : Nat) (s : TokenStream) : TokenStream :=
  let missing := n - s.buffer.length
  ⟨s.buffer ++ s.supply.take missing, s.supply.drop missing⟩

/-- Looks at the token that `n` others precede. -/
def peekNth (n : Nat) (s : TokenStream) : Option Token × TokenStream :=
  let s := s.fill (n + 1)
  (s.buffer[n]?, s)

/-- Looks at the next token. -/
def peek (s : TokenStream) : Option Token × TokenStream := s.peekNth 0

/-- Takes the next token off. -/
def consume (s : TokenStream) : Option Token × TokenStream :=
  let s := s.fill 1
  (s.buffer.head?, { s with buffer := s.buffer.tail })

/-- No token is left, or the next one is the end of input. -/
def isAtEnd (s : TokenStream) : Bool × TokenStream :=
  match s.peek with
  | (none, s) => (true, s)
  | (some t, s) => (t.kind == .endOfInput, s)

end TokenStream

end QueryDoc
