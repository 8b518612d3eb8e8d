/-!
# Positions in a text

A position counts what precedes it in four units at once: complete lines,
characters of the current line, UTF-16 units of the current line and UTF-8
bytes of the whole text. A line ends at a line feed, at a carriage return, or
at the two together, which count once.

The lexer keeps its position while it reads, and beside it a single bit: whether
the last character was a carriage return, so that a line feed right after it is
not a second line break. It reads character by character, or takes a stretch in
which no line ends as a whole. The position of a byte offset is found without the
lexer, by a loop that counts the text from its start.
-/
namespace QueryDoc

/-- What precedes a place in a text; every count starts at zero. -/
structure Position where
  line : Nat
  column : Nat
  column16 : Nat
  offset : Nat
deriving DecidableEq, Repr, Inhabited

/-- The place before the first character. -/
def Position.zero : Position := ⟨0, 0, 0, 0⟩

/-- The half-open stretch of text from `start` up to `stop`. -/
structure Span where
  start : Position
  stop : Position
deriving DecidableEq, Repr, Inhabited

/-- The empty stretch at a place. -/
def Span.emptyAt (p : Position) : Span := ⟨p, p⟩

/-- UTF-16 units that a character takes. -/
def units16 (c : Char) : Nat := if c.toNat < 0x10000 then 1 else 2

/-- UTF-16 units that the characters take. -/
def length16 : List Char → Nat
  | [] => 0
  | c :: cs => units16 c + length16 cs

/-- UTF-8 bytes that the characters take. -/
def byteLength : List Char → Nat
  | [] => 0
  | c :: cs => c.utf8Size + byteLength cs

@[simp] theorem byteLength_append (cs ds : List Char) :
    byteLength (cs ++ ds) = byteLength cs + byteLength ds := by
  induction cs with
  | nil => simp [byteLength]
  | cons c cs ih => simp only [List.cons_append, byteLength, ih]; omega

/-- How far a text has been read: the position reached, and whether the last
character read was a carriage return. -/
structure Reading where
  position : Position
  afterReturn : Bool
deriving DecidableEq, Repr

namespace Reading

/-- Nothing has been read yet. -/
def start : Reading := ⟨.zero, false⟩

/-- Reads one more character. -/
def step (r : Reading) (c : Char) : Reading :=
  let p := r.position
  let offset := p.offset + c.utf8Size
  if c = '\n' ∧ r.afterReturn then
    ⟨{ p with offset := offset }, false⟩
  else if c = '\n' then
    ⟨⟨p.line + 1, 0, 0, offset⟩, false⟩
  else if c = '\r' then
    ⟨⟨p.line + 1, 0, 0, offset⟩, true⟩
  else
    ⟨⟨p.line, p.column + 1, p.column16 + units16 c, offset⟩, false⟩

/-- Reads a stretch of characters. -/
def through (r : Reading) (cs : List Char) : Reading := cs.foldl step r

/-- Reads a stretch in which no line ends, all of it at once. -/
def segment (r : Reading) (cs : List Char) : Reading :=
  let p := r.position
  ⟨⟨p.line, p.column + cs.length, p.column16 + length16 cs, p.offset + byteLength cs⟩,
    r.afterReturn && cs.isEmpty⟩

@[simp] theorem through_nil (r : Reading) : r.through [] = r := rfl

@[simp] theorem through_cons (r : Reading) (c : Char) (cs : List Char) :
    r.through (c :: cs) = (r.step c).through cs := rfl

@[simp] theorem through_append (r : Reading) (cs ds : List Char) :
    r.through (cs ++ ds) = (r.through cs).through ds := List.foldl_append ..

theorem offset_step (r : Reading) (c : Char) :
    (r.step c).position.offset = r.position.offset + c.utf8Size := by
  unfold step
  split
  · rfl
  · split
    · rfl
    · split <;> rfl

theorem offset_through (r : Reading) (cs : List Char) :
    (r.through cs).position.offset = r.position.offset + byteLength cs := by
  induction cs generalizing r with
  | nil => rfl
  | cons c cs ih => rw [through_cons, ih, offset_step, byteLength]; omega

end Reading

/-- The position just after the characters `cs`, read from the start. -/
def Position.after (cs : List Char) : Position := (Reading.start.through cs).position

/-- Characters with the bytes at which they start, the first of them at `index`. -/
def charIndices (index : Nat) : List Char → List (Nat × Char)
  | [] => []
  | c :: cs => (index, c) :: charIndices (index + c.utf8Size) cs

namespace Position

/-- The count `p` with one more character, which ends at the byte `stop`. The flag
says whether the character in front of it is a carriage return. -/
def count (p : Position) (afterReturn : Bool) (c : Char) (stop : Nat) : Position :=
  if c = '\n' ∧ afterReturn then { p with offset := stop }
  else if c = '\n' ∨ c = '\r' then ⟨p.line + 1, 0, 0, stop⟩
  else ⟨p.line, p.column + 1, p.column16 + units16 c, stop⟩

/-- Counts the characters that start before the byte `offset`. -/
def countTo (offset : Nat) (p : Position) (afterReturn : Bool) : List (Nat × Char) → Position
  | [] => p
  | (index, c) :: rest =>
    if offset ≤ index then p
    else countTo offset (p.count afterReturn c (index + c.utf8Size)) (c == '\r') rest

/-- The position of a byte offset. An offset inside a character stands for the
end of that character, and one past the end for the end of the text. -/
def atOffset (text : List Char) (offset : Nat) : Position :=
  countTo offset .zero false (charIndices 0 text)

end Position

end QueryDoc
