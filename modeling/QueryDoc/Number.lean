import QueryDoc.Number.Double

/-!
# Numbers in values

A number is an integer of 64 bits or a double. An integer is read from a sign
and digits, a double from digits with an optional point and exponent. Either may
have a plus sign, and digits may be missing on one side of the point, because a
number need not come from the text of a document.
-/
namespace QueryDoc

inductive Number where
  | int (i : Int)
  | float (bits : UInt64)
deriving DecidableEq, Repr

namespace Number

/-- Splits off a sign; true stands for minus. -/
def splitSign : List Char → Bool × List Char
  | '-' :: cs => (true, cs)
  | '+' :: cs => (false, cs)
  | cs => (false, cs)

/-- The number that decimal digits stand for. -/
def natural (digits : List Char) : Nat :=
  digits.foldl (fun n c => 10 * n + (c.toNat - '0'.toNat)) 0

/-- An integer from its text. -/
def integer? (cs : List Char) : Option Int :=
  let (negative, digits) := splitSign cs
  if !digits.isEmpty && digits.all Char.isDigit then
    let n : Int := natural digits
    some (if negative then -n else n)
  else none

/-- The exponent of a decimal, zero if the text is empty. -/
def exponent? : List Char → Option Int
  | [] => some 0
  | c :: cs => if c = 'e' ∨ c = 'E' then integer? cs else none

/-- A decimal without sign from its text, as a natural number and a power of ten. -/
def decimal? (cs : List Char) : Option (Nat × Int) :=
  let whole := cs.takeWhile Char.isDigit
  let (part, rest) := match cs.dropWhile Char.isDigit with
    | '.' :: ds => (ds.takeWhile Char.isDigit, ds.dropWhile Char.isDigit)
    | ds => ([], ds)
  let digits := whole ++ part
  if digits.isEmpty then none
  else (exponent? rest).map fun e => (natural digits, e - part.length)

/-- The finite double that a text stands for. -/
def ofFloatText? (text : String) : Option Number := do
  let (negative, cs) := splitSign text.toList
  let (m, e) ← decimal? cs
  let bits ← Double.ofDecimal? m e
  return .float (UInt64.ofNat (if negative then bits + Double.signBit else bits))

/-- The integers of 64 bits. -/
def isWord (i : Int) : Bool := -9223372036854775808 ≤ i && i ≤ 9223372036854775807

/-- The integer that a text stands for, or a double if it does not fit. -/
def ofIntText? (text : String) : Option Number :=
  match integer? text.toList with
  | some i => if isWord i then some (.int i) else ofFloatText? text
  | none => ofFloatText? text

end Number

end QueryDoc
