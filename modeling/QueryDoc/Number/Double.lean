/-!
# Decimals as doubles

A decimal is a natural number times a power of ten. Its double is the nearest
of the numbers with 53 significant bits and an exponent in range, the one with
an even last bit if two are equally near. The computation is exact: the decimal
is a quotient of natural numbers, and only one division rounds.

The bits of a nonnegative double, read as a number, count the doubles below it.
Rounding up into the next power of two therefore needs no special case.
-/
namespace QueryDoc.Double

/-- The bits of infinity, which no finite number reaches. -/
def infinity : Nat := 0x7FF0000000000000

/-- The bit that marks a negative number. -/
def signBit : Nat := 0x8000000000000000

/-- The quotient rounded to the nearest natural number, a half to the even one. -/
def divNearest (n d : Nat) : Nat :=
  let q := n / d
  let r := n % d
  if 2 * r > d ∨ (2 * r = d ∧ q % 2 = 1) then q + 1 else q

/-- A quotient divided by a power of two, as a quotient. -/
def scale (n d : Nat) (k : Int) : Nat × Nat :=
  if k ≥ 0 then (n, d * Nat.pow 2 k.toNat) else (n * Nat.pow 2 (-k).toNat, d)

/-- The greatest power of two that a positive quotient reaches. -/
def exponentOf (n d : Nat) : Int :=
  let e : Int := (n.log2 : Int) - (d.log2 : Int)
  let s := scale n d e
  if s.1 ≥ s.2 then e else e - 1

/-- The bits of the double nearest to a quotient, or infinity and more if it is
out of range. -/
def ofQuotient (n d : Nat) : Nat :=
  if n = 0 then 0
  else
    let k := max (exponentOf n d - 52) (-1074)
    let s := scale n d k
    (k + 1074).toNat * 0x10000000000000 + divNearest s.1 s.2

/-- The bits of the double nearest to `m * 10 ^ e`, if that is finite. The
bounds on the size spare computing powers that cannot matter. -/
def ofDecimal? (m : Nat) (e : Int) : Option Nat :=
  let size := ((Nat.toDigits 10 m).length : Int) + e
  if m = 0 then some 0
  else if size > 400 then none
  else if size < -400 then some 0
  else
    let bits := if e ≥ 0 then ofQuotient (m * Nat.pow 10 e.toNat) 1
      else ofQuotient m (Nat.pow 10 (-e).toNat)
    if bits < infinity then some bits else none

end QueryDoc.Double
