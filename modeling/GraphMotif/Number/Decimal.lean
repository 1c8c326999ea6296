import GraphMotif.Number.Binary64

/-!
# Decimal text

Reading `[+-] digits [. digits] [e [+-] digits]` as an exact decimal, and a decimal as the nearest
binary64 number. At least one digit stands before or after the point.
-/

namespace GraphMotif

/-- The value `± digits * 10 ^ exponent`. -/
structure Decimal where
  negative : Bool
  digits : Nat
  exponent : Int
  deriving DecidableEq, Repr

/-- An ASCII decimal digit. -/
def isDigit (c : Char) : Bool := '0' ≤ c && c ≤ '9'

/-- The number that a string of decimal digits writes. -/
def digitsValue (cs : List Char) : Nat :=
  cs.foldl (fun n c => 10 * n + (c.toNat - '0'.toNat)) 0

/-- An optional sign; `true` for a minus. -/
def readSign : List Char → Bool × List Char
  | '-' :: cs => (true, cs)
  | '+' :: cs => (false, cs)
  | cs => (false, cs)

/-- An integer written with an optional sign and at least one digit. -/
def readInteger? (cs : List Char) : Option Int :=
  let (negative, digits) := readSign cs
  if digits.isEmpty || !digits.all isDigit then none
  else some (if negative then -(digitsValue digits : Int) else digitsValue digits)

namespace Decimal

/-- The exponent part of a decimal, zero where there is none. -/
def readExponent? : List Char → Option Int
  | [] => some 0
  | c :: cs => if c == 'e' || c == 'E' then readInteger? cs else none

/-- Reads the whole text as a decimal. -/
def read? (cs : List Char) : Option Decimal := do
  let (negative, cs) := readSign cs
  let whole := cs.takeWhile isDigit
  let rest := cs.dropWhile isDigit
  let (fraction, rest) := match rest with
    | '.' :: rest => (rest.takeWhile isDigit, rest.dropWhile isDigit)
    | rest => ([], rest)
  if whole.isEmpty && fraction.isEmpty then none
  let exponent ← readExponent? rest
  return { negative, digits := digitsValue (whole ++ fraction), exponent := exponent - fraction.length }

/-- The nearest binary64 number. A decimal of at least `10 ^ 309` overflows and one below
`10 ^ -330` vanishes, so no power of ten beyond these is ever formed. -/
def toBinary64 (d : Decimal) : Binary64 :=
  if d.digits = 0 then .ofRatio d.negative 0 1
  else if 309 < d.exponent then .infinity d.negative
  else if d.exponent + (d.digits.log2 / 3 + 1 : Nat) < -330 then .ofRatio d.negative 0 1
  else
    .ofRatio d.negative (d.digits * 10 ^ d.exponent.toNat * 2 ^ quantumBits)
      (10 ^ (-d.exponent).toNat)

end Decimal

/-- Reads a decimal, `inf`, `-inf` or `nan`. -/
def Binary64.read? (cs : List Char) : Option Binary64 :=
  if cs = ['n', 'a', 'n'] then some .nan
  else if cs = ['i', 'n', 'f'] then some (.infinity false)
  else if cs = ['-', 'i', 'n', 'f'] then some (.infinity true)
  else (Decimal.read? cs).map Decimal.toBinary64

end GraphMotif
