import GraphMotif.Number.Binary64

/-!
# Shortest decimal text of a binary64 number

A number is written with the fewest significant digits that read back as that number, and with
those digits that lie nearest to it. The decimal grids `10 ^ k` are tried from coarse to fine: on
each, only the two neighbours of the value can be the nearest hit, so the first grid on which one
of them reads back gives the answer.
-/

namespace GraphMotif.Binary64

/-- The reals that round to a positive number, counted in half quanta: all strictly between `low`
and `high`, and the ends too when `closed`. -/
structure RoundingInterval where
  low : Nat
  high : Nat
  closed : Bool

/-- Half way to either neighbour. The neighbour below a power of two is half as far away. -/
def roundingInterval (units : Nat) : RoundingInterval :=
  let exponent := units.log2 - 52
  let above := 2 ^ exponent
  let below := if units = 2 ^ units.log2 ∧ 0 < exponent then 2 ^ (exponent - 1) else above
  { low := 2 * units - below, high := 2 * units + above, closed := units / above % 2 == 0 }

/-- Whether `num / den` half quanta round to the number of the interval. -/
def RoundingInterval.contains (i : RoundingInterval) (num den : Nat) : Bool :=
  if i.closed then i.low * den ≤ num && num ≤ i.high * den
  else i.low * den < num && num < i.high * den

/-- The nearest multiple of `10 ^ k` that reads back as `units` quanta, if there is one; of two
equally near ones the even multiple. -/
def nearestOnGrid? (units : Nat) (i : RoundingInterval) (k : Int) : Option Nat :=
  let step := 10 ^ k.toNat * 2 ^ (quantumBits + 1)
  let den := 10 ^ (-k).toNat
  let value := 2 * units * den
  let floor := value / step
  match i.contains (floor * step) den, i.contains ((floor + 1) * step) den with
  | false, false => none
  | true, false => some floor
  | false, true => some (floor + 1)
  | true, true =>
    let down := value - floor * step
    let up := (floor + 1) * step - value
    if down < up then some floor
    else if up < down then some (floor + 1)
    else some (floor + floor % 2)

/-- The first hit on the grids `10 ^ k`, `10 ^ (k - 1)`, …, with its exponent. -/
def firstHit (units : Nat) (i : RoundingInterval) : Nat → Int → Nat × Int
  | 0, k => (0, k)
  | fuel + 1, k =>
    match nearestOnGrid? units i k with
    | some digits => (digits, k)
    | none => firstHit units i fuel (k - 1)

/-- The shortest digits of a positive number of quanta and the power of ten they count. The search
starts at a power of ten above the value. -/
def shortest (units : Nat) : Nat × Int :=
  let bits : Int := (units.log2 : Int) + 1 - quantumBits
  let start := if 0 ≤ bits then bits / 3 + 1 else bits * 3 / 10 + 1
  firstHit units (roundingInterval units) 700 start

/-- The digits of a positive number and its decimal exponent: the number lies in the decade that
starts at `10 ^ exponent`. -/
def significand (units : Nat) : List Char × Int :=
  let (digits, k) := shortest units
  let text := Nat.toDigits 10 digits
  (text, k + text.length - 1)

/-- Positional notation, always with a digit on both sides of the point. -/
def positional (digits : List Char) (exponent : Int) : List Char :=
  if exponent < 0 then
    '0' :: '.' :: (List.replicate (-exponent - 1).toNat '0' ++ digits)
  else
    let width := exponent.toNat + 1
    if digits.length ≤ width then
      digits ++ List.replicate (width - digits.length) '0' ++ ['.', '0']
    else digits.take width ++ '.' :: digits.drop width

/-- Scientific notation: a point only between digits, a signed exponent of at least two digits. -/
def scientific (digits : List Char) (exponent : Int) : List Char :=
  let mantissa := match digits with
    | [] => []
    | [d] => [d]
    | d :: ds => d :: '.' :: ds
  let power := Nat.toDigits 10 exponent.natAbs
  mantissa ++ 'e' :: (if exponent < 0 then '-' else '+') ::
    (if power.length < 2 then '0' :: power else power)

/-- The magnitude of a finite number: positional from `10 ^ -4` to below `10 ^ 16`. -/
def magnitudeText (units : Nat) : List Char :=
  if units = 0 then ['0', '.', '0']
  else
    let (digits, exponent) := significand units
    if -4 ≤ exponent ∧ exponent < 16 then positional digits exponent
    else scientific digits exponent

/-- The text of a number. -/
def toText : Binary64 → String
  | .nan => "nan"
  | .infinity negative => if negative then "-inf" else "inf"
  | .finite negative units _ =>
    String.ofList (if negative then '-' :: magnitudeText units else magnitudeText units)

end GraphMotif.Binary64
