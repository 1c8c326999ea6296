import GraphMotif.Number.Binary64

/-!
# Values

A value is a table cell or a constant of a predicate. Numbers and truth values compare by the
number they stand for, true being one and false being zero; texts compare by code point; a number
and a text are different and have no order. The null and the binary64 number that is not a number
are both null, and a null is the same as nothing.
-/

namespace GraphMotif

/-- A table cell, or a constant of a predicate. -/
inductive Value where
  | null
  | bool (b : Bool)
  | int (n : Int)
  | float (x : Binary64)
  | text (s : String)
  deriving DecidableEq

/-- What a number or a truth value compares by: a whole number of quanta, or an infinity. -/
inductive Quantity where
  | below
  | finite (quanta : Int)
  | above
  deriving DecidableEq

/-- The order of quantities. -/
def Quantity.compare : Quantity → Quantity → Ordering
  | .below, .below => .eq
  | .below, _ => .lt
  | .above, .above => .eq
  | .above, _ => .gt
  | .finite _, .below => .gt
  | .finite _, .above => .lt
  | .finite m, .finite n => if m < n then .lt else if m = n then .eq else .gt

/-- The exact quantity of a binary64 number. -/
def Binary64.quantity? : Binary64 → Option Quantity
  | .nan => none
  | .infinity negative => some (if negative then .below else .above)
  | .finite negative units _ => some (.finite (if negative then -(units : Int) else units))

namespace Value

/-- The quantity of a number or truth value; none for nulls and texts. -/
def quantity? : Value → Option Quantity
  | null => none
  | bool b => some (.finite (if b then 2 ^ quantumBits else 0))
  | int n => some (.finite (n * 2 ^ quantumBits))
  | float x => x.quantity?
  | text _ => none

/-- Whether a value stands for nothing. -/
def isNull : Value → Bool
  | null => true
  | float .nan => true
  | _ => false

/-- Whether a value is a truth value. -/
def isBool : Value → Bool
  | bool _ => true
  | _ => false

/-- The normal form by which values are matched: one for all nulls, one for all values of one
quantity, one for each text. -/
inductive Key where
  | null
  | number (q : Quantity)
  | text (s : String)
  deriving DecidableEq

/-- The normal form of a value. -/
def key : Value → Key
  | text s => .text s
  | v => match v.quantity? with
    | some q => .number q
    | none => .null

/-- Whether two values are the same and not null. -/
def same (a b : Value) : Bool := !a.isNull && a.key == b.key

/-- Whether a value is among others. -/
def isIn (a : Value) (vs : List Value) : Bool := vs.any a.same

/-- The order of two texts, by code point. -/
def compareText (s t : String) : Ordering :=
  if s < t then .lt else if s = t then .eq else .gt

/-- The order of two values: that of their quantities or of their texts; none where one of them is
null or where a number meets a text. -/
def compare? (a b : Value) : Option Ordering :=
  match a, b with
  | text s, text t => some (compareText s t)
  | _, _ => match a.quantity?, b.quantity? with
    | some p, some q => some (p.compare q)
    | _, _ => none

/-- An integer as the nearest binary64 number; any other value as it is. -/
def toFloat : Value → Value
  | int n => float (.ofInt n)
  | v => v

/-- The values of a list that are the same as an earlier one or as one in `seen`. -/
def repeatedAfter (seen : List Value) : List Value → List Value
  | [] => []
  | v :: vs => if v.isIn seen then v :: repeatedAfter seen vs else repeatedAfter (v :: seen) vs

/-- The values of a list that are the same as an earlier one. -/
def repeated (vs : List Value) : List Value := repeatedAfter [] vs

/-- The values of a list that are the same neither as an earlier one nor as one in `seen`. -/
def distinctAfter (seen : List Value) : List Value → List Value
  | [] => []
  | v :: vs => if v.isIn seen then distinctAfter seen vs else v :: distinctAfter (v :: seen) vs

/-- The values of a list that are the same as no earlier one. -/
def distinct (vs : List Value) : List Value := distinctAfter [] vs

end Value

end GraphMotif
