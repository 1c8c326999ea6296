import GraphMotif.Text.Identifier
import GraphMotif.Value.Text

/-!
# Predicates

A predicate is a tree over columns and constants, built from comparisons, null tests and the three
connectives. Its text can be read back by the eye: only conjunctions and disjunctions are put
between parentheses.
-/

namespace GraphMotif

/-- A comparison of two operands. -/
inductive Comparison where
  | eq
  | ne
  | lt
  | le
  | gt
  | ge
  deriving DecidableEq

namespace Comparison

/-- The sign of a comparison. -/
def sign : Comparison → String
  | eq => "="
  | ne => "!="
  | lt => "<"
  | le => "<="
  | gt => ">"
  | ge => ">="

/-- The comparison that holds of the operands in the other order. -/
def mirror : Comparison → Comparison
  | eq => eq
  | ne => ne
  | lt => gt
  | le => ge
  | gt => lt
  | ge => le

/-- Whether a comparison holds of two values that are not null; nothing where it asks for an order
that they do not have. -/
def holds? (op : Comparison) (a b : Value) : Option Bool :=
  match op with
  | eq => some (a.same b)
  | ne => some (!a.same b)
  | lt => (a.compare? b).map (·.isLT)
  | le => (a.compare? b).map (·.isLE)
  | gt => (a.compare? b).map (·.isGT)
  | ge => (a.compare? b).map (·.isGE)

end Comparison

/-- A predicate, or an operand of one. -/
inductive Predicate where
  | column (name : String)
  | constant (v : Value)
  | compare (op : Comparison) (left right : Predicate)
  | conj (left right : Predicate)
  | disj (left right : Predicate)
  | neg (operand : Predicate)
  | isNull (operand : Predicate) (negated : Bool)
  deriving DecidableEq

namespace Predicate

/-- The text of a column: a name that is no identifier stands between back quotes. -/
def columnText (name : String) : String :=
  if isIdentifier name.toList then name else "\x60" ++ name ++ "\x60"

/-- The characters of a string constant between its quotes. -/
def escapeString (cs : List Char) : List Char :=
  cs.flatMap fun c => if c = '\\' ∨ c = '\x27' then ['\\', c] else [c]

/-- The text of a constant. -/
def constantText : Value → String
  | .null => "NULL"
  | .bool b => if b then "TRUE" else "FALSE"
  | .text s => String.ofList ('\x27' :: escapeString s.toList ++ ['\x27'])
  | v => v.shown

/-- The text of a predicate. -/
def toText : Predicate → String
  | column name => columnText name
  | constant v => constantText v
  | compare op left right => left.toText ++ " " ++ op.sign ++ " " ++ right.toText
  | conj left right => "(" ++ left.toText ++ " AND " ++ right.toText ++ ")"
  | disj left right => "(" ++ left.toText ++ " OR " ++ right.toText ++ ")"
  | neg operand => "NOT " ++ operand.toText
  | isNull operand negated => operand.toText ++ (if negated then " IS NOT NULL" else " IS NULL")

/-- The names of the columns of a predicate, from left to right, as often as they occur. -/
def columns : Predicate → List String
  | column name => [name]
  | constant _ => []
  | compare _ left right | conj left right | disj left right => left.columns ++ right.columns
  | neg operand | isNull operand _ => operand.columns

/-- Whether two constants are equal: nulls are, and other constants are when they are the same
value, whatever their kinds. A constant that is not a number equals nothing. -/
def equalConstants : Value → Value → Bool
  | .null, .null => true
  | a, b => a.same b

/-- Whether two predicates are equal as trees. -/
def equal : Predicate → Predicate → Bool
  | column a, column b => a == b
  | constant a, constant b => equalConstants a b
  | compare op a b, compare op' a' b' => op == op' && a.equal a' && b.equal b'
  | conj a b, conj a' b' | disj a b, disj a' b' => a.equal a' && b.equal b'
  | neg a, neg a' => a.equal a'
  | isNull a n, isNull a' n' => n == n' && a.equal a'
  | _, _ => false

end Predicate

/-- Why something is no predicate, or a predicate cannot be evaluated. -/
inductive PredicateError where
  /-- Something other than a text, a condition or a predicate was given. -/
  | notPredicate (given : Datum)
  /-- The text is blank. -/
  | blank (text : String)
  /-- The text is not a predicate. -/
  | malformed (text : String)
  /-- There is no column of that name. -/
  | unknownColumn (name : String) (available : List String)
  /-- On some row, two operands have no order. -/
  | incomparable (predicate : Predicate) (op : Comparison) (left right : Value)
  /-- An operand that should be a truth value is none. -/
  | notBoolean (predicate : Predicate)
  deriving DecidableEq

namespace PredicateError

/-- The message of an error. -/
def message : PredicateError → String
  | notPredicate given =>
    "Predicate must be a string, Column or Expression, not " ++ given.typeName
  | blank _ => "Predicate is empty"
  | malformed text => "Malformed predicate " ++ quoted text
  | unknownColumn name available =>
    "Unknown column " ++ quoted name ++ "; available columns are " ++ quotedList available
  | incomparable predicate op left right =>
    "Cannot compare operands of " ++ predicate.toText ++ ": '" ++ op.sign
      ++ "' not supported between instances of '" ++ left.typeName ++ "' and '"
      ++ right.typeName ++ "'"
  | notBoolean predicate =>
    "Expression " ++ predicate.toText ++ " does not evaluate to a boolean"

/-- The text of what failed; none where what was given is no text. -/
def subject? : PredicateError → Option String
  | notPredicate _ => none
  | blank text => some text
  | malformed text => some text
  | unknownColumn name _ => some (Predicate.columnText name)
  | incomparable predicate .. => some predicate.toText
  | notBoolean predicate => some predicate.toText

end PredicateError

end GraphMotif
