import GraphMotif.Value
import GraphMotif.Number.Shortest
import GraphMotif.Text.Quoted

/-!
# Values in messages

The names of the kinds of values and the two ways a value is shown: by itself, and as an item of a
list, where a text is quoted.
-/

namespace GraphMotif

namespace Value

/-- The name of a value's kind. -/
def typeName : Value → String
  | null => "NoneType"
  | bool _ => "bool"
  | int _ => "int"
  | float _ => "float"
  | text _ => "str"

/-- A value by itself. -/
def shown : Value → String
  | null => "None"
  | bool b => if b then "True" else "False"
  | int n => toString n
  | float x => x.toText
  | text s => s

/-- A value as an item of a list. -/
def shownInList : Value → String
  | text s => quoted s
  | v => v.shown

end Value

/-- What a caller may hand in where a table, a pattern or a predicate is expected. -/
inductive Datum where
  | scalar (v : Value)
  | list
  | record
  deriving DecidableEq

/-- The name of a datum's kind. -/
def Datum.typeName : Datum → String
  | scalar v => v.typeName
  | list => "list"
  | record => "dict"

end GraphMotif
