import GraphMotif.Plan
import GraphMotif.Table
import GraphMotif.Text.Quoted

/-!
# Relations and results

The input of a plan is a table for each kind of element. Within a plan, columns have plain names;
a projection gives every column the name of an element and that of an attribute.
-/

namespace GraphMotif

/-- The name of a column of a computed table. -/
inductive Label where
  | plain (name : String)
  | bundled (element attributeName : String)
  deriving DecidableEq

/-- The two tables that plans are evaluated over. -/
structure Relations where
  vertices : Table String
  edges : Table String

/-- The table of a kind of elements. -/
def Relations.table (r : Relations) : Element → Table String
  | .vertex => r.vertices
  | .edge => r.edges

/-- Why a plan cannot be evaluated. -/
inductive EvalError where
  /-- A relation lacks columns that a scan asks for. -/
  | missingColumns (element : Element) (columns : List String)
  /-- An operator refers to a column that its input does not have. -/
  | unknownColumn (name : String)
  /-- Two columns are matched of which one holds numbers and the other texts. -/
  | incomparableKeys (left right : String)
  deriving DecidableEq

/-- The message of an error. -/
def EvalError.message : EvalError → String
  | missingColumns element columns =>
    "Relation " ++ element.relation ++ " has no columns " ++ quotedList columns
  | unknownColumn name => name
  | incomparableKeys left right => "Columns " ++ left ++ " and " ++ right ++ " cannot be matched"

end GraphMotif
