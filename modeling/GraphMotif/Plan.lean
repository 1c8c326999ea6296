import GraphMotif.Element

/-!
# Plans

A plan is a tree of relational operators over the vertex relation and the edge relation of a
graph. A scan puts its tag before the name of every column, so that a relation can be scanned
several times. Every operator knows the columns that it produces and describes itself in one line.
-/

namespace GraphMotif

/-- What stands between the tag of a scan and the name of a column. -/
def columnSeparator : String := "::"

/-- The name in a plan of a column scanned under a tag. -/
def qualified (tag column : String) : String := tag ++ columnSeparator ++ column

/-- The demand that two columns agree. A null agrees with nothing, unless the equality is null-safe:
then nulls agree with each other. -/
structure Equality where
  left : String
  right : String
  nullSafe : Bool := false
  deriving DecidableEq

/-- The text of an equality. -/
def Equality.toText (e : Equality) : String :=
  e.left ++ (if e.nullSafe then " <=> " else " = ") ++ e.right

/-- One element of the result: a bundle of plan columns, each under the name of an attribute. -/
structure Output where
  name : String
  attributes : List String
  columns : List String
  deriving DecidableEq

/-- A relational operator with its inputs. -/
inductive Plan where
  /-- The relation without rows. -/
  | empty (columns : List String)
  /-- The rows of the relation of a kind of elements. -/
  | scan (element : Element) (tag : String) (columns : List String)
  /-- All pairs of a left and a right row that agree. -/
  | join (left right : Plan) (equalities : List Equality)
  /-- The left rows that agree with no right row. -/
  | antiJoin (left right : Plan) (equalities : List Equality)
  /-- The rows whose columns agree. -/
  | filter (child : Plan) (equalities : List Equality)
  /-- The rows cut down to the elements of the result. -/
  | project (child : Plan) (outputs : List Output)
  deriving DecidableEq

namespace Plan

/-- The columns that an operator produces, in order. -/
def columns : Plan → List String
  | empty columns => columns
  | scan _ tag columns => columns.map (qualified tag)
  | join left right _ => left.columns ++ right.columns
  | antiJoin left _ _ => left.columns
  | filter child _ => child.columns
  | project _ outputs => outputs.map (·.name)

/-- An operator and all below it, each before its inputs. -/
def walk : Plan → List Plan
  | empty columns => [empty columns]
  | scan element tag columns => [scan element tag columns]
  | join left right equalities => join left right equalities :: (left.walk ++ right.walk)
  | antiJoin left right equalities => antiJoin left right equalities :: (left.walk ++ right.walk)
  | filter child equalities => filter child equalities :: child.walk
  | project child outputs => project child outputs :: child.walk

/-- Equalities joined by a separator. -/
def equalitiesText (separator : String) (equalities : List Equality) : String :=
  String.intercalate separator (equalities.map Equality.toText)

/-- One line about an operator. -/
def describe : Plan → String
  | empty _ => "EmptyRelation"
  | scan element tag _ => "Scan " ++ element.relation ++ " as " ++ tag
  | join _ _ equalities =>
    if equalities.isEmpty then "CrossJoin" else "Join on " ++ equalitiesText ", " equalities
  | antiJoin _ _ equalities =>
    if equalities.isEmpty then "AntiJoin (any row)"
    else "AntiJoin on " ++ equalitiesText ", " equalities
  | filter _ equalities => "Filter " ++ equalitiesText " and " equalities
  | project _ outputs =>
    if outputs.isEmpty then "Project (no columns)"
    else "Project " ++ String.intercalate ", " (outputs.map (·.name))

end Plan

/-- A plan for a pattern: what is computed, which elements of it make up the result, and the text
of the pattern. -/
structure MatchPlan where
  child : Plan
  outputs : List Output
  pattern : String
  deriving DecidableEq

namespace MatchPlan

/-- The plan as an operator. -/
def root (p : MatchPlan) : Plan := .project p.child p.outputs

/-- The names of the result. -/
def outputNames (p : MatchPlan) : List String := p.root.columns

end MatchPlan

end GraphMotif
