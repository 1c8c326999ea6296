import GraphMotif.Graph
import GraphMotif.Pattern.Parse
import GraphMotif.Plan.Compile
import GraphMotif.Plan.Evaluate

/-!
# Finding motifs

The occurrences of a pattern in a graph are the rows of its plan, evaluated over the tables of the
graph.
-/

namespace GraphMotif

/-- Why a pattern could not be searched for. -/
inductive FindError where
  | parse (e : ParseError)
  | compile (e : CompileError)
  | eval (e : EvalError)
  deriving DecidableEq

namespace Graph

/-- The tables of a graph. -/
def relations (g : Graph) : Relations := { vertices := g.vertices, edges := g.edges }

/-- The plan of a pattern over the columns of a graph. -/
def compile (g : Graph) (p : Pattern) : Except CompileError MatchPlan := g.schema.compilePattern p

/-- The occurrences of a pattern: one row for each, with the columns of every visible element. -/
def find (g : Graph) (p : Pattern) : Except FindError (Table Label) := do
  let plan ← (g.compile p).mapError .compile
  (plan.root.eval g.relations).mapError .eval

/-- The occurrences of the pattern that a text writes. -/
def findText (g : Graph) (text : String) : Except FindError (Table Label) := do
  g.find (← (Pattern.parse text).mapError .parse)

end Graph

end GraphMotif
