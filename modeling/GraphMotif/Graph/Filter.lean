import GraphMotif.Graph
import GraphMotif.Predicate.Evaluate

/-!
# Filtering graphs

A predicate over the columns of a table keeps the rows on which it is true. Filtering the vertices
leaves all edges in place, also those at vertices that are gone.
-/

namespace GraphMotif.Graph

/-- The graph with the vertices on which a predicate is true. -/
def filterVertices (g : Graph) (p : Predicate) : Except PredicateError Graph :=
  (p.mask g.vertices).map g.keepVertices

/-- The graph with the edges on which a predicate is true. -/
def filterEdges (g : Graph) (p : Predicate) : Except PredicateError Graph :=
  (p.mask g.edges).map g.keepEdges

end GraphMotif.Graph
