import GraphMotif.Graph

/-!
# Cleaning up graphs

A vertex is isolated if no edge starts or ends at it, and an edge dangles if it starts or ends where
there is no vertex.
-/

namespace GraphMotif.Graph

/-- The identities of the vertices. -/
def idCells (g : Graph) : Column := g.vertices.named idColumn

/-- The identities where the edges start. -/
def srcCells (g : Graph) : Column := g.edges.named srcColumn

/-- The identities where the edges end. -/
def dstCells (g : Graph) : Column := g.edges.named dstColumn

/-- The graph without its isolated vertices. -/
def dropIsolatedVertices (g : Graph) : Graph :=
  g.keepVertices (g.idCells.occursIn (g.srcCells.append g.dstCells))

/-- The graph without its dangling edges. -/
def dropDanglingEdges (g : Graph) : Graph :=
  g.keepEdges
    (List.zipWith (· && ·) (g.srcCells.occursIn g.idCells) (g.dstCells.occursIn g.idCells))

end GraphMotif.Graph
