import GraphMotif.Graph.Cleanup

/-!
# Degrees

The out-degree of a vertex is the number of edges that start at it, its in-degree the number of
edges that end at it. A column of truth values and a column of numbers have no identities in common
here.
-/

namespace GraphMotif

/-- Whether one column holds truth values and the other one numbers. The column of an edge's ends
counts by its different values. -/
def Column.apart (ids ends : Column) : Bool :=
  let values := { ends with cells := (Value.distinct ends.cells).filter (!·.isNull) }
  (ids.isBoolean && ends.kind.isNumeric) || (values.isBoolean && ids.kind.isNumeric)

/-- The different values of a column that are not null, each with how often it occurs. -/
def Column.valueCounts (c : Column) : List (Value × Nat) :=
  ((Value.distinct c.cells).filter (!·.isNull)).map fun v => (v, (c.cells.filter v.same).length)

/-- How often an identity out of a column occurs among the ends of edges. Where several values of
the ends are rounded to one identity, the least frequent of them counts. -/
def Column.countIn (ids ends : Column) (id : Value) : Nat :=
  if ids.apart ends then 0
  else
    let found := ends.valueCounts.filter fun (v, _) =>
      (ids.kind.align ends.kind id).same (ends.kind.align ids.kind v)
    (found.map (·.2)).min?.getD 0

namespace Graph

/-- The degrees of the vertices, in the order of the vertices. -/
def degrees (g : Graph) : Table String :=
  let counts (ends : Column) : Column :=
    { kind := .int, cells := g.idCells.cells.map fun id => .int (g.idCells.countIn ends id) }
  .ofColumns [(idColumn, g.idCells), ("out_degree", counts g.srcCells),
    ("in_degree", counts g.dstCells)]

end Graph

end GraphMotif
