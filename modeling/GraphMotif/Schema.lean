import GraphMotif.Element
import GraphMotif.Text.Quoted

/-!
# Schemas

The columns of the two relations of a graph. A schema has the reserved columns; its other columns
are free and may repeat.
-/

namespace GraphMotif

/-- The columns of the vertex relation and of the edge relation, in order. -/
structure Schema where
  vertexColumns : List String
  edgeColumns : List String
  id_mem : idColumn ∈ vertexColumns
  src_mem : srcColumn ∈ edgeColumns
  dst_mem : dstColumn ∈ edgeColumns

/-- A relation without one of its reserved columns. -/
structure SchemaError where
  element : Element
  column : String
  deriving DecidableEq

/-- The message of a missing reserved column. -/
def SchemaError.message (e : SchemaError) : String :=
  e.element.capitalized ++ " relation has no " ++ quoted e.column ++ " column"

namespace Schema

/-- The schema with the given columns, if no reserved one is missing. -/
def ofColumns (vertexColumns edgeColumns : List String) : Except SchemaError Schema :=
  if id_mem : idColumn ∈ vertexColumns then
    if src_mem : srcColumn ∈ edgeColumns then
      if dst_mem : dstColumn ∈ edgeColumns then
        .ok { vertexColumns, edgeColumns, id_mem, src_mem, dst_mem }
      else .error ⟨.edge, dstColumn⟩
    else .error ⟨.edge, srcColumn⟩
  else .error ⟨.vertex, idColumn⟩

/-- The columns of the relation of a kind. -/
def columns (s : Schema) : Element → List String
  | .vertex => s.vertexColumns
  | .edge => s.edgeColumns

end Schema

end GraphMotif
