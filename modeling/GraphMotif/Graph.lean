import GraphMotif.Schema
import GraphMotif.Table.Columns
import GraphMotif.Value.Text

/-!
# Property graphs

A property graph is a table of vertices and a table of edges. In each table the names of the
columns differ; vertices have identities that are not null and differ from each other, and edges
say at which identities they start and end. An edge may start or end where there is no vertex.
-/

namespace GraphMotif

/-- A property graph. -/
structure Graph where
  vertices : Table String
  edges : Table String
  nodup_vertices : vertices.names.Nodup
  nodup_edges : edges.names.Nodup
  id_mem : idColumn ∈ vertices.names
  src_mem : srcColumn ∈ edges.names
  dst_mem : dstColumn ∈ edges.names
  id_not_null : ∀ v ∈ vertices.cells idColumn, v.isNull = false
  nodup_id : ((vertices.cells idColumn).map Value.key).Nodup

/-- What a caller hands in as a table. -/
inductive TableSource where
  | table (t : Table Value)
  | other (given : Datum)

/-- Why two tables are not a graph. -/
inductive GraphError where
  /-- Something other than a table was given. -/
  | notTable (element : Element) (given : Datum)
  /-- The names of columns are not texts. -/
  | namesNotText (element : Element) (names : List Value)
  /-- Names of columns repeat. -/
  | repeatedColumns (element : Element) (names : List String)
  /-- A reserved column is missing. -/
  | missingColumn (element : Element) (column : String)
  /-- Some identity is null. -/
  | nullId
  /-- Identities repeat. -/
  | repeatedIds (ids : List Value)
  /-- Identities repeat, and those that do have no order in which to list them. -/
  | unorderedIds
  deriving DecidableEq

/-- The message of an error. -/
def GraphError.message : GraphError → String
  | notTable element given =>
    "The " ++ element.toText ++ " relation must be a pandas DataFrame, not " ++ given.typeName
  | namesNotText element names =>
    "The " ++ element.toText ++ " relation has non-string columns "
      ++ bracketed (names.map Value.shownInList)
  | repeatedColumns element names =>
    "The " ++ element.toText ++ " relation has duplicate columns " ++ quotedList names
  | missingColumn element column =>
    "The " ++ element.toText ++ " relation has no " ++ quoted column ++ " column"
  | nullId => "Vertex ids must not be null"
  | repeatedIds ids =>
    "Vertex ids must be unique; repeated ids " ++ bracketed (ids.map Value.shownInList)
  | unorderedIds => "Vertex ids must be unique; repeated ids cannot be ordered"

/-- Whether a value is a text. -/
def Value.isText : Value → Bool
  | text _ => true
  | _ => false

/-- Whether a value is an integer or a binary64 number. -/
def Value.isNumber : Value → Bool
  | int _ | float _ => true
  | _ => false

/-- Numbers as one list holds them: integers beside binary64 numbers become such numbers. A list
that holds anything else stays as it is. -/
def Value.alike (vs : List Value) : List Value :=
  if vs.all isNumber && vs.any (fun v => v.toFloat = v) then vs.map toFloat else vs

/-- Values in ascending order, if every two of them have an order. -/
def Value.sorted? (vs : List Value) : Option (List Value) :=
  if vs.all isText || vs.all (·.quantity?.isSome) then
    some (vs.mergeSort fun a b => ((a.compare? b).map (·.isLE)).getD false)
  else none

/-- The names that occur more than once, in ascending order. -/
def repeatedNames (names : List String) : List String :=
  (names.filter fun name => 1 < names.count name).eraseDups.mergeSort
    fun a b => (Value.compareText a b).isLE

namespace Graph

/-- A relation with distinct columns, among them the reserved ones. -/
structure Relation (required : List String) where
  table : Table String
  nodup : table.names.Nodup
  mem : ∀ column ∈ required, column ∈ table.names

/-- The relation that a caller hands in. -/
def relation (element : Element) (required : List String) (source : TableSource) :
    Except GraphError (Relation required) :=
  match source with
  | .other given => .error (.notTable element given)
  | .table t =>
    let bad := (Value.alike t.names).filter fun name => !name.isText
    if !bad.isEmpty then .error (.namesNotText element bad)
    else
      let table := t.textColumns
      if nodup : table.names.Nodup then
        match h : required.find? fun column => !table.names.contains column with
        | some column => .error (.missingColumn element column)
        | none =>
          have mem : ∀ column ∈ required, column ∈ table.names := by
            intro column hcolumn
            simpa using List.find?_eq_none.1 h column hcolumn
          .ok { table, nodup, mem }
      else .error (.repeatedColumns element (repeatedNames table.names))

/-- The graph of two tables. -/
def ofTables (vertices edges : TableSource) : Except GraphError Graph := do
  let v ← relation .vertex [idColumn] vertices
  let e ← relation .edge [srcColumn, dstColumn] edges
  let ids := v.table.cells idColumn
  if hnull : ∀ id ∈ ids, id.isNull = false then
    if hnodup : (ids.map Value.key).Nodup then
      return {
        vertices := v.table
        edges := e.table
        nodup_vertices := v.nodup
        nodup_edges := e.nodup
        id_mem := v.mem _ (by simp)
        src_mem := e.mem _ (by simp)
        dst_mem := e.mem _ (by simp)
        id_not_null := hnull
        nodup_id := hnodup }
    else
      match Value.sorted? (Value.distinct (Value.repeated ids)) with
      | some repeated => throw (.repeatedIds repeated)
      | none => throw .unorderedIds
  else throw .nullId

/-- The columns of a graph. -/
def schema (g : Graph) : Schema where
  vertexColumns := g.vertices.names
  edgeColumns := g.edges.names
  id_mem := g.id_mem
  src_mem := g.src_mem
  dst_mem := g.dst_mem

/-- A graph as a listing shows it: the columns and the size of each table. -/
def shown (g : Graph) : String :=
  "Graph(vertices=" ++ quotedList g.vertices.names ++ " x " ++ toString g.vertices.size
    ++ ", edges=" ++ quotedList g.edges.names ++ " x " ++ toString g.edges.size ++ ")"

/-- The graph with the marked vertices; its edges stay. -/
def keepVertices (g : Graph) (marks : List Bool) : Graph :=
  { g with
    vertices := g.vertices.keep marks
    nodup_vertices := g.nodup_vertices
    id_mem := g.id_mem
    id_not_null := fun v hv =>
      g.id_not_null v ((Table.cells_keep_sublist g.vertices marks idColumn).mem hv)
    nodup_id :=
      g.nodup_id.sublist ((Table.cells_keep_sublist g.vertices marks idColumn).map Value.key) }

/-- The graph with the marked edges; its vertices stay. -/
def keepEdges (g : Graph) (marks : List Bool) : Graph :=
  { g with
    edges := g.edges.keep marks
    nodup_edges := g.nodup_edges
    src_mem := g.src_mem
    dst_mem := g.dst_mem }

end Graph

end GraphMotif
