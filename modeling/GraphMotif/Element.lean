/-!
# Vertices and edges

A property graph is a relation of vertices and a relation of edges. Vertices carry an identity in
a reserved column, edges the identities of their two ends in two more.
-/

namespace GraphMotif

/-- The two kinds of elements of a graph. -/
inductive Element where
  | vertex
  | edge
  deriving DecidableEq

namespace Element

/-- The name of a kind. -/
def toText : Element → String
  | vertex => "vertex"
  | edge => "edge"

/-- The name of a kind after an article. -/
def withArticle : Element → String
  | vertex => "a vertex"
  | edge => "an edge"

/-- The name of a kind at the start of a sentence. -/
def capitalized : Element → String
  | vertex => "Vertex"
  | edge => "Edge"

/-- The name of the relation of all elements of a kind. -/
def relation : Element → String
  | vertex => "vertices"
  | edge => "edges"

/-- The letter that the columns of an element's kind start with. -/
def letter : Element → String
  | vertex => "v"
  | edge => "e"

end Element

/-- The column of a vertex's identity. -/
def idColumn : String := "id"

/-- The column of the identity of the vertex where an edge starts. -/
def srcColumn : String := "src"

/-- The column of the identity of the vertex where an edge ends. -/
def dstColumn : String := "dst"

end GraphMotif
