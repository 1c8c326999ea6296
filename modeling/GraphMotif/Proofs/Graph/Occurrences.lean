import GraphMotif.Graph.Find
import GraphMotif.Proofs.Plan.NestedLoops
import Mathlib.Logic.Function.Basic

/-!
# Occurrences of a pattern

What a pattern means in a graph, told without plans. A pattern asks for elements: one for every name
of a positive clause, and one for every vertex clause and every positive edge clause that leaves its
name out; ends of edges without a name are not asked for. An occurrence gives each of them a row
such that all clauses are satisfied, and shows the rows of the names in the order in which these
appear.
-/

namespace GraphMotif

/-- An element that a pattern asks for: that of a name, or the nameless one of a clause. -/
inductive Site where
  | named (kind : Element) (name : String)
  | nameless (kind : Element) (clause : Nat)
  deriving DecidableEq

/-- The kind of the element. -/
def Site.kind : Site → Element
  | named kind _ => kind
  | nameless kind _ => kind

/-- The element that a slot of a clause stands for. -/
def Slot.site (slot : Slot) (kind : Element) (clause : Nat) : Site :=
  match slot with
  | some name => .named kind name
  | none => .nameless kind clause

/-- The elements that a clause with a number asks for. -/
def Clause.sites (index : Nat) : Clause → List Site
  | .vertex name => [name.site .vertex index]
  | .edge e =>
    if e.negated then []
    else e.src.toList.map (.named .vertex) ++ e.edge.site .edge index ::
      e.dst.toList.map (.named .vertex)

/-- The elements that a pattern asks for, in the order in which they first appear. -/
def Pattern.sites (p : Pattern) : List Site :=
  (p.clauses.zipIdx.flatMap fun (c, index) => c.sites index).eraseDups

/-- A row for every element. -/
abbrev Assignment := Site → Row

/-- What an occurrence shows of an element: the row of a name. -/
def Site.shownRow (a : Assignment) : Site → Row
  | named kind name => a (named kind name)
  | nameless .. => []

/-- The ends that an edge clause names, each with the column that identifies it. -/
def EdgeClause.namedEnds (e : EdgeClause) : List (String × String) :=
  [(e.src, srcColumn), (e.dst, dstColumn)].filterMap fun (slot, side) => slot.map (·, side)

/-- The ends that a clause names. -/
def Clause.namedEnds : Clause → List (String × String)
  | vertex _ => []
  | edge e => e.namedEnds

/-- The ends that the clauses of a pattern name. -/
def Pattern.namedEnds (p : Pattern) : List (String × String) := p.clauses.flatMap Clause.namedEnds

namespace Graph

variable (g : Graph)

/-- All ways to give elements rows of their relations. -/
def assignments (sites : List Site) : List Assignment :=
  sites.foldl (fun found s => found.flatMap fun a =>
    (g.relations.table s.kind).rows.map fun row => Function.update a s row) [fun _ => []]

/-- Whether a vertex is at the end of an edge that a column identifies. -/
def atEnd (side : String) (vertex edge : Row) : Bool :=
  (g.vertices.kindAt idColumn).equal (g.edges.kindAt side)
    (g.vertices.cellAt vertex idColumn) (g.edges.cellAt edge side)

/-- Whether an edge has the ends that a clause names. -/
def hasEnds (a : Assignment) (e : EdgeClause) (edge : Row) : Bool :=
  e.namedEnds.all fun (name, side) => g.atEnd side (a (.named .vertex name)) edge

/-- Whether two edges have the same cells, a null being the same as a null. -/
def sameEdge (edge edge' : Row) : Bool :=
  g.edges.names.all fun column =>
    let x := g.edges.cellAt edge column
    let y := g.edges.cellAt edge' column
    x.same y || (x.isNull && y.isNull)

/-- Whether an assignment satisfies the clause with a number: the edge of a positive clause has the
ends that are named, and no edge has what a negated clause names. -/
def satisfies (a : Assignment) (index : Nat) : Clause → Bool
  | .vertex _ => true
  | .edge e =>
    if e.negated then
      !g.edges.rows.any fun edge =>
        g.hasEnds a e edge && e.edge.all fun name => g.sameEdge (a (.named .edge name)) edge
    else g.hasEnds a e (a (e.edge.site .edge index))

/-- Whether an assignment satisfies all clauses of a list. -/
def satisfiesAll (clauses : List Clause) (a : Assignment) : Bool :=
  clauses.zipIdx.all fun (c, index) => g.satisfies a index c

/-- The columns that an element has in the result. -/
def shownLabels : Site → List Label
  | .named kind name => (g.schema.columns kind).map (.bundled name)
  | .nameless .. => []

/-- The labels of the result. -/
def resultLabels (p : Pattern) : List Label := p.sites.flatMap g.shownLabels

/-- The rows of all occurrences. The pattern without clauses has none. -/
def occurrences (p : Pattern) : List Row :=
  if p.isEmpty then []
  else ((g.assignments p.sites).filter (g.satisfiesAll p.clauses)).map fun a =>
    p.sites.flatMap (Site.shownRow a)

/-- Whether matching identities with an end of edges makes either of them a mixed column. -/
def Retypes (side : String) : Prop :=
  g.vertices.kindAt idColumn ≠ g.edges.kindAt side ∧
    ¬((g.vertices.kindAt idColumn).isNumeric = true ∧ (g.edges.kindAt side).isNumeric = true)

/-- How the identity of a name meets the ends that a pattern names with it does not depend on what
it met before: either no such match makes columns mixed, or it makes no difference that an integer
is rounded where it meets a binary64 column. -/
def SteadyKeys (p : Pattern) : Prop :=
  ∀ name, (∀ side, (name, side) ∈ p.namedEnds → ¬g.Retypes side) ∨
    ∀ side, (name, side) ∈ p.namedEnds → ∀ vertex ∈ g.vertices.rows, ∀ edge ∈ g.edges.rows,
      g.atEnd side vertex edge =
        (g.vertices.cellAt vertex idColumn).same (g.edges.cellAt edge side)

end Graph

end GraphMotif
