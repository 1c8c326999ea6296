import GraphMotif.Plan.Check
import GraphMotif.Schema

/-!
# Plans for patterns

The clauses of a resolved pattern are folded, in order, into a frontier: the plan so far and the
columns of the bindings that it carries. The first clause scans a relation. Every later positive
clause is joined on the bindings that it shares with the frontier, or crossed with it where it
shares none; an edge that recurs only filters. Named ends of an edge are joined to the vertex
relation when they first appear, ends without a name are never looked up. A negated clause is an
anti-join. A projection keeps the visible bindings.
-/

namespace GraphMotif

/-- A plan and the columns of the bindings that it carries. -/
structure Frontier where
  plan : Plan
  bound : List String
  deriving DecidableEq

namespace Frontier

/-- Whether the frontier carries a binding. -/
def binds (f : Frontier) (b : Binding) : Bool := f.bound.contains b.column

/-- The same bindings over another plan. -/
def withPlan (f : Frontier) (plan : Plan) : Frontier := { f with plan }

/-- One more binding over another plan. -/
def extend (f : Frontier) (plan : Plan) (b : Binding) : Frontier :=
  { plan, bound := f.bound ++ [b.column] }

end Frontier

/-- The plan column with the identity of a vertex. -/
def Binding.idColumn (b : Binding) : String := qualified b.column GraphMotif.idColumn

namespace Schema

/-- The scan of the relation of a kind under a tag. -/
def scan (s : Schema) (element : Element) (tag : String) : Plan :=
  .scan element tag (s.columns element)

/-- Adds a vertex clause. A vertex that is bound already adds nothing, and any other one has nothing
in common with the frontier. -/
def addVertex (s : Schema) (f? : Option Frontier) (vertex : Binding) : Frontier :=
  let scan := s.scan .vertex vertex.column
  match f? with
  | none => { plan := scan, bound := [vertex.column] }
  | some f => if f.binds vertex then f else f.extend (.join f.plan scan []) vertex

/-- The identities of the bound ends of an edge, each with the column of the edge that it must
agree with. -/
def endEqualities (f : Frontier) (tag : String) (src dst : Binding) : List Equality :=
  [(src, srcColumn), (dst, dstColumn)].filterMap fun (vertex, side) =>
    if f.binds vertex then some { left := vertex.idColumn, right := qualified tag side } else none

/-- Adds the edge of a positive edge clause. -/
def addEdge (s : Schema) (f? : Option Frontier) (src edge dst : Binding) : Frontier :=
  let scan := s.scan .edge edge.column
  match f? with
  | none => { plan := scan, bound := [edge.column] }
  | some f =>
    let equalities := endEqualities f edge.column src dst
    if f.binds edge then
      if equalities.isEmpty then f else f.withPlan (.filter f.plan equalities)
    else f.extend (.join f.plan scan equalities) edge

/-- The named ends of an edge that are not bound yet, each with the columns of the edge that hold
its identity: both columns for a loop. -/
def pendingEnds (f : Frontier) (src dst : Binding) : List (Binding × List String) :=
  let pending (vertex : Binding) : Bool := vertex.name.isSome && !f.binds vertex
  match pending src, pending dst with
  | true, true =>
    if src.column = dst.column then [(src, [srcColumn, dstColumn])]
    else [(src, [srcColumn]), (dst, [dstColumn])]
  | true, false => [(src, [srcColumn])]
  | false, true => [(dst, [dstColumn])]
  | false, false => []

/-- Looks up an end of an edge in the vertex relation. -/
def attachEnd (s : Schema) (edge : Binding) (f : Frontier) (pending : Binding × List String) :
    Frontier :=
  let (vertex, sides) := pending
  let equalities := sides.map fun side =>
    { left := qualified edge.column side, right := vertex.idColumn : Equality }
  f.extend (.join f.plan (s.scan .vertex vertex.column) equalities) vertex

/-- Adds a positive edge clause. -/
def addEdgeClause (s : Schema) (f? : Option Frontier) (src edge dst : Binding) : Frontier :=
  let f := s.addEdge f? src edge dst
  (pendingEnds f src dst).foldl (s.attachEnd edge) f

/-- The demand that a named end of a negated edge is that vertex; no demand for an end without a
name. -/
def negatedEnd (f : Frontier) (clause : EdgeClause) (tag : String) (vertex : Binding)
    (side : String) : Except CompileError (List Equality) :=
  if vertex.name.isNone then .ok []
  else if f.binds vertex then
    .ok [{ left := vertex.idColumn, right := qualified tag side }]
  else .error (.unboundNegation clause vertex)

/-- The demand that a named negated edge is that edge: equal in every column, nulls included. -/
def negatedEdge (s : Schema) (f : Frontier) (clause : EdgeClause) (tag : String) (edge : Binding) :
    Except CompileError (List Equality) :=
  if edge.name.isNone then .ok []
  else if f.binds edge then
    .ok (s.edgeColumns.map fun column =>
      { left := qualified edge.column column, right := qualified tag column, nullSafe := true })
  else .error (.unboundNegation clause edge)

/-- Adds the negated clause with the number `index` of the pattern. -/
def addNegatedClause (s : Schema) (f? : Option Frontier) (index : Nat) (clause : EdgeClause)
    (src edge dst : Binding) : Except CompileError Frontier :=
  match f? with
  | none => .error (.unjoinable (.negationFirst clause))
  | some f => do
    let tag := "n" ++ toString index
    let atSrc ← negatedEnd f clause tag src srcColumn
    let atDst ← negatedEnd f clause tag dst dstColumn
    let sameEdge ← s.negatedEdge f clause tag edge
    return f.withPlan (.antiJoin f.plan (s.scan .edge tag) (atSrc ++ atDst ++ sameEdge))

/-- Adds the clause with the number `index` of the pattern. -/
def addClause (s : Schema) (f? : Option Frontier) (index : Nat) :
    ResolvedClause → Except CompileError Frontier
  | .vertex _ vertex => .ok (s.addVertex f? vertex)
  | .edge clause src edge dst =>
    if clause.negated then s.addNegatedClause f? index clause src edge dst
    else .ok (s.addEdgeClause f? src edge dst)

/-- Adds clauses, the first of them with the number `index`. -/
def addClauses (s : Schema) (f? : Option Frontier) (index : Nat) :
    List ResolvedClause → Except CompileError (Option Frontier)
  | [] => .ok f?
  | clause :: clauses => do
    let f ← s.addClause f? index clause
    s.addClauses (some f) (index + 1) clauses

/-- The bundle of a binding in the result. -/
def output (s : Schema) (f : Frontier) (b : Binding) : Except CompileError Output :=
  if f.binds b then
    .ok { name := b.outputName
          attributes := s.columns b.kind
          columns := (s.columns b.kind).map (qualified b.column) }
  else .error (.unboundOutput b)

/-- The plan of a resolved pattern. The pattern without clauses has the plan without rows. -/
def compile (s : Schema) (r : Resolution) : Except CompileError MatchPlan :=
  let text := r.pattern.toText
  if r.pattern.isEmpty then .ok { child := .empty [], outputs := [], pattern := text }
  else do
    match ← s.addClauses none 0 r.clauses with
    | none => throw (.noRelation text)
    | some f =>
      let outputs ← r.outputs.mapM (s.output f)
      let plan : MatchPlan := { child := f.plan, outputs, pattern := text }
      plan.root.check
      return plan

/-- Resolves and compiles a pattern. -/
def compilePattern (s : Schema) (p : Pattern) : Except CompileError MatchPlan := do
  let r ← p.resolve.mapError .unjoinable
  s.compile r

end Schema

end GraphMotif
