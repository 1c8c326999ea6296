import GraphMotif.Proofs.Graph.Degree
import GraphMotif.Proofs.Graph.Transformations

/-!
# Cleaning up once

Dropping dangling edges isolates vertices, and dropping isolated vertices may leave edges without
their ends. In this order nothing is left to be done: an edge that does not dangle keeps the
vertices at its ends from being isolated, and so it does not dangle afterwards. What remains is the
greatest part of the graph in which no edge dangles and no vertex is isolated. All this relies on
both operations agreeing on what is at an end of an edge, which they do unless pooling both ends in
one column changes what an identity is equal to.
-/

namespace GraphMotif

namespace Table

variable {t t' : Table String}

theorem kindAt_congr (hheadings : t'.headings = t.headings) (name : String) :
    t'.kindAt name = t.kindAt name := by
  rw [kindAt, kindAt, kind_columnAt, kind_columnAt, names, names,
    hheadings]

theorem cellAt_congr (hheadings : t'.headings = t.headings) (row : Row)
    (name : String) : t'.cellAt row name = t.cellAt row name := by
  rw [cellAt, cellAt, names, names, hheadings]

end Table

namespace Graph

variable {g g' h : Graph} {kind : Element} {keep : Row → Bool} {side other : String}
  {vertex e : Row}

/-! ## Narrowing to what is left -/

theorem Narrows.eq_of_all (hnarrows : g'.Narrows g kind keep)
    (hall : ∀ row ∈ (g.relations.table kind).rows, keep row = true) : g' = g := by
  refine eq_of_tables fun kind' => ?_
  by_cases hkind : kind' = kind
  · subst hkind
    rw [hnarrows.fewer]
    exact Table.eq_of_headings_rows rfl (List.filter_eq_self.2 hall)
  · exact hnarrows.same kind' hkind

/-- Narrowing a graph a second time by the same test changes nothing. -/
theorem Narrows.again (hnarrows : g'.Narrows g kind keep) (hagain : h.Narrows g' kind keep) :
    h = g' := by
  have htwice := hnarrows.trans hagain
  rw [funext fun row => Bool.and_self _] at htwice
  exact htwice.unique hnarrows

/-! ## What is at an end of an edge -/

/-- Two graphs have the same columns. -/
def SameColumns (g' g : Graph) : Prop :=
  ∀ kind, (g'.relations.table kind).headings = (g.relations.table kind).headings

theorem Narrows.sameColumns (hnarrows : g'.Narrows g kind keep) : g'.SameColumns g := by
  intro kind'
  by_cases hkind : kind' = kind
  · rw [hkind, hnarrows.fewer]
    rfl
  · rw [hnarrows.same kind' hkind]

theorem SameColumns.atEnd_eq (hcolumns : g'.SameColumns g) (side : String) (vertex e : Row) :
    g'.atEnd side vertex e = g.atEnd side vertex e := by
  have hvertices : g'.vertices.headings = g.vertices.headings := hcolumns .vertex
  have hedges : g'.edges.headings = g.edges.headings := hcolumns .edge
  rw [atEnd, atEnd, Table.kindAt_congr hvertices, Table.kindAt_congr hedges,
    Table.cellAt_congr hvertices, Table.cellAt_congr hedges]

theorem SameColumns.pooledAt_eq (hcolumns : g'.SameColumns g) (side other : String)
    (vertex e : Row) : g'.pooledAt side other vertex e = g.pooledAt side other vertex e := by
  have hvertices : g'.vertices.headings = g.vertices.headings := hcolumns .vertex
  have hedges : g'.edges.headings = g.edges.headings := hcolumns .edge
  rw [pooledAt, pooledAt, Table.kindAt_congr hvertices, Table.kindAt_congr hedges,
    Table.kindAt_congr hedges, Table.cellAt_congr hvertices, Table.cellAt_congr hedges]

/-- Which vertices are isolated does not depend on the vertices. -/
theorem touched_eq_of_edges (hcolumns : g'.SameColumns g) (hedges : g'.edges = g.edges) :
    g'.touched = g.touched := by
  funext vertex
  rw [touched_eq, touched_eq, hedges]
  refine congrArg₂ or (congrArg _ (funext fun e => ?_)) (congrArg _ (funext fun e => ?_))
  · exact hcolumns.pooledAt_eq ..
  · exact hcolumns.pooledAt_eq ..

/-- Which edges dangle does not depend on the edges. -/
theorem isAnchored_eq_of_vertices (hcolumns : g'.SameColumns g)
    (hvertices : g'.vertices = g.vertices) : g'.isAnchored = g.isAnchored := by
  funext e
  rw [isAnchored, isAnchored, hasVertexAt, hasVertexAt, hasVertexAt, hasVertexAt, hvertices]
  refine congrArg₂ and (congrArg _ (funext fun vertex => ?_))
    (congrArg _ (funext fun vertex => ?_))
  · exact hcolumns.atEnd_eq ..
  · exact hcolumns.atEnd_eq ..

/-- No isolated vertices are left to be dropped. -/
theorem dropIsolatedVertices_idempotent (g : Graph) :
    g.dropIsolatedVertices.dropIsolatedVertices = g.dropIsolatedVertices := by
  have hnarrows := narrows_dropIsolatedVertices g
  have hagain := narrows_dropIsolatedVertices g.dropIsolatedVertices
  rw [touched_eq_of_edges hnarrows.sameColumns rfl] at hagain
  exact hnarrows.again hagain

/-- No dangling edges are left to be dropped. -/
theorem dropDanglingEdges_idempotent (g : Graph) :
    g.dropDanglingEdges.dropDanglingEdges = g.dropDanglingEdges := by
  have hnarrows := narrows_dropDanglingEdges g
  have hagain := narrows_dropDanglingEdges g.dropDanglingEdges
  rw [isAnchored_eq_of_vertices hnarrows.sameColumns rfl] at hagain
  exact hnarrows.again hagain

/-! ## What is left -/

/-- The graph without its dangling edges, and then without its isolated vertices. -/
def cleanUp (g : Graph) : Graph := g.dropDanglingEdges.dropIsolatedVertices

/-- Whether a vertex is at an end of some edge. -/
def hasEdge (g : Graph) (vertex : Row) : Bool :=
  g.edges.rows.any fun e => [srcColumn, dstColumn].any fun side => g.atEnd side vertex e

/-- No edge dangles, and no vertex is isolated. -/
structure Tidy (g : Graph) : Prop where
  anchored : ∀ e ∈ g.edges.rows, g.isAnchored e = true
  hasEdge : ∀ vertex ∈ g.vertices.rows, g.hasEdge vertex = true

/-- A graph has the columns of another one, and of its rows some, no row more often. -/
def PartOf (s g : Graph) : Prop :=
  s.SameColumns g ∧ ∀ kind, (s.relations.table kind).rows.Subperm (g.relations.table kind).rows

/-- No vertex at an end of an edge counts as isolated. -/
def KeepsEnds (g : Graph) : Prop :=
  ∀ vertex ∈ g.vertices.rows, g.hasEdge vertex = true → g.touched vertex = true

/-- Pooling both ends of the edges loses no vertex at an end. -/
def PoolsAll (g : Graph) : Prop :=
  ∀ side other, (side, other) ∈ [(srcColumn, dstColumn), (dstColumn, srcColumn)] →
    ∀ vertex ∈ g.vertices.rows, ∀ e ∈ g.edges.rows,
      g.atEnd side vertex e = true → g.pooledAt side other vertex e = true

/-- Pooling both ends of the edges brings no vertex to an end where it is not. -/
def PoolsOnly (g : Graph) : Prop :=
  ∀ side other, (side, other) ∈ [(srcColumn, dstColumn), (dstColumn, srcColumn)] →
    ∀ vertex ∈ g.vertices.rows, ∀ e ∈ g.edges.rows,
      g.pooledAt side other vertex e = true → g.atEnd side vertex e = true

theorem hasEdge_iff : g.hasEdge vertex = true ↔
    ∃ side ∈ [srcColumn, dstColumn], ∃ e ∈ g.edges.rows, g.atEnd side vertex e = true := by
  simp only [hasEdge, List.any_eq_true]
  exact ⟨fun ⟨e, he, side, hside, hend⟩ => ⟨side, hside, e, he, hend⟩,
    fun ⟨side, hside, e, he, hend⟩ => ⟨e, he, side, hside, hend⟩⟩

theorem SameColumns.hasEdge_eq (hcolumns : g'.SameColumns g) (hedges : g'.edges = g.edges) :
    g'.hasEdge = g.hasEdge := by
  funext vertex
  simp only [hasEdge, hedges, hcolumns.atEnd_eq]

theorem Narrows.partOf (hnarrows : g'.Narrows g kind keep) : g'.PartOf g := by
  refine ⟨hnarrows.sameColumns, fun kind' => ?_⟩
  by_cases hkind : kind' = kind
  · rw [hkind, hnarrows.fewer]
    exact List.filter_sublist.subperm
  · rw [hnarrows.same kind' hkind]

theorem PartOf.trans {s : Graph} (hs : s.PartOf g') (hg : g'.PartOf g) : s.PartOf g :=
  ⟨fun kind => (hs.1 kind).trans (hg.1 kind), fun kind => (hs.2 kind).trans (hg.2 kind)⟩

/-! ### Pooled ends -/

theorem poolsAlike_iff : g.PoolsAlike ↔ g.PoolsAll ∧ g.PoolsOnly := by
  constructor
  · intro hpools
    refine ⟨?_, ?_⟩ <;> intro side other hpair vertex hvertex e he hend
    · rw [hpools side other hpair vertex hvertex e he, hend]
    · rw [← hpools side other hpair vertex hvertex e he, hend]
  · rintro ⟨hall, honly⟩ side other hpair vertex hvertex e he
    exact Bool.eq_iff_iff.2 ⟨honly side other hpair vertex hvertex e he,
      hall side other hpair vertex hvertex e he⟩

/-- Ends of one kind are pooled as they are. -/
theorem poolsAlike_of_kindAt_eq (hkinds : g.edges.kindAt srcColumn = g.edges.kindAt dstColumn) :
    g.PoolsAlike := by
  intro side other hpair vertex _ e _
  have hkinds : g.edges.kindAt other = g.edges.kindAt side := by
    rcases eq_sides hpair with ⟨rfl, rfl⟩ | ⟨rfl, rfl⟩
    · exact hkinds.symm
    · exact hkinds
  have halign (kind : ColumnKind) (v : Value) : kind.align kind v = v := by
    cases kind <;> rfl
  rw [pooledAt, hkinds, ColumnKind.pooled, if_pos rfl, halign]
  rfl

theorem touched_iff : g.touched vertex = true ↔
    ∃ side other, (side, other) ∈ [(srcColumn, dstColumn), (dstColumn, srcColumn)] ∧
      ∃ e ∈ g.edges.rows, g.pooledAt side other vertex e = true := by
  rw [touched_eq, Bool.or_eq_true, List.any_eq_true, List.any_eq_true]
  constructor
  · rintro (hsrc | hdst)
    · exact ⟨_, _, List.mem_cons_self, hsrc⟩
    · exact ⟨_, _, List.mem_cons_of_mem _ List.mem_cons_self, hdst⟩
  · rintro ⟨side, other, hpair, hpooled⟩
    rcases eq_sides hpair with ⟨rfl, rfl⟩ | ⟨rfl, rfl⟩
    · exact .inl hpooled
    · exact .inr hpooled

theorem exists_other (hside : side ∈ [srcColumn, dstColumn]) :
    ∃ other, (side, other) ∈ [(srcColumn, dstColumn), (dstColumn, srcColumn)] := by
  rcases List.mem_cons.1 hside with rfl | hside
  · exact ⟨_, List.mem_cons_self⟩
  · obtain rfl := List.mem_singleton.1 hside
    exact ⟨_, List.mem_cons_of_mem _ List.mem_cons_self⟩

theorem PoolsAll.keepsEnds (hpools : g.PoolsAll) : g.KeepsEnds := by
  intro vertex hvertex hedge
  obtain ⟨side, hside, e, he, hend⟩ := hasEdge_iff.1 hedge
  obtain ⟨other, hpair⟩ := exists_other hside
  exact touched_iff.2 ⟨side, other, hpair, e, he, hpools side other hpair vertex hvertex e he hend⟩

theorem PoolsOnly.hasEdge (hpools : g.PoolsOnly) (hvertex : vertex ∈ g.vertices.rows)
    (htouched : g.touched vertex = true) : g.hasEdge vertex = true := by
  obtain ⟨side, other, hpair, e, he, hpooled⟩ := touched_iff.1 htouched
  exact hasEdge_iff.2
    ⟨side, mem_sides hpair, e, he, hpools side other hpair vertex hvertex e he hpooled⟩

/-! ## The cleaned-up graph -/

theorem sameColumns_cleanUp (g : Graph) : g.cleanUp.SameColumns g := fun kind =>
  ((narrows_dropIsolatedVertices _).sameColumns kind).trans
    ((narrows_dropDanglingEdges g).sameColumns kind)

theorem edges_cleanUp (g : Graph) : g.cleanUp.edges = g.edges.filterRows g.isAnchored :=
  (narrows_dropDanglingEdges g).fewer

theorem mem_edges_cleanUp :
    e ∈ g.cleanUp.edges.rows ↔ e ∈ g.edges.rows ∧ g.isAnchored e = true := by
  rw [edges_cleanUp]
  exact List.mem_filter

theorem mem_vertices_cleanUp : vertex ∈ g.cleanUp.vertices.rows ↔
    vertex ∈ g.vertices.rows ∧ g.dropDanglingEdges.touched vertex = true :=
  mem_dropIsolatedVertices

theorem partOf_cleanUp (g : Graph) : g.cleanUp.PartOf g :=
  (narrows_dropIsolatedVertices _).partOf.trans (narrows_dropDanglingEdges g).partOf

/-- The vertices at the ends of an edge that does not dangle are not isolated. -/
theorem isAnchored_cleanUp (hkeeps : g.dropDanglingEdges.KeepsEnds)
    (he : e ∈ g.cleanUp.edges.rows) :
    g.cleanUp.isAnchored e = true := by
  obtain ⟨-, hanchored⟩ := mem_edges_cleanUp.1 he
  refine isAnchored_iff.2 fun side hside => ?_
  obtain ⟨vertex, hvertex, hend⟩ := List.any_eq_true.1 (isAnchored_iff.1 hanchored side hside)
  have hedge : g.dropDanglingEdges.hasEdge vertex = true := by
    refine hasEdge_iff.2 ⟨side, hside, e, he, ?_⟩
    rw [(narrows_dropDanglingEdges g).sameColumns.atEnd_eq, hend]
  refine List.any_eq_true.2
    ⟨vertex, mem_vertices_cleanUp.2 ⟨hvertex, hkeeps vertex hvertex hedge⟩, ?_⟩
  rw [g.sameColumns_cleanUp.atEnd_eq, hend]

/-- Edges of a part in which none dangles do not dangle in the graph. -/
theorem PartOf.isAnchored {s : Graph} (hpart : s.PartOf g) (htidy : s.Tidy)
    (he : e ∈ s.edges.rows) : g.isAnchored e = true := by
  refine isAnchored_iff.2 fun side hside => ?_
  obtain ⟨vertex, hvertex, hend⟩ :=
    List.any_eq_true.1 (isAnchored_iff.1 (htidy.anchored e he) side hside)
  rw [hpart.1.atEnd_eq] at hend
  exact List.any_eq_true.2 ⟨vertex, (hpart.2 .vertex).subset hvertex, hend⟩

/-- A part in which no edge dangles and no vertex is isolated is left. -/
theorem PartOf.cleanUp {s : Graph} (hkeeps : g.dropDanglingEdges.KeepsEnds) (hpart : s.PartOf g)
    (htidy : s.Tidy) : s.PartOf g.cleanUp := by
  have hedges : ∀ e ∈ s.edges.rows, e ∈ g.dropDanglingEdges.edges.rows := fun e he =>
    mem_edges_cleanUp.2 ⟨(hpart.2 .edge).subset he, hpart.isAnchored htidy he⟩
  refine ⟨fun kind => (hpart.1 kind).trans (g.sameColumns_cleanUp kind).symm, fun kind => ?_⟩
  cases kind with
  | vertex =>
    refine s.nodup_vertices_rows.subperm fun vertex hvertex => mem_vertices_cleanUp.2 ?_
    have hmem : vertex ∈ g.vertices.rows := (hpart.2 .vertex).subset hvertex
    obtain ⟨side, hside, e, he, hend⟩ := hasEdge_iff.1 (htidy.hasEdge vertex hvertex)
    rw [hpart.1.atEnd_eq, ← (narrows_dropDanglingEdges g).sameColumns.atEnd_eq] at hend
    exact ⟨hmem, hkeeps vertex hmem (hasEdge_iff.2 ⟨side, hside, e, hedges e he, hend⟩)⟩
  | edge =>
    -- parallel edges are kept as often as there are
    have hfilter : s.edges.rows.filter g.isAnchored = s.edges.rows :=
      List.filter_eq_self.2 fun e he => hpart.isAnchored htidy he
    show s.edges.rows.Subperm g.cleanUp.edges.rows
    rw [edges_cleanUp, ← hfilter]
    exact (hpart.2 .edge).filter _

/-- The vertices at ends of edges, and all edges. -/
def keepEnds (g : Graph) : Graph := g.keepVertices (g.vertices.rows.map g.hasEdge)

theorem narrows_keepEnds (g : Graph) : g.keepEnds.Narrows g .vertex g.hasEdge :=
  narrows_keepVertices rfl

theorem mem_keepEnds :
    vertex ∈ g.keepEnds.vertices.rows ↔ vertex ∈ g.vertices.rows ∧ g.hasEdge vertex = true := by
  have hfewer : g.keepEnds.vertices = g.vertices.filterRows g.hasEdge := (narrows_keepEnds g).fewer
  rw [hfewer]
  exact List.mem_filter

/-- Edges that do not dangle, with the vertices at their ends, are a part in which nothing is left
to be dropped. -/
theorem tidy_keepEnds (g : Graph) : g.dropDanglingEdges.keepEnds.Tidy where
  anchored e he := by
    obtain ⟨-, hanchored⟩ := mem_edges_cleanUp.1 he
    refine isAnchored_iff.2 fun side hside => ?_
    obtain ⟨vertex, hvertex, hend⟩ := List.any_eq_true.1 (isAnchored_iff.1 hanchored side hside)
    have hedge : g.dropDanglingEdges.hasEdge vertex = true :=
      hasEdge_iff.2 ⟨side, hside, e, he, hend⟩
    exact List.any_eq_true.2 ⟨vertex, mem_keepEnds.2 ⟨hvertex, hedge⟩, hend⟩
  hasEdge vertex hvertex := by
    rw [(narrows_keepEnds _).sameColumns.hasEdge_eq rfl]
    exact (mem_keepEnds.1 hvertex).2

/-- If every such part is left, no vertex at an end of an edge that does not dangle is dropped. -/
theorem keepsEnds_of_greatest (hgreatest : ∀ s : Graph, s.PartOf g → s.Tidy → s.PartOf g.cleanUp) :
    g.dropDanglingEdges.KeepsEnds := by
  intro vertex hvertex hedge
  have hpart : g.dropDanglingEdges.keepEnds.PartOf g :=
    (narrows_keepEnds _).partOf.trans (narrows_dropDanglingEdges g).partOf
  have hleft := (hgreatest _ hpart (tidy_keepEnds g)).2 .vertex
  exact (mem_vertices_cleanUp.1 (hleft.subset (mem_keepEnds.2 ⟨hvertex, hedge⟩))).2

theorem hasEdge_cleanUp (hpools : g.dropDanglingEdges.PoolsOnly)
    (hvertex : vertex ∈ g.cleanUp.vertices.rows) : g.cleanUp.hasEdge vertex = true := by
  obtain ⟨hmem, htouched⟩ := mem_vertices_cleanUp.1 hvertex
  have hedge : g.cleanUp.hasEdge = g.dropDanglingEdges.hasEdge :=
    (narrows_dropIsolatedVertices _).sameColumns.hasEdge_eq rfl
  rw [hedge]
  exact hpools.hasEdge hmem htouched

theorem KeepsIntegers.dropDanglingEdges (h : g.KeepsIntegers) :
    g.dropDanglingEdges.KeepsIntegers where
  id := h.id
  side side hside e he := h.side side hside e (mem_edges_cleanUp.1 he).1

/-- Four vertices, parallel edges between two of them, a loop, an edge that dangles, and one that
starts nowhere. -/
def tangledGraph : Graph where
  vertices := .ofColumns [(idColumn, { kind := .int, cells := [.int 1, .int 2, .int 3, .int 4] })]
  edges := .ofColumns [
    (srcColumn, { kind := .mixed, cells := [.int 1, .int 1, .int 2, .int 3, .null] }),
    (dstColumn, { kind := .int, cells := [.int 2, .int 2, .int 2, .int 9, .int 1] })]
  nodup_vertices := by decide +kernel
  nodup_edges := by decide +kernel
  id_mem := by decide +kernel
  src_mem := by decide +kernel
  dst_mem := by decide +kernel
  id_not_null := by decide +kernel
  nodup_id := by decide +kernel

/-- The part of the tangled graph that is a loop. -/
def loopGraph : Graph where
  vertices := .ofColumns [(idColumn, { kind := .int, cells := [.int 2] })]
  edges := .ofColumns [(srcColumn, { kind := .mixed, cells := [.int 2] }),
    (dstColumn, { kind := .int, cells := [.int 2] })]
  nodup_vertices := by decide +kernel
  nodup_edges := by decide +kernel
  id_mem := by decide +kernel
  src_mem := by decide +kernel
  dst_mem := by decide +kernel
  id_not_null := by decide +kernel
  nodup_id := by decide +kernel

theorem keepsIntegers_tangledGraph : tangledGraph.KeepsIntegers where
  id := by decide +kernel
  side := by decide +kernel

theorem partOf_loopGraph : loopGraph.PartOf tangledGraph := by
  refine ⟨fun kind => ?_, fun kind => List.Sublist.subperm ?_⟩
  · cases kind <;> decide +kernel
  · cases kind <;> decide +kernel

theorem tidy_loopGraph : loopGraph.Tidy where
  anchored := by decide +kernel
  hasEdge := by decide +kernel

/-- An edge from an integer to a binary64 number, both identities in a mixed column. -/
def stretchedGraph : Graph where
  vertices := .ofColumns [(idColumn,
    { kind := .mixed, cells := [.int (2 ^ 53), .int (2 ^ 53 + 1), .int 7] })]
  edges := .ofColumns [(srcColumn, { kind := .int, cells := [.int (2 ^ 53 + 1)] }),
    (dstColumn, { kind := .float, cells := [.float (.ofInt 7)] })]
  nodup_vertices := by decide +kernel
  nodup_edges := by decide +kernel
  id_mem := by decide +kernel
  src_mem := by decide +kernel
  dst_mem := by decide +kernel
  id_not_null := by decide +kernel
  nodup_id := by decide +kernel

end Graph

end GraphMotif
