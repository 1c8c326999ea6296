import GraphMotif.Graph.Cleanup
import GraphMotif.Proofs.Graph.Ends
import GraphMotif.Proofs.Graph.Filter

/-!
# Matching after a clean-up

Vertices without edges do not take part in a match where every vertex is at an end of an edge, and
edges that dangle neither match nor forbid anything where every edge clause names both its ends. So
dropping them changes no result. Whether a vertex is isolated is decided on both ends of the edges
pooled in one column, though, and pooling may round the integers at one end or keep those at the
other end from being rounded: then a vertex is dropped although matching finds it at an end.
-/

namespace GraphMotif

/-- The ends that the positive clauses of a pattern name. -/
def Pattern.positiveEnds (p : Pattern) : List (String × String) :=
  (p.clauses.filter fun c => !c.negated).flatMap Clause.namedEnds

theorem Pattern.mem_positiveEnds {p : Pattern} {name side : String} :
    (name, side) ∈ p.positiveEnds ↔
      ∃ e, Clause.edge e ∈ p.clauses ∧ e.negated = false ∧ (name, side) ∈ e.namedEnds := by
  rw [positiveEnds, List.mem_flatMap]
  constructor
  · rintro ⟨c, hc, hend⟩
    obtain ⟨hc, hpositive⟩ := List.mem_filter.1 hc
    rw [Bool.not_eq_true'] at hpositive
    cases c with
    | vertex => exact absurd hend List.not_mem_nil
    | edge e => exact ⟨e, hc, hpositive, hend⟩
  · rintro ⟨e, he, hpositive, hend⟩
    refine ⟨.edge e, List.mem_filter.2 ⟨he, ?_⟩, hend⟩
    rw [Bool.not_eq_true']
    exact hpositive

/-! ## Pooled columns -/

namespace ColumnKind

/-- How the cells of two columns are stored in one column. -/
def pooled (kind other : ColumnKind) : ColumnKind :=
  if kind = other then kind else if kind.isNumeric && other.isNumeric then .float else .mixed

/-- Pooled with the cells of the other end, the cells of an end meet identities otherwise than
alone: integers are rounded to be pooled with binary64 numbers, and then differ from those of mixed
identities, or the pooled column is mixed and no integer is rounded where it meets a binary64
number. -/
def Misplaced (identity kind other : ColumnKind) : Prop :=
  (identity = .mixed ∧ kind = .int ∧ other = .float) ∨
    (other.isNumeric = false ∧
      (identity = .int ∧ kind = .float ∨ identity = .float ∧ kind = .int))

theorem pooled_comm (kind other : ColumnKind) : kind.pooled other = other.pooled kind := by
  cases kind <;> cases other <;> rfl

/-- Pooling leaves cells as they are, or rounds integers, or makes a mixed column. -/
theorem pooled_cases (kind other : ColumnKind) :
    (kind.pooled other = kind ∧ ∀ v, kind.align other v = v) ∨
      (kind = .int ∧ other = .float) ∨
        (kind.pooled other = .mixed ∧ (∀ v, kind.align other v = v) ∧
          (kind.isNumeric = true → other.isNumeric = false)) := by
  cases kind <;> cases other <;> simp [pooled, align, isNumeric]

end ColumnKind

theorem Value.same_toFloat {x y : Value} (h : x.same y = true) :
    x.toFloat.same y.toFloat = true := by
  obtain ⟨hx, hy, hkey⟩ := same_iff.1 h
  exact same_iff.2 ⟨x.isNull_toFloat.trans hx, y.isNull_toFloat.trans hy, key_toFloat_congr hkey⟩

/-- An identity that is equal to a cell of an end is equal to it in the pooled column, unless the
cell is misplaced there. -/
theorem ColumnKind.pooled_equal {identity kind other : ColumnKind} {x y : Value}
    (h : identity.equal kind x y = true) (hplaced : ¬Misplaced identity kind other)
    (hx : identity ∈ [ColumnKind.float, .bool] → x.toFloat = x) :
    identity.equal (kind.pooled other) x (kind.align other y) = true := by
  rcases pooled_cases kind other with ⟨hkind, halign⟩ | ⟨rfl, rfl⟩ | ⟨hkind, halign, hother⟩
  · rw [hkind, halign]
    exact h
  · show identity.equal .float x y.toFloat = true
    cases identity with
    | int => exact Value.same_toFloat h
    | float => exact h
    | bool =>
      have hsame := Value.same_toFloat (x := x) (y := y) h
      rwa [hx (by decide)] at hsame
    | mixed => exact absurd (.inl ⟨rfl, rfl, rfl⟩) hplaced
  · rw [hkind, halign, equal_mixed, ← h]
    -- only where integers meet binary64 numbers, cells are not compared by value
    cases identity with
    | int =>
      cases kind with
      | float => exact absurd (.inr ⟨hother rfl, .inl ⟨rfl, rfl⟩⟩) hplaced
      | _ => rfl
    | float =>
      cases kind with
      | int => exact absurd (.inr ⟨hother rfl, .inr ⟨rfl, rfl⟩⟩) hplaced
      | _ => rfl
    | bool => cases kind <;> rfl
    | mixed => cases kind <;> rfl

theorem Table.named_eq {t : Table String} {name : String} (hname : name ∈ t.names) :
    t.named name = { kind := t.kindAt name, cells := t.rows.map (t.cellAt · name) } := by
  rw [named, column?, t.position?_eq_some hname]
  rfl

namespace Graph

variable (g : Graph)

/-- Both ends of the edges in one column. -/
def endCells : Column := g.srcCells.append g.dstCells

/-- Whether the identity of a vertex occurs among the pooled ends of the edges. -/
def touched (vertex : Row) : Bool :=
  ((g.vertices.kindAt idColumn).align g.endCells.kind (g.vertices.cellAt vertex idColumn)).isIn
    (g.endCells.cells.map (g.endCells.kind.align (g.vertices.kindAt idColumn)))

/-- Every vertex name has an end in a positive clause where pooling both ends of the edges does not
make vertices be dropped: it does not misplace the cells of that end, or else no vertex at it is
dropped. -/
def PoolsEnds (p : Pattern) : Prop :=
  ∀ name side, (name, side) ∈ p.positiveEnds → ∃ side' other, (name, side') ∈ p.positiveEnds ∧
    (side', other) ∈ [(srcColumn, dstColumn), (dstColumn, srcColumn)] ∧
      (ColumnKind.Misplaced (g.vertices.kindAt idColumn) (g.edges.kindAt side')
          (g.edges.kindAt other) →
        ∀ vertex ∈ g.vertices.rows, ∀ e ∈ g.edges.rows, g.atEnd side' vertex e = true →
          vertex ∈ g.dropIsolatedVertices.vertices.rows)

/-- A pattern has the same matches in two graphs, unless it is refused in both or one of the
searches stops for keys that cannot be compared. -/
def FindsAlike (g g' : Graph) (p : Pattern) : Prop :=
  (∃ e, g.find p = .error (.compile e) ∧ g'.find p = .error (.compile e)) ∨
    (∃ a b, g.find p = .error (.eval (.incomparableKeys a b))) ∨
      (∃ a b, g'.find p = .error (.eval (.incomparableKeys a b))) ∨
        ∃ t t', g.find p = .ok t ∧ g'.find p = .ok t' ∧ t'.names = t.names ∧ t'.rows.Perm t.rows

variable {g} {g' : Graph} {kind : Element} {keep : Row → Bool} {p : Pattern} {plan : MatchPlan}
  {r : Resolution} {o : Outline} {v edge : Binding} {side other : String} {row vertex e : Row}

/-- Where a graph is narrowed to elements that contain those of all matches and all edges that are
forbidden, a pattern has the same matches. -/
theorem Narrows.findsAlike (h : g'.Narrows g kind keep)
    (hall : ∀ {plan r o}, g.Outlined p plan r o → g.ForbidsPassing kind keep o ∧
      ∀ row ∈ (g.frame o).rows, ∀ b ∈ o.bindings, b.kind = kind →
        keep (g.part (g.frame o) row b) = true) :
    g.FindsAlike g' p := by
  cases hcompile : g.compile p with
  | error e =>
    exact .inl ⟨e, find_eq_error_of_compile hcompile,
      find_eq_error_of_compile ((h.compile_eq p).trans hcompile)⟩
  | ok plan =>
    refine .inr ((find_both hcompile ((h.compile_eq p).trans hcompile)).imp_right (.imp_right ?_))
    rintro ⟨t, t', ⟨hfind, hnames⟩, ⟨hfind', hnames'⟩, hrows⟩
    have hlabels : t'.names = t.names := by rw [hnames', hnames, h.resultLabels_eq]
    refine ⟨t, t', hfind, hfind', hlabels, .of_eq ?_⟩
    rcases hrows with ⟨-, hrows, hrows'⟩ | ⟨r, o, houtlined, -, hrows, hrows'⟩
    · rw [hrows', hrows]
    · obtain ⟨hforbids, hkeep⟩ := hall houtlined
      have hframe := h.frame_eq_of_forbidsPassing houtlined.relational hforbids
      rw [Frame.filterRows_of_all fun row hrow => ?_] at hframe
      · rw [hrows', hrows, hframe, hlabels]
      · rw [partsPass, List.all_eq_true]
        intro b hb
        by_cases hkind : b.kind = kind
        · rw [hkeep row hrow b hb hkind, Bool.or_true]
        · rw [bne_iff_ne.2 hkind, Bool.true_or]

/-! ## Isolated vertices -/

theorem narrows_dropIsolatedVertices (g : Graph) :
    g.dropIsolatedVertices.Narrows g .vertex g.touched := by
  have hmarks : g.idCells.occursIn g.endCells = g.vertices.rows.map g.touched := by
    rw [idCells, Table.named_eq g.id_mem, Column.occursIn, List.map_map]
    rfl
  exact narrows_keepVertices hmarks

theorem mem_dropIsolatedVertices : vertex ∈ g.dropIsolatedVertices.vertices.rows ↔
    vertex ∈ g.vertices.rows ∧ g.touched vertex = true := by
  have hfewer : g.dropIsolatedVertices.vertices = g.vertices.filterRows g.touched :=
    (narrows_dropIsolatedVertices g).fewer
  rw [hfewer]
  exact List.mem_filter

/-- The ends of edges are pooled as their kinds demand, those where the edges start first. -/
theorem endCells_eq (g : Graph) : g.endCells =
    { kind := (g.edges.kindAt srcColumn).pooled (g.edges.kindAt dstColumn)
      cells := (g.edges.rows.map (g.edges.cellAt · srcColumn)).map
          ((g.edges.kindAt srcColumn).align (g.edges.kindAt dstColumn)) ++
        (g.edges.rows.map (g.edges.cellAt · dstColumn)).map
          ((g.edges.kindAt dstColumn).align (g.edges.kindAt srcColumn)) } := by
  rw [endCells, srcCells, dstCells, Table.named_eq g.src_mem, Table.named_eq g.dst_mem]
  rfl

/-- An end that has an other one is an end. -/
theorem mem_sides (h : (side, other) ∈ [(srcColumn, dstColumn), (dstColumn, srcColumn)]) :
    side ∈ [srcColumn, dstColumn] :=
  List.mem_map_of_mem (f := Prod.fst) h

theorem eq_sides (h : (side, other) ∈ [(srcColumn, dstColumn), (dstColumn, srcColumn)]) :
    (side = srcColumn ∧ other = dstColumn) ∨ (side = dstColumn ∧ other = srcColumn) := by
  rcases List.mem_cons.1 h with heq | h
  · exact .inl (Prod.mk.inj heq)
  · exact .inr (Prod.mk.inj (List.mem_singleton.1 h))

/-- The cells of an end are pooled with those of the other one. -/
theorem endCells_spec (hside : (side, other) ∈ [(srcColumn, dstColumn), (dstColumn, srcColumn)]) :
    g.endCells.kind = (g.edges.kindAt side).pooled (g.edges.kindAt other) ∧
      ∀ e ∈ g.edges.rows, (g.edges.kindAt side).align (g.edges.kindAt other)
        (g.edges.cellAt e side) ∈ g.endCells.cells := by
  rw [endCells_eq]
  rcases eq_sides hside with ⟨rfl, rfl⟩ | ⟨rfl, rfl⟩
  · exact ⟨rfl, fun e he => List.mem_append_left _ (List.mem_map_of_mem (List.mem_map_of_mem he))⟩
  · exact ⟨ColumnKind.pooled_comm .., fun e he =>
      List.mem_append_right _ (List.mem_map_of_mem (List.mem_map_of_mem he))⟩

/-- A vertex at an end of an edge is not isolated, unless pooling misplaces the cells of that
end. -/
theorem touched_of_atEnd (hg : g.StoresIntegers)
    (hside : (side, other) ∈ [(srcColumn, dstColumn), (dstColumn, srcColumn)])
    (hplaced : ¬ColumnKind.Misplaced (g.vertices.kindAt idColumn) (g.edges.kindAt side)
      (g.edges.kindAt other))
    (hvertex : vertex ∈ g.vertices.rows) (he : e ∈ g.edges.rows)
    (h : g.atEnd side vertex e = true) : g.touched vertex = true := by
  obtain ⟨hkind, hcells⟩ := endCells_spec (g := g) hside
  refine List.any_eq_true.2 ⟨_, List.mem_map_of_mem (hcells e he), ?_⟩
  rw [hkind]
  exact ColumnKind.pooled_equal h hplaced fun hmem => hg .vertex _ g.idColumn_mem hmem vertex hvertex

namespace Outlined

variable (h : g.Outlined p plan r o)

include h

/-- Where vertex clauses have names of ends, every vertex of a match has the name of an end. -/
theorem exists_positiveEnd
    (hvertices : ∀ slot, Clause.vertex slot ∈ p.clauses →
      ∃ name side, slot = some name ∧ (name, side) ∈ p.positiveEnds)
    (hv : v ∈ o.bindings) (hvertex : v.kind = .vertex) :
    ∃ name side, v.name = some name ∧ (name, side) ∈ p.positiveEnds := by
  obtain ⟨c, hc, hscans⟩ := h.exists_scans hv
  cases c with
  | vertex slot v' =>
    obtain rfl : v = v' := hscans
    obtain ⟨_, _, -, hsteps, -⟩ := exists_steps_of_mem .nil h.resolveClauses_eq hc
    cases hsteps.spec with
    | cons hspec _ =>
      obtain ⟨name, side, hslot, hend⟩ := hvertices slot (h.clause_mem hc)
      exact ⟨name, side, hspec.2.2.trans hslot, hend⟩
  | edge clause src edge dst =>
    obtain ⟨hpositive, rfl | ⟨hname, hend⟩⟩ := hscans
    · exact absurd (hvertex.symm.trans (h.edge_spec hc).2.1.2.1) nofun
    · obtain ⟨name, hname⟩ := Option.isSome_iff_exists.1 hname
      obtain ⟨⟨-, -, hsrc⟩, -, -, -, hdst⟩ := h.edge_spec hc
      have hmem {side : String} (hend : (name, side) ∈ clause.namedEnds) :
          (name, side) ∈ p.positiveEnds :=
        Pattern.mem_positiveEnds.2 ⟨clause, h.clause_mem hc, hpositive, hend⟩
      rcases hend with rfl | rfl
      · exact ⟨name, srcColumn, hname,
          hmem (EdgeClause.mem_namedEnds.2 (.inl ⟨hsrc.symm.trans hname, rfl⟩))⟩
      · exact ⟨name, dstColumn, hname,
          hmem (EdgeClause.mem_namedEnds.2 (.inr ⟨hdst.symm.trans hname, rfl⟩))⟩

/-- Where every vertex of a match has the name of an end, none of them is isolated. -/
theorem touched_part (hg : g.StoresIntegers) (hpools : g.PoolsEnds p)
    (hvertices : ∀ slot, Clause.vertex slot ∈ p.clauses →
      ∃ name side, slot = some name ∧ (name, side) ∈ p.positiveEnds)
    (hrow : row ∈ (g.frame o).rows) (hv : v ∈ o.bindings) (hvertex : v.kind = .vertex) :
    g.touched (g.part (g.frame o) row v) = true := by
  obtain ⟨name, side, hname, hend⟩ := h.exists_positiveEnd hvertices hv hvertex
  obtain ⟨side, other, hend, hside, hplaced⟩ := hpools name side hend
  obtain ⟨clause, hclause, hpositive, hend⟩ := Pattern.mem_positiveEnds.1 hend
  obtain ⟨src, edge, dst, hc⟩ := h.exists_edge hclause
  have hlinks := h.links (h.subset v hv) hname hc hpositive hend
  have hedge := (h.edge_spec hc).2.1.2.1
  have hatEnd := atEnd_of_links hg hlinks h.relational hvertex hedge (mem_sides hside) hrow
  have hpart := vertex_mem h.relational hv hvertex hrow
  have hedgepart := edge_mem h.relational hlinks.mem.2 hedge hrow
  by_cases hmisplaced : ColumnKind.Misplaced (g.vertices.kindAt idColumn) (g.edges.kindAt side)
      (g.edges.kindAt other)
  · exact (mem_dropIsolatedVertices.1 (hplaced hmisplaced _ hpart _ hedgepart hatEnd)).2
  · exact touched_of_atEnd hg hside hmisplaced hpart hedgepart hatEnd

end Outlined

/-! ## Dangling edges -/

theorem narrows_dropDanglingEdges (g : Graph) :
    g.dropDanglingEdges.Narrows g .edge g.isAnchored := by
  have hmarks {side : String} (hside : side ∈ g.edges.names) :
      (g.edges.named side).occursIn g.idCells = g.edges.rows.map (g.hasVertexAt side) := by
    rw [idCells, Table.named_eq g.id_mem, Table.named_eq hside, Column.occursIn, List.map_map,
      List.map_map]
    refine List.map_congr_left fun e _ => ?_
    rw [hasVertexAt, Function.comp_apply, Value.isIn, List.any_map]
    exact any_congr_of_mem fun vertex _ => ColumnKind.equal_comm ..
  refine narrows_keepEdges ?_
  rw [srcCells, dstCells, hmarks g.src_mem, hmarks g.dst_mem, List.zipWith_map, List.zipWith_self]
  rfl

/-- An edge that an anti-join forbids between two vertices does not dangle. -/
theorem forbidsPassing_of_forbidsBetween (hg : g.StoresIntegers) (h : o.ForbidsBetween)
    (hrelational : (o.plan g.schema).Relational) :
    g.ForbidsPassing .edge g.isAnchored o := by
  induction o with
  | scan b => trivial
  | join o b equalities ih => exact ih h hrelational.1
  | filter o equalities ih => exact ih h hrelational
  | antiJoin o tag ends edge ih =>
    refine ⟨ih h.1 hrelational.1, fun _ l hl e he hagree => isAnchored_iff.2 fun side hside => ?_⟩
    obtain ⟨v, hv, hkind, hmem⟩ := h.2 side hside
    have hholds := List.all_eq_true.1 hagree _ (List.mem_append_left _ hmem)
    have hcell : (g.relationFrame .edge tag).cell e (qualified tag side) = g.edges.cellAt e side :=
      cell_relationFrame .edge tag e side
    have hstored : (g.relationFrame .edge tag).kind (qualified tag side) = g.edges.kindAt side :=
      kind_relationFrame tag (g.side_mem hside)
    have hstoredid := Frame.stored_meeting (g.relationFrame .edge tag)
      (ends ++ g.schema.edgeDemand tag edge) (kind_id hrelational.1 hv hkind)
    have hpart := vertex_mem hrelational.1 hv hkind hl
    rw [Frame.holds_meets] at hholds
    refine List.any_eq_true.2
      ⟨_, hpart, atEnd_of_equal hg hside hpart he hstoredid (.inl hstored) ?_⟩
    rw [idCell_part (g.frame o) l hkind, ← hcell]
    exact hholds

/-- Where edge clauses name both ends, no edge of a match dangles. -/
theorem Outlined.isAnchored_part (h : g.Outlined p plan r o) (hg : g.StoresIntegers)
    (hends : ∀ e, Clause.edge e ∈ p.clauses → e.src.isSome = true ∧ e.dst.isSome = true)
    (hrow : row ∈ (g.frame o).rows) (hmem : edge ∈ o.bindings) (hedge : edge.kind = .edge) :
    g.isAnchored (g.part (g.frame o) row edge) = true := by
  obtain ⟨c, hc, hscans⟩ := h.exists_scans hmem
  cases c with
  | vertex slot v =>
    obtain rfl : edge = v := hscans
    exact absurd ((h.wellKinded _ hc).symm.trans hedge) nofun
  | edge clause src edge' dst =>
    obtain ⟨⟨hsrc, hsrckind, hsrcname⟩, -, hdst, hdstkind, hdstname⟩ := h.edge_spec hc
    obtain ⟨hpositive, rfl | ⟨-, rfl | rfl⟩⟩ := hscans
    · -- the edge is linked to both ends that its clause names
      have hvertex {v : Binding} {side name : String} (hv : v ∈ r.bindings)
          (hkind : v.kind = .vertex) (hname : v.name = some name)
          (hend : (name, side) ∈ clause.namedEnds) (hside : side ∈ [srcColumn, dstColumn]) :
          g.hasVertexAt side (g.part (g.frame o) row edge) = true := by
        have hlinks := h.links hv hname hc hpositive hend
        exact List.any_eq_true.2 ⟨_, vertex_mem h.relational hlinks.mem.1 hkind hrow,
          atEnd_of_links hg hlinks h.relational hkind hedge hside hrow⟩
      obtain ⟨hsome, hsome'⟩ := hends clause (h.clause_mem hc)
      obtain ⟨name, hname⟩ := Option.isSome_iff_exists.1 hsome
      obtain ⟨name', hname'⟩ := Option.isSome_iff_exists.1 hsome'
      refine isAnchored_iff.2 fun side hside => ?_
      rcases List.mem_cons.1 hside with rfl | hside'
      · exact hvertex hsrc hsrckind (hsrcname.trans hname)
          (EdgeClause.mem_namedEnds.2 (.inl ⟨hname, rfl⟩)) hside
      · obtain rfl := List.mem_singleton.1 hside'
        exact hvertex hdst hdstkind (hdstname.trans hname')
          (EdgeClause.mem_namedEnds.2 (.inr ⟨hname', rfl⟩)) hside
    · exact absurd (hsrckind.symm.trans hedge) nofun
    · exact absurd (hdstkind.symm.trans hedge) nofun

/-! ## Cleaned-up graphs -/

/-- Two vertices with edges between them, an isolated one, and an edge that dangles. -/
def untidyGraph : Graph where
  vertices := .ofColumns [(idColumn, { kind := .int, cells := [.int 1, .int 2, .int 3] })]
  edges := .ofColumns [(srcColumn, { kind := .int, cells := [.int 1, .int 2, .int 1] }),
    (dstColumn, { kind := .int, cells := [.int 2, .int 1, .int 9] })]
  nodup_vertices := by decide +kernel
  nodup_edges := by decide +kernel
  id_mem := by decide +kernel
  src_mem := by decide +kernel
  dst_mem := by decide +kernel
  id_not_null := by decide +kernel
  nodup_id := by decide +kernel

/-- The pattern of a vertex and an edge from it to a vertex without a loop. -/
def tidyPattern : Pattern where
  clauses := [.vertex (some "a"),
    .edge { src := some "a", edge := some "e", dst := some "b", negated := false },
    .edge { src := some "b", edge := none, dst := some "b", negated := true }]

theorem storesIntegers_untidyGraph : untidyGraph.StoresIntegers := by
  intro kind
  cases kind <;> decide +kernel

theorem poolsEnds_untidyGraph : untidyGraph.PoolsEnds tidyPattern := by
  intro name side hend
  have hplaced : ¬ColumnKind.Misplaced .int .int .int := by
    rintro (⟨h, -⟩ | ⟨h, -⟩) <;> exact absurd h nofun
  have hkinds : untidyGraph.vertices.kindAt idColumn = .int ∧
      untidyGraph.edges.kindAt srcColumn = .int ∧ untidyGraph.edges.kindAt dstColumn = .int := by
    decide +kernel
  obtain ⟨hid, hsrc, hdst⟩ := hkinds
  have hends : tidyPattern.positiveEnds = [("a", srcColumn), ("b", dstColumn)] := by decide +kernel
  rw [hends] at hend ⊢
  rcases List.mem_cons.1 hend with heq | hend'
  · obtain ⟨rfl, rfl⟩ := Prod.mk.inj heq
    refine ⟨srcColumn, dstColumn, hend, List.mem_cons_self, fun h => ?_⟩
    rw [hid, hsrc, hdst] at h
    exact absurd h hplaced
  · obtain ⟨rfl, rfl⟩ := Prod.mk.inj (List.mem_singleton.1 hend')
    refine ⟨dstColumn, srcColumn, hend, List.mem_cons_of_mem _ List.mem_cons_self, fun h => ?_⟩
    rw [hid, hsrc, hdst] at h
    exact absurd h hplaced

/-- An integer identity, an edge that starts at the binary64 number next to it, and texts as
ends. -/
def mixedEndsGraph : Graph where
  vertices := .ofColumns [(idColumn, { kind := .int, cells := [.int (2 ^ 53 + 1)] })]
  edges := .ofColumns [(srcColumn, { kind := .float, cells := [.float (.ofInt (2 ^ 53))] }),
    (dstColumn, { kind := .mixed, cells := [.text "x"] })]
  nodup_vertices := roundedGraph.nodup_vertices
  nodup_edges := by decide +kernel
  id_mem := roundedGraph.id_mem
  src_mem := by decide +kernel
  dst_mem := by decide +kernel
  id_not_null := roundedGraph.id_not_null
  nodup_id := roundedGraph.nodup_id

/-- An integer identity in a mixed column, an edge that starts at it, and binary64 numbers as
ends. -/
def roundedEndsGraph : Graph where
  vertices := .ofColumns [(idColumn, { kind := .mixed, cells := [.int (2 ^ 53 + 1)] })]
  edges := .ofColumns [(srcColumn, { kind := .int, cells := [.int (2 ^ 53 + 1)] }),
    (dstColumn, { kind := .float, cells := [.float (.ofInt 9)] })]
  nodup_vertices := by decide +kernel
  nodup_edges := by decide +kernel
  id_mem := by decide +kernel
  src_mem := by decide +kernel
  dst_mem := by decide +kernel
  id_not_null := by decide +kernel
  nodup_id := by decide +kernel

end Graph

end GraphMotif
