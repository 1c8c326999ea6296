import GraphMotif.Proofs.Graph.Outlined
import GraphMotif.Proofs.Plan.Links

/-!
# Vertices at ends of edges

In the frame of an outline, an identity of a vertex and an end of an edge are stored as in their
relations, or a match has made them mixed. Mixed columns meet by value, and what is the same by
value is equal in whatever way it is stored, as long as integers are stored as such. So where an
outline links a vertex to an end of an edge, the vertex is at that end in every row of its frame.
-/

namespace GraphMotif

namespace Frame

variable {left right : Frame} {l r : Row} {v edge : Binding} {side : String}

theorem holds_meets : left.holds right l r (v.meets edge side) =
    (left.kind v.idColumn).equal (right.kind (qualified edge.column side))
      (left.cell l v.idColumn) (right.cell r (qualified edge.column side)) := by
  simp only [holds, Binding.meets, Bool.false_and, Bool.or_false]

theorem holds_leadsTo : left.holds right l r (edge.leadsTo v side) =
    (left.kind (qualified edge.column side)).equal (right.kind v.idColumn)
      (left.cell l (qualified edge.column side)) (right.cell r v.idColumn) := by
  simp only [holds, Binding.leadsTo, Bool.false_and, Bool.or_false]

/-- A column that is stored in one way or mixed is so after a match. -/
theorem stored_meeting {name : String} {kind : ColumnKind} (right : Frame)
    (equalities : List Equality)
    (h : left.kind name = kind ∨ left.kind name = .mixed) :
    (left.meeting right equalities).kind name = kind ∨
      (left.meeting right equalities).kind name = .mixed := by
  rcases kind_meeting left right equalities name with heq | heq
  · rw [heq]
    exact h
  · exact .inr heq

end Frame

namespace Graph

variable (g : Graph)

/-- Integers are stored in columns of integers and in mixed columns only. -/
def StoresIntegers : Prop :=
  ∀ kind, ∀ column ∈ (g.relations.table kind).names,
    (g.relations.table kind).kindAt column ∈ [ColumnKind.float, .bool] →
      ∀ row ∈ (g.relations.table kind).rows,
        ((g.relations.table kind).cellAt row column).toFloat =
          (g.relations.table kind).cellAt row column

/-- How an end of edges may be stored in a frame: as in the relation, or mixed if matches retype
it. -/
def EndStored (side : String) (kind : ColumnKind) : Prop :=
  kind = g.edges.kindAt side ∨ kind = .mixed ∧ g.Retypes side

/-- Whether there is a vertex at the end of an edge that a column identifies. -/
def hasVertexAt (side : String) (e : Row) : Bool := g.vertices.rows.any (g.atEnd side · e)

/-- Whether there are vertices at both ends of an edge. -/
def isAnchored (e : Row) : Bool := g.hasVertexAt srcColumn e && g.hasVertexAt dstColumn e

variable {g} {o : Outline} {b v edge : Binding} {side : String} {f : Frame} {row vertex vertex' e : Row}
  {kind kind' : ColumnKind} {x y : Value}

/-! ## How columns are stored -/

/-- A match with identities leaves an end stored in one of its ways. -/
theorem EndStored.matched (h : g.EndStored side kind) :
    g.EndStored side (kind.matched (g.vertices.kindAt idColumn)) := by
  rw [ColumnKind.matched]
  split
  · exact h
  · next hkinds =>
    rw [Bool.or_eq_true, decide_eq_true_iff, Bool.and_eq_true, not_or] at hkinds
    rcases h with rfl | ⟨-, hretypes⟩
    · exact .inr ⟨rfl, fun heq => hkinds.1 heq.symm, fun h => hkinds.2 ⟨h.2, h.1⟩⟩
    · exact .inr ⟨rfl, hretypes⟩

/-- Where matches retype an end, identities meet it by value, in whatever way both are stored. -/
theorem equal_of_retypes (h : g.Retypes side)
    (hkind : kind = g.vertices.kindAt idColumn ∨ kind = .mixed)
    (hkind' : kind' = g.edges.kindAt side ∨ kind' = .mixed) (x y : Value) :
    kind.equal kind' x y = x.same y := by
  rcases hkind with rfl | rfl
  · rcases hkind' with rfl | rfl
    · obtain ⟨hne, hnumeric⟩ := h
      revert hne hnumeric
      cases g.vertices.kindAt idColumn <;> cases g.edges.kindAt side <;> intro hne hnumeric
      all_goals first | rfl | exact absurd rfl hne | exact absurd ⟨rfl, rfl⟩ hnumeric
    · exact ColumnKind.equal_mixed ..
  · exact ColumnKind.mixed_equal ..

/-- An identity that is scanned meets an end as the columns of the relations do. -/
theorem EndStored.equal_eq (h : g.EndStored side kind) (x y : Value) :
    (g.vertices.kindAt idColumn).equal kind x y =
      (g.vertices.kindAt idColumn).equal (g.edges.kindAt side) x y := by
  rcases h with rfl | ⟨rfl, hretypes⟩
  · rfl
  · rw [equal_of_retypes hretypes (.inl rfl) (.inr rfl), equal_of_retypes hretypes (.inl rfl) (.inl rfl)]

theorem kind_id (hrelational : (o.plan g.schema).Relational) (hv : v ∈ o.bindings)
    (hvertex : v.kind = .vertex) :
    (g.frame o).kind v.idColumn = g.vertices.kindAt idColumn ∨ (g.frame o).kind v.idColumn = .mixed := by
  have hmem : idColumn ∈ (g.relations.table v.kind).names := hvertex ▸ g.idColumn_mem
  have hkind := kind_frame hrelational hv hmem
  rw [hvertex] at hkind
  exact hkind

theorem kind_side (hrelational : (o.plan g.schema).Relational) (hmem : edge ∈ o.bindings)
    (hedge : edge.kind = .edge) (hside : side ∈ [srcColumn, dstColumn]) :
    (g.frame o).kind (qualified edge.column side) = g.edges.kindAt side ∨
      (g.frame o).kind (qualified edge.column side) = .mixed := by
  have hcolumn : side ∈ (g.relations.table edge.kind).names := hedge ▸ g.side_mem hside
  have hkind := kind_frame hrelational hmem hcolumn
  rw [hedge] at hkind
  exact hkind

theorem kind_bindingFrame_id (hvertex : v.kind = .vertex) :
    (g.bindingFrame v).kind v.idColumn = g.vertices.kindAt idColumn := by
  have hmem : idColumn ∈ (g.relations.table v.kind).names := hvertex ▸ g.idColumn_mem
  have hkind := kind_relationFrame (g := g) v.column hmem
  rw [hvertex] at hkind
  rw [bindingFrame, hvertex]
  exact hkind

theorem kind_bindingFrame_end (hedge : edge.kind = .edge) (hside : side ∈ [srcColumn, dstColumn]) :
    (g.bindingFrame edge).kind (qualified edge.column side) = g.edges.kindAt side := by
  rw [bindingFrame, hedge]
  exact kind_relationFrame edge.column (g.side_mem hside)

/-- The column of an identity is not that of an end. -/
theorem idColumn_ne (htag : IsTag v.column) (htag' : IsTag edge.column)
    (hside : side ∈ [srcColumn, dstColumn]) : v.idColumn ≠ qualified edge.column side := by
  intro heq
  have hcolumn : idColumn = side := ((qualified_inj htag htag').1 heq).2
  rw [← hcolumn] at hside
  exact absurd hside (by decide)

/-- Only a match with an identity changes how an end is stored. -/
theorem endStored_meeting {bs : List Binding} {equalities : List Equality}
    (hproper : ∀ e ∈ equalities, EndEquality bs [b] e) (htags : ∀ v ∈ bs, IsTag v.column)
    (htag : IsTag edge.column) (hside : side ∈ [srcColumn, dstColumn])
    (h : g.EndStored side (f.kind (qualified edge.column side))) :
    g.EndStored side
      ((f.meeting (g.bindingFrame b) equalities).kind (qualified edge.column side)) := by
  simp only [Frame.meeting]
  split
  · next eq hfind =>
    have heq : eq.left = qualified edge.column side := by simpa using List.find?_some hfind
    cases hproper eq (mem_of_mem_keyEqualities (List.mem_of_find?_eq_some hfind)) with
    | meets hv => exact absurd heq (idColumn_ne (htags _ hv) htag hside)
    | @leadsTo v _ _ _ _ hv hvertex =>
      obtain rfl := List.mem_singleton.1 hv
      show g.EndStored side ((f.kind _).matched ((g.bindingFrame v).kind v.idColumn))
      rw [kind_bindingFrame_id hvertex]
      exact h.matched
  · exact h

/-- In the frame of a proper outline, only a match with an identity makes an end mixed. -/
theorem kind_end (hrelational : (o.plan g.schema).Relational) (hproper : o.Proper)
    (htags : ∀ b ∈ o.bindings, IsTag b.column) (hmem : edge ∈ o.bindings)
    (hedge : edge.kind = .edge) (hside : side ∈ [srcColumn, dstColumn]) :
    g.EndStored side ((g.frame o).kind (qualified edge.column side)) := by
  have hcolumn : side ∈ (g.relations.table edge.kind).names := hedge ▸ g.side_mem hside
  induction o with
  | scan b =>
    obtain rfl := List.mem_singleton.1 hmem
    exact .inl (kind_bindingFrame_end hedge hside)
  | join o b equalities ih =>
    have htags' : ∀ b ∈ o.bindings, IsTag b.column := fun b hb => htags b (List.mem_append_left _ hb)
    show g.EndStored side (if _ ∈ (g.frame o).names then _ else _)
    rcases List.mem_append.1 hmem with hmem' | hmem'
    · rw [if_pos (mem_names_frame hmem' hcolumn)]
      exact endStored_meeting hproper.2 htags' (htags' _ hmem') hside
        (ih hrelational.1 hproper.1 htags' hmem')
    · obtain rfl := List.mem_singleton.1 hmem'
      have hname : qualified edge.column side ∈ g.schema.tagged edge :=
        tagged_eq edge ▸ List.mem_map_of_mem hcolumn
      rw [if_neg (notMem_names_of_relational hrelational hname)]
      exact .inl (kind_bindingFrame_end hedge hside)
  | filter o equalities ih => exact ih hrelational hproper.1 htags hmem
  | antiJoin o tag ends b ih => exact ih hrelational.1 hproper.1 htags hmem

/-! ## Cells of parts -/

theorem idCell_part (f : Frame) (row : Row) (hvertex : v.kind = .vertex) :
    g.vertices.cellAt (g.part f row v) idColumn = f.cell row v.idColumn := by
  have hcell : idColumn ∈ (g.relations.table v.kind).names →
      (g.relations.table v.kind).cellAt (g.part f row v) idColumn = f.cell row v.idColumn := cellAt_part
  rw [hvertex] at hcell
  exact hcell g.idColumn_mem

theorem endCell_part (f : Frame) (row : Row) (hedge : edge.kind = .edge)
    (hside : side ∈ [srcColumn, dstColumn]) :
    g.edges.cellAt (g.part f row edge) side = f.cell row (qualified edge.column side) :=
  cellAt_part_edge f row hedge (g.side_mem hside)

theorem vertex_mem (hrelational : (o.plan g.schema).Relational) (hv : v ∈ o.bindings)
    (hvertex : v.kind = .vertex) (hrow : row ∈ (g.frame o).rows) :
    g.part (g.frame o) row v ∈ g.vertices.rows := by
  have hmem := part_mem hrelational hv hrow
  rw [hvertex] at hmem
  exact hmem

theorem edge_mem (hrelational : (o.plan g.schema).Relational) (hmem : edge ∈ o.bindings)
    (hedge : edge.kind = .edge) (hrow : row ∈ (g.frame o).rows) :
    g.part (g.frame o) row edge ∈ g.edges.rows := by
  have hmem := part_mem hrelational hmem hrow
  rw [hedge] at hmem
  exact hmem

/-! ## Vertices at ends -/

/-- What is the same by value is equal in whatever way it is stored. -/
theorem equal_of_same (h : x.same y = true)
    (hx : kind ∈ [ColumnKind.float, .bool] → x.toFloat = x)
    (hy : kind' ∈ [ColumnKind.float, .bool] → y.toFloat = y) : kind.equal kind' x y = true := by
  obtain ⟨hxnull, hynull, hkey⟩ := Value.same_iff.1 h
  have hrounded := Value.key_toFloat_congr hkey
  unfold ColumnKind.equal ColumnKind.align
  refine Value.same_iff.2 ⟨?_, ?_, ?_⟩
  · split <;> simp only [Value.isNull_toFloat, hxnull]
  · split <;> simp only [Value.isNull_toFloat, hynull]
  · split
    · next hkinds =>
      rw [if_neg (by rw [hkinds.2]; exact fun h => absurd h.1 nofun)]
      rwa [hy (by rw [hkinds.2]; exact List.mem_cons_self)] at hrounded
    · split
      · next hkinds =>
        rwa [hx (by rw [hkinds.2]; exact List.mem_cons_self)] at hrounded
      · exact hkey

/-- An identity that is equal to an end, as they are stored in some frame, is at that end. -/
theorem atEnd_of_equal (hg : g.StoresIntegers) (hside : side ∈ [srcColumn, dstColumn])
    (hvertex : vertex ∈ g.vertices.rows) (he : e ∈ g.edges.rows)
    (hkind : kind = g.vertices.kindAt idColumn ∨ kind = .mixed)
    (hkind' : kind' = g.edges.kindAt side ∨ kind' = .mixed)
    (h : kind.equal kind' (g.vertices.cellAt vertex idColumn) (g.edges.cellAt e side) = true) :
    g.atEnd side vertex e = true := by
  have hsame : (g.vertices.cellAt vertex idColumn).same (g.edges.cellAt e side) = true →
      g.atEnd side vertex e = true := fun h =>
    equal_of_same h (fun hmem => hg .vertex idColumn g.idColumn_mem hmem vertex hvertex)
      fun hmem => hg .edge side (g.side_mem hside) hmem e he
  rcases hkind with rfl | rfl
  · rcases hkind' with rfl | rfl
    · exact h
    · exact hsame (ColumnKind.equal_mixed .. ▸ h)
  · exact hsame (ColumnKind.mixed_equal .. ▸ h)

/-- Where a vertex is linked to an end of an edge, it is at that end in every row. -/
theorem atEnd_of_links (hg : g.StoresIntegers) (hlinks : o.Links v edge side)
    (hrelational : (o.plan g.schema).Relational) (hvertex : v.kind = .vertex)
    (hedge : edge.kind = .edge) (hside : side ∈ [srcColumn, dstColumn])
    (hrow : row ∈ (g.frame o).rows) :
    g.atEnd side (g.part (g.frame o) row v) (g.part (g.frame o) row edge) = true := by
  induction hlinks generalizing row with
  | @meets o equalities hv he =>
    obtain ⟨l, hl, r, hr, hagree, rfl⟩ := Frame.mem_rows_join.1 hrow
    have hr : r ∈ (g.relations.table edge.kind).rows := rows_bindingFrame edge ▸ hr
    have hcell := endCell_part (g := g) (g.bindingFrame edge) r hedge hside
    rw [part_bindingFrame hr] at hcell
    have hstored := Frame.stored_meeting (g.bindingFrame edge) equalities
      (kind_id hrelational.1 hv hvertex)
    have hholds := List.all_eq_true.1 hagree _ he
    rw [Frame.holds_meets] at hholds
    rw [part_join_left hrelational hv hl, part_join_right hrelational hl hr]
    rw [hedge] at hr
    refine atEnd_of_equal hg hside (vertex_mem hrelational.1 hv hvertex hl) hr hstored
      (.inl (kind_bindingFrame_end hedge hside)) ?_
    rw [idCell_part (g.frame o) l hvertex, hcell]
    exact hholds
  | @leadsTo o equalities hmem he =>
    obtain ⟨l, hl, r, hr, hagree, rfl⟩ := Frame.mem_rows_join.1 hrow
    have hr : r ∈ (g.relations.table v.kind).rows := rows_bindingFrame v ▸ hr
    have hcell := idCell_part (g := g) (g.bindingFrame v) r hvertex
    rw [part_bindingFrame hr] at hcell
    have hstored := Frame.stored_meeting (g.bindingFrame v) equalities
      (kind_side hrelational.1 hmem hedge hside)
    have hholds := List.all_eq_true.1 hagree _ he
    rw [Frame.holds_leadsTo, ColumnKind.equal_comm] at hholds
    rw [part_join_left hrelational hmem hl, part_join_right hrelational hl hr]
    rw [hvertex] at hr
    refine atEnd_of_equal hg hside hr (edge_mem hrelational.1 hmem hedge hl)
      (.inl (kind_bindingFrame_id hvertex)) hstored ?_
    rw [endCell_part (g.frame o) l hedge hside, hcell]
    exact hholds
  | @filters o equalities hv hmem he =>
    obtain ⟨hrow, hall⟩ := List.mem_filter.1 hrow
    have hrow : row ∈ (g.frame o).rows := hrow
    have hrelational : (o.plan g.schema).Relational := hrelational
    have hholds := List.all_eq_true.1 hall _ he
    rw [Frame.holds_meets] at hholds
    show g.atEnd side (g.part (g.frame o) row v) (g.part (g.frame o) row edge) = true
    refine atEnd_of_equal hg hside (vertex_mem hrelational hv hvertex hrow)
      (edge_mem hrelational hmem hedge hrow) (kind_id hrelational hv hvertex)
      (kind_side hrelational hmem hedge hside) ?_
    rw [idCell_part (g.frame o) row hvertex, endCell_part (g.frame o) row hedge hside]
    exact hholds
  | @join o b equalities hlinks ih =>
    obtain ⟨l, hl, r, hr, -, rfl⟩ := Frame.mem_rows_join.1 hrow
    rw [part_join_left hrelational hlinks.mem.1 hl, part_join_left hrelational hlinks.mem.2 hl]
    exact ih hrelational.1 hl
  | filter equalities _ ih => exact ih hrelational (List.mem_filter.1 hrow).1
  | antiJoin tag ends b _ ih => exact ih hrelational.1 (List.mem_filter.1 hrow).1

/-! ## The vertex at an end -/

theorem isAnchored_iff :
    g.isAnchored e = true ↔ ∀ side ∈ [srcColumn, dstColumn], g.hasVertexAt side e = true := by
  rw [isAnchored, Bool.and_eq_true, List.forall_mem_cons, List.forall_mem_singleton]

theorem nodup_idKeys (g : Graph) :
    (g.vertices.rows.map fun row => (g.vertices.cellAt row idColumn).key).Nodup := by
  have hnodup := g.nodup_id
  rw [Table.cells_eq g.id_mem, List.map_map] at hnodup
  exact hnodup

/-- Vertices with one identity are one vertex. -/
theorem eq_of_idKey (hvertex : vertex ∈ g.vertices.rows) (hvertex' : vertex' ∈ g.vertices.rows)
    (h : (g.vertices.cellAt vertex idColumn).key = (g.vertices.cellAt vertex' idColumn).key) :
    vertex = vertex' :=
  List.inj_on_of_nodup_map g.nodup_idKeys hvertex hvertex' h

/-- Unless integer identities meet binary64 ends, one vertex at most is at an end of an edge. -/
theorem eq_of_atEnd (hkinds : ¬(g.vertices.kindAt idColumn = .int ∧ g.edges.kindAt side = .float))
    (hvertex : vertex ∈ g.vertices.rows) (hvertex' : vertex' ∈ g.vertices.rows)
    (h : g.atEnd side vertex e = true) (h' : g.atEnd side vertex' e = true) : vertex = vertex' := by
  unfold atEnd ColumnKind.equal at h h'
  rw [show ColumnKind.align _ _ (g.vertices.cellAt vertex idColumn) =
    g.vertices.cellAt vertex idColumn from if_neg hkinds] at h
  rw [show ColumnKind.align _ _ (g.vertices.cellAt vertex' idColumn) =
    g.vertices.cellAt vertex' idColumn from if_neg hkinds] at h'
  exact eq_of_idKey hvertex hvertex'
    ((Value.same_iff.1 h).2.2.trans (Value.same_iff.1 h').2.2.symm)

/-! ## Outlines of patterns -/

namespace Outlined

variable {p : Pattern} {plan : MatchPlan} {r : Resolution} (h : g.Outlined p plan r o)

include h

theorem resolveClauses_eq :
    Resolution.resolveClauses [] p.clauses = .ok (r.clauses, r.bindings) := by
  obtain ⟨clauses, bindings, hok, -, rfl⟩ := Pattern.resolve_eq_ok_iff.1 h.resolve
  exact hok

theorem isTag_column (hb : b ∈ o.bindings) : IsTag b.column :=
  h.isScope.isTag_column (h.subset b hb)

theorem wellKinded : ∀ c ∈ r.clauses, c.WellKinded :=
  Outline.wellKinded_of_resolveClauses .nil h.resolveClauses_eq

theorem proper : o.Proper := by
  have hnone : CarriesNamed [] (Outline.bindingsSoFar none) := fun b hb => absurd hb List.not_mem_nil
  refine Outline.addClauses_induction .nil h.resolveClauses_eq hnone nofun ?_ o h.outline
  exact fun _ hadmits hadd hproper => Outline.proper_addClause hadmits hadd hproper

theorem forbidsBetween
    (hends : ∀ e, Clause.edge e ∈ p.clauses → e.src.isSome = true ∧ e.dst.isSome = true) :
    o.ForbidsBetween := by
  have hnone : CarriesNamed [] (Outline.bindingsSoFar none) := fun b hb => absurd hb List.not_mem_nil
  refine Outline.addClauses_induction .nil h.resolveClauses_eq hnone nofun ?_ o h.outline
  exact fun hc hadmits hadd hforbids =>
    Outline.forbidsBetween_addClause hadmits hadd hforbids fun e he => hends e (he ▸ hc)

theorem clause_mem {c : ResolvedClause} (hc : c ∈ r.clauses) : c.clause ∈ p.clauses :=
  map_clause_of_resolveClauses .nil h.resolveClauses_eq ▸ List.mem_map_of_mem hc

/-- The bindings of an edge clause are in scope, with the names of its slots. -/
theorem edge_spec {clause : EdgeClause} {src dst : Binding}
    (hc : .edge clause src edge dst ∈ r.clauses) :
    (src ∈ r.bindings ∧ src.kind = .vertex ∧ src.name = clause.src) ∧
      (edge ∈ r.bindings ∧ edge.kind = .edge ∧ edge.name = clause.edge) ∧
        (dst ∈ r.bindings ∧ dst.kind = .vertex ∧ dst.name = clause.dst) := by
  obtain ⟨_, bs₂, -, hsteps, hsubset⟩ := exists_steps_of_mem .nil h.resolveClauses_eq hc
  obtain ⟨hsrc, hedge, hdst⟩ := hsteps.edge_spec
  exact ⟨hsrc.imp_left (hsubset src), hedge.imp_left (hsubset edge), hdst.imp_left (hsubset dst)⟩

theorem exists_edge {clause : EdgeClause} (hc : Clause.edge clause ∈ p.clauses) :
    ∃ src edge dst, .edge clause src edge dst ∈ r.clauses := by
  rw [← map_clause_of_resolveClauses .nil h.resolveClauses_eq] at hc
  obtain ⟨c, hmem, hclause⟩ := List.mem_map.1 hc
  cases c with
  | vertex => exact absurd hclause nofun
  | edge clause' src edge dst =>
    obtain rfl : clause' = clause := Clause.edge.inj hclause
    exact ⟨src, edge, dst, hmem⟩

/-- The end that a clause names is the binding of the name. -/
theorem exists_end {name : String} {clause : EdgeClause} {src dst : Binding}
    (hc : .edge clause src edge dst ∈ r.clauses) (hend : (name, side) ∈ clause.namedEnds) :
    ∃ v ∈ r.bindings, v.kind = .vertex ∧ v.name = some name ∧
      (v, side) ∈ [(src, srcColumn), (dst, dstColumn)] := by
  obtain ⟨⟨hsrc, hsrckind, hsrcname⟩, -, hdst, hdstkind, hdstname⟩ := h.edge_spec hc
  rcases EdgeClause.mem_namedEnds.1 hend with ⟨hslot, rfl⟩ | ⟨hslot, rfl⟩
  · exact ⟨src, hsrc, hsrckind, hsrcname.trans hslot, List.mem_cons_self⟩
  · exact ⟨dst, hdst, hdstkind, hdstname.trans hslot, List.mem_cons_of_mem _ List.mem_cons_self⟩

/-- A vertex with a name is linked to the edges of the positive clauses that name it as an end. -/
theorem links {name : String} {clause : EdgeClause} {src dst : Binding} (hv : v ∈ r.bindings)
    (hname : v.name = some name) (hc : .edge clause src edge dst ∈ r.clauses)
    (hpositive : clause.negated = false) (hend : (name, side) ∈ clause.namedEnds) :
    o.Links v edge side := by
  obtain ⟨v', hv', -, hname', hpair⟩ := h.exists_end hc hend
  obtain rfl := h.isScope.name_inj v hv v' hv' name hname hname'
  exact Outline.links_addClauses h.wellKinded hc hpositive hpair (hname ▸ rfl) o h.outline

/-- Every binding of an outline is asked for by a clause. -/
theorem exists_scans (hb : b ∈ o.bindings) : ∃ c ∈ r.clauses, c.Scans b := by
  have hmem : b ∈ Outline.bindingsSoFar (Outline.addClauses none 0 r.clauses) := by
    rw [h.outline]
    exact hb
  exact (Outline.exists_scans hmem).resolve_left List.not_mem_nil

end Outlined

end Graph

end GraphMotif
