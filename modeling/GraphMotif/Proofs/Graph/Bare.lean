import GraphMotif.Proofs.Graph.Outlined
import GraphMotif.Proofs.Plan.Cut

/-!
# Graphs without attributes

A graph may be stripped of all columns but the reserved ones. What is found then is what is found in
the whole graph, cut down to the reserved columns. A negated clause that names an edge compares all
columns of edges, and so fewer columns forbid more edges; but the edge that it names is in the
relation itself, and is forbidden as soon as some edge with its ends is.
-/

namespace GraphMotif

/-- The reserved columns of the relation of a kind. -/
def Element.reserved : Element → List String
  | vertex => [idColumn]
  | edge => [srcColumn, dstColumn]

namespace Graph

variable (g : Graph)

/-- The reserved columns of a kind, in the order in which the graph has them. -/
def bareColumns (kind : Element) : List String :=
  (g.relations.table kind).names.filter fun column => decide (column ∈ kind.reserved)

/-- The relation of a kind without its other columns. -/
def bareTable (kind : Element) : Table String := (g.relations.table kind).select (g.bareColumns kind)

theorem bareColumns_subset {kind : Element} :
    ∀ column ∈ g.bareColumns kind, column ∈ (g.relations.table kind).names :=
  fun _ hcolumn => (List.mem_filter.1 hcolumn).1

theorem names_bareTable (kind : Element) : (g.bareTable kind).names = g.bareColumns kind :=
  Table.names_select ..

theorem nodup_bareTable (kind : Element) : (g.bareTable kind).names.Nodup := by
  rw [names_bareTable]
  exact (g.nodup_names kind).filter _

theorem mem_bareTable {kind : Element} {column : String} (hreserved : column ∈ kind.reserved)
    (hcolumn : column ∈ (g.relations.table kind).names) : column ∈ (g.bareTable kind).names := by
  rw [names_bareTable]
  exact List.mem_filter.2 ⟨hcolumn, decide_eq_true hreserved⟩

theorem cells_bareTable : (g.bareTable .vertex).cells idColumn = g.vertices.cells idColumn := by
  refine Table.cells_select ?_ fun _ => g.bareColumns_subset _
  rw [← names_bareTable]
  exact g.mem_bareTable List.mem_cons_self g.id_mem

/-- The graph without its attributes. -/
def bare : Graph where
  vertices := g.bareTable .vertex
  edges := g.bareTable .edge
  nodup_vertices := g.nodup_bareTable .vertex
  nodup_edges := g.nodup_bareTable .edge
  id_mem := g.mem_bareTable List.mem_cons_self g.id_mem
  src_mem := g.mem_bareTable List.mem_cons_self g.src_mem
  dst_mem := g.mem_bareTable (List.mem_cons_of_mem _ List.mem_cons_self) g.dst_mem
  id_not_null := by
    rw [cells_bareTable]
    exact g.id_not_null
  nodup_id := by
    rw [cells_bareTable]
    exact g.nodup_id

variable {g} {p : Pattern} {o : Outline} {b edge : Binding} {kind : Element} {tag column : String}
  {l r row : Row} {ends : List Equality}

theorem table_bare (kind : Element) : g.bare.relations.table kind = g.bareTable kind := by
  cases kind <;> rfl

theorem names_bare (kind : Element) : (g.bare.relations.table kind).names = g.bareColumns kind := by
  rw [table_bare, names_bareTable]

theorem mem_names_of_bare (hcolumn : column ∈ (g.bare.relations.table kind).names) :
    column ∈ (g.relations.table kind).names :=
  g.bareColumns_subset column (names_bare kind ▸ hcolumn)

/-! ## Frames -/

/-- The bare relation under a tag is the relation under the tag, cut down. -/
theorem relationFrame_cut (kind : Element) (tag : String) :
    (g.bare.relationFrame kind tag).Cut (g.relationFrame kind tag) where
  names name hname := by
    obtain ⟨column, hcolumn, rfl⟩ := List.mem_map.1 hname
    rw [columns_eq] at hcolumn
    refine List.mem_map_of_mem ?_
    rw [columns_eq]
    exact mem_names_of_bare hcolumn
  kind name hname := by
    obtain ⟨column, hcolumn, rfl⟩ := List.mem_map.1 hname
    rw [columns_eq] at hcolumn
    rw [kind_relationFrame tag hcolumn, kind_relationFrame tag (mem_names_of_bare hcolumn),
      table_bare]
    exact Table.kindAt_select (names_bare kind ▸ hcolumn)
  rows := by
    have hnames : (g.bare.relationFrame kind tag).names =
        (g.bareColumns kind).map (qualified tag) := by
      show (g.bare.schema.columns kind).map _ = _
      rw [columns_eq, names_bare]
    rw [rows_relationFrame, rows_relationFrame, table_bare, bareTable, Table.rows_select_cellAt,
      hnames]
    refine List.map_congr_left fun row _ => ?_
    rw [List.map_map]
    exact List.map_congr_left fun column _ => (cell_relationFrame kind tag row column).symm

/-! ## Negated clauses -/

/-- A row of edges has the cells of the edge of a binding if they have the same normal forms. -/
theorem all_edgeDemand_iff (hrelational : (o.plan g.schema).Relational) (hb : edge ∈ o.bindings)
    (hkind : edge.kind = .edge) (hname : edge.name.isSome = true) (equalities : List Equality) :
    (g.schema.edgeDemand tag edge).all
        (((g.frame o).meeting (g.relationFrame .edge tag) equalities).holds
          (g.relationFrame .edge tag) l r) = true ↔
      ∀ column ∈ g.edges.names,
        ((g.frame o).cell l (qualified edge.column column)).key = (g.edges.cellAt r column).key := by
  rw [Schema.edgeDemand, if_pos hname, List.all_map, List.all_eq_true]
  refine forall₂_congr fun column hcolumn => ?_
  have hcolumn : column ∈ (g.relations.table .edge).names := hcolumn
  have hright : (g.relationFrame .edge tag).kind (qualified tag column) = g.edges.kindAt column :=
    kind_relationFrame tag hcolumn
  have hcell : (g.relationFrame .edge tag).cell r (qualified tag column) = g.edges.cellAt r column :=
    cell_relationFrame .edge tag r column
  -- both columns are stored as in the relation or mixed, so they meet by value
  have hequal (x y : Value) :
      (((g.frame o).meeting (g.relationFrame .edge tag) equalities).kind
        (qualified edge.column column)).equal (g.edges.kindAt column) x y = x.same y := by
    have hstored := kind_frame hrelational hb (hkind ▸ hcolumn)
    rw [hkind] at hstored
    rcases Frame.kind_meeting (g.frame o) (g.relationFrame .edge tag) equalities
      (qualified edge.column column) with heq | heq
    · rw [heq]
      rcases hstored with heq | heq
      · rw [heq]
        exact ColumnKind.equal_self ..
      · rw [heq]
        exact ColumnKind.mixed_equal ..
    · rw [heq]
      exact ColumnKind.mixed_equal ..
  rw [← Value.same_or_null_iff, Function.comp_apply, Frame.holds, hright, hcell, hequal,
    Bool.true_and]
  exact Iff.rfl

/-- The edge in a row and an edge that has its cells in the columns with demands meet these
alike. -/
theorem agree_part_edge {columns : List String} (hkind : edge.kind = .edge)
    (hcolumns : ∀ column ∈ columns, column ∈ g.edges.names)
    (hright : ∀ e ∈ ends, ∃ column ∈ columns, e.right = qualified tag column)
    (hkeys : ∀ column ∈ columns,
      ((g.frame o).cell l (qualified edge.column column)).key = (g.edges.cellAt r column).key) :
    (g.frame o).agree (g.relationFrame .edge tag) ends l (g.part (g.frame o) l edge) =
      (g.frame o).agree (g.relationFrame .edge tag) ends l r := by
  refine Frame.agree_congr_right fun e he => ?_
  obtain ⟨column, hcolumn, heq⟩ := hright e he
  rw [heq, cell_relationFrame, cell_relationFrame]
  have hcell := cellAt_part_edge (g.frame o) l hkind (hcolumns column hcolumn)
  exact (congrArg Value.key hcell).trans (hkeys column hcolumn)

section Negated

variable (hrelational : (o.plan g.schema).Relational) (hb : edge ∈ o.bindings)
  (hkind : edge.kind = .edge) (hname : edge.name.isSome = true)
  (hends : ∀ e ∈ ends, ∀ column, e.left ≠ qualified edge.column column)

include hrelational hb hkind hname hends

/-- A row of edges is forbidden by a negated clause with a named edge if it is at the ends that the
clause names and has the cells of the edge. -/
theorem agree_negated_iff :
    (g.frame o).agree (g.relationFrame .edge tag) (ends ++ g.schema.edgeDemand tag edge) l r = true ↔
      (g.frame o).agree (g.relationFrame .edge tag) ends l r = true ∧
        ∀ column ∈ g.edges.names, ((g.frame o).cell l (qualified edge.column column)).key =
          (g.edges.cellAt r column).key := by
  have hleft : ∀ e ∈ ends, ∀ e' ∈ g.schema.edgeDemand tag edge, e'.left ≠ e.left := by
    intro e he e' he'
    rw [Schema.edgeDemand, if_pos hname] at he'
    obtain ⟨column, -, rfl⟩ := List.mem_map.1 he'
    exact (hends e he column).symm
  rw [Frame.agree_append hleft, Bool.and_eq_true, all_edgeDemand_iff hrelational hb hkind hname]

/-- If some edge with the ends that a negated clause names has the reserved cells of the edge that
it names, the clause forbids an edge: that edge itself. -/
theorem exists_agree_negated (hl : l ∈ (g.frame o).rows)
    (hright : ∀ e ∈ ends, ∃ column ∈ g.bareColumns .edge, e.right = qualified tag column)
    (hagree : (g.frame o).agree (g.relationFrame .edge tag) ends l r = true)
    (hreserved : ∀ column ∈ g.bareColumns .edge,
      ((g.frame o).cell l (qualified edge.column column)).key = (g.edges.cellAt r column).key) :
    ∃ r' ∈ g.edges.rows, (g.frame o).agree (g.relationFrame .edge tag)
      (ends ++ g.schema.edgeDemand tag edge) l r' = true := by
  have hmem := part_mem hrelational hb hl
  rw [hkind] at hmem
  refine ⟨g.part (g.frame o) l edge, hmem, ?_⟩
  rw [agree_negated_iff hrelational hb hkind hname hends]
  refine ⟨?_, fun column hcolumn => by rw [cellAt_part_edge _ _ hkind hcolumn]⟩
  rw [← hagree]
  exact agree_part_edge hkind g.bareColumns_subset hright hreserved

end Negated

section Cut

variable (hrelational₀ : (o.plan g.bare.schema).Relational) (hb : edge ∈ o.bindings)
  (hkind : edge.kind = .edge) (hname : edge.name.isSome = true)
  (hends : ∀ e ∈ ends, ∀ column, e.left ≠ qualified edge.column column)
  (hcut : (g.bare.frame o).Cut (g.frame o))
  (hgrounded : Plan.Grounded ends (g.bare.frame o).names (g.bare.relationFrame .edge tag).names)

/-- The cells of a bare row of edges. -/
theorem cellAt_bare (tag : String) (r : Row) (hcolumn : column ∈ (g.bare.relations.table .edge).names) :
    g.bare.edges.cellAt ((g.bare.relationFrame .edge tag).names.map
      ((g.relationFrame .edge tag).cell r)) column = g.edges.cellAt r column := by
  have hmem : qualified tag column ∈ (g.bare.relationFrame .edge tag).names :=
    List.mem_map_of_mem hcolumn
  have hcell := Frame.Cut.cell_eq (f := g.relationFrame .edge tag) hmem r
  rwa [cell_relationFrame, cell_relationFrame] at hcell

include hrelational₀ hb hkind hname hends hcut hgrounded

/-- Without attributes, a row of edges is forbidden by a negated clause with a named edge if it is
at the ends that the clause names and has the reserved cells of the edge. -/
theorem agree_negated_bare_iff (l r : Row) :
    (g.bare.frame o).agree (g.bare.relationFrame .edge tag)
        (ends ++ g.bare.schema.edgeDemand tag edge)
        ((g.bare.frame o).names.map ((g.frame o).cell l))
        ((g.bare.relationFrame .edge tag).names.map ((g.relationFrame .edge tag).cell r)) = true ↔
      (g.frame o).agree (g.relationFrame .edge tag) ends l r = true ∧
        ∀ column ∈ g.bareColumns .edge, ((g.frame o).cell l (qualified edge.column column)).key =
          (g.edges.cellAt r column).key := by
  rw [agree_negated_iff hrelational₀ hb hkind hname hends,
    hcut.agree_eq (relationFrame_cut .edge tag) hgrounded]
  refine and_congr_right fun _ => ?_
  have hnames : g.bare.edges.names = g.bareColumns .edge := names_bare .edge
  rw [hnames]
  refine forall₂_congr fun column hcolumn => ?_
  rw [← names_bare] at hcolumn
  rw [Frame.Cut.cell_eq (mem_names_frame hb (hkind ▸ hcolumn)), cellAt_bare tag r hcolumn]

/-- With and without attributes, a negated clause with a named edge forbids edges for the same
rows. -/
theorem any_agree_negated_named (hrelational : (o.plan g.schema).Relational)
    (hl : l ∈ (g.frame o).rows) :
    (g.bare.relationFrame .edge tag).rows.any ((g.bare.frame o).agree
        (g.bare.relationFrame .edge tag) (ends ++ g.bare.schema.edgeDemand tag edge)
        ((g.bare.frame o).names.map ((g.frame o).cell l))) =
      (g.relationFrame .edge tag).rows.any ((g.frame o).agree (g.relationFrame .edge tag)
        (ends ++ g.schema.edgeDemand tag edge) l) := by
  have hbare := agree_negated_bare_iff hrelational₀ hb hkind hname hends hcut hgrounded l
  rw [(relationFrame_cut .edge tag).rows, List.any_map, rows_relationFrame, Bool.eq_iff_iff,
    List.any_eq_true, List.any_eq_true]
  constructor
  · rintro ⟨r, -, hagree⟩
    obtain ⟨hagree, hreserved⟩ := (hbare r).1 hagree
    have hrights : ∀ e ∈ ends, ∃ column ∈ g.bareColumns .edge, e.right = qualified tag column := by
      intro e he
      obtain ⟨column, hcolumn, heq⟩ := List.mem_map.1 (hgrounded e he).2
      rw [columns_eq, names_bare] at hcolumn
      exact ⟨column, hcolumn, heq.symm⟩
    exact exists_agree_negated hrelational hb hkind hname hends hl hrights hagree hreserved
  · rintro ⟨r, hr, hagree⟩
    obtain ⟨hagree, hkeys⟩ := (agree_negated_iff hrelational hb hkind hname hends).1 hagree
    refine ⟨r, hr, (hbare r).2 ⟨hagree, ?_⟩⟩
    intro column hcolumn
    exact hkeys column (g.bareColumns_subset column hcolumn)

end Cut

/-- With and without attributes, a negated clause forbids edges for the same rows. -/
theorem any_agree_negated (hrelational : (o.plan g.schema).Relational)
    (hrelational₀ : (o.plan g.bare.schema).Relational)
    (hcut : (g.bare.frame o).Cut (g.frame o))
    (hgrounded : Plan.Grounded ends (g.bare.frame o).names (g.bare.relationFrame .edge tag).names)
    (hedge : edge.name.isSome = true → edge ∈ o.bindings ∧ edge.kind = .edge ∧
      ∀ e ∈ ends, ∀ column, e.left ≠ qualified edge.column column)
    (hl : l ∈ (g.frame o).rows) :
    (g.bare.relationFrame .edge tag).rows.any ((g.bare.frame o).agree
        (g.bare.relationFrame .edge tag) (ends ++ g.bare.schema.edgeDemand tag edge)
        ((g.bare.frame o).names.map ((g.frame o).cell l))) =
      (g.relationFrame .edge tag).rows.any ((g.frame o).agree (g.relationFrame .edge tag)
        (ends ++ g.schema.edgeDemand tag edge) l) := by
  by_cases hname : edge.name.isSome = true
  · obtain ⟨hb, hkind, hends⟩ := hedge hname
    exact any_agree_negated_named hrelational₀ hb hkind hname hends hcut hgrounded hrelational hl
  · -- a clause without an edge compares ends only, and these are reserved
    have hnone (s : Schema) : ends ++ s.edgeDemand tag edge = ends := by
      rw [Schema.edgeDemand, if_neg hname, List.append_nil]
    have hright : (g.bare.relationFrame .edge tag).Cut (g.relationFrame .edge tag) :=
      relationFrame_cut .edge tag
    rw [hnone, hnone]
    exact hcut.any_agree_eq hright hgrounded l

/-- The frame of an outline over the bare graph is the frame over the graph, cut down to the
reserved columns. -/
theorem frame_cut (hrelational : (o.plan g.schema).Relational)
    (hrelational₀ : (o.plan g.bare.schema).Relational)
    (hcheck : (o.plan g.bare.schema).check = .ok ()) (hsound : o.Sound) :
    (g.bare.frame o).Cut (g.frame o) := by
  induction o with
  | scan b => exact relationFrame_cut b.kind b.column
  | join o b equalities ih =>
    obtain ⟨hgrounded, hcheck, -⟩ := Plan.check_join.1 hcheck
    rw [← Plan.names_frame (r := g.bare.relations) hrelational₀.1] at hgrounded
    refine Frame.Cut.join (ih hrelational.1 hrelational₀.1 hcheck hsound)
      (relationFrame_cut b.kind b.column) hgrounded
      (fun l hl => Plan.length_of_mem_rows hrelational.1 hl) fun name hname => ?_
    exact notMem_names_of_relational hrelational hname
  | filter o equalities ih =>
    obtain ⟨hgrounded, hcheck⟩ := Plan.check_filter.1 hcheck
    have hchild : (o.plan g.bare.schema).Relational := hrelational₀
    rw [← Plan.names_frame (r := g.bare.relations) hchild] at hgrounded
    exact (ih hrelational hrelational₀ hcheck hsound).filter hgrounded
  | antiJoin o tag ends edge ih =>
    obtain ⟨hgrounded, hcheck, -⟩ := Plan.check_antiJoin.1 hcheck
    rw [← Plan.names_frame (r := g.bare.relations) hrelational₀.1] at hgrounded
    have hcut := ih hrelational.1 hrelational₀.1 hcheck hsound.1
    exact hcut.antiJoin fun l hl => any_agree_negated hrelational.1 hrelational₀.1 hcut
      (fun e he => hgrounded e (List.mem_append_left _ he)) hsound.2 hl

/-! ## Results -/

theorem resultLabels_bare_subset : ∀ label ∈ g.bare.resultLabels p, label ∈ g.resultLabels p := by
  intro label hlabel
  obtain ⟨kind, name, hs, column, hcolumn, rfl⟩ := mem_resultLabels.1 hlabel
  exact mem_resultLabels.2 ⟨kind, name, hs, column, mem_names_of_bare hcolumn, rfl⟩

/-- Under the labels of the bare result, a cut row shows what the row shows. -/
theorem shownCell_cut {plan : MatchPlan} {r : Resolution} (h : g.Outlined p plan r o)
    (row : Row) {label : Label} (hlabel : label ∈ g.bare.resultLabels p) :
    shownCell r.bindings (g.bare.frame o) ((g.bare.frame o).names.map ((g.frame o).cell row)) label =
      shownCell r.bindings (g.frame o) row label := by
  obtain ⟨kind, name, hs, column, hcolumn, rfl⟩ := mem_resultLabels.1 hlabel
  obtain ⟨b, hb, rfl, hname⟩ := h.exists_binding hs
  rw [shownCell_eq h.isScope (h.subset b hb) hname, shownCell_eq h.isScope (h.subset b hb) hname]
  exact Frame.Cut.cell_eq (mem_names_frame hb hcolumn) row

/-- Attributes do not influence which matches are found: the result over the graph without them is
the result over the whole graph, cut down to the reserved columns of the visible elements. The
pattern is refused in both or in none, and either search may stop for keys that cannot be
compared. -/
theorem find_bare (g : Graph) (p : Pattern) :
    ((∃ e, g.find p = .error (.compile e)) ∧ ∃ e, g.bare.find p = .error (.compile e)) ∨
      (∃ a b, g.find p = .error (.eval (.incomparableKeys a b))) ∨
        (∃ a b, g.bare.find p = .error (.eval (.incomparableKeys a b))) ∨
          ∃ t t₀, g.find p = .ok t ∧ g.bare.find p = .ok t₀ ∧ t.names = g.resultLabels p ∧
            t₀.names = g.bare.resultLabels p ∧ t₀.rows.Perm (t.select t₀.names).rows := by
  rcases g.schema.compilePattern_cases p with ⟨hbound, plan, hplan, -⟩ | ⟨hbound, e, he⟩
  · rcases g.bare.schema.compilePattern_cases p with ⟨-, plan₀, hplan₀, -⟩ | ⟨hbound₀, -⟩
    · refine .inr ((find_both hplan hplan₀).imp_right (.imp_right ?_))
      rintro ⟨t, t₀, ⟨hfind, hnames⟩, ⟨hfind₀, hnames₀⟩, hrows⟩
      refine ⟨t, t₀, hfind, hfind₀, hnames, hnames₀, .of_eq ?_⟩
      rcases hrows with ⟨-, hrows, hrows₀⟩ | ⟨r, o, h, h₀, hrows, hrows₀⟩
      · show t₀.rows = t.rows.map _
        rw [hrows₀, hrows]
        rfl
      · have hcut := frame_cut h.relational h₀.relational h₀.check_child h.sound
        have hsubset : ∀ label ∈ t₀.names, label ∈ t.names := by
          rw [hnames, hnames₀]
          exact resultLabels_bare_subset
        rw [Table.rows_select hrows hsubset, hrows₀, hcut.rows, List.map_map]
        refine List.map_congr_left fun row _ => List.map_congr_left fun label hlabel => ?_
        rw [hnames₀] at hlabel
        exact shownCell_cut h row hlabel
    · exact absurd hbound hbound₀
  · rcases g.bare.schema.compilePattern_cases p with ⟨hbound₀, -⟩ | ⟨-, e₀, he₀⟩
    · exact absurd hbound₀ hbound
    · exact .inl ⟨⟨_, find_eq_error_of_compile he⟩, _, find_eq_error_of_compile he₀⟩

end Graph

end GraphMotif
