import GraphMotif.Proofs.Graph.Ends
import GraphMotif.Proofs.Plan.Cut
import GraphMotif.Proofs.Plan.Erasing

/-!
# Frames without a lookup

Looking up the vertex at an end of an edge leaves of every row at most one, if identities are
unique: it selects the rows whose edge has a vertex at that end, and adds the cells of the vertex.
Whatever is joined, filtered and anti-joined afterwards, this remains so. The match may make the end
a mixed column, but the end then meets identities by value as it did before.
-/

namespace GraphMotif

namespace Frame

/-- The frame with its columns stored as in another one. -/
def storedAs (f other : Frame) : Frame := { f with kind := other.kind }

namespace Cut

variable {f₀ f₁ f : Frame}

theorem refl (h : ∀ row ∈ f.rows, f.names.map (f.cell row) = row) : f.Cut f where
  names _ hname := hname
  kind _ _ := rfl
  rows := ((List.map_congr_left h).trans (List.map_id _)).symm

/-- How the columns of the cut frame are stored need not be looked at. -/
theorem storedAs_of_eq (h : f₀.Cut f) (hnames : f₁.names = f₀.names) (hrows : f₁.rows = f₀.rows) :
    (f₁.storedAs f).Cut f where
  names := hnames ▸ h.names
  kind _ _ := rfl
  rows := by
    show f₁.rows = f.rows.map fun row => f₁.names.map (f.cell row)
    rw [hrows, hnames, h.rows]

end Cut

variable {left left' right : Frame} {equalities : List Equality} {name : String}

/-- A match does not change how other columns are stored. -/
theorem kind_meeting_of_ne (h : ∀ e ∈ equalities, e.left ≠ name) :
    (left.meeting right equalities).kind name = left.kind name :=
  show (left.meeting right ([] ++ equalities)).kind name = (left.meeting right []).kind name from
    kind_meeting_append h

theorem kind_meeting_congr (h : left.kind name = left'.kind name) :
    (left.meeting right equalities).kind name = (left'.meeting right equalities).kind name := by
  simp only [meeting, h]

/-- Rows agree whichever of two ways their left columns are stored in, if the right ones meet both
alike. -/
theorem agree_storedAs (h : ∀ e ∈ equalities, ∀ x y,
      ((left.meeting right equalities).kind e.left).equal (right.kind e.right) x y =
        ((left'.meeting right equalities).kind e.left).equal (right.kind e.right) x y) (l r : Row) :
    (left'.storedAs left).agree right equalities l r = left'.agree right equalities l r :=
  all_congr_of_mem fun e he => congrArg (fun b => b || _) (h e he _ _)

theorem rows_join_storedAs (h : ∀ e ∈ equalities, ∀ x y,
      ((left.meeting right equalities).kind e.left).equal (right.kind e.right) x y =
        ((left'.meeting right equalities).kind e.left).equal (right.kind e.right) x y) :
    ((left'.storedAs left).join right equalities).rows = (left'.join right equalities).rows :=
  List.flatMap_congr fun l _ =>
    congrArg (List.map (l ++ ·)) (List.filter_congr fun r _ => agree_storedAs h l r)

theorem rows_antiJoin_storedAs (h : ∀ e ∈ equalities, ∀ x y,
      ((left.meeting right equalities).kind e.left).equal (right.kind e.right) x y =
        ((left'.meeting right equalities).kind e.left).equal (right.kind e.right) x y) :
    ((left'.storedAs left).antiJoin right equalities).rows = (left'.antiJoin right equalities).rows :=
  List.filter_congr fun l _ =>
    congrArg (fun b => !b) (any_congr_of_mem fun r _ => agree_storedAs h l r)

theorem rows_filter_storedAs (h : ∀ e ∈ equalities, ∀ x y,
      (left.kind e.left).equal (left.kind e.right) x y =
        (left'.kind e.left).equal (left'.kind e.right) x y) :
    ((left'.storedAs left).filter equalities).rows = (left'.filter equalities).rows :=
  List.filter_congr fun _ _ => all_congr_of_mem fun e he => congrArg (fun b => b || _) (h e he _ _)

/-- Rows can be selected on the left of a join instead of after it. -/
theorem join_filterRows_left {p keep : Row → Bool}
    (h : ∀ l ∈ left.rows, ∀ r ∈ right.rows, keep (l ++ r) = p l) :
    (left.filterRows p).join right equalities = (left.join right equalities).filterRows keep := by
  have hright : right.filterRows (fun _ => true) = right := filterRows_of_all fun _ _ => rfl
  rw [← join_filterRows fun l hl r hr => (h l hl r hr).trans (Bool.and_true _).symm, hright]

end Frame

/-- A column meets one of the kind that it has, or had before matches made it mixed, by value. -/
theorem ColumnKind.equal_of_stored {kind stored : ColumnKind} (h : stored = kind ∨ stored = .mixed)
    (x y : Value) : stored.equal kind x y = x.same y := by
  rcases h with rfl | rfl
  · exact equal_self ..
  · exact mixed_equal ..

namespace Graph

/-- The plan of an outline over a graph is relational and checked, its scans have tags, and the
outline compares identities of vertices with ends of edges, and edges that are there with forbidden
ones. -/
structure Supports (g : Graph) (o : Outline) : Prop where
  relational : (o.plan g.schema).Relational
  check : (o.plan g.schema).check = .ok ()
  isTag : ∀ b ∈ o.bindings, IsTag b.column
  proper : o.Proper
  sound : o.Sound

variable {g : Graph} {o o' : Outline} {b v edge : Binding} {side tag name : String}
  {equalities : List Equality} {row l : Row} {kind kind' identity : ColumnKind}

theorem Outlined.supports {p : Pattern} {plan : MatchPlan} {r : Resolution}
    (h : g.Outlined p plan r o) : g.Supports o :=
  ⟨h.relational, h.check_child, fun _ => h.isTag_column, h.proper, h.sound⟩

namespace Supports

theorem of_join (h : g.Supports (o.join b equalities)) : g.Supports o :=
  ⟨h.relational.1, (Plan.check_join.1 h.check).2.1, fun b hb => h.isTag b (List.mem_append_left _ hb),
    h.proper.1, h.sound⟩

theorem of_filter (h : g.Supports (o.filter equalities)) : g.Supports o :=
  ⟨h.relational, (Plan.check_filter.1 h.check).2, h.isTag, h.proper.1, h.sound⟩

theorem of_antiJoin {ends : List Equality} (h : g.Supports (o.antiJoin tag ends b)) : g.Supports o :=
  ⟨h.relational.1, (Plan.check_antiJoin.1 h.check).2.1, h.isTag, h.proper.1, h.sound.1⟩

end Supports

/-! ## How columns are stored -/

/-- An identity meets an end alike in all ways in which that may be stored. -/
theorem EndStored.equal_congr (h : g.EndStored side kind) (h' : g.EndStored side kind')
    (hid : identity = g.vertices.kindAt idColumn ∨ identity = .mixed) (x y : Value) :
    identity.equal kind x y = identity.equal kind' x y := by
  rcases hid with rfl | rfl
  · rw [h.equal_eq, h'.equal_eq]
  · rw [ColumnKind.mixed_equal, ColumnKind.mixed_equal]

theorem kind_frame_join (hname : name ∈ (g.frame o).names) :
    (g.frame (o.join b equalities)).kind name =
      ((g.frame o).meeting (g.bindingFrame b) equalities).kind name := if_pos hname

theorem kind_frame_join_right (hname : name ∉ (g.frame o).names) :
    (g.frame (o.join b equalities)).kind name = (g.bindingFrame b).kind name := if_neg hname

theorem names_of_omits (h : Outline.Omits v edge side o' o) :
    ∀ name ∈ (g.frame o').names, name ∈ (g.frame o).names := by
  intro name hname
  rw [names_frame] at hname ⊢
  obtain ⟨b, hb, hname⟩ := List.mem_flatMap.1 hname
  exact List.mem_flatMap.2 ⟨b, h.subset b hb, hname⟩

/-- A lookup only changes how the end is stored that it looks up. -/
theorem kind_of_omits (h : Outline.Omits v edge side o' o) (hrelational : (o.plan g.schema).Relational)
    (hname : name ∈ (g.frame o').names) (hne : name ≠ qualified edge.column side) :
    (g.frame o).kind name = (g.frame o').kind name := by
  induction h with
  | lookup =>
    rw [kind_frame_join hname]
    exact Frame.kind_meeting_of_ne (List.forall_mem_singleton.2 (Ne.symm hne))
  | @join o' o b equalities h ih =>
    by_cases hmem : name ∈ (g.frame o').names
    · rw [kind_frame_join hmem, kind_frame_join (names_of_omits h name hmem)]
      exact Frame.kind_meeting_congr (ih hrelational.1 hmem)
    · have htagged : name ∈ g.schema.tagged b := (List.mem_append.1 hname).resolve_left hmem
      rw [kind_frame_join_right hmem,
        kind_frame_join_right (notMem_names_of_relational hrelational htagged)]
  | filter _ _ ih => exact ih hrelational hname
  | antiJoin _ _ _ _ ih => exact ih hrelational.1 hname

section Agree

variable (h : Outline.Omits v edge side o' o) (hside : side ∈ [srcColumn, dstColumn])

include h hside

/-- With and without the lookup, identities are stored alike. -/
theorem kind_idColumn_of_omits (hsupports : g.Supports o) (hb : b ∈ o'.bindings)
    (hvertex : b.kind = .vertex) :
    (g.frame o).kind b.idColumn = (g.frame o').kind b.idColumn := by
  refine kind_of_omits h hsupports.relational (mem_names_frame hb (hvertex ▸ g.idColumn_mem)) ?_
  exact idColumn_ne (hsupports.isTag b (h.subset b hb))
    (hsupports.isTag edge (h.subset edge h.edge_mem)) hside

/-- With and without the lookup, the same rows agree in a join. -/
theorem equal_join_of_omits (hsupports : g.Supports (o.join b equalities))
    (hsupports' : g.Supports (o'.join b equalities)) :
    ∀ e ∈ equalities, ∀ x y,
      (((g.frame o).meeting (g.bindingFrame b) equalities).kind e.left).equal
          ((g.bindingFrame b).kind e.right) x y =
        (((g.frame o').meeting (g.bindingFrame b) equalities).kind e.left).equal
          ((g.bindingFrame b).kind e.right) x y := by
  intro e he x y
  cases hsupports'.proper.2 e he with
  | @meets w edge' side' hw hvertex hedge' hkind hside' =>
    show ColumnKind.equal (((g.frame o).meeting _ _).kind w.idColumn) _ x y =
      ColumnKind.equal (((g.frame o').meeting _ _).kind w.idColumn) _ x y
    rw [Frame.kind_meeting_congr (kind_idColumn_of_omits h hside hsupports.of_join hw hvertex)]
  | @leadsTo w edge' side' hedge' hkind hw hvertex hside' =>
    obtain rfl := List.mem_singleton.1 hw
    have hcolumn : side' ∈ (g.relations.table edge'.kind).names := hkind ▸ g.side_mem hside'
    have hname := mem_names_frame (g := g) hedge' hcolumn
    have hend := kind_end hsupports.relational hsupports.proper hsupports.isTag
      (List.mem_append_left _ (h.subset edge' hedge')) hkind hside'
    have hend' := kind_end hsupports'.relational hsupports'.proper hsupports'.isTag
      (List.mem_append_left _ hedge') hkind hside'
    rw [kind_frame_join hname] at hend'
    rw [kind_frame_join (names_of_omits h _ hname)] at hend
    have hequal := hend.equal_congr hend' (.inl (kind_bindingFrame_id hvertex)) y x
    exact (ColumnKind.equal_comm ..).trans (hequal.trans (ColumnKind.equal_comm ..))

/-- With and without the lookup, the same rows pass a filter. -/
theorem equal_filter_of_omits (hsupports : g.Supports (o.filter equalities))
    (hsupports' : g.Supports (o'.filter equalities)) :
    ∀ e ∈ equalities, ∀ x y,
      ((g.frame o).kind e.left).equal ((g.frame o).kind e.right) x y =
        ((g.frame o').kind e.left).equal ((g.frame o').kind e.right) x y := by
  have hmeets {w edge' : Binding} {side' : String} (hw : w ∈ o'.bindings) (hvertex : w.kind = .vertex)
      (hedge' : edge' ∈ o'.bindings) (hkind : edge'.kind = .edge)
      (hside' : side' ∈ [srcColumn, dstColumn]) (x y : Value) :
      ((g.frame o).kind w.idColumn).equal ((g.frame o).kind (qualified edge'.column side')) x y =
        ((g.frame o').kind w.idColumn).equal ((g.frame o').kind (qualified edge'.column side')) x y := by
    rw [kind_idColumn_of_omits h hside hsupports.of_filter hw hvertex]
    exact (kind_end hsupports.relational hsupports.proper hsupports.isTag (h.subset edge' hedge')
      hkind hside').equal_congr (kind_end hsupports'.relational hsupports'.proper hsupports'.isTag
        hedge' hkind hside') (kind_id hsupports'.relational hw hvertex) x y
  intro e he x y
  cases hsupports'.proper.2 e he with
  | meets hw hvertex hedge' hkind hside' => exact hmeets hw hvertex hedge' hkind hside' x y
  | leadsTo hedge' hkind hw hvertex hside' =>
    exact (ColumnKind.equal_comm ..).trans
      ((hmeets hw hvertex hedge' hkind hside' y x).trans (ColumnKind.equal_comm ..))

/-- With and without the lookup, the same edges are forbidden. -/
theorem equal_antiJoin_of_omits {ends : List Equality}
    (hsupports : g.Supports (o.antiJoin tag ends b)) (hsupports' : g.Supports (o'.antiJoin tag ends b)) :
    ∀ e ∈ ends ++ g.schema.edgeDemand tag b, ∀ x y,
      (((g.frame o).meeting (g.relationFrame .edge tag) (ends ++ g.schema.edgeDemand tag b)).kind
          e.left).equal ((g.relationFrame .edge tag).kind e.right) x y =
        (((g.frame o').meeting (g.relationFrame .edge tag) (ends ++ g.schema.edgeDemand tag b)).kind
          e.left).equal ((g.relationFrame .edge tag).kind e.right) x y := by
  intro e he x y
  rcases List.mem_append.1 he with he | he
  · cases hsupports'.proper.2 e he with
    | @meets w edge' side' hw hvertex hedge' hkind hside' =>
      show ColumnKind.equal (((g.frame o).meeting _ _).kind w.idColumn) _ x y =
        ColumnKind.equal (((g.frame o').meeting _ _).kind w.idColumn) _ x y
      rw [Frame.kind_meeting_congr (kind_idColumn_of_omits h hside hsupports.of_antiJoin hw hvertex)]
    | leadsTo _ _ hw hvertex =>
      obtain rfl := List.mem_singleton.1 hw
      exact absurd hvertex nofun
  · rw [Schema.edgeDemand] at he
    split at he
    · next hname =>
      -- the cells of an edge meet by value
      obtain ⟨hb, hkind, -⟩ := hsupports'.sound.2 hname
      obtain ⟨column, hcolumn, rfl⟩ := List.mem_map.1 he
      have hcolumn : column ∈ (g.relations.table .edge).names := hcolumn
      have hstored {o : Outline} (hrelational : (o.plan g.schema).Relational) (hb : b ∈ o.bindings) :
          ((g.frame o).meeting (g.relationFrame .edge tag)
            (ends ++ g.schema.edgeDemand tag b)).kind (qualified b.column column) =
              g.edges.kindAt column ∨
          ((g.frame o).meeting (g.relationFrame .edge tag)
            (ends ++ g.schema.edgeDemand tag b)).kind (qualified b.column column) = .mixed := by
        have hkindb := kind_frame hrelational hb (hkind ▸ hcolumn)
        rw [hkind] at hkindb
        exact Frame.stored_meeting _ _ hkindb
      have hright : (g.relationFrame .edge tag).kind (qualified tag column) = g.edges.kindAt column :=
        kind_relationFrame tag hcolumn
      show ColumnKind.equal (((g.frame o).meeting _ _).kind (qualified b.column column))
          ((g.relationFrame .edge tag).kind (qualified tag column)) x y =
        ColumnKind.equal (((g.frame o').meeting _ _).kind (qualified b.column column))
          ((g.relationFrame .edge tag).kind (qualified tag column)) x y
      rw [hright, ColumnKind.equal_of_stored (hstored hsupports.of_antiJoin.relational (h.subset b hb)),
        ColumnKind.equal_of_stored (hstored hsupports'.of_antiJoin.relational hb)]
    · exact absurd he List.not_mem_nil

end Agree

/-! ## The rows that are left -/

/-- The items that pass a test which one item at most passes. -/
theorem map_const_filter {α β : Type} {xs : List α} {p : α → Bool} (hnodup : xs.Nodup)
    (hunique : ∀ x ∈ xs, ∀ y ∈ xs, p x = true → p y = true → x = y) (b : β) :
    (xs.filter p).map (fun _ => b) = if xs.any p then [b] else [] := by
  induction xs with
  | nil => rfl
  | cons x xs ih =>
    obtain ⟨hx, hnodup⟩ := List.nodup_cons.1 hnodup
    obtain ⟨hfirst, hrest⟩ := List.forall_mem_cons.1 hunique
    cases hp : p x with
    | true =>
      have hnone : xs.filter p = [] := List.filter_eq_nil_iff.2 fun y hy hpy =>
        hx (hfirst y (List.mem_cons_of_mem _ hy) hp hpy ▸ hy)
      rw [List.filter_cons_of_pos hp, hnone, List.any_cons, hp, Bool.true_or, if_pos rfl]
      rfl
    | false =>
      rw [List.filter_cons_of_neg (Bool.eq_false_iff.1 hp), List.any_cons, hp, Bool.false_or]
      exact ih hnodup fun y hy z hz => hrest y hy z (List.mem_cons_of_mem _ hz)

theorem nodup_names_frame (h : (o.plan g.schema).Relational) : (g.frame o).names.Nodup := by
  induction o with
  | scan b => exact h.2.map (qualified_injective b.column)
  | join o b equalities ih =>
    refine (ih h.1).append (h.2.1.2.map (qualified_injective b.column)) fun name hname htagged => ?_
    exact notMem_names_of_relational h htagged hname
  | filter o equalities ih => exact ih h
  | antiJoin o tag ends b ih => exact ih h.1

theorem map_cell_names (h : (o.plan g.schema).Relational) (hrow : row ∈ (g.frame o).rows) :
    (g.frame o).names.map ((g.frame o).cell row) = row :=
  Row.map_cell_idxOf (nodup_names_frame h) (Plan.length_of_mem_rows h hrow)

/-- An end of an edge is equal to one identity at most, also where identities are rounded to meet
it. -/
def Identifies (g : Graph) (side : String) : Prop :=
  g.vertices.kindAt idColumn = .int → g.edges.kindAt side = .float → ∀ e ∈ g.edges.rows,
    ∀ vertex ∈ g.vertices.rows, ∀ vertex' ∈ g.vertices.rows, g.atEnd side vertex e = true →
      g.atEnd side vertex' e = true → vertex = vertex'

/-- One vertex at most is at an end of an edge. -/
theorem Identifies.eq_of_atEnd (h : g.Identifies side) {e vertex vertex' : Row} (he : e ∈ g.edges.rows)
    (hvertex : vertex ∈ g.vertices.rows) (hvertex' : vertex' ∈ g.vertices.rows)
    (hend : g.atEnd side vertex e = true) (hend' : g.atEnd side vertex' e = true) :
    vertex = vertex' := by
  by_cases hkinds : g.vertices.kindAt idColumn = .int ∧ g.edges.kindAt side = .float
  · exact h hkinds.1 hkinds.2 e he vertex hvertex vertex' hvertex' hend hend'
  · exact Graph.eq_of_atEnd hkinds hvertex hvertex' hend hend'

theorem nodup_vertices_rows (g : Graph) : g.vertices.rows.Nodup := g.nodup_idKeys.of_map _

section Lookup

variable (hvertex : v.kind = .vertex) (hkind : edge.kind = .edge) (hside : side ∈ [srcColumn, dstColumn])

include hvertex hkind hside

/-- A vertex is looked up for a row if it is at the end of its edge. -/
theorem agree_lookup (hedge : edge ∈ o.bindings)
    (hsupports : g.Supports (o.join v [edge.leadsTo v side])) {vertex : Row}
    (hrow : vertex ∈ g.vertices.rows) (l : Row) :
    (g.frame o).agree (g.bindingFrame v) [edge.leadsTo v side] l vertex =
      g.atEnd side vertex (g.part (g.frame o) l edge) := by
  have hcolumn : side ∈ (g.relations.table edge.kind).names := hkind ▸ g.side_mem hside
  have hend := kind_end hsupports.relational hsupports.proper hsupports.isTag
    (List.mem_append_left _ hedge) hkind hside
  rw [kind_frame_join (mem_names_frame hedge hcolumn)] at hend
  have hcell : (g.bindingFrame v).cell vertex v.idColumn = g.vertices.cellAt vertex idColumn := by
    rw [← idCell_part (g.bindingFrame v) vertex hvertex, part_bindingFrame]
    rw [hvertex]
    exact hrow
  rw [Frame.agree, List.all_cons, List.all_nil, Bool.and_true, Frame.holds_leadsTo, hcell,
    kind_bindingFrame_id hvertex, ColumnKind.equal_comm, hend.equal_eq, atEnd,
    endCell_part (g.frame o) l hkind hside]
  rfl

/-- Looking up the vertex at an end leaves the rows whose edge has a vertex there. -/
theorem cut_lookup (hedge : edge ∈ o.bindings)
    (hsupports : g.Supports (o.join v [edge.leadsTo v side])) (hunique : g.Identifies side) :
    (((g.frame o).filterRows fun row => g.hasVertexAt side (g.part (g.frame o) row edge)).storedAs
      (g.frame (o.join v [edge.leadsTo v side]))).Cut (g.frame (o.join v [edge.leadsTo v side])) where
  names name hname := List.mem_append_left _ hname
  kind _ _ := rfl
  rows := by
    show (g.frame o).rows.filter _ = ((g.frame o).rows.flatMap fun l => ((g.bindingFrame v).rows.filter
      ((g.frame o).agree (g.bindingFrame v) [edge.leadsTo v side] l)).map (l ++ ·)).map _
    rw [List.map_flatMap, ← List.flatMap_singleton' ((g.frame o).rows.filter _), flatMap_filter]
    refine List.flatMap_congr fun l hl => ?_
    have hpart := edge_mem hsupports.of_join.relational hedge hkind hl
    have hrows : (g.bindingFrame v).rows = g.vertices.rows := by
      rw [rows_bindingFrame, hvertex]
      rfl
    have hagree : g.vertices.rows.filter
        ((g.frame o).agree (g.bindingFrame v) [edge.leadsTo v side] l) =
          g.vertices.rows.filter (g.atEnd side · (g.part (g.frame o) l edge)) :=
      List.filter_congr fun vertex hrow => agree_lookup hvertex hkind hside hedge hsupports hrow l
    rw [hrows, hagree, List.map_map]
    have hcells (r : Row) :
        (g.frame o).names.map ((g.frame (o.join v [edge.leadsTo v side])).cell (l ++ r)) = l := by
      refine Eq.trans (List.map_congr_left fun name hname => ?_)
        (map_cell_names hsupports.of_join.relational hl)
      exact Frame.cell_join_left hname (Plan.length_of_mem_rows hsupports.of_join.relational hl)
    refine Eq.trans ?_ (List.map_congr_left fun r _ => (hcells r).symm)
    exact (map_const_filter g.nodup_vertices_rows
      (fun _ hx _ hy => hunique.eq_of_atEnd hpart hx hy) l).symm

end Lookup

theorem cut_relationFrame (kind : Element) (tag : String) :
    (g.relationFrame kind tag).Cut (g.relationFrame kind tag) := by
  refine .refl fun row hrow => ?_
  rw [rows_relationFrame] at hrow
  exact part_bindingFrame (b := { kind, column := tag, name := none, rank := 0 }) hrow

/-- The frame of an outline, cut down to the columns without a lookup, has the rows without the
lookup whose edge has a vertex at the end. -/
theorem cut_of_omits (h : Outline.Omits v edge side o' o) (hsupports : g.Supports o)
    (hsupports' : g.Supports o') (hvertex : v.kind = .vertex) (hkind : edge.kind = .edge)
    (hside : side ∈ [srcColumn, dstColumn]) (hunique : g.Identifies side) :
    (((g.frame o').filterRows fun row => g.hasVertexAt side (g.part (g.frame o') row edge)).storedAs
      (g.frame o)).Cut (g.frame o) := by
  induction h with
  | lookup hedge => exact cut_lookup hvertex hkind hside hedge hsupports hunique
  | @join o' o b equalities h ih =>
    have hgrounded := (Plan.check_join.1 hsupports'.check).1
    rw [← Plan.names_frame (r := g.relations) hsupports'.of_join.relational] at hgrounded
    have hjoin := (ih hsupports.of_join hsupports'.of_join).join (cut_relationFrame b.kind b.column)
      hgrounded (fun l hl => Plan.length_of_mem_rows hsupports.of_join.relational hl)
      fun name hname => notMem_names_of_relational hsupports.relational hname
    refine hjoin.storedAs_of_eq rfl ?_
    have hkeep : ∀ l ∈ (g.frame o').rows, ∀ r ∈ (g.bindingFrame b).rows,
        g.hasVertexAt side (g.part (g.frame (o'.join b equalities)) (l ++ r) edge) =
          g.hasVertexAt side (g.part (g.frame o') l edge) := fun l hl r _ => by
      rw [part_join_left hsupports'.relational h.edge_mem hl]
    exact (congrArg Frame.rows (Frame.join_filterRows_left hkeep)).symm.trans
      (Eq.symm (Frame.rows_join_storedAs (equal_join_of_omits h hside hsupports hsupports')))
  | @filter o' o equalities h ih =>
    have hgrounded := (Plan.check_filter.1 hsupports'.check).1
    rw [← Plan.names_frame (r := g.relations) hsupports'.of_filter.relational] at hgrounded
    refine ((ih hsupports.of_filter hsupports'.of_filter).filter hgrounded).storedAs_of_eq rfl ?_
    exact (congrArg Frame.rows (Frame.filter_filterRows ..)).symm.trans
      (Eq.symm (Frame.rows_filter_storedAs (equal_filter_of_omits h hside hsupports hsupports')))
  | @antiJoin o' o tag ends b h ih =>
    have hgrounded := (Plan.check_antiJoin.1 hsupports'.check).1
    rw [← Plan.names_frame (r := g.relations) hsupports'.of_antiJoin.relational] at hgrounded
    have hcut := ih hsupports.of_antiJoin hsupports'.of_antiJoin
    have hright : (g.relationFrame .edge tag).Cut (g.relationFrame .edge tag) := cut_relationFrame ..
    refine (hcut.antiJoin fun l _ => hcut.any_agree_eq hright hgrounded l).storedAs_of_eq rfl ?_
    exact (congrArg Frame.rows (Frame.antiJoin_filterRows ..)).symm.trans
      (Eq.symm (Frame.rows_antiJoin_storedAs (equal_antiJoin_of_omits h hside hsupports hsupports')))

end Graph

end GraphMotif
