import GraphMotif.Proofs.Graph.Tabulate
import GraphMotif.Proofs.Plan.Frames
import GraphMotif.Proofs.Plan.Outline

/-!
# Parts of rows

In the frame of an outline, every row is made of parts, one for each binding: the cells under the
tag of the binding. A part is a row of the binding's relation, and a column of it is stored as in
the relation unless a match has made it mixed. None of this depends on how identities meet the ends
of edges.
-/

namespace GraphMotif

namespace Graph

variable (g : Graph)

/-- The frame of an outline over the tables of a graph. -/
def frame (o : Outline) : Frame := (o.plan g.schema).frame g.relations

/-- The part of a row that belongs to a binding. -/
def part (f : Frame) (row : Row) (b : Binding) : Row := (g.schema.tagged b).map (f.cell row)

/-- The relation of a kind under a tag. -/
def relationFrame (kind : Element) (tag : String) : Frame :=
  .scan (g.relations.table kind) tag (g.schema.columns kind)

/-- The relation of a binding under its tag. -/
def bindingFrame (b : Binding) : Frame := g.relationFrame b.kind b.column

variable {g} {o : Outline} {b b' : Binding} {f : Frame} {row : Row} {column : String}

theorem rows_relationFrame (kind : Element) (tag : String) :
    (g.relationFrame kind tag).rows = (g.relations.table kind).rows := by
  rw [relationFrame, columns_eq]
  exact rows_scan kind tag

theorem cell_relationFrame (kind : Element) (tag : String) (row : Row) (column : String) :
    (g.relationFrame kind tag).cell row (qualified tag column) =
      (g.relations.table kind).cellAt row column := by
  show row.cell (((g.schema.columns kind).map (qualified tag)).idxOf _) = _
  rw [idxOf_map_of_injective (qualified_injective tag), columns_eq]
  rfl

theorem kind_relationFrame {kind : Element} (tag : String)
    (hcolumn : column ∈ (g.relations.table kind).names) :
    (g.relationFrame kind tag).kind (qualified tag column) =
      (g.relations.table kind).kindAt column :=
  Frame.kind_scan _ _ (columns_eq g kind ▸ hcolumn)

theorem tagged_eq (b : Binding) :
    g.schema.tagged b = (g.relations.table b.kind).names.map (qualified b.column) := by
  rw [Schema.tagged, columns_eq]

theorem rows_bindingFrame (b : Binding) :
    (g.bindingFrame b).rows = (g.relations.table b.kind).rows :=
  rows_relationFrame b.kind b.column

/-- A column of a part is a cell of the row. -/
theorem cellAt_part (hcolumn : column ∈ (g.relations.table b.kind).names) :
    (g.relations.table b.kind).cellAt (g.part f row b) column =
      f.cell row (qualified b.column column) := by
  rw [Table.cellAt, part, tagged_eq, List.map_map]
  exact Row.cell_map_idxOf hcolumn _

/-- So it is for a column of the edge of a row. -/
theorem cellAt_part_edge (f : Frame) (row : Row) (hedge : b.kind = .edge)
    (hcolumn : column ∈ g.edges.names) :
    g.edges.cellAt (g.part f row b) column = f.cell row (qualified b.column column) := by
  have hcell : column ∈ (g.relations.table b.kind).names →
      (g.relations.table b.kind).cellAt (g.part f row b) column =
        f.cell row (qualified b.column column) := cellAt_part
  rw [hedge] at hcell
  exact hcell hcolumn

/-- A row of a relation is its only part. -/
theorem part_bindingFrame (hrow : row ∈ (g.relations.table b.kind).rows) :
    g.part (g.bindingFrame b) row b = row := by
  refine Eq.trans ?_ (Table.map_cellAt_names (g.nodup_names b.kind) hrow)
  rw [part, tagged_eq, List.map_map]
  exact List.map_congr_left fun column _ => cell_relationFrame b.kind b.column row column

/-! ## Frames of outlines -/

theorem names_frame (o : Outline) : (g.frame o).names = o.bindings.flatMap g.schema.tagged := by
  induction o with
  | scan b => exact (List.flatMap_singleton ..).symm
  | join o b equalities ih =>
    show (g.frame o).names ++ g.schema.tagged b = _
    rw [ih, Outline.bindings, List.flatMap_append, List.flatMap_singleton]
  | filter o equalities ih => exact ih
  | antiJoin o tag ends edge ih => exact ih

theorem tagged_subset (hb : b ∈ o.bindings) :
    ∀ name ∈ g.schema.tagged b, name ∈ (g.frame o).names := fun name hname => by
  rw [names_frame]
  exact List.mem_flatMap.2 ⟨b, hb, hname⟩

theorem mem_names_frame (hb : b ∈ o.bindings)
    (hcolumn : column ∈ (g.relations.table b.kind).names) :
    qualified b.column column ∈ (g.frame o).names :=
  tagged_subset hb _ (tagged_eq b ▸ List.mem_map_of_mem hcolumn)

section Join

variable {equalities : List Equality} {l r : Row}
  (hrelational : ((o.join b equalities).plan g.schema).Relational)

include hrelational

theorem notMem_names_of_relational {name : String} (hname : name ∈ g.schema.tagged b) :
    name ∉ (g.frame o).names := by
  have hdisjoint := hrelational.2.2
  rw [← Plan.names_frame (r := g.relations) hrelational.1] at hdisjoint
  exact fun hmem => hdisjoint name hmem hname

/-- A joined row has the parts of the left row. -/
theorem part_join_left (hb' : b' ∈ o.bindings) (hl : l ∈ (g.frame o).rows) :
    g.part (g.frame (o.join b equalities)) (l ++ r) b' = g.part (g.frame o) l b' :=
  List.map_congr_left fun name hname =>
    Frame.cell_join_left (tagged_subset hb' name hname)
      (Plan.length_of_mem_rows hrelational.1 hl)

/-- The right row is the part of the binding that was joined. -/
theorem part_join_right (hl : l ∈ (g.frame o).rows) (hr : r ∈ (g.relations.table b.kind).rows) :
    g.part (g.frame (o.join b equalities)) (l ++ r) b = r := by
  refine Eq.trans (List.map_congr_left fun name hname => ?_) (part_bindingFrame hr)
  exact Frame.cell_join_right
    (notMem_names_of_relational hrelational hname) (Plan.length_of_mem_rows hrelational.1 hl)

end Join

/-- Every part of a row is a row of the relation of its binding. -/
theorem part_mem (h : (o.plan g.schema).Relational) (hb : b ∈ o.bindings)
    (hrow : row ∈ (g.frame o).rows) :
    g.part (g.frame o) row b ∈ (g.relations.table b.kind).rows := by
  induction o generalizing row with
  | scan b' =>
    obtain rfl := List.mem_singleton.1 hb
    have hrow : row ∈ (g.relations.table b.kind).rows := rows_bindingFrame b ▸ hrow
    show g.part (g.bindingFrame b) row b ∈ _
    rwa [part_bindingFrame hrow]
  | join o b' equalities ih =>
    obtain ⟨l, hl, r, hr, -, rfl⟩ := Frame.mem_rows_join.1 hrow
    rcases List.mem_append.1 hb with hb | hb
    · rw [part_join_left h hb hl]
      exact ih h.1 hb hl
    · obtain rfl := List.mem_singleton.1 hb
      have hr : r ∈ (g.relations.table b.kind).rows := rows_bindingFrame b ▸ hr
      rwa [part_join_right h hl hr]
  | filter o equalities ih => exact ih h hb (List.mem_filter.1 hrow).1
  | antiJoin o tag ends edge ih => exact ih h.1 hb (List.mem_filter.1 hrow).1

/-- A column of a binding is stored as in its relation, or mixed. -/
theorem kind_frame (h : (o.plan g.schema).Relational) (hb : b ∈ o.bindings)
    (hcolumn : column ∈ (g.relations.table b.kind).names) :
    (g.frame o).kind (qualified b.column column) = (g.relations.table b.kind).kindAt column ∨
      (g.frame o).kind (qualified b.column column) = .mixed := by
  induction o with
  | scan b' =>
    obtain rfl := List.mem_singleton.1 hb
    exact .inl (kind_relationFrame b.column hcolumn)
  | join o b' equalities ih =>
    show (if _ ∈ (g.frame o).names then _ else _) = _ ∨ (if _ ∈ (g.frame o).names then _ else _) = _
    rcases List.mem_append.1 hb with hb | hb
    · rw [if_pos (mem_names_frame hb hcolumn)]
      rcases Frame.kind_meeting (g.frame o) (g.bindingFrame b') equalities
        (qualified b.column column) with heq | heq
      · exact heq ▸ ih h.1 hb
      · exact .inr heq
    · obtain rfl := List.mem_singleton.1 hb
      have hname : qualified b.column column ∈ g.schema.tagged b :=
        tagged_eq b ▸ List.mem_map_of_mem hcolumn
      rw [if_neg (notMem_names_of_relational h hname)]
      exact .inl (kind_relationFrame b.column hcolumn)
  | filter o equalities ih => exact ih h hb
  | antiJoin o tag ends edge ih => exact ih h.1 hb

end Graph

end GraphMotif
