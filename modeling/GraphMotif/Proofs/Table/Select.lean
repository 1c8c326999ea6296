import GraphMotif.Proofs.Plan.NestedLoops
import GraphMotif.Proofs.Table.Position
import GraphMotif.Table.Columns

/-!
# Columns by name

Columns of a table can be taken out by their names, under the same names or under new ones.
-/

namespace GraphMotif

/-- The cell at the position of an item in a row that was made item by item. -/
theorem Row.cell_map_idxOf {α : Type} [DecidableEq α] {xs : List α} {x : α} (h : x ∈ xs)
    (φ : α → Value) : Row.cell (xs.map φ) (xs.idxOf x) = φ x := by
  rw [Row.cell, List.getD_eq_getElem?_getD, List.getElem?_map, List.getElem?_idxOf h]
  rfl

namespace Table

variable {ν μ α : Type} [DecidableEq ν]

/-- Columns of a table under new names, each given with the name that it has in the table. -/
def renamed (t : Table ν) (columns : List (μ × ν)) : Table μ :=
  t.pick (columns.map fun (name, old) => (name, t.names.idxOf old))

/-- The columns of the given names. -/
def select (t : Table ν) (names : List ν) : Table ν :=
  t.renamed (names.map fun name => (name, name))

variable {t : Table ν}

theorem names_renamed (t : Table ν) (columns : List (μ × ν)) :
    (t.renamed columns).names = columns.map Prod.fst := by
  rw [names, renamed, pick, List.map_map, List.map_map]
  rfl

theorem names_select (t : Table ν) (names : List ν) : (t.select names).names = names := by
  rw [select, names_renamed, List.map_map]
  exact List.map_id _

section Cells

variable {xs : List α} {φ : α → ν → Value}

/-- Columns that are taken out of a row that is made cell by cell from the names. -/
theorem pickRow_map {columns : List (μ × ν)} (hcolumns : ∀ column ∈ columns, column.2 ∈ t.names)
    (φ : ν → Value) :
    (columns.map fun (name, old) => (name, t.names.idxOf old)).map
        (fun column => Row.cell (t.names.map φ) column.2) = columns.map fun column => φ column.2 := by
  rw [List.map_map]
  exact List.map_congr_left fun column hcolumn => Row.cell_map_idxOf (hcolumns column hcolumn) φ

/-- Where every row is made cell by cell from the names, so are the columns that are taken out. -/
theorem rows_renamed (hrows : t.rows = xs.map fun x => t.names.map (φ x)) {columns : List (μ × ν)}
    (hcolumns : ∀ column ∈ columns, column.2 ∈ t.names) :
    (t.renamed columns).rows = xs.map fun x => columns.map fun column => φ x column.2 := by
  show t.rows.map _ = _
  rw [hrows, List.map_map]
  exact List.map_congr_left fun x _ => pickRow_map hcolumns (φ x)

theorem rows_select (hrows : t.rows = xs.map fun x => t.names.map (φ x)) {names : List ν}
    (hnames : ∀ name ∈ names, name ∈ t.names) :
    (t.select names).rows = xs.map fun x => names.map (φ x) := by
  rw [select, rows_renamed hrows (List.forall_mem_map.2 hnames)]
  refine List.map_congr_left fun x _ => ?_
  rw [List.map_map]
  rfl

/-- So it is up to the order of the rows. -/
theorem rows_select_perm (hrows : t.rows.Perm (xs.map fun x => t.names.map (φ x))) {names : List ν}
    (hnames : ∀ name ∈ names, name ∈ t.names) :
    (t.select names).rows.Perm (xs.map fun x => names.map (φ x)) := by
  refine (hrows.map _).trans (.of_eq ?_)
  rw [List.map_map]
  refine List.map_congr_left fun x _ => ?_
  refine (pickRow_map (List.forall_mem_map.2 hnames) (φ x)).trans ?_
  rw [List.map_map]
  rfl

end Cells

/-! ## Columns of relations -/

section Relation

variable {t : Table String} {names : List String} {name : String}

theorem rows_select_cellAt (t : Table String) (names : List String) :
    (t.select names).rows = t.rows.map fun row => names.map (t.cellAt row) := by
  show t.rows.map _ = _
  refine List.map_congr_left fun row _ => ?_
  rw [List.map_map, List.map_map]
  rfl

theorem kindAt_select (hname : name ∈ names) : (t.select names).kindAt name = t.kindAt name := by
  rw [kindAt, names_select]
  show (Option.map _ (((names.map fun name => (name, name)).map _).map _)[names.idxOf name]?).getD
    ColumnKind.mixed = _
  rw [List.map_map, List.map_map, List.getElem?_map, List.getElem?_idxOf hname]
  rfl

theorem cells_eq (hname : name ∈ t.names) : t.cells name = t.rows.map (t.cellAt · name) := by
  rw [cells, named, column?, position?_eq_some t hname]
  rfl

theorem cells_select (hname : name ∈ names) (hnames : ∀ name ∈ names, name ∈ t.names) :
    (t.select names).cells name = t.cells name := by
  have hmem : name ∈ (t.select names).names := by rwa [names_select]
  rw [cells_eq hmem, cells_eq (hnames name hname), rows_select_cellAt, List.map_map]
  refine List.map_congr_left fun row _ => ?_
  rw [Function.comp_apply, cellAt, names_select]
  exact Row.cell_map_idxOf hname _

end Relation

end Table

end GraphMotif
