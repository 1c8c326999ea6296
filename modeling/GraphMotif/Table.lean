import GraphMotif.Value

/-!
# Tables

A table is a list of headings and a list of rows, each row with one cell per heading; a table
without headings still has rows. A heading says how the cells of its column are stored. Storage
matters in one place: an integer column meets a binary64 column as binary64 numbers, so integers
are rounded there; all other pairs of columns meet exactly.
-/

namespace GraphMotif

/-- How the cells of a column are stored; `mixed` columns hold any values. -/
inductive ColumnKind where
  | int
  | float
  | bool
  | mixed
  deriving DecidableEq, Repr

/-- Whether the cells of a column are stored as numbers. -/
def ColumnKind.isNumeric : ColumnKind → Bool
  | .int | .float => true
  | .bool | .mixed => false

/-- A cell of a column that meets a column of the kind `other`. -/
def ColumnKind.align (kind other : ColumnKind) (v : Value) : Value :=
  if kind = .int ∧ other = .float then v.toFloat else v

/-- The name of a column and how its cells are stored. -/
structure Heading (ν : Type) where
  name : ν
  kind : ColumnKind
  deriving DecidableEq

/-- The cells of one row, in the order of the headings. -/
abbrev Row := List Value

/-- The cell at a position. -/
def Row.cell (row : Row) (i : Nat) : Value := row.getD i .null

/-- A list of headings and rows of that many cells. Names are of the type `ν`. -/
structure Table (ν : Type) where
  headings : List (Heading ν)
  rows : List Row
  rectangular : ∀ row ∈ rows, row.length = headings.length

/-- The cells of a column and how they are stored. -/
structure Column where
  kind : ColumnKind
  cells : List Value
  deriving DecidableEq

namespace Table

variable {ν μ : Type}

/-- The names of the columns. -/
def names (t : Table ν) : List ν := t.headings.map (·.name)

/-- The number of rows. -/
def size (t : Table ν) : Nat := t.rows.length

/-- The table with the given columns. The first column says how many rows there are, and a missing
cell is null. -/
def ofColumns (columns : List (ν × Column)) : Table ν where
  headings := columns.map fun (name, column) => { name, kind := column.kind }
  rows := (List.range ((columns.head?.map (·.2.cells.length)).getD 0)).map fun i =>
    columns.map fun (_, column) => column.cells.getD i .null
  rectangular := by
    intro row hrow
    obtain ⟨i, -, rfl⟩ := List.mem_map.1 hrow
    simp

/-- The position of the first column of a name. -/
def position? [DecidableEq ν] (t : Table ν) (name : ν) : Option Nat :=
  t.headings.findIdx? (·.name = name)

/-- The column at a position. -/
def columnAt (t : Table ν) (i : Nat) : Column where
  kind := (t.headings[i]?.map (·.kind)).getD .mixed
  cells := t.rows.map (Row.cell · i)

/-- The first column of a name. -/
def column? [DecidableEq ν] (t : Table ν) (name : ν) : Option Column :=
  (t.position? name).map t.columnAt

/-- The rows that satisfy a test. -/
def filterRows (t : Table ν) (p : Row → Bool) : Table ν where
  headings := t.headings
  rows := t.rows.filter p
  rectangular row hrow := t.rectangular row (List.mem_filter.1 hrow).1

/-- The items of a list whose mark is set. -/
def marked {α : Type} (items : List α) (marks : List Bool) : List α :=
  ((items.zip marks).filter (·.2)).map (·.1)

theorem mem_of_mem_marked {α : Type} {items : List α} {marks : List Bool} {x : α}
    (h : x ∈ marked items marks) : x ∈ items := by
  obtain ⟨⟨y, b⟩, hy, rfl⟩ := List.mem_map.1 h
  exact (List.of_mem_zip (List.mem_filter.1 hy).1).1

/-- The marked items stand in their old order. -/
theorem marked_sublist {α : Type} (items : List α) (marks : List Bool) :
    (marked items marks).Sublist items := by
  induction items generalizing marks with
  | nil => simp [marked]
  | cons x xs ih =>
    cases marks with
    | nil => simp [marked]
    | cons b bs =>
      cases b with
      | false => simpa [marked] using (ih bs).cons x
      | true => simpa [marked] using ih bs

/-- The rows whose mark is set. -/
def keep (t : Table ν) (marks : List Bool) : Table ν where
  headings := t.headings
  rows := marked t.rows marks
  rectangular row hrow := t.rectangular row (mem_of_mem_marked hrow)

/-- The table without rows. -/
def empty (t : Table ν) : Table ν where
  headings := t.headings
  rows := []
  rectangular := by simp

/-- The columns at the given positions, under new names. -/
def pick (t : Table ν) (columns : List (μ × Nat)) : Table μ where
  headings := columns.map fun (name, i) => { name, kind := (t.columnAt i).kind }
  rows := t.rows.map fun row => columns.map fun (_, i) => row.cell i
  rectangular := by
    intro row hrow
    obtain ⟨_, -, rfl⟩ := List.mem_map.1 hrow
    simp

end Table

end GraphMotif
