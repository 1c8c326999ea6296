import GraphMotif.Table

/-!
# Columns of tables

Reading a table column by column: the cells of a named column, the columns whose names are texts,
one column after another, and whether the cells of one column occur in another.
-/

namespace GraphMotif

namespace Table

/-- The first column of a name, without cells if there is no such column. -/
def named (t : Table String) (name : String) : Column :=
  (t.column? name).getD { kind := .mixed, cells := [] }

/-- The cells of the first column of a name. -/
def cells (t : Table String) (name : String) : List Value := (t.named name).cells

theorem position?_keep {ν : Type} [DecidableEq ν] (t : Table ν) (marks : List Bool) (name : ν) :
    (t.keep marks).position? name = t.position? name := rfl

/-- Keeping marked rows keeps marked cells of every column. -/
theorem cells_keep_sublist (t : Table String) (marks : List Bool) (name : String) :
    ((t.keep marks).cells name).Sublist (t.cells name) := by
  simp only [cells, named, column?, position?_keep]
  cases t.position? name with
  | none => simp
  | some i => exact (marked_sublist t.rows marks).map _

/-- The columns whose names are texts, under those texts. -/
def textColumns (t : Table Value) : Table String :=
  t.pick (t.headings.zipIdx.filterMap fun (heading, i) =>
    match heading.name with
    | .text name => some (name, i)
    | _ => none)

end Table

namespace Column

/-- The cells of one column after those of another. Integers after binary64 numbers, or before
them, become such numbers; any other two kinds make a mixed column. -/
def append (a b : Column) : Column where
  kind :=
    if a.kind = b.kind then a.kind
    else if a.kind.isNumeric && b.kind.isNumeric then .float
    else .mixed
  cells := a.cells.map (a.kind.align b.kind) ++ b.cells.map (b.kind.align a.kind)

/-- Whether a column holds truth values only. A mixed column without cells does not. -/
def isBoolean (c : Column) : Bool :=
  c.kind = .bool || (c.kind = .mixed && !c.cells.isEmpty && c.cells.all Value.isBool)

/-- Marks the cells that occur in another column. -/
def occursIn (c other : Column) : List Bool :=
  let others := other.cells.map (other.kind.align c.kind)
  c.cells.map fun v => (c.kind.align other.kind v).isIn others

end Column

end GraphMotif
