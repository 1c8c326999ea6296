import GraphMotif.Plan.Join

/-!
# Evaluating plans

A plan is evaluated from its leaves to its root, every operator on the tables of its inputs. Rows
come in no particular order. An anti-join without equalities keeps all rows of its left input if
the right one is empty, and a table without columns counts as empty here.
-/

namespace GraphMotif

namespace Table

/-- The rows of two tables that agree, side by side. -/
def join (left right : Table Label) (equalities : List Equality) :
    Except EvalError (Table Label) :=
  if equalities.isEmpty then .ok (left.cross right)
  else (Matching.ofEqualities left right equalities).map fun m =>
    { headings := m.leftHeadings left ++ right.headings
      rows := left.rows.flatMap fun l => (m.rowsFor l).map (l ++ ·)
      rectangular := by
        intro row hrow
        obtain ⟨l, hl, hrow⟩ := List.mem_flatMap.1 hrow
        obtain ⟨r, hr, rfl⟩ := List.mem_map.1 hrow
        have hright := Matching.mem_of_mem_rowsFor hr
        simp [Matching.leftHeadings, length_joinedHeadings, left.rectangular l hl,
          right.rectangular r hright] }

/-- The rows of a table that agree with no row of another one. -/
def antiJoin (left right : Table Label) (equalities : List Equality) :
    Except EvalError (Table Label) :=
  if equalities.isEmpty then
    .ok (if right.rows.isEmpty || right.headings.isEmpty then left else left.empty)
  else (Matching.ofEqualities left right equalities).map fun m =>
    left.filterRows fun l => (m.rowsFor l).isEmpty

/-- The rows of a table in which columns agree. -/
def filterEqual (t : Table Label) (equalities : List Equality) : Except EvalError (Table Label) := do
  let meetings ← equalities.mapM (Equality.meeting t t)
  return t.filterRows fun row => meetings.all (·.agrees row row)

/-- The columns of a table that make up the result, each under the names of its element and its
attribute. Attributes without a column and columns without an attribute are left out. -/
def projectTo (t : Table Label) (outputs : List Output) : Except EvalError (Table Label) := do
  let picks ← (outputs.flatMap fun o => (o.attributes.zip o.columns).map (o.name, ·)).mapM
    fun (name, attributeName, column) => do
      let (i, _) ← t.plainColumn column
      return (Label.bundled name attributeName, i)
  return t.pick picks

/-- The columns of a relation that a scan asks for, with its tag before their names. -/
def scanned (t : Table String) (element : Element) (tag : String) (columns : List String) :
    Except EvalError (Table Label) :=
  let missing := columns.filter fun column => !t.names.contains column
  if missing.isEmpty then
    .ok (t.pick (columns.filterMap fun column =>
      (t.position? column).map (Label.plain (qualified tag column), ·)))
  else .error (.missingColumns element missing)

/-- The table with plain columns and without rows. -/
def noRows (columns : List String) : Table Label where
  headings := columns.map fun column => { name := .plain column, kind := .mixed }
  rows := []
  rectangular := by simp

end Table

/-- The table that a plan computes. -/
def Plan.eval (r : Relations) : Plan → Except EvalError (Table Label)
  | empty columns => .ok (Table.noRows columns)
  | scan element tag columns => (r.table element).scanned element tag columns
  | join left right equalities => do (← left.eval r).join (← right.eval r) equalities
  | antiJoin left right equalities => do (← left.eval r).antiJoin (← right.eval r) equalities
  | filter child equalities => do (← child.eval r).filterEqual equalities
  | project child outputs => do (← child.eval r).projectTo outputs

end GraphMotif
