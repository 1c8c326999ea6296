import GraphMotif.Plan.Join
import GraphMotif.Proofs.Value.Equality

/-!
# Plans by nested loops

What a plan means, told row by row: a join pairs every left row with every right row and keeps the
pairs in which all equalities hold, an anti-join keeps the left rows without such a partner, a
filter keeps the rows in which all equalities hold. No row is looked up by a key here. Which
equalities are keys still shows in how columns are stored: the left column of a key counts as
matched.
-/

namespace GraphMotif

namespace Table

/-- The cell of a row in the first column of a name. -/
def cellAt (t : Table String) (row : Row) (name : String) : Value :=
  row.cell (t.names.idxOf name)

/-- How the first column of a name is stored. -/
def kindAt (t : Table String) (name : String) : ColumnKind :=
  (t.columnAt (t.names.idxOf name)).kind

end Table

/-- Named columns, how they are stored, and rows. A name means the first column of that name. -/
structure Frame where
  names : List String
  kind : String → ColumnKind
  rows : List Row

/-- The equalities of a join whose columns no earlier one uses. -/
def keyEqualities (equalities : List Equality) : List Equality :=
  (splitEqualities [] [] equalities).1

namespace Frame

/-- The cell of a row under a name. -/
def cell (f : Frame) (row : Row) (name : String) : Value := row.cell (f.names.idxOf name)

/-- Whether an equality holds between a row of one frame and a row of another. -/
def holds (left right : Frame) (l r : Row) (e : Equality) : Bool :=
  let a := left.cell l e.left
  let b := right.cell r e.right
  (left.kind e.left).equal (right.kind e.right) a b || (e.nullSafe && a.isNull && b.isNull)

/-- The left frame as it meets the right one in a join: with the kinds of its matched columns. -/
def meeting (left right : Frame) (equalities : List Equality) : Frame :=
  { left with
    kind := fun name =>
      match (keyEqualities equalities).find? (·.left = name) with
      | some e => (left.kind name).matched (right.kind e.right)
      | none => left.kind name }

/-- Whether a left and a right row satisfy all equalities. -/
def agree (left right : Frame) (equalities : List Equality) (l r : Row) : Bool :=
  equalities.all ((left.meeting right equalities).holds right l r)

/-- The rows of a table under a tag, cut down to some columns. -/
def scan (t : Table String) (tag : String) (columns : List String) : Frame where
  names := columns.map (qualified tag)
  kind name :=
    match columns.find? (qualified tag · = name) with
    | some column => t.kindAt column
    | none => .mixed
  rows := t.rows.map fun row => columns.map (t.cellAt row)

/-- All pairs of a left and a right row that satisfy all equalities. -/
def join (left right : Frame) (equalities : List Equality) : Frame where
  names := left.names ++ right.names
  kind name :=
    if name ∈ left.names then (left.meeting right equalities).kind name else right.kind name
  rows := left.rows.flatMap fun l =>
    (right.rows.filter (left.agree right equalities l)).map (l ++ ·)

/-- The left rows that satisfy all equalities with no right row. -/
def antiJoin (left right : Frame) (equalities : List Equality) : Frame :=
  { left with rows := left.rows.filter fun l => !right.rows.any (left.agree right equalities l) }

/-- The rows that satisfy all equalities by themselves. -/
def filter (f : Frame) (equalities : List Equality) : Frame :=
  { f with rows := f.rows.filter fun row => equalities.all (f.holds f row row) }

/-- The rows without a null in the key columns that nulls do not match in; `side` picks the column
of an equality. -/
def keyed (f : Frame) (side : Equality → String) (equalities : List Equality) : List Row :=
  f.rows.filter fun row =>
    (keyEqualities equalities).all fun e => e.nullSafe || !(f.cell row (side e)).isNull

/-- Whether a join by keys has to match a column of numbers with a column that holds texts. -/
def Clash (left right : Frame) (equalities : List Equality) : Prop :=
  left.keyed (·.left) equalities ≠ [] ∧ right.keyed (·.right) equalities ≠ [] ∧
    ∃ e ∈ keyEqualities equalities,
      ((left.kind e.left).isNumeric ∧ right.kind e.right = .mixed ∧
        holdsTexts ((right.keyed (·.right) equalities).map (right.cell · e.right))) ∨
      (left.kind e.left = .mixed ∧ (right.kind e.right).isNumeric ∧
        holdsTexts ((left.keyed (·.left) equalities).map (left.cell · e.left)))

end Frame

namespace Plan

/-- The frame of a plan below its projection. -/
def frame (r : Relations) : Plan → Frame
  | empty columns => { names := columns, kind := fun _ => .mixed, rows := [] }
  | scan element tag columns => .scan (r.table element) tag columns
  | join left right equalities => (left.frame r).join (right.frame r) equalities
  | antiJoin left right equalities => (left.frame r).antiJoin (right.frame r) equalities
  | filter child equalities => (child.frame r).filter equalities
  | project child _ => child.frame r

/-- The labels of the columns of the result: those of a projection are pairs of names. -/
def labels : Plan → List Label
  | project _ outputs =>
    outputs.flatMap fun o => (o.attributes.zip o.columns).map fun (name, _) => .bundled o.name name
  | p => p.columns.map .plain

/-- The rows of the result. -/
def resultRows (r : Relations) : Plan → List Row
  | project child outputs =>
    (child.frame r).rows.map fun row =>
      outputs.flatMap fun o =>
        (o.attributes.zip o.columns).map fun (_, column) => (child.frame r).cell row column
  | p => (p.frame r).rows

/-- Whether an operator itself has to match numbers with texts. -/
def ClashesHere (r : Relations) : Plan → Prop
  | join left right equalities | antiJoin left right equalities =>
    (left.frame r).Clash (right.frame r) equalities
  | _ => False

/-- Whether some operator of a plan has to match numbers with texts. -/
def Clashes (r : Relations) (p : Plan) : Prop := ∃ node ∈ p.walk, node.ClashesHere r

/-- A plan without projections whose scans have columns, none of them twice, and whose joins and
anti-joins have inputs without a common column. -/
def Relational : Plan → Prop
  | empty _ => True
  | scan _ _ columns => columns ≠ [] ∧ columns.Nodup
  | join left right _ | antiJoin left right _ =>
    left.Relational ∧ right.Relational ∧ ∀ column ∈ left.columns, column ∉ right.columns
  | filter child _ => child.Relational
  | project _ _ => False

/-- A relational plan, or a projection of one. -/
def WellFormed : Plan → Prop
  | project child _ => child.Relational
  | p => p.Relational

end Plan

/-- The relations have the columns that the scans of a plan ask for. -/
def Relations.Supply (r : Relations) (p : Plan) : Prop :=
  ∀ element tag columns, Plan.scan element tag columns ∈ p.walk →
    ∀ column ∈ columns, column ∈ (r.table element).names

end GraphMotif
