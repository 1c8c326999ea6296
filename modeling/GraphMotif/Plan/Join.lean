import GraphMotif.Plan.Relations

/-!
# Joining tables

Two tables are joined by matching keys. As many of the equalities as possible become key columns;
an equality that uses a column a second time is checked afterwards, within the joined rows. Right
rows are grouped by key once, and every left row looks its group up. Rows with a null in a key
column that is not null-safe match nothing and are left out before. A column of numbers is never
matched with a column that holds texts: that is an error, unless one of the tables has no rows left.

The columns of a plan carry the tags of their scans, so that the two tables have no names in common.
-/

namespace GraphMotif

/-- Two cells that meet in an equality: their positions, the kinds of their columns, and whether
nulls agree. -/
structure Meeting where
  left : Nat
  leftKind : ColumnKind
  right : Nat
  rightKind : ColumnKind
  nullSafe : Bool
  deriving DecidableEq

namespace Meeting

/-- The left cell as it meets the right one. -/
def leftValue (m : Meeting) (row : Row) : Value := m.leftKind.align m.rightKind (row.cell m.left)

/-- The right cell as it meets the left one. -/
def rightValue (m : Meeting) (row : Row) : Value :=
  m.rightKind.align m.leftKind (row.cell m.right)

/-- Whether two cells agree. -/
def agrees (m : Meeting) (left right : Row) : Bool :=
  let a := m.leftValue left
  let b := m.rightValue right
  a.same b || (m.nullSafe && a.isNull && b.isNull)

/-- Whether a left row takes part in matching: with a null it does only where nulls agree. -/
def admitsLeft (m : Meeting) (row : Row) : Bool := m.nullSafe || !(row.cell m.left).isNull

/-- Whether a right row takes part in matching: with a null it does only where nulls agree. -/
def admitsRight (m : Meeting) (row : Row) : Bool := m.nullSafe || !(row.cell m.right).isNull

end Meeting

/-- The column of a table with a plain name: its position and its kind. -/
def Table.plainColumn (t : Table Label) (name : String) : Except EvalError (Nat × ColumnKind) :=
  match t.position? (.plain name) with
  | some i => .ok (i, (t.columnAt i).kind)
  | none => .error (.unknownColumn name)

/-- The meeting that an equality describes between two tables. -/
def Equality.meeting (left right : Table Label) (e : Equality) : Except EvalError Meeting := do
  let (i, leftKind) ← left.plainColumn e.left
  let (j, rightKind) ← right.plainColumn e.right
  return { left := i, leftKind, right := j, rightKind, nullSafe := e.nullSafe }

/-- Separates the equalities whose columns no earlier one uses from the others. -/
def splitEqualities (seenLeft seenRight : List String) :
    List Equality → List Equality × List Equality
  | [] => ([], [])
  | e :: es =>
    if seenLeft.contains e.left || seenRight.contains e.right then
      let (keys, others) := splitEqualities seenLeft seenRight es
      (keys, e :: others)
    else
      let (keys, others) := splitEqualities (e.left :: seenLeft) (e.right :: seenRight) es
      (e :: keys, others)

/-- Whether the cells of a mixed column are taken for texts: it holds no integer, and neither are
all its cells binary64 numbers nor all of them truth values. -/
def holdsTexts (cells : List Value) : Bool :=
  let isInt : Value → Bool := fun v => match v with | .int _ => true | _ => false
  let isFloat : Value → Bool := fun v => match v with | .float _ => true | _ => false
  !cells.any isInt && !cells.all isFloat && !cells.all Value.isBool

/-- Whether one column of a key holds numbers and the other one texts, among the given rows. -/
def Meeting.clashes (m : Meeting) (left right : List Row) : Bool :=
  (m.leftKind.isNumeric && m.rightKind == .mixed && holdsTexts (right.map (Row.cell · m.right)))
    || (m.leftKind == .mixed && m.rightKind.isNumeric
      && holdsTexts (left.map (Row.cell · m.left)))

/-- The kind of the left key column in the joined table. Columns of different kinds meet as mixed
columns, unless both hold numbers. -/
def Meeting.joinedKind (m : Meeting) : ColumnKind :=
  if m.leftKind = m.rightKind || (m.leftKind.isNumeric && m.rightKind.isNumeric) then m.leftKind
  else .mixed

/-- Rows grouped by key. -/
abbrev RowIndex := List (List Value.Key × List Row)

namespace RowIndex

/-- One more row, at the front of the group of its key. -/
def insert (key : List Value.Key) (row : Row) : RowIndex → RowIndex
  | [] => [(key, [row])]
  | (key', rows) :: groups =>
    if key = key' then (key', row :: rows) :: groups
    else (key', rows) :: insert key row groups

/-- The rows of a list, grouped by key; each group in the order of the list. -/
def build (keyOf : Row → List Value.Key) (rows : List Row) : RowIndex :=
  rows.foldr (fun row index => index.insert (keyOf row) row) []

/-- The group of a key. -/
def find : RowIndex → List Value.Key → List Row
  | [], _ => []
  | (key', rows) :: groups, key => if key = key' then rows else find groups key

theorem find_insert (index : RowIndex) (key key' : List Value.Key) (row : Row) :
    (index.insert key row).find key' =
      if key' = key then row :: index.find key' else index.find key' := by
  induction index with
  | nil => simp [insert, find]
  | cons group groups ih =>
    obtain ⟨k, rows⟩ := group
    simp only [insert]
    by_cases hk : key = k
    · subst hk
      by_cases hkey : key' = key <;> simp [find, hkey]
    · by_cases hkey : key' = k
      · subst hkey
        simp [hk, find, Ne.symm hk]
      · simp only [hk, if_false, find, hkey]
        exact ih

/-- A group holds the rows of its key, in the order of the list. -/
theorem find_build (keyOf : Row → List Value.Key) (rows : List Row) (key : List Value.Key) :
    (build keyOf rows).find key = rows.filter fun row => keyOf row = key := by
  induction rows with
  | nil => rfl
  | cons row rows ih =>
    rw [build, List.foldr_cons, find_insert, ← build, ih]
    by_cases h : key = keyOf row
    · simp [h]
    · simp [h, Ne.symm h]

end RowIndex

/-- How the rows of two tables are matched: the key columns, the index of the right rows, what else
has to agree within the rows that are put side by side, and whether there are rows to match on both
sides. -/
structure Matching (right : Table Label) where
  keys : List Meeting
  index : RowIndex
  mem_of_mem_find : ∀ key, ∀ row ∈ index.find key, row ∈ right.rows
  others : List Meeting
  meets : Bool

/-- The kinds of the left columns of a joined table. -/
def joinedHeadings (keys : List Meeting) (headings : List (Heading Label)) :
    List (Heading Label) :=
  headings.mapIdx fun i heading =>
    match keys.find? (·.left = i) with
    | some m => { heading with kind := m.joinedKind }
    | none => heading

theorem length_joinedHeadings (keys : List Meeting) (headings : List (Heading Label)) :
    (joinedHeadings keys headings).length = headings.length := by
  simp [joinedHeadings]

namespace Matching

variable {right : Table Label}

/-- The headings of the left table in the joined one. Where no rows meet, nothing changes. -/
def leftHeadings (m : Matching right) (left : Table Label) : List (Heading Label) :=
  joinedHeadings (if m.meets then m.keys else []) left.headings

/-- The kind that a left column has after a match on the keys. -/
def kindAfter (keys : List Meeting) (i : Nat) (kind : ColumnKind) : ColumnKind :=
  ((keys.find? (·.left = i)).map (·.joinedKind)).getD kind

/-- The left rows that take part in a match on keys. -/
def leftRows (keys : List Meeting) (left : Table Label) : List Row :=
  left.rows.filter fun row => keys.all (·.admitsLeft row)

/-- The right rows that take part in a match on keys. -/
def rightRows (keys : List Meeting) (right : Table Label) : List Row :=
  right.rows.filter fun row => keys.all (·.admitsRight row)

/-- Whether rows take part in a match on keys on both sides. -/
def rowsMeet (keys : List Meeting) (left right : Table Label) : Bool :=
  !(leftRows keys left).isEmpty && !(rightRows keys right).isEmpty

/-- The keys whose columns a match changes: where no rows meet, nothing changes. -/
def metKeys (keys : List Meeting) (left right : Table Label) : List Meeting :=
  if rowsMeet keys left right then keys else []

/-- A left column in the rows that a match on the keys puts side by side. -/
def leftColumn (keys : List Meeting) (left : Table Label) (name : String) :
    Except EvalError (Nat × ColumnKind) :=
  (left.plainColumn name).map fun (i, kind) => (i, kindAfter keys i kind)

/-- A right column in the rows that a match puts side by side. -/
def rightColumn (left right : Table Label) (name : String) :
    Except EvalError (Nat × ColumnKind) :=
  (right.plainColumn name).map fun (j, kind) => (left.headings.length + j, kind)

/-- The meeting that an equality describes within the rows that a match on the keys puts side by
side. There each of its columns may come from either table. -/
def meetingWithin (keys : List Meeting) (left right : Table Label) (e : Equality) :
    Except EvalError Meeting := do
  let (i, leftKind) ← leftColumn keys left e.left <|> rightColumn left right e.left
  let (j, rightKind) ← rightColumn left right e.right <|> leftColumn keys left e.right
  return { left := i, leftKind, right := j, rightKind, nullSafe := e.nullSafe }

/-- The matching of two tables by keys and by what is checked afterwards. -/
def ofMeetings (left right : Table Label) (keys others : List Meeting) : Matching right where
  keys := keys
  index := RowIndex.build (fun row => keys.map fun m => (m.rightValue row).key) (rightRows keys right)
  mem_of_mem_find := by
    intro key row hrow
    rw [RowIndex.find_build] at hrow
    exact (List.mem_filter.1 (List.mem_filter.1 hrow).1).1
  others := others
  meets := rowsMeet keys left right

/-- The matching of two tables by equalities. -/
def ofEqualities (left right : Table Label) (equalities : List Equality) :
    Except EvalError (Matching right) := do
  let (keyEqualities, otherEqualities) := splitEqualities [] [] equalities
  let keys ← keyEqualities.mapM (Equality.meeting left right)
  let clashing := (keyEqualities.zip keys).find? fun (_, m) =>
    rowsMeet keys left right && m.clashes (leftRows keys left) (rightRows keys right)
  match clashing with
  | some (e, _) => throw (.incomparableKeys e.left e.right)
  | none =>
    let others ← otherEqualities.mapM (meetingWithin (metKeys keys left right) left right)
    return ofMeetings left right keys others

/-- The right rows that a left row matches. -/
def rowsFor (m : Matching right) (left : Row) : List Row :=
  if m.keys.all (·.admitsLeft left) then
    (m.index.find (m.keys.map fun k => (k.leftValue left).key)).filter fun right =>
      m.others.all (·.agrees (left ++ right) (left ++ right))
  else []

theorem mem_of_mem_rowsFor {m : Matching right} {left row : Row} (h : row ∈ m.rowsFor left) :
    row ∈ right.rows := by
  simp only [rowsFor] at h
  split at h
  · exact m.mem_of_mem_find _ _ (List.mem_filter.1 h).1
  · simp at h

end Matching

namespace Table

/-- All pairs of rows of two tables. -/
def cross {ν : Type} (left right : Table ν) : Table ν where
  headings := left.headings ++ right.headings
  rows := left.rows.flatMap fun l => right.rows.map (l ++ ·)
  rectangular := by
    intro row hrow
    obtain ⟨l, hl, hrow⟩ := List.mem_flatMap.1 hrow
    obtain ⟨r, hr, rfl⟩ := List.mem_map.1 hrow
    simp [left.rectangular l hl, right.rectangular r hr]

end Table

end GraphMotif
