import GraphMotif.Predicate
import GraphMotif.Table

/-!
# Evaluating predicates

A predicate is evaluated column by column over a table. A comparison with a null is unknown, and
the connectives follow Kleene's logic of three values. What stands for a truth value has to be one:
a column of truth values, or one that holds nothing but truth values and nulls. The mask of a
predicate marks the rows on which it is true.
-/

namespace GraphMotif

/-- The names of a table's columns, as predicates use them and as messages show them. -/
class ColumnName (ν : Type) where
  ofText : String → ν
  shown : ν → String

instance : ColumnName String := ⟨id, id⟩

instance : ColumnName Value := ⟨.text, Value.shown⟩

/-- A truth value of Kleene's logic, `none` being unknown. -/
abbrev Truth := Option Bool

namespace Truth

/-- False if one of them is, unknown if else one of them is. -/
def and : Truth → Truth → Truth
  | some false, _ | _, some false => some false
  | some true, some true => some true
  | _, _ => none

/-- True if one of them is, unknown if else one of them is. -/
def or : Truth → Truth → Truth
  | some true, _ | _, some true => some true
  | some false, some false => some false
  | _, _ => none

/-- The opposite of a known value. -/
def not (a : Truth) : Truth := a.map (!·)

/-- A truth value as a cell. -/
def toValue : Truth → Value
  | some b => .bool b
  | none => .null

/-- The truth value of a cell; a cell that is none is unknown. -/
def ofValue : Value → Truth
  | .bool b => some b
  | _ => none

end Truth

namespace Predicate

/-- The cells of a value computed for every row. `computed` tells the results of comparisons, null
tests and connectives from columns and constants. -/
structure Series where
  column : Column
  computed : Bool
  deriving DecidableEq

namespace Series

/-- The series of computed truth values. -/
def ofTruths (truths : List Truth) : Series where
  column := { kind := .bool, cells := truths.map Truth.toValue }
  computed := true

/-- The series of a constant: a mixed column of the constant. -/
def ofConstant (size : Nat) (v : Value) : Series where
  column := { kind := .mixed, cells := List.replicate size v }
  computed := false

/-- The cells of one series as they meet those of another. Computed truth values meet exactly. -/
def aligned (s other : Series) : List Value :=
  s.column.cells.map (s.column.kind.align other.column.kind)

/-- The truth values of a series, if it holds nothing else. -/
def truths? (s : Series) : Option (List Truth) :=
  if s.column.kind = .bool || s.column.cells.all (fun v => v.isNull || v.isBool) then
    some (s.column.cells.map Truth.ofValue)
  else none

end Series

/-- What a predicate evaluates to: a constant stays one until it meets a series. -/
inductive Result where
  | constant (v : Value)
  | series (s : Series)
  deriving DecidableEq

/-- The series of a result over a number of rows. -/
def Result.toSeries (size : Nat) : Result → Series
  | constant v => .ofConstant size v
  | series s => s

/-- The truth values of an operand. -/
def truths (operand : Predicate) (size : Nat) (r : Result) : Except PredicateError (List Truth) :=
  match (r.toSeries size).truths? with
  | some truths => .ok truths
  | none => .error (.notBoolean operand)

/-- The comparison of two cells. An error names the operator and the cells as the comparison was
carried out: the other way round where only the right series is computed. -/
def compareCells (p : Predicate) (op : Comparison) (mirrored : Bool) (a b : Value) :
    Except PredicateError Truth :=
  if a.isNull || b.isNull then .ok none
  else match op.holds? a b with
    | some holds => .ok (some holds)
    | none =>
      .error (if mirrored then .incomparable p op.mirror b a else .incomparable p op a b)

/-- The comparison of two series, row by row. -/
def compareSeries (p : Predicate) (op : Comparison) (left right : Series) :
    Except PredicateError (List Truth) :=
  ((left.aligned right).zip (right.aligned left)).mapM fun (a, b) =>
    compareCells p op (right.computed && !left.computed) a b

/-- The value of a predicate over a table. -/
def eval {ν : Type} [DecidableEq ν] [ColumnName ν] (t : Table ν) :
    Predicate → Except PredicateError Result
  | column name =>
    match t.column? (ColumnName.ofText name) with
    | some c => .ok (.series { column := c, computed := false })
    | none => .error (.unknownColumn name (t.names.map ColumnName.shown))
  | constant v => .ok (.constant v)
  | compare op left right => do
    let a ← left.eval t
    let b ← right.eval t
    let truths ← compareSeries (.compare op left right) op (a.toSeries t.size) (b.toSeries t.size)
    return .series (.ofTruths truths)
  | conj left right => do
    let a ← truths left t.size (← left.eval t)
    let b ← truths right t.size (← right.eval t)
    return .series (.ofTruths (List.zipWith Truth.and a b))
  | disj left right => do
    let a ← truths left t.size (← left.eval t)
    let b ← truths right t.size (← right.eval t)
    return .series (.ofTruths (List.zipWith Truth.or a b))
  | neg operand => do
    let a ← truths operand t.size (← operand.eval t)
    return .series (.ofTruths (a.map Truth.not))
  | isNull operand negated => do
    let a ← operand.eval t
    let cells := (a.toSeries t.size).column.cells
    return .series (.ofTruths (cells.map fun v => some (v.isNull != negated)))

/-- The rows on which a predicate is true. -/
def mask {ν : Type} [DecidableEq ν] [ColumnName ν] (t : Table ν) (p : Predicate) :
    Except PredicateError (List Bool) := do
  let a ← truths p t.size (← p.eval t)
  return a.map (· == some true)

end Predicate

end GraphMotif
