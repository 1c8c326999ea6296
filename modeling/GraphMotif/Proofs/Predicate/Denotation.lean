import GraphMotif.Graph
import GraphMotif.Predicate.Evaluate

/-!
# What a predicate means

A predicate has a value on every row, told by recursion on the predicate: a column is its cell, a
comparison with a null is unknown and any other one compares two values, connectives are those of
Kleene's logic, and null tests are never unknown. A predicate can be evaluated over a table when its
columns are there, no order is asked of a text and a number, and what stands for a truth value is
one.
-/

namespace GraphMotif

/-- Whether a comparison asks for an order. -/
def Comparison.isOrdered : Comparison → Bool
  | eq | ne => false
  | lt | le | gt | ge => true

/-- Whether a text meets a number or a truth value. -/
def Value.mixes (a b : Value) : Bool := !a.isNull && !b.isNull && (a.isText != b.isText)

namespace Predicate

/-- A predicate and all predicates in it. -/
def subterms : Predicate → List Predicate
  | column name => [column name]
  | constant v => [constant v]
  | compare op left right => compare op left right :: (left.subterms ++ right.subterms)
  | conj left right => conj left right :: (left.subterms ++ right.subterms)
  | disj left right => disj left right :: (left.subterms ++ right.subterms)
  | neg operand => neg operand :: operand.subterms
  | isNull operand negated => isNull operand negated :: operand.subterms

/-- The predicates that an operator is applied to. -/
def operands : Predicate → List Predicate
  | column _ | constant _ => []
  | compare _ left right | conj left right | disj left right => [left, right]
  | neg operand | isNull operand _ => [operand]

/-- What a connective connects. -/
def connected : Predicate → List Predicate
  | conj left right | disj left right => [left, right]
  | neg operand => [operand]
  | column _ | constant _ | compare .. | isNull .. => []

variable {ν : Type} [DecidableEq ν] [ColumnName ν] (t : Table ν)

/-- How the values of an operand are stored: those of a column as the column is, those of a constant
as in a mixed column, and all others as truth values. -/
def storage : Predicate → ColumnKind
  | column name => ((t.column? (ColumnName.ofText name)).map (·.kind)).getD .mixed
  | constant _ => .mixed
  | compare .. | conj .. | disj .. | neg _ | isNull .. => .bool

/-- The comparison of two values: unknown if one of them is null. An integer of an integer column
that meets a binary64 column is rounded before. -/
def compareStored (op : Comparison) (kind kind' : ColumnKind) (a b : Value) : Truth :=
  if a.isNull || b.isNull then none else op.holds? (kind.align kind' a) (kind'.align kind b)

/-- The value of a predicate on a row of a table. -/
def valueAt (row : Row) : Predicate → Value
  | column name => ((t.position? (ColumnName.ofText name)).map row.cell).getD .null
  | constant v => v
  | compare op left right =>
    (compareStored op (left.storage t) (right.storage t) (left.valueAt row)
      (right.valueAt row)).toValue
  | conj left right =>
    (Truth.and (.ofValue (left.valueAt row)) (.ofValue (right.valueAt row))).toValue
  | disj left right =>
    (Truth.or (.ofValue (left.valueAt row)) (.ofValue (right.valueAt row))).toValue
  | neg operand => (Truth.not (.ofValue (operand.valueAt row))).toValue
  | isNull operand negated => .bool ((operand.valueAt row).isNull != negated)

/-- Whether a predicate is true on a row; where it is unknown it is not. -/
def trueAt (p : Predicate) (row : Row) : Bool := Truth.ofValue (p.valueAt t row) == some true

/-- An operand stands for truth values: it is stored so, or all its values are truth values or
nulls. -/
def IsBoolean (p : Predicate) : Prop :=
  p.storage t = .bool ∨ ∀ row ∈ t.rows, (p.valueAt t row).isNull = true ∨ (p.valueAt t row).isBool = true

/-- The columns of a predicate are there, no comparison in it asks for an order of a text and a
number, and what it connects stands for truth values. -/
structure Computable (p : Predicate) : Prop where
  columns : ∀ name ∈ p.columns, ColumnName.ofText name ∈ t.names
  ordered : ∀ op left right, compare op left right ∈ p.subterms → op.isOrdered = true →
    ∀ row ∈ t.rows, (left.valueAt t row).mixes (right.valueAt t row) = false
  connected : ∀ q ∈ p.subterms, ∀ operand ∈ q.connected, operand.IsBoolean t

/-- A predicate can be evaluated as a mask: it can be computed and stands for truth values
itself. -/
structure Evaluable (p : Predicate) : Prop extends p.Computable t where
  boolean : p.IsBoolean t

/-! ## Other rows under the same headings -/

section Headings

variable {t} {t' : Table ν} {p : Predicate} (hheadings : t'.headings = t.headings)

include hheadings

theorem storage_congr (p : Predicate) : p.storage t' = p.storage t := by
  cases p with
  | column name =>
    have hkind (i : Nat) : (t'.columnAt i).kind = (t.columnAt i).kind := by
      show (t'.headings[i]?.map _).getD _ = _
      rw [hheadings]
      rfl
    simp only [storage, Table.column?, Table.position?, hheadings, Option.map_map]
    exact congrArg (fun kind => (Option.map kind _).getD _) (funext hkind)
  | _ => rfl

theorem valueAt_congr (p : Predicate) (row : Row) : p.valueAt t' row = p.valueAt t row := by
  induction p with
  | column name => simp only [valueAt, Table.position?, hheadings]
  | constant v => rfl
  | compare op left right ihl ihr =>
    simp only [valueAt, ihl, ihr, storage_congr hheadings]
  | conj left right ihl ihr => simp only [valueAt, ihl, ihr]
  | disj left right ihl ihr => simp only [valueAt, ihl, ihr]
  | neg operand ih => simp only [valueAt, ih]
  | isNull operand negated ih => simp only [valueAt, ih]

theorem trueAt_congr (p : Predicate) (row : Row) : p.trueAt t' row = p.trueAt t row := by
  rw [trueAt, trueAt, valueAt_congr hheadings]

theorem IsBoolean.of_subset (h : p.IsBoolean t) (hrows : ∀ row ∈ t'.rows, row ∈ t.rows) :
    p.IsBoolean t' := by
  refine h.imp (fun hbool => ?_) fun hvalues row hrow => ?_
  · rw [storage_congr hheadings]
    exact hbool
  · rw [valueAt_congr hheadings]
    exact hvalues row (hrows row hrow)

/-- What can be evaluated over a table can be evaluated over fewer rows. -/
theorem Evaluable.of_subset (h : p.Evaluable t) (hrows : ∀ row ∈ t'.rows, row ∈ t.rows) :
    p.Evaluable t' := by
  refine ⟨⟨fun name hname => ?_, fun op left right hmem hordered row hrow => ?_,
    fun q hq operand hoperand => (h.connected q hq operand hoperand).of_subset hheadings hrows⟩,
    h.boolean.of_subset hheadings hrows⟩
  · rw [Table.names, hheadings]
    exact h.columns name hname
  · rw [valueAt_congr hheadings, valueAt_congr hheadings]
    exact h.ordered op left right hmem hordered row (hrows row hrow)

end Headings

end Predicate

end GraphMotif
