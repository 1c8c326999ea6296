import GraphMotif.Predicate

/-!
# Building conditions

A condition is a predicate under construction, combined by comparison signs and connectives. One
side of a combination may be a plain value or tree; a comparison whose left side is plain is turned
around, so that the condition comes first.
-/

namespace GraphMotif

/-- A predicate under construction. -/
structure Condition where
  predicate : Predicate
  deriving DecidableEq

/-- One side of a combination. -/
inductive Operand where
  | condition (c : Condition)
  | plain (p : Predicate)
  deriving DecidableEq

/-- The predicate of an operand. -/
def Operand.predicate : Operand → Predicate
  | condition c => c.predicate
  | plain p => p

namespace Condition

/-- The comparison of two operands. -/
def compare (op : Comparison) (left right : Operand) : Condition :=
  match left with
  | .condition c => ⟨.compare op c.predicate right.predicate⟩
  | .plain p => ⟨.compare op.mirror right.predicate p⟩

/-- The conjunction of two operands. -/
def both (left right : Operand) : Condition := ⟨.conj left.predicate right.predicate⟩

/-- The disjunction of two operands. -/
def either (left right : Operand) : Condition := ⟨.disj left.predicate right.predicate⟩

/-- The negation of a condition. -/
def opposite (c : Condition) : Condition := ⟨.neg c.predicate⟩

/-- The null test of a condition. -/
def isNull (c : Condition) : Condition := ⟨.isNull c.predicate false⟩

/-- The negated null test of a condition. -/
def isNotNull (c : Condition) : Condition := ⟨.isNull c.predicate true⟩

/-- The text of a condition. -/
def toText (c : Condition) : String := c.predicate.toText

/-- A condition as a listing shows it. -/
def shown (c : Condition) : String := "Column<" ++ c.toText ++ ">"

/-- A condition under construction is neither true nor false; asking is an error with a message. -/
def truth (_ : Condition) : Except String Bool :=
  .error "A Column has no truth value; combine conditions with '&', '|' and '~'"

end Condition

end GraphMotif
