/-!
# Motif patterns

A pattern is a list of clauses. A vertex clause names one vertex; an edge clause names a directed
edge and its two ends, and may be negated, asking that there be no such edge. Every name may be
left out. The text of a pattern is its clauses joined by semicolons.
-/

namespace GraphMotif

/-- The name written in a slot, if any. -/
abbrev Slot := Option String

/-- The text of a slot between its brackets. -/
def Slot.toText (s : Slot) : String := s.getD ""

/-- An edge from `src` to `dst`, or the demand that there be none. -/
structure EdgeClause where
  src : Slot
  edge : Slot
  dst : Slot
  negated : Bool
  deriving DecidableEq

/-- The text `(src)-[edge]->(dst)`, after an exclamation mark if negated. -/
def EdgeClause.toText (e : EdgeClause) : String :=
  (if e.negated then "!" else "") ++ "(" ++ e.src.toText ++ ")-[" ++ e.edge.toText ++ "]->("
    ++ e.dst.toText ++ ")"

/-- One clause of a pattern. -/
inductive Clause where
  | vertex (name : Slot)
  | edge (e : EdgeClause)
  deriving DecidableEq

namespace Clause

/-- Whether a clause is negated; vertex clauses never are. -/
def negated : Clause → Bool
  | vertex _ => false
  | edge e => e.negated

/-- The text of a clause. -/
def toText : Clause → String
  | vertex name => "(" ++ name.toText ++ ")"
  | edge e => e.toText

end Clause

/-- A motif pattern; the pattern without clauses matches nothing. -/
structure Pattern where
  clauses : List Clause
  deriving DecidableEq

namespace Pattern

/-- Whether a pattern has no clauses. -/
def isEmpty (p : Pattern) : Bool := p.clauses.isEmpty

/-- The text of a pattern. -/
def toText (p : Pattern) : String := String.intercalate "; " (p.clauses.map Clause.toText)

end Pattern

end GraphMotif
