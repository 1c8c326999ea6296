import GraphMotif.Pattern
import GraphMotif.Pattern.Token

/-!
# Clauses as they are written

Besides the clauses that a pattern may hold, a writer can put down two more that have a plain
meaning but are not allowed: an edge written backwards, `(b)<-[e]-(a)`, and a negated vertex. They
are read like the others, so that they can be refused with a fitting message.
-/

namespace GraphMotif.Pattern

/-- A clause as it is written, its slots from left to right. -/
inductive Written where
  | vertex (negated : Bool) (name : Slot)
  /-- `(src)-[edge]->(dst)` -/
  | forward (negated : Bool) (src edge dst : Slot)
  /-- `(dst)<-[edge]-(src)` -/
  | backward (negated : Bool) (dst edge src : Slot)
  deriving DecidableEq

namespace Written

/-- The tokens of a slot. -/
def slotTokens (s : Slot) : List Token := (s.map fun name => Token.name name.toList).toList

/-- The tokens of a negation. -/
def bangTokens (negated : Bool) : List Token := if negated then [.bang] else []

/-- The tokens of a vertex. -/
def vertexTokens (s : Slot) : List Token := .openParen :: slotTokens s ++ [.closeParen]

/-- The tokens of the name of an edge. -/
def edgeTokens (s : Slot) : List Token := .openBracket :: slotTokens s ++ [.closeBracket]

/-- The tokens of a clause. -/
def tokens : Written → List Token
  | vertex negated name => bangTokens negated ++ vertexTokens name
  | forward negated src edge dst =>
    bangTokens negated ++ vertexTokens src ++ .dash :: edgeTokens edge ++ .arrow :: vertexTokens dst
  | backward negated dst edge src =>
    bangTokens negated ++ vertexTokens dst ++ .backArrow :: edgeTokens edge
      ++ .dash :: vertexTokens src

/-- The text of a clause. -/
def toText : Written → String
  | vertex negated name => (if negated then "!" else "") ++ "(" ++ name.toText ++ ")"
  | forward negated src edge dst => EdgeClause.toText { src, edge, dst, negated }
  | backward negated dst edge src =>
    (if negated then "!" else "") ++ "(" ++ dst.toText ++ ")<-[" ++ edge.toText ++ "]-("
      ++ src.toText ++ ")"

/-- The clause that a pattern may hold, if it is one. -/
def clause? : Written → Option Clause
  | vertex negated name => if negated then none else some (.vertex name)
  | forward negated src edge dst => some (.edge { src, edge, dst, negated })
  | backward .. => none

end Written

end GraphMotif.Pattern
