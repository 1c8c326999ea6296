import GraphMotif.Element
import GraphMotif.Pattern
import GraphMotif.Text.Identifier

/-!
# The names in a pattern

Which names a clause writes for vertices and which for edges, and what a pattern has to observe with
its names: to be written down they are identifiers, and to be joined a name stands for one kind of
element and comes from a positive clause.
-/

namespace GraphMotif

/-- The names that a clause writes for elements of a kind. -/
def Clause.names : Clause → Element → List String
  | .vertex name, .vertex => name.toList
  | .vertex _, .edge => []
  | .edge e, .vertex => e.src.toList ++ e.dst.toList
  | .edge e, .edge => e.edge.toList

/-- Every name of a pattern is an identifier. -/
def Pattern.UsesIdentifiers (p : Pattern) : Prop :=
  ∀ c ∈ p.clauses, ∀ kind, ∀ name ∈ c.names kind, isIdentifier name.toList = true

/-- The slots of a clause, each with the kind of element that it stands for. -/
def Clause.slots : Clause → List (Element × Slot)
  | .vertex name => [(.vertex, name)]
  | .edge e => [(.vertex, e.src), (.edge, e.edge), (.vertex, e.dst)]

theorem Clause.mem_names_iff {c : Clause} {kind : Element} {name : String} :
    name ∈ c.names kind ↔ (kind, some name) ∈ c.slots := by
  cases c <;> cases kind <;> simp [names, slots, eq_comm]

/-- No name stands for a vertex and for an edge, every name of a negated clause occurs in an earlier
positive one, and the first clause is positive. -/
structure Pattern.WellBound (p : Pattern) : Prop where
  one_kind : ∀ name, (∃ c ∈ p.clauses, name ∈ c.names .vertex) →
    ¬∃ c ∈ p.clauses, name ∈ c.names .edge
  bound : ∀ before c after, p.clauses = before ++ c :: after → c.negated = true →
    ∀ kind, ∀ name ∈ c.names kind,
      ∃ c' ∈ before, c'.negated = false ∧ ∃ kind', name ∈ c'.names kind'
  anchored : ∀ c, p.clauses.head? = some c → c.negated = false

end GraphMotif
