import GraphMotif.Proofs.Graph.Assignments

/-!
# Keys of a graph

Within a plan, identities meet the ends of edges, and columns of edges meet themselves. A match may
make a column mixed. Where a graph has steady keys for a pattern, this makes no difference to what
meets what.
-/

namespace GraphMotif

/-- A demand that two elements agree in a column of each. -/
structure Link where
  left : Site
  leftColumn : String
  right : Site
  rightColumn : String
  nullSafe : Bool
  deriving DecidableEq

/-- The columns that the plan of a pattern compares: the identity of a name with an end of an edge
that the pattern names with it, either way round, or a column with itself. -/
inductive Comparable (p : Pattern) : Site → String → Site → String → Prop
  | idEnd {name side : String} {edge : Site} (hend : (name, side) ∈ p.namedEnds)
      (hedge : edge.kind = .edge) : Comparable p (.named .vertex name) idColumn edge side
  | endId {name side : String} {edge : Site} (hend : (name, side) ∈ p.namedEnds)
      (hedge : edge.kind = .edge) : Comparable p edge side (.named .vertex name) idColumn
  | self {s s' : Site} (column : String) (hkind : s.kind = s'.kind) :
      Comparable p s column s' column

namespace Graph

variable (g : Graph)

/-- Whether two rows agree in a column of each. -/
def equalAt (kind : Element) (column : String) (kind' : Element) (column' : String)
    (row row' : Row) : Bool :=
  let t := g.relations.table kind
  let t' := g.relations.table kind'
  (t.kindAt column).equal (t'.kindAt column') (t.cellAt row column) (t'.cellAt row' column')

/-- Whether an assignment fulfils a demand. -/
def holds (a : Assignment) (k : Link) : Bool :=
  g.equalAt k.left.kind k.leftColumn k.right.kind k.rightColumn (a k.left) (a k.right) ||
    (k.nullSafe && ((g.relations.table k.left.kind).cellAt (a k.left) k.leftColumn).isNull &&
      ((g.relations.table k.right.kind).cellAt (a k.right) k.rightColumn).isNull)

/-- A demand says nothing about other elements. -/
theorem dependsOn_holds (k : Link) (sites : Set Site) (hleft : k.left ∈ sites)
    (hright : k.right ∈ sites) : DependsOn (fun a => g.holds a k) sites := fun a a' h => by
  simp only [holds, h k.left hleft, h k.right hright]

/-- Whether matches in the plan of a pattern may make a column of an element mixed. -/
def Retyped (p : Pattern) (column : String) : Site → Prop
  | .named .vertex name => ∃ side, (name, side) ∈ p.namedEnds ∧ g.Retypes side
  | .nameless .vertex _ => False
  | .named .edge _ | .nameless .edge _ => g.Retypes column

/-- How a column of an element may be stored in a plan: as in its relation, or mixed if matches
retype it. -/
def Stored (p : Pattern) (s : Site) (column : String) (stored : ColumnKind) : Prop :=
  stored = (g.relations.table s.kind).kindAt column ∨ stored = .mixed ∧ g.Retyped p column s

variable {g}
variable {p : Pattern} {s s' edge : Site} {name side column column' : String}
  {stored stored' : ColumnKind}

theorem retyped_edge (hedge : edge.kind = .edge) : g.Retyped p side edge ↔ g.Retypes side := by
  cases edge with
  | named kind name =>
    obtain rfl : kind = .edge := hedge
    exact Iff.rfl
  | nameless kind clause =>
    obtain rfl : kind = .edge := hedge
    exact Iff.rfl

/-- A match with a column of a relation leaves a column stored in one of its ways. -/
theorem Stored.matched (hcomparable : Comparable p s column s' column')
    (h : g.Stored p s column stored) :
    g.Stored p s column (stored.matched ((g.relations.table s'.kind).kindAt column')) := by
  rw [ColumnKind.matched]
  split
  · exact h
  · next hkinds =>
    rcases h with rfl | ⟨-, hretyped⟩
    · refine .inr ⟨rfl, ?_⟩
      rw [Bool.or_eq_true, decide_eq_true_iff, Bool.and_eq_true, not_or] at hkinds
      cases hcomparable with
      | idEnd hend hedge =>
        rw [hedge] at hkinds
        exact ⟨_, hend, hkinds⟩
      | endId hend hedge =>
        rw [hedge] at hkinds
        exact (retyped_edge hedge).2
          ⟨fun h => hkinds.1 h.symm, fun h => hkinds.2 ⟨h.2, h.1⟩⟩
      | self column hkind =>
        rw [hkind] at hkinds
        exact absurd rfl hkinds.1
    · exact .inr ⟨rfl, hretyped⟩

/-- In whatever way columns are stored, an identity meets an end of an edge as the columns of the
relations do. -/
theorem SteadyKeys.atEnd_eq (hsteady : g.SteadyKeys p) (hend : (name, side) ∈ p.namedEnds)
    (hedge : edge.kind = .edge) (h : g.Stored p (.named .vertex name) idColumn stored)
    (h' : g.Stored p edge side stored') {vertex row : Row} (hvertex : vertex ∈ g.vertices.rows)
    (hrow : row ∈ g.edges.rows) :
    stored.equal stored' (g.vertices.cellAt vertex idColumn) (g.edges.cellAt row side) =
      g.atEnd side vertex row := by
  by_cases hretypes : ∃ side, (name, side) ∈ p.namedEnds ∧ g.Retypes side
  · -- where matches retype the identity, no cell is rounded to another one
    have hsame := (hsteady name).resolve_left
      (fun hnone => let ⟨side, hend, hretypes⟩ := hretypes; hnone side hend hretypes)
      side hend vertex hvertex row hrow
    rcases h with rfl | ⟨rfl, -⟩
    · rcases h' with rfl | ⟨rfl, -⟩
      · rw [hedge]
        rfl
      · rw [ColumnKind.equal_mixed, hsame]
    · rw [ColumnKind.mixed_equal, hsame]
  · rw [h.resolve_right fun h => hretypes h.2,
      h'.resolve_right fun h => hretypes ⟨side, hend, (retyped_edge hedge).1 h.2⟩, hedge]
    rfl

/-- In whatever way columns are stored, they meet as the columns of the relations do. -/
theorem SteadyKeys.equal_eq (hsteady : g.SteadyKeys p)
    (hcomparable : Comparable p s column s' column') (h : g.Stored p s column stored)
    (h' : g.Stored p s' column' stored') {row row' : Row}
    (hrow : row ∈ (g.relations.table s.kind).rows)
    (hrow' : row' ∈ (g.relations.table s'.kind).rows) :
    stored.equal stored' ((g.relations.table s.kind).cellAt row column)
        ((g.relations.table s'.kind).cellAt row' column') =
      g.equalAt s.kind column s'.kind column' row row' := by
  cases hcomparable with
  | idEnd hend hedge =>
    rw [hedge] at hrow' ⊢
    exact hsteady.atEnd_eq hend hedge h h' hrow hrow'
  | endId hend hedge =>
    rw [hedge] at hrow ⊢
    exact (ColumnKind.equal_comm ..).trans
      ((hsteady.atEnd_eq hend hedge h' h hrow' hrow).trans (ColumnKind.equal_comm ..))
  | self column hkind =>
    have hsame : g.equalAt s.kind column s'.kind column row row' =
        ((g.relations.table s.kind).cellAt row column).same
          ((g.relations.table s'.kind).cellAt row' column) := by
      rw [equalAt, hkind]
      exact ColumnKind.equal_self ..
    rw [hsame]
    rcases h with rfl | ⟨rfl, -⟩
    · rcases h' with rfl | ⟨rfl, -⟩
      · rw [hkind]
        exact ColumnKind.equal_self ..
      · exact ColumnKind.equal_mixed ..
    · exact ColumnKind.mixed_equal ..

end Graph

end GraphMotif
